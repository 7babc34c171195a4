import ConfinedLisp.Proofs.SoleEngine
import ConfinedLisp.Proofs.Termination
import ConfinedLisp.Proofs.Unrolling

/-!
# Vectors that hold themselves

Loose comparison and encoding look into vectors, and a vector can be made an item of itself. So the
two do not always end. They end exactly if they do not come back: comparison to a pair of vectors
that it is still comparing, encoding to a vector that it is still encoding. How far they get on the
way matters, because comparison stops at the first difference and encoding at the first failure.

## Main definitions

- `Json.ComesTo`, `Loose.ComesTo`: the vectors that encoding a value, and the pairs of vectors that
  comparing two values, comes to.
- `Store.EncodingLoops`, `Store.ComparisonLoops`: coming back.

## Main results

- `Store.answers_unless_loops`: comparison has an answer, and encoding a text or a failure, exactly
  if it does not loop.
-/

namespace ConfinedLisp

/-! ### Encoding -/

namespace Json

/-- The values that the encoding of a value is made of, in the order in which they are encoded. -/
def inner : Value → List Value
  | .list _ items => items
  | .array table => table.values
  | _ => []

/-- Encoding a value comes to a vector: whatever stands before it has a document. -/
inductive ComesTo (vectors : VectorId → Except Halt Document) (i : VectorId) : Value → Prop where
  | here : ComesTo vectors i (.object i)
  | inside {v x : Value} {before after : List Value} :
      inner v = before ++ x :: after → (∀ y ∈ before, ∃ d, encodeWith vectors y = .ok d) →
        ComesTo vectors i x → ComesTo vectors i v

/-- Encoding some values in turn comes to a vector. -/
def ComesAmong (vectors : VectorId → Except Halt Document) (i : VectorId) (vs : List Value) : Prop :=
  ∃ before x after, vs = before ++ x :: after ∧
    (∀ y ∈ before, ∃ d, encodeWith vectors y = .ok d) ∧ ComesTo vectors i x

variable {vectors : VectorId → Except Halt Document} {i : VectorId}

theorem comesAmong_nil : ¬ ComesAmong vectors i [] := by
  rintro ⟨before, x, after, h, -⟩
  cases before <;> cases h

theorem comesAmong_cons {v : Value} {vs : List Value} :
    ComesAmong vectors i (v :: vs) ↔
      ComesTo vectors i v ∨ (∃ d, encodeWith vectors v = .ok d) ∧ ComesAmong vectors i vs := by
  constructor
  · rintro ⟨before, x, after, h, hbefore, hx⟩
    cases before with
    | nil =>
      cases h
      exact Or.inl hx
    | cons y before =>
      cases h
      exact Or.inr ⟨hbefore v (by simp), before, x, after, rfl,
        fun y hy => hbefore y (by simp [hy]), hx⟩
  · rintro (h | ⟨hv, before, x, after, rfl, hbefore, hx⟩)
    · exact ⟨[], v, vs, rfl, by simp, h⟩
    · exact ⟨v :: before, x, after, rfl, by simpa using ⟨hv, hbefore⟩, hx⟩

theorem comesTo_iff {v : Value} (hv : ∀ j, v ≠ .object j) :
    ComesTo vectors i v ↔ ComesAmong vectors i (inner v) := by
  constructor
  · intro h
    cases h with
    | here => exact absurd rfl (hv i)
    | inside hinner hbefore hx => exact ⟨_, _, _, hinner, hbefore, hx⟩
  · rintro ⟨before, x, after, hinner, hbefore, hx⟩
    exact .inside hinner hbefore hx

/-- Encoding asks for the documents of vectors, and is endless if one of these is. -/
abbrev AsksVectors {δ : Type} (f : (VectorId → Except Halt Document) → Except Halt δ)
    (asks : (VectorId → Except Halt Document) → VectorId → Prop) : Prop :=
  Asking (.error .endless) (.error .endless) f asks

theorem AsksVectors.map {δ ε : Type} {f : (VectorId → Except Halt Document) → Except Halt δ}
    {asks : (VectorId → Except Halt Document) → VectorId → Prop} (hf : AsksVectors f asks)
    (φ : δ → ε) : AsksVectors (fun g => (f g).map φ) asks where
  bottom_iff g := by
    rw [← hf.bottom_iff g]
    cases f g <;> simp [Except.map]
  agree hgh := ⟨congrArg (Except.map φ) (hf.agree hgh).1, (hf.agree hgh).2⟩

/-- The documents of some values, from that of the first one and those of the others. -/
def joinItems (first : Except Halt Document) (rest : Except Halt (List Document)) :
    Except Halt (List Document) :=
  match first with
  | .error halt => .error halt
  | .ok d => rest.map (d :: ·)

theorem encodeItems_cons (vectors : VectorId → Except Halt Document) (v : Value) (vs : List Value) :
    encodeItems vectors (v :: vs) =
      joinItems (encodeWith vectors v) (encodeItems vectors vs) := by
  rw [encodeItems]
  cases encodeWith vectors v with
  | error halt => rfl
  | ok d => cases encodeItems vectors vs <;> rfl

theorem encodeItems_asks {vs : List Value}
    (h : ∀ v ∈ vs, AsksVectors (encodeWith · v) fun g i => ComesTo g i v) :
    AsksVectors (encodeItems · vs) fun g i => ComesAmong g i vs := by
  induction vs with
  | nil => exact .of_const (fun _ => rfl) nofun fun _ _ => comesAmong_nil
  | cons v vs ih =>
    have hjoin : AsksVectors _ _ := (h v (by simp)).andThen (ih fun v hv => h v (by simp [hv]))
      (fun d => ∃ document, d = .ok document) joinItems nofun ?_ ?_
    · simpa only [encodeItems_cons, comesAmong_cons] using hjoin
    · rintro _ rest ⟨d, rfl⟩
      cases rest <;> simp [joinItems, Except.map]
    · intro first rest rest' hstop
      cases first with
      | ok d => exact absurd ⟨d, rfl⟩ hstop
      | error halt => exact ⟨rfl, by simp [joinItems]⟩

theorem encodeWith_asks (v : Value) : AsksVectors (encodeWith · v) fun g i => ComesTo g i v := by
  induction v using Value.descend with
  | h v hitems hentries =>
    by_cases hobject : ∃ i, v = .object i
    · obtain ⟨i, rfl⟩ := hobject
      have hcomes : ∀ (g : VectorId → Except Halt Document) j, ComesTo g j (.object i) ↔ j = i := by
        refine fun g j => ⟨fun h => ?_, fun h => h ▸ .here⟩
        cases h with
        | here => rfl
        | inside hinner => simp [inner] at hinner
      simpa only [encodeWith, hcomes] using Asking.ask i
    · simp only [not_exists] at hobject
      simp only [comesTo_iff hobject]
      cases v with
      | list id items => exact (encodeItems_asks (hitems id items rfl)).map Document.array
      | array t =>
        simp only [encodeWith, encodeTable_eq]
        exact (encodeItems_asks (hentries t rfl)).map (assemble t.keys)
      | object i => exact absurd rfl (hobject i)
      | float x =>
        have hhalt : ∀ g, encodeWith g (.float x) ≠ .error .endless := by
          intro g h
          rw [encodeWith] at h
          split at h <;> cases h
        exact .of_const (fun _ => rfl) (hhalt fun _ => .error .endless) fun _ _ => comesAmong_nil
      | _ => exact .of_const (fun _ => rfl) (fun h => by cases h) fun _ _ => comesAmong_nil

/-- Encoding the vectors of a store, round by round. A vector is encoded like the list of its
items. -/
def unrolling (s : Store) : Unrolling VectorId (Except Halt Document) where
  bottom := .error .endless
  step g i := (encodeItems g (s.vector i)).map .array
  asks g i j := ComesTo g j (.list 0 (s.vector i))
  asking i := encodeWith_asks (.list 0 (s.vector i))
  nodes := Finset.range s.vectors.size
  outside i hi := by
    rw [Finset.mem_range, not_lt] at hi
    rw [Store.vector, Array.getElem?_eq_none hi]
    nofun

theorem rounds_unrolling (s : Store) (n : Nat) : (unrolling s).rounds n = encodeVector s n := by
  induction n with
  | zero => rfl
  | succ n ih => exact congrArg (unrolling s).step ih

theorem limit_unrolling (s : Store) : (unrolling s).limit = encodeVector s (s.vectors.size + 1) := by
  have hcard : (unrolling s).nodes.card = s.vectors.size := Finset.card_range _
  rw [Unrolling.limit, hcard, rounds_unrolling]

end Json

/-! ### Comparison -/

namespace Loose

/-- What the comparison of two values comes down to, in order: pairs of items, or of the entries of
one table with those that the other one has for their keys. -/
def inner : Value → Value → List (Value × Option Value)
  | .list _ xs, .list _ ys => if xs.length = ys.length then xs.zip (ys.map some) else []
  | .array t, .array u =>
    if t.size = u.size then t.entries.map fun e => (e.2, u.get? e.1) else []
  | _, _ => []

/-- Comparing two values comes to two vectors: whatever stands before them is equal. -/
inductive ComesTo (vectors : VectorId → VectorId → Option Bool) (p : VectorId × VectorId) :
    Value → Value → Prop where
  | here : p.1 ≠ p.2 → ComesTo vectors p (.object p.1) (.object p.2)
  | inside {a b x y : Value} {before after : List (Value × Option Value)} :
      inner a b = before ++ (x, some y) :: after →
      (∀ q ∈ before, ∃ w, q.2 = some w ∧ Value.looseEqWith vectors q.1 w = some true) →
        ComesTo vectors p x y → ComesTo vectors p a b

/-- Comparing pairs in turn comes to two vectors. -/
def ComesAmong (vectors : VectorId → VectorId → Option Bool) (p : VectorId × VectorId)
    (pairs : List (Value × Option Value)) : Prop :=
  ∃ before x y after, pairs = before ++ (x, some y) :: after ∧
    (∀ q ∈ before, ∃ w, q.2 = some w ∧ Value.looseEqWith vectors q.1 w = some true) ∧
    ComesTo vectors p x y

variable {vectors : VectorId → VectorId → Option Bool} {p : VectorId × VectorId}

theorem comesAmong_nil : ¬ ComesAmong vectors p [] := by
  rintro ⟨before, x, y, after, h, -⟩
  cases before <;> cases h

theorem comesAmong_none {x : Value} {rest : List (Value × Option Value)} :
    ¬ ComesAmong vectors p ((x, none) :: rest) := by
  rintro ⟨before, x', y, after, h, hbefore, -⟩
  cases before with
  | nil => cases h
  | cons q before =>
    cases h
    obtain ⟨w, hw, -⟩ := hbefore (x, none) (by simp)
    cases hw

theorem comesAmong_cons {x y : Value} {rest : List (Value × Option Value)} :
    ComesAmong vectors p ((x, some y) :: rest) ↔ ComesTo vectors p x y ∨
      Value.looseEqWith vectors x y = some true ∧ ComesAmong vectors p rest := by
  constructor
  · rintro ⟨before, x', y', after, h, hbefore, hcomes⟩
    cases before with
    | nil =>
      cases h
      exact Or.inl hcomes
    | cons q before =>
      cases h
      obtain ⟨w, hw, hequal⟩ := hbefore (x, some y) (by simp)
      cases hw
      exact Or.inr ⟨hequal, before, x', y', after, rfl, fun q hq => hbefore q (by simp [hq]),
        hcomes⟩
  · rintro (h | ⟨hequal, before, x', y', after, rfl, hbefore, hcomes⟩)
    · exact ⟨[], x, y, rest, rfl, by simp, h⟩
    · refine ⟨(x, some y) :: before, x', y', after, rfl, fun q hq => ?_, hcomes⟩
      rcases List.mem_cons.1 hq with rfl | hq
      · exact ⟨y, rfl, hequal⟩
      · exact hbefore q hq

theorem comesTo_iff {a b : Value} (h : ∀ i j, a = .object i → b ≠ .object j) :
    ComesTo vectors p a b ↔ ComesAmong vectors p (inner a b) := by
  constructor
  · intro hcomes
    cases hcomes with
    | here => exact absurd rfl (h p.1 p.2 rfl)
    | inside hinner hbefore hx => exact ⟨_, _, _, _, hinner, hbefore, hx⟩
  · rintro ⟨before, x, y, after, hinner, hbefore, hx⟩
    exact .inside hinner hbefore hx

/-- Comparison asks for the answers for pairs of vectors. -/
abbrev AsksVectors (f : (VectorId → VectorId → Option Bool) → Option Bool)
    (asks : (VectorId → VectorId → Option Bool) → VectorId × VectorId → Prop) : Prop :=
  Asking none none (fun g : VectorId × VectorId → Option Bool => f g.curry) fun g => asks g.curry

theorem allWith_asks {pairs : List (Value × Option Value)}
    (h : ∀ x y, (x, some y) ∈ pairs →
      AsksVectors (Value.looseEqWith · x y) fun g p => ComesTo g p x y) :
    AsksVectors (allWith · pairs) fun g p => ComesAmong g p pairs := by
  induction pairs with
  | nil => exact .of_const (fun _ => rfl) nofun fun _ _ => comesAmong_nil
  | cons pair rest ih =>
    obtain ⟨x, y?⟩ := pair
    cases y? with
    | none => exact .of_const (fun _ => rfl) nofun fun _ _ => comesAmong_none
    | some y =>
      simp only [allWith_cons, comesAmong_cons]
      exact (h x y (by simp)).andThen (ih fun x y hxy => h x y (by simp [hxy]))
        (· = some true) (fun first rest => if first = some true then rest else first) nofun
        (fun first rest hpass => by simp [hpass]) fun first rest rest' hstop => by simp [hstop]

/-- Two lists, two tables and two vectors are compared by what is in them, all else at once. -/
theorem looseEqWith_cases (a b : Value) :
    (∃ id xs id' ys, a = .list id xs ∧ b = .list id' ys) ∨ (∃ t u, a = .array t ∧ b = .array u) ∨
      (∃ i j, a = .object i ∧ b = .object j) ∨
      ∃ answer, (∀ vectors, Value.looseEqWith vectors a b = some answer) ∧ inner a b = [] ∧
        ∀ i j, a = .object i → b ≠ .object j := by
  cases a <;> cases b <;> simp [Value.looseEqWith, inner]

theorem looseEqWith_asks (a b : Value) :
    AsksVectors (Value.looseEqWith · a b) fun g p => ComesTo g p a b := by
  induction a using Value.descend generalizing b with
  | h a hitems hentries =>
    rcases looseEqWith_cases a b with ⟨id, xs, id', ys, rfl, rfl⟩ | ⟨t, u, rfl, rfl⟩ |
      ⟨i, j, rfl, rfl⟩ | ⟨answer, hanswer, hinner, hvectors⟩
    · simp only [comesTo_iff (a := .list id xs) nofun, Value.looseEqWith, inner]
      split
      · simp only [looseItemsWith_eq]
        refine allWith_asks fun x y hxy => hitems id xs rfl x ?_ y
        exact (List.of_mem_zip hxy).1
      · exact .of_const (fun _ => rfl) nofun fun _ _ => comesAmong_nil
    · simp only [comesTo_iff (a := .array t) nofun, Value.looseEqWith, inner]
      split
      · simp only [looseTablesWith_eq]
        refine allWith_asks fun x y hxy => hentries t rfl x ?_ y
        obtain ⟨e, he, hpair⟩ := List.mem_map.1 hxy
        obtain ⟨rfl, -⟩ := Prod.mk.inj hpair
        exact List.mem_map.2 ⟨e, he, rfl⟩
      · exact .of_const (fun _ => rfl) nofun fun _ _ => comesAmong_nil
    · have hcomes : ∀ (g : VectorId → VectorId → Option Bool) p,
          ComesTo g p (.object i) (.object j) ↔ i ≠ j ∧ p = (i, j) := by
        refine fun g p => ⟨fun h => ?_, fun ⟨hne, hp⟩ => by subst hp; exact .here hne⟩
        cases h with
        | here hne => exact ⟨hne, rfl⟩
        | inside hinner => simp [inner] at hinner
      simp only [hcomes, Value.looseEqWith]
      by_cases hij : i = j
      · exact .of_const (fun _ => if_pos hij) nofun fun _ _ h => h.1 hij
      · have hask : AsksVectors (fun g => g i j) fun _ p => p = (i, j) := Asking.ask (i, j)
        simpa [hij] using hask
    · refine .of_const (fun g => hanswer g.curry) nofun fun g p hcomes => ?_
      have hamong := (comesTo_iff hvectors).1 hcomes
      rw [hinner] at hamong
      exact comesAmong_nil hamong

/-- Comparing the vectors of a store in pairs, round by round. Two vectors are compared like the lists
of their items. -/
def unrolling (s : Store) : Unrolling (VectorId × VectorId) (Option Bool) where
  bottom := none
  step g p := Value.looseEqWith g.curry (.list 0 (s.vector p.1)) (.list 0 (s.vector p.2))
  asks g p q := ComesTo g.curry q (.list 0 (s.vector p.1)) (.list 0 (s.vector p.2))
  asking p := looseEqWith_asks _ _
  nodes := Finset.range s.vectors.size ×ˢ Finset.range s.vectors.size
  outside p hp h := by
    have hvector : ∀ i, ¬ i < s.vectors.size → s.vector i = [] := by
      intro i hi
      rw [Store.vector, Array.getElem?_eq_none (Nat.not_lt.1 hi)]
    have hempty : s.vector p.1 = [] ∨ s.vector p.2 = [] := by
      rw [Finset.mem_product, Finset.mem_range, Finset.mem_range, not_and_or] at hp
      exact hp.imp (hvector p.1) (hvector p.2)
    rw [Value.looseEqWith] at h
    split at h
    · obtain ⟨x, hx, y, hy, -⟩ := Value.looseItemsWith_none h
      rcases hempty with hempty | hempty
      · simp [hempty] at hx
      · simp [hempty] at hy
    · cases h

theorem rounds_unrolling (s : Store) (n : Nat) (i j : VectorId) :
    (unrolling s).rounds n (i, j) = s.looseVectors n i j := by
  induction n generalizing i j with
  | zero => rfl
  | succ n ih =>
    have hcurry : ((unrolling s).rounds n).curry = s.looseVectors n :=
      funext fun i => funext fun j => ih i j
    rw [Unrolling.rounds, Store.looseVectors, ← hcurry]
    rfl

theorem limit_unrolling (s : Store) :
    (unrolling s).limit.curry = s.looseVectors (s.vectors.size * s.vectors.size + 1) := by
  have hcard : (unrolling s).nodes.card = s.vectors.size * s.vectors.size := by
    simp [unrolling]
  rw [Unrolling.limit, hcard]
  exact funext fun i => funext fun j => rounds_unrolling s _ i j

end Loose

/-! ### Coming back -/

namespace Store

variable (s : Store)

/-- Encoding one vector comes to another one. -/
def EncodingLeads (i j : VectorId) : Prop :=
  Json.ComesTo (Json.encodeVector s (s.vectors.size + 1)) j (.list 0 (s.vector i))

/-- Comparing two vectors comes to two others. -/
def ComparisonLeads (p q : VectorId × VectorId) : Prop :=
  Loose.ComesTo (s.looseVectors (s.vectors.size * s.vectors.size + 1)) q
    (.list 0 (s.vector p.1)) (.list 0 (s.vector p.2))

/-- Encoding a value comes to a vector, and from there to one that it comes back to. -/
def EncodingLoops (v : Value) : Prop :=
  ∃ i j, Json.ComesTo (Json.encodeVector s (s.vectors.size + 1)) i v ∧
    Relation.ReflTransGen s.EncodingLeads i j ∧ Relation.TransGen s.EncodingLeads j j

/-- Comparing two values comes to two vectors, and from there to two that it comes back to. -/
def ComparisonLoops (a b : Value) : Prop :=
  ∃ p q, Loose.ComesTo (s.looseVectors (s.vectors.size * s.vectors.size + 1)) p a b ∧
    Relation.ReflTransGen s.ComparisonLeads p q ∧ Relation.TransGen s.ComparisonLeads q q

variable {s} {a b v : Value}

/-- Encoding is endless exactly if it comes back. -/
theorem encode_eq_endless_iff : Json.encode s v = .error .endless ↔ s.EncodingLoops v := by
  have hasks := (Json.encodeWith_asks v).bottom_iff (Json.encodeVector s (s.vectors.size + 1))
  refine hasks.trans ⟨?_, ?_⟩
  · rintro ⟨i, hcomes, hi⟩
    rw [← Json.limit_unrolling] at hi
    obtain ⟨j, hleads, hloop⟩ := Unrolling.limit_eq_bottom_iff.1 hi
    rw [Json.limit_unrolling] at hleads hloop
    exact ⟨i, j, hcomes, hleads, hloop⟩
  · rintro ⟨i, j, hcomes, hleads, hloop⟩
    refine ⟨i, hcomes, ?_⟩
    rw [← Json.limit_unrolling]
    refine Unrolling.limit_eq_bottom_iff.2 ⟨j, ?_⟩
    rw [Json.limit_unrolling]
    exact ⟨hleads, hloop⟩

/-- Comparison has no answer exactly if it comes back. -/
theorem looseEq_eq_none_iff : s.looseEq a b = none ↔ s.ComparisonLoops a b := by
  have hasks := (Loose.looseEqWith_asks a b).bottom_iff (Loose.unrolling s).limit
  have hleads : (Loose.unrolling s).asks (Loose.unrolling s).limit = s.ComparisonLeads := by
    funext p q
    show Loose.ComesTo (Loose.unrolling s).limit.curry q _ _ = _
    rw [Loose.limit_unrolling]
    rfl
  simp only [Loose.limit_unrolling] at hasks
  refine hasks.trans ⟨?_, ?_⟩
  · rintro ⟨p, hcomes, hp⟩
    obtain ⟨q, hpq, hloop⟩ := Unrolling.limit_eq_bottom_iff.1 hp
    rw [hleads] at hpq hloop
    exact ⟨p, q, hcomes, hpq, hloop⟩
  · rintro ⟨p, q, hcomes, hpq, hloop⟩
    refine ⟨p, hcomes, Unrolling.limit_eq_bottom_iff.2 ⟨q, ?_⟩⟩
    rw [hleads]
    exact ⟨hpq, hloop⟩

/-- A comparison that comes back has no answer, however many steps from vector to vector it is
given. -/
theorem ComparisonLoops.looseEqWith (h : s.ComparisonLoops a b) (fuel : Nat) :
    Value.looseEqWith (s.looseVectors fuel) a b = none := by
  by_contra hanswer
  have hrounds : ((Loose.unrolling s).rounds fuel).curry = s.looseVectors fuel :=
    funext fun i => funext fun j => Loose.rounds_unrolling s fuel i j
  rw [← hrounds] at hanswer
  have hmore := (Loose.looseEqWith_asks a b).of_more (fun _ => Unrolling.limit_of_rounds) hanswer
  rw [Loose.limit_unrolling] at hmore
  exact hanswer (hmore.1.symm.trans (looseEq_eq_none_iff.2 h))

/-- An encoding that comes back is endless, however many steps it is given. -/
theorem EncodingLoops.encodeWith (h : s.EncodingLoops v) (fuel : Nat) :
    Json.encodeWith (Json.encodeVector s fuel) v = .error .endless := by
  by_contra hanswer
  rw [← Json.rounds_unrolling] at hanswer
  have hmore := (Json.encodeWith_asks v).of_more (fun _ => Unrolling.limit_of_rounds) hanswer
  rw [Json.limit_unrolling] at hmore
  exact hanswer (hmore.1.symm.trans (encode_eq_endless_iff.2 h))

/-- Comparing two values in the language. -/
theorem allLoose_pair (callee : String) (a b : Value) (s : Store) :
    Logic.allLoose callee [a, b] s = ((s.looseEq a b).elim (.error .endless) .ok, s) := by
  have hsingle : Logic.allLooseWith a s [b] = s.looseEq a b := by
    rw [Logic.allLooseWith]
    split
    · next h => exact h.symm
    · rfl
  have hread : (Eval.read fun s => Logic.allLooseWith a s [b]) s = (.ok (s.looseEq a b), s) := by
    rw [Eval.read, hsingle]
  have hcount : Eval.ofExcept (Operands.count callee (.atLeast 2) [a, b]) s = (.ok (), s) := rfl
  unfold Logic.allLoose
  refine (Eval.bind_of_ok hcount _).trans ?_
  refine (Eval.bind_of_ok hread _).trans ?_
  cases s.looseEq a b <;> rfl

/-- Both comparisons of the language give a boolean unless they come back. -/
theorem compares_iff (callee : String) (f : Bool → Bool) :
    (∃ answer, ((Logic.allLoose callee [a, b]).bind fun same => Eval.pure (Value.bool (f same))) s =
      (.ok (.bool answer), s)) ↔ ¬ s.ComparisonLoops a b := by
  rw [← looseEq_eq_none_iff]
  have hpair := allLoose_pair callee a b s
  cases hanswer : s.looseEq a b with
  | none =>
    rw [hanswer] at hpair
    simp [Eval.bind_of_error hpair]
  | some answer =>
    rw [hanswer] at hpair
    simp [Eval.bind_of_ok hpair, Eval.pure]

/-- Encoding a value in the language. -/
theorem jsonEncode_single (v : Value) (s : Store) :
    Host.jsonEncode [v] s =
      ((Json.encode s v).map fun d => .str d.render, s) := by
  have hsingle : Eval.ofExcept (Host.single "json_encode" [v]) s = (.ok v, s) := rfl
  have hread : (Eval.read fun s => Json.encode s v) s = (.ok (Json.encode s v), s) := rfl
  unfold Host.jsonEncode
  refine (Eval.bind_of_ok hsingle _).trans ?_
  refine (Eval.bind_of_ok hread _).trans ?_
  cases Json.encode s v with
  | ok d => rfl
  | error halt => cases halt <;> rfl

/-- Encoding gives a text or fails by itself unless it comes back. -/
theorem encodes_iff :
    ((∃ text, Host.jsonEncode [v] s = (.ok (.str text), s)) ∨
      ∃ failure, Host.jsonEncode [v] s = (.error (.error (.host "json_encode" failure)), s)) ↔
      ¬ s.EncodingLoops v := by
  rw [← encode_eq_endless_iff, jsonEncode_single]
  cases hencode : Json.encode s v with
  | ok d => simp [Except.map]
  | error halt =>
    rcases Json.encode_error hencode with rfl | ⟨failure, rfl⟩
    · simp [Except.map]
    · simp [Except.map, Json.encodeFailure]

/-- `equal` goes on for ever where comparison comes back. -/
theorem ComparisonLoops.run_equal (h : s.ComparisonLoops a b) :
    Operation.run .equal [a, b] s = (.error .endless, s) := by
  have hpair := allLoose_pair "equal" a b s
  rw [looseEq_eq_none_iff.2 h] at hpair
  exact Eval.bind_of_error hpair fun same => Eval.pure (Value.bool same)

/-- `json_encode` goes on for ever where encoding comes back. -/
theorem EncodingLoops.run_jsonEncode (h : s.EncodingLoops v) :
    HostFunction.run .jsonEncode [v] s = (.error .endless, s) := by
  have hsingle := jsonEncode_single v s
  rwa [encode_eq_endless_iff.2 h] at hsingle

/-- When comparison and encoding have an outcome. `equal` and `not-equal` give a boolean exactly if
they do not come back to two vectors that they are still comparing; `json_encode` gives a text or
fails by itself exactly if it does not come back to a vector that it is still encoding. Where they
come back, no number of steps from vector to vector is enough. -/
theorem answers_unless_loops (s : Store) (a b : Value) :
    ((∃ answer, Operation.equal.run [a, b] s = (.ok (.bool answer), s)) ↔
      ¬ s.ComparisonLoops a b) ∧
    ((∃ answer, Operation.notEqual.run [a, b] s = (.ok (.bool answer), s)) ↔
      ¬ s.ComparisonLoops a b) ∧
    (((∃ text, HostFunction.jsonEncode.run [a] s = (.ok (.str text), s)) ∨
      ∃ failure, HostFunction.jsonEncode.run [a] s =
        (.error (.error (.host "json_encode" failure)), s)) ↔ ¬ s.EncodingLoops a) ∧
    (s.ComparisonLoops a b → ∀ fuel, Value.looseEqWith (s.looseVectors fuel) a b = none) ∧
    (s.EncodingLoops a →
      ∀ fuel, Json.encodeWith (Json.encodeVector s fuel) a = .error .endless) :=
  ⟨compares_iff "equal" id, compares_iff "not-equal" (!·), encodes_iff, fun h => h.looseEqWith,
    fun h => h.encodeWith⟩

/-! ### Vectors that hold themselves -/

/-- Two vectors that hold nothing but themselves are compared for ever. -/
theorem comparisonLoops_of_self {i j : VectorId} (hne : i ≠ j) (hi : s.vector i = [.object i])
    (hj : s.vector j = [.object j]) : s.ComparisonLoops (.object i) (.object j) := by
  have hleads : s.ComparisonLeads (i, j) (i, j) := by
    have hinner : Loose.inner (.list 0 (s.vector i)) (.list 0 (s.vector j)) =
        [] ++ (.object i, some (.object j)) :: [] := by
      rw [hi, hj]
      rfl
    exact .inside hinner nofun (.here hne)
  exact ⟨(i, j), (i, j), .here hne, .refl, .single hleads⟩

/-- A vector that holds nothing but itself is encoded for ever. -/
theorem encodingLoops_of_self {i : VectorId} (hi : s.vector i = [.object i]) :
    s.EncodingLoops (.object i) := by
  have hleads : s.EncodingLeads i i := by
    have hinner : Json.inner (.list 0 (s.vector i)) = [] ++ .object i :: [] := hi
    exact .inside hinner nofun .here
  exact ⟨i, i, .here, .refl, .single hleads⟩

/-- The standard type of vectors. -/
def vectorType : HostType :=
  ⟨"Vector", .plain .vectorOf,
    [("of", .vectorOf), ("len", .vectorLen), ("push", .vectorPush), ("to_list", .vectorToList)]⟩

theorem resolves_vectorType :
    Import.Resolves .standard (.sym "<Vector>") ("<Vector>", .type vectorType) :=
  ⟨"<Vector>", .name _,
    .type (show "<Vector>".toList = '<' :: ("Vector".toList ++ ['>']) from rfl) rfl⟩

theorem bindings_vectorType (id : Identity) :
    Import.Target.bindings id "<Vector>" (.type vectorType) =
      [("<Vector>::len", .callable (.foreign id "Vector::len" .vectorLen)),
        ("<Vector>::of", .callable (.foreign (id + 1) "Vector::of" .vectorOf)),
        ("<Vector>::push", .callable (.foreign (id + 2) "Vector::push" .vectorPush)),
        ("<Vector>::to_list", .callable (.foreign (id + 3) "Vector::to_list" .vectorToList)),
        ("<Vector>", .callable (.constructor (id + 4) vectorType))] := by
  have hsorted : vectorType.sortedStatics =
      [("len", .vectorLen), ("of", .vectorOf), ("push", .vectorPush), ("to_list", .vectorToList)] := by
    simp [HostType.sortedStatics, vectorType, List.mergeSort, List.MergeSort.Internal.splitInTwo]
  rw [Import.Target.bindings, Import.Target.callable, hsorted]
  rfl

section Programs

variable {r : Runtime} {bindings : List (String × Value)} {i j k : Identity}
  {name qualified : String}

/-- `(define name (<Vector>))` binds a name to a new vector. -/
theorem evaluate_define_vector (hsteps : r.limits.stepLimit = none)
    (hplaces : r.depth + 1 < r.limits.maxDepth)
    (hdefine : Assoc.find? "define" bindings = some (.callable (.primitive (.special .define) none)))
    (htype : Assoc.find? "<Vector>" bindings = some (.callable (.constructor i vectorType)))
    (name : String) (vectors : Array (Array Value)) (next id id' : Identity) :
    evaluate (.list id [.sym "define", .sym name, .list id' [.sym "<Vector>"]]) 0
        (sole r bindings vectors next) =
      (.ok (.object vectors.size), sole { r with steps := r.steps + 2 }
        (Assoc.put name (.object vectors.size) bindings) (vectors.push #[]) (next + 2)) := by
  obtain ⟨n, hn⟩ := Nat.exists_eq_add_of_lt hplaces
  have hplace : r.depth < r.limits.maxDepth := Nat.lt_of_succ_lt hplaces
  have hfuel : r.limits.maxDepth - r.depth - 1 = n + 1 := by omega
  rw [evaluate_sole hplace, hfuel]
  refine evaluateWithin_define hsteps hplace hdefine ?_ id
  exact evaluateWithin_names Host.vectorOf (r := r.entered) hsteps hplaces htype .nil
    (fun _ _ _ => rfl) rfl n id'

/-- `(<Vector>::push name name)` puts a vector into itself. -/
theorem evaluate_push_self (hsteps : r.limits.stepLimit = none)
    (hplace : r.depth < r.limits.maxDepth)
    (hpush : Assoc.find? "<Vector>::push" bindings =
      some (.callable (.foreign i qualified .vectorPush)))
    (hname : Assoc.find? name bindings = some (.object k)) (vectors : Array (Array Value))
    (next id : Identity) :
    ∃ size, evaluate (.list id [.sym "<Vector>::push", .sym name, .sym name]) 0
        (sole r bindings vectors next) =
      (.ok size, sole { r with steps := r.steps + 1 } bindings
        (vectors.modify k (· ++ [Value.object k])) (next + 1)) :=
  ⟨_, evaluate_names Host.vectorPush hsteps hplace hpush (.cons hname (.cons hname .nil))
    (fun _ _ _ => rfl) rfl id⟩

/-- Both forms in turn make a vector that holds nothing but itself. -/
theorem lastFrom_selfHolding (hsteps : r.limits.stepLimit = none)
    (hplaces : r.depth + 1 < r.limits.maxDepth)
    (hdefine : Assoc.find? "define" bindings = some (.callable (.primitive (.special .define) none)))
    (htype : Assoc.find? "<Vector>" bindings = some (.callable (.constructor i vectorType)))
    (hpush : Assoc.find? "<Vector>::push" bindings =
      some (.callable (.foreign j qualified .vectorPush)))
    (hname : "<Vector>::push" ≠ name) (vectors : Array (Array Value)) (next id id' id'' : Identity)
    (before : Value) (rest : List Value) :
    ∃ size, Evaluator.lastFrom evaluate 0 before
        (.list id [.sym "define", .sym name, .list id' [.sym "<Vector>"]] ::
          .list id'' [.sym "<Vector>::push", .sym name, .sym name] :: rest)
        (sole r bindings vectors next) =
      Evaluator.lastFrom evaluate 0 size rest (sole { r with steps := r.steps + 3 }
        (Assoc.put name (.object vectors.size) bindings) (vectors.push #[.object vectors.size])
        (next + 3)) := by
  have hmade := evaluate_define_vector hsteps hplaces hdefine htype name vectors next id id'
  obtain ⟨size, hpushed⟩ := evaluate_push_self (r := { r with steps := r.steps + 2 }) hsteps
    (Nat.lt_of_succ_lt hplaces) ((Assoc.find?_put_of_ne hname _ _).trans hpush)
    (Assoc.find?_put_self name _ _) (vectors.push #[]) (next + 2) id''
  have hvectors : (vectors.push #[]).modify vectors.size (· ++ [Value.object vectors.size]) =
      vectors.push #[.object vectors.size] := by
    refine Array.ext_getElem? fun l => ?_
    rw [Array.getElem?_modify, Array.getElem?_push, Array.getElem?_push]
    by_cases hl : vectors.size = l
    · simp [hl]
    · simp [hl, Ne.symm hl]
  rw [hvectors] at hpushed
  exact ⟨size, (Evaluator.lastFrom_cons hmade _ _).trans (Evaluator.lastFrom_cons hpushed _ _)⟩

end Programs

/-- A text that makes two vectors and puts each of them into itself. -/
def selfHolding : String :=
  "(use <Vector>) (define v (<Vector>)) (<Vector>::push v v) " ++
    "(define w (<Vector>)) (<Vector>::push w w)"

/-- In an engine that is alone, this text leaves two vectors that hold nothing but themselves. -/
theorem evalSource_selfHolding {bindings : List (String × Value)}
    (huse : Assoc.find? "use" bindings = some (.callable (.primitive (.special .imports) none)))
    (hdefine : Assoc.find? "define" bindings = some (.callable (.primitive (.special .define) none))) :
    ∃ v steps bindings' next,
      Engine.first.evalSource selfHolding (sole ⟨.standard, {}, 0, 0⟩ bindings #[] 0) =
        (.ok v, sole ⟨.standard, {}, 0, steps⟩ bindings' #[#[.object 0], #[.object 1]] next) ∧
      Assoc.find? "v" bindings' = some (.object 0) ∧ Assoc.find? "w" bindings' = some (.object 1) ∧
      ∀ name ∈ ["use", "equal"], Assoc.find? name bindings' = Assoc.find? name bindings := by
  have hforms : Form.read selfHolding =
      .ok [.list [.sym "use", .sym "<Vector>"],
        .list [.sym "define", .sym "v", .list [.sym "<Vector>"]],
        .list [.sym "<Vector>::push", .sym "v", .sym "v"],
        .list [.sym "define", .sym "w", .list [.sym "<Vector>"]],
        .list [.sym "<Vector>::push", .sym "w", .sym "w"]] := by rfl
  have hread : Eval.readForms Engine.defaultSourceName selfHolding
      (sole ⟨.standard, {}, 0, 0⟩ bindings #[] 0) =
        (.ok [.list 0 [.sym "use", .sym "<Vector>"],
          .list 2 [.sym "define", .sym "v", .list 1 [.sym "<Vector>"]],
          .list 3 [.sym "<Vector>::push", .sym "v", .sym "v"],
          .list 5 [.sym "define", .sym "w", .list 4 [.sym "<Vector>"]],
          .list 6 [.sym "<Vector>::push", .sym "w", .sym "w"]],
        sole ⟨.standard, {}, 0, 0⟩ bindings #[] 7) := by
    rw [Eval.readForms, hforms]
    rfl
  obtain ⟨imported, next, himport⟩ := evaluate_use (r := ⟨.standard, {}, 0, 0⟩) rfl
    (Nat.zero_lt_succ _) huse resolves_vectorType #[] 7 0
  -- What the import leaves of the names that were bound before.
  have hold : ∀ name ∈ ["define", "use", "equal"], Assoc.find? name (Assoc.putAll
      (Import.Target.bindings 8 "<Vector>" (.type vectorType)) bindings) =
        Assoc.find? name bindings := by
    intro name hname
    rw [bindings_vectorType]
    refine Assoc.find?_putAll_of_notMem ?_ _
    simp only [List.mem_cons, List.not_mem_nil, or_false] at hname
    rcases hname with rfl | rfl | rfl <;> simp [Assoc.keys]
  have htype : Assoc.find? "<Vector>" (Assoc.putAll
      (Import.Target.bindings 8 "<Vector>" (.type vectorType)) bindings) =
        some (.callable (.constructor 12 vectorType)) := by
    rw [bindings_vectorType]
    exact Assoc.find?_putAll (i := 4) rfl (by simp [Assoc.keys]) _
  have hpush : Assoc.find? "<Vector>::push" (Assoc.putAll
      (Import.Target.bindings 8 "<Vector>" (.type vectorType)) bindings) =
        some (.callable (.foreign 10 "Vector::push" .vectorPush)) := by
    rw [bindings_vectorType]
    exact Assoc.find?_putAll (i := 2) rfl (by simp [Assoc.keys]) _
  generalize Assoc.putAll (Import.Target.bindings 8 "<Vector>" (.type vectorType)) bindings =
    imports at himport hold htype hpush
  rw [← hold "define" (by simp)] at hdefine
  have hv_name : "<Vector>::push" ≠ "v" := by decide
  have hw_name : "<Vector>::push" ≠ "w" := by decide
  obtain ⟨held, hv⟩ := lastFrom_selfHolding (r := ⟨.standard, {}, 0, 1⟩) rfl (by decide) hdefine htype
    hpush hv_name #[] next 2 1 3 imported
    [.list 5 [.sym "define", .sym "w", .list 4 [.sym "<Vector>"]],
      .list 6 [.sym "<Vector>::push", .sym "w", .sym "w"]]
  have hv_ne : ∀ name ≠ "v", Assoc.find? name (Assoc.put "v" (.object 0) imports) =
      Assoc.find? name imports := fun name hname => Assoc.find?_put_of_ne hname _ _
  obtain ⟨size, hw⟩ := lastFrom_selfHolding (r := ⟨.standard, {}, 0, 4⟩) rfl (by decide)
    ((hv_ne _ (by decide)).trans hdefine) ((hv_ne _ (by decide)).trans htype)
    ((hv_ne _ (by decide)).trans hpush) hw_name #[#[.object 0]] (next + 3) 5 4 6 held []
  refine ⟨size, 7, Assoc.put "w" (.object 1) (Assoc.put "v" (.object 0) imports), next + 6,
    ?_, ?_, Assoc.find?_put_self .., fun name hname => ?_⟩
  · rw [Engine.evalSource_of_readForms hread]
    exact (Evaluator.lastFrom_cons himport _ _).trans (hv.trans hw)
  · rw [Assoc.find?_put_of_ne (by decide), Assoc.find?_put_self]
  · have hne : name ≠ "w" ∧ name ≠ "v" := by
      simp only [List.mem_cons, List.not_mem_nil, or_false] at hname
      rcases hname with rfl | rfl <;> decide
    rw [Assoc.find?_put_of_ne hne.1, hv_ne _ hne.2, hold _ (List.mem_cons_of_mem _ hname)]

section SelfHolding

variable {bindings : List (String × Value)}

/-- In the store that is left, the two vectors are compared for ever. -/
theorem evalSource_equal_endless (hv : Assoc.find? "v" bindings = some (.object 0))
    (hw : Assoc.find? "w" bindings = some (.object 1))
    (hequal : Assoc.find? "equal" bindings = some (.callable (.primitive (.operation .equal) none)))
    (steps : Nat) (next : Identity) :
    (Engine.first.evalSource "(equal v w)" (sole ⟨.standard, {}, 0, steps⟩ bindings
      #[#[.object 0], #[.object 1]] next)).1 = .error .endless := by
  have hforms : Form.read "(equal v w)" = .ok [.list [.sym "equal", .sym "v", .sym "w"]] := by rfl
  have hread : Eval.readForms Engine.defaultSourceName "(equal v w)"
      (sole ⟨.standard, {}, 0, steps⟩ bindings #[#[.object 0], #[.object 1]] next) =
        (.ok [.list next [.sym "equal", .sym "v", .sym "w"]],
          sole ⟨.standard, {}, 0, steps⟩ bindings #[#[.object 0], #[.object 1]] (next + 1)) := by
    rw [Eval.readForms, hforms]
    rfl
  have hloops : (sole ⟨.standard, {}, 1, steps + 1⟩ bindings #[#[.object 0], #[.object 1]]
      (next + 2)).ComparisonLoops (.object 0) (.object 1) :=
    comparisonLoops_of_self (by decide) rfl rfl
  have hevaluate := evaluate_names (Operation.run .equal) (r := ⟨.standard, {}, 0, steps⟩) rfl
    (Nat.zero_lt_succ _) hequal (.cons hv (.cons hw .nil)) (fun _ _ _ => rfl) hloops.run_equal next
  rw [Engine.evalSource_of_readForms hread]
  exact congrArg Prod.fst (Eval.bind_of_error hevaluate _)

/-- In the store that is left, the first vector is encoded for ever. -/
theorem evalSource_encode_endless (hv : Assoc.find? "v" bindings = some (.object 0))
    (huse : Assoc.find? "use" bindings = some (.callable (.primitive (.special .imports) none)))
    (steps : Nat) (next : Identity) :
    (Engine.first.evalSource "(use json_encode) (json_encode v)"
      (sole ⟨.standard, {}, 0, steps⟩ bindings #[#[.object 0], #[.object 1]] next)).1 =
        .error .endless := by
  have hforms : Form.read "(use json_encode) (json_encode v)" =
      .ok [.list [.sym "use", .sym "json_encode"], .list [.sym "json_encode", .sym "v"]] := by rfl
  have hread : Eval.readForms Engine.defaultSourceName "(use json_encode) (json_encode v)"
      (sole ⟨.standard, {}, 0, steps⟩ bindings #[#[.object 0], #[.object 1]] next) =
        (.ok [.list next [.sym "use", .sym "json_encode"],
            .list (next + 1) [.sym "json_encode", .sym "v"]],
          sole ⟨.standard, {}, 0, steps⟩ bindings #[#[.object 0], #[.object 1]] (next + 2)) := by
    rw [Eval.readForms, hforms]
    rfl
  have hresolves : Import.Resolves .standard (.sym "json_encode")
      ("json_encode", .function "json_encode" .jsonEncode) :=
    ⟨"json_encode", .name _, .function (by simp) rfl⟩
  obtain ⟨_, next', himport⟩ := evaluate_use (r := ⟨.standard, {}, 0, steps⟩) rfl
    (Nat.zero_lt_succ _) huse hresolves #[#[.object 0], #[.object 1]] (next + 2) next
  have hname := Assoc.find?_put_self "json_encode"
    (.callable (.foreign (next + 3) "json_encode" .jsonEncode)) bindings
  have hvalue := (Assoc.find?_put_of_ne (show "v" ≠ "json_encode" by decide)
    (.callable (.foreign (next + 3) "json_encode" .jsonEncode)) bindings).trans hv
  have hloops : ∀ bindings, (sole ⟨.standard, {}, 1, steps + 2⟩ bindings
      #[#[.object 0], #[.object 1]] (next' + 1)).EncodingLoops (.object 0) :=
    fun _ => encodingLoops_of_self rfl
  have hevaluate := evaluate_names (HostFunction.run .jsonEncode)
    (r := ⟨.standard, {}, 0, steps + 1⟩) rfl (Nat.zero_lt_succ _) hname (.cons hvalue .nil)
    (fun _ _ _ => rfl) (hloops _).run_jsonEncode (next + 1)
  rw [Engine.evalSource_of_readForms hread]
  refine (congrArg Prod.fst (Evaluator.lastFrom_cons himport _ _)).trans ?_
  exact congrArg Prod.fst (Eval.bind_of_error hevaluate _)

end SelfHolding

/-- In a fresh sandbox with the standard library, a text makes two vectors that hold themselves.
Comparing one with the other goes on for ever, and so does encoding one of them. -/
theorem answers_unless_loops_self :
    let s := (Engine.first.evalSource selfHolding (empty.withEngine .standard {})).2
    s.ComparisonLoops (.object 0) (.object 1) ∧ s.EncodingLoops (.object 0) ∧
      (Engine.first.evalSource "(equal v w)" s).1 = .error .endless ∧
      (Engine.first.evalSource "(use json_encode) (json_encode v)" s).1 = .error .endless := by
  intro s
  have huse : Assoc.find? "use" Engine.seed =
    some (.callable (.primitive (.special .imports) none)) := by rfl
  have hdefine : Assoc.find? "define" Engine.seed =
    some (.callable (.primitive (.special .define) none)) := by rfl
  have hequal : Assoc.find? "equal" Engine.seed =
    some (.callable (.primitive (.operation .equal) none)) := by rfl
  obtain ⟨_, steps, bindings, next, hrun, hv, hw, hseed⟩ := evalSource_selfHolding huse hdefine
  have hs : s = sole ⟨.standard, {}, 0, steps⟩ bindings #[#[.object 0], #[.object 1]] next := by
    show (Engine.first.evalSource selfHolding (empty.withEngine .standard {})).2 = _
    rw [withEngine_empty, hrun]
  rw [hs]
  exact ⟨comparisonLoops_of_self (by decide) rfl rfl, encodingLoops_of_self rfl,
    evalSource_equal_endless hv hw ((hseed _ (by simp)).trans hequal) steps next,
    evalSource_encode_endless hv ((hseed _ (by simp)).trans huse) steps next⟩

end Store

end ConfinedLisp
