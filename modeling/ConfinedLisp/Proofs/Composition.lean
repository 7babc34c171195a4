import ConfinedLisp.Proofs.BudgetExactness
import ConfinedLisp.Proofs.Freshness
import ConfinedLisp.Proofs.JoinedTexts

/-!
# One text, or one after the other

An engine reads all forms of a text before it evaluates the first one. So the lines of two texts can
be given to it at once, or one text after the other, and it comes to the same. What differs is when
the lists of the second text are made: at once they are made before the first text is evaluated, and
one after the other they are made after it. They have other identities, therefore, and so have the
lists and callables that the first text makes. No program can tell.

## Main definitions

- `Engine.evalInTurn`: one text after the other.
- `Relabelling.advance`: the identities of the one run for those of the other.
- `Relabelling.Renames`: a store is another one but for identities.

## Main results

- `Reachable.evalForms_append`: forms at once, or one part after the other.
- `Reachable.evalSource_joined`: texts at once, or one after the other.
-/

namespace ConfinedLisp

/-! ### Forms one after the other -/

namespace Eval

variable {α β γ : Type}

theorem bind_assoc (x : Eval α) (f : α → Eval β) (g : β → Eval γ) :
    (x.bind f).bind g = x.bind fun a => (f a).bind g := by
  funext s
  simp only [Eval.bind]
  rcases x s with ⟨halt | a, t⟩ <;> rfl

theorem halts_iff {x : Except Halt α} {y : Except Halt β} {g : α → β} (h : y = x.map g)
    (halt : Halt) : y = .error halt ↔ x = .error halt := by
  subst h
  cases x <;> simp [Except.map]

/-- A computation takes so many identities, and does nothing else. What it gives depends on the first
of them alone. -/
def Takes (x : Eval α) (n : Nat) (a : Identity → α) : Prop :=
  ∀ s, x s = (.ok (a s.nextIdentity), s.skipped n)

theorem Takes.pure (a : α) : (Eval.pure a).Takes 0 fun _ => a := fun _ => rfl

theorem Takes.bind {x : Eval α} {f : α → Eval β} {n m : Nat} {a : Identity → α}
    {b : Identity → Identity → β} (hx : x.Takes n a) (hf : ∀ i, (f (a i)).Takes m (b i)) :
    (x.bind f).Takes (n + m) fun i => b i (i + n) := by
  intro s
  rw [bind_of_ok (hx s), hf, Store.skipped_skipped]
  rfl

mutual

theorem exists_takes_ofForm (form : Form) : ∃ n v, (ofForm form).Takes n v := by
  cases form with
  | list items =>
    obtain ⟨n, vs, hvs, -⟩ := exists_takes_ofForms items
    have hlist : ∀ i, (newList (vs i)).Takes 1 fun id => .list id (vs i) := fun _ _ => rfl
    rw [ofForm]
    exact ⟨_, _, hvs.bind hlist⟩
  | _ => exact ⟨0, _, .pure _⟩

/-- Making values of forms takes an identity for each list. -/
theorem exists_takes_ofForms (forms : List Form) :
    ∃ n vs, (ofForms forms).Takes n vs ∧ ∀ i, (vs i).length = forms.length := by
  cases forms with
  | nil => exact ⟨0, fun _ => [], .pure [], fun _ => rfl⟩
  | cons form rest =>
    obtain ⟨n, v, hv⟩ := exists_takes_ofForm form
    obtain ⟨m, vs, hvs, hlength⟩ := exists_takes_ofForms rest
    rw [ofForms]
    refine ⟨_, _, hv.bind fun i => hvs.bind fun j => .pure (v i :: vs j), fun i => ?_⟩
    exact congrArg (· + 1) (hlength _)

end

theorem ofForms_append (forms forms' : List Form) :
    ofForms (forms ++ forms') =
      (ofForms forms).bind fun vs => (ofForms forms').bind fun ws => Eval.pure (vs ++ ws) := by
  induction forms with
  | nil =>
    exact (bind_pure (ofForms forms')).symm
  | cons form rest ih =>
    rw [List.cons_append, ofForms, ofForms, ih]
    simp only [bind_assoc]
    rfl

theorem Takes.append {forms forms' : List Form} {n m : Nat} {vs ws : Identity → List Value}
    (hvs : (ofForms forms).Takes n vs) (hws : (ofForms forms').Takes m ws) :
    (ofForms (forms ++ forms')).Takes (n + m) fun i => vs i ++ ws (i + n) := by
  intro s
  rw [ofForms_append, bind_of_ok (hvs s), bind_of_ok (hws (s.skipped n)), Store.skipped_skipped]
  rfl

end Eval

namespace Evaluator

variable (ev : Evaluator) (scope : FrameId)

theorem lastFrom_append (last : Value) (xs ys : List Value) :
    ev.lastFrom scope last (xs ++ ys) =
      (ev.lastFrom scope last xs).bind fun v => ev.lastFrom scope v ys := by
  induction xs generalizing last with
  | nil => rfl
  | cons x xs ih =>
    show (ev x scope).bind (fun v => ev.lastFrom scope v (xs ++ ys)) =
      ((ev x scope).bind fun v => ev.lastFrom scope v xs).bind fun v => ev.lastFrom scope v ys
    rw [Eval.bind_assoc]
    exact congrArg (Eval.bind (ev x scope)) (funext ih)

/-- The value before the first form is the result if there is no form, and makes no difference
otherwise. -/
theorem lastFrom_congr (v w : Value) (forms : List Value) (s : Store) :
    (ev.lastFrom scope v forms s).2 = (ev.lastFrom scope w forms s).2 ∧
      (∀ halt, (ev.lastFrom scope v forms s).1 = .error halt ↔
        (ev.lastFrom scope w forms s).1 = .error halt) ∧
      (forms ≠ [] → (ev.lastFrom scope v forms s).1 = (ev.lastFrom scope w forms s).1) := by
  cases forms with
  | nil => exact ⟨rfl, fun _ => ⟨nofun, nofun⟩, fun h => absurd rfl h⟩
  | cons form rest => exact ⟨rfl, fun _ => Iff.rfl, fun _ => rfl⟩

end Evaluator

namespace Engine

variable {engine : Engine} {forms : List Form}

/-- Evaluates forms in turn: the last value, or nil. -/
def evalForms (engine : Engine) (forms : List Form) : Eval Value :=
  (Eval.ofForms forms).bind fun vs => evaluateAll vs engine.root

/-- Evaluates one text and, if that succeeds, another one. -/
def evalInTurn (engine : Engine) (first second : String) : Eval Value :=
  (engine.evalSource first).bind fun _ => engine.evalSource second

theorem evalSource_of_read {source : String} (h : Form.read source = .ok forms) :
    engine.evalSource source = engine.evalForms forms := by
  unfold evalSource evalNamed Eval.readForms
  rw [h]
  rfl

theorem evalSource_of_unreadable {source : String} {fault : Fault} (h : Form.read source = .error fault)
    (s : Store) :
    engine.evalSource source s = (.error (.error (.unreadable defaultSourceName fault)), s) := by
  unfold evalSource evalNamed Eval.readForms
  rw [h]
  rfl

theorem evalForms_of_takes {n : Nat} {vs : Identity → List Value}
    (h : (Eval.ofForms forms).Takes n vs) (s : Store) :
    engine.evalForms forms s = evaluateAll (vs s.nextIdentity) engine.root (s.skipped n) :=
  Eval.bind_of_ok (h s) _

end Engine

theorem grows_evaluateAll (forms : List Value) (scope : FrameId) (s : Store) :
    s.Grows (evaluateAll forms scope s).2 :=
  Realm.Runs.grows (R := Realm.everything)
    (Judgment.evaluateBody Realm.respects_evaluate trivial fun _ _ _ _ => trivial)

/-- Evaluating forms keeps every realm. -/
theorem Realm.runs_evalForms {World : Type} {R : Realm World} {w : World} (engine : Engine)
    (forms : List Form) (hroot : R.scope w engine.root) :
    R.Runs w (engine.evalForms forms) R.value := by
  refine Runs.bind ((Judgment.keeping R).ofForms forms w) fun w' vs hw hvs => ?_
  exact Judgment.evaluateBody respects_evaluate (Realm.scope_later hw hroot) hvs

/-! ### Identities that are taken earlier -/

namespace Relabelling

variable {ρ : Relabelling} {s t : Store}

/-- Where a number comes if some that begin at `late` come before those that begin at `early`. -/
def advanced (early late count i : Nat) : Nat :=
  if i < early then i
  else if i < late then i + count
  else if i < late + count then early + (i - late)
  else i

theorem advanced_injective {early late count i j : Nat} (h : early ≤ late)
    (hij : advanced early late count i = advanced early late count j) : i = j := by
  unfold advanced at hij
  grind

/-- Some identities are taken earlier, and those that were taken in between are taken after them. -/
def advance {early late : Nat} (h : early ≤ late) (count : Nat) : Relabelling where
  frame f := f
  identity := advanced early late count
  frame_injective hfg := hfg
  identity_injective := advanced_injective h
  le_frame := Nat.le_refl

section

variable {early late : Nat} (h : early ≤ late) (count : Nat)

theorem fixes_advance : (advance h count).Fixes early where
  frame _ := rfl
  identity _ hid := if_pos hid

/-- What was taken in between. -/
def between : (advance h count).Supply where
  source := early
  target := early + count
  length := late - early
  identity_eq k hk := by
    show advanced early late count (early + k) = early + count + k
    unfold advanced
    rw [if_neg (by omega), if_pos (by omega)]
    omega

/-- What is taken earlier. -/
def taken : (advance h count).Supply where
  source := late
  target := early
  length := count
  identity_eq k hk := by
    show advanced early late count (late + k) = early + k
    unfold advanced
    rw [if_neg (by omega), if_neg (by omega), if_pos (by omega)]
    omega

/-- What is taken afterwards. -/
def rest (length : Nat) : (advance h count).Supply where
  source := late + count
  target := late + count
  length := length
  identity_eq k _ := by
    show advanced early late count (late + count + k) = late + count + k
    unfold advanced
    rw [if_neg (by omega), if_neg (by omega), if_neg (by omega)]

end

/-! ### A run at once -/

/-- Only the identities that are still to be given differ. -/
theorem Supply.Mirrors.renumber {supply : ρ.Supply} (h : supply.Mirrors s t)
    (supply' : ρ.Supply) :
    supply'.Mirrors { s with nextIdentity := supply'.source }
      { t with nextIdentity := supply'.target } :=
  ⟨h.frames, h.newFrames, h.vectors, h.runtimes, 0, rfl, rfl⟩

/-- What a computation gives that does nothing but take the identities of a supply. -/
theorem Supply.eq_of_takes (supply : ρ.Supply) (hframe : ∀ f, ρ.frame f = f) {α : Type} {x : Eval α}
    {g : α → α} {a : Identity → α} (hx : x.Takes supply.length a) (hcarries : ρ.Carries x x g) :
    a supply.target = g (a supply.source) := by
  have hempty : supply.Mirrors { Store.empty with nextIdentity := supply.source }
      { Store.empty with nextIdentity := supply.target } :=
    ⟨fun _ => rfl, fun _ => hframe _, by simp [Store.empty], rfl, 0, rfl, rfl⟩
  have hcovers : supply.Covers (x { Store.empty with nextIdentity := supply.source }).2 := by
    rw [hx]
    exact ⟨Nat.le_refl _, Reachable.start.rooted⟩
  obtain ⟨hresult, -⟩ := hcarries.mirrors hempty hcovers
  rw [hx, hx] at hresult
  exact Except.ok.inj hresult

/-- A store is another one but for identities. Frames and budgets are the same. -/
structure Renames (ρ : Relabelling) (s t : Store) : Prop where
  frames : t.frames = s.frames.map ρ.frameOf
  vectors : t.vectors = s.vectors.map fun items => items.map ρ.value
  runtimes : t.runtimes = s.runtimes

theorem Supply.Mirrors.renames {supply : ρ.Supply} (h : supply.Mirrors s t)
    (hframe : ∀ f, ρ.frame f = f) : ρ.Renames s t where
  frames := by
    refine Array.ext_getElem? fun f => ?_
    have hframes := h.frames f
    rw [hframe] at hframes
    rw [hframes, Array.getElem?_map]
  vectors := h.vectors
  runtimes := h.runtimes

end Relabelling

namespace Reachable

variable {s : Store} {given : List Value} {forms : List Form} {n m : Nat}
  {vs : Identity → List Value}

/-- After a computation that keeps every realm every frame was made after its parent. -/
theorem rooted_of_runs (h : Reachable s given) {engine : Engine}
    (hroot : .scope engine.root ∈ given) {x : Eval Value}
    (hx : ∀ w, Annals.realm.scope w engine.root → Annals.realm.Runs w x Annals.realm.value) :
    (x s).2.Rooted := by
  obtain ⟨w, rfl, hgiven⟩ := h.isRecorded
  obtain ⟨w', -, hstore, -⟩ := hx w (Realm.value_scope.1 (hgiven _ hroot))
  exact hstore ▸ w'.rooted

/-- The first part of the forms, if the lists of the second part have been made before. -/
theorem first_part (h : Reachable s given) (engine : Engine)
    (hvs : (Eval.ofForms forms).Takes n vs) {late : Nat} (hlate : s.nextIdentity + n ≤ late)
    (hcovers : (Relabelling.between hlate m).Covers (engine.evalForms forms s).2) :
    (evaluateAll (vs s.nextIdentity) engine.root (s.skipped (n + m))).1 =
        (engine.evalForms forms s).1.map (Relabelling.advance hlate m).value ∧
      (Relabelling.between hlate m).Mirrors (engine.evalForms forms s).2
        (evaluateAll (vs s.nextIdentity) engine.root (s.skipped (n + m))).2 := by
  have hρ := Relabelling.fixes_advance hlate m
  have hread := (Relabelling.advance hlate m).carries_ofForms forms
  have hleaves := (h.leaves (hρ.mono (Nat.le_add_right _ n))).handed id hread
    (by rw [hvs]; exact hρ) (by rw [hvs]; exact h.rooted) fun _ => rfl
  rw [hvs] at hleaves
  have hvalues : (vs s.nextIdentity).map (Relabelling.advance hlate m).value = vs s.nextIdentity :=
    hleaves.map_of_subset (List.subset_append_left _ _)
  have hmirrors := (hleaves.mirrors hρ).renumber (Relabelling.between hlate m)
  have hrun := (Relabelling.advance hlate m).carries_evaluateAll (vs s.nextIdentity) engine.root
  rw [hvalues] at hrun
  rw [Engine.evalForms_of_takes hvs] at hcovers ⊢
  have hskipped : s.skipped (n + m) = { s with nextIdentity := s.nextIdentity + n + m } := by
    rw [Store.skipped, Nat.add_assoc]
  rw [hskipped]
  exact hrun.mirrors hmirrors hcovers

end Reachable

/-- The second part of the forms, after the first one. -/
theorem Relabelling.second_part {s t : Store} {early : Nat} (hlate : early ≤ s.nextIdentity)
    {engine : Engine} {forms : List Form} {m : Nat} {ws : Identity → List Value}
    (hws : (Eval.ofForms forms).Takes m ws) (hmirrors : (between hlate m).Mirrors s t)
    (hrooted : (engine.evalForms forms s).2.Rooted) :
    (evaluateAll (ws early) engine.root t).1 =
        (engine.evalForms forms s).1.map (advance hlate m).value ∧
      (advance hlate m).Renames (engine.evalForms forms s).2
        (evaluateAll (ws early) engine.root t).2 := by
  have hvalues : ws early = (ws s.nextIdentity).map (advance hlate m).value :=
    (taken hlate m).eq_of_takes (fun _ => rfl) hws ((advance hlate m).carries_ofForms forms)
  have hnext : t = { t with nextIdentity := s.nextIdentity + m } := by
    obtain ⟨k, hk, hk'⟩ := hmirrors.identity
    have hsum : t.nextIdentity = s.nextIdentity + m :=
      calc t.nextIdentity = early + m + k := hk'
        _ = early + k + m := Nat.add_right_comm early m k
        _ = s.nextIdentity + m := congrArg (· + m) hk.symm
    rw [← hsum]
  have hrun := (advance hlate m).carries_evaluateAll (ws s.nextIdentity) engine.root
  rw [← hvalues] at hrun
  rw [Engine.evalForms_of_takes hws] at hrooted ⊢
  have hcovers : (rest hlate m (evaluateAll (ws s.nextIdentity) engine.root
      (s.skipped m)).2.nextIdentity).Covers
        (evaluateAll (ws s.nextIdentity) engine.root (s.skipped m)).2 :=
    ⟨Nat.le_add_left _ _, hrooted⟩
  rw [hnext]
  obtain ⟨hresult, hstore⟩ := hrun.mirrors (hmirrors.renumber (rest hlate m _)) hcovers
  exact ⟨hresult, hstore.renames fun _ => rfl⟩

namespace Reachable

variable {s : Store} {given : List Value} {engine : Engine}

/-- Forms at once, or one part after the other. -/
theorem evalForms_append (h : Reachable s given) (hroot : .scope engine.root ∈ given)
    (forms forms' : List Form) :
    ∃ ρ : Relabelling, ρ.Fixes s.nextIdentity ∧
      ρ.Renames ((engine.evalForms forms).bind (fun _ => engine.evalForms forms') s).2
        (engine.evalForms (forms ++ forms') s).2 ∧
      (∀ halt, (engine.evalForms (forms ++ forms') s).1 = .error halt ↔
        ((engine.evalForms forms).bind (fun _ => engine.evalForms forms') s).1 = .error halt) ∧
      (forms' ≠ [] → (engine.evalForms (forms ++ forms') s).1 =
        ((engine.evalForms forms).bind (fun _ => engine.evalForms forms') s).1.map ρ.value) := by
  obtain ⟨n, vs, hvs, -⟩ := Eval.exists_takes_ofForms forms
  obtain ⟨m, ws, hws, hlength⟩ := Eval.exists_takes_ofForms forms'
  have hforms : ∀ w, Annals.realm.scope w engine.root →
      Annals.realm.Runs w (engine.evalForms forms) Annals.realm.value :=
    fun w hw => Realm.runs_evalForms engine forms hw
  have hrooted := h.rooted_of_runs hroot hforms
  have hrooted' := h.rooted_of_runs hroot fun w hw => (hforms w hw).bind fun w' _ hw' _ =>
    Realm.runs_evalForms engine forms' (Realm.scope_later hw' hw)
  -- At once the first part runs as it does alone, in a store from which more has been taken.
  have hjoined : engine.evalForms (forms ++ forms') s =
      ((evaluateAll (vs s.nextIdentity) engine.root).bind fun v =>
        Evaluator.lastFrom evaluate engine.root v (ws (s.nextIdentity + n))) (s.skipped (n + m)) := by
    rw [Engine.evalForms_of_takes (hvs.append hws), evaluateAll, Evaluator.body,
      Evaluator.lastFrom_append]
    rfl
  rcases hfirst : engine.evalForms forms s with ⟨result, t⟩
  have hlate : s.nextIdentity + n ≤ t.nextIdentity := by
    have hgrows := (grows_evaluateAll (vs s.nextIdentity) engine.root (s.skipped n)).identity
    rw [← Engine.evalForms_of_takes hvs, hfirst] at hgrows
    exact hgrows
  rw [hfirst] at hrooted
  obtain ⟨hresult, hstore⟩ := h.first_part engine (m := m) hvs hlate
    (by rw [hfirst]; exact ⟨Nat.le_of_eq (Nat.add_sub_cancel' hlate).symm, hrooted⟩)
  rw [hfirst] at hresult hstore
  refine ⟨Relabelling.advance hlate m,
    (Relabelling.fixes_advance hlate m).mono (Nat.le_add_right _ n), ?_⟩
  cases result with
  | error halt =>
    rw [Eval.bind_of_error hfirst, hjoined, Eval.bind_of_error (Prod.ext hresult rfl)]
    exact ⟨hstore.renames fun _ => rfl, fun _ => Iff.rfl, fun _ => rfl⟩
  | ok v =>
    rw [Eval.bind_of_ok hfirst] at hrooted' ⊢
    rw [hjoined, Eval.bind_of_ok (Prod.ext hresult rfl)]
    obtain ⟨hsecond, hrenames⟩ := Relabelling.second_part hlate hws hstore hrooted'
    obtain ⟨hsame, hhalts, hlast⟩ := Evaluator.lastFrom_congr evaluate engine.root
      ((Relabelling.advance hlate m).value v) .nil (ws (s.nextIdentity + n))
      (evaluateAll (vs s.nextIdentity) engine.root (s.skipped (n + m))).2
    refine ⟨hsame ▸ hrenames, fun halt => ?_, fun hsome => ?_⟩
    · exact (hhalts halt).trans (Eval.halts_iff hsecond halt)
    · have hne : ws (s.nextIdentity + n) ≠ [] := by
        rwa [← List.length_pos_iff, hlength, List.length_pos_iff]
      exact (hlast hne).trans hsecond

/-- Evaluating texts composes, and a text is read before anything of it is evaluated. A host gives an
engine the lines of a text that can be read, and then another text, at once. If the other text can be
read as well, then what is read are the forms of both, and it is as if the host had given the one text
and, if that succeeded, the other one. The budgets are the same, and so is the store but for
identities, where those that had been given before are the same too. The evaluation halts for the same
reason if it halts, and gives the same value otherwise if the other text has a form. If the other text
cannot be read, then reading fails where it fails in the other text, counted from the beginning, and
the store and the budgets are as they were before. -/
theorem evalSource_joined (h : Reachable s given) (hroot : .scope engine.root ∈ given)
    {first : String} {forms : List Form} (hfirst : Form.read first = .ok forms) (second : String) :
    (∀ forms', Form.read second = .ok forms' →
      Form.read (first ++ "\n" ++ second) = .ok (forms ++ forms') ∧
      ∃ ρ : Relabelling, ρ.Fixes s.nextIdentity ∧
        ρ.Renames (engine.evalInTurn first second s).2
          (engine.evalSource (first ++ "\n" ++ second) s).2 ∧
        (∀ halt, (engine.evalSource (first ++ "\n" ++ second) s).1 = .error halt ↔
          (engine.evalInTurn first second s).1 = .error halt) ∧
        (forms' ≠ [] → (engine.evalSource (first ++ "\n" ++ second) s).1 =
          (engine.evalInTurn first second s).1.map ρ.value)) ∧
    ∀ fault, Form.read second = .error fault →
      Form.read (first ++ "\n" ++ second) = .error
        ⟨fault.wanted.after, first.utf8ByteSize + 1 + fault.offset, fault.length⟩ ∧
      engine.evalSource (first ++ "\n" ++ second) s = (.error (.error (.unreadable
        Engine.defaultSourceName
          ⟨fault.wanted.after, first.utf8ByteSize + 1 + fault.offset, fault.length⟩)), s) := by
  have hjoin := Form.read_join hfirst second
  constructor
  · intro forms' hsecond
    rw [hsecond] at hjoin
    refine ⟨hjoin, ?_⟩
    rw [Engine.evalInTurn, Engine.evalSource_of_read hfirst, Engine.evalSource_of_read hsecond,
      Engine.evalSource_of_read hjoin]
    exact h.evalForms_append hroot forms forms'
  · intro fault hsecond
    rw [hsecond] at hjoin
    exact ⟨hjoin, Engine.evalSource_of_unreadable hjoin s⟩

/-- A text that ends with a comment comes before one that uses what it defines, and before one that
breaks off. -/
theorem evalSource_joined_comment :
    let fresh := Store.empty.withEngine .standard {}
    let first := "(define pair (list 1 2)) ; two items"
    Reachable fresh [.scope Engine.first.root] ∧
      (∃ ρ : Relabelling, ρ.Fixes fresh.nextIdentity ∧
        ρ.Renames (Engine.first.evalInTurn first "(cdr pair)" fresh).2
          (Engine.first.evalSource (first ++ "\n" ++ "(cdr pair)") fresh).2 ∧
        (Engine.first.evalSource (first ++ "\n" ++ "(cdr pair)") fresh).1 =
          (Engine.first.evalInTurn first "(cdr pair)" fresh).1.map ρ.value) ∧
      ((Engine.first.evalSource (first ++ "\n" ++ "(cdr pair)") fresh).2.get 0 "pair").display =
        "(1 2)" ∧
      Engine.first.evalSource (first ++ "\n" ++ "(cdr") fresh =
        (.error (.error (.unreadable Engine.defaultSourceName ⟨.form, 41, 0⟩)), fresh) := by
  intro fresh first
  have hreach : Reachable fresh [.scope Engine.first.root] :=
    .create .start (Engine.create_eq .standard {} .empty)
  have hfirst : Form.read "(define pair (list 1 2)) ; two items" =
    .ok [.list [.sym "define", .sym "pair", .list [.sym "list", .int 1, .int 2]]] := by rfl
  obtain ⟨hread, -⟩ := evalSource_joined hreach (List.mem_singleton.2 rfl) hfirst "(cdr pair)"
  obtain ⟨-, hbroken⟩ := evalSource_joined hreach (List.mem_singleton.2 rfl) hfirst "(cdr"
  obtain ⟨-, ρ, hfixes, hrenames, -, hvalue⟩ := hread [.list [.sym "cdr", .sym "pair"]] rfl
  refine ⟨hreach, ⟨ρ, hfixes, hrenames, hvalue (List.cons_ne_nil _ _)⟩, by decide +kernel, ?_⟩
  exact (hbroken ⟨.form, 4, 0⟩ rfl).2

end Reachable

end ConfinedLisp
