import ConfinedLisp.Proofs.Territory
import Mathlib.Data.List.Forall2

/-!
# What imports leave behind

`use` takes its operands in turn. One that is well formed and names something of the host binds a label
to a callable, and for a type also each of its static methods; one that is not ends the whole call and
binds nothing. So the current frame has its old bindings, updated by those operands alone that stand
before the first bad one, and nothing else is touched.

## Main definitions

- `Import.Asks`, `Import.Means`: the operands that are well formed, and what a written name stands for.
- `Import.Resolves`, `Import.Refused`: an operand that is taken, and one that is not.
- `Import.Target.bindings`, `Import.allBindings`: what one import binds, and what several bind in turn.
- `Store.enroll`: a binding to a callable that has just been made.

## Main results

- `Import.perform_of_resolves`, `Import.perform_of_not_resolves`: one operand.
- `Import.performAll_taken`, `Import.performAll_bad`: operands in turn, up to the first bad one.
- `SpecialForm.imports_up_to_first_bad`: the result and the store after `use`.
-/

namespace ConfinedLisp

/-! ### Bindings to new callables -/

namespace Store

variable {s : Store} {scope : FrameId}

/-- A binding to a callable that has just been made, with an identity of its own. -/
def enroll (s : Store) (scope : FrameId) (pair : String × Value) : Store :=
  { s.bind scope pair.1 pair.2 with nextIdentity := s.nextIdentity + 1 }

/-- Several such bindings in turn. -/
def enrollAll (s : Store) (scope : FrameId) (pairs : List (String × Value)) : Store :=
  pairs.foldl (fun s pair => s.enroll scope pair) s

theorem enrollAll_append (s : Store) (scope : FrameId) (pairs pairs' : List (String × Value)) :
    s.enrollAll scope (pairs ++ pairs') = (s.enrollAll scope pairs).enrollAll scope pairs' :=
  List.foldl_append

theorem nextIdentity_enrollAll (s : Store) (scope : FrameId) (pairs : List (String × Value)) :
    (s.enrollAll scope pairs).nextIdentity = s.nextIdentity + pairs.length := by
  induction pairs generalizing s with
  | nil => rfl
  | cons pair rest ih =>
    show ((s.enroll scope pair).enrollAll scope rest).nextIdentity = _
    rw [ih]
    exact Nat.add_right_comm s.nextIdentity 1 rest.length

/-- The frame takes the bindings, one after the other. -/
theorem frames_enrollAll (pairs : List (String × Value)) (g : FrameId) :
    (s.enrollAll scope pairs).frames[g]? =
      if scope = g then s.frames[g]?.map fun frame =>
        { frame with bindings := Assoc.putAll pairs frame.bindings }
      else s.frames[g]? := by
  induction pairs generalizing s with
  | nil =>
    show s.frames[g]? = _
    split <;> cases s.frames[g]? <;> rfl
  | cons pair rest ih =>
    show ((s.enroll scope pair).enrollAll scope rest).frames[g]? = _
    rw [ih]
    have hstep : (s.enroll scope pair).frames[g]? =
        if scope = g then s.frames[g]?.map fun frame =>
          { frame with bindings := Assoc.put pair.1 pair.2 frame.bindings }
        else s.frames[g]? := by
      simp only [enroll, bind, Array.getElem?_modify]
    rw [hstep]
    by_cases hg : scope = g
    · simp only [if_pos hg]
      cases s.frames[g]? <;> rfl
    · simp only [if_neg hg]

theorem runtimes_enrollAll (pairs : List (String × Value)) :
    (s.enrollAll scope pairs).runtimes = s.runtimes ∧
      (s.enrollAll scope pairs).vectors = s.vectors := by
  induction pairs generalizing s with
  | nil => exact ⟨rfl, rfl⟩
  | cons pair rest ih => exact ih

theorem registry_enrollAll (s : Store) (scope : FrameId) (pairs : List (String × Value))
    (g : FrameId) :
    (s.enrollAll scope pairs).registry g = s.registry g := by
  have hid : (s.enrollAll scope pairs).runtimeId? g = s.runtimeId? g := by
    rw [runtimeId?, frames_enrollAll, runtimeId?]
    split
    · cases s.frames[g]? <;> rfl
    · rfl
  rw [registry, registry, runtime?, runtime?, hid, (runtimes_enrollAll pairs).1]

end Store

/-! ### One operand -/

namespace Import

/-- An operand asks for something of the host, by the name under which it is to be bound or with a
label of its own. -/
inductive Asks : Value → Request → Prop where
  | name (name : String) : Asks (.sym name) ⟨name, name⟩
  | renamed (id : Identity) (written label : String) :
      Asks (.list id [.sym written, .sym label]) ⟨written, label⟩

/-- What a written name stands for: between angle brackets a type, otherwise a function. -/
inductive Means (registry : Registry) (written : String) : Target → Prop where
  | type {inner : List Char} {type : HostType} : written.toList = '<' :: (inner ++ ['>']) →
      registry.type? (hostName inner) = some type → Means registry written (.type type)
  | function {f : HostFunction} : (∀ inner, written.toList ≠ '<' :: (inner ++ ['>'])) →
      registry.function? (hostName written.toList) = some f →
        Means registry written (.function (hostName written.toList) f)

/-- An operand that is taken: the label that it binds, and what to. -/
def Resolves (registry : Registry) (operand : Value) (item : String × Target) : Prop :=
  ∃ written, Asks operand ⟨written, item.1⟩ ∧ Means registry written item.2

/-- An operand that is not taken, being malformed or a name of nothing, and the error. -/
inductive Refused (registry : Registry) (operand : Value) : EvalError → Prop where
  | malformed {expected : Expectation} {found : Kind} : (∀ request, ¬ Asks operand request) →
      Refused registry operand (.typeMismatch "use" expected found)
  | unknown {request : Request} {sort : HostSort} {name : String} : Asks operand request →
      (∀ target, ¬ Means registry request.written target) →
        Refused registry operand (.unresolvedImport request.written (.unknownIdentifier sort name))

theorem request_of_asks {operand : Value} {r : Request} (h : Asks operand r) :
    request operand = .ok r := by
  cases h <;> rfl

/-- An operand asks for something, or it is of the wrong type. -/
theorem asks_or_mismatch (operand : Value) :
    (∃ r, Asks operand r) ∨
      ∃ expected found, request operand = .error (.typeMismatch "use" expected found) := by
  unfold request
  split
  · exact Or.inl ⟨_, .name _⟩
  · next id source target =>
    cases source with
    | sym written =>
      cases target with
      | sym label => exact Or.inl ⟨_, .renamed id written label⟩
      | _ => exact Or.inr ⟨_, _, rfl⟩
    | _ => exact Or.inr ⟨_, _, rfl⟩
  · exact Or.inr ⟨_, _, rfl⟩

theorem betweenAngles?_eq_some_iff {s : String} {inner : List Char} :
    betweenAngles? s = some inner ↔ s.toList = '<' :: (inner ++ ['>']) := by
  unfold betweenAngles?
  split
  · next rest hs =>
    rw [hs]
    split
    · next hlast =>
      obtain ⟨init, rfl⟩ := List.getLast?_eq_some_iff.1 hlast
      simp
    · next hlast =>
      simp only [reduceCtorEq, false_iff, List.cons.injEq, true_and]
      rintro rfl
      simp at hlast
  · next hs =>
    simp only [reduceCtorEq, false_iff]
    exact fun h => hs _ h

theorem betweenAngles?_eq_none_iff {s : String} :
    betweenAngles? s = none ↔ ∀ inner, s.toList ≠ '<' :: (inner ++ ['>']) := by
  simp only [Option.eq_none_iff_forall_ne_some, ne_eq, betweenAngles?_eq_some_iff]

/-- A name that stands for something resolves to it. -/
theorem resolve_of_means {registry : Registry} {written : String} {target : Target}
    (h : Means registry written target) : resolve registry written = .ok target := by
  cases h with
  | type hwritten hfound =>
    have hangles := betweenAngles?_eq_some_iff.2 hwritten
    simp only [resolve, hangles, hfound]
  | function hnot hfound =>
    have hangles := betweenAngles?_eq_none_iff.2 hnot
    simp only [resolve, hangles, hfound]

/-- A name stands for something, or the host does not know it. -/
theorem means_or_unknown (registry : Registry) (written : String) :
    (∃ target, Means registry written target) ∨
      ∃ sort name, resolve registry written = .error (.unknownIdentifier sort name) := by
  cases hangles : betweenAngles? written with
  | some inner =>
    cases hfound : registry.type? (hostName inner) with
    | some type => exact Or.inl ⟨_, .type (betweenAngles?_eq_some_iff.1 hangles) hfound⟩
    | none => exact Or.inr ⟨_, _, by simp only [resolve, hangles, hfound]; rfl⟩
  | none =>
    cases hfound : registry.function? (hostName written.toList) with
    | some f => exact Or.inl ⟨_, .function (betweenAngles?_eq_none_iff.1 hangles) hfound⟩
    | none => exact Or.inr ⟨_, _, by simp only [resolve, hangles, hfound]; rfl⟩

/-- The static methods of a type under a label, as callables with identities from `id` on. -/
def staticBindings (label : String) (type : HostType) :
    Identity → List (String × HostFunction) → List (String × Value)
  | _, [] => []
  | id, (method, f) :: rest =>
    (label ++ "::" ++ method, .callable (.foreign id (type.qualified method) f)) ::
      staticBindings label type (id + 1) rest

/-- The callable that an import makes, given the next identity. Those of static methods come first. -/
def Target.callable (id : Identity) : Target → Value
  | .function name f => .callable (.foreign id name f)
  | .type host => .callable (.constructor (id + host.sortedStatics.length) host)

/-- What an import binds, in order. -/
def Target.bindings (id : Identity) (label : String) : Target → List (String × Value)
  | .function name f => [(label, (Target.function name f).callable id)]
  | .type host =>
    staticBindings label host id host.sortedStatics ++ [(label, (Target.type host).callable id)]

theorem length_staticBindings (label : String) (type : HostType) (id : Identity)
    (methods : List (String × HostFunction)) :
    (staticBindings label type id methods).length = methods.length := by
  induction methods generalizing id with
  | nil => rfl
  | cons method rest ih => exact congrArg Nat.succ (ih (id + 1))

theorem bindStatics_eq (scope : FrameId) (label : String) (type : HostType)
    (methods : List (String × HostFunction)) (s : Store) :
    bindStatics scope label type methods s =
      (.ok (), s.enrollAll scope (staticBindings label type s.nextIdentity methods)) := by
  induction methods generalizing s with
  | nil => rfl
  | cons method rest ih =>
    obtain ⟨name, f⟩ := method
    exact ih (s.enroll scope (label ++ "::" ++ name,
      .callable (.foreign s.nextIdentity (type.qualified name) f)))

variable {scope : FrameId} {operand : Value} {label : String} {target : Target} {s : Store}

/-- An operand that is taken makes its callables and binds them. -/
theorem perform_of_resolves (h : Resolves (s.registry scope) operand (label, target)) :
    perform scope operand s =
      (.ok (target.callable s.nextIdentity),
        s.enrollAll scope (target.bindings s.nextIdentity label)) := by
  obtain ⟨written, hasks, hmeans⟩ := h
  have hresolve := resolve_of_means hmeans
  have hrequest : Eval.ofExcept (request operand) s = (.ok ⟨written, label⟩, s) := by
    rw [request_of_asks hasks]
    rfl
  have hregistry : Eval.read (fun s => s.registry scope) s = (.ok (s.registry scope), s) := rfl
  refine (Eval.bind_of_ok hrequest _).trans ((Eval.bind_of_ok hregistry _).trans ?_)
  dsimp only
  rw [hresolve]
  cases target with
  | function name f => rfl
  | type host =>
    refine (Eval.bind_of_ok (bindStatics_eq scope label host _ s) _).trans ?_
    have hnext := s.nextIdentity_enrollAll scope
      (staticBindings label host s.nextIdentity host.sortedStatics)
    rw [length_staticBindings] at hnext
    rw [Target.bindings, Store.enrollAll_append, Target.callable, ← hnext]
    rfl

/-- An operand that is not taken leaves no trace. -/
theorem perform_of_not_resolves (h : ∀ label, ¬ Resolves (s.registry scope) operand label) :
    ∃ e, Refused (s.registry scope) operand e ∧
      perform scope operand s = (.error (.error e), s) := by
  obtain ⟨r, hasks⟩ | ⟨expected, found, hmismatch⟩ := asks_or_mismatch operand
  · have hrequest : Eval.ofExcept (request operand) s = (.ok r, s) := by
      rw [request_of_asks hasks]
      rfl
    have hnothing : ∀ target, ¬ Means (s.registry scope) r.written target :=
      fun target hmeans => h (r.label, target) ⟨r.written, hasks, hmeans⟩
    obtain ⟨target, hmeans⟩ | ⟨sort, name, hunknown⟩ := means_or_unknown (s.registry scope) r.written
    · exact absurd hmeans (hnothing target)
    · refine ⟨.unresolvedImport r.written (.unknownIdentifier sort name), .unknown hasks hnothing, ?_⟩
      have hregistry : Eval.read (fun s => s.registry scope) s = (.ok (s.registry scope), s) := rfl
      refine (Eval.bind_of_ok hrequest _).trans ((Eval.bind_of_ok hregistry _).trans ?_)
      dsimp only
      rw [hunknown]
      rfl
  · have hrequest : Eval.ofExcept (request operand) s =
        (.error (.error (.typeMismatch "use" expected found)), s) := by
      rw [hmismatch]
      rfl
    refine ⟨.typeMismatch "use" expected found, .malformed fun r hasks => ?_,
      Eval.bind_of_error hrequest _⟩
    rw [request_of_asks hasks] at hmismatch
    cases hmismatch

/-! ### Operands in turn -/

/-- What several imports bind, one after the other. -/
def allBindings : Identity → List (String × Target) → List (String × Value)
  | _, [] => []
  | id, (label, target) :: rest =>
    target.bindings id label ++ allBindings (id + (target.bindings id label).length) rest

/-- The callables that several imports make, one for each. -/
def callables : Identity → List (String × Target) → List Value
  | _, [] => []
  | id, (label, target) :: rest =>
    target.callable id :: callables (id + (target.bindings id label).length) rest

variable {taken rest operands : List Value} {imports : List (String × Target)}

/-- One operand that is taken, and those after it. -/
theorem performAll_cons (h : Resolves (s.registry scope) operand (label, target))
    {result : Except Halt (List Value)} {after : Store}
    (hrest : performAll scope rest (s.enrollAll scope (target.bindings s.nextIdentity label)) =
      (result, after)) :
    performAll scope (operand :: rest) s =
      (result.map (target.callable s.nextIdentity :: ·), after) := by
  refine (Eval.bind_of_ok (perform_of_resolves h) _).trans ?_
  cases result with
  | ok vs => exact Eval.bind_of_ok hrest _
  | error halt => exact Eval.bind_of_error hrest _

/-- Operands that are taken, and whatever comes after them. -/
theorem performAll_append (h : List.Forall₂ (Resolves (s.registry scope)) taken imports)
    {result : Except Halt (List Value)} {after : Store}
    (hrest : performAll scope rest (s.enrollAll scope (allBindings s.nextIdentity imports)) =
      (result, after)) :
    performAll scope (taken ++ rest) s =
      (result.map (callables s.nextIdentity imports ++ ·), after) := by
  induction imports generalizing s taken with
  | nil =>
    cases h
    refine hrest.trans ?_
    cases result <;> rfl
  | cons first imports ih =>
    obtain ⟨label, target⟩ := first
    cases h with
    | cons hfirst hothers =>
      -- What is taken next depends on the registry alone, which the first import leaves as it is.
      rw [← s.registry_enrollAll scope (target.bindings s.nextIdentity label)] at hothers
      rw [allBindings, Store.enrollAll_append, ← s.nextIdentity_enrollAll scope] at hrest
      rw [List.cons_append, performAll_cons hfirst (ih hothers hrest), callables,
        s.nextIdentity_enrollAll scope]
      cases result <;> rfl

theorem performAll_taken (h : List.Forall₂ (Resolves (s.registry scope)) taken imports) :
    performAll scope taken s =
      (.ok (callables s.nextIdentity imports),
        s.enrollAll scope (allBindings s.nextIdentity imports)) := by
  have hall : performAll scope (taken ++ []) s = _ := performAll_append h rfl
  rw [List.append_nil] at hall
  rw [hall]
  show (Except.ok (callables s.nextIdentity imports ++ []), _) = _
  rw [List.append_nil]

/-- A bad operand ends it all, whatever comes after it. -/
theorem performAll_bad (h : List.Forall₂ (Resolves (s.registry scope)) taken imports) {bad : Value}
    (hbad : ∀ label, ¬ Resolves (s.registry scope) bad label) (others : List Value) :
    ∃ e, Refused (s.registry scope) bad e ∧ performAll scope (taken ++ bad :: others) s =
      (.error (.error e), s.enrollAll scope (allBindings s.nextIdentity imports)) := by
  have hregistry := s.registry_enrollAll scope (allBindings s.nextIdentity imports) scope
  rw [← hregistry] at hbad
  obtain ⟨e, hrefused, hrun⟩ := perform_of_not_resolves hbad
  rw [hregistry] at hrefused
  have hrest : performAll scope (bad :: others) _ = _ := Eval.bind_of_error hrun _
  exact ⟨e, hrefused, performAll_append h hrest⟩

theorem performAll_snd (h : List.Forall₂ (Resolves (s.registry scope)) taken imports)
    (hbad : ∀ bad ∈ rest.head?, ∀ label, ¬ Resolves (s.registry scope) bad label) :
    (performAll scope (taken ++ rest) s).2 =
      s.enrollAll scope (allBindings s.nextIdentity imports) := by
  cases rest with
  | nil => rw [List.append_nil, performAll_taken h]
  | cons bad others =>
    obtain ⟨e, -, hrun⟩ := performAll_bad h (hbad bad rfl) others
    rw [hrun]

/-- The operands before the first bad one. -/
theorem exists_taken (registry : Registry) (operands : List Value) :
    ∃ taken rest imports, operands = taken ++ rest ∧ List.Forall₂ (Resolves registry) taken imports ∧
      ∀ bad ∈ rest.head?, ∀ label, ¬ Resolves registry bad label := by
  induction operands with
  | nil => exact ⟨[], [], [], rfl, .nil, fun bad hbad => by cases hbad⟩
  | cons operand operands ih =>
    by_cases hfirst : ∃ label, Resolves registry operand label
    · obtain ⟨label, hlabel⟩ := hfirst
      obtain ⟨taken, rest, imports, rfl, htaken, hbad⟩ := ih
      exact ⟨operand :: taken, rest, label :: imports, rfl, .cons hlabel htaken, hbad⟩
    · refine ⟨[], operand :: operands, [], rfl, .nil, fun bad hbad label hlabel => ?_⟩
      cases hbad
      exact hfirst ⟨label, hlabel⟩

/-- Only a scope that is there has something to import. -/
theorem Resolves.scope_lt (h : Resolves (s.registry scope) operand (label, target)) :
    scope < s.frames.size := by
  by_cases hlt : scope < s.frames.size
  · exact hlt
  · have hempty : s.registry scope = .empty := by
      rw [Store.registry, Store.runtime?, Store.runtimeId?,
        Array.getElem?_eq_none (Nat.le_of_not_lt hlt)]
      rfl
    obtain ⟨written, -, hmeans⟩ := h
    rw [hempty] at hmeans
    cases hmeans with
    | type _ hfound => cases hfound
    | function _ hfound => cases hfound

/-- After an import the label is bound to the callable that was imported. -/
theorem localValue?_after_import (h : Resolves (s.registry scope) operand (label, target)) :
    (s.enrollAll scope (target.bindings s.nextIdentity label)).localValue? scope label =
      some (target.callable s.nextIdentity) := by
  have hlast : ∃ statics, target.bindings s.nextIdentity label =
      statics ++ [(label, target.callable s.nextIdentity)] := by
    cases target with
    | function name f => exact ⟨[], rfl⟩
    | type host => exact ⟨_, rfl⟩
  obtain ⟨statics, hbindings⟩ := hlast
  rw [hbindings, Store.localValue?, Store.bindings, Store.frames_enrollAll, if_pos rfl,
    Array.getElem?_eq_getElem h.scope_lt]
  show Assoc.find? label (Assoc.putAll (statics ++ [_]) _) = _
  rw [Assoc.putAll, List.foldl_append]
  exact Assoc.find?_put_self _ _ _

theorem strictEq_callable (id : Identity) (target : Target) :
    (target.callable id).strictEq (target.callable id) = true := by
  cases target <;> simp [Target.callable, Value.strictEq, Callable.same]

/-- Each label is bound to its callable when it is imported. -/
theorem bound_when_imported (h : List.Forall₂ (Resolves (s.registry scope)) taken imports) {i : Nat}
    (hi : imports[i]? = some (label, target)) :
    ∃ c, (callables s.nextIdentity imports)[i]? = some c ∧
      (performAll scope (taken.take (i + 1)) s).2.localValue? scope label = some c ∧
      c.strictEq c = true := by
  induction imports generalizing s taken i with
  | nil => cases hi
  | cons first imports ih =>
    obtain ⟨label', target'⟩ := first
    cases h with
    | @cons operand _ taken _ hfirst hothers =>
      cases i with
      | zero =>
        cases hi
        refine ⟨_, rfl, ?_, strictEq_callable _ _⟩
        rw [List.take_succ_cons, List.take_zero, performAll_cons hfirst rfl]
        exact localValue?_after_import hfirst
      | succ i =>
        rw [← s.registry_enrollAll scope (target'.bindings s.nextIdentity label')] at hothers
        obtain ⟨c, hc, hbound, heq⟩ := ih hothers hi
        refine ⟨c, ?_, ?_, heq⟩
        · rw [← hc, s.nextIdentity_enrollAll scope]
          rfl
        · rw [List.take_succ_cons, performAll_cons hfirst rfl]
          exact hbound

end Import

/-! ### The special form -/

/-- Nothing but some bindings of one frame is new, apart from identities that have been given. -/
structure Store.OnlyBinds (s : Store) (scope : FrameId) (pairs : List (String × Value)) (t : Store) :
    Prop where
  bound : t.frames[scope]? = s.frames[scope]?.map fun frame =>
    { frame with bindings := Assoc.putAll pairs frame.bindings }
  others : ∀ g, g ≠ scope → t.frames[g]? = s.frames[g]?
  runtimes : t.runtimes = s.runtimes
  vectors : t.vectors = s.vectors

theorem Store.onlyBinds_enrollAll (s : Store) (scope : FrameId) (pairs : List (String × Value)) :
    s.OnlyBinds scope pairs (s.enrollAll scope pairs) where
  bound := by rw [frames_enrollAll, if_pos rfl]
  others g hg := by rw [frames_enrollAll, if_neg hg.symm]
  runtimes := (runtimes_enrollAll pairs).1
  vectors := (runtimes_enrollAll pairs).2

theorem Store.OnlyBinds.renumber {s t : Store} {scope : FrameId} {pairs : List (String × Value)}
    (h : s.OnlyBinds scope pairs t) (id : Identity) :
    s.OnlyBinds scope pairs { t with nextIdentity := id } :=
  ⟨h.bound, h.others, h.runtimes, h.vectors⟩

namespace SpecialForm

open Import

theorem run_imports_snd (ev : Evaluator) (scope : FrameId) (operands : List Value) (s : Store) :
    ∃ id, (run .imports ev scope operands s).2 =
      { (performAll scope operands s).2 with nextIdentity := id } := by
  cases hrun : performAll scope operands s with
  | mk result t =>
    cases result with
    | ok vs => exact ⟨_, congrArg Prod.snd (Eval.bind_of_ok hrun Eval.newList)⟩
    | error halt => exact ⟨_, congrArg Prod.snd (Eval.bind_of_error hrun Eval.newList)⟩

/-- What `use` does, for every registry, scope and list of operands. The operands before the first one
that is malformed or names nothing are taken. The current frame has its old bindings, updated in order
by the imports of these operands, and nothing else has changed. If all operands are taken, the result is
the list of the imported callables in order. Otherwise it is the error of the first bad one. Each
callable is the one, in the sense of `eq`, to which its label was bound when it was imported. -/
theorem imports_up_to_first_bad (ev : Evaluator) (scope : FrameId) (operands : List Value)
    (s : Store) :
    ∃ taken rest imports, operands = taken ++ rest ∧
      List.Forall₂ (Resolves (s.registry scope)) taken imports ∧
      (∀ bad ∈ rest.head?, ∀ label, ¬ Resolves (s.registry scope) bad label) ∧
      s.OnlyBinds scope (allBindings s.nextIdentity imports) (run .imports ev scope operands s).2 ∧
      (rest = [] → ∃ id, (run .imports ev scope operands s).1 =
        .ok (.list id (callables s.nextIdentity imports))) ∧
      (∀ bad others, rest = bad :: others → ∃ e, Refused (s.registry scope) bad e ∧
        (run .imports ev scope operands s).1 = .error (.error e)) ∧
      ∀ i label target, imports[i]? = some (label, target) →
        ∃ c, (callables s.nextIdentity imports)[i]? = some c ∧
          (run .imports ev scope (operands.take (i + 1)) s).2.localValue? scope label = some c ∧
          c.strictEq c = true := by
  obtain ⟨taken, rest, imports, rfl, htaken, hbad⟩ := exists_taken (s.registry scope) operands
  refine ⟨taken, rest, imports, rfl, htaken, hbad, ?_, ?_, ?_, fun i label target hi => ?_⟩
  · obtain ⟨id, hafter⟩ := run_imports_snd ev scope (taken ++ rest) s
    rw [hafter, performAll_snd htaken hbad]
    exact (s.onlyBinds_enrollAll scope _).renumber id
  · rintro rfl
    rw [List.append_nil]
    exact ⟨_, congrArg Prod.fst (Eval.bind_of_ok (performAll_taken htaken) Eval.newList)⟩
  · rintro bad others rfl
    obtain ⟨e, hrefused, hrun⟩ := performAll_bad htaken (hbad bad rfl) others
    exact ⟨e, hrefused, congrArg Prod.fst (Eval.bind_of_error hrun Eval.newList)⟩
  · obtain ⟨c, hc, hbound, heq⟩ := bound_when_imported htaken hi
    refine ⟨c, hc, ?_, heq⟩
    have hlength : i + 1 ≤ taken.length := by
      rw [htaken.length_eq]
      exact (List.getElem?_eq_some_iff.1 hi).1
    obtain ⟨id, hafter⟩ := run_imports_snd ev scope (taken.take (i + 1)) s
    rw [List.take_append_of_le_length hlength, hafter]
    exact hbound

end SpecialForm

end ConfinedLisp
