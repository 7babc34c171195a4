import ConfinedLisp.Proofs.ListIdentities

/-!
# The frame of a function call

A call of a function binds its arguments in a frame of its own and nowhere else. The frame is new, its
parent is the frame that the function closed over, and it binds the parameters and the list of all
arguments. A parameter that is repeated holds the argument at its last occurrence, and one that is named
like the list of arguments gives way to it. No other frame sees any of this.

## Main definitions

- `Store.OpensFrame`: how the store in which a body starts differs from the one before the call.

## Main results

- `Store.opensFrame`: the frame of a call.
- `Underway.call_binds_its_frame`: what a call of a function does before its body starts.
-/

namespace ConfinedLisp

namespace Store

variable {s t : Store} {f : FrameId}

theorem counts_bindAll (s : Store) (f : FrameId) (pairs : List (String × Value)) :
    (s.bindAll f pairs).frames.size = s.frames.size ∧
      (s.bindAll f pairs).nextIdentity = s.nextIdentity := by
  induction pairs generalizing s with
  | nil => exact ⟨rfl, rfl⟩
  | cons pair pairs ih =>
    obtain ⟨hframes, hidentity⟩ := ih (s.bind f pair.1 pair.2)
    exact ⟨hframes.trans (by simp [Store.bind]), hidentity⟩

theorem bindings_bindAll (hf : f < s.frames.size) (pairs : List (String × Value)) :
    (s.bindAll f pairs).bindings f = Assoc.putAll pairs (s.bindings f) := by
  induction pairs generalizing s with
  | nil => rfl
  | cons pair pairs ih =>
    have hsize : f < (s.bind f pair.1 pair.2).frames.size := by simpa [Store.bind] using hf
    refine (ih hsize).trans ?_
    rw [bindings_bind, if_pos ⟨rfl, by simp [hf]⟩]
    rfl

/-- A store in which the body of a function starts, given the one in which it is called. One frame is
new: its parent is the frame that the function closed over, and it binds each of the parameters and the
name for the list of all arguments once. That list has taken an identity. Nothing else has changed, and
the frames that were there find under each name what they found before. -/
structure OpensFrame (s t : Store) (captured inner : FrameId) (parameters : List String)
    (args : List Value) : Prop where
  fresh : inner = s.frames.size
  earlier : captured < inner
  oneFrame : t.frames.size = s.frames.size + 1
  parent : t.parent? inner = some captured
  runtime : t.runtimeId? inner = s.runtimeId? captured
  nodup : (Assoc.keys (t.bindings inner)).Nodup
  names : ∀ name, name ∈ Assoc.keys (t.bindings inner) ↔ name ∈ parameters ∨ name = argumentsName
  parameter : ∀ i name v, parameters[i]? = some name → args[i]? = some v →
    name ∉ parameters.drop (i + 1) → name ≠ argumentsName → t.localValue? inner name = some v
  arguments : t.localValue? inner argumentsName = some (.list s.nextIdentity args)
  others : ∀ g, g ≠ inner → t.frames[g]? = s.frames[g]?
  runtimes : t.runtimes = s.runtimes
  vectors : t.vectors = s.vectors
  identity : t.nextIdentity = s.nextIdentity + 1
  inherits : ∀ name, name ∉ parameters → name ≠ argumentsName →
    t.lookup? inner name = s.lookup? captured name
  lookups : ∀ g < inner, ∀ name, t.lookup? g name = s.lookup? g name

section Calling

variable {captured : FrameId} {parameters : List String} {args : List Value}

theorem keys_callPairs (hargs : parameters.length ≤ args.length) (all : Value) :
    Assoc.keys (parameters.zip args ++ [(argumentsName, all)]) = parameters ++ [argumentsName] := by
  rw [Assoc.keys, List.map_append, List.map_fst_zip hargs]
  rfl

theorem frames_calling (s : Store) (captured : FrameId) (parameters : List String)
    (args : List Value) {g : FrameId} (hg : g ≠ s.frames.size) :
    (s.calling captured parameters args).frames[g]? = s.frames[g]? := by
  rw [calling, frames_bindAll_of_ne (Ne.symm hg)]
  exact (frames_addFrame s _ _ g).trans (if_neg hg)

theorem counts_calling (s : Store) (captured : FrameId) (parameters : List String)
    (args : List Value) :
    (s.calling captured parameters args).frames.size = s.frames.size + 1 ∧
      (s.calling captured parameters args).nextIdentity = s.nextIdentity + 1 := by
  obtain ⟨hframes, hidentity⟩ := counts_bindAll
    (s.addFrame (some captured) ((s.runtimeId? captured).getD 0)).2.freshened s.frames.size
    (parameters.zip args ++ [(argumentsName, .list s.nextIdentity args)])
  exact ⟨hframes.trans (by simp [addFrame, freshened]), hidentity⟩

theorem shape_calling (s : Store) (captured : FrameId) (parameters : List String)
    (args : List Value) :
    (s.calling captured parameters args).runtimeId? s.frames.size =
        some ((s.runtimeId? captured).getD 0) ∧
      (s.calling captured parameters args).parent? s.frames.size = some captured := by
  obtain ⟨hruntime, hparent⟩ := (s.addFrame (some captured)
    ((s.runtimeId? captured).getD 0)).2.freshened.shape_bindAll s.frames.size s.frames.size
    (parameters.zip args ++ [(argumentsName, .list s.nextIdentity args)])
  exact ⟨hruntime.trans (by simp [runtimeId?, addFrame, freshened]),
    hparent.trans (by simp [parent?, addFrame, freshened])⟩

theorem bindings_calling (s : Store) (captured : FrameId) (parameters : List String)
    (args : List Value) :
    (s.calling captured parameters args).bindings s.frames.size =
      Assoc.putAll (parameters.zip args ++ [(argumentsName, .list s.nextIdentity args)]) [] := by
  have hmade : s.frames.size <
      (s.addFrame (some captured) ((s.runtimeId? captured).getD 0)).2.freshened.frames.size := by
    simp [addFrame, freshened]
  rw [calling, bindings_bindAll hmade]
  simp [bindings, addFrame, freshened]

/-- The frame of a call binds the parameters and the name for all arguments, and no other name. -/
theorem mem_keys_calling (s : Store) (captured : FrameId) (hargs : parameters.length ≤ args.length)
    (name : String) :
    name ∈ Assoc.keys ((s.calling captured parameters args).bindings s.frames.size) ↔
      name ∈ parameters ∨ name = argumentsName := by
  rw [bindings_calling, Assoc.mem_keys_putAll, keys_callPairs hargs]
  simp [Assoc.keys]

/-- A name is bound in the frame of a call to what it is given last. -/
theorem localValue?_calling (captured : FrameId) (hargs : parameters.length ≤ args.length) {i : Nat}
    {name : String} {v : Value}
    (hi : (parameters.zip args ++ [(argumentsName, .list s.nextIdentity args)])[i]? = some (name, v))
    (hlast : name ∉ (parameters ++ [argumentsName]).drop (i + 1)) :
    (s.calling captured parameters args).localValue? s.frames.size name = some v := by
  rw [localValue?, bindings_calling]
  refine Assoc.find?_putAll hi ?_ []
  rwa [Assoc.keys, List.map_drop, ← Assoc.keys, keys_callPairs hargs]

/-- The frames that were there, from one of them up, are as they were. -/
theorem frames_calling_of_le (captured : FrameId) (parameters : List String) (args : List Value)
    {f g : FrameId} (hf : f < s.frames.size) (hg : g ≤ f) :
    (s.calling captured parameters args).frames[g]? = s.frames[g]? :=
  s.frames_calling captured parameters args (Nat.ne_of_lt (Nat.lt_of_le_of_lt hg hf))

/-- Under a name that the frame of a call does not bind, the body finds what the function closed
over. -/
theorem lookup?_calling (hs : s.Rooted) (hcaptured : captured < s.frames.size)
    (hargs : parameters.length ≤ args.length) {name : String} (hname : name ∉ parameters)
    (hne : name ≠ argumentsName) :
    (s.calling captured parameters args).lookup? s.frames.size name = s.lookup? captured name := by
  obtain ⟨frame, hframe, hparent⟩ :=
    Option.bind_eq_some_iff.1 (s.shape_calling captured parameters args).2
  have hkeys : name ∉ Assoc.keys frame.bindings := by
    have hmem := mt (s.mem_keys_calling captured hargs name).1 (not_or.2 ⟨hname, hne⟩)
    rwa [bindings, hframe] at hmem
  rw [lookup?_above hframe (Assoc.find?_eq_none_iff.2 hkeys) hparent]
  exact congrArg (Option.map Prod.snd) (hs.searchWithin_eq_of_frames name
    (fun g => s.frames_calling_of_le captured parameters args hcaptured) hcaptured
    (Nat.lt_succ_self captured))

/-- The frame of a call is new, binds what it should, and is seen by no frame that was there. -/
theorem opensFrame (hs : s.Rooted) (hcaptured : captured < s.frames.size)
    (hargs : parameters.length ≤ args.length) :
    s.OpensFrame (s.calling captured parameters args) captured s.frames.size parameters args where
  fresh := rfl
  earlier := hcaptured
  oneFrame := (s.counts_calling captured parameters args).1
  parent := (s.shape_calling captured parameters args).2
  runtime := by
    have hframe := Array.getElem?_eq_getElem hcaptured
    rw [(s.shape_calling captured parameters args).1, runtimeId?, hframe]
    rfl
  nodup := by
    rw [bindings_calling]
    exact Assoc.nodup_keys_putAll (m := []) List.nodup_nil _
  names := s.mem_keys_calling captured hargs
  parameter i name v hi hv hlast hname := by
    have hzip : (parameters.zip args)[i]? = some (name, v) :=
      List.getElem?_zip_eq_some.2 ⟨hi, hv⟩
    refine localValue?_calling captured hargs (i := i) ?_ ?_
    · rw [List.getElem?_append_left (List.getElem?_eq_some_iff.1 hzip).1]
      exact hzip
    · rw [List.drop_append_of_le_length (List.getElem?_eq_some_iff.1 hi).1]
      simp [hlast, hname]
  -- The list of all arguments is bound after the parameters, so no parameter takes its place.
  arguments := localValue?_calling captured hargs (i := parameters.length) (by simp [hargs]) (by simp)
  others g := s.frames_calling captured parameters args
  runtimes := (Unbudgeted.bindAll s.frames.size _).runtimes _
  vectors := vectors_bindAll _ _ _
  identity := (s.counts_calling captured parameters args).2
  inherits name := lookup?_calling hs hcaptured hargs
  lookups g hg name :=
    hs.lookup?_eq_of_frames (fun f => s.frames_calling_of_le captured parameters args hg) name

end Calling

end Store

/-! ### Calls -/

/-- A call of a function that is around at any moment of an evaluation. With too few arguments it fails
and leaves the store as it is. Otherwise the body starts in a frame of its own, which no value refers to
yet. It makes no difference whether the function is called with values or applied to operands, except
that these are evaluated first. -/
theorem Underway.call_binds_its_frame {s : Store} {hand : List Value} (h : Underway s hand)
    {id : Identity} {captured : FrameId} {parameters : List String} {forms : List Value}
    (hf : s.Has hand (.callable (.function id captured parameters forms))) (args : List Value) :
    (args.length < parameters.length → ∀ (ev : Evaluator) (scope : FrameId),
      ev.invoke scope (.function id captured parameters forms) args s =
        (.error (.error (.arity "lambda" (.atLeast parameters.length) args.length)), s)) ∧
    (parameters.length ≤ args.length → ∃ inner t,
      s.OpensFrame t captured inner parameters args ∧
      (∀ v, s.Has hand v → v.ref? ≠ some (.frame inner)) ∧
      ∀ (ev : Evaluator) (scope : FrameId),
        ev.invoke scope (.function id captured parameters forms) args s = ev.body inner forms t) ∧
    ∀ (ev : Evaluator) (scope : FrameId),
      ev.call scope (.callable (.function id captured parameters forms)) args =
          ev.invoke scope (.function id captured parameters forms) args ∧
        ∀ (i : Identity) (operands : List Value),
          ev.apply scope (.function id captured parameters forms) i operands =
            ev.values scope operands >>= ev.invoke scope (.function id captured parameters forms) := by
  obtain ⟨w, hw, -⟩ := h.isRecorded
  have hrooted : s.Rooted := hw ▸ w.rooted
  have hcaptured : captured < s.frames.size := (h.around_of_has hf).self.2 captured rfl
  refine ⟨fun hfew ev scope => ?_, fun hargs => ?_,
    fun ev scope => ⟨ev.call_callable .., fun i operands => rfl⟩⟩
  · show ev.callFunction captured parameters forms args s = _
    rw [Evaluator.callFunction, if_pos hfew]
    rfl
  · refine ⟨_, _, Store.opensFrame hrooted hcaptured hargs, fun v hv hinner => ?_,
      fun ev scope => ev.callFunction_eq captured forms hargs s⟩
    exact Nat.lt_irrefl _ ((h.around_of_has hv).self.2 _ hinner)

/-- A parameter that occurs twice, with a parameter that is named like the list of arguments between,
and one argument more than there are parameters. The function closed over a frame where the name of the
parameter is bound already. -/
theorem Underway.call_binds_its_frame_repeated :
    let s : Store := (Store.empty.addFrame none 0).2.bind 0 "x" (.int 9)
    let f : Callable Value := .function 0 0 ["x", argumentsName, "x"] []
    let hand : List Value := [.callable f, .int 9]
    let args : List Value := [.int 1, .int 2, .int 3, .int 4]
    Underway s hand ∧ s.Has hand (.callable f) ∧
      (∀ (ev : Evaluator) (scope : FrameId), ev.invoke scope f [.int 1] s =
        (.error (.error (.arity "lambda" (.atLeast 3) 1)), s)) ∧
      ∃ t, s.OpensFrame t 0 1 ["x", argumentsName, "x"] args ∧
        t.localValue? 1 "x" = some (.int 3) ∧
        t.localValue? 1 argumentsName = some (.list s.nextIdentity args) ∧
        t.lookup? 0 "x" = some (.int 9) ∧
        ∀ (ev : Evaluator) (scope : FrameId), ev.invoke scope f args s = ev.body 1 [] t := by
  intro s f hand args
  have hroot : Underway (Store.empty.addFrame none 0).2 [] :=
    .frame 0 (.reachable .start) fun p hp => by cases hp
  have hint : Underway (Store.empty.addFrame none 0).2 [.int 9] :=
    hroot.take ((Value.IsLeaf.all_iff (v := .int 9) trivial).2 (.of_recorded (.of_plain trivial)))
  have hshows : s.Shows [.int 9] (.callable f) :=
    (Store.Shows.iff_of_ref? (fun id items hv => by cases hv) rfl).2 (by decide)
  have hs : Underway s hand :=
    (hint.bind 0 "x" (List.mem_cons_self ..)).take
      (Value.all_function.2 ⟨hshows, fun v hv => absurd hv List.not_mem_nil⟩)
  have hhas : s.Has hand (.callable f) := .of_mem (List.mem_cons_self ..)
  obtain ⟨-, henough, -⟩ := hs.call_binds_its_frame hhas args
  obtain ⟨inner, t, hopens, -, hrun⟩ := henough (by decide)
  obtain rfl : inner = 1 := hopens.fresh
  refine ⟨hs, hhas, (hs.call_binds_its_frame hhas [.int 1]).1 (by decide), t, hopens, ?_, ?_, ?_, hrun⟩
  · exact hopens.parameter 2 "x" (.int 3) rfl rfl (by decide) (by decide)
  · exact hopens.arguments
  · rw [hopens.lookups 0 hopens.earlier "x"]
    rfl

end ConfinedLisp
