import Jmm.Jasmin.Emission
import Jmm.Proofs.Semantics.Jasmin

/-!
# Runs of assembly that compute something

`Runs w lines f x Q` says that the machine, started in the frame `f`, does what the computation `x`
does: where `x` gives a value `a`, it gets, with the same effects, to a place `n` with `Q a n`, and
where `x` raises an exception, it stops with that exception.  Where `x` is undefined, nothing is
said.  `Leads` is the case in which the place is a frame that depends on the value alone, as it does
for code that pushes a value.

The computation is taken apart by `Runs.bind`, and the code by the rules for one line: `Runs.op` for
an operation that does what the computation does, `Runs.after_op` and `Runs.after_label` for a line
before the code that does it.

`Spans lines k steps k'` says where in a method the lines of the steps start and end.
-/

set_option autoImplicit false

namespace Jmm.Jasmin

open Semantics

/-! ## Code in its place -/

/-- The lines of the steps stand in a method from one line on up to another. -/
def Spans (lines : List Line) : Nat → List Step → Nat → Prop
  | k, [], k' => k = k'
  | k, s :: ss, k' => lines[k]? = some s.line ∧ Spans lines (k + 1) ss k'

section Spans

variable {lines : List Line} {k k' : Nat} {s : Step} {a b : List Step}

@[simp] theorem spans_nil : Spans lines k [] k' ↔ k = k' := Iff.rfl

@[simp] theorem spans_cons :
    Spans lines k (s :: a) k' ↔ lines[k]? = some s.line ∧ Spans lines (k + 1) a k' := Iff.rfl

theorem spans_append : Spans lines k (a ++ b) k' ↔ ∃ j, Spans lines k a j ∧ Spans lines j b k' := by
  induction a generalizing k with
  | nil => simp
  | cons s a ih => simp [ih, and_assoc]

theorem Spans.eq_add (h : Spans lines k a k') : k' = k + a.length := by
  induction a generalizing k with
  | nil => exact h.symm
  | cons s a ih =>
    rw [ih h.2, List.length_cons]
    omega

theorem spans_map_line (before steps : List Step) :
    Spans ((before ++ steps).map Step.line) before.length steps
      (before.length + steps.length) := by
  induction steps generalizing before with
  | nil => rfl
  | cons s steps ih =>
    refine ⟨by simp, ?_⟩
    have hrest := ih (before ++ [s])
    have hlength : (before ++ [s]).length + steps.length = before.length + (s :: steps).length := by
      simp only [List.length_append, List.length_cons, List.length_nil]
      omega
    rwa [hlength, List.append_assoc, List.singleton_append, List.length_append] at hrest

end Spans

/-! ## Labels -/

/-- The name of a label. -/
def Line.label? : Line → Option String
  | label name => some name
  | op _ => none

/-- No label stands on two lines. -/
def UniqueLabels (lines : List Line) : Prop := (lines.filterMap Line.label?).Nodup

/-- A label that stands on one line leads there. -/
theorem labelLine?_of_getElem? {lines : List Line} (h : UniqueLabels lines) {label : String}
    {k : Nat} (hk : lines[k]? = some (.label label)) : labelLine? lines label = some k := by
  rw [labelLine?, List.findIdx?_eq_some_iff_getElem]
  obtain ⟨hlt, hline⟩ := List.getElem?_eq_some_iff.mp hk
  refine ⟨hlt, by simp [hline], fun j hj hlabel ↦ ?_⟩
  -- the label would stand on the lines `j` and `k`
  have hlabel' : lines[j] = .label label := by simpa using hlabel
  have hsplit := List.take_append_drop k lines
  rw [UniqueLabels, ← hsplit, List.filterMap_append] at h
  refine (List.nodup_append.mp h).2.2 label ?_ label ?_ rfl
  · refine List.mem_filterMap.mpr ⟨lines[j], ?_, by rw [hlabel']; rfl⟩
    exact List.mem_take_iff_getElem.mpr ⟨j, by omega, rfl⟩
  · refine List.mem_filterMap.mpr ⟨lines[k], ?_, by rw [hline]; rfl⟩
    rw [List.drop_eq_getElem_cons hlt]
    exact List.mem_cons_self

/-! ## Runs -/

/-- The state at a place. -/
def Next.at : Next → Shared → State
  | goto f, s => .running f s
  | returned v, s => .returned v s

/-- The machine does from a state on what an outcome says. -/
def Reaches {α : Type} (w : World) (lines : List Line) (st : State) (Q : α → Next → Prop) :
    Outcome α → Prop
  | .ok a s' => ∃ n, Q a n ∧ Steps w lines st (n.at s')
  | .raised x s' => Steps w lines st (.raised x s')
  | .undefined => True

/-- The machine does from a frame on what a computation does. -/
def Runs {α : Type} (w : World) (lines : List Line) (f : Frame) (x : Eval α)
    (Q : α → Next → Prop) : Prop :=
  ∀ s, Reaches w lines (.running f s) Q (x s)

/-- The machine does from a frame on what a computation does, and gets to a frame. -/
abbrev Leads {α : Type} (w : World) (lines : List Line) (f : Frame) (x : Eval α) (g : α → Frame) :
    Prop :=
  Runs w lines f x fun a n ↦ n = .goto (g a)

variable {α β : Type} {w : World} {lines : List Line} {f f' : Frame} {x : Eval α}
  {Q : α → Next → Prop}

/-- Steps before a run that does what an outcome says. -/
theorem Reaches.of_steps {st st' : State} {r : Outcome α} (hsteps : Steps w lines st st')
    (h : Reaches w lines st' Q r) : Reaches w lines st Q r := by
  cases r with
  | ok a s =>
    obtain ⟨n, hq, hrest⟩ := h
    exact ⟨n, hq, hsteps.trans hrest⟩
  | raised e s => exact hsteps.trans h
  | undefined => trivial

namespace Runs

theorem of_pure {a : α} (h : Q a (.goto f)) : Runs w lines f (pure a) Q :=
  fun _ ↦ ⟨.goto f, h, .refl⟩

theorem of_undefined : Runs w lines f Eval.undefined Q := fun _ ↦ trivial

/-- One computation after the other, which may rely on what the first can give. -/
theorem bind_of_ok {g : α → Frame} {k : α → Eval β} {R : β → Next → Prop} (h : Leads w lines f x g)
    (hnext : ∀ a s s', x s = .ok a s' → Runs w lines (g a) (k a) R) :
    Runs w lines f (x >>= k) R := by
  intro s
  have hx := h s
  rw [Eval.bind_apply]
  cases hxs : x s with
  | ok a s' =>
    rw [hxs] at hx
    obtain ⟨_, rfl, hsteps⟩ := hx
    exact Reaches.of_steps hsteps (hnext a s s' hxs s')
  | raised e s' =>
    rw [hxs] at hx
    exact hx
  | undefined => trivial

/-- One computation after the other. -/
theorem bind {g : α → Frame} {k : α → Eval β} {R : β → Next → Prop} (h : Leads w lines f x g)
    (hnext : ∀ a, Runs w lines (g a) (k a) R) : Runs w lines f (x >>= k) R :=
  bind_of_ok h fun a _ _ _ ↦ hnext a

/-- An operation that does what the computation does. -/
theorem op {o : Op} {n : α → Next} (hline : lines[f.line]? = some (.op o))
    (hexec : o.exec w lines f = x >>= fun a ↦ pure (n a)) :
    Runs w lines f x fun a n' ↦ n' = n a := by
  intro s
  have hstep : step w lines (.running f s) = State.after ((x >>= fun a ↦ pure (n a)) s) := by
    rw [step, hline, ← hexec]
  rw [Eval.bind_apply] at hstep
  cases hx : x s with
  | ok a s' =>
    rw [hx] at hstep
    refine ⟨n a, rfl, .single (hstep.trans ?_)⟩
    show State.after (.ok (n a) s') = _
    cases n a <;> rfl
  | raised e s' =>
    rw [hx] at hstep
    exact .single hstep
  | undefined => trivial

/-- An operation that ends the method. -/
theorem of_return {o : Op} {a : α} {v : Option Val} (hline : lines[f.line]? = some (.op o))
    (hexec : o.exec w lines f = pure (.returned v)) (h : Q a (.returned v)) :
    Runs w lines f (pure a) Q :=
  fun _ ↦ ⟨.returned v, h, .single (by simp only [step, hline, hexec]; rfl)⟩

/-- An operation that only goes on to another frame, before a run. -/
theorem after_op {o : Op} (hline : lines[f.line]? = some (.op o))
    (hexec : o.exec w lines f = pure (.goto f')) (h : Runs w lines f' x Q) : Runs w lines f x Q :=
  fun s ↦ Reaches.of_steps (.single (by simp only [step, hline, hexec]; rfl)) (h s)

/-- A label before a run. -/
theorem after_label {label : String} (hline : lines[f.line]? = some (.label label))
    (h : Runs w lines ⟨f.line + 1, f.stack, f.locals⟩ x Q) : Runs w lines f x Q :=
  fun s ↦ Reaches.of_steps (.single (by rw [step, hline])) (h s)

/-- Labels before a run. -/
theorem after_labels {labels : List String} {k : Nat}
    (hlines : Spans lines f.line (labels.map Step.label) k)
    (h : Runs w lines ⟨k, f.stack, f.locals⟩ x Q) : Runs w lines f x Q := by
  induction labels generalizing f with
  | nil =>
    obtain rfl := hlines
    exact h
  | cons label labels ih => exact after_label hlines.1 (ih hlines.2 h)

end Runs

/-! ## Emission that succeeds or fails -/

theorem bind_eq_ok_iff {x : Except Fault α} {k : α → Except Fault β} {b : β} :
    x >>= k = .ok b ↔ ∃ a, x = .ok a ∧ k a = .ok b := by
  cases x with
  | ok a => exact ⟨fun h ↦ ⟨a, rfl, h⟩, fun ⟨_, ha, h⟩ ↦ Except.ok.inj ha ▸ h⟩
  | error e => exact ⟨fun h ↦ (nomatch h), fun ⟨_, ha, _⟩ ↦ (nomatch ha)⟩

theorem bind_eq_error_iff {x : Except Fault α} {k : α → Except Fault β} {f : Fault} :
    x >>= k = .error f ↔ x = .error f ∨ ∃ a, x = .ok a ∧ k a = .error f := by
  cases x with
  | ok a =>
    refine ⟨fun h ↦ .inr ⟨a, rfl, h⟩, fun h ↦ ?_⟩
    obtain ⟨_, ha, h⟩ := h.resolve_left fun h ↦ nomatch h
    exact Except.ok.inj ha ▸ h
  | error f' =>
    refine ⟨fun h ↦ .inl (congrArg _ (Except.error.inj h)), fun h ↦ ?_⟩
    exact congrArg _ (Except.error.inj (h.resolve_right fun ⟨_, ha, _⟩ ↦ nomatch ha))

namespace Emit

variable {n n' : Nat} {a b : α}

theorem bind_eq_error_iff {x : Emit α} {k : α → Emit β} {f : Fault} :
    (x >>= k) n = .error f ↔ x n = .error f ∨ ∃ a n₁, x n = .ok (a, n₁) ∧ k a n₁ = .error f :=
  Jasmin.bind_eq_error_iff.trans (or_congr_right
    ⟨fun ⟨⟨a, n₁⟩, h⟩ ↦ ⟨a, n₁, h⟩, fun ⟨a, n₁, h⟩ ↦ ⟨⟨a, n₁⟩, h⟩⟩)

theorem bind_eq_ok_iff {x : Emit α} {k : α → Emit β} {b : β} :
    (x >>= k) n = .ok (b, n') ↔ ∃ a n₁, x n = .ok (a, n₁) ∧ k a n₁ = .ok (b, n') :=
  Jasmin.bind_eq_ok_iff.trans ⟨fun ⟨⟨a, n₁⟩, h⟩ ↦ ⟨a, n₁, h⟩, fun ⟨a, n₁, h⟩ ↦ ⟨⟨a, n₁⟩, h⟩⟩

theorem lift_eq_ok_iff {x : Except Fault α} :
    (liftM x : Emit α) n = .ok (a, n') ↔ x = .ok a ∧ n' = n := by
  cases x with
  | ok b =>
    refine ⟨fun h ↦ ?_, fun ⟨ha, hn⟩ ↦ by rw [Except.ok.inj ha, hn]; rfl⟩
    obtain ⟨rfl, rfl⟩ := Prod.mk.inj (Except.ok.inj h)
    exact ⟨rfl, rfl⟩
  | error e => exact ⟨fun h ↦ (nomatch h), fun ⟨ha, _⟩ ↦ (nomatch ha)⟩

theorem lift_bind_eq_ok_iff {x : Except Fault α} {k : α → Emit β} {b : β} :
    ((liftM x : Emit α) >>= k) n = .ok (b, n') ↔ ∃ a, x = .ok a ∧ k a n = .ok (b, n') := by
  cases x with
  | ok a => exact ⟨fun h ↦ ⟨a, rfl, h⟩, fun ⟨_, ha, h⟩ ↦ Except.ok.inj ha ▸ h⟩
  | error e => exact ⟨fun h ↦ (nomatch h), fun ⟨_, ha, _⟩ ↦ (nomatch ha)⟩

theorem pure_eq_ok_iff : (pure b : Emit α) n = .ok (a, n') ↔ a = b ∧ n' = n := by
  refine ⟨fun h ↦ ?_, fun ⟨ha, hn⟩ ↦ by rw [ha, hn]; rfl⟩
  obtain ⟨rfl, rfl⟩ := Prod.mk.inj (Except.ok.inj h)
  exact ⟨rfl, rfl⟩

end Emit

/-- The code of a call by name: what it is called on, unless that is a class, the arguments and the
call itself. -/
theorem Emitter.invoke_eq_ok {e : Emitter} {call : Ollir.Call} {isStatic : Bool} {code : List Step}
    (h : e.invoke call isStatic = .ok code) :
    ∃ caller args method owner,
      (if isStatic then caller = [] else e.load call.caller = .ok caller)
      ∧ e.loads call.args = .ok args ∧ call.method = some method ∧ e.owner call.caller = .ok owner
      ∧ code = caller ++ (args ++ [.op (.invoke (if isStatic then .static else .virtual) owner
        method (.ofTys e.unit (call.args.map Ollir.Operand.type) call.returns))
        ((if call.returns = .void then 0 else 1)
          - (call.args.length + (if isStatic then 0 else 1)))]) := by
  rw [Emitter.invoke] at h
  cases hmethod : call.method with
  | none =>
    rw [hmethod] at h
    cases isStatic with
    | true | false =>
      obtain ⟨_, _, h⟩ := bind_eq_ok_iff.mp h
      obtain ⟨_, _, h⟩ := bind_eq_ok_iff.mp h
      cases h
  | some method =>
    rw [hmethod] at h
    obtain ⟨caller, hcaller, h⟩ : ∃ caller,
        (if isStatic then caller = [] else e.load call.caller = .ok caller)
        ∧ (e.loads call.args >>= fun args ↦ e.owner call.caller >>= fun owner ↦ pure (caller ++ args
            ++ [.op (.invoke (if isStatic then .static else .virtual) owner method
              (.ofTys e.unit (call.args.map Ollir.Operand.type) call.returns))
              ((if call.returns = .void then 0 else 1)
                - (call.args.length + (if isStatic then 0 else 1)))])) = .ok code := by
      cases isStatic with
      | true => exact ⟨[], rfl, h⟩
      | false => exact bind_eq_ok_iff.mp h
    obtain ⟨args, hargs, h⟩ := bind_eq_ok_iff.mp h
    obtain ⟨owner, howner, h⟩ := bind_eq_ok_iff.mp h
    exact ⟨caller, args, method, owner, hcaller, hargs, rfl, howner,
      (Except.ok.inj h).symm.trans (List.append_assoc _ _ _)⟩

/-- The code of a call: of an allocation, of the length of an array, of a constructor or of a method
that is called by its name. -/
inductive Emitter.CallCode (e : Emitter) (call : Ollir.Call) : List Step → Prop
  | newArray {size : Ollir.Operand} {code : List Step} (hkind : call.kind = .new)
    (harray : call.isNewArray = true) (hargs : call.args = [size])
    (hsize : e.load size = .ok code) : CallCode e call (code ++ [.op .newIntArray 0])
  | newObject {name : String} (hkind : call.kind = .new) (harray : call.isNewArray = false)
    (hcaller : call.caller = .classRef name) :
    CallCode e call [.op (.new (e.unit.classPath name)) 1]
  | arrayLength {code : List Step} (hkind : call.kind = .arrayLength)
    (hcaller : e.load call.caller = .ok code) : CallCode e call (code ++ [.op .arrayLength 0])
  | construct {code : List Step} (hkind : call.kind = .special)
    (hcaller : e.load call.caller = .ok code) (owner : String) :
    CallCode e call (code ++ [.op (.invoke .special owner "<init>" ⟨[], .void⟩) (-1)])
  | named {isStatic : Bool} {code : List Step}
    (hkind : call.kind = .virtual ∧ (isStatic = true ↔ ∃ name, call.caller = .classRef name)
      ∨ call.kind = .static ∧ isStatic = true)
    (hcode : e.invoke call isStatic = .ok code) : CallCode e call code

theorem Emitter.callCode_of_ok {e : Emitter} {call : Ollir.Call} {code : List Step}
    (h : e.call call = .ok code) : e.CallCode call code := by
  rw [Emitter.call] at h
  cases hkind : call.kind with
  | new =>
    rw [hkind] at h
    cases harray : call.isNewArray with
    | true =>
      simp only [harray, if_true] at h
      split at h
      · obtain ⟨size, hsize, h⟩ := bind_eq_ok_iff.mp h
        obtain rfl := Except.ok.inj h
        exact .newArray hkind harray ‹_› hsize
      · cases h
    | false =>
      simp only [harray, Bool.false_eq_true, if_false] at h
      split at h
      · obtain rfl := Except.ok.inj h
        exact .newObject hkind harray ‹_›
      · cases h
  | arrayLength =>
    rw [hkind] at h
    obtain ⟨array, harray, h⟩ := bind_eq_ok_iff.mp h
    obtain rfl := Except.ok.inj h
    exact .arrayLength hkind harray
  | special =>
    rw [hkind] at h
    obtain ⟨object, hobject, h⟩ := bind_eq_ok_iff.mp h
    obtain ⟨owner, _, h⟩ := bind_eq_ok_iff.mp h
    obtain rfl := Except.ok.inj h
    exact .construct hkind hobject owner
  | virtual =>
    rw [hkind] at h
    refine .named (.inl ⟨hkind, ?_⟩) h
    cases call.caller <;> simp
  | static =>
    rw [hkind] at h
    exact .named (.inr ⟨hkind, rfl⟩) h

/-- The code of an assignment computes the value and stores it, or is one increment. -/
theorem Emitter.assign_eq_ok {e : Emitter} {target : Ollir.Operand} {value : Ollir.Instr}
    {code : List Step} {n n' : Nat} (h : e.assign target value n = .ok (code, n')) :
    e.plainAssign target value n = .ok (code, n')
      ∨ ∃ slot step, e.increment? target value = .ok (some (slot, step))
        ∧ code = [.op (.increment slot step) 0] ∧ n' = n := by
  rw [Emitter.assign] at h
  cases hfusion : e.fusion with
  | false =>
    rw [hfusion] at h
    exact .inl h
  | true =>
    rw [hfusion] at h
    obtain ⟨fused, hfused, h⟩ := Emit.lift_bind_eq_ok_iff.mp h
    cases fused with
    | none => exact .inl h
    | some fused => exact .inr ⟨fused.1, fused.2, hfused, Emit.pure_eq_ok_iff.mp h⟩

end Jmm.Jasmin
