import Jmm.Proofs.Emission.Values

/-!
# The code of instructions

The code that is emitted for an instruction, started with an empty stack where it stands, does what
the instruction does and empties the stack again (`runs_instr`).  It goes on at the line of the
instruction that comes next, which depends on where instructions stand: `Layout` says that labels
lead to the lines of the instructions they stand before, up to further labels in between.

With fusion, an assignment `x := x + k` is one increment; `value_of_increment` says that this is
what the assignment computes.
-/

set_option autoImplicit false

namespace Jmm.Jasmin

open Semantics
open Ollir (Operand Instr Call VarTable)

/-- The place of the machine is that where a method of OLLIR goes, with nothing on the stack.
Instructions start at the lines that `lineOf` gives; a method of type `void` returns nothing. -/
def Corresponds (e : Emitter) (self : Val) (lineOf : Nat → Nat) (returns : Ollir.Ty) :
    Ollir.Next → Next → Prop
  | .goto pc env, .goto f => f.line = lineOf pc ∧ f.stack = [] ∧ e.Represents self env f.locals
  | .returned v, .returned v' => v' = if returns = .void then none else v
  | _, _ => False

/-- Labels lead to the lines of the instructions they stand before. -/
def Layout (m : Ollir.Method) (lines : List Line) (lineOf : Nat → Nat) : Prop :=
  ∀ label pc, m.labelTarget? label = some pc →
    ∃ (line : Nat) (labels : List String), labelLine? lines label = some line
      ∧ Spans lines line (labels.map Step.label) (lineOf pc)

variable {e : Emitter} {c : Context} {m : Ollir.Method} {isStatic : Bool} {env : Env}
  {locals : Nat → Val} {lines : List Line} {lineOf : Nat → Nat} {k k' pc : Nat} {code : List Step}

section Continue

variable (hrep : e.Represents c.self env locals) {returns : Ollir.Ty}

include hrep

/-- The way on to the next instruction leads over its labels. -/
theorem runs_next {labels : List String} {pc' : Nat}
    (hnext : Spans lines k (labels.map Step.label) (lineOf pc')) :
    Runs c.world lines ⟨k, [], locals⟩ (pure (.goto pc' env))
      (Corresponds e c.self lineOf returns) :=
  Runs.after_labels hnext (Runs.of_pure ⟨rfl, rfl, hrep⟩)

/-- An operation that goes to a label, before a run from there. -/
theorem runs_jump (hlayout : Layout m lines lineOf) {label : String} {o : Op} {stack : List Val}
    (hline : lines[k]? = some (.op o))
    (hexec : ∀ line, labelLine? lines label = some line →
      o.exec c.world lines ⟨k, stack, locals⟩ = pure (.goto ⟨line, [], locals⟩)) :
    Runs c.world lines ⟨k, stack, locals⟩ (m.jump label env)
      (Corresponds e c.self lineOf returns) := by
  rw [Ollir.Method.jump]
  cases htarget : m.labelTarget? label with
  | none => exact Runs.of_undefined
  | some pc' =>
    obtain ⟨line, labels, hlabel, hspan⟩ := hlayout label pc' htarget
    exact Runs.after_op hline (hexec line hlabel) (runs_next hrep hspan)

end Continue

/-! ## Increments -/

/-- The literal that an assignment adds to its variable or takes away from it. -/
theorem stepOf_cases {x : String} {op : BinOp} {left right literal : Operand} {negated : Bool}
    (h : Emitter.stepOf x op left right = some (literal, negated)) :
    (op = .add ∧ left = .var x .int32 ∧ right = literal ∧ negated = false)
      ∨ (op = .add ∧ left = literal ∧ right = .var x .int32 ∧ negated = false)
      ∨ (op = .sub ∧ left = .var x .int32 ∧ right = literal ∧ negated = true) := by
  cases op with
  | add =>
    simp only [Emitter.stepOf, beq_iff_eq] at h
    split at h
    · obtain ⟨rfl, rfl⟩ := Prod.mk.inj (Option.some.inj h)
      exact .inl ⟨rfl, ‹_›, rfl, rfl⟩
    · split at h
      · obtain ⟨rfl, rfl⟩ := Prod.mk.inj (Option.some.inj h)
        exact .inr (.inl ⟨rfl, rfl, ‹_›, rfl⟩)
      · exact nomatch h
  | sub =>
    simp only [Emitter.stepOf, beq_iff_eq] at h
    split at h
    · obtain ⟨rfl, rfl⟩ := Prod.mk.inj (Option.some.inj h)
      exact .inr (.inr ⟨rfl, ‹_›, rfl, rfl⟩)
    · exact nomatch h
  | _ => exact nomatch h

theorem eq_of_fittingStep {value step : Int32} {negated : Bool}
    (h : Emitter.fittingStep value negated = some step) :
    step = if negated then -value else value := by
  simp only [Emitter.fittingStep, Option.ite_none_right_eq_some] at h
  obtain rfl := Option.some.inj h.2
  cases negated with
  | true => simp [Int32.ofInt_neg]
  | false => simp

/-- An assignment that is fused computes the sum of its variable and the step. -/
theorem value_of_increment {x : String} {op : BinOp} {left right : Operand} {value step : Int32}
    {negated : Bool} {t type : Ollir.Ty}
    (hstep : Emitter.stepOf x op left right = some (.literal value t, negated))
    (hfits : Emitter.fittingStep value negated = some step) :
    (Instr.binary op left right type).value c env = operate .add (env x) (.int step) := by
  obtain rfl := eq_of_fittingStep hfits
  rcases stepOf_cases hstep with ⟨rfl, rfl, rfl, rfl⟩ | ⟨rfl, rfl, rfl, rfl⟩ | ⟨rfl, rfl, rfl, rfl⟩
  · rfl
  · show operate .add (.int value) (env x) = operate .add (env x) (.int value)
    cases env x with
    | int n => simp [operate, Int32.add_comm]
    | _ => rfl
  · show operate .sub (env x) (.int value) = operate .add (env x) (.int (-value))
    cases env x with
    | int n => simp [operate, Int32.sub_eq_add_neg]
    | _ => rfl

/-- The assignments that are fused. -/
theorem increment?_eq_some {target : Operand} {value : Instr} {slot : Nat} {step : Int32}
    (h : e.increment? target value = .ok (some (slot, step))) :
    ∃ x, target = .var x .int32 ∧ e.slot x = .ok slot
      ∧ ∀ c env, value.value c env = operate .add (env x) (.int step) := by
  rw [Emitter.increment?.eq_def] at h
  split at h
  · rename_i x op left right type
    split at h
    · rename_i literal t negated hstep
      split at h
      · split at h
        · rename_i step' hfits
          obtain ⟨slot', hslot, h⟩ := bind_eq_ok_iff.mp h
          obtain ⟨rfl, rfl⟩ := Prod.mk.inj (Option.some.inj (Except.ok.inj h))
          exact ⟨x, rfl, hslot, fun c env ↦ value_of_increment hstep hfits⟩
        · exact nomatch Except.ok.inj h
      · exact nomatch h
    · exact nomatch Except.ok.inj h
  · exact nomatch Except.ok.inj h

/-! ## Instructions -/

theorem exec_ret {w : World} (type : Ollir.Ty) (v : Val) :
    (Op.ret (.ofTy type)).exec w lines ⟨k, [v], locals⟩
      = pure (.returned (if type = .void then none else some v)) := by
  cases type <;> rfl

section Instructions

variable (hslots : e.HasSlots isStatic) (hrep : e.Represents c.self env locals)
  (hpath : c.path = e.unit.classPath) (hlabels : UniqueLabels lines)
  (hlayout : Layout m lines lineOf) {labels : List String} {returns : Ollir.Ty}
  (hnext : Spans lines k' (labels.map Step.label) (lineOf (pc + 1)))

include hslots hrep hnext

/-- An increment does what the assignment does that it stands for. -/
theorem runs_increment {x : String} {type t : Ollir.Ty} {value : Instr} {slot : Nat} {step : Int32}
    (hx : x ≠ Ollir.receiverName) (hslot : e.slot x = .ok slot)
    (hvalue : value.value c env = operate .add (env x) (.int step))
    (hspan : Spans lines k [.op (.increment slot step) 0] k') :
    Runs c.world lines ⟨k, [], locals⟩ (Instr.exec c m pc env (.assign (.var x t) type value))
      (Corresponds e c.self lineOf returns) := by
  obtain ⟨hline, rfl⟩ := hspan
  have hlocal := hrep.var hslots hx hslot
  rw [Instr.exec, hvalue]
  cases hn : env x with
  | int n =>
    have hexec : (Op.increment slot step).exec c.world lines ⟨k, [], locals⟩
        = pure (.goto ⟨k + 1, [], Function.update locals slot (.int (n + step))⟩) := by
      simp only [Op.exec, hlocal, hn]
    exact Runs.after_op hline hexec (runs_next (hrep.set hslots hx hslot _) hnext)
  | _ => exact Runs.of_undefined

include hpath

/-- The code of a call that is a statement. -/
theorem runs_call {call : Call} (hbalanced : call.IsBalanced)
    (hproper : ∀ o ∈ call.caller :: call.args, o.IsProper isStatic) {n n' : Nat}
    (hcode : e.instr (.call call) n = .ok (code, n')) (hspan : Spans lines k code k') :
    Runs c.world lines ⟨k, [], locals⟩ (Instr.exec c m pc env (.call call))
      (Corresponds e c.self lineOf returns) := by
  obtain ⟨callCode, hcall, hcode⟩ := Emit.lift_bind_eq_ok_iff.mp hcode
  obtain ⟨rfl, rfl⟩ := Emit.pure_eq_ok_iff.mp hcode
  split at hspan
  · rename_i hvoid
    refine (leads_call hslots hrep hpath hbalanced hproper hcall hspan []).bind fun v ↦ ?_
    rw [resultStack, if_pos hvoid]
    exact runs_next hrep hnext
  · rename_i hvoid
    obtain ⟨j, hspan', hline, rfl⟩ := spans_append.mp hspan
    refine (leads_call hslots hrep hpath hbalanced hproper hcall hspan' []).bind fun v ↦ ?_
    rw [resultStack, if_neg hvoid]
    exact Runs.after_op hline rfl (runs_next hrep hnext)

include hlabels

/-- The code of an assignment that is not fused. -/
theorem runs_plainAssign {target : Operand} {type : Ollir.Ty} {value : Instr}
    (hregular : value.IsRegular returns) (htarget : target.IsProper isStatic)
    (hproper : ∀ o ∈ value.operands, o.IsProper isStatic) {n n' : Nat}
    (hcode : e.plainAssign target value n = .ok (code, n')) (hspan : Spans lines k code k') :
    Runs c.world lines ⟨k, [], locals⟩ (Instr.exec c m pc env (.assign target type value))
      (Corresponds e c.self lineOf returns) := by
  cases target with
  | var x t =>
    have hx : x ≠ Ollir.receiverName := fun heq ↦ htarget.1 (heq ▸ List.mem_singleton_self _)
    obtain ⟨slot, hslot, hcode⟩ := Emit.lift_bind_eq_ok_iff.mp hcode
    obtain ⟨valueCode, n₁, hvalue, hcode⟩ := Emit.bind_eq_ok_iff.mp hcode
    obtain ⟨rfl, rfl⟩ := Emit.pure_eq_ok_iff.mp hcode
    obtain ⟨j, hspan', hline, rfl⟩ := spans_append.mp hspan
    refine (leads_value hslots hrep hpath hlabels hregular hproper hvalue hspan' []).bind fun v ↦ ?_
    exact Runs.after_op hline rfl (runs_next (hrep.set hslots hx hslot v) hnext)
  | element x index t =>
    have hx : x ≠ Ollir.receiverName := fun heq ↦ htarget.1 (heq ▸ List.mem_cons_self)
    have hindex : index.IsProper isStatic :=
      ⟨fun h ↦ htarget.1 (List.mem_cons_of_mem _ h), htarget.2⟩
    obtain ⟨slot, hslot, hcode⟩ := Emit.lift_bind_eq_ok_iff.mp hcode
    obtain ⟨position, hposition, hcode⟩ := Emit.lift_bind_eq_ok_iff.mp hcode
    obtain ⟨valueCode, n₁, hvalue, hcode⟩ := Emit.bind_eq_ok_iff.mp hcode
    obtain ⟨rfl, rfl⟩ := Emit.pure_eq_ok_iff.mp hcode
    obtain ⟨j', hspan', hline, rfl⟩ := spans_append.mp hspan
    obtain ⟨j, ⟨hload, hspan₁⟩, hspan₂⟩ := spans_append.mp hspan'
    refine Runs.after_load hload (hrep.var hslots hx hslot) ?_
    refine (leads_load hslots hrep hindex hposition hspan₁ _).bind fun i ↦ ?_
    refine (leads_value hslots hrep hpath hlabels hregular hproper hvalue hspan₂ _).bind fun v ↦ ?_
    exact (Runs.op (n := fun _ ↦ .goto ⟨_, [], locals⟩) hline rfl).bind fun _ ↦
      runs_next hrep hnext
  | _ => exact nomatch hcode

/-- The code of an assignment. -/
theorem runs_assign {target : Operand} {type : Ollir.Ty} {value : Instr}
    (hregular : value.IsRegular returns) (htarget : target.IsProper isStatic)
    (hproper : ∀ o ∈ value.operands, o.IsProper isStatic) {n n' : Nat}
    (hcode : e.assign target value n = .ok (code, n')) (hspan : Spans lines k code k') :
    Runs c.world lines ⟨k, [], locals⟩ (Instr.exec c m pc env (.assign target type value))
      (Corresponds e c.self lineOf returns) := by
  rcases Emitter.assign_eq_ok hcode with hcode | ⟨slot, step, hfused, rfl, rfl⟩
  · exact runs_plainAssign hslots hrep hpath hlabels hnext hregular htarget hproper hcode hspan
  · obtain ⟨x, rfl, hslot, hvalue⟩ := increment?_eq_some hfused
    have hx : x ≠ Ollir.receiverName := fun heq ↦ htarget.1 (heq ▸ List.mem_singleton_self _)
    exact runs_increment hslots hrep hnext hx hslot (hvalue c env) hspan

/-- The code of an instruction that computes a value for nothing. -/
theorem runs_dropped {i : Instr} (hexec : i.exec c m pc env = do
      let _ ← i.value c env
      return .goto (pc + 1) env)
    (hregular : i.IsRegular returns) (hproper : ∀ o ∈ i.operands, o.IsProper isStatic) {n n' : Nat}
    (hcode : (do return (← e.value i) ++ [.op .pop (-1)] : Emit (List Step)) n = .ok (code, n'))
    (hspan : Spans lines k code k') :
    Runs c.world lines ⟨k, [], locals⟩ (i.exec c m pc env)
      (Corresponds e c.self lineOf returns) := by
  obtain ⟨valueCode, n₁, hvalue, hcode⟩ := Emit.bind_eq_ok_iff.mp hcode
  obtain ⟨rfl, rfl⟩ := Emit.pure_eq_ok_iff.mp hcode
  obtain ⟨j, hspan', hline, rfl⟩ := spans_append.mp hspan
  rw [hexec]
  refine (leads_value hslots hrep hpath hlabels hregular hproper hvalue hspan' []).bind fun v ↦ ?_
  exact Runs.after_op hline rfl (runs_next hrep hnext)

include hlayout

/-- The code of a branch. -/
theorem runs_branch {test : Instr} {label : String} (hregular : test.IsRegular returns)
    (hproper : ∀ o ∈ test.operands, o.IsProper isStatic) {n n' : Nat}
    (hcode : e.branch test label n = .ok (code, n')) (hspan : Spans lines k code k') :
    Runs c.world lines ⟨k, [], locals⟩ (Instr.exec c m pc env (.branch test label))
      (Corresponds e c.self lineOf returns) := by
  have hgo : ∀ {j : Nat} {t : Test} {stack : List Val} (b : Bool),
      lines[j]? = some (.op (.jumpIf t label)) → j + 1 = k' → t.eval stack = pure (b, []) →
      Runs c.world lines ⟨j, stack, locals⟩
        (if b then m.jump label env else return .goto (pc + 1) env)
        (Corresponds e c.self lineOf returns) := by
    intro j t stack b hline hj htest
    subst hj
    cases b with
    | true => exact runs_jump hrep hlayout hline fun line h ↦ exec_jumpIf_true htest h
    | false => exact Runs.after_op hline (exec_jumpIf_false htest) (runs_next hrep hnext)
  -- a test that leaves a truth value jumps or goes on as the value says
  have htruth : ∀ {j : Nat} (v : Val),
      lines[j]? = some (.op (.jumpIf .nonzero label)) → j + 1 = k' →
      Runs c.world lines ⟨j, [v], locals⟩
        (do if ← truth v then m.jump label env else return .goto (pc + 1) env)
        (Corresponds e c.self lineOf returns) := by
    intro j v hline hj
    rcases eq_ofBool_or_undefined v with ⟨b, rfl⟩ | hundefined
    · rw [truth_ofBool, pure_bind]
      exact hgo b hline hj (by cases b <;> rfl)
    · rw [hundefined, Eval.undefined_bind]
      exact Runs.of_undefined
  rw [Emitter.branch.eq_def] at hcode
  rw [Instr.exec]
  split at hcode
  · rename_i left right type
    obtain ⟨x, hx, hcode⟩ := Emit.lift_bind_eq_ok_iff.mp hcode
    obtain ⟨y, hy, hcode⟩ := Emit.lift_bind_eq_ok_iff.mp hcode
    obtain ⟨rfl, rfl⟩ := Emit.pure_eq_ok_iff.mp hcode
    obtain ⟨j', hspan', hline, hj⟩ := spans_append.mp hspan
    obtain ⟨j, hspan₁, hspan₂⟩ := spans_append.mp hspan'
    have hleft : left.IsProper isStatic := hproper left (by simp [Instr.operands])
    have hright : right.IsProper isStatic := hproper right (by simp [Instr.operands])
    simp only [Instr.value, bind_assoc]
    refine (leads_load hslots hrep hleft hx hspan₁ _).bind fun v ↦ ?_
    refine (leads_load hslots hrep hright hy hspan₂ _).bind fun v' ↦ ?_
    cases v with
    | int a =>
      cases v' with
      | int b =>
        simp only [operate, pure_bind, truth_ofBool]
        exact hgo _ hline hj rfl
      | ref _ | null => exact Runs.of_undefined
    | ref _ | null => exact Runs.of_undefined
  · rename_i o type
    obtain ⟨x, hx, hcode⟩ := Emit.lift_bind_eq_ok_iff.mp hcode
    obtain ⟨rfl, rfl⟩ := Emit.pure_eq_ok_iff.mp hcode
    obtain ⟨j, hspan', hline, hj⟩ := spans_append.mp hspan
    have ho : o.IsProper isStatic := hproper o (by simp [Instr.operands])
    simp only [Instr.value, bind_assoc]
    refine (leads_load hslots hrep ho hx hspan' _).bind fun v ↦ ?_
    rcases eq_ofBool_or_undefined v with ⟨b, rfl⟩ | hundefined
    · simp only [negate, truth_ofBool, pure_bind]
      exact hgo _ hline hj (by cases b <;> rfl)
    · rw [negate, hundefined]
      exact Runs.of_undefined
  · obtain ⟨valueCode, n₁, hvalue, hcode⟩ := Emit.bind_eq_ok_iff.mp hcode
    obtain ⟨rfl, rfl⟩ := Emit.pure_eq_ok_iff.mp hcode
    obtain ⟨j, hspan', hline, hj⟩ := spans_append.mp hspan
    exact (leads_value hslots hrep hpath hlabels hregular hproper hvalue hspan' []).bind
      fun v ↦ htruth v hline hj

/-- **The code of an instruction does what the instruction does.** -/
theorem runs_instr {i : Instr} (hregular : i.IsRegular returns)
    (hproper : ∀ o ∈ i.operands, o.IsProper isStatic) {n n' : Nat}
    (hcode : e.instr i n = .ok (code, n')) (hspan : Spans lines k code k') :
    Runs c.world lines ⟨k, [], locals⟩ (i.exec c m pc env)
      (Corresponds e c.self lineOf returns) := by
  cases i with
  | assign target type value =>
    exact runs_assign hslots hrep hpath hlabels hnext hregular (hproper target List.mem_cons_self)
      (fun o ho ↦ hproper o (List.mem_cons_of_mem _ ho)) hcode hspan
  | call call => exact runs_call hslots hrep hpath hnext hregular hproper hcode hspan
  | branch test label =>
    exact runs_branch hslots hrep hpath hlabels hlayout hnext hregular hproper hcode hspan
  | putField object field type value =>
    obtain ⟨x, hx, hcode⟩ := Emit.lift_bind_eq_ok_iff.mp hcode
    obtain ⟨y, hy, hcode⟩ := Emit.lift_bind_eq_ok_iff.mp hcode
    obtain ⟨owner, _, hcode⟩ := Emit.lift_bind_eq_ok_iff.mp hcode
    obtain ⟨rfl, rfl⟩ := Emit.pure_eq_ok_iff.mp hcode
    obtain ⟨j', hspan', hline, rfl⟩ := spans_append.mp hspan
    obtain ⟨j, hspan₁, hspan₂⟩ := spans_append.mp hspan'
    have hobject : object.IsProper isStatic := hproper object (by simp [Instr.operands])
    have hvalue : value.IsProper isStatic := hproper value (by simp [Instr.operands])
    refine (leads_load hslots hrep hobject hx hspan₁ _).bind fun v ↦ ?_
    refine (leads_load hslots hrep hvalue hy hspan₂ _).bind fun v' ↦ ?_
    exact (Runs.op (n := fun _ ↦ .goto ⟨_, [], locals⟩) hline rfl).bind fun _ ↦
      runs_next hrep hnext
  | goto label =>
    obtain ⟨rfl, rfl⟩ := Emit.pure_eq_ok_iff.mp hcode
    exact runs_jump hrep hlayout hspan.1 fun line h ↦ exec_goto h
  | ret type value =>
    cases value with
    | none =>
      obtain ⟨rfl, rfl⟩ := Emit.pure_eq_ok_iff.mp hcode
      exact Runs.of_return hspan.1 rfl (by simp [Corresponds])
    | some o =>
      obtain ⟨x, hx, hcode⟩ := Emit.lift_bind_eq_ok_iff.mp hcode
      obtain ⟨rfl, rfl⟩ := Emit.pure_eq_ok_iff.mp hcode
      obtain ⟨j, hspan', hline, rfl⟩ := spans_append.mp hspan
      obtain rfl := hregular
      have ho : o.IsProper isStatic := hproper o (by simp [Instr.operands])
      exact (leads_load hslots hrep ho hx hspan' _).bind fun v ↦
        Runs.of_return hline (exec_ret type v) rfl
  | _ => exact runs_dropped hslots hrep hpath hlabels hnext rfl hregular hproper hcode hspan

end Instructions

end Jmm.Jasmin
