import Jmm.Proofs.Emission.Runs
import Jmm.Proofs.Emission.Slots
import Jmm.Proofs.Lowering.Regular
import Jmm.Proofs.Semantics.Ollir

/-!
# The code of values

The code that is emitted for an operand, a call or an instruction that produces a value, run where
it stands, has the effects of what it was emitted for, pushes its value and leaves the locals alone
(`leads_load`, `leads_call`, `leads_value`).

The locals hold the variables (`Emitter.Represents`), each in its slot, where the slot of the
receiver holds the receiver.  An operand with the name of the receiver would be looked up there, and
a static method has no receiver, hence `Operand.IsProper`.
-/

set_option autoImplicit false

namespace Jmm

namespace Ollir

/-- The receiver occurs in an operand. -/
def Operand.usesReceiver : Operand → Bool
  | receiver _ => true
  | element _ index _ => index.usesReceiver
  | _ => false

/-- An operand does not name `this` as a variable and does not use the receiver in a static
method. -/
def Operand.IsProper (isStatic : Bool) (o : Operand) : Prop :=
  receiverName ∉ o.reads ∧ (isStatic = true → o.usesReceiver = false)

instance (isStatic : Bool) (o : Operand) : Decidable (o.IsProper isStatic) :=
  inferInstanceAs (Decidable (_ ∧ _))

theorem length_evals {c : Semantics.Context} {env : Semantics.Env} {os : List Operand}
    {vs : List Semantics.Val} {s s' : Semantics.Shared}
    (h : Operand.evals c env os s = .ok vs s') : vs.length = os.length := by
  induction os generalizing vs s s' with
  | nil =>
    obtain ⟨rfl, _⟩ := Semantics.Outcome.ok.inj h
    rfl
  | cons o os ih =>
    obtain ⟨v, s₁, _, h⟩ := Semantics.Eval.bind_eq_ok h
    obtain ⟨vs', s₂, hvs, h⟩ := Semantics.Eval.bind_eq_ok h
    obtain ⟨rfl, _⟩ := Semantics.Outcome.ok.inj h
    rw [List.length_cons, List.length_cons, ih hvs]

end Ollir

namespace Jasmin

open Semantics
open Ollir (Operand Instr Call VarTable length_evals)

/-- The locals hold the variables of a method, each in its slot, and the receiver in its slot. -/
def Emitter.Represents (e : Emitter) (self : Val) (env : Env) (locals : Nat → Val) : Prop :=
  ∀ x b, e.vars.get? x = some b → locals b.slot = if b.scope = .receiver then self else env x

/-- The variable table that emission needs: slots are not shared, and the receiver has the first one
in an instance method. -/
structure Emitter.HasSlots (e : Emitter) (isStatic : Bool) : Prop where
  dense : e.vars.IsDense
  enough : e.vars.size ≤ UInt16.size
  receiver : isStatic = false → ∃ type, e.vars.get? Ollir.receiverName = some ⟨.receiver, 0, type⟩

variable {e : Emitter} {c : Context} {isStatic : Bool} {env : Env} {locals : Nat → Val}
  {lines : List Line} {k k' : Nat} {code : List Step}

theorem Emitter.slot_eq_ok {x : String} {slot : Nat} (h : e.slot x = .ok slot) :
    ∃ b, e.vars.get? x = some b ∧ b.slot = slot := by
  rw [Emitter.slot] at h
  split at h
  · rename_i b hb
    split at h
    · exact nomatch h
    · exact ⟨b, hb, Except.ok.inj h⟩
  · exact nomatch h

theorem Emitter.Represents.var (h : e.Represents c.self env locals) (hslots : e.HasSlots isStatic)
    {x : String} (hx : x ≠ Ollir.receiverName) {slot : Nat} (hslot : e.slot x = .ok slot) :
    locals slot = env x := by
  obtain ⟨b, hb, rfl⟩ := slot_eq_ok hslot
  rw [h x b hb, if_neg (hslots.dense.scope_ne_receiver hb hx)]

theorem Emitter.Represents.self (h : e.Represents c.self env locals)
    (hslots : e.HasSlots isStatic) (hinstance : isStatic = false) : locals 0 = c.self := by
  obtain ⟨type, hthis⟩ := hslots.receiver hinstance
  exact (h _ _ hthis).trans (if_pos rfl)

/-- Setting a variable and its slot. -/
theorem Emitter.Represents.set (h : e.Represents c.self env locals) (hslots : e.HasSlots isStatic)
    {x : String} (hx : x ≠ Ollir.receiverName) {slot : Nat} (hslot : e.slot x = .ok slot)
    (v : Val) :
    e.Represents c.self (env.set x v) (Function.update locals slot v) := by
  intro y b hb
  obtain ⟨b', hb', rfl⟩ := slot_eq_ok hslot
  by_cases hyx : y = x
  · subst hyx
    obtain rfl : b' = b := Option.some.inj (hb'.symm.trans hb)
    rw [Function.update_self, Env.set_same, if_neg (hslots.dense.scope_ne_receiver hb hx)]
  · have hne : b.slot ≠ b'.slot := fun heq ↦ hyx (hslots.dense.slot_inj hslots.enough hb hb' heq)
    rw [Function.update_of_ne hne, env.set_of_ne v hyx]
    exact h y b hb

/-! ## Operands -/

/-- The load of a local before a run. -/
theorem Runs.after_load {α : Type} {w : World} {x : Eval α} {Q : α → Next → Prop} {family : Family}
    {slot : Nat} {v : Val} {stack : List Val} (hline : lines[k]? = some (.op (.load family slot)))
    (hv : locals slot = v) (h : Runs w lines ⟨k + 1, v :: stack, locals⟩ x Q) :
    Runs w lines ⟨k, stack, locals⟩ x Q := by
  subst hv
  exact Runs.after_op hline rfl h

section Operands

variable (hslots : e.HasSlots isStatic) (hrep : e.Represents c.self env locals)

include hslots hrep

/-- The code of an operand pushes its value. -/
theorem leads_load {o : Operand} (ho : o.IsProper isStatic) (hcode : e.load o = .ok code)
    (hspan : Spans lines k code k') (stack : List Val) :
    Leads c.world lines ⟨k, stack, locals⟩ (o.eval c env) fun v ↦ ⟨k', v :: stack, locals⟩ := by
  induction o generalizing code k k' stack with
  | literal value type =>
    obtain rfl := Except.ok.inj hcode
    obtain ⟨hline, rfl⟩ := hspan
    exact Runs.after_op hline rfl (Runs.of_pure rfl)
  | var name type =>
    obtain ⟨slot, hslot, hcode⟩ := bind_eq_ok_iff.mp hcode
    obtain rfl := Except.ok.inj hcode
    obtain ⟨hline, rfl⟩ := hspan
    have hname : name ≠ Ollir.receiverName := fun heq ↦ ho.1 (heq ▸ List.mem_singleton_self _)
    exact Runs.after_load hline (hrep.var hslots hname hslot) (Runs.of_pure rfl)
  | element name index type ih =>
    obtain ⟨slot, hslot, hcode⟩ := bind_eq_ok_iff.mp hcode
    obtain ⟨position, hposition, hcode⟩ := bind_eq_ok_iff.mp hcode
    obtain rfl := Except.ok.inj hcode
    obtain ⟨j, ⟨hload, hspan'⟩, hline, rfl⟩ := spans_append.mp hspan
    have hname : name ≠ Ollir.receiverName := fun heq ↦ ho.1 (heq ▸ List.mem_cons_self)
    have hindex : index.IsProper isStatic := ⟨fun h ↦ ho.1 (List.mem_cons_of_mem _ h), ho.2⟩
    refine Runs.after_load hload (hrep.var hslots hname hslot) ?_
    exact (ih hindex hposition hspan' _).bind fun i ↦ Runs.op hline rfl
  | receiver className =>
    obtain rfl := Except.ok.inj hcode
    obtain ⟨hline, rfl⟩ := hspan
    have hinstance : isStatic = false := by
      cases isStatic with
      | false => rfl
      | true => exact absurd (ho.2 rfl) (by simp [Operand.usesReceiver])
    exact Runs.after_load hline (hrep.self hslots hinstance) (Runs.of_pure rfl)
  | classRef name => exact nomatch hcode

/-- The code of operands pushes their values, so that the last one is on top. -/
theorem leads_loads {os : List Operand} (hos : ∀ o ∈ os, o.IsProper isStatic)
    (hcode : e.loads os = .ok code) (hspan : Spans lines k code k') (stack : List Val) :
    Leads c.world lines ⟨k, stack, locals⟩ (Operand.evals c env os)
      fun vs ↦ ⟨k', vs.reverse ++ stack, locals⟩ := by
  induction os generalizing code k stack with
  | nil =>
    obtain rfl := Except.ok.inj hcode
    obtain rfl := hspan
    exact Runs.of_pure rfl
  | cons o os ih =>
    obtain ⟨first, hfirst, hcode⟩ := bind_eq_ok_iff.mp hcode
    obtain ⟨rest, hrest, hcode⟩ := bind_eq_ok_iff.mp hcode
    obtain rfl := Except.ok.inj hcode
    obtain ⟨j, hspan₁, hspan₂⟩ := spans_append.mp hspan
    refine (leads_load hslots hrep (hos o List.mem_cons_self) hfirst hspan₁ stack).bind fun v ↦ ?_
    refine (ih (fun o' h ↦ hos o' (List.mem_cons_of_mem o h)) hrest hspan₂ _).bind fun vs ↦ ?_
    have hstack : (v :: vs).reverse ++ stack = vs.reverse ++ v :: stack := by simp
    exact Runs.of_pure (by simp only [hstack])

end Operands

/-! ## Calls -/

/-- A call takes its arguments off the stack, and then what it is called on. -/
theorem exec_invoke (w : World) {how : Invocation} {owner : String} {target : Target}
    {below stack : List Val} (htarget : how.target owner below = pure (target, stack))
    (method : String) {d : MethodDescriptor} {args : List Val}
    (hlength : args.length = d.params.length) :
    (Op.invoke how owner method d).exec w lines ⟨k, args.reverse ++ below, locals⟩
      = Semantics.invoke w target method args
        >>= fun v ↦ pure (.goto ⟨k + 1, d.pushResult v stack, locals⟩) := by
  have hlength' : args.reverse.length = d.params.length := by rwa [List.length_reverse]
  rw [Op.exec, if_neg (by simp; omega), List.take_left' hlength', List.drop_left' hlength',
    htarget, pure_bind, List.reverse_reverse]

/-- The stack after a call. -/
def resultStack (returns : Ollir.Ty) (v : Val) (stack : List Val) : List Val :=
  if returns = .void then stack else v :: stack

theorem pushResult_ofTys (unit : Ollir.Class) (params : List Ollir.Ty) (returns : Ollir.Ty)
    (v : Val) (stack : List Val) :
    (MethodDescriptor.ofTys unit params returns).pushResult v stack
      = resultStack returns v stack := by
  rw [MethodDescriptor.pushResult, resultStack, MethodDescriptor.ofTys]
  cases returns <;> simp [Descriptor.ofTy]

section Calls

variable (hslots : e.HasSlots isStatic) (hrep : e.Represents c.self env locals)
  (hpath : c.path = e.unit.classPath)

include hslots hrep

/-- The code of a call that was preceded by the code that pushes what it is called on. -/
theorem leads_invoke {call : Call} (hargs : ∀ o ∈ call.args, o.IsProper isStatic)
    {method : String} {how : Invocation} {owner : String} {target : Target} {below stack : List Val}
    (htarget : how.target owner below = pure (target, stack)) {args : List Step}
    (hcode : e.loads call.args = .ok args) {effect : Int}
    (hspan : Spans lines k (args ++ [.op (.invoke how owner method
      (.ofTys e.unit (call.args.map Operand.type) call.returns)) effect]) k') :
    Leads c.world lines ⟨k, below, locals⟩
      (do Semantics.invoke c.world target method (← Operand.evals c env call.args))
      fun v ↦ ⟨k', resultStack call.returns v stack, locals⟩ := by
  obtain ⟨j, hspan', hline, rfl⟩ := spans_append.mp hspan
  refine (leads_loads hslots hrep hargs hcode hspan' below).bind_of_ok fun vs s s' hvs ↦ ?_
  have hlength : vs.length = (MethodDescriptor.ofTys e.unit (call.args.map Operand.type)
      call.returns).params.length := by
    simp [MethodDescriptor.ofTys, length_evals hvs]
  refine Runs.op hline ?_
  rw [exec_invoke _ htarget method hlength]
  simp only [pushResult_ofTys]

/-- The code of a call of a method by name. -/
theorem leads_invoke_object {call : Call}
    (hproper : ∀ o ∈ call.caller :: call.args, o.IsProper isStatic)
    (hcode : e.invoke call false = .ok code) (hspan : Spans lines k code k') (stack : List Val) :
    Leads c.world lines ⟨k, stack, locals⟩
      (call.invoked c env (do return .object (← call.caller.eval c env)))
      fun v ↦ ⟨k', resultStack call.returns v stack, locals⟩ := by
  obtain ⟨caller, args, method, owner, hcaller, hargs, hmethod, _, rfl⟩ :=
    Emitter.invoke_eq_ok hcode
  obtain ⟨j, hspan₁, hspan₂⟩ := spans_append.mp hspan
  simp only [Call.invoked, hmethod, bind_assoc, pure_bind]
  exact (leads_load hslots hrep (hproper _ List.mem_cons_self) hcaller hspan₁ stack).bind
    fun object ↦ leads_invoke hslots hrep (fun o ho ↦ hproper o (List.mem_cons_of_mem _ ho)) rfl
      hargs hspan₂

include hpath

theorem leads_invoke_class {call : Call} {name : String} (hcaller : call.caller = .classRef name)
    (hproper : ∀ o ∈ call.args, o.IsProper isStatic) (hcode : e.invoke call true = .ok code)
    (hspan : Spans lines k code k') (stack : List Val) :
    Leads c.world lines ⟨k, stack, locals⟩
      (call.invoked c env (pure (.static (c.path name))))
      fun v ↦ ⟨k', resultStack call.returns v stack, locals⟩ := by
  obtain ⟨caller, args, method, owner, hnone, hargs, hmethod, howner, rfl⟩ :=
    Emitter.invoke_eq_ok hcode
  obtain rfl : caller = [] := hnone
  rw [hcaller] at howner
  obtain rfl : c.path name = owner := (congrFun hpath name).trans (Except.ok.inj howner)
  simp only [Call.invoked, hmethod, pure_bind]
  exact leads_invoke hslots hrep hproper rfl hargs hspan

/-- The code of an allocation pushes what is allocated. -/
theorem leads_new {call : Call} (hkind : call.kind = .new)
    (hproper : ∀ o ∈ call.args, o.IsProper isStatic) (hcode : e.call call = .ok code)
    (hspan : Spans lines k code k') (stack : List Val) :
    Leads c.world lines ⟨k, stack, locals⟩ (call.eval c env)
      fun v ↦ ⟨k', v :: stack, locals⟩ := by
  rw [Emitter.call.eq_def, hkind] at hcode
  rw [Call.eval, hkind]
  dsimp only at hcode ⊢
  split at hcode
  · rename_i hnew
    split at hcode
    · rename_i length hargs
      obtain ⟨size, hsize, hcode⟩ := bind_eq_ok_iff.mp hcode
      obtain rfl := Except.ok.inj hcode
      obtain ⟨j, hspan', hline, rfl⟩ := spans_append.mp hspan
      have hlength : length.IsProper isStatic := hproper length (by simp [hargs])
      simp only [hargs, hnew, if_true]
      exact (leads_load hslots hrep hlength hsize hspan' stack).bind fun n ↦ Runs.op hline rfl
    · exact nomatch hcode
  · rename_i hnew
    split at hcode
    · rename_i name hcaller
      obtain rfl := Except.ok.inj hcode
      obtain ⟨hline, rfl⟩ := hspan
      rw [hcaller]
      -- with arguments, this is the allocation of nothing
      match call.args with
      | [] =>
        refine Runs.op hline ?_
        rw [hpath]
        rfl
      | [length] =>
        simp only [hnew]
        exact Runs.of_undefined
      | _ :: _ :: _ => exact Runs.of_undefined
    · exact nomatch hcode

/-- The code of a call leaves its result on the stack, unless its type is `void`. -/
theorem leads_call {call : Call} (hbalanced : call.IsBalanced)
    (hproper : ∀ o ∈ call.caller :: call.args, o.IsProper isStatic)
    (hcode : e.call call = .ok code) (hspan : Spans lines k code k') (stack : List Val) :
    Leads c.world lines ⟨k, stack, locals⟩ (call.eval c env)
      fun v ↦ ⟨k', resultStack call.returns v stack, locals⟩ := by
  have hcaller := hproper _ List.mem_cons_self
  have hargs := fun o ho ↦ hproper o (List.mem_cons_of_mem _ ho)
  rw [Call.IsBalanced] at hbalanced
  cases hkind : call.kind with
  | new =>
    rw [hkind] at hbalanced
    have hrun := leads_new hslots hrep hpath hkind hargs hcode hspan stack
    simpa only [resultStack, if_neg hbalanced] using hrun
  | arrayLength =>
    rw [hkind] at hbalanced
    rw [Emitter.call.eq_def, hkind] at hcode
    rw [Call.eval, hkind]
    obtain ⟨array, harray, hcode⟩ := bind_eq_ok_iff.mp hcode
    obtain rfl := Except.ok.inj hcode
    obtain ⟨j, hspan', hline, rfl⟩ := spans_append.mp hspan
    simp only [resultStack, if_neg hbalanced]
    exact (leads_load hslots hrep hcaller harray hspan' stack).bind fun a ↦ Runs.op hline rfl
  | special =>
    rw [hkind] at hbalanced
    rw [Emitter.call.eq_def, hkind] at hcode
    rw [Call.eval, hkind]
    obtain ⟨object, hobject, hcode⟩ := bind_eq_ok_iff.mp hcode
    obtain ⟨owner, _, hcode⟩ := bind_eq_ok_iff.mp hcode
    obtain rfl := Except.ok.inj hcode
    obtain ⟨j, hspan', hline, rfl⟩ := spans_append.mp hspan
    simp only [resultStack, if_pos hbalanced.1]
    exact (leads_load hslots hrep hcaller hobject hspan' stack).bind fun o ↦ Runs.op hline rfl
  | virtual =>
    rw [Emitter.call.eq_def, hkind] at hcode
    rw [Call.eval, hkind]
    cases hclass : call.caller with
    | classRef name =>
      rw [hclass] at hcode
      exact leads_invoke_class hslots hrep hpath hclass hargs hcode hspan stack
    | _ =>
      rw [hclass] at hcode
      have hrun := leads_invoke_object hslots hrep hproper hcode hspan stack
      rw [hclass] at hrun
      exact hrun
  | static =>
    rw [Emitter.call.eq_def, hkind] at hcode
    rw [Call.eval, hkind]
    cases hclass : call.caller with
    | classRef name => exact leads_invoke_class hslots hrep hpath hclass hargs hcode hspan stack
    | _ => exact Runs.of_undefined

end Calls

/-! ## Jumps and comparisons -/

section Jumps

variable {w : World} {test : Test} {label : String} {line : Nat} {stack rest : List Val}

theorem exec_goto (hlabel : labelLine? lines label = some line) :
    (Op.goto label).exec w lines ⟨k, stack, locals⟩ = pure (.goto ⟨line, stack, locals⟩) := by
  rw [Op.exec, jump, hlabel]

theorem exec_jumpIf_true (htest : test.eval stack = pure (true, rest))
    (hlabel : labelLine? lines label = some line) :
    (Op.jumpIf test label).exec w lines ⟨k, stack, locals⟩ = pure (.goto ⟨line, rest, locals⟩) := by
  rw [Op.exec, htest, pure_bind]
  simp only [jump, hlabel, if_true]

theorem exec_jumpIf_false (htest : test.eval stack = pure (false, rest)) :
    (Op.jumpIf test label).exec w lines ⟨k, stack, locals⟩
      = pure (.goto ⟨k + 1, rest, locals⟩) := by
  rw [Op.exec, htest, pure_bind]
  rfl

end Jumps

/-- The code of a comparison leaves one or zero for the two integers on the stack. -/
theorem leads_comparison {w : World} (hlabels : UniqueLabels lines) {n n' : Nat}
    (hcode : comparison n = .ok (code, n')) (hspan : Spans lines k code k') (x y : Val)
    (stack : List Val) :
    Leads w lines ⟨k, y :: x :: stack, locals⟩ (operate .less x y)
      fun v ↦ ⟨k', v :: stack, locals⟩ := by
  obtain ⟨rfl, rfl⟩ := Prod.mk.inj (Except.ok.inj hcode)
  obtain ⟨hjump, hzero, hgoto, htrue, hone, hend, rfl⟩ := hspan
  have htrue' := labelLine?_of_getElem? hlabels htrue
  have hend' := labelLine?_of_getElem? hlabels hend
  match x, y with
  | .int a, .int b =>
    by_cases hlt : a < b
    · have htest : Test.less.eval (.int b :: .int a :: stack) = pure (true, stack) := by
        rw [Test.eval, decide_eq_true hlt]
      refine Runs.after_op hjump (exec_jumpIf_true htest htrue') (Runs.after_label htrue ?_)
      refine Runs.after_op hone rfl (Runs.after_label hend ?_)
      exact Runs.of_pure (by simp [Val.ofBool, hlt])
    · have htest : Test.less.eval (.int b :: .int a :: stack) = pure (false, stack) := by
        rw [Test.eval, decide_eq_false hlt]
      refine Runs.after_op hjump (exec_jumpIf_false htest) (Runs.after_op hzero rfl ?_)
      refine Runs.after_op hgoto (exec_goto hend') (Runs.after_label hend ?_)
      exact Runs.of_pure (by simp [Val.ofBool, hlt])
  | .ref _, _ => exact Runs.of_undefined
  | .null, _ => exact Runs.of_undefined
  | .int _, .ref _ => exact Runs.of_undefined
  | .int _, .null => exact Runs.of_undefined

theorem Arith.eval_arithOf {op : BinOp} {a : Arith} (h : arithOf op = some a) (x y : Val) :
    a.eval x y = operate op x y := by
  cases op with
  | less => exact nomatch h
  | _ =>
    obtain rfl := Option.some.inj h
    rfl

/-- Flipping the last bit of a truth value negates it. -/
theorem leads_negate {w : World} {effect effect' : Int}
    (hspan : Spans lines k [.op (.const 1) effect, .op (.arith .xor) effect'] k') (v : Val)
    (stack : List Val) :
    Leads w lines ⟨k, v :: stack, locals⟩ (negate v) fun v' ↦ ⟨k', v' :: stack, locals⟩ := by
  obtain ⟨hconst, hxor, rfl⟩ := hspan
  refine Runs.after_op hconst rfl ?_
  rcases eq_ofBool_or_undefined v with ⟨b, rfl⟩ | hundefined
  · cases b with
    | true => exact Runs.after_op hxor rfl (Runs.of_pure rfl)
    | false => exact Runs.after_op hxor rfl (Runs.of_pure rfl)
  · rw [negate, hundefined, Eval.undefined_bind]
    exact Runs.of_undefined

/-! ## Values -/

section Values

variable (hslots : e.HasSlots isStatic) (hrep : e.Represents c.self env locals)
  (hpath : c.path = e.unit.classPath) (hlabels : UniqueLabels lines)

include hslots hrep hpath hlabels

/-- The code of an instruction that produces a value pushes it. -/
theorem leads_value {i : Instr} {returns : Ollir.Ty} (hregular : i.IsRegular returns)
    (hproper : ∀ o ∈ i.operands, o.IsProper isStatic) {n n' : Nat}
    (hcode : e.value i n = .ok (code, n')) (hspan : Spans lines k code k') (stack : List Val) :
    Leads c.world lines ⟨k, stack, locals⟩ (i.value c env) fun v ↦ ⟨k', v :: stack, locals⟩ := by
  cases i with
  | single o =>
    obtain ⟨hcode, _⟩ := Emit.lift_eq_ok_iff.mp hcode
    exact leads_load hslots hrep (hproper o (by simp [Instr.operands])) hcode hspan stack
  | binary op left right type =>
    obtain ⟨x, hx, hcode⟩ := Emit.lift_bind_eq_ok_iff.mp hcode
    obtain ⟨y, hy, hcode⟩ := Emit.lift_bind_eq_ok_iff.mp hcode
    have hleft : left.IsProper isStatic := hproper left (by simp [Instr.operands])
    have hright : right.IsProper isStatic := hproper right (by simp [Instr.operands])
    cases ha : arithOf op with
    | some a =>
      rw [ha] at hcode
      obtain ⟨rfl, rfl⟩ := Emit.pure_eq_ok_iff.mp hcode
      obtain ⟨j', hspan', hline, rfl⟩ := spans_append.mp hspan
      obtain ⟨j, hspan₁, hspan₂⟩ := spans_append.mp hspan'
      refine (leads_load hslots hrep hleft hx hspan₁ stack).bind fun v ↦ ?_
      refine (leads_load hslots hrep hright hy hspan₂ _).bind fun v' ↦ ?_
      rw [← Arith.eval_arithOf ha]
      exact Runs.op hline rfl
    | none =>
      rw [ha] at hcode
      obtain ⟨test, n₁, htest, hcode⟩ := Emit.bind_eq_ok_iff.mp hcode
      obtain ⟨rfl, rfl⟩ := Emit.pure_eq_ok_iff.mp hcode
      obtain ⟨j', hspan', hspan₃⟩ := spans_append.mp hspan
      obtain ⟨j, hspan₁, hspan₂⟩ := spans_append.mp hspan'
      obtain rfl : op = .less := by
        cases op with
        | less => rfl
        | _ => cases ha
      refine (leads_load hslots hrep hleft hx hspan₁ stack).bind fun v ↦ ?_
      exact (leads_load hslots hrep hright hy hspan₂ _).bind fun v' ↦
        leads_comparison hlabels htest hspan₃ v v' stack
  | not o type =>
    obtain ⟨x, hx, hcode⟩ := Emit.lift_bind_eq_ok_iff.mp hcode
    obtain ⟨rfl, rfl⟩ := Emit.pure_eq_ok_iff.mp hcode
    obtain ⟨j, hspan₁, hspan₂⟩ := spans_append.mp hspan
    exact (leads_load hslots hrep (hproper o (by simp [Instr.operands])) hx hspan₁ stack).bind
      fun v ↦ leads_negate hspan₂ v stack
  | call call =>
    rw [Emitter.value] at hcode
    split at hcode
    · cases hcode
    · rename_i hvoid
      obtain ⟨hcode, _⟩ := Emit.lift_eq_ok_iff.mp hcode
      have hrun := leads_call hslots hrep hpath hregular hproper hcode hspan stack
      simpa only [resultStack, if_neg hvoid, Instr.value] using hrun
  | getField object field type =>
    obtain ⟨x, hx, hcode⟩ := Emit.lift_bind_eq_ok_iff.mp hcode
    obtain ⟨owner, _, hcode⟩ := Emit.lift_bind_eq_ok_iff.mp hcode
    obtain ⟨rfl, rfl⟩ := Emit.pure_eq_ok_iff.mp hcode
    obtain ⟨j, hspan₁, hline, rfl⟩ := spans_append.mp hspan
    exact (leads_load hslots hrep (hproper object (by simp [Instr.operands])) hx hspan₁ stack).bind
      fun v ↦ Runs.op hline rfl
  | _ => cases hcode

end Values

end Jasmin
end Jmm
