import Jmm.Proofs.Emission.Methods
import Jmm.Proofs.Lowering.Jumps

/-!
# The flow of control through emitted code

Emission keeps one count of operands on the stack and moves it from step to step in the order in
which the lines are written, while control jumps.  `Flows E count live code count' live'` says that
the count is right all the same.  No operation takes more than is there, one that goes on to the
next line changes the count as the machine changes its stack, and a label is reached with the same
count from wherever control comes: `E.reached x d` says that control gets to the label `x` with `d`
operands and has to hold of every jump and of every label.  The flags say whether control can come
from the line before.  Only where it cannot may a label correct the count.

Loads and calls are straight code (`Passes`), a comparison jumps within itself, and the code of an
instruction leaves the stack as it was (`flows_instr`), so that all labels of the method itself are
reached with an empty stack (`flows_items`).  With the labels of its own code for `E`, every emitted
method flows (`exists_soundCode`).
-/

set_option autoImplicit false

namespace Jmm

namespace Jasmin

open Ollir (Operand Instr Call)

/-! ## Operations -/

namespace Op

/-- How many operands an operation takes off the stack. -/
def pops : Op → Nat
  | const _ | load _ _ | increment _ _ | goto _ | new _ => 0
  | store _ _ | newIntArray | arrayLength | getField _ _ _ | pop => 1
  | arrayLoad _ | arith _ | putField _ _ _ => 2
  | arrayStore _ => 3
  | jumpIf .less _ => 2
  | jumpIf _ _ => 1
  | invoke how _ _ d => d.params.length + if how = .static then 0 else 1
  | ret .void => 0
  | ret _ => 1

/-- How many operands an operation leaves on the stack. -/
def pushes : Op → Nat
  | const _ | load _ _ | arrayLoad _ | arith _ | new _ | newIntArray | arrayLength
  | getField _ _ _ => 1
  | store _ _ | arrayStore _ | increment _ _ | putField _ _ _ | pop | jumpIf _ _ | goto _
  | ret _ => 0
  | invoke _ _ _ d => if d.result = .void then 0 else 1

/-- The label an operation may jump to. -/
def target? : Op → Option String
  | jumpIf _ label | goto label => some label
  | _ => none

/-- The descriptor of the method an operation calls. -/
def descriptor? : Op → Option MethodDescriptor
  | invoke _ _ _ d => some d
  | _ => none

/-- Whether control may go on to the next line. -/
def fallsThrough : Op → Bool
  | goto _ | ret _ => false
  | _ => true

end Op

/-- A descriptor has the parameters and the result of a call. -/
def MethodDescriptor.Describes (d : MethodDescriptor) (c : Call) : Prop :=
  d.params.length = c.args.length ∧ (d.result = .void ↔ c.returns = .void)

/-! ## Flow -/

/-- What is expected of code: the labels that are reached, with the number of operands, and the
descriptors of the methods that are called. -/
structure Expected where
  reached : String → Int → Prop
  called : MethodDescriptor → Prop

/-- The method that an instruction calls is expected. -/
def Expected.Allows (E : Expected) (i : Instr) : Prop :=
  ∀ c, i.call? = some c → ∀ d : MethodDescriptor, d.Describes c → E.called d

/-- Whether control may go on from a step to the next one. -/
def Step.falls (s : Step) : Bool :=
  match s.line with
  | .label _ => true
  | .op o => o.fallsThrough

/-- The number of operands when control gets to a step before which they are counted. -/
def Step.depth (count : Int) (s : Step) : Int :=
  match s.line with
  | .label _ => count + s.effect
  | .op _ => count

/-- The count before a step is right. -/
def Step.Fits (E : Expected) (count : Int) (live : Bool) (s : Step) : Prop :=
  match s.line with
  | .label x => E.reached x (count + s.effect) ∧ (live = true → s.effect = 0)
  | .op o => o.pops ≤ count ∧ (o.fallsThrough = true → s.effect = o.pushes - o.pops)
      ∧ (∀ x, o.target? = some x → E.reached x (count - o.pops + o.pushes))
      ∧ ∀ d, o.descriptor? = some d → E.called d

/-- The count is right at all steps of code. -/
def Flows (E : Expected) : Int → Bool → List Step → Int → Bool → Prop
  | count, live, [], count', live' => count' = count ∧ live' = live
  | count, live, s :: ss, count', live' =>
    s.Fits E count live ∧ Flows E (count + s.effect) s.falls ss count' live'

/-- The count is right at all steps of code that control enters at its start and leaves at its
end. -/
abbrev Passes (E : Expected) (count : Int) (code : List Step) (count' : Int) : Prop :=
  Flows E count true code count' true

section Flows

variable {E : Expected} {count count' : Int} {live live' : Bool} {a b : List Step}

theorem flows_append : Flows E count live (a ++ b) count' live'
    ↔ ∃ d l, Flows E count live a d l ∧ Flows E d l b count' live' := by
  induction a generalizing count live with
  | nil =>
    refine ⟨fun h ↦ ⟨count, live, ⟨rfl, rfl⟩, h⟩, ?_⟩
    rintro ⟨_, _, ⟨rfl, rfl⟩, h⟩
    exact h
  | cons s a ih =>
    simp only [List.cons_append, Flows, ih]
    grind

theorem Flows.append {d : Int} {l : Bool} (ha : Flows E count live a d l)
    (hb : Flows E d l b count' live') : Flows E count live (a ++ b) count' live' :=
  flows_append.mpr ⟨d, l, ha, hb⟩

theorem Step.Fits.of_live {s : Step} (h : s.Fits E count true) (live : Bool) :
    s.Fits E count live := by
  rw [Step.Fits] at h ⊢
  split at h
  · exact ⟨h.1, fun _ ↦ h.2 rfl⟩
  · exact h

/-- Code that control may enter may also stand where it is only jumped to. -/
theorem Flows.of_live (h : Flows E count true a count' live') (live : Bool) :
    ∃ l, Flows E count live a count' l := by
  cases a with
  | nil => exact ⟨live, h.1, rfl⟩
  | cons s a => exact ⟨live', h.1.of_live live, h.2⟩

theorem Flows.exists_fits (h : Flows E count live a count' live') {s : Step} (hs : s ∈ a) :
    ∃ c l, s.Fits E c l := by
  induction a generalizing count live with
  | nil => exact absurd hs List.not_mem_nil
  | cons first a ih =>
    rcases List.mem_cons.mp hs with rfl | hs
    · exact ⟨count, live, h.1⟩
    · exact ih h.2 hs

/-- An operation that goes on to the next line and does not jump. -/
theorem Passes.straight {o : Op} {effect : Int} (hfalls : o.fallsThrough = true)
    (htarget : o.target? = none) (hcalled : ∀ d, o.descriptor? = some d → E.called d)
    (hpops : o.pops ≤ count) (heffect : effect = o.pushes - o.pops)
    (hcount : count' = count + effect) : Passes E count [.op o effect] count' := by
  refine ⟨⟨hpops, fun _ ↦ heffect, fun x hx ↦ ?_, hcalled⟩, hcount, hfalls.symm⟩
  rw [htarget] at hx
  cases hx

theorem Passes.op {o : Op} {effect : Int} (hfalls : o.fallsThrough = true)
    (htarget : o.target? = none) (hcalled : o.descriptor? = none) (hpops : o.pops ≤ count)
    (heffect : effect = o.pushes - o.pops) (hcount : count' = count + effect) :
    Passes E count [.op o effect] count' := by
  refine Passes.straight hfalls htarget (fun d hd ↦ ?_) hpops heffect hcount
  rw [hcalled] at hd
  cases hd

/-- An operation that replaces the operand on top of the stack. -/
theorem Passes.unary {o : Op} (h : Passes E count a (count + 1)) (hcount : 0 ≤ count)
    (hfalls : o.fallsThrough = true) (htarget : o.target? = none) (hcalled : o.descriptor? = none)
    (hpops : o.pops = 1) (hpushes : o.pushes = 1) :
    Passes E count (a ++ [.op o 0]) (count + 1) := by
  exact h.append (Passes.op hfalls htarget hcalled (by omega) (by omega) (by omega))

/-- A jump that may not be taken. -/
theorem Passes.jumpIf {test : Test} {x : String} {effect : Int}
    (hpops : (Op.jumpIf test x).pops ≤ count) (heffect : effect = -(Op.jumpIf test x).pops)
    (hcount : count' = count + effect) (hjump : E.reached x count') :
    Passes E count [.op (.jumpIf test x) effect] count' := by
  refine ⟨⟨hpops, fun _ ↦ ?_, fun y hy ↦ ?_, nofun⟩, hcount, rfl⟩
  · rw [Step.op, heffect]
    exact (Int.zero_sub _).symm
  · obtain rfl := Option.some.inj hy
    have hcount'' : count - (Op.jumpIf test x).pops + (Op.jumpIf test x).pushes = count' := by
      rw [hcount, heffect]
      exact Int.add_zero _
    rwa [hcount'']

theorem Flows.goto {x : String} (hcount : 0 ≤ count) (hjump : E.reached x count) :
    Flows E count true [.op (.goto x) 0] count false := by
  refine ⟨⟨hcount, nofun, fun y hy ↦ ?_, nofun⟩, (Int.add_zero _).symm, rfl⟩
  obtain rfl := Option.some.inj hy
  show E.reached x (count - 0 + 0)
  rwa [Int.sub_zero, Int.add_zero]

end Flows

/-! ## Labels with their counts -/

/-- The labels of code, each with the number of operands when control gets to it. -/
def labelDepths : Int → List Step → List (String × Int)
  | _, [] => []
  | count, s :: ss =>
    (s.line.label?.map fun x ↦ (x, s.depth count)).toList ++ labelDepths (count + s.effect) ss

section LabelDepths

variable {E : Expected} {count count' : Int} {live live' : Bool} {a b : List Step}

theorem map_fst_labelDepths (count : Int) (code : List Step) :
    (labelDepths count code).map Prod.fst = labelNames code := by
  induction code generalizing count with
  | nil => rfl
  | cons s code ih =>
    rw [labelDepths, List.map_append, ih, labelNames, labelNames, List.filterMap_cons]
    cases s.line.label? <;> rfl

/-- The count after code. -/
def countAfter (count : Int) (code : List Step) : Int := code.foldl (fun c s ↦ c + s.effect) count

theorem Flows.countAfter_eq (h : Flows E count live a count' live') :
    countAfter count a = count' := by
  induction a generalizing count live with
  | nil => exact h.1.symm
  | cons s a ih => exact ih h.2

theorem labelDepths_append (count : Int) (a b : List Step) :
    labelDepths count (a ++ b) = labelDepths count a ++ labelDepths (countAfter count a) b := by
  induction a generalizing count with
  | nil => rfl
  | cons s a ih =>
    rw [List.cons_append, labelDepths, labelDepths, ih, List.append_assoc]
    rfl

/-- Control is expected at every label of code, with the operands that are counted there. -/
def Expected.Places (E : Expected) (count : Int) (code : List Step) : Prop :=
  ∀ p ∈ labelDepths count code, E.reached p.1 p.2

theorem Expected.Places.left (h : E.Places count (a ++ b)) : E.Places count a := by
  intro p hp
  rw [Places, labelDepths_append] at h
  exact h p (List.mem_append_left _ hp)

theorem Expected.Places.right (h : E.Places count (a ++ b))
    (ha : Flows E count live a count' live') : E.Places count' b := by
  intro p hp
  rw [Places, labelDepths_append, ha.countAfter_eq] at h
  exact h p (List.mem_append_right _ hp)

end LabelDepths

/-! ## Straight code -/

variable {E : Expected} {e : Emitter} {code : List Step} {count : Int}

/-- The code of an operand leaves it on the stack. -/
theorem passes_load {o : Operand} (h : e.load o = .ok code) (hcount : 0 ≤ count) :
    Passes E count code (count + 1) := by
  induction o generalizing code count with
  | literal value type =>
    obtain rfl := Except.ok.inj h
    exact Passes.op rfl rfl rfl hcount rfl rfl
  | var name type =>
    obtain ⟨slot, _, h⟩ := bind_eq_ok_iff.mp h
    obtain rfl := Except.ok.inj h
    exact Passes.op rfl rfl rfl hcount rfl rfl
  | element name index type ih =>
    obtain ⟨slot, _, h⟩ := bind_eq_ok_iff.mp h
    obtain ⟨position, hposition, h⟩ := bind_eq_ok_iff.mp h
    obtain rfl := Except.ok.inj h
    have harray : Passes E count [.op (.load .reference slot) 1] (count + 1) :=
      Passes.op rfl rfl rfl hcount rfl rfl
    have hindex : Passes E (count + 1) position (count + 1 + 1) := ih hposition (by omega)
    refine (harray.append hindex).append (Passes.op rfl rfl rfl ?_ rfl (by omega))
    simp only [Op.pops]
    omega
  | receiver className =>
    obtain rfl := Except.ok.inj h
    exact Passes.op rfl rfl rfl hcount rfl rfl
  | classRef name => exact nomatch h

theorem passes_loads {os : List Operand} (h : e.loads os = .ok code) (hcount : 0 ≤ count) :
    Passes E count code (count + os.length) := by
  induction os generalizing code count with
  | nil =>
    obtain rfl := Except.ok.inj h
    exact ⟨Int.add_zero _, rfl⟩
  | cons o os ih =>
    obtain ⟨first, hfirst, h⟩ := bind_eq_ok_iff.mp h
    obtain ⟨rest, hrest, h⟩ := bind_eq_ok_iff.mp h
    obtain rfl := Except.ok.inj h
    have hlength : count + (o :: os).length = count + 1 + os.length := by
      rw [List.length_cons]
      omega
    rw [hlength]
    exact (passes_load hfirst hcount).append (ih hrest (by omega))

/-- How many operands a call leaves on the stack. -/
def resultCount (returns : Ollir.Ty) : Int := if returns = .void then 0 else 1

theorem result_ofTys (unit : Ollir.Class) (params : List Ollir.Ty) (returns : Ollir.Ty) :
    (MethodDescriptor.ofTys unit params returns).result = .void ↔ returns = .void := by
  rw [MethodDescriptor.ofTys]
  cases returns <;> simp [Descriptor.ofTy]

theorem pushes_invoke (unit : Ollir.Class) (how : Invocation) (owner method : String)
    (params : List Ollir.Ty) (returns : Ollir.Ty) :
    ((Op.invoke how owner method (.ofTys unit params returns)).pushes : Int)
      = resultCount returns := by
  simp only [Op.pushes, result_ofTys, resultCount]
  split <;> rfl

theorem pops_invoke (unit : Ollir.Class) (how : Invocation) (owner method : String)
    (params : List Ollir.Ty) (returns : Ollir.Ty) :
    (Op.invoke how owner method (.ofTys unit params returns)).pops
      = params.length + if how = .static then 0 else 1 := by
  rw [Op.pops, MethodDescriptor.ofTys, List.length_map]

theorem describes_ofTys (unit : Ollir.Class) (call : Call) :
    (MethodDescriptor.ofTys unit (call.args.map Operand.type) call.returns).Describes call := by
  refine ⟨?_, result_ofTys _ _ _⟩
  rw [MethodDescriptor.ofTys, List.length_map, List.length_map]

theorem passes_invoke {call : Call} {isStatic : Bool} (hallows : E.Allows (.call call))
    (h : e.invoke call isStatic = .ok code) (hcount : 0 ≤ count) :
    Passes E count code (count + resultCount call.returns) := by
  obtain ⟨caller, args, method, owner, hcaller, hargs, _, _, rfl⟩ := Emitter.invoke_eq_ok h
  -- what the method is called on is pushed unless it is a class
  have hcaller' : Passes E count caller (count + if isStatic then 0 else 1) := by
    cases isStatic with
    | true =>
      obtain rfl : caller = [] := hcaller
      exact ⟨Int.add_zero _, rfl⟩
    | false => exact passes_load hcaller hcount
  have hargs' : Passes E (count + if isStatic then 0 else 1) args
      ((count + if isStatic then 0 else 1) + call.args.length) :=
    passes_loads hargs (by split <;> omega)
  refine hcaller'.append (hargs'.append (Passes.straight rfl rfl ?_ ?_ ?_ ?_))
  · rintro d ⟨⟩
    exact hallows call rfl _ (describes_ofTys e.unit call)
  · rw [pops_invoke, List.length_map]
    cases isStatic <;> simp <;> omega
  · rw [pushes_invoke, pops_invoke, List.length_map, resultCount]
    cases isStatic <;> simp
  · rw [resultCount]
    omega

/-- The code of a call leaves its result on the stack, unless its type is `void`. -/
theorem passes_call {call : Call} (hbalanced : call.IsBalanced) (hallows : E.Allows (.call call))
    (h : e.call call = .ok code) (hcount : 0 ≤ count) :
    Passes E count code (count + resultCount call.returns) := by
  rw [Call.IsBalanced] at hbalanced
  cases e.callCode_of_ok h with
  | newArray hkind _ _ hsize =>
    rw [hkind] at hbalanced
    rw [resultCount, if_neg hbalanced]
    exact (passes_load hsize hcount).unary hcount rfl rfl rfl rfl rfl
  | newObject hkind =>
    rw [hkind] at hbalanced
    rw [resultCount, if_neg hbalanced]
    exact Passes.op rfl rfl rfl hcount rfl rfl
  | arrayLength hkind hcaller =>
    rw [hkind] at hbalanced
    rw [resultCount, if_neg hbalanced]
    exact (passes_load hcaller hcount).unary hcount rfl rfl rfl rfl rfl
  | construct hkind hcaller =>
    rw [hkind] at hbalanced
    obtain ⟨hvoid, hargs⟩ := hbalanced
    rw [resultCount, if_pos hvoid]
    refine (passes_load hcaller hcount).append (Passes.straight rfl rfl ?_ ?_ rfl (by omega))
    · rintro d ⟨⟩
      refine hallows call rfl _ ⟨?_, ?_⟩
      · rw [hargs]
        rfl
      · simp only [hvoid]
    · simp only [Op.pops]
      simp
      omega
  | named _ hcode => exact passes_invoke hallows hcode hcount

/-! ## Values -/

variable {n n' : Nat}

/-- A comparison takes two operands and leaves one.  Its first label is reached without the zero
that was pushed on the line before. -/
theorem passes_comparison (h : comparison n = .ok (code, n')) (hcount : 0 ≤ count)
    (hlabels : E.Places (count + 2) code) : Passes E (count + 2) code (count + 1) := by
  obtain ⟨rfl, rfl⟩ := Prod.mk.inj (Except.ok.inj h)
  simp only [Expected.Places, labelDepths, Step.op, Step.label, Step.depth, Line.label?,
    Option.map_none, Option.map_some, Option.toList_none, Option.toList_some, List.nil_append,
    List.append_nil, List.cons_append, List.mem_cons, List.not_mem_nil, or_false,
    forall_eq_or_imp, forall_eq] at hlabels
  obtain ⟨htrue, hend⟩ := hlabels
  have htrue' : E.reached ("cmp_true_" ++ toString n) count := by convert htrue using 1; omega
  have hend' : E.reached ("cmp_end_" ++ toString n) (count + 1) := by convert hend using 1; omega
  have hjump : Passes E (count + 2) [.op (.jumpIf .less ("cmp_true_" ++ toString n)) (-2)] count :=
    Passes.jumpIf (by simp only [Op.pops]; omega) rfl (by omega) htrue'
  have hzero : Passes E count [.op (.const 0) 1] (count + 1) :=
    Passes.op rfl rfl rfl hcount rfl rfl
  have hgoto : Flows E (count + 1) true [.op (.goto ("cmp_end_" ++ toString n)) 0] (count + 1)
      false := Flows.goto (by omega) hend'
  have htrueLabel : Flows E (count + 1) false [⟨.label ("cmp_true_" ++ toString n), -1⟩] count
      true := by
    have hback : count + 1 + -1 = count := Int.add_neg_cancel_right count 1
    exact ⟨⟨hback.symm ▸ htrue', fun h ↦ absurd h Bool.false_ne_true⟩, hback.symm, rfl⟩
  have hone : Passes E count [.op (.const 1) 1] (count + 1) :=
    Passes.op rfl rfl rfl hcount rfl rfl
  have hendLabel : Passes E (count + 1) [.label ("cmp_end_" ++ toString n)] (count + 1) :=
    ⟨⟨by convert hend' using 1; exact Int.add_zero _, fun _ ↦ rfl⟩, (Int.add_zero _).symm, rfl⟩
  exact hjump.append (hzero.append (hgoto.append (htrueLabel.append (hone.append hendLabel))))

/-- The code of an instruction that produces a value leaves it on the stack. -/
theorem passes_value {i : Instr} {returns : Ollir.Ty} (hregular : i.IsRegular returns)
    (hallows : E.Allows i) (h : e.value i n = .ok (code, n')) (hcount : 0 ≤ count)
    (hlabels : E.Places count code) : Passes E count code (count + 1) := by
  cases i with
  | single o => exact passes_load (Emit.lift_eq_ok_iff.mp h).1 hcount
  | binary op left right type =>
    obtain ⟨x, hx, h⟩ := Emit.lift_bind_eq_ok_iff.mp h
    obtain ⟨y, hy, h⟩ := Emit.lift_bind_eq_ok_iff.mp h
    have hoperands : Passes E count (x ++ y) (count + 2) := by
      have hright : Passes E (count + 1) y (count + 1 + 1) := passes_load hy (by omega)
      rw [Int.add_assoc] at hright
      exact (passes_load hx hcount).append hright
    cases ha : arithOf op with
    | some a =>
      rw [ha] at h
      obtain ⟨rfl, rfl⟩ := Emit.pure_eq_ok_iff.mp h
      refine hoperands.append (Passes.op rfl rfl rfl ?_ rfl (by omega))
      simp only [Op.pops]
      omega
    | none =>
      rw [ha] at h
      obtain ⟨test, n₁, htest, h⟩ := Emit.bind_eq_ok_iff.mp h
      obtain ⟨rfl, rfl⟩ := Emit.pure_eq_ok_iff.mp h
      exact hoperands.append (passes_comparison htest hcount (hlabels.right hoperands))
  | not o type =>
    obtain ⟨x, hx, h⟩ := Emit.lift_bind_eq_ok_iff.mp h
    obtain ⟨rfl, rfl⟩ := Emit.pure_eq_ok_iff.mp h
    have hone : Passes E (count + 1) [.op (.const 1) 1] (count + 2) :=
      Passes.op rfl rfl rfl (by simp only [Op.pops]; omega) rfl (by omega)
    have hxor : Passes E (count + 2) [.op (.arith .xor) (-1)] (count + 1) :=
      Passes.op rfl rfl rfl (by simp only [Op.pops]; omega) rfl (by omega)
    exact (passes_load hx hcount).append (hone.append hxor)
  | call call =>
    rw [Emitter.value] at h
    split at h
    · cases h
    · rename_i hvoid
      have hcall := passes_call hregular hallows (Emit.lift_eq_ok_iff.mp h).1 hcount
      rwa [resultCount, if_neg hvoid] at hcall
  | getField object field type =>
    obtain ⟨x, hx, h⟩ := Emit.lift_bind_eq_ok_iff.mp h
    obtain ⟨owner, _, h⟩ := Emit.lift_bind_eq_ok_iff.mp h
    obtain ⟨rfl, rfl⟩ := Emit.pure_eq_ok_iff.mp h
    exact (passes_load hx hcount).unary hcount rfl rfl rfl rfl rfl
  | _ => cases h

/-! ## Instructions -/

theorem passes_assign {target : Operand} {value : Instr} {returns : Ollir.Ty}
    (hregular : value.IsRegular returns) (hallows : E.Allows value)
    (h : e.assign target value n = .ok (code, n')) (hlabels : E.Places 0 code) :
    Passes E 0 code 0 := by
  rcases Emitter.assign_eq_ok h with h | ⟨slot, step, _, rfl, rfl⟩
  · cases target with
    | var x t =>
      obtain ⟨slot, _, h⟩ := Emit.lift_bind_eq_ok_iff.mp h
      obtain ⟨valueCode, n₁, hvalue, h⟩ := Emit.bind_eq_ok_iff.mp h
      obtain ⟨rfl, rfl⟩ := Emit.pure_eq_ok_iff.mp h
      have hpushed := passes_value hregular hallows hvalue (Int.le_refl 0) hlabels.left
      exact hpushed.append (Passes.op rfl rfl rfl (Int.le_refl 1) rfl rfl)
    | element x index t =>
      obtain ⟨slot, _, h⟩ := Emit.lift_bind_eq_ok_iff.mp h
      obtain ⟨position, hposition, h⟩ := Emit.lift_bind_eq_ok_iff.mp h
      obtain ⟨valueCode, n₁, hvalue, h⟩ := Emit.bind_eq_ok_iff.mp h
      obtain ⟨rfl, rfl⟩ := Emit.pure_eq_ok_iff.mp h
      -- the value is computed on top of the array and the position
      have hplace : Passes E 0 (.op (.load .reference slot) 1 :: position) 2 :=
        Flows.append (a := [_]) (Passes.op rfl rfl rfl (Int.le_refl 0) rfl rfl)
          (passes_load hposition (by decide))
      have hpushed : Passes E 2 valueCode 3 :=
        passes_value hregular hallows hvalue (by decide) (hlabels.left.right hplace)
      exact (hplace.append hpushed).append (Passes.op rfl rfl rfl (Int.le_refl 3) rfl rfl)
    | _ => exact nomatch h
  · exact Passes.op rfl rfl rfl (Int.le_refl 0) rfl rfl

theorem passes_branch {test : Instr} {label : String} {returns : Ollir.Ty}
    (hregular : test.IsRegular returns) (hallows : E.Allows test)
    (h : e.branch test label n = .ok (code, n')) (hjump : E.reached label 0)
    (hlabels : E.Places 0 code) : Passes E 0 code 0 := by
  rw [Emitter.branch.eq_def] at h
  split at h
  · obtain ⟨x, hx, h⟩ := Emit.lift_bind_eq_ok_iff.mp h
    obtain ⟨y, hy, h⟩ := Emit.lift_bind_eq_ok_iff.mp h
    obtain ⟨rfl, rfl⟩ := Emit.pure_eq_ok_iff.mp h
    exact ((passes_load hx (Int.le_refl 0)).append (passes_load hy (by decide))).append
      (Passes.jumpIf (Int.le_refl 2) rfl rfl hjump)
  · obtain ⟨x, hx, h⟩ := Emit.lift_bind_eq_ok_iff.mp h
    obtain ⟨rfl, rfl⟩ := Emit.pure_eq_ok_iff.mp h
    exact (passes_load hx (Int.le_refl 0)).append (Passes.jumpIf (Int.le_refl 1) rfl rfl hjump)
  · obtain ⟨valueCode, n₁, hvalue, h⟩ := Emit.bind_eq_ok_iff.mp h
    obtain ⟨rfl, rfl⟩ := Emit.pure_eq_ok_iff.mp h
    have hpushed := passes_value hregular hallows hvalue (Int.le_refl 0) hlabels.left
    exact hpushed.append (Passes.jumpIf (Int.le_refl 1) rfl rfl hjump)

/-- **The code of an instruction leaves the stack as it was.** -/
theorem flows_instr {i : Instr} {returns : Ollir.Ty} (hregular : i.IsRegular returns)
    (hallows : E.Allows i) (h : e.instr i n = .ok (code, n'))
    (hjumps : ∀ x ∈ i.jumps, E.reached x 0) (hlabels : E.Places 0 code) :
    ∃ live, Flows E 0 true code 0 live := by
  cases i with
  | assign target type value =>
    have hvalue : value.IsRegular returns := hregular
    exact ⟨true, passes_assign hvalue hallows h hlabels⟩
  | branch test label =>
    have htest : test.IsRegular returns := hregular
    exact ⟨true, passes_branch htest hallows h (hjumps label List.mem_cons_self) hlabels⟩
  | call call =>
    obtain ⟨callCode, hcall, h⟩ := Emit.lift_bind_eq_ok_iff.mp h
    obtain ⟨rfl, rfl⟩ := Emit.pure_eq_ok_iff.mp h
    have hresult := passes_call hregular hallows hcall (Int.le_refl 0)
    refine ⟨true, ?_⟩
    split
    · rename_i hvoid
      rwa [resultCount, if_pos hvoid] at hresult
    · rename_i hvoid
      rw [resultCount, if_neg hvoid] at hresult
      exact hresult.append (Passes.op rfl rfl rfl (Int.le_refl 1) rfl rfl)
  | putField object field type value =>
    obtain ⟨x, hx, h⟩ := Emit.lift_bind_eq_ok_iff.mp h
    obtain ⟨y, hy, h⟩ := Emit.lift_bind_eq_ok_iff.mp h
    obtain ⟨owner, _, h⟩ := Emit.lift_bind_eq_ok_iff.mp h
    obtain ⟨rfl, rfl⟩ := Emit.pure_eq_ok_iff.mp h
    exact ⟨true, ((passes_load hx (Int.le_refl 0)).append (passes_load hy (by decide))).append
      (Passes.op rfl rfl rfl (Int.le_refl 2) rfl rfl)⟩
  | goto label =>
    obtain ⟨rfl, rfl⟩ := Emit.pure_eq_ok_iff.mp h
    exact ⟨false, Flows.goto (Int.le_refl 0) (hjumps label List.mem_cons_self)⟩
  | ret type value =>
    cases value with
    | none =>
      obtain ⟨rfl, rfl⟩ := Emit.pure_eq_ok_iff.mp h
      exact ⟨false, ⟨Int.le_refl 0, nofun, nofun, nofun⟩, rfl, rfl⟩
    | some o =>
      obtain ⟨x, hx, h⟩ := Emit.lift_bind_eq_ok_iff.mp h
      obtain ⟨rfl, rfl⟩ := Emit.pure_eq_ok_iff.mp h
      refine ⟨false, (passes_load hx (Int.le_refl 0)).append ⟨⟨?_, nofun, nofun, nofun⟩, rfl, rfl⟩⟩
      -- a method of type `void` leaves the value where it is
      cases ReturnKind.ofTy type <;> decide
  | _ =>
    obtain ⟨valueCode, n₁, hvalue, h⟩ := Emit.bind_eq_ok_iff.mp h
    obtain ⟨rfl, rfl⟩ := Emit.pure_eq_ok_iff.mp h
    have hpushed := passes_value hregular hallows hvalue (Int.le_refl 0) hlabels.left
    exact ⟨true, hpushed.append (Passes.op rfl rfl rfl (Int.le_refl 1) rfl rfl)⟩

/-- **The count is right in the code of labels and instructions**, which starts and ends with an
empty stack. -/
theorem flows_items {items : List Ollir.Item} {returns : Ollir.Ty}
    (hregular : Ollir.RegularCode returns items)
    (hallows : ∀ i ∈ Ollir.instrsOf items, E.Allows i) (h : e.items items n = .ok (code, n'))
    (hjumps : ∀ x ∈ Ollir.jumpsOf items, E.reached x 0) (hlabels : E.Places 0 code) (live : Bool) :
    ∃ live', Flows E 0 live code 0 live' := by
  induction items generalizing n code live with
  | nil =>
    obtain ⟨rfl, rfl⟩ := Emit.pure_eq_ok_iff.mp h
    exact ⟨live, rfl, rfl⟩
  | cons item items ih =>
    obtain ⟨first, n₁, hfirst, h⟩ := Emit.bind_eq_ok_iff.mp h
    obtain ⟨rest, n₂, hrest, h⟩ := Emit.bind_eq_ok_iff.mp h
    obtain ⟨rfl, rfl⟩ := Emit.pure_eq_ok_iff.mp h
    have hhead : ∃ l, Flows E 0 live first 0 l := by
      cases item with
      | label name =>
        obtain ⟨rfl, rfl⟩ := Emit.pure_eq_ok_iff.mp hfirst
        exact ⟨true, ⟨hlabels (name, 0) List.mem_cons_self, fun _ ↦ rfl⟩, rfl, rfl⟩
      | instr i =>
        obtain ⟨l, hflows⟩ := flows_instr (hregular i List.mem_cons_self)
          (hallows i List.mem_cons_self) hfirst
          (fun x hx ↦ hjumps x (List.mem_append_left _ hx)) hlabels.left
        exact hflows.of_live live
    obtain ⟨l, hflows⟩ := hhead
    have hregular' : Ollir.RegularCode returns items := fun i hi ↦
      hregular i (Ollir.instrsOf_append [item] items ▸ List.mem_append_right _ hi)
    have hjumps' : ∀ x ∈ Ollir.jumpsOf items, E.reached x 0 := by
      refine fun x hx ↦ hjumps x ?_
      rw [← List.singleton_append, Ollir.jumpsOf, Ollir.gather_append]
      exact List.mem_append_right _ hx
    have hallows' : ∀ i ∈ Ollir.instrsOf items, E.Allows i := fun i hi ↦
      hallows i (Ollir.instrsOf_append [item] items ▸ List.mem_append_right _ hi)
    obtain ⟨live', hflows'⟩ := ih hregular' hallows' hrest hjumps' (hlabels.right hflows) l
    exact ⟨live', hflows.append hflows'⟩

/-! ## Methods -/

/-- What is expected of a method: jumps lead to its labels with the counts there, and the methods
called are those of its instructions. -/
def expected (instrs : List Instr) (code : List Step) : Expected where
  reached x d := (x, d) ∈ labelDepths 0 code
  called d := ∃ i ∈ instrs, ∃ c, i.call? = some c ∧ d.Describes c

section Methods

variable {items : List Ollir.Item} {returns : Ollir.Ty}

theorem countAfter_instr {i : Instr} (hregular : i.IsRegular returns)
    (h : e.instr i n = .ok (code, n')) : countAfter 0 code = 0 := by
  obtain ⟨_, hflows⟩ := flows_instr (E := ⟨fun _ _ ↦ True, fun _ ↦ True⟩) hregular
    (fun _ _ _ _ ↦ trivial) h (fun _ _ ↦ trivial) (fun _ _ ↦ trivial)
  exact hflows.countAfter_eq

/-- The labels among instructions are emitted where the stack is empty. -/
theorem mem_labelDepths_items (hregular : Ollir.RegularCode returns items)
    (h : e.items items n = .ok (code, n')) {x : String} (hx : x ∈ Ollir.labelsOf items) :
    (x, 0) ∈ labelDepths 0 code := by
  induction items generalizing n code with
  | nil => exact absurd hx List.not_mem_nil
  | cons item items ih =>
    obtain ⟨first, n₁, hfirst, h⟩ := Emit.bind_eq_ok_iff.mp h
    obtain ⟨rest, n₂, hrest, h⟩ := Emit.bind_eq_ok_iff.mp h
    obtain ⟨rfl, rfl⟩ := Emit.pure_eq_ok_iff.mp h
    rw [labelDepths_append, List.mem_append]
    cases item with
    | label name =>
      obtain ⟨rfl, rfl⟩ := Emit.pure_eq_ok_iff.mp hfirst
      rcases List.mem_cons.mp hx with rfl | hx
      · exact .inl List.mem_cons_self
      · exact .inr (ih hregular hrest hx)
    | instr i =>
      obtain ⟨hi, hregular⟩ := List.forall_mem_cons.mp hregular
      rw [countAfter_instr hi hfirst]
      exact .inr (ih hregular hrest hx)

/-- **Closed code flows as it was counted.** -/
theorem flows_expected (hregular : Ollir.RegularCode returns items) (hclosed : Ollir.Closed items)
    (h : e.items items n = .ok (code, n')) :
    ∃ live', Flows (expected (Ollir.instrsOf items) code) 0 true code 0 live' :=
  flows_items (E := expected _ code) hregular (fun i hi c hc _ hd ↦ ⟨i, hi, c, hc, hd⟩) h
    (fun _ hx ↦ mem_labelDepths_items hregular h (hclosed hx)) (fun _ hp ↦ hp) true

/-- What is known of the emitted code of a lowered method. -/
structure SoundCode (m : Ollir.Method) (code : List Step) : Prop where
  nodup : (labelNames code).Nodup
  mem : ∀ x ∈ labelNames code, x ∈ m.labelNames ∨ ∃ number, IsComparisonLabel number x
  flows : ∃ live', Flows (expected m.instrs code) 0 true code 0 live'
  empty : ∀ x ∈ m.labelNames, (x, 0) ∈ labelDepths 0 code

theorem soundCode_method (l : Ollir.Lowerer) (names : Ollir.Names)
    (h : e.items (l.code names) n = .ok (code, n')) : SoundCode (l.method names).1 code := by
  have hregular : Ollir.RegularCode (l.method names).1.returns (l.code names) := by
    intro i hi
    rw [← l.instrs_method] at hi
    exact l.isRegular_method names hi
  obtain ⟨names', hlabels⟩ := l.labelsIn_code names
  have hemitted := emittedLabels_items hlabels.1 (fun x ↦ not_isComparisonLabel hlabels) h
  refine ⟨hemitted.nodup, fun x hx ↦ ?_, ?_, ?_⟩
  · rw [l.labelNames_method]
    exact (hemitted.mem x hx).imp_right fun ⟨number, _, _, hcomparison⟩ ↦ ⟨number, hcomparison⟩
  · rw [l.instrs_method]
    exact flows_expected hregular (l.closed_code names) h
  · intro x hx
    rw [l.labelNames_method] at hx
    exact mem_labelDepths_items hregular h hx

/-- The code of a method of a lowered class that was emitted. -/
theorem exists_soundCode (a : Analysis) (cls : ClassDecl) {fusion : Bool} {jc : Class}
    (hjc : (a.lower cls).assemble fusion = .ok jc) {k : Nat} {m : Ollir.Method}
    (hm : (a.lower cls).methods[k]? = some m) :
    ∃ jm code, jc.methods[k]? = some jm ∧ SoundCode m code ∧ jm.lines = code.map Step.line
      ∧ jm.stackLimit = Step.limit code := by
  obtain ⟨_, hmethods⟩ := emitClass_eq_ok hjc
  obtain ⟨jm, n, n', hjm, hemit⟩ :=
    emitMethods_getElem? hmethods (Ollir.Class.getElem?_assignSlots hm)
  obtain ⟨code, hcode, hlines, hlimit⟩ := emitMethod_eq_ok hemit
  obtain ⟨d, _, names, rfl⟩ := Ollir.exists_of_mem_lowerMethods a (List.mem_of_getElem? hm)
  rw [Ollir.Method.listing_assignSlots, Ollir.Lowerer.listing_method] at hcode
  exact ⟨jm, code, hjm, soundCode_method _ names hcode, hlines, hlimit⟩

end Methods

end Jasmin

end Jmm
