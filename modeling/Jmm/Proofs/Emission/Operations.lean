import Jmm.Proofs.Emission.Flow
import Jmm.Proofs.Emission.Success

/-!
# Where emitted operations come from

Every operation that names a slot stands in emitted code for a reason: it loads or stores a variable
that is an operand of some instruction, in the family of the type that the variable occurs with, or
it loads the receiver.  `Emitter.Makes` lists these reasons, and `Emitter.allMade_items` says that
there are no others.
-/

set_option autoImplicit false

namespace Jmm.Jasmin

open Ollir (Operand Instr Call Item instrsOf)

/-- The slot that an operation names. -/
def Op.slot? : Op → Option Nat
  | load _ slot => some slot
  | store _ slot => some slot
  | increment slot _ => some slot
  | _ => none

/-- The family of the slot that an operation names, which for an increment is that of integers. -/
def Op.family? : Op → Option Family
  | load family _ => some family
  | store family _ => some family
  | increment _ _ => some .int
  | _ => none

/-- The reasons for which an operation stands in the code of operands. -/
inductive Emitter.Makes (e : Emitter) (os : List Operand) : Op → Prop where
  | var {o : Op} {x : String} {t : Ollir.Ty} {slot : Nat}
    (hx : (x, t) ∈ os.flatMap Operand.typedVars) (hslot : e.slot x = .ok slot)
    (ho : o.slot? = some slot) (hfamily : o.family? = some (.ofTy t)) : Makes e os o
  | receiver {o : Operand} (ho : o ∈ os) (hreceiver : o.usesReceiver = true) :
    Makes e os (.load .reference 0)
  | other {o : Op} (hslot : o.slot? = none) : Makes e os o

/-- All operations in code stand there for a reason. -/
def Emitter.AllMade (e : Emitter) (os : List Operand) (code : List Step) : Prop :=
  ∀ s ∈ code, ∀ o, s.line = .op o → e.Makes os o

namespace Emitter

variable {e : Emitter} {os : List Operand} {a b code : List Step}

theorem allMade_nil : e.AllMade os [] := fun _ hs ↦ absurd hs List.not_mem_nil

theorem AllMade.append (ha : e.AllMade os a) (hb : e.AllMade os b) :
    e.AllMade os (a ++ b) :=
  List.forall_mem_append.mpr ⟨ha, hb⟩

theorem allMade_op {o : Op} {effect : Int} (h : e.Makes os o) :
    e.AllMade os [.op o effect] := by
  refine List.forall_mem_singleton.mpr fun o' ho' ↦ ?_
  obtain rfl := Line.op.inj ho'
  exact h

/-- An operation without slot. -/
theorem allMade_other {o : Op} {effect : Int} (hslot : o.slot? = none) :
    e.AllMade os [.op o effect] :=
  allMade_op (.other hslot)

theorem allMade_label {name : String} {effect : Int} :
    e.AllMade os [⟨.label name, effect⟩] :=
  List.forall_mem_singleton.mpr fun _ h ↦ Line.noConfusion h

theorem Makes.mono {os' : List Operand} {o : Op} (h : e.Makes os o) (hos : os ⊆ os') :
    e.Makes os' o := by
  cases h with
  | var hx hslot ho hfamily =>
    obtain ⟨operand, hmem, hx⟩ := List.mem_flatMap.mp hx
    exact .var (List.mem_flatMap.mpr ⟨operand, hos hmem, hx⟩) hslot ho hfamily
  | receiver ho hreceiver => exact .receiver (hos ho) hreceiver
  | other hslot => exact .other hslot

/-- An operation on a slot stands there for a variable or for the receiver. -/
theorem Makes.slot_cases {o : Op} (h : e.Makes os o) {slot : Nat}
    (hslot : o.slot? = some slot) :
    (∃ v ∈ os.flatMap Operand.typedVars, e.slot v.1 = .ok slot ∧ o.family? = some (.ofTy v.2))
      ∨ slot = 0 ∧ o.family? = some .reference ∧ ∃ o' ∈ os, o'.usesReceiver = true := by
  cases h with
  | @var _ x t _ hx hs ho hfamily =>
    obtain rfl := Option.some.inj (hslot.symm.trans ho)
    exact .inl ⟨(x, t), hx, hs, hfamily⟩
  | @receiver o' ho hreceiver => exact .inr ⟨(Option.some.inj hslot).symm, rfl, o', ho, hreceiver⟩
  | other hnone =>
    rw [hnone] at hslot
    cases hslot

theorem AllMade.mono {os' : List Operand} (h : e.AllMade os code) (hos : os ⊆ os') :
    e.AllMade os' code :=
  fun s hs o ho ↦ (h s hs o ho).mono hos

/-! ## Operands -/

/-- The operations that load an operand, which may be the index in another one. -/
theorem allMade_load {o : Operand} (h : e.load o = .ok code)
    (hvars : o.typedVars ⊆ os.flatMap Operand.typedVars)
    (hreceiver : o.usesReceiver = true → ∃ o ∈ os, o.usesReceiver = true) :
    e.AllMade os code := by
  induction o generalizing code with
  | literal value type =>
    obtain rfl := Except.ok.inj h
    exact allMade_other rfl
  | var name type =>
    obtain ⟨slot, hslot, h⟩ := bind_eq_ok_iff.mp h
    obtain rfl := Except.ok.inj h
    exact allMade_op (.var (hvars List.mem_cons_self) hslot rfl rfl)
  | element name index type ih =>
    obtain ⟨slot, hslot, h⟩ := bind_eq_ok_iff.mp h
    obtain ⟨position, hposition, h⟩ := bind_eq_ok_iff.mp h
    obtain rfl := Except.ok.inj h
    obtain ⟨harray, hindex⟩ := List.cons_subset.mp hvars
    exact (allMade_op (.var harray hslot rfl rfl)).append
      ((ih hposition hindex hreceiver).append (allMade_other rfl))
  | receiver className =>
    obtain rfl := Except.ok.inj h
    obtain ⟨o, ho, hreceiver⟩ := hreceiver rfl
    exact allMade_op (.receiver ho hreceiver)
  | classRef name => cases h

theorem allMade_operand {o : Operand} (h : e.load o = .ok code) (ho : o ∈ os) :
    e.AllMade os code :=
  allMade_load h (fun _ hv ↦ List.mem_flatMap.mpr ⟨o, ho, hv⟩) fun hreceiver ↦ ⟨o, ho, hreceiver⟩

theorem allMade_loads {os' : List Operand} (h : e.loads os' = .ok code) (hos : os' ⊆ os) :
    e.AllMade os code := by
  induction os' generalizing code with
  | nil =>
    obtain rfl := Except.ok.inj h
    exact allMade_nil
  | cons o os' ih =>
    obtain ⟨first, hfirst, h⟩ := bind_eq_ok_iff.mp h
    obtain ⟨rest, hrest, h⟩ := bind_eq_ok_iff.mp h
    obtain rfl := Except.ok.inj h
    obtain ⟨ho, hos⟩ := List.cons_subset.mp hos
    exact (allMade_operand hfirst ho).append (ih hrest hos)

/-! ## Calls and values -/

theorem allMade_invoke {call : Call} {isStatic : Bool} (h : e.invoke call isStatic = .ok code) :
    e.AllMade (call.caller :: call.args) code := by
  obtain ⟨caller, args, method, owner, hload, hloads, _, _, rfl⟩ := Emitter.invoke_eq_ok h
  have hcaller : e.AllMade (call.caller :: call.args) caller := by
    cases isStatic with
    | true => rw [show caller = [] from hload]; exact allMade_nil
    | false => exact allMade_operand hload List.mem_cons_self
  exact hcaller.append ((allMade_loads hloads (List.subset_cons_self _ _)).append
    (allMade_other rfl))

theorem allMade_call {call : Call} (h : e.call call = .ok code) :
    e.AllMade (call.caller :: call.args) code := by
  cases e.callCode_of_ok h with
  | newArray _ _ hargs hsize =>
    rw [hargs]
    exact (allMade_operand hsize (by simp)).append (allMade_other rfl)
  | newObject => exact allMade_other rfl
  | arrayLength _ hcaller | construct _ hcaller =>
    exact (allMade_operand hcaller List.mem_cons_self).append (allMade_other rfl)
  | named _ hcode => exact allMade_invoke hcode

variable {n n' : Nat}

theorem allMade_comparison (h : comparison n = .ok (code, n')) : e.AllMade os code := by
  obtain ⟨rfl, rfl⟩ := Prod.mk.inj (Except.ok.inj h)
  have hjumps : ∀ x y, e.AllMade os
      [.op (.jumpIf .less x) (-2), .op (.const 0) 1, .op (.goto y) 0] := fun x y ↦
    (allMade_other rfl).append ((allMade_other rfl).append (allMade_other rfl))
  have hlabels : ∀ x y, e.AllMade os
      [⟨.label x, -1⟩, .op (.const 1) 1, .label y] := fun x y ↦
    allMade_label.append ((allMade_other rfl).append allMade_label)
  exact (hjumps _ _).append (hlabels _ _)

theorem allMade_value {i : Instr} (h : e.value i n = .ok (code, n')) :
    e.AllMade i.operands code := by
  cases i with
  | single o =>
    obtain ⟨hload, rfl⟩ := Emit.lift_eq_ok_iff.mp h
    exact allMade_operand hload List.mem_cons_self
  | binary op left right type =>
    obtain ⟨x, hx, h⟩ := Emit.lift_bind_eq_ok_iff.mp h
    obtain ⟨y, hy, h⟩ := Emit.lift_bind_eq_ok_iff.mp h
    have hcode : e.AllMade [left, right] (x ++ y) :=
      (allMade_operand hx List.mem_cons_self).append
        (allMade_operand hy (List.mem_cons_of_mem _ List.mem_cons_self))
    cases ha : arithOf op with
    | some a =>
      rw [ha] at h
      obtain ⟨rfl, rfl⟩ := Emit.pure_eq_ok_iff.mp h
      exact hcode.append (allMade_other rfl)
    | none =>
      rw [ha] at h
      obtain ⟨test, n₁, htest, h⟩ := Emit.bind_eq_ok_iff.mp h
      obtain ⟨rfl, rfl⟩ := Emit.pure_eq_ok_iff.mp h
      exact hcode.append (allMade_comparison htest)
  | not o type =>
    obtain ⟨x, hx, h⟩ := Emit.lift_bind_eq_ok_iff.mp h
    obtain ⟨rfl, rfl⟩ := Emit.pure_eq_ok_iff.mp h
    exact (allMade_operand hx List.mem_cons_self).append
      ((allMade_other rfl).append (allMade_other rfl))
  | call call =>
    rw [Emitter.value] at h
    split at h
    · cases h
    · obtain ⟨hcall, rfl⟩ := Emit.lift_eq_ok_iff.mp h
      exact allMade_call hcall
  | getField object field type =>
    obtain ⟨x, hx, h⟩ := Emit.lift_bind_eq_ok_iff.mp h
    obtain ⟨owner, _, h⟩ := Emit.lift_bind_eq_ok_iff.mp h
    obtain ⟨rfl, rfl⟩ := Emit.pure_eq_ok_iff.mp h
    exact (allMade_operand hx List.mem_cons_self).append (allMade_other rfl)
  | _ => cases h

/-! ## Instructions -/

theorem allMade_assign {target : Operand} {value : Instr}
    (h : e.assign target value n = .ok (code, n')) :
    e.AllMade (target :: value.operands) code := by
  have hvalue : ∀ {code n n'}, e.value value n = .ok (code, n') →
      e.AllMade (target :: value.operands) code := fun h ↦
    (allMade_value h).mono (List.subset_cons_self _ _)
  rcases Emitter.assign_eq_ok h with h | ⟨slot, step, hfused, rfl, rfl⟩
  · cases target with
    | var x t =>
      obtain ⟨slot, hslot, h⟩ := Emit.lift_bind_eq_ok_iff.mp h
      obtain ⟨valueCode, n₁, hcode, h⟩ := Emit.bind_eq_ok_iff.mp h
      obtain ⟨rfl, rfl⟩ := Emit.pure_eq_ok_iff.mp h
      exact (hvalue hcode).append (allMade_op (.var List.mem_cons_self hslot rfl rfl))
    | element x index t =>
      obtain ⟨slot, hslot, h⟩ := Emit.lift_bind_eq_ok_iff.mp h
      obtain ⟨position, hposition, h⟩ := Emit.lift_bind_eq_ok_iff.mp h
      obtain ⟨valueCode, n₁, hcode, h⟩ := Emit.bind_eq_ok_iff.mp h
      obtain ⟨rfl, rfl⟩ := Emit.pure_eq_ok_iff.mp h
      -- the index is no operand of its own, but its variables count for the element
      have hindex : e.AllMade (.element x index t :: value.operands) position :=
        allMade_load hposition (fun _ hv ↦ List.mem_append_left _ (List.mem_cons_of_mem _ hv))
          fun hreceiver ↦ ⟨_, List.mem_cons_self, hreceiver⟩
      exact (((allMade_op (.var List.mem_cons_self hslot rfl rfl)).append hindex).append
        (hvalue hcode)).append (allMade_other rfl)
    | _ => cases h
  · obtain ⟨x, rfl, hslot, _⟩ := increment?_eq_some hfused
    exact allMade_op (.var List.mem_cons_self hslot rfl rfl)

theorem allMade_branch {test : Instr} {label : String}
    (h : e.branch test label n = .ok (code, n')) :
    e.AllMade test.operands code := by
  rw [Emitter.branch.eq_def] at h
  split at h
  · obtain ⟨x, hx, h⟩ := Emit.lift_bind_eq_ok_iff.mp h
    obtain ⟨y, hy, h⟩ := Emit.lift_bind_eq_ok_iff.mp h
    obtain ⟨rfl, rfl⟩ := Emit.pure_eq_ok_iff.mp h
    exact ((allMade_operand hx List.mem_cons_self).append
      (allMade_operand hy (List.mem_cons_of_mem _ List.mem_cons_self))).append
        (allMade_other rfl)
  · obtain ⟨x, hx, h⟩ := Emit.lift_bind_eq_ok_iff.mp h
    obtain ⟨rfl, rfl⟩ := Emit.pure_eq_ok_iff.mp h
    exact (allMade_operand hx List.mem_cons_self).append (allMade_other rfl)
  · obtain ⟨valueCode, n₁, hvalue, h⟩ := Emit.bind_eq_ok_iff.mp h
    obtain ⟨rfl, rfl⟩ := Emit.pure_eq_ok_iff.mp h
    exact (allMade_value hvalue).append (allMade_other rfl)

theorem allMade_instr {i : Instr} (h : e.instr i n = .ok (code, n')) :
    e.AllMade i.operands code := by
  cases i with
  | assign target type value => exact allMade_assign h
  | branch test label =>
    have htest : e.AllMade test.operands code := allMade_branch h
    exact htest
  | call call =>
    obtain ⟨callCode, hcall, h⟩ := Emit.lift_bind_eq_ok_iff.mp h
    obtain ⟨rfl, rfl⟩ := Emit.pure_eq_ok_iff.mp h
    split
    · exact allMade_call hcall
    · exact (allMade_call hcall).append (allMade_other rfl)
  | putField object field type value =>
    obtain ⟨x, hx, h⟩ := Emit.lift_bind_eq_ok_iff.mp h
    obtain ⟨y, hy, h⟩ := Emit.lift_bind_eq_ok_iff.mp h
    obtain ⟨owner, _, h⟩ := Emit.lift_bind_eq_ok_iff.mp h
    obtain ⟨rfl, rfl⟩ := Emit.pure_eq_ok_iff.mp h
    exact ((allMade_operand hx List.mem_cons_self).append
      (allMade_operand hy (List.mem_cons_of_mem _ List.mem_cons_self))).append
        (allMade_other rfl)
  | goto label =>
    obtain ⟨rfl, rfl⟩ := Emit.pure_eq_ok_iff.mp h
    exact allMade_other rfl
  | ret type value =>
    cases value with
    | none =>
      obtain ⟨rfl, rfl⟩ := Emit.pure_eq_ok_iff.mp h
      exact allMade_other rfl
    | some o =>
      obtain ⟨x, hx, h⟩ := Emit.lift_bind_eq_ok_iff.mp h
      obtain ⟨rfl, rfl⟩ := Emit.pure_eq_ok_iff.mp h
      exact (allMade_operand hx List.mem_cons_self).append (allMade_other rfl)
  | _ =>
    obtain ⟨valueCode, n₁, hvalue, h⟩ := Emit.bind_eq_ok_iff.mp h
    obtain ⟨rfl, rfl⟩ := Emit.pure_eq_ok_iff.mp h
    exact (allMade_value hvalue).append (allMade_other rfl)

/-- **Every operation in emitted code stands there for a reason.** -/
theorem allMade_items {items : List Item} (h : e.items items n = .ok (code, n')) :
    e.AllMade ((instrsOf items).flatMap Instr.operands) code := by
  induction items generalizing n code with
  | nil =>
    obtain ⟨rfl, rfl⟩ := Emit.pure_eq_ok_iff.mp h
    exact allMade_nil
  | cons item items ih =>
    obtain ⟨first, n₁, hfirst, h⟩ := Emit.bind_eq_ok_iff.mp h
    obtain ⟨rest, n₂, hrest, h⟩ := Emit.bind_eq_ok_iff.mp h
    obtain ⟨rfl, rfl⟩ := Emit.pure_eq_ok_iff.mp h
    cases item with
    | label name =>
      obtain ⟨rfl, rfl⟩ := Emit.pure_eq_ok_iff.mp hfirst
      exact allMade_label.append (ih hrest)
    | instr i =>
      rw [Ollir.instrsOf_instr, List.flatMap_cons]
      exact ((allMade_instr hfirst).mono (List.subset_append_left _ _)).append
        ((ih hrest).mono (List.subset_append_right _ _))

end Emitter

/-- **The operations in a method of a class that is emitted**, made of the operands in its
instructions with the slots of its variable table. -/
theorem allMade_assemble {unit : Ollir.Class} {fusion : Bool} {jc : Class}
    (h : unit.assemble fusion = .ok jc) {k : Nat} {m : Ollir.Method}
    (hm : unit.methods[k]? = some m) :
    ∃ jm, jc.methods[k]? = some jm ∧ ∀ o, .op o ∈ jm.lines →
      Emitter.Makes ⟨unit.assignSlots, (m.assignSlots unit.name).vars, fusion⟩
        (m.instrs.flatMap Instr.operands) o := by
  obtain ⟨jm, n, n', steps, hjm, hsteps, hlines⟩ :=
    emitClass_getElem? h (Ollir.Class.getElem?_assignSlots hm)
  refine ⟨jm, hjm, fun o ho ↦ ?_⟩
  rw [hlines] at ho
  obtain ⟨s, hs, hline⟩ := List.mem_map.mp ho
  have hmade := Emitter.allMade_items hsteps s hs o hline
  rwa [Ollir.Method.listing_assignSlots, Ollir.Method.instrsOf_listing] at hmade

/-- The header of a method that is emitted has the types of its parameters and result. -/
theorem descriptor_assemble {unit : Ollir.Class} {fusion : Bool} {jc : Class}
    (h : unit.assemble fusion = .ok jc) {k : Nat} {m : Ollir.Method}
    (hm : unit.methods[k]? = some m) :
    ∃ jm, jc.methods[k]? = some jm
      ∧ jm.descriptor = .ofTys unit.assignSlots (m.params.map Operand.type) m.returns := by
  obtain ⟨_, hmethods⟩ := emitClass_eq_ok h
  obtain ⟨jm, _, _, hjm, hemit⟩ :=
    emitMethods_getElem? hmethods (Ollir.Class.getElem?_assignSlots hm)
  obtain ⟨_, _, _, hemit⟩ := Emit.bind_eq_ok_iff.mp hemit
  obtain ⟨rfl, _⟩ := Emit.pure_eq_ok_iff.mp hemit
  refine ⟨_, hjm, ?_⟩
  rw [Ollir.Method.assignSlots]
  split <;> rfl

end Jmm.Jasmin
