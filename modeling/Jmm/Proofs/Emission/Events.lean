import Jmm.Proofs.Emission.Fusion
import Jmm.Proofs.Lowering.Events

/-!
# What emitted code does

Emission carries out the events of the instructions one by one: an operation on an array, a call of
a method and an access to a field each become one operation of the machine, in the order of the
events (`Emitter.does_items`).  `CarriesOut` says which operation.  The owner of a method or of a
field is the class of the object that it is reached through.  A change of the kind of a value takes
no operation, and constructors are called for no event.
-/

set_option autoImplicit false

namespace Jmm

/-- Whether an event takes an operation: a value changes its kind by being stored. -/
def Ollir.Event.isAction : Event → Bool
  | change _ => false
  | _ => true

namespace Jasmin

open Ollir (Operand Instr Call Item ArrayOp Linkage Transfer Event changes instrsOf)

/-- The operation that carries out an array operation: the kind of an element is that of its type,
but all arrays are allocated as arrays of integers. -/
def Op.ofArrayOp : ArrayOp → Op
  | .allocate _ => newIntArray
  | .load t => arrayLoad (.ofTy t)
  | .store t => arrayStore (.ofTy t)

/-- The operations that carry out the events of a class. -/
inductive CarriesOut (unit : Ollir.Class) : Event → Op → Prop where
  | array (op : ArrayOp) : CarriesOut unit (.array op) (.ofArrayOp op)
  | call {link : Linkage} {className : String} (hcaller : link.caller = .named className)
    (onClass : Bool) :
    CarriesOut unit (.call link onClass)
      (.invoke (if onClass then .static else .virtual) (unit.classPath className) link.method
        (.ofTys unit link.args link.returns))
  | read {object : Operand} {className : String} (hobject : object.type = .named className)
    (field : String) (type : Ollir.Ty) :
    CarriesOut unit (.access ⟨object, field, type, false⟩)
      (.getField (unit.classPath className) field (.ofTy unit type))
  | write {object : Operand} {className : String} (hobject : object.type = .named className)
    (field : String) (type : Ollir.Ty) :
    CarriesOut unit (.access ⟨object, field, type, true⟩)
      (.putField (unit.classPath className) field (.ofTy unit type))

/-- Whether an operation works on an array, calls a method that is no constructor, or accesses a
field. -/
def Op.isAction : Op → Bool
  | newIntArray | arrayLoad _ | arrayStore _ | getField _ _ _ | putField _ _ _ => true
  | invoke how _ _ _ => how ≠ .special
  | _ => false

/-- The operation of a line, if it carries out an event. -/
def Line.action? : Line → Option Op
  | op o => if o.isAction then some o else none
  | label _ => none

/-- Code carries out events, in their order, and no others. -/
def Does (unit : Ollir.Class) (events : List Event) (code : List Step) : Prop :=
  List.Forall₂ (CarriesOut unit) (events.filter Event.isAction)
    ((code.map Step.line).filterMap Line.action?)

section Does

variable {unit : Ollir.Class} {xs ys : List Event} {a b : List Step}

theorem does_nil : Does unit [] [] := .nil

theorem Does.append (ha : Does unit xs a) (hb : Does unit ys b) :
    Does unit (xs ++ ys) (a ++ b) := by
  rw [Does, List.filter_append, List.map_append, List.filterMap_append]
  exact List.rel_append ha hb

/-- Other operations may follow. -/
theorem Does.append_other (ha : Does unit xs a) (hb : Does unit [] b) : Does unit xs (a ++ b) := by
  have h := ha.append hb
  rwa [List.append_nil] at h

/-- Changes of kinds may follow. -/
theorem Does.append_changes (ha : Does unit xs a) (ts : List Transfer) :
    Does unit (xs ++ changes ts) a := by
  have hnone : (changes ts).filter Event.isAction = [] := by
    rw [List.filter_eq_nil_iff]
    intro event hevent
    obtain ⟨t, _, rfl⟩ := List.mem_map.mp hevent
    exact Bool.false_ne_true
  rwa [Does, List.filter_append, hnone, List.append_nil]

end Does

namespace Emitter

variable {e : Emitter} {code : List Step}

/-- The owner of a member is the class of the object. -/
theorem owner_eq_ok {o : Operand} {path : String} (h : e.owner o = .ok path) :
    ∃ className, o.type = .named className ∧ path = e.unit.classPath className := by
  rw [owner] at h
  split at h
  · rename_i className htype
    exact ⟨className, htype, (Except.ok.inj h).symm⟩
  · cases h

/-! ## Operands and calls -/

theorem does_load {o : Operand} (h : e.load o = .ok code) : Does e.unit o.events code := by
  induction o generalizing code with
  | literal value type =>
    obtain rfl := Except.ok.inj h
    exact .nil
  | var name type =>
    obtain ⟨slot, _, h⟩ := bind_eq_ok_iff.mp h
    obtain rfl := Except.ok.inj h
    exact .nil
  | element name index type ih =>
    obtain ⟨slot, _, h⟩ := bind_eq_ok_iff.mp h
    obtain ⟨position, hposition, h⟩ := bind_eq_ok_iff.mp h
    obtain rfl := Except.ok.inj h
    have hload : Does e.unit [] [.op (.load .reference slot) 1] := .nil
    have hread : Does e.unit [.array (.load type)] [.op (.arrayLoad (.ofTy type)) (-1)] :=
      .cons (.array _) .nil
    exact hload.append ((ih hposition).append hread)
  | receiver className =>
    obtain rfl := Except.ok.inj h
    exact .nil
  | classRef name => cases h

theorem does_loads {os : List Operand} (h : e.loads os = .ok code) :
    Does e.unit (os.flatMap Operand.events) code := by
  induction os generalizing code with
  | nil =>
    obtain rfl := Except.ok.inj h
    exact does_nil
  | cons o os ih =>
    obtain ⟨first, hfirst, h⟩ := bind_eq_ok_iff.mp h
    obtain ⟨rest, hrest, h⟩ := bind_eq_ok_iff.mp h
    obtain rfl := Except.ok.inj h
    exact (does_load hfirst).append (ih hrest)

/-- The arguments of a call are pushed, after the object that it is on, if any, and then the method
is called. -/
theorem does_invoke {call : Call} (hkind : call.kind = .virtual ∨ call.kind = .static)
    {isStatic : Bool} (h : e.invoke call isStatic = .ok code) :
    Does e.unit ((if isStatic then [] else call.caller.events)
      ++ call.args.flatMap Operand.events
      ++ call.linkage?.toList.map fun link ↦ .call link isStatic) code := by
  obtain ⟨caller, args, method, owner, hload, hloads, hmethod, howner, rfl⟩ :=
    Emitter.invoke_eq_ok h
  obtain ⟨className, hclass, rfl⟩ := owner_eq_ok howner
  have hcaller : Does e.unit (if isStatic then [] else call.caller.events) caller := by
    cases isStatic with
    | true => rw [show caller = [] from hload]; exact does_nil
    | false => exact does_load hload
  rw [Call.linkage?, if_pos hkind, hmethod]
  have hcall : ∀ effect, Does e.unit
      [.call ⟨call.kind, call.caller.type, method, call.args.map Operand.type, call.returns⟩
        isStatic]
      [.op (.invoke (if isStatic then .static else .virtual) (e.unit.classPath className) method
        (.ofTys e.unit (call.args.map Operand.type) call.returns)) effect] := by
    intro effect
    cases isStatic <;> exact .cons (.call hclass _) .nil
  exact List.append_assoc caller args _ ▸ (hcaller.append (does_loads hloads)).append (hcall _)

theorem does_call {call : Call} (h : e.call call = .ok code) : Does e.unit call.events code := by
  have hlinkage : ¬ (call.kind = .virtual ∨ call.kind = .static) →
      call.events = call.operandEvents := by
    intro hkind
    rw [Call.events, Call.linkage?, if_neg hkind]
    exact List.append_nil _
  cases e.callCode_of_ok h with
  | newArray hkind harray hargs hsize =>
    have hallocate : Does e.unit [.array (.allocate call.returns)] [.op .newIntArray 0] :=
      .cons (.array _) .nil
    rw [hlinkage (by rw [hkind]; decide), Call.operandEvents, hkind, if_pos harray, hargs,
      List.flatMap_singleton]
    exact (does_load hsize).append hallocate
  | newObject hkind harray =>
    rw [hlinkage (by rw [hkind]; decide), Call.operandEvents, hkind,
      if_neg (Bool.eq_false_iff.mp harray)]
    exact .nil
  | arrayLength hkind hcaller | construct hkind hcaller =>
    rw [hlinkage (by rw [hkind]; decide), Call.operandEvents, hkind]
    exact (does_load hcaller).append_other .nil
  | @named isStatic _ hkind hcode =>
    have hinvoke := does_invoke (hkind.imp And.left And.left) hcode
    rw [Call.events, Call.operandEvents, Call.isOnClass]
    rcases hkind with ⟨hkind, hstatic⟩ | ⟨hkind, rfl⟩
    · rw [hkind]
      cases hcaller : call.caller with
      | classRef name =>
        obtain rfl : isStatic = true := hstatic.mpr ⟨name, hcaller⟩
        rw [hcaller] at hinvoke
        exact hinvoke
      | _ =>
        obtain rfl : isStatic = false := by simpa [hcaller] using hstatic
        rw [hcaller] at hinvoke
        exact hinvoke
    · rw [hkind]
      exact hinvoke

/-! ## Instructions -/

variable {n n' : Nat}

theorem does_comparison (h : comparison n = .ok (code, n')) : Does e.unit [] code := by
  obtain ⟨rfl, rfl⟩ := Prod.mk.inj (Except.ok.inj h)
  exact .nil

theorem does_value {i : Instr} (h : e.value i n = .ok (code, n')) : Does e.unit i.events code := by
  cases i with
  | single o =>
    obtain ⟨hload, rfl⟩ := Emit.lift_eq_ok_iff.mp h
    exact does_load hload
  | binary op left right type =>
    obtain ⟨x, hx, h⟩ := Emit.lift_bind_eq_ok_iff.mp h
    obtain ⟨y, hy, h⟩ := Emit.lift_bind_eq_ok_iff.mp h
    have hcode : Does e.unit (left.events ++ right.events) (x ++ y) :=
      (does_load hx).append (does_load hy)
    cases ha : arithOf op with
    | some a =>
      rw [ha] at h
      obtain ⟨rfl, rfl⟩ := Emit.pure_eq_ok_iff.mp h
      exact hcode.append_other .nil
    | none =>
      rw [ha] at h
      obtain ⟨test, n₁, htest, h⟩ := Emit.bind_eq_ok_iff.mp h
      obtain ⟨rfl, rfl⟩ := Emit.pure_eq_ok_iff.mp h
      exact hcode.append_other (does_comparison htest)
  | not o type =>
    obtain ⟨x, hx, h⟩ := Emit.lift_bind_eq_ok_iff.mp h
    obtain ⟨rfl, rfl⟩ := Emit.pure_eq_ok_iff.mp h
    exact (does_load hx).append_other .nil
  | call call =>
    rw [Emitter.value] at h
    split at h
    · cases h
    · obtain ⟨hcall, rfl⟩ := Emit.lift_eq_ok_iff.mp h
      exact does_call hcall
  | getField object field type =>
    obtain ⟨x, hx, h⟩ := Emit.lift_bind_eq_ok_iff.mp h
    obtain ⟨owner, howner, h⟩ := Emit.lift_bind_eq_ok_iff.mp h
    obtain ⟨className, hclass, rfl⟩ := owner_eq_ok howner
    obtain ⟨rfl, rfl⟩ := Emit.pure_eq_ok_iff.mp h
    exact (does_load hx).append (.cons (.read hclass field type) .nil)
  | _ => cases h

/-- A fused assignment computes with a variable and a literal. -/
theorem events_of_increment? {target : Operand} {value : Instr} {slot : Nat} {step : Int32}
    (h : e.increment? target value = .ok (some (slot, step))) (type : Ollir.Ty) :
    (Instr.assign target type value).events = changes [⟨target.type, value.resultType⟩] := by
  rcases e.increment?_forms target value with
    hnone | ⟨form, x, k, t, rfl, rfl, _⟩ | ⟨form, x, k, t, t', _, rfl, rfl⟩
  · rw [hnone] at h
    cases h
  · cases form <;> rfl
  · cases form <;> rfl

theorem does_assign {target : Operand} {type : Ollir.Ty} {value : Instr}
    (h : e.assign target value n = .ok (code, n')) :
    Does e.unit (Instr.assign target type value).events code := by
  rcases Emitter.assign_eq_ok h with h | ⟨slot, step, hfused, rfl, rfl⟩
  · cases target with
    | var x t =>
      obtain ⟨slot, _, h⟩ := Emit.lift_bind_eq_ok_iff.mp h
      obtain ⟨valueCode, n₁, hvalue, h⟩ := Emit.bind_eq_ok_iff.mp h
      obtain ⟨rfl, rfl⟩ := Emit.pure_eq_ok_iff.mp h
      have hstore : Does e.unit [] [.op (.store (.ofTy t) slot) (-1)] := .nil
      exact ((does_value hvalue).append_other hstore).append_changes _
    | element x index t =>
      obtain ⟨slot, _, h⟩ := Emit.lift_bind_eq_ok_iff.mp h
      obtain ⟨position, hposition, h⟩ := Emit.lift_bind_eq_ok_iff.mp h
      obtain ⟨valueCode, n₁, hvalue, h⟩ := Emit.bind_eq_ok_iff.mp h
      obtain ⟨rfl, rfl⟩ := Emit.pure_eq_ok_iff.mp h
      have hload : Does e.unit [] [.op (.load .reference slot) 1] := .nil
      have hstore : Does e.unit [.array (.store t)] [.op (.arrayStore (.ofTy t)) (-3)] :=
        .cons (.array _) .nil
      exact ((hload.append (does_load hposition)).append (does_value hvalue)).append
        (hstore.append_changes _)
    | _ => cases h
  · rw [events_of_increment? hfused type]
    have hnone : Does e.unit [] [.op (.increment slot step) 0] := .nil
    exact hnone.append_changes _

theorem does_branch {test : Instr} {label : String}
    (h : e.branch test label n = .ok (code, n')) : Does e.unit test.events code := by
  rw [Emitter.branch.eq_def] at h
  split at h
  · obtain ⟨x, hx, h⟩ := Emit.lift_bind_eq_ok_iff.mp h
    obtain ⟨y, hy, h⟩ := Emit.lift_bind_eq_ok_iff.mp h
    obtain ⟨rfl, rfl⟩ := Emit.pure_eq_ok_iff.mp h
    exact ((does_load hx).append (does_load hy)).append_other .nil
  · obtain ⟨x, hx, h⟩ := Emit.lift_bind_eq_ok_iff.mp h
    obtain ⟨rfl, rfl⟩ := Emit.pure_eq_ok_iff.mp h
    exact (does_load hx).append_other .nil
  · obtain ⟨valueCode, n₁, hvalue, h⟩ := Emit.bind_eq_ok_iff.mp h
    obtain ⟨rfl, rfl⟩ := Emit.pure_eq_ok_iff.mp h
    exact (does_value hvalue).append_other .nil

/-- The code of an instruction carries out its events. -/
theorem does_instr {i : Instr} (h : e.instr i n = .ok (code, n')) : Does e.unit i.events code := by
  cases i with
  | assign target type value => exact does_assign h
  | branch test label =>
    have htest : Does e.unit test.events code := does_branch h
    exact htest
  | call call =>
    obtain ⟨callCode, hcall, h⟩ := Emit.lift_bind_eq_ok_iff.mp h
    obtain ⟨rfl, rfl⟩ := Emit.pure_eq_ok_iff.mp h
    split
    · exact does_call hcall
    · exact (does_call hcall).append_other .nil
  | putField object field type value =>
    obtain ⟨x, hx, h⟩ := Emit.lift_bind_eq_ok_iff.mp h
    obtain ⟨y, hy, h⟩ := Emit.lift_bind_eq_ok_iff.mp h
    obtain ⟨owner, howner, h⟩ := Emit.lift_bind_eq_ok_iff.mp h
    obtain ⟨className, hclass, rfl⟩ := owner_eq_ok howner
    obtain ⟨rfl, rfl⟩ := Emit.pure_eq_ok_iff.mp h
    exact (((does_load hx).append (does_load hy)).append_changes _).append
      (.cons (.write hclass field type) .nil)
  | goto label =>
    obtain ⟨rfl, rfl⟩ := Emit.pure_eq_ok_iff.mp h
    exact .nil
  | ret type value =>
    cases value with
    | none =>
      obtain ⟨rfl, rfl⟩ := Emit.pure_eq_ok_iff.mp h
      exact .nil
    | some o =>
      obtain ⟨x, hx, h⟩ := Emit.lift_bind_eq_ok_iff.mp h
      obtain ⟨rfl, rfl⟩ := Emit.pure_eq_ok_iff.mp h
      have hreturn : Does e.unit [] [.op (.ret (.ofTy type)) (-1)] := .nil
      exact ((does_load hx).append_other hreturn).append_changes _
  | _ =>
    obtain ⟨valueCode, n₁, hvalue, h⟩ := Emit.bind_eq_ok_iff.mp h
    obtain ⟨rfl, rfl⟩ := Emit.pure_eq_ok_iff.mp h
    exact (does_value hvalue).append_other .nil

/-- **The code of instructions carries out their events**, one after the other. -/
theorem does_items {items : List Item} (h : e.items items n = .ok (code, n')) :
    Does e.unit ((instrsOf items).flatMap Instr.events) code := by
  induction items generalizing n code with
  | nil =>
    obtain ⟨rfl, rfl⟩ := Emit.pure_eq_ok_iff.mp h
    exact does_nil
  | cons item items ih =>
    obtain ⟨first, n₁, hfirst, h⟩ := Emit.bind_eq_ok_iff.mp h
    obtain ⟨rest, n₂, hrest, h⟩ := Emit.bind_eq_ok_iff.mp h
    obtain ⟨rfl, rfl⟩ := Emit.pure_eq_ok_iff.mp h
    cases item with
    | label name =>
      obtain ⟨rfl, rfl⟩ := Emit.pure_eq_ok_iff.mp hfirst
      have hlabel : Does e.unit [] [.label name] := .nil
      exact hlabel.append (ih hrest)
    | instr i =>
      rw [Ollir.instrsOf_instr, List.flatMap_cons]
      exact (does_instr hfirst).append (ih hrest)

end Emitter

/-- **A method of a class that is emitted carries out its events**, in their order. -/
theorem does_assemble {unit : Ollir.Class} {fusion : Bool} {jc : Class}
    (h : unit.assemble fusion = .ok jc) {k : Nat} {m : Ollir.Method}
    (hm : unit.methods[k]? = some m) :
    ∃ jm, jc.methods[k]? = some jm
      ∧ List.Forall₂ (CarriesOut unit.assignSlots)
        ((m.instrs.flatMap Instr.events).filter Event.isAction)
        (jm.lines.filterMap Line.action?) := by
  obtain ⟨jm, n, n', steps, hjm, hsteps, hlines⟩ :=
    emitClass_getElem? h (Ollir.Class.getElem?_assignSlots hm)
  refine ⟨jm, hjm, ?_⟩
  have hdoes := Emitter.does_items hsteps
  rw [Ollir.Method.listing_assignSlots, Ollir.Method.instrsOf_listing] at hdoes
  rw [hlines]
  exact hdoes

/-- What is read off the events of a method, and off the lines that carry them out, corresponds one
to one. -/
theorem forall₂_assemble {unit : Ollir.Class} {fusion : Bool} {jc : Class}
    (h : unit.assemble fusion = .ok jc) {k : Nat} {m : Ollir.Method}
    (hm : unit.methods[k]? = some m) {α β : Type} {P : α → β → Prop} {f : Event → Option α}
    {g : Line → Option β}
    (hfg : ∀ event o, CarriesOut unit.assignSlots event o → Option.Rel P (f event) (g (.op o)))
    (hf : ∀ event, event.isAction = false → f event = none)
    (hg : ∀ line, line.action? = none → g line = none) :
    ∃ jm, jc.methods[k]? = some jm
      ∧ List.Forall₂ P ((m.instrs.flatMap Instr.events).filterMap f) (jm.lines.filterMap g) := by
  obtain ⟨jm, hjm, hdoes⟩ := does_assemble h hm
  have hevents : ∀ events : List Event,
      (events.filter Event.isAction).filterMap f = events.filterMap f := by
    intro events
    rw [List.filterMap_filter]
    refine List.filterMap_congr fun event _ ↦ ?_
    cases haction : event.isAction with
    | true => rfl
    | false => exact (hf event haction).symm
  have hlines : ∀ lines : List Line,
      (lines.filterMap Line.action?).filterMap (fun o ↦ g (.op o)) = lines.filterMap g := by
    intro lines
    rw [List.filterMap_filterMap]
    refine List.filterMap_congr fun line _ ↦ ?_
    cases line with
    | label name => exact (hg _ rfl).symm
    | op o =>
      rw [Line.action?]
      split
      · rfl
      · rename_i haction
        exact (hg (.op o) (if_neg haction)).symm
  refine ⟨jm, hjm, ?_⟩
  rw [← hevents, ← hlines]
  exact List.rel_filterMap (fun event o ho ↦ hfg event o ho) hdoes

end Jasmin
end Jmm
