import Jmm.Proofs.Emission.Events
import Jmm.Proofs.Lowering.Arrays

/-!
# The array operations of emitted code

Among the events of a method emission carries out its operations on arrays, one by one.  An element
is read and written by the operation for its type.  An array however is allocated as one of
integers, whatever its type, so the operations on one array need not fit together
(`packed_array_is_of_ints`).

With the operations of lowered code this gives those of an emitted method, read off the body of the
method in the source (`array_operations_of_body`).
-/

set_option autoImplicit false

namespace Jmm.Jasmin

open Ollir (Instr Event)

/-- Whether an operation allocates an array, or reads or writes an element. -/
def Op.isArrayOp : Op → Bool
  | newIntArray => true
  | arrayLoad _ => true
  | arrayStore _ => true
  | _ => false

/-- The array operation on a line. -/
def Line.arrayOp? : Line → Option Op
  | op o => if o.isArrayOp then some o else none
  | label _ => none

/-- The array operations in a method of a class that is emitted. -/
theorem arrayOps_assemble {unit : Ollir.Class} {fusion : Bool} {jc : Class}
    (h : unit.assemble fusion = .ok jc) {k : Nat} {m : Ollir.Method}
    (hm : unit.methods[k]? = some m) :
    ∃ jm, jc.methods[k]? = some jm
      ∧ jm.lines.filterMap Line.arrayOp? = (m.instrs.flatMap Instr.arrayOps).map Op.ofArrayOp := by
  have hcarried : ∀ event o, CarriesOut unit.assignSlots event o →
      Option.Rel (fun op o ↦ Op.ofArrayOp op = o) event.array? (Line.arrayOp? (.op o)) := by
    intro event o ho
    cases ho with
    | array op => cases op <;> exact .some rfl
    | call | read | write => exact .none
  have hevents : ∀ event : Event, event.isAction = false → event.array? = none := by
    intro event hevent
    cases event with
    | change t => rfl
    | _ => cases hevent
  have hothers : ∀ line : Line, line.action? = none → line.arrayOp? = none := by
    intro line hline
    cases line with
    | label name => rfl
    | op o =>
      cases o with
      | newIntArray | arrayLoad | arrayStore => cases hline
      | _ => rfl
  obtain ⟨jm, hjm, hlines⟩ := forall₂_assemble h hm hcarried hevents hothers
  refine ⟨jm, hjm, ?_⟩
  rw [List.filterMap_flatMap, funext Instr.filterMap_array_events] at hlines
  rw [← List.forall₂_map_left_iff, List.forall₂_eq_eq_eq] at hlines
  exact hlines.symm

end Jmm.Jasmin

namespace Jmm

open Ollir Jasmin

/-- **The array operations of a method**, lowered and emitted, are those that its body asks for, in
their order and with their types.  An array has the type that an expression of the body gives it:
arguments packed for a vararg go into an array of its element type, all other arrays are of
integers, but that an object of a class named `array` is taken for one.  The emitted code allocates
every array as one of integers, and reads and writes elements by their types.  The class need not
pass the checks. -/
theorem array_operations_of_body (a : Analysis) (cls : ClassDecl) {index : Nat} {d : MethodDecl}
    (hd : cls.methods[index]? = some d) :
    ∃ m, (a.lower cls).methods[index]? = some m
      ∧ m.instrs.flatMap Instr.arrayOps = (a.lowerer d).bodyArrayOps d.body
      ∧ (∀ c ∈ m.instrs.filterMap Instr.call?, c.isNewArray = true →
          ∃ e ∈ Stmt.exprParts d.body, (a.lowerer d).allocated? e = some c.returns)
      ∧ ∀ fusion jc, (a.lower cls).assemble fusion = .ok jc →
          ∃ jm, jc.methods[index]? = some jm
            ∧ jm.lines.filterMap Line.arrayOp?
              = ((a.lowerer d).bodyArrayOps d.body).map Op.ofArrayOp := by
  obtain ⟨n, hm⟩ := lowerMethods_getElem? a hd {}
  have hops : ((a.lowerer d).method n).1.instrs.flatMap Instr.arrayOps
      = (a.lowerer d).bodyArrayOps d.body := (a.lowerer d).arrayOps_method n
  refine ⟨_, hm, hops, fun c hc hnew ↦ ?_, fun fusion jc hjc ↦ ?_⟩
  · obtain ⟨i, hi, hcall⟩ := List.mem_filterMap.mp hc
    have hallocate : .allocate c.returns ∈ i.arrayOps :=
      Instr.allocate_mem_arrayOps.mpr ⟨c, hcall, hnew, rfl⟩
    exact (a.lowerer d).exists_allocated (hops ▸ List.mem_flatMap.mpr ⟨i, hi, hallocate⟩)
  · obtain ⟨jm, hjm, hlines⟩ := arrayOps_assemble hjc hm
    exact ⟨jm, hjm, hops ▸ hlines⟩

/-- The statement for `v = new int[this.size(true)]; return v[0];` in a class with a method
`int size(boolean... b)`: of the two arrays that are allocated one is not of integers. -/
theorem array_operations_of_body_packed :
    let int : TypeName := { name := "int" }
    let size : MethodDecl :=
      { name := "size", isPublic := true, isStatic := false, returns := int
        params := [{ name := "b", type := { name := "boolean", isVararg := true } }]
        locals := [], body := [.ret (some (.int 1 {})) {}] }
    let call : Expr := .call (.self {}) "size" [.bool true {}] {}
    let run : MethodDecl :=
      { name := "run", isPublic := true, isStatic := false, returns := int, params := []
        locals := [{ name := "v", type := { name := "int", isArray := true } }]
        body := [.assign (.ident "v" {}) (.newArray "int" call {}) {},
          .ret (some (.index (.ident "v" {}) (.int 0 {}) {})) {}] }
    let cls : ClassDecl :=
      { name := "Main", superclass := none, fields := [], methods := [size, run] }
    let a := Analysis.ofClass [] cls
    a.violations = []
      ∧ (∃ m : Ollir.Method, (a.lower cls).methods[1]? = some m
        ∧ m.instrs.flatMap Instr.arrayOps
          = [.allocate (.array .boolean), .store .boolean, .allocate (.array .int32),
              .load .int32])
      ∧ ∃ jc : Jasmin.Class, (a.lower cls).assemble true = .ok jc
        ∧ ∃ jm : Jasmin.Method, jc.methods[1]? = some jm
        ∧ jm.lines.filterMap Line.arrayOp?
          = [.newIntArray, .arrayStore .boolean, .newIntArray, .arrayLoad .int] := by
  intro int size call run cls a
  have hops : (a.lowerer run).bodyArrayOps run.body
      = [.allocate (.array .boolean), .store .boolean, .allocate (.array .int32),
          .load .int32] := by
    decide +kernel
  obtain ⟨m, hm, hinstrs, _, hemit⟩ :=
    array_operations_of_body a cls (show cls.methods[1]? = some run from rfl)
  refine ⟨by decide +kernel, ⟨m, hm, hinstrs.trans hops⟩, ?_⟩
  have hok : ((a.lower cls).assemble true).isOk = true := by decide +kernel
  cases hjc : (a.lower cls).assemble true with
  | error fault =>
    rw [hjc] at hok
    cases hok
  | ok jc =>
    obtain ⟨jm, hjm, hlines⟩ := hemit true jc hjc
    rw [hops] at hlines
    exact ⟨jc, rfl, jm, hjm, hlines⟩

/-- For `return this.all(true, false);` with a method `boolean all(boolean... b)` an array of truth
values is allocated as one of integers and filled with truth values. -/
theorem packed_array_is_of_ints :
    let all : MethodDecl :=
      { name := "all", isPublic := true, isStatic := false, returns := { name := "boolean" }
        params := [{ name := "b", type := { name := "boolean", isVararg := true } }]
        locals := [], body := [.ret (some (.index (.ident "b" {}) (.int 0 {}) {})) {}] }
    let call : Expr := .call (.self {}) "all" [.bool true {}, .bool false {}] {}
    let run : MethodDecl :=
      { name := "run", isPublic := true, isStatic := false, returns := { name := "boolean" }
        params := [], locals := [], body := [.ret (some call) {}] }
    let cls : ClassDecl :=
      { name := "Main", superclass := none, fields := [], methods := [all, run] }
    let a := Analysis.ofClass [] cls
    a.violations = []
      ∧ (∃ m ∈ (a.lower cls).methods, ∃ c ∈ m.instrs.filterMap Instr.call?,
          c.isNewArray = true ∧ c.returns ≠ Ollir.Ty.intArray)
      ∧ ((a.lower cls).assemble true).toOption.map
          (fun jc ↦ jc.methods.map fun jm ↦ jm.lines.filterMap Line.arrayOp?)
        = some [[.arrayLoad .boolean],
            [.newIntArray, .arrayStore .boolean, .arrayStore .boolean]] := by
  decide +kernel

end Jmm
