import Jmm.Proofs.Emission.Locals
import Jmm.Proofs.Typing.FieldAccess

/-!
# The receiver in static methods

A static method has no receiver.  The analysis rejects `this` in it and assignments to fields, but
not the reading of fields, and a field is read from the receiver.

In a static method without violations all instructions are of the forms that use the receiver for
reads of fields only, so the instructions in which it occurs are those that access a field.  These
are the reads of the fields that the body names, one for one and in the order of the code
(`static_receiver_uses_are_field_reads`).  So the receiver does not occur if no field is read, and
slot 0 is then that of a variable in the assembly.  If a field is read, slot 0 is taken for the
receiver (`static_reads_receiver`).
-/

set_option autoImplicit false

namespace Jmm

namespace Ollir

/-! ## Uses of the receiver -/

theorem Operand.usesReceiver_of_isFormed {o : Operand} (h : o.isFormed false = true) :
    o.usesReceiver = false := by
  induction o with
  | receiver className => cases h
  | element array index type ih => exact ih h
  | _ => rfl

namespace Instr

/-- The receiver occurs in an instruction. -/
def usesReceiver (i : Instr) : Bool := i.operands.any Operand.usesReceiver

/-- The field of the receiver that an instruction stores in a variable. -/
def fieldRead? : Instr → Option String
  | assign (.var _ _) _ (.getField (.receiver _) field _) => some field
  | _ => none

variable {i : Instr} {returns : Ty}

theorem usesReceiver_of_isComputation (h : i.isComputation false = true) :
    i.usesReceiver = false ∧ i.access? = none := by
  cases i with
  | single o | not o => exact ⟨(Bool.or_false _).trans (Operand.usesReceiver_of_isFormed h), rfl⟩
  | binary op left right type =>
    obtain ⟨hleft, hright⟩ := Bool.and_eq_true_iff.mp (Bool.and_eq_true_iff.mp h).1
    refine ⟨Bool.or_eq_false_iff.mpr ⟨Operand.usesReceiver_of_isFormed hleft, ?_⟩, rfl⟩
    exact (Bool.or_false _).trans (Operand.usesReceiver_of_isFormed hright)
  | call c =>
    have hoperands := List.all_eq_true.mp (Bool.and_eq_true_iff.mp h).1
    refine ⟨List.any_eq_false.mpr fun o ho ↦ Bool.eq_false_iff.mp ?_, rfl⟩
    exact Operand.usesReceiver_of_isFormed (hoperands o ho)
  | _ => cases h

/-- Code that may not use the receiver as such reads fields of it, and stores them in variables. -/
theorem fieldRead?_of_isFormed (h : i.isFormed false returns = true) :
    i.usesReceiver = false ∧ i.access? = none
      ∨ i.usesReceiver = true ∧ ∃ access, i.access? = some access ∧ access.isWrite = false
        ∧ i.fieldRead? = some access.field := by
  cases i with
  | assign target type value =>
    cases target with
    | var name t =>
      rcases Bool.or_eq_true_iff.mp h with hvalue | hread
      · have hnone := usesReceiver_of_isComputation hvalue
        exact .inl hnone
      · cases value with
        | getField object field type =>
          cases object with
          | receiver className => exact .inr ⟨rfl, _, rfl, rfl, rfl⟩
          | _ => cases hread
        | _ => cases hread
    | element name index t =>
      obtain ⟨hindex, hvalue⟩ := Bool.and_eq_true_iff.mp h
      obtain ⟨hnone, haccess⟩ := usesReceiver_of_isComputation hvalue
      refine .inl ⟨Bool.or_eq_false_iff.mpr ⟨?_, hnone⟩, haccess⟩
      exact Operand.usesReceiver_of_isFormed hindex
    | _ => cases h
  | putField object field type value =>
    cases object with
    | receiver className => cases h
    | _ => cases h
  | branch test label =>
    have htest := usesReceiver_of_isComputation (i := test) h
    exact .inl htest
  | ret type value =>
    cases value with
    | none => exact .inl ⟨rfl, rfl⟩
    | some o =>
      have ho := Operand.usesReceiver_of_isFormed (Bool.and_eq_true_iff.mp h).2
      exact .inl ⟨(Bool.or_false _).trans ho, rfl⟩
  | call c =>
    have hcall := usesReceiver_of_isComputation (i := call c) h
    exact .inl hcall
  | goto label => exact .inl ⟨rfl, rfl⟩
  | _ => cases h

/-- The instructions in which the receiver occurs are those that access a field. -/
theorem map_fieldRead? {is : List Instr} (h : ∀ i ∈ is, i.isFormed false returns = true) :
    (is.filter usesReceiver).map fieldRead?
        = ((is.filterMap access?).map FieldAccess.field).map some
      ∧ ∀ access ∈ is.filterMap access?, access.isWrite = false := by
  induction is with
  | nil => exact ⟨rfl, fun _ h ↦ absurd h List.not_mem_nil⟩
  | cons i is ih =>
    obtain ⟨hi, his⟩ := List.forall_mem_cons.mp h
    obtain ⟨hfields, hreads⟩ := ih his
    rcases fieldRead?_of_isFormed hi with ⟨hnone, haccess⟩ | ⟨huses, access, haccess, hread, hfield⟩
    · rw [List.filter_cons_of_neg (Bool.eq_false_iff.mp hnone), List.filterMap_cons_none haccess]
      exact ⟨hfields, hreads⟩
    · rw [List.filter_cons_of_pos huses, List.filterMap_cons_some haccess, List.map_cons,
        List.map_cons, List.map_cons, hfields, hfield]
      exact ⟨rfl, List.forall_mem_cons.mpr ⟨hread, hreads⟩⟩

end Instr
end Ollir

/-! ## Names that are read -/

/-- The name of a use that reads it. -/
def NameUse.read? : NameUse → Option String
  | read name => some name
  | write _ => none

theorem Expr.filterMap_read_uses (e : Expr) : e.uses.filterMap NameUse.read? = e.names := by
  rw [uses, List.filterMap_map]
  exact List.filterMap_some

theorem Stmt.filterMap_read_stmts {sts : List Stmt}
    (ih : ∀ st ∈ sts, st.uses.filterMap NameUse.read? = st.names) :
    (usesAll sts).filterMap NameUse.read? = namesAll sts := by
  induction sts with
  | nil => rfl
  | cons st sts ihs =>
    obtain ⟨hfirst, hrest⟩ := List.forall_mem_cons.mp ih
    rw [usesAll, namesAll, List.filterMap_append, hfirst, ihs hrest]

/-- The names that a statement reads are its uses without the names that it assigns to. -/
theorem Stmt.filterMap_read_uses (st : Stmt) : st.uses.filterMap NameUse.read? = st.names := by
  induction st with
  | assign target value span =>
    have htarget : target.targetUses.filterMap NameUse.read? = target.targetNames := by
      rw [Expr.targetUses, List.filterMap_map]
      exact List.filterMap_some
    have hwrites : target.targetWrites.filterMap NameUse.read? = [] := by
      cases target <;> rfl
    rw [uses, names, List.filterMap_append, List.filterMap_append, htarget, hwrites,
      value.filterMap_read_uses, List.append_nil]
  | expr e span => exact e.filterMap_read_uses
  | ret value span =>
    cases value with
    | none => rfl
    | some e => exact e.filterMap_read_uses
  | cond test thenBranch elseBranch span iht ihe =>
    rw [uses, names, List.filterMap_append, List.filterMap_append, test.filterMap_read_uses,
      filterMap_read_stmts ihe, filterMap_read_stmts iht]
  | loop test body span ih =>
    rw [uses, names, List.filterMap_append, test.filterMap_read_uses, filterMap_read_stmts ih]

namespace Ollir.Lowerer

variable (l : Lowerer)

/-- Accesses that write nothing are to the fields among the names that are read. -/
theorem map_field_accesses {us : List NameUse}
    (h : ∀ access ∈ us.filterMap l.access?, access.isWrite = false) :
    (us.filterMap l.access?).map FieldAccess.field
      = (us.filterMap NameUse.read?).filter l.readsField := by
  induction us with
  | nil => rfl
  | cons u us ih =>
    cases u with
    | read name =>
      rw [List.filterMap_cons_some (f := NameUse.read?) rfl]
      by_cases hread : l.readsField name = true
      · have haccess : l.access? (.read name) = some _ := if_pos hread
        rw [List.filterMap_cons_some haccess] at h ⊢
        rw [List.filter_cons_of_pos hread, List.map_cons, ih (List.forall_mem_cons.mp h).2]
      · have haccess : l.access? (.read name) = none := if_neg hread
        rw [List.filterMap_cons_none haccess] at h ⊢
        rw [List.filter_cons_of_neg hread, ih h]
    | write name =>
      rw [List.filterMap_cons_none (f := NameUse.read?) rfl]
      by_cases hfield : l.scopes.isField name l.decl.name = true
      · have haccess : l.access? (.write name) = some _ := if_pos hfield
        rw [List.filterMap_cons_some haccess] at h
        cases (List.forall_mem_cons.mp h).1
      · have haccess : l.access? (.write name) = none := if_neg hfield
        rw [List.filterMap_cons_none haccess] at h ⊢
        exact ih h

/-- **The uses of the receiver in a static method** without violations are reads of the fields that
its body names. -/
theorem fieldReads_method (hstatic : l.decl.isStatic = true) (h : l.checker.body = [])
    (n : Names) :
    ((l.method n).1.instrs.filter Instr.usesReceiver).map Instr.fieldRead?
      = ((Stmt.namesAll l.decl.body).filter l.readsField).map some := by
  obtain ⟨hfields, hreads⟩ := Instr.map_fieldRead? (l.isFormed_method (.inr ⟨hstatic, h⟩) n)
  rw [l.accesses_method n] at hfields hreads
  rw [hfields, l.map_field_accesses hreads,
    Stmt.filterMap_read_stmts fun st _ ↦ st.filterMap_read_uses]

end Ollir.Lowerer

open Ollir

/-- **Static methods use the receiver to read fields, and for nothing else.**  Let a class have no
violation.  In the lowered code of a static method the instructions in which the receiver occurs, in
any position, store a field of the receiver in a variable.  The fields are those that the names in
the body mean, one by one.  So the receiver does not occur if and only if the body reads no field.
If it reads none, the assembly of the method names no slot but those of its parameters and
locals. -/
theorem static_receiver_uses_are_field_reads {imports : List ImportDecl} {c : ClassDecl}
    (hclean : (Analysis.ofClass imports c).hasErrors = false) {index : Nat} {d : MethodDecl}
    (hd : c.methods[index]? = some d) (hstatic : d.isStatic = true) :
    let a := Analysis.ofClass imports c
    let reads := (Stmt.namesAll d.body).filter (a.lowerer d).readsField
    ∃ m, (a.lower c).methods[index]? = some m ∧ m.isStatic = true
      ∧ (m.instrs.filter Instr.usesReceiver).map Instr.fieldRead? = reads.map some
      ∧ ((∀ i ∈ m.instrs, ∀ o ∈ i.operands, o.usesReceiver = false) ↔ reads = [])
      ∧ (reads = [] → ∀ fusion jc, (a.lower c).assemble fusion = .ok jc →
        ∃ jm, jc.methods[index]? = some jm
          ∧ ∀ s ∈ Jasmin.slotsOf jm.lines, ∃ x b, (m.table c.name).get? x = some b ∧ b.slot = s
            ∧ (b.scope = .parameter ∨ b.scope = .local)) := by
  intro a reads
  obtain ⟨n, hm⟩ := lowerMethods_getElem? a hd {}
  have huses : (((a.lowerer d).method n).1.instrs.filter Instr.usesReceiver).map Instr.fieldRead?
      = reads.map some :=
    (a.lowerer d).fieldReads_method hstatic
      (Analysis.body_eq_nil hclean (List.mem_of_getElem? hd)) n
  have hnone : (∀ i ∈ ((a.lowerer d).method n).1.instrs, ∀ o ∈ i.operands,
      o.usesReceiver = false) ↔ reads = [] := by
    rw [← List.map_eq_nil_iff (f := some), ← huses, List.map_eq_nil_iff, List.filter_eq_nil_iff]
    simp [Instr.usesReceiver]
  have hmethod : ((a.lowerer d).method n).1.isStatic = true :=
    ((a.lowerer d).isStatic_method n).trans hstatic
  refine ⟨_, hm, hmethod, huses, hnone, fun hreads fusion jc hjc ↦ ?_⟩
  obtain ⟨jm, hjm, hslots⟩ := Jasmin.slots_assemble hjc hm
  rw [Method.assignSlots, if_pos ((a.lowerer d).isEmpty_vars_method n)] at hslots
  refine ⟨jm, hjm, fun s hs ↦ ?_⟩
  rcases hslots s hs with ⟨x, b, hb, hslot⟩ | ⟨_, i, hi, o, ho, hreceiver⟩
  · exact ⟨x, b, hb, hslot, Method.scope_table_of_isStatic c.name hmethod hb⟩
  · exact absurd hreceiver (Bool.eq_false_iff.mp (hnone.mpr hreads i hi o ho))

/-- A class with a field `count` and a static method that adds `count` to its parameter, where the
given locals may hide the field. -/
def ClassDecl.counting (locals : List VarDecl) : ClassDecl :=
  { name := "Main", superclass := none
    fields := [{ name := "count", type := { name := "int" } }]
    methods := [
      { name := "next", isPublic := true, isStatic := true, returns := { name := "int" }
        params := [{ name := "n", type := { name := "int" } }], locals
        body := [.ret (some (.binary .add (.ident "count" {}) (.ident "n" {}) {})) {}] }] }

/-- The statement where a local hides the field: the receiver does not occur, and slot 0 in the
assembly is that of a variable. -/
theorem static_receiver_uses_of_hidden_field :
    let c := ClassDecl.counting [{ name := "count", type := { name := "int" } }]
    let a := Analysis.ofClass [] c
    a.hasErrors = false
      ∧ ∃ m, (a.lower c).methods[0]? = some m ∧ m.isStatic = true
        ∧ (∀ i ∈ m.instrs, ∀ o ∈ i.operands, o.usesReceiver = false)
        ∧ ∃ jc jm, (a.lower c).assemble true = .ok jc ∧ jc.methods[0]? = some jm
          ∧ 0 ∈ Jasmin.slotsOf jm.lines
          ∧ ∃ x b, (m.table c.name).get? x = some b ∧ b.slot = 0
            ∧ (b.scope = .parameter ∨ b.scope = .local) := by
  intro c a
  have hclean : a.hasErrors = false := by decide +kernel
  have hd : c.methods[0]? = c.methods.head? := rfl
  have hshape : ((a.lower c).assemble true).toOption.bind (fun jc ↦ jc.methods[0]?.map fun jm ↦
      decide (0 ∈ Jasmin.slotsOf jm.lines)) = some true := by decide +kernel
  obtain ⟨m, hm, hstatic, _, hiff, hslots⟩ := static_receiver_uses_are_field_reads hclean hd rfl
  have hnone := hiff.mpr (by decide +kernel)
  cases hjc : (a.lower c).assemble true with
  | error f =>
    rw [hjc] at hshape
    cases hshape
  | ok jc =>
    obtain ⟨jm, hjm, hbound⟩ := hslots (hiff.mp hnone) true jc hjc
    have hzero : 0 ∈ Jasmin.slotsOf jm.lines := by
      rw [hjc, Except.toOption, Option.bind_some, hjm] at hshape
      exact of_decide_eq_true (Option.some.inj hshape)
    exact ⟨hclean, m, hm, hstatic, hnone, jc, jm, rfl, hjm, hzero, hbound 0 hzero⟩

/-- Without the local the class has no violation either, but the static method reads the field of
its receiver.  The assembly loads the receiver from slot 0, which is the one of the parameter. -/
theorem static_reads_receiver :
    let c := ClassDecl.counting []
    let a := Analysis.ofClass [] c
    a.violations = []
      ∧ (a.lower c).methods.map (fun m ↦ (m.isStatic, m.instrs.filter Instr.usesReceiver))
        = [(true, [.assign (.var "tmp0" .int32) .int32
            (.getField (.receiver "Main") "count" .int32)])]
      ∧ ((a.lower c).assemble true).toOption.map (fun j ↦ j.methods.map fun m ↦ m.lines)
        = some [[.op (.load .reference 0), .op (.getField "Main" "count" .int),
            .op (.store .int 1), .op (.load .int 1), .op (.load .int 0), .op (.arith .add),
            .op (.store .int 2), .op (.load .int 2), .op (.ret .int)]] := by
  decide +kernel

end Jmm
