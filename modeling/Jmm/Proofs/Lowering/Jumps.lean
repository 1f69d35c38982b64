import Jmm.Proofs.Lowering.Statements
import Jmm.Proofs.Lowering.Structured

/-!
# Jumps of lowered methods

Where lowering makes a jump it also places the label, in the same piece of code, so that code never
jumps out of itself (`Closed`).  Values do not jump at all, so they can be moved to where they are
used, twice in the case of a loop.  For expressions this is a matter of their shape
(`Structured.closed`).

Every label is drawn from counters that run through the whole class.  Hence all labels of a class
are different (`labelsIn_lowerMethods`), and a label that an instruction names is placed once, in
the method of that instruction (`Lowerer.isClosed_method`).
-/

set_option autoImplicit false

namespace Jmm.Ollir

/-- The labels that an instruction, or one inside it, names. -/
def Instr.jumps : Instr → List String
  | assign _ _ value => value.jumps
  | branch test label => label :: test.jumps
  | goto label => [label]
  | _ => []

/-- The labels that the instructions of code name. -/
abbrev jumpsOf (code : List Item) : List String := gather Instr.jumps code

/-! ## Closed code -/

/-- Every label that is named in code stands in it. -/
def Closed (code : List Item) : Prop := jumpsOf code ⊆ labelsOf code

section Closed

variable {a b code : List Item} {value : Instr} {this : Bool}

theorem closed_nil : Closed [] := List.Subset.refl _

theorem Closed.append (ha : Closed a) (hb : Closed b) : Closed (a ++ b) := by
  rw [Closed, jumpsOf, gather_append, labelsOf_append]
  exact List.append_subset.mpr ⟨List.subset_append_of_subset_left _ ha,
    List.subset_append_of_subset_right _ hb⟩

/-- Instructions that do not jump are closed. -/
theorem closed_instr {i : Instr} (h : i.jumps = []) : Closed [.instr i] := by
  rw [Closed, jumpsOf, gather_instr, h]
  exact List.nil_subset _

theorem closed_diamond (hvalue : value.jumps = []) (trueLabel endLabel : String) (ha : Closed a)
    (hb : Closed b) : Closed (diamond value trueLabel endLabel a b) := by
  intro z hz
  simp only [diamond, gather_instr, gather_append, gather_label, gather_nil, Instr.jumps, hvalue,
    labelsOf_instr, labelsOf_append, labelsOf_label, labelsOf_nil, List.mem_append,
    List.mem_cons, List.not_mem_nil, or_false] at hz ⊢
  rcases hz with hz | hz | hz | hz
  · exact .inr (.inl hz)
  · exact .inl (ha hz)
  · exact .inr (.inr (.inr hz))
  · exact .inr (.inr (.inl (hb hz)))

theorem Instr.jumps_of_isComputation {i : Instr} (h : i.isComputation this = true) :
    i.jumps = [] := by
  cases i with
  | single | binary | not | call => rfl
  | _ => cases h

theorem Instr.jumps_of_isStraight {i : Instr} (h : i.isStraight this = true) : i.jumps = [] := by
  cases i with
  | assign target t value =>
    cases value with
    | branch | goto | ret | assign => cases target <;> cases h
    | _ => rfl
  | branch | goto | ret => cases h
  | _ => rfl

theorem Structured.closed {arrays : List String} (h : Structured this arrays code) :
    Closed code := by
  induction h with
  | nil => exact closed_nil
  | instr hi => exact closed_instr (Instr.jumps_of_isStraight hi)
  | append _ _ iha ihb => exact iha.append ihb
  | diamond htest _ _ iha ihb =>
    exact closed_diamond (Instr.jumps_of_isComputation htest) _ _ iha ihb
  | store _ _ hvalue =>
    have hjumps := Instr.jumps_of_isComputation hvalue
    exact closed_instr hjumps
  | fill hvalue _ ih =>
    exact (closed_instr (Instr.jumps_of_isStraight
      (Instr.isStraight_assign (.inl hvalue) _ _))).append ih

end Closed

/-! ## Statements -/

namespace Lowerer

variable (l : Lowerer)

theorem closed_stmts {sts : List Stmt} (ih : ∀ st ∈ sts, ∀ n, Closed (l.stmt st n).1) (n : Names) :
    Closed (l.stmts sts n).1 := by
  induction sts generalizing n with
  | nil => exact closed_nil
  | cons st sts ihs =>
    rw [Lowerer.stmts]
    exact (ih st List.mem_cons_self n).append
      (ihs (fun st' h ↦ ih st' (List.mem_cons_of_mem st h)) _)

/-- The code of a statement is closed. -/
theorem closed_stmt (st : Stmt) : ∀ n, Closed (l.stmt st n).1 := by
  induction st with
  | assign target value span =>
    intro n
    obtain ⟨_, hcode⟩ :=
      l.structured_assign (l.allows_true (l.checker.stmt (.assign target value span))) n
    exact hcode.closed
  | expr e span => exact fun n ↦ (l.structured_exprStmt (l.allows_true (l.checker.expr e)) n).closed
  | ret value span =>
    intro n
    cases value with
    | none => exact closed_instr rfl
    | some e =>
      have hvalue := structured_asOperand (l.structured_expr e (l.allows_true _) [] .operand) n
      exact hvalue.1.closed.append (closed_instr rfl)
  | cond test thenBranch elseBranch span iht ihe =>
    intro n
    obtain ⟨bodyLabel, endLabel, n₁, n₂, n₃, heq⟩ := l.stmt_cond test thenBranch elseBranch span n
    obtain ⟨hcode, hvalue⟩ := l.structured_expr test (l.allows_true _) [] .condition n₁
    rw [heq]
    exact hcode.closed.append (closed_diamond (Instr.jumps_of_isComputation hvalue) _ _
      (l.closed_stmts ihe n₂) (l.closed_stmts iht n₃))
  | loop test body span ih =>
    intro n
    obtain ⟨bodyLabel, endLabel, n₁, heq⟩ := l.stmt_loop test body span n
    obtain ⟨hcode, hvalue⟩ := l.structured_expr test (l.allows_true _) [] .condition n
    have hjumps := Instr.jumps_of_isComputation hvalue
    have hbody := l.closed_stmts ih n₁
    rw [heq]
    refine hcode.closed.append fun z hz ↦ ?_
    simp only [gather_instr, gather_append, gather_label, gather_nil, Instr.jumps, hjumps,
      labelsOf_instr, labelsOf_append, labelsOf_label, labelsOf_nil, List.mem_append,
      List.mem_cons, List.not_mem_nil, or_false] at hz ⊢
    rcases hz with hz | hz | hz | hz
    · exact .inl hz
    · exact .inr (.inr hz)
    · exact .inr (.inl (hbody hz))
    · exact .inl hz

/-! ## Methods -/

theorem closed_code (n : Names) : Closed (l.code n) := by
  refine (l.closed_stmts (fun st _ ↦ l.closed_stmt st) n).append ?_
  cases l.decl.hasReturn with
  | true => exact closed_nil
  | false => exact closed_instr rfl

end Lowerer

/-- The labels of a method. -/
def Method.labelNames (m : Method) : List String := m.labels.map Prod.fst

/-- Every label that is named in a method is placed in it once, before an instruction or at its
end. -/
def Method.IsClosed (m : Method) : Prop :=
  ∀ i ∈ m.instrs, ∀ x ∈ i.jumps,
    m.labelNames.count x = 1 ∧ ∃ pc ≤ m.instrs.length, (x, pc) ∈ m.labels

namespace Lowerer

variable (l : Lowerer)

theorem labelNames_method (n : Names) : (l.method n).1.labelNames = labelsOf (l.code n) := by
  rw [Method.labelNames, labels_method, map_fst_positions]

/-- The labels of a method are new and different. -/
theorem labelsIn_method (n : Names) : LabelsIn n (l.method n).2 (l.method n).1.labelNames := by
  rw [labelNames_method, labelsOf_code]
  exact (l.newLabels_stmts (fun st _ ↦ l.newLabels_stmt st) n).labels

theorem le_method (n : Names) : n ≤ (l.method n).2 :=
  (l.newLabels_stmts (fun st _ ↦ l.newLabels_stmt st) n).le

/-- **Every jump in a lowered method leads to the one place of its label.** -/
theorem isClosed_method (n : Names) : (l.method n).1.IsClosed := by
  intro i hi x hx
  have hjump : x ∈ jumpsOf (l.code n) := by
    rw [instrs_method] at hi
    exact List.mem_flatMap.mpr ⟨i, hi, hx⟩
  have hmem : x ∈ (l.method n).1.labelNames := by
    rw [labelNames_method]
    exact l.closed_code n hjump
  refine ⟨List.count_eq_one_of_mem (l.labelsIn_method n).1 hmem, ?_⟩
  obtain ⟨⟨y, pc⟩, hlabel, rfl⟩ := List.mem_map.mp hmem
  refine ⟨pc, ?_, hlabel⟩
  rw [labels_method] at hlabel
  have hle := (le_of_mem_positions hlabel).2
  rw [instrs_method]
  rwa [Nat.zero_add] at hle

end Lowerer

/-! ## Classes -/

theorem le_lowerMethods (a : Analysis) (ds : List MethodDecl) (n : Names) :
    n ≤ (lowerMethods a ds n).2 := by
  induction ds generalizing n with
  | nil => exact le_refl n
  | cons d ds ih => exact (Lowerer.le_method (a.lowerer d) n).trans (ih _)

/-- **All labels of a class are different.** -/
theorem labelsIn_lowerMethods (a : Analysis) (ds : List MethodDecl) (n : Names) :
    LabelsIn n (lowerMethods a ds n).2 ((lowerMethods a ds n).1.flatMap Method.labelNames) := by
  induction ds generalizing n with
  | nil => exact LabelsIn.nil n n
  | cons d ds ih =>
    exact (Lowerer.labelsIn_method (a.lowerer d) n).append (ih _)
      (Lowerer.le_method (a.lowerer d) n) (le_lowerMethods a ds _)

end Jmm.Ollir
