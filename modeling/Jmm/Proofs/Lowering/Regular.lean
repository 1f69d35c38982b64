import Jmm.Proofs.Lowering.Structured

/-!
# Calls and returns in lowered code

The type of a lowered call tells whether the call leaves a value: constructors are called with type
`void` and without arguments, allocations and lengths never are of type `void`.  A value that is
given back has the return type of the method.  `Instr.IsRegular` says both of an instruction, and
every instruction of a lowered method is regular (`Lowerer.isRegular_method`).
-/

set_option autoImplicit false

namespace Jmm.Ollir

/-- The type of a call is `void` for a constructor, which takes no arguments, and not `void` for an
allocation or a length. -/
def Call.IsBalanced (c : Call) : Prop :=
  match c.kind with
  | .special => c.returns = .void ∧ c.args = []
  | .new => c.returns ≠ .void
  | .arrayLength => c.returns ≠ .void
  | _ => True

/-- The call in an instruction is balanced, and the value it gives back has the given type. -/
def Instr.IsRegular (returns : Ty) : Instr → Prop
  | assign _ _ value => value.IsRegular returns
  | branch test _ => test.IsRegular returns
  | call c => c.IsBalanced
  | ret type (some _) => type = returns
  | _ => True

/-- All instructions of code are regular. -/
def RegularCode (returns : Ty) (code : List Item) : Prop :=
  ∀ i ∈ instrsOf code, i.IsRegular returns

theorem Call.isBalanced_of_suitsKind {c : Call} (h : c.suitsKind = true) : c.IsBalanced := by
  rw [suitsKind] at h
  rw [IsBalanced]
  have hvoid : c.returns.isReference = true → c.returns ≠ .void := fun href heq ↦ by
    simp [heq, Ty.isReference] at href
  cases hkind : c.kind <;> rw [hkind] at h <;> simp_all

namespace Instr

variable {i : Instr} {returns : Ty} {this : Bool}

theorem isRegular_of_isComputation (h : i.isComputation this = true) : i.IsRegular returns := by
  cases i with
  | call c => exact Call.isBalanced_of_suitsKind (Call.suitsKind_of_isFormed h)
  | single | binary | not => trivial
  | _ => cases h

theorem isRegular_of_isFieldRead (h : i.isFieldRead = true) : i.IsRegular returns := by
  cases i with
  | getField => trivial
  | _ => cases h

/-- What has the form of lowered instructions is regular. -/
theorem isRegular_of_isFormed (h : i.isFormed this returns = true) : i.IsRegular returns := by
  cases i with
  | assign target type value =>
    cases target with
    | var name t =>
      exact (Bool.or_eq_true_iff.mp h).elim (fun h ↦ value.isRegular_of_isComputation h)
        fun h ↦ value.isRegular_of_isFieldRead h
    | element array index t =>
      exact value.isRegular_of_isComputation (Bool.and_eq_true_iff.mp h).2
    | _ => cases h
  | branch test label => exact test.isRegular_of_isComputation h
  | call c => exact Call.isBalanced_of_suitsKind (Call.suitsKind_of_isFormed h)
  | ret type value =>
    cases value with
    | none => trivial
    | some o =>
      have htype : type = returns := of_decide_eq_true (Bool.and_eq_true_iff.mp h).1
      exact htype
  | _ => trivial

end Instr

/-- **Every instruction of a lowered method is regular.** -/
theorem Lowerer.isRegular_method (l : Lowerer) (n : Names) {i : Instr}
    (hi : i ∈ (l.method n).1.instrs) : i.IsRegular (l.method n).1.returns := by
  rw [l.returns_method]
  exact Instr.isRegular_of_isFormed (l.isFormed_method (l.allows_true _) n i hi)

end Jmm.Ollir
