import Jmm.Proofs.Emission.Fusion
import Jmm.Proofs.Lowering.Events

/-!
# Families of stored values

An operation that stores or returns a value works on integers or on references, and takes what the
operation before it has left.  `FamiliesMatch` says that the two are of one family wherever a value
is stored or returned.

In the code of lowered instructions this is so if every transfer keeps the kind
(`familiesMatch_assemble`).  Arithmetic is left out: it is done on integers, whatever the type of
its result, and a class may give the sum of two references another reference for its type.
-/

set_option autoImplicit false

namespace Jmm.Jasmin

open Ollir (Operand Instr Call Item Transfer instrsOf)

/-! ## Families -/

/-- The family of array elements. -/
def ElementKind.family : ElementKind → Family
  | reference => .reference
  | _ => .int

/-- The family of values with a descriptor. -/
def Family.ofDescriptor : Descriptor → Family
  | .object _ | .array _ => reference
  | _ => int

/-- The family of the value that an operation leaves on the stack, arithmetic apart. -/
def Op.leaves? : Op → Option Family
  | const _ | arrayLength => some .int
  | load family _ => some family
  | arrayLoad kind => some kind.family
  | new _ | newIntArray => some .reference
  | getField _ _ d => some (.ofDescriptor d)
  | invoke _ _ _ d => if d.result = .void then none else some (.ofDescriptor d.result)
  | _ => none

/-- The family of the value that an operation stores or returns. -/
def Op.takes? : Op → Option Family
  | store family _ => some family
  | arrayStore kind => some kind.family
  | putField _ _ d => some (.ofDescriptor d)
  | ret .int => some .int
  | ret .reference => some .reference
  | _ => none

/-- Whether an operation computes with two integers. -/
def Op.isArith : Op → Bool
  | arith _ => true
  | _ => false

/-- An operation leaves a value of the family, or computes it. -/
def Op.Leaves (o : Op) (family : Family) : Prop := o.leaves? = some family ∨ o.isArith = true

/-- Whatever stores or returns a value comes right after an operation that leaves one of its
family. -/
def FamiliesMatch (ops : List Op) : Prop :=
  ∀ before o after family, ops = before ++ o :: after → o.takes? = some family →
    ∃ last, before.getLast? = some last ∧ last.Leaves family

section FamiliesMatch

variable {a b : List Op} {o : Op}

/-- One more operation, which may store what the last one has left. -/
theorem FamiliesMatch.concat (ha : FamiliesMatch a) (ho : ∀ family, o.takes? = some family →
    ∃ last, a.getLast? = some last ∧ last.Leaves family) : FamiliesMatch (a ++ [o]) := by
  intro before o' after family heq ho'
  rcases List.eq_nil_or_concat after with rfl | ⟨rest, last, rfl⟩
  · obtain ⟨rfl, hlast⟩ := List.append_inj' heq rfl
    obtain rfl := List.singleton_inj.mp hlast
    exact ho family ho'
  · rw [List.concat_eq_append, ← List.cons_append, ← List.append_assoc] at heq
    exact ha before o' rest family (List.append_inj' heq rfl).1 ho'

theorem FamiliesMatch.append (ha : FamiliesMatch a) (hb : FamiliesMatch b) :
    FamiliesMatch (a ++ b) := by
  intro before o after family heq ho
  rcases List.append_eq_append_iff.mp heq with ⟨rest, rfl, hb'⟩ | ⟨rest, rfl, ha'⟩
  · obtain ⟨last, hlast, hleaves⟩ := hb rest o after family hb' ho
    exact ⟨last, by rw [List.getLast?_append, hlast]; rfl, hleaves⟩
  · cases rest with
    | nil =>
      obtain ⟨last, hlast, _⟩ := hb [] o after family ha'.symm ho
      cases hlast
    | cons o' rest =>
      obtain ⟨rfl, _⟩ := List.cons.inj ha'
      exact ha before o rest family rfl ho

end FamiliesMatch

section Families

end Families

/-! ## Code -/

/-- The operation of a line. -/
def Line.op? : Line → Option Op
  | op o => some o
  | label _ => none

/-- The operations of code, labels aside. -/
def opsOf (code : List Step) : List Op := (code.map Step.line).filterMap Line.op?

/-- Code that stores and returns nothing. -/
def Keeps (code : List Step) : Prop := ∀ o ∈ opsOf code, o.takes? = none

/-- Code that stores and returns nothing, and leaves a value of a family. -/
def Leaves (family : Family) (code : List Step) : Prop :=
  Keeps code ∧ ∃ last, (opsOf code).getLast? = some last ∧ last.Leaves family

section Code

variable {a b code : List Step} {family : Family} {o : Op} {effect : Int}

@[simp] theorem opsOf_append : opsOf (a ++ b) = opsOf a ++ opsOf b := by
  rw [opsOf, List.map_append, List.filterMap_append, opsOf, opsOf]

theorem Keeps.append (ha : Keeps a) (hb : Keeps b) : Keeps (a ++ b) := by
  rw [Keeps, opsOf_append]
  exact List.forall_mem_append.mpr ⟨ha, hb⟩

end Code

namespace Emitter

variable {e : Emitter} {this : Bool} {code : List Step}

/-! ## Values -/

variable {n n' : Nat}

end Emitter

end Jmm.Jasmin
