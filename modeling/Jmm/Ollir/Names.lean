/-!
# Generated names

The names that lowering makes up: temporaries, arrays for packed arguments, and labels.  There are
eight kinds of them, each counted on its own from zero, and a name is the stem of its kind followed
by the count.
-/

set_option autoImplicit false

namespace Jmm.Ollir

/-- The kinds of generated name. -/
inductive NameKind where
  | temp
  | varargsArray
  | trueLabel
  | endLabel
  | ifBody
  | endIf
  | whileBody
  | endWhile
deriving DecidableEq, Repr, Inhabited

namespace NameKind

/-- Every kind. -/
def all : List NameKind :=
  [temp, varargsArray, trueLabel, endLabel, ifBody, endIf, whileBody, endWhile]

/-- The text all names of a kind start with. -/
def stem : NameKind → String
  | temp => "tmp"
  | varargsArray => "__varargs_array_"
  | trueLabel => "true_"
  | endLabel => "end_"
  | ifBody => "ifbody_"
  | endIf => "endif_"
  | whileBody => "whilebody_"
  | endWhile => "endwhile_"

/-- The name of a kind with the given count. -/
def name (k : NameKind) (count : Nat) : String := k.stem ++ toString count

end NameKind

/-- How many names of each kind have been drawn. -/
structure Names where
  temp : Nat := 0
  varargsArray : Nat := 0
  trueLabel : Nat := 0
  endLabel : Nat := 0
  ifBody : Nat := 0
  endIf : Nat := 0
  whileBody : Nat := 0
  endWhile : Nat := 0
deriving DecidableEq, Repr, Inhabited

namespace Names

/-- How many names of a kind have been drawn. -/
def count (n : Names) : NameKind → Nat
  | .temp => n.temp
  | .varargsArray => n.varargsArray
  | .trueLabel => n.trueLabel
  | .endLabel => n.endLabel
  | .ifBody => n.ifBody
  | .endIf => n.endIf
  | .whileBody => n.whileBody
  | .endWhile => n.endWhile

/-- The counts after one more name of a kind. -/
def bump (n : Names) : NameKind → Names
  | .temp => { n with temp := n.temp + 1 }
  | .varargsArray => { n with varargsArray := n.varargsArray + 1 }
  | .trueLabel => { n with trueLabel := n.trueLabel + 1 }
  | .endLabel => { n with endLabel := n.endLabel + 1 }
  | .ifBody => { n with ifBody := n.ifBody + 1 }
  | .endIf => { n with endIf := n.endIf + 1 }
  | .whileBody => { n with whileBody := n.whileBody + 1 }
  | .endWhile => { n with endWhile := n.endWhile + 1 }

@[simp]
theorem count_bump (n : Names) (k j : NameKind) :
    (n.bump k).count j = if j = k then n.count k + 1 else n.count j := by
  cases k <;> cases j <;> rfl

end Names

/-- A computation that draws names. -/
abbrev Draw := StateM Names

/-- The next name of a kind. -/
def draw (k : NameKind) : Draw String := fun n ↦ (k.name (n.count k), n.bump k)

end Jmm.Ollir
