/-!
# Positions in a source file

A `Span` is the line and column at which a construct starts.  Both count from one; zero says that
the position is not known, which is what a construct made by hand carries.
-/

set_option autoImplicit false

namespace Jmm

/-- The line and column a construct starts at, `0:0` when unknown. -/
structure Span where
  line : Nat := 0
  column : Nat := 0
deriving DecidableEq, Repr, Inhabited

/-- A position as it is written in messages, `line:column`. -/
def Span.text (s : Span) : String := toString s.line ++ ":" ++ toString s.column

end Jmm
