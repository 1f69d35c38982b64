/-!
# Styled text

Text with changes of colour and weight in between.  `plain` leaves the changes out and `ansi`
writes them as the escape sequences of a terminal; a new style always starts from the plain one.
-/

set_option autoImplicit false

namespace Jmm.Text

/-- The colours in use. -/
inductive Color where
  | red
  | green
  | yellow
  | blue
deriving DecidableEq, Repr, Inhabited

/-- The number of a colour among the eight basic ones. -/
def Color.index : Color → Nat
  | red => 1
  | green => 2
  | yellow => 3
  | blue => 4

/-- A style of text. -/
structure Style where
  color : Option Color := none
  bold : Bool := false
  intense : Bool := false
deriving DecidableEq, Repr, Inhabited

/-- The start of every escape sequence. -/
def escape : String := "\x1b["

/-- The sequence that goes back to plain text. -/
def resetCode : String := escape ++ "0m"

/-- The sequence of a colour, in its bright form if `intense` is set. -/
def Color.code (c : Color) (intense : Bool) : String :=
  if intense then escape ++ "38;5;" ++ toString (c.index + 8) ++ "m"
  else escape ++ "3" ++ toString c.index ++ "m"

/-- The sequence of a style. -/
def Style.code (s : Style) : String :=
  resetCode ++ (if s.bold then escape ++ "1m" else "")
    ++ match s.color with
      | some c => c.code s.intense
      | none => ""

/-- A piece of styled text. -/
inductive Chunk where
  | text (s : String)
  | style (s : Style)
  | reset
deriving DecidableEq, Repr, Inhabited

/-- A piece without its styles. -/
def Chunk.plain : Chunk → String
  | text s => s
  | style _ => ""
  | reset => ""

/-- A piece with its styles as escape sequences. -/
def Chunk.ansi : Chunk → String
  | text s => s
  | style s => s.code
  | reset => resetCode

/-- Styled text. -/
abbrev Styled := List Chunk

namespace Styled

/-- Text in one style, and back to plain. -/
def inStyle (s : Style) (t : String) : Styled := [.style s, .text t, .reset]

/-- The text without styles. -/
def plain (t : Styled) : String := String.join (t.map Chunk.plain)

/-- The text with styles as escape sequences. -/
def ansi (t : Styled) : String := String.join (t.map Chunk.ansi)

/-- The text with styles or without. -/
def render (color : Bool) (t : Styled) : String := if color then t.ansi else t.plain

end Styled
end Jmm.Text
