import Jmm.Report.Diagnostic
import Jmm.Report.SourceText
import Jmm.Text.Blank
import Jmm.Text.Styled

/-!
# Annotated reports

A report together with the line of the source it points at and a caret under the place.  A label
that covers the newline of its line ends at the first column of the next line; it is drawn as a
bracket in the margin that joins both lines.
-/

set_option autoImplicit false

namespace Jmm.Report

open Text (Chunk Style Styled Cell)

/-! ## Styles -/

/-- The colour of a severity. -/
def severityColor : Severity → Text.Color
  | .error => .red
  | .warning => .yellow

/-- The style of the severity and code in the header. -/
def headerStyle (s : Severity) : Style := ⟨some (severityColor s), true, true⟩

/-- The style of the message in the header. -/
def messageStyle : Style := ⟨none, true, true⟩

/-- The style of carets, brackets and the marked text. -/
def labelStyle (s : Severity) : Style := ⟨some (severityColor s), false, false⟩

/-- The style of line numbers and of the border. -/
def marginStyle : Style := ⟨some .blue, false, false⟩

/-! ## Margins -/

/-- Blanks. -/
def blanks (n : Nat) : String := String.ofList (List.replicate n ' ')

/-- The left margin without a line number. -/
def gutter (padding : Nat) : Styled := [.text (blanks padding ++ " ")]

/-- The left margin with a line number. -/
def numberGutter (padding number : Nat) : Styled :=
  let digits := toString number
  [.style marginStyle, .text (blanks (padding - digits.length) ++ digits), .reset, .text " "]

/-- The border between margin and text. -/
def border : Styled := Styled.inStyle marginStyle "│"

/-- A new line. -/
def newline : Styled := [.text "\n"]

/-! ## Lines of text -/

/-- A character as shown: a tab as the blanks it takes. -/
def shownCell (c : Cell) : String :=
  if c.char = '\t' then blanks c.columns else String.singleton c.char

/-- The cells of a line, those that are marked in the style of the label.  `inside` says whether
the cell before was marked. -/
def markedText (style : Style) (isMarked : Cell → Bool) : Bool → List Cell → Styled
  | inside, [] => if inside then [.reset] else []
  | inside, c :: cs =>
    let marked := isMarked c
    (if marked && !inside then [.style style] else if !marked && inside then [.reset] else [])
      ++ .text (shownCell c) :: markedText style isMarked marked cs

/-- Whether a cell holds a byte of the range. -/
def overlaps (start stop : Nat) (c : Cell) : Bool :=
  max start c.byte < min stop (c.byte + c.char.utf8Size)

/-- The carets under a line, for the bytes from `start` to `stop` of the line.  `inside` says
whether the cell before has a caret. -/
def carets (style : Style) (start stop : Nat) : Bool → List Cell → Styled
  | inside, [] => if inside then [.reset] else []
  | inside, c :: cs =>
    let here := overlaps start stop c
    (if here && !inside then [.style style] else if !here && inside then [.reset] else [])
      ++ (if here then [.text (String.ofList (List.replicate c.columns '^'))]
        else if c.byte < stop then [.text (blanks c.columns)] else [])
      ++ carets style start stop here cs

/-- The cells of a line, and one cell after its end. -/
def cellsWithEnd (shown : List Char) : List Cell :=
  Text.cells shown ++ [⟨'\x00', Text.byteSize shown, 1⟩]

/-! ## Snippets -/

/-- The first line of a snippet: where it points. -/
def locusLine (padding : Nat) (path : String) (line column : Nat) : Styled :=
  gutter padding ++ Styled.inStyle marginStyle "┌─"
    ++ [.text (" " ++ path ++ ":" ++ toString line ++ ":" ++ toString column ++ "\n")]

/-- A label within one line: the line, and carets under it. -/
def singleLine (severity : Severity) (padding : Nat) (l : Line) (label : Label) : Styled :=
  let style := labelStyle severity
  let start := label.start - l.start
  let stop := max (label.stop - l.start) (start + 1)
  gutter padding ++ border ++ newline
    ++ numberGutter padding l.number ++ border ++ [.text " "]
    ++ markedText style (overlaps start stop) false (Text.cells l.shown) ++ newline
    ++ gutter padding ++ border ++ [.text " "]
    ++ carets style start stop false (cellsWithEnd l.shown) ++ newline

/-- The number of bytes of the blanks a line starts with. -/
def indentSize (shown : List Char) : Nat :=
  Text.byteSize (shown.takeWhile Text.isBlank)

/-- A label that reaches from a line into the start of the next: both lines, joined by a bracket.
The bracket opens in front of the first line if the label starts there, and under it otherwise. -/
def twoLines (severity : Severity) (padding : Nat) (first second : Line) (label : Label) : Styled :=
  let style := labelStyle severity
  let start := label.start - first.start
  let stop := label.stop - second.start
  let shown := first.shown
  let inFront := start ≤ indentSize shown
  let dashes (n : Nat) : String :=
    String.ofList (((Text.cells shown).takeWhile fun c ↦ c.byte < n + 1).flatMap
      fun c ↦ List.replicate c.columns '─')
  let corner (s : String) : Styled := .text " " :: Styled.inStyle style s
  gutter padding ++ border ++ [.text "  "] ++ newline
    ++ numberGutter padding first.number ++ border
    ++ (if inFront then corner "╭" else [.text "  "]) ++ [.text " "]
    ++ markedText style (fun c ↦ start ≤ c.byte) false (Text.cells shown) ++ newline
    ++ (if inFront then []
      else gutter padding ++ border ++ corner "╭"
        ++ [.style style, .text (dashes start ++ "^"), .reset] ++ newline)
    ++ numberGutter padding second.number ++ border ++ corner "│" ++ [.text " "]
    ++ markedText style (fun c ↦ c.byte + c.char.utf8Size ≤ stop) false (Text.cells second.shown)
    ++ newline
    ++ gutter padding ++ border ++ corner "╰" ++ [.style style, .text "^", .reset] ++ newline

/-- The snippet of a label. -/
def snippet (severity : Severity) (path : String) (t : SourceText) (label : Label) : Styled :=
  let first := t.lineAt label.start
  let last := t.lineAt label.stop
  let padding := max (toString first.number).length (toString last.number).length
  locusLine padding path first.number (SourceText.charsBefore first label.start + 1)
    ++ (if first.number = last.number then singleLine severity padding first label
      else twoLines severity padding first last label)

end Jmm.Report

namespace Jmm.Diagnostic

open Report Text

/-- The first line of an annotated report. -/
def header (d : Diagnostic) : Styled :=
  let code :=
    match d.code with
    | some code => if code.isEmpty then "" else "[" ++ code ++ "]"
    | none => ""
  [.style (headerStyle d.severity), .text (d.severity.text ++ code), .style messageStyle,
    .text (": " ++ d.message), .reset, .text "\n"]

/-- The place in a text that a report points at, if it has one. -/
def label? (d : Diagnostic) (t : SourceText) : Option Label :=
  if d.span.line = 0 then none else t.labelAt d.span.line d.span.column

/-- A report annotated with the source at the path. -/
def annotated (d : Diagnostic) (path : String) (t : SourceText) : Styled :=
  d.header
    ++ (match d.label? t with
      | some label => snippet d.severity path t label
      | none => [])
    ++ [.text "\n"]

end Jmm.Diagnostic
