/-
  ByteLisp: reports.

      <severity>[<code>]: <message>
       --> <file>:<line>:<column>
        |
      1 | <line of the source>
        |   ^^^^

  * `Header` is the first line of a report, `Window` what follows it: the place
    and the line of the source with the reported part underlined;
  * `Window.ofSpan` finds the line; the part is cut at the end of the line;
  * `Report.render` writes a report, in colours if these are on.
-/
import ByteLisp.Report.Style
import ByteLisp.Span
import ByteLisp.Text.Blank
import ByteLisp.Text.Field

namespace ByteLisp

/-- How bad a reported thing is. -/
inductive Severity where
  | error
  | warning
deriving Repr, DecidableEq

namespace Severity

/-- The name of a severity. -/
def name : Severity → String
  | error => "error"
  | warning => "warning"

/-- The style in which a severity is shown. -/
def style : Severity → Style
  | error => .boldIn Style.red
  | warning => .boldIn Style.yellow

end Severity

/-- The first line of a report. -/
structure Header where
  severity : Severity
  code : String
  message : String
deriving Repr, DecidableEq

/-- The line of a source text that a report is about. -/
structure Window where
  severity : Severity
  file : String
  location : Location
  /-- The line, without the blanks at its end. -/
  lineText : List Char
  /-- The bytes of the line that the report is about. -/
  lineSpan : Span
deriving Repr, DecidableEq

namespace Window

/-- The window on a span of a source text. -/
def ofSpan (severity : Severity) (file : String) (src : List Char) (sp : Span) : Window :=
  let lo := min sp.lo (Text.size src)
  let before := (Text.takeBytes lo src).reverse.takeWhile (· ≠ '\n')
  let after := (Text.dropBytes lo src).takeWhile (· ≠ '\n')
  let start := lo - Text.size before
  let stop := lo + Text.size after
  let hi := min (max sp.hi lo) stop
  { severity
    file
    location := Location.ofPos src lo
    lineText := Text.trimEnd (before.reverse ++ after)
    lineSpan := ⟨lo - start, hi - start⟩ }

/-- Blanks up to the reported part, and a caret for each byte of it, at least one. -/
def underline (sp : Span) : String :=
  String.ofList (List.replicate sp.lo ' ' ++ List.replicate (max sp.length 1) '^')

/-- The text of a window. -/
def render (colours : Bool) (w : Window) : String :=
  let quote := Style.paint colours (.boldIn Style.brightBlue)
  let number := toString w.location.line1
  let indent := Text.padRight number.length ""
  let bar := quote "|"
  let marked := Style.paint colours w.severity.style (underline w.lineSpan)
  indent ++ quote "-->" ++ s!" {w.file}:{w.location.line1}:{w.location.column1}\n" ++
    s!"{indent} {bar}\n" ++
    s!"{quote number} {bar} " ++ String.ofList w.lineText ++ "\n" ++
    s!"{indent} {bar} {marked}\n"

end Window

/-- The text of a header. -/
def Header.render (colours : Bool) (h : Header) : String :=
  Style.paint colours h.severity.style s!"{h.severity.name}[{h.code}]" ++ ": " ++
    Style.paint colours .bold h.message ++ "\n"

/-- A report. -/
structure Report where
  header : Header
  window : Option Window
deriving Repr, DecidableEq

/-- The text of a report. -/
def Report.render (colours : Bool) (r : Report) : String :=
  r.header.render colours ++ (r.window.map (·.render colours)).getD ""

end ByteLisp
