/-
  ByteLisp: tokens.

  * `Token` is a lexeme with its kind and its place;
  * `LexError` is a character at which no token starts.
-/
import ByteLisp.Span

namespace ByteLisp

/-- The kinds of tokens. -/
inductive Token.Kind where
  | parenOpen
  | parenClose
  /-- A string with its quotes. -/
  | string
  /-- A row of decimal digits. -/
  | number
  /-- An operator or an identifier. -/
  | symbol
deriving Repr, DecidableEq

/-- The name of a kind in messages. -/
def Token.Kind.name : Token.Kind → String
  | .parenOpen => "ParenOpen"
  | .parenClose => "ParenClose"
  | .string => "Str"
  | .number => "Num"
  | .symbol => "Symbol"

/-- A lexeme of a source text. -/
structure Token where
  kind : Token.Kind
  text : List Char
  span : Span
deriving Repr, DecidableEq

/-- A character at which no token starts. -/
structure LexError where
  pos : Nat
  char : Char
deriving Repr, DecidableEq

namespace LexError

/-- The message of a lexical error. -/
def message (e : LexError) : String :=
  s!"unexpected character `{e.char}` at byte {e.pos}"

/-- The message of a lexical error with line and column. -/
def detail (src : List Char) (e : LexError) : String :=
  let l := Location.ofPos src e.pos
  s!"unexpected character `{e.char}` at {l.line1}:{l.column1}"

end LexError

end ByteLisp
