/-
  ByteLisp: from text to tokens.

  An ordered table of rules is applied to the front of the remaining text; the
  first rule that matches decides. Comments and blanks match but give no token.

  * `Rule` pairs a matcher with the kind of token it gives;
  * `rules` is the table;
  * `Lexed` is the result: the tokens, and how the text ended;
  * `lex` applies the table until the text ends or no rule matches.
-/
import ByteLisp.Token

namespace ByteLisp

namespace Lexer

/-- A matcher is given the first character of a text and the rest, and tells how
    many characters of the rest belong to the lexeme, if there is one. -/
abbrev Matcher := Char → List Char → Option Nat

/-- A single given character. -/
def single (x : Char) : Matcher := fun c _ => if c = x then some 0 else none

/-- Blanks between tokens: space, tab, line feed, form feed, carriage return. -/
def isGap (c : Char) : Bool :=
  c = ' ' || c = '\t' || c = '\n' || c = '\x0c' || c = '\r'

/-- Letters, digits and operator characters; ASCII only. -/
def isSymbolChar (c : Char) : Bool :=
  c.isAlphanum || c = '_' || c = '-' || c = '+' || c = '*' || c = '=' || c = '!' || c = '<' ||
    c = '>' || c = '/'

/-- A longest row of characters of one class. -/
def row (p : Char → Bool) : Matcher :=
  fun c rest => if p c then some (rest.takeWhile p).length else none

/-- Two slashes and the rest of the line. -/
def lineComment : Matcher
  | '/', '/' :: rest => some (1 + (rest.takeWhile (· ≠ '\n')).length)
  | _, _ => none

/-- The number of characters up to and including the first `*/`. -/
def throughClose : List Char → Option Nat
  | '*' :: '/' :: _ => some 2
  | _ :: rest => (throughClose rest).map (· + 1)
  | [] => none

/-- A comment that ends at the first `*/` behind its opening. -/
def blockComment : Matcher
  | '/', '*' :: rest => (throughClose rest).map (· + 1)
  | _, _ => none

/-- A quote, any characters, and the next quote. -/
def quoted : Matcher := fun c rest =>
  let body := (rest.takeWhile (· ≠ '"')).length
  if c = '"' ∧ body < rest.length then some (body + 1) else none

/-- A matcher and the kind of token it gives; none if the lexeme is skipped. -/
structure Rule where
  matcher : Matcher
  kind : Option Token.Kind

/-- The rules in order of priority. -/
def rules : List Rule :=
  [⟨single '(', some .parenOpen⟩,
    ⟨single ')', some .parenClose⟩,
    ⟨lineComment, none⟩,
    ⟨blockComment, none⟩,
    ⟨row isGap, none⟩,
    ⟨quoted, some .string⟩,
    ⟨row Char.isDigit, some .number⟩,
    ⟨row isSymbolChar, some .symbol⟩]

/-- What the first matching rule finds at the front of a text: the number of
    characters behind the first one, and the kind. -/
def front (c : Char) (rest : List Char) : Option (Nat × Option Token.Kind) :=
  rules.findSome? fun r => (r.matcher c rest).map (·, r.kind)

end Lexer

/-- How a text ends: at its end, or at a character where no token starts. -/
inductive Lexed.Stop where
  | done (pos : Nat)
  | failed (e : LexError)
deriving Repr, DecidableEq

/-- The tokens of a text and how it ends. -/
structure Lexed where
  tokens : List Token
  stop : Lexed.Stop
deriving Repr, DecidableEq

/-- The tokens of a text whose first character is at `pos`. -/
def lexFrom (pos : Nat) : List Char → Lexed
  | [] => ⟨[], .done pos⟩
  | c :: rest =>
    match Lexer.front c rest with
    | none => ⟨[], .failed ⟨pos, c⟩⟩
    | some (n, kind) =>
      let text := c :: rest.take n
      let next := pos + Text.size text
      let tail := lexFrom next (rest.drop n)
      match kind with
      | none => tail
      | some k => { tail with tokens := ⟨k, text, ⟨pos, next⟩⟩ :: tail.tokens }
termination_by cs => cs.length
decreasing_by rw [List.length_drop, List.length_cons]; omega

/-- The tokens of a source text. -/
def lex (src : List Char) : Lexed := lexFrom 0 src

end ByteLisp
