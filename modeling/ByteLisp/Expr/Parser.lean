/-
  ByteLisp: from tokens to expressions.

  A parser driven by a table. It keeps a stack of states and a stack of items, and
  either takes the next token or reduces the items on top by a production.

  * `Item` is what has been read of an expression, `Production.build` puts items
    together; it fails if they are not those of the production;
  * `Parser.shift` and `Parser.reduce` are the moves, `Parser.run` repeats them to
    the end; it ends as `Ending.broken` if a reduction fails;
  * `Expr.parse` reads a text that is one expression;
  * `Expr.parseProgram` reads a text that is any number of expressions and puts
    them into one list headed by `begin`. It reads the text between an opening
    parenthesis with `begin` and a closing one of its own, so a closing
    parenthesis too many closes that list, and what is reported is the token
    behind it.
-/
import ByteLisp.Expr
import ByteLisp.Expr.Table
import ByteLisp.Token.Lexer

namespace ByteLisp

/-- Why a text is not an expression or a program. -/
inductive ParseError where
  /-- No token starts somewhere. -/
  | lex (e : LexError)
  /-- A token that cannot follow the tokens before it. -/
  | unexpectedToken (t : Token)
  /-- The text ends within an expression. -/
  | unexpectedEnd (pos : Nat)
deriving Repr, DecidableEq

namespace ParseError

/-- The message of a syntax error. -/
def message : ParseError → String
  | lex e => e.message
  | unexpectedToken t => s!"unexpected token `{String.ofList t.text}` ({t.kind.name})"
  | unexpectedEnd _ => "unexpected end of input"

/-- Where a syntax error is. -/
def span : ParseError → Span
  | lex e => Span.point e.pos
  | unexpectedToken t => t.span
  | unexpectedEnd pos => Span.point pos

/-- The message of a syntax error with line and column. -/
def detail (src : List Char) : ParseError → String
  | lex e => e.detail src
  | e =>
    let l := Location.ofPos src e.span.lo
    s!"{e.message} at {l.line1}:{l.column1}"

/-- A token is not expected; without one, the end at `pos` is not. -/
def unexpected (pos : Nat) : Option Token → ParseError
  | some t => unexpectedToken t
  | none => unexpectedEnd pos

end ParseError

/-! ## Items -/

/-- An item on the stack. -/
inductive Item where
  | token (t : Token)
  | exp (e : Expr)
  /-- Entries of an unfinished list, the latest first. -/
  | entries (es : List Expr)

/-- The text between the quotes of a string. -/
def Token.quoted? (t : Token) : Option (List Char) :=
  match t.text with
  | '"' :: cs => if cs.getLast? = some '"' then some cs.dropLast else none
  | _ => none

/-- What a production makes of the items on its right-hand side; if they are none of it, the token
    to blame, if there is one. -/
def Production.build : Production → List Item → Except (Option Token) Item
  | expAtom, item :: _ | expList, item :: _ => .ok item
  | atomNumber, .token t :: _ =>
    match Numeral.read? t.text with
    | some x => .ok (.exp (.number x))
    | none => .error (some t)
  | atomString, .token t :: _ =>
    match t.quoted? with
    | some text => .ok (.exp (.string (String.ofList text)))
    | none => .error (some t)
  | atomSymbol, .token t :: _ => .ok (.exp (.symbol (String.ofList t.text)))
  | atomSymbol, _ => .ok (.exp (.symbol ""))
  | list, .token _ :: .entries es :: _ => .ok (.exp (.list es.reverse))
  | list, .token t :: _ => .error (some t)
  | noEntries, _ => .ok (.entries [])
  | moreEntries, .entries es :: .exp e :: _ => .ok (.entries (e :: es))
  | _, _ => .error none

/-! ## The parser -/

/-- The stacks of the parser, tops first. -/
structure Parser where
  states : List State
  items : List Item

/-- How a run of the parser ends. -/
inductive Ending where
  | accepted (e : Expr)
  /-- A token is not expected, or no token starts there. -/
  | failed (e : ParseError)
  /-- The items on the stack are not those of a production, or there is no way to go. -/
  | broken (e : ParseError)

/-- The result of a run. -/
def Ending.result : Ending → Except ParseError Expr
  | accepted e => .ok e
  | failed e | broken e => .error e

namespace Parser

/-- The parser that has read nothing. -/
def start : Parser := ⟨[.start], []⟩

/-- The state on top. -/
def state (p : Parser) : State := p.states.headD .start

/-- Takes a token. -/
def shift (p : Parser) (t : Token) (next : State) : Parser := ⟨next :: p.states, .token t :: p.items⟩

/-- Replaces the items of a production by what it makes of them, and goes on from the state below. -/
def reduce (p : Parser) (r : Production) : Except (Option Token) Parser :=
  if p.items.length < r.arity then .error none
  else
    match r.build (p.items.take r.arity).reverse with
    | .error t => .error t
    | .ok item =>
      match ((p.states.drop r.arity).headD .start).goto r.lhs with
      | none => .error none
      | some next => .ok ⟨next :: p.states.drop r.arity, item :: p.items.drop r.arity⟩

/-- The expression that has been read when it is accepted. -/
def accept (p : Parser) (e : ParseError) : Ending :=
  match p.items with
  | .exp x :: _ => .accepted x
  | _ => .broken e

theorem weight_reduce {p p' : Parser} {k : Option Token.Kind} {r : Production}
    (ha : p.state.action k = some (.reduce r)) (hr : p.reduce r = .ok p') :
    p'.state.weight < p.state.weight := by
  unfold reduce at hr
  split at hr
  · cases hr
  · split at hr
    · cases hr
    · split at hr
      · cases hr
      · next hg => cases hr; exact State.weight_goto ha hg

/-- Reads the tokens that remain; behind them the text stops. -/
def run (p : Parser) (tokens : List Token) (stop : Lexed.Stop) : Ending :=
  match tokens, stop with
  | [], .failed e => .failed (.lex e)
  | [], .done pos =>
    match _ha : p.state.action none with
    | some (.reduce r) =>
      match _hr : p.reduce r with
      | .ok p' => run p' [] (.done pos)
      | .error t => .broken (.unexpected 0 t)
    | some .accept => p.accept (.unexpectedEnd pos)
    | some (.shift _) => .broken (.unexpectedEnd 0)
    | none => .failed (.unexpectedEnd pos)
  | t :: ts, stop =>
    match _ha : p.state.action (some t.kind) with
    | some (.shift next) => run (p.shift t next) ts stop
    | some (.reduce r) =>
      match _hr : p.reduce r with
      | .ok p' => run p' (t :: ts) stop
      | .error t' => .broken (.unexpected 0 t')
    | some .accept => p.accept (.unexpectedToken t)
    | none => .failed (.unexpectedToken t)
termination_by (tokens.length, p.state.weight)
decreasing_by
  · exact Prod.Lex.right _ (weight_reduce _ha _hr)
  · exact Prod.Lex.left _ _ (Nat.lt_succ_self _)
  · exact Prod.Lex.right _ (weight_reduce _ha _hr)

end Parser

namespace Expr

/-- How the parser ends on a text that is to be one expression. -/
def parsing (src : List Char) : Ending :=
  let lexed := lex src
  Parser.start.run lexed.tokens lexed.stop

/-- Reads a text that is one expression. -/
def parse (src : List Char) : Except ParseError Expr := (parsing src).result

/-- What is read before a program: the start of its list. -/
def opening : List Token :=
  [⟨.parenOpen, ['('], Span.point 0⟩, ⟨.symbol, "begin".toList, Span.point 0⟩]

/-- What is read behind a program: the parenthesis that closes its list, at the end of the text. -/
def closing : Lexed.Stop → List Token
  | .done pos => [⟨.parenClose, [')'], Span.point pos⟩]
  | .failed _ => []

/-- How the parser ends on a text that is to be a program. -/
def parsingProgram (src : List Char) : Ending :=
  let lexed := lex src
  Parser.start.run (opening ++ lexed.tokens ++ closing lexed.stop) lexed.stop

/-- Reads a text that is any number of expressions, as one list headed by
    `begin`. -/
def parseProgram (src : List Char) : Except ParseError Expr := (parsingProgram src).result

end Expr

end ByteLisp
