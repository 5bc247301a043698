/-
  ByteLisp: from tokens to a table of nodes.

  The parser of expressions, driven by the same table, but with its nodes in an arena: a
  reduction that completes an atom or a list adds a row, and the stack holds the number of
  the row. A node is known by its number from then on.

  * `Arena` is the table with the number of the root, `Arena.ofExpr` the one of an
    expression, in post-order;
  * `Production.allocate` puts items together, and adds the node if there is a new one;
  * `Allocator.shift` and `Allocator.reduce` are the moves, `Allocator.run` repeats them to
    the end;
  * `Arena.parse` reads a text that is one expression, `Arena.parseProgram` one that is any
    number of expressions.
-/
import ByteLisp.Expr.Arena
import ByteLisp.Expr.Parser

namespace ByteLisp

/-- The nodes of an expression in the order in which they were added, and the number of its
    root. -/
structure Arena where
  nodes : Array Node
  root : Nat

/-- The nodes of an expression in post-order. -/
def Arena.ofExpr (e : Expr) : Arena := ⟨e.nodes.toArray, e.nodes.length - 1⟩

/-! ## Items -/

/-- An item on the stack. -/
inductive Arena.Item where
  | token (t : Token)
  /-- A complete expression, by its number. -/
  | node (n : Nat)
  /-- Entries of an unfinished list, the latest first. -/
  | entries (ns : List Nat)

/-- The item for a new node, and the nodes with it. -/
def Node.addTo (row : Node) (nodes : Array Node) : Arena.Item × Array Node :=
  (.node nodes.size, nodes.push row)

/-- What a production makes of the items on its right-hand side, and the nodes then; if the items
    are none of it, the token to blame, if there is one. -/
def Production.allocate (nodes : Array Node) :
    Production → List Arena.Item → Except (Option Token) (Arena.Item × Array Node)
  | expAtom, item :: _ | expList, item :: _ => .ok (item, nodes)
  | atomNumber, .token t :: _ =>
    match Numeral.read? t.text with
    | some x => .ok ((Node.number x).addTo nodes)
    | none => .error (some t)
  | atomString, .token t :: _ =>
    match t.quoted? with
    | some text => .ok ((Node.string (String.ofList text)).addTo nodes)
    | none => .error (some t)
  | atomSymbol, .token t :: _ => .ok ((Node.symbol (String.ofList t.text)).addTo nodes)
  | atomSymbol, _ => .ok ((Node.symbol "").addTo nodes)
  | list, .token _ :: .entries ns :: _ => .ok ((Node.list ns.reverse).addTo nodes)
  | list, .token t :: _ => .error (some t)
  | noEntries, _ => .ok (.entries [], nodes)
  | moreEntries, .entries ns :: .node n :: _ => .ok (.entries (n :: ns), nodes)
  | _, _ => .error none

/-! ## The parser -/

/-- The stacks of the parser, tops first, and the nodes so far. -/
structure Allocator where
  states : List State
  items : List Arena.Item
  nodes : Array Node

namespace Allocator

/-- The parser that has read nothing. -/
def start : Allocator := ⟨[.start], [], #[]⟩

/-- The state on top. -/
def state (p : Allocator) : State := p.states.headD .start

/-- Takes a token. -/
def shift (p : Allocator) (t : Token) (next : State) : Allocator :=
  ⟨next :: p.states, .token t :: p.items, p.nodes⟩

/-- Goes on from the state on top with what has been produced. -/
def goto (p : Allocator) (produced : Nonterminal) (item : Arena.Item) :
    Except (Option Token) Allocator :=
  match p.state.goto produced with
  | none => .error none
  | some next => .ok ⟨next :: p.states, item :: p.items, p.nodes⟩

/-- Replaces the items of a production by what it makes of them, and goes on from the state below. -/
def reduce (p : Allocator) (r : Production) : Except (Option Token) Allocator :=
  if p.items.length < r.arity then .error none
  else
    match r.allocate p.nodes (p.items.take r.arity).reverse with
    | .error t => .error t
    | .ok (item, nodes) =>
      goto ⟨p.states.drop r.arity, p.items.drop r.arity, nodes⟩ r.lhs item

/-- The nodes and their root when the expression is accepted. -/
def accept (p : Allocator) (e : ParseError) : Except ParseError Arena :=
  match p.items with
  | .node n :: _ => .ok ⟨p.nodes, n⟩
  | _ => .error e

theorem weight_reduce {p p' : Allocator} {k : Option Token.Kind} {r : Production}
    (ha : p.state.action k = some (.reduce r)) (hr : p.reduce r = .ok p') :
    p'.state.weight < p.state.weight := by
  unfold reduce at hr
  split at hr
  · cases hr
  · split at hr
    · cases hr
    · unfold goto at hr
      split at hr
      · cases hr
      · next hg => cases hr; exact State.weight_goto ha hg

/-- Reads the tokens that remain; behind them the text stops. -/
def run (p : Allocator) (tokens : List Token) (stop : Lexed.Stop) : Except ParseError Arena :=
  match tokens, stop with
  | [], .failed e => .error (.lex e)
  | [], .done pos =>
    match _ha : p.state.action none with
    | some (.reduce r) =>
      match _hr : p.reduce r with
      | .ok p' => run p' [] (.done pos)
      | .error t => .error (.unexpected 0 t)
    | some .accept => p.accept (.unexpectedEnd pos)
    | some (.shift _) => .error (.unexpectedEnd 0)
    | none => .error (.unexpectedEnd pos)
  | t :: ts, stop =>
    match _ha : p.state.action (some t.kind) with
    | some (.shift next) => run (p.shift t next) ts stop
    | some (.reduce r) =>
      match _hr : p.reduce r with
      | .ok p' => run p' (t :: ts) stop
      | .error t' => .error (.unexpected 0 t')
    | some .accept => p.accept (.unexpectedToken t)
    | none => .error (.unexpectedToken t)
termination_by (tokens.length, p.state.weight)
decreasing_by
  · exact Prod.Lex.right _ (weight_reduce _ha _hr)
  · exact Prod.Lex.left _ _ (Nat.lt_succ_self _)
  · exact Prod.Lex.right _ (weight_reduce _ha _hr)

end Allocator

namespace Arena

/-- Reads a text that is one expression. -/
def parse (src : List Char) : Except ParseError Arena :=
  let lexed := lex src
  Allocator.start.run lexed.tokens lexed.stop

/-- Reads a text that is any number of expressions, as one list headed by `begin`. -/
def parseProgram (src : List Char) : Except ParseError Arena :=
  let lexed := lex src
  Allocator.start.run (Expr.opening ++ lexed.tokens ++ Expr.closing lexed.stop) lexed.stop

end Arena

end ByteLisp
