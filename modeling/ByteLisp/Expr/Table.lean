/-
  ByteLisp: the table of the parser.

      Exp     : Atom | List
      Atom    : NUMBER | STRING | SYMBOL
      List    : '(' Entries ')'
      Entries : ε | Entries Exp

  * `Production` are the rules of the grammar, `Nonterminal` their left-hand sides;
  * `State` says what stands on top of the stacks of the parser;
  * `State.action` tells what to do in view of the next token, `State.goto` where
    to go after a reduction. Where a production is complete it is reduced whatever
    follows, so that a token that cannot follow is found a few reductions later,
    but before any other token is read.
-/
import ByteLisp.Token

namespace ByteLisp

/-- The syntactic categories. -/
inductive Nonterminal where
  | exp
  | atom
  | list
  | entries
deriving Repr, DecidableEq

/-- The rules of the grammar. -/
inductive Production where
  | expAtom
  | expList
  | atomNumber
  | atomString
  | atomSymbol
  | list
  | noEntries
  | moreEntries
deriving Repr, DecidableEq

namespace Production

/-- The category that a rule produces. -/
def lhs : Production → Nonterminal
  | expAtom | expList => .exp
  | atomNumber | atomString | atomSymbol => .atom
  | list => .list
  | noEntries | moreEntries => .entries

/-- The number of items on the right-hand side. -/
def arity : Production → Nat
  | list => 3
  | noEntries => 0
  | moreEntries => 2
  | _ => 1

end Production

/-- What stands on top of the stacks. -/
inductive State where
  /-- Nothing has been read. -/
  | start
  /-- The whole expression. -/
  | whole
  | atom
  | list
  | number
  | string
  | symbol
  /-- An opening parenthesis. -/
  | opened
  /-- The entries of an unfinished list. -/
  | inside
  /-- A closing parenthesis. -/
  | closed
  /-- The next entry of an unfinished list. -/
  | entry
deriving Repr, DecidableEq

/-- What the parser does next. -/
inductive Action where
  /-- Takes the next token. -/
  | shift (next : State)
  | reduce (p : Production)
  | accept
deriving Repr, DecidableEq

namespace State

/-- Takes a token that an expression starts with. -/
def startExp : Token.Kind → Option Action
  | .number => some (.shift number)
  | .string => some (.shift string)
  | .symbol => some (.shift symbol)
  | .parenOpen => some (.shift opened)
  | .parenClose => none

/-- What to do when a token of the given kind is next, or the end. -/
def action : State → Option Token.Kind → Option Action
  | start, some k => startExp k
  | whole, none => some .accept
  | atom, _ => some (.reduce .expAtom)
  | list, _ => some (.reduce .expList)
  | number, _ => some (.reduce .atomNumber)
  | string, _ => some (.reduce .atomString)
  | symbol, _ => some (.reduce .atomSymbol)
  | opened, some _ => some (.reduce .noEntries)
  | inside, some .parenClose => some (.shift closed)
  | inside, some k => startExp k
  | closed, _ => some (.reduce .list)
  | entry, some _ => some (.reduce .moreEntries)
  | _, _ => none

/-- Where to go when a category has been produced. -/
def goto : State → Nonterminal → Option State
  | start, .exp => some whole
  | inside, .exp => some entry
  | start, .atom | inside, .atom => some atom
  | start, .list | inside, .list => some list
  | opened, .entries => some inside
  | _, _ => none

/-- A bound on the number of reductions before the next token is taken. -/
def weight : State → Nat
  | number | string | symbol | closed => 3
  | atom | list => 2
  | opened | entry => 1
  | _ => 0

theorem weight_goto {s t next : State} {k : Option Token.Kind} {p : Production}
    (ha : s.action k = some (.reduce p)) (hg : t.goto p.lhs = some next) : next.weight < s.weight := by
  rcases k with _ | k
  · cases s <;> cases ha <;> cases t <;> cases hg <;> decide
  · cases s <;> cases k <;> cases ha <;> cases t <;> cases hg <;> decide

end State

end ByteLisp
