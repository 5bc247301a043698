/-
  ByteLisp: the nodes of the text that was read.

  The parser that adds nodes to a table does what the parser of expressions does, and on the
  way the table holds just the expressions on the stack: from the bottom to the top, the nodes
  of each one and those of the entries of each unfinished list.

  * `Allocator.Mirrors` relates the stacks of the two parsers and the table; what lies on the
    stacks came there by the moves of the automaton, so a state says what is under it;
  * `Mirrors.reduce`: a reduction keeps the relation, or fails on both sides alike;
  * `Mirrors.run_eq`: so does a run, and in the end the table holds the nodes of the whole
    expression;
  * `Arena.parse_eq` and `Arena.parseProgram_eq` say so of texts.
-/
import ByteLisp.Expr.Allocation

namespace ByteLisp

/-! ## Nodes of expressions -/

namespace Expr

theorem size_pos (e : Expr) : 0 < e.size := by
  cases e <;> simp [size]

/-- One more entry comes behind the others. -/
theorem entryNodes_concat (base : Nat) (es : List Expr) (e : Expr) :
    entryNodes base (es ++ [e]) =
      ((entryNodes base es).1 ++ nodesFrom (base + sizeEntries es) e,
        (entryNodes base es).2 ++ [base + sizeEntries es + e.size - 1]) := by
  induction es generalizing base with
  | nil => simp [entryNodes, sizeEntries, length_nodesFrom]
  | cons x es ih =>
    simp only [List.cons_append, entryNodes, ih, sizeEntries, length_nodesFrom, Nat.add_assoc,
      List.append_assoc]

end Expr

/-! ## The automaton -/

/-- What a state says of the item on top. -/
inductive Arena.Item.Shape where
  | token
  | node
  | entries
deriving DecidableEq

namespace State

open Arena.Item (Shape)

/-- The item that the parser put on the stack when it got to a state. -/
def shape? : State → Option Shape
  | start => none
  | number | string | symbol | opened | closed => some .token
  | whole | atom | list | entry => some .node
  | inside => some .entries

variable {s t : State} {k : Option Token.Kind} {kind : Token.Kind}

/-- The parser takes a closing parenthesis only behind the entries of a list. -/
theorem shape?_shift (h : s.action (some kind) = some (.shift t)) :
    t.shape? = some .token ∧ (t = .closed → s = .inside) := by
  cases s <;> cases kind <;> cases h <;> exact ⟨rfl, by simp⟩

/-- An expression is the whole only on the empty stack. -/
theorem shape?_goto {l : Nonterminal} (h : s.goto l = some t) (hl : l ≠ .entries) :
    t.shape? = some .node ∧ (t = .whole → s = .start) ∧ (t = .entry → s = .inside) := by
  cases s <;> cases l <;> cases h <;> first | exact ⟨rfl, by simp⟩ | exact absurd rfl hl

end State

/-- The state in which a production is complete. -/
def Production.top : Production → State
  | expAtom => .atom
  | expList => .list
  | atomNumber => .number
  | atomString => .string
  | atomSymbol => .symbol
  | list => .closed
  | noEntries => .opened
  | moreEntries => .entry

theorem State.eq_top {s : State} {k : Option Token.Kind} {r : Production}
    (h : s.action k = some (.reduce r)) : s = r.top := by
  rcases k with _ | k
  · cases s <;> cases h <;> rfl
  · cases s <;> cases k <;> cases h <;> rfl

theorem State.eq_whole {s : State} {k : Option Token.Kind} (h : s.action k = some .accept) :
    s = .whole := by
  rcases k with _ | k
  · cases s <;> cases h
    rfl
  · cases s <;> cases k <;> cases h

/-! ## Two parsers -/

/-- Goes on from the state on top with what has been produced. -/
def Parser.goto (q : Parser) (produced : Nonterminal) (item : Item) : Except (Option Token) Parser :=
  match q.state.goto produced with
  | none => .error none
  | some next => .ok ⟨next :: q.states, item :: q.items⟩

theorem Parser.reduce_eq {q : Parser} {r : Production} (hn : r.arity ≤ q.items.length) :
    q.reduce r =
      match r.build (q.items.take r.arity).reverse with
      | .error t => .error t
      | .ok item => goto ⟨q.states.drop r.arity, q.items.drop r.arity⟩ r.lhs item := by
  rw [reduce]
  exact if_neg (Nat.not_lt.2 hn)

namespace Allocator

/-- Puts the number of an expression on the stack, and its nodes behind the others. -/
def putNode (p : Allocator) (s : State) (e : Expr) : Allocator :=
  ⟨s :: p.states, .node (p.nodes.size + e.size - 1) :: p.items,
    p.nodes ++ (e.nodesFrom p.nodes.size).toArray⟩

/-- Puts the numbers of some entries on the stack, the latest first, and their nodes behind the
    others. -/
def putEntries (p : Allocator) (es : List Expr) : Allocator :=
  ⟨.inside :: p.states, .entries (Expr.entryNodes p.nodes.size es.reverse).2.reverse :: p.items,
    p.nodes ++ (Expr.entryNodes p.nodes.size es.reverse).1.toArray⟩

/-- The stacks hold the same, once with numbers and once with expressions, and the table has the
    nodes of all expressions on the stack in their order and no others. -/
inductive Mirrors : Allocator → Parser → Prop
  | start : Mirrors .start .start
  | token {p q s} (t : Token) : Mirrors p q → q.state.action (some t.kind) = some (.shift s) →
      Mirrors (p.shift t s) (q.shift t s)
  | node {p q s l} (e : Expr) : Mirrors p q → q.state.goto l = some s → l ≠ .entries →
      Mirrors (p.putNode s e) ⟨s :: q.states, .exp e :: q.items⟩
  | entries {p q} (es : List Expr) : Mirrors p q → q.state = .opened →
      Mirrors (p.putEntries es) ⟨.inside :: q.states, .entries es :: q.items⟩

/-- The outcomes of a reduction on both sides. -/
inductive Agree : Except (Option Token) Allocator → Except (Option Token) Parser → Prop
  | ok {p q} : Mirrors p q → Agree (.ok p) (.ok q)
  | error (t : Option Token) : Agree (.error t) (.error t)

variable {p : Allocator} {q : Parser} {r : Production}

theorem Mirrors.state (h : Mirrors p q) : p.state = q.state := by
  cases h <;> rfl

theorem Agree.of_ok {x : Except (Option Token) Allocator} (h : Agree x (.ok q)) :
    ∃ p, x = .ok p ∧ Mirrors p q := by
  cases h with
  | ok h => exact ⟨_, rfl, h⟩

theorem Agree.of_error {x : Except (Option Token) Allocator} {t : Option Token}
    (h : Agree x (.error t)) : x = .error t := by
  cases h
  rfl

/-! ## What is under a state -/

theorem Mirrors.of_start (h : Mirrors p q) (hs : q.state = .start) : p = .start ∧ q = .start := by
  replace hs : q.state.shape? = none := by rw [hs]; rfl
  cases h with
  | start => exact ⟨rfl, rfl⟩
  | token t h ha => cases (State.shape?_shift ha).1.symm.trans hs
  | node e h hg hl => cases (State.shape?_goto hg hl).1.symm.trans hs
  | entries es h ho => cases hs

theorem Mirrors.of_token (h : Mirrors p q) (hs : q.state.shape? = some .token) :
    ∃ p₀ q₀ t, Mirrors p₀ q₀ ∧ p = p₀.shift t q.state ∧ q = q₀.shift t q.state ∧
      (q.state = .closed → q₀.state = .inside) := by
  cases h with
  | start => cases hs
  | token t h ha => exact ⟨_, _, t, h, rfl, rfl, (State.shape?_shift ha).2⟩
  | node e h hg hl => cases (State.shape?_goto hg hl).1.symm.trans hs
  | entries es h ho => cases hs

theorem Mirrors.of_node (h : Mirrors p q) (hs : q.state.shape? = some .node) :
    ∃ p₀ q₀ e, Mirrors p₀ q₀ ∧ p = p₀.putNode q.state e ∧
      q = ⟨q.state :: q₀.states, .exp e :: q₀.items⟩ ∧
      (q.state = .whole → q₀.state = .start) ∧ (q.state = .entry → q₀.state = .inside) := by
  cases h with
  | start => cases hs
  | token t h ha => cases (State.shape?_shift ha).1.symm.trans hs
  | node e h hg hl => exact ⟨_, _, e, h, rfl, rfl, (State.shape?_goto hg hl).2⟩
  | entries es h ho => cases hs

theorem Mirrors.of_inside (h : Mirrors p q) (hs : q.state = .inside) :
    ∃ p₀ q₀ es, Mirrors p₀ q₀ ∧ p = p₀.putEntries es ∧
      q = ⟨.inside :: q₀.states, .entries es :: q₀.items⟩ ∧ q₀.state = .opened := by
  replace hs : q.state.shape? = some .entries := by rw [hs]; rfl
  cases h with
  | start => cases hs
  | token t h ha => cases (State.shape?_shift ha).1.symm.trans hs
  | node e h hg hl => cases (State.shape?_goto hg hl).1.symm.trans hs
  | entries es h ho => exact ⟨_, _, es, h, rfl, rfl, ho⟩

/-! ## Reductions -/

theorem reduce_eq (hn : r.arity ≤ p.items.length) :
    p.reduce r =
      match r.allocate p.nodes (p.items.take r.arity).reverse with
      | .error t => .error t
      | .ok (item, nodes) => goto ⟨p.states.drop r.arity, p.items.drop r.arity, nodes⟩ r.lhs item := by
  rw [reduce]
  exact if_neg (Nat.not_lt.2 hn)

/-- What has been produced is an expression. -/
theorem Mirrors.goto_node (h : Mirrors p q) (e : Expr) {l : Nonterminal} (hl : l ≠ .entries) :
    Agree (goto ⟨p.states, p.items, p.nodes ++ (e.nodesFrom p.nodes.size).toArray⟩ l
      (.node (p.nodes.size + e.size - 1))) (q.goto l (.exp e)) := by
  have hstate : Allocator.state ⟨p.states, p.items, p.nodes ++ (e.nodesFrom p.nodes.size).toArray⟩ =
      q.state := h.state
  rw [goto, Parser.goto, hstate]
  cases hg : q.state.goto l with
  | none => exact .error none
  | some s => exact .ok (.node e h hg hl)

/-- What has been produced are the entries of a list. -/
theorem Mirrors.goto_entries (h : Mirrors p q) (ho : q.state = .opened) (es : List Expr) :
    Agree
      (goto ⟨p.states, p.items, p.nodes ++ (Expr.entryNodes p.nodes.size es.reverse).1.toArray⟩
        .entries (.entries (Expr.entryNodes p.nodes.size es.reverse).2.reverse))
      (q.goto .entries (.entries es)) := by
  have hstate : Allocator.state ⟨p.states, p.items,
      p.nodes ++ (Expr.entryNodes p.nodes.size es.reverse).1.toArray⟩ = .opened := h.state.trans ho
  rw [goto, Parser.goto, hstate, ho]
  exact .ok (h.entries es ho)

/-- An atom or a list becomes an expression as it is. -/
theorem Mirrors.reduce_pass (h : Mirrors p q) (hr : r = .expAtom ∨ r = .expList)
    (hs : q.state = r.top) : Agree (p.reduce r) (q.reduce r) := by
  have hshape : q.state.shape? = some .node := by
    rw [hs]
    rcases hr with rfl | rfl <;> rfl
  obtain ⟨p₀, q₀, e, h₀, rfl, hq, -⟩ := h.of_node hshape
  rw [hq]
  have := h₀.goto_node e (l := .exp) nofun
  rcases hr with rfl | rfl
  · exact this
  · exact this

/-- A token on top makes an atom, which is one node, or is to blame. -/
theorem allocate_token (t : Token) (hl : r.lhs = .atom) :
    (∃ e row, (∀ base, e.nodesFrom base = [row]) ∧ e.size = 1 ∧ r.build [.token t] = .ok (.exp e) ∧
      ∀ nodes, r.allocate nodes [.token t] = .ok (row.addTo nodes)) ∨
    (r.build [.token t] = .error (some t) ∧ ∀ nodes, r.allocate nodes [.token t] = .error (some t)) := by
  cases r with
  | atomNumber =>
    cases hx : Numeral.read? t.text with
    | none => exact .inr (by simp [Production.build, Production.allocate, hx])
    | some x =>
      refine .inl ⟨.number x, .number x, fun _ => rfl, rfl, ?_⟩
      simp [Production.build, Production.allocate, hx]
  | atomString =>
    cases hx : t.quoted? with
    | none => exact .inr (by simp [Production.build, Production.allocate, hx])
    | some text =>
      refine .inl ⟨.string (String.ofList text), .string (String.ofList text), fun _ => rfl, rfl, ?_⟩
      simp [Production.build, Production.allocate, hx]
  | atomSymbol =>
    exact .inl ⟨.symbol (String.ofList t.text), .symbol (String.ofList t.text), fun _ => rfl, rfl, rfl,
      fun _ => rfl⟩
  | _ => cases hl

theorem Mirrors.reduce_atom (h : Mirrors p q) (hl : r.lhs = .atom) (hs : q.state = r.top) :
    Agree (p.reduce r) (q.reduce r) := by
  obtain ⟨hn, htop⟩ : r.arity = 1 ∧ r.top.shape? = some .token := by
    cases r <;> first | exact ⟨rfl, rfl⟩ | cases hl
  obtain ⟨p₀, q₀, t, h₀, rfl, hq, -⟩ := h.of_token (by rw [hs]; exact htop)
  rw [hq, Parser.reduce_eq (by simp [hn, Parser.shift]), Allocator.reduce_eq (by simp [hn, shift])]
  simp only [shift, Parser.shift, hn, hl, List.take_succ_cons, List.take_zero, List.reverse_singleton,
    List.drop_succ_cons, List.drop_zero]
  rcases allocate_token t hl with ⟨e, row, he, hsize, hbuild, halloc⟩ | ⟨hbuild, halloc⟩
  · have := h₀.goto_node e (l := .atom) nofun
    rw [he, hsize] at this
    simp only [hbuild, halloc]
    exact this
  · simp only [hbuild, halloc]
    exact .error (some t)

/-- Behind an opening parenthesis there are no entries yet. -/
theorem Mirrors.reduce_noEntries (h : Mirrors p q) (hs : q.state = .opened) :
    Agree (p.reduce .noEntries) (q.reduce .noEntries) := by
  have := h.goto_entries hs []
  rw [Parser.reduce_eq (Nat.zero_le _), Allocator.reduce_eq (Nat.zero_le _)]
  simpa [Production.arity, Production.lhs, Production.build, Production.allocate, Expr.entryNodes] using this

/-- One more expression is the next entry. -/
theorem Mirrors.reduce_moreEntries (h : Mirrors p q) (hs : q.state = .entry) :
    Agree (p.reduce .moreEntries) (q.reduce .moreEntries) := by
  obtain ⟨p₀, q₀, e, h₀, rfl, hq, -, hin⟩ := h.of_node (by rw [hs]; rfl)
  obtain ⟨p₁, q₁, es, h₁, rfl, rfl, ho⟩ := h₀.of_inside (hin hs)
  have := h₁.goto_entries ho (e :: es)
  rw [hq, Parser.reduce_eq (Nat.le_add_left 2 _), Allocator.reduce_eq (Nat.le_add_left 2 _)]
  simpa [Production.arity, Production.lhs, Production.build, Production.allocate, putNode, putEntries,
    Expr.entryNodes_concat, Expr.length_entryNodes] using this

/-- A closing parenthesis completes the list, whose node comes behind those of its entries. -/
theorem Mirrors.reduce_list (h : Mirrors p q) (hs : q.state = .closed) :
    Agree (p.reduce .list) (q.reduce .list) := by
  obtain ⟨p₀, q₀, r, h₀, rfl, hq, hin⟩ := h.of_token (by rw [hs]; rfl)
  obtain ⟨p₁, q₁, es, h₁, rfl, rfl, ho⟩ := h₀.of_inside (hin hs)
  obtain ⟨p₂, q₂, l, h₂, rfl, hq₁, -⟩ := h₁.of_token (by rw [ho]; rfl)
  have := h₂.goto_node (.list es.reverse) (l := .list) nofun
  rw [hq, hq₁, Parser.reduce_eq (Nat.le_add_left 3 _), Allocator.reduce_eq (Nat.le_add_left 3 _)]
  simpa [Production.arity, Production.lhs, Production.build, Production.allocate, shift, Parser.shift,
    putEntries, Node.addTo, Expr.nodesFrom, Expr.size, Expr.length_entryNodes] using this

theorem Mirrors.reduce (h : Mirrors p q) {k : Option Token.Kind}
    (ha : q.state.action k = some (.reduce r)) : Agree (p.reduce r) (q.reduce r) := by
  have hs := State.eq_top ha
  cases r with
  | expAtom => exact h.reduce_pass (.inl rfl) hs
  | expList => exact h.reduce_pass (.inr rfl) hs
  | atomNumber | atomString | atomSymbol => exact h.reduce_atom rfl hs
  | list => exact h.reduce_list hs
  | noEntries => exact h.reduce_noEntries hs
  | moreEntries => exact h.reduce_moreEntries hs

/-! ## Runs -/

/-- What is accepted is the whole, so nothing is under it, and its nodes are all there are. -/
theorem Mirrors.accept (h : Mirrors p q) {k : Option Token.Kind}
    (ha : q.state.action k = some .accept) (err : ParseError) :
    p.accept err = (q.accept err).result.map Arena.ofExpr := by
  have hs : q.state = .whole := State.eq_whole ha
  obtain ⟨p₀, q₀, e, h₀, rfl, hq, hstart, -⟩ := h.of_node (by rw [hs]; rfl)
  obtain ⟨rfl, rfl⟩ := h₀.of_start (hstart hs)
  rw [hq]
  simp [Allocator.accept, Parser.accept, putNode, Allocator.start, Ending.result, Except.map, Arena.ofExpr,
    Expr.nodes, Expr.length_nodesFrom]

theorem run_end (p : Allocator) (pos : Nat) : p.run [] (.done pos) =
    match p.state.action none with
    | some (.shift _) => .error (.unexpectedEnd 0)
    | some (.reduce r) =>
      match p.reduce r with
      | .ok p' => p'.run [] (.done pos)
      | .error t => .error (.unexpected 0 t)
    | some .accept => p.accept (.unexpectedEnd pos)
    | none => .error (.unexpectedEnd pos) := by
  rw [run]
  split <;> simp only [*]
  split <;> simp only [*]

theorem run_cons (p : Allocator) (t : Token) (ts : List Token) (stop : Lexed.Stop) :
    p.run (t :: ts) stop =
      match p.state.action (some t.kind) with
      | some (.shift next) => (p.shift t next).run ts stop
      | some (.reduce r) =>
        match p.reduce r with
        | .ok p' => p'.run (t :: ts) stop
        | .error t' => .error (.unexpected 0 t')
      | some .accept => p.accept (.unexpectedToken t)
      | none => .error (.unexpectedToken t) := by
  rw [run]
  split <;> simp only [*]
  split <;> simp only [*]

/-- The run with numbers ends as the one with expressions, and gives the nodes of what that
    accepts. -/
theorem Mirrors.run_eq (h : Mirrors p q) (ts : List Token) (stop : Lexed.Stop) :
    p.run ts stop = (q.run ts stop).result.map Arena.ofExpr := by
  fun_induction Parser.run q ts stop generalizing p with
  | case1 => rw [run]; rfl
  | case2 q pos r ha q' hr ih =>
    obtain ⟨p', hp, h'⟩ := (hr ▸ h.reduce ha).of_ok
    rw [run_end, h.state, ha]
    simp only [hp, ih h']
  | case3 q pos r ha t hr =>
    rw [run_end, h.state, ha]
    simp only [(hr ▸ h.reduce ha).of_error]
    rfl
  | case4 q pos ha =>
    rw [run_end, h.state, ha]
    exact h.accept ha _
  | case5 q pos next ha =>
    rw [run_end, h.state, ha]
    rfl
  | case6 q pos ha =>
    rw [run_end, h.state, ha]
    rfl
  | case7 q t ts stop next ha ih =>
    rw [run_cons, h.state, ha]
    exact ih (h.token t ha)
  | case8 q t ts stop r ha q' hr ih =>
    obtain ⟨p', hp, h'⟩ := (hr ▸ h.reduce ha).of_ok
    rw [run_cons, h.state, ha]
    simp only [hp, ih h']
  | case9 q t ts stop r ha t' hr =>
    rw [run_cons, h.state, ha]
    simp only [(hr ▸ h.reduce ha).of_error]
    rfl
  | case10 q t ts stop ha =>
    rw [run_cons, h.state, ha]
    exact h.accept ha _
  | case11 q t ts stop ha =>
    rw [run_cons, h.state, ha]
    rfl

end Allocator

namespace Arena

/-- Reading a text with numbers gives the nodes of the expression that it is, or the same error. -/
theorem parse_eq (src : List Char) : parse src = (Expr.parse src).map ofExpr :=
  Allocator.Mirrors.start.run_eq _ _

theorem parseProgram_eq (src : List Char) : parseProgram src = (Expr.parseProgram src).map ofExpr :=
  Allocator.Mirrors.start.run_eq _ _

end Arena

end ByteLisp
