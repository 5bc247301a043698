/-
  ByteLisp: what the parser has read.

  The stacks of the parser hold a complete expression, or the entries of the lists
  that are not finished yet, one within the other (`Progress`).

  * `Progress.next` is the effect of a token, `Progress.run` the run of the parser
    in these terms;
  * `Parser.Stands` relates the stacks to what has been read, and `Stands.step`
    says that the parser gets there after each token by shifting it and by some
    reductions;
  * `Stands.run_eq`: both runs end alike, so a reduction never fails.
-/
import ByteLisp.Expr.Parser

namespace ByteLisp

/-- The expression that a token other than a parenthesis stands for. -/
def Token.atom (t : Token) : Expr :=
  match t.kind with
  | .number => .number (Numeral.read t.text)
  | .string => .string (String.ofList (t.text.drop 1).dropLast)
  | _ => .symbol (String.ofList t.text)

/-- What matters of a token to the parser. -/
def Token.sense (t : Token) : Token.Kind × Expr := (t.kind, t.atom)

/-- The text of a token fits its kind. -/
def Token.Fits (t : Token) : Prop :=
  match t.kind with
  | .parenOpen => t.text = ['(']
  | .parenClose => t.text = [')']
  | .string => ∃ body, '"' ∉ body ∧ t.text = '"' :: body ++ ['"']
  | .number => t.text ≠ [] ∧ ∀ c ∈ t.text, c.isDigit = true
  | .symbol => ∃ c cs, t.text = c :: cs ∧ c.isDigit = false ∧
      (∀ x ∈ t.text, Lexer.isSymbolChar x = true) ∧ ¬ ['/', '/'] <+: t.text

/-- What has been read: the entries of the unfinished lists from the inside out, each latest
    first, or a complete expression. -/
inductive Progress where
  | reading (unfinished : List (List Expr))
  | complete (e : Expr)

namespace Progress

/-- An expression is complete: it is the whole, or the next entry of the list around it. -/
def finish (e : Expr) : List (List Expr) → Progress
  | [] => complete e
  | es :: around => reading ((e :: es) :: around)

/-- The next token, if it can follow. -/
def next : Progress → Token → Option Progress
  | complete _, _ => none
  | reading around, t =>
    match t.kind with
    | .parenOpen => some (reading ([] :: around))
    | .parenClose =>
      match around with
      | [] => none
      | es :: around => some (finish (.list es.reverse) around)
    | _ => some (finish t.atom around)

/-- Reads the tokens that remain; behind them the text stops. -/
def run (q : Progress) : List Token → Lexed.Stop → Ending
  | [], .failed e => .failed (.lex e)
  | [], .done pos =>
    match q with
    | complete e => .accepted e
    | reading _ => .failed (.unexpectedEnd pos)
  | t :: ts, stop =>
    match q.next t with
    | some q => q.run ts stop
    | none => .failed (.unexpectedToken t)

theorem next_congr {t u : Token} (h : t.sense = u.sense) (q : Progress) : q.next t = q.next u := by
  obtain ⟨hk, ha⟩ := Prod.mk.inj h
  cases q with
  | complete => rfl
  | reading around => simp only [next, hk, ha]

/-- Tokens of the same sense are accepted alike. -/
theorem run_accepted_congr {ts us : List Token} (h : ts.map Token.sense = us.map Token.sense)
    {q : Progress} {pos pos' : Nat} {e : Expr} (ha : q.run us (.done pos) = .accepted e) :
    q.run ts (.done pos') = .accepted e := by
  induction us generalizing ts q with
  | nil =>
    obtain rfl := List.map_eq_nil_iff.1 h
    cases q with
    | complete => exact ha
    | reading => cases ha
  | cons u us ih =>
    obtain ⟨t, ts, rfl, ht, hts⟩ := List.map_eq_cons_iff.1 h
    rw [run] at ha ⊢
    rw [next_congr ht]
    cases hn : q.next u with
    | none => rw [hn] at ha; cases ha
    | some q' =>
      rw [hn] at ha
      exact ih hts ha

end Progress

namespace Parser

/-- The stacks of the parser hold what has been read. -/
inductive Stands : Parser → Progress → Prop
  | start : Stands .start (.reading [])
  | inside {ss is around} (es : List Expr) (t : Token) : Stands ⟨ss, is⟩ (.reading around) →
      Stands ⟨.inside :: .opened :: ss, .entries es :: .token t :: is⟩ (.reading (es :: around))
  | whole (e : Expr) : Stands ⟨[.whole, .start], [.exp e]⟩ (.complete e)

variable {p p' : Parser} {q q' : Progress} {t : Token} {ts : List Token} {stop : Lexed.Stop}
  {around : List (List Expr)} {e : Expr} {s s' : State} {ss : List State} {is : List Item}

/-! ## Moves -/

theorem run_shift (ha : p.state.action (some t.kind) = some (.shift s)) :
    p.run (t :: ts) stop = (p.shift t s).run ts stop := by
  rw [run]
  split <;> simp_all

theorem run_reduce_token {r : Production} (ha : p.state.action (some t.kind) = some (.reduce r))
    (hr : p.reduce r = .ok p') : p.run (t :: ts) stop = p'.run (t :: ts) stop := by
  rw [run]
  split
  · simp_all
  · split <;> simp_all
  · simp_all
  · simp_all

theorem run_failed {e : LexError} : p.run [] (.failed e) = .failed (.lex e) := by
  rw [run]

theorem run_reduce_end {r : Production} {pos : Nat} (ha : p.state.action none = some (.reduce r))
    (hr : p.reduce r = .ok p') : p.run [] (.done pos) = p'.run [] (.done pos) := by
  rw [run]
  split
  · split <;> simp_all
  · simp_all
  · simp_all
  · simp_all

/-- A production that is reduced whatever follows. -/
theorem run_reduce {r : Production} (ha : ∀ k, p.state.action k = some (.reduce r))
    (hr : p.reduce r = .ok p') : p.run ts stop = p'.run ts stop := by
  cases ts with
  | cons t ts => exact run_reduce_token (ha _) hr
  | nil =>
    cases stop with
    | failed e => rw [run_failed, run_failed]
    | done pos => exact run_reduce_end (ha none) hr

theorem run_unexpected (ha : p.state.action (some t.kind) = none) :
    p.run (t :: ts) stop = .failed (.unexpectedToken t) := by
  rw [run]
  split <;> simp_all

theorem run_accept {pos : Nat} (ha : p.state.action none = some .accept) (hi : p.items = .exp e :: is) :
    p.run [] (.done pos) = .accepted e := by
  rw [run]
  split <;> simp_all [accept]

theorem run_unfinished {pos : Nat} (ha : p.state.action none = none) :
    p.run [] (.done pos) = .failed (.unexpectedEnd pos) := by
  rw [run]
  split <;> simp_all

/-! ## Stacks -/

/-- An expression can come next: then an atom, a list and an expression lead to a state. -/
theorem Stands.goto (h : Stands p (.reading around)) :
    p.state.goto .atom = some .atom ∧ p.state.goto .list = some .list ∧
      p.state.goto .exp = some (if around = [] then .whole else .entry) ∧
      ∀ k, k ≠ .parenClose → p.state.action (some k) = State.startExp k := by
  cases h with
  | start => exact ⟨rfl, rfl, rfl, fun k _ => rfl⟩
  | inside t h =>
    refine ⟨rfl, rfl, rfl, fun k hk => ?_⟩
    cases k with
    | parenClose => exact absurd rfl hk
    | _ => rfl

/-- An expression on top of the stacks is the whole, or becomes an entry with the next token. -/
theorem Stands.exp (h : Stands p (.reading around)) (hto : p.state.goto .exp = some s) :
    ∃ p', Stands p' (.finish e around) ∧
      ∀ ts stop, run ⟨s :: p.states, .exp e :: p.items⟩ ts stop = p'.run ts stop := by
  cases h with
  | start =>
    cases hto
    exact ⟨_, .whole e, fun _ _ => rfl⟩
  | @inside ss is around es t h =>
    cases hto
    refine ⟨_, .inside _ t h, fun ts stop => ?_⟩
    cases ts with
    | cons t ts => exact run_reduce_token rfl rfl
    | nil =>
      cases stop with
      | failed err => rw [run_failed, run_failed]
      | done pos => rw [run_unfinished rfl, run_unfinished rfl]

/-- A production with one item on its right-hand side. -/
theorem reduce_one {r : Production} {i j : Item} (hr : r.arity = 1) (hb : r.build [i] = .ok j)
    (hg : (ss.headD .start).goto r.lhs = some s') :
    reduce ⟨s :: ss, i :: is⟩ r = .ok ⟨s' :: ss, j :: is⟩ := by
  rw [List.headD_eq_head?_getD] at hg
  simp [reduce, hr, hb, hg]

/-- An atom or a list on top of the stacks is an expression. -/
theorem Stands.sort (h : Stands p (.reading around)) {r : Production}
    (hs : ∀ k, s.action k = some (.reduce r)) (hr : r = .expAtom ∨ r = .expList) :
    ∃ p', Stands p' (.finish e around) ∧
      ∀ ts stop, run ⟨s :: p.states, .exp e :: p.items⟩ ts stop = p'.run ts stop := by
  obtain ⟨-, -, hto, -⟩ := h.goto
  obtain ⟨p', hp', hrun⟩ := h.exp (e := e) hto
  refine ⟨p', hp', fun ts stop => ?_⟩
  rw [← hrun]
  refine run_reduce hs ?_
  rcases hr with rfl | rfl
  · exact reduce_one rfl rfl hto
  · exact reduce_one rfl rfl hto

/-- An atom is taken and is an expression. -/
theorem Stands.atom (h : Stands p (.reading around)) {r : Production}
    (ha : State.startExp t.kind = some (.shift s)) (hs : ∀ k, s.action k = some (.reduce r))
    (hl : r.lhs = .atom) (hn : r.arity = 1) (hb : r.build [.token t] = .ok (.exp e)) :
    ∃ p', Stands p' (.finish e around) ∧ ∀ ts stop, p.run (t :: ts) stop = p'.run ts stop := by
  obtain ⟨hto, -, -, start⟩ := h.goto
  obtain ⟨p', hp', hrun⟩ := h.sort (e := e) (s := .atom) (fun _ => rfl) (Or.inl rfl)
  have hk : t.kind ≠ .parenClose := by
    intro hk
    rw [hk] at ha
    cases ha
  have hred : (p.shift t s).reduce r = .ok ⟨.atom :: p.states, .exp e :: p.items⟩ :=
    reduce_one hn hb (by rw [hl]; exact hto)
  refine ⟨p', hp', fun ts stop => ?_⟩
  rw [run_shift ((start _ hk).trans ha), ← hrun]
  exact run_reduce hs hred

/-- An opening parenthesis is taken and starts a list without entries. -/
theorem Stands.opened (h : Stands p (.reading around)) (hk : t.kind = .parenOpen) :
    ∃ p', Stands p' (.reading ([] :: around)) ∧
      ∀ ts stop, p.run (t :: ts) stop = p'.run ts stop := by
  obtain ⟨-, -, -, start⟩ := h.goto
  refine ⟨_, .inside [] t h, fun ts stop => ?_⟩
  have opens : p.state.action (some t.kind) = some (.shift .opened) := by
    rw [hk]
    exact start _ nofun
  rw [run_shift opens]
  cases ts with
  | cons t ts => exact run_reduce_token rfl rfl
  | nil =>
    cases stop with
    | failed err => rw [run_failed, run_failed]
    | done pos => rw [run_unfinished rfl, run_unfinished rfl]

/-- A closing parenthesis is taken and completes a list. -/
theorem Stands.closed {es : List Expr} (h : Stands p (.reading (es :: around)))
    (hk : t.kind = .parenClose) :
    ∃ p', Stands p' (.finish (.list es.reverse) around) ∧
      ∀ ts stop, p.run (t :: ts) stop = p'.run ts stop := by
  cases h with
  | @inside ss is _ _ l h =>
    obtain ⟨-, hto, -⟩ := h.goto
    obtain ⟨p', hp', hrun⟩ := h.sort (e := .list es.reverse) (s := .list) (fun _ => rfl) (Or.inr rfl)
    have closes : (Parser.state ⟨.inside :: .opened :: ss, .entries es :: .token l :: is⟩).action
        (some t.kind) = some (.shift .closed) := by
      rw [hk]
      rfl
    refine ⟨p', hp', fun ts stop => ?_⟩
    rw [run_shift closes, ← hrun]
    refine run_reduce (fun _ => rfl) ?_
    rw [Parser.state, List.headD_eq_head?_getD] at hto
    simp [reduce, shift, Production.arity, Production.build, Production.lhs, hto]

theorem read?_eq_some {text : List Char} (h : text ≠ [] ∧ ∀ c ∈ text, c.isDigit = true) :
    Numeral.read? text = some (Numeral.read text) := by
  rw [Numeral.read?, if_pos ⟨h.1, List.all_eq_true.2 h.2⟩]

theorem quoted?_eq_some {body : List Char} (h : t.text = '"' :: body ++ ['"']) :
    t.quoted? = some body := by
  simp [Token.quoted?, h]

/-- The parser takes each token that can follow and gets to where it stands for what has then been
    read. -/
theorem Stands.step (h : Stands p q) (ht : t.Fits) (hn : q.next t = some q') :
    ∃ p', Stands p' q' ∧ ∀ ts stop, p.run (t :: ts) stop = p'.run ts stop := by
  cases q with
  | complete e => cases hn
  | reading around =>
    unfold Token.Fits at ht
    unfold Progress.next at hn
    cases hk : t.kind with
    | parenOpen =>
      simp only [hk] at hn
      cases hn
      exact h.opened hk
    | parenClose =>
      simp only [hk] at hn
      cases around with
      | nil => cases hn
      | cons es around =>
        cases hn
        exact h.closed hk
    | number =>
      simp only [hk] at hn ht
      cases hn
      refine h.atom (s := .number) (r := .atomNumber) (by rw [hk]; rfl) (fun _ => rfl) rfl rfl ?_
      simp [Production.build, read?_eq_some ht, Token.atom, hk]
    | string =>
      simp only [hk] at hn ht
      cases hn
      obtain ⟨body, -, hbody⟩ := ht
      refine h.atom (s := .string) (r := .atomString) (by rw [hk]; rfl) (fun _ => rfl) rfl rfl ?_
      simp [Production.build, quoted?_eq_some hbody, Token.atom, hk, hbody]
    | symbol =>
      simp only [hk] at hn
      cases hn
      refine h.atom (s := .symbol) (r := .atomSymbol) (by rw [hk]; rfl) (fun _ => rfl) rfl rfl ?_
      simp [Production.build, Token.atom, hk]

/-- The parser takes no token that cannot follow. -/
theorem Stands.stuck (h : Stands p q) (hn : q.next t = none) :
    p.run (t :: ts) stop = .failed (.unexpectedToken t) := by
  cases h with
  | whole e => exact run_unexpected rfl
  | start =>
    refine run_unexpected ?_
    unfold Progress.next at hn
    cases hk : t.kind <;> simp only [hk, reduceCtorEq] at hn
    rfl
  | inside es l h =>
    unfold Progress.next at hn
    cases hk : t.kind <;> simp only [hk, reduceCtorEq] at hn

/-- The run of the parser is a run over what has been read; in particular, all reductions succeed. -/
theorem Stands.run_eq (h : Stands p q) (ht : ∀ t ∈ ts, t.Fits) : p.run ts stop = q.run ts stop := by
  induction ts generalizing p q with
  | nil =>
    cases stop with
    | failed err => rw [run_failed, Progress.run]
    | done pos =>
      cases h with
      | start => exact run_unfinished rfl
      | inside es l h => exact run_unfinished rfl
      | whole e => exact run_accept rfl rfl
  | cons t ts ih =>
    rw [Progress.run]
    cases hn : q.next t with
    | none => exact h.stuck hn
    | some q' =>
      obtain ⟨p', hp', hrun⟩ := h.step (ht t List.mem_cons_self) hn
      rw [hrun]
      exact ih hp' fun t' ht' => ht t' (List.mem_cons_of_mem t ht')

end Parser

end ByteLisp
