/-
  ByteLisp: the grammar.

      Exp  : NUMBER | STRING | SYMBOL | List
      List : '(' Exp* ')'

  * `ParseTree` is a derivation of an expression, `ParseTree.tokens` the tokens
    that it derives and `ParseTree.expr` the expression that they stand for;
  * `tokens_inj`: the tokens have no other derivation;
  * `Viable`: the tokens are the start of an expression;
  * `Progress.Reads` says what the tokens read so far amount to, and `run_accepted_iff`
    and `run_failed_iff` what follows for a run: it accepts the tokens of a derivation,
    and it fails with the `FirstError`, at the first token that no expression goes on
    with.
-/
import ByteLisp.Proofs.Syntax.Progress
import Mathlib.Data.List.Induction

namespace ByteLisp

/-- A token that is an expression by itself. -/
def Token.IsAtom (t : Token) : Prop := t.kind ≠ .parenOpen ∧ t.kind ≠ .parenClose

/-- A derivation of an expression. -/
inductive ParseTree where
  | atom (t : Token) (ht : t.IsAtom)
  | list (l : Token) (hl : l.kind = .parenOpen) (entries : List ParseTree) (r : Token)
    (hr : r.kind = .parenClose)

namespace ParseTree

mutual

/-- The tokens of a derivation, from left to right. -/
def tokens : ParseTree → List Token
  | atom t _ => [t]
  | list l _ ds r _ => l :: (allTokens ds ++ [r])

/-- The tokens of some derivations. -/
def allTokens : List ParseTree → List Token
  | [] => []
  | d :: ds => tokens d ++ allTokens ds

end

mutual

/-- The expression that is derived. -/
def expr : ParseTree → Expr
  | atom t _ => t.atom
  | list _ _ ds _ _ => .list (exprs ds)

/-- The expressions that are derived. -/
def exprs : List ParseTree → List Expr
  | [] => []
  | d :: ds => expr d :: exprs ds

end

@[simp] theorem allTokens_append (ds ds' : List ParseTree) :
    allTokens (ds ++ ds') = allTokens ds ++ allTokens ds' := by
  induction ds with
  | nil => rfl
  | cons d ds ih => simp [allTokens, ih]

@[simp] theorem exprs_append (ds ds' : List ParseTree) : exprs (ds ++ ds') = exprs ds ++ exprs ds' := by
  induction ds with
  | nil => rfl
  | cons d ds ih => simp [exprs, ih]

/-! ## Derivations are unique -/

/-- No expression starts there: the tokens end, or a list is closed. -/
def Stops (ts : List Token) : Prop := ∀ t ∈ ts.head?, t.kind = .parenClose

theorem stops_nil : Stops [] := nofun

theorem tokens_head (d : ParseTree) : ∃ t ts, d.tokens = t :: ts ∧ t.kind ≠ .parenClose := by
  cases d with
  | atom t ht => exact ⟨t, [], rfl, ht.2⟩
  | list l hl ds r hr => exact ⟨l, _, rfl, by simp [hl]⟩

mutual

/-- An expression is the start of a text in one way only. -/
theorem tokens_append_inj (d d' : ParseTree) {ts ts' : List Token}
    (h : d.tokens ++ ts = d'.tokens ++ ts') : d = d' ∧ ts = ts' := by
  cases d with
  | atom t ht =>
    cases d' with
    | atom t' ht' =>
      simp only [tokens, List.cons_append, List.nil_append, List.cons.injEq] at h
      obtain ⟨rfl, rfl⟩ := h
      exact ⟨rfl, rfl⟩
    | list l' hl' ds' r' hr' =>
      simp only [tokens, List.cons_append, List.nil_append, List.cons.injEq] at h
      exact absurd hl' (h.1 ▸ ht.1)
  | list l hl ds r hr =>
    cases d' with
    | atom t' ht' =>
      simp only [tokens, List.cons_append, List.nil_append, List.cons.injEq] at h
      exact absurd hl (h.1 ▸ ht'.1)
    | list l' hl' ds' r' hr' =>
      simp only [tokens, List.cons_append, List.append_assoc, List.nil_append, List.cons.injEq] at h
      obtain ⟨rfl, h⟩ := h
      obtain ⟨rfl, hrest⟩ := allTokens_append_inj ds ds' (by simpa [Stops] using hr)
        (by simpa [Stops] using hr') h
      obtain ⟨rfl, rfl⟩ := List.cons.inj hrest
      exact ⟨rfl, rfl⟩

theorem allTokens_append_inj (ds ds' : List ParseTree) {ts ts' : List Token} (hs : Stops ts)
    (hs' : Stops ts') (h : allTokens ds ++ ts = allTokens ds' ++ ts') : ds = ds' ∧ ts = ts' := by
  cases ds with
  | nil =>
    cases ds' with
    | nil => exact ⟨rfl, h⟩
    | cons d' ds' =>
      obtain ⟨t, us, ht, hk⟩ := d'.tokens_head
      simp only [allTokens, ht, List.nil_append, List.cons_append] at h
      subst h
      exact absurd (hs t rfl) hk
  | cons d ds =>
    cases ds' with
    | nil =>
      obtain ⟨t, us, ht, hk⟩ := d.tokens_head
      simp only [allTokens, ht, List.nil_append, List.cons_append] at h
      subst h
      exact absurd (hs' t rfl) hk
    | cons d' ds' =>
      simp only [allTokens, List.append_assoc] at h
      obtain ⟨rfl, hds⟩ := tokens_append_inj d d' h
      obtain ⟨rfl, hrest⟩ := allTokens_append_inj ds ds' hs hs' hds
      exact ⟨rfl, hrest⟩

end

theorem tokens_inj {d d' : ParseTree} (h : d.tokens = d'.tokens) : d = d' :=
  (tokens_append_inj d d' (congrArg (· ++ []) h)).1

theorem allTokens_inj {ds ds' : List ParseTree} (h : allTokens ds = allTokens ds') : ds = ds' :=
  (allTokens_append_inj ds ds' stops_nil stops_nil (congrArg (· ++ []) h)).1

end ParseTree

open ParseTree

/-- The tokens are the start of an expression. -/
def Viable (ts : List Token) : Prop := ∃ (d : ParseTree) (rest : List Token), d.tokens = ts ++ rest

theorem Viable.left {ts us : List Token} (h : Viable (ts ++ us)) : Viable ts := by
  obtain ⟨d, rest, h⟩ := h
  exact ⟨d, us ++ rest, by rw [h, List.append_assoc]⟩

/-! ## Reading -/

namespace Progress

/-- What the tokens read so far amount to. -/
inductive Reads : List Token → Progress → Prop
  | start : Reads [] (reading [])
  | inside {ts around} (l : Token) (hl : l.kind = .parenOpen) (ds : List ParseTree) :
      Reads ts (reading around) →
      Reads (ts ++ l :: allTokens ds) (reading ((exprs ds).reverse :: around))
  | whole (d : ParseTree) : Reads d.tokens (complete d.expr)

variable {around : List (List Expr)} {es : List Expr} {q q' : Progress} {t : Token}
  {ts rest : List Token} {stop : Lexed.Stop} {e : Expr}

theorem next_atom (ht : t.IsAtom) : (reading around).next t = some (finish t.atom around) := by
  obtain ⟨ho, hc⟩ := ht
  unfold next
  split
  · next hx => cases hx
  · next hx =>
    cases hx
    split
    · exact absurd ‹_› ho
    · exact absurd ‹_› hc
    · rfl

mutual

/-- The tokens of a derivation are read as the expression. -/
theorem run_tokens (d : ParseTree) (around : List (List Expr)) (rest : List Token)
    (stop : Lexed.Stop) :
    (reading around).run (d.tokens ++ rest) stop = (finish d.expr around).run rest stop := by
  cases d with
  | atom t ht =>
    simp only [tokens, expr, List.cons_append, List.nil_append, run, next_atom ht]
  | list l hl ds r hr =>
    have inside := run_allTokens ds [] around (r :: rest) stop
    simp only [tokens, expr, List.cons_append, List.append_assoc, List.nil_append, run, next, hl]
    rw [inside]
    simp [run, next, hr]

theorem run_allTokens (ds : List ParseTree) (es : List Expr) (around : List (List Expr))
    (rest : List Token) (stop : Lexed.Stop) :
    (reading (es :: around)).run (allTokens ds ++ rest) stop =
      (reading (((exprs ds).reverse ++ es) :: around)).run rest stop := by
  cases ds with
  | nil => rfl
  | cons d ds =>
    rw [allTokens, List.append_assoc, run_tokens d, finish, run_allTokens ds]
    simp [exprs]

end

theorem Reads.finish (h : Reads ts (reading around)) (d : ParseTree) :
    Reads (ts ++ d.tokens) (finish d.expr around) := by
  cases h with
  | start => exact .whole d
  | inside l hl ds h =>
    have := Reads.inside l hl (ds ++ [d]) h
    simpa [allTokens, exprs, Progress.finish] using this

theorem Reads.next (h : Reads ts q) (hn : q.next t = some q') : Reads (ts ++ [t]) q' := by
  cases q with
  | complete e => cases hn
  | reading around =>
    by_cases ho : t.kind = .parenOpen
    · simp only [Progress.next, ho, Option.some.injEq] at hn
      subst hn
      exact h.inside t ho []
    by_cases hc : t.kind = .parenClose
    · simp only [Progress.next, hc] at hn
      cases h with
      | start => cases hn
      | inside l hl ds h =>
        cases hn
        have := h.finish (.list l hl ds t hc)
        simpa [tokens, expr] using this
    · rw [next_atom ⟨ho, hc⟩, Option.some.injEq] at hn
      subst hn
      exact h.finish (.atom t ⟨ho, hc⟩)

/-- Whatever has been read, an expression that comes next can be completed. -/
theorem Reads.completed (h : Reads ts (reading around)) (d : ParseTree) : Viable (ts ++ d.tokens) := by
  generalize hq : reading around = q at h
  induction h generalizing around d with
  | start => exact ⟨d, [], by simp⟩
  | inside l hl ds _ ih =>
    -- The list is closed behind the expression.
    obtain ⟨d', rest, h⟩ := ih (.list l hl (ds ++ [d]) ⟨.parenClose, [')'], Span.point 0⟩ rfl) rfl
    exact ⟨d', ⟨.parenClose, [')'], Span.point 0⟩ :: rest, by simpa [tokens, allTokens] using h⟩
  | whole => cases hq

theorem Reads.viable (h : Reads ts q) : Viable ts := by
  cases q with
  | reading around =>
    exact (h.completed (.atom ⟨.symbol, ['x'], Span.point 0⟩ ⟨nofun, nofun⟩)).left
  | complete e =>
    cases h with
    | whole d => exact ⟨d, [], by simp⟩

/-- A run over tokens that have been read goes on from what they amount to. -/
theorem Reads.run (h : Reads ts q) : (reading []).run (ts ++ rest) stop = q.run rest stop := by
  induction h generalizing rest with
  | start => rfl
  | inside l hl ds _ ih =>
    rw [List.append_assoc, ih, List.cons_append]
    simp only [Progress.run, Progress.next, hl]
    exact (run_allTokens ds [] _ rest stop).trans (by rw [List.append_nil])
  | whole d => exact run_tokens d [] rest stop

theorem run_derivation (d : ParseTree) (pos : Nat) :
    (reading []).run d.tokens (.done pos) = .accepted d.expr := by
  rw [← List.append_nil d.tokens, run_tokens]
  rfl

/-- A token that cannot follow is none that an expression goes on with. -/
theorem Reads.not_viable (h : Reads ts q) (hn : q.next t = none) : ¬ Viable (ts ++ [t]) := by
  rintro ⟨d, rest, hd⟩
  have accepted := run_derivation d 0
  rw [hd, List.append_assoc, List.singleton_append, h.run, Progress.run, hn] at accepted
  cases accepted

/-- A run that accepts has read the tokens of a derivation, up to the end of the text. -/
theorem Reads.accepted (h : Reads ts q) (ha : q.run rest stop = .accepted e) :
    (∃ pos, stop = .done pos) ∧ ∃ d : ParseTree, d.tokens = ts ++ rest ∧ d.expr = e := by
  induction rest generalizing ts q with
  | nil =>
    cases stop with
    | failed err => cases ha
    | done pos =>
      cases h with
      | whole d =>
        cases ha
        exact ⟨⟨pos, rfl⟩, d, by simp, rfl⟩
      | start | inside => cases ha
  | cons t rest ih =>
    rw [Progress.run] at ha
    cases hn : q.next t with
    | none => rw [hn] at ha; cases ha
    | some q' =>
      rw [hn] at ha
      simpa using ih (h.next hn) ha

theorem run_accepted_iff : (reading []).run ts stop = .accepted e ↔
    (∃ pos, stop = .done pos) ∧ ∃ d : ParseTree, d.tokens = ts ∧ d.expr = e := by
  constructor
  · intro ha
    exact Reads.start.accepted ha
  · rintro ⟨⟨pos, rfl⟩, d, rfl, rfl⟩
    exact run_derivation d pos

end Progress

/-- The first thing that is wrong with a text that is to be an expression: a token with which no
    expression goes on, the end where no expression ends, or a character where no token starts. -/
inductive FirstError : List Token → Lexed.Stop → ParseError → Prop
  | token {pre t post stop} : Viable pre → ¬ Viable (pre ++ [t]) →
      FirstError (pre ++ t :: post) stop (.unexpectedToken t)
  | atEnd {ts pos} : Viable ts → (∀ d : ParseTree, d.tokens ≠ ts) →
      FirstError ts (.done pos) (.unexpectedEnd pos)
  | lex {ts e} : Viable ts → FirstError ts (.failed e) (.lex e)

namespace Progress

variable {q : Progress} {ts rest : List Token} {stop : Lexed.Stop} {e : Expr} {err : ParseError}

theorem Reads.failed (h : Reads ts q) (ha : q.run rest stop = .failed err) :
    FirstError (ts ++ rest) stop err := by
  induction rest generalizing ts q with
  | nil =>
    rw [List.append_nil]
    cases stop with
    | failed le =>
      cases ha
      exact .lex h.viable
    | done pos =>
      cases q with
      | complete e => cases ha
      | reading around =>
        cases ha
        refine .atEnd h.viable fun d hd => ?_
        have accepted := run_derivation d pos
        rw [hd, ← List.append_nil ts, h.run] at accepted
        cases accepted
  | cons t rest ih =>
    rw [Progress.run] at ha
    cases hn : q.next t with
    | none =>
      rw [hn] at ha
      cases ha
      exact .token h.viable (h.not_viable hn)
    | some q' =>
      rw [hn] at ha
      simpa using ih (h.next hn) ha

/-- The start of an expression has been read without an error. -/
theorem Reads.of_viable (h : Viable ts) : ∃ q, Reads ts q := by
  induction ts using List.reverseRecOn with
  | nil => exact ⟨_, .start⟩
  | append_singleton ts t ih =>
    obtain ⟨q, hq⟩ := ih h.left
    cases hn : q.next t with
    | none => exact absurd h (hq.not_viable hn)
    | some q' => exact ⟨q', hq.next hn⟩

theorem run_failed_iff : (reading []).run ts stop = .failed err ↔ FirstError ts stop err := by
  constructor
  · exact Reads.start.failed
  · rintro (⟨hv, hx⟩ | ⟨hv, hd⟩ | hv) <;> obtain ⟨q, hq⟩ := Reads.of_viable hv
    · rename_i pre t post
      rw [hq.run, Progress.run]
      cases hn : q.next t with
      | none => rfl
      | some q' => exact absurd (hq.next hn).viable hx
    · rw [← List.append_nil ts, hq.run]
      cases q with
      | reading around => rfl
      | complete e =>
        cases hq with
        | whole d => exact absurd rfl (hd d)
    · rw [← List.append_nil ts, hq.run]
      rfl

theorem run_not_broken : q.run ts stop ≠ .broken err := by
  induction ts generalizing q with
  | nil =>
    cases stop with
    | failed le => nofun
    | done pos => cases q <;> nofun
  | cons t ts ih =>
    rw [Progress.run]
    cases q.next t with
    | none => nofun
    | some q' => exact ih

end Progress

end ByteLisp
