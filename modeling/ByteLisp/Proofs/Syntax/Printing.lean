/-
  ByteLisp: what is written is read back.

  * `Token.printed`: how a token is written; only a number can be written differently;
  * `ParseTree.spelled`: the text of a derived expression is spelled from its tokens
    as they are written;
  * `ParseTree.parse_pretty_expr`: it is read as this expression;
  * `parse_pretty`: so is the text of an expression or a program that was read, if
    its numbers are written in digits that read back.
-/
import ByteLisp.Proofs.Syntax.Recognition
import ByteLisp.Proofs.Syntax.Spelling

namespace ByteLisp

/-- The text of the number is a row of digits that reads back. -/
def Numeral.ReadsBack (x : Float) : Prop := read? (write x).toList = some x

theorem Numeral.ReadsBack.digits {x : Float} (h : ReadsBack x) :
    ((write x).toList ≠ [] ∧ ∀ c ∈ (write x).toList, c.isDigit = true) ∧
      read (write x).toList = x := by
  unfold ReadsBack read? at h
  split at h
  · next hd => exact ⟨⟨hd.1, List.all_eq_true.1 hd.2⟩, Option.some.inj h⟩
  · cases h

/-! ## Tokens -/

namespace Token

/-- The token as it is written. -/
def printed (t : Token) : Token :=
  match t.kind with
  | .number => { t with text := (Numeral.write (Numeral.read t.text)).toList }
  | _ => t

/-- A number reads back. -/
def ReadsBack (t : Token) : Prop := t.kind = .number → Numeral.ReadsBack (Numeral.read t.text)

variable {t : Token}

theorem printed_number (hk : t.kind = .number) :
    t.printed = { t with text := (Numeral.write (Numeral.read t.text)).toList } := by
  simp [printed, hk]

theorem printed_of_ne (hk : t.kind ≠ .number) : t.printed = t := by
  unfold printed
  split
  · exact absurd ‹_› hk
  · rfl

@[simp] theorem printed_kind : t.printed.kind = t.kind := by
  unfold printed
  split <;> rfl

theorem printed_fits (ht : t.Fits) (hr : t.ReadsBack) : t.printed.Fits := by
  by_cases hk : t.kind = .number
  · rw [printed_number hk, Fits]
    simpa only [hk] using (hr hk).digits.1
  · rwa [printed_of_ne hk]

theorem printed_sense (hr : t.ReadsBack) : t.printed.sense = t.sense := by
  by_cases hk : t.kind = .number
  · simp only [sense, atom, printed_number hk, hk, (hr hk).digits.2]
  · rw [printed_of_ne hk]

theorem printed_quiet (hk : t.kind = .number) (hr : t.ReadsBack) : t.printed.Quiet := by
  have hd := (hr hk).digits.1.2
  rw [Quiet, OpensComment, printed_number hk]
  refine ⟨fun h => ?_, not_closes_of_digits hd⟩
  exact absurd (hd _ (h.subset List.mem_cons_self)) (by decide)

theorem opensComment_of_printed (hr : t.ReadsBack) (h : t.printed.OpensComment) :
    t.printed = t := by
  by_cases hk : t.kind = .number
  · exact absurd h (printed_quiet hk hr).1
  · exact printed_of_ne hk

end Token

theorem Unclosed.printed {ts : List Token} (h : Unclosed ts) (hr : ∀ t ∈ ts, t.ReadsBack) :
    Unclosed (ts.map Token.printed) where
  within := by
    refine List.forall_mem_map.2 fun t ht ho => ?_
    have hp := Token.opensComment_of_printed (hr t ht) ho
    rw [hp] at ho ⊢
    exact h.within t ht ho
  behind := by
    refine List.pairwise_map.2 (h.behind.imp_of_mem fun {t u} ht hu hc ho => ?_)
    rw [Token.opensComment_of_printed (hr t ht) ho] at ho
    by_cases hk : u.kind = .number
    · exact (Token.printed_quiet hk (hr u hu)).2
    · rw [Token.printed_of_ne hk]
      exact hc ho

/-! ## Expressions -/

namespace Expr

mutual

/-- The numbers of an expression. -/
def numbers : Expr → List Float
  | number x => [x]
  | list items => entriesNumbers items
  | _ => []

/-- The numbers of the entries of a list. -/
def entriesNumbers : List Expr → List Float
  | [] => []
  | e :: es => numbers e ++ entriesNumbers es

end

end Expr

namespace ParseTree

mutual

theorem read_mem_numbers (d : ParseTree) {t : Token} (ht : t ∈ d.tokens) (hk : t.kind = .number) :
    Numeral.read t.text ∈ d.expr.numbers := by
  cases d with
  | atom t' ht' =>
    obtain rfl := List.mem_singleton.1 ht
    simp [expr, Token.atom, hk, Expr.numbers]
  | list l hl ds r hr =>
    simp only [tokens, List.mem_cons, List.mem_append, List.not_mem_nil, or_false] at ht
    rcases ht with rfl | ht | rfl
    · rw [hl] at hk
      cases hk
    · exact read_mem_entriesNumbers ds ht hk
    · rw [hr] at hk
      cases hk

theorem read_mem_entriesNumbers (ds : List ParseTree) {t : Token} (ht : t ∈ allTokens ds)
    (hk : t.kind = .number) : Numeral.read t.text ∈ Expr.entriesNumbers (exprs ds) := by
  cases ds with
  | nil => nomatch ht
  | cons d ds =>
    rw [allTokens, List.mem_append] at ht
    rw [exprs, Expr.entriesNumbers, List.mem_append]
    exact ht.imp (read_mem_numbers d · hk) (read_mem_entriesNumbers ds · hk)

end

theorem pretty_atom {t : Token} (ht : t.Fits) (ha : t.IsAtom) :
    t.atom.pretty.toList = t.printed.text := by
  obtain ⟨kind, text, span⟩ := t
  cases kind with
  | parenOpen => exact absurd rfl ha.1
  | parenClose => exact absurd rfl ha.2
  | number => rfl
  | symbol => simp [Token.atom, Expr.pretty, Token.printed]
  | string =>
    obtain ⟨body, -, rfl⟩ := ht
    simp [Token.atom, Expr.pretty, Token.printed]

mutual

/-- The text of an expression is spelled from its tokens. -/
theorem spelled (d : ParseTree) {ts : List Token} {cs : List Char}
    (hd : ∀ t ∈ d.tokens, t.Fits ∧ t.ReadsBack) (hs : Spelled ts cs) (hb : Breaks cs) :
    Spelled (d.tokens.map Token.printed ++ ts) (d.expr.pretty.toList ++ cs) := by
  cases d with
  | atom t ht =>
    obtain ⟨fits, back⟩ := hd t List.mem_cons_self
    rw [expr, pretty_atom fits ht]
    exact .token (Token.printed_fits fits back) (fun _ => hb) hs
  | list l hl ds r hr =>
    simp only [tokens, List.forall_mem_cons, List.forall_mem_append, List.not_mem_nil,
      false_imp_iff, implies_true, and_true] at hd
    obtain ⟨⟨hlf, -⟩, hds, hrf, -⟩ := hd
    have hlp : l.printed = l := Token.printed_of_ne (by simp [hl])
    have hrp : r.printed = r := Token.printed_of_ne (by simp [hr])
    have closing : Spelled (r :: ts) (')' :: cs) := by
      have := Spelled.token hrf (fun _ => hb) hs
      rwa [hrf.parenClose hr] at this
    have entries := spelledEntries ds hds closing (Breaks.parenClose cs)
    have opening := Spelled.token hlf (absurd hl) entries
    rw [hlf.parenOpen hl] at opening
    simpa [tokens, expr, Expr.pretty, hlp, hrp] using opening

/-- So are those of entries, with blanks between them. -/
theorem spelledEntries (ds : List ParseTree) {ts : List Token} {cs : List Char}
    (hd : ∀ t ∈ allTokens ds, t.Fits ∧ t.ReadsBack) (hs : Spelled ts cs) (hb : Breaks cs) :
    Spelled ((allTokens ds).map Token.printed ++ ts) ((Expr.prettyEntries (exprs ds)).toList ++ cs) := by
  cases ds with
  | nil => exact hs
  | cons d ds =>
    obtain ⟨first, others⟩ := List.forall_mem_append.1 hd
    cases ds with
    | nil => simpa [allTokens, exprs, Expr.prettyEntries] using spelled d first hs hb
    | cons d' ds =>
      have rest := spelledEntries (d' :: ds) others hs hb
      have := spelled d first rest.blank (Breaks.blank _)
      simpa [allTokens, exprs, Expr.prettyEntries] using this

end

/-- The text of a derived expression is read as this expression. -/
theorem parse_pretty_expr (d : ParseTree) (hd : ∀ t ∈ d.tokens, t.Fits ∧ t.ReadsBack)
    (hu : Unclosed d.tokens) : Expr.parse d.expr.pretty.toList = .ok d.expr := by
  have spelled : Spelled (d.tokens.map Token.printed) d.expr.pretty.toList := by
    simpa using d.spelled hd .nil nofun
  have printed := hu.printed fun t ht => (hd t ht).2
  obtain ⟨hsense, pos, hstop⟩ := spelled.lexes printed 0
  have back : (d.tokens.map Token.printed).map Token.sense = d.tokens.map Token.sense := by
    rw [List.map_map]
    exact List.map_congr_left fun t ht => Token.printed_sense (hd t ht).2
  rw [Expr.parse, Expr.result_eq_ok Expr.parsing_not_broken, Expr.parsing_eq, lex, hstop]
  exact Progress.run_accepted_congr (hsense.trans back) (Progress.run_derivation d 0)

end ParseTree

theorem Unclosed.program {ts : List Token} {stop : Lexed.Stop} (h : Unclosed ts) :
    Unclosed (Expr.opening ++ ts ++ Expr.closing stop) := by
  refine h.within_quiet ?_ ?_
  · simp only [Expr.opening, List.forall_mem_cons, List.not_mem_nil, false_imp_iff, implies_true,
      and_true]
    exact ⟨⟨by simp [Token.OpensComment], by simp [closes_cons, not_closes_nil]⟩,
      ⟨by simp [Token.OpensComment], by simp [closes_cons, not_closes_nil]⟩⟩
  · cases stop with
    | failed e => simp [Expr.closing]
    | done pos =>
      refine List.forall_mem_singleton.2 ⟨by simp [Token.OpensComment], ?_⟩
      simp [closes_cons, not_closes_nil]

namespace Expr

/-- The text of what was read, as an expression or as a program, is read as the same expression. -/
theorem parse_pretty {src : List Char} {e : Expr}
    (h : parse src = .ok e ∨ parseProgram src = .ok e)
    (finite : ∀ x ∈ e.numbers, x.isFinite = true)
    (host : ∀ x ∈ e.numbers, x.isFinite = true → Numeral.ReadsBack x) :
    parse e.pretty.toList = .ok e := by
  obtain ⟨d, hfits, hunclosed, rfl⟩ : ∃ d : ParseTree, (∀ t ∈ d.tokens, t.Fits) ∧
      Unclosed d.tokens ∧ d.expr = e := by
    rcases h with h | h
    · obtain ⟨d, hd, rfl⟩ := parse_ok_iff.1 h
      have hd := (Lexed.derives_singleton.1 hd).2
      refine ⟨d, ?_, ?_, rfl⟩
      · rw [hd]
        exact fits_of_mem_lex
      · rw [hd]
        exact unclosed_lexFrom
    · rw [parseProgram, result_eq_ok parsingProgram_not_broken, parsingProgram_eq,
        Progress.run_accepted_iff] at h
      obtain ⟨-, d, hd, rfl⟩ := h
      refine ⟨d, ?_, ?_, rfl⟩
      · rw [hd]
        exact fits_of_mem_program
      · rw [hd]
        exact unclosed_lexFrom.program
  refine d.parse_pretty_expr (fun t ht => ⟨hfits t ht, fun hk => ?_⟩) hunclosed
  have hx := d.read_mem_numbers ht hk
  exact host _ hx (finite _ hx)

/-- Here `/*` is a symbol, and so are the letters behind the digits. -/
def unclosed : List Char := "(f 12a /* \"// x\" // )\n)".toList

theorem parse_pretty_unclosed :
    let e := list [symbol "f", number (Numeral.read ['1', '2']), symbol "a", symbol "/*",
      string "// x"]
    parse unclosed = .ok e ∧ e.numbers = [Numeral.read ['1', '2']] ∧
      (Numeral.read ['1', '2']).isFinite = true ∧ Numeral.ReadsBack (Numeral.read ['1', '2']) ∧
      parse e.pretty.toList = .ok e := by
  have finite : (Numeral.read ['1', '2']).isFinite = true := by decide +kernel
  have back : Numeral.ReadsBack (Numeral.read ['1', '2']) := by
    have digits : (Numeral.write (Numeral.read ['1', '2'])).toList = ['1', '2'] := by decide +kernel
    rw [Numeral.ReadsBack, digits]
    rfl
  have ok : parse unclosed = .ok (list [symbol "f", number (Numeral.read ['1', '2']), symbol "a",
      symbol "/*", string "// x"]) := by
    refine parse_ok_iff.2 ⟨.list ⟨.parenOpen, ['('], ⟨0, 1⟩⟩ rfl
      [.atom ⟨.symbol, ['f'], ⟨1, 2⟩⟩ ⟨nofun, nofun⟩,
        .atom ⟨.number, ['1', '2'], ⟨3, 5⟩⟩ ⟨nofun, nofun⟩,
        .atom ⟨.symbol, ['a'], ⟨5, 6⟩⟩ ⟨nofun, nofun⟩,
        .atom ⟨.symbol, ['/', '*'], ⟨7, 9⟩⟩ ⟨nofun, nofun⟩,
        .atom ⟨.string, ['"', '/', '/', ' ', 'x', '"'], ⟨10, 16⟩⟩ ⟨nofun, nofun⟩]
      ⟨.parenClose, [')'], ⟨22, 23⟩⟩ rfl, ⟨⟨23, ?_⟩, ?_⟩, rfl⟩
    · decide +kernel
    · decide +kernel
  refine ⟨ok, rfl, finite, back, ?_⟩
  exact parse_pretty (.inl ok) (by simpa [numbers, entriesNumbers] using finite)
    (by simpa [numbers, entriesNumbers] using fun _ => back)

end Expr

end ByteLisp
