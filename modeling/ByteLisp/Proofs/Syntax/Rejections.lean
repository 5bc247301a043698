/-
  ByteLisp: what is reported of a text that is no program.

  A program is read within parentheses of its own, so a closing parenthesis too many closes
  these, and the token behind it is reported.

  * `lex_closed`: closing parentheses in a new line are the last tokens of a text;
  * `ViableForms`: the tokens are the start of some expressions in a row; `viable_opening`
    relates this to what is read of a program, and `closed_of_viable` says how many
    parentheses complete them;
  * `parseProgram_reports`: either the text ends too early, and closing parentheses make it
    a program; or a parenthesis closes nothing, and what is reported is the token behind it,
    which is none of the text if it is the last one.
-/
import ByteLisp.Proofs.Syntax.Locations
import ByteLisp.Proofs.Syntax.Spelling

namespace ByteLisp

open ParseTree

/-! ## Behind the end of a line -/

namespace Lexer

variable {c : Char} {rest below : List Char}

theorem takeWhile_newline {p : Char → Bool} (hp : p '\n' = false) (cs below : List Char) :
    (cs ++ '\n' :: below).takeWhile p = cs.takeWhile p := by
  induction cs with
  | nil => simp [hp]
  | cons c cs ih =>
    rw [List.cons_append, List.takeWhile_cons, List.takeWhile_cons, ih]

theorem row_newline {p : Char → Bool} (hp : p '\n' = false) (c : Char) (rest below : List Char) :
    row p c (rest ++ '\n' :: below) = row p c rest := by
  rw [row, row, takeWhile_newline hp]

/-- A comment is not started by what is behind a newline. -/
theorem starts_newline {x : Char} (hx : x ≠ '\n') :
    ['/', x] <+: c :: (rest ++ '\n' :: below) ↔ ['/', x] <+: c :: rest := by
  cases rest with
  | nil => simp [List.cons_prefix_cons, hx]
  | cons d rest => simp [List.cons_prefix_cons]

theorem lineComment_newline (c : Char) (rest below : List Char) :
    lineComment c (rest ++ '\n' :: below) = lineComment c rest := by
  by_cases h : ['/', '/'] <+: c :: rest
  · obtain ⟨w, h⟩ := h
    obtain ⟨rfl, rfl⟩ := List.cons.inj h
    change some (1 + ((w ++ '\n' :: below).takeWhile (· ≠ '\n')).length) =
      some (1 + (w.takeWhile (· ≠ '\n')).length)
    rw [takeWhile_newline (by decide)]
  · rw [lineComment_eq_none h, lineComment_eq_none fun hs => h ((starts_newline (by decide)).1 hs)]

theorem throughClose_newline (cs : List Char) (hbelow : ¬ Closes below) :
    throughClose (cs ++ '\n' :: below) = throughClose cs := by
  fun_induction throughClose cs with
  | case1 rest => rfl
  | case2 c rest h ih =>
    rw [List.cons_append, throughClose, ih]
    rintro tail rfl hrest
    cases rest with
    | nil => cases hrest
    | cons d rest =>
      obtain ⟨rfl, -⟩ := List.cons.inj hrest
      exact h rest rfl rfl
  | case3 =>
    rw [List.nil_append, throughClose_eq_none, closes_cons]
    simpa using hbelow

theorem blockComment_newline (c : Char) (rest : List Char) (hbelow : ¬ Closes below) :
    blockComment c (rest ++ '\n' :: below) = blockComment c rest := by
  by_cases h : ['/', '*'] <+: c :: rest
  · obtain ⟨w, h⟩ := h
    obtain ⟨rfl, rfl⟩ := List.cons.inj h
    exact congrArg (Option.map (· + 1)) (throughClose_newline w hbelow)
  · have hnone {cs : List Char} (h : ¬ ['/', '*'] <+: c :: cs) : blockComment c cs = none :=
      blockComment_eq_none fun hs => absurd hs h
    rw [hnone h, hnone fun hs => h ((starts_newline (by decide)).1 hs)]

theorem quoted_newline (c : Char) (rest : List Char) (hbelow : '"' ∉ below) :
    quoted c (rest ++ '\n' :: below) = quoted c rest := by
  ext n
  rw [quoted_eq_some, quoted_eq_some]
  refine and_congr_right fun _ => ⟨?_, ?_⟩
  · rintro ⟨body, tail, hbody, hsplit, rfl⟩
    rcases List.append_eq_append_iff.1 hsplit with ⟨gap, hbody', hgap⟩ | ⟨gap, rfl, hgap⟩
    · -- The closing quote would be behind the newline.
      have : '"' ∈ '\n' :: below := hgap ▸ List.mem_append_right gap List.mem_cons_self
      simp [hbelow] at this
    · cases gap with
      | nil => cases hgap
      | cons q gap =>
        obtain ⟨rfl, -⟩ := List.cons.inj hgap
        exact ⟨body, gap, hbody, rfl, rfl⟩
  · rintro ⟨body, tail, hbody, rfl, rfl⟩
    exact ⟨body, tail ++ '\n' :: below, hbody, by simp, rfl⟩

/-- A lexeme other than blanks ends with the line. -/
theorem front_newline (hc : isGap c = false) (rest : List Char) (hcloses : ¬ Closes below)
    (hquote : '"' ∉ below) :
    front c (rest ++ '\n' :: below) = front c rest := by
  have hgaps (cs : List Char) : row isGap c cs = none := row_eq_none.2 hc
  rw [front_eq, front_eq, lineComment_newline, blockComment_newline c rest hcloses, hgaps, hgaps,
    quoted_newline c rest hquote,
    row_newline (by decide), row_newline (by decide)]
  rfl

theorem length_row_le {p : Char → Bool} {n : Nat} (h : row p c rest = some n) : n ≤ rest.length := by
  obtain ⟨-, rfl⟩ := row_eq_some.1 h
  exact (List.takeWhile_prefix p).length_le

theorem Front.length_le {n : Nat} {kind : Option Token.Kind} (h : Front c rest n kind) : n ≤ rest.length := by
  cases h with
  | parenOpen | parenClose => exact Nat.zero_le _
  | lineComment h =>
    obtain ⟨line, -, rfl, rfl⟩ := lineComment_eq_some h
    exact Nat.succ_le_succ (List.takeWhile_prefix _).length_le
  | blockComment h =>
    obtain ⟨body, tail, -, rfl, rfl, -⟩ := blockComment_eq_some h
    simp
  | string h =>
    obtain ⟨-, body, tail, -, rfl, rfl⟩ := quoted_eq_some.1 h
    simp
  | gap h | number h | symbol h => exact length_row_le h

end Lexer

/-- What is behind a newline is cut into tokens of its own. -/
theorem lexFrom_newline {below : List Char} (hcloses : ¬ Closes below)
    (hquote : '"' ∉ below) {pos p : Nat} {cs : List Char} (hstop : (lexFrom pos cs).stop = .done p) :
    lexFrom pos (cs ++ '\n' :: below) =
      ⟨(lexFrom pos cs).tokens ++ (lexFrom p ('\n' :: below)).tokens, (lexFrom p ('\n' :: below)).stop⟩ := by
  induction hn : cs.length using Nat.strongRecOn generalizing pos cs with
  | ind k ih =>
    cases cs with
    | nil =>
      rw [lexFrom] at hstop
      cases hstop
      rw [lexFrom]
      rfl
    | cons c rest =>
      cases hc : Lexer.isGap c with
      | true =>
        rw [lexFrom_gap hc] at hstop ⊢
        rw [List.cons_append, lexFrom_gap hc]
        exact ih rest.length (by simp [← hn]) hstop rfl
      | false =>
        rw [lexFrom] at hstop ⊢
        rw [List.cons_append, lexFrom, Lexer.front_newline hc rest hcloses hquote]
        cases hf : Lexer.front c rest with
        | none =>
          rw [hf] at hstop
          cases hstop
        | some found =>
          obtain ⟨n, kind⟩ := found
          have hle : n ≤ rest.length := (Lexer.front_cases hf).length_le
          rw [hf] at hstop
          have hrest : (lexFrom (pos + Text.size (c :: rest.take n)) (rest.drop n)).stop = .done p := by
            cases kind <;> exact hstop
          have hlt : (rest.drop n).length < k := by
            rw [List.length_drop, ← hn, List.length_cons]
            omega
          simp only [List.take_append_of_le_length hle, List.drop_append_of_le_length hle, ih _ hlt hrest rfl]
          cases kind <;> rfl

/-- A row of closing parentheses. -/
theorem lexFrom_parens (pos n : Nat) :
    (∃ p, (lexFrom pos (List.replicate n ')')).stop = .done p) ∧
      (lexFrom pos (List.replicate n ')')).tokens.length = n ∧
      ∀ t ∈ (lexFrom pos (List.replicate n ')')).tokens, t.kind = .parenClose := by
  induction n generalizing pos with
  | zero =>
    rw [List.replicate_zero, lexFrom]
    exact ⟨⟨pos, rfl⟩, rfl, by simp⟩
  | succ n ih =>
    obtain ⟨hstop, hlength, hkinds⟩ := ih (pos + 1)
    have hfront : Lexer.front ')' (List.replicate n ')') = some (0, some .parenClose) := rfl
    rw [List.replicate_succ, lexFrom, hfront]
    exact ⟨hstop, congrArg (· + 1) hlength, List.forall_mem_cons.2 ⟨rfl, hkinds⟩⟩

/-- Closing parentheses in a new line are the last tokens of a text. -/
theorem lex_closed {src : List Char} {pos : Nat} (hstop : (lex src).stop = .done pos) (n : Nat) :
    ∃ us, (lex (src ++ '\n' :: List.replicate n ')')).tokens = (lex src).tokens ++ us ∧ us.length = n ∧
      (∀ u ∈ us, u.kind = .parenClose) ∧ ∃ p, (lex (src ++ '\n' :: List.replicate n ')')).stop = .done p := by
  have hmem {c : Char} (hc : c ≠ ')') : c ∉ List.replicate n ')' := fun h => hc (List.eq_of_mem_replicate h)
  have hcloses : ¬ Closes (List.replicate n ')') := fun h => hmem (by decide) (h.subset (a := '*') (by simp))
  obtain ⟨hparens, hlength, hkinds⟩ := lexFrom_parens (pos + Char.utf8Size '\n') n
  rw [← lexFrom_gap rfl] at hparens hlength hkinds
  rw [lex, lexFrom_newline hcloses (hmem (by decide)) hstop]
  exact ⟨_, rfl, hlength, hkinds, hparens⟩

/-! ## Expressions in a row -/

/-- The tokens are the start of some expressions in a row. -/
def ViableForms (ts : List Token) : Prop :=
  ∃ (ds : List ParseTree) (rest : List Token), allTokens ds = ts ++ rest

theorem ViableForms.left {ts us : List Token} (h : ViableForms (ts ++ us)) : ViableForms ts := by
  obtain ⟨ds, rest, h⟩ := h
  exact ⟨ds, us ++ rest, by rw [h, List.append_assoc]⟩

namespace Expr

variable {ts us : List Token} {t r : Token} {d : ParseTree} {ds : List ParseTree} {pos : Nat}
  {src : List Char}

/-! ## Within the parentheses of a program -/

/-- Behind an expression of one token there are the other ones. -/
theorem allTokens_of_atom (hs : Stops us) (ht : t.IsAtom) (h : allTokens ds ++ us = t :: ts) :
    ∃ ds', ts = allTokens ds' ++ us := by
  cases ds with
  | nil =>
    obtain rfl : us = t :: ts := h
    exact absurd (hs t rfl) ht.2
  | cons head ds =>
    cases head with
    | atom t' ht' => exact ⟨ds, (List.cons.inj h).2.symm⟩
    | list l hl entries r hr =>
      obtain ⟨rfl, -⟩ := List.cons.inj h
      exact absurd hl ht.1

theorem begin_isAtom : Token.IsAtom ⟨.symbol, "begin".toList, Span.point 0⟩ := ⟨nofun, nofun⟩

/-- A list that starts like a program consists of expressions in a row and its end. -/
theorem tokens_eq_opening (h : d.tokens = opening ++ us) :
    ∃ ds r, us = allTokens ds ++ [r] ∧ r.kind = .parenClose := by
  cases d with
  | atom t ht => simp [tokens, opening] at h
  | list l hl entries r hr =>
    have hstops : Stops [r] := by
      rintro t ⟨⟩
      exact hr
    obtain ⟨ds, hds⟩ := allTokens_of_atom hstops begin_isAtom (List.cons.inj h).2
    exact ⟨ds, r, hds, hr⟩

theorem opening_derives (ds : List ParseTree) (hr : r.kind = .parenClose) :
    ∃ d : ParseTree, d.tokens = opening ++ (allTokens ds ++ [r]) :=
  ⟨.list ⟨.parenOpen, ['('], Span.point 0⟩ rfl (.atom _ begin_isAtom :: ds) r hr, rfl⟩

/-- What can be read of a program is the start of expressions in a row, or all of them with a closing
    parenthesis. -/
theorem viable_opening :
    Viable (opening ++ ts) ↔ ViableForms ts ∨ ∃ ds r, ts = allTokens ds ++ [r] ∧ r.kind = .parenClose := by
  constructor
  · rintro ⟨d, rest, h⟩
    rw [List.append_assoc] at h
    obtain ⟨ds, r, h, hr⟩ := tokens_eq_opening h
    rcases List.eq_nil_or_concat rest with rfl | ⟨rest, last, rfl⟩
    · exact Or.inr ⟨ds, r, by simpa using h, hr⟩
    · rw [List.concat_eq_append, ← List.append_assoc] at h
      exact Or.inl ⟨ds, rest, (List.append_inj' h rfl).1.symm⟩
  · rintro (⟨ds, rest, h⟩ | ⟨ds, r, rfl, hr⟩)
    · obtain ⟨d, hd⟩ := opening_derives ds (r := ⟨.parenClose, [')'], Span.point 0⟩) rfl
      refine ⟨d, rest ++ [⟨.parenClose, [')'], Span.point 0⟩], ?_⟩
      rw [hd, h, List.append_assoc, List.append_assoc]
    · obtain ⟨d, hd⟩ := opening_derives ds hr
      exact ⟨d, [], by simpa using hd⟩

/-- Reading the start of expressions in a row, the parser is within the list of the program. -/
theorem reads_forms (h : ViableForms ts) :
    ∃ es around, Progress.Reads (opening ++ ts) (.reading (es :: around)) := by
  obtain ⟨q, hq⟩ := Progress.Reads.of_viable (viable_opening.2 (Or.inl h))
  cases q with
  | reading around =>
    cases around with
    | nil =>
      generalize hts : opening ++ ts = read at hq
      cases hq with
      | start => cases hts
    | cons es around => exact ⟨es, around, hq⟩
  | complete e =>
    -- A complete list does not go on, but the expressions do, at least with the end of the list.
    obtain ⟨ds, rest, h⟩ := h
    obtain ⟨d, hd⟩ := opening_derives ds (r := ⟨.parenClose, [')'], Span.point 0⟩) rfl
    obtain ⟨t, us, hus⟩ : ∃ t us, rest ++ [⟨.parenClose, [')'], Span.point 0⟩] = t :: us :=
      List.exists_cons_of_ne_nil (by simp)
    refine absurd ⟨d, us, ?_⟩ (hq.not_viable (t := t) rfl)
    rw [hd, h, List.append_assoc, hus]
    simp

/-- After them any token can follow. -/
theorem viable_next (h : ViableForms ts) (t : Token) : Viable (opening ++ ts ++ [t]) := by
  obtain ⟨es, around, hq⟩ := reads_forms h
  by_cases hc : t.kind = .parenClose
  · have hn : (Progress.reading (es :: around)).next t = some (.finish (.list es.reverse) around) := by
      simp only [Progress.next, hc]
    exact (hq.next hn).viable
  · by_cases ho : t.kind = .parenOpen
    · have hn : (Progress.reading (es :: around)).next t = some (.reading ([] :: es :: around)) := by
        simp only [Progress.next, ho]
      exact (hq.next hn).viable
    · exact (hq.next (Progress.next_atom ⟨ho, hc⟩)).viable

/-- Closing parentheses complete the lists one after the other. -/
theorem reads_closed {around : List (List Expr)} {es : List Expr}
    (h : Progress.Reads ts (.reading (around ++ [es])))
    (hlength : us.length = around.length) (hus : ∀ u ∈ us, u.kind = .parenClose) :
    ∃ es', Progress.Reads (ts ++ us) (.reading [es']) := by
  induction us generalizing ts around es with
  | nil =>
    obtain rfl := List.length_eq_zero_iff.1 hlength.symm
    exact ⟨es, by simpa using h⟩
  | cons u us ih =>
    obtain ⟨hu, hus⟩ := List.forall_mem_cons.1 hus
    cases around with
    | nil => cases hlength
    | cons inner around =>
      have hn : (Progress.reading (inner :: around ++ [es])).next u =
          some (.finish (.list inner.reverse) (around ++ [es])) := by
        simp only [List.cons_append, Progress.next, hu]
      have hread := h.next hn
      have hlength : us.length = around.length := Nat.succ.inj hlength
      rw [← List.singleton_append, ← List.append_assoc]
      cases around with
      | nil =>
        have hread : Progress.Reads (ts ++ [u]) (.reading ([] ++ [.list inner.reverse :: es])) := hread
        exact ih hread hlength hus
      | cons outer around =>
        have hread : Progress.Reads (ts ++ [u])
            (.reading ((.list inner.reverse :: outer) :: around ++ [es])) := hread
        exact ih hread hlength hus

/-- The start of expressions in a row is completed by closing parentheses. -/
theorem closed_of_viable (h : ViableForms ts) :
    ∃ n, ∀ us : List Token, us.length = n → (∀ u ∈ us, u.kind = .parenClose) →
      ∃ ds, allTokens ds = ts ++ us := by
  obtain ⟨es, around, hq⟩ := reads_forms h
  obtain ⟨init, last, hinit⟩ : ∃ init last, es :: around = init ++ [last] :=
    ⟨_, _, (List.dropLast_append_getLast (List.cons_ne_nil es around)).symm⟩
  rw [hinit] at hq
  refine ⟨init.length, fun us hlength hus => ?_⟩
  obtain ⟨es', hread⟩ := reads_closed hq hlength hus
  generalize hread' : opening ++ ts ++ us = read at hread
  cases hread with
  | @inside before _ l hl ds hbefore =>
    cases hbefore
    rw [opening, List.append_assoc] at hread'
    obtain ⟨ds', hds⟩ := allTokens_of_atom stops_nil begin_isAtom
      ((List.append_nil _).trans (List.cons.inj hread').2.symm)
    exact ⟨ds', by rw [← List.append_nil (allTokens ds'), ← hds]; rfl⟩

/-! ## Reports -/

/-- A text that ends too early is completed by closing parentheses. -/
theorem parseProgram_completed (hstop : (lex src).stop = .done pos) (hno : ∀ e, parseProgram src ≠ .ok e)
    (h : ViableForms (lex src).tokens) :
    ∃ n e, 0 < n ∧ parseProgram (src ++ '\n' :: List.replicate n ')') = .ok e := by
  obtain ⟨n, hclosed⟩ := closed_of_viable h
  obtain ⟨us, htokens, hlength, hkinds, hstop'⟩ := lex_closed hstop n
  obtain ⟨ds, hds⟩ := hclosed us hlength hkinds
  refine ⟨n, _, Nat.pos_of_ne_zero ?_, parseProgram_ok_iff.2 ⟨ds, ⟨hstop', hds.trans htokens.symm⟩, rfl⟩⟩
  rintro rfl
  obtain rfl := List.length_eq_zero_iff.1 hlength
  exact hno _ (parseProgram_ok_iff.2 ⟨ds, ⟨⟨pos, hstop⟩, hds.trans (List.append_nil _)⟩, rfl⟩)

/-- The first error within the parentheses of a program is behind the one that closes them. -/
theorem closed_before (hpre : Viable ts) (hnext : ¬ Viable (ts ++ [t])) {post rest : List Token}
    (h : ts ++ t :: post = opening ++ rest) :
    ∃ ds r, ts = opening ++ (allTokens ds ++ [r]) ∧ r.kind = .parenClose ∧
      ¬ ViableForms (allTokens ds ++ [r]) := by
  obtain ⟨within, rfl⟩ : ∃ within, ts = opening ++ within := by
    rcases List.append_eq_append_iff.1 h with ⟨gap, hopening, hgap⟩ | ⟨within, hts, -⟩
    · cases gap with
      | nil => exact ⟨[], by simpa using hopening.symm⟩
      | cons x gap =>
        -- The error would be one of the tokens that start the list of the program.
        obtain ⟨rfl, -⟩ := List.cons.inj hgap
        have hopened : Viable (opening ++ []) := viable_opening.2 (Or.inl ⟨[], [], rfl⟩)
        rw [List.append_nil, hopening, List.append_cons] at hopened
        exact absurd hopened.left hnext
    · exact ⟨within, hts⟩
  rcases viable_opening.1 hpre with hforms | ⟨ds, r, rfl, hr⟩
  · exact absurd (viable_next hforms t) hnext
  · exact ⟨ds, r, rfl, hr, fun hforms => hnext (viable_next hforms t)⟩

/-- A text of tokens that is no program ends too early, and then the end is reported and closing parentheses
    make it a program; or a parenthesis of it closes nothing, and then the token behind that one is reported.
    There is none behind the last one, so what is reported is no part of the text. -/
theorem parseProgram_reports (hstop : (lex src).stop = .done pos) (hno : ∀ e, parseProgram src ≠ .ok e) :
    (parseProgram src = .error (.unexpectedEnd (Text.size src)) ∧ ViableForms (lex src).tokens ∧
      ∃ n e, 0 < n ∧ parseProgram (src ++ '\n' :: List.replicate n ')') = .ok e) ∨
    ∃ ds t after blamed, (lex src).tokens = allTokens ds ++ t :: after ∧ t.kind = .parenClose ∧
      ¬ ViableForms (allTokens ds ++ [t]) ∧ parseProgram src = .error (.unexpectedToken blamed) ∧
      (after ++ closing (lex src).stop).head? = some blamed ∧
      (blamed.span.slice src = blamed.text ↔ after ≠ []) := by
  obtain ⟨err, herr⟩ : ∃ err, parseProgram src = .error err := by
    cases h : parseProgram src with
    | ok e => exact absurd h (hno e)
    | error err => exact ⟨err, rfl⟩
  have hparts : (lex src).Partitions src 0 := Lexed.partitions_cut (cut_lexFrom [] src)
  obtain rfl := hparts.done pos hstop
  have hfirst := parseProgram_error_iff.1 herr
  rw [hstop, List.append_assoc] at hfirst
  generalize hall : opening ++ ((lex src).tokens ++ closing (.done (Text.size src))) = all at hfirst
  generalize hs : Lexed.Stop.done (Text.size src) = stop at hfirst
  cases hfirst with
  | lex => cases hs
  | atEnd hviable hnone =>
    cases hs
    rw [← hall] at hviable hnone
    have hforms : ViableForms (lex src).tokens := by
      rcases viable_opening.1 hviable with hforms | ⟨ds, r, htokens, hr⟩
      · exact hforms.left
      · obtain ⟨d, hd⟩ := opening_derives ds hr
        exact absurd (htokens ▸ hd) (hnone d)
    exact Or.inl ⟨herr, hforms, parseProgram_completed hstop hno hforms⟩
  | @token pre blamed post _ hviable hnext =>
    obtain ⟨ds, t, rfl, ht, hnot⟩ := closed_before hviable hnext hall.symm
    rw [List.append_assoc] at hall
    have hrest := List.append_cancel_left hall
    -- The last token that is read is the parenthesis that closes the list of the program.
    obtain ⟨after, last, hafter⟩ : ∃ after last, blamed :: post = after ++ [last] :=
      ⟨_, _, (List.dropLast_append_getLast (List.cons_ne_nil blamed post)).symm⟩
    rw [hafter, ← List.append_assoc] at hrest
    obtain ⟨htokens, hlast⟩ := List.append_inj' hrest rfl
    rw [List.append_assoc, List.singleton_append] at htokens
    refine Or.inr ⟨ds, t, after, blamed, htokens, ht, hnot, herr, ?_, ?_⟩
    · rw [hstop, hlast, ← hafter]
      rfl
    · cases after with
      | nil =>
        obtain ⟨rfl, -⟩ := List.cons.inj (hafter.trans hlast.symm)
        simp [Span.slice, Span.point]
      | cons u after =>
        obtain ⟨rfl, -⟩ := List.cons.inj hafter
        have hmem : blamed ∈ (lex src).tokens := by
          rw [htokens]
          simp
        exact iff_of_true (hparts.texts blamed hmem).symm (List.cons_ne_nil _ _)

/-- A name and a parenthesis that closes nothing. -/
def overclosed : List Char := "x)".toList

/-- Where the text ends a parenthesis is reported that it does not have. -/
theorem parseProgram_reports_overclosed :
    parseProgram overclosed = .error (.unexpectedToken ⟨.parenClose, [')'], Span.point 2⟩) ∧
      (Span.point 2).slice overclosed ≠ [')'] ∧
      ∃ ds t, (lex overclosed).tokens = allTokens ds ++ [t] ∧ t.kind = .parenClose ∧
        ¬ ViableForms (allTokens ds ++ [t]) := by
  have hlex : lex overclosed =
      ⟨[⟨.symbol, ['x'], ⟨0, 1⟩⟩, ⟨.parenClose, [')'], ⟨1, 2⟩⟩], .done 2⟩ := by decide +kernel
  have hparse : parseProgram overclosed =
      .error (.unexpectedToken ⟨.parenClose, [')'], Span.point 2⟩) := by
    rw [parseProgram, parsingProgram, hlex]
    cbv
  have hstop : (lex overclosed).stop = .done 2 := congrArg Lexed.stop hlex
  have hslice : (Span.point 2).slice overclosed ≠ [')'] := by decide
  refine ⟨hparse, hslice, ?_⟩
  rcases parseProgram_reports hstop (fun e he => by cases he.symm.trans hparse) with
    ⟨hend, -⟩ | ⟨ds, t, after, blamed, htokens, ht, hnot, herr, -, hiff⟩
  · cases hend.symm.trans hparse
  · cases herr.symm.trans hparse
    obtain rfl : after = [] := Decidable.byContradiction fun hne => hslice (hiff.2 hne)
    exact ⟨ds, t, htokens, ht, hnot⟩

end Expr

end ByteLisp
