/-
  ByteLisp: texts that are spelled from tokens.

  A `/*` without a `*/` behind it is no comment but a symbol, so what a text is
  cut into depends on all that follows.

  * `Unclosed`: behind a token that starts like a comment no token holds a `*/`;
    `unclosed_lexFrom` says so of the tokens of every text;
  * `Spelled`: a text is written from tokens, and a blank, a closing parenthesis or
    the end follows each of them but an opening parenthesis;
  * `Spelled.lexes`: such a text is cut into these tokens if they are `Unclosed`.
-/
import ByteLisp.Proofs.Syntax.Lexemes

namespace ByteLisp

/-- The text holds a `*/`. -/
def Closes (cs : List Char) : Prop := ['*', '/'] <:+: cs

theorem Closes.mono {cs ds : List Char} (h : Closes cs) (hs : cs <:+: ds) : Closes ds := h.trans hs

theorem closes_cons {c : Char} {cs : List Char} :
    Closes (c :: cs) ↔ c = '*' ∧ cs.head? = some '/' ∨ Closes cs := by
  rw [Closes, List.infix_cons_iff, Closes, List.cons_prefix_cons]
  cases cs with
  | nil => simp
  | cons d cs => simp [List.cons_prefix_cons, eq_comm]

theorem not_closes_nil : ¬ Closes [] := by
  simp [Closes]

theorem closes_append {cs ds : List Char} (h : Closes (cs ++ ds)) (hd : ds.head? ≠ some '/') :
    Closes cs ∨ Closes ds := by
  induction cs with
  | nil => exact .inr h
  | cons c cs ih =>
    rw [List.cons_append, closes_cons] at h
    rw [closes_cons]
    rcases h with ⟨rfl, h⟩ | h
    · cases cs with
      | nil => exact absurd h hd
      | cons x cs => exact .inl (.inl ⟨rfl, h⟩)
    · exact (ih h).imp_left .inr

theorem not_closes_of_digits {cs : List Char} (h : ∀ c ∈ cs, c.isDigit = true) : ¬ Closes cs := by
  intro hc
  have : '*' ∈ cs := hc.subset (by simp)
  exact absurd (h _ this) (by decide)

/-- The token starts like a comment. -/
def Token.OpensComment (t : Token) : Prop := ['/', '*'] <+: t.text

/-- The token neither starts nor ends a comment. -/
def Token.Quiet (t : Token) : Prop := ¬ t.OpensComment ∧ ¬ Closes t.text

/-- Behind the start of a comment no token holds a `*/`. -/
structure Unclosed (ts : List Token) : Prop where
  within : ∀ t ∈ ts, t.OpensComment → ¬ Closes (t.text.drop 2)
  behind : ts.Pairwise fun t u => t.OpensComment → ¬ Closes u.text

theorem Token.Fits.parenOpen {t : Token} (h : t.Fits) (hk : t.kind = .parenOpen) :
    t.text = ['('] := by
  unfold Token.Fits at h
  simpa only [hk] using h

theorem Token.Fits.parenClose {t : Token} (h : t.Fits) (hk : t.kind = .parenClose) :
    t.text = [')'] := by
  unfold Token.Fits at h
  simpa only [hk] using h

theorem Token.Fits.not_parenOpen {t : Token} (h : t.Fits) (ho : t.OpensComment) :
    t.kind ≠ .parenOpen := by
  intro hk
  rw [Token.OpensComment, h.parenOpen hk] at ho
  simp [List.cons_prefix_cons] at ho

theorem Unclosed.tail {t : Token} {ts : List Token} (h : Unclosed (t :: ts)) : Unclosed ts :=
  ⟨fun u hu => h.within u (List.mem_cons_of_mem t hu), (List.pairwise_cons.1 h.behind).2⟩

theorem Unclosed.within_quiet {pre ts post : List Token} (h : Unclosed ts)
    (hpre : ∀ t ∈ pre, t.Quiet) (hpost : ∀ t ∈ post, t.Quiet) : Unclosed (pre ++ ts ++ post) where
  within := by
    simp only [List.forall_mem_append]
    exact ⟨⟨fun t ht ho => absurd ho (hpre t ht).1, h.within⟩,
      fun t ht ho => absurd ho (hpost t ht).1⟩
  behind := by
    rw [List.pairwise_append, List.pairwise_append]
    refine ⟨⟨?_, h.behind, fun t ht _ _ ho => absurd ho (hpre t ht).1⟩, ?_,
      fun _ _ u hu _ => (hpost u hu).2⟩
    · exact List.pairwise_of_forall_mem_list fun t ht _ _ ho => absurd ho (hpre t ht).1
    · exact List.pairwise_of_forall_mem_list fun _ _ u hu _ => (hpost u hu).2

/-! ## The tokens of a text -/

namespace Lexer

theorem throughClose_eq_none {cs : List Char} : throughClose cs = none ↔ ¬ Closes cs := by
  fun_induction throughClose cs with
  | case1 rest => simp [closes_cons]
  | case2 c rest h ih =>
    rw [Option.map_eq_none_iff, ih, closes_cons]
    refine not_congr ⟨.inr, ?_⟩
    rintro (⟨rfl, hr⟩ | hr)
    · obtain ⟨tail, rfl⟩ := List.head?_eq_some_iff.1 hr
      exact absurd rfl (h tail rfl)
    · exact hr
  | case3 => simp [not_closes_nil]

/-- A token that starts like a comment is none since nothing behind it is a `*/`. -/
theorem Front.opens {c : Char} {rest : List Char} {n : Nat} {k : Token.Kind}
    (h : Front c rest n (some k)) (ho : ['/', '*'] <+: c :: rest.take n) :
    ∃ w m, rest = '*' :: w ∧ n = m + 1 ∧ ¬ Closes w := by
  obtain ⟨rfl, hstar⟩ := List.cons_prefix_cons.1 ho
  obtain ⟨w, rfl⟩ := hstar.trans (List.take_prefix n rest)
  cases n with
  | zero => simp at hstar
  | succ m =>
    refine ⟨w, m, rfl, rfl, ?_⟩
    cases h with
    | string h => exact absurd (quoted_eq_some.1 h).1 (by decide)
    | number h => exact absurd (row_eq_some.1 h).1 (by decide)
    | symbol _ _ _ hb => exact throughClose_eq_none.1 (Option.map_eq_none_iff.1 hb)

end Lexer

/-- The tokens of a text are parts of it. -/
theorem text_infix_of_mem_lexFrom {pos : Nat} {cs : List Char} :
    ∀ t ∈ (lexFrom pos cs).tokens, t.text <:+: cs := by
  fun_induction lexFrom pos cs with
  | case1 => simp
  | case2 => simp
  | case3 pos c rest n text next tail hf ih =>
    exact fun t ht => List.infix_cons ((ih t ht).trans (List.drop_suffix n rest).isInfix)
  | case4 pos c rest n text next tail k hf ih =>
    refine List.forall_mem_cons.2 ⟨?_, fun t ht => ?_⟩
    · exact (List.cons_prefix_cons.2 ⟨rfl, List.take_prefix n rest⟩).isInfix
    · exact List.infix_cons ((ih t ht).trans (List.drop_suffix n rest).isInfix)

theorem unclosed_lexFrom {pos : Nat} {cs : List Char} : Unclosed (lexFrom pos cs).tokens := by
  fun_induction lexFrom pos cs with
  | case1 => exact ⟨by simp, .nil⟩
  | case2 => exact ⟨by simp, .nil⟩
  | case3 pos c rest n text next tail hf ih => exact ih
  | case4 pos c rest n text next tail k hf ih =>
    have opens : ['/', '*'] <+: text →
        ¬ Closes (text.drop 2) ∧ ∀ u ∈ tail.tokens, ¬ Closes u.text := by
      intro ho
      obtain ⟨w, m, rfl, rfl, hw⟩ := (Lexer.front_cases hf).opens ho
      refine ⟨fun hc => hw (hc.mono (List.take_prefix m w).isInfix), fun u hu hc => ?_⟩
      have hu : u.text <:+: w.drop m := text_infix_of_mem_lexFrom u hu
      exact hw (hc.mono (hu.trans (List.drop_suffix m w).isInfix))
    constructor
    · exact List.forall_mem_cons.2 ⟨fun ho => (opens ho).1, ih.within⟩
    · exact List.pairwise_cons.2 ⟨fun u hu ho => (opens ho).2 u hu, ih.behind⟩

/-! ## Spelling -/

/-- A token ends before the text: no blank and no closing parenthesis is part of one. -/
def Breaks (cs : List Char) : Prop := ∀ c ∈ cs.head?, c = ' ' ∨ c = ')'

theorem Breaks.blank (cs : List Char) : Breaks (' ' :: cs) := by
  simp [Breaks]

theorem Breaks.parenClose (cs : List Char) : Breaks (')' :: cs) := by
  simp [Breaks]

theorem Breaks.head_ne {cs : List Char} {c : Char} (h : Breaks cs) (hs : c ≠ ' ') (hp : c ≠ ')') :
    cs.head? ≠ some c :=
  fun hc => (h c hc).elim hs hp

theorem Breaks.takeWhile {p : Char → Bool} {w cs : List Char} (he : Breaks cs)
    (hw : ∀ x ∈ w, p x = true) (hs : p ' ' = false) (hp : p ')' = false) :
    (w ++ cs).takeWhile p = w := by
  rw [List.takeWhile_append_of_pos hw]
  cases cs with
  | nil => simp
  | cons c cs => rcases he c rfl with rfl | rfl <;> simp [hs, hp]

/-- The text is written from the tokens. -/
inductive Spelled : List Token → List Char → Prop
  | nil : Spelled [] []
  | blank {ts cs} : Spelled ts cs → Spelled ts (' ' :: cs)
  | token {t ts cs} : t.Fits → (t.kind ≠ .parenOpen → Breaks cs) → Spelled ts cs →
      Spelled (t :: ts) (t.text ++ cs)

theorem Spelled.not_closes {ts : List Token} {cs : List Char} (h : Spelled ts cs)
    (ht : ∀ t ∈ ts, ¬ Closes t.text) : ¬ Closes cs := by
  induction h with
  | nil => exact not_closes_nil
  | blank _ ih => simpa [closes_cons] using ih ht
  | @token t ts cs hf he _ ih =>
    obtain ⟨ht, hts⟩ := List.forall_mem_cons.1 ht
    by_cases hk : t.kind = .parenOpen
    · simpa [hf.parenOpen hk, closes_cons] using ih hts
    · intro hc
      exact (closes_append hc ((he hk).head_ne (by decide) (by decide))).elim ht (ih hts)

namespace Lexer

variable {c : Char} {w cs rest : List Char}

theorem isSymbolChar_of_isDigit (h : c.isDigit = true) : isSymbolChar c = true := by
  simp [isSymbolChar, Char.isAlphanum, h]

theorem isGap_of_isSymbolChar (h : isSymbolChar c = true) : isGap c = false := by
  cases hg : isGap c with
  | false => rfl
  | true =>
    simp only [isGap, Bool.or_eq_true, decide_eq_true_eq] at hg
    rcases hg with (((rfl | rfl) | rfl) | rfl) | rfl <;> exact absurd h (by decide)

/-- At the characters of numbers and symbols four of the rules can match. -/
theorem front_of_isSymbolChar (h : isSymbolChar c = true) : front c rest =
    ((lineComment c rest).map (·, none)).or (((blockComment c rest).map (·, none)).or
      (((row Char.isDigit c rest).map (·, some .number)).or
        ((row isSymbolChar c rest).map (·, some .symbol)))) := by
  have ne {x : Char} (hx : isSymbolChar x = false) : c ≠ x := by
    rintro rfl
    rw [hx] at h
    cases h
  rw [front_eq, single, if_neg (ne (by decide)), single, if_neg (ne (by decide)),
    row_eq_none.2 (isGap_of_isSymbolChar h), quoted, if_neg fun hq => ne (by decide) hq.1]
  rfl

theorem lineComment_eq_none (h : ¬ ['/', '/'] <+: c :: rest) : lineComment c rest = none := by
  unfold lineComment
  split
  · exact absurd ⟨_, rfl⟩ h
  · rfl

theorem blockComment_eq_none (h : ['/', '*'] <+: c :: rest → ¬ Closes (rest.drop 1)) :
    blockComment c rest = none := by
  unfold blockComment
  split
  · exact Option.map_eq_none_iff.2 (throughClose_eq_none.2 (h ⟨_, rfl⟩))
  · rfl

theorem front_gap (h : isGap c = true) :
    front c rest = some ((rest.takeWhile isGap).length, none) := by
  have row : row isGap c rest = some (rest.takeWhile isGap).length := row_eq_some.2 ⟨h, rfl⟩
  simp only [isGap, Bool.or_eq_true, decide_eq_true_eq] at h
  rw [front_eq, row]
  rcases h with (((rfl | rfl) | rfl) | rfl) | rfl <;> rfl

theorem front_string (h : '"' ∉ w) :
    front '"' (w ++ '"' :: cs) = some (w.length + 1, some .string) := by
  rw [front_eq, quoted_eq_some.2 ⟨rfl, w, cs, h, rfl, rfl⟩]
  rfl

theorem front_number (hw : ∀ x ∈ c :: w, x.isDigit = true) (he : Breaks cs) :
    front c (w ++ cs) = some (w.length, some .number) := by
  obtain ⟨hc, hw⟩ := List.forall_mem_cons.1 hw
  have slash : c ≠ '/' := by
    rintro rfl
    cases hc
  have row : row Char.isDigit c (w ++ cs) = some w.length :=
    row_eq_some.2 ⟨hc, by rw [he.takeWhile hw (by decide) (by decide)]⟩
  rw [front_of_isSymbolChar (isSymbolChar_of_isDigit hc),
    lineComment_eq_none fun h => slash (List.cons_prefix_cons.1 h).1.symm,
    blockComment_eq_none fun h => absurd (List.cons_prefix_cons.1 h).1.symm slash, row]
  rfl

theorem front_symbol (hd : c.isDigit = false) (hw : ∀ x ∈ c :: w, isSymbolChar x = true)
    (hl : ¬ ['/', '/'] <+: c :: w) (he : Breaks cs)
    (hb : ['/', '*'] <+: c :: w → ¬ Closes (w.drop 1 ++ cs)) :
    front c (w ++ cs) = some (w.length, some .symbol) := by
  obtain ⟨hc, hw⟩ := List.forall_mem_cons.1 hw
  -- What starts a comment starts it within the symbol, since a blank or a parenthesis follows.
  have within {x : Char} (hs : x ≠ ' ') (hp : x ≠ ')') (h : ['/', x] <+: c :: (w ++ cs)) :
      ['/', x] <+: c :: w := by
    obtain ⟨hc, h⟩ := List.cons_prefix_cons.1 h
    refine List.cons_prefix_cons.2 ⟨hc, ?_⟩
    cases w with
    | nil =>
      obtain ⟨tail, rfl⟩ := h
      exact absurd rfl (he.head_ne hs hp)
    | cons y w => simpa [List.cons_prefix_cons] using h
  have block : blockComment c (w ++ cs) = none := by
    refine blockComment_eq_none fun h => ?_
    have h := within (by decide) (by decide) h
    cases w with
    | nil => simp [List.cons_prefix_cons] at h
    | cons y w => exact hb h
  have row : row isSymbolChar c (w ++ cs) = some w.length :=
    row_eq_some.2 ⟨hc, by rw [he.takeWhile hw (by decide) (by decide)]⟩
  rw [front_of_isSymbolChar hc, lineComment_eq_none fun h => hl (within (by decide) (by decide) h),
    block, row_eq_none.2 hd, row]
  rfl

/-- The text of a token is at the front of a text if no more of it can belong to the token. -/
theorem front_text {t : Token} (ht : t.Fits) (he : t.kind ≠ .parenOpen → Breaks cs)
    (hb : t.OpensComment → ¬ Closes (t.text.drop 2 ++ cs)) :
    ∃ c w, t.text = c :: w ∧ front c (w ++ cs) = some (w.length, some t.kind) := by
  obtain ⟨kind, text, span⟩ := t
  unfold Token.Fits at ht
  cases kind with
  | parenOpen => exact ⟨'(', [], ht, rfl⟩
  | parenClose => exact ⟨')', [], ht, rfl⟩
  | string =>
    obtain ⟨body, hbody, rfl⟩ := ht
    exact ⟨'"', body ++ ['"'], rfl, by simpa using front_string hbody⟩
  | number =>
    obtain ⟨hne, hdigits⟩ := ht
    obtain ⟨c, w, rfl⟩ := List.exists_cons_of_ne_nil hne
    exact ⟨c, w, rfl, front_number hdigits (he nofun)⟩
  | symbol =>
    obtain ⟨c, w, rfl, hd, hw, hl⟩ := ht
    exact ⟨c, w, rfl, front_symbol hd hw hl (he nofun) hb⟩

end Lexer

/-- A blank between tokens is skipped. -/
theorem lexFrom_gap {c : Char} (hc : Lexer.isGap c = true) (pos : Nat) (cs : List Char) :
    lexFrom pos (c :: cs) = lexFrom (pos + c.utf8Size) cs := by
  have blanks {c : Char} (hc : Lexer.isGap c = true) (pos : Nat) (cs : List Char) :
      lexFrom pos (c :: cs) =
        lexFrom (pos + Text.size (c :: cs.takeWhile Lexer.isGap)) (cs.dropWhile Lexer.isGap) := by
    rw [lexFrom, Lexer.front_gap hc]
    simp [Lexer.take_row, Lexer.drop_row]
  rw [blanks hc]
  cases cs with
  | nil => simp
  | cons d cs =>
    cases hd : Lexer.isGap d with
    | false => simp [hd]
    | true =>
      rw [blanks hd]
      simp [hd, Nat.add_assoc]

theorem lexFrom_text {pos : Nat} {t : Token} {cs : List Char} {c : Char} {w : List Char}
    (hf : Lexer.front c (w ++ cs) = some (w.length, some t.kind)) :
    lexFrom pos (c :: (w ++ cs)) =
      let next := pos + Text.size (c :: w)
      { lexFrom next cs with
        tokens := ⟨t.kind, c :: w, ⟨pos, next⟩⟩ :: (lexFrom next cs).tokens } := by
  rw [lexFrom, hf]
  simp

/-- A text that is spelled from tokens is cut into them. -/
theorem Spelled.lexes {ts : List Token} {cs : List Char} (h : Spelled ts cs) (hu : Unclosed ts)
    (pos : Nat) : (lexFrom pos cs).tokens.map Token.sense = ts.map Token.sense ∧
      ∃ p, (lexFrom pos cs).stop = .done p := by
  induction h generalizing pos with
  | nil =>
    rw [lexFrom]
    exact ⟨rfl, pos, rfl⟩
  | blank _ ih =>
    rw [lexFrom_gap rfl]
    exact ih hu _
  | @token t ts cs hf he hs ih =>
    obtain ⟨hbehind, -⟩ := List.pairwise_cons.1 hu.behind
    have quiet : t.OpensComment → ¬ Closes (t.text.drop 2 ++ cs) := by
      intro ho hc
      have hk : t.kind ≠ .parenOpen := hf.not_parenOpen ho
      rcases closes_append hc ((he hk).head_ne (by decide) (by decide)) with hc | hc
      · exact hu.within t List.mem_cons_self ho hc
      · exact hs.not_closes (fun u hmem => hbehind u hmem ho) hc
    obtain ⟨c, w, htext, hfront⟩ := Lexer.front_text hf he quiet
    obtain ⟨hts, hstop⟩ := ih hu.tail (pos + Text.size (c :: w))
    have sense : Token.sense ⟨t.kind, c :: w, ⟨pos, pos + Text.size (c :: w)⟩⟩ = t.sense := by
      rw [← htext]
      rfl
    rw [htext, List.cons_append, lexFrom_text hfront]
    refine ⟨?_, hstop⟩
    rw [List.map_cons, List.map_cons, hts, sense]

end ByteLisp
