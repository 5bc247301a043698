/-
  ByteLisp: lines of a text, and what a window shows of them.

  * `Location.search_lineStarts`: the binary search finds the last line start that is not
    after an offset, and never fails before the first one; `Location.ofPos_append` is what
    is counted;
  * `Span.Within`: a span between characters of a text, as that of every syntax error is
    (`Expr.span_within`);
  * `Window.Shows`: a window shows the line in which a span starts, and the part of the
    span that is on it; `Window.ofSpan_shows`.
-/
import ByteLisp.Proofs.Syntax.Partition
import ByteLisp.Proofs.Syntax.Recognition
import ByteLisp.Report

namespace ByteLisp

/-! ## Lines -/

namespace Text

/-- A line starts behind a text. -/
def StartsLine (above : List Char) : Prop := above = [] ∨ ∃ text, above = text ++ ['\n']

/-- A line ends before a text. -/
def EndsLine (below : List Char) : Prop := below = [] ∨ ∃ text, below = '\n' :: text

/-- What a text has behind its last newline. -/
def lastLine (text : List Char) : List Char := (text.reverse.takeWhile (· ≠ '\n')).reverse

/-- What a text has before its first newline. -/
def firstLine (text : List Char) : List Char := text.takeWhile (· ≠ '\n')

theorem firstLine_append (text : List Char) :
    ∃ below, text = firstLine text ++ below ∧ EndsLine below ∧ '\n' ∉ firstLine text := by
  refine ⟨text.dropWhile (· ≠ '\n'), List.takeWhile_append_dropWhile.symm, ?_, fun h => ?_⟩
  · cases hd : text.dropWhile (· ≠ '\n') with
    | nil => exact Or.inl rfl
    | cons c cs =>
      have hc := List.head?_dropWhile_not (· ≠ '\n') text
      rw [hd] at hc
      exact Or.inr ⟨cs, by simpa using hc⟩
  · simpa using List.mem_takeWhile_imp h

/-- The first line of a text goes on behind it, unless the text has a newline. -/
theorem firstLine_append_cases (text after : List Char) :
    firstLine (text ++ after) = firstLine text ∨
      firstLine text = text ∧ firstLine (text ++ after) = text ++ firstLine after := by
  unfold firstLine
  rw [List.takeWhile_append]
  split
  · next h => exact Or.inr ⟨(List.takeWhile_prefix _).eq_of_length h, rfl⟩
  · exact Or.inl rfl

theorem size_firstLine_le (text : List Char) : size (firstLine text) ≤ size text := by
  obtain ⟨below, htext, -⟩ := firstLine_append text
  conv_rhs => rw [htext, size_append]
  exact Nat.le_add_right ..

theorem firstLine_prefix (text after : List Char) : firstLine text <+: firstLine (text ++ after) := by
  rcases firstLine_append_cases text after with h | ⟨htext, h⟩
  · rw [h]
  · rw [h, htext]
    exact List.prefix_append ..

theorem size_firstLine_min (text after : List Char) :
    min (size text) (size (firstLine (text ++ after))) = size (firstLine text) := by
  rcases firstLine_append_cases text after with h | ⟨htext, h⟩
  · rw [h]
    exact Nat.min_eq_right (size_firstLine_le text)
  · rw [h, htext, size_append]
    exact Nat.min_eq_left (Nat.le_add_right ..)

theorem lastLine_append (text : List Char) :
    ∃ above, text = above ++ lastLine text ∧ StartsLine above ∧ '\n' ∉ lastLine text := by
  obtain ⟨below, htext, hends, hline⟩ := firstLine_append text.reverse
  refine ⟨below.reverse, ?_, ?_, fun h => hline (List.mem_reverse.1 h)⟩
  · have h := congrArg List.reverse htext
    rwa [List.reverse_reverse, List.reverse_append] at h
  · rcases hends with rfl | ⟨cs, rfl⟩
    · exact Or.inl rfl
    · exact Or.inr ⟨cs.reverse, List.reverse_cons⟩

@[simp] theorem size_reverse (text : List Char) : size text.reverse = size text := by
  induction text with
  | nil => rfl
  | cons c cs ih => simp [ih, Nat.add_comm]

end Text

open Text

/-! ## The search for a line -/

namespace Location

/-- What a search tells about an offset among others in order. -/
def Answers (starts : Array Nat) (pos : Nat) : Except Nat Nat → Prop
  | .ok i => i < starts.size ∧ starts.getD i 0 = pos
  | .error i => i ≤ starts.size ∧ (∀ j < i, starts.getD j 0 < pos) ∧ ∀ j, i ≤ j → j < starts.size →
      pos < starts.getD j 0

/-- Offsets in order, each once. -/
def Ascending (starts : Array Nat) : Prop :=
  ∀ i j, i < j → j < starts.size → starts.getD i 0 < starts.getD j 0

/-- What is before the part that is searched is less, and what is behind it is greater. -/
theorem searchBetween_answers {starts : Array Nat} {pos lo hi : Nat} (hs : Ascending starts) (hlo : lo ≤ hi)
    (hhi : hi ≤ starts.size) (below : ∀ j < lo, starts.getD j 0 < pos)
    (above : ∀ j, hi ≤ j → j < starts.size → pos < starts.getD j 0) :
    Answers starts pos (searchBetween starts pos lo hi) := by
  fun_induction searchBetween starts pos lo hi with
  | case1 lo hi hlt mid heq => exact ⟨by omega, Nat.compare_eq_eq.1 heq⟩
  | case2 lo hi hlt mid hlower ih =>
    have hmid : starts.getD mid 0 < pos := Nat.compare_eq_lt.1 hlower
    refine ih (by omega) hhi (fun j hj => ?_) above
    rcases Nat.lt_or_eq_of_le (Nat.le_of_lt_succ hj) with hj | rfl
    · exact Nat.lt_trans (hs j mid hj (by omega)) hmid
    · exact hmid
  | case3 lo hi hlt mid hgreater ih =>
    have hmid : pos < starts.getD mid 0 := Nat.compare_eq_gt.1 hgreater
    refine ih (by omega) (by omega) below fun j hj hsize => ?_
    rcases Nat.lt_or_eq_of_le hj with hj | rfl
    · exact Nat.lt_trans hmid (hs mid j hj hsize)
    · exact hmid
  | case4 lo hi hge => exact ⟨by omega, below, fun j hj => above j (by omega)⟩

theorem search_answers {starts : Array Nat} (pos : Nat) (hs : Ascending starts) :
    Answers starts pos (search starts pos) :=
  searchBetween_answers hs (Nat.zero_le _) (Nat.le_refl _) (fun _ hj => absurd hj (Nat.not_lt_zero _))
    fun _ hj hlt => absurd hlt (Nat.not_lt.2 hj)

/-! ## Line starts -/

theorem startsAfter_append (pos : Nat) (xs ys : List Char) :
    startsAfter pos (xs ++ ys) = startsAfter pos xs ++ startsAfter (pos + size xs) ys := by
  induction xs generalizing pos with
  | nil => simp [startsAfter]
  | cons c cs ih =>
    simp only [List.cons_append, startsAfter, size_cons, ih]
    rw [Nat.add_assoc]
    split <;> simp

theorem length_startsAfter (pos : Nat) (cs : List Char) : (startsAfter pos cs).length = cs.count '\n' := by
  induction cs generalizing pos with
  | nil => rfl
  | cons c cs ih =>
    rw [startsAfter, List.count_cons]
    split <;> simp_all

theorem bounds_of_mem_startsAfter {pos s : Nat} {cs : List Char} (h : s ∈ startsAfter pos cs) :
    pos < s ∧ s ≤ pos + size cs := by
  induction cs generalizing pos with
  | nil => cases h
  | cons c cs ih =>
    have hc := c.utf8Size_pos
    have later (h : s ∈ startsAfter (pos + c.utf8Size) cs) : pos < s ∧ s ≤ pos + size (c :: cs) := by
      have := ih h
      rw [size_cons]
      omega
    rw [startsAfter] at h
    split at h
    · rcases List.mem_cons.1 h with rfl | h
      · rw [size_cons]
        omega
      · exact later h
    · exact later h

theorem pairwise_startsAfter (pos : Nat) (cs : List Char) : (startsAfter pos cs).Pairwise (· < ·) := by
  induction cs generalizing pos with
  | nil => exact .nil
  | cons c cs ih =>
    rw [startsAfter]
    split
    · exact .cons (fun s hs => (bounds_of_mem_startsAfter hs).1) (ih _)
    · exact ih _

theorem lineStarts_append (before after : List Char) :
    lineStarts (before ++ after) = lineStarts before ++ startsAfter (size before) after := by
  rw [lineStarts, lineStarts, startsAfter_append, Nat.zero_add, List.cons_append]

theorem length_lineStarts (src : List Char) : (lineStarts src).length = src.count '\n' + 1 := by
  rw [lineStarts, List.length_cons, length_startsAfter]

theorem le_of_mem_lineStarts {src : List Char} {s : Nat} (h : s ∈ lineStarts src) : s ≤ size src := by
  rcases List.mem_cons.1 h with rfl | h
  · exact Nat.zero_le _
  · simpa using (bounds_of_mem_startsAfter h).2

theorem ascending_lineStarts (src : List Char) : Ascending (lineStarts src).toArray := by
  have hp : (lineStarts src).Pairwise (· < ·) :=
    .cons (fun s hs => (bounds_of_mem_startsAfter hs).1) (pairwise_startsAfter 0 src)
  intro i j hij hj
  have hj : j < (lineStarts src).length := hj
  simpa [List.getD_eq_getElem?_getD, hj, Nat.lt_trans hij hj] using
    List.pairwise_iff_getElem.1 hp i j _ hj hij

/-- The line starts up to a place in the text. -/
theorem getD_lineStarts_le (before after : List Char) {i : Nat} (hi : i ≤ before.count '\n') :
    (lineStarts (before ++ after)).toArray.getD i 0 ≤ size before := by
  have hlt : i < (lineStarts before).length := by
    rw [length_lineStarts]
    omega
  rw [Array.getD_eq_getD_getElem?, List.getElem?_toArray, lineStarts_append, List.getElem?_append_left hlt,
    List.getElem?_eq_getElem hlt]
  exact le_of_mem_lineStarts (List.getElem_mem hlt)

/-- The line starts behind a place in the text. -/
theorem lt_getD_lineStarts (before after : List Char) {i : Nat} (hi : before.count '\n' < i)
    (hlt : i < (lineStarts (before ++ after)).length) :
    size before < (lineStarts (before ++ after)).toArray.getD i 0 := by
  have hle : (lineStarts before).length ≤ i := by
    rw [length_lineStarts]
    omega
  rw [lineStarts_append, List.length_append] at hlt
  have hlt' : i - (lineStarts before).length < (startsAfter (size before) after).length := by omega
  rw [Array.getD_eq_getD_getElem?, List.getElem?_toArray, lineStarts_append, List.getElem?_append_right hle,
    List.getElem?_eq_getElem hlt']
  exact (bounds_of_mem_startsAfter (List.getElem_mem hlt')).1

/-- The search finds the line of a place in the text, or the place behind that line. -/
theorem search_lineStarts (before after : List Char) :
    search (lineStarts (before ++ after)).toArray (size before) = .ok (before.count '\n') ∨
      search (lineStarts (before ++ after)).toArray (size before) = .error (before.count '\n' + 1) := by
  have hs := ascending_lineStarts (before ++ after)
  have hanswer := search_answers (size before) hs
  have hlength : before.count '\n' < (lineStarts (before ++ after)).toArray.size := by
    rw [List.size_toArray, length_lineStarts, List.count_append]
    omega
  cases hsearch : search (lineStarts (before ++ after)).toArray (size before) with
  | ok i =>
    rw [hsearch] at hanswer
    obtain ⟨hi, heq⟩ := hanswer
    refine Or.inl (congrArg _ (Nat.le_antisymm (Nat.le_of_not_lt fun hlt => ?_)
      (Nat.le_of_not_lt fun hlt => ?_)))
    · exact absurd heq (Nat.ne_of_gt (lt_getD_lineStarts before after hlt hi))
    · have := hs i _ hlt hlength
      have := getD_lineStarts_le before after (Nat.le_refl _)
      omega
  | error i =>
    rw [hsearch] at hanswer
    obtain ⟨hi, hbelow, habove⟩ := hanswer
    refine Or.inr (congrArg _ (Nat.le_antisymm (Nat.le_of_not_lt fun hlt => ?_)
      (Nat.le_of_not_lt fun hlt => ?_)))
    · have hlower := hbelow _ hlt
      have hgreater := lt_getD_lineStarts before after (Nat.lt_succ_self _) (Nat.lt_of_lt_of_le hlt hi)
      exact absurd hlower (Nat.lt_asymm hgreater)
    · have := habove (before.count '\n') (by omega) hlength
      have := getD_lineStarts_le before after (Nat.le_refl _)
      omega

/-- The last line start of a text that ends a line. -/
theorem getD_lineStarts_start {above : List Char} (h : StartsLine above) (below : List Char) :
    (lineStarts (above ++ below)).toArray.getD (above.count '\n') 0 = size above := by
  have hlt : above.count '\n' < (lineStarts above).length := by
    rw [length_lineStarts]
    exact Nat.lt_succ_self _
  rw [Array.getD_eq_getD_getElem?, List.getElem?_toArray, lineStarts_append, List.getElem?_append_left hlt]
  rcases h with rfl | ⟨text, rfl⟩
  · rfl
  · rw [lineStarts_append, List.count_append,
      List.getElem?_append_right (by rw [length_lineStarts]; exact Nat.le_refl _),
      length_lineStarts, size_append]
    simp [startsAfter]

/-- The line is the number of newlines before the place, and the column the number of characters since the
    last of them. -/
theorem ofPos_eq (before after : List Char) :
    ofPos (before ++ after) (size before) = ⟨before.count '\n', (lastLine before).length⟩ := by
  obtain ⟨above, hbefore, hstarts, hline⟩ := lastLine_append before
  have hcount : before.count '\n' = above.count '\n' := by
    conv_lhs => rw [hbefore, List.count_append, List.count_eq_zero.2 hline]
    rfl
  have hslice : Span.slice ⟨size above, size before⟩ (before ++ after) = lastLine before := by
    have hsrc : before ++ after = above ++ (lastLine before ++ after) := by
      rw [← List.append_assoc, ← hbefore]
    have hsize : size before = size above + size (lastLine before) := by rw [← size_append, ← hbefore]
    rw [hsrc, hsize]
    exact slice_append ..
  have hstart : (lineStarts (before ++ after)).toArray.getD (before.count '\n') 0 = size above := by
    rw [hcount]
    conv_lhs => rw [hbefore, List.append_assoc]
    exact getD_lineStarts_start hstarts _
  have hmin : min (size before) (size (before ++ after)) = size before := by
    rw [size_append]
    exact Nat.min_eq_left (Nat.le_add_right ..)
  rcases search_lineStarts before after with h | h
  · simp only [ofPos, hmin, h, hstart, hslice]
  · simp only [ofPos, hmin, h, Nat.add_sub_cancel, hstart, hslice]

end Location

/-! ## Spans -/

/-- A span between places of a text. -/
structure Span.Within (sp : Span) (src : List Char) : Prop where
  le : sp.lo ≤ sp.hi
  lo : Boundary src sp.lo
  hi : Boundary src sp.hi

variable {src before text after : List Char} {sp : Span}

theorem Span.Within.hi_le (h : sp.Within src) : sp.hi ≤ size src := by
  obtain ⟨pre, post, rfl, hs⟩ := h.hi
  rw [← hs, size_append]
  exact Nat.le_add_right ..

/-- A span cuts a text into three parts. -/
theorem Span.Within.split (h : sp.Within src) :
    ∃ before text after, src = before ++ (text ++ after) ∧ sp = ⟨size before, size before + size text⟩ := by
  obtain ⟨before, rest, hsrc, hlo⟩ := h.lo
  obtain ⟨pre, after, hsrc', hhi⟩ := h.hi
  have hle : size before ≤ size pre := by
    rw [hlo, hhi]
    exact h.le
  -- The shorter one of two prefixes of a text is a prefix of the other.
  have hprefix : before <+: pre := by
    have hbefore : before <+: src := ⟨rest, hsrc.symm⟩
    have hpre : pre <+: src := ⟨after, hsrc'.symm⟩
    rcases List.prefix_or_prefix_of_prefix hbefore hpre with hp | ⟨t, rfl⟩
    · exact hp
    · rw [size_append] at hle
      have ht : t = [] := by
        by_contra hne
        have hlt : size pre < size (pre ++ t) := size_lt_append hne
        rw [size_append] at hlt
        omega
      rw [ht, List.append_nil]
  obtain ⟨text, rfl⟩ := hprefix
  refine ⟨before, text, after, by rw [hsrc', List.append_assoc], ?_⟩
  rw [size_append] at hhi
  cases sp
  cases hlo
  cases hhi
  rfl

theorem Span.within_of_split (before text after : List Char) :
    Span.Within ⟨size before, size before + size text⟩ (before ++ (text ++ after)) where
  le := Nat.le_add_right ..
  lo := ⟨before, text ++ after, rfl, rfl⟩
  hi := ⟨before ++ text, after, (List.append_assoc ..).symm, size_append ..⟩

theorem Span.within_point {pos : Nat} (h : Boundary src pos) : (Span.point pos).Within src :=
  ⟨Nat.le_refl _, h, h⟩

/-! ## Syntax errors -/

theorem boundary_start (src : List Char) : Boundary src 0 := ⟨[], src, rfl, rfl⟩

theorem boundary_stop {pre cs : List Char} {l : Lexed} (h : Cut pre cs l) :
    Boundary (pre ++ cs) l.stop.pos := by
  induction h with
  | done => exact ⟨_, [], rfl, rfl⟩
  | stuck => exact ⟨_, _, rfl, rfl⟩
  | skip _ _ ih | token _ _ ih => rwa [List.append_assoc] at ih

/-- An error is at one of the tokens or where they end. -/
theorem FirstError.span {ts : List Token} {stop : Lexed.Stop} {err : ParseError}
    (h : FirstError ts stop err) :
    (∃ t ∈ ts, err.span = t.span) ∨ err.span = Span.point stop.pos := by
  cases h with
  | token => exact Or.inl ⟨_, by simp, rfl⟩
  | atEnd | lex => exact Or.inr rfl

namespace Expr

variable {err : ParseError}

/-- A text that is no program is rejected at its first error, where the parentheses around it count. -/
theorem parseProgram_error_iff : parseProgram src = .error err ↔
    FirstError (opening ++ (lex src).tokens ++ closing (lex src).stop) (lex src).stop err := by
  rw [parseProgram, result_eq_error parsingProgram_not_broken, parsingProgram_eq, Progress.run_failed_iff]

/-- The tokens that are read of a program, with those around it, have places in the text. -/
theorem token_within : ∀ t ∈ opening ++ (lex src).tokens ++ closing (lex src).stop, t.span.Within src := by
  have hcut : Cut [] src (lex src) := cut_lexFrom [] src
  have hparts := Lexed.partitions_cut hcut
  simp only [List.forall_mem_append]
  refine ⟨⟨?_, fun t ht => ?_⟩, ?_⟩
  · simp only [opening, List.forall_mem_cons, List.not_mem_nil, false_imp_iff, implies_true, and_true]
    exact ⟨Span.within_point (boundary_start src), Span.within_point (boundary_start src)⟩
  · obtain ⟨hlo, hhi⟩ := hparts.boundaries t ht
    exact ⟨Nat.le_of_lt (hparts.nonempty t ht), hlo, hhi⟩
  · have hstop := boundary_stop hcut
    cases hl : (lex src).stop with
    | failed e => nofun
    | done pos =>
      rw [hl] at hstop
      exact List.forall_mem_singleton.2 (Span.within_point hstop)

/-- The place of a syntax error is in the text. -/
theorem span_within (h : parseProgram src = .error err) : err.span.Within src := by
  rcases FirstError.span (parseProgram_error_iff.1 h) with ⟨t, ht, hspan⟩ | hspan <;> rw [hspan]
  · exact token_within t ht
  · exact Span.within_point (boundary_stop (cut_lexFrom [] src))

end Expr

/-! ## Windows -/

/-- A window shows the line in which a span starts. -/
structure Window.Shows (w : Window) (src : List Char) (sp : Span) : Prop where
  location : w.location = Location.ofPos src sp.lo
  line : ∃ above line below,
    src = above ++ (line ++ below) ∧ StartsLine above ∧ '\n' ∉ line ∧ EndsLine below ∧
    above.count '\n' = w.location.line ∧ w.lineText = trimEnd line ∧ size above + w.lineSpan.lo = sp.lo ∧
    w.lineSpan.Within line

/-- What a window shows of a text that is cut by a span. -/
theorem Window.ofSpan_eq (severity : Severity) (file : String) (before text after : List Char) :
    Window.ofSpan severity file (before ++ (text ++ after)) ⟨size before, size before + size text⟩ =
      { severity, file
        location := ⟨before.count '\n', (lastLine before).length⟩
        lineText := trimEnd (lastLine before ++ firstLine (text ++ after))
        lineSpan := ⟨size (lastLine before), size (lastLine before) + size (firstLine text)⟩ } := by
  have hlo : min (size before) (size (before ++ (text ++ after))) = size before := by
    rw [size_append]
    exact Nat.min_eq_left (Nat.le_add_right ..)
  have hlocation := Location.ofPos_eq before (text ++ after)
  have hlast : size ((before.reverse.takeWhile (· ≠ '\n'))) = size (lastLine before) := (size_reverse _).symm
  have hle : size (lastLine before) ≤ size before := by
    obtain ⟨above, hbefore, -⟩ := lastLine_append before
    conv_rhs => rw [hbefore, size_append]
    exact Nat.le_add_left ..
  have hhi : min (max (size before + size text) (size before))
      (size before + size (firstLine (text ++ after))) =
      size before + size (firstLine text) := by
    rw [Nat.max_eq_left (Nat.le_add_right ..), Nat.add_min_add_left, size_firstLine_min]
  unfold ofSpan
  simp only [hlo, takeBytes_append, dropBytes_append, hlast]
  refine Window.mk.injEq .. ▸ ⟨rfl, rfl, hlocation, rfl, Span.mk.injEq .. ▸ ⟨?_, ?_⟩⟩
  · omega
  · change min (max (size before + size text) (size before))
      (size before + size (firstLine (text ++ after))) - _ = _
    rw [hhi]
    omega

theorem Window.ofSpan_shows (severity : Severity) (file : String) (h : sp.Within src) :
    (Window.ofSpan severity file src sp).Shows src sp := by
  obtain ⟨before, text, after, rfl, rfl⟩ := h.split
  obtain ⟨above, hbefore, hstarts, hleft⟩ := lastLine_append before
  obtain ⟨below, hafter, hends, hright⟩ := firstLine_append (text ++ after)
  obtain ⟨rest, hrest⟩ := firstLine_prefix text after
  have hcount : above.count '\n' = before.count '\n' := by
    conv_rhs => rw [hbefore, List.count_append, List.count_eq_zero.2 hleft]
    rfl
  rw [ofSpan_eq]
  refine ⟨(Location.ofPos_eq ..).symm, above, lastLine before ++ firstLine (text ++ after), below,
    ?_, hstarts, ?_, hends, hcount, rfl, ?_, ?_⟩
  · conv_lhs => rw [hbefore, hafter]
    simp
  · rw [List.mem_append, not_or]
    exact ⟨hleft, hright⟩
  · rw [← size_append, ← hbefore]
  · rw [← hrest]
    exact Span.within_of_split ..

end ByteLisp
