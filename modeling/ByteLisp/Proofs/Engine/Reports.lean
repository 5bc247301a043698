/-
  ByteLisp: reports of syntax errors.

  * `Engine.eval_errors_located`: the place of an error of an evaluation is in the source,
    and a window on it shows the line that the location names;
  * `Engine.eval_errors_underlined`: the underline counts bytes, so it is below the error
    exactly if the line is ASCII up to its end. Below `"é" @` it is one column too far to
    the right.
-/
import ByteLisp.Proofs.Engine.Safety
import ByteLisp.Proofs.Syntax.Locations

namespace ByteLisp

open Text

namespace Engine

variable {e e' : Engine} {budget : Nat} {src : List Char} {err : ProgramError} {sp : Span}

/-! ## Errors with a place -/

theorem ends_launch_placeless (budget : Nat) (main : Handle) (e : Engine) :
    Ends (launch budget main) e (fun _ _ => True) fun err _ => err.span = none := by
  have executed (e : Engine) :
      Ends (execute budget main) e (fun _ _ => True) fun err _ => err.span = none := by
    have ran (e : Engine) : Ends (runMain budget main) e (fun _ _ => True) fun err _ => err.span = none := by
      unfold Ends runMain
      cases e.machine.runMain budget main with
      | none => trivial
      | some ending => cases ending <;> trivial
    refine ends_bind (ends_get ?_)
    split
    · exact ends_bind (ends_get (ends_bind (ends_modify (ran _))))
    · exact ran e
  have listed : Ends (list main) e (fun _ _ => True) fun err _ => err.span = none := by
    unfold Ends list
    cases Listing.all e.heap e.globals main <;> trivial
  refine ends_bind (ends_get ?_)
  split
  · exact ends_bind (listed.mono (fun _ _ _ => ends_bind (ends_debug fun log => executed _)) fun _ _ h => h)
  · exact executed e

/-- Only syntax errors have a place. -/
theorem eval_error_span (h : eval budget src e = .error err e') (hsp : err.span = some sp) :
    ∃ syntaxError, Expr.parseProgram src = .error syntaxError ∧ err = .parse syntaxError ∧
      syntaxError.span = sp := by
  have hends : Ends (eval budget src) e (fun _ _ => True) fun err _ =>
      err.span = none ∨
        ∃ syntaxError, Expr.parseProgram src = .error syntaxError ∧ err = .parse syntaxError := by
    unfold eval parse
    cases hp : Expr.parseProgram src with
    | error syntaxError =>
      exact ends_bind (ends_bind (ends_debug fun log => ends_throw (Or.inr ⟨_, rfl, rfl⟩)))
    | ok program =>
      refine ends_bind (ends_bind (ends_debug fun _ => ends_bind (ends_debug fun log => ends_pure ?_)))
      refine ends_bind (ends_bind (ends_get (ends_bind (ends_set (ends_bind (ends_debugAll fun log => ?_))))))
      cases (program.compile e.heap e.globals).result with
      | ok main =>
        exact ends_bind (ends_modify (ends_pure ((ends_launch_placeless budget main _).mono (fun _ _ h => h)
          fun _ _ h => Or.inl h)))
      | error err => exact ends_bind (ends_modify (ends_throw (Or.inl rfl)))
  rcases hends.error h with hnone | ⟨syntaxError, hp, rfl⟩
  · rw [hnone] at hsp
    cases hsp
  · exact ⟨syntaxError, hp, rfl, Option.some.inj hsp⟩

/-- A text that is no program is refused. -/
theorem eval_refused {syntaxError : ParseError} (budget : Nat) (e : Engine)
    (hp : Expr.parseProgram src = .error syntaxError) :
    ∃ e', eval budget src e = .error (.parse syntaxError) e' := by
  have hends : Ends (eval budget src) e (fun _ _ => False) fun err _ => err = .parse syntaxError := by
    unfold eval parse
    rw [hp]
    exact ends_bind (ends_bind (ends_debug fun log => ends_throw rfl))
  cases h : eval budget src e with
  | ok o e' => exact (hends.ok h).elim
  | error err e' => exact ⟨e', by rw [hends.error h]⟩

/-- Line and column of a place count what is before it, and the search for the line never falls before the
    first one. The place of an error of an evaluation is in the source; a window on it shows the line in
    which it starts, without the blanks at its end, and the part of the place that is on this line. -/
theorem eval_errors_located :
    (∀ before after : List Char,
      (∀ next, Location.search (Location.lineStarts (before ++ after)).toArray (size before) =
        .error next → 0 < next) ∧
        Location.ofPos (before ++ after) (size before) = ⟨before.count '\n', (lastLine before).length⟩) ∧
      ∀ (e e' : Engine) (budget : Nat) (src : List Char) (err : ProgramError) (sp : Span),
        eval budget src e = .error err e' → err.span = some sp →
          sp.Within src ∧ sp.hi ≤ size src ∧
            ∀ severity file, (Window.ofSpan severity file src sp).Shows src sp := by
  refine ⟨fun before after => ⟨fun next h => ?_, Location.ofPos_eq before after⟩,
    fun e e' budget src err sp h hsp => ?_⟩
  · rcases Location.search_lineStarts before after with hs | hs
    · cases hs.symm.trans h
    · cases hs.symm.trans h
      exact Nat.succ_pos _
  · obtain ⟨syntaxError, hp, -, rfl⟩ := eval_error_span h hsp
    have hwithin := Expr.span_within hp
    exact ⟨hwithin, hwithin.hi_le, fun severity file => Window.ofSpan_shows severity file hwithin⟩

/-- A program that goes wrong in its second line. -/
def unfinished : List Char := "x\n(y ".toList

set_option maxRecDepth 4000 in
/-- A character with which no token starts. -/
theorem eval_errors_located_unfinished :
    ∃ e', eval 5 (unfinished ++ ['@']) (start ⟨20, 5⟩ .debug) = .error (.parse (.lex ⟨5, '@'⟩)) e' ∧
      Location.ofPos (unfinished ++ ['@']) (size unfinished) = ⟨1, 3⟩ ∧
      (Span.point 5).Within (unfinished ++ ['@']) ∧
      (Window.ofSpan .error "a" (unfinished ++ ['@']) (Span.point 5)).Shows (unfinished ++ ['@'])
        (Span.point 5) := by
  have hp : Expr.parseProgram (unfinished ++ ['@']) = .error (.lex ⟨5, '@'⟩) := by cbv
  obtain ⟨e', he⟩ := eval_refused 5 (start ⟨20, 5⟩ .debug) hp
  obtain ⟨hplaces, herrors⟩ := eval_errors_located
  obtain ⟨hwithin, -, hshows⟩ := herrors _ e' 5 _ _ (Span.point 5) he rfl
  exact ⟨e', he, (hplaces unfinished ['@']).2.trans (by cbv), hwithin, hshows .error "a"⟩

/-! ## Underlines -/

theorem utf8Size_eq_one {c : Char} : c.utf8Size = 1 ↔ c.toNat < 128 := by
  rw [Char.utf8Size_eq_one_iff, UInt32.le_iff_toNat_le]
  exact Nat.lt_succ_iff.symm

theorem length_le_size (text : List Char) : text.length ≤ size text := by
  induction text with
  | nil => exact Nat.le_refl _
  | cons c cs ih =>
    have := c.utf8Size_pos
    rw [size_cons, List.length_cons]
    omega

/-- A text takes as many bytes as it has characters exactly if it is ASCII. -/
theorem size_eq_length {text : List Char} : size text = text.length ↔ ∀ c ∈ text, c.toNat < 128 := by
  induction text with
  | nil => simp
  | cons c cs ih =>
    have hc := c.utf8Size_pos
    have hle := length_le_size cs
    rw [size_cons, List.length_cons, List.forall_mem_cons, ← ih, ← utf8Size_eq_one]
    omega

/-- The carets are below a text if it has no more bytes than characters. -/
theorem carets_eq_length {text : List Char} :
    max (size text) 1 = max text.length 1 ↔ ∀ c ∈ text, c.toNat < 128 := by
  rw [← size_eq_length]
  cases text with
  | nil => simp
  | cons c cs =>
    have hlength : 1 ≤ (c :: cs).length := Nat.succ_pos _
    rw [Nat.max_eq_left (Nat.le_trans hlength (length_le_size _)), Nat.max_eq_left hlength]

/-- The last line of a window, in black and white. -/
theorem render_underline (w : Window) :
    ∃ above, w.render false = above ++ "| " ++ Window.underline w.lineSpan ++ "\n" := by
  let number := toString w.location.line1
  let indent := padRight number.length ""
  refine ⟨indent ++ "-->" ++ s!" {w.file}:{w.location.line1}:{w.location.column1}\n" ++ s!"{indent} |\n" ++
    s!"{number} | " ++ String.ofList w.lineText ++ "\n" ++ indent ++ " ", ?_⟩
  have bar : "| " = "|" ++ " " := rfl
  simp only [Window.render, Style.paint, Bool.false_eq_true, if_false, bar, String.append_assoc]
  rfl

/-- The underline of an error has a blank for each byte of its line before it, and a caret for each byte of
    it on this line, at least one. There are as many blanks as the column says, and as many carets as
    characters, exactly if these characters are ASCII. -/
theorem eval_errors_underlined (h : eval budget src e = .error err e') (hsp : err.span = some sp)
    (severity : Severity) (file : String) :
    let w := Window.ofSpan severity file src sp
    ∃ above before marked blanks carets,
      before = lastLine (takeBytes sp.lo src) ∧ marked = firstLine (sp.slice src) ∧
      w.render false = above ++ "| " ++
        String.ofList (List.replicate blanks ' ' ++ List.replicate carets '^') ++ "\n" ∧
      w.location.column1 - 1 = before.length ∧
      blanks = size before ∧ (blanks = before.length ↔ ∀ c ∈ before, c.toNat < 128) ∧
      carets = max (size marked) 1 ∧ (carets = max marked.length 1 ↔ ∀ c ∈ marked, c.toNat < 128) := by
  obtain ⟨syntaxError, hp, -, rfl⟩ := eval_error_span h hsp
  obtain ⟨before, marked, after, rfl, hspan⟩ := (Expr.span_within hp).split
  rw [hspan, takeBytes_append, slice_append, Window.ofSpan_eq]
  intro w
  obtain ⟨above, hrender⟩ := render_underline w
  refine ⟨above, lastLine before, firstLine marked, _, _, rfl, rfl, ?_, rfl, rfl, size_eq_length,
    rfl, carets_eq_length⟩
  rw [hrender, Window.underline, Span.length, Nat.add_sub_cancel_left]

/-- A character of two bytes before one with which no token starts. -/
def accented : List Char := "\"é\" @".toList

/-- The caret is in the sixth column, the error in the fifth. -/
theorem eval_errors_underlined_accented :
    ∃ e' above, eval 5 accented (start ⟨20, 5⟩ .debug) = .error (.parse (.lex ⟨5, '@'⟩)) e' ∧
      (Window.ofSpan .error "a" accented (Span.point 5)).render false = above ++ "| " ++ "     ^" ++ "\n" ∧
      (Window.ofSpan .error "a" accented (Span.point 5)).location.column1 = 5 := by
  have hp : Expr.parseProgram accented = .error (.lex ⟨5, '@'⟩) := by cbv
  obtain ⟨e', he⟩ := eval_refused 5 (start ⟨20, 5⟩ .debug) hp
  have hspan : (ProgramError.parse (.lex ⟨5, '@'⟩)).span = some (Span.point 5) := rfl
  obtain ⟨above, before, marked, blanks, carets, rfl, rfl, hrender, hcolumn, rfl, -, rfl, -⟩ :=
    eval_errors_underlined he hspan .error "a"
  have hbefore : lastLine (takeBytes 5 accented) = "\"é\" ".toList := by cbv
  have hmarked : firstLine ((Span.point 5).slice accented) = [] := by cbv
  rw [show (Span.point 5).lo = 5 from rfl, hbefore] at hrender hcolumn
  rw [hmarked] at hrender
  refine ⟨e', above, he, hrender, ?_⟩
  have hpos : 0 < (Window.ofSpan .error "a" accented (Span.point 5)).location.column1 := Nat.succ_pos _
  have hfour : "\"é\" ".toList.length = 4 := by cbv
  omega

end Engine

end ByteLisp
