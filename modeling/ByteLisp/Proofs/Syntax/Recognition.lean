/-
  ByteLisp: the parser recognises the grammar.

  * `parsing_eq` and `parsingProgram_eq`: how the parser ends is what its run in terms
    of what has been read says, for the tokens of any text;
  * `Lexed.Derives`: the tokens of a text are those of a derivation;
  * `derivation_in_begin`: the tokens that stand for a program are those of a list of
    expressions;
  * `parse_grammar`: both parsers accept the texts of the grammar with the tree that is
    derived, an expression is rejected at the first error, and no reduction fails.
-/
import ByteLisp.Proofs.Syntax.Grammar
import ByteLisp.Proofs.Syntax.Lexemes
import ByteLisp.Proofs.Ends

namespace ByteLisp

open ParseTree

/-- The whole text has been read, and its tokens are those of the derivations. -/
def Lexed.Derives (l : Lexed) (ds : List ParseTree) : Prop :=
  (∃ pos, l.stop = .done pos) ∧ allTokens ds = l.tokens

theorem Lexed.derives_singleton {l : Lexed} {d : ParseTree} :
    l.Derives [d] ↔ (∃ pos, l.stop = .done pos) ∧ d.tokens = l.tokens := by
  simp [Lexed.Derives, allTokens]

theorem Lexed.Derives.unique {l : Lexed} {ds ds' : List ParseTree} (h : l.Derives ds)
    (h' : l.Derives ds') : ds = ds' :=
  allTokens_inj (h.2.trans h'.2.symm)

namespace Expr

variable {src : List Char} {e : Expr} {err : ParseError}

theorem fits_of_mem_lex : ∀ t ∈ (lex src).tokens, t.Fits := fits_of_mem_lexFrom

theorem parsing_eq : parsing src = (Progress.reading []).run (lex src).tokens (lex src).stop :=
  Parser.Stands.start.run_eq fits_of_mem_lex

theorem fits_of_mem_opening : ∀ t ∈ opening, t.Fits := by
  simp only [opening, List.forall_mem_cons, List.not_mem_nil, false_imp_iff, implies_true, and_true]
  exact ⟨rfl, 'b', "egin".toList, rfl, rfl, List.all_eq_true.1 rfl, by simp⟩

theorem fits_of_mem_closing {stop : Lexed.Stop} : ∀ t ∈ closing stop, t.Fits := by
  cases stop with
  | failed e => nofun
  | done pos => exact List.forall_mem_singleton.2 rfl

theorem fits_of_mem_program :
    ∀ t ∈ opening ++ (lex src).tokens ++ closing (lex src).stop, t.Fits := by
  simp only [List.forall_mem_append]
  exact ⟨⟨fits_of_mem_opening, fits_of_mem_lex⟩, fits_of_mem_closing⟩

theorem parsingProgram_eq : parsingProgram src = (Progress.reading []).run
    (opening ++ (lex src).tokens ++ closing (lex src).stop) (lex src).stop :=
  Parser.Stands.start.run_eq fits_of_mem_program

/-! ## Results -/

theorem result_eq_ok {o : Ending} (h : ∀ err, o ≠ .broken err) : o.result = .ok e ↔ o = .accepted e := by
  cases o with
  | accepted x => simp [Ending.result]
  | failed x => simp [Ending.result]
  | broken x => exact absurd rfl (h x)

theorem result_eq_error {o : Ending} (h : ∀ err, o ≠ .broken err) :
    o.result = .error err ↔ o = .failed err := by
  cases o with
  | accepted x => simp [Ending.result]
  | failed x => simp [Ending.result]
  | broken x => exact absurd rfl (h x)

theorem parsing_not_broken (err : ParseError) : parsing src ≠ .broken err := by
  rw [parsing_eq]
  exact Progress.run_not_broken

theorem parsingProgram_not_broken (err : ParseError) : parsingProgram src ≠ .broken err := by
  rw [parsingProgram_eq]
  exact Progress.run_not_broken

theorem parse_ok_iff :
    parse src = .ok e ↔ ∃ d : ParseTree, (lex src).Derives [d] ∧ d.expr = e := by
  rw [parse, result_eq_ok parsing_not_broken, parsing_eq, Progress.run_accepted_iff]
  simp only [Lexed.derives_singleton, and_assoc, exists_and_left]

theorem parse_error_iff :
    parse src = .error err ↔ FirstError (lex src).tokens (lex src).stop err := by
  rw [parse, result_eq_error parsing_not_broken, parsing_eq, Progress.run_failed_iff]

/-! ## Programs -/

/-- The tokens between the opening and the closing of a program are those of its expressions. -/
theorem derivation_in_begin {d : ParseTree} {ts : List Token} {pos : Nat}
    (h : d.tokens = opening ++ ts ++ closing (.done pos)) :
    ∃ ds, allTokens ds = ts ∧ d.expr = .list (.symbol "begin" :: exprs ds) := by
  cases d with
  | atom t ht => simp [tokens, opening] at h
  | list l hl entries r hr =>
    simp only [tokens, opening, closing, List.cons_append, List.nil_append, List.cons.injEq] at h
    rw [← List.cons_append] at h
    obtain ⟨hentries, -⟩ := List.append_inj' h.2 rfl
    cases entries with
    | nil => cases hentries
    | cons head ds =>
      cases head with
      | atom t ht =>
        obtain ⟨rfl, rfl⟩ := List.cons.inj hentries
        exact ⟨ds, rfl, rfl⟩
      | list l' hl' ds' r' hr' =>
        obtain ⟨rfl, -⟩ := List.cons.inj hentries
        cases hl'

theorem parseProgram_ok_iff : parseProgram src = .ok e ↔
    ∃ ds : List ParseTree, (lex src).Derives ds ∧ .list (.symbol "begin" :: exprs ds) = e := by
  rw [parseProgram, result_eq_ok parsingProgram_not_broken, parsingProgram_eq,
    Progress.run_accepted_iff]
  constructor
  · rintro ⟨⟨pos, hstop⟩, d, hd, rfl⟩
    rw [hstop] at hd
    obtain ⟨ds, hds, he⟩ := derivation_in_begin hd
    exact ⟨ds, ⟨⟨pos, hstop⟩, hds⟩, he.symm⟩
  · rintro ⟨ds, ⟨⟨pos, hstop⟩, hds⟩, rfl⟩
    refine ⟨⟨pos, hstop⟩, .list ⟨.parenOpen, ['('], Span.point 0⟩ rfl
      (.atom ⟨.symbol, "begin".toList, Span.point 0⟩ ⟨nofun, nofun⟩ :: ds)
      ⟨.parenClose, [')'], Span.point pos⟩ rfl, ?_, rfl⟩
    simp [tokens, allTokens, opening, closing, hstop, hds]

/-- A text is read as an expression exactly if its tokens have a derivation, as a program exactly if
    they have any number of derivations in a row; these are the only ones, and they give the tree.
    Otherwise the first error of an expression is reported, and no reduction ever fails. -/
theorem parse_grammar (src : List Char) :
    (∀ e, parse src = .ok e ↔ ∃ d : ParseTree, (lex src).Derives [d] ∧ d.expr = e) ∧
    (∀ e, parseProgram src = .ok e ↔ ∃ ds : List ParseTree,
      (lex src).Derives ds ∧ .list (.symbol "begin" :: exprs ds) = e) ∧
    (∀ ds ds', (lex src).Derives ds → (lex src).Derives ds' → ds = ds') ∧
    (∀ err, parse src = .error err ↔ FirstError (lex src).tokens (lex src).stop err) ∧
    ∀ err, parsing src ≠ .broken err ∧ parsingProgram src ≠ .broken err :=
  ⟨fun _ => parse_ok_iff, fun _ => parseProgram_ok_iff, fun _ _ h h' => h.unique h',
    fun _ => parse_error_iff, fun err => ⟨parsing_not_broken err, parsingProgram_not_broken err⟩⟩

end Expr

end ByteLisp
