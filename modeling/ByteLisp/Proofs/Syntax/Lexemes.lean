/-
  ByteLisp: what tokens look like.

  * `Lexer.Front` says what the rules find at the front of a text, one rule for each
    entry of the table: a symbol starts with no digit and no comment;
  * `fits_of_mem_lexFrom`: the text of each token fits its kind.
-/
import ByteLisp.Proofs.Syntax.Progress
import Mathlib.Data.List.TakeWhile

namespace ByteLisp

namespace Lexer

/-- What is at the front of a text: the number of characters behind the first one, and the kind of
    the token. -/
inductive Front : Char → List Char → Nat → Option Token.Kind → Prop
  | parenOpen {rest} : Front '(' rest 0 (some .parenOpen)
  | parenClose {rest} : Front ')' rest 0 (some .parenClose)
  | lineComment {c rest n} : lineComment c rest = some n → Front c rest n none
  | blockComment {c rest n} : blockComment c rest = some n → Front c rest n none
  | gap {c rest n} : row isGap c rest = some n → Front c rest n none
  | string {c rest n} : quoted c rest = some n → Front c rest n (some .string)
  | number {c rest n} : row Char.isDigit c rest = some n → Front c rest n (some .number)
  | symbol {c rest n} : row isSymbolChar c rest = some n → c.isDigit = false →
      lineComment c rest = none → blockComment c rest = none → Front c rest n (some .symbol)

theorem front_eq (c : Char) (rest : List Char) : front c rest =
    ((single '(' c rest).map (·, some .parenOpen)).or
      (((single ')' c rest).map (·, some .parenClose)).or
        (((lineComment c rest).map (·, none)).or
          (((blockComment c rest).map (·, none)).or
            (((row isGap c rest).map (·, none)).or
              (((quoted c rest).map (·, some .string)).or
                (((row Char.isDigit c rest).map (·, some .number)).or
                  ((row isSymbolChar c rest).map (·, some .symbol)))))))) := by
  simp only [front, rules, List.findSome?]
  cases single '(' c rest <;> try rfl
  cases single ')' c rest <;> try rfl
  cases lineComment c rest <;> try rfl
  cases blockComment c rest <;> try rfl
  cases row isGap c rest <;> try rfl
  cases quoted c rest <;> try rfl
  cases row Char.isDigit c rest <;> try rfl
  cases row isSymbolChar c rest <;> rfl

theorem single_eq_some {x c : Char} {rest : List Char} {n : Nat} :
    single x c rest = some n ↔ c = x ∧ n = 0 := by
  unfold single
  split <;> simp_all [eq_comm]

theorem row_eq_some {p : Char → Bool} {c : Char} {rest : List Char} {n : Nat} :
    row p c rest = some n ↔ p c = true ∧ n = (rest.takeWhile p).length := by
  unfold row
  split
  · next h => simp [h, eq_comm (a := n)]
  · next h => simp [h]

theorem row_eq_none {p : Char → Bool} {c : Char} {rest : List Char} :
    row p c rest = none ↔ p c = false := by
  unfold row
  split <;> simp_all

theorem front_cases {c : Char} {rest : List Char} {n : Nat} {kind : Option Token.Kind}
    (h : front c rest = some (n, kind)) : Front c rest n kind := by
  simp only [front_eq, Option.or_eq_some_iff, Option.map_eq_some_iff, Option.map_eq_none_iff,
    Prod.mk.injEq] at h
  rcases h with ⟨_, h, rfl, rfl⟩ | ⟨-, ⟨_, h, rfl, rfl⟩ | ⟨-, ⟨_, h, rfl, rfl⟩ | ⟨hl, h⟩⟩⟩
  · obtain ⟨rfl, rfl⟩ := single_eq_some.1 h
    exact .parenOpen
  · obtain ⟨rfl, rfl⟩ := single_eq_some.1 h
    exact .parenClose
  · exact .lineComment h
  rcases h with ⟨_, h, rfl, rfl⟩ | ⟨hb, ⟨_, h, rfl, rfl⟩ | ⟨-, ⟨_, h, rfl, rfl⟩ | ⟨-, h⟩⟩⟩
  · exact .blockComment h
  · exact .gap h
  · exact .string h
  rcases h with ⟨_, h, rfl, rfl⟩ | ⟨hd, _, h, rfl, rfl⟩
  · exact .number h
  · exact .symbol h (row_eq_none.1 hd) hl hb

theorem take_row (p : Char → Bool) (cs : List Char) :
    cs.take (cs.takeWhile p).length = cs.takeWhile p :=
  (List.prefix_iff_eq_take.1 (List.takeWhile_prefix p)).symm

theorem drop_row (p : Char → Bool) (cs : List Char) :
    cs.drop (cs.takeWhile p).length = cs.dropWhile p := by
  have := @List.drop_left _ (cs.takeWhile p) (cs.dropWhile p)
  rwa [List.takeWhile_append_dropWhile] at this

/-- All characters of a row are of its class. -/
theorem forall_mem_row {p : Char → Bool} {c : Char} {rest : List Char} {n : Nat}
    (h : row p c rest = some n) : ∀ x ∈ c :: rest.take n, p x = true := by
  obtain ⟨hc, rfl⟩ := row_eq_some.1 h
  rw [take_row]
  exact List.forall_mem_cons.2 ⟨hc, fun x hx => List.mem_takeWhile_imp hx⟩

theorem quoted_eq_some {c : Char} {rest : List Char} {n : Nat} :
    quoted c rest = some n ↔
      c = '"' ∧ ∃ body tail, '"' ∉ body ∧ rest = body ++ '"' :: tail ∧ n = body.length + 1 := by
  constructor
  · intro h
    unfold quoted at h
    dsimp only at h
    split at h
    · next hc =>
      obtain ⟨hc, hlt⟩ := hc
      have split : rest = rest.takeWhile (· ≠ '"') ++ rest.dropWhile (· ≠ '"') :=
        List.takeWhile_append_dropWhile.symm
      obtain ⟨x, tail, htail⟩ : ∃ x tail, rest.dropWhile (· ≠ '"') = x :: tail := by
        cases hd : rest.dropWhile (· ≠ '"') with
        | nil =>
          rw [hd, List.append_nil] at split
          rw [← split] at hlt
          exact absurd hlt (Nat.lt_irrefl _)
        | cons x tail => exact ⟨x, tail, rfl⟩
      have hx : x = '"' := by
        have := List.head?_dropWhile_not (fun c => decide (c ≠ '"')) rest
        rw [htail] at this
        simpa using this
      subst hx
      refine ⟨hc, _, tail, fun hm => ?_, htail ▸ split, (Option.some.inj h).symm⟩
      simpa using List.mem_takeWhile_imp hm
    · cases h
  · rintro ⟨rfl, body, tail, hb, rfl, rfl⟩
    have htake : (body ++ '"' :: tail).takeWhile (· ≠ '"') = body := by
      rw [List.takeWhile_append_of_pos (by intro c hc; simp; rintro rfl; exact hb hc)]
      simp
    rw [quoted, htake, if_pos ⟨rfl, by simp⟩]

end Lexer

/-- The text of a token fits its kind. -/
theorem Lexer.Front.fits {c : Char} {rest : List Char} {n : Nat} {k : Token.Kind} {sp : Span}
    (h : Lexer.Front c rest n (some k)) : Token.Fits ⟨k, c :: rest.take n, sp⟩ := by
  cases h with
  | parenOpen | parenClose => rfl
  | string h =>
    obtain ⟨rfl, body, tail, hbody, rfl, rfl⟩ := quoted_eq_some.1 h
    exact ⟨body, hbody, by simp [List.take_append, List.take_of_length_le]⟩
  | number h => exact ⟨List.cons_ne_nil _ _, forall_mem_row h⟩
  | symbol h hd hl =>
    refine ⟨_, _, rfl, hd, forall_mem_row h, fun (hp : _ <+: c :: rest.take n) => ?_⟩
    obtain ⟨rfl, hslash⟩ := List.cons_prefix_cons.1 hp
    obtain ⟨tail, rfl⟩ := hslash.trans (List.take_prefix n rest)
    cases hl

/-- The texts of all tokens fit their kinds. -/
theorem fits_of_mem_lexFrom {pos : Nat} {cs : List Char} :
    ∀ t ∈ (lexFrom pos cs).tokens, t.Fits := by
  fun_induction lexFrom pos cs with
  | case1 => nofun
  | case2 => nofun
  | case3 pos c rest n text next tail hf ih => exact ih
  | case4 pos c rest n text next tail k hf ih =>
    intro t ht
    rcases List.mem_cons.1 ht with rfl | ht
    · exact (Lexer.front_cases hf).fits
    · exact ih t ht

end ByteLisp
