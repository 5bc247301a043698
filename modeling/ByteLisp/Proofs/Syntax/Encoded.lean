/-
  ByteLisp: the rules of the lexer on bytes.

  The rules can be applied to the UTF-8 encoding of a text without decoding it: all
  characters that they ask for are one byte, and no byte of another character is
  one of these.

  * `Text.utf8` is the encoding of a text, and `Text.Class` relates a class of bytes
    to the class of characters whose encodings consist of these bytes;
  * `ByteRule.table` are the rules on bytes in order of priority, and
    `ByteRule.first?` is the first match;
  * `first?_utf8`: on the encoding of a text the first match is that of the rules on
    characters, measured in bytes.
-/
import ByteLisp.Proofs.Syntax.Spelling
import Mathlib.Data.List.Forall2
import Mathlib.Data.List.Infix

namespace ByteLisp

/-! ## The encoding of a text -/

namespace Text

/-- The UTF-8 encoding of a text. -/
def utf8 (cs : List Char) : List UInt8 := cs.flatMap String.utf8EncodeChar

@[simp] theorem utf8_nil : utf8 [] = [] := rfl

@[simp] theorem utf8_cons (c : Char) (cs : List Char) :
    utf8 (c :: cs) = String.utf8EncodeChar c ++ utf8 cs := rfl

@[simp] theorem utf8_append (xs ys : List Char) : utf8 (xs ++ ys) = utf8 xs ++ utf8 ys :=
  List.flatMap_append

@[simp] theorem length_utf8 (cs : List Char) : (utf8 cs).length = size cs := by
  induction cs with
  | nil => rfl
  | cons c cs ih => rw [utf8_cons, List.length_append, String.length_utf8EncodeChar, ih, size_cons]

theorem drop_utf8 (xs ys : List Char) : (utf8 (xs ++ ys)).drop (size xs) = utf8 ys := by
  rw [utf8_append, ← length_utf8, List.drop_left]

/-- An ASCII character is one byte, its number; no byte of another character is ASCII. -/
theorem utf8EncodeChar_cases (c : Char) :
    c.toNat < 128 ∧ String.utf8EncodeChar c = [UInt8.ofNat c.toNat] ∨
      128 ≤ c.toNat ∧ ∀ b ∈ String.utf8EncodeChar c, 128 ≤ b.toNat := by
  have hval : c.val.toNat = c.toNat := rfl
  unfold String.utf8EncodeChar
  dsimp only
  rw [hval]
  split
  · exact Or.inl ⟨by omega, rfl⟩
  · refine Or.inr ⟨by omega, ?_⟩
    split
    · simp; omega
    · split
      · simp; omega
      · simp; omega

theorem utf8EncodeChar_ne_nil (c : Char) : String.utf8EncodeChar c ≠ [] := by
  intro h
  have := String.length_utf8EncodeChar c
  rw [h] at this
  exact absurd this.symm (Nat.ne_of_gt c.utf8Size_pos)

/-- The bytes of the characters that satisfy `p` satisfy `q`, and no byte of another character
    does. -/
def Class (p : Char → Bool) (q : UInt8 → Bool) : Prop :=
  ∀ c, ∀ b ∈ String.utf8EncodeChar c, q b = p c

theorem class_of_ascii {p : Char → Bool} {q : UInt8 → Bool}
    (hlow : ∀ c : Char, c.toNat < 128 → q (UInt8.ofNat c.toNat) = p c)
    (hhigh : ∀ (c : Char) (b : UInt8), 128 ≤ c.toNat → 128 ≤ b.toNat → q b = p c) : Class p q := by
  intro c b hb
  obtain ⟨hc, he⟩ | ⟨hc, hall⟩ := utf8EncodeChar_cases c
  · rw [he, List.mem_singleton] at hb
    rw [hb, hlow c hc]
  · exact hhigh c b hc (hall b hb)

/-- A class of ASCII characters is checked on the numbers of the bytes. -/
theorem class_of_table {p : Char → Bool} {q : UInt8 → Bool}
    (htable : ∀ n < 256, q (UInt8.ofNat n) = (decide (n < 128) && p (Char.ofNat n)))
    (hascii : ∀ c, p c = true → c.toNat < 128) : Class p q := by
  refine class_of_ascii (fun c hc => ?_) fun c b hc hb => ?_
  · rw [htable c.toNat (by omega), Char.ofNat_toNat]
    simp [hc]
  · have hq := htable b.toNat b.toNat_lt
    rw [UInt8.ofNat_toNat, decide_eq_false (by omega), Bool.false_and] at hq
    have hp : p c = false := Bool.eq_false_iff.2 fun h => Nat.not_lt.2 hc (hascii c h)
    rw [hq, hp]

theorem Class.not {p : Char → Bool} {q : UInt8 → Bool} (h : Class p q) :
    Class (fun c => !p c) fun b => !q b :=
  fun c b hb => congrArg (!·) (h c b hb)

/-- A longest row of characters of a class is a longest row of bytes of the class. -/
theorem takeWhile_utf8 {p : Char → Bool} {q : UInt8 → Bool} (h : Class p q) (cs : List Char) :
    (utf8 cs).takeWhile q = utf8 (cs.takeWhile p) := by
  induction cs with
  | nil => rfl
  | cons c cs ih =>
    cases hc : p c with
    | true =>
      rw [utf8_cons, List.takeWhile_append_of_pos fun b hb => (h c b hb).trans hc, ih,
        List.takeWhile_cons_of_pos hc, utf8_cons]
    | false =>
      obtain ⟨b, bs, hb⟩ := List.exists_cons_of_ne_nil (utf8EncodeChar_ne_nil c)
      have hq : q b = false := (h c b (by rw [hb]; exact List.mem_cons_self)).trans hc
      rw [utf8_cons, hb, List.cons_append, List.takeWhile_cons_of_neg (by simp [hq]),
        List.takeWhile_cons_of_neg (by simp [hc]), utf8_nil]

/-- The byte of an ASCII character. -/
def ascii (c : Char) : UInt8 := UInt8.ofNat c.toNat

theorem toNat_ascii {c : Char} (h : c.toNat < 128) : (ascii c).toNat = c.toNat := by
  rw [ascii, UInt8.toNat_ofNat']
  omega

theorem ascii_inj {c x : Char} (hc : c.toNat < 128) (hx : x.toNat < 128) :
    ascii c = ascii x ↔ c = x := by
  refine ⟨fun h => Char.toNat_inj.1 ?_, congrArg ascii⟩
  rw [← toNat_ascii hc, h, toNat_ascii hx]

theorem class_ascii {x : Char} (hx : x.toNat < 128) :
    Class (fun c => decide (c = x)) fun b => decide (b = ascii x) := by
  refine class_of_ascii (fun c hc => decide_eq_decide.2 (ascii_inj hc hx)) fun c b hc hb => ?_
  have hne : c ≠ x := by rintro rfl; omega
  have hne' : b ≠ ascii x := by
    rintro rfl
    rw [toNat_ascii hx] at hb
    omega
  simp [hne, hne']

theorem utf8EncodeChar_ascii {x : Char} (hx : x.toNat < 128) :
    String.utf8EncodeChar x = [ascii x] := by
  obtain ⟨-, h⟩ | ⟨h, -⟩ := utf8EncodeChar_cases x
  · exact h
  · omega

theorem utf8_cons_ascii {x : Char} (hx : x.toNat < 128) (cs : List Char) :
    utf8 (x :: cs) = ascii x :: utf8 cs := by
  rw [utf8_cons, utf8EncodeChar_ascii hx, List.singleton_append]

/-- An encoding starts with an ASCII byte exactly if the text starts with this character. -/
theorem cons_prefix_utf8 {x c : Char} {bs : List UInt8} {cs : List Char} (hx : x.toNat < 128) :
    ascii x :: bs <+: utf8 (c :: cs) ↔ c = x ∧ bs <+: utf8 cs := by
  constructor
  · intro h
    have hc : c = x := by
      obtain ⟨b, bs', hb⟩ := List.exists_cons_of_ne_nil (utf8EncodeChar_ne_nil c)
      rw [utf8_cons, hb, List.cons_append, List.cons_prefix_cons] at h
      simpa [← h.1] using class_ascii hx c b (by rw [hb]; exact List.mem_cons_self)
    subst hc
    rw [utf8_cons_ascii hx] at h
    exact ⟨rfl, (List.cons_prefix_cons.1 h).2⟩
  · rintro ⟨rfl, h⟩
    rw [utf8_cons_ascii hx]
    exact List.cons_prefix_cons.2 ⟨rfl, h⟩

end Text

/-! ## The rules on bytes -/

/-- A matcher on bytes is given a text and tells how many bytes belong to the lexeme at its front,
    if there is one. -/
abbrev ByteMatcher := List UInt8 → Option Nat

/-- A matcher on bytes and the kind of token it gives; none if the lexeme is skipped. -/
structure ByteRule where
  matcher : ByteMatcher
  kind : Option Token.Kind

namespace ByteRule

open Text

/-- A single given character. -/
def single (x : Char) : ByteMatcher := fun bs => if bs.head? = some (ascii x) then some 1 else none

/-- Two slashes and the bytes before the next line feed, or all that follow. -/
def lineComment : ByteMatcher := fun bs =>
  if [ascii '/', ascii '/'] <+: bs then some (bs.findIdx (· = ascii '\n')) else none

/-- The place of the first `*/`. -/
def closing (bs : List UInt8) : Option Nat :=
  bs.tails.findIdx? [ascii '*', ascii '/'].isPrefixOf

/-- A slash and a star, and the bytes through the next star and slash behind them. -/
def blockComment : ByteMatcher := fun bs =>
  if [ascii '/', ascii '*'] <+: bs then (closing (bs.drop 2)).map (2 + · + 2) else none

/-- A longest row of bytes of one class. -/
def row (q : UInt8 → Bool) : ByteMatcher := fun bs =>
  let n := (bs.takeWhile q).length
  if 0 < n then some n else none

/-- A quote and the bytes through the next one. -/
def quoted : ByteMatcher := fun bs =>
  if bs.head? = some (ascii '"') then ((bs.drop 1).findIdx? (· = ascii '"')).map (1 + · + 1)
  else none

/-- The byte is ASCII white space. -/
def isSpace (b : UInt8) : Bool :=
  b = ascii ' ' || b = ascii '\t' || b = ascii '\n' || b = ascii '\x0c' || b = ascii '\r'

/-- The byte is an ASCII digit. -/
def isDigit (b : UInt8) : Bool := ascii '0' ≤ b && b ≤ ascii '9'

/-- The byte is an ASCII letter. -/
def isLetter (b : UInt8) : Bool :=
  ascii 'A' ≤ b && b ≤ ascii 'Z' || ascii 'a' ≤ b && b ≤ ascii 'z'

/-- The byte can be part of a symbol. -/
def isSymbol (b : UInt8) : Bool :=
  isLetter b || isDigit b || b = ascii '_' || b = ascii '-' || b = ascii '+' || b = ascii '*' ||
    b = ascii '=' || b = ascii '!' || b = ascii '<' || b = ascii '>' || b = ascii '/'

/-- The rules in order of priority. -/
def table : List ByteRule :=
  [⟨single '(', some .parenOpen⟩,
    ⟨single ')', some .parenClose⟩,
    ⟨lineComment, none⟩,
    ⟨blockComment, none⟩,
    ⟨row isSpace, none⟩,
    ⟨quoted, some .string⟩,
    ⟨row isDigit, some .number⟩,
    ⟨row isSymbol, some .symbol⟩]

/-- What the first matching rule finds at the front of a text. -/
def first? (bs : List UInt8) : Option (Nat × Option Token.Kind) :=
  table.findSome? fun r => (r.matcher bs).map (·, r.kind)

/-! ## Bytes and characters -/

theorem class_isSpace : Class Lexer.isGap isSpace := by
  refine class_of_table (by decide +kernel) fun c hc => ?_
  simp only [Lexer.isGap, Bool.or_eq_true, decide_eq_true_eq] at hc
  rcases hc with (((rfl | rfl) | rfl) | rfl) | rfl <;> decide

theorem class_isDigit : Class Char.isDigit isDigit := by
  refine class_of_table (by decide +kernel) fun c hc => ?_
  simp only [Char.isDigit, Bool.and_eq_true, decide_eq_true_eq] at hc
  exact Nat.lt_of_le_of_lt (UInt32.le_iff_toNat_le.1 hc.2) (by decide)

theorem class_isSymbol : Class Lexer.isSymbolChar isSymbol := by
  refine class_of_table (by decide +kernel) fun c hc => ?_
  simp only [Lexer.isSymbolChar, Char.isAlphanum, Char.isDigit, Bool.or_eq_true, Bool.and_eq_true,
    decide_eq_true_eq] at hc
  rcases hc with (((((((((h | h) | rfl) | rfl) | rfl) | rfl) | rfl) | rfl) | rfl) | rfl) | rfl
  · rcases Bool.or_eq_true_iff.1 h with h | h
    · have hle : c.val ≤ 'Z'.val := (of_decide_eq_true h).2
      exact Nat.lt_of_le_of_lt (UInt32.le_iff_toNat_le.1 hle) (by decide)
    · have hle : c.val ≤ 'z'.val := of_decide_eq_true (Bool.and_eq_true_iff.1 h).2
      exact Nat.lt_of_le_of_lt (UInt32.le_iff_toNat_le.1 hle) (by decide)
  · exact Nat.lt_of_le_of_lt (UInt32.le_iff_toNat_le.1 h.2) (by decide)
  all_goals decide

/-- A matcher on bytes finds what a matcher on characters finds, measured in bytes. -/
def Agrees (m : Lexer.Matcher) (b : ByteMatcher) : Prop :=
  ∀ c rest, b (utf8 (c :: rest)) = (m c rest).map fun n => size (c :: rest.take n)

variable {m : Lexer.Matcher} {p : Char → Bool} {q : UInt8 → Bool} {x c : Char} {rest : List Char}

theorem head?_utf8 (hx : x.toNat < 128) :
    (utf8 (c :: rest)).head? = some (ascii x) ↔ c = x := by
  have h : [ascii x] <+: utf8 (c :: rest) ↔ c = x ∧ [] <+: utf8 rest := cons_prefix_utf8 hx
  rw [List.head?_eq_some_iff]
  simpa [List.IsPrefix, eq_comm] using h

theorem agrees_single (hx : x.toNat < 128) : Agrees (Lexer.single x) (single x) := by
  intro c rest
  rw [single, Lexer.single]
  by_cases hc : c = x
  · rw [if_pos ((head?_utf8 hx).2 hc), if_pos hc, hc]
    simp [← String.length_utf8EncodeChar, utf8EncodeChar_ascii hx]
  · rw [if_neg fun h => hc ((head?_utf8 hx).1 h), if_neg hc]
    rfl

theorem agrees_row (h : Class p q) : Agrees (Lexer.row p) (row q) := by
  intro c rest
  rw [row, Lexer.row, takeWhile_utf8 h, length_utf8]
  cases hc : p c with
  | true =>
    rw [List.takeWhile_cons_of_pos hc, size_cons, if_pos (by have := c.utf8Size_pos; omega),
      if_pos rfl, Option.map_some, size_cons, Lexer.take_row]
  | false =>
    rw [List.takeWhile_cons_of_neg (by simp [hc]), if_neg Bool.false_ne_true]
    rfl

/-- Before the first byte of a class there is the longest row of other characters. -/
theorem findIdx_utf8 (h : Class p q) (cs : List Char) :
    (utf8 cs).findIdx q = size (cs.takeWhile fun c => !p c) := by
  have hrow := takeWhile_utf8 h.not cs
  rw [List.takeWhile_eq_take_findIdx_not] at hrow
  simp only [Bool.not_not] at hrow
  rw [← length_utf8, ← hrow, List.length_take, Nat.min_eq_left List.findIdx_le_length]

theorem two_prefix_utf8 {x y : Char} (hx : x.toNat < 128) (hy : y.toNat < 128) :
    [ascii x, ascii y] <+: utf8 (c :: rest) ↔ c = x ∧ ∃ tail, rest = y :: tail := by
  rw [cons_prefix_utf8 hx]
  refine and_congr_right fun _ => ?_
  cases rest with
  | nil => simp
  | cons d rest =>
    rw [cons_prefix_utf8 hy]
    simp

theorem agrees_lineComment : Agrees Lexer.lineComment lineComment := by
  intro c rest
  have hnewline : Class (fun c => decide (c = '\n')) fun b => decide (b = ascii '\n') :=
    class_ascii (by decide)
  rw [lineComment]
  by_cases h : [ascii '/', ascii '/'] <+: utf8 (c :: rest)
  · obtain ⟨rfl, rest, rfl⟩ := (two_prefix_utf8 (by decide) (by decide)).1 h
    have hfirst : (utf8 ('/' :: '/' :: rest)).findIdx (fun b => decide (b = ascii '\n')) =
        size ('/' :: '/' :: rest.takeWhile fun c => !decide (c = '\n')) := findIdx_utf8 hnewline _
    simp only [← decide_not] at hfirst
    rw [if_pos h, hfirst, Lexer.lineComment, Option.map_some, Nat.add_comm 1, List.take_succ_cons,
      Lexer.take_row]
  · rw [if_neg h, Lexer.lineComment_eq_none]
    · rfl
    · rintro ⟨tail, htail⟩
      cases htail
      exact h ((two_prefix_utf8 (by decide) (by decide)).2 ⟨rfl, _, rfl⟩)

/-- A quote is among the bytes exactly if it is among the characters. -/
theorem findIdx?_utf8 (h : Class p q) (cs : List Char) :
    (utf8 cs).findIdx? q =
      let n := (cs.takeWhile fun c => !p c).length
      if n < cs.length then some (size (cs.take n)) else none := by
  have hiff : size (cs.takeWhile fun c => !p c) < size cs ↔
      (cs.takeWhile fun c => !p c).length < cs.length := by
    have hsplit : (cs.takeWhile fun c => !p c) ++ (cs.dropWhile fun c => !p c) = cs :=
      List.takeWhile_append_dropWhile
    rw [← congrArg size hsplit, ← congrArg List.length hsplit, size_append, List.length_append]
    cases cs.dropWhile fun c => !p c with
    | nil => simp
    | cons d ds => have := d.utf8Size_pos; simp; omega
  rw [List.findIdx?_eq_guard_findIdx_lt, findIdx_utf8 h, length_utf8]
  simp only [Option.guard, decide_eq_true_eq, hiff, Lexer.take_row]

theorem agrees_quoted : Agrees Lexer.quoted quoted := by
  intro c rest
  have hquote : Class (fun c => decide (c = '"')) fun b => decide (b = ascii '"') :=
    class_ascii (by decide)
  rw [quoted, Lexer.quoted]
  by_cases hc : c = '"'
  · subst hc
    have hdrop : (utf8 ('"' :: rest)).drop 1 = utf8 rest := by
      rw [utf8_cons_ascii (by decide), List.drop_one, List.tail_cons]
    rw [if_pos ((head?_utf8 (by decide)).2 rfl), hdrop, findIdx?_utf8 hquote]
    simp only [← decide_not, true_and]
    split
    · next hlt =>
      have hq : Lexer.quoted '"' rest =
          some ((rest.takeWhile fun c => decide (c ≠ '"')).length + 1) := by
        rw [Lexer.quoted, if_pos ⟨rfl, hlt⟩]
      obtain ⟨-, body, tail, -, rfl, hn⟩ := Lexer.quoted_eq_some.1 hq
      have htake : (body ++ '"' :: tail).take (body.length + 1) = body ++ ['"'] := by
        rw [List.take_append, List.take_of_length_le (Nat.le_succ _), Nat.add_sub_cancel_left]
        rfl
      rw [Nat.succ.inj hn, List.take_left, Option.map_some, Option.map_some, htake, size_cons,
        size_append, ← Nat.add_assoc]
      rfl
    · rfl
  · rw [if_neg fun h => hc ((head?_utf8 (by decide)).1 h), if_neg fun h => hc h.1]
    rfl

theorem closing_cons (b : UInt8) (bs : List UInt8) : closing (b :: bs) =
    if [ascii '*', ascii '/'] <+: b :: bs then some 0 else (closing bs).map (· + 1) := by
  rw [closing, List.tails_cons, List.findIdx?_cons, closing]
  simp only [List.isPrefixOf_iff_prefix]

/-- No `*/` starts within a character other than a star. -/
theorem closing_append {bs cs : List UInt8} (h : ∀ b ∈ bs, b ≠ ascii '*') :
    closing (bs ++ cs) = (closing cs).map (· + bs.length) := by
  induction bs with
  | nil => cases hc : closing cs <;> simp [hc]
  | cons b bs ih =>
    obtain ⟨hb, hbs⟩ := List.forall_mem_cons.1 h
    have hno : ¬ [ascii '*', ascii '/'] <+: b :: (bs ++ cs) := fun hp =>
      hb (List.cons_prefix_cons.1 hp).1.symm
    rw [List.cons_append, closing_cons, if_neg hno, ih hbs, Option.map_map]
    rfl

theorem closing_utf8 (cs : List Char) :
    (closing (utf8 cs)).map (· + 2) = (Lexer.throughClose cs).map fun n => size (cs.take n) := by
  fun_induction Lexer.throughClose cs with
  | case1 rest =>
    have h : [ascii '*', ascii '/'] <+: utf8 ('*' :: '/' :: rest) :=
      (two_prefix_utf8 (by decide) (by decide)).2 ⟨rfl, _, rfl⟩
    rw [utf8_cons_ascii (by decide)] at h ⊢
    rw [closing_cons, if_pos h]
    rfl
  | case2 c rest hne ih =>
    have hstep : closing (utf8 (c :: rest)) = (closing (utf8 rest)).map (· + c.utf8Size) := by
      by_cases hc : c = '*'
      · subst hc
        have h : ¬ [ascii '*', ascii '/'] <+: utf8 ('*' :: rest) := fun h => by
          obtain ⟨-, tail, rfl⟩ := (two_prefix_utf8 (by decide) (by decide)).1 h
          exact hne tail rfl rfl
        rw [utf8_cons_ascii (by decide)] at h ⊢
        rw [closing_cons, if_neg h]
        rfl
      · have hstar : Class (fun c => decide (c = '*')) fun b => decide (b = ascii '*') :=
          class_ascii (by decide)
        rw [utf8_cons, closing_append, String.length_utf8EncodeChar]
        exact fun b hb => by simpa [hc] using hstar c b hb
    have hcomm : (closing (utf8 (c :: rest))).map (· + 2) =
        ((closing (utf8 rest)).map (· + 2)).map (c.utf8Size + ·) := by
      rw [hstep, Option.map_map, Option.map_map]
      refine congrArg (Option.map · _) (funext fun n => ?_)
      simp only [Function.comp_apply]
      omega
    rw [hcomm, ih, Option.map_map, Option.map_map]
    rfl
  | case3 => rfl

theorem agrees_blockComment : Agrees Lexer.blockComment blockComment := by
  intro c rest
  rw [blockComment]
  by_cases h : [ascii '/', ascii '*'] <+: utf8 (c :: rest)
  · obtain ⟨rfl, rest, rfl⟩ := (two_prefix_utf8 (by decide) (by decide)).1 h
    have hdrop : (utf8 ('/' :: '*' :: rest)).drop 2 = utf8 rest := by
      rw [utf8_cons_ascii (by decide), utf8_cons_ascii (by decide)]
      rfl
    have hclose : (closing (utf8 rest)).map (2 + · + 2) =
        ((closing (utf8 rest)).map (· + 2)).map (2 + ·) := by
      rw [Option.map_map]
      rfl
    rw [if_pos h, hdrop, Lexer.blockComment, hclose, closing_utf8, Option.map_map, Option.map_map]
    refine congrArg (Option.map · _) (funext fun n => ?_)
    simp only [Function.comp_apply, List.take_succ_cons, size_cons, ← Nat.add_assoc]
    rfl
  · rw [if_neg h, Lexer.blockComment_eq_none]
    · rfl
    · rintro ⟨tail, htail⟩
      cases htail
      exact absurd ((two_prefix_utf8 (by decide) (by decide)).2 ⟨rfl, _, rfl⟩) h

end ByteRule

open ByteRule

/-- Rules that agree find the same. -/
theorem findSome?_agrees {rs : List Lexer.Rule} {bs : List ByteRule}
    (h : List.Forall₂ (fun r b => Agrees r.matcher b.matcher ∧ r.kind = b.kind) rs bs) (c : Char)
    (rest : List Char) :
    bs.findSome? (fun b => (b.matcher (Text.utf8 (c :: rest))).map (·, b.kind)) =
      (rs.findSome? fun r => (r.matcher c rest).map (·, r.kind)).map fun x =>
        (Text.size (c :: rest.take x.1), x.2) := by
  induction h with
  | nil => rfl
  | @cons r b rs bs hrb _ ih =>
    rw [List.findSome?_cons, List.findSome?_cons, hrb.1 c rest, ← hrb.2]
    cases r.matcher c rest with
    | none => exact ih
    | some n => rfl

/-- On the encoding of a text the first match is that of the rules on characters. -/
theorem first?_utf8 (c : Char) (rest : List Char) :
    first? (Text.utf8 (c :: rest)) =
      (Lexer.front c rest).map fun x => (Text.size (c :: rest.take x.1), x.2) := by
  refine findSome?_agrees ?_ c rest
  exact .cons ⟨agrees_single (by decide), rfl⟩ <| .cons ⟨agrees_single (by decide), rfl⟩ <|
    .cons ⟨agrees_lineComment, rfl⟩ <| .cons ⟨agrees_blockComment, rfl⟩ <|
    .cons ⟨agrees_row class_isSpace, rfl⟩ <| .cons ⟨agrees_quoted, rfl⟩ <|
    .cons ⟨agrees_row class_isDigit, rfl⟩ <| .cons ⟨agrees_row class_isSymbol, rfl⟩ .nil

end ByteLisp
