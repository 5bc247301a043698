/-
  ByteLisp: the tokens of a text and the gaps between them make up the text.

  The tokenizer gives one item after the other when it is asked for the next one:
  the tokens, then the end of the text or an error, and nothing from then on. It
  looks at the bytes of the text.

  * `Tokenizer` is its state, `Tokenizer.next` asks for the next item;
  * `Skipped` and `Gap` say what can be between two tokens;
  * `Lexed.Partitions`: tokens and gaps follow one another from a place on;
  * `lex_partitions`: the items of the tokenizer are the tokens of the text, they
    partition it with the gaps, and it stops early exactly where no rule matches.
-/
import ByteLisp.Proofs.Syntax.Encoded

namespace ByteLisp

/-! ## Places between characters -/

namespace Text

/-- An offset at which a text can be cut: between two characters, or at an end. -/
def Boundary (src : List Char) (pos : Nat) : Prop := ∃ pre post, src = pre ++ post ∧ size pre = pos

variable {pre post : List Char}

/-- A text has one part that is before an offset. -/
theorem append_inj_of_size {pre' post' : List Char} (h : pre ++ post = pre' ++ post')
    (hs : size pre = size pre') : pre = pre' ∧ post = post' := by
  have hpre : pre = pre' := by
    rw [← takeBytes_append pre post, h, hs, takeBytes_append]
  subst hpre
  exact ⟨rfl, List.append_cancel_left h⟩

theorem slice_append (pre text post : List Char) :
    (Span.mk (size pre) (size pre + size text)).slice (pre ++ (text ++ post)) = text := by
  rw [Span.slice, dropBytes_append, Nat.add_sub_cancel_left, takeBytes_append]

theorem size_pos {c : Char} {cs : List Char} : 0 < size (c :: cs) :=
  Nat.lt_of_lt_of_le c.utf8Size_pos (Nat.le_add_right _ _)

theorem size_lt_append {pre cs : List Char} (h : cs ≠ []) : size pre < size (pre ++ cs) := by
  obtain ⟨c, cs, rfl⟩ := List.exists_cons_of_ne_nil h
  rw [size_append]
  exact Nat.lt_add_of_pos_right size_pos

end Text

/-! ## Cutting a text -/

namespace Lexer

/-- A text is the lexeme at its front and the rest. -/
def Lexeme (text rest : List Char) (kind : Option Token.Kind) : Prop :=
  ∃ c tail n, text = c :: tail.take n ∧ rest = tail.drop n ∧ front c tail = some (n, kind)

variable {text rest : List Char} {kind : Option Token.Kind}

theorem Lexeme.ne_nil (h : Lexeme text rest kind) : text ≠ [] := by
  obtain ⟨c, tail, n, rfl, -, -⟩ := h
  exact List.cons_ne_nil _ _

/-- On the bytes of a text the first match is the lexeme at its front. -/
theorem Lexeme.first? (h : Lexeme text rest kind) (pre : List Char) :
    ByteRule.first? ((Text.utf8 (pre ++ (text ++ rest))).drop (Text.size pre)) =
      some (Text.size text, kind) := by
  obtain ⟨c, tail, n, rfl, rfl, hf⟩ := h
  rw [Text.drop_utf8, List.cons_append, List.take_append_drop, first?_utf8, hf]
  rfl

end Lexer

/-- Behind a part of a text the rest is cut into lexemes until it ends or none is found. -/
inductive Cut : List Char → List Char → Lexed → Prop
  | done {pre} : Cut pre [] ⟨[], .done (Text.size pre)⟩
  | stuck {pre c rest} : Lexer.front c rest = none →
      Cut pre (c :: rest) ⟨[], .failed ⟨Text.size pre, c⟩⟩
  | skip {pre text rest l} : Lexer.Lexeme text rest none → Cut (pre ++ text) rest l →
      Cut pre (text ++ rest) l
  | token {pre text rest l k} : Lexer.Lexeme text rest (some k) → Cut (pre ++ text) rest l →
      Cut pre (text ++ rest)
        ⟨⟨k, text, ⟨Text.size pre, Text.size pre + Text.size text⟩⟩ :: l.tokens, l.stop⟩

theorem cut_lexFrom (pre cs : List Char) : Cut pre cs (lexFrom (Text.size pre) cs) := by
  cases cs with
  | nil =>
    rw [lexFrom]
    exact .done
  | cons c tail =>
    rw [lexFrom]
    cases hf : Lexer.front c tail with
    | none => exact .stuck hf
    | some x =>
      obtain ⟨n, kind⟩ := x
      have hlen : (tail.drop n).length < (c :: tail).length := by
        rw [List.length_drop, List.length_cons]
        omega
      have hrest := cut_lexFrom (pre ++ c :: tail.take n) (tail.drop n)
      have hsplit : c :: tail = (c :: tail.take n) ++ tail.drop n := by
        rw [List.cons_append, List.take_append_drop]
      have hx : Lexer.Lexeme (c :: tail.take n) (tail.drop n) kind := ⟨c, tail, n, rfl, rfl, hf⟩
      rw [hsplit]
      rw [Text.size_append] at hrest
      cases kind with
      | none => exact .skip hx hrest
      | some k => exact .token hx hrest
termination_by cs.length

/-! ## The tokenizer -/

namespace ByteRule

variable {bs : List UInt8} {n : Nat} {kind : Option Token.Kind}

theorem single_pos {x : Char} (h : single x bs = some n) : 0 < n := by
  rw [single] at h
  split at h
  · cases h; exact Nat.one_pos
  · cases h

theorem lineComment_pos (h : lineComment bs = some n) : 0 < n := by
  rw [lineComment] at h
  split at h
  · next hp =>
    obtain ⟨tail, rfl⟩ := hp
    have hslash : ¬ decide (Text.ascii '/' = Text.ascii '\n') = true := by decide
    rw [List.cons_append, List.findIdx_cons, cond_eq_ite, if_neg hslash] at h
    cases h
    exact Nat.succ_pos _
  · cases h

theorem row_pos {q : UInt8 → Bool} (h : row q bs = some n) : 0 < n := by
  rw [row] at h
  split at h
  · next hpos => cases h; exact hpos
  · cases h

theorem blockComment_pos (h : blockComment bs = some n) : 0 < n := by
  rw [blockComment] at h
  split at h
  · obtain ⟨m, -, rfl⟩ := Option.map_eq_some_iff.1 h
    omega
  · cases h

theorem quoted_pos (h : quoted bs = some n) : 0 < n := by
  rw [quoted] at h
  split at h
  · obtain ⟨m, -, rfl⟩ := Option.map_eq_some_iff.1 h
    omega
  · cases h

/-- No lexeme is empty. -/
theorem matcher_pos : ∀ r ∈ table, r.matcher bs = some n → 0 < n := by
  intro r hr h
  simp only [table, List.mem_cons, List.not_mem_nil, or_false] at hr
  rcases hr with rfl | rfl | rfl | rfl | rfl | rfl | rfl | rfl
  · exact single_pos h
  · exact single_pos h
  · exact lineComment_pos h
  · exact blockComment_pos h
  · exact row_pos h
  · exact quoted_pos h
  · exact row_pos h
  · exact row_pos h

theorem first?_pos (h : first? bs = some (n, kind)) : 0 < n := by
  obtain ⟨r, hr, hm⟩ := List.exists_of_findSome?_eq_some h
  obtain ⟨m, hmatch, heq⟩ := Option.map_eq_some_iff.1 hm
  cases heq
  exact matcher_pos r hr hmatch

end ByteRule

/-- What the tokenizer gives. -/
inductive Tokenizer.Item where
  | token (t : Token)
  /-- The text ends. -/
  | eof (pos : Nat)
  | failed (e : LexError)
deriving Repr, DecidableEq

/-- More can follow an item. -/
def Tokenizer.Item.goesOn : Tokenizer.Item → Bool
  | token _ => true
  | _ => false

/-- The state of the tokenizer: the text, the offset of what has not been read yet, and whether it
    has given its last item. -/
structure Tokenizer where
  src : List Char
  pos : Nat
  done : Bool

namespace Tokenizer

/-- The tokenizer at the start of a text. -/
def start (src : List Char) : Tokenizer := ⟨src, 0, false⟩

/-- The next item from an offset on, with the offset behind it; lexemes without a kind are
    skipped. -/
def scan (src : List Char) (pos : Nat) : Item × Nat :=
  if pos < Text.size src then
    match _ : ByteRule.first? ((Text.utf8 src).drop pos) with
    | none => (.failed ⟨pos, (Text.dropBytes pos src).head?.getD '\x00'⟩, pos)
    | some (n, none) => scan src (pos + n)
    | some (n, some kind) =>
      let sp : Span := ⟨pos, pos + n⟩
      (.token ⟨kind, sp.slice src, sp⟩, pos + n)
  else (.eof (Text.size src), pos)
termination_by Text.size src - pos
decreasing_by have := ByteRule.first?_pos ‹_›; omega

/-- The next item, if there is one. -/
def next (t : Tokenizer) : Option Item × Tokenizer :=
  if t.done then (none, t)
  else
    let (item, pos) := scan t.src t.pos
    (some item, { t with pos, done := !item.goesOn })

/-- What the tokenizer gives after `k` items. -/
def nth : Nat → Tokenizer → Option Item
  | 0, t => t.next.1
  | k + 1, t => nth k t.next.2

variable {src pre cs : List Char} {pos pos' : Nat}

theorem scan_eof (h : Text.size src ≤ pos) : scan src pos = (.eof (Text.size src), pos) := by
  rw [scan, if_neg (Nat.not_lt.2 h)]

variable {n : Nat}

theorem scan_failed (h : pos < Text.size src)
    (hf : ByteRule.first? ((Text.utf8 src).drop pos) = none) :
    scan src pos = (.failed ⟨pos, (Text.dropBytes pos src).head?.getD '\x00'⟩, pos) := by
  rw [scan, if_pos h]
  split <;> simp_all

theorem scan_skip (h : pos < Text.size src)
    (hf : ByteRule.first? ((Text.utf8 src).drop pos) = some (n, none)) :
    scan src pos = scan src (pos + n) := by
  rw [scan, if_pos h]
  split <;> simp_all

theorem scan_token {kind : Token.Kind} (h : pos < Text.size src)
    (hf : ByteRule.first? ((Text.utf8 src).drop pos) = some (n, some kind)) :
    scan src pos =
      (.token ⟨kind, (Span.mk pos (pos + n)).slice src, ⟨pos, pos + n⟩⟩, pos + n) := by
  rw [scan, if_pos h]
  split <;> simp_all

theorem next_of_scan {item : Item} (h : scan src pos = (item, pos')) :
    next ⟨src, pos, false⟩ = (some item, ⟨src, pos', !item.goesOn⟩) := by
  rw [next, if_neg Bool.false_ne_true, h]

theorem nth_done (k : Nat) : nth k ⟨src, pos, true⟩ = none := by
  induction k with
  | zero => rfl
  | succ k ih => exact ih

/-- The tokenizer goes on as from another place if the next item is the same. -/
theorem nth_congr (h : scan src pos = scan src pos') (k : Nat) :
    nth k ⟨src, pos, false⟩ = nth k ⟨src, pos', false⟩ := by
  have hnext : next ⟨src, pos, false⟩ = next ⟨src, pos', false⟩ :=
    (next_of_scan h).trans (next_of_scan rfl).symm
  cases k with
  | zero => rw [nth, nth, hnext]
  | succ k => rw [nth, nth, hnext]

end Tokenizer

/-! ## The items are the tokens -/

/-- The last item for a text that ends so. -/
def Lexed.Stop.item : Lexed.Stop → Tokenizer.Item
  | done pos => .eof pos
  | failed e => .failed e

/-- The place where a text ends or cannot be read on. -/
def Lexed.Stop.pos : Lexed.Stop → Nat
  | done pos => pos
  | failed e => e.pos

/-- The tokens and the last item. -/
def Lexed.items (l : Lexed) : List Tokenizer.Item := l.tokens.map .token ++ [l.stop.item]

namespace Tokenizer

variable {pre cs : List Char}

theorem goesOn_stop (stop : Lexed.Stop) : stop.item.goesOn = false := by
  cases stop <;> rfl

/-- The last item, after which there is none. -/
theorem nth_stop {src : List Char} {pos : Nat} {stop : Lexed.Stop}
    (h : scan src pos = (stop.item, pos)) (k : Nat) :
    nth k ⟨src, pos, false⟩ = [stop.item][k]? := by
  have hnext := next_of_scan h
  cases k with
  | zero => rw [nth, hnext]; rfl
  | succ k =>
    rw [nth, hnext, goesOn_stop]
    exact nth_done k

/-- What the tokenizer gives behind a part of the text. -/
theorem nth_cut {l : Lexed} (h : Cut pre cs l) (k : Nat) :
    nth k ⟨pre ++ cs, Text.size pre, false⟩ = l.items[k]? := by
  induction h generalizing k with
  | @done pre =>
    refine nth_stop ((scan_eof ?_).trans ?_) k
    · rw [List.append_nil]
    · rw [List.append_nil]
      rfl
  | @stuck pre c rest hf =>
    have hlt : Text.size pre < Text.size (pre ++ c :: rest) := Text.size_lt_append (List.cons_ne_nil _ _)
    have hfirst : ByteRule.first? ((Text.utf8 (pre ++ c :: rest)).drop (Text.size pre)) = none := by
      rw [Text.drop_utf8, first?_utf8, hf]
      rfl
    refine nth_stop ((scan_failed hlt hfirst).trans ?_) k
    rw [Text.dropBytes_append]
    rfl
  | @skip pre text rest l hx _ ih =>
    have hlt : Text.size pre < Text.size (pre ++ (text ++ rest)) := Text.size_lt_append (by simp [hx.ne_nil])
    rw [List.append_assoc, Text.size_append] at ih
    rw [nth_congr (scan_skip hlt (hx.first? pre)), ih]
  | @token pre text rest l kind hx _ ih =>
    have hlt : Text.size pre < Text.size (pre ++ (text ++ rest)) := Text.size_lt_append (by simp [hx.ne_nil])
    have hnext := next_of_scan (scan_token hlt (hx.first? pre))
    rw [Text.slice_append] at hnext
    rw [List.append_assoc, Text.size_append] at ih
    cases k with
    | zero => rw [nth, hnext]; rfl
    | succ k => rw [nth, hnext]; exact ih k

theorem nth_start (src : List Char) (k : Nat) : nth k (start src) = (lex src).items[k]? :=
  nth_cut (cut_lexFrom [] src) k

end Tokenizer

/-! ## What is skipped -/

/-- A part of a text that is skipped when the rest of the text follows it: a row of blanks that no
    blank follows, a comment to the end of its line, or a comment to the first `*/`. -/
inductive Skipped : List Char → List Char → Prop
  | blanks {cs post} : cs ≠ [] → (∀ c ∈ cs, Lexer.isGap c = true) →
      (∀ c ∈ post.head?, Lexer.isGap c = false) → Skipped cs post
  | lineComment {body post} : '\n' ∉ body → (∀ c ∈ post.head?, c = '\n') →
      Skipped ('/' :: '/' :: body) post
  | blockComment {body post} : ¬ Closes (body ++ ['*']) →
      Skipped ('/' :: '*' :: body ++ ['*', '/']) post

/-- Parts that are skipped one after the other when the rest of the text follows them. -/
inductive Gap : List Char → List Char → Prop
  | nil {post} : Gap [] post
  | cons {part cs post} : Skipped part (cs ++ post) → Gap cs post → Gap (part ++ cs) post

namespace Lexer

variable {c : Char} {rest : List Char} {n : Nat}

theorem throughClose_eq_some {cs : List Char} (h : throughClose cs = some n) :
    ∃ body tail, cs = body ++ '*' :: '/' :: tail ∧ n = body.length + 2 ∧ ¬ Closes (body ++ ['*']) := by
  fun_induction throughClose cs generalizing n with
  | case1 rest =>
    cases h
    exact ⟨[], rest, rfl, rfl, by simp [closes_cons, not_closes_nil]⟩
  | case2 c rest hne ih =>
    obtain ⟨m, hm, rfl⟩ := Option.map_eq_some_iff.1 h
    obtain ⟨body, tail, rfl, rfl, hb⟩ := ih hm
    refine ⟨c :: body, tail, rfl, rfl, ?_⟩
    rw [List.cons_append, closes_cons]
    rintro (⟨rfl, hslash⟩ | hc)
    · cases body with
      | nil => cases hslash
      | cons d body => cases hslash; exact hne _ rfl rfl
    · exact hb hc
  | case3 => cases h

theorem lineComment_eq_some (h : lineComment c rest = some n) :
    ∃ line, c = '/' ∧ rest = '/' :: line ∧ n = (line.takeWhile (· ≠ '\n')).length + 1 := by
  unfold lineComment at h
  split at h
  · next line =>
    cases h
    exact ⟨line, rfl, rfl, Nat.add_comm _ _⟩
  · cases h

theorem blockComment_eq_some (h : blockComment c rest = some n) :
    ∃ body tail, c = '/' ∧ rest = '*' :: (body ++ '*' :: '/' :: tail) ∧ n = body.length + 2 + 1 ∧
      ¬ Closes (body ++ ['*']) := by
  unfold blockComment at h
  split at h
  · obtain ⟨m, hm, rfl⟩ := Option.map_eq_some_iff.1 h
    obtain ⟨body, tail, rfl, rfl, hb⟩ := throughClose_eq_some hm
    exact ⟨body, tail, rfl, rfl, rfl, hb⟩
  · cases h

theorem head?_dropWhile {p : Char → Bool} {cs : List Char} :
    ∀ c ∈ (cs.dropWhile p).head?, p c = false := by
  intro c hc
  have h := List.head?_dropWhile_not p cs
  rw [hc] at h
  exact h

theorem Front.skipped (h : Front c rest n none) : Skipped (c :: rest.take n) (rest.drop n) := by
  cases h with
  | lineComment h =>
    obtain ⟨line, rfl, rfl, rfl⟩ := lineComment_eq_some h
    rw [List.take_succ_cons, List.drop_succ_cons, take_row, drop_row]
    refine .lineComment (fun hn => ?_) fun c hc => ?_
    · simpa using List.mem_takeWhile_imp hn
    · simpa using head?_dropWhile c hc
  | blockComment h =>
    obtain ⟨body, tail, rfl, rfl, rfl, hb⟩ := blockComment_eq_some h
    have hlen : (body ++ ['*', '/']).length = body.length + 2 := by simp
    have hsplit : body ++ '*' :: '/' :: tail = (body ++ ['*', '/']) ++ tail := by simp
    rw [List.take_succ_cons, List.drop_succ_cons, hsplit, ← hlen, List.take_left, List.drop_left]
    exact .blockComment hb
  | gap h =>
    have hall := forall_mem_row h
    obtain ⟨-, rfl⟩ := row_eq_some.1 h
    refine .blanks (List.cons_ne_nil _ _) hall ?_
    rw [drop_row]
    exact head?_dropWhile

/-- A lexeme without a kind is skipped. -/
theorem Lexeme.skipped {text : List Char} (h : Lexeme text rest none) : Skipped text rest := by
  obtain ⟨c, tail, n, rfl, rfl, hf⟩ := h
  exact (front_cases hf).skipped

end Lexer

/-! ## The partition -/

/-- At a place the rules before the one that gives this kind do not match, and this one matches a
    lexeme of `n` bytes. -/
def Matches (src : List Char) (pos n : Nat) (kind : Option Token.Kind) : Prop :=
  ∃ before r after, ByteRule.table = before ++ r :: after ∧ r.kind = kind ∧
    (∀ q ∈ before, q.matcher ((Text.utf8 src).drop pos) = none) ∧
    r.matcher ((Text.utf8 src).drop pos) = some n

/-- Between two places there is nothing but what is skipped. -/
def GapBetween (src : List Char) (lo hi : Nat) : Prop :=
  ∃ pre cs post, src = pre ++ (cs ++ post) ∧ Text.size pre = lo ∧ lo + Text.size cs = hi ∧ Gap cs post

namespace Lexed

/-- Where tokens start, and where the text ends or cannot be read on. -/
def starts (l : Lexed) : List Nat := l.tokens.map (·.span.lo) ++ [l.stop.pos]

/-- Where gaps start: at the beginning and behind tokens. -/
def ends (l : Lexed) (pos : Nat) : List Nat := pos :: l.tokens.map (·.span.hi)

/-- From a place on, the text consists of the tokens and of gaps before, between and behind them. -/
structure Partitions (src : List Char) (pos : Nat) (l : Lexed) : Prop where
  /-- The tokens stand one behind the other. -/
  ordered : l.tokens.Pairwise fun t u => t.span.hi ≤ u.span.lo
  /-- Tokens are not empty. -/
  nonempty : ∀ t ∈ l.tokens, t.span.lo < t.span.hi
  /-- Tokens start and end between characters. -/
  boundaries : ∀ t ∈ l.tokens, Text.Boundary src t.span.lo ∧ Text.Boundary src t.span.hi
  texts : ∀ t ∈ l.tokens, t.text = t.span.slice src
  /-- Each token is what the first matching rule gives at its start. -/
  lexemes : ∀ t ∈ l.tokens, Matches src t.span.lo t.span.length (some t.kind)
  /-- Between the end of a token and the start of the next one there is a gap. -/
  gaps : ∀ g ∈ (l.ends pos).zip l.starts, GapBetween src g.1 g.2
  done : ∀ p, l.stop = .done p → p = Text.size src
  /-- The text cannot be read on where a token would start and no rule matches. -/
  failed : ∀ e, l.stop = .failed e ↔ e.pos ∈ l.starts ∧
    (∀ r ∈ ByteRule.table, r.matcher ((Text.utf8 src).drop e.pos) = none) ∧
    (Text.dropBytes e.pos src).head? = some e.char

variable {src pre text rest : List Char} {pos : Nat} {l : Lexed}

theorem ordered_of_cut {cs : List Char} (h : Cut pre cs l) :
    (∀ t ∈ l.tokens, Text.size pre ≤ t.span.lo) ∧
      l.tokens.Pairwise fun t u => t.span.hi ≤ u.span.lo := by
  induction h with
  | done | stuck => exact ⟨nofun, .nil⟩
  | skip _ _ ih =>
    rw [Text.size_append] at ih
    exact ⟨fun t ht => Nat.le_trans (Nat.le_add_right _ _) (ih.1 t ht), ih.2⟩
  | token _ _ ih =>
    rw [Text.size_append] at ih
    refine ⟨fun t ht => ?_, List.pairwise_cons.2 ⟨ih.1, ih.2⟩⟩
    rcases List.mem_cons.1 ht with rfl | ht
    · exact Nat.le_refl _
    · exact Nat.le_trans (Nat.le_add_right _ _) (ih.1 t ht)

/-- A gap goes on in front. -/
theorem GapBetween.cons {hi : Nat} (hx : Skipped text rest)
    (h : GapBetween (pre ++ (text ++ rest)) (Text.size (pre ++ text)) hi) :
    GapBetween (pre ++ (text ++ rest)) (Text.size pre) hi := by
  obtain ⟨pre', cs, post, hsrc, hlo, hhi, hg⟩ := h
  rw [← List.append_assoc] at hsrc
  obtain ⟨rfl, rfl⟩ := Text.append_inj_of_size hsrc hlo.symm
  refine ⟨pre, text ++ cs, post, by rw [List.append_assoc], rfl, ?_, .cons hx hg⟩
  rw [Text.size_append] at hhi ⊢
  omega

theorem GapBetween.nil (pre cs : List Char) :
    GapBetween (pre ++ cs) (Text.size pre) (Text.size pre) :=
  ⟨pre, [], cs, rfl, rfl, rfl, .nil⟩

/-- The first of the gaps that start at some places and end at others. -/
theorem gaps_cons {ls hs : List Nat} {lo hi : Nat}
    (h : ∀ g ∈ (lo :: ls).zip (hi :: hs), GapBetween src g.1 g.2) :
    GapBetween src lo hi ∧ ∀ g ∈ ls.zip hs, GapBetween src g.1 g.2 := by
  rw [List.zip_cons_cons, List.forall_mem_cons] at h
  exact h

theorem starts_ne_nil (l : Lexed) : ∃ hi hs, l.starts = hi :: hs := by
  cases h : l.starts with
  | nil => simp [starts] at h
  | cons hi hs => exact ⟨hi, hs, rfl⟩

theorem matches_of_first? {n : Nat} {kind : Option Token.Kind}
    (h : ByteRule.first? ((Text.utf8 src).drop pos) = some (n, kind)) : Matches src pos n kind := by
  obtain ⟨before, r, after, htable, hr, hbefore⟩ := List.findSome?_eq_some_iff.1 h
  obtain ⟨m, hm, heq⟩ := Option.map_eq_some_iff.1 hr
  cases heq
  exact ⟨before, r, after, htable, rfl, fun q hq => Option.map_eq_none_iff.1 (hbefore q hq), hm⟩

theorem Partitions.skip (hx : Lexer.Lexeme text rest none)
    (h : l.Partitions (pre ++ (text ++ rest)) (Text.size (pre ++ text))) :
    l.Partitions (pre ++ (text ++ rest)) (Text.size pre) := by
  refine { h with gaps := ?_ }
  obtain ⟨hi, hs, hstarts⟩ := starts_ne_nil l
  have hgaps := h.gaps
  rw [hstarts] at hgaps ⊢
  obtain ⟨hfirst, hothers⟩ := gaps_cons hgaps
  exact List.forall_mem_cons.2 ⟨GapBetween.cons hx.skipped hfirst, hothers⟩

theorem partitions_done (pre : List Char) :
    Partitions (pre ++ []) (Text.size pre) ⟨[], .done (Text.size pre)⟩ where
  ordered := .nil
  nonempty := nofun
  boundaries := nofun
  texts := nofun
  lexemes := nofun
  gaps g hg := by
    obtain rfl := List.mem_singleton.1 hg
    exact GapBetween.nil pre []
  done p hp := by
    cases hp
    rw [List.append_nil]
  failed e := by
    refine ⟨nofun, fun ⟨he, _, hchar⟩ => ?_⟩
    have he : e.pos = Text.size pre := List.mem_singleton.1 he
    rw [he, Text.dropBytes_append] at hchar
    cases hchar

theorem partitions_stuck {c : Char} (hf : Lexer.front c rest = none) :
    Partitions (pre ++ c :: rest) (Text.size pre) ⟨[], .failed ⟨Text.size pre, c⟩⟩ where
  ordered := .nil
  nonempty := nofun
  boundaries := nofun
  texts := nofun
  lexemes := nofun
  gaps g hg := by
    obtain rfl := List.mem_singleton.1 hg
    exact GapBetween.nil pre _
  done p hp := by cases hp
  failed e := by
    have hdrop : Text.dropBytes (Text.size pre) (pre ++ c :: rest) = c :: rest :=
      Text.dropBytes_append pre _
    constructor
    · rintro ⟨⟩
      have hnone : ByteRule.first? ((Text.utf8 (pre ++ c :: rest)).drop (Text.size pre)) = none := by
        rw [Text.drop_utf8, first?_utf8, hf]
        rfl
      refine ⟨List.mem_singleton_self _, fun r hr => ?_, by rw [hdrop]; rfl⟩
      exact Option.map_eq_none_iff.1 (List.findSome?_eq_none_iff.1 hnone r hr)
    · obtain ⟨p, d⟩ := e
      rintro ⟨hp, -, hchar⟩
      obtain rfl : p = Text.size pre := List.mem_singleton.1 hp
      rw [hdrop] at hchar
      cases hchar
      rfl

theorem Matches.not_stuck {n : Nat} {kind : Option Token.Kind} (h : Matches src pos n kind) :
    ¬ ∀ r ∈ ByteRule.table, r.matcher ((Text.utf8 src).drop pos) = none := by
  obtain ⟨before, r, after, htable, -, -, hm⟩ := h
  intro hall
  rw [hall r (htable ▸ List.mem_append_right before List.mem_cons_self)] at hm
  cases hm

theorem Partitions.token {kind : Token.Kind} (hx : Lexer.Lexeme text rest (some kind))
    (hl : Cut (pre ++ text) rest l)
    (h : l.Partitions (pre ++ (text ++ rest)) (Text.size (pre ++ text))) :
    Partitions (pre ++ (text ++ rest)) (Text.size pre)
      ⟨⟨kind, text, ⟨Text.size pre, Text.size pre + Text.size text⟩⟩ :: l.tokens, l.stop⟩ := by
  have hm : Matches (pre ++ (text ++ rest)) (Text.size pre) (Text.size text) (some kind) :=
    matches_of_first? (hx.first? pre)
  have hsize : Text.size (pre ++ text) = Text.size pre + Text.size text := Text.size_append _ _
  have hlt : Text.size pre < Text.size pre + Text.size text := by
    rw [← hsize]
    exact Text.size_lt_append hx.ne_nil
  constructor
  · rw [← hsize]
    exact List.pairwise_cons.2 (ordered_of_cut hl)
  · exact List.forall_mem_cons.2 ⟨hlt, h.nonempty⟩
  · refine List.forall_mem_cons.2 ⟨⟨⟨pre, text ++ rest, rfl, rfl⟩, ?_⟩, h.boundaries⟩
    exact ⟨pre ++ text, rest, (List.append_assoc _ _ _).symm, hsize⟩
  · exact List.forall_mem_cons.2 ⟨(Text.slice_append _ _ _).symm, h.texts⟩
  · refine List.forall_mem_cons.2 ⟨?_, h.lexemes⟩
    rwa [Span.length, Nat.add_sub_cancel_left]
  · refine List.forall_mem_cons.2 ⟨GapBetween.nil pre _, ?_⟩
    have := h.gaps
    rwa [hsize] at this
  · exact h.done
  · intro e
    rw [h.failed e]
    refine and_congr_left fun ⟨hstuck, _⟩ => ⟨List.mem_cons_of_mem _, fun he => ?_⟩
    rcases List.mem_cons.1 he with he | he
    · rw [he] at hstuck
      exact absurd hstuck (Matches.not_stuck hm)
    · exact he

/-- Cutting a text into lexemes partitions it. -/
theorem partitions_cut {cs : List Char} (h : Cut pre cs l) :
    l.Partitions (pre ++ cs) (Text.size pre) := by
  induction h with
  | done => exact partitions_done _
  | stuck hf => exact partitions_stuck hf
  | skip hx _ ih =>
    rw [List.append_assoc] at ih
    exact ih.skip hx
  | token hx hl ih =>
    rw [List.append_assoc] at ih
    exact ih.token hx hl

end Lexed

/-- The tokenizer gives the tokens of a text one after the other, then once the end of the text or
    an error, and nothing from then on; the tokens and the gaps partition the text, which is lexed
    to its end unless a token would start where no rule matches. -/
theorem lex_partitions (src : List Char) :
    (∀ k, (Tokenizer.start src).nth k = (lex src).items[k]?) ∧ (lex src).Partitions src 0 :=
  ⟨Tokenizer.nth_start src, Lexed.partitions_cut (cut_lexFrom [] src)⟩

end ByteLisp
