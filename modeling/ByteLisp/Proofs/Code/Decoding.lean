/-
  ByteLisp: decoding and encoding are inverse.

  A raw instruction is an operation with the bytes behind it, whether or not these
  are as many as the operation takes.

  * `Raw` is a raw instruction, `Raw.Complete` one with all its operands, and
    `Raw.placed` gives each of some raw instructions the sum of the lengths before
    it as its place;
  * `Code.raws` is what decoding finds in a code object, in this form;
  * `Code.Stuck` says why no instruction starts with some bytes at a place;
  * `decoding_inverts_encoding`: decoding gives some instructions exactly if the
    bytes are those of complete instructions at these places, and it fails exactly
    if the bytes are those of complete instructions and then stuck.
-/
import ByteLisp.Proofs.Machine.Boundaries
import Mathlib.Algebra.GroupWithZero.Nat

namespace ByteLisp

/-! ## Raw instructions -/

/-- An operation with the bytes behind it. -/
structure Raw where
  op : Op
  operands : List UInt8
deriving Repr, DecidableEq

namespace Raw

/-- All operands are there, and no byte more. -/
def Complete (r : Raw) : Prop := r.operands.length = r.op.width

/-- The byte of the operation and the operands. -/
def encode (r : Raw) : List UInt8 := r.op.code :: r.operands

/-- The number of bytes. -/
def size (r : Raw) : Nat := r.encode.length

/-- Raw instructions with their places: each one lies behind the bytes of those before it. -/
def placed (pos : Nat) : List Raw → List (Nat × Raw)
  | [] => []
  | r :: rs => (pos, r) :: placed (pos + r.size) rs

/-- A place is the sum of the lengths before it. -/
theorem getElem?_placed (pos k : Nat) (rs : List Raw) :
    (placed pos rs)[k]? = rs[k]?.map fun r => (pos + ((rs.take k).map size).sum, r) := by
  induction rs generalizing pos k with
  | nil => rfl
  | cons r rs ih =>
    cases k with
    | zero => rfl
    | succ k => simp [placed, ih, Nat.add_assoc]

theorem map_snd_placed (pos : Nat) (rs : List Raw) : (placed pos rs).map Prod.snd = rs := by
  induction rs generalizing pos with
  | nil => rfl
  | cons r rs ih => rw [placed, List.map_cons, ih]

end Raw

namespace Instr

/-- The operation and the operands of an instruction. -/
def raw (i : Instr) : Raw := ⟨i.op, i.operands⟩

theorem raw_complete (i : Instr) : i.raw.Complete := i.op_width

@[simp] theorem encode_raw (i : Instr) : i.raw.encode = i.encode := rfl

@[simp] theorem size_raw (i : Instr) : i.raw.size = i.size := i.length_encode

theorem placed_map_raw (pos : Nat) (is : List Instr) :
    Raw.placed pos (is.map raw) = (placed pos is).map fun p => (p.1, p.2.raw) := by
  induction is generalizing pos with
  | nil => rfl
  | cons i is ih => simp [Raw.placed, placed, ih]

theorem flatMap_encode_map_raw (is : List Instr) :
    (is.map raw).flatMap Raw.encode = is.flatMap encode := by
  rw [List.flatMap_map]
  rfl

theorem sum_size_map_raw (is : List Instr) : ((is.map raw).map Raw.size).sum = total is := by
  induction is with
  | nil => rfl
  | cons i is ih => rw [List.map_cons, List.map_cons, List.sum_cons, ih, size_raw, total_cons]

end Instr

theorem bytesOf_wordOf (hi lo : UInt8) : bytesOf (wordOf hi lo) = [hi, lo] := by
  have high : (wordOf hi lo >>> 8).toUInt8 = hi := by
    apply UInt8.eq_of_toBitVec_eq
    ext k hk
    have : k + 8 < 16 := by omega
    have : k < 16 := by omega
    simp [wordOf, *, Nat.add_comm 8 k]
  have low : (wordOf hi lo).toUInt8 = lo := by
    apply UInt8.eq_of_toBitVec_eq
    ext k hk
    simp [wordOf]
  rw [bytesOf, high, low]

namespace Op

variable {op : Op}

theorem raw_plain {i : Instr} (h : op.template = .plain i) : i.raw = ⟨op, []⟩ := by
  cases op <;> cases h <;> rfl

theorem raw_byte {make : UInt8 → Instr} (h : op.template = .byte make) (x : UInt8) :
    (make x).raw = ⟨op, [x]⟩ := by
  cases op <;> cases h <;> rfl

theorem raw_word {make : UInt16 → Instr} (h : op.template = .word make) (w : UInt16) :
    (make w).raw = ⟨op, bytesOf w⟩ := by
  cases op <;> cases h <;> rfl

end Op

/-- Complete raw instructions are those of instructions. -/
theorem Raw.Complete.exists_instr {r : Raw} (h : r.Complete) : ∃ i : Instr, i.raw = r := by
  obtain ⟨op, operands⟩ := r
  simp only [Raw.Complete, Op.width] at h
  cases ht : op.template with
  | plain i =>
    rw [ht] at h
    obtain rfl := List.length_eq_zero_iff.1 h
    exact ⟨i, Op.raw_plain ht⟩
  | byte make =>
    rw [ht] at h
    obtain ⟨x, rfl⟩ := List.length_eq_one_iff.1 h
    exact ⟨make x, Op.raw_byte ht x⟩
  | word make =>
    rw [ht] at h
    obtain ⟨hi, lo, rfl⟩ := List.length_eq_two.1 h
    exact ⟨make (wordOf hi lo), by rw [Op.raw_word ht, bytesOf_wordOf]⟩

theorem Raw.exists_instrs {rs : List Raw} (h : ∀ r ∈ rs, r.Complete) :
    ∃ is : List Instr, is.map Instr.raw = rs := by
  induction rs with
  | nil => exact ⟨[], rfl⟩
  | cons r rs ih =>
    obtain ⟨i, rfl⟩ := (h r List.mem_cons_self).exists_instr
    obtain ⟨is, rfl⟩ := ih fun r hr => h r (List.mem_cons_of_mem _ hr)
    exact ⟨i :: is, rfl⟩

/-! ## What bytes start with -/

theorem Op.code_of_ofCode? {b : UInt8} {op : Op} (h : ofCode? b = some op) : op.code = b := by
  have table : ∀ n < all.length, ∀ op, all[n]? = some op → op.code.toNat = n := by decide
  rw [ofCode?] at h
  exact UInt8.toNat_inj.1 (table _ (List.getElem?_eq_some_iff.1 h).1 _ h)

namespace Code

variable {pos : Nat} {rest : List UInt8} {e : DecodeError}

/-- No instruction starts with the bytes that follow at a place. -/
inductive Stuck (pos : Nat) : List UInt8 → DecodeError → Prop where
  /-- The first byte is no operation. -/
  | unknown {b : UInt8} {rest : List UInt8} (h : Op.ofCode? b = none) :
    Stuck pos (b :: rest) (.unknownOpcode b pos)
  /-- The bytes end within the operands, which start behind the first byte. -/
  | truncated {op : Op} {rest : List UInt8} (h : rest.length < op.width) :
    Stuck pos (op.code :: rest) (.truncated (pos + 1))

/-- Bytes start with an instruction, or they are stuck. -/
theorem starts_or_stuck (pos : Nat) (b : UInt8) (rest : List UInt8) :
    (∃ (i : Instr) (tail : List UInt8), b :: rest = i.encode ++ tail) ∨
      ∃ e, Stuck pos (b :: rest) e := by
  cases ho : Op.ofCode? b with
  | none => exact Or.inr ⟨_, .unknown ho⟩
  | some op =>
    obtain rfl := Op.code_of_ofCode? ho
    by_cases hw : rest.length < op.width
    · exact Or.inr ⟨_, .truncated hw⟩
    · have hc : (Raw.mk op (rest.take op.width)).Complete :=
        List.length_take_of_le (Nat.le_of_not_lt hw)
      obtain ⟨i, hi⟩ := hc.exists_instr
      have he : i.encode = op.code :: rest.take op.width := by rw [← i.encode_raw, hi]; rfl
      exact Or.inl ⟨i, rest.drop op.width, by
        rw [he, List.cons_append, List.take_append_drop]⟩

/-- Bytes are those of some instructions, and then they end or are stuck. -/
theorem exists_split (pos : Nat) (bs : List UInt8) :
    ∃ (is : List Instr) (rest : List UInt8), bs = is.flatMap Instr.encode ++ rest ∧
      (rest = [] ∨ ∃ e, Stuck (pos + Instr.total is) rest e) := by
  induction hn : bs.length using Nat.strongRecOn generalizing pos bs with
  | ind n ih =>
    cases bs with
    | nil => exact ⟨[], [], rfl, Or.inl rfl⟩
    | cons b bs =>
      obtain ⟨i, tail, h⟩ | h := starts_or_stuck pos b bs
      · have hlt : tail.length < n := by
          rw [← hn, h, List.length_append, i.length_encode]
          exact Nat.lt_add_of_pos_left i.size_pos
        obtain ⟨is, rest, rfl, hrest⟩ := ih _ hlt (pos + i.size) tail rfl
        refine ⟨i :: is, rest, by rw [h, List.flatMap_cons, List.append_assoc], ?_⟩
        rwa [Instr.total_cons, ← Nat.add_assoc]
      · exact ⟨[], b :: bs, rfl, Or.inr h⟩

/-! ## What decoding finds -/

variable {bytes : Array UInt8}

theorem getElem?_of_drop (h : bytes.toList.drop pos = rest) (k : Nat) :
    bytes[pos + k]? = rest[k]? := by
  rw [← h, List.getElem?_drop, Array.getElem?_toList]

theorem fetchOp_of_drop {b : UInt8} (h : bytes.toList.drop pos = b :: rest) :
    Instr.fetchOp bytes pos = match Op.ofCode? b with
      | none => .error (.unknown b)
      | some op => .ok op := by
  have hb : bytes[pos]? = some b := getElem?_of_drop h 0
  cases ho : Op.ofCode? b <;> simp only [Instr.fetchOp, hb, ho]

theorem fetch_of_drop {i : Instr} (h : bytes.toList.drop pos = i.encode ++ rest) :
    Instr.fetch bytes pos = .ok i := by
  refine Instr.fetch_of_getElem? fun {k} hk => ?_
  rw [getElem?_of_drop h, List.getElem?_append_left (by rwa [Instr.length_encode])]

/-- The end of the code within the operands is found. -/
theorem fetch_truncated {op : Op} (h : bytes.toList.drop pos = op.code :: rest)
    (hw : rest.length < op.width) : Instr.fetch bytes pos = .error .truncated := by
  have hop : Instr.fetchOp bytes pos = .ok op := by rw [fetchOp_of_drop h, Op.ofCode?_code]
  have next (k : Nat) : bytes[pos + (k + 1)]? = rest[k]? := getElem?_of_drop h (k + 1)
  cases ht : op.template with
  | plain i =>
    rw [Op.width, ht] at hw
    exact absurd hw (Nat.not_lt_zero _)
  | byte make =>
    have hw : rest.length < 1 := by rwa [Op.width, ht] at hw
    rw [Instr.fetch_byte ht hop, next 0, List.getElem?_eq_none (by omega)]
  | word make =>
    have hw : rest.length < 2 := by rwa [Op.width, ht] at hw
    rw [Instr.fetch_word ht hop, next 0, next 1, List.getElem?_eq_none (by omega : rest.length ≤ 1)]
    cases rest[0]? <;> rfl

theorem lt_size_of_drop {b : UInt8} (h : bytes.toList.drop pos = b :: rest) :
    pos < bytes.size := by
  have hlen := congrArg List.length h
  rw [List.length_drop, Array.length_toList, List.length_cons] at hlen
  omega

/-- Decoding stops at bytes that are stuck. -/
theorem instrsFrom_stuck (h : Stuck pos (bytes.toList.drop pos) e) :
    instrsFrom bytes pos = .error e := by
  generalize hd : bytes.toList.drop pos = bs at h
  cases h with
  | unknown ho =>
    have hf := Instr.fetch_of_error ((fetchOp_of_drop hd).trans (by rw [ho]))
    rw [instrsFrom, if_pos (lt_size_of_drop hd), hf]
  | truncated hw => rw [instrsFrom, if_pos (lt_size_of_drop hd), fetch_truncated hd hw]

/-- Decoding finds the instructions that the bytes start with, and goes on behind them. -/
theorem instrsFrom_append {is : List Instr}
    (h : bytes.toList.drop pos = is.flatMap Instr.encode ++ rest) :
    instrsFrom bytes pos =
      (instrsFrom bytes (pos + Instr.total is)).map (Instr.placed pos is ++ ·) := by
  induction is generalizing pos with
  | nil => cases hx : instrsFrom bytes pos <;> simp [Instr.placed, Except.map, hx]
  | cons i is ih =>
    rw [List.flatMap_cons, List.append_assoc] at h
    have hlt : pos < bytes.size := lt_size_of_drop (by rw [h, Instr.encode, List.cons_append])
    have hnext : bytes.toList.drop (pos + i.size) = is.flatMap Instr.encode ++ rest := by
      rw [← List.drop_drop, h, ← i.length_encode, List.drop_left]
    rw [instrsFrom, if_pos hlt, fetch_of_drop h]
    dsimp only
    rw [ih hnext, Instr.total_cons, ← Nat.add_assoc]
    cases instrsFrom bytes (pos + i.size + Instr.total is) <;> rfl

theorem drop_total {is : List Instr} (h : bytes.toList = is.flatMap Instr.encode ++ rest) :
    bytes.toList.drop (Instr.total is) = rest := by
  rw [h, ← Instr.length_flatMap_encode, List.drop_left]

/-- Decoding fails where the bytes are those of some instructions and then stuck. -/
theorem instrs_eq_error {c : Code} {is : List Instr}
    (h : c.bytes.toList = is.flatMap Instr.encode ++ rest) (hs : Stuck (Instr.total is) rest e) :
    c.instrs = .error e := by
  have hstart : c.bytes.toList.drop 0 = is.flatMap Instr.encode ++ rest := h
  have hall : instrsFrom c.bytes (0 + Instr.total is) = .error e := by
    rw [Nat.zero_add]
    exact instrsFrom_stuck ((drop_total h).symm ▸ hs)
  rw [instrs, instrsFrom_append hstart, hall]
  rfl

/-- Decoding gives instructions only if the bytes are theirs. -/
theorem instrs_eq_ok_iff {c : Code} {xs : List (Nat × Instr)} :
    c.instrs = .ok xs ↔
      ∃ is : List Instr, c.bytes.toList = is.flatMap Instr.encode ∧ xs = Instr.placed 0 is := by
  constructor
  · intro h
    obtain ⟨is, rest, hb, rfl | ⟨e, hs⟩⟩ := exists_split 0 c.bytes.toList
    · rw [List.append_nil] at hb
      have hbytes : c.bytes = Instr.bytes is := by rw [Instr.bytes, ← hb]
      refine ⟨is, hb, ?_⟩
      rw [instrs_eq_placed hbytes] at h
      exact (Except.ok.inj h).symm
    · rw [Nat.zero_add] at hs
      rw [instrs_eq_error hb hs] at h
      cases h
  · rintro ⟨is, hb, rfl⟩
    exact instrs_eq_placed (by rw [Instr.bytes, ← hb])

/-- Decoding fails only if the bytes are those of some instructions and then stuck. -/
theorem instrs_eq_error_iff {c : Code} :
    c.instrs = .error e ↔ ∃ (is : List Instr) (rest : List UInt8),
      c.bytes.toList = is.flatMap Instr.encode ++ rest ∧ Stuck (Instr.total is) rest e := by
  constructor
  · intro h
    obtain ⟨is, rest, hb, rfl | ⟨e', hs⟩⟩ := exists_split 0 c.bytes.toList
    · rw [List.append_nil] at hb
      rw [instrs_eq_ok_iff.2 ⟨is, hb, rfl⟩] at h
      cases h
    · rw [Nat.zero_add] at hs
      obtain rfl : e' = e := Except.error.inj ((instrs_eq_error hb hs).symm.trans h)
      exact ⟨is, rest, hb, hs⟩
  · rintro ⟨is, rest, hb, hs⟩
    exact instrs_eq_error hb hs

/-! ## Raw instructions that are decoded -/

/-- The raw instructions of a code object, each with its place. -/
def raws (c : Code) : Except DecodeError (List (Nat × Raw)) :=
  c.instrs.map (List.map fun p => (p.1, p.2.raw))

variable {c : Code} {xs : List (Nat × Raw)} {rs : List Raw}

theorem raws_eq_placed_iff :
    c.raws = .ok xs ↔ ∃ rs : List Raw, (∀ r ∈ rs, r.Complete) ∧
      c.bytes.toList = rs.flatMap Raw.encode ∧ xs = Raw.placed 0 rs := by
  constructor
  · intro h
    cases hi : c.instrs with
    | error e => rw [raws, hi] at h; cases h
    | ok ps =>
      obtain ⟨is, hb, rfl⟩ := instrs_eq_ok_iff.1 hi
      rw [raws, hi] at h
      refine ⟨is.map Instr.raw, ?_, ?_, ?_⟩
      · intro r hr
        obtain ⟨i, -, rfl⟩ := List.mem_map.1 hr
        exact i.raw_complete
      · rw [hb, Instr.flatMap_encode_map_raw]
      · rw [Instr.placed_map_raw]
        exact (Except.ok.inj h).symm
  · rintro ⟨rs, hc, hb, rfl⟩
    obtain ⟨is, rfl⟩ := Raw.exists_instrs hc
    rw [Instr.flatMap_encode_map_raw] at hb
    rw [raws, instrs_eq_ok_iff.2 ⟨is, hb, rfl⟩, Instr.placed_map_raw]
    rfl

/-- Raw instructions are decoded exactly if the bytes are theirs, all operands are there, and each
    place is the sum of the lengths before it. -/
theorem raws_eq_ok_iff :
    c.raws = .ok xs ↔ c.bytes.toList = xs.flatMap (fun p => p.2.encode) ∧
      (∀ p ∈ xs, p.2.Complete) ∧
      ∀ k p, xs[k]? = some p → p.1 = ((xs.take k).map fun q => q.2.size).sum := by
  rw [raws_eq_placed_iff]
  constructor
  · rintro ⟨rs, hc, hb, rfl⟩
    have hsnd : (Raw.placed 0 rs).map Prod.snd = rs := Raw.map_snd_placed 0 rs
    refine ⟨?_, fun p hp => ?_, fun k p hp => ?_⟩
    · rw [hb, ← List.flatMap_map Prod.snd Raw.encode, hsnd]
    · exact hc p.2 (hsnd ▸ List.mem_map_of_mem hp)
    · have hsum : ((Raw.placed 0 rs).take k).map (fun q => q.2.size) = (rs.take k).map Raw.size := by
        conv_rhs => rw [← hsnd, ← List.map_take, List.map_map]
        rfl
      rw [Raw.getElem?_placed, Nat.zero_add] at hp
      obtain ⟨r, -, rfl⟩ := Option.map_eq_some_iff.1 hp
      rw [hsum]
  · rintro ⟨hb, hc, hsum⟩
    refine ⟨xs.map Prod.snd, ?_, ?_, ?_⟩
    · intro r hr
      obtain ⟨p, hp, rfl⟩ := List.mem_map.1 hr
      exact hc p hp
    · rw [hb, List.flatMap_map]
    · refine List.ext_getElem? fun k => ?_
      rw [Raw.getElem?_placed, List.getElem?_map, Nat.zero_add, ← List.map_take, List.map_map]
      cases hx : xs[k]? with
      | none => rfl
      | some p => exact congrArg some (Prod.ext (hsum k p hx) rfl)

/-- The raw instructions that are decoded, without their places. -/
theorem map_raws_eq_ok_iff :
    c.raws.map (List.map Prod.snd) = .ok rs ↔
      c.bytes.toList = rs.flatMap Raw.encode ∧ ∀ r ∈ rs, r.Complete := by
  constructor
  · intro h
    cases hx : c.raws with
    | error e => rw [hx] at h; cases h
    | ok xs =>
      obtain ⟨rs', hc, hb, rfl⟩ := raws_eq_placed_iff.1 hx
      rw [hx] at h
      obtain rfl : rs' = rs := (Raw.map_snd_placed 0 rs').symm.trans (Except.ok.inj h)
      exact ⟨hb, hc⟩
  · rintro ⟨hb, hc⟩
    rw [raws_eq_placed_iff.2 ⟨rs, hc, hb, rfl⟩]
    exact congrArg Except.ok (Raw.map_snd_placed 0 rs)

/-- Decoding raw instructions fails exactly if the bytes are those of complete ones and then
    stuck. -/
theorem raws_eq_error_iff :
    c.raws = .error e ↔ ∃ (rs : List Raw) (rest : List UInt8), (∀ r ∈ rs, r.Complete) ∧
      c.bytes.toList = rs.flatMap Raw.encode ++ rest ∧ Stuck (rs.map Raw.size).sum rest e := by
  have herror : c.raws = .error e ↔ c.instrs = .error e := by
    rw [raws]
    cases c.instrs <;> simp [Except.map]
  rw [herror, instrs_eq_error_iff]
  constructor
  · rintro ⟨is, rest, hb, hs⟩
    refine ⟨is.map Instr.raw, rest, fun r hr => ?_, ?_, ?_⟩
    · obtain ⟨i, -, rfl⟩ := List.mem_map.1 hr
      exact i.raw_complete
    · rw [hb, Instr.flatMap_encode_map_raw]
    · rwa [Instr.sum_size_map_raw]
  · rintro ⟨rs, rest, hc, hb, hs⟩
    obtain ⟨is, rfl⟩ := Raw.exists_instrs hc
    rw [Instr.flatMap_encode_map_raw] at hb
    rw [Instr.sum_size_map_raw] at hs
    exact ⟨is, rest, hb, hs⟩

end Code

/-- Decoding inverts encoding: it gives raw instructions with their places exactly if the bytes are
    theirs one after the other, with as many operands as each takes and the sums of the lengths as
    places; it gives back all complete raw instructions whose bytes are put together; and it fails
    exactly if complete raw instructions are followed by a byte that is no operation, which is then
    named, or by an operation whose operands run past the end, which are then said to start behind
    it. -/
theorem decoding_inverts_encoding (c : Code) :
    (∀ xs : List (Nat × Raw), c.raws = .ok xs ↔
      c.bytes.toList = xs.flatMap (fun p => p.2.encode) ∧ (∀ p ∈ xs, p.2.Complete) ∧
        ∀ k p, xs[k]? = some p → p.1 = ((xs.take k).map fun q => q.2.size).sum) ∧
    (∀ rs : List Raw, c.raws.map (List.map Prod.snd) = .ok rs ↔
      c.bytes.toList = rs.flatMap Raw.encode ∧ ∀ r ∈ rs, r.Complete) ∧
    ∀ e : Code.DecodeError, c.raws = .error e ↔
      ∃ (rs : List Raw) (rest : List UInt8), (∀ r ∈ rs, r.Complete) ∧
        c.bytes.toList = rs.flatMap Raw.encode ++ rest ∧
        Code.Stuck (rs.map Raw.size).sum rest e :=
  ⟨fun _ => Code.raws_eq_ok_iff, fun _ => Code.map_raws_eq_ok_iff, fun _ => Code.raws_eq_error_iff⟩

end ByteLisp
