/-
  ByteLisp: where the instructions of a code object lie.

  * `Instr.total` is the number of bytes of some instructions, `Instr.bytes` are
    these bytes;
  * `fetch_bytes`: reading at the place of an instruction gives this instruction;
  * `Instr.placed` lists instructions with their places, and `instrs_eq_placed`
    says that decoding the bytes gives this list;
  * `Code.Lies`: some instructions lie at a place of a code object.
-/
import ByteLisp.Code

namespace ByteLisp

namespace Instr

/-! ## Bytes -/

/-- The number of bytes of some instructions. -/
def total : List Instr → Nat
  | [] => 0
  | i :: is => i.size + total is

@[simp] theorem total_nil : total [] = 0 := rfl

@[simp] theorem total_cons (i : Instr) (is : List Instr) : total (i :: is) = i.size + total is := rfl

@[simp] theorem total_append (is js : List Instr) : total (is ++ js) = total is + total js := by
  induction is with
  | nil => simp
  | cons i is ih => simp [ih, Nat.add_assoc]

/-- The bytes of some instructions, one after the other. -/
def bytes (is : List Instr) : Array UInt8 := (is.flatMap encode).toArray

theorem length_flatMap_encode (is : List Instr) : (is.flatMap encode).length = total is := by
  induction is with
  | nil => rfl
  | cons i is ih => rw [List.flatMap_cons, List.length_append, length_encode, ih, total_cons]

@[simp] theorem size_bytes (is : List Instr) : (bytes is).size = total is := by
  rw [bytes, List.size_toArray, length_flatMap_encode]

theorem getElem?_bytes (pre : List Instr) (i : Instr) (post : List Instr) {k : Nat} (hk : k < i.size) :
    (bytes (pre ++ i :: post))[total pre + k]? = i.encode[k]? := by
  rw [bytes, List.getElem?_toArray, List.flatMap_append, List.flatMap_cons,
    ← length_flatMap_encode pre, List.getElem?_append_right (Nat.le_add_right ..),
    Nat.add_sub_cancel_left, List.getElem?_append_left (by rwa [length_encode])]

theorem wordOf_bytesOf (w : UInt16) : wordOf (w >>> 8).toUInt8 w.toUInt8 = w := by
  apply UInt16.eq_of_toBitVec_eq
  simp only [wordOf, UInt16.toBitVec_or, UInt16.toBitVec_shiftLeft, UInt8.toBitVec_toUInt16,
    UInt16.toBitVec_toUInt8, UInt16.toBitVec_shiftRight]
  ext k hk
  simp only [BitVec.getElem_or, BitVec.getElem_setWidth]
  by_cases h : k < 8
  · simp [h, BitVec.getLsbD_eq_getElem hk]
  · have hk' : k - 8 < 8 := by omega
    have hsum : 8 + (k - 8) = k := by omega
    simp [h, hk', hsum, BitVec.getLsbD_eq_getElem hk]

/-- Reading depends on the bytes of the instruction only. -/
theorem fetch_of_getElem? {bs : Array UInt8} {pos : Nat} {i : Instr}
    (next : ∀ {k : Nat}, k < i.size → bs[pos + k]? = i.encode[k]?) : fetch bs pos = .ok i := by
  have first := next i.size_pos
  have hop : fetchOp bs pos = .ok i.op := by
    simp only [Nat.add_zero] at first
    simp [fetchOp, first, encode, Op.ofCode?_code]
  unfold fetch
  rw [hop]
  cases i with
  | jump w | jumpIfFalse w =>
    have hi := next (show 1 < 3 by decide)
    have lo := next (show 2 < 3 by decide)
    simp only [encode, operands, arg?, address?, bytesOf, List.getElem?_cons_succ,
      List.getElem?_cons_zero] at hi lo
    simp [op, Op.template, hi, lo, wordOf_bytesOf, bind, Except.bind, pure, Except.pure]
  | const x | cmp x | getGlobal x | setGlobal x | getLocal x | setLocal x | scopeExit x | call x
  | getCell x | setCell x | loadCell x | makeFunction x =>
    have arg := next (show 1 < 2 by decide)
    simp only [encode, operands, arg?, List.getElem?_cons_succ, List.getElem?_cons_zero] at arg
    simp [op, Op.template, arg, bind, Except.bind, pure, Except.pure]
  | _ => rfl

theorem fetch_bytes (pre : List Instr) (i : Instr) (post : List Instr) :
    fetch (bytes (pre ++ i :: post)) (total pre) = .ok i :=
  fetch_of_getElem? fun hk => getElem?_bytes pre i post hk

/-! ## Places -/

/-- Instructions with their places, the first one at `pos`. -/
def placed (pos : Nat) : List Instr → List (Nat × Instr)
  | [] => []
  | i :: is => (pos, i) :: placed (pos + i.size) is

theorem mem_placed {pos p : Nat} {i : Instr} {is : List Instr} :
    (p, i) ∈ placed pos is ↔ ∃ pre post, is = pre ++ i :: post ∧ p = pos + total pre := by
  induction is generalizing pos with
  | nil => simp [placed]
  | cons j is ih =>
    rw [placed, List.mem_cons, ih]
    constructor
    · rintro (h | ⟨pre, post, rfl, rfl⟩)
      · cases h
        exact ⟨[], is, rfl, rfl⟩
      · exact ⟨j :: pre, post, rfl, by rw [total_cons]; omega⟩
    · rintro ⟨pre, post, h, rfl⟩
      cases pre with
      | nil => cases h; exact Or.inl rfl
      | cons k pre =>
        cases h
        exact Or.inr ⟨pre, post, rfl, by rw [total_cons]; omega⟩

theorem instrsFrom_bytes (pre is : List Instr) :
    Code.instrsFrom (bytes (pre ++ is)) (total pre) = .ok (placed (total pre) is) := by
  induction is generalizing pre with
  | nil =>
    rw [Code.instrsFrom]
    simp [placed]
  | cons i is ih =>
    have rest := ih (pre ++ [i])
    simp only [List.append_assoc, List.cons_append, List.nil_append, total_append, total_cons,
      total_nil, Nat.add_zero] at rest
    have hlt : total pre < (bytes (pre ++ i :: is)).size := by
      have := i.size_pos
      simp
      omega
    rw [Code.instrsFrom, if_pos hlt, fetch_bytes]
    simp only [rest]
    rfl

end Instr

/-- Decoding a code object gives back its instructions with their places. -/
theorem Code.instrs_eq_placed {c : Code} {is : List Instr} (h : c.bytes = Instr.bytes is) :
    c.instrs = .ok (Instr.placed 0 is) := by
  rw [instrs, h]
  exact Instr.instrsFrom_bytes [] is

theorem Instr.map_snd_placed (pos : Nat) (is : List Instr) : (placed pos is).map Prod.snd = is := by
  induction is generalizing pos with
  | nil => rfl
  | cons i is ih => rw [placed, List.map_cons, ih]

/-- Bytes are those of one list of instructions only. -/
theorem Instr.bytes_inj {is js : List Instr} (h : bytes is = bytes js) : is = js := by
  have hi := instrsFrom_bytes [] is
  have hj := instrsFrom_bytes [] js
  rw [List.nil_append] at hi hj
  rw [h, hj] at hi
  rw [← map_snd_placed (total []) is, ← map_snd_placed (total []) js, Except.ok.inj hi]

/-! ## Parts of a code object -/

/-- Some instructions lie at a place of a code object. -/
def Code.Lies (c : Code) (pos : Nat) (is : List Instr) : Prop :=
  ∃ pre post, c.bytes = Instr.bytes (pre ++ is ++ post) ∧ pos = Instr.total pre

namespace Code

variable {c : Code} {pos : Nat} {i : Instr} {is js : List Instr}

/-- There is no instruction at the end of the code. -/
theorem fetch_size {bytes : Array UInt8} : Instr.fetch bytes bytes.size = .error .pastEnd := by
  rw [Instr.fetch, Instr.fetchOp, Array.getElem?_eq_none (Nat.le_refl _)]
  rfl

theorem lies_of_bytes (h : c.bytes = Instr.bytes is) : c.Lies 0 is :=
  ⟨[], [], by rw [h, List.nil_append, List.append_nil], rfl⟩

theorem Lies.left (h : c.Lies pos (is ++ js)) : c.Lies pos is := by
  obtain ⟨pre, post, hb, hp⟩ := h
  exact ⟨pre, js ++ post, by simp only [hb, List.append_assoc], hp⟩

theorem Lies.right (h : c.Lies pos (is ++ js)) : c.Lies (pos + Instr.total is) js := by
  obtain ⟨pre, post, hb, hp⟩ := h
  exact ⟨pre ++ is, post, by simp only [hb, List.append_assoc], by rw [hp, Instr.total_append]⟩

theorem Lies.tail (h : c.Lies pos (i :: is)) : c.Lies (pos + i.size) is :=
  have h : c.Lies pos ([i] ++ is) := h
  h.right

theorem Lies.fetch (h : c.Lies pos (i :: is)) : Instr.fetch c.bytes pos = .ok i := by
  obtain ⟨pre, post, hb, rfl⟩ := h
  rw [hb, List.append_assoc]
  exact Instr.fetch_bytes pre i _

end Code

end ByteLisp
