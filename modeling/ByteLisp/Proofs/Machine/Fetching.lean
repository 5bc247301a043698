/-
  ByteLisp: how the machine reads code.

  The machine reads an instruction byte by byte and goes on behind each part that
  it has read, while the decoder takes the width of the operand from a table.

  * `Machine.advance` is the machine with the place of the next byte moved on;
  * `readOperand_plain`, `readOperand_byte` and `readOperand_word`: each operation
    reads the operand that the table gives it;
  * `Machine.fetch_eq`: the machine reads the instruction that the decoder finds,
    and fails where that finds none.
-/
import ByteLisp.Machine

namespace ByteLisp

/-! ## Widths -/

namespace Op

variable {op : Op} {i : Instr}

theorem size_plain (h : op.template = .plain i) : i.size = 1 := by
  cases op <;> cases h <;> rfl

theorem size_byte {make : UInt8 → Instr} (h : op.template = .byte make) (x : UInt8) :
    (make x).size = 2 := by
  cases op <;> cases h <;> rfl

theorem size_word {make : UInt16 → Instr} (h : op.template = .word make) (w : UInt16) :
    (make w).size = 3 := by
  cases op <;> cases h <;> rfl

end Op

namespace Instr

variable {bytes : Array UInt8} {pos : Nat} {op : Op} {e : FetchError}

theorem fetchOp_ne_truncated : fetchOp bytes pos ≠ .error .truncated := by
  intro h
  rw [fetchOp] at h
  cases hb : bytes[pos]? with
  | none => rw [hb] at h; cases h
  | some b =>
    rw [hb] at h
    dsimp only at h
    cases ho : Op.ofCode? b <;> rw [ho] at h <;> cases h

theorem fetch_of_error (h : fetchOp bytes pos = .error e) : fetch bytes pos = .error e := by
  rw [fetch, h]
  rfl

theorem fetch_plain {i : Instr} (ht : op.template = .plain i) (h : fetchOp bytes pos = .ok op) :
    fetch bytes pos = .ok i := by
  rw [fetch, h]
  cases op <;> cases ht <;> rfl

theorem fetch_byte {make : UInt8 → Instr} (ht : op.template = .byte make)
    (h : fetchOp bytes pos = .ok op) :
    fetch bytes pos = match bytes[pos + 1]? with
      | some x => .ok (make x)
      | none => .error .truncated := by
  rw [fetch, h]
  cases op <;> cases ht <;> rfl

theorem fetch_word {make : UInt16 → Instr} (ht : op.template = .word make)
    (h : fetchOp bytes pos = .ok op) :
    fetch bytes pos = match bytes[pos + 1]?, bytes[pos + 2]? with
      | some hi, some lo => .ok (make (wordOf hi lo))
      | _, _ => .error .truncated := by
  rw [fetch, h]
  cases op <;> cases ht <;> rfl

end Instr

namespace Machine

variable {m : Machine} {c : Code} {op : Op}

/-- The machine with the place of the next byte moved on. -/
def advance (m : Machine) (n : Nat) : Machine :=
  { m with current := { m.current with ip := m.current.ip + n } }

theorem current_advance (m : Machine) (n : Nat) : (m.advance n).current.ip = m.current.ip + n := rfl

theorem advance_advance (m : Machine) (k n : Nat) : (m.advance k).advance n = m.advance (k + n) := by
  simp only [advance, Nat.add_assoc]

theorem readByte_eq (hc : m.heap.code? m.current.code = some c) :
    readByte m = match c.bytes[m.current.ip]? with
      | some b => .ok b (m.advance 1)
      | none => .error .corrupted m := by
  change EStateM.bind (codeAt m.current.code) _ m = _
  simp only [EStateM.bind, codeAt, hc, Code.byte?]
  cases c.bytes[m.current.ip]? <;> rfl

theorem readWord_eq (hc : m.heap.code? m.current.code = some c) :
    readWord m = match c.bytes[m.current.ip]?, c.bytes[m.current.ip + 1]? with
      | some hi, some lo => .ok (wordOf hi lo) (m.advance 2)
      | _, _ => .error .corrupted m := by
  change EStateM.bind (codeAt m.current.code) _ m = _
  simp only [EStateM.bind, codeAt, hc, Code.word?]
  cases c.bytes[m.current.ip]? with
  | none => rfl
  | some hi => cases c.bytes[m.current.ip + 1]? <;> rfl

theorem readOp_eq (hc : m.heap.code? m.current.code = some c) :
    readOp m = match Instr.fetchOp c.bytes m.current.ip with
      | .ok op => .ok op (m.advance 1)
      | .error (.unknown b) => .error (.unknownOpcode b m.current.ip) (m.advance 1)
      | .error _ => .error .corrupted m := by
  change EStateM.bind readByte _ m = _
  rw [EStateM.bind, readByte_eq hc, Instr.fetchOp]
  cases c.bytes[m.current.ip]? with
  | none => rfl
  | some b =>
    dsimp only
    cases Op.ofCode? b <;> rfl

theorem readOperand_plain {i : Instr} (h : op.template = .plain i) : readOperand op m = .ok i m := by
  cases op <;> cases h <;> rfl

theorem readOperand_byte {make : UInt8 → Instr} (h : op.template = .byte make)
    (hc : m.heap.code? m.current.code = some c) :
    readOperand op m = match c.bytes[m.current.ip]? with
      | some x => .ok (make x) (m.advance 1)
      | none => .error .corrupted m := by
  have hread : readOperand op = make <$> readByte := by cases op <;> cases h <;> rfl
  rw [hread]
  change EStateM.map make readByte m = _
  rw [EStateM.map, readByte_eq hc]
  cases c.bytes[m.current.ip]? <;> rfl

theorem readOperand_word {make : UInt16 → Instr} (h : op.template = .word make)
    (hc : m.heap.code? m.current.code = some c) :
    readOperand op m = match c.bytes[m.current.ip]?, c.bytes[m.current.ip + 1]? with
      | some hi, some lo => .ok (make (wordOf hi lo)) (m.advance 2)
      | _, _ => .error .corrupted m := by
  have hread : readOperand op = make <$> readWord := by cases op <;> cases h <;> rfl
  rw [hread]
  change EStateM.map make readWord m = _
  rw [EStateM.map, readWord_eq hc]
  cases c.bytes[m.current.ip]? with
  | none => rfl
  | some hi => cases c.bytes[m.current.ip + 1]? <;> rfl

/-- What reading an instruction gives where the decoder finds the instruction, or none. -/
def Reads (m : Machine) : Except Instr.FetchError Instr → EStateM.Result Fault Machine Instr → Prop
  | .ok i, x => x = .ok i (m.advance i.size)
  | .error (.unknown b), x => x = .error (.unknownOpcode b m.current.ip) (m.advance 1)
  | .error .pastEnd, x => x = .error .corrupted m
  | .error .truncated, x => x = .error .corrupted (m.advance 1)

/-- The machine reads the instruction that the decoder finds at a place; it fails where there is
    none, because of an unknown operation or because the code has ended. -/
theorem fetch_eq (hc : m.heap.code? m.current.code = some c) :
    m.Reads (Instr.fetch c.bytes m.current.ip) (fetch m) := by
  have hfetch : fetch m = EStateM.bind readOp readOperand m := rfl
  cases hop : Instr.fetchOp c.bytes m.current.ip with
  | error e =>
    rw [Instr.fetch_of_error hop, hfetch, EStateM.bind, readOp_eq hc, hop]
    cases e with
    | pastEnd => rfl
    | unknown b => rfl
    | truncated => exact absurd hop Instr.fetchOp_ne_truncated
  | ok op =>
    have hc' : (m.advance 1).heap.code? (m.advance 1).current.code = some c := hc
    have hm : fetch m = readOperand op (m.advance 1) := by
      rw [hfetch, EStateM.bind, readOp_eq hc, hop]
    rw [hm]
    cases ht : op.template with
    | plain i => rw [Instr.fetch_plain ht hop, readOperand_plain ht, Reads, Op.size_plain ht]
    | byte make =>
      rw [Instr.fetch_byte ht hop, readOperand_byte ht hc', current_advance]
      cases c.bytes[m.current.ip + 1]? with
      | none => rfl
      | some x =>
        dsimp only
        rw [Reads, Op.size_byte ht, advance_advance]
    | word make =>
      rw [Instr.fetch_word ht hop, readOperand_word ht hc', current_advance]
      cases c.bytes[m.current.ip + 1]? with
      | none => rfl
      | some hi =>
        cases c.bytes[m.current.ip + 1 + 1]? with
        | none => rfl
        | some lo =>
          dsimp only
          rw [Reads, Op.size_word ht, advance_advance]

end Machine

end ByteLisp
