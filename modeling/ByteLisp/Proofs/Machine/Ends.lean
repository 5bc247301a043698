/-
  ByteLisp: how actions of the machine end.

  * `Machine.put` is a machine with other values on its stack;
  * one lemma for each action says what is to be shown of it (`Ends`); a push may
    always find the stack full.
-/
import ByteLisp.Machine
import ByteLisp.Proofs.Ends

namespace ByteLisp

namespace Machine

variable {α : Type} {m : Machine} {E : Fault → Machine → Prop}

/-- The machine with other values on its stack. -/
def put (m : Machine) (vs : List Value) : Machine :=
  { m with stack := ⟨vs, vs.length, m.stack.limit, rfl⟩ }

@[simp] theorem values_put (vs : List Value) : (m.put vs).stack.values = vs := rfl

@[simp] theorem heap_put (vs : List Value) : (m.put vs).heap = m.heap := rfl

@[simp] theorem globals_put (vs : List Value) : (m.put vs).globals = m.globals := rfl

@[simp] theorem current_put (vs : List Value) : (m.put vs).current = m.current := rfl

@[simp] theorem callers_put (vs : List Value) : (m.put vs).callers = m.callers := rfl

@[simp] theorem frameLimit_put (vs : List Value) : (m.put vs).frameLimit = m.frameLimit := rfl

@[simp] theorem put_put (vs ws : List Value) : (m.put vs).put ws = m.put ws := rfl

@[simp] theorem height_put (vs : List Value) : (m.put vs).stack.height = vs.length := rfl

/-! ## The stack -/

theorem ends_push {v : Value} {Q : Unit → Machine → Prop} (ho : E .stackOverflow m)
    (h : Q () (m.put (v :: m.stack.values))) : Ends (push v) m Q E := by
  by_cases hl : m.stack.limit ≤ m.stack.height
  · refine ends_of_error .stackOverflow m ?_ ho
    rw [push, onStack, Stack.push, if_pos hl]
  · refine ends_of_ok () (m.put (v :: m.stack.values)) ?_ h
    rw [push, onStack, Stack.push, if_neg hl]
    simp [put, m.stack.height_eq]

theorem ends_pop {v : Value} {vs : List Value} {Q : Value → Machine → Prop}
    (hs : m.stack.values = v :: vs) (h : Q v (m.put vs)) : Ends pop m Q E := by
  refine ends_of_ok v (m.put vs) ?_ h
  obtain ⟨heap, globals, ⟨values, height, limit, hh⟩, current, callers, frameLimit⟩ := m
  subst hs hh
  rfl

theorem ends_peek {n : Nat} {v : Value} {Q : Value → Machine → Prop}
    (hs : m.stack.values[n]? = some v) (h : Q v m) : Ends (peek n) m Q E := by
  refine ends_of_ok v m ?_ h
  rw [peek, onStack, Stack.peek, hs]

theorem ends_drop {n : Nat} {vs ws : List Value} {Q : Unit → Machine → Prop}
    (hs : m.stack.values = vs ++ ws) (hn : n = vs.length) (h : Q () (m.put ws)) :
    Ends (onStack (Stack.drop n)) m Q E := by
  refine ends_of_ok () (m.put ws) ?_ h
  have hle : n ≤ m.stack.height := by rw [m.stack.height_eq, hs, hn]; simp
  rw [onStack, Stack.drop, if_pos hle]
  simp [put, m.stack.height_eq, hs, hn]

theorem ends_local {ix : Nat} {v : Value} {Q : Value → Machine → Prop}
    (hs : m.stack.values.reverse[ix]? = some v) (h : Q v m) :
    Ends (onStack (Stack.get ix)) m Q E := by
  refine ends_of_ok v m ?_ h
  have hlt : ix < m.stack.values.length := by
    simpa using (List.getElem?_eq_some_iff.1 hs).1
  rw [List.getElem?_reverse hlt] at hs
  rw [onStack, Stack.get, if_pos (m.stack.height_eq ▸ hlt), m.stack.height_eq, hs]

theorem ends_setLocal {ix : Nat} {v : Value} {Q : Unit → Machine → Prop}
    (hlt : ix < m.stack.values.length)
    (h : Q () (m.put (m.stack.values.set (m.stack.values.length - 1 - ix) v))) :
    Ends (onStack (Stack.set ix v)) m Q E := by
  refine ends_of_ok () (m.put (m.stack.values.set (m.stack.values.length - 1 - ix) v))
    ?_ h
  rw [onStack, Stack.set, if_pos (m.stack.height_eq ▸ hlt)]
  simp [put, m.stack.height_eq]

theorem ends_height {Q : Nat → Machine → Prop} (h : Q m.stack.values.length m) :
    Ends height m Q E := ends_of_ok m.stack.height m rfl (m.stack.height_eq ▸ h)

/-! ## The heap -/

theorem ends_alloc {o : Object} {Q : Handle → Machine → Prop}
    (h : Q m.heap.size { m with heap := m.heap.alloc o }) : Ends (alloc o) m Q E := h

theorem ends_expect {a : α} {o : Option α} {Q : α → Machine → Prop} (ho : o = some a) (h : Q a m) :
    Ends (expect o) m Q E := by
  rw [ho]
  exact h

theorem ends_codeAt {i : Handle} {c : Code} {Q : Code → Machine → Prop}
    (hc : m.heap.code? i = some c) (h : Q c m) : Ends (codeAt i) m Q E := by
  refine ends_of_ok c m ?_ h
  rw [codeAt, hc]

theorem ends_cellAt {ix : UInt8} {i : Handle} {Q : Handle → Machine → Prop}
    (hi : m.current.cells[ix.toNat]? = some i) (h : Q i m) : Ends (cellAt ix) m Q E := by
  refine ends_of_ok i m ?_ h
  rw [cellAt, hi]

theorem ends_tagOf {v : Value} {t : Tag} {Q : Tag → Machine → Prop} (ht : m.heap.tag? v = some t)
    (h : Q t m) : Ends (tagOf v) m Q E := by
  refine ends_of_ok t m ?_ h
  unfold tagOf
  rw [ht]

theorem ends_typeFault {op : Op} {expected t : Tag} {v : Value} {Q : α → Machine → Prop}
    (ht : m.heap.tag? v = some t)
    (h : E (.type op.name expected t) m) : Ends (typeFault op expected v : Run α) m Q E :=
  ends_bind (ends_tagOf ht (ends_throw h))

theorem ends_textOf {v : Value} {Q : Option String → Machine → Prop} (h : Q (m.heap.text? v) m) :
    Ends (textOf v) m Q E := h

end Machine

end ByteLisp
