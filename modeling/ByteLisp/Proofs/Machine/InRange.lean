/-
  ByteLisp: runs of any code stay within the heap.

  Nothing is asked of the bytes of code objects here. Whatever they are, a machine
  whose handles are all in range keeps them so, and none of its operations looks
  up a handle that is no object or counts below the bottom of the stack.

  * `World.InRange`: all handles on the heap and in the global variables are in
    range, and only built-in functions are on the heap;
  * `Machine.Rests` and `Machine.InRange`: so are those on the stack, and those of
    the activations;
  * `execute_inRange` and `step_inRange` say that this stays so;
  * `Machine.Idle`: the states between the runs of a machine, `Machine.Visits`: the
    states of these runs, and `visits_inRange` is what holds of them.
-/
import ByteLisp.Proofs.Machine.Lasting

namespace ByteLisp

/-! ## Handles in range -/

/-- A value whose handle, if it has one, is below `n`. -/
def Value.Below (n : Nat) : Value → Prop
  | .object i => i < n
  | .number _ | .boolean _ => True

/-- The handles in an object are below `n`; a native function is a built-in one. -/
def Object.Below (n : Nat) : Object → Prop
  | .string _ => True
  | .code c => ∀ v ∈ c.constants, v.Below n
  | .native g => g ∈ Native.builtins
  | .function f => f.code < n ∧ ∀ i ∈ f.cells, i < n
  | .cell v => v.Below n

/-- The handles of an activation are below `n`. -/
structure Frame.Below (n : Nat) (f : Frame) : Prop where
  code : f.code < n
  cells : ∀ i ∈ f.cells, i < n

/-- The handles on a stack are below `n`. -/
def Stack.Below (n : Nat) (s : Stack) : Prop := ∀ v ∈ s.values, v.Below n

/-- The handles on the heap and in the global variables are those of objects. -/
structure World.InRange (W : World) : Prop where
  objects : ∀ i o, W.heap.get? i = some o → o.Below W.heap.size
  globals : ∀ ix x v, W.globals.get? ix = some x → x.value = some v → v.Below W.heap.size

namespace Machine

/-- Moreover, so are the handles on the stack. -/
structure Rests (m : Machine) : Prop extends World.InRange m.world where
  stack : m.stack.Below m.heap.size

/-- Moreover, so are the handles of the activations. -/
structure InRange (m : Machine) : Prop extends Rests m where
  current : m.current.Below m.heap.size
  callers : ∀ f ∈ m.callers, f.Below m.heap.size

end Machine

/-- A fault that does not tell of a handle that is no object. -/
def Fault.Sane (e : Fault) : Prop := ∀ i, e ≠ .dangling i

variable {n k : Nat} {v x y : Value} {o : Object} {f : Frame} {s : Stack} {W : World} {m m' : Machine}
  {i : Handle}

/-- Does a fault tell of a handle that is no object? -/
def Fault.dangles : Fault → Bool
  | .dangling _ => true
  | _ => false

theorem Fault.Sane.of {e : Fault} (h : e.dangles = false) : e.Sane := by
  rintro i rfl
  cases h

theorem Fault.sane_of_call {e : Fault} (h : e.Expected ∨ e = .corrupted) : e.Sane := by
  rintro i rfl
  rcases h with h | h
  · exact h
  · cases h

theorem Value.Below.mono (h : v.Below n) (hk : n ≤ k) : v.Below k := by
  cases v with
  | object i => exact Nat.lt_of_lt_of_le h hk
  | _ => trivial

theorem Object.Below.mono (h : o.Below n) (hk : n ≤ k) : o.Below k := by
  cases o with
  | string text => trivial
  | code c => exact fun v hv => (h v hv).mono hk
  | native g => exact h
  | function f => exact ⟨Nat.lt_of_lt_of_le h.1 hk, fun i hi => Nat.lt_of_lt_of_le (h.2 i hi) hk⟩
  | cell v => exact Value.Below.mono h hk

theorem Frame.Below.mono (h : f.Below n) (hk : n ≤ k) : f.Below k :=
  ⟨Nat.lt_of_lt_of_le h.code hk, fun i hi => Nat.lt_of_lt_of_le (h.cells i hi) hk⟩

theorem Stack.Below.mono (h : s.Below n) (hk : n ≤ k) : s.Below k := fun v hv => (h v hv).mono hk

@[simp] theorem Heap.size_setCell (h : Heap) (i : Handle) (v : Value) : (h.setCell i v).size = h.size :=
  Array.size_setIfInBounds

/-- A value in range has a kind. -/
theorem Value.Below.tag {h : Heap} (hv : v.Below h.size) : ∃ t, h.tag? v = some t := by
  cases v with
  | number x | boolean b => exact ⟨_, rfl⟩
  | object i =>
    refine ⟨h.objects[i].tag, ?_⟩
    rw [Heap.tag?, Heap.get?, Array.getElem?_eq_getElem hv]
    rfl

/-! ## The heap and the globals -/

namespace World.InRange

theorem alloc (hW : W.InRange) (ho : o.Below W.heap.size) :
    World.InRange ⟨W.heap.alloc o, W.globals⟩ := by
  have hle : W.heap.size ≤ (W.heap.alloc o).size := by simp
  refine ⟨fun i p hi => ?_, fun ix x v hx hv => (hW.globals ix x v hx hv).mono hle⟩
  rcases Heap.get?_alloc_cases hi with hi | ⟨-, rfl⟩
  · exact (hW.objects i p hi).mono hle
  · exact ho.mono hle

theorem setCell (hW : W.InRange) (hi : W.heap.IsCell i) (hv : v.Below W.heap.size) :
    World.InRange ⟨W.heap.setCell i v, W.globals⟩ := by
  refine ⟨fun j o hj => ?_, fun ix x u hx hu => ?_⟩
  · change o.Below (W.heap.setCell i v).size
    change (W.heap.setCell i v).get? j = some o at hj
    rw [Heap.size_setCell]
    by_cases he : j = i
    · subst he
      rw [Heap.get?_setCell hi] at hj
      cases hj
      exact hv
    · rw [Heap.get?_setCell_of_ne he] at hj
      exact hW.objects j o hj
  · change u.Below (W.heap.setCell i v).size
    rw [Heap.size_setCell]
    exact hW.globals ix x u hx hu

theorem setGlobal (hW : W.InRange) (ix : Nat) (hv : v.Below W.heap.size) :
    World.InRange ⟨W.heap, W.globals.set ix v⟩ := by
  refine ⟨hW.objects, fun jx x u hx hu => ?_⟩
  change (W.globals.set ix v).get? jx = some x at hx
  rw [Globals.get?_set] at hx
  obtain ⟨y, hy, rfl⟩ := Option.map_eq_some_iff.1 hx
  split at hu
  · cases hu
    exact hv
  · exact hW.globals jx y u hy hu

theorem addCells (hW : W.InRange) (n : Nat) : World.InRange ⟨W.heap.addCells n, W.globals⟩ := by
  induction n with
  | zero => simpa [Heap.addCells] using hW
  | succ n ih => exact Heap.addCells_succ .. ▸ ih.alloc trivial

end World.InRange

/-! ## The stack -/

namespace Stack

/-- An operation leaves handles below `n` on the stack, whether it succeeds or fails. -/
abbrev Keeps {α : Type} (n : Nat) (op : StackOp α) (s : Stack) (P : α → Prop) : Prop :=
  Ends op s (fun a s' => P a ∧ s'.Below n) fun e s' => e.Sane ∧ s'.Below n

theorem keeps_push (hs : s.Below n) (hv : v.Below n) : Keeps n (push v) s fun _ => True := by
  unfold Keeps Ends push
  split
  · next h =>
    split at h <;> cases h
    exact ⟨trivial, List.forall_mem_cons.2 ⟨hv, hs⟩⟩
  · next h =>
    split at h <;> cases h
    exact ⟨.of rfl, hs⟩

theorem keeps_pop (hs : s.Below n) : Keeps n pop s fun v => v.Below n := by
  obtain ⟨values, height, limit, hh⟩ := s
  cases values with
  | nil => exact ⟨.of rfl, hs⟩
  | cons v vs => exact List.forall_mem_cons.1 hs

theorem keeps_peek (k : Nat) (hs : s.Below n) : Keeps n (peek k) s fun v => v.Below n := by
  unfold Keeps Ends peek
  split
  · next h =>
    split at h <;> cases h
    next hv => exact ⟨hs _ (List.mem_of_getElem? hv), hs⟩
  · next h =>
    split at h <;> cases h
    exact ⟨.of rfl, hs⟩

theorem keeps_drop (k : Nat) (hs : s.Below n) : Keeps n (drop k) s fun _ => True := by
  unfold Keeps Ends drop
  split
  · next h =>
    split at h <;> cases h
    exact ⟨trivial, fun v hv => hs v (List.mem_of_mem_drop hv)⟩
  · next h =>
    split at h <;> cases h
    exact ⟨.of rfl, hs⟩

theorem keeps_get (ix : Nat) (hs : s.Below n) : Keeps n (get ix) s fun v => v.Below n := by
  unfold Keeps Ends get
  by_cases hlt : ix < s.height
  · cases hv : s.values[s.height - 1 - ix]? with
    | some v =>
      simp only [if_pos hlt]
      exact ⟨hs _ (List.mem_of_getElem? hv), hs⟩
    | none =>
      simp only [if_pos hlt]
      exact ⟨.of rfl, hs⟩
  · simp only [if_neg hlt]
    exact ⟨.of rfl, hs⟩

theorem keeps_set (ix : Nat) (hs : s.Below n) (hv : v.Below n) : Keeps n (set ix v) s fun _ => True := by
  unfold Keeps Ends set
  split
  · next h =>
    split at h <;> cases h
    refine ⟨trivial, fun u hu => ?_⟩
    rcases List.mem_or_eq_of_mem_set hu with hu | rfl
    · exact hs u hu
    · exact hv
  · next h =>
    split at h <;> cases h
    exact ⟨.of rfl, hs⟩

end Stack

namespace Native

theorem keeps_numberArg (name : String) (k : Nat) (hs : s.Below n) :
    Stack.Keeps n (numberArg name k) s fun _ => True := by
  refine ends_bind ((Stack.keeps_peek k hs).mono (fun v s' h => ?_) fun _ _ h => h)
  cases v with
  | number x => exact ends_pure ⟨trivial, h.2⟩
  | boolean b => exact ends_throw ⟨.of rfl, h.2⟩
  | object i => exact ends_throw ⟨.of rfl, h.2⟩

/-- A built-in function keeps handles on the stack in range, whatever its arguments are. -/
theorem keeps_builtin {g : Native} (hg : g ∈ builtins) (hs : s.Below n) :
    Stack.Keeps n g.run s fun _ => True := by
  have unary (name : String) (f : Float → Float) : Stack.Keeps n (unary name f).run s fun _ => True :=
    ends_bind ((keeps_numberArg name 0 hs).mono (fun _ _ h => Stack.keeps_push h.2 trivial)
      fun _ _ h => h)
  have binary (name : String) (f : Float → Float → Float) :
      Stack.Keeps n (binary name f).run s fun _ => True :=
    ends_bind ((keeps_numberArg name 1 hs).mono (fun _ _ h => ends_bind
      ((keeps_numberArg name 0 h.2).mono (fun _ _ h => Stack.keeps_push h.2 trivial) fun _ _ h => h))
      fun _ _ h => h)
  simp only [builtins, List.mem_cons, List.not_mem_nil, or_false] at hg
  rcases hg with rfl | rfl | rfl | rfl
  · exact unary _ _
  · exact unary _ _
  · exact binary _ _
  · exact binary _ _

end Native

namespace Machine

/-! ## Changes of the state -/

/-- An action that fails leaves all handles in range, and does not complain of one that is not. -/
def Fails (e : Fault) (m : Machine) : Prop := e.Sane ∧ m.InRange

theorem InRange.fails (hm : m.InRange) {e : Fault} (he : e.Sane) : Fails e m := ⟨he, hm⟩

namespace InRange

theorem putStack (hm : m.InRange) {s : Stack} (hs : s.Below m.heap.size) :
    InRange { m with stack := s } := ⟨⟨hm.toInRange, hs⟩, hm.current, hm.callers⟩

theorem alloc (hm : m.InRange) (ho : o.Below m.heap.size) :
    InRange { m with heap := m.heap.alloc o } := by
  have hle : m.heap.size ≤ (m.heap.alloc o).size := by simp
  exact ⟨⟨World.InRange.alloc hm.toInRange ho, hm.stack.mono hle⟩, hm.current.mono hle,
    fun f hf => (hm.callers f hf).mono hle⟩

theorem setCell (hm : m.InRange) (hi : m.heap.IsCell i) (hv : v.Below m.heap.size) :
    InRange { m with heap := m.heap.setCell i v } := by
  have hle : m.heap.size ≤ (m.heap.setCell i v).size := by simp
  exact ⟨⟨World.InRange.setCell hm.toInRange hi hv, hm.stack.mono hle⟩, hm.current.mono hle,
    fun f hf => (hm.callers f hf).mono hle⟩

theorem setGlobal (hm : m.InRange) (ix : Nat) (hv : v.Below m.heap.size) :
    InRange { m with globals := m.globals.set ix v } :=
  ⟨⟨World.InRange.setGlobal hm.toInRange ix hv, hm.stack⟩, hm.current, hm.callers⟩

theorem moved (hm : m.InRange) (ip : Nat) : (m.moved ip).InRange :=
  ⟨⟨hm.toInRange, hm.stack⟩, ⟨hm.current.code, hm.current.cells⟩, hm.callers⟩

theorem addCells (hm : m.InRange) (n : Nat) : InRange { m with heap := m.heap.addCells n } := by
  have hle : m.heap.size ≤ (m.heap.addCells n).size := by simp [Heap.size, Heap.addCells]
  exact ⟨⟨World.InRange.addCells hm.toInRange n, hm.stack.mono hle⟩, hm.current.mono hle,
    fun f hf => (hm.callers f hf).mono hle⟩

end InRange

/-! ## Operations -/

theorem inRange_onStack {α : Type} {op : StackOp α} {P : α → Prop} (hm : m.InRange)
    (h : Stack.Keeps m.heap.size op m.stack P) :
    Ends (onStack op) m (fun a m' => m'.InRange ∧ P a ∧ m'.heap = m.heap) Fails := by
  unfold Ends onStack
  unfold Stack.Keeps Ends at h
  cases ho : op m.stack with
  | ok a s =>
    rw [ho] at h
    exact ⟨hm.putStack h.2, h.1, rfl⟩
  | error e s =>
    rw [ho] at h
    exact ⟨h.1, hm.putStack h.2⟩

theorem inRange_push (hm : m.InRange) (hv : v.Below m.heap.size) :
    Ends (push v) m (fun _ m' => m'.InRange) Fails :=
  (inRange_onStack hm (Stack.keeps_push hm.stack hv)).mono (fun _ _ h => h.1) fun _ _ h => h

theorem inRange_pop (hm : m.InRange) :
    Ends pop m (fun v m' => m'.InRange ∧ v.Below m.heap.size ∧ m'.heap = m.heap) Fails :=
  inRange_onStack hm (Stack.keeps_pop hm.stack)

theorem inRange_peek (k : Nat) (hm : m.InRange) :
    Ends (peek k) m (fun v m' => m' = m ∧ v.Below m.heap.size ∧ m.stack.values[k]? = some v) Fails := by
  cases hv : m.stack.values[k]? with
  | some v => exact ends_peek hv ⟨rfl, hm.stack v (List.mem_of_getElem? hv), rfl⟩
  | none =>
    refine ends_of_error .stackUnderflow m ?_ (hm.fails (.of rfl))
    rw [peek, onStack, Stack.peek, hv]

theorem inRange_drop (k : Nat) (hm : m.InRange) :
    Ends (onStack (Stack.drop k)) m (fun _ m' => m'.InRange ∧ m'.heap = m.heap) Fails :=
  (inRange_onStack hm (Stack.keeps_drop k hm.stack)).mono (fun _ _ h => ⟨h.1, h.2.2⟩) fun _ _ h => h

theorem inRange_expect {α : Type} {a? : Option α} {Q : α → Machine → Prop} (hm : m.InRange)
    (h : ∀ a, a? = some a → Q a m) : Ends (expect a?) m Q Fails := by
  cases ha : a? with
  | none => exact ends_throw (hm.fails (.of rfl))
  | some a => exact ends_pure (h a ha)

theorem inRange_cellAt {ix : UInt8} {Q : Handle → Machine → Prop} (hm : m.InRange)
    (h : ∀ i, i < m.heap.size → Q i m) : Ends (cellAt ix) m Q Fails := by
  cases hi : m.current.cells[ix.toNat]? with
  | some i => exact ends_cellAt hi (h i (hm.current.cells i (Array.mem_of_getElem? hi)))
  | none =>
    refine ends_of_error .corrupted m ?_ (hm.fails (.of rfl))
    rw [cellAt, hi]

theorem inRange_typeFault {α : Type} {Q : α → Machine → Prop} {op : Op} {expected : Tag}
    (hm : m.InRange) (hv : v.Below m.heap.size) : Ends (typeFault op expected v : Run α) m Q Fails := by
  obtain ⟨t, ht⟩ := hv.tag
  exact ends_typeFault ht (hm.fails (.of rfl))

/-- Operators take two values that are in range. -/
theorem inRange_popTwo {α : Type} {Q : α → Machine → Prop} {op : Value → Value → Run α}
    (hm : m.InRange)
    (h : ∀ x y m', m'.InRange → x.Below m'.heap.size → y.Below m'.heap.size →
      Ends (op x y) m' Q Fails) : Ends (do let y ← pop; let x ← pop; op x y) m Q Fails := by
  refine ends_bind ((inRange_pop hm).mono (fun y m₁ h₁ => ?_) fun _ _ h => h)
  refine ends_bind ((inRange_pop h₁.1).mono (fun x m₂ h₂ => ?_) fun _ _ h => h)
  refine h x y m₂ h₂.1 (h₂.2.2 ▸ h₂.2.1) ?_
  rw [h₂.2.2, h₁.2.2]
  exact h₁.2.1

/-- Operands that are not both numbers must both be strings. -/
theorem inRange_texts {o : Op} {g : String → String → Run Unit} (hm : m.InRange)
    (hx : x.Below m.heap.size) (hy : y.Below m.heap.size)
    (h : ∀ s t, Ends (g s t) m (fun _ m' => m'.InRange) Fails) :
    Ends (do
      match ← textOf x, ← textOf y with
      | some s, some t => g s t
      | some _, none => typeFault o .string y
      | none, _ =>
        match x with
        | .number _ => typeFault o .number y
        | _ => typeFault o .number x) m (fun _ m' => m'.InRange) Fails := by
  refine ends_bind (ends_textOf (ends_bind (ends_textOf ?_)))
  split
  · exact h _ _
  · exact inRange_typeFault hm hy
  · split
    · exact inRange_typeFault hm hy
    · exact inRange_typeFault hm hx

theorem inRange_arithmetic (op : Op) (g : Float → Float → Float) (hm : m.InRange) :
    Ends (arithmetic op g) m (fun _ m' => m'.InRange) Fails := by
  refine inRange_popTwo hm fun x y m' hm hx hy => ?_
  split
  · exact inRange_push hm trivial
  · exact inRange_typeFault hm hy
  · exact inRange_typeFault hm hx

theorem inRange_alloc {Q : Handle → Machine → Prop} (hm : m.InRange) (ho : o.Below m.heap.size)
    (h : ∀ m' : Machine, m'.InRange → m.heap.size < m'.heap.size → Q m.heap.size m') :
    Ends (alloc o) m Q Fails := ends_alloc (h _ (hm.alloc ho) (by simp))

theorem inRange_add (hm : m.InRange) : Ends add m (fun _ m' => m'.InRange) Fails := by
  refine inRange_popTwo hm fun x y m' hm hx hy => ?_
  split
  · exact inRange_push hm trivial
  · exact inRange_texts hm hx hy fun s t =>
      ends_bind (inRange_alloc hm trivial fun _ h hlt => inRange_push h hlt)

theorem inRange_compare (c : Comparison) (hm : m.InRange) :
    Ends (compare c) m (fun _ m' => m'.InRange) Fails := by
  refine inRange_popTwo hm fun x y m' hm hx hy => ?_
  split
  · exact inRange_push hm trivial
  · split
    · exact inRange_push hm trivial
    · exact inRange_typeFault hm hx
  · exact inRange_typeFault hm hx
  · exact inRange_texts hm hx hy fun s t => inRange_push hm trivial

/-! ## Calls -/

theorem inRange_callNative {g : Native} (argc : Nat) (hg : g ∈ Native.builtins) (hm : m.InRange) :
    Ends (callNative g argc) m (fun _ m' => m'.InRange) Fails := by
  unfold callNative
  refine ends_guard (fun _ => hm.fails (.of rfl)) fun _ => ends_bind (ends_height ?_)
  refine ends_bind ((inRange_onStack hm (Native.keeps_builtin hg hm.stack)).mono (fun _ m₁ h₁ => ?_)
    fun _ _ h => h)
  refine ends_bind (ends_height (ends_guard (fun _ => h₁.1.fails (.of rfl)) fun _ => ?_))
  refine ends_bind ((inRange_pop h₁.1).mono (fun v m₂ h₂ => ?_) fun _ _ h => h)
  refine ends_bind ((inRange_drop (argc + 1) h₂.1).mono (fun _ m₃ h₃ => ?_) fun _ _ h => h)
  refine inRange_push h₃.1 ?_
  rw [h₃.2, h₂.2.2]
  exact h₂.2.1

theorem InRange.calling {f : Closure} {c : Code} (argc : Nat) (hm : m.InRange)
    (hf : Object.Below m.heap.size (.function f)) : (m.calling f c argc).InRange := by
  have hnew := hm.addCells c.own.size
  have hle : m.heap.size ≤ (m.heap.addCells c.own.size).size := by simp [Heap.size, Heap.addCells]
  refine ⟨⟨hnew.toInRange, hnew.stack⟩, ⟨Nat.lt_of_lt_of_le hf.1 hle, fun i hi => ?_⟩, fun g hg => ?_⟩
  · change i < (m.heap.addCells c.own.size).size
    rcases Array.mem_append.1 hi with hi | hi
    · exact Nat.lt_of_lt_of_le (hf.2 i hi) hle
    · have := Array.mem_range'_1.1 hi
      simpa [Heap.size, Heap.addCells] using this.2
  · rcases Array.mem_push.1 hg with hg | rfl
    · exact hnew.callers g hg
    · exact hnew.current

theorem inRange_call (argc : Nat) (hm : m.InRange) :
    Ends (call argc) m (fun _ m' => m'.InRange) Fails := by
  refine ends_bind ((inRange_peek argc hm).mono (fun v m' h => ?_) fun _ _ h => h)
  obtain ⟨rfl, hv, -⟩ := h
  refine ends_bind (ends_get ?_)
  split
  · next g hg =>
    obtain ⟨i, -, hi⟩ := Option.bind_eq_some_iff.1 hg
    exact inRange_callNative argc (hm.objects i _ hi) hm
  · next f hf =>
    obtain ⟨i, -, hi⟩ := Option.bind_eq_some_iff.1 hf
    exact ends_callFunction (fun e he => hm.fails (Fault.sane_of_call he)) fun c _ _ _ =>
      hm.calling argc (hm.objects i _ hi)
  · obtain ⟨t, ht⟩ := hv.tag
    exact ends_bind (ends_tagOf ht (ends_throw (hm.fails (.of rfl))))

theorem inRange_ret (hm : m.InRange) : Ends ret m (fun _ m' => m'.InRange) Fails := by
  cases hb : m.callers.back? with
  | none =>
    refine ends_of_error .corrupted m ?_ (hm.fails (.of rfl))
    rw [ret, hb]
  | some f =>
    refine ends_of_ok () { m with current := f, callers := m.callers.pop } ?_ ?_
    · rw [ret, hb]
    · obtain ⟨cs, hcs⟩ := Array.back?_eq_some_iff.1 hb
      refine ⟨⟨hm.toInRange, hm.stack⟩, hm.callers f (by simp [hcs]), fun g hg => hm.callers g ?_⟩
      change g ∈ m.callers.pop at hg
      rw [hcs, Array.pop_push] at hg
      rw [hcs]
      exact Array.mem_push_of_mem _ hg

theorem handle?_below {vs : List Value} {is : List Handle} (hv : ∀ v ∈ vs, v.Below n)
    (h : vs.mapM Value.handle? = some is) : ∀ i ∈ is, i < n := by
  induction vs generalizing is with
  | nil => cases h; exact nofun
  | cons v vs ih =>
    rw [List.mapM_cons] at h
    obtain ⟨i, hi, h⟩ := Option.bind_eq_some_iff.1 h
    obtain ⟨js, hjs, h⟩ := Option.bind_eq_some_iff.1 h
    cases h
    obtain ⟨hv, hvs⟩ := List.forall_mem_cons.1 hv
    refine List.forall_mem_cons.2 ⟨?_, ih hvs hjs⟩
    cases v with
    | object j => cases hi; exact hv
    | _ => cases hi

theorem inRange_makeFunction (k : Nat) (hm : m.InRange) :
    Ends (makeFunction k) m (fun _ m' => m'.InRange) Fails := by
  refine ends_bind ((inRange_pop hm).mono (fun top m₁ h₁ => ?_) fun _ _ h => h)
  refine ends_bind (ends_get (ends_bind (inRange_expect h₁.1 fun code hcode => ?_)))
  refine ends_guard (fun _ => h₁.1.fails (.of rfl)) fun _ =>
    ends_bind (inRange_expect h₁.1 fun cells hcells => ?_)
  have hcode : code < m₁.heap.size := by
    obtain ⟨htop, hc⟩ := Option.filter_eq_some_iff.1 hcode
    obtain ⟨c, hc⟩ := Option.isSome_iff_exists.1 hc
    exact Heap.lt_size_of_get? (Heap.code?_eq_some.1 hc)
  have hcells : ∀ i ∈ cells, i < m₁.heap.size := by
    refine handle?_below (fun v hv => h₁.1.stack v ?_) hcells
    exact List.mem_of_mem_take (List.mem_reverse.1 hv)
  refine ends_bind ((inRange_drop k h₁.1).mono (fun _ m₂ h₂ => ?_) fun _ _ h => h)
  refine ends_bind (inRange_alloc h₂.1 ?_ fun _ h hlt => inRange_push h hlt)
  rw [h₂.2]
  exact ⟨hcode, fun i hi => hcells i (by simpa using hi)⟩

/-! ## Instructions -/

theorem inRange_seq {x : Run Unit} (h : Ends x m (fun _ m' => m'.InRange) Fails) :
    Ends (do x; pure none : Run (Option Value)) m (fun _ m' => m'.InRange) Fails :=
  ends_bind (h.mono (fun _ _ h => ends_pure h) fun _ _ h => h)

/-- Whatever the instruction, all handles stay in range. -/
theorem execute_inRange (j : Instr) (hm : m.InRange) :
    Ends (execute j) m (fun _ m' => m'.InRange) Fails := by
  cases j with
  | halt =>
    refine ends_map (ends_bind (ends_height ?_))
    split
    · exact (inRange_pop hm).mono (fun _ _ h => h.1) fun _ _ h => h
    · exact ends_pure hm
  | const ix =>
    refine ends_bind (ends_get ?_)
    cases hc : m.heap.code? m.current.code with
    | none =>
      refine ends_bind (ends_of_error .corrupted m ?_ (hm.fails (.of rfl)))
      rw [codeAt, hc]
    | some c =>
      refine ends_bind (ends_codeAt hc (ends_bind (inRange_expect hm fun v hv => ?_)))
      have hcode := hm.objects _ _ (Heap.code?_eq_some.1 hc)
      exact inRange_seq (inRange_push hm (hcode v (Array.mem_of_getElem? hv)))
  | add => exact inRange_seq (inRange_add hm)
  | sub | mul | div => exact inRange_seq (inRange_arithmetic _ _ hm)
  | cmp code =>
    simp only [execute]
    split
    · exact inRange_seq (inRange_compare _ hm)
    · exact ends_bind (ends_throw (hm.fails (.of rfl)))
  | jump t => exact inRange_seq (ends_modify (hm.moved _))
  | jumpIfFalse t =>
    refine ends_bind ((inRange_pop hm).mono (fun v m₁ h₁ => ?_) fun _ _ h => h)
    split
    · exact ends_pure h₁.1
    · exact inRange_seq (ends_modify (h₁.1.moved _))
    · exact inRange_seq (inRange_typeFault h₁.1 (h₁.2.2 ▸ h₁.2.1))
  | getGlobal ix =>
    refine ends_bind (ends_get (ends_bind (inRange_expect hm fun x hx => ?_)))
    split
    · next v hv => exact inRange_seq (inRange_push hm (hm.globals _ x v hx hv))
    · exact ends_bind (ends_throw (hm.fails (.of rfl)))
  | setGlobal ix =>
    refine ends_bind ((inRange_peek 0 hm).mono (fun v m' h => ?_) fun _ _ h => h)
    obtain ⟨rfl, hv, -⟩ := h
    refine ends_bind (ends_get (ends_guard (fun _ => hm.fails (.of rfl)) fun _ => ?_))
    exact inRange_seq (ends_modify (hm.setGlobal _ hv))
  | pop => exact ends_bind ((inRange_pop hm).mono (fun _ _ h => ends_pure h.1) fun _ _ h => h)
  | getLocal slot =>
    refine ends_bind (ends_get (ends_bind ((inRange_onStack hm (Stack.keeps_get _ hm.stack)).mono
      (fun v m₁ h₁ => ?_) fun _ _ h => h)))
    exact inRange_seq (inRange_push h₁.1 (h₁.2.2 ▸ h₁.2.1))
  | setLocal slot =>
    refine ends_bind ((inRange_peek 0 hm).mono (fun v m' h => ?_) fun _ _ h => h)
    obtain ⟨rfl, hv, -⟩ := h
    refine ends_bind (ends_get (inRange_seq ?_))
    exact (inRange_onStack hm (Stack.keeps_set _ hm.stack hv)).mono (fun _ _ h => h.1) fun _ _ h => h
  | scopeExit k =>
    simp only [execute]
    split
    · refine ends_bind ((inRange_pop hm).mono (fun v m₁ h₁ => ?_) fun _ _ h => h)
      refine ends_bind ((inRange_drop _ h₁.1).mono (fun _ m₂ h₂ => ?_) fun _ _ h => h)
      refine inRange_seq (inRange_push h₂.1 ?_)
      rw [h₂.2, h₁.2.2]
      exact h₁.2.1
    · exact ends_pure hm
  | call argc => exact inRange_seq (inRange_call _ hm)
  | ret => exact inRange_seq (inRange_ret hm)
  | getCell ix =>
    refine ends_bind (inRange_cellAt hm fun i _ => ends_bind (ends_get
      (ends_bind (inRange_expect hm fun v hv => ?_))))
    exact inRange_seq (inRange_push hm (hm.objects i _ (Heap.cell?_eq_some.1 hv)))
  | setCell ix =>
    refine ends_bind (inRange_cellAt hm fun i _ => ends_bind ((inRange_peek 0 hm).mono
      (fun v m' h => ?_) fun _ _ h => h))
    obtain ⟨rfl, hv, -⟩ := h
    refine ends_bind (ends_get (ends_bind (inRange_expect hm fun u hu => ?_)))
    exact inRange_seq (ends_modify (hm.setCell ⟨u, hu⟩ hv))
  | loadCell ix => exact ends_bind (inRange_cellAt hm fun i hi => inRange_seq (inRange_push hm hi))
  | makeFunction k => exact inRange_seq (inRange_makeFunction _ hm)

theorem step_inRange (hm : m.InRange) : Ends step m (fun _ m' => m'.InRange) Fails := by
  cases hi : m.instr? with
  | some j =>
    rw [Ends, step_of_instr? hi]
    exact execute_inRange j (hm.moved _)
  | none =>
    obtain ⟨e, k, hf, he⟩ := fetch_of_none hi
    refine ends_of_error e (m.advance k) ?_ ⟨?_, hm.moved _⟩
    · change EStateM.bind fetch execute m = _
      rw [EStateM.bind, hf]
    · rcases he with rfl | ⟨b, rfl⟩ <;> exact .of rfl

/-! ## Runs one after the other -/

theorem Reaches.inRange (hr : m.Reaches m') (hm : m.InRange) : m'.InRange := by
  induction hr with
  | start => exact hm
  | step _ hs ih => exact (step_inRange ih).ok hs

theorem load_inRange (main : Handle) (hm : m.Rests) :
    Ends (load main) m (fun _ m' => m'.InRange) fun e m' => e.Sane ∧ m'.Rests := by
  have hfun {c : Code} (hc : m.heap.code? main = some c) :
      Object.Below m.heap.size (.function ⟨main, #[]⟩) :=
    ⟨Heap.lt_size_of_get? (Heap.code?_eq_some.1 hc), by simp⟩
  cases hc : m.heap.code? main with
  | none =>
    refine ends_bind (ends_of_error .corrupted m ?_ ⟨.of rfl, hm⟩)
    rw [codeAt, hc]
  | some c =>
    have hle : m.heap.size ≤ (m.heap.alloc (.function ⟨main, #[]⟩)).size := by simp
    have hworld := World.InRange.alloc hm.toInRange (hfun hc)
    refine ends_load ⟨.of rfl, hm⟩ ⟨.of rfl, hworld, hm.stack.mono hle⟩ fun d hd => ?_
    have hnew := hworld.addCells d.own.size
    have hsize : (m.opening main d).heap.size = m.heap.size + 1 + d.own.size := by
      simp [opening, Heap.size, Heap.addCells, Heap.alloc]
    have hgrows : m.heap.size ≤ (m.opening main d).heap.size := by omega
    refine ⟨⟨hnew, ?_⟩, ⟨?_, fun i hi => ?_⟩, fun f h => absurd h (Array.not_mem_empty f)⟩
    · refine List.forall_mem_cons.2 ⟨?_, hm.stack.mono hgrows⟩
      change m.heap.size < (m.opening main d).heap.size
      omega
    · exact Nat.lt_of_lt_of_le (hfun hd).1 hgrows
    · have hi := (Array.mem_range'_1.1 hi).2
      rw [hsize]
      exact hi

theorem run_rests {budget : Nat} (hm : m.InRange) :
    (∀ v m', run budget m = some (.ok v m') → m'.Rests) ∧
      ∀ e m', run budget m = some (.error e m') → e.Sane ∧ m'.Rests := by
  induction budget generalizing m with
  | zero => exact ⟨fun v m' h => (Option.some_ne_none _ h.symm).elim,
      fun e m' h => (Option.some_ne_none _ h.symm).elim⟩
  | succ budget ih =>
    have hs := step_inRange hm
    rw [run]
    cases hstep : step m with
    | error e m₁ =>
      have he := hs.error hstep
      constructor
      · rintro v m' ⟨⟩
      · rintro e' m' ⟨⟩
        exact ⟨he.1, he.2.toRests⟩
    | ok o m₁ =>
      cases o with
      | none => exact ih (hs.ok hstep)
      | some v =>
        constructor
        · rintro v' m' ⟨⟩
          exact (hs.ok hstep).toRests
        · rintro e m' ⟨⟩

/-- The states of a machine before, between and after runs of main code objects, each of which ends
    with a value or fails. -/
inductive Idle (m : Machine) : Machine → Prop
  | start : Idle m m
  | ended {budget : Nat} {main : Handle} {v : Value} {m₁ m₂ : Machine} (h : Idle m m₁)
    (hr : runMain budget main m₁ = some (.ok v m₂)) : Idle m m₂
  | failed {budget : Nat} {main : Handle} {e : Fault} {m₁ m₂ : Machine} (h : Idle m m₁)
    (hr : runMain budget main m₁ = some (.error e m₂)) : Idle m m₂

/-- The states of these runs between two instructions. -/
def Visits (m m' : Machine) : Prop :=
  ∃ main m₁ m₂, m.Idle m₁ ∧ load main m₁ = .ok () m₂ ∧ m₂.Reaches m'

theorem Idle.rests (h : m.Idle m') (hm : m.Rests) : m'.Rests := by
  induction h with
  | start => exact hm
  | @ended budget main v m₁ m₂ _ hr ih =>
    have hl := load_inRange main ih
    unfold runMain at hr
    cases hload : load main m₁ with
    | ok _ m₃ =>
      rw [hload] at hr
      exact (run_rests (hl.ok hload)).1 v _ hr
    | error e m₃ => rw [hload] at hr; cases hr
  | @failed budget main e m₁ m₂ _ hr ih =>
    have hl := load_inRange main ih
    unfold runMain at hr
    cases hload : load main m₁ with
    | ok _ m₃ =>
      rw [hload] at hr
      exact ((run_rests (hl.ok hload)).2 e _ hr).2
    | error e m₃ =>
      rw [hload] at hr
      cases hr
      exact (hl.error hload).2

/-- The operations that are not defined everywhere are only used where they are: looking up the kind
    of a value, taking the place of a function from the height of the stack, cutting the operands of
    a new function off the stack, and counting the cells of a code object that are not captured. -/
structure InDomain (m : Machine) : Prop where
  kinds : ∀ v ∈ m.stack.values, ∃ t, m.heap.tag? v = some t
  base : ∀ argc f, m.instr? = some (.call argc) → m.callee? argc.toNat = some f →
    argc.toNat + 1 ≤ m.stack.height
  operands : ∀ k, m.instr? = some (.makeFunction k) → m.stack.height < k.toNat + 1 →
    ∃ e m', step m = .error e m' ∧ (e = .stackUnderflow ∨ e = .corrupted)
  own : ∀ i c, m.heap.code? i = some c →
    c.free.size ≤ c.cellNames.size ∧ c.own.size = c.cellNames.size - c.free.size

theorem height_of_callee? {argc : Nat} {f : Closure} (hf : m.callee? argc = some f) :
    argc + 1 ≤ m.stack.height := by
  cases hv : m.stack.values[argc]? with
  | none => rw [callee?, hv] at hf; cases hf
  | some v =>
    rw [m.stack.height_eq]
    exact (List.getElem?_eq_some_iff.1 hv).1

/-- A function cannot be made from fewer values than it needs. -/
theorem makeFunction_refuses {k : Nat} (hk : m.stack.height < k + 1) :
    ∃ e m', makeFunction k m = .error e m' ∧ (e = .stackUnderflow ∨ e = .corrupted) := by
  have hends : Ends (makeFunction k) m (fun _ _ => False)
      fun e _ => e = .stackUnderflow ∨ e = .corrupted := by
    cases hv : m.stack.values with
    | nil =>
      obtain ⟨heap, globals, ⟨values, height, limit, hh⟩, current, callers, frameLimit⟩ := m
      cases hv
      exact Or.inl rfl
    | cons v vs =>
      refine ends_bind (ends_pop hv (ends_bind (ends_get (ends_bind ?_))))
      cases hcode : v.handle?.filter fun h => ((m.put vs).heap.code? h).isSome with
      | none => exact ends_throw (Or.inr rfl)
      | some code =>
        rw [m.stack.height_eq, hv, List.length_cons] at hk
        exact ends_pure (ends_guard (fun _ => Or.inl rfl) fun hle => absurd (Nat.lt_of_succ_lt_succ hk) hle)
  unfold Ends at hends
  split at hends
  · exact hends.elim
  · next e m' he => exact ⟨e, m', he, hends⟩

theorem InRange.inDomain (hm : m.InRange) : m.InDomain where
  kinds v hv := (hm.stack v hv).tag
  base _ _ _ hf := height_of_callee? hf
  operands k hi hk := by
    obtain ⟨e, m', he, hcause⟩ := makeFunction_refuses (m := m.past (.makeFunction k)) hk
    refine ⟨e, m', ?_, hcause⟩
    rw [step_of_instr? hi]
    change EStateM.bind (makeFunction k.toNat) _ _ = _
    rw [EStateM.bind, he]
  own i c _ := by simp [Code.cellNames]

/-- Runs one after the other on any code, with handles in range at the start, keep all handles in
    range. Each step goes on, ends the run with a value or fails as the machine may fail: no operation
    is used where it is not defined. -/
theorem visits_inRange {heap : Heap} {globals : Globals} {limits : Limits}
    (hW : World.InRange ⟨heap, globals⟩) :
    (∀ m, (Machine.start heap globals limits).Visits m →
      m.InRange ∧ m.InDomain ∧ ∀ e m', step m = .error e m' → e.Sane ∧ m'.InRange) ∧
    ∀ m, (Machine.start heap globals limits).Idle m →
      m.Rests ∧ ∀ main e m', load main m = .error e m' → e.Sane := by
  have hrest : ∀ m, (Machine.start heap globals limits).Idle m → m.Rests :=
    fun m h => h.rests ⟨hW, nofun⟩
  constructor
  · rintro m ⟨main, m₁, m₂, hidle, hload, hr⟩
    have hm := hr.inRange ((load_inRange main (hrest m₁ hidle)).ok hload)
    exact ⟨hm, hm.inDomain, fun e m' he => (step_inRange hm).error he⟩
  · exact fun m hm => ⟨hrest m hm, fun main e m' he => ((load_inRange main (hrest m hm)).error he).1⟩

/-- Code that no program compiles to: it calls a constant, a function whose cell holds a string, and
    then jumps into the middle of an instruction, where an addition lacks an operand. -/
def scrambled : Heap where
  objects := #[
    .code { Code.empty "main" 0 with
      bytes := #[0x01, 0x02, 0x0F, 0x00, 0x0B, 0x0B, 0x07, 0x00, 0x01]
      constants := #[.number 1, .object 4, .object 1] },
    .function ⟨2, #[3]⟩,
    .code { Code.empty "inner" 0 with bytes := #[0x11, 0x00, 0x10], free := #["x"] },
    .cell (.object 4),
    .string "held"]

/-- A global variable that holds the function. -/
def published : Globals := ⟨#[⟨"inner", some (.object 1)⟩]⟩

theorem scrambled_inRange : World.InRange ⟨scrambled, published⟩ where
  objects i o h := by
    rcases i with _ | _ | _ | _ | _ | i <;> cases h
    all_goals simp [Object.Below, Value.Below, scrambled, Heap.size, Code.empty]
  globals ix x v h hv := by
    rcases ix with _ | ix <;> cases h
    cases hv
    simp [Value.Below, scrambled, Heap.size]

theorem visits_inRange_scrambled :
    World.InRange ⟨scrambled, published⟩ ∧
      (∃ m, runMain 8 0 (start scrambled published .usual) = some (.error .stackUnderflow m)) ∧
      (∀ m, (start scrambled published .usual).Visits m →
        m.InRange ∧ m.InDomain ∧ ∀ e m', step m = .error e m' → e.Sane ∧ m'.InRange) ∧
      ∀ m, (start scrambled published .usual).Idle m →
        m.Rests ∧ ∀ main e m', load main m = .error e m' → e.Sane :=
  ⟨scrambled_inRange, ⟨_, rfl⟩, visits_inRange scrambled_inRange⟩

end Machine

end ByteLisp
