/-
  ByteLisp: changes of the state that actions do not notice.

  * `Tolerates E w x`: on the state changed by `w` the action `x` ends as it does without the
    change, unless it fails without it with one of the faults `E`;
  * `Machine.Overlay E c v w`: the change `w` of machines is the change `v` of their stacks, with
    other limits and bases; it makes the stack higher by `c`. There is one lemma for each action,
    up to `Overlay.fetch` and `Overlay.execute` for the instructions that depend on neither limits
    nor bases.
-/
import ByteLisp.Proofs.Machine.Lasting

namespace ByteLisp

section

variable {σ α β : Type} {E : Fault → Prop} {w : σ → σ} {x y : EStateM Fault σ α} {s : σ}

/-- Unless `x` fails in one of the given ways, `y` ends on the state changed by `w` as `x` does on the
    state itself, and the states are then related by `w` again. -/
def Alike (E : Fault → Prop) (w : σ → σ) (x y : EStateM Fault σ α) (s : σ) : Prop :=
  Ends x s (fun a s' => y (w s) = .ok a (w s')) fun e s' => E e ∨ y (w s) = .error e (w s')

/-- An action ends in the same way on the changed state, unless it fails in one of the given ways. -/
abbrev ToleratesAt (E : Fault → Prop) (w : σ → σ) (x : EStateM Fault σ α) (s : σ) : Prop := Alike E w x x s

/-- An action that tolerates a change in all states. -/
structure Tolerates (E : Fault → Prop) (w : σ → σ) (x : EStateM Fault σ α) : Prop where
  ends : ∀ s, ToleratesAt E w x s

theorem Alike.bind {f g : α → EStateM Fault σ β} (hx : Alike E w x y s)
    (hf : ∀ a s', x s = .ok a s' → Alike E w (f a) (g a) s') : Alike E w (x >>= f) (y >>= g) s := by
  have changed : (y >>= g) (w s) = EStateM.bind y g (w s) := rfl
  rw [Alike, changed, EStateM.bind]
  refine ends_bind ?_
  unfold Alike Ends at hx
  unfold Ends
  cases hs : x s with
  | ok a s' =>
    rw [hs] at hx
    simp only [hx]
    exact hf a s' hs
  | error e s' =>
    rw [hs] at hx
    exact hx.imp_right fun hx => by simp only [hx]

theorem tolerates_bind {f : α → EStateM Fault σ β} (hx : Tolerates E w x)
    (hf : ∀ a, Tolerates E w (f a)) : Tolerates E w (x >>= f) :=
  ⟨fun s => (hx.ends s).bind fun a s' _ => (hf a).ends s'⟩

theorem tolerates_pure (a : α) : Tolerates E w (pure a : EStateM Fault σ α) := ⟨fun _ => ends_pure rfl⟩

theorem tolerates_throw (e : Fault) : Tolerates E w (throw e : EStateM Fault σ α) :=
  ⟨fun _ => ends_throw (Or.inr rfl)⟩

theorem tolerates_ite {p : Prop} [Decidable p] {y : EStateM Fault σ α} (hx : Tolerates E w x)
    (hy : Tolerates E w y) : Tolerates E w (if p then x else y) := by
  split
  · exact hx
  · exact hy

/-- A guard that fails, or goes on. -/
theorem tolerates_guard {p : Prop} [Decidable p] {e : Fault} {g : Unit → EStateM Fault σ α}
    (hg : Tolerates E w (g ())) : Tolerates E w (if p then throw e >>= g else g ()) := by
  split
  · exact ⟨fun _ => ends_bind (ends_throw (Or.inr rfl))⟩
  · exact hg

/-- Guards that agree. -/
theorem alike_guard {p q : Prop} [Decidable p] [Decidable q] {e : Fault} {f g : Unit → EStateM Fault σ α}
    (hpq : p ↔ q) (hf : Alike E w (f ()) (g ()) s) :
    Alike E w (if p then throw e >>= f else f ()) (if q then throw e >>= g else g ()) s := by
  by_cases hp : p
  · rw [if_pos hp, if_pos (hpq.1 hp)]
    exact ends_bind (ends_throw (Or.inr rfl))
  · rw [if_neg hp, if_neg fun hq => hp (hpq.2 hq)]
    exact hf

theorem ToleratesAt.get {f : σ → EStateM Fault σ α} (hw : f (w s) = f s)
    (hf : ToleratesAt E w (f s) s) : ToleratesAt E w (MonadState.get >>= f) s := by
  have changed : (MonadState.get >>= f : EStateM Fault σ α) (w s) = f (w s) (w s) := rfl
  rw [ToleratesAt, Alike, changed, hw]
  exact ends_bind (ends_get hf)

theorem tolerates_get {f : σ → EStateM Fault σ α} (hw : ∀ s, f (w s) = f s)
    (hf : ∀ s, Tolerates E w (f s)) : Tolerates E w (get >>= f) :=
  ⟨fun s => .get (hw s) ((hf s).ends s)⟩

theorem tolerates_modify {g : σ → σ} (h : ∀ s, g (w s) = w (g s)) :
    Tolerates E w (modify g : EStateM Fault σ PUnit) :=
  ⟨fun s => ends_modify (congrArg _ (h s))⟩

/-- An action that looks at what `w` leaves alone and does not change the state. -/
theorem tolerates_look (h : ∀ s, (∃ a, x s = .ok a s ∧ x (w s) = .ok a (w s)) ∨
    ∃ e, x s = .error e s ∧ (E e ∨ x (w s) = .error e (w s))) : Tolerates E w x where
  ends s := by
    rcases h s with ⟨a, ha, hw⟩ | ⟨e, he, hw⟩
    · exact ends_of_ok a s ha hw
    · exact ends_of_error e s he hw

end

/-- The slot above the base that an instruction reads or writes. -/
def Instr.slot? : Instr → Option UInt8
  | .getLocal slot | .setLocal slot => some slot
  | _ => none

/-- A change of stacks that makes them higher by `c` and leaves the values on top as they are. -/
structure Stack.Overlay (E : Fault → Prop) (c : Nat) (v : Stack → Stack) : Prop where
  height (s : Stack) : (v s).height = s.height + c
  push (u : Value) : Tolerates E v (Stack.push u)
  pop : Tolerates E v Stack.pop
  peek (n : Nat) : Tolerates E v (Stack.peek n)
  drop (n : Nat) : Tolerates E v (Stack.drop n)
  take {s : Stack} {n : Nat} (hn : n ≤ s.height) : (v s).values.take n = s.values.take n
  /-- A higher stack may have enough values where there were too few. -/
  lacks : c = 0 ∨ E .stackUnderflow

namespace Native

variable {E : Fault → Prop} {c : Nat} {v : Stack → Stack}

theorem tolerates_numberArg (hv : Stack.Overlay E c v) (name : String) (n : Nat) :
    Tolerates E v (numberArg name n) := by
  refine tolerates_bind (hv.peek n) fun u => ?_
  cases u with
  | number x => exact tolerates_pure x
  | boolean b => exact tolerates_throw _
  | object h => exact tolerates_throw _

theorem tolerates_builtin (hv : Stack.Overlay E c v) {g : Native} (hg : g ∈ builtins) :
    Tolerates E v g.run := by
  have unary (name : String) (f : Float → Float) : Tolerates E v (unary name f).run :=
    tolerates_bind (tolerates_numberArg hv name 0) fun _ => hv.push _
  have binary (name : String) (f : Float → Float → Float) : Tolerates E v (binary name f).run :=
    tolerates_bind (tolerates_numberArg hv name 1) fun _ =>
      tolerates_bind (tolerates_numberArg hv name 0) fun _ => hv.push _
  simp only [builtins, List.mem_cons, List.not_mem_nil, or_false] at hg
  rcases hg with rfl | rfl | rfl | rfl
  · exact unary _ _
  · exact unary _ _
  · exact binary _ _
  · exact binary _ _

end Native

namespace Machine

/-- A change of machines that changes the stack by `v` and besides only limits and bases. -/
structure Overlay (E : Fault → Prop) (c : Nat) (v : Stack → Stack) (w : Machine → Machine) : Prop where
  values : Stack.Overlay E c v
  heap (m : Machine) : (w m).heap = m.heap
  globals (m : Machine) : (w m).globals = m.globals
  stack (m : Machine) : (w m).stack = v m.stack
  ip (m : Machine) : (w m).current.ip = m.current.ip
  code (m : Machine) : (w m).current.code = m.current.code
  cells (m : Machine) : (w m).current.cells = m.current.cells
  withHeap (m : Machine) (h : Heap) : w { m with heap := h } = { w m with heap := h }
  withGlobals (m : Machine) (g : Globals) : w { m with globals := g } = { w m with globals := g }
  withStack (m : Machine) (s : Stack) : w { m with stack := s } = { w m with stack := v s }
  withIp (m : Machine) (t : Nat) :
    w { m with current := { m.current with ip := t } } =
      { w m with current := { (w m).current with ip := t } }
  frames (m : Machine) : (m.frameLimit ≤ m.callers.size ↔ (w m).frameLimit ≤ (w m).callers.size) ∨
    E .stackOverflow ∧ ((w m).frameLimit ≤ (w m).callers.size → m.frameLimit ≤ m.callers.size)
  enter (f : Frame) (m : Machine) : Alike E w (enter f) (enter { f with base := f.base + c }) m
  ret : Tolerates E w ret

/-- Looking at a value changes nothing. -/
theorem peek_ok {n : Nat} {u : Value} {m m' : Machine} (h : peek n m = .ok u m') :
    m = m' ∧ m.stack.values[n]? = some u := by
  cases hs : m.stack.values[n]? with
  | none => simp only [peek, onStack, Stack.peek, hs] at h; cases h
  | some v => simp only [peek, onStack, Stack.peek, hs] at h; cases h; exact ⟨rfl, rfl⟩

variable {E : Fault → Prop} {c : Nat} {v : Stack → Stack} {w : Machine → Machine} {α : Type}

namespace Overlay

theorem onHeap (h : Overlay E c v w) (m : Machine) (f : Heap → Heap) :
    { w m with heap := f (w m).heap } = w { m with heap := f m.heap } := by
  rw [h.heap]
  exact (h.withHeap m _).symm

theorem onGlobals (h : Overlay E c v w) (m : Machine) (f : Globals → Globals) :
    { w m with globals := f (w m).globals } = w { m with globals := f m.globals } := by
  rw [h.globals]
  exact (h.withGlobals m _).symm

theorem alike_onStack (h : Overlay E c v w) {x y : StackOp α} {m : Machine} (hop : Alike E v x y m.stack) :
    Alike E w (Machine.onStack x) (Machine.onStack y) m := by
  unfold Alike Ends at hop ⊢
  simp only [Machine.onStack, h.stack]
  cases hm : x m.stack with
  | ok a s =>
    rw [hm] at hop
    simp only [hop]
    exact congrArg _ (h.withStack m s).symm
  | error e s =>
    rw [hm] at hop
    exact hop.imp_right fun hop => by
      simp only [hop]
      exact congrArg _ (h.withStack m s).symm

theorem onStack (h : Overlay E c v w) {op : StackOp α} (hop : Tolerates E v op) :
    Tolerates E w (Machine.onStack op) := ⟨fun m => h.alike_onStack (hop.ends m.stack)⟩

theorem push (h : Overlay E c v w) (u : Value) : Tolerates E w (push u) := h.onStack (h.values.push u)

theorem pop (h : Overlay E c v w) : Tolerates E w pop := h.onStack h.values.pop

theorem peek (h : Overlay E c v w) (n : Nat) : Tolerates E w (peek n) := h.onStack (h.values.peek n)

theorem drop (h : Overlay E c v w) (n : Nat) : Tolerates E w (Machine.onStack (Stack.drop n)) :=
  h.onStack (h.values.drop n)

theorem alloc (h : Overlay E c v w) (o : Object) : Tolerates E w (alloc o) where
  ends m := by
    refine ends_of_ok m.heap.size { m with heap := m.heap.alloc o } rfl ?_
    rw [← h.onHeap m (Heap.alloc · o), Machine.alloc, h.heap]

theorem allocCells (h : Overlay E c v w) (cells : Array Handle) (n : Nat) :
    Tolerates E w (allocCells cells n) := by
  induction n generalizing cells with
  | zero => exact tolerates_pure _
  | succ n ih => exact tolerates_bind (h.alloc _) fun _ => ih _

theorem expect (o : Option α) : Tolerates E w (expect o) := by
  cases o with
  | none => exact tolerates_throw _
  | some a => exact tolerates_pure a

theorem codeAt (h : Overlay E c v w) (i : Handle) : Tolerates E w (codeAt i) := tolerates_look fun m => by
  cases hc : m.heap.code? i with
  | none =>
    exact Or.inr ⟨.corrupted, by simp only [Machine.codeAt, hc],
      Or.inr (by simp only [Machine.codeAt, h.heap, hc])⟩
  | some c => exact Or.inl ⟨c, by simp only [Machine.codeAt, hc], by simp only [Machine.codeAt, h.heap, hc]⟩

theorem cellAt (h : Overlay E c v w) (ix : UInt8) : Tolerates E w (cellAt ix) := tolerates_look fun m => by
  cases hc : m.current.cells[ix.toNat]? with
  | none =>
    exact Or.inr ⟨.corrupted, by simp only [Machine.cellAt, hc],
      Or.inr (by simp only [Machine.cellAt, h.cells, hc])⟩
  | some c => exact Or.inl ⟨c, by simp only [Machine.cellAt, hc], by simp only [Machine.cellAt, h.cells, hc]⟩

theorem tagOf (h : Overlay E c v w) (u : Value) : Tolerates E w (tagOf u) := tolerates_look fun m => by
  cases u with
  | number x => exact Or.inl ⟨.number, rfl, rfl⟩
  | boolean b => exact Or.inl ⟨.boolean, rfl, rfl⟩
  | object i =>
    cases ht : m.heap.tag? (.object i) with
    | some t => exact Or.inl ⟨t, by simp only [Machine.tagOf, ht], by simp only [Machine.tagOf, h.heap, ht]⟩
    | none =>
      exact Or.inr ⟨.dangling i, by simp only [Machine.tagOf, ht],
        Or.inr (by simp only [Machine.tagOf, h.heap, ht])⟩

theorem typeFault (h : Overlay E c v w) (op : Op) (expected : Tag) (u : Value) :
    Tolerates E w (typeFault op expected u : Run α) :=
  tolerates_bind (h.tagOf u) fun _ => tolerates_throw _

theorem textOf (h : Overlay E c v w) (u : Value) : Tolerates E w (textOf u) :=
  tolerates_look fun m => Or.inl ⟨_, rfl, by simp only [Machine.textOf, h.heap]⟩

theorem goto (h : Overlay E c v w) (t : Nat) : Tolerates E w (goto t) :=
  tolerates_modify fun m => (h.withIp m t).symm

theorem arithmetic (h : Overlay E c v w) (op : Op) (f : Float → Float → Float) :
    Tolerates E w (arithmetic op f) := by
  refine tolerates_bind h.pop fun y => tolerates_bind h.pop fun x => ?_
  split
  · exact h.push _
  · exact h.typeFault ..
  · exact h.typeFault ..

/-- Both operands must be strings. -/
theorem texts (h : Overlay E c v w) {o : Op} {g : String → String → Run Unit} {x y : Value}
    (hg : ∀ s t, Tolerates E w (g s t)) :
    Tolerates E w (do
      match ← Machine.textOf x, ← Machine.textOf y with
      | some s, some t => g s t
      | some _, none => Machine.typeFault o .string y
      | none, _ =>
        match x with
        | .number _ => Machine.typeFault o .number y
        | _ => Machine.typeFault o .number x) := by
  refine tolerates_bind (h.textOf x) fun _ => tolerates_bind (h.textOf y) fun _ => ?_
  split
  · exact hg _ _
  · exact h.typeFault ..
  · split <;> exact h.typeFault ..

theorem add (h : Overlay E c v w) : Tolerates E w add := by
  refine tolerates_bind h.pop fun y => tolerates_bind h.pop fun x => ?_
  split
  · exact h.push _
  · exact h.texts fun s t => tolerates_bind (h.alloc _) fun _ => h.push _

theorem compare (h : Overlay E c v w) (cmp : Comparison) : Tolerates E w (compare cmp) := by
  refine tolerates_bind h.pop fun y => tolerates_bind h.pop fun x => ?_
  split
  · exact h.push _
  · exact tolerates_ite (h.push _) (h.typeFault ..)
  · exact h.typeFault ..
  · exact h.texts fun s t => h.push _

/-! ## Calls -/

/-- Actions that begin with the height of the stack. -/
theorem height {f g : Nat → Run α} {m : Machine} (h : Overlay E c v w)
    (hf : Alike E w (f m.stack.height) (g (m.stack.height + c)) m) :
    Alike E w (Machine.height >>= f) (Machine.height >>= g) m := by
  have changed : (Machine.height >>= g) (w m) = g (w m).stack.height (w m) := rfl
  rw [Alike, changed, h.stack, h.values.height]
  exact hf

/-- A native function is judged by how much higher the stack gets. -/
theorem callNative (h : Overlay E c v w) {g : Native} (hg : g ∈ Native.builtins) (argc : Nat) :
    Tolerates E w (callNative g argc) := by
  unfold Machine.callNative
  refine tolerates_guard ⟨fun m => h.height ?_⟩
  refine ((h.onStack (Native.tolerates_builtin h.values hg)).ends m).bind fun _ m' _ => h.height ?_
  have same : m'.stack.height ≠ m.stack.height + 1 ↔ m'.stack.height + c ≠ m.stack.height + c + 1 := by
    omega
  refine alike_guard same ?_
  exact (tolerates_bind h.pop fun _ => tolerates_bind (h.drop _) fun _ => h.push _).ends m'

/-- The limit of calls is looked at here only. -/
theorem limit (h : Overlay E c v w) {f : Unit → Run α} {m : Machine} (hf : ToleratesAt E w (f ()) m) :
    ToleratesAt E w
      (do let m ← get; if m.frameLimit ≤ m.callers.size then throw .stackOverflow >>= f else f ()) m := by
  have changed : ∀ F : Machine → Run α, ((get : Run Machine) >>= F) (w m) = F (w m) (w m) := fun _ => rfl
  rw [ToleratesAt, Alike, changed]
  rcases h.frames m with hl | ⟨he, hl⟩
  · exact ends_bind (ends_get (alike_guard hl hf))
  · refine ends_bind (ends_get (ends_guard (fun _ => Or.inl he) fun hm => ?_))
    rw [if_neg fun hw => hm (hl hw)]
    exact hf

theorem callFunction (h : Overlay E c v w) (f : Closure) {argc : Nat} {m : Machine}
    (ha : argc < m.stack.height) : ToleratesAt E w (callFunction f argc) m := by
  have tail (code : Code) : ToleratesAt E w (do
      let cells ← Machine.allocCells f.cells code.own.size
      Machine.enter ⟨0, (← Machine.height) - argc - 1, f.code, cells⟩) m := by
    refine ((h.allocCells ..).ends m).bind fun cells m' hm => h.height ?_
    rw [allocCells_eq] at hm
    cases hm
    have base : m.stack.height + c - argc - 1 = m.stack.height - argc - 1 + c := by omega
    rw [base]
    exact h.enter _ _
  refine ((h.codeAt _).ends m).bind fun code m' hc => ?_
  obtain rfl : m = m' := by
    unfold Machine.codeAt at hc
    split at hc <;> cases hc
    rfl
  exact alike_guard Iff.rfl (h.limit (tail code))

/-- Which function is called depends on the heap, so all natives that may be called matter. -/
theorem call (h : Overlay E c v w) {m : Machine} {argc : Nat}
    (hn : ∀ u g, m.stack.values[argc]? = some u → u.handle?.bind m.heap.get? = some (.native g) →
      g ∈ Native.builtins) : ToleratesAt E w (call argc) m := by
  refine ((h.peek argc).ends m).bind fun u m' hp => ?_
  obtain ⟨rfl, hu⟩ := peek_ok hp
  have ha : argc < m.stack.height := m.stack.height_eq ▸ (List.getElem?_eq_some_iff.1 hu).1
  refine ToleratesAt.get (by rw [h.heap]) ?_
  split
  · next g hg => exact (h.callNative (hn u g hu hg) argc).ends m
  · exact h.callFunction _ ha
  · exact (tolerates_bind (h.tagOf u) fun _ => tolerates_throw _).ends m

theorem makeFunction (h : Overlay E c v w) (n : Nat) : Tolerates E w (makeFunction n) := by
  refine tolerates_bind h.pop fun top => ⟨fun m => ?_⟩
  have changed : ∀ f : Machine → Run Unit, ((get : Run Machine) >>= f) (w m) = f (w m) (w m) := fun _ => rfl
  rw [ToleratesAt, Alike, changed, h.heap, h.stack, h.values.height]
  refine ends_bind (ends_get (((expect _).ends m).bind fun code m' _ => ?_))
  by_cases hn : m.stack.height < n
  · rw [if_pos hn]
    rcases h.values.lacks with rfl | he
    · rw [if_pos (by omega)]
      exact ends_bind (ends_throw (Or.inr rfl))
    · exact ends_bind (ends_throw (Or.inl he))
  · rw [if_neg hn, if_neg (by omega), h.values.take (Nat.le_of_not_lt hn)]
    exact (tolerates_bind (expect _) fun _ => tolerates_bind (h.drop _) fun _ =>
      tolerates_bind (h.alloc _) fun _ => h.push _).ends m'

/-! ## Instructions -/

theorem execute (h : Overlay E c v w) {i : Instr} (hh : i ≠ .halt) (hc : ∀ n, i ≠ .call n)
    (hs : i.slot? = none) : Tolerates E w (execute i) := by
  have last {x : Run Unit} (hx : Tolerates E w x) :
      Tolerates E w (do x; pure none : Run (Option Value)) := tolerates_bind hx fun _ => tolerates_pure _
  cases i with
  | halt => exact absurd rfl hh
  | call n => exact absurd rfl (hc n)
  | getLocal slot | setLocal slot => cases hs
  | const ix =>
    exact tolerates_get (fun _ => by rw [h.code]) fun _ => tolerates_bind (h.codeAt _) fun _ =>
      tolerates_bind (expect _) fun _ => last (h.push _)
  | add => exact last h.add
  | sub | mul | div => exact last (h.arithmetic ..)
  | cmp code =>
    simp only [Machine.execute]
    split
    · exact last (h.compare _)
    · exact tolerates_bind (tolerates_throw _) fun _ => tolerates_pure _
  | jump t => exact last (h.goto _)
  | jumpIfFalse t =>
    refine tolerates_bind h.pop fun u => ?_
    split
    · exact tolerates_pure _
    · exact last (h.goto _)
    · exact last (h.typeFault ..)
  | getGlobal ix =>
    refine tolerates_get (fun _ => by rw [h.globals]) fun _ => tolerates_bind (expect _) fun x => ?_
    split
    · exact last (h.push _)
    · exact tolerates_bind (tolerates_throw _) fun _ => tolerates_pure _
  | setGlobal ix =>
    exact tolerates_bind (h.peek _) fun u => tolerates_get (fun _ => by rw [h.globals]) fun _ =>
      tolerates_guard (last (tolerates_modify fun m => h.onGlobals m (Globals.set · ix.toNat u)))
  | pop => exact tolerates_bind h.pop fun _ => tolerates_pure _
  | scopeExit n =>
    exact tolerates_ite (tolerates_bind h.pop fun _ => tolerates_bind (h.drop _) fun _ => last (h.push _))
      (tolerates_pure _)
  | ret => exact last h.ret
  | getCell ix =>
    exact tolerates_bind (h.cellAt _) fun _ => tolerates_get (fun _ => by rw [h.heap]) fun _ =>
      tolerates_bind (expect _) fun _ => last (h.push _)
  | setCell ix =>
    exact tolerates_bind (h.cellAt _) fun i => tolerates_bind (h.peek _) fun u =>
      tolerates_get (fun _ => by rw [h.heap]) fun _ => tolerates_bind (expect _) fun _ =>
        last (tolerates_modify fun m => h.onHeap m (Heap.setCell · i u))
  | loadCell ix => exact tolerates_bind (h.cellAt _) fun _ => last (h.push _)
  | makeFunction n => exact last (h.makeFunction _)

/-! ## Reading code -/

theorem readByte (h : Overlay E c v w) : Tolerates E w readByte :=
  tolerates_get (fun _ => by rw [h.code, h.ip]) fun _ => tolerates_bind (h.codeAt _) fun _ =>
    tolerates_bind (expect _) fun _ => tolerates_bind (h.goto _) fun _ => tolerates_pure _

theorem readWord (h : Overlay E c v w) : Tolerates E w readWord :=
  tolerates_get (fun _ => by rw [h.code, h.ip]) fun _ => tolerates_bind (h.codeAt _) fun _ =>
    tolerates_bind (expect _) fun _ => tolerates_bind (h.goto _) fun _ => tolerates_pure _

theorem readOp (h : Overlay E c v w) : Tolerates E w readOp := by
  refine tolerates_get (fun _ => by rw [h.ip]) fun _ => tolerates_bind h.readByte fun b => ?_
  split
  · exact tolerates_pure _
  · exact tolerates_throw _

theorem readOperand (h : Overlay E c v w) (op : Op) : Tolerates E w (readOperand op) := by
  have byte (make : UInt8 → Instr) : Tolerates E w (make <$> Machine.readByte) :=
    tolerates_bind h.readByte fun _ => tolerates_pure _
  have word (make : UInt16 → Instr) : Tolerates E w (make <$> Machine.readWord) :=
    tolerates_bind h.readWord fun _ => tolerates_pure _
  cases op with
  | halt | add | sub | mul | div | pop | ret => exact tolerates_pure _
  | jump | jumpIfFalse => exact word _
  | _ => exact byte _

theorem fetch (h : Overlay E c v w) : Tolerates E w fetch :=
  tolerates_bind h.readOp fun _ => h.readOperand _

/-- A step ends alike if its instruction does. -/
theorem step (h : Overlay E c v w) {m : Machine}
    (hi : ∀ i, m.instr? = some i → ToleratesAt E w (Machine.execute i) (m.past i)) :
    ToleratesAt E w step m := by
  refine (h.fetch.ends m).bind fun i m' hf => ?_
  cases hj : m.instr? with
  | none =>
    obtain ⟨e, n, he, -⟩ := fetch_of_none hj
    cases hf.symm.trans he
  | some j =>
    cases hf.symm.trans (fetch_of_instr? hj)
    exact hi i hj

end Overlay

/-! ## Runs -/

/-- The next instruction calls no native functions but built-in ones. -/
def CallsBuiltins (m : Machine) : Prop :=
  ∀ argc u g, m.instr? = some (.call argc) → m.stack.values[argc.toNat]? = some u →
    u.handle?.bind m.heap.get? = some (.native g) → g ∈ Native.builtins

/-- The ending of a run with the machine changed. -/
def Ending.changed (w : Machine → Machine) : Ending → Ending
  | .ok v m => .ok v (w m)
  | .error e m => .error e (w m)

/-- A run fails in one of the given ways. -/
def Ending.Fails (E : Fault → Prop) : Ending → Prop
  | .ok _ _ => False
  | .error e _ => E e

/-- How a run ends, apart from the machine: with a value or a fault, and the heap and the global
    variables as they then are. -/
def Ending.report : Ending → Except Fault Value × World
  | .ok v m => (.ok v, m.world)
  | .error e m => (.error e, m.world)

theorem Ending.report_changed (h : Overlay E c v w) (e : Ending) : (e.changed w).report = e.report := by
  cases e with
  | ok u m => rw [changed, report, report, world, h.heap, h.globals]
  | error f m => rw [changed, report, report, world, h.heap, h.globals]

/-- A run ends alike, or not at all, if each of its steps does, unless it fails in one of the given
    ways. -/
theorem run_alike {P : Machine → Prop} (hs : ∀ m, P m → ToleratesAt E w step m)
    (hP : ∀ m, P m → Ends step m (fun o m' => o = none → P m') fun _ _ => True) {budget : Nat} {m : Machine}
    (hm : P m) (he : ∀ e, run budget m = some e → ¬ e.Fails E) :
    run budget (w m) = (run budget m).map (Ending.changed w) := by
  induction budget generalizing m with
  | zero => rfl
  | succ budget ih =>
    have hstep := hs m hm
    rw [run] at he ⊢
    rw [run]
    cases hr : step m with
    | error f m' =>
      rw [hr] at he
      rw [(Ends.error hstep hr).resolve_left (he _ rfl)]
      rfl
    | ok o m' =>
      rw [hr] at he
      rw [Ends.ok hstep hr]
      cases o with
      | none => exact ih ((hP m hm).ok hr rfl) he
      | some u => rfl

end Machine

end ByteLisp
