/-
  ByteLisp: what single operations of the machine leave as it is.

  Most operations only work on the stack, allocate objects, put values into cells
  and assign global variables. What such changes keep is the same for all of them.

  * `Machine.Lasting`: a relation between an earlier and a later state that holds
    after each of these changes;
  * `Machine.Keeping`: an action keeps it, whether it succeeds or fails; there is
    one lemma for each action, up to `keeping_execute` for the instructions that
    neither jump nor call nor return;
  * `Machine.calling` and `Machine.opening` are the states in which functions and
    programs start;
  * `Machine.Advances`: what a step does on any code, as `ends_step` says.
-/
import ByteLisp.Proofs.Machine.Safety

namespace ByteLisp

/-- The objects that programs allocate. -/
def Object.Made : Object → Prop
  | .string _ | .function _ | .cell _ => True
  | .code _ | .native _ => False

/-- A fault of an instruction that has been read. -/
def Fault.Raised : Fault → Prop
  | unknownOpcode _ _ => False
  | _ => True

theorem Fault.raised_of_call {e : Fault} (h : e.Expected ∨ e = .corrupted) : e.Raised := by
  rcases h with h | rfl
  · cases e <;> trivial
  · trivial

namespace Stack

variable {e : Fault} {s s' : Stack} {v : Value} {n : Nat}

theorem push_error (h : push v s = .error e s') : e.Raised := by
  unfold push at h
  split at h <;> cases h
  trivial

theorem pop_error (h : pop s = .error e s') : e.Raised := by
  unfold pop at h
  split at h <;> cases h
  trivial

theorem peek_error (h : peek n s = .error e s') : e.Raised := by
  unfold peek at h
  split at h <;> cases h
  trivial

theorem drop_error (h : drop n s = .error e s') : e.Raised := by
  unfold drop at h
  split at h <;> cases h
  trivial

theorem get_error (h : get n s = .error e s') : e.Raised := by
  unfold get at h
  split at h
  · split at h <;> cases h
    trivial
  · cases h
    trivial

theorem set_error (h : set n v s = .error e s') : e.Raised := by
  unfold set at h
  split at h <;> cases h
  trivial

end Stack

namespace Machine

/-- A relation between an earlier and a later state that changes of the stack, new objects, values
    put into cells and values of global variables keep, and the faults that may interrupt them. -/
structure Lasting (R : Machine → Machine → Prop) (F : Fault → Prop) : Prop where
  raised (e : Fault) (he : e.Raised) : F e
  refl (m : Machine) : R m m
  trans {m₁ m₂ m₃ : Machine} : R m₁ m₂ → R m₂ m₃ → R m₁ m₃
  stack (m : Machine) (s : Stack) : R m { m with stack := s }
  alloc (m : Machine) {o : Object} (ho : o.Made) : R m { m with heap := m.heap.alloc o }
  setCell (m : Machine) {i : Handle} (v : Value) (hi : m.heap.IsCell i) :
    R m { m with heap := m.heap.setCell i v }
  setGlobal (m : Machine) (ix : Nat) (v : Value) : R m { m with globals := m.globals.set ix v }

/-- An action that keeps a relation between states. -/
structure Keeping {α : Type} (R : Machine → Machine → Prop) (F : Fault → Prop) (x : Run α) : Prop where
  ends : ∀ m : Machine, Ends x m (fun _ m' => R m m') fun e m' => F e ∧ R m m'

/-- Native functions on the heap only fail with the given faults. -/
def NativesRaise (F : Fault → Prop) (m : Machine) : Prop :=
  ∀ i n, m.heap.get? i = some (.native n) → ∀ s e s', n.run s = .error e s' → F e

section

variable {R : Machine → Machine → Prop} {F : Fault → Prop} {α β : Type} {x : Run α}

theorem keeping_bind (hR : Lasting R F) {f : α → Run β} (hx : Keeping R F x) (hf : ∀ a, Keeping R F (f a)) :
    Keeping R F (x >>= f) where
  ends m := ends_bind ((hx.ends m).mono
    (fun a m' h => ((hf a).ends m').mono (fun _ _ h' => hR.trans h h') fun _ _ h' => ⟨h'.1, hR.trans h h'.2⟩)
    fun _ _ h => h)

theorem keeping_pure (hR : Lasting R F) (a : α) : Keeping R F (pure a : Run α) :=
  ⟨fun m => ends_pure (hR.refl m)⟩

theorem keeping_throw (hR : Lasting R F) (e : Fault) (he : e.Raised) : Keeping R F (throw e : Run α) :=
  ⟨fun m => ends_throw ⟨hR.raised e he, hR.refl m⟩⟩

theorem keeping_ite {p : Prop} [Decidable p] {y : Run α} (hx : Keeping R F x) (hy : Keeping R F y) :
    Keeping R F (if p then x else y) := by
  split
  · exact hx
  · exact hy

/-- A guard that fails, or goes on. -/
theorem keeping_guard (hR : Lasting R F) {p : Prop} [Decidable p] {e : Fault} {g : Unit → Run α}
    (he : e.Raised) (h : Keeping R F (g ())) : Keeping R F (if p then throw e >>= g else g ()) :=
  ⟨fun m => ends_guard (fun _ => ⟨hR.raised e he, hR.refl m⟩) fun _ => h.ends m⟩

theorem keeping_get (hR : Lasting R F) : Keeping R F (get : Run Machine) := ⟨fun m => ends_get (hR.refl m)⟩

theorem keeping_modify {f : Machine → Machine} (h : ∀ m : Machine, R m (f m)) :
    Keeping R F (modify f : Run PUnit) := ⟨fun m => ends_modify (h m)⟩

/-- An action that only looks at the state. -/
theorem keeping_look (hR : Lasting R F) (h : ∀ m, (∃ a, x m = .ok a m) ∨ ∃ e, e.Raised ∧ x m = .error e m) :
    Keeping R F x where
  ends m := by
    rcases h m with ⟨a, ha⟩ | ⟨e, he, hx⟩
    · exact ends_of_ok a m ha (hR.refl m)
    · exact ends_of_error e m hx ⟨hR.raised e he, hR.refl m⟩

theorem keeping_onStack (hR : Lasting R F) {op : StackOp α}
    (h : ∀ s e s', op s = .error e s' → F e) : Keeping R F (onStack op) where
  ends m := by
    unfold Ends onStack
    cases ho : op m.stack with
    | ok a s => exact hR.stack m s
    | error e s => exact ⟨h _ _ _ ho, hR.stack m s⟩

theorem keeping_push (hR : Lasting R F) (v : Value) : Keeping R F (push v) :=
  keeping_onStack hR fun _ _ _ h => hR.raised _ (Stack.push_error h)

theorem keeping_pop (hR : Lasting R F) : Keeping R F pop :=
  keeping_onStack hR fun _ _ _ h => hR.raised _ (Stack.pop_error h)

theorem keeping_peek (hR : Lasting R F) (n : Nat) : Keeping R F (peek n) :=
  keeping_onStack hR fun _ _ _ h => hR.raised _ (Stack.peek_error h)

theorem keeping_drop (hR : Lasting R F) (n : Nat) : Keeping R F (onStack (Stack.drop n)) :=
  keeping_onStack hR fun _ _ _ h => hR.raised _ (Stack.drop_error h)

theorem keeping_getLocal (hR : Lasting R F) (ix : Nat) : Keeping R F (onStack (Stack.get ix)) :=
  keeping_onStack hR fun _ _ _ h => hR.raised _ (Stack.get_error h)

theorem keeping_setLocal (hR : Lasting R F) (ix : Nat) (v : Value) :
    Keeping R F (onStack (Stack.set ix v)) :=
  keeping_onStack hR fun _ _ _ h => hR.raised _ (Stack.set_error h)

theorem keeping_height (hR : Lasting R F) : Keeping R F height := keeping_look hR fun _ => Or.inl ⟨_, rfl⟩

theorem keeping_alloc (hR : Lasting R F) {o : Object} (ho : o.Made) : Keeping R F (alloc o) :=
  ⟨fun m => ends_alloc (hR.alloc m ho)⟩

theorem keeping_expect (hR : Lasting R F) (o : Option α) : Keeping R F (expect o) := by
  cases o with
  | none => exact keeping_throw hR _ trivial
  | some a => exact keeping_pure hR a

theorem keeping_codeAt (hR : Lasting R F) (h : Handle) : Keeping R F (codeAt h) := keeping_look hR fun m => by
  unfold codeAt
  split
  · exact Or.inl ⟨_, rfl⟩
  · exact Or.inr ⟨.corrupted, trivial, rfl⟩

theorem keeping_cellAt (hR : Lasting R F) (ix : UInt8) :
    Keeping R F (cellAt ix) := keeping_look hR fun m => by
  unfold cellAt
  split
  · exact Or.inl ⟨_, rfl⟩
  · exact Or.inr ⟨.corrupted, trivial, rfl⟩

theorem keeping_tagOf (hR : Lasting R F) (v : Value) : Keeping R F (tagOf v) := keeping_look hR fun m => by
  unfold tagOf
  split
  · exact Or.inl ⟨_, rfl⟩
  · exact Or.inr ⟨.dangling _, trivial, rfl⟩
  · exact Or.inr ⟨.corrupted, trivial, rfl⟩

theorem keeping_typeFault (hR : Lasting R F) (op : Op) (expected : Tag) (v : Value) :
    Keeping R F (typeFault op expected v : Run α) :=
  keeping_bind hR (keeping_tagOf hR v) fun _ => keeping_throw hR _ trivial

theorem keeping_textOf (hR : Lasting R F) (v : Value) : Keeping R F (textOf v) :=
  keeping_look hR fun _ => Or.inl ⟨_, rfl⟩

theorem keeping_allocCells (hR : Lasting R F) (cells : Array Handle) (n : Nat) :
    Keeping R F (allocCells cells n) := by
  induction n generalizing cells with
  | zero => exact keeping_pure hR _
  | succ n ih => exact keeping_bind hR (keeping_alloc hR trivial) fun _ => ih _

/-- Both operands must be strings. -/
theorem keeping_texts (hR : Lasting R F) {o : Op} {g : String → String → Run Unit} {x y : Value}
    (h : ∀ s t, Keeping R F (g s t)) :
    Keeping R F (do
      match ← textOf x, ← textOf y with
      | some s, some t => g s t
      | some _, none => typeFault o .string y
      | none, _ =>
        match x with
        | .number _ => typeFault o .number y
        | _ => typeFault o .number x) := by
  refine keeping_bind hR (keeping_textOf hR x) fun _ => keeping_bind hR (keeping_textOf hR y) fun _ => ?_
  split
  · exact h _ _
  · exact keeping_typeFault hR ..
  · split <;> exact keeping_typeFault hR ..

theorem keeping_arithmetic (hR : Lasting R F) (op : Op) (g : Float → Float → Float) :
    Keeping R F (arithmetic op g) := by
  refine keeping_bind hR (keeping_pop hR) fun y => keeping_bind hR (keeping_pop hR) fun x => ?_
  split
  · exact keeping_push hR _
  · exact keeping_typeFault hR ..
  · exact keeping_typeFault hR ..

theorem keeping_add (hR : Lasting R F) : Keeping R F add := by
  refine keeping_bind hR (keeping_pop hR) fun y => keeping_bind hR (keeping_pop hR) fun x => ?_
  split
  · exact keeping_push hR _
  · exact keeping_texts hR fun s t => keeping_bind hR (keeping_alloc hR trivial) fun _ => keeping_push hR _

theorem keeping_compare (hR : Lasting R F) (c : Comparison) : Keeping R F (compare c) := by
  refine keeping_bind hR (keeping_pop hR) fun y => keeping_bind hR (keeping_pop hR) fun x => ?_
  split
  · exact keeping_push hR _
  · exact keeping_ite (keeping_push hR _) (keeping_typeFault hR ..)
  · exact keeping_typeFault hR ..
  · exact keeping_texts hR fun s t => keeping_push hR _

theorem keeping_callNative (hR : Lasting R F) {g : Native} (argc : Nat)
    (hg : ∀ s e s', g.run s = .error e s' → F e) : Keeping R F (callNative g argc) := by
  unfold callNative
  refine keeping_guard hR trivial (keeping_bind hR (keeping_height hR) fun _ =>
    keeping_bind hR (keeping_onStack hR hg) fun _ => keeping_bind hR (keeping_height hR) fun _ =>
      keeping_guard hR trivial ?_)
  exact keeping_bind hR (keeping_pop hR) fun _ => keeping_bind hR (keeping_drop hR _) fun _ =>
    keeping_push hR _

theorem keeping_makeFunction (hR : Lasting R F) (n : Nat) : Keeping R F (makeFunction n) := by
  refine keeping_bind hR (keeping_pop hR) fun _ => keeping_bind hR (keeping_get hR) fun _ =>
    keeping_bind hR (keeping_expect hR _) fun _ => keeping_guard hR trivial (keeping_bind hR
      (keeping_expect hR _) fun _ => ?_)
  exact keeping_bind hR (keeping_drop hR _) fun _ => keeping_bind hR (keeping_alloc hR trivial) fun _ =>
    keeping_push hR _

theorem keeping_setCell (hR : Lasting R F) (ix : UInt8) : Keeping R F (execute (.setCell ix)) := by
  refine keeping_bind hR (keeping_cellAt hR ix) fun i =>
    keeping_bind hR (keeping_peek hR 0) fun v => ⟨fun m => ?_⟩
  refine ends_bind (ends_get ?_)
  cases hi : m.heap.cell? i with
  | none => exact ends_bind (ends_throw ⟨hR.raised _ trivial, hR.refl m⟩)
  | some u =>
    exact ends_bind (ends_pure (ends_bind (ends_modify (ends_pure (hR.setCell m v ⟨u, hi⟩)))))

/-- Calling what is no function of the program, by kind. -/
theorem ends_call_keeping (hR : Lasting R F) {m : Machine} {argc : Nat} (hn : m.callee? argc = none)
    (hm : m.NativesRaise F) : Ends (call argc) m (fun _ m' => R m m') fun e m' => F e ∧ R m m' := by
  unfold callee? at hn
  cases hv : m.stack.values[argc]? with
  | none =>
    refine ends_bind (ends_of_error .stackUnderflow m ?_ ⟨hR.raised _ trivial, hR.refl m⟩)
    rw [peek, onStack, Stack.peek, hv]
  | some v =>
    rw [hv, Option.bind_some] at hn
    refine ends_bind (ends_peek hv (ends_bind (ends_get ?_)))
    split
    · next n hn =>
      obtain ⟨i, -, hi⟩ := Option.bind_eq_some_iff.1 hn
      exact (keeping_callNative hR _ (hm i n hi)).ends m
    · next hf => rw [hf] at hn; cases hn
    · exact (keeping_bind hR (keeping_tagOf hR v) fun t => keeping_throw hR (.notCallable t) trivial).ends m

/-- Instructions that neither jump nor call nor return. -/
theorem keeping_execute (hR : Lasting R F) {i : Instr} (hj : i.address? = none) (hr : i ≠ .ret)
    (hc : ∀ n, i ≠ .call n) : Keeping R F (execute i) := by
  have seq {x : Run Unit} (hx : Keeping R F x) :
      Keeping R F (do x; pure none : Run (Option Value)) := keeping_bind hR hx fun _ => keeping_pure hR _
  cases i with
  | ret => exact absurd rfl hr
  | call n => exact absurd rfl (hc n)
  | jump t | jumpIfFalse t => cases hj
  | halt =>
    refine keeping_bind hR (keeping_bind hR (keeping_height hR) fun _ => ?_) fun _ => keeping_pure hR _
    exact keeping_ite (keeping_pop hR) (keeping_pure hR _)
  | const ix =>
    exact keeping_bind hR (keeping_get hR) fun _ => keeping_bind hR (keeping_codeAt hR _) fun _ =>
      keeping_bind hR (keeping_expect hR _) fun _ => seq (keeping_push hR _)
  | add => exact seq (keeping_add hR)
  | sub | mul | div => exact seq (keeping_arithmetic hR ..)
  | cmp code =>
    simp only [execute]
    split
    · exact seq (keeping_compare hR _)
    · exact keeping_bind hR (keeping_throw hR _ trivial) fun _ => keeping_pure hR _
  | getGlobal ix =>
    refine keeping_bind hR (keeping_get hR) fun _ => keeping_bind hR (keeping_expect hR _) fun x => ?_
    split
    · exact seq (keeping_push hR _)
    · exact keeping_bind hR (keeping_throw hR _ trivial) fun _ => keeping_pure hR _
  | setGlobal ix =>
    exact keeping_bind hR (keeping_peek hR _) fun v => keeping_bind hR (keeping_get hR) fun _ =>
      keeping_guard hR trivial (seq (keeping_modify fun m => hR.setGlobal m _ v))
  | pop => exact keeping_bind hR (keeping_pop hR) fun _ => keeping_pure hR _
  | getLocal slot =>
    exact keeping_bind hR (keeping_get hR) fun _ => keeping_bind hR (keeping_getLocal hR _) fun _ =>
      seq (keeping_push hR _)
  | setLocal slot =>
    exact keeping_bind hR (keeping_peek hR _) fun _ => keeping_bind hR (keeping_get hR) fun _ =>
      seq (keeping_setLocal hR ..)
  | scopeExit n =>
    refine keeping_ite (keeping_bind hR (keeping_pop hR) fun _ =>
      keeping_bind hR (keeping_drop hR _) fun _ => seq (keeping_push hR _)) (keeping_pure hR _)
  | getCell ix =>
    exact keeping_bind hR (keeping_cellAt hR _) fun _ => keeping_bind hR (keeping_get hR) fun _ =>
      keeping_bind hR (keeping_expect hR _) fun _ => seq (keeping_push hR _)
  | setCell ix => exact keeping_setCell hR ix
  | loadCell ix => exact keeping_bind hR (keeping_cellAt hR _) fun _ => seq (keeping_push hR _)
  | makeFunction n => exact seq (keeping_makeFunction hR _)

end

/-! ## Calls -/

end Machine

/-- The heap with some more cells, which hold `false`. -/
def Heap.addCells (h : Heap) (n : Nat) : Heap := ⟨h.objects ++ Array.replicate n (.cell (.boolean false))⟩

theorem Heap.addCells_succ (h : Heap) (n : Nat) :
    h.addCells (n + 1) = (h.addCells n).alloc (.cell (.boolean false)) := by
  simp [addCells, alloc, Array.replicate_succ]

theorem Heap.get?_addCells_of_some {h : Heap} {i : Handle} {o : Object} (n : Nat)
    (ho : h.get? i = some o) : (h.addCells n).get? i = some o := by
  rw [get?, addCells, Array.getElem?_append_left (Array.getElem?_eq_some_iff.1 ho).1]
  exact ho

theorem Heap.cell?_addCells {h : Heap} {n k : Nat} (hk : k < n) :
    (h.addCells n).cell? (h.size + k) = some (.boolean false) := by
  rw [cell?_eq_some, get?, addCells, size, Array.getElem?_append_right (Nat.le_add_right ..),
    Nat.add_sub_cancel_left, Array.getElem?_replicate, if_pos hk]

theorem World.leads_addCells (W : World) (n : Nat) : W.Leads ⟨W.heap.addCells n, W.globals⟩ := by
  induction n with
  | zero => simpa [Heap.addCells] using Leads.refl W
  | succ n ih => exact Heap.addCells_succ .. ▸ ih.trans (World.leads_alloc ⟨W.heap.addCells n, W.globals⟩ _)

namespace Machine

variable {R : Machine → Machine → Prop} {F : Fault → Prop} {m m' : Machine} {i : Instr}

theorem allocCells_eq (cells : Array Handle) (n : Nat) (m : Machine) :
    allocCells cells n m =
      .ok (cells ++ Array.range' m.heap.size n) { m with heap := m.heap.addCells n } := by
  induction n generalizing cells m with
  | zero => simp [allocCells, Heap.addCells, pure, EStateM.pure]
  | succ n ih =>
    change allocCells (cells.push m.heap.size) n { m with heap := m.heap.alloc (.cell (.boolean false)) } = _
    rw [ih]
    simp [Heap.addCells, Heap.alloc, Heap.size, Array.range'_succ, Array.replicate_succ']

theorem Lasting.addCells (hR : Lasting R F) (m : Machine) (n : Nat) :
    R m { m with heap := m.heap.addCells n } :=
  ((keeping_allocCells hR #[] n).ends m).ok (allocCells_eq ..)

/-- The state in which a function of the program starts with `argc` arguments. -/
def calling (m : Machine) (f : Closure) (c : Code) (argc : Nat) : Machine :=
  { m with
    heap := m.heap.addCells c.own.size
    current := ⟨0, m.stack.height - argc - 1, f.code, f.cells ++ Array.range' m.heap.size c.own.size⟩
    callers := m.callers.push m.current }

theorem ends_callCode {f : Closure} {argc : Nat} {c : Code} {Q : Unit → Machine → Prop}
    {E : Fault → Machine → Prop} (hc : m.heap.code? f.code = some c)
    (ha : c.arity ≠ argc → E (.arity c.name c.arity argc) m) (ho : E .stackOverflow m)
    (h : c.arity = argc → m.callers.size < m.frameLimit → Q () (m.calling f c argc)) :
    Ends (callFunction f argc) m Q E := by
  refine ends_bind (ends_codeAt hc (ends_guard ha fun harity => ?_))
  refine ends_bind (ends_get (ends_guard (fun _ => ho) fun hlt => ?_))
  exact ends_bind (ends_of_ok _ _ (allocCells_eq ..) (h (not_not.1 harity) (Nat.lt_of_not_le hlt)))

theorem ends_callFunction {f : Closure} {argc : Nat} {Q : Unit → Machine → Prop}
    {E : Fault → Machine → Prop} (he : ∀ e : Fault, e.Expected ∨ e = .corrupted → E e m)
    (h : ∀ c, m.heap.code? f.code = some c → c.arity = argc → m.callers.size < m.frameLimit →
      Q () (m.calling f c argc)) : Ends (callFunction f argc) m Q E := by
  cases hc : m.heap.code? f.code with
  | none =>
    refine ends_bind (ends_of_error .corrupted m ?_ (he _ (Or.inr rfl)))
    rw [codeAt, hc]
  | some c =>
    exact ends_callCode hc (fun _ => he _ (Or.inl trivial)) (he _ (Or.inl trivial)) (h c hc)

/-- The state in which the run of a main code object starts. -/
def opening (m : Machine) (main : Handle) (c : Code) : Machine :=
  { m.put (.object m.heap.size :: m.stack.values) with
    heap := (m.heap.alloc (.function ⟨main, #[]⟩)).addCells c.own.size
    current := ⟨0, 0, main, Array.range' (m.heap.size + 1) c.own.size⟩
    callers := #[] }

theorem ends_loadCode {main : Handle} {c : Code} {Q : Unit → Machine → Prop} {E : Fault → Machine → Prop}
    (hc : m.heap.code? main = some c)
    (ho : E .stackOverflow { m with heap := m.heap.alloc (.function ⟨main, #[]⟩) })
    (h : Q () (m.opening main c)) : Ends (load main) m Q E := by
  refine ends_bind (ends_codeAt hc (ends_bind (ends_alloc (ends_bind (ends_push ho ?_)))))
  refine ends_bind (ends_of_ok _ _ (allocCells_eq ..) (ends_modify ?_))
  simpa [opening, put] using h

theorem ends_load {main : Handle} {Q : Unit → Machine → Prop} {E : Fault → Machine → Prop}
    (hc : E .corrupted m)
    (ho : E .stackOverflow { m with heap := m.heap.alloc (.function ⟨main, #[]⟩) })
    (h : ∀ c, m.heap.code? main = some c → Q () (m.opening main c)) : Ends (load main) m Q E := by
  cases hmain : m.heap.code? main with
  | none =>
    refine ends_bind (ends_of_error .corrupted m ?_ hc)
    rw [codeAt, hmain]
  | some c => exact ends_loadCode hmain ho (h c hmain)

/-! ## Steps -/

/-- The machine with the current activation at another place. -/
def moved (m : Machine) (ip : Nat) : Machine := { m with current := { m.current with ip } }

/-- What a step does that does not end the run. -/
inductive Advances (R : Machine → Machine → Prop) (m m' : Machine) : Prop
  | stays {i : Instr} (hi : m.instr? = some i) (hr : i ≠ .ret) (hc : ∀ argc, ¬ m.Calls argc)
    (h : R (m.past i) m')
  | jumps {i : Instr} {t : UInt16} {m₁ : Machine} (hi : m.instr? = some i) (ht : i.address? = some t)
    (h : R (m.past i) m₁) (hm : m' = m₁.moved t.toNat)
  | enters {argc : UInt8} {f : Closure} {c : Code} (hi : m.instr? = some (.call argc))
    (hf : m.callee? argc.toNat = some f) (hc : m.heap.code? f.code = some c)
    (ha : c.arity = argc.toNat) (hl : m.callers.size < m.frameLimit)
    (hm : m' = (m.past (.call argc)).calling f c argc.toNat)
  | returns {f : Frame} (hi : m.instr? = some .ret) (hf : m.callers.back? = some f)
    (hm : m' = { m with current := f, callers := m.callers.pop })

theorem fetch_of_none (hi : m.instr? = none) :
    ∃ e k, fetch m = .error e (m.advance k) ∧ (e = .corrupted ∨ ∃ b, e = .unknownOpcode b m.current.ip) := by
  cases hc : m.heap.code? m.current.code with
  | none =>
    refine ⟨.corrupted, 0, ?_, Or.inl rfl⟩
    change EStateM.bind (EStateM.bind (EStateM.bind (codeAt m.current.code) _) _) _ m = _
    simp only [EStateM.bind, codeAt, hc]
    rfl
  | some c =>
    have hm := fetch_eq hc
    rw [instr?, hc, Option.bind_some] at hi
    cases hf : Instr.fetch c.bytes m.current.ip with
    | ok i => rw [hf] at hi; cases hi
    | error e =>
      rw [hf] at hm
      cases e with
      | pastEnd => exact ⟨_, 0, hm, Or.inl rfl⟩
      | unknown b => exact ⟨_, 1, hm, Or.inr ⟨b, rfl⟩⟩
      | truncated => exact ⟨_, 1, hm, Or.inl rfl⟩

/-- Only the instruction that ends the program gives a value. -/
theorem ends_execute_none (hi : i ≠ .halt) (m : Machine) :
    Ends (execute i) m (fun o _ => o = none) fun _ _ => True := by
  have after {α : Type} {x : Run α} {f : α → Run (Option Value)}
      (h : ∀ a m, Ends (f a) m (fun o _ => o = none) fun _ _ => True) (m : Machine) :
      Ends (x >>= f) m (fun o _ => o = none) fun _ _ => True := by
    refine ends_bind ?_
    unfold Ends
    split
    · exact h _ _
    · trivial
  have last {x : Run Unit} (m : Machine) :
      Ends (do x; pure none : Run (Option Value)) m (fun o _ => o = none) fun _ _ => True :=
    after (fun _ _ => ends_pure rfl) m
  cases i with
  | halt => exact absurd rfl hi
  | add | sub | mul | div | jump t | call n | ret | makeFunction n => exact last m
  | pop => exact after (fun _ _ => ends_pure rfl) m
  | const ix | getCell ix => exact after (fun _ => after fun _ => after fun _ => last) m
  | getLocal slot => exact after (fun _ => after fun _ => last) m
  | cmp code =>
    simp only [execute]
    split
    · exact last m
    · exact after (fun _ _ => ends_pure rfl) m
  | jumpIfFalse t =>
    refine after (fun v m => ?_) m
    split
    · exact ends_pure rfl
    · exact last m
    · exact after (fun _ _ => ends_pure rfl) m
  | getGlobal ix =>
    refine after (fun _ => after fun x m => ?_) m
    split
    · exact last m
    · exact after (fun _ _ => ends_pure rfl) m
  | setGlobal ix => exact after (fun _ => after fun _ m => ends_guard (fun _ => trivial) fun _ => last m) m
  | setLocal slot => exact after (fun _ => after fun _ => last) m
  | scopeExit n =>
    simp only [execute]
    split
    · exact after (fun _ => after fun _ => last) m
    · exact ends_pure rfl
  | setCell ix => exact after (fun _ => after fun _ => after fun _ => after fun _ => last) m
  | loadCell ix => exact after (fun _ => last) m

theorem call_of_callee? {argc : Nat} {f : Closure} (hf : m.callee? argc = some f) :
    call argc m = callFunction f argc m := by
  unfold callee? at hf
  split at hf
  · next hget =>
    cases hf
    obtain ⟨h, hv, hobj⟩ := Option.bind_eq_some_iff.1 hget
    obtain ⟨v, hv, hh⟩ := Option.bind_eq_some_iff.1 hv
    have hpeek : peek argc m = .ok v m := by simp only [peek, onStack, Stack.peek, hv]
    have hget : (get : Run Machine) m = .ok m m := rfl
    rw [call]
    change EStateM.bind (peek argc) _ m = _
    rw [EStateM.bind, hpeek]
    change EStateM.bind get _ m = _
    rw [EStateM.bind, hget]
    simp only [hh, Option.bind_some, hobj]
  · cases hf

/-- A call enters a function of the program or goes on in the same activation. -/
theorem ends_execute_call (hR : Lasting R F) {argc : UInt8} (hm : m.NativesRaise F)
    (hi : m.instr? = some (.call argc)) :
    Ends (execute (.call argc)) (m.past (.call argc)) (fun o m' => o = none ∧ Advances R m m')
      fun e m' => F e ∧ R (m.past (.call argc)) m' := by
  cases hf : m.callee? argc.toNat with
  | none =>
    have hcalls : ∀ argc', ¬ m.Calls argc' := by
      rintro argc' ⟨hi', f, hf'⟩
      cases hi.symm.trans hi'
      cases hf.symm.trans hf'
    have hpast : (m.past (.call argc)).callee? argc.toNat = none := hf
    exact ends_seq ((ends_call_keeping hR hpast hm).mono (fun _ _ h => .stays hi nofun hcalls h)
      fun _ _ h => h)
  | some f =>
    refine ends_seq ?_
    rw [Ends, call_of_callee? (m := m.past (.call argc)) hf]
    exact ends_callFunction (fun e he => ⟨hR.raised e (Fault.raised_of_call he), hR.refl _⟩)
      fun c hc ha hl => .enters hi hf hc ha hl rfl

theorem ends_execute_ret (hR : Lasting R F) (hi : m.instr? = some .ret) :
    Ends (execute .ret) (m.past .ret) (fun o m' => o = none ∧ Advances R m m')
      fun e m' => F e ∧ R (m.past .ret) m' := by
  refine ends_seq ?_
  cases hb : m.callers.back? with
  | none =>
    refine ends_of_error .corrupted (m.past .ret) ?_ ⟨hR.raised _ trivial, hR.refl _⟩
    simp only [ret, past, hb]
  | some f =>
    refine ends_of_ok () { m with current := f, callers := m.callers.pop } ?_ (.returns hi hb rfl)
    simp only [ret, past, hb]

theorem ends_execute_jump (hR : Lasting R F) {t : UInt16} (hi : m.instr? = some i)
    (ht : i.address? = some t) :
    Ends (execute i) (m.past i) (fun o m' => o = none ∧ Advances R m m')
      fun e m' => F e ∧ R (m.past i) m' := by
  have hcalls : ∀ argc, ¬ m.Calls argc := by
    rintro argc ⟨hi', -⟩
    cases hi.symm.trans hi'
    cases ht
  cases i with
  | jump t =>
    cases ht
    exact ends_seq (ends_modify (.jumps hi rfl (hR.refl _) rfl))
  | jumpIfFalse t =>
    cases ht
    refine ends_bind (((keeping_pop hR).ends _).mono (fun v m₁ h => ?_) fun _ _ h => h)
    have stays : Advances R m m₁ := .stays hi nofun hcalls h
    have refused : Ends (typeFault .jumpIfFalse .boolean v : Run Unit) m₁
        (fun _ m' => Advances R m m') fun e m' => F e ∧ R (m.past (.jumpIfFalse t)) m' := by
      refine ends_bind (((keeping_tagOf hR v).ends _).mono (fun tag m₂ h' => ?_) fun _ _ h' => ?_)
      · exact ends_throw ⟨hR.raised _ trivial, hR.trans h h'⟩
      · exact ⟨h'.1, hR.trans h h'.2⟩
    split
    · exact ends_pure ⟨rfl, stays⟩
    · exact ends_seq (ends_modify (.jumps hi rfl h rfl))
    · exact ends_seq refused
  | _ => cases ht

/-- What a step does on any code. -/
theorem ends_step (hR : Lasting R F) (hm : m.NativesRaise F) :
    Ends step m
      (fun o m' => match o with
        | none => Advances R m m'
        | some _ => m.instr? = some .halt ∧ R (m.past .halt) m')
      fun e m' => (∃ i, m.instr? = some i ∧ F e ∧ R (m.past i) m') ∨
        m.instr? = none ∧ fetch m = .error e m' := by
  cases hi : m.instr? with
  | none =>
    obtain ⟨e, k, hf, -⟩ := fetch_of_none hi
    refine ends_of_error e (m.advance k) ?_ (Or.inr ⟨rfl, hf⟩)
    change EStateM.bind fetch execute m = _
    rw [EStateM.bind, hf]
  | some i =>
    have moves (h : Ends (execute i) (m.past i) (fun o m' => o = none ∧ Advances R m m')
        fun e m' => F e ∧ R (m.past i) m') :
        Ends (execute i) (m.past i)
          (fun o m' => match o with
            | none => Advances R m m'
            | some _ => some i = some .halt ∧ R (m.past .halt) m')
          fun e m' => (∃ j, some i = some j ∧ F e ∧ R (m.past j) m') ∨
            some i = none ∧ fetch m = .error e m' := by
      refine h.mono (fun o m' h => ?_) fun e m' h => Or.inl ⟨i, rfl, h⟩
      obtain ⟨rfl, h⟩ := h
      exact h
    rw [Ends, step_of_instr? hi]
    cases ht : i.address? with
    | some t => exact moves (ends_execute_jump hR hi ht)
    | none =>
      by_cases hret : i = .ret
      · subst hret
        exact moves (ends_execute_ret hR hi)
      by_cases hcall : ∃ argc, i = .call argc
      · obtain ⟨argc, rfl⟩ := hcall
        exact moves (ends_execute_call hR hm hi)
      have hkeep := (keeping_execute hR ht hret (not_exists.1 hcall)).ends (m.past i)
      by_cases hhalt : i = .halt
      · subst hhalt
        have hvalue : Ends (execute .halt) (m.past .halt) (fun o _ => o.isSome = true) fun _ _ => True := by
          refine ends_map ?_
          unfold Ends
          split
          · rfl
          · exact True.intro
        refine (hvalue.and hkeep).mono (fun o m' h => ?_) fun e m' h => Or.inl ⟨_, rfl, h.2⟩
        cases o with
        | none => cases h.1
        | some v => exact ⟨rfl, h.2⟩
      · refine moves (((ends_execute_none hhalt _).and hkeep).mono (fun o m' h => ⟨h.1, ?_⟩) fun _ _ h => h.2)
        refine .stays hi hret (fun argc hc => hcall ⟨argc, ?_⟩) h.2
        exact Option.some.inj (hi.symm.trans hc.1)

/-! ## What runs preserve -/

/-- Objects and global variables stay, but cells and variables may get other values, and no variable
    is added. -/
structure Preserves (m m' : Machine) : Prop where
  world : m.world.Leads m'.world
  names : m'.globals.names = m.globals.names

theorem names_set (g : Globals) (ix : Nat) (v : Value) : (g.set ix v).names = g.names := by
  refine List.ext_getElem? fun j => ?_
  have hname := Globals.name?_set g ix j v
  simpa [Globals.name?, Globals.get?, Globals.names] using hname

theorem lasting_preserves : Lasting Preserves fun _ => True where
  raised _ _ := trivial
  refl _ := ⟨.refl _, rfl⟩
  trans h h' := ⟨h.world.trans h'.world, h'.names.trans h.names⟩
  stack m _ := ⟨.refl m.world, rfl⟩
  alloc m _ _ := ⟨m.world.leads_alloc _, rfl⟩
  setCell m _ _ hi := ⟨World.leads_setCell (W := m.world) hi, rfl⟩
  setGlobal m ix v := ⟨m.world.leads_setGlobal ix v, names_set ..⟩

/-- A step of any code, also one that fails. -/
theorem step_preserves (m : Machine) :
    Ends step m (fun _ m' => m.Preserves m') fun _ m' => m.Preserves m' := by
  have later {i : Instr} {m' : Machine} (h : (m.past i).Preserves m') : m.Preserves m' :=
    ⟨h.world, h.names⟩
  refine (ends_step lasting_preserves fun _ _ _ _ _ _ _ => trivial).mono (fun o m' h => ?_)
    fun e m' h => ?_
  · cases o with
    | some v => exact later h.2
    | none =>
      cases h with
      | stays _ _ _ h => exact later h
      | jumps _ _ h hm =>
        subst hm
        exact later ⟨h.world, h.names⟩
      | @enters _ _ c _ _ _ _ _ hm =>
        subst hm
        have hcells := lasting_preserves.addCells m c.own.size
        exact ⟨hcells.world, hcells.names⟩
      | returns _ _ hm =>
        subst hm
        exact ⟨.refl m.world, rfl⟩
  · rcases h with ⟨i, -, -, h⟩ | ⟨hi, he⟩
    · exact later h
    · obtain ⟨e', k, hf, -⟩ := fetch_of_none hi
      cases hf.symm.trans he
      exact ⟨.refl m.world, rfl⟩

/-- The machine at the end of a run. -/
def Ending.machine : Ending → Machine
  | .ok _ m => m
  | .error _ m => m

theorem run_preserves {budget : Nat} {ending : Ending} (hr : run budget m = some ending) :
    m.Preserves ending.machine := by
  induction budget generalizing m with
  | zero => cases hr
  | succ budget ih =>
    have hs := step_preserves m
    rw [run] at hr
    cases hstep : step m with
    | error e m₁ =>
      rw [hstep] at hr
      cases hr
      exact hs.error hstep
    | ok o m₁ =>
      rw [hstep] at hr
      cases o with
      | none => exact lasting_preserves.trans (hs.ok hstep) (ih hr)
      | some v =>
        cases hr
        exact hs.ok hstep

/-- A run of any code preserves what was there, however it ends. -/
theorem runMain_preserves {budget : Nat} {main : Handle} {ending : Ending}
    (hr : runMain budget main m = some ending) : m.Preserves ending.machine := by
  have halloc := lasting_preserves.alloc m (o := .function ⟨main, #[]⟩) trivial
  have hl : Ends (load main) m (fun _ m' => m.Preserves m') fun _ m' => m.Preserves m' := by
    refine ends_load (lasting_preserves.refl m) halloc fun c _ => ?_
    have hcells := lasting_preserves.trans halloc (lasting_preserves.addCells _ c.own.size)
    exact ⟨hcells.world, hcells.names⟩
  unfold runMain at hr
  cases hload : load main m with
  | ok _ m₁ =>
    rw [hload] at hr
    exact lasting_preserves.trans (hl.ok hload) (run_preserves hr)
  | error e m₁ =>
    rw [hload] at hr
    cases hr
    exact hl.error hload

end Machine

end ByteLisp
