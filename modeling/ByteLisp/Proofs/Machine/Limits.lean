/-
  ByteLisp: limits only decide when the stack overflows.

  * `Stack.widen` and `Machine.widen` raise the limits and change nothing else; all actions tolerate
    this unless they overflow the stack (`overlay_widen`, `toleratesAt_step`);
  * `run_widen` and `runMain_widen` are the results for runs, `limits_only_overflow` says the
    same of two pairs of limits.
-/
import ByteLisp.Proofs.Machine.Boundaries
import ByteLisp.Proofs.Machine.Overlay

namespace ByteLisp

/-! ## The stack -/

namespace Stack

variable {k : Nat}

/-- The stack with room for `k` more values. -/
def widen (k : Nat) (s : Stack) : Stack := { s with limit := s.limit + k }

theorem tolerates_push (v : Value) : Tolerates (· = .stackOverflow) (widen k) (push v) where
  ends s := by
    unfold ToleratesAt Alike Ends push
    by_cases hs : s.limit ≤ s.height
    · rw [if_pos hs]
      exact Or.inl rfl
    · have hw : ¬ (s.widen k).limit ≤ (s.widen k).height := fun hw =>
        hs (Nat.le_trans (Nat.le_add_right _ k) hw)
      rw [if_neg hs, if_neg hw]
      rfl

theorem tolerates_pop : Tolerates (· = .stackOverflow) (widen k) pop where
  ends s := by
    obtain ⟨values, height, limit, h⟩ := s
    cases values with
    | nil => exact Or.inr rfl
    | cons v vs => exact rfl

theorem tolerates_peek (n : Nat) :
    Tolerates (· = .stackOverflow) (widen k) (peek n) := tolerates_look fun s => by
  cases hv : s.values[n]? with
  | none => exact Or.inr ⟨.stackUnderflow, by simp only [peek, hv], Or.inr (by simp only [peek, widen, hv])⟩
  | some v => exact Or.inl ⟨v, by simp only [peek, hv], by simp only [peek, widen, hv]⟩

theorem tolerates_drop (n : Nat) : Tolerates (· = .stackOverflow) (widen k) (drop n) where
  ends s := by
    unfold ToleratesAt Alike Ends drop
    by_cases hs : n ≤ s.height
    · have hw : n ≤ (s.widen k).height := hs
      rw [if_pos hs, if_pos hw]
      rfl
    · have hw : ¬ n ≤ (s.widen k).height := hs
      rw [if_neg hs, if_neg hw]
      exact Or.inr rfl

theorem tolerates_getAt (ix : Nat) :
    Tolerates (· = .stackOverflow) (widen k) (get ix) := tolerates_look fun s => by
  by_cases hs : ix < s.height
  · cases hv : s.values[s.height - 1 - ix]? with
    | none =>
      exact Or.inr ⟨.stackUnderflow, by simp only [get, if_pos hs, hv],
        Or.inr (by simp only [get, widen, if_pos hs, hv])⟩
    | some v => exact Or.inl ⟨v, by simp only [get, if_pos hs, hv], by simp only [get, widen, if_pos hs, hv]⟩
  · have hw : ¬ ix < (s.widen k).height := hs
    exact Or.inr ⟨.stackUnderflow, by simp only [get, if_neg hs], Or.inr (by simp only [get, if_neg hw])⟩

theorem tolerates_setAt (ix : Nat) (v : Value) : Tolerates (· = .stackOverflow) (widen k) (set ix v) where
  ends s := by
    unfold ToleratesAt Alike Ends set
    by_cases hs : ix < s.height
    · have hw : ix < (s.widen k).height := hs
      rw [if_pos hs, if_pos hw]
      rfl
    · have hw : ¬ ix < (s.widen k).height := hs
      rw [if_neg hs, if_neg hw]
      exact Or.inr rfl

theorem overlay_widen : Overlay (· = .stackOverflow) 0 (widen k) where
  height _ := rfl
  push := tolerates_push
  pop := tolerates_pop
  peek := tolerates_peek
  drop := tolerates_drop
  take _ := rfl
  lacks := Or.inl rfl

end Stack

/-! ## The machine -/

namespace Machine

variable {k l : Nat}

/-- The machine with room for `k` more values and `l` more calls within one another. -/
def widen (k l : Nat) (m : Machine) : Machine :=
  { m with stack := m.stack.widen k, frameLimit := m.frameLimit + l }

theorem overlay_widen : Overlay (· = .stackOverflow) 0 (Stack.widen k) (widen k l) where
  values := Stack.overlay_widen
  heap _ := rfl
  globals _ := rfl
  stack _ := rfl
  ip _ := rfl
  code _ := rfl
  cells _ := rfl
  withHeap _ _ := rfl
  withGlobals _ _ := rfl
  withStack _ _ := rfl
  withIp _ _ := rfl
  frames _ := Or.inr ⟨rfl, fun hw => Nat.le_trans (Nat.le_add_right _ l) hw⟩
  enter _ _ := rfl
  ret := ⟨fun m => by
    have widened : (m.widen k l).callers = m.callers := rfl
    unfold ToleratesAt Alike Ends
    simp only [ret, widened]
    cases m.callers.back? with
    | some f => exact rfl
    | none => exact Or.inr rfl⟩

theorem tolerates_halt : Tolerates (· = .stackOverflow) (widen k l) (execute .halt) := by
  have height : Tolerates (· = .stackOverflow) (widen k l) height := tolerates_look fun _ =>
    Or.inl ⟨_, rfl, rfl⟩
  refine tolerates_bind (tolerates_bind height fun _ => ?_) fun _ => tolerates_pure _
  exact tolerates_ite overlay_widen.pop (tolerates_pure _)

theorem tolerates_slot {i : Instr} (hi : i.slot? ≠ none) :
    Tolerates (· = .stackOverflow) (widen k l) (execute i) := by
  cases i with
  | getLocal slot =>
    exact tolerates_get (fun _ => rfl) fun _ =>
      tolerates_bind (overlay_widen.onStack (Stack.tolerates_getAt _)) fun _ =>
        tolerates_bind (overlay_widen.push _) fun _ => tolerates_pure _
  | setLocal slot =>
    exact tolerates_bind (overlay_widen.peek _) fun _ => tolerates_get (fun _ => rfl) fun _ =>
      tolerates_bind (overlay_widen.onStack (Stack.tolerates_setAt ..)) fun _ => tolerates_pure _
  | _ => exact absurd rfl hi

theorem tolerates_load (main : Handle) : Tolerates (· = .stackOverflow) (widen k l) (load main) :=
  tolerates_bind (overlay_widen.codeAt _) fun _ => tolerates_bind (overlay_widen.alloc _) fun _ =>
    tolerates_bind (overlay_widen.push _) fun _ => tolerates_bind (overlay_widen.allocCells ..) fun _ =>
      tolerates_modify fun _ => rfl

/-- Only built-in functions can be called besides those of programs. -/
def OnlyBuiltins (m : Machine) : Prop := ∀ i n, m.heap.get? i = some (.native n) → n ∈ Native.builtins

theorem lasting_onlyBuiltins :
    Lasting (fun m m' => m.OnlyBuiltins → m'.OnlyBuiltins) fun _ => True where
  raised _ _ := trivial
  refl _ h := h
  trans h h' hm := h' (h hm)
  stack _ _ h := h
  alloc _ _ ho h := fun i n hi => h i n (Heap.native_of_alloc ho hi)
  setCell _ _ _ hc h := fun i n hi => h i n (Heap.native_of_setCell hc hi)
  setGlobal _ _ _ h := h

theorem step_onlyBuiltins {m : Machine} (hm : m.OnlyBuiltins) :
    Ends step m (fun _ m' => m'.OnlyBuiltins) fun _ _ => True := by
  refine (ends_step lasting_onlyBuiltins fun _ _ _ _ _ _ _ => trivial).mono (fun o m' h => ?_)
    fun _ _ _ => trivial
  cases o with
  | some v => exact h.2 hm
  | none =>
    cases h with
    | stays _ _ _ h => exact h hm
    | jumps _ _ h hm' => subst hm'; exact h hm
    | @enters _ _ c _ _ _ _ _ hm' => subst hm'; exact lasting_onlyBuiltins.addCells _ c.own.size hm
    | returns _ _ hm' => subst hm'; exact hm

theorem load_onlyBuiltins {m : Machine} (hm : m.OnlyBuiltins) (main : Handle) :
    Ends (load main) m (fun _ m' => m'.OnlyBuiltins) fun _ _ => True :=
  ends_load trivial trivial fun c _ =>
    lasting_onlyBuiltins.addCells _ c.own.size
    (lasting_onlyBuiltins.alloc m (o := .function ⟨main, #[]⟩) trivial hm)

theorem OnlyBuiltins.callsBuiltins {m : Machine} (hm : m.OnlyBuiltins) : m.CallsBuiltins := by
  intro argc u g _ _ hg
  obtain ⟨i, -, hi⟩ := Option.bind_eq_some_iff.1 hg
  exact hm i g hi

/-- A step that does not overflow the stack is the same with higher limits. -/
theorem toleratesAt_step {m : Machine} (hm : m.CallsBuiltins) :
    ToleratesAt (· = .stackOverflow) (widen k l) step m := by
  refine overlay_widen.step fun i hi => ?_
  cases hs : i.slot? with
  | some slot => exact (tolerates_slot (by rw [hs]; exact nofun)).ends _
  | none =>
    cases i with
    | halt => exact tolerates_halt.ends _
    | call argc =>
      have hm : ∀ u g, (m.past (.call argc)).stack.values[argc.toNat]? = some u → _ := fun u g =>
        hm argc u g hi
      exact (overlay_widen.call hm).bind fun _ _ _ => (tolerates_pure _).ends _
    | _ => exact (overlay_widen.execute (by simp) (by simp) hs).ends _

/-! ## Runs -/

/-- A run ends because the stack is full or too many calls are open. -/
def Ending.Overflows : Ending → Prop
  | .ok _ _ => False
  | .error e _ => e = .stackOverflow

theorem Ending.overflows_of_fails {e : Ending} (h : e.Fails (· = .stackOverflow)) : e.Overflows := by
  cases e with
  | ok v m => exact h
  | error f m => exact h

/-- A run of a main code object that does not overflow the stack is the same with higher limits. -/
theorem runMain_widen {P : Machine → Prop} (hs : ∀ m, P m → m.CallsBuiltins)
    (hP : ∀ m, P m → Ends step m (fun o m' => o = none → P m') fun _ _ => True) {budget : Nat} {main : Handle}
    {m : Machine} (hl : Ends (load main) m (fun _ m' => P m') fun _ _ => True)
    (he : ∀ e, runMain budget main m = some e → ¬ e.Overflows) :
    runMain budget main (m.widen k l) = (runMain budget main m).map (Ending.changed (widen k l)) := by
  have hload := (tolerates_load (k := k) (l := l) main).ends m
  rw [runMain] at he ⊢
  rw [runMain]
  cases h : load main m with
  | error f m' =>
    rw [h] at he
    rw [(Ends.error hload h).resolve_left (he _ rfl)]
    rfl
  | ok _ m' =>
    rw [h] at he
    rw [Ends.ok hload h]
    exact run_alike (fun m hm => toleratesAt_step (hs m hm)) hP (hl.ok h) fun e hr hf =>
      he e hr (Ending.overflows_of_fails hf)

/-- A run of any code that ends otherwise than by overflowing the stack ends in the same way, with
    the same heap and the same global variables, within any higher limits. -/
theorem limits_only_overflow {heap : Heap} {globals : Globals} {small large : Limits} {main : Handle}
    {budget : Nat} {e : Ending} (hn : ∀ i n, heap.get? i = some (.native n) → n ∈ Native.builtins)
    (hs : small.stack ≤ large.stack) (hf : small.frames ≤ large.frames)
    (hr : (start heap globals small).runMain budget main = some e) (he : e.report.1 ≠ .error .stackOverflow) :
    ∃ e', (start heap globals large).runMain budget main = some e' ∧ e'.report = e.report := by
  obtain ⟨k, hk⟩ := Nat.exists_eq_add_of_le hs
  obtain ⟨l, hl⟩ := Nat.exists_eq_add_of_le hf
  have widened : start heap globals large = (start heap globals small).widen k l := by
    rw [start, hk, hl]
    rfl
  have hfails : ¬ e.Overflows := by
    cases e with
    | ok v m => exact id
    | error f m => exact fun hf => he (congrArg _ hf)
  refine ⟨e.changed (widen k l), ?_, Ending.report_changed overlay_widen e⟩
  rw [widened, runMain_widen (P := OnlyBuiltins) (fun _ hm => hm.callsBuiltins)
    (fun _ hm => (step_onlyBuiltins hm).mono (fun _ _ h _ => h) fun _ _ h => h)
    (load_onlyBuiltins (m := start heap globals small) hn main), hr]
  · rfl
  · intro e' he'
    cases hr.symm.trans he'
    exact hfails

/-- A heap with a main code object that calls a function once; there is also a built-in function. -/
def oneCall : Heap where
  objects := #[.native .abs,
    .code { Code.empty "f" 0 with bytes := #[0x01, 0x00, 0x0E, 0x01, 0x10], constants := #[.boolean true] },
    .function ⟨1, #[]⟩,
    .code { Code.empty "main" 0 with bytes := #[0x01, 0x00, 0x0F, 0x00, 0x00], constants := #[.object 2] }]

theorem oneCall_onlyBuiltins : ∀ i n, oneCall.get? i = some (.native n) → n ∈ Native.builtins := by
  intro i n h
  match i with
  | 0 => cases h; exact .tail _ (.head _)
  | 1 | 2 | 3 => cases h
  | i + 4 => cases h

/-- Three values and one call are just enough. -/
theorem limits_only_overflow_oneCall :
    (∀ i n, oneCall.get? i = some (.native n) → n ∈ Native.builtins) ∧
      (∃ m, (start oneCall .empty ⟨2, 1⟩).runMain 6 3 = some (.error .stackOverflow m)) ∧
      ∃ m, (start oneCall .empty ⟨3, 1⟩).runMain 6 3 = some (.ok (.boolean true) m) ∧
        ∃ e', (start oneCall .empty .usual).runMain 6 3 = some e' ∧
          e'.report = Ending.report (.ok (.boolean true) m) := by
  obtain ⟨m, hm⟩ : ∃ m, (start oneCall .empty ⟨3, 1⟩).runMain 6 3 = some (.ok (.boolean true) m) := ⟨_, rfl⟩
  have hs : (⟨3, 1⟩ : Limits).stack ≤ Limits.usual.stack := by decide
  have hf : (⟨3, 1⟩ : Limits).frames ≤ Limits.usual.frames := by decide
  exact ⟨oneCall_onlyBuiltins, ⟨_, rfl⟩, m, hm, limits_only_overflow oneCall_onlyBuiltins hs hf hm nofun⟩

end Machine

end ByteLisp
