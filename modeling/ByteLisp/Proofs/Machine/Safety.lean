/-
  ByteLisp: runs of sound code are safe.

  * `Machine.Reaches`: the states that a run goes through;
  * `Machine.Consistent`: the stack is as high as the code says, and no code
    object or cell lies where programs can see it;
  * `Program`: a main code object that may be run; `load_sound` and `run_safe` say
    that its runs keep the invariant and end as programs may.
-/
import ByteLisp.Machine.Run
import ByteLisp.Proofs.Code.Depth
import ByteLisp.Proofs.Machine.Sound

namespace ByteLisp

/-- A value that is no code object and no cell. -/
def Heap.Shown (h : Heap) (v : Value) : Prop := ∃ t, h.tag? v = some t ∧ t ≠ .code ∧ t ≠ .cell

namespace Machine

/-- The states that a run goes through. -/
inductive Reaches (m : Machine) : Machine → Prop
  | start : Reaches m m
  | step {m' m'' : Machine} (h : Reaches m m') (hs : step m' = .ok none m'') : Reaches m m''

/-- What global variables and cells hold is no code object and no cell. -/
structure StoresShown (m : Machine) : Prop where
  globals : ∀ ix x v, m.globals.get? ix = some x → x.value = some v → m.heap.Shown v
  cells : ∀ i v, m.heap.cell? i = some v → m.heap.Shown v

/-- The stack above the base is as high as the code object says for the place, and no code object or
    cell lies on it, except for the values on top from which the code object says that a function is
    about to be made. -/
structure Consistent (m : Machine) : Prop extends StoresShown m where
  height : ∃ c, m.heap.code? m.current.code = some c ∧
    m.stack.height = m.current.base + c.depthAt m.current.ip ∧
    ∀ v ∈ m.stack.values.drop (c.gatheredAt m.current.ip), m.heap.Shown v

end Machine

variable {A : Handle → Prop} {W : World} {m m' : Machine} {v : Value}

theorem World.Stored.shown (hs : m.world.Stored A) : m.StoresShown where
  globals ix x v hx hv := (hs.globals ix x v hx hv).tag
  cells i v hi := (hs.cells i v hi).tag

/-- The values below those of the current activation are ones that programs see. -/
theorem Waiting.visible {h : Heap} {last : Instr} {fs : List Frame} {rest : List Value}
    (hw : Waiting A W h last fs rest) : ∀ v ∈ rest, Visible A h v := by
  induction hw with
  | bottom => exact fun v hv => nomatch hv
  | caller _ _ hv _ _ ih =>
    intro u hu
    rcases List.mem_append.1 hu with hu | hu
    · exact hv u hu
    · exact ih u hu

/-- The values below the operands of `makeFunction` are ones that programs see. -/
theorem Instr.Fits.visible {h : Heap} {c : Code} {σ : Shape} {i : Instr} {vs : List Value}
    (hf : i.Fits A W c σ) (hs : Segment A h σ vs) :
    ∀ v ∈ vs.drop (i.gathered σ.cells), Visible A h v := by
  have below (k n : Nat) {vs : List Value} (hs : Segment A h (loaded k n) vs) :
      ∀ v ∈ vs.drop k, Visible A h v := by
    have hd := List.forall₂_drop k hs
    rw [loaded, List.drop_left' List.length_replicate] at hd
    exact Segment.visible hd
  have ha := hf.awaits
  cases i with
  | const ix | loadCell ix =>
    obtain ⟨k, n, rfl⟩ := ha
    simp only [Instr.gathered, cells_loaded]
    exact below k n hs
  | makeFunction n =>
    obtain ⟨m, rfl⟩ := hf.operand
    obtain ⟨⟩ | ⟨-, hs⟩ := hs
    exact below n.toNat m hs
  | _ =>
    obtain ⟨n, -, rfl⟩ := ha
    exact fun v hv => Segment.visible hs v (List.mem_of_mem_drop hv)

namespace Machine

theorem Sound.consistent (h : m.Sound A W) : m.Consistent := by
  obtain ⟨r, σ, vs, rest, hr, hp⟩ := h
  have hs := hr.runs.sound
  have hvs : ∀ v ∈ vs.drop (r.code.gatheredAt m.current.ip), Visible A m.heap v := by
    obtain ⟨pre, post, hbody, hip, hσ⟩ := hp
    cases post with
    | nil =>
      -- The end of the body: only variables and intermediate values lie there.
      rw [List.append_nil] at hbody
      rw [← hbody, hs.balanced.scan] at hσ
      subst hσ
      exact fun v hv => Segment.visible hr.segment v (List.mem_of_mem_drop hv)
    | cons i post =>
      have hf := (hs.balanced.typed pre i post hbody).1
      rw [hip, Nat.zero_add, gatheredAt_eq hs.bytes hs.balanced hbody]
      rw [← hσ] at hf ⊢
      exact hf.visible hr.segment
  refine ⟨hr.stored.shown, r.code, hr.code?, ?_, fun v hv => ?_⟩
  · rw [hr.height, depthAt_eq hs.bytes hs.balanced hp]
  · rw [hr.values, List.drop_append] at hv
    rcases List.mem_append.1 hv with hv | hv
    · exact (hvs v hv).tag
    · exact (hr.waiting.visible v (List.mem_of_mem_drop hv)).tag

theorem Reaches.sound (hW : W.Safe A) (hr : m.Reaches m') (h : m.Sound A W) : m'.Sound A W := by
  induction hr with
  | start => exact h
  | step _ hs ih => exact (step_sound hW ih).ok hs

/-- How a run may end: with a value that programs see, or with a fault as programs cause it. -/
def Ending.Safe (A : Handle → Prop) (W : World) : Ending → Prop
  | .ok v m => Visible A m.heap v ∧ W.Leads m.world ∧ m.world.Stored A
  | .error e m => Stops A W e m

theorem run_safe {budget : Nat} {ending : Ending} (hW : W.Safe A) (h : m.Sound A W)
    (hr : run budget m = some ending) : ending.Safe A W := by
  induction budget generalizing m with
  | zero => cases hr
  | succ budget ih =>
    have hs := step_sound hW h
    simp only [run] at hr
    cases hstep : step m with
    | error e m' =>
      rw [hstep] at hr
      cases hr
      exact hs.error hstep
    | ok o m' =>
      rw [hstep] at hr
      have hk := hs.ok hstep
      cases o with
      | none => exact ih hk hr
      | some v =>
        cases hr
        exact hk

end Machine

/-! ## Programs -/

/-- A main code object that may be run. -/
def Program (A : Handle → Prop) (W : World) (main : Handle) : Prop :=
  A main ∧ ∃ r : Routine, W.heap.code? main = some r.code ∧ r.Sound A W ∧ r.last = .halt ∧
    r.code.arity = 0 ∧ r.code.free = #[]

namespace Machine

/-- Loading a program establishes the invariant. -/
theorem load_sound {main : Handle} (hW : m.world.Safe A) (hm : Program A m.world main)
    (hs : m.stack.values = []) :
    Ends (load main) m (fun _ m' => m'.Sound A m.world) (Stops A m.world) := by
  obtain ⟨ha, r, hc, hr, hlast, harity, hfree⟩ := hm
  have halloc := m.world.leads_alloc (.function ⟨main, #[]⟩)
  have hstored := hW.toStored.alloc (o := .function ⟨main, #[]⟩) nofun
  have hsee : Visible A (m.heap.alloc (.function ⟨main, #[]⟩)) (.object m.heap.size) :=
    .function (Heap.get?_alloc_size ..) ha (halloc.code? hc) (by rw [hfree]; rfl) (by simp)
  have hstart : r.At m.world 0 (plain 1) := by
    rw [Routine.At, harity]
    exact point_start
  refine ends_bind (ends_codeAt hc (ends_bind (ends_alloc (ends_bind (ends_push ?_ ?_)))))
  · exact ⟨trivial, halloc, hstored⟩
  · refine ends_bind (ends_allocCells hstored (by simp) fun cells heap hlen hcells hl hst => ?_)
    refine ends_modify ⟨r, plain 1, [.object m.heap.size], [], ?_, hstart⟩
    constructor
    · rfl
    · exact halloc.trans hl
    · exact hst
    · refine ⟨ha, hc, hr, ?_, hcells⟩
      rw [hlen, Code.cellNames, hfree]
      simp
    · exact congrArg (_ :: ·) hs
    · exact .cons (.plain (hsee.later (fun _ h => h) hl)) .nil
    · rfl
    · rw [hlast]
      exact .bottom

theorem runMain_safe {main : Handle} {budget : Nat} {ending : Ending} (hW : m.world.Safe A)
    (hm : Program A m.world main) (hs : m.stack.values = [])
    (hr : runMain budget main m = some ending) : ending.Safe A m.world := by
  have hl := load_sound hW hm hs
  unfold runMain at hr
  cases hload : load main m with
  | ok _ m' =>
    rw [hload] at hr
    exact run_safe hW (hl.ok hload) hr
  | error e m' =>
    rw [hload] at hr
    cases hr
    exact hl.error hload

end Machine

end ByteLisp
