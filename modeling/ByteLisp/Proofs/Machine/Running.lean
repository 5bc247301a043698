/-
  ByteLisp: the stack while code runs.

  * `Frame.Runs`: an activation runs a routine and has its cells;
  * `Waiting`: the activations below wait for calls to return, and their values
    lie below those of the current one;
  * `Running`: the current activation has values of a shape on the stack; the
    lemmas on it say that parts of the state may change.
-/
import ByteLisp.Proofs.Machine.Ends
import ByteLisp.Proofs.Machine.Store
import Mathlib.Data.List.Forall2

namespace ByteLisp

/-- The heap and the globals of a machine. -/
abbrev Machine.world (m : Machine) : World := ⟨m.heap, m.globals⟩

/-- An activation of a routine has all its cells on the heap. Code does not change, so it is looked
    up in the world `W` in which the run started. -/
structure Frame.Runs (A : Handle → Prop) (W : World) (h : Heap) (f : Frame) (r : Routine) : Prop where
  trusted : A f.code
  code : W.heap.code? f.code = some r.code
  sound : r.Sound A W
  size : f.cells.size = r.code.cellNames.size
  cells : ∀ i ∈ f.cells, h.IsCell i

/-- A place in the body of a routine, or its end, with the shape there. -/
def Routine.At (W : World) (r : Routine) (ip : Nat) (σ : Shape) : Prop :=
  Point W.heap r.code 0 (plain (r.code.arity + 1)) r.body ip σ

/-- The values of an activation have the kinds of a shape, the top first. -/
abbrev Segment (A : Handle → Prop) (h : Heap) (σ : Shape) (vs : List Value) : Prop :=
  List.Forall₂ (HasKind A h) σ vs

/-- The activations that wait, the latest first, with the values below the current one. The current
    routine ends with the given instruction: only the program itself has nothing to return to. -/
inductive Waiting (A : Handle → Prop) (W : World) (h : Heap) :
    Instr → List Frame → List Value → Prop
  | bottom : Waiting A W h .halt [] []
  | caller {last : Instr} {f : Frame} {fs : List Frame} {r : Routine} {vs rest : List Value}
    (hf : f.Runs A W h r) (hip : r.At W f.ip (plain (vs.length + 1)))
    (hv : ∀ v ∈ vs, Visible A h v) (hb : f.base = rest.length)
    (hw : Waiting A W h r.last fs rest) : Waiting A W h last (f :: fs) (vs ++ rest)

/-- The current activation `f` runs the routine `r`: its values `vs` lie on those of the others, and
    only values that programs see are stored. The run started in the world `W`. -/
structure Running (A : Handle → Prop) (W : World) (r : Routine) (f : Frame) (σ : Shape)
    (vs rest : List Value) (m : Machine) : Prop where
  current : m.current = f
  since : W.Leads m.world
  stored : m.world.Stored A
  runs : f.Runs A W m.heap r
  values : m.stack.values = vs ++ rest
  segment : Segment A m.heap σ vs
  base : f.base = rest.length
  waiting : Waiting A W m.heap r.last m.callers.toList.reverse rest

variable {A : Handle → Prop} {W V V' : World} {r : Routine} {f : Frame} {σ τ : Shape}
  {vs ws rest : List Value} {v : Value} {m m' : Machine} {k : Kind} {n : Nat}

/-! ## Later states -/

theorem Frame.Runs.later (hf : f.Runs A W V.heap r) (hl : V.Leads V') :
    f.Runs A W V'.heap r where
  trusted := hf.trusted
  code := hf.code
  sound := hf.sound
  size := hf.size
  cells i hi := hl.cells i (hf.cells i hi)

theorem Segment.later (hs : Segment A V.heap σ vs) (hl : V.Leads V') :
    Segment A V'.heap σ vs := hs.imp fun _ _ hv => hv.later (fun _ h => h) hl

theorem Waiting.later {last : Instr} {fs : List Frame} (hw : Waiting A W V.heap last fs rest)
    (hl : V.Leads V') : Waiting A W V'.heap last fs rest := by
  induction hw with
  | bottom => exact .bottom
  | caller hf hip hv hb _ ih =>
    exact .caller (hf.later hl) hip (fun v hm => (hv v hm).later (fun _ h => h) hl) hb ih

namespace Running

/-- The heap and the globals may change. -/
theorem later (hr : Running A W r f σ vs rest m) (hl : m.world.Leads m'.world)
    (hs : m'.world.Stored A) (hf : m'.current = m.current) (hc : m'.callers = m.callers)
    (hv : m'.stack = m.stack) : Running A W r f σ vs rest m' where
  current := hf.trans hr.current
  since := hr.since.trans hl
  stored := hs
  runs := Frame.Runs.later (V := m.world) hr.runs hl
  values := by rw [hv, hr.values]
  segment := Segment.later (V := m.world) hr.segment hl
  base := hr.base
  waiting := by
    rw [hc]
    exact Waiting.later (V := m.world) hr.waiting hl

/-- The values of the activation may change. -/
theorem put (hr : Running A W r f σ vs rest m) (hs : Segment A m.heap τ ws) :
    Running A W r f τ ws rest (m.put (ws ++ rest)) :=
  ⟨hr.current, hr.since, hr.stored, hr.runs, rfl, hs, hr.base, hr.waiting⟩

theorem alloc (hr : Running A W r f σ vs rest m) {o : Object}
    (ho : ∀ v, o = .cell v → Visible A m.heap v) :
    Running A W r f σ vs rest { m with heap := m.heap.alloc o } :=
  hr.later (m.world.leads_alloc o) (hr.stored.alloc ho) rfl rfl rfl

theorem setCell (hr : Running A W r f σ vs rest m) {i : Handle} (hi : m.heap.IsCell i)
    (hv : Visible A m.heap v) :
    Running A W r f σ vs rest { m with heap := m.heap.setCell i v } :=
  hr.later (World.leads_setCell (W := m.world) hi) (World.Stored.setCell hr.stored hi hv) rfl rfl rfl

theorem setGlobal (hr : Running A W r f σ vs rest m) (ix : Nat) (hv : Visible A m.heap v) :
    Running A W r f σ vs rest { m with globals := m.globals.set ix v } :=
  hr.later (m.world.leads_setGlobal ix v) (hr.stored.setGlobal ix hv) rfl rfl rfl

theorem moved (hr : Running A W r f σ vs rest m) (ip : Nat) :
    Running A W r { f with ip := ip } σ vs rest
      { m with current := { m.current with ip := ip } } where
  current := by rw [hr.current]
  since := hr.since
  stored := hr.stored
  runs := ⟨hr.runs.trusted, hr.runs.code, hr.runs.sound, hr.runs.size, hr.runs.cells⟩
  values := hr.values
  segment := hr.segment
  base := hr.base
  waiting := hr.waiting

theorem height (hr : Running A W r f σ vs rest m) :
    m.stack.height = m.current.base + σ.length := by
  rw [m.stack.height_eq, hr.values, List.length_append, hr.current, hr.base,
    hr.segment.length_eq, Nat.add_comm]

theorem code? (hr : Running A W r f σ vs rest m) :
    m.heap.code? m.current.code = some r.code := by
  rw [hr.current]
  exact hr.since.code? hr.runs.code

end Running

/-! ## Segments -/

/-- A list that is related to two lists one behind the other falls into two parts. -/
theorem forall₂_append_left {α β : Type} {R : α → β → Prop} {xs ys : List α} {zs : List β}
    (h : List.Forall₂ R (xs ++ ys) zs) :
    ∃ us ws, zs = us ++ ws ∧ List.Forall₂ R xs us ∧ List.Forall₂ R ys ws := by
  refine ⟨zs.take xs.length, zs.drop xs.length, (List.take_append_drop ..).symm, ?_, ?_⟩
  · have := List.forall₂_take xs.length h
    rwa [List.take_left' rfl] at this
  · have := List.forall₂_drop xs.length h
    rwa [List.drop_left' rfl] at this

namespace Segment

variable {h : Heap}

theorem visible (hs : Segment A h (plain n) vs) : ∀ v ∈ vs, Visible A h v := by
  induction n generalizing vs with
  | zero => cases hs; exact fun v hv => nomatch hv
  | succ n ih =>
    cases hs with
    | cons hv hs =>
      intro u hu
      rcases List.mem_cons.1 hu with rfl | hu
      · exact hasKind_plain.1 hv
      · exact ih hs u hu

theorem of_visible (hv : ∀ v ∈ vs, Visible A h v) : Segment A h (plain vs.length) vs := by
  induction vs with
  | nil => exact .nil
  | cons v vs ih =>
    exact .cons (.plain (hv v List.mem_cons_self)) (ih fun u hu => hv u (List.mem_cons_of_mem v hu))

theorem plain_iff : Segment A h (plain n) vs ↔ vs.length = n ∧ ∀ v ∈ vs, Visible A h v := by
  constructor
  · exact fun hs => ⟨hs.length_eq.symm.trans (length_plain n), hs.visible⟩
  · rintro ⟨rfl, hv⟩
    exact of_visible hv

theorem append_left (hs : Segment A h (σ ++ τ) vs) :
    ∃ us ws, vs = us ++ ws ∧ Segment A h σ us ∧ Segment A h τ ws := forall₂_append_left hs

end Segment

end ByteLisp
