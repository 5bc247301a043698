/-
  ByteLisp: programs without loops end.

  Functions may call themselves and each other, but only so many calls can be open at once. In
  code that jumps forward only, each activation comes closer to its end with each step.

  * `Frame.left` are the bytes before an activation, `Machine.fuel` puts those of all open
    activations together: it falls with each step (`Machine.Advances.fuel`);
  * `Machine.exists_run`: so a run ends;
  * `ReachableBy.run_ends` is the result for engines on which only programs without loops have
    been compiled.
-/
import ByteLisp.Proofs.Engine.Safety
import ByteLisp.Proofs.Generation.Loopless
import ByteLisp.Proofs.Machine.Boundaries
import Mathlib.Algebra.Order.BigOperators.Group.List
import Mathlib.Data.Nat.Digits.Defs

namespace ByteLisp

/-- All code of a program without loops leads forward. -/
theorem Expr.supplies_forward {program : Expr} {h : Heap} {g : Globals} {main : Handle}
    (hl : program.LoopFree) (hr : (program.compile h g).result = .ok main) :
    Engine.Supplies (fun W i => ∃ c, W.heap.code? i = some c ∧ c.Forward)
      (program.compile h g).world main := by
  obtain ⟨⟨c, hc, hmain⟩, -⟩ := Expr.compile_ok hr
  let B : Handle → Prop := fun i =>
    i = main ∨ Straight program.resolveProgram.2 (program.compile h g).world i
  have new : ∀ i, Straight _ _ i → B i := fun i hi => Or.inr hi
  obtain ⟨hforward, hchecked⟩ := hmain.restrict hl
  obtain ⟨r, rfl, hlast, hr⟩ := hchecked.routine_halt
  have hr := hr.later new (.refl _)
  obtain ⟨-, harity, hfree, -⟩ := hmain
  refine ⟨B, ?_, Or.inl rfl, r, hc, hr, hlast, harity, hfree⟩
  rintro i (rfl | hi)
  · exact ⟨⟨_, hc, hforward⟩, r, hc, hr⟩
  · obtain ⟨c, hc, hforward, hchecked⟩ := hi.checked
    obtain ⟨r, rfl, -, hr⟩ := hchecked.routine_ret
    exact ⟨⟨_, hc, hforward⟩, r, hc, hr.later new (.refl _)⟩

/-! ## Steps -/

/-- The number of bytes before an activation. -/
def Frame.left (h : Heap) (f : Frame) : Nat :=
  match h.code? f.code with
  | some c => c.bytes.size - f.ip
  | none => 0

namespace Machine

variable {A : Handle → Prop} {W : World} {m m' : Machine} {B : Nat}

/-- The bytes before the open activations, as a numeral in base `B`: those of the current activation
    are the lowest digit, and as many zeros precede it as calls may still be opened. -/
def fuel (B : Nat) (m : Machine) : Nat :=
  B ^ (m.frameLimit - m.callers.size) *
    Nat.ofDigits B ((m.current :: m.callers.toList.reverse).map (Frame.left m.heap))

/-- The same activations run at the same places, within the same limit of calls. -/
structure Steady (m m' : Machine) : Prop extends Unmoved m m' where
  limit : m'.frameLimit = m.frameLimit

theorem lasting_steady : Lasting Steady fun _ => True where
  raised _ _ := trivial
  refl m := ⟨lasting_unmoved.refl m, rfl⟩
  trans h h' := ⟨lasting_unmoved.trans h.toUnmoved h'.toUnmoved, h'.limit.trans h.limit⟩
  stack m s := ⟨lasting_unmoved.stack m s, rfl⟩
  alloc m _ ho := ⟨lasting_unmoved.alloc m ho, rfl⟩
  setCell m _ v hi := ⟨lasting_unmoved.setCell m v hi, rfl⟩
  setGlobal m ix v := ⟨lasting_unmoved.setGlobal m ix v, rfl⟩

theorem fuel_eq (B : Nat) (m : Machine) :
    m.fuel B = B ^ (m.frameLimit - m.callers.size) * (m.current.left m.heap +
      B * Nat.ofDigits B (m.callers.toList.reverse.map (Frame.left m.heap))) := by
  rw [fuel, List.map_cons, Nat.ofDigits_cons]

/-- Only the code objects matter for the bytes before an activation. -/
theorem left_congr {h h' : Heap} (hc : ∀ i, h'.code? i = h.code? i) : Frame.left h' = Frame.left h := by
  funext f
  rw [Frame.left, hc, Frame.left]

/-- Nothing is counted but the place in the code and the calls. -/
theorem Steady.fuel (h : Steady m m') (B : Nat) : m'.fuel B = m.fuel B := by
  rw [Machine.fuel, Machine.fuel, h.limit, h.current, h.callers, left_congr h.code]

/-- The next instruction lies before the end of its code. -/
theorem left_of_instr? {i : Instr} (hi : m.instr? = some i) {ip : Nat} (hip : m.current.ip < ip) :
    (m.moved ip).current.left m.heap < m.current.left m.heap := by
  obtain ⟨c, hc, hf⟩ := Option.bind_eq_some_iff.1 hi
  have hlt : m.current.ip < c.bytes.size := by
    by_contra hge
    rw [Instr.fetch, Instr.fetchOp, Array.getElem?_eq_none (by omega)] at hf
    cases hf
  change Frame.left m.heap { m.current with ip := ip } < _
  rw [Frame.left, Frame.left, hc]
  dsimp only
  omega

/-- The fuel falls when the current activation goes on at a later place. -/
theorem fuel_moved (hB : 0 < B) {i : Instr} (hi : m.instr? = some i) {ip : Nat}
    (hip : m.current.ip < ip) : (m.moved ip).fuel B < m.fuel B := by
  rw [fuel_eq, fuel_eq]
  exact Nat.mul_lt_mul_of_pos_left (Nat.add_lt_add_right (left_of_instr? hi hip) _) (Nat.pow_pos hB)

/-- A call costs one of the calls that may still be opened, and a part of the code of the caller. -/
theorem fuel_calling {i : Instr} {f : Closure} {c : Code} {argc ip : Nat} (hi : m.instr? = some i)
    (hip : m.current.ip < ip) (hc : m.heap.code? f.code = some c) (hB : c.bytes.size < B)
    (hl : m.callers.size < m.frameLimit) : ((m.moved ip).calling f c argc).fuel B < m.fuel B := by
  have hcode : Frame.left ((m.moved ip).calling f c argc).heap = Frame.left m.heap :=
    left_congr (lasting_unmoved.addCells m c.own.size).code
  rw [fuel_eq, fuel_eq, hcode]
  simp only [calling, moved, Array.size_push, Array.toList_push, List.reverse_append,
    List.reverse_singleton, List.singleton_append, List.map_cons, Nat.ofDigits_cons]
  have hcaller := left_of_instr? hi hip
  have hstart : Frame.left m.heap ⟨0, m.stack.height - argc - 1, f.code,
      f.cells ++ Array.range' m.heap.size c.own.size⟩ < B := by
    rw [Frame.left, hc]
    exact hB
  change Frame.left m.heap { m.current with ip := ip } < _ at hcaller
  generalize Frame.left m.heap ⟨0, _, _, _⟩ = start at hstart ⊢
  generalize Frame.left m.heap { m.current with ip := ip } = after at hcaller ⊢
  generalize Nat.ofDigits B _ = rest
  obtain ⟨k, hk⟩ : ∃ k, m.frameLimit - m.callers.size = k + 1 :=
    ⟨m.frameLimit - m.callers.size - 1, by omega⟩
  rw [hk, show m.frameLimit - (m.callers.size + 1) = k by omega, Nat.pow_succ, Nat.mul_assoc]
  refine Nat.mul_lt_mul_of_pos_left ?_ (Nat.pow_pos (by omega))
  calc start + B * (after + B * rest)
      < B + B * (after + B * rest) := Nat.add_lt_add_right hstart _
    _ = B * (after + 1 + B * rest) := by ring
    _ ≤ B * (m.current.left m.heap + B * rest) :=
      Nat.mul_le_mul_left B (Nat.add_le_add_right hcaller _)

/-- A return gives back a call that may be opened, but the activation had some code before it. -/
theorem fuel_returning {i : Instr} {f : Frame} (hi : m.instr? = some i) (hB : 0 < B)
    (hf : m.callers.back? = some f) (hl : m.callers.size ≤ m.frameLimit) :
    fuel B { m with current := f, callers := m.callers.pop } < m.fuel B := by
  obtain ⟨fs, hfs⟩ := Array.back?_eq_some_iff.1 hf
  have hleft : 0 < m.current.left m.heap :=
    Nat.lt_of_le_of_lt (Nat.zero_le _) (left_of_instr? hi (Nat.lt_succ_self _))
  rw [fuel_eq, fuel_eq]
  simp only [hfs, Array.pop_push, Array.size_push, Array.toList_push, List.reverse_append,
    List.reverse_singleton, List.singleton_append, List.map_cons, Nat.ofDigits_cons]
  rw [hfs, Array.size_push] at hl
  generalize f.left m.heap + B * _ = waiting
  obtain ⟨k, hk⟩ : ∃ k, m.frameLimit - fs.size = k + 1 := ⟨m.frameLimit - fs.size - 1, by omega⟩
  rw [hk, show m.frameLimit - (fs.size + 1) = k by omega, Nat.pow_succ, Nat.mul_assoc]
  exact Nat.mul_lt_mul_of_pos_left (by omega) (Nat.pow_pos hB)

/-- Code objects are shorter than `B`, and no more calls are open than may be. -/
structure Bounded (B : Nat) (m : Machine) : Prop where
  codes : ∀ i c, m.heap.code? i = some c → c.bytes.size < B
  calls : m.callers.size ≤ m.frameLimit

/-- The next instruction does not jump back. -/
def GoesOn (m : Machine) : Prop := ∀ i, m.instr? = some i → ∀ t, i.address? = some t → m.current.ip < t.toNat

theorem Steady.bounded (h : Steady m m') (hb : m.Bounded B) : m'.Bounded B where
  codes i c hc := hb.codes i c ((h.code i).symm.trans hc)
  calls := by
    rw [h.callers, h.limit]
    exact hb.calls

/-- Each step takes some of the fuel. -/
theorem Advances.fuel (h : Advances Steady m m') (hb : m.Bounded B) (hm : m.GoesOn) :
    m'.fuel B < m.fuel B ∧ m'.Bounded B := by
  have pos {i : Instr} (hi : m.instr? = some i) : 0 < B := by
    obtain ⟨c, hc, -⟩ := Option.bind_eq_some_iff.1 hi
    exact Nat.lt_of_le_of_lt (Nat.zero_le _) (hb.codes _ c hc)
  have past (i : Instr) : m.current.ip < m.current.ip + i.size := Nat.lt_add_of_pos_right i.size_pos
  cases h with
  | @stays i hi _ _ h =>
    have hb' : (m.past i).Bounded B := ⟨hb.codes, hb.calls⟩
    rw [h.fuel B]
    exact ⟨fuel_moved (pos hi) hi (past i), h.bounded hb'⟩
  | @jumps i t m₁ hi ht h hm' =>
    subst hm'
    have hb' : (m.past i).Bounded B := ⟨hb.codes, hb.calls⟩
    have moved : Steady (m.moved t.toNat) (m₁.moved t.toNat) :=
      ⟨⟨by rw [Machine.moved, h.current]; rfl, h.callers, h.code, h.native⟩, h.limit⟩
    rw [moved.fuel B]
    exact ⟨fuel_moved (pos hi) hi (hm i hi t ht), moved.bounded ⟨hb.codes, hb.calls⟩⟩
  | @enters argc f c hi _ hc _ hl hm' =>
    subst hm'
    have hcells := lasting_unmoved.addCells m c.own.size
    refine ⟨fuel_calling hi (past _) hc (hb.codes _ _ hc) hl, fun i c' hc' => ?_, ?_⟩
    · exact hb.codes i c' ((hcells.code i).symm.trans hc')
    · simp only [calling, Machine.past, Array.size_push]
      omega
  | @returns f hi hf hm' =>
    subst hm'
    refine ⟨fuel_returning hi (pos hi) hf hb.calls, hb.codes, ?_⟩
    simp only [Array.size_pop]
    exact Nat.le_trans (Nat.sub_le _ _) hb.calls

/-! ## Runs -/

/-- In code that leads forward no instruction jumps back. -/
theorem Sound.goesOn (hA : ∀ i, A i → ∃ c, W.heap.code? i = some c ∧ c.Forward) (h : m.Sound A W) :
    m.GoesOn := by
  intro i hi t ht
  obtain ⟨r, σ, vs, rest, hr, pre, post, hbody, hip, -⟩ := h
  rw [Nat.zero_add] at hip
  obtain ⟨c, hc, is, hbytes, hforward⟩ := hA _ hr.runs.trusted
  cases hr.runs.code.symm.trans hc
  cases Instr.bytes_inj (hbytes.symm.trans hr.runs.sound.bytes)
  obtain ⟨j, js, hj⟩ := List.exists_cons_of_ne_nil (List.append_ne_nil_of_right_ne_nil post
    (List.cons_ne_nil r.last []))
  have hcode : r.body ++ [r.last] = pre ++ j :: js := by rw [hbody, List.append_assoc, hj]
  have hfetch : m.instr? = some j := by
    refine instr?_eq hr.code? ?_
    rw [hbytes, hcode, hip, Instr.fetch_bytes]
  cases hi.symm.trans hfetch
  exact hforward _ i (Instr.mem_placed.2 ⟨pre, js, hcode, hip.trans (Nat.zero_add _).symm⟩) t ht

/-- A run of code that leads forward ends. -/
theorem exists_run (hW : W.Safe A) (hA : ∀ i, A i → ∃ c, W.heap.code? i = some c ∧ c.Forward)
    (hs : m.Sound A W) (hb : m.Bounded B) : ∃ budget ending, run budget m = some ending := by
  induction hn : m.fuel B using Nat.strong_induction_on generalizing m with
  | _ n ih =>
    have hsound := step_sound hW hs
    have hstep : Ends step m _ _ := ends_step (m := m) lasting_steady fun _ _ _ _ _ _ _ => trivial
    cases hx : step m with
    | error e m' => exact ⟨1, .error e m', by rw [run, hx]⟩
    | ok o m' =>
      cases o with
      | some v => exact ⟨1, .ok v m', by rw [run, hx]⟩
      | none =>
        obtain ⟨hlt, hb'⟩ := (hstep.ok hx).fuel hb (hs.goesOn hA)
        obtain ⟨budget, ending, hr⟩ := ih _ (hn ▸ hlt) (hsound.ok hx) hb' rfl
        exact ⟨budget + 1, ending, by rw [run, hx]; exact hr⟩

/-- How many bytes of code an object has. -/
def codeLength : Object → Nat
  | .code c => c.bytes.size
  | _ => 0

/-- The code objects on a heap are bounded in length. -/
theorem exists_bounded (m : Machine) (hl : m.callers.size ≤ m.frameLimit) : ∃ B, m.Bounded B := by
  refine ⟨(m.heap.objects.toList.map codeLength).sum + 1, fun i c hc => ?_, hl⟩
  have hmem : Object.code c ∈ m.heap.objects.toList :=
    Array.mem_toList_iff.2 (Array.mem_of_getElem? (Heap.code?_eq_some.1 hc))
  exact Nat.lt_succ_of_le (List.le_sum_of_mem (List.mem_map.2 ⟨_, hmem, rfl⟩))

end Machine

/-! ## Engines -/

namespace Engine

variable {e : Engine} {mains : List Handle} {main : Handle}

/-- Only code that leads forward can be run where programs without loops have been compiled. -/
theorem ReachableBy.forward (he : ReachableBy Expr.LoopFree e mains) :
    e.Holds (fun W i => ∃ c, W.heap.code? i = some c ∧ c.Forward) mains := by
  refine he.holds ⟨fun hl ⟨c, hc, hf⟩ => ⟨c, hl.code? hc, hf⟩⟩ fun program h g main hl hr => ?_
  exact program.supplies_forward hl hr

/-- Every run of a program ends if no program with a loop has been compiled, however the functions
    call themselves or each other: with a value or with a fault. -/
theorem ReachableBy.run_ends (he : ReachableBy Expr.LoopFree e mains) (hm : main ∈ mains) :
    ∃ budget ending, Machine.runMain budget main e.machine = some ending := by
  obtain ⟨A, hW, hA, hp⟩ := he.forward
  have hload := Machine.load_sound (m := e.machine) hW (hp main hm) rfl
  cases hl : Machine.load main e.machine with
  | error f m => exact ⟨0, .error f m, by rw [Machine.runMain, hl]⟩
  | ok _ m =>
    have hcalls : Ends (Machine.load main) e.machine (fun _ m => m.callers = #[]) fun _ _ => True :=
      Machine.ends_load trivial trivial fun _ _ => rfl
    obtain ⟨B, hb⟩ := m.exists_bounded (by rw [hcalls.ok hl]; exact Nat.zero_le _)
    obtain ⟨budget, ending, hr⟩ := Machine.exists_run hW hA (hload.ok hl) hb
    exact ⟨budget, ending, by rw [Machine.runMain, hl]; exact hr⟩

/-- A function that calls itself without end. -/
def endless : List Char := "(def f () (f)) (f)".toList

set_option maxRecDepth 4000 in
theorem run_ends_endless :
    ReachableBy Expr.LoopFree (after (compile endless (.start .usual .quiet))) [6] ∧
      ∃ budget ending,
        Machine.runMain budget 6 (after (compile endless (.start .usual .quiet))).machine = some ending := by
  have hm : returned (compile endless (.start .usual .quiet)) = [6] := by cbv
  have hl : (Expr.parseProgram endless).toOption.map (fun program =>
      (Form.ofResolved "lambda" program.resolveProgram.1).loops.length) = some 0 := by cbv
  have hc : (start .usual .quiet).Admits Expr.LoopFree endless := by
    intro program hp main _
    rw [hp] at hl
    exact List.length_eq_zero_iff.1 (Option.some.inj hl)
  have he : ReachableBy Expr.LoopFree (after (compile endless (.start .usual .quiet))) [6] := by
    rw [← hm, ← List.append_nil (returned _)]
    exact .compile endless (.start .usual .quiet) hc
  exact ⟨he, he.run_ends List.mem_cons_self⟩

end Engine

end ByteLisp
