/-
  ByteLisp: the steps of two machines in step.

  * `Machine.Current` tells what the current activations have in common;
  * `Machine.both_execute`: corresponding instructions go on in step;
  * `Machine.Twins.step`: so do the machines, until the first one comes to the end
    of its program; `Machine.Tandem.run`: the second machine gets to that place.
-/
import ByteLisp.Proofs.Joined.Operations
import ByteLisp.Proofs.Meaning.Follows

namespace ByteLisp

variable {A : Handle → Prop} {W : World} {S : Nat → Prop} {R R' : Nat → Nat → Prop} {G : Ground}
  {us us' : List Value} {u u' v : Value} {m m' M : Machine} {dist skip ip ip' : Nat} {last : List Instr}
  {c c' : Code} {i i' : Instr} {σ : Shape}

/-- The program of the first machine does not reach its main function. -/
structure Ground.Cleared (W : World) (G : Ground) : Prop where
  arity : G.code.arity = 0
  clear : ∀ code, G.code.bytes = Instr.bytes (code ++ [.halt]) → Clear W G.code 0 (plain 1) code

namespace Machine

/-- The current activations run code of which the first is a part of the second. -/
structure Current (R : Nat → Nat → Prop) (dist skip : Nat) (last : List Instr) (c c' : Code)
    (m m' : Machine) : Prop where
  frame : m.current.Twin R dist skip m'.current
  code : m.heap.code? m.current.code = some c
  code' : m'.heap.code? m'.current.code = some c'
  part : c.Part R dist skip last c'

/-- The current activation is the earliest one, or a call. -/
theorem Twins.current (h : Twins S R G us us' m M) (hc : m.heap.code? m.current.code = some c) :
    (m.callers = #[] ∧ M.callers = #[] ∧ m.current.base = 0 ∧ M.current.code = G.main' ∧
      M.current.cells = G.cells' ∧ c = G.code ∧ Current R G.dist G.skip [.halt] c G.code' m M) ∨
    0 < m.current.base ∧ ∃ c', Current R 0 0 [] c c' m M := by
  have hframes := h.frames
  unfold Machine.frames at hframes
  generalize hfs : m.callers.toList.reverse = fs, hfs' : M.callers.toList.reverse = fs' at hframes
  cases hframes with
  | ground ht hb hmain hmain' hcells =>
    rw [List.reverse_eq_nil_iff, Array.toList_eq_nil_iff] at hfs hfs'
    have hcode := h.code
    rw [← hmain, hc] at hcode
    cases hcode
    exact Or.inl ⟨hfs, hfs', hb, hmain', hcells, rfl, ht, hc, hmain' ▸ h.code', h.part⟩
  | call ht hb hcode _ =>
    obtain ⟨c', hc', htwin⟩ := h.worlds.code? hcode hc
    exact Or.inr ⟨hb, c', ht, hc, hc', htwin.part⟩

/-- The machines go on at other places. -/
theorem Twins.moved (h : Twins S R G us us' m M)
    (hip : ∀ dist, M.current.ip = m.current.ip + dist → ip' = ip + dist) :
    Twins S R G us us' { m with current := { m.current with ip := ip } }
      { M with current := { M.current with ip := ip' } } := { h with frames := h.frames.moved hip }

/-! ## Instructions -/

/-- The run goes on, in step. -/
def Goes (S : Nat → Prop) (G : Ground) (o o' : Option Value) (m m' : Machine) : Prop :=
  o = none ∧ o' = none ∧ Tandem S G m m'

theorem both_goes {α β : Type} {x : Run α} {y : Run β} (h : Both x y m M fun _ _ => Tandem S G) :
    Both (do let _ ← x; pure none) (do let _ ← y; pure none) m M (Goes S G) :=
  both_bind (h.mono fun _ _ _ _ h => both_pure ⟨rfl, rfl, h⟩)

theorem matched_goto (h : Twins S R G us us' m M) {t t' : Nat} (hf : m.current.Twin R dist skip M.current)
    (ht : t' = t + dist) : Matched S G (goto t) (goto t') m M := by
  refine ends_of_ok () _ rfl ⟨(), _, rfl, (h.moved fun d hd => ?_).tandem⟩
  rw [ht, Nat.add_left_cancel (hd.symm.trans hf.ip)]

theorem both_cellAt {ix ix' : UInt8} {P : Handle → Handle → Machine → Machine → Prop}
    (h : Twins S R G us us' m M)
    (hf : m.current.Twin R dist skip M.current) (hix : ix'.toNat = ix.toNat + skip)
    (hP : ∀ i j, R i j → P i j m M) : Both (cellAt ix) (cellAt ix') m M P := by
  cases hi : m.current.cells[ix.toNat]? with
  | none => exact ends_of_error .corrupted m (by rw [cellAt, hi]) h.tame
  | some i =>
    obtain ⟨j, hj, hij⟩ := hf.cells _ i hi
    rw [← hix] at hj
    exact ends_cellAt hi ⟨j, M, ok_of_ends (ends_cellAt hj ⟨rfl, rfl⟩), hP i j hij⟩

theorem both_jumpIfFalse (h : Twins S R G us us' m M) {t t' : UInt16}
    (hf : m.current.Twin R dist skip M.current) (ht : t'.toNat = t.toNat + dist) (hn : 1 ≤ us.length) :
    Both (execute (.jumpIfFalse t)) (execute (.jumpIfFalse t')) m M (Goes S G) := by
  obtain ⟨low, hl⟩ := h.values
  obtain ⟨low', hl'⟩ := h.values'
  have hs := h.stack
  -- Popping leaves the activations as they are, so the values are taken here.
  cases hs with
  | nil => exact absurd hn (Nat.not_succ_le_zero 0)
  | @cons u u' ws ws' hu hs =>
    have h₁ : Twins S R G ws ws' (m.put (ws ++ [low])) (M.put (ws' ++ [low'])) := h.put hs
    refine both_bind (ends_pop hl ⟨u', M.put (ws' ++ [low']), ok_of_ends (ends_pop hl' ⟨rfl, rfl⟩), ?_⟩)
    cases hu with
    | number | object => exact both_bind (both_typeFault h₁.tame)
    | boolean b =>
      cases b with
      | true => exact both_pure ⟨rfl, rfl, h₁.tandem⟩
      | false => exact both_goes (matched_goto h₁ hf ht)

theorem both_getGlobal (h : Twins S R G us us' m M) (ix : UInt8) :
    Both (execute (.getGlobal ix)) (execute (.getGlobal ix)) m M (Goes S G) := by
  refine both_get (both_bind (both_expect h.tame fun x hx => ?_))
  obtain ⟨x', hx', -, hv⟩ := h.worlds.globals.global _ x hx
  refine ⟨x', hx', ?_⟩
  generalize x.value = o, x'.value = o' at hv
  cases hv with
  | none => exact both_bind (both_throw h.tame)
  | some hv => exact both_goes (matched_push h hv)

theorem both_setGlobal (h : Twins S R G us us' m M) (ix : UInt8) (hn : 1 ≤ us.length) :
    Both (execute (.setGlobal ix)) (execute (.setGlobal ix)) m M (Goes S G) := by
  refine both_bind (both_peek h hn fun u u' _ _ hu =>
    both_get (both_guard h.tame (fun hle => ?_) fun hlt => ?_))
  · exact Nat.le_trans h.worlds.globals.size_le hle
  · refine both_goes (ends_of_ok _ _ rfl ⟨_, _, rfl, R, us, us', ?_⟩)
    exact { h with worlds := h.worlds.setGlobal (Nat.lt_of_not_le hlt) hu }

theorem both_setCell (h : Twins S R G us us' m M) {ix ix' : UInt8} (hf : m.current.Twin R dist skip M.current)
    (hix : ix'.toNat = ix.toNat + skip) (hn : 1 ≤ us.length) :
    Both (execute (.setCell ix)) (execute (.setCell ix')) m M (Goes S G) := by
  refine both_bind (both_cellAt h hf hix fun i j hij => both_bind (both_peek h hn fun u u' _ _ hu =>
    both_get ?_))
  refine both_bind (both_expect h.tame fun w hw => ?_)
  obtain ⟨w', hw', -⟩ := h.worlds.cell? hij hw
  refine ⟨w', hw', both_goes (ends_of_ok _ _ rfl ⟨_, _, rfl, R, us, us', ?_⟩)⟩
  have hi : m.heap.IsCell i := ⟨w, hw⟩
  have hj : M.heap.IsCell j := ⟨w', hw'⟩
  exact h.later (fun _ _ h => h) (h.worlds.setCell hij hi hu) (by rw [Heap.code?_setCell hi]; exact h.code)
    (by rw [Heap.code?_setCell hj]; exact h.code')

theorem both_scopeExit (h : Twins S R G us us' m M) {n : UInt8} (hn : n.toNat < us.length) :
    Both (execute (.scopeExit n)) (execute (.scopeExit n)) m M (Goes S G) := by
  by_cases h0 : n = 0
  · subst h0
    exact both_pure ⟨rfl, rfl, h.tandem⟩
  · simp only [execute, if_pos h0]
    refine both_bind (both_pop h (Nat.zero_lt_of_lt hn) fun u u' ws ws' m₁ M₁ hus _ hu h₁ => ?_)
    have hws : n.toNat ≤ ws.length := by
      rw [hus, List.length_cons] at hn
      omega
    exact both_bind (both_drop h₁ hws fun _ _ h₂ => both_goes (matched_push h₂ hu))

/-- Corresponding instructions that do not reach the main functions go on in step. -/
theorem both_execute (h : Twins S R G us us' m M) (hc : Current R dist skip last c c' m M)
    (hi : i.Twin R c.constants c'.constants dist skip i') (hreach : i.reach ≤ us.length)
    (hslot : ∀ ix, i.slot? = some ix → 0 < m.current.base + ix.toNat) :
    Both (execute i) (execute i') m M (Goes S G) := by
  cases hi with
  | @const ix ix' u u' hu hu' htwin =>
    refine both_get
      (both_bind (ends_codeAt hc.code ⟨c', M, ok_of_ends (ends_codeAt hc.code' ⟨rfl, rfl⟩), ?_⟩))
    refine both_bind (both_expect h.tame fun w hw => ⟨u', hu', ?_⟩)
    cases hu.symm.trans hw
    exact both_goes (matched_push h htwin)
  | jump ht => exact both_goes (matched_goto h hc.frame ht)
  | jumpIfFalse ht => exact both_jumpIfFalse h hc.frame ht hreach
  | getCell hix =>
    refine both_bind (both_cellAt h hc.frame hix fun i j hij => both_get ?_)
    refine both_bind (both_expect h.tame fun w hw => ?_)
    obtain ⟨w', hw', htwin⟩ := h.worlds.cell? hij hw
    exact ⟨w', hw', both_goes (matched_push h htwin)⟩
  | setCell hix => exact both_setCell h hc.frame hix hreach
  | loadCell hix =>
    exact both_bind (both_cellAt h hc.frame hix fun i j hij => both_goes (matched_push h (.object hij)))
  | fixed hi =>
    cases i with
    | halt | const | jump | jumpIfFalse | getCell | setCell | loadCell => exact hi.elim
    | add => exact both_goes (matched_add h hreach)
    | sub => exact both_goes (matched_arithmetic .sub _ h hreach)
    | mul => exact both_goes (matched_arithmetic .mul _ h hreach)
    | div => exact both_goes (matched_arithmetic .div _ h hreach)
    | cmp code =>
      simp only [execute]
      cases Comparison.ofCode? code with
      | none => exact both_bind (both_throw h.tame)
      | some c => exact both_goes (matched_compare c h hreach)
    | getGlobal ix => exact both_getGlobal h ix
    | setGlobal ix => exact both_setGlobal h ix hreach
    | pop => exact both_goes (both_pop h hreach fun _ _ _ _ _ _ _ _ _ h => h.tandem)
    | getLocal slot =>
      refine both_get ?_
      rw [hc.frame.base]
      exact both_bind (both_local h (hslot slot rfl) fun u u' hu => both_goes (matched_push h hu))
    | setLocal slot =>
      refine both_bind (both_peek h hreach fun u u' _ _ hu => both_get ?_)
      rw [hc.frame.base]
      exact both_goes (both_setLocal h (hslot slot rfl) hu fun _ _ _ _ _ h => h.tandem)
    | scopeExit n => exact both_scopeExit h hreach
    | call n => exact both_goes (matched_call h hreach)
    | ret => exact both_goes (matched_ret h)
    | makeFunction n => exact both_goes (matched_makeFunction h hreach)

/-! ## Steps -/

theorem reach_le_of_fits (hf : i.Fits A W c σ) : i.reach ≤ σ.length := by
  have ha := hf.awaits
  have ho := hf.operand
  cases i with
  | scopeExit n => exact ho
  | makeFunction n =>
    obtain ⟨l, rfl⟩ := ho
    simp [loaded]
  | const | loadCell => exact Nat.zero_le _
  | _ =>
    obtain ⟨n, hn, rfl⟩ := ha
    rw [length_plain]
    exact hn

/-- The first machine is at the end of its program, the second one behind the same code. -/
structure Arrived (S : Nat → Prop) (G : Ground) (v : Value) (m m' : Machine) : Prop where
  instr : m.instr? = some .halt
  twins : ∃ R v', Twins S R G [v] [v'] m m'
  current : ∃ code, G.code.bytes = Instr.bytes (code ++ [.halt]) ∧
    m'.current = ⟨Instr.total code + G.dist, 0, G.main', G.cells'⟩
  callers : m'.callers = #[]

/-- The next instructions go on in step. -/
theorem Twins.goes (h : Twins S R G us us' m M) (hc : Current R dist skip last c c' m M)
    (hi : m.instr? = some i) (hfetch : Instr.fetch c'.bytes (m.current.ip + dist) = .ok i')
    (htwin : i.Twin R c.constants c'.constants dist skip i') (hreach : i.reach ≤ us.length)
    (hslot : ∀ ix, i.slot? = some ix → 0 < m.current.base + ix.toNat) : Both step step m M (Goes S G) := by
  rw [← hc.frame.ip] at hfetch
  have hi' : M.instr? = some i' := instr?_eq hc.code' hfetch
  have moved : Twins S R G us us' (m.past i) (M.past i') := h.moved fun d hd => by
    rw [hd, htwin.size_eq]
    omega
  have current : Current R dist skip last c c' (m.past i) (M.past i') := by
    refine ⟨⟨?_, hc.frame.base, hc.frame.cells⟩, hc.code, hc.code', hc.part⟩
    change M.current.ip + i'.size = m.current.ip + i.size + dist
    rw [hc.frame.ip, htwin.size_eq]
    omega
  have both := both_execute moved current htwin hreach hslot
  unfold Both Ends at both ⊢
  rwa [step_of_instr? hi, step_of_instr? hi']

/-- The machines go on in step, or else the first one has come to the end of its program. -/
theorem Twins.step (h : Twins S R G us us' m M) (hs : m.Sound A W) (hG : G.Cleared W) :
    (∃ v, Arrived S G v m M) ∨ Both step step m M (Goes S G) := by
  obtain ⟨r, σ, vs, rest, hr, pre, post, hbody, hip, hσ⟩ := hs
  rw [Nat.zero_add] at hip
  have hsound := hr.runs.sound
  have hbytes := hsound.bytes
  rw [hbody] at hbytes
  have fetched {i : Instr} {post : List Instr} (hb : r.code.bytes = Instr.bytes (pre ++ i :: post)) :
      m.instr? = some i := instr?_eq hr.code? (by rw [hb, hip]; exact Instr.fetch_bytes ..)
  have hheight := hr.height
  rw [h.height.1] at hheight
  rcases h.current hr.code? with ⟨hcallers, hcallers', hbase, hmain', hcells', hcode, hc⟩ | ⟨hbase, c', hc⟩
  · have hlast : r.last = .halt := by
      have hw := hr.waiting
      rw [hcallers] at hw
      generalize r.last = last at hw
      cases hw with
      | bottom => rfl
    rw [hlast] at hbytes
    rw [hbase, Nat.zero_add] at hheight
    cases post with
    | nil =>
      rw [List.append_nil] at hbody hbytes
      have hdepth : r.depth = 2 := by
        rcases hsound.last with ⟨hret, -⟩ | ⟨-, hd⟩
        · cases hlast.symm.trans hret
        · exact hd
      have hlen : us.length = 1 := by
        rw [hσ, ← hbody, hsound.balanced.scan, hdepth, length_plain] at hheight
        exact Nat.succ.inj hheight
      obtain ⟨v, rfl⟩ := List.length_eq_one_iff.1 hlen
      obtain ⟨v', rfl⟩ := List.length_eq_one_iff.1 (h.length_eq.trans hlen)
      refine Or.inl ⟨v, fetched hbytes, ⟨R, v', h⟩, ⟨pre, hcode ▸ hbytes, ?_⟩, hcallers'⟩
      have hcurrent : M.current = ⟨M.current.ip, M.current.base, M.current.code, M.current.cells⟩ := rfl
      rw [hcurrent, hc.frame.ip, hc.frame.base, hip, hbase, hmain', hcells']
    | cons i post =>
      have hclear := hG.clear (pre ++ i :: post) (hcode ▸ hbytes) pre i post rfl
      rw [← hcode, show 1 = r.code.arity + 1 by rw [hcode, hG.arity], ← hσ] at hclear
      rw [List.append_assoc, List.cons_append] at hbytes
      rcases hc.part.fetch hbytes with hmem | ⟨i', hi', htwin⟩
      · obtain rfl := List.mem_singleton.1 hmem
        exact (hsound.balanced.typed pre .halt post hbody).1.operand.elim
      · have hreach := hclear.reach
        exact Or.inr (h.goes hc (fetched hbytes) (hip ▸ hi') htwin (by omega) fun ix hix =>
          Nat.add_pos_right _ (hclear.slot ix hix))
  · have slots {i : Instr} (ix : UInt8) (_ : i.slot? = some ix) : 0 < m.current.base + ix.toNat :=
      Nat.add_pos_left hbase _
    cases post with
    | nil =>
      rw [List.append_nil] at hbytes
      rcases hc.part.fetch hbytes with hmem | ⟨i', hi', htwin⟩
      · cases hmem
      · refine Or.inr (h.goes hc (fetched hbytes) (hip ▸ hi') htwin ?_ slots)
        rcases hsound.last with ⟨hl, -⟩ | ⟨hl, -⟩ <;> rw [hl] <;> exact Nat.zero_le _
    | cons i post =>
      have hreach := reach_le_of_fits (hsound.balanced.typed pre i post hbody).1
      rw [← hσ] at hreach
      rw [List.append_assoc, List.cons_append] at hbytes
      rcases hc.part.fetch hbytes with hmem | ⟨i', hi', htwin⟩
      · cases hmem
      · exact Or.inr (h.goes hc (fetched hbytes) (hip ▸ hi') htwin (by omega) slots)

/-! ## Runs -/

/-- A run ends with the value above the main function. -/
theorem step_halt {low : Value} (hi : m.instr? = some .halt) (hv : m.stack.values = [v] ++ [low]) :
    step m = .ok (some v) ((m.past .halt).put [low]) := by
  rw [step_of_instr? hi]
  refine ok_of_ends (ends_map (ends_bind (ends_height ?_)))
  have hlt : 1 < (m.past .halt).stack.values.length := by
    change 1 < m.stack.values.length
    rw [hv]
    exact Nat.one_lt_two
  rw [if_pos hlt]
  exact ends_pop hv ⟨rfl, rfl⟩

/-- How a run ends that another machine follows. -/
def Ending.Followed (S : Nat → Prop) (G : Ground) (M : Machine) : Ending → Prop
  | .ok v m => ∃ m₁ M₁, Arrived S G v m₁ M₁ ∧ M.Reaches M₁ ∧ m.world = m₁.world
  | .error _ m => m.world.Tame

/-- The second machine follows the run of the first one. -/
theorem Tandem.run {budget : Nat} {ending : Ending} (hW : W.Safe A) (hG : G.Cleared W) (h : Tandem S G m M)
    (hs : m.Sound A W) (hr : run budget m = some ending) : ending.Followed S G M := by
  induction budget generalizing m M with
  | zero => cases hr
  | succ budget ih =>
    obtain ⟨R, us, us', h⟩ := h
    rcases h.step hs hG with ⟨v, hv⟩ | hboth
    · obtain ⟨R', v', htwins⟩ := hv.twins
      obtain ⟨low, hl⟩ := htwins.values
      have hstep := step_halt hv.instr hl
      rw [Machine.run, hstep] at hr
      cases hr
      exact ⟨m, M, hv, .start, rfl⟩
    · have hk := step_sound hW hs
      rw [Machine.run] at hr
      cases hstep : Machine.step m with
      | error e m' =>
        rw [hstep] at hr
        cases hr
        exact hboth.error hstep
      | ok o m' =>
        rw [hstep] at hr
        obtain ⟨o', M', hstep', rfl, rfl, htandem⟩ := hboth.ok hstep
        have hending := ih htandem (hk.ok hstep) hr
        cases ending with
        | error e m₁ => exact hending
        | ok v m₁ =>
          obtain ⟨m₂, M₂, harr, hreach, hworld⟩ := hending
          exact ⟨m₂, M₂, harr, (reaches_step hstep').trans hreach, hworld⟩

end Machine

end ByteLisp
