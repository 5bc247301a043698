/-
  ByteLisp: what closures hold.

  * `Machine.Captures`: the cells of a closure are those of the current activation
    that have the names which its code object captures;
  * `Pushed`: the cells that the latest instructions have loaded lie on top of the
    stack, and so does a constant pushed after them. No jump leads between such
    instructions, as there are cells on the stack (`not_plain`);
  * `Machine.Gathering` is the invariant of runs, `Gathering.captures` what follows
    for closures.
-/
import ByteLisp.Proofs.Generation.Captures
import ByteLisp.Proofs.Machine.Calls

namespace ByteLisp

/-- A closure holds cells of the current activation: the one that its code object captures under a
    name is one that the current code object has under this name. -/
structure Machine.Captures (m : Machine) (g : Closure) (c c' : Code) : Prop where
  maker : m.heap.code? m.current.code = some c
  code : m.heap.code? g.code = some c'
  size : g.cells.size = c'.free.size
  shared : ∀ k < c'.free.size, ∃ j : Nat,
    c.cellNames[j]? = c'.free[k]? ∧ m.current.cells[j]? = g.cells[k]?

/-- The cells with some numbers lie on top of the values, the last one uppermost. -/
def Loaded (cells : Array Handle) (numbers : List UInt8) (values : List Value) : Prop :=
  ∃ (hs : List Handle) (rest : List Value), hs.map some = numbers.map (fun l => cells[l.toNat]?) ∧
    values = (hs.map .object).reverse ++ rest

/-- What the latest instructions have pushed to make a closure of it lies on top of the values. -/
structure Pushed (c : Code) (cells : Array Handle) (pre : List Instr) (values : List Value) : Prop where
  loaded : ∀ before numbers, pre = before ++ numbers.map .loadCell → Loaded cells numbers values
  const : ∀ before numbers ix, numbers ≠ [] → pre = before ++ numbers.map .loadCell ++ [.const ix] →
    ∃ v vs, values = v :: vs ∧ c.constants[ix.toNat]? = some v ∧ Loaded cells numbers vs

namespace Machine

/-- A frame stands behind some instructions of its code object. -/
def Behind (m : Machine) (f : Frame) (c : Code) (pre post : List Instr) : Prop :=
  m.heap.code? f.code = some c ∧ c.bytes = Instr.bytes (pre ++ post) ∧ f.ip = Instr.total pre

/-- What the latest instructions have pushed lies on the stack; activations that wait stand behind
    calls. -/
structure Gathering (m : Machine) : Prop where
  current : ∃ c pre post, m.Behind m.current c pre post ∧ Pushed c m.current.cells pre m.stack.values
  callers : ∀ f ∈ m.callers, ∃ c pre argc post, m.Behind f c (pre ++ [.call argc]) post

end Machine

variable {A : Handle → Prop} {W W' : World} {m m' : Machine} {c c' : Code} {cells : Array Handle}
  {pre post is : List Instr} {values : List Value} {f : Frame} {rest : List Value}

/-! ## Values pushed -/

theorem loaded_nil : Loaded cells [] values := ⟨[], values, rfl, rfl⟩

theorem Loaded.push {numbers : List UInt8} {l : UInt8} {i : Handle} (h : Loaded cells numbers values)
    (hi : cells[l.toNat]? = some i) : Loaded cells (numbers ++ [l]) (.object i :: values) := by
  obtain ⟨hs, rest, hcells, rfl⟩ := h
  exact ⟨hs ++ [i], rest, by simp [hcells, hi], by simp⟩

/-- Nothing has been loaded at the start of the code, or behind an instruction that neither loads a
    cell nor pushes a constant. -/
theorem Pushed.of_last {before : List Instr} {i : Instr} (hl : ∀ l, i ≠ .loadCell l)
    (hc : ∀ ix, i ≠ .const ix) :
    Pushed c cells (before ++ [i]) values where
  loaded before' numbers h := by
    obtain rfl | ⟨numbers, l, rfl⟩ := List.eq_nil_or_concat' numbers
    · exact loaded_nil
    · rw [List.map_append, List.map_singleton, ← List.append_assoc, List.append_singleton_inj] at h
      exact absurd h.2 (hl l)
  const before' numbers ix _ h := absurd (List.append_singleton_inj.1 h).2 (hc ix)

theorem Pushed.nil : Pushed c cells [] values where
  loaded before numbers h := by
    obtain ⟨-, hn⟩ := List.append_eq_nil_iff.1 h.symm
    rw [List.map_eq_nil_iff.1 hn]
    exact loaded_nil
  const before numbers ix _ h := by simp at h

theorem Pushed.loadCell {l : UInt8} {i : Handle} (h : Pushed c cells pre values)
    (hi : cells[l.toNat]? = some i) : Pushed c cells (pre ++ [.loadCell l]) (.object i :: values) where
  loaded before numbers hpre := by
    obtain rfl | ⟨numbers, l', rfl⟩ := List.eq_nil_or_concat' numbers
    · exact loaded_nil
    · rw [List.map_append, List.map_singleton, ← List.append_assoc, List.append_singleton_inj] at hpre
      obtain ⟨hpre, hl⟩ := hpre
      cases hl
      exact (h.loaded before numbers hpre).push hi
  const before numbers ix _ hpre := by cases (List.append_singleton_inj.1 hpre).2

theorem Pushed.pushConst {ix : UInt8} {v : Value} (h : Pushed c cells pre values)
    (hv : c.constants[ix.toNat]? = some v) : Pushed c cells (pre ++ [.const ix]) (v :: values) where
  loaded before numbers hpre := by
    obtain rfl | ⟨numbers, l, rfl⟩ := List.eq_nil_or_concat' numbers
    · exact loaded_nil
    · rw [List.map_append, List.map_singleton, ← List.append_assoc, List.append_singleton_inj] at hpre
      cases hpre.2
  const before numbers ix' _ hpre := by
    obtain ⟨hbefore, hix⟩ := List.append_singleton_inj.1 hpre
    cases hix
    exact ⟨v, values, rfl, hv, h.loaded before numbers hbefore⟩

/-- Behind an instruction that loads a cell there is a cell on the stack, also after one more
    constant. -/
theorem not_plain {h : Heap} {σ : Shape} {pos n : Nat} {before : List Instr} {l : UInt8} {tail : List Instr}
    (ht : tail = [] ∨ ∃ ix, tail = [.const ix]) :
    Instr.scan h c pos σ (before ++ [.loadCell l] ++ tail) ≠ plain n := by
  intro hs
  have hcell : Kind.cell ∈ Instr.scan h c pos σ (before ++ [.loadCell l] ++ tail) := by
    rw [scan_append, scan_append]
    rcases ht with rfl | ⟨ix, rfl⟩
    · exact List.mem_cons_self
    · exact List.mem_cons_of_mem _ List.mem_cons_self
  rw [hs] at hcell
  cases eq_plain_of_mem hcell

/-- Where all values are ones that programs see, nothing has been loaded. -/
theorem Pushed.of_plain {h : Heap} {σ : Shape} {pos n : Nat} (hs : Instr.scan h c pos σ pre = plain n) :
    Pushed c cells pre values where
  loaded before numbers hpre := by
    obtain rfl | ⟨numbers, l, rfl⟩ := List.eq_nil_or_concat' numbers
    · exact loaded_nil
    · rw [List.map_append, List.map_singleton, ← List.append_assoc,
        ← List.append_nil (_ ++ [Instr.loadCell l])] at hpre
      exact absurd (hpre ▸ hs) (not_plain (Or.inl rfl))
  const before numbers ix hne hpre := by
    obtain rfl | ⟨numbers, l, rfl⟩ := List.eq_nil_or_concat' numbers
    · exact absurd rfl hne
    · rw [List.map_append, List.map_singleton, ← List.append_assoc] at hpre
      exact absurd (hpre ▸ hs) (not_plain (Or.inr ⟨ix, rfl⟩))

/-- Where a jump goes, all values are ones that programs see. -/
theorem Instr.Fits.taken_plain {σ : Shape} {i : Instr} {t : UInt16} (hf : i.Fits A W c σ)
    (ht : i.address? = some t) : ∃ n, i.taken σ = plain n := by
  have ha := hf.awaits
  cases i with
  | jump _ =>
    obtain ⟨n, -, rfl⟩ := ha
    exact ⟨n, rfl⟩
  | jumpIfFalse _ =>
    obtain ⟨n, -, rfl⟩ := ha
    exact ⟨n - 1, drop_plain 1 n⟩
  | _ => cases ht

/-! ## Steps -/

namespace Machine

theorem Behind.later (h : m.Behind f c pre post) (hl : m.world.Leads m'.world) : m'.Behind f c pre post :=
  ⟨hl.code? h.1, h.2⟩

/-- The instruction that comes next. -/
theorem Behind.next {i : Instr} (h : m.Behind m.current c pre post) (hi : m.instr? = some i) :
    ∃ post', post = i :: post' ∧ m.Behind (m.past i).current c (pre ++ [i]) post' := by
  obtain ⟨hc, hb, hip⟩ := h
  rw [instr?, hc, Option.bind_some, hb, hip] at hi
  cases post with
  | nil =>
    rw [List.append_nil, ← Instr.size_bytes, Code.fetch_size] at hi
    cases hi
  | cons j post =>
    rw [Instr.fetch_bytes] at hi
    cases hi
    refine ⟨post, rfl, hc, by rw [hb]; simp, ?_⟩
    rw [Instr.total_append, Instr.total_cons, Instr.total_nil, Nat.add_zero, ← hip]
    rfl

/-- Pushing a constant. -/
theorem ends_const {ix : UInt8} (hc : m.heap.code? m.current.code = some c) :
    Ends (execute (.const ix)) m
      (fun _ m' => ∃ v, c.constants[ix.toNat]? = some v ∧ m'.stack.values = v :: m.stack.values)
      fun _ _ => True := by
  refine ends_bind (ends_get (ends_bind (ends_codeAt hc ?_)))
  cases hv : c.constant? ix.toNat with
  | none => exact ends_bind (ends_throw trivial)
  | some v => exact ends_bind (ends_pure (ends_bind (ends_push trivial (ends_pure ⟨v, hv, rfl⟩))))

/-- Pushing a cell. -/
theorem ends_loadCell {l : UInt8} :
    Ends (execute (.loadCell l)) m
      (fun _ m' => ∃ i, m.current.cells[l.toNat]? = some i ∧ m'.stack.values = .object i :: m.stack.values)
      fun _ _ => True := by
  cases hi : m.current.cells[l.toNat]? with
  | none =>
    refine ends_bind (ends_of_error .corrupted m ?_ trivial)
    rw [cellAt, hi]
  | some i => exact ends_bind (ends_cellAt hi (ends_bind (ends_push trivial (ends_pure ⟨i, rfl, rfl⟩))))

/-- What instructions leave alone that stay in the same activation. -/
structure Stays (m m' : Machine) : Prop where
  world : m.world.Leads m'.world
  current : m'.current = m.current
  callers : m'.callers = m.callers

theorem lasting_stays : Lasting Stays fun _ => True where
  raised _ _ := trivial
  refl m := ⟨.refl m.world, rfl, rfl⟩
  trans h h' := ⟨h.world.trans h'.world, h'.current.trans h.current, h'.callers.trans h.callers⟩
  stack m _ := ⟨.refl m.world, rfl, rfl⟩
  alloc m _ _ := ⟨m.world.leads_alloc _, rfl, rfl⟩
  setCell m _ _ hi := ⟨World.leads_setCell (W := m.world) hi, rfl, rfl⟩
  setGlobal m ix v := ⟨m.world.leads_setGlobal ix v, rfl, rfl⟩

/-- A step that stays in the activation keeps the invariant. -/
theorem Gathering.stays (hg : m.Gathering) {i : Instr} (hi : m.instr? = some i)
    (hs : step m = .ok none m') (hst : (m.past i).Stays m') : m'.Gathering := by
  obtain ⟨c, pre, post, hb, hp⟩ := hg.current
  obtain ⟨post, rfl, hnext⟩ := hb.next hi
  have hcells : m'.current.cells = m.current.cells := by
    rw [hst.current]
    rfl
  have hl : m.world.Leads m'.world := hst.world
  rw [step_of_instr? hi] at hs
  refine ⟨⟨c, pre ++ [i], post, ?_, ?_⟩, fun f hf => ?_⟩
  · rw [hst.current]
    exact Behind.later (m := m) hnext hl
  · rw [hcells]
    by_cases hload : ∃ l, i = .loadCell l
    · obtain ⟨l, rfl⟩ := hload
      obtain ⟨h, hh, hvalues⟩ := ends_loadCell.ok hs
      rw [hvalues]
      exact hp.loadCell hh
    by_cases hconst : ∃ ix, i = .const ix
    · obtain ⟨ix, rfl⟩ := hconst
      have hcode : (m.past (.const ix)).heap.code? (m.past (.const ix)).current.code = some c := hb.1
      obtain ⟨v, hv, hvalues⟩ := (ends_const hcode).ok hs
      rw [hvalues]
      exact hp.pushConst hv
    · exact .of_last (not_exists.1 hload) (not_exists.1 hconst)
  · rw [hst.callers] at hf
    obtain ⟨c, pre, argc, post, hf⟩ := hg.callers f hf
    exact ⟨c, pre, argc, post, hf.later hl⟩

/-- A step keeps the invariant. -/
theorem step_gathering (hW : W.Safe A) (hm : m.SoundOn A W rest) (hg : m.Gathering)
    (hs : step m = .ok none m') : m'.Gathering := by
  have hl : m.world.Leads m'.world := ((step_preserves m).ok hs).world
  have waiting (f : Frame) (hf : f ∈ m.callers) :
      ∃ c pre argc post, m'.Behind f c (pre ++ [.call argc]) post := by
    obtain ⟨c, pre, argc, post, hf⟩ := hg.callers f hf
    exact ⟨c, pre, argc, post, hf.later hl⟩
  cases (ends_step lasting_stays fun _ _ _ _ _ _ _ => trivial).ok hs with
  | stays hi _ _ h => exact hg.stays hi hs h
  | @jumps i t m₁ hi ht h hm' =>
    obtain ⟨r, σ, vs, j, hr, hj, hnext⟩ := hm.next
    cases hi.symm.trans hj
    rcases hnext with ⟨rfl, -⟩ | ⟨hfits, htaken, -⟩
    · rcases hr.runs.sound.last with ⟨hlast, -⟩ | ⟨hlast, -⟩ <;>
        · rw [hlast] at ht
          cases ht
    obtain ⟨pre, post, hbody, hip, hshape⟩ := htaken t ht
    obtain ⟨n, hplain⟩ := hfits.taken_plain ht
    have hbytes := hr.runs.sound.bytes
    rw [hbody, List.append_assoc] at hbytes
    have hcode : m'.current.code = m.current.code := by
      rw [hm']
      change m₁.current.code = _
      rw [h.current]
      rfl
    refine ⟨⟨r.code, pre, post ++ [r.last], ⟨?_, hbytes, ?_⟩, .of_plain (hshape.symm.trans hplain)⟩, ?_⟩
    · rw [hcode]
      exact World.Leads.code? (W := m.world) hl hr.code?
    · rw [hm', ← Nat.zero_add (Instr.total pre), ← hip]
      rfl
    · intro f hf
      rw [hm'] at hf
      exact waiting f (h.callers ▸ hf)
  | @enters argc f c hi hf hc ha hlt hm' =>
    obtain ⟨r, σ, vs, rest, hr, -⟩ := ((step_sound hW hm.sound).ok hs : m'.Sound A W)
    obtain ⟨c₁, pre, post, hb, -⟩ := hg.current
    obtain ⟨post, -, hnext⟩ := hb.next hi
    refine ⟨⟨r.code, [], r.body ++ [r.last], ⟨hr.code?, hr.runs.sound.bytes, ?_⟩, .nil⟩, fun g hg' => ?_⟩
    · rw [hm']
      rfl
    · rw [hm'] at hg'
      rcases Array.mem_push.1 hg' with hg' | rfl
      · exact waiting g hg'
      · exact ⟨c₁, pre, argc, post, Behind.later (m := m) hnext hl⟩
  | @returns f hi hf hm' =>
    obtain ⟨fs, hfs⟩ := Array.back?_eq_some_iff.1 hf
    obtain ⟨c, pre, argc, post, hb⟩ := waiting f (hfs ▸ Array.mem_push_self)
    have hcurrent : m'.current = f := by rw [hm']
    have hcallers : m'.callers = fs := by rw [hm', hfs, Array.pop_push]
    refine ⟨⟨c, pre ++ [.call argc], post, hcurrent ▸ hb, .of_last (by simp) (by simp)⟩, fun g hg' => ?_⟩
    rw [hcallers] at hg'
    exact waiting g (hfs ▸ Array.mem_push_of_mem f hg')

theorem load_gathering {main : Handle} (hW : m.world.Safe A) (hp : Program A m.world main)
    (hv : m.stack.values = []) (hl : load main m = .ok () m') : m'.Gathering := by
  obtain ⟨r, σ, vs, rest, hr, -⟩ := (load_sound hW hp hv).ok hl
  have hload : Ends (load main) m (fun _ m' => m'.current.ip = 0 ∧ m'.callers = #[]) fun _ _ => True :=
    ends_load trivial trivial fun c hc => ⟨rfl, rfl⟩
  obtain ⟨hip, hcallers⟩ := hload.ok hl
  refine ⟨⟨r.code, [], r.body ++ [r.last], ⟨hr.code?, hr.runs.sound.bytes, hip⟩, .nil⟩, fun f hf => ?_⟩
  rw [hcallers] at hf
  exact absurd hf (Array.not_mem_empty f)

theorem Reaches.gathering (hW : W.Safe A) (hr : m.Reaches m') (hm : m.Sound A W) (hg : m.Gathering) :
    m'.Gathering := by
  induction hr with
  | start => exact hg
  | step h hs ih =>
    obtain ⟨r, σ, vs, rest, hsound⟩ := h.sound hW hm
    exact step_gathering hW ⟨r, σ, vs, hsound⟩ ih hs

/-! ## Closures -/

theorem apply_getElem_of_map_eq {α β : Type} {f : α → Option β} {xs : List α} {ys : List β} {k : Nat}
    (h : xs.map f = ys.map some) (hk : k < xs.length) : f xs[k] = ys[k]? := by
  have hget := congrArg (·[k]?) h
  simp only [List.getElem?_map, List.getElem?_eq_getElem hk, Option.map_some] at hget
  cases hy : ys[k]? with
  | none => rw [hy] at hget; cases hget
  | some y => rw [hy] at hget; exact Option.some.inj hget

/-- Making a closure of the cells and the code object that lie on the stack. -/
theorem ends_makeFunction {h : Handle} {cells : List Handle} {below : List Value}
    {Q : Unit → Machine → Prop} {E : Fault → Machine → Prop}
    (hc : m.heap.code? h = some c) (hv : m.stack.values = .object h :: (cells.map .object).reverse ++ below)
    (ho : ∀ m', E .stackOverflow m')
    (hQ : Q () ({ m with heap := m.heap.alloc (.function ⟨h, cells.toArray⟩) }.put
      (.object m.heap.size :: below))) :
    Ends (makeFunction cells.length) m Q E := by
  have hlen : ((cells.map Value.object).reverse).length = cells.length := by simp
  have hcode : (Value.object h).handle?.filter (fun h => (m.heap.code? h).isSome) = some h := by
    simp [Value.handle?, Option.filter, hc]
  have hcells : (((cells.map Value.object).reverse ++ below).take cells.length).reverse.mapM Value.handle? =
      some cells := by
    rw [List.take_left' hlen, List.reverse_reverse, mapM_handle?]
  refine ends_bind (ends_pop hv (ends_bind (ends_get (ends_bind (ends_expect hcode ?_)))))
  refine ends_guard (fun hlt => absurd hlt ?_) fun _ => ends_bind (ends_expect hcells ?_)
  · change ¬ ((cells.map Value.object).reverse ++ below).length < cells.length
    rw [List.length_append, hlen]
    omega
  · exact ends_bind (ends_drop rfl hlen.symm (ends_bind (ends_alloc (ends_push (ho _) hQ))))

/-- The closure that `makeFunction` makes captures the cells that its code object names. -/
theorem step_captures (hm : m.SoundOn A W rest) (hg : m.Gathering)
    (hA : ∀ i, A i → ∃ c, W.heap.code? i = some c ∧ c.MakesClosures W) {n : UInt8}
    (hi : m.instr? = some (.makeFunction n)) (hs : step m = .ok none m') :
    ∃ i g c c', m'.stack.values.head? = some (.object i) ∧ m'.heap.get? i = some (.function g) ∧
      m.Captures g c c' := by
  obtain ⟨r, σ, vs, hr, -⟩ := hm
  obtain ⟨c, hc, code, hb, hclosing⟩ := hA _ hr.runs.trusted
  cases hr.runs.code.symm.trans hc
  obtain ⟨c, pre, post, hbehind, hpushed⟩ := hg.current
  cases hr.code?.symm.trans hbehind.1
  obtain ⟨post, rfl, -⟩ := hbehind.next hi
  have hcode : code = pre ++ .makeFunction n :: post := Instr.bytes_inj (hb.symm.trans hbehind.2.1)
  obtain ⟨before, numbers, ix, h, c', hpre, hx, hc', hne, hn, hnames⟩ := hclosing pre n post hcode
  have hlen : numbers.length = c'.free.size := by simpa using congrArg List.length hnames
  have hnil : numbers ≠ [] := by
    rintro rfl
    exact hne (UInt8.toNat_inj.1 (hn.trans hlen.symm))
  obtain ⟨v, vs, hvalues, hv, cells, below, hcells, rfl⟩ := hpushed.const before numbers ix hnil hpre
  cases hx.symm.trans hv
  have hsize : cells.length = c'.free.size := by simpa [hlen] using congrArg List.length hcells
  have hc' : m.heap.code? h = some c' := hr.since.code? hc'
  rw [step_of_instr? hi] at hs
  have hmade : Ends (execute (.makeFunction n)) (m.past (.makeFunction n))
      (fun _ m' => m'.stack.values = .object m.heap.size :: below ∧
        m'.heap.get? m.heap.size = some (.function ⟨h, cells.toArray⟩)) fun _ _ => True := by
    refine (ends_seq ?_).mono (fun _ _ hm => hm.2) fun _ _ h => h
    rw [hn, ← hsize]
    exact ends_makeFunction (m := m.past _) hc' hvalues (fun _ => trivial) ⟨rfl, Heap.get?_alloc_size ..⟩
  obtain ⟨hstack, hget⟩ := hmade.ok hs
  refine ⟨m.heap.size, ⟨h, cells.toArray⟩, r.code, c', by rw [hstack]; rfl, hget, hbehind.1, hc', ?_, ?_⟩
  · rw [List.size_toArray, hsize]
  · intro k hk
    have hlt : k < numbers.length := hlen.symm ▸ hk
    refine ⟨numbers[k].toNat, ?_, ?_⟩
    · rw [apply_getElem_of_map_eq hnames hlt, Array.getElem?_toList]
    · rw [apply_getElem_of_map_eq hcells.symm hlt, List.getElem?_toArray]

end Machine

end ByteLisp
