/-
  ByteLisp: what the heap and the global variables hold while programs run.

  * `World.Leads` orders the heap and the globals in time: only cells and global
    variables change;
  * `Visible`: a value that programs see, `HasKind`: a value of a kind;
  * `Routine` is a code object with its instructions, `Routine.Sound` says that
    they are well-typed;
  * `World.Stored`: cells and global variables hold values that programs see, and
    `World.Safe`: moreover, all code objects that may be called are sound;
  * `Admits.later` to `Routine.Sound.later`: well-typed code stays well-typed.
-/
import ByteLisp.Native
import ByteLisp.Proofs.Code.Shape

namespace ByteLisp

/-- There is a cell with that handle. -/
def Heap.IsCell (h : Heap) (i : Handle) : Prop := ∃ v, h.cell? i = some v

/-- Objects and global variables stay, but cells and variables may get other values. -/
structure World.Leads (W W' : World) : Prop where
  objects : ∀ i o, W.heap.get? i = some o → (∀ v, o ≠ .cell v) → W'.heap.get? i = some o
  cells : ∀ i, W.heap.IsCell i → W'.heap.IsCell i
  globals : ∀ ix name, W.globals.name? ix = some name → W'.globals.name? ix = some name

variable {A A' : Handle → Prop} {W W' : World} {h : Heap} {i : Handle} {v : Value}

/-! ## Changes -/

namespace Heap

theorem isCell_of_get? (hi : h.get? i = some (.cell v)) : h.IsCell i := ⟨v, cell?_eq_some.2 hi⟩

theorem get?_setCell_of_ne {j : Handle} (hj : j ≠ i) : (h.setCell i v).get? j = h.get? j :=
  Array.getElem?_setIfInBounds_ne hj.symm

theorem get?_setCell (hi : h.IsCell i) : (h.setCell i v).get? i = some (.cell v) := by
  obtain ⟨u, hu⟩ := hi
  exact Array.getElem?_setIfInBounds_self_of_lt (lt_size_of_get? (cell?_eq_some.1 hu))

theorem cell?_setCell_cases {j : Handle} {u : Value} (hi : h.IsCell i)
    (hj : (h.setCell i v).cell? j = some u) : h.cell? j = some u ∨ u = v := by
  rw [cell?_eq_some] at hj ⊢
  by_cases he : j = i
  · subst he
    rw [get?_setCell hi] at hj
    cases hj
    exact Or.inr rfl
  · rw [get?_setCell_of_ne he] at hj
    exact Or.inl hj

theorem cell?_alloc_cases {o : Object} {u : Value} (hi : (h.alloc o).cell? i = some u) :
    h.cell? i = some u ∨ i = h.size ∧ o = .cell u := by
  rw [cell?_eq_some] at hi ⊢
  rcases get?_alloc_cases hi with hi | ⟨rfl, rfl⟩
  · exact Or.inl hi
  · exact Or.inr ⟨rfl, rfl⟩

end Heap

namespace Globals

theorem get?_set (g : Globals) (ix j : Nat) (v : Value) :
    (g.set ix v).get? j = (g.get? j).map fun x => if ix = j then { x with value := some v } else x := by
  simp only [get?, set, Array.getElem?_modify]
  split <;> simp

theorem name?_set (g : Globals) (ix j : Nat) (v : Value) : (g.set ix v).name? j = g.name? j := by
  rw [name?, name?, get?_set, Option.map_map]
  congr 1
  funext x
  simp only [Function.comp_apply]
  split <;> rfl

theorem name?_of_lt_size {g : Globals} {ix : Nat} (h : ix < g.size) : ∃ name, g.name? ix = some name :=
  ⟨_, by rw [name?, get?, Array.getElem?_eq_getElem h]; rfl⟩

/-- Names are found at the same places in a table that keeps all places. -/
theorem indexOf?_later {g g' : Globals} {name : String} {ix : Nat}
    (h : ∀ ix name, g.name? ix = some name → g'.name? ix = some name)
    (hix : g.indexOf? name = some ix) : g'.indexOf? name = some ix := by
  rw [indexOf?_eq_some] at hix ⊢
  refine ⟨h ix name hix.1, fun j hj hname => hix.2 j hj ?_⟩
  obtain ⟨other, hother⟩ := name?_of_lt_size (Nat.lt_trans hj (lt_size_of_name? hix.1))
  cases (h j other hother).symm.trans hname
  exact hother

end Globals

namespace World

theorem Leads.refl (W : World) : W.Leads W := ⟨fun _ _ h _ => h, fun _ h => h, fun _ _ h => h⟩

theorem Leads.trans {W₁ W₂ W₃ : World} (h : W₁.Leads W₂) (h' : W₂.Leads W₃) : W₁.Leads W₃ :=
  ⟨fun i o hi ho => h'.objects i o (h.objects i o hi ho) ho, fun i hi => h'.cells i (h.cells i hi),
    fun ix name hn => h'.globals ix name (h.globals ix name hn)⟩

theorem Extends.leads {N : String → Prop} (h : W.Extends N W') : W.Leads W' where
  objects i o hi _ := h.heap i o hi
  cells i hi := by
    obtain ⟨v, hv⟩ := hi
    exact Heap.isCell_of_get? (h.heap i _ (Heap.cell?_eq_some.1 hv))
  globals ix name hn := by
    obtain ⟨x, hx, rfl⟩ := Option.map_eq_some_iff.1 hn
    exact Option.map_eq_some_iff.2 ⟨x, h.globals hx, rfl⟩

theorem leads_alloc (W : World) (o : Object) : W.Leads ⟨W.heap.alloc o, W.globals⟩ where
  objects _ _ hi _ := Heap.get?_alloc_of_some hi
  cells i hi := by
    obtain ⟨v, hv⟩ := hi
    exact Heap.isCell_of_get? (Heap.get?_alloc_of_some (Heap.cell?_eq_some.1 hv))
  globals _ _ hn := hn

theorem leads_setCell (hi : W.heap.IsCell i) : W.Leads ⟨W.heap.setCell i v, W.globals⟩ where
  objects j o hj ho := by
    rw [← hj]
    refine Heap.get?_setCell_of_ne fun he => ?_
    obtain ⟨u, hu⟩ := hi
    rw [he, Heap.cell?_eq_some.1 hu] at hj
    exact ho u (Option.some.inj hj).symm
  cells j hj := by
    by_cases he : j = i
    · subst he
      exact Heap.isCell_of_get? (Heap.get?_setCell hi)
    · obtain ⟨u, hu⟩ := hj
      exact Heap.isCell_of_get? ((Heap.get?_setCell_of_ne he).trans (Heap.cell?_eq_some.1 hu))
  globals _ _ hn := hn

theorem leads_setGlobal (W : World) (ix : Nat) (v : Value) :
    W.Leads ⟨W.heap, W.globals.set ix v⟩ where
  objects _ _ hi _ := hi
  cells _ hi := hi
  globals j name hn := by rwa [Globals.name?_set]

theorem Leads.code? (hl : W.Leads W') {c : Code} (hc : W.heap.code? i = some c) :
    W'.heap.code? i = some c :=
  Heap.code?_eq_some.2 (hl.objects i _ (Heap.code?_eq_some.1 hc) nofun)

theorem Leads.globals_lt (hl : W.Leads W') {ix : Nat} (h : ix < W.globals.size) :
    ix < W'.globals.size := by
  obtain ⟨name, hn⟩ := Globals.name?_of_lt_size h
  exact Globals.lt_size_of_name? (hl.globals ix name hn)

end World

/-! ## Values -/

/-- A value that programs see: no cell and no code object. Functions have code that may be called. -/
inductive Visible (A : Handle → Prop) (h : Heap) : Value → Prop
  | number (x : Float) : Visible A h (.number x)
  | boolean (b : Bool) : Visible A h (.boolean b)
  | string {i : Handle} {text : String} (hi : h.get? i = some (.string text)) : Visible A h (.object i)
  | native {i : Handle} {n : Native} (hi : h.get? i = some (.native n)) (hn : n ∈ Native.builtins) :
    Visible A h (.object i)
  | function {i : Handle} {f : Closure} {c : Code} (hi : h.get? i = some (.function f))
    (ha : A f.code) (hc : h.code? f.code = some c) (hs : f.cells.size = c.free.size)
    (hf : ∀ j ∈ f.cells, h.IsCell j) : Visible A h (.object i)

/-- A value of a kind. -/
inductive HasKind (A : Handle → Prop) (h : Heap) : Kind → Value → Prop
  | plain {v : Value} (hv : Visible A h v) : HasKind A h .plain v
  | cell {i : Handle} (hi : h.IsCell i) : HasKind A h .cell (.object i)
  | code {i : Handle} {c : Code} (ha : A i) (hc : h.code? i = some c) :
    HasKind A h (.code c.free.size) (.object i)

theorem hasKind_plain : HasKind A h .plain v ↔ Visible A h v :=
  ⟨fun hv => by cases hv; assumption, .plain⟩

theorem Visible.later (hv : Visible A W.heap v) (hA : ∀ i, A i → A' i) (hl : W.Leads W') :
    Visible A' W'.heap v := by
  cases hv with
  | number x => exact .number x
  | boolean b => exact .boolean b
  | string hi => exact .string (hl.objects _ _ hi nofun)
  | native hi hn => exact .native (hl.objects _ _ hi nofun) hn
  | function hi ha hc hs hf =>
    exact .function (hl.objects _ _ hi nofun) (hA _ ha) (hl.code? hc) hs
      fun j hj => hl.cells j (hf j hj)

theorem HasKind.later {k : Kind} (hv : HasKind A W.heap k v) (hA : ∀ i, A i → A' i)
    (hl : W.Leads W') : HasKind A' W'.heap k v := by
  cases hv with
  | plain hv => exact .plain (hv.later hA hl)
  | cell hi => exact .cell (hl.cells _ hi)
  | code ha hc => exact .code (hA _ ha) (hl.code? hc)

/-- The constants that code may refer to have the kind that typing gives them. -/
theorem Admits.hasKind (ha : Admits A h v) : HasKind A h (h.kind v) v := by
  cases ha with
  | number x => exact .plain (.number x)
  | boolean b => exact .plain (.boolean b)
  | string hi =>
    simp only [Heap.kind, hi]
    exact .plain (.string hi)
  | code hi ha =>
    simp only [Heap.kind, hi]
    exact .code ha (Heap.code?_eq_some.2 hi)
  | function hi ha hcells hc hs =>
    simp only [Heap.kind, hi]
    exact .plain (.function hi ha hc (by rw [hcells, hs]; rfl) (by simp [hcells]))

/-- What programs see is no code object and no cell. -/
theorem Visible.tag (hv : Visible A h v) :
    ∃ t, h.tag? v = some t ∧ t ≠ .code ∧ t ≠ .cell := by
  cases hv with
  | number x => exact ⟨.number, rfl, nofun, nofun⟩
  | boolean b => exact ⟨.boolean, rfl, nofun, nofun⟩
  | string hi => exact ⟨.string, by simp [Heap.tag?, hi, Object.tag], nofun, nofun⟩
  | native hi => exact ⟨.native, by simp [Heap.tag?, hi, Object.tag], nofun, nofun⟩
  | function hi => exact ⟨.function, by simp [Heap.tag?, hi, Object.tag], nofun, nofun⟩

/-! ## Code stays well-typed -/

section

variable {c : Code} {P Q : Nat → Shape → Prop} {pos p m n : Nat} {σ τ : Shape}
  {code pre post : List Instr} {j : Instr}

theorem Admits.kind_eq (ha : Admits A W.heap v) (hl : W.Leads W') :
    W'.heap.kind v = W.heap.kind v := by
  cases ha with
  | number _ | boolean _ => rfl
  | string hi => simp only [Heap.kind, hi, hl.objects _ _ hi nofun]
  | code hi _ => simp only [Heap.kind, hi, hl.objects _ _ hi nofun]
  | function hi _ _ _ _ => simp only [Heap.kind, hi, hl.objects _ _ hi nofun]

theorem Admits.later (ha : Admits A W.heap v) (hA : ∀ i, A i → A' i) (hl : W.Leads W') :
    Admits A' W'.heap v := by
  cases ha with
  | number x => exact .number x
  | boolean b => exact .boolean b
  | string hi => exact .string (hl.objects _ _ hi nofun)
  | code hi ha => exact .code (hl.objects _ _ hi nofun) (hA _ ha)
  | function hi ha hcells hc hs =>
    exact .function (hl.objects _ _ hi nofun) (hA _ ha) hcells (hl.code? hc) hs

theorem Instr.Fits.next_eq (hf : j.Fits A W c σ) (hl : W.Leads W') :
    j.next W'.heap c pos σ = j.next W.heap c pos σ := by
  cases j with
  | const ix =>
    obtain ⟨v, hv, ha⟩ := hf.operand
    rw [Instr.next, Instr.next, Code.kind, Code.kind, hv, Option.getD_some, ha.kind_eq hl]
  | _ => rfl

theorem Instr.Fits.later (hf : j.Fits A W c σ) (hA : ∀ i, A i → A' i) (hl : W.Leads W') :
    j.Fits A' W' c σ where
  awaits := hf.awaits
  operand := by
    have ho := hf.operand
    cases j with
    | const ix =>
      obtain ⟨v, hv, ha⟩ := ho
      exact ⟨v, hv, ha.later hA hl⟩
    | getGlobal ix | setGlobal ix => exact hl.globals_lt ho
    | _ => exact ho

theorem Typed.tail (ht : Typed A W c P pos σ (j :: code)) :
    Typed A W c P (pos + j.size) (j.next W.heap c pos σ) code :=
  fun pre i post hcode => ht (j :: pre) i post (congrArg (j :: ·) hcode)

theorem Typed.scan_eq (ht : Typed A W c P pos σ (pre ++ post)) (hl : W.Leads W') :
    Instr.scan W'.heap c pos σ pre = Instr.scan W.heap c pos σ pre := by
  induction pre generalizing pos σ with
  | nil => rfl
  | cons j pre ih =>
    have hj : j.Fits A W c σ := (ht [] j (pre ++ post) rfl).1
    rw [Instr.scan, Instr.scan, hj.next_eq hl]
    exact ih ht.tail

theorem Point.later (hp : Point W.heap c pos σ code p τ) (ht : Typed A W c P pos σ code)
    (hl : W.Leads W') : Point W'.heap c pos σ code p τ := by
  obtain ⟨pre, post, rfl, rfl, rfl⟩ := hp
  exact ⟨pre, post, rfl, rfl, (ht.scan_eq hl).symm⟩

theorem Balanced.later (hb : Balanced A W c pos m code n) (hA : ∀ i, A i → A' i)
    (hl : W.Leads W') : Balanced A' W' c pos m code n where
  typed pre i post hcode := by
    subst hcode
    rw [hb.typed.scan_eq hl]
    exact ⟨(hb.typed pre i post rfl).1.later hA hl,
      fun t ha => ((hb.typed pre i post rfl).2 t ha).later hb.typed hl⟩
  scan := by
    have ht : Typed A W c (Point W.heap c pos (plain m) code) pos (plain m) (code ++ []) := by
      rw [List.append_nil]
      exact hb.typed
    rw [ht.scan_eq hl]
    exact hb.scan

end

/-! ## Code objects -/

/-- A code object with its instructions, the last of which is given apart, with the depth there. -/
structure Routine where
  code : Code
  body : List Instr
  last : Instr
  depth : Nat

/-- The instructions are well-typed. A function leaves its value in place of itself and its
    arguments, a program above the main function. -/
structure Routine.Sound (A : Handle → Prop) (W : World) (r : Routine) : Prop where
  last : r.last = .ret ∧ r.depth = 1 ∨ r.last = .halt ∧ r.depth = 2
  bytes : r.code.bytes = Instr.bytes (r.body ++ [r.last])
  balanced : Balanced A W r.code 0 (r.code.arity + 1) r.body r.depth

theorem Routine.Sound.later {r : Routine} (hr : r.Sound A W) (hA : ∀ i, A i → A' i)
    (hl : W.Leads W') : r.Sound A' W' := ⟨hr.last, hr.bytes, hr.balanced.later hA hl⟩

theorem Checked.routine_ret {c : Code} (hc : Checked A W c .ret 1) :
    ∃ r : Routine, r.code = c ∧ r.last = .ret ∧ r.Sound A W := by
  obtain ⟨body, hb, hbal⟩ := hc
  exact ⟨⟨c, body, .ret, 1⟩, rfl, rfl, Or.inl ⟨rfl, rfl⟩, hb, hbal⟩

theorem Checked.routine_halt {c : Code} (hc : Checked A W c .halt 2) :
    ∃ r : Routine, r.code = c ∧ r.last = .halt ∧ r.Sound A W := by
  obtain ⟨body, hb, hbal⟩ := hc
  exact ⟨⟨c, body, .halt, 2⟩, rfl, rfl, Or.inr ⟨rfl, rfl⟩, hb, hbal⟩

/-! ## What is stored -/

/-- Cells and global variables hold values that programs see. -/
structure World.Stored (A : Handle → Prop) (W : World) : Prop where
  cells : ∀ i v, W.heap.cell? i = some v → Visible A W.heap v
  globals : ∀ ix x v, W.globals.get? ix = some x → x.value = some v → Visible A W.heap v

/-- What is stored is as it should be, and so is the code in `A`, which may be called. -/
structure World.Safe (A : Handle → Prop) (W : World) : Prop extends W.Stored A where
  codes : ∀ i, A i → ∃ r : Routine, W.heap.code? i = some r.code ∧ r.Sound A W

namespace World

theorem Stored.alloc (hs : W.Stored A) {o : Object} (ho : ∀ v, o = .cell v → Visible A W.heap v) :
    World.Stored A ⟨W.heap.alloc o, W.globals⟩ where
  cells i v hi := by
    rcases Heap.cell?_alloc_cases hi with hi | ⟨-, rfl⟩
    · exact (hs.cells i v hi).later (fun _ h => h) (W.leads_alloc o)
    · exact (ho v rfl).later (fun _ h => h) (W.leads_alloc _)
  globals ix x v hx hv := (hs.globals ix x v hx hv).later (fun _ h => h) (W.leads_alloc o)

theorem Stored.setCell (hs : W.Stored A) (hi : W.heap.IsCell i) (hv : Visible A W.heap v) :
    World.Stored A ⟨W.heap.setCell i v, W.globals⟩ where
  cells j u hj := by
    rcases Heap.cell?_setCell_cases hi hj with hj | rfl
    · exact (hs.cells j u hj).later (fun _ h => h) (leads_setCell hi)
    · exact hv.later (fun _ h => h) (leads_setCell hi)
  globals ix x u hx hu := (hs.globals ix x u hx hu).later (fun _ h => h) (leads_setCell hi)

theorem Stored.setGlobal (hs : W.Stored A) (ix : Nat) (hv : Visible A W.heap v) :
    World.Stored A ⟨W.heap, W.globals.set ix v⟩ where
  cells j u hj := hs.cells j u hj
  globals jx x u hx hu := by
    rw [Globals.get?_set] at hx
    obtain ⟨y, hy, rfl⟩ := Option.map_eq_some_iff.1 hx
    split at hu
    · cases hu
      exact hv
    · exact hs.globals jx y u hy hu

/-- Later worlds are safe too, as long as only values that programs see are stored. -/
theorem Safe.later (hs : W.Safe A) (hl : W.Leads W') (hs' : W'.Stored A) : W'.Safe A where
  toStored := hs'
  codes i hi := by
    obtain ⟨r, hc, hr⟩ := hs.codes i hi
    exact ⟨r, hl.code? hc, hr.later (fun _ h => h) hl⟩

end World

end ByteLisp
