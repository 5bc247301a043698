/-
  ByteLisp: code generation gives the code that belongs to a form.

  * `Emission.Within`: what is generated so far is part of the final code object
    and of the final heap and globals;
  * `Emission.At` says where an emission stands, `Emission.Adds` that the code
    objects allocated since are functions of the program;
  * `Yields` puts this together for an action and a part of a program; one lemma
    for each action leads to `emit_yields`;
  * `compile_ok` is the result for programs.
-/
import ByteLisp.Proofs.Generation.Coded

namespace ByteLisp

/-- What is generated so far is part of the results. -/
structure Emission.Within (W : World) (c : Code) (e : Emission) : Prop where
  heap : ∀ i o, e.heap.get? i = some o → W.heap.get? i = some o
  globals : ∀ ix x, e.globals.get? ix = some x → W.globals.get? ix = some x
  constants : ∀ (i : Nat) v, e.draft.constants[i]? = some v → c.constants[i]? = some v
  own : ∀ (i : Nat) x, e.draft.own[i]? = some x → c.own[i]? = some x
  free : e.draft.free = c.free

/-- Where an emission stands. -/
structure Emission.At (v : View) (pos : Nat) (e : Emission) : Prop where
  view : e.draft.view = v
  offset : e.draft.offset = pos
  /-- All cells in view have been named. -/
  named : ∀ x ∈ v.cells, x.place < e.draft.free.size + e.draft.own.size

/-- The code objects that have been allocated since are functions of the program. -/
def Emission.Adds (T : Scopes) (W : World) (e e' : Emission) : Prop :=
  ∀ h c, e'.heap.code? h = some c → e.heap.code? h = some c ∨ Compiled T W c

variable {T : Scopes} {W : World} {c : Code} {s : ScopeId}

namespace Emission

variable {e e₁ e' : Emission}

theorem Grows.within (hg : e.Grows (fun _ => True) e') (h : e'.Within W c) : e.Within W c where
  heap i o ho := h.heap i o (hg.heap i o ho)
  globals ix x hx := h.globals ix x (hg.globals hx)
  constants i v hv := h.constants i v (hg.draft.constants i v hv)
  own i x hx := h.own i x (hg.draft.own i x hx)
  free := hg.draft.free.symm.trans h.free

/-- At the start of a block its cells come into view. -/
theorem At.enterBlock {v : View} {pos : Nat} (h : e.At v pos) (names : List String) :
    Emission.At (v.enter (e.draft.free.size + e.draft.own.size) names) pos
      { e with draft := e.draft.enterBlock.addBlockCells names } where
  view := by
    rw [Draft.view_addBlockCells, View.enter, ← h.view]
    rfl
  offset := (Draft.offset_addBlockCells ..).trans h.offset
  named x hx := by
    have hsize : (e.draft.enterBlock.addBlockCells names).own.size = e.draft.own.size + names.length := by
      rw [Draft.own_addBlockCells]
      simp [Draft.enterBlock]
    rw [hsize, (Draft.grows_addBlockCells ..).free]
    rw [View.cells_enter, List.mem_append, List.mem_reverse, List.mem_map] at hx
    rcases hx with ⟨y, hy, rfl⟩ | hx
    · have := List.snd_lt_of_mem_zipIdx hy
      change y.2 < e.draft.free.size + _
      omega
    · have := h.named x hx
      change x.place < e.draft.free.size + _
      omega

theorem Adds.refl (e : Emission) : e.Adds T W e := fun _ _ h => Or.inl h

theorem Adds.of_heap (h : e'.heap = e.heap) : e.Adds T W e' := fun _ _ hc => Or.inl (h ▸ hc)

theorem Adds.trans (h : e.Adds T W e₁) (h' : e₁.Adds T W e') : e.Adds T W e' :=
  fun i c hc => (h' i c hc).elim (h i c) Or.inr

end Emission

/-! ## Actions for parts of a program -/

/-- An action gives the code of a part of a program and changes the view. -/
structure Yields (T : Scopes) (W : World) (s : ScopeId) (task : Task) (next : View → View)
    (x : Emit (List Instr)) : Prop where
  growing : Emit.Growing (fun _ => True) x
  ok : ∀ {c e code e' v pos}, x e = .ok code e' → e.At v pos → v.Leveled → e'.Within W c →
    e'.At (next v) (pos + Instr.total code) ∧ e.Adds T W e' ∧
      ∃ as, Coded T W c s task v pos code as

/-- An action gives the code of a form. -/
structure YieldsForm (T : Scopes) (W : World) (s : ScopeId) (direct : Bool) (f : Form)
    (x : Emit (Effect × List Instr)) : Prop where
  growing : Emit.Growing (fun _ => True) x
  ok : ∀ {c e eff code e' v pos}, x e = .ok (eff, code) e' → e.At v pos → v.Leveled →
    e'.Within W c →
    ∃ o, o.effect = eff ∧ (direct = false → o = .value) ∧
      e'.At (v.after o) (pos + Instr.total code) ∧ e.Adds T W e' ∧
      ∃ as, Coded T W c s (.form direct f o) v pos code as

/-- An action gives the code of the forms of a block. -/
structure YieldsBody (T : Scopes) (W : World) (s : ScopeId) (fs : List Form)
    (x : Emit (List Instr)) : Prop where
  growing : Emit.Growing (fun _ => True) x
  ok : ∀ {c e code e' v pos}, x e = .ok code e' → e.At v pos → v.Leveled → e'.Within W c →
    ∃ k u, v.Binds k u ∧ e'.At (u.push 1) (pos + Instr.total code) ∧ e.Adds T W e' ∧
      ∃ as, Coded T W c s (.body fs k) v pos code as

/-- An action gives the code of the body of a function, at the end of which the function
    and its arguments are dropped. -/
structure YieldsFinish (T : Scopes) (W : World) (s : ScopeId) (params : List String) (body : Form)
    (x : Emit (List Instr)) : Prop where
  growing : Emit.Growing (fun _ => True) x
  ok : ∀ {c e code e' pos} {v : View}, x e = .ok code e' → e.At (v.push (params.length + 1)) pos →
    v.Leveled → e'.Within W c → e.Adds T W e' ∧
      ∃ as, Coded T W c s (.finish params.length body) (v.push (params.length + 1)) pos code as

namespace Emit

/-! ## Constants -/

theorem sameConstant_of_extends {h h' : Heap} (hh : ∀ i o, h.get? i = some o → h'.get? i = some o)
    {u v : Value} (huv : h.sameConstant u v = true) : h'.sameConstant u v = true := by
  have text {i : Handle} {t : String} (hi : h.string? i = some t) : h'.string? i = some t :=
    Heap.string?_eq_some.2 (hh _ _ (Heap.string?_eq_some.1 hi))
  unfold Heap.sameConstant at *
  split at huv
  · exact huv
  · exact huv
  · next i j =>
    rw [Bool.or_eq_true] at huv ⊢
    refine huv.imp_right fun huv => ?_
    split at huv
    · next hi hj =>
      rw [text hi, text hj]
      exact huv
    · cases huv
  · cases huv

theorem constantIndex_ok {v : Value} {e e' : Emission} {ix : UInt8}
    (h : constantIndex v e = .ok ix e') :
    (∃ u, e'.draft.constants[ix.toNat]? = some u ∧ (u = v ∨ e.heap.sameConstant u v = true)) ∧
      ∃ cs, e' = { e with draft := { e.draft with constants := cs } } := by
  have check {name : String} {i : Nat} {e₁ : Emission}
      (h : constantIndex.check name i e₁ = .ok ix e') : ix.toNat = i ∧ e' = e₁ := by
    unfold constantIndex.check at h
    simp only [ite_ok, pure_ok, throw_ok, and_false, or_false] at h
    obtain ⟨hlt, rfl, rfl⟩ := h
    exact ⟨by simp; omega, rfl⟩
  rw [constantIndex_apply] at h
  split at h
  · next i hi =>
    obtain ⟨hix, rfl⟩ := check h
    obtain ⟨hlt, hsame, -⟩ := Array.findIdx?_eq_some_iff_getElem.1 hi
    exact ⟨⟨e'.draft.constants[i], by rw [hix, Array.getElem?_eq_getElem hlt], Or.inr hsame⟩,
      e'.draft.constants, rfl⟩
  · obtain ⟨_, e₁, h₁, h₂⟩ := bind_ok.1 h
    cases update_ok.1 h₁
    obtain ⟨hix, rfl⟩ := check h₂
    exact ⟨⟨v, by simp [hix], Or.inl rfl⟩, _, rfl⟩

theorem constant_ok {x : Value} {e e' : Emission} {code : List Instr} {v : View} {pos : Nat}
    (h : constant x e = .ok code e') (ha : e.At v pos) (hw : e'.Within W c) :
    ∃ ix, code = [.const ix] ∧ Holds W c ix x ∧ e'.At (v.push 1) (pos + 2) ∧
      e'.heap = e.heap := by
  unfold constant at h
  simp only [bind_ok, update_ok, instr_ok] at h
  obtain ⟨ix, e₁, h₁, _, _, rfl, rfl, rfl⟩ := h
  obtain ⟨⟨u, hu, hsame⟩, cs, rfl⟩ := constantIndex_ok h₁
  refine ⟨ix, rfl, ⟨u, hw.constants _ _ hu, hsame.imp_right ?_⟩,
    ⟨congrArg (View.push · 1) ha.view, congrArg (· + 2) ha.offset, ha.named⟩, rfl⟩
  exact sameConstant_of_extends hw.heap

/-! ## Operands and variables -/

theorem toNat_toUInt8 {n : Nat} (h : n < 256) : n.toUInt8.toNat = n := by
  rw [Nat.toUInt8, UInt8.toNat_ofNat']
  exact Nat.mod_eq_of_lt h

theorem toNat_toUInt16 {n : Nat} (h : n < 65536) : n.toUInt16.toNat = n := by
  rw [Nat.toUInt16, UInt16.toNat_ofNat']
  exact Nat.mod_eq_of_lt h

theorem placeOperand_ok {n : Nat} {ix : UInt8} {e e' : Emission}
    (h : placeOperand n e = .ok ix e') : ix.toNat = n ∧ e' = e := by
  unfold placeOperand at h
  simp only [ite_ok, bind_ok, pure_ok, throw_ok, and_false, exists_false, or_false] at h
  obtain ⟨hlt, rfl, rfl⟩ := h
  exact ⟨toNat_toUInt8 hlt, rfl⟩

theorem countOperand_ok {n : Nat} {whole : Form} {why : Malformation} {ix : UInt8}
    {e e' : Emission} (h : countOperand n whole why e = .ok ix e') : ix.toNat = n ∧ e' = e := by
  unfold countOperand at h
  simp only [ite_ok, pure_ok, throw_ok, and_false, or_false] at h
  obtain ⟨hlt, rfl, rfl⟩ := h
  exact ⟨toNat_toUInt8 hlt, rfl⟩

theorem address_ok {a : UInt16} {e e' : Emission} (h : address e = .ok a e') :
    a.toNat = e.draft.offset ∧ e' = e := by
  unfold address at h
  simp only [ite_ok, bind_ok, draft_ok, pure_ok, throw_ok, and_false, or_false] at h
  obtain ⟨_, _, ⟨rfl, rfl⟩, hlt, rfl, rfl⟩ := h
  exact ⟨toNat_toUInt16 hlt, rfl⟩

theorem addressOf_ok {a : UInt16} {n : Nat} {e e' : Emission} (h : addressOf n e = .ok a e') :
    a.toNat = n ∧ e' = e := by
  unfold addressOf at h
  simp only [ite_ok, bind_ok, pure_ok, throw_ok, and_false, exists_false, or_false] at h
  obtain ⟨hlt, rfl, rfl⟩ := h
  exact ⟨toNat_toUInt16 hlt, rfl⟩

theorem slotIndex_ok {name : String} {ix : UInt8} {e e' : Emission}
    (h : slotIndex name e = .ok ix e') : e.draft.view.slot? name = some ix.toNat ∧ e' = e := by
  unfold slotIndex at h
  simp only [bind_ok, draft_ok] at h
  obtain ⟨_, e, ⟨rfl, rfl⟩, h⟩ := h
  cases hn : e.draft.slot? name with
  | none =>
    rw [hn] at h
    exact (throw_ok.1 h).elim
  | some n =>
    rw [hn] at h
    obtain ⟨hix, rfl⟩ := placeOperand_ok h
    exact ⟨by rw [hix]; exact hn, rfl⟩

theorem cellIndex_ok {name : String} {ix : UInt8} {e e' : Emission}
    (h : cellIndex name e = .ok ix e') : e.draft.view.cell? name = some ix.toNat ∧ e' = e := by
  unfold cellIndex at h
  simp only [bind_ok, draft_ok] at h
  obtain ⟨_, e, ⟨rfl, rfl⟩, h⟩ := h
  cases hn : e.draft.cell? name with
  | none =>
    rw [hn] at h
    exact (throw_ok.1 h).elim
  | some n =>
    rw [hn] at h
    obtain ⟨hix, rfl⟩ := placeOperand_ok h
    exact ⟨by rw [hix]; exact hn, rfl⟩

theorem globalCheck_ok {n : Nat} {ix : UInt8} {e e' : Emission}
    (h : globalIndex.check n e = .ok ix e') : ix.toNat = n ∧ e' = e := by
  unfold globalIndex.check at h
  simp only [ite_ok, pure_ok, throw_ok, and_false, or_false] at h
  obtain ⟨hlt, rfl, rfl⟩ := h
  exact ⟨toNat_toUInt8 hlt, rfl⟩

theorem globalIndex_ok {name : String} {ix : UInt8} {e e' : Emission}
    (h : globalIndex T name e = .ok ix e') :
    e'.globals.name? ix.toNat = some name ∧ ∃ g, e' = { e with globals := g } := by
  rw [globalIndex_apply] at h
  split at h
  · next n hn =>
    obtain ⟨hix, rfl⟩ := globalCheck_ok h
    exact ⟨by rw [hix]; exact Globals.name?_of_indexOf? hn, e'.globals, rfl⟩
  · split at h
    · obtain ⟨_, e₁, h₁, h₂⟩ := bind_ok.1 h
      cases h₁
      obtain ⟨hix, rfl⟩ := globalCheck_ok h₂
      exact ⟨by rw [hix]; exact Globals.name?_define .., _, rfl⟩
    · cases h

theorem name?_within {e : Emission} (hw : e.Within W c) {ix : Nat} {name : String}
    (h : e.globals.name? ix = some name) : W.globals.name? ix = some name := by
  unfold Globals.name? at *
  obtain ⟨x, hx, rfl⟩ := Option.map_eq_some_iff.1 h
  rw [hw.globals ix x hx]
  rfl

theorem read_ok {name : String} {binding : Binding} {e e' : Emission} {code : List Instr}
    {v : View} {pos : Nat} (h : read T s name binding e = .ok code e') (ha : e.At v pos)
    (hw : e'.Within W c) :
    ∃ place, Located T W s v name binding place ∧ code = [place.get] ∧
      e'.At (v.push 1) (pos + 2) ∧ e'.heap = e.heap := by
  obtain ⟨rfl, rfl, named⟩ := ha
  unfold read at h
  dsimp only at h
  cases hs : T.storageOf s name binding with
  | global =>
    simp only [hs, bind_ok, map_ok, update_ok, instr_ok] at h
    obtain ⟨_, e₁, ⟨ix, h₁, rfl⟩, _, _, rfl, rfl, rfl⟩ := h
    obtain ⟨hn, g, rfl⟩ := globalIndex_ok h₁
    exact ⟨.global ix, .global hs (name?_within hw hn), rfl, ⟨rfl, rfl, named⟩, rfl⟩
  | slot =>
    simp only [hs, bind_ok, map_ok, update_ok, instr_ok] at h
    obtain ⟨_, e₁, ⟨ix, h₁, rfl⟩, _, _, rfl, rfl, rfl⟩ := h
    obtain ⟨hn, rfl⟩ := slotIndex_ok h₁
    exact ⟨.slot ix, .slot hs hn, rfl, ⟨rfl, rfl, named⟩, rfl⟩
  | cell =>
    simp only [hs, bind_ok, map_ok, update_ok, instr_ok] at h
    obtain ⟨_, e₁, ⟨ix, h₁, rfl⟩, _, _, rfl, rfl, rfl⟩ := h
    obtain ⟨hn, rfl⟩ := cellIndex_ok h₁
    exact ⟨.cell ix, .cell hs hn, rfl, ⟨rfl, rfl, named⟩, rfl⟩

theorem write_ok {name : String} {binding : Binding} {e e' : Emission} {code : List Instr}
    {v : View} {pos : Nat} (h : write T s name binding e = .ok code e') (ha : e.At v pos)
    (hw : e'.Within W c) :
    ∃ place, Located T W s v name binding place ∧ code = [place.set] ∧
      e'.At v (pos + 2) ∧ e'.heap = e.heap := by
  obtain ⟨rfl, rfl, named⟩ := ha
  unfold write at h
  dsimp only at h
  cases hs : T.storageOf s name binding with
  | global =>
    simp only [hs, bind_ok, map_ok, instr_ok] at h
    obtain ⟨_, e₁, ⟨ix, h₁, rfl⟩, rfl, rfl⟩ := h
    obtain ⟨hn, g, rfl⟩ := globalIndex_ok h₁
    exact ⟨.global ix, .global hs (name?_within hw hn), rfl, ⟨rfl, rfl, named⟩, rfl⟩
  | slot =>
    simp only [hs, bind_ok, map_ok, instr_ok] at h
    obtain ⟨_, e₁, ⟨ix, h₁, rfl⟩, rfl, rfl⟩ := h
    obtain ⟨hn, rfl⟩ := slotIndex_ok h₁
    exact ⟨.slot ix, .slot hs hn, rfl, ⟨rfl, rfl, named⟩, rfl⟩
  | cell =>
    simp only [hs, bind_ok, map_ok, instr_ok] at h
    obtain ⟨_, e₁, ⟨ix, h₁, rfl⟩, rfl, rfl⟩ := h
    obtain ⟨hn, rfl⟩ := cellIndex_ok h₁
    exact ⟨.cell ix, .cell hs hn, rfl, ⟨rfl, rfl, named⟩, rfl⟩

/-- The value on top, which is above the view `v`, becomes a variable. -/
theorem declare_ok {whole : Form} {name : String} {direct : Bool} {e e' : Emission}
    {eff : Effect} {code : List Instr} {v : View} {pos : Nat}
    (h : declare T s whole name direct e = .ok (eff, code) e') (ha : e.At (v.push 1) pos)
    (hw : e'.Within W c) :
    ∃ o, o.effect = eff ∧ (direct = false → o = .value) ∧ Declares T W s v name direct o code ∧
      e'.At (v.after o) (pos + Instr.total code) ∧ e'.heap = e.heap := by
  obtain ⟨hv, rfl, named⟩ := ha
  unfold declare at h
  cases hs : T.storageOf s name .unbound with
  | global =>
    simp only [hs, bind_ok, get_ok, set_ok, instr_ok, pure_ok] at h
    obtain ⟨_, _, ⟨rfl, rfl⟩, _, _, rfl, ix, _, h₁, _, _, ⟨rfl, rfl⟩, h, rfl⟩ := h
    obtain ⟨hix, rfl⟩ := globalCheck_ok h₁
    cases h
    refine ⟨.value, rfl, fun _ => rfl, .global hs (name?_within hw ?_), ⟨hv, rfl, named⟩, rfl⟩
    rw [hix]
    exact Globals.name?_define ..
  | cell =>
    have cell {ix : UInt8} (h : e.draft.view.cell? name = some ix.toNat) :
        v.cell? name = some ix.toNat := by rwa [hv] at h
    simp only [hs, bind_ok, instr_ok, update_ok, ite_ok, pure_ok] at h
    obtain ⟨ix, e₁, h₁, _, _, ⟨rfl, rfl⟩, _, _, ⟨rfl, rfl⟩, _, _, rfl, h⟩ := h
    obtain ⟨hn, rfl⟩ := cellIndex_ok h₁
    have shrunk : (e₁.draft.shrink 1).view = v := by
      change { e₁.draft.view with depth := e₁.draft.view.depth - 1 } = v
      rw [hv]
      simp [View.push]
    rcases h with ⟨rfl, h, rfl⟩ | ⟨hd, _, _, rfl, _, _, ⟨rfl, rfl⟩, h, rfl⟩
    · cases h
      exact ⟨.cell name ix, rfl, by simp, .cell hs (cell hn), ⟨shrunk, rfl, named⟩, rfl⟩
    · cases h
      rw [Bool.not_eq_true] at hd
      subst hd
      exact ⟨.value, rfl, fun _ => rfl, .inside hs (cell hn),
        ⟨congrArg (View.push · 1) shrunk, rfl, named⟩, rfl⟩
  | slot =>
    simp only [hs, bind_ok, draft_ok, instr_ok, update_ok, ite_ok, pure_ok, throw_ok, and_false,
      or_false] at h
    obtain ⟨rfl, _, e, ⟨rfl, rfl⟩, _, _, rfl, ix, e₁, h₁, _, _, ⟨rfl, rfl⟩, h, rfl⟩ := h
    obtain ⟨hix, rfl⟩ := placeOperand_ok h₁
    cases h
    have hdepth : e.draft.depth = v.depth + 1 := congrArg View.depth hv
    refine ⟨.slot name ix, rfl, by simp, .slot hs (by omega), ⟨?_, rfl, named⟩, rfl⟩
    change { e.draft.view with
      slots := ⟨name, e.draft.depth - 1, e.draft.view.level⟩ :: e.draft.view.slots } = v.bind name
    rw [hv, hdepth]
    rfl

/-! ## Operators, choices and loops -/

theorem view_shrink {d : Draft} {v : View} {m n : Nat} (h : d.view = v.push (m + n)) :
    (d.shrink n).view = v.push m := by
  change { d.view with depth := d.view.depth - n } = v.push m
  rw [h]
  simp [View.push, ← Nat.add_assoc]

theorem view_drop {d : Draft} {v : View} (h : d.view = v.push 1) : (d.shrink 1).view = v :=
  view_shrink (m := 0) h

variable {f g : Form} {fs : List Form} {direct : Bool} {x y z : Emit (List Instr)}
  {w : Emit (Effect × List Instr)}

theorem yields_only (h : YieldsForm T W s false f w) :
    Yields T W s (.form false f .value) (·.push 1) (only w) where
  growing := growing_only h.growing
  ok he ha hl hw := by
    unfold only at he
    simp only [bind_ok, pure_ok] at he
    obtain ⟨⟨eff, code⟩, e', he, rfl, rfl⟩ := he
    obtain ⟨o, -, ho, hc⟩ := h.ok he ha hl hw
    cases ho rfl
    exact hc

theorem yields_valued (h : Yields T W s (.form direct f .value) (·.push 1) x) :
    YieldsForm T W s direct f (valued x) where
  growing := growing_valued h.growing
  ok he ha hl hw := by
    unfold valued at he
    simp only [bind_ok, pure_ok] at he
    obtain ⟨code, e', he, h', rfl⟩ := he
    cases h'
    exact ⟨.value, rfl, fun _ => rfl, h.ok he ha hl hw⟩

theorem yields_operation {op : Operator}
    (hx : Yields T W s (.form false f .value) (·.push 1) x)
    (hy : Yields T W s (.form false g .value) (·.push 1) y) :
    Yields T W s (.form direct (.operation op f g) .value) (·.push 1) (operation op x y) where
  growing := growing_operation op hx.growing hy.growing
  ok {c e code e' v pos} he ha hl hw := by
    unfold operation at he
    simp only [bind_ok, update_ok, instr_ok, pure_ok] at he
    obtain ⟨first, e₁, h₁, second, e₂, h₂, _, _, rfl, _, _, ⟨rfl, rfl⟩, rfl, rfl⟩ := he
    have hw₂ : e₂.Within W c := ⟨hw.heap, hw.globals, hw.constants, hw.own, hw.free⟩
    obtain ⟨a₁, n₁, as, c₁⟩ := hx.ok h₁ ha hl ((hy.growing.ok h₂).within hw₂)
    obtain ⟨a₂, n₂, bs, c₂⟩ := hy.ok h₂ a₁ (hl.push 1) hw₂
    refine ⟨⟨view_shrink a₂.view, ?_, a₂.named⟩, n₁.trans n₂, _, .operation c₁ c₂⟩
    have := a₂.offset
    cases op <;> simp [Draft.advance, Draft.shrink, operator, this, Nat.add_assoc]

theorem yields_branch {test thn els : Form}
    (hx : Yields T W s (.form false test .value) (·.push 1) x)
    (hy : Yields T W s (.form false thn .value) (·.push 1) y)
    (hz : Yields T W s (.form false els .value) (·.push 1) z) :
    Yields T W s (.form direct (.ifElse test thn els) .value) (·.push 1) (branch x y z) where
  growing := growing_branch hx.growing hy.growing hz.growing
  ok {c e code e' v pos} he ha hl hw := by
    unfold branch at he
    simp only [bind_ok, reserve_ok, update_ok, draft_ok, pure_ok] at he
    obtain ⟨asked, e₁, h₁, _, _, rfl, _, _, rfl, _, _, ⟨rfl, rfl⟩, consequent, e₂, h₂, _, _, rfl,
      otherwise, _, hao, _, _, rfl, alternate, e₃, h₃, done, _, had, rfl, rfl⟩ := he
    obtain ⟨ho, rfl⟩ := address_ok hao
    obtain ⟨hd, rfl⟩ := address_ok had
    have hg₂ := (hz.growing.ok h₃).within hw
    have hw₂ : e₂.Within W c := ⟨hg₂.heap, hg₂.globals, hg₂.constants, hg₂.own, hg₂.free⟩
    have hg₁ := (hy.growing.ok h₂).within hw₂
    have hw₁ : e₁.Within W c := ⟨hg₁.heap, hg₁.globals, hg₁.constants, hg₁.own, hg₁.free⟩
    obtain ⟨a₁, n₁, as, c₁⟩ := hx.ok h₁ ha hl hw₁
    obtain ⟨a₂, n₂, bs, c₂⟩ := hy.ok h₂ ⟨view_drop a₁.view, congrArg (· + 3) a₁.offset, a₁.named⟩ hl hw₂
    have ho : otherwise.toNat = pos + Instr.total asked + 3 + Instr.total consequent + 3 :=
      ho.trans (congrArg (· + 3) a₂.offset)
    -- the alternate starts at the depth after the test, as the consequent did
    have v₂ : ({ e₂.draft.advance 3 with depth := (e₁.draft.shrink 1).depth } : Draft).view = v := by
      change { e₂.draft.view with depth := (e₁.draft.shrink 1).view.depth } = v
      rw [a₂.view, view_drop a₁.view]
      rfl
    obtain ⟨a₃, n₃, cs, c₃⟩ := hz.ok h₃ ⟨v₂, (congrArg (· + 3) a₂.offset).trans ho.symm, a₂.named⟩ hl hw
    refine ⟨⟨a₃.view, ?_, a₃.named⟩, (n₁.trans n₂).trans n₃, _,
      .ifElse c₁ c₂ ho c₃ (hd.trans a₃.offset)⟩
    rw [a₃.offset, ho]
    simp [Instr.size, Instr.op, Op.width, Op.template]
    omega

theorem discard_ok {e e' : Emission} {code : List Instr} {v : View} {pos : Nat}
    (h : discard e = .ok code e') (ha : e.At (v.push 1) pos) :
    code = [.pop] ∧ e'.At v (pos + 1) ∧ e'.heap = e.heap := by
  unfold discard at h
  simp only [bind_ok, update_ok, instr_ok] at h
  obtain ⟨_, _, rfl, rfl, rfl⟩ := h
  exact ⟨rfl, ⟨view_drop ha.view, congrArg (· + 1) ha.offset, ha.named⟩, rfl⟩

theorem yields_noModifier : Yields T W s (.drops []) id (modify? none) where
  growing := growing_pure _
  ok he ha hl hw := by
    obtain ⟨rfl, rfl⟩ := pure_ok.1 he
    exact ⟨ha, .refl _, _, .noDrops⟩

theorem yields_modifier (hx : Yields T W s (.form false f .value) (·.push 1) x) :
    Yields T W s (.drops [f]) id (modify? (some x)) where
  growing := growing_bind hx.growing fun _ => growing_bind growing_discard fun _ => growing_pure _
  ok {c e code e' v pos} he ha hl hw := by
    unfold modify? at he
    simp only [bind_ok, pure_ok] at he
    obtain ⟨code, e₁, h₁, dropped, e₂, h₂, rfl, rfl⟩ := he
    obtain ⟨a₁, n₁, as, c₁⟩ := hx.ok h₁ ha hl ((growing_discard.ok h₂).within hw)
    obtain ⟨rfl, a₂, hh⟩ := discard_ok h₂ a₁
    refine ⟨⟨a₂.view, ?_, a₂.named⟩, n₁.trans (.of_heap hh), _, .drops c₁ .noDrops⟩
    rw [a₂.offset, Instr.total_append, Nat.add_assoc]
    rfl

/-- A loop drops the value of its body and then that of its modifier. -/
theorem yields_loop {test : Form} {gs : List Form} {modifier : Option (Emit (List Instr))}
    (hx : Yields T W s (.form false test .value) (·.push 1) x)
    (hy : Yields T W s (.form false f .value) (·.push 1) y)
    (hg : ∀ x ∈ modifier, Growing (fun _ => True) x)
    (hm : Yields T W s (.drops gs) id (modify? modifier)) :
    Yields T W s (.loop test (f :: gs)) (·.push 1) (loop x y modifier) where
  growing := growing_loop hx.growing hy.growing hg
  ok {c e code e' v pos} he ha hl hw := by
    unfold loop at he
    simp only [bind_ok, draft_ok, reserve_ok, update_ok, instr_ok, pure_ok] at he
    obtain ⟨_, e, ⟨rfl, rfl⟩, asked, e₁, h₁, _, _, rfl, _, _, rfl, body, e₂, h₂, dropped, e₃, h₃,
      modified, _, h₄, start, e₄, has, _, _, ⟨rfl, rfl⟩, done, _, had, result, e', h₅, rfl, rfl⟩ := he
    obtain ⟨hs, rfl⟩ := addressOf_ok has
    obtain ⟨hd, rfl⟩ := address_ok had
    have hg₄ := ((growing_constant _).ok h₅).within hw
    have hw₄ : e₄.Within W c := ⟨hg₄.heap, hg₄.globals, hg₄.constants, hg₄.own, hg₄.free⟩
    have hw₃ := (hm.growing.ok h₄).within hw₄
    have hw₂ := (growing_discard.ok h₃).within hw₃
    have hg₁ := (hy.growing.ok h₂).within hw₂
    have hw₁ : e₁.Within W c := ⟨hg₁.heap, hg₁.globals, hg₁.constants, hg₁.own, hg₁.free⟩
    obtain ⟨a₁, n₁, as, c₁⟩ := hx.ok h₁ ha hl hw₁
    obtain ⟨a₂, n₂, bs, c₂⟩ := hy.ok h₂ ⟨view_drop a₁.view, congrArg (· + 3) a₁.offset, a₁.named⟩ hl hw₂
    obtain ⟨rfl, a₃, hh₃⟩ := discard_ok h₃ a₂
    obtain ⟨a₄, n₄, cs, c₄⟩ := hm.ok h₄ a₃ hl hw₄
    have hdone : done.toNat =
        pos + Instr.total asked + 3 + Instr.total (body ++ .pop :: modified) + 3 := by
      refine hd.trans ((congrArg (· + 3) a₄.offset).trans ?_)
      simp [Instr.size, Instr.op, Op.width, Op.template]
      omega
    obtain ⟨ix, rfl, h, a₅, hh₅⟩ := constant_ok h₅ ⟨a₄.view, hd.symm, a₄.named⟩ hw
    have n₃ : e₂.Adds T W e₃ := .of_heap hh₃
    have n₅ : e₄.Adds T W e' := .of_heap hh₅
    have all := Coded.loop c₁ (.drops c₂ c₄) (hs.trans ha.offset) hdone (.boolean h)
    refine ⟨⟨a₅.view, ?_, a₅.named⟩, (((n₁.trans n₂).trans n₃).trans n₄).trans n₅,
      as ++ (bs ++ cs) ++ [], ?_⟩
    · rw [a₅.offset, hdone]
      simp [Instr.size, Instr.op, Op.width, Op.template]
      omega
    · simpa using all

theorem yields_forLoop {test modifier body : Form}
    (hf : YieldsForm T W s true f w)
    (hx : Yields T W s (.loop test [body, modifier]) (·.push 1) x) :
    Yields T W s (.form direct (.forLoop f test modifier body) .value) (·.push 1)
      (forLoop w x) where
  growing := growing_forLoop hf.growing hx.growing
  ok {c e code e' v pos} he ha hl hw := by
    unfold forLoop at he
    simp only [bind_ok] at he
    obtain ⟨⟨effect, first⟩, e₁, h₁, he⟩ := he
    cases effect with
    | value =>
      simp only [bind_ok, pure_ok] at he
      obtain ⟨dropped, e₂, h₂, looped, e', h₃, rfl, rfl⟩ := he
      have hw₂ := (hx.growing.ok h₃).within hw
      obtain ⟨o, ho, -, a₁, n₁, as, c₁⟩ := hf.ok h₁ ha hl ((growing_discard.ok h₂).within hw₂)
      cases o <;> cases ho
      obtain ⟨rfl, a₂, hh⟩ := discard_ok h₂ a₁
      obtain ⟨a₃, n₃, bs, c₃⟩ := hx.ok h₃ a₂ hl hw
      have c₃' : Coded T W c s (.loop test [body, modifier]) (v.kept .value)
          (pos + Instr.total (first ++ Outcome.value.drop)) looped bs := by
        rw [Instr.total_append, ← Nat.add_assoc]
        exact c₃
      refine ⟨⟨a₃.view, ?_, a₃.named⟩, (n₁.trans (.of_heap hh)).trans n₃, as ++ bs, ?_⟩
      · rw [a₃.offset]
        simp [Instr.size, Instr.op, Op.width, Op.template]
        omega
      · simpa [Outcome.locals, Outcome.drop] using Coded.forLoop c₁ c₃'
    | stored ix =>
      simp only [bind_ok, pure_ok] at he
      obtain ⟨looped, e', h₂, rfl, rfl⟩ := he
      obtain ⟨o, ho, -, a₁, n₁, as, c₁⟩ := hf.ok h₁ ha hl ((hx.growing.ok h₂).within hw)
      cases o <;> cases ho
      obtain ⟨a₂, n₂, bs, c₂⟩ := hx.ok h₂ a₁ hl hw
      refine ⟨⟨a₂.view, ?_, a₂.named⟩, n₁.trans n₂, as ++ bs, ?_⟩
      · rw [a₂.offset, Instr.total_append, Nat.add_assoc]
      · rw [← List.append_nil first] at c₂
        simpa [Outcome.locals, Outcome.drop] using Coded.forLoop c₁ c₂
    | slot ix =>
      simp only [bind_ok, instr_ok, update_ok, pure_ok] at he
      obtain ⟨looped, e₂, h₂, _, _, ⟨rfl, rfl⟩, _, _, rfl, rfl, rfl⟩ := he
      have hw₂ : e₂.Within W c := ⟨hw.heap, hw.globals, hw.constants, hw.own, hw.free⟩
      obtain ⟨o, ho, -, a₁, n₁, as, c₁⟩ := hf.ok h₁ ha hl ((hx.growing.ok h₂).within hw₂)
      cases o <;> cases ho
      rename_i name
      obtain ⟨a₂, n₂, bs, c₂⟩ := hx.ok h₂ a₁ (hl.bind name) hw₂
      refine ⟨⟨?_, ?_, a₂.named⟩, n₁.trans n₂, as ++ bs, ?_⟩
      · change { e₂.draft.view with
          depth := e₂.draft.view.depth - 1, slots := e₂.draft.view.slots.tail } = v.push 1
        rw [a₂.view]
        rfl
      · rw [Instr.total_append, Instr.total_append, ← Nat.add_assoc, ← Nat.add_assoc, ← a₂.offset]
        rfl
      · rw [← List.append_nil first] at c₂
        simpa [Outcome.locals, Outcome.drop] using Coded.forLoop c₁ c₂

/-! ## Blocks -/

theorem yields_empty : YieldsBody T W s [] (constant (.boolean false)) where
  growing := growing_constant _
  ok {c e code e' v pos} he ha hl hw := by
    obtain ⟨ix, rfl, h, a, hh⟩ := constant_ok he ha hw
    exact ⟨0, v, .refl v, a, .of_heap hh, _, .empty (.boolean h)⟩

theorem yields_last (hf : YieldsForm T W s true f w) : YieldsBody T W s [f] (conclude w) where
  growing := growing_conclude hf.growing
  ok {c e code e' v pos} he ha hl hw := by
    unfold conclude at he
    simp only [bind_ok] at he
    obtain ⟨⟨effect, first⟩, e₁, h₁, he⟩ := he
    cases effect with
    | value =>
      obtain ⟨rfl, rfl⟩ := pure_ok.1 he
      obtain ⟨o, ho, -, a₁, n₁, as, c₁⟩ := hf.ok h₁ ha hl hw
      cases o <;> cases ho
      have all := Coded.last c₁
      rw [Outcome.leave, List.append_nil] at all
      exact ⟨0, v, .refl v, a₁, n₁, as, all⟩
    | slot ix =>
      simp only [bind_ok, update_ok, instr_ok, pure_ok] at he
      obtain ⟨_, _, rfl, _, _, ⟨rfl, rfl⟩, rfl, rfl⟩ := he
      obtain ⟨o, ho, -, a₁, n₁, as, c₁⟩ := hf.ok h₁ ha hl
        ⟨hw.heap, hw.globals, hw.constants, hw.own, hw.free⟩
      cases o <;> cases ho
      rename_i name
      refine ⟨1, v.bind name, .bind v name, ⟨congrArg (View.push · 1) a₁.view, ?_, a₁.named⟩, n₁, as,
        .last c₁⟩
      rw [Instr.total_append, ← Nat.add_assoc, ← a₁.offset]
      rfl
    | stored ix =>
      simp only [bind_ok, update_ok, instr_ok, pure_ok] at he
      obtain ⟨_, _, rfl, _, _, ⟨rfl, rfl⟩, rfl, rfl⟩ := he
      obtain ⟨o, ho, -, a₁, n₁, as, c₁⟩ := hf.ok h₁ ha hl
        ⟨hw.heap, hw.globals, hw.constants, hw.own, hw.free⟩
      cases o <;> cases ho
      refine ⟨0, v, .refl v, ⟨congrArg (View.push · 1) a₁.view, ?_, a₁.named⟩, n₁, as, .last c₁⟩
      rw [Instr.total_append, ← Nat.add_assoc, ← a₁.offset]
      rfl

/-- A form in the middle of a block. -/
theorem separate_ok (hf : YieldsForm T W s true f w) {e e' : Emission} {code : List Instr}
    {v : View} {pos : Nat} (he : separate w e = .ok code e') (ha : e.At v pos) (hl : v.Leveled)
    (hw : e'.Within W c) :
    ∃ o first as, code = first ++ o.drop ∧ e'.At (v.kept o) (pos + Instr.total code) ∧
      e.Adds T W e' ∧ Coded T W c s (.form true f o) v pos first as := by
  unfold separate at he
  simp only [bind_ok] at he
  obtain ⟨⟨effect, first⟩, e₁, h₁, he⟩ := he
  cases effect with
  | value =>
    simp only [bind_ok, pure_ok] at he
    obtain ⟨dropped, e₂, h₂, rfl, rfl⟩ := he
    obtain ⟨o, ho, -, a₁, n₁, as, c₁⟩ := hf.ok h₁ ha hl ((growing_discard.ok h₂).within hw)
    cases o <;> cases ho
    obtain ⟨rfl, a₂, hh⟩ := discard_ok h₂ a₁
    refine ⟨.value, first, as, rfl, ⟨a₂.view, ?_, a₂.named⟩, n₁.trans (.of_heap hh), c₁⟩
    rw [a₂.offset, Instr.total_append, ← Nat.add_assoc]
    rfl
  | slot ix =>
    obtain ⟨rfl, rfl⟩ := pure_ok.1 he
    obtain ⟨o, ho, -, a₁, n₁, as, c₁⟩ := hf.ok h₁ ha hl hw
    cases o <;> cases ho
    exact ⟨.slot _ ix, first, as, (List.append_nil _).symm, a₁, n₁, c₁⟩
  | stored ix =>
    obtain ⟨rfl, rfl⟩ := pure_ok.1 he
    obtain ⟨o, ho, -, a₁, n₁, as, c₁⟩ := hf.ok h₁ ha hl hw
    cases o <;> cases ho
    exact ⟨.cell _ ix, first, as, (List.append_nil _).symm, a₁, n₁, c₁⟩

theorem yields_next (hf : YieldsForm T W s true f w) (hx : YieldsBody T W s (g :: fs) x) :
    YieldsBody T W s (f :: g :: fs) (do let code ← separate w; return code ++ (← x)) where
  growing := growing_bind (growing_separate hf.growing) fun _ =>
    growing_bind hx.growing fun _ => growing_pure _
  ok {c e code e' v pos} he ha hl hw := by
    simp only [bind_ok, pure_ok] at he
    obtain ⟨first, e₁, h₁, rest, e₂, h₂, rfl, rfl⟩ := he
    obtain ⟨o, first, as, rfl, a₁, n₁, c₁⟩ :=
      separate_ok hf h₁ ha hl ((hx.growing.ok h₂).within hw)
    have hb := v.binds_kept o
    obtain ⟨k, u, hu, a₂, n₂, bs, c₂⟩ := hx.ok h₂ a₁ (hb.leveled hl) hw
    refine ⟨o.locals + k, u, hb.trans hu, ⟨a₂.view, ?_, a₂.named⟩, n₁.trans n₂, _, .next c₁ c₂⟩
    rw [a₂.offset, Instr.total_append _ rest, Nat.add_assoc]

theorem exit_ok {n : Nat} {whole : Form} {e e' : Emission} {code : List Instr} {v : View} {pos : Nat}
    (h : exit n whole e = .ok code e') (ha : e.At (v.push (n + 1)) pos) :
    Exits n code ∧ e'.At (v.push 1) (pos + Instr.total code) ∧ e'.heap = e.heap := by
  unfold exit at h
  simp only [ite_ok, bind_ok, update_ok, instr_ok, pure_ok] at h
  rcases h with ⟨rfl, rfl, rfl⟩ | ⟨hn, ix, e₁, h₁, _, _, rfl, rfl, rfl⟩
  · exact ⟨.none, ha, rfl⟩
  · obtain ⟨rfl, rfl⟩ := countOperand_ok h₁
    have hix : ix ≠ 0 := fun h => hn (congrArg UInt8.toNat h)
    refine ⟨.some hix, ⟨view_shrink ?_, congrArg (· + 2) ha.offset, ha.named⟩, rfl⟩
    rw [Nat.add_comm]
    exact ha.view

theorem blockEnd_ok {whole : Form} {b : ScopeId} {extra : Nat} {e e' : Emission}
    {code : List Instr} {u v : View} {pos : Nat} (hx : YieldsBody T W b fs x)
    (he : blockEnd whole extra x e = .ok code e') (ha : e.At u pos)
    (hu : Enters T c b (v.push extra) u) (hv : v.Leveled) (hw : e'.Within W c) :
    ∃ k inner exit as, code = inner ++ exit ∧ Coded T W c b (.body fs k) u pos inner as ∧
      Exits (k + extra) exit ∧ e'.At (v.push 1) (pos + Instr.total code) ∧ e.Adds T W e' := by
  unfold blockEnd at he
  simp only [bind_ok, draft_ok, update_ok, pure_ok] at he
  obtain ⟨inner, _, h₁, _, e₁, ⟨rfl, rfl⟩, _, _, rfl, exit, e₂, h₂, rfl, rfl⟩ := he
  have hg := ((growing_exit _ _).ok h₂).within hw
  have hw₁ : e₁.Within W c := ⟨hg.heap, hg.globals, hg.constants, hg.own, hg.free⟩
  cases hu with
  | mk hown =>
    obtain ⟨k, u, hb, a₁, n₁, as, c₁⟩ := hx.ok h₁ ha ((hv.push extra).enter _ _) hw₁
    rw [Draft.blockLocals_of_binds (hv.push extra) hb a₁.view] at h₂
    have hview := Draft.view_exitBlock (hv.push extra) hb a₁.view
    rw [View.push_push, Nat.add_comm, Nat.add_right_comm] at hview
    have hnamed : ∀ x ∈ (v.push (extra + k + 1)).cells, x ∈ (u.push 1).cells := fun x hx => by
      rw [View.cells_push, hb.cells, View.cells_enter]
      exact List.mem_append_right _ hx
    obtain ⟨hexit, a₂, hh⟩ := exit_ok h₂ ⟨hview, a₁.offset, fun x hx => a₁.named x (hnamed x hx)⟩
    refine ⟨k, inner, exit, as, rfl, c₁, hexit, ⟨a₂.view, ?_, a₂.named⟩, n₁.trans (.of_heap hh)⟩
    rw [a₂.offset, Instr.total_append, Nat.add_assoc]

theorem block_eq {whole : Form} {b : ScopeId} {extra : Nat} (e : Emission) :
    block T whole b extra x e =
      blockEnd whole extra x { e with draft := e.draft.enterBlock.addBlockCells (T.blockCells b) } := by
  unfold block Scopes.blockCells
  by_cases hk : (T.scope b).kind = .block
  · simp only [if_pos hk]
    rfl
  · simp only [if_neg hk]
    rfl

/-- A block drops its own variables and `extra` values under them. -/
theorem block_ok {whole : Form} {b : ScopeId} {extra : Nat} {e e' : Emission} {code : List Instr}
    {v : View} {pos : Nat} (hx : YieldsBody T W b fs x)
    (he : block T whole b extra x e = .ok code e') (ha : e.At (v.push extra) pos)
    (hv : v.Leveled) (hw : e'.Within W c) :
    ∃ k u inner exit as, code = inner ++ exit ∧ Enters T c b (v.push extra) u ∧
      Coded T W c b (.body fs k) u pos inner as ∧ Exits (k + extra) exit ∧
      e'.At (v.push 1) (pos + Instr.total code) ∧ e.Adds T W e' := by
  have hw₀ := ((growing_block T whole b extra hx.growing).ok he).within hw
  rw [block_eq] at he
  have hw₁ := ((growing_blockEnd whole extra hx.growing).ok he).within hw
  have hu : Enters T c b (v.push extra)
      ((v.push extra).enter (c.free.size + e.draft.own.size) (T.blockCells b)) := by
    refine .mk (fun x hx => hw₀.free ▸ ha.named x hx) fun i name hi => hw₁.own _ _ ?_
    change (e.draft.enterBlock.addBlockCells (T.blockCells b)).own[e.draft.own.size + i]? = _
    rw [Draft.own_addBlockCells, Draft.enterBlock, Array.getElem?_append_right (Nat.le_add_right ..),
      Nat.add_sub_cancel_left, List.getElem?_toArray, hi]
  have ha₁ := ha.enterBlock (T.blockCells b)
  rw [hw₀.free] at ha₁
  obtain ⟨k, inner, exit, as, h⟩ := blockEnd_ok hx he ha₁ hu hv hw
  exact ⟨k, _, inner, exit, as, h.1, hu, h.2⟩

/-! ## Functions and calls -/

theorem moveCaptured_ok {sc : Scope} {slot : Nat} {names : List String} {e e' : Emission}
    {code : List Instr} {v : View} {pos : Nat} (h : moveCaptured sc slot names e = .ok code e')
    (ha : e.At v pos) :
    Moves sc v slot names code ∧ e'.At v (pos + Instr.total code) ∧ e'.heap = e.heap := by
  induction names generalizing slot e code pos with
  | nil =>
    obtain ⟨rfl, rfl⟩ := pure_ok.1 h
    exact ⟨.nil, ha, rfl⟩
  | cons name names ih =>
    unfold moveCaptured at h
    simp only [ite_ok, bind_ok, instr_ok, pure_ok] at h
    rcases h with ⟨hc, ix, _, h₁, cell, e₂, h₂, _, _, ⟨rfl, rfl⟩, _, _, ⟨rfl, rfl⟩, _, _, ⟨rfl, rfl⟩,
      rest, e₃, h₃, rfl, rfl⟩ | ⟨hc, h⟩
    · obtain ⟨hix, rfl⟩ := placeOperand_ok h₁
      obtain ⟨hcell, rfl⟩ := cellIndex_ok h₂
      rw [ha.view] at hcell
      obtain ⟨hm, a, hh⟩ := ih h₃ ⟨ha.view, congrArg (· + 2 + 2 + 1) ha.offset, ha.named⟩
      refine ⟨.move hc hix hcell hm, ⟨a.view, ?_, a.named⟩, hh⟩
      rw [a.offset]
      simp [Instr.size, Instr.op, Op.width, Op.template]
      omega
    · obtain ⟨hm, a, hh⟩ := ih h ha
      exact ⟨.stay (Bool.not_eq_true _ ▸ hc) hm, a, hh⟩

theorem loadCells_ok {f : ScopeId} {names : List String} {e e' : Emission} {code : List Instr}
    {v : View} {m pos : Nat} (h : loadCells names e = .ok code e') (ha : e.At (v.push m) pos) :
    (∃ as, Loads c s v f pos names code as) ∧
      e'.At (v.push (m + names.length)) (pos + Instr.total code) ∧ e'.heap = e.heap := by
  induction names generalizing e code m pos with
  | nil =>
    obtain ⟨rfl, rfl⟩ := pure_ok.1 h
    exact ⟨⟨_, .nil⟩, ha, rfl⟩
  | cons name names ih =>
    unfold loadCells at h
    simp only [bind_ok, update_ok, instr_ok, pure_ok] at h
    obtain ⟨ix, e₁, h₁, _, _, rfl, _, _, ⟨rfl, rfl⟩, rest, e₂, h₂, rfl, rfl⟩ := h
    obtain ⟨hcell, rfl⟩ := cellIndex_ok h₁
    rw [ha.view] at hcell
    have hview : ((e₁.draft.grow 1).advance 2).view = v.push (m + 1) := by
      rw [← View.push_push, ← ha.view]
      rfl
    obtain ⟨⟨as, hl⟩, a, hh⟩ := ih h₂ ⟨hview, congrArg (· + 2) ha.offset, ha.named⟩
    refine ⟨⟨_, .cons hcell hl⟩, ⟨?_, ?_, a.named⟩, hh⟩
    · rw [a.view, List.length_cons, Nat.add_right_comm, Nat.add_assoc]
    · rw [a.offset]
      simp [Instr.size, Instr.op, Op.width, Op.template]
      omega

theorem functionBody_ok {whole body : Form} {params : List String} {e e' : Emission}
    {code : List Instr} {v : View} {pos : Nat}
    (hx : ∀ b fs, body = .block b fs → YieldsBody T W b fs x)
    (hy : Yields T W s (.form false body .value) (·.push 1) y)
    (he : functionBody T whole params body x y e = .ok code e')
    (ha : e.At (v.push (params.length + 1)) pos) (hv : v.Leveled) (hw : e'.Within W c) :
    e.Adds T W e' ∧
      ∃ as, Coded T W c s (.finish params.length body) (v.push (params.length + 1)) pos code as := by
  unfold functionBody at he
  split at he
  · next b fs =>
    obtain ⟨k, u, inner, exit, as, rfl, hu, hc, hexit, -, hn⟩ :=
      block_ok (hx b fs rfl) he ha hv hw
    exact ⟨hn, as, .finishBlock hu hc hexit⟩
  · simp only [bind_ok, instr_ok, pure_ok] at he
    obtain ⟨inner, e₁, h₁, m, e₂, h₂, _, _, ⟨rfl, rfl⟩, rfl, rfl⟩ := he
    obtain ⟨hm, rfl⟩ := countOperand_ok h₂
    obtain ⟨-, n₁, as, c₁⟩ := hy.ok h₁ ha (hv.push _)
      ⟨hw.heap, hw.globals, hw.constants, hw.own, hw.free⟩
    exact ⟨n₁, as, .finish c₁ hm⟩

theorem yields_functionBody {whole body : Form} {params : List String}
    (hx : ∀ b fs, body = .block b fs → YieldsBody T W b fs x) (hg : Growing (fun _ => True) x)
    (hy : Yields T W s (.form false body .value) (·.push 1) y) :
    YieldsFinish T W s params body (functionBody T whole params body x y) :=
  ⟨growing_functionBody T whole params body hg hy.growing, functionBody_ok hx hy⟩

theorem functionCode_coded {f : ScopeId} {name : String} {params : List String} {body : Form}
    {e e' : Emission} {h : Handle} {c : Code} (hx : YieldsFinish T W f params body x)
    (he : functionCode T name f params x e = .ok (h, c) e')
    (hw : ∀ i o, e'.heap.get? i = some o → W.heap.get? i = some o)
    (hwg : ∀ ix x, e'.globals.get? ix = some x → W.globals.get? ix = some x) :
    (∃ code as, Coded T W c f (.code name params body) (draftOf name params (T.scope f)).view 0
      code as) ∧ W.heap.code? h = some c ∧ c.free = (T.scope f).free.toArray ∧
      e'.draft = e.draft ∧ e.Adds T W e' := by
  obtain ⟨moved, e₁, code, e₂, h₁, h₂, rfl, rfl, hheap, hglobals, hdraft⟩ := functionCode_ok he
  have hg := ((growing_moveCaptured _ _ _).ok h₁).trans (hx.growing.ok h₂)
  have hw₂ : e₂.Within W ((e₂.draft.advance 1).finish (moved ++ code ++ [.ret])) := by
    refine ⟨fun i o ho => hw i o ?_, fun ix x hx => hwg ix x (hglobals ▸ hx), fun _ _ h => h,
      fun _ _ h => h, rfl⟩
    rw [hheap]
    exact Heap.get?_alloc_of_some ho
  obtain ⟨v, hl, hstart⟩ := view_draftOf_eq_push name params (T.scope f)
  have ho : (draftOf name params (T.scope f)).offset = 0 := by
    simp [draftOf, Draft.addLocals_eq, Draft.start]
  obtain ⟨hm, a₁, hh⟩ := moveCaptured_ok h₁ ⟨hstart, ho, named_draftOf name params (T.scope f) hstart⟩
  obtain ⟨n₂, as, c₂⟩ := hx.ok h₂ a₁ hl hw₂
  rw [Nat.zero_add, ← hstart] at c₂
  rw [← hstart] at hm
  have hfree : e₂.draft.free = (T.scope f).free.toArray := by
    rw [hg.draft.free]
    simp [draftOf, Draft.addLocals_eq, Draft.start]
  have all : Coded T W ((e₂.draft.advance 1).finish (moved ++ code ++ [.ret])) f
      (.code name params body) (draftOf name params (T.scope f)).view 0
      (moved ++ code ++ [.ret]) as := by
    refine .code ?_ ?_ hfree (fun i x hx => hg.draft.own i x ?_) rfl hm c₂ rfl
    · refine hg.draft.name.trans ?_
      simp [draftOf, Draft.addLocals_eq, Draft.start]
    · refine hg.draft.arity.trans ?_
      simp [draftOf, Draft.addLocals_eq, Draft.start]
    · simpa [draftOf, Draft.addLocals_eq, Draft.start] using hx
  refine ⟨⟨_, as, all⟩, ?_, hfree, hdraft, fun i c hc => ?_⟩
  · refine Heap.code?_eq_some.2 (hw _ _ ?_)
    rw [hheap]
    exact Heap.get?_alloc_size ..
  · rw [hheap, Heap.code?_eq_some] at hc
    rcases Heap.get?_alloc_cases hc with hc | ⟨-, hc⟩
    · rcases n₂ i c (Heap.code?_eq_some.2 hc) with hc | hc
      · rw [hh] at hc
        exact Or.inl hc
      · exact Or.inr hc
    · cases hc
      exact Or.inr ⟨_, _, _, _, _, _, _, all⟩

theorem yields_function {whole : Form} {name : String} {f : ScopeId} {params : List String}
    {body : Form} (hx : YieldsFinish T W f params body x) :
    Yields T W s (.closure name f params body) (·.push 1) (function T whole name f params x) where
  growing := growing_function T whole name f params hx.growing
  ok {c e code e' v pos} he ha hl hw := by
    unfold function at he
    simp only [bind_ok, ite_ok, alloc_ok, update_ok, instr_ok, pure_ok] at he
    obtain ⟨⟨h, c'⟩, e₁, h₁, ⟨hfree, g, e₂, ⟨rfl, rfl⟩, h₂⟩ |
      ⟨hfree, cells, e₂, h₂, made, _, h₃, n, e₃, h₄, _, _, rfl, _, _, ⟨rfl, rfl⟩, rfl, rfl⟩⟩ := he
    · have hw₂ := ((growing_constant _).ok h₂).within hw
      obtain ⟨⟨code', as, c₁⟩, hcode, -, hdraft, n₁⟩ := functionCode_coded hx h₁
        (fun i o ho => hw₂.heap i o (Heap.get?_alloc_of_some ho)) hw₂.globals
      have hg := hw₂.heap e₁.heap.size _ (Heap.get?_alloc_size ..)
      have a₁ : e₁.At v pos := ⟨(congrArg Draft.view hdraft).trans ha.view,
        (congrArg Draft.offset hdraft).trans ha.offset, hdraft ▸ ha.named⟩
      have a₁ : Emission.At v pos { e₁ with heap := e₁.heap.alloc (.function ⟨h, #[]⟩) } :=
        ⟨a₁.view, a₁.offset, a₁.named⟩
      obtain ⟨ix, rfl, hholds, a₂, hh⟩ := constant_ok h₂ a₁ hw
      refine ⟨a₂, fun i c hc => ?_, as, .constant ?_ c₁ hcode hg hholds⟩
      · rw [hh, Heap.code?_eq_some] at hc
        rcases Heap.get?_alloc_cases hc with hc | ⟨-, hc⟩
        · exact n₁ i c (Heap.code?_eq_some.2 hc)
        · cases hc
      · simpa using hfree
    · obtain ⟨hn, rfl⟩ := countOperand_ok h₄
      have hw₃ : e₃.Within W c := ⟨hw.heap, hw.globals, hw.constants, hw.own, hw.free⟩
      have hw₂ := ((growing_constant _).ok h₃).within hw₃
      have hw₁ := ((growing_loadCells _).ok h₂).within hw₂
      obtain ⟨⟨code', as, c₁⟩, hcode, -, hdraft, n₁⟩ :=
        functionCode_coded hx h₁ hw₁.heap hw₁.globals
      have a₁ : e₁.At (v.push 0) pos := ⟨(congrArg Draft.view hdraft).trans ha.view,
        (congrArg Draft.offset hdraft).trans ha.offset, hdraft ▸ ha.named⟩
      obtain ⟨⟨bs, hloads⟩, a₂, hh₂⟩ := loadCells_ok (c := c) (s := s) (f := f) h₂ a₁
      obtain ⟨ix, rfl, hholds, a₃, hh₃⟩ := constant_ok h₃ a₂ hw₃
      have hne : n ≠ 0 := by
        rintro rfl
        exact hfree (Array.isEmpty_iff_size_eq_zero.2 hn.symm)
      have hlen : c'.free.toList.length = c'.free.size := Array.length_toList
      refine ⟨⟨view_shrink (m := 1) ?_, ?_, a₃.named⟩,
        (n₁.trans (.of_heap hh₂)).trans (.of_heap hh₃), as ++ bs,
        ?_⟩
      · rw [a₃.view, View.push_push, hlen]
        simp [Nat.add_comm]
      · refine (congrArg (· + 2) a₃.offset).trans ?_
        simp [Instr.size, Instr.op, Op.width, Op.template]
        omega
      · simpa using Coded.made c₁ hcode hloads hholds hn hne

theorem yields_call {whole callee : Form} {args : List Form}
    (hx : Yields T W s (.form false callee .value) (·.push 1) x)
    (hy : Yields T W s (.args args) (·.push args.length) y) :
    Yields T W s (.form direct (.call callee args) .value) (·.push 1)
      (call whole args.length x y) where
  growing := growing_call whole args.length hx.growing hy.growing
  ok {c e code e' v pos} he ha hl hw := by
    unfold call at he
    simp only [bind_ok, update_ok, instr_ok, pure_ok] at he
    obtain ⟨function, e₁, h₁, arguments, _, h₂, n, e₂, h₃, _, _, rfl, _, _, ⟨rfl, rfl⟩, rfl, rfl⟩ := he
    obtain ⟨hn, rfl⟩ := countOperand_ok h₃
    have hw₂ : e₂.Within W c := ⟨hw.heap, hw.globals, hw.constants, hw.own, hw.free⟩
    obtain ⟨a₁, n₁, as, c₁⟩ := hx.ok h₁ ha hl ((hy.growing.ok h₂).within hw₂)
    obtain ⟨a₂, n₂, bs, c₂⟩ := hy.ok h₂ a₁ (hl.push 1) hw₂
    refine ⟨⟨view_shrink (m := 1) (a₂.view.trans (View.push_push ..)), ?_, a₂.named⟩, n₁.trans n₂, _,
      .call c₁ c₂ hn⟩
    refine (congrArg (· + 2) a₂.offset).trans ?_
    simp [Instr.size, Instr.op, Op.width, Op.template, Nat.add_assoc]

theorem yields_noArgs : Yields T W s (.args []) (·.push 0) (pure []) where
  growing := growing_pure _
  ok he ha hl hw := by
    obtain ⟨rfl, rfl⟩ := pure_ok.1 he
    exact ⟨ha, .refl _, _, .noArgs⟩

theorem yields_args (hx : Yields T W s (.form false f .value) (·.push 1) x)
    (hy : Yields T W s (.args fs) (·.push fs.length) y) :
    Yields T W s (.args (f :: fs)) (·.push (f :: fs).length)
      (do let code ← x; return code ++ (← y)) where
  growing := growing_bind hx.growing fun _ => growing_bind hy.growing fun _ => growing_pure _
  ok {c e code e' v pos} he ha hl hw := by
    simp only [bind_ok, pure_ok] at he
    obtain ⟨first, e₁, h₁, rest, e₂, h₂, rfl, rfl⟩ := he
    obtain ⟨a₁, n₁, as, c₁⟩ := hx.ok h₁ ha hl ((hy.growing.ok h₂).within hw)
    obtain ⟨a₂, n₂, bs, c₂⟩ := hy.ok h₂ a₁ (hl.push 1) hw
    refine ⟨⟨?_, ?_, a₂.named⟩, n₁.trans n₂, _, .args c₁ c₂⟩
    · rw [a₂.view, View.push_push, List.length_cons, Nat.add_comm]
    · rw [a₂.offset, Instr.total_append, Nat.add_assoc]

/-- A value is pushed, and then becomes a variable. -/
theorem yields_declared {whole : Form} {task : Task} {name : String}
    (hx : Yields T W s task (·.push 1) x)
    (hc : ∀ {c v pos o code store as}, Coded T W c s task v pos code as →
      Declares T W s v name direct o store →
      Coded T W c s (.form direct whole o) v pos (code ++ store) as) :
    YieldsForm T W s direct whole (do
      let code ← x
      let (effect, store) ← declare T s whole name direct
      return (effect, code ++ store)) where
  growing := growing_bind hx.growing fun _ => growing_bind (growing_declare fun _ => trivial)
    fun _ => growing_pure _
  ok {c e eff code e' v pos} he ha hl hw := by
    simp only [bind_ok, pure_ok] at he
    obtain ⟨first, e₁, h₁, ⟨effect, store⟩, e₂, h₂, h, rfl⟩ := he
    cases h
    obtain ⟨a₁, n₁, as, c₁⟩ :=
      hx.ok h₁ ha hl (((growing_declare fun _ => trivial).ok h₂).within hw)
    obtain ⟨o, rfl, ho, hd, a₂, hh⟩ := declare_ok h₂ a₁ hw
    refine ⟨o, rfl, ho, ⟨a₂.view, ?_, a₂.named⟩, n₁.trans (.of_heap hh), as, hc c₁ hd⟩
    rw [a₂.offset, Instr.total_append, Nat.add_assoc]

theorem yields_constant {value : Value}
    (hc : ∀ {c v pos ix}, Holds W c ix value →
      Coded T W c s (.form direct f .value) v pos [.const ix] []) :
    Yields T W s (.form direct f .value) (·.push 1) (constant value) where
  growing := growing_constant value
  ok he ha hl hw := by
    obtain ⟨ix, rfl, h, a, hh⟩ := constant_ok he ha hw
    exact ⟨a, .of_heap hh, [], hc h⟩

theorem yields_string {text : String} :
    YieldsForm T W s direct (.string text) (do
      let h ← alloc (.string text)
      valued (constant (.object h))) where
  growing := growing_bind (growing_alloc (by simp)) fun _ => growing_valued (growing_constant _)
  ok {c e eff code e' v pos} he ha hl hw := by
    unfold valued at he
    simp only [bind_ok, alloc_ok, pure_ok] at he
    obtain ⟨_, _, ⟨rfl, rfl⟩, code, e₁, h₁, h, rfl⟩ := he
    cases h
    have hs := ((growing_constant _).ok h₁).within hw |>.heap e.heap.size _ (Heap.get?_alloc_size ..)
    have a₀ : Emission.At v pos { e with heap := e.heap.alloc (.string text) } :=
      ⟨ha.view, ha.offset, ha.named⟩
    obtain ⟨ix, rfl, h, a, hh⟩ := constant_ok h₁ a₀ hw
    refine ⟨.value, rfl, fun _ => rfl, a, fun i c hc => ?_, [], .string (Heap.string?_eq_some.2 hs) h⟩
    rw [hh, Heap.code?_eq_some] at hc
    rcases Heap.get?_alloc_cases hc with hc | ⟨-, hc⟩
    · exact Or.inl (Heap.code?_eq_some.2 hc)
    · cases hc

theorem yields_reference {name : String} {binding : Binding} :
    Yields T W s (.form direct (.reference name binding) .value) (·.push 1)
      (read T s name binding) where
  growing := growing_read T s binding fun _ => trivial
  ok he ha hl hw := by
    obtain ⟨place, h, rfl, a, hh⟩ := read_ok he ha hw
    exact ⟨by cases h <;> exact a, .of_heap hh, _, .reference h⟩

theorem yields_assign {name : String} {binding : Binding} {value : Form}
    (hx : Yields T W s (.form false value .value) (·.push 1) x) :
    YieldsForm T W s direct (.assign name binding value) (do
      let code ← x
      return (.value, code ++ (← write T s name binding))) where
  growing := growing_bind hx.growing fun _ =>
    growing_bind (growing_write T s binding fun _ => trivial) fun _ =>
    growing_pure _
  ok {c e eff code e' v pos} he ha hl hw := by
    simp only [bind_ok, pure_ok] at he
    obtain ⟨first, e₁, h₁, store, e₂, h₂, h, rfl⟩ := he
    cases h
    obtain ⟨a₁, n₁, as, c₁⟩ := hx.ok h₁ ha hl (((growing_write T s binding fun _ => trivial).ok h₂).within hw)
    obtain ⟨place, h, rfl, a₂, hh⟩ := write_ok h₂ a₁ hw
    refine ⟨.value, rfl, fun _ => rfl, ⟨a₂.view, ?_, a₂.named⟩, n₁.trans (.of_heap hh), _, .assign c₁ h⟩
    rw [a₂.offset, Instr.total_append, Nat.add_assoc]
    cases h <;> rfl

theorem yields_block {whole : Form} {b : ScopeId} (hx : YieldsBody T W b fs x) :
    Yields T W s (.form direct (.block b fs) .value) (·.push 1) (block T whole b 0 x) where
  growing := growing_block T whole b 0 hx.growing
  ok {c e code e' v pos} he ha hl hw := by
    obtain ⟨k, u, inner, exit, as, rfl, hu, hc, hexit, a, hn⟩ := block_ok hx he ha hl hw
    exact ⟨a, hn, as, .block hu hc hexit⟩

theorem yields_imp {task task' : Task} {next : View → View} (h : Yields T W s task next x)
    (hc : ∀ {c v pos code as}, Coded T W c s task v pos code as →
      Coded T W c s task' v pos code as) : Yields T W s task' next x where
  growing := h.growing
  ok he ha hl hw := by
    obtain ⟨a, n, as, h⟩ := h.ok he ha hl hw
    exact ⟨a, n, as, hc h⟩

end Emit

/-! ## Forms -/

namespace Form

open Emit

mutual

theorem emit_yields (T : Scopes) (W : World) (s : ScopeId) (direct : Bool) (f : Form) :
    YieldsForm T W s direct f (f.emit T s direct) := by
  cases f with
  | number x => exact yields_valued (yields_constant .number)
  | string text => exact yields_string
  | boolean b => exact yields_valued (yields_constant .boolean)
  | reference name binding => exact yields_valued yields_reference
  | block b body => exact yields_valued (yields_block (emitBody_yields T W b body))
  | declare name init => exact yields_declared (yields_only (emit_yields T W s false init)) .declare
  | assign name binding value => exact yields_assign (yields_only (emit_yields T W s false value))
  | ifThen test thn =>
    exact yields_valued (yields_imp (yields_branch (yields_only (emit_yields T W s false test))
      (yields_only (emit_yields T W s false thn)) (yields_constant .boolean)) .ifThen)
  | ifElse test thn els =>
    exact yields_valued (yields_branch (yields_only (emit_yields T W s false test))
      (yields_only (emit_yields T W s false thn)) (yields_only (emit_yields T W s false els)))
  | whileLoop test body =>
    exact yields_valued (yields_imp (yields_loop (yields_only (emit_yields T W s false test))
      (yields_only (emit_yields T W s false body)) (by simp) yields_noModifier) .whileLoop)
  | forLoop init test modifier body =>
    have modifier := yields_only (emit_yields T W s false modifier)
    refine yields_valued (yields_forLoop (emit_yields T W s true init)
      (yields_loop (yields_only (emit_yields T W s false test))
        (yields_only (emit_yields T W s false body)) ?_ (yields_modifier modifier)))
    rintro _ ⟨⟩
    exact modifier.growing
  | define name f params body =>
    exact yields_declared (yields_function (yields_functionBody (emitInside_yields T W body)
      (emitInside_growing (s := f) admits_true) (yields_only (emit_yields T W f false body)))) .define
  | lambda label f params body =>
    exact yields_valued (yields_imp (yields_function (yields_functionBody
      (emitInside_yields T W body) (emitInside_growing (s := f) admits_true)
      (yields_only (emit_yields T W f false body)))) .lambda)
  | operation op x y =>
    exact yields_valued (yields_operation (yields_only (emit_yields T W s false x))
      (yields_only (emit_yields T W s false y)))
  | call callee args =>
    exact yields_valued (yields_call (yields_only (emit_yields T W s false callee))
      (emitAll_yields T W s args))
  | malformed e why => exact ⟨growing_throw _, fun he => (throw_ok.1 he).elim⟩

theorem emitInside_yields (T : Scopes) (W : World) (f : Form) (b : ScopeId) (fs : List Form)
    (hf : f = .block b fs) : YieldsBody T W b fs (emitInside T f) := by
  cases f with
  | block b' body => cases hf; exact emitBody_yields T W b fs
  | _ => cases hf

theorem emitBody_yields (T : Scopes) (W : World) (s : ScopeId) (fs : List Form) :
    YieldsBody T W s fs (emitBody T s fs) := by
  match fs with
  | [] => exact yields_empty
  | [f] => exact yields_last (emit_yields T W s true f)
  | f :: g :: fs => exact yields_next (emit_yields T W s true f) (emitBody_yields T W s (g :: fs))

theorem emitAll_yields (T : Scopes) (W : World) (s : ScopeId) (fs : List Form) :
    Yields T W s (.args fs) (·.push fs.length) (emitAll T s fs) := by
  cases fs with
  | nil => exact yields_noArgs
  | cons f fs => exact yields_args (yields_only (emit_yields T W s false f)) (emitAll_yields T W s fs)

end

end Form

/-! ## Programs -/

/-- The code object of a program. -/
def CompiledMain (T : Scopes) (W : World) (program : Form) (c : Code) : Prop :=
  c.name = "main" ∧ c.arity = 0 ∧ c.free = #[] ∧ ∃ code as,
    Coded T W c Scopes.root (.form false program .value) .start 0 code as ∧
      c.bytes = Instr.bytes (code ++ [.halt])

/-- The results of a compilation. -/
def Compilation.world (r : Compilation) : World := ⟨r.heap, r.globals⟩

theorem Compilation.result_eq_ok {r : Compilation} {main : Handle} (h : r.result.toOption = some main) :
    r.result = .ok main := by
  cases hr : r.result with
  | error err =>
    rw [hr] at h
    cases h
  | ok i =>
    rw [hr] at h
    cases h
    rfl

theorem Emit.main_ok {T : Scopes} {program : Form} {e e' : Emission} {h : Handle}
    (he : Emit.main T program e = .ok h e') :
    ∃ code e₁ c, Emit.only (program.emit T Scopes.root false) e = .ok code e₁ ∧
      c = (e₁.draft.advance 1).finish (code ++ [.halt]) ∧ h = e₁.heap.size ∧
      e'.heap = e₁.heap.alloc (.code c) ∧ e'.globals = e₁.globals := by
  unfold main at he
  simp only [bind_ok, instr_ok, draft_ok, note_ok, alloc_ok] at he
  obtain ⟨code, e₁, h₁, _, _, ⟨rfl, rfl⟩, _, _, ⟨rfl, rfl⟩, _, _, rfl, rfl, rfl⟩ := he
  exact ⟨code, e₁, _, h₁, rfl, rfl, rfl, rfl⟩

theorem Emit.growing_main {N : String → Prop} {T : Scopes} {program : Form}
    (h : Form.Admits T N Scopes.root [program]) : Emit.Growing N (Emit.main T program) :=
  growing_bind (growing_only (Form.emit_growing h)) fun _ =>
    growing_bind (growing_instr _) fun _ => growing_bind growing_draft fun _ =>
      growing_bind (growing_note _) fun _ => growing_alloc (by simp)

/-- Where the code generation of a program starts. -/
def Emission.start (heap : Heap) (globals : Globals) (notes : Array String) : Emission :=
  ⟨heap, globals, notes, .start "main" 0 1 #[] #[]⟩

theorem Expr.compile_cases (e : Expr) (heap : Heap) (globals : Globals) :
    ∃ notes, match Emit.main e.resolveProgram.2 (Form.ofResolved "lambda" e.resolveProgram.1)
        (.start heap globals notes) with
      | .ok h e' => e.compile heap globals = ⟨.ok h, e'.heap, e'.globals, e'.notes⟩
      | .error err e' => e.compile heap globals = ⟨.error err, e'.heap, e'.globals, e'.notes⟩ := by
  refine ⟨#[s!"analyzed {e.resolveProgram.2.size} scopes"], ?_⟩
  cases hm : Emit.main e.resolveProgram.2 (Form.ofResolved "lambda" e.resolveProgram.1)
      (.start heap globals #[s!"analyzed {e.resolveProgram.2.size} scopes"]) with
  | ok h e' =>
    rw [Emission.start] at hm
    simp only [Expr.compile, EStateM.run, hm]
  | error err e' =>
    rw [Emission.start] at hm
    simp only [Expr.compile, EStateM.run, hm]

/-- However a compilation ends, it extends the heap and the globals. -/
theorem Expr.compile_extends {N : String → Prop} {e : Expr} {heap : Heap} {globals : Globals}
    (hN : Form.Admits e.resolveProgram.2 N Scopes.root
      [Form.ofResolved "lambda" e.resolveProgram.1]) :
    World.Extends N ⟨heap, globals⟩ (e.compile heap globals).world := by
  obtain ⟨notes, h⟩ := e.compile_cases heap globals
  split at h
  · next h' em hm =>
    rw [h]
    exact ((Emit.growing_main hN).ok hm).toExtends
  · next err em hm =>
    rw [h]
    exact (Emit.growing_main hN).error hm

/-- A compilation that succeeds allocates the code object of the program, and all others that
    it allocates are functions of the program. -/
theorem Expr.compile_ok {e : Expr} {heap : Heap} {globals : Globals} {main : Handle}
    (h : (e.compile heap globals).result = .ok main) :
    let r := e.compile heap globals
    let T := e.resolveProgram.2
    (∃ c, r.heap.code? main = some c ∧
      CompiledMain T r.world (Form.ofResolved "lambda" e.resolveProgram.1) c) ∧
      ∀ i c, r.heap.code? i = some c → heap.code? i = some c ∨ i = main ∨ Compiled T r.world c := by
  obtain ⟨notes, hr⟩ := e.compile_cases heap globals
  split at hr
  · next h' e' hm =>
    rw [hr] at h
    cases h
    obtain ⟨code, e₁, c, h₁, rfl, rfl, hheap, hglobals⟩ := Emit.main_ok hm
    have hc : (e.compile heap globals).heap.code? e₁.heap.size =
        some ((e₁.draft.advance 1).finish (code ++ [.halt])) := by
      rw [hr, Heap.code?_eq_some, hheap]
      exact Heap.get?_alloc_size ..
    have hw : e₁.Within (e.compile heap globals).world
        ((e₁.draft.advance 1).finish (code ++ [.halt])) := by
      refine ⟨fun i o ho => ?_, fun ix x hx => ?_, fun _ _ h => h, fun _ _ h => h, rfl⟩
      · change (e.compile heap globals).heap.get? i = some o
        rw [hr, hheap]
        exact Heap.get?_alloc_of_some ho
      · change (e.compile heap globals).globals.get? ix = some x
        rw [hr, hglobals]
        exact hx
    obtain ⟨a, n, as, hcoded⟩ := (Emit.yields_only (Form.emit_yields e.resolveProgram.2
      (e.compile heap globals).world Scopes.root false _)).ok h₁ ⟨rfl, rfl, nofun⟩
        View.leveled_start hw
    have hg := (Emit.growing_only (Form.emit_growing Form.admits_true)).ok h₁
    refine ⟨⟨_, hc, hg.draft.name, hg.draft.arity, hg.draft.free, code, as, hcoded, rfl⟩, fun i c hi => ?_⟩
    rw [hr, Heap.code?_eq_some, hheap] at hi
    rcases Heap.get?_alloc_cases hi with hi | ⟨rfl, -⟩
    · exact (n i c (Heap.code?_eq_some.2 hi)).imp_right Or.inr
    · exact Or.inr (Or.inl rfl)
  · rw [hr] at h
    cases h

end ByteLisp
