/-
  ByteLisp: two compilations of a form go in step.

  * `Emit.Twins`: two actions that give related results and leave emissions that
    correspond; there is one lemma for each action;
  * `Form.emit_twins`, `Form.emitBody_twins`: so do the code of a form and that of the
    form behind another program.
-/
import ByteLisp.Proofs.Generation.Emitted
import ByteLisp.Proofs.Generation.Pools
import ByteLisp.Proofs.Generation.Typing
import ByteLisp.Proofs.Joined.Twins
import Mathlib.Data.List.Forall2

namespace ByteLisp

variable {S : Sides}

theorem Sides.instrs_append {is is' js js' : List Instr} (h : S.Instrs is is') (h' : S.Instrs js js') :
    S.Instrs (is ++ js) (is' ++ js') := List.rel_append h h'

/-- The inside of a function is fair if its code object is on the heap. -/
theorem Sides.Fair.inside (hS : S.Fair) {c c' : Code} {i j : Handle} (hi : S.start ≤ i) (hj : S.start' ≤ j)
    (hc : S.world.heap.code? i = some c) (hc' : S.world'.heap.code? j = some c') : (S.inside c c').Fair where
  new := hS.new
  string := hS.string
  numbers := hS.numbers
  numbers' := hS.numbers'
  here x hx := hS.numbers i c x hi hc hx
  here' x hx := hS.numbers' j c' x hj hc' hx

namespace Emit

variable {α β : Type} {p q : Prop}

/-- If `p` holds, the results of two actions are related by `Q`, and the emissions correspond
    afterwards if they did before. What is generated is part of the final results. -/
structure Twins (S : Sides) (p : Prop) (Q : α → α → Prop) (x y : Emit α) : Prop where
  growing : Growing (fun _ => True) x
  growing' : Growing (fun _ => True) y
  ok : p → ∀ {a b e e' d d'}, x e = .ok a e' → y d = .ok b d' → e'.Within S.world S.code →
    d'.Within S.world' S.code' → e.Twin S d → Q a b ∧ e'.Twin S d'

/-- Results that say nothing. -/
abbrev Any (_ _ : Unit) : Prop := True

variable {Q Q₁ : α → α → Prop} {Q' : β → β → Prop} {x y x' y' : Emit α}

/-- What is known of the results of the first action is known from then on. -/
theorem twins_bind {u v : α → Emit β} (hx : Twins S p Q x y)
    (hu : ∀ a b, Twins S (Q a b ∧ p) Q' (u a) (v b)) : Twins S p Q' (x >>= u) (y >>= v) where
  growing := growing_bind hx.growing fun a => (hu a a).growing
  growing' := growing_bind hx.growing' fun b => (hu b b).growing'
  ok hp {_ _ _ _ _ _} h h' hw hw' ht := by
    obtain ⟨a, e₁, h₁, h₂⟩ := bind_ok.1 h
    obtain ⟨b, d₁, h₁', h₂'⟩ := bind_ok.1 h'
    obtain ⟨hq, ht₁⟩ := hx.ok hp h₁ h₁' (((hu a b).growing.ok h₂).within hw)
      (((hu a b).growing'.ok h₂').within hw') ht
    exact (hu a b).ok ⟨hq, hp⟩ h₂ h₂' hw hw' ht₁

theorem twins_pure {a b : α} (h : p → Q a b) : Twins S p Q (pure a) (pure b) where
  growing := growing_pure a
  growing' := growing_pure b
  ok hp {_ _ _ _ _ _} ha hb _ _ ht := by
    obtain ⟨rfl, rfl⟩ := pure_ok.1 ha
    obtain ⟨rfl, rfl⟩ := pure_ok.1 hb
    exact ⟨h hp, ht⟩

theorem twins_throw {err : CompileError} (hy : Growing (fun _ => True) y) : Twins S p Q (throw err) y where
  growing := growing_throw err
  growing' := hy
  ok _ {_ _ _ _ _ _} h _ _ _ _ := (throw_ok.1 h).elim

theorem twins_ite {P P' : Prop} [Decidable P] [Decidable P'] (hP : p → (P ↔ P')) (hx : Twins S p Q x y)
    (hx' : Twins S p Q x' y') : Twins S p Q (if P then x else x') (if P' then y else y') where
  growing := growing_ite hx.growing hx'.growing
  growing' := growing_ite hx.growing' hx'.growing'
  ok hp := by
    by_cases h : P
    · rw [if_pos h, if_pos ((hP hp).1 h)]
      exact hx.ok hp
    · rw [if_neg h, if_neg fun h' => h ((hP hp).2 h')]
      exact hx'.ok hp

theorem Twins.mono (h : Twins S q Q x y) (hp : p → q) (hQ : p → ∀ a b, Q a b → Q₁ a b) :
    Twins S p Q₁ x y where
  growing := h.growing
  growing' := h.growing'
  ok hh {_ _ _ _ _ _} h₁ h₁' hw hw' ht := by
    obtain ⟨hq, ht⟩ := h.ok (hp hh) h₁ h₁' hw hw' ht
    exact ⟨hQ hh _ _ hq, ht⟩

theorem Twins.weaken (h : Twins S q Q x y) (hp : p → q) : Twins S p Q x y := h.mono hp fun _ _ _ hq => hq

/-- After an action without a result no more is known than before. -/
theorem twins_next {x y : Emit Unit} {u v : Emit β} (hx : Twins S p Any x y) (hu : Twins S p Q' u v) :
    Twins S p Q' (x >>= fun _ => u) (y >>= fun _ => v) := twins_bind hx fun _ _ => hu.weaken fun ⟨_, hp⟩ => hp

/-- An action that leaves the emission as it is: only its result matters. -/
theorem twins_look (hx : Growing (fun _ => True) x) (hy : Growing (fun _ => True) y)
    (h : p → ∀ {a b e e' d d'}, x e = .ok a e' → y d = .ok b d' → e.Twin S d → (Q a b ∧ e' = e) ∧ d' = d) :
    Twins S p Q x y where
  growing := hx
  growing' := hy
  ok hp {_ _ _ _ _ _} h₁ h₁' _ _ ht := by
    obtain ⟨⟨hq, rfl⟩, rfl⟩ := h hp h₁ h₁' ht
    exact ⟨hq, ht⟩

/-! ## Actions -/

theorem twins_draft : Twins S p (Draft.Twin S.dist S.skip) draft draft :=
  twins_look growing_draft growing_draft fun _ {_ _ _ _ _ _} h h' ht => by
    obtain ⟨rfl, rfl⟩ := draft_ok.1 h
    obtain ⟨rfl, rfl⟩ := draft_ok.1 h'
    exact ⟨⟨ht.draft, rfl⟩, rfl⟩

theorem twins_update {F F' : Draft → Draft} (hF : ∀ d : Draft, d.Grows (F d))
    (hF' : ∀ d : Draft, d.Grows (F' d))
    (h : p → ∀ d d', d.Twin S.dist S.skip d' → (F d).Twin S.dist S.skip (F' d')) :
    Twins S p Any (update F) (update F') where
  growing := growing_update hF
  growing' := growing_update hF'
  ok hp {_ _ _ _ _ _} h₁ h₁' _ _ ht := by
    cases update_ok.1 h₁
    cases update_ok.1 h₁'
    exact ⟨trivial, ht.next, ht.objects, ht.names, h hp _ _ ht.draft⟩

/-- A change of the places of a draft only. -/
theorem twins_keep {F F' : Draft → Draft} (hF : ∀ d, (F d).pools = d.pools)
    (hF' : ∀ d, (F' d).pools = d.pools)
    (h : p → ∀ d d', d.Twin S.dist S.skip d' → (F d).Twin S.dist S.skip (F' d')) :
    Twins S p Any (update F) (update F') where
  growing := growing_keep hF
  growing' := growing_keep hF'
  ok hp {_ _ _ _ _ _} h₁ h₁' _ _ ht := by
    cases update_ok.1 h₁
    cases update_ok.1 h₁'
    exact ⟨trivial, ht.next, ht.objects, ht.names, h hp _ _ ht.draft⟩

theorem twins_grow {n : Nat} : Twins S p Any (update (·.grow n)) (update (·.grow n)) :=
  twins_keep (fun _ => rfl) (fun _ => rfl) fun _ _ _ h => { h with depth := congrArg (· + n) h.depth }

theorem twins_shrink {n k : Nat} (hn : p → n = k) :
    Twins S p Any (update (·.shrink n)) (update (·.shrink k)) :=
  twins_keep (fun _ => rfl) (fun _ => rfl) fun hp _ _ h =>
    { h with depth := by rw [Draft.shrink, Draft.shrink, h.depth, hn hp] }

theorem twins_advance {n k : Nat} (hn : p → n = k) :
    Twins S p Any (update (·.advance n)) (update (·.advance k)) :=
  twins_keep (fun _ => rfl) (fun _ => rfl) fun hp d d' h =>
    { h with offset := by simp only [Draft.advance, h.offset, hn hp, Nat.add_right_comm] }

theorem twins_reserve : Twins S p Any reserve reserve := twins_advance fun _ => rfl

theorem twins_instr {i i' : Instr}
    (h : p → Instr.Twin S.related S.code.constants S.code'.constants S.dist S.skip i i') :
    Twins S p S.Instrs (instr i) (instr i') :=
  twins_next (twins_advance fun hp => (h hp).size_eq) (twins_pure fun hp => .cons (h hp) .nil)

theorem twins_fixed {i : Instr} (hi : i.Fixed) : Twins S p S.Instrs (instr i) (instr i) :=
  twins_instr fun _ => .fixed hi

/-- An instruction whose operand is the same on both sides. -/
theorem twins_operand (f : UInt8 → Instr) {n k : UInt8} (hf : (f n).Fixed) (h : p → n = k) :
    Twins S p S.Instrs (instr (f n)) (instr (f k)) :=
  twins_instr fun hp => h hp ▸ .fixed hf

theorem twins_address : Twins S p (fun t t' => t'.toNat = t.toNat + S.dist) address address :=
  twins_look growing_address growing_address fun _ {_ _ _ _ _ _} h h' ht => by
    obtain ⟨ha, rfl⟩ := address_ok h
    obtain ⟨hb, rfl⟩ := address_ok h'
    exact ⟨⟨by rw [ha, hb, ht.draft.offset], rfl⟩, rfl⟩

theorem twins_addressOf {n k : Nat} (hk : p → k = n + S.dist) :
    Twins S p (fun t t' => t'.toNat = t.toNat + S.dist) (addressOf n) (addressOf k) :=
  twins_look (growing_addressOf n) (growing_addressOf k) fun hp {_ _ _ _ _ _} h h' _ => by
    obtain ⟨ha, rfl⟩ := addressOf_ok h
    obtain ⟨hb, rfl⟩ := addressOf_ok h'
    exact ⟨⟨by rw [ha, hb, hk hp], rfl⟩, rfl⟩

theorem twins_placeOperand {n k l : Nat} (hk : p → k = n + l) :
    Twins S p (fun ix ix' => ix'.toNat = ix.toNat + l) (placeOperand n) (placeOperand k) :=
  twins_look (growing_placeOperand n) (growing_placeOperand k) fun hp {_ _ _ _ _ _} h h' _ => by
    obtain ⟨ha, rfl⟩ := placeOperand_ok h
    obtain ⟨hb, rfl⟩ := placeOperand_ok h'
    exact ⟨⟨by rw [ha, hb, hk hp], rfl⟩, rfl⟩

/-- The operand of a place that is the same. -/
theorem twins_samePlace {n k : Nat} (hk : p → k = n) : Twins S p Eq (placeOperand n) (placeOperand k) :=
  (twins_placeOperand (l := 0) hk).mono id fun _ _ _ h => (UInt8.toNat_inj.1 h).symm

theorem twins_countOperand {n k : Nat} {whole whole' : Form} {why : Malformation} (hk : p → k = n) :
    Twins S p Eq (countOperand n whole why) (countOperand k whole' why) :=
  twins_look (growing_countOperand ..) (growing_countOperand ..) fun hp {_ _ _ _ _ _} h h' _ => by
    obtain ⟨ha, rfl⟩ := countOperand_ok h
    obtain ⟨hb, rfl⟩ := countOperand_ok h'
    exact ⟨⟨UInt8.toNat_inj.1 (by rw [ha, hb, hk hp]), rfl⟩, rfl⟩

/-- Allocating objects that correspond. -/
theorem twins_alloc (hS : S.Fair) {o o' : Object} (hc : ∀ v, o ≠ .cell v) (hc' : ∀ v, o' ≠ .cell v)
    (ho : p → o.Twin S.related o') :
    Twins S p (fun i j => S.related i j ∧ S.world.heap.get? i = some o ∧ S.world'.heap.get? j = some o')
      (alloc o) (alloc o') where
  growing := growing_alloc hc
  growing' := growing_alloc hc'
  ok hp {_ _ e _ d _} h h' hw hw' ht := by
    obtain ⟨rfl, rfl⟩ := alloc_ok.1 h
    obtain ⟨rfl, rfl⟩ := alloc_ok.1 h'
    obtain ⟨k, he, hd⟩ := ht.next
    have hi := hw.heap e.heap.size o (Heap.get?_alloc_size ..)
    have hlt := Heap.lt_size_of_get? hi
    refine ⟨⟨?_, hi, hw'.heap d.heap.size o' (Heap.get?_alloc_size ..)⟩, ⟨k + 1, ?_, ?_⟩, fun l q hq => ?_,
      ht.names, ht.draft⟩
    · rw [he] at hlt ⊢
      rw [hd]
      exact hS.new k hlt
    · rw [Heap.size_alloc, he, Nat.add_assoc]
    · rw [Heap.size_alloc, hd, Nat.add_assoc]
    · rcases Heap.get?_alloc_cases hq with hq | ⟨hl, rfl⟩
      · obtain ⟨q', hq', hqq'⟩ := ht.objects l q hq
        exact ⟨q', Heap.get?_alloc_of_some hq', hqq'⟩
      · have hl : l = k := Nat.add_left_cancel (hl.trans he)
        refine ⟨o', ?_, ho hp⟩
        rw [hl, ← hd]
        exact Heap.get?_alloc_size ..

/-! ## Constants -/

/-- A constant is what was asked for, or a string with the same text. -/
theorem twin_const (hS : S.Fair) {v v' : Value} {ix ix' : UInt8} (hv : S.Constant v v')
    (h : Holds S.world S.code ix v) (h' : Holds S.world' S.code' ix' v') :
    Instr.Twin S.related S.code.constants S.code'.constants S.dist S.skip (.const ix) (.const ix') := by
  cases hv with
  | number hx =>
    obtain ⟨y, hy, hyx⟩ := h.number
    obtain ⟨z, hz, hzx⟩ := h'.number
    obtain rfl := hyx.elim id (Double.Plain.eq_of_beq (hS.here y (Array.mem_of_getElem? hy)) hx)
    obtain rfl := hzx.elim id (Double.Plain.eq_of_beq (hS.here' z (Array.mem_of_getElem? hz)) hx)
    exact .const hy hz (.number _)
  | boolean b => exact .const h.boolean h'.boolean (.boolean b)
  | string hi hj =>
    obtain ⟨i, hu, hi⟩ := h.string hi
    obtain ⟨j, hu', hj⟩ := h'.string hj
    exact .const hu hu' (.object (hS.string i j _ hi hj))
  | object hi hj hr => exact .const (h.object hi) (h'.object hj) (.object hr)

theorem constant_step {v : Value} {c : Code} {W : World} {e e' : Emission} {code : List Instr}
    (h : constant v e = .ok code e') (hw : e'.Within W c) :
    ∃ ix cs, code = [.const ix] ∧ Holds W c ix v ∧
      e' = { e with draft := ({ e.draft with constants := cs }.grow 1).advance 2 } := by
  unfold constant at h
  simp only [bind_ok, update_ok, instr_ok] at h
  obtain ⟨ix, e₁, h₁, _, _, rfl, rfl, rfl⟩ := h
  obtain ⟨⟨u, hu, hsame⟩, cs, rfl⟩ := constantIndex_ok h₁
  exact ⟨ix, cs, rfl, ⟨u, hw.constants _ _ hu, hsame.imp_right (sameConstant_of_extends hw.heap)⟩, rfl⟩

theorem twins_constant (hS : S.Fair) {v v' : Value} (hv : p → S.Constant v v') :
    Twins S p S.Instrs (constant v) (constant v') where
  growing := growing_constant v
  growing' := growing_constant v'
  ok hp {_ _ _ _ _ _} h h' hw hw' ht := by
    obtain ⟨ix, cs, rfl, hu, rfl⟩ := constant_step h hw
    obtain ⟨ix', cs', rfl, hu', rfl⟩ := constant_step h' hw'
    refine ⟨.cons (twin_const hS (hv hp) hu hu') .nil, ht.next, ht.objects, ht.names, ?_⟩
    have hd := ht.draft
    exact { hd with
      offset := by simp only [Draft.advance, Draft.grow, hd.offset, Nat.add_right_comm]
      depth := congrArg (· + 1) hd.depth }

theorem twins_boolean (hS : S.Fair) (b : Bool) :
    Twins S p S.Instrs (constant (.boolean b)) (constant (.boolean b)) :=
  twins_constant hS fun _ => .boolean b

/-! ## Variables -/

theorem indexOf?_of_names {g g' : Globals} (h : g.names = g'.names) (name : String) :
    g'.indexOf? name = g.indexOf? name := by
  have same (ix : Nat) : g'.name? ix = g.name? ix := by
    rw [← Globals.names_getElem?, ← Globals.names_getElem?, h]
  ext ix
  rw [Globals.indexOf?_eq_some, Globals.indexOf?_eq_some]
  simp only [same]

theorem define_of_names {g g' : Globals} (h : g.names = g'.names) (name : String) :
    (g.define name).1 = (g'.define name).1 ∧ (g.define name).2.names = (g'.define name).2.names := by
  have hsize : g.size = g'.size := by
    have := congrArg List.length h
    simpa [Globals.names, Globals.size] using this
  have hnames : name ∈ g.names ↔ name ∈ g'.names := by rw [h]
  refine ⟨?_, ?_⟩
  · simp only [Globals.define, Globals.insertNew, indexOf?_of_names h, hsize]
    split <;> rfl
  · by_cases hn : name ∈ g.names
    · rw [Globals.define_of_mem hn, Globals.define_of_mem (hnames.1 hn), h]
    · rw [Globals.define_of_not_mem hn, Globals.define_of_not_mem fun h => hn (hnames.2 h),
        Globals.names_adding, Globals.names_adding, h]

theorem twins_definedIndex (name : String) : Twins S p Eq (definedIndex name) (definedIndex name) where
  growing := growing_of_forall fun e => ⟨_, growing_bind (growing_defineGlobal trivial) fun _ =>
    growing_ite (growing_pure _) (growing_throw _), rfl⟩
  growing' := growing_of_forall fun e => ⟨_, growing_bind (growing_defineGlobal trivial) fun _ =>
    growing_ite (growing_pure _) (growing_throw _), rfl⟩
  ok _ {_ _ e _ d _} h h' _ _ ht := by
    obtain ⟨rfl, ha⟩ := definedIndex_ok h
    obtain ⟨rfl, hb⟩ := definedIndex_ok h'
    obtain ⟨hix, hnames⟩ := define_of_names ht.names name
    refine ⟨?_, ht.next, ht.objects, hnames, ht.draft⟩
    rw [← UInt8.toNat_inj, (globalCheck_ok (ha e)).1, (globalCheck_ok (hb e)).1, hix]

/-- The place of a global variable, which is defined if need be. -/
theorem twins_globalIndex {T T' : Scopes} {name : String} :
    Twins S p Eq (globalIndex T name) (globalIndex T' name) := by
  have defined {T : Scopes} {e a e'} (h : globalIndex T name e = .ok a e') :
      definedIndex name e = .ok a e' := by
    rw [globalIndex_apply] at h
    split at h
    · next hix => rwa [definedIndex_of_indexOf? hix]
    · split at h
      · exact h
      · cases h
  refine ⟨growing_globalIndex fun _ => trivial, growing_globalIndex fun _ => trivial,
    fun hp _ _ _ _ _ _ h h' => ?_⟩
  exact (twins_definedIndex name).ok hp (defined h) (defined h')

theorem twins_slotIndex (name : String) : Twins S p Eq (slotIndex name) (slotIndex name) :=
  twins_look (growing_slotIndex name) (growing_slotIndex name) fun _ {_ _ _ _ _ _} h h' ht => by
    obtain ⟨ha, rfl⟩ := slotIndex_ok h
    obtain ⟨hb, rfl⟩ := slotIndex_ok h'
    rw [Draft.slot?_view] at ha hb
    rw [ht.draft.slot?, ha] at hb
    exact ⟨⟨UInt8.toNat_inj.1 (Option.some.inj hb), rfl⟩, rfl⟩

theorem twins_cellIndex (name : String) :
    Twins S p (fun ix ix' => ix'.toNat = ix.toNat + S.skip) (cellIndex name) (cellIndex name) :=
  twins_look (growing_cellIndex name) (growing_cellIndex name) fun _ {_ _ _ _ _ _} h h' ht => by
    obtain ⟨ha, rfl⟩ := cellIndex_ok h
    obtain ⟨hb, rfl⟩ := cellIndex_ok h'
    rw [Draft.cell?_view] at ha hb
    rw [ht.draft.cell?, ha] at hb
    exact ⟨⟨(Option.some.inj hb).symm, rfl⟩, rfl⟩

theorem twins_map {f : α → β} (hx : Twins S p Q x y) (hQ : p → ∀ a b, Q a b → Q' (f a) (f b)) :
    Twins S p Q' (f <$> x) (f <$> y) where
  growing := growing_map hx.growing
  growing' := growing_map hx.growing'
  ok hp {_ _ _ _ _ _} h h' hw hw' ht := by
    obtain ⟨a, h₁, rfl⟩ := map_ok.1 h
    obtain ⟨b, h₁', rfl⟩ := map_ok.1 h'
    obtain ⟨hq, ht⟩ := hx.ok hp h₁ h₁' hw hw' ht
    exact ⟨hQ hp a b hq, ht⟩

section

variable {U T T' : Scopes} {s n : Nat} {name : String} {binding : Binding}

/-- Reading a variable. -/
theorem twins_read (hT : Scopes.Aligned U T T' n) (hs : s < n) (hb : binding.Below n) :
    Twins S p S.Instrs (read T s name binding) (read T' (U.shift s) name (binding.behind U name)) := by
  have rest (i i' : Instr) :
      Twins S (Instr.Twin S.related S.code.constants S.code'.constants S.dist S.skip i i' ∧ p)
        S.Instrs (do update (·.grow 1); instr i) (do update (·.grow 1); instr i') :=
    twins_next twins_grow (twins_instr fun ⟨hi, _⟩ => hi)
  unfold read
  dsimp only
  rw [hT.storageOf hs hb]
  cases T.storageOf s name binding with
  | global => exact twins_bind (twins_map twins_globalIndex fun _ a b h => h ▸ .fixed trivial) rest
  | slot => exact twins_bind (twins_map (twins_slotIndex name) fun _ a b h => h ▸ .fixed trivial) rest
  | cell => exact twins_bind (twins_map (twins_cellIndex name) fun _ a b h => .getCell h) rest

/-- Writing a variable. -/
theorem twins_write (hT : Scopes.Aligned U T T' n) (hs : s < n) (hb : binding.Below n) :
    Twins S p S.Instrs (write T s name binding) (write T' (U.shift s) name (binding.behind U name)) := by
  have rest (i i' : Instr) :
      Twins S (Instr.Twin S.related S.code.constants S.code'.constants S.dist S.skip i i' ∧ p)
        S.Instrs (instr i) (instr i') := twins_instr fun ⟨hi, _⟩ => hi
  unfold write
  dsimp only
  rw [hT.storageOf hs hb]
  cases T.storageOf s name binding with
  | global => exact twins_bind (twins_map twins_globalIndex fun _ a b h => h ▸ .fixed trivial) rest
  | slot => exact twins_bind (twins_map (twins_slotIndex name) fun _ a b h => h ▸ .fixed trivial) rest
  | cell => exact twins_bind (twins_map (twins_cellIndex name) fun _ a b h => .setCell h) rest

/-- An effect with its code. -/
abbrev Parts (S : Sides) (a b : Effect × List Instr) : Prop := a.1.Twin S.skip b.1 ∧ S.Instrs a.2 b.2

/-- Declaring a variable. -/
theorem twins_declare (hT : Scopes.Aligned U T T' n) (hs : s < n) {whole whole' : Form} (direct : Bool) :
    Twins S p (Parts S) (declare T s whole name direct) (declare T' (U.shift s) whole' name direct) := by
  have hstorage : T'.storageOf (U.shift s) name .unbound = T.storageOf s name .unbound :=
    hT.storageOf hs (b := .unbound) trivial
  unfold declare
  rw [hstorage]
  cases T.storageOf s name .unbound with
  | global =>
    have heq : (do
        let e ← get
        let defined := e.globals.define name
        set { e with globals := defined.2 }
        let ix ← globalIndex.check defined.1
        return (.value, ← instr (.setGlobal ix)) : Emit (Effect × List Instr)) =
        (do
          let ix ← definedIndex name
          return (.value, ← instr (.setGlobal ix))) := rfl
    simp only [heq]
    refine twins_bind (twins_definedIndex name) fun ix ix' => ?_
    refine twins_bind (twins_operand .setGlobal trivial And.left) fun _ _ => twins_pure ?_
    rintro ⟨hset, _⟩
    exact ⟨.value, hset⟩
  | cell =>
    refine twins_bind (twins_cellIndex name) fun ix ix' => ?_
    refine twins_bind (twins_instr ?_) fun _ _ => ?_
    · rintro ⟨hix, _⟩
      exact .setCell hix
    refine twins_bind (twins_fixed trivial) fun _ _ => twins_next (twins_shrink fun _ => rfl) ?_
    refine twins_ite (fun _ => .rfl) (twins_pure ?_) ?_
    · rintro ⟨hpop, hset, hix, _⟩
      exact ⟨.stored hix, Sides.instrs_append hset hpop⟩
    refine twins_next twins_grow (twins_bind (twins_instr ?_) fun _ _ => twins_pure ?_)
    · rintro ⟨_, _, hix, _⟩
      exact .getCell hix
    · rintro ⟨hget, hpop, hset, _⟩
      exact ⟨.value, Sides.instrs_append (Sides.instrs_append hset hpop) hget⟩
  | slot =>
    refine twins_ite (fun _ => .rfl) ?_ (twins_throw (growing_throw _))
    refine twins_bind twins_draft fun d d' => ?_
    refine twins_next (twins_keep (fun _ => rfl) (fun _ => rfl) ?_) ?_
    · rintro ⟨hd, _⟩ _ _ ht
      rw [hd.depth]
      exact { ht with slots := by rw [Draft.addLocal, Draft.addLocal, ht.slots, ht.level] }
    refine twins_bind (twins_samePlace ?_) fun ix ix' => ?_
    · rintro ⟨hd, _⟩
      rw [hd.depth]
    refine twins_bind (twins_operand .setLocal trivial And.left) fun _ _ => twins_pure ?_
    rintro ⟨hset, rfl, _⟩
    exact ⟨.slot _, hset⟩

/-- Moving captured parameters. -/
theorem twins_moveCaptured (hT : Scopes.Aligned U T T' n) (hs : s < n) (slot : Nat) (names : List String) :
    Twins S p S.Instrs (moveCaptured (T.scope s) slot names)
      (moveCaptured (T'.scope (U.shift s)) slot names) := by
  induction names generalizing slot with
  | nil => exact twins_pure fun _ => .nil
  | cons name names ih =>
    refine twins_ite (fun _ => by rw [hT.moved hs]) ?_ (ih (slot + 1))
    refine twins_bind (twins_samePlace fun _ => rfl) fun ix ix' => ?_
    refine twins_bind (twins_cellIndex name) fun _ _ =>
      twins_bind (twins_operand .getLocal trivial fun ⟨_, hix, _⟩ => hix) fun _ _ => ?_
    refine twins_bind (twins_instr fun ⟨_, hcell, _⟩ => .setCell hcell) fun _ _ => ?_
    refine twins_bind (twins_fixed trivial) fun _ _ => ?_
    refine twins_bind ((ih (slot + 1)).weaken fun ⟨_, _, _, _, _, hp⟩ => hp) fun _ _ => ?_
    exact twins_pure fun ⟨hrest, hpop, hset, hget, _⟩ =>
      Sides.instrs_append (Sides.instrs_append (Sides.instrs_append hget hset) hpop) hrest

end

/-! ## Composed actions -/

variable {x₁ x₂ y₁ y₂ z₁ z₂ : Emit (List Instr)} {f₁ f₂ : Emit (Effect × List Instr)}

theorem twins_operation (op : Operator) (hx : Twins S p S.Instrs x₁ x₂) (hy : Twins S p S.Instrs y₁ y₂) :
    Twins S p S.Instrs (operation op x₁ y₁) (operation op x₂ y₂) := by
  refine twins_bind hx fun _ _ => twins_bind (hy.weaken fun ⟨_, hp⟩ => hp) fun _ _ => ?_
  refine twins_next (twins_shrink fun _ => rfl) (twins_bind (twins_fixed ?_) fun _ _ => ?_)
  · cases op <;> trivial
  · exact twins_pure fun ⟨hop, hright, hleft, _⟩ => Sides.instrs_append (Sides.instrs_append hleft hright) hop

theorem twins_branch (hx : Twins S p S.Instrs x₁ x₂) (hy : Twins S p S.Instrs y₁ y₂)
    (hz : Twins S p S.Instrs z₁ z₂) : Twins S p S.Instrs (branch x₁ y₁ z₁) (branch x₂ y₂ z₂) := by
  refine twins_bind hx fun _ _ => ?_
  refine twins_next twins_reserve
    (twins_next (twins_shrink fun _ => rfl) (twins_bind twins_draft fun d d' => ?_))
  refine twins_bind (hy.weaken fun ⟨_, _, hp⟩ => hp) fun _ _ => ?_
  refine twins_next twins_reserve (twins_bind twins_address fun _ _ => ?_)
  -- The other part starts at the depth before the first one.
  refine twins_next (twins_keep (fun _ => rfl) (fun _ => rfl)
    fun ⟨_, _, hd, _⟩ _ _ ht => { ht with depth := hd.depth }) ?_
  refine twins_bind (hz.weaken fun ⟨_, _, _, _, hp⟩ => hp) fun _ _ => twins_bind twins_address fun _ _ => ?_
  refine twins_pure fun ⟨hdone, halternate, hotherwise, hconsequent, _, htest, _⟩ => ?_
  exact Sides.instrs_append (Sides.instrs_append htest (.cons (.jumpIfFalse hotherwise) hconsequent))
    (.cons (.jump hdone) halternate)

theorem twins_discard : Twins S p S.Instrs discard discard :=
  twins_next (twins_shrink fun _ => rfl) (twins_fixed trivial)

/-- The modifiers of two loops. -/
inductive Modifiers (S : Sides) (p : Prop) : Option (Emit (List Instr)) → Option (Emit (List Instr)) → Prop
  | none : Modifiers S p none none
  | some {x y : Emit (List Instr)} (h : Twins S p S.Instrs x y) : Modifiers S p (some x) (some y)

variable {m₁ m₂ : Option (Emit (List Instr))}

theorem twins_modify? (hq : q → p) (hm : Modifiers S p m₁ m₂) :
    Twins S q S.Instrs (modify? m₁) (modify? m₂) := by
  cases hm with
  | none => exact twins_pure fun _ => .nil
  | some h =>
    exact twins_bind (h.weaken hq) fun _ _ => twins_bind twins_discard fun _ _ =>
      twins_pure fun ⟨hpop, hcode, _⟩ => Sides.instrs_append hcode hpop

theorem twins_loop (hS : S.Fair) (hx : Twins S p S.Instrs x₁ x₂) (hy : Twins S p S.Instrs y₁ y₂)
    (hm : Modifiers S p m₁ m₂) : Twins S p S.Instrs (loop x₁ y₁ m₁) (loop x₂ y₂ m₂) := by
  refine twins_bind twins_draft fun d d' => twins_bind (hx.weaken fun ⟨_, hp⟩ => hp) fun _ _ => ?_
  refine twins_next twins_reserve (twins_next (twins_shrink fun _ => rfl) ?_)
  refine twins_bind (hy.weaken fun ⟨_, _, hp⟩ => hp) fun _ _ => twins_bind twins_discard fun _ _ => ?_
  refine twins_bind (twins_modify? (fun ⟨_, _, _, _, hp⟩ => hp) hm) fun _ _ => ?_
  -- The jump back goes to where the loop started.
  refine twins_bind (twins_addressOf fun ⟨_, _, _, _, hd, _⟩ => hd.offset) fun _ _ => ?_
  refine twins_bind (twins_instr fun ⟨hstart, _⟩ => .jump hstart) fun _ _ =>
    twins_bind twins_address fun _ _ => ?_
  refine twins_bind (twins_boolean hS false) fun _ _ => ?_
  refine twins_pure fun ⟨hresult, hdone, hback, _, hmodifier, hpop, hbody, htest, _⟩ => ?_
  have hasked := Sides.instrs_append htest (.cons (.jumpIfFalse hdone) hbody)
  have hround := Sides.instrs_append (Sides.instrs_append hasked hpop) hmodifier
  exact Sides.instrs_append (Sides.instrs_append hround hback) hresult

/-- What follows on a form depends on its effect. -/
theorem twins_effect {F F' : Effect → Emit β} {a b : Effect} (h : p → a.Twin S.skip b)
    (hv : Twins S p Q' (F .value) (F' .value)) (hs : ∀ ix, Twins S p Q' (F (.slot ix)) (F' (.slot ix)))
    (hc : ∀ ix ix', Twins S (ix'.toNat = ix.toNat + S.skip ∧ p) Q' (F (.stored ix)) (F' (.stored ix'))) :
    Twins S p Q' (F a) (F' b) where
  growing := by
    cases a with
    | value => exact hv.growing
    | slot ix => exact (hs ix).growing
    | stored ix => exact (hc ix ix).growing
  growing' := by
    cases b with
    | value => exact hv.growing'
    | slot ix => exact (hs ix).growing'
    | stored ix => exact (hc ix ix).growing'
  ok hp := by
    cases h hp with
    | value => exact hv.ok hp
    | slot ix => exact (hs ix).ok hp
    | stored hix => exact (hc _ _).ok ⟨hix, hp⟩

theorem twins_forLoop (hf : Twins S p (Parts S) f₁ f₂) (hx : Twins S p S.Instrs x₁ x₂) :
    Twins S p S.Instrs (forLoop f₁ x₁) (forLoop f₂ x₂) := by
  refine twins_bind hf fun (effect, first) (effect', first') => ?_
  dsimp only
  apply twins_effect (a := effect) (b := effect') (fun ⟨⟨heffect, _⟩, _⟩ => heffect) ?_
    (fun ix => ?_) fun ix ix' => ?_
  · refine twins_bind twins_discard fun _ _ => twins_bind (hx.weaken fun ⟨_, _, hp⟩ => hp) fun _ _ => ?_
    exact twins_pure fun ⟨hloop, hpop, ⟨_, hfirst⟩, _⟩ =>
      Sides.instrs_append (Sides.instrs_append hfirst hpop) hloop
  · refine twins_bind (hx.weaken fun ⟨_, hp⟩ => hp) fun _ _ => twins_bind (twins_fixed trivial) fun _ _ => ?_
    refine twins_next (twins_keep (fun _ => rfl) (fun _ => rfl) fun _ _ _ ht =>
      { ht with depth := ?_, slots := ?_ }) ?_
    · exact congrArg (· - 1) ht.depth
    · exact congrArg List.tail ht.slots
    · exact twins_pure fun ⟨hexit, hloop, ⟨_, hfirst⟩, _⟩ =>
        Sides.instrs_append (Sides.instrs_append hfirst hloop) hexit
  · refine twins_bind (hx.weaken fun ⟨_, _, hp⟩ => hp) fun _ _ => ?_
    exact twins_pure fun ⟨hloop, _, ⟨_, hfirst⟩, _⟩ => Sides.instrs_append hfirst hloop

theorem twins_separate (hf : Twins S p (Parts S) f₁ f₂) :
    Twins S p S.Instrs (separate f₁) (separate f₂) := by
  refine twins_bind hf fun (effect, code) (effect', code') => ?_
  dsimp only
  apply twins_effect (a := effect) (b := effect') (fun ⟨⟨heffect, _⟩, _⟩ => heffect) ?_
    (fun ix => ?_) fun ix ix' => ?_
  · refine twins_bind twins_discard fun _ _ => ?_
    exact twins_pure fun ⟨hpop, ⟨_, hcode⟩, _⟩ => Sides.instrs_append hcode hpop
  · exact twins_pure fun ⟨⟨_, hcode⟩, _⟩ => hcode
  · exact twins_pure fun ⟨_, ⟨_, hcode⟩, _⟩ => hcode

theorem twins_conclude (hf : Twins S p (Parts S) f₁ f₂) :
    Twins S p S.Instrs (conclude f₁) (conclude f₂) := by
  refine twins_bind hf fun (effect, code) (effect', code') => ?_
  dsimp only
  apply twins_effect (a := effect) (b := effect') (fun ⟨⟨heffect, _⟩, _⟩ => heffect) ?_
    (fun ix => ?_) fun ix ix' => ?_
  · exact twins_pure fun ⟨⟨_, hcode⟩, _⟩ => hcode
  · refine twins_next twins_grow (twins_bind (twins_fixed trivial) fun _ _ => ?_)
    exact twins_pure fun ⟨hget, ⟨_, hcode⟩, _⟩ => Sides.instrs_append hcode hget
  · refine twins_next twins_grow (twins_bind (twins_instr fun ⟨hix, _⟩ => .getCell hix) fun _ _ => ?_)
    exact twins_pure fun ⟨hget, _, ⟨_, hcode⟩, _⟩ => Sides.instrs_append hcode hget

theorem twins_exit {k l : Nat} {whole whole' : Form} (h : p → l = k) :
    Twins S p S.Instrs (exit k whole) (exit l whole') := by
  refine twins_ite (fun hp => by rw [h hp]) (twins_pure fun _ => .nil) ?_
  refine twins_bind (twins_countOperand h) fun _ _ => twins_next (twins_shrink fun ⟨_, hp⟩ => (h hp).symm) ?_
  exact twins_operand .scopeExit trivial And.left

theorem block_eq_bind (T : Scopes) (whole : Form) (b : ScopeId) (extra : Nat) :
    block T whole b extra x₁ = (do
      update fun d => d.enterBlock.addBlockCells (T.blockCells b)
      blockEnd whole extra x₁) := by
  funext e
  rw [block_eq]
  rfl

theorem twins_block {U T T' : Scopes} {n b : Nat} {whole whole' : Form} (extra : Nat)
    (hT : Scopes.Aligned U T T' n) (hb : b < n) (hx : Twins S p S.Instrs x₁ x₂) :
    Twins S p S.Instrs (block T whole b extra x₁) (block T' whole' (U.shift b) extra x₂) := by
  have grows (T : Scopes) (b : ScopeId) (d : Draft) :
      d.Grows (d.enterBlock.addBlockCells (T.blockCells b)) := by
    have h : d.Grows d.enterBlock := ⟨rfl, rfl, rfl, fun _ _ h => h, fun _ _ h => h⟩
    exact h.trans (Draft.grows_addBlockCells _ _)
  have enter {d d' : Draft} (ht : d.Twin S.dist S.skip d') : d.enterBlock.Twin S.dist S.skip d'.enterBlock :=
    { ht with level := congrArg (· + 1) ht.level }
  rw [block_eq_bind, block_eq_bind, hT.blockCells hb]
  refine twins_next (twins_update (grows T b) (by simpa only [hT.blockCells hb] using grows T' (U.shift b))
    fun _ _ _ ht => (enter ht).addBlockCells _) ?_
  refine twins_bind hx fun _ _ => twins_bind twins_draft fun _ _ => ?_
  refine twins_next (twins_keep (fun _ => rfl) (fun _ => rfl) fun _ _ _ ht => ht.exitBlock) ?_
  refine twins_bind (twins_exit fun ⟨hd, _⟩ => by rw [hd.blockLocals]) fun _ _ => ?_
  exact twins_pure fun ⟨hexit, _, hcode, _⟩ => Sides.instrs_append hcode hexit

theorem twins_loadCells (names : List String) : Twins S p S.Instrs (loadCells names) (loadCells names) := by
  induction names with
  | nil => exact twins_pure fun _ => .nil
  | cons name names ih =>
    refine twins_bind (twins_cellIndex name) fun _ _ => twins_next twins_grow ?_
    refine twins_bind (twins_instr fun ⟨hix, _⟩ => .loadCell hix) fun _ _ => ?_
    refine twins_bind (ih.weaken fun ⟨_, _, hp⟩ => hp) fun _ _ => ?_
    exact twins_pure fun ⟨hrest, hload, _⟩ => Sides.instrs_append hload hrest

/-- The body of a function: a block is the block behind the other program. -/
theorem twins_functionBody {U T T' : Scopes} {n : Nat} {whole whole' body : Form} {params : List String}
    (hT : Scopes.Aligned U T T' n) (hb : body.Below n) (hx : Twins S p S.Instrs x₁ x₂)
    (hy : Twins S p S.Instrs y₁ y₂) :
    Twins S p S.Instrs (functionBody T whole params body x₁ y₁)
      (functionBody T' whole' params (body.behind U) x₂ y₂) := by
  have other : Twins S p S.Instrs (do
      let code ← y₁
      let n ← countOperand (params.length + 1) whole .tooManyParameters
      return code ++ (← instr (.scopeExit n))) (do
      let code ← y₂
      let n ← countOperand (params.length + 1) whole' .tooManyParameters
      return code ++ (← instr (.scopeExit n))) := by
    refine twins_bind hy fun _ _ => twins_bind (twins_countOperand fun _ => rfl) fun _ _ => ?_
    refine twins_bind (twins_operand .scopeExit trivial And.left) fun _ _ => ?_
    exact twins_pure fun ⟨hexit, _, hcode, _⟩ => Sides.instrs_append hcode hexit
  cases body with
  | block b fs => exact twins_block _ hT hb.1 hx
  | _ => exact other

/-- What is known of the code objects of a function. -/
structure Functions (S : Sides) (a b : Handle × Code) : Prop where
  related : S.related a.1 b.1
  code : S.world.heap.code? a.1 = some a.2
  code' : S.world'.heap.code? b.1 = some b.2
  free : b.2.free = a.2.free

theorem twins_functionCode {U T T' : Scopes} {n f : Nat} (hS : S.Fair)
    (hT : Scopes.Aligned U T T' n) (hf : f < n) (name : String) (params : List String)
    (hg : Growing (fun _ => True) x₁) (hg' : Growing (fun _ => True) x₂)
    (hx : ∀ c c', (S.inside c c').Fair → Twins (S.inside c c') True (S.inside c c').Instrs x₁ x₂) :
    Twins S p (Functions S) (functionCode T name f params x₁)
      (functionCode T' name (U.shift f) params x₂) := by
  refine ⟨growing_functionCode _ _ _ _ hg, growing_functionCode _ _ _ _ hg',
    fun _ (i, c) (j, c') e e' d d' h h' hw hw' ht => ?_⟩
  obtain ⟨moved, e₁, code, e₂, hm, hb, hc, rfl, hheap, hglobals, hdraft⟩ := functionCode_ok h
  obtain ⟨moved', d₁, code', d₂, hm', hb', hc', rfl, hheap', hglobals', hdraft'⟩ := functionCode_ok h'
  rw [hT.draftOf hf] at hm'
  -- The code objects are on the heaps at the end, and so their constants are known.
  have hcode : S.world.heap.get? e₂.heap.size = some (.code c) :=
    hw.heap _ _ (hheap ▸ Heap.get?_alloc_size ..)
  have hcode' : S.world'.heap.get? d₂.heap.size = some (.code c') :=
    hw'.heap _ _ (hheap' ▸ Heap.get?_alloc_size ..)
  have hmoved := (growing_moveCaptured (N := fun _ => True) _ _ _).ok hm
  have hmoved' := (growing_moveCaptured (N := fun _ => True) _ _ _).ok hm'
  have hle : e.heap.size ≤ e₂.heap.size := Heap.Kept.size_le (hmoved.trans (hg.ok hb)).heap
  have hle' : d.heap.size ≤ d₂.heap.size := Heap.Kept.size_le (hmoved'.trans (hg'.ok hb')).heap
  obtain ⟨k, hk, hk'⟩ := ht.next
  have hin : (S.inside c c').Fair := hS.inside (by omega) (by omega) (Heap.code?_eq_some.2 hcode)
    (Heap.code?_eq_some.2 hcode')
  -- What is generated for the function is part of its code object.
  have hw₂ : e₂.Within S.world c := by
    subst hc
    exact ⟨fun i o ho => hw.heap i o (hheap ▸ Heap.get?_alloc_of_some ho),
      fun ix x hx => hw.globals ix x (hglobals ▸ hx), fun _ _ h => h, fun _ _ h => h, rfl⟩
  have hw₂' : d₂.Within S.world' c' := by
    subst hc'
    exact ⟨fun i o ho => hw'.heap i o (hheap' ▸ Heap.get?_alloc_of_some ho),
      fun ix x hx => hw'.globals ix x (hglobals' ▸ hx), fun _ _ h => h, fun _ _ h => h, rfl⟩
  have moving : Twins (S.inside c c') True _ _ _ := twins_moveCaptured hT hf 0 (name :: params)
  obtain ⟨h₁, t₁⟩ := moving.ok trivial hm hm'
    ((hg.ok hb).within hw₂) ((hg'.ok hb').within hw₂') ⟨ht.next, ht.objects, ht.names, Draft.Twin.refl _⟩
  obtain ⟨h₂, t₂⟩ := (hx c c' hin).ok trivial hb hb' hw₂ hw₂' t₁
  have hd := t₂.draft
  have htwin : c.Twin S.related c' := by
    have instrs := Sides.instrs_append (Sides.instrs_append h₁ h₂) (.cons (.fixed (i := .ret) trivial) .nil)
    subst hc hc'
    exact ⟨hd.name.symm, hd.arity.symm, hd.own.symm, _, _, rfl, rfl, instrs⟩
  obtain ⟨l, hl, hl'⟩ := t₂.next
  refine ⟨⟨?_, Heap.code?_eq_some.2 hcode, Heap.code?_eq_some.2 hcode', ?_⟩, ⟨l + 1, ?_, ?_⟩,
    fun m o ho => ?_, ?_, ?_⟩
  · have hlt := Heap.lt_size_of_get? hcode
    rw [hl] at hlt ⊢
    rw [hl']
    exact hS.new l hlt
  · subst hc hc'
    exact hd.free
  · rw [hheap, Heap.size_alloc, hl]
    rfl
  · rw [hheap', Heap.size_alloc, hl']
    rfl
  · rw [hheap] at ho
    rcases Heap.get?_alloc_cases ho with ho | ⟨hm, rfl⟩
    · obtain ⟨o', ho', htw⟩ := t₂.objects m o ho
      exact ⟨o', by rw [hheap']; exact Heap.get?_alloc_of_some ho', htw⟩
    · refine ⟨.code c', ?_, .code htwin⟩
      have hm : m = l := Nat.add_left_cancel (hm.trans hl)
      rw [hheap', hm]
      exact hl' ▸ Heap.get?_alloc_size ..
  · rw [hglobals, hglobals', t₂.names]
  · rw [hdraft, hdraft']
    exact ht.draft

theorem Twins.congr (h : Twins S p Q x y) (hy : Growing (fun _ => True) y') (he : p → y' = y) :
    Twins S p Q x y' where
  growing := h.growing
  growing' := hy
  ok hp := by
    rw [he hp]
    exact h.ok hp

theorem twins_function {U T T' : Scopes} {n f : Nat} {whole whole' : Form} (hS : S.Fair)
    (hT : Scopes.Aligned U T T' n) (hf : f < n) (name : String) (params : List String)
    (hg : Growing (fun _ => True) x₁) (hg' : Growing (fun _ => True) x₂)
    (hx : ∀ c c', (S.inside c c').Fair → Twins (S.inside c c') True (S.inside c c').Instrs x₁ x₂) :
    Twins S p S.Instrs (function T whole name f params x₁)
      (function T' whole' name (U.shift f) params x₂) := by
  refine twins_bind (twins_functionCode hS hT hf name params hg hg' hx) ?_
  rintro ⟨i, c⟩ ⟨j, c'⟩
  refine twins_ite ?_ ?_ ?_
  · rintro ⟨hf, _⟩
    rw [hf.free]
  · have no_string {W : World} {i : Handle} {f : Closure} (h : W.heap.get? i = some (.function f)) :
        W.heap.string? i = none := by
      rw [Heap.string?, h]
    refine twins_bind (twins_alloc hS (by simp) (by simp) ?_) fun _ _ => twins_constant hS ?_
    · rintro ⟨hf, _⟩
      exact .function hf.related .nil
    · rintro ⟨⟨hrelated, hi, hj⟩, _⟩
      exact .object (no_string hi) (no_string hj) hrelated
  · refine twins_bind ((twins_loadCells c.free.toList).congr (growing_loadCells _) ?_) fun _ _ => ?_
    · rintro ⟨hf, _⟩
      rw [hf.free]
    refine twins_bind (twins_constant hS ?_) fun _ _ => ?_
    · rintro ⟨_, hf, _⟩
      exact .object (string?_of_code hf.code) (string?_of_code hf.code') hf.related
    refine twins_bind (twins_countOperand ?_) fun _ _ => ?_
    · rintro ⟨_, _, hf, _⟩
      rw [hf.free]
    refine twins_next (twins_shrink ?_) ?_
    · rintro ⟨_, _, _, hf, _⟩
      rw [hf.free]
    refine twins_bind (twins_operand .makeFunction trivial And.left) fun _ _ => twins_pure ?_
    rintro ⟨hmake, _, hconst, hloads, _⟩
    exact Sides.instrs_append (Sides.instrs_append hloads hconst) hmake

theorem twins_call {whole whole' : Form} {argc argc' : Nat} (h : argc' = argc)
    (hx : Twins S p S.Instrs x₁ x₂) (hy : Twins S p S.Instrs y₁ y₂) :
    Twins S p S.Instrs (call whole argc x₁ y₁) (call whole' argc' x₂ y₂) := by
  subst h
  refine twins_bind hx fun _ _ => twins_bind (hy.weaken fun ⟨_, hp⟩ => hp) fun _ _ => ?_
  refine twins_bind (twins_countOperand fun _ => rfl) fun _ _ => twins_next (twins_shrink fun _ => rfl) ?_
  refine twins_bind (twins_operand .call trivial And.left) fun _ _ => ?_
  exact twins_pure fun ⟨hcall, _, hargs, hcallee, _⟩ =>
    Sides.instrs_append (Sides.instrs_append hcallee hargs) hcall

theorem twins_only (hf : Twins S p (Parts S) f₁ f₂) : Twins S p S.Instrs (only f₁) (only f₂) :=
  twins_bind hf fun _ _ => twins_pure fun ⟨⟨_, hcode⟩, _⟩ => hcode

theorem twins_valued (hx : Twins S p S.Instrs x₁ x₂) : Twins S p (Parts S) (valued x₁) (valued x₂) :=
  twins_bind hx fun _ _ => twins_pure fun ⟨hcode, _⟩ => ⟨.value, hcode⟩

/-- A part of a form, and what makes a variable of its value. -/
theorem twins_after (hx : Twins S p S.Instrs x₁ x₂) (hf : Twins S p (Parts S) f₁ f₂) :
    Twins S p (Parts S) (do
      let code ← x₁
      let (effect, store) ← f₁
      return (effect, code ++ store)) (do
      let code ← x₂
      let (effect, store) ← f₂
      return (effect, code ++ store)) :=
  twins_bind hx fun _ _ => twins_bind (hf.weaken fun ⟨_, hp⟩ => hp) fun _ _ =>
    twins_pure fun ⟨⟨heffect, hstore⟩, hcode, _⟩ => ⟨heffect, Sides.instrs_append hcode hstore⟩

end Emit

/-! ## Forms -/

namespace Form

open Emit

variable {U T T' : Scopes} {n : Nat}

theorem growing_body (T : Scopes) (whole : Form) (f : ScopeId) (params : List String) (body : Form) :
    Growing (fun _ => True)
      (functionBody T whole params body (emitInside T body) (only (emit T f false body))) :=
  growing_functionBody _ _ _ _ (emitInside_growing (s := f) admits_true)
    (growing_only (emit_growing admits_true))

mutual

/-- The code of a form goes in step with that of the form behind another program. -/
theorem emit_twins {S : Sides} (hS : S.Fair) (hT : Scopes.Aligned U T T' n) {s : Nat} (hs : s < n)
    (direct : Bool) (f : Form) (hf : f.Below n) (hp : f.toExpr.Plain) :
    Twins S True (Parts S) (f.emit T s direct) ((f.behind U).emit T' (U.shift s) direct) := by
  cases f with
  | number x => exact twins_valued (twins_constant hS fun _ => .number hp)
  | string text =>
    have text_of {W : World} {i : Handle} (h : W.heap.get? i = some (.string text)) :
        W.heap.string? i = some text := Heap.string?_eq_some.2 h
    refine twins_bind (twins_alloc hS (by simp) (by simp) fun _ => .string text) fun _ _ => ?_
    exact twins_valued (twins_constant hS fun ⟨⟨_, hi, hj⟩, _⟩ => .string (text_of hi) (text_of hj))
  | boolean b => exact twins_valued (twins_boolean hS b)
  | reference name binding => exact twins_valued (twins_read hT hs hf)
  | block b body => exact twins_valued (twins_block 0 hT hf.1 (emitBody_twins hS hT hf.1 body hf.2 hp.2))
  | declare name init =>
    obtain ⟨-, -, hinit, -⟩ := hp
    exact twins_after (twins_only (emit_twins hS hT hs false init hf hinit)) (twins_declare hT hs direct)
  | assign name binding value =>
    obtain ⟨hbinding, hf⟩ := hf
    obtain ⟨-, -, hvalue, -⟩ := hp
    refine twins_bind (twins_only (emit_twins hS hT hs false value hf hvalue)) fun _ _ => ?_
    refine twins_bind (twins_write hT hs hbinding) fun _ _ => ?_
    exact twins_pure fun ⟨hset, hcode, _⟩ => ⟨.value, Sides.instrs_append hcode hset⟩
  | ifThen test thn =>
    obtain ⟨ht, hc⟩ := hf
    obtain ⟨-, pt, pc, -⟩ := hp
    exact twins_valued (twins_branch (twins_only (emit_twins hS hT hs false test ht pt))
      (twins_only (emit_twins hS hT hs false thn hc pc)) (twins_boolean hS false))
  | ifElse test thn els =>
    obtain ⟨ht, hc, ha⟩ := hf
    obtain ⟨-, pt, pc, pa, -⟩ := hp
    exact twins_valued (twins_branch (twins_only (emit_twins hS hT hs false test ht pt))
      (twins_only (emit_twins hS hT hs false thn hc pc)) (twins_only (emit_twins hS hT hs false els ha pa)))
  | whileLoop test body =>
    obtain ⟨ht, hb⟩ := hf
    obtain ⟨-, pt, pb, -⟩ := hp
    exact twins_valued (twins_loop hS (twins_only (emit_twins hS hT hs false test ht pt))
      (twins_only (emit_twins hS hT hs false body hb pb)) .none)
  | forLoop init test modifier body =>
    obtain ⟨hi, ht, hm, hb⟩ := hf
    obtain ⟨-, pi, pt, pm, pb, -⟩ := hp
    exact twins_valued (twins_forLoop (emit_twins hS hT hs true init hi pi)
      (twins_loop hS (twins_only (emit_twins hS hT hs false test ht pt))
        (twins_only (emit_twins hS hT hs false body hb pb))
        (.some (twins_only (emit_twins hS hT hs false modifier hm pm)))))
  | define name f params body =>
    obtain ⟨hf, hb⟩ := hf
    obtain ⟨-, -, -, pb, -⟩ := hp
    refine twins_after (twins_function hS hT hf name params (growing_body ..)
      (growing_body ..) fun c c' hin => ?_)
      (twins_declare hT hs direct)
    exact twins_functionBody hT hb (emitInside_twins hin hT body hb pb)
      (twins_only (emit_twins hin hT hf false body hb pb))
  | lambda label f params body =>
    obtain ⟨hf, hb⟩ := hf
    obtain ⟨-, -, pb, -⟩ := hp
    refine twins_valued (twins_function hS hT hf label params (growing_body ..)
      (growing_body ..) fun c c' hin => ?_)
    exact twins_functionBody hT hb (emitInside_twins hin hT body hb pb)
      (twins_only (emit_twins hin hT hf false body hb pb))
  | operation op x y =>
    obtain ⟨hx, hy⟩ := hf
    obtain ⟨-, px, py, -⟩ := hp
    exact twins_valued (twins_operation op (twins_only (emit_twins hS hT hs false x hx px))
      (twins_only (emit_twins hS hT hs false y hy py)))
  | call callee args =>
    exact twins_valued (twins_call (length_allBehind U args)
      (twins_only (emit_twins hS hT hs false callee hf.1 hp.1)) (emitAll_twins hS hT hs args hf.2 hp.2))
  | malformed e why => exact twins_throw (growing_throw _)

theorem emitInside_twins {S : Sides} (hS : S.Fair) (hT : Scopes.Aligned U T T' n) (f : Form) (hf : f.Below n)
    (hp : f.toExpr.Plain) : Twins S True S.Instrs (emitInside T f) (emitInside T' (f.behind U)) := by
  cases f with
  | block b body => exact emitBody_twins hS hT hf.1 body hf.2 hp.2
  | _ => exact twins_pure fun _ => .nil

theorem emitBody_twins {S : Sides} (hS : S.Fair) (hT : Scopes.Aligned U T T' n) {s : Nat} (hs : s < n)
    (fs : List Form) (hf : AllBelow n fs) (hp : Expr.AllPlain (toExprs fs)) :
    Twins S True S.Instrs (emitBody T s fs) (emitBody T' (U.shift s) (allBehind U fs)) := by
  match fs with
  | [] => exact twins_boolean hS false
  | [f] => exact twins_conclude (emit_twins hS hT hs true f hf.1 hp.1)
  | f :: g :: fs =>
    refine twins_bind (twins_separate (emit_twins hS hT hs true f hf.1 hp.1)) fun _ _ => ?_
    refine twins_bind ((emitBody_twins hS hT hs (g :: fs) hf.2 hp.2).weaken fun ⟨_, ht⟩ => ht) fun _ _ => ?_
    exact twins_pure fun ⟨hrest, hfirst, _⟩ => Sides.instrs_append hfirst hrest

theorem emitAll_twins {S : Sides} (hS : S.Fair) (hT : Scopes.Aligned U T T' n) {s : Nat} (hs : s < n)
    (fs : List Form) (hf : AllBelow n fs) (hp : Expr.AllPlain (toExprs fs)) :
    Twins S True S.Instrs (emitAll T s fs) (emitAll T' (U.shift s) (allBehind U fs)) := by
  cases fs with
  | nil => exact twins_pure fun _ => .nil
  | cons f fs =>
    refine twins_bind (twins_only (emit_twins hS hT hs false f hf.1 hp.1)) fun _ _ => ?_
    refine twins_bind ((emitAll_twins hS hT hs fs hf.2 hp.2).weaken fun ⟨_, ht⟩ => ht) fun _ _ => ?_
    exact twins_pure fun ⟨hrest, hfirst, _⟩ => Sides.instrs_append hfirst hrest

end

end Form

end ByteLisp
