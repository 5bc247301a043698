/-
  ByteLisp: an activation in the middle of its code.

  * `Setting` is what stays the same during an activation; `Machine.At`: the machine
    runs it at a place, with some values above the base;
  * `Standing`: what the view says of the slots of variables, apart from a run;
  * `Situated`: the variables in view are where the view says, with the values that
    the memory says; `Situated.next` and the lemmas around it: so it is after an
    instruction;
  * `Setting.Passes`: what a part of the code may have changed when it is done.
-/
import ByteLisp.Proofs.Machine.Ends
import ByteLisp.Proofs.Meaning.Linked

namespace ByteLisp

namespace Meaning

/-! ## Activations -/

/-- What stays the same during an activation. -/
structure Setting where
  /-- The activation; the place in its code is of no account. -/
  frame : Frame
  code : Code
  /-- The activations that wait. -/
  callers : Array Frame
  /-- The values below those of the activation, the lowest first. -/
  below : List Value
  env : Env
  /-- The blocks of the function with the place of their first cell among its own ones. -/
  blocks : List (ScopeId × Nat)

end Meaning

open Meaning

/-- The machine runs an activation, at a place in its code and with some values, the lowest first. -/
structure Machine.At (m : Machine) (g : Setting) (pos : Nat) (ls : List Value) : Prop where
  current : m.current = { g.frame with ip := pos }
  callers : m.callers = g.callers
  base : g.frame.base = g.below.length
  values : m.stack.values = (g.below ++ ls).reverse

namespace Machine.At

variable {m m' : Machine} {g : Setting} {pos ix : Nat} {ls ls' vs : List Value} {u : Value} {i : Instr}
  {is : List Instr} {c : Code}

theorem instr? (h : m.At g pos ls) (hc : m.heap.code? g.frame.code = some c)
    (hl : c.Lies pos (i :: is)) : m.instr? = some i := by
  refine instr?_eq (c := c) ?_ ?_
  · rw [h.current]
    exact hc
  · rw [h.current]
    exact hl.fetch

theorem past (h : m.At g pos ls) : (m.past i).At g (pos + i.size) ls :=
  ⟨by rw [Machine.past, h.current], h.callers, h.base, h.values⟩

theorem goto (h : m.At g pos ls) (target : Nat) :
    Machine.At { m with current := { m.current with ip := target } } g target ls :=
  ⟨by rw [h.current], h.callers, h.base, h.values⟩

theorem put (h : m.At g pos ls) (hv : vs = (g.below ++ ls').reverse) : (m.put vs).At g pos ls' :=
  ⟨h.current, h.callers, h.base, hv⟩

theorem push (h : m.At g pos ls) (u : Value) : (m.put (u :: m.stack.values)).At g pos (ls ++ [u]) :=
  h.put (by simp [h.values])

/-- The heap and the globals may change. -/
theorem of_same (h : m.At g pos ls) (hc : m'.current = m.current) (hk : m'.callers = m.callers)
    (hs : m'.stack = m.stack) : m'.At g pos ls :=
  ⟨hc.trans h.current, hk.trans h.callers, h.base, (congrArg _ hs).trans h.values⟩

theorem values_top (h : m.At g pos (ls ++ [u])) : m.stack.values = u :: (g.below ++ ls).reverse := by
  rw [h.values, ← List.append_assoc, List.reverse_append]
  rfl

theorem pop (h : m.At g pos (ls ++ [u])) : (m.put (g.below ++ ls).reverse).At g pos ls := h.put rfl

/-- A value of the activation, counted from the base. -/
theorem local? (h : m.At g pos ls) (hu : ls[ix]? = some u) :
    m.stack.values.reverse[m.current.base + ix]? = some u := by
  rw [h.current, h.values, List.reverse_reverse, h.base,
    List.getElem?_append_right (Nat.le_add_right ..), Nat.add_sub_cancel_left, hu]

theorem set_reverse {xs : List Value} (h : ix < xs.length) :
    xs.reverse.set (xs.length - 1 - ix) u = (xs.set ix u).reverse := by
  refine List.ext_getElem (by simp) fun i hi _ => ?_
  simp only [List.length_set, List.length_reverse] at hi
  simp only [List.getElem_set, List.getElem_reverse, List.length_set]
  congr 1
  exact propext (by omega)

/-- A value of the activation is overwritten. -/
theorem set (h : m.At g pos ls) (hlt : ix < ls.length) :
    (m.put (m.stack.values.set (m.stack.values.length - 1 - (m.current.base + ix)) u)).At g pos
      (ls.set ix u) := by
  refine h.put ?_
  have hlt' : g.below.length + ix < (g.below ++ ls).length := by
    rw [List.length_append]
    omega
  rw [h.current, h.values, List.length_reverse, h.base, set_reverse hlt',
    List.set_append_right _ _ (Nat.le_add_right ..), Nat.add_sub_cancel_left]

end Machine.At

namespace Meaning

/-! ## Variables in view -/

/-- The slots in view have different places. None of them has a name in `ns`, or one that a scope
    inside could declare. -/
structure Standing (T : Scopes) (s : ScopeId) (v : View) (ns : List String) : Prop where
  inside : s < T.size
  depth : ∀ x ∈ v.slots, x.place < v.depth
  places : (v.slots.map InView.place).Nodup
  around : ∀ x ∈ v.slots, (∃ t ∈ T.chain s, x.name ∈ (T.scope t).declared) ∨ ¬ T.Names x.name
  fresh : ∀ x ∈ v.slots, x.name ∉ ns
  nodup : ns.Nodup

/-- The variables in view from the scope `s` are where the view says, with the values that the memory
    says; and so are the cells of all blocks of the function. -/
structure Situated (T : Scopes) (W : World) (N : Float → Prop) (g : Setting) (s : ScopeId) (v : View)
    (pos : Nat) (L : Link) (σ : Memory) (ls : List Value) (m : Machine) : Prop where
  linked : Linked T W N ⟨L, σ, m.world⟩
  place : m.At g pos ls
  code : W.heap.code? g.frame.code = some g.code
  depth : ls.length = v.depth
  begun : g.env (T.home s) < σ.next
  blocks : ∀ p ∈ g.blocks, ∀ (i : Nat) x, (T.scope p.1).cells[i]? = some x →
    ∃ j, g.frame.cells[g.code.free.size + p.2 + i]? = some j ∧ L ⟨g.env (T.home p.1), p.1, x⟩ = some j
  cells : ∀ x ix o, v.cell? x = some ix → T.lookup s x = some o → x ∈ (T.scope o).cells →
    ∃ j, g.frame.cells[ix]? = some j ∧ L ⟨g.env (T.home o), o, x⟩ = some j
  slots : ∀ x ix o, v.slot? x = some ix → T.lookup s x = some o → o ∈ T.within s →
    T.storage (some o) x = .slot →
    ∃ u, ls[ix]? = some u ∧ (σ.store ⟨g.env (T.home s), o, x⟩).Is T W N L m.heap u

/-- Only slots of variables in view have got other values. -/
structure Kept (v : View) (ls ls' : List Value) : Prop where
  length : ls'.length = ls.length
  keep : ∀ i, (∀ x ∈ v.slots, x.place ≠ i) → ls'[i]? = ls[i]?

/-- What a part of the code may have changed when it is done: above the values `ls'` that were there,
    it leaves the values `us`, and it sees the view `w`. -/
structure Setting.Passes (g : Setting) (T : Scopes) (W : World) (N : Float → Prop) (s : ScopeId)
    (v : View) (S : Stage) (ls : List Value) (w : View) (pos : Nat) (us : List Value) (L : Link)
    (ls' : List Value) (σ : Memory) (m : Machine) : Prop where
  situated : Situated T W N g s w pos L σ (ls' ++ us) m
  grown : Grown T (· = g.env (T.home s)) S ⟨L, σ, m.world⟩
  kept : Kept v ls ls'

section

variable {T : Scopes} {W : World} {N : Float → Prop} {g : Setting} {s b o : ScopeId} {v w u : View}
  {pos pos' n ix : Nat} {L L' : Link} {σ σ' : Memory} {ls ls' us : List Value} {m m' : Machine}
  {S : Stage} {ns ms : List String} {name : String} {x : Val} {a : Value}

/-! ## Standing views -/

theorem View.slot?_mem (h : v.slot? name = some ix) : ∃ y ∈ v.slots, y.name = name ∧ y.place = ix := by
  obtain ⟨y, hy, rfl⟩ := Option.map_eq_some_iff.1 h
  exact ⟨y, List.mem_of_find?_eq_some hy, by simpa using List.find?_some hy, rfl⟩

namespace Standing

theorem push (h : Standing T s v ns) (n : Nat) : Standing T s (v.push n) ns :=
  ⟨h.inside, fun x hx => Nat.lt_add_right n (h.depth x hx), h.places, h.around, h.fresh, h.nodup⟩

theorem sublist (h : Standing T s v ns) (hs : ms.Sublist ns) : Standing T s v ms :=
  ⟨h.inside, h.depth, h.places, h.around, fun x hx hm => h.fresh x hx (hs.mem hm), h.nodup.sublist hs⟩

/-- A variable is declared, and further names are still to come. -/
theorem bind (h : Standing T s v (ns ++ ms)) (hn : name ∈ ns) (hd : name ∈ (T.scope s).declared) :
    Standing T s (v.bind name) ms where
  inside := h.inside
  depth y hy := by
    rcases List.mem_cons.1 hy with rfl | hy
    · exact Nat.lt_succ_self _
    · exact Nat.lt_succ_of_lt (h.depth y hy)
  places := by
    refine List.nodup_cons.2 ⟨fun hm => ?_, h.places⟩
    obtain ⟨y, hy, hp⟩ := List.mem_map.1 hm
    exact absurd hp (Nat.ne_of_lt (h.depth y hy))
  around y hy := by
    rcases List.mem_cons.1 hy with rfl | hy
    · exact Or.inl ⟨s, List.mem_cons_self, hd⟩
    · exact h.around y hy
  fresh y hy hm := by
    rcases List.mem_cons.1 hy with rfl | hy
    · exact (List.nodup_append.1 h.nodup).2.2 name hn name hm rfl
    · exact h.fresh y hy (List.mem_append_right ns hm)
  nodup := (List.nodup_append.1 h.nodup).2.1

/-- A block is entered. -/
theorem enter (h : Standing T s v ns) (hb : T.Opens .block b s) (hlt : b < T.size) (ix : Nat)
    (names : List String) : Standing T b (v.enter ix names) ns where
  inside := hlt
  depth := by simpa using h.depth
  places := by simpa using h.places
  around x hx := by
    rw [View.slots_enter] at hx
    refine (h.around x hx).imp_left fun ⟨t, ht, hd⟩ => ⟨t, ?_, hd⟩
    rw [hb.chain]
    exact List.mem_cons_of_mem b ht
  fresh := by simpa using h.fresh
  nodup := h.nodup

/-- Another variable is at another place. -/
theorem place_ne (h : Standing T s v ns) {y z : String} {iy iz : Nat} (hy : v.slot? y = some iy)
    (hz : v.slot? z = some iz) (hne : y ≠ z) : iy ≠ iz := by
  obtain ⟨p, hp, rfl, rfl⟩ := View.slot?_mem hy
  obtain ⟨q, hq, rfl, rfl⟩ := View.slot?_mem hz
  intro he
  exact hne (congrArg InView.name (List.inj_on_of_nodup_map h.places hp hq he))

end Standing

/-! ## Values that are kept -/

namespace Kept

variable {ls₁ ls₂ : List Value}

theorem refl (v : View) (ls : List Value) : Kept v ls ls := ⟨rfl, fun _ _ => rfl⟩

theorem trans (h : Kept v ls ls₁) (h' : Kept v ls₁ ls₂) : Kept v ls ls₂ :=
  ⟨h'.length.trans h.length, fun i hi => (h'.keep i hi).trans (h.keep i hi)⟩

theorem of_slots (h : Kept w ls ls') (hw : w.slots = v.slots) : Kept v ls ls' :=
  ⟨h.length, hw ▸ h.keep⟩

/-- What lies above the variables in view is kept. -/
theorem split (h : Kept w (ls ++ us) ls') (hw : w.slots = v.slots) (hl : ls.length = v.depth)
    (hv : ∀ x ∈ v.slots, x.place < v.depth) : ∃ ls₁, ls' = ls₁ ++ us ∧ Kept v ls ls₁ := by
  have hlength := h.length
  rw [List.length_append] at hlength
  have htake : (ls'.take ls.length).length = ls.length := by
    rw [List.length_take]
    omega
  refine ⟨ls'.take ls.length, ?_, htake, fun i hi => ?_⟩
  · refine List.ext_getElem? fun i => ?_
    by_cases hi : i < ls.length
    · rw [List.getElem?_append_left (by omega), List.getElem?_take_of_lt hi]
    · rw [List.getElem?_append_right (by omega), htake, h.keep i, List.getElem?_append_right (by omega)]
      intro x hx
      have := hv x (hw ▸ hx)
      omega
  · by_cases hlt : i < ls.length
    · rw [List.getElem?_take_of_lt hlt, h.keep i (hw ▸ hi), List.getElem?_append_left hlt]
    · rw [List.getElem?_eq_none (by omega), List.getElem?_eq_none (by omega)]

/-- What lies at the top is a variable that has been declared since. -/
theorem unbind (h : Kept (v.bind name) (ls ++ [a]) ls') (hl : ls.length = v.depth) :
    ∃ ls₁ b, ls' = ls₁ ++ [b] ∧ Kept v ls ls₁ := by
  have hlength := h.length
  rw [List.length_append, List.length_singleton] at hlength
  obtain ⟨ls₁, b, rfl⟩ := (List.eq_nil_or_concat' ls').resolve_left fun he => by simp [he] at hlength
  have hlength : ls₁.length = ls.length := by simpa using hlength
  refine ⟨ls₁, b, rfl, hlength, fun i hi => ?_⟩
  by_cases hlt : i < ls.length
  · have hk := h.keep i fun x hx => by
      rcases List.mem_cons.1 hx with rfl | hx
      · exact fun he => absurd (hl.trans he) (Nat.ne_of_gt hlt)
      · exact hi x hx
    rwa [List.getElem?_append_left (by omega), List.getElem?_append_left hlt] at hk
  · rw [List.getElem?_eq_none (by omega), List.getElem?_eq_none (by omega)]

end Kept

/-! ## The next place -/

namespace Situated

/-- After an instruction that changes neither the slots of variables in view nor what the memory says
    of them. -/
theorem next (h : Situated T W N g s v pos L σ ls m) (hl : Linked T W N ⟨L', σ', m'.world⟩)
    (hg : Grown T (fun _ => False) ⟨L, σ, m.world⟩ ⟨L', σ', m'.world⟩) (hat : m'.At g pos' ls')
    (hd : ls'.length = w.depth) (hc : w.cells = v.cells) (hs : w.slots = v.slots)
    (hk : ∀ x ∈ v.slots, ls'[x.place]? = ls[x.place]?) : Situated T W N g s w pos' L' σ' ls' m' where
  linked := hl
  place := hat
  code := h.code
  depth := hd
  begun := Nat.lt_of_lt_of_le h.begun hg.next
  blocks p hp i x hi := by
    obtain ⟨j, hj, hlj⟩ := h.blocks p hp i x hi
    exact ⟨j, hj, hg.link _ j hlj⟩
  cells x ix o hx ho hm := by
    rw [View.cell?, hc] at hx
    obtain ⟨j, hj, hlj⟩ := h.cells x ix o hx ho hm
    exact ⟨j, hj, hg.link _ j hlj⟩
  slots x ix o hx ho hin hm := by
    rw [View.slot?, hs] at hx
    obtain ⟨u, hu, hv⟩ := h.slots x ix o hx ho hin hm
    obtain ⟨y, hy, -, rfl⟩ := View.slot?_mem hx
    refine ⟨u, (hk y hy).trans hu, ?_⟩
    rw [hg.spares ⟨g.env (T.home s), o, x⟩ h.begun (fun h => h) hm]
    exact Val.Is.later (V := m.world) hv hg.link hg.world

/-- Nothing has changed but the place and what lies above the variables. -/
theorem put (h : Situated T W N g s v pos L σ ls m) (hat : m'.At g pos' ls') (hw : m'.world = m.world)
    (hd : ls'.length = w.depth) (hc : w.cells = v.cells) (hs : w.slots = v.slots)
    (hk : ∀ x ∈ v.slots, ls'[x.place]? = ls[x.place]?) : Situated T W N g s w pos' L σ ls' m' :=
  h.next (hw ▸ h.linked) (hw ▸ Grown.refl ..) hat hd hc hs hk

/-- A value is pushed. -/
theorem push (h : Situated T W N g s v pos L σ ls m) (hv : Standing T s v ns)
    (hat : m'.At g pos' (ls ++ us)) (hw : m'.world = m.world) :
    Situated T W N g s (v.push us.length) pos' L σ (ls ++ us) m' := by
  refine h.put hat hw (by rw [List.length_append, h.depth]; rfl) rfl rfl fun x hx => ?_
  exact List.getElem?_append_left (h.depth ▸ hv.depth x hx)

/-- Values are dropped. -/
theorem drop (h : Situated T W N g s (v.push n) pos L σ (ls ++ us) m) (hv : Standing T s v ns)
    (hn : us.length = n) (hat : m'.At g pos' ls) (hw : m'.world = m.world) :
    Situated T W N g s v pos' L σ ls m' := by
  have hd := h.depth
  rw [List.length_append, hn, View.depth_push] at hd
  have hd : ls.length = v.depth := Nat.add_right_cancel hd
  refine h.put hat hw hd rfl rfl fun x hx => ?_
  exact (List.getElem?_append_left (hd ▸ hv.depth x hx)).symm

/-- A variable goes out of view. -/
theorem unbind (h : Situated T W N g s ((v.bind name).push n) pos L σ ls m)
    (hv : Standing T s v ns) (hn : name ∈ ns) : Situated T W N g s (v.push (n + 1)) pos L σ ls m :=
  { h with
    depth := by rw [h.depth, View.depth_push, View.depth_bind, View.depth_push]; omega
    slots := fun x ix o hx ho hin hm => by
      refine h.slots x ix o ?_ ho hin hm
      obtain ⟨y, hy, rfl, -⟩ := View.slot?_mem hx
      have hne : name ≠ y.name := fun he => hv.fresh y hy (he ▸ hn)
      rw [View.slot?, View.slots_push, View.bind, List.find?_cons_of_neg (by simpa using hne)]
      exact hx }

theorem code? (h : Situated T W N g s v pos L σ ls m) : m.heap.code? g.frame.code = some g.code :=
  h.linked.code? h.code

/-! ## Blocks -/

/-- The cell of a name after a block is entered. -/
theorem cell?_enter {names : List String} {level : Nat} {x : String}
    (h : (v.enter ix names).cell? x = some level) :
    (∃ i, names[i]? = some x ∧ level = ix + i) ∨ x ∉ names ∧ v.cell? x = some level := by
  obtain ⟨y, hy, rfl⟩ := Option.map_eq_some_iff.1 h
  rw [View.cells_enter] at hy
  rcases InView.find?_row_append hy with ⟨-, hy'⟩ | ⟨hn, hy'⟩
  · obtain ⟨-, hle, hname⟩ := InView.mem_row.1 hy'
    have hyx : y.name = x := by simpa using List.find?_some hy
    exact Or.inl ⟨y.place - ix, hyx ▸ hname, by omega⟩
  · exact Or.inr ⟨hn, Option.map_eq_some_iff.2 ⟨y, hy', rfl⟩⟩

theorem cell?_enter_of_not_mem {names : List String} {x : String} (h : x ∉ names) :
    (v.enter ix names).cell? x = v.cell? x := by
  have hrow : (InView.row ix (v.level + 1) names).find? (·.name = x) = none :=
    InView.find?_row_eq_none.2 h
  rw [View.cell?, View.cells_enter, List.find?_append]
  change Option.map _ (((InView.row ix (v.level + 1) names).find? _).or _) = _
  rw [hrow, Option.none_or]
  rfl

/-- A block declares none of the names that mean something around it. -/
theorem lookup_block (hT : T.Once) (hb : T.Opens .block b s) (hlt : b < T.size) {x : String}
    (ho : T.lookup s x = some o) : x ∉ (T.scope b).declared ∧ T.lookup b x = some o := by
  have hn := hT.not_mem_block hb hlt (Scopes.lookup_mem ho) (Scopes.declared_of_lookup ho)
  refine ⟨hn, ?_⟩
  rw [Scopes.lookup, hb.chain, List.find?_cons_of_neg (by simpa [Scope.declares] using hn)]
  exact ho

/-- A name means something around a block, unless the block declares it. -/
theorem lookup_of_block (hb : T.Opens .block b s) {x : String} (ho : T.lookup b x = some o) :
    o = b ∨ x ∉ (T.scope b).declared ∧ T.lookup s x = some o := by
  rw [Scopes.lookup, hb.chain] at ho
  by_cases hx : x ∈ (T.scope b).declared
  · rw [List.find?_cons_of_pos (by simpa [Scope.declares] using hx)] at ho
    exact Or.inl (Option.some.inj ho).symm
  · rw [List.find?_cons_of_neg (by simpa [Scope.declares] using hx)] at ho
    exact Or.inr ⟨hx, ho⟩

/-- A block is entered. -/
theorem enter (h : Situated T W N g s v pos L σ ls m) (hv : Standing T s v ns) (hT : T.Once)
    (hb : T.Opens .block b s) (hlt : b < T.size) {k : Nat} (hk : (b, k) ∈ g.blocks) :
    Situated T W N g b (v.enter (g.code.free.size + k) (T.scope b).cells) pos L σ ls m :=
  { h with
    depth := by rw [h.depth, View.depth_enter]
    begun := by rw [hb.home_block]; exact h.begun
    cells := fun x ix o hx ho hm => by
      rcases cell?_enter hx with ⟨i, hi, rfl⟩ | ⟨hxb, hx⟩
      · rcases lookup_of_block hb ho with rfl | ⟨hnd, -⟩
        · exact h.blocks _ hk i x hi
        · exact absurd (hT.cells (List.mem_of_getElem? hi)) hnd
      · rcases lookup_of_block hb ho with rfl | ⟨-, ho⟩
        · exact absurd hm hxb
        · exact h.cells x ix o hx ho hm
    slots := fun x ix o hx ho hin hm => by
      rw [View.slot?, View.slots_enter] at hx
      rcases lookup_of_block hb ho with rfl | ⟨-, ho⟩
      · -- no slot in view has the name of a variable of the block
        obtain ⟨y, hy, rfl, -⟩ := View.slot?_mem hx
        have hd := Scopes.declared_of_lookup ho
        rcases hv.around y hy with ⟨t, ht, hyt⟩ | hn
        · exact absurd hd (hT.not_mem_block hb hlt ht hyt)
        · exact absurd ⟨_, hd⟩ hn
      · rw [hb.within_block] at hin
        rw [hb.home_block]
        refine h.slots x ix o hx ho ((List.mem_cons.1 hin).resolve_left fun he => ?_) hm
        have := hT.nested.lt_of_mem_outer hlt (t := o) (by
          have := (List.cons.inj hb.chain).2
          rw [this]
          exact Scopes.lookup_mem ho)
        exact absurd he (Nat.ne_of_lt this) }

/-- A block is left. -/
theorem leave {names : List String} (h : Situated T W N g b ((v.enter ix names).push n) pos L σ ls m)
    (hT : T.Once) (hb : T.Opens .block b s) (hlt : b < T.size)
    (hn : ∀ x ∈ names, x ∈ (T.scope b).declared) : Situated T W N g s (v.push n) pos L σ ls m :=
  { h with
    depth := by rw [h.depth, View.depth_push, View.depth_push, View.depth_enter]
    begun := by rw [← hb.home_block]; exact h.begun
    cells := fun x ix o hx ho hm => by
      obtain ⟨hxb, ho⟩ := lookup_block hT hb hlt ho
      refine h.cells x ix o ?_ ho hm
      exact (cell?_enter_of_not_mem fun hx => hxb (hn x hx)).trans hx
    slots := fun x ix o hx ho hin hm => by
      obtain ⟨-, hob⟩ := lookup_block hT hb hlt ho
      rw [← hb.home_block]
      refine h.slots x ix o ?_ hob ?_ hm
      · rw [View.slot?, View.slots_push, View.slots_enter]
        exact hx
      · rw [hb.within_block]
        exact List.mem_cons_of_mem b hin }

end Situated

end

end Meaning

end ByteLisp
