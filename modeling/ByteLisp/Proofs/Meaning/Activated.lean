/-
  ByteLisp: new activations.

  A function starts with a cell for each location of its activation that is captured.
  Its arguments lie on the stack, and those that are captured are moved to their cells
  first.

  * `Linked.fresh`: the cells of an activation that starts are those of its locations;
  * `Situated.follows_moves`: the arguments are moved to their cells;
  * `Situated.follows_end`: at the end only the value of the body is left.
-/
import ByteLisp.Proofs.Machine.Lasting
import ByteLisp.Proofs.Meaning.Simulation

namespace ByteLisp

open Machine

/-- The view of the cells alone. -/
def View.bare (v : View) : View := { v with slots := [] }

namespace Meaning

/-! ## The cells of an activation -/

/-- The scopes of a function that have cells, with the places of the first ones. -/
structure Laid (T : Scopes) (c : Code) (home : ScopeId) (bs : List (ScopeId × Nat)) : Prop where
  nodup : (bs.map Prod.fst).Nodup
  home : ∀ p ∈ bs, T.home p.1 = home
  own : ∀ p ∈ bs, ∀ (i : Nat) x, (T.scope p.1).cells[i]? = some x → c.own[p.2 + i]? = some x

/-- The link with the cells of the activation `a`, the first of which has the handle `start`. -/
def Link.enter (L : Link) (T : Scopes) (a start : Nat) (bs : List (ScopeId × Nat)) : Link := fun ℓ =>
  if ℓ.activation = a then do
    let k ← bs.lookup ℓ.scope
    let i ← (T.scope ℓ.scope).cells.idxOf? ℓ.name
    return start + k + i
  else L ℓ

section

variable {T : Scopes} {W V : World} {N : Float → Prop} {P : Nat → Prop} {L : Link} {σ : Memory} {c : Code}
  {home o o' : ScopeId} {bs : List (ScopeId × Nat)} {a i k start : Nat} {ℓ : Location} {j : Handle}
  {x : String}

/-- A variable is declared in one scope of a function. -/
theorem eq_of_home (hT : T.Once) (hx : x ∈ (T.scope o).declared) (hx' : x ∈ (T.scope o').declared)
    (hh : T.home o = T.home o') : o = o' := by
  -- the scope around a function is of another function
  have inner {f s : ScopeId} (hf : T.Opens .function f s) (hs : x ∈ (T.scope f).declared)
      (hd : x ∈ (T.scope s).declared) : T.home f ≠ T.home s := by
    have hlt : s < f := hT.nested.lt_of_mem_outer (Scopes.lt_size_of_declared hs) (by
      rw [(List.cons.inj hf.chain).2]
      exact List.mem_cons_self)
    have hle := Scopes.home_le hT.nested (Scopes.lt_size_of_declared hd)
    rw [Scopes.home_function hf.kind]
    exact Nat.ne_of_gt (Nat.lt_of_le_of_lt hle hlt)
  rcases hT.unique hx hx' with h | h | h
  · exact h
  · exact absurd hh (inner h hx hx')
  · exact absurd hh.symm (inner h hx' hx)

theorem Laid.lookup (hb : Laid T c home bs) (hm : (o, k) ∈ bs) : bs.lookup o = some k := by
  obtain ⟨as, cs, rfl⟩ := List.append_of_mem hm
  refine List.lookup_eq_some_iff.2 ⟨as, cs, rfl, fun p hp => bne_iff_ne.2 ?_⟩
  have hd := hb.nodup
  rw [List.map_append, List.nodup_append] at hd
  exact fun he => hd.2.2 p.1 (List.mem_map_of_mem hp) o List.mem_cons_self he.symm

/-- A location of the activation that has a cell. -/
theorem Laid.cell_of_enter (hb : Laid T c home bs) (hℓ : ℓ.activation = a)
    (h : L.enter T a start bs ℓ = some j) :
    ∃ i, c.own[i]? = some ℓ.name ∧ j = start + i ∧ ℓ.name ∈ (T.scope ℓ.scope).cells ∧
      T.home ℓ.scope = home := by
  rw [Link.enter, if_pos hℓ] at h
  obtain ⟨k, hk, hrest⟩ := Option.bind_eq_some_iff.1 h
  obtain ⟨i, hi, hj⟩ := Option.bind_eq_some_iff.1 hrest
  obtain ⟨hlt, hname, -⟩ := List.idxOf?_eq_some_iff.1 hi
  obtain ⟨as, cs, rfl, -⟩ := List.lookup_eq_some_iff.1 hk
  have hm : (ℓ.scope, k) ∈ as ++ (ℓ.scope, k) :: cs := List.mem_append_right _ List.mem_cons_self
  refine ⟨k + i, hb.own _ hm i ℓ.name ?_, ?_, hname ▸ List.getElem_mem hlt, hb.home _ hm⟩
  · rw [List.getElem?_eq_getElem hlt, hname]
  · rw [← Nat.add_assoc]
    exact (Option.some.inj hj).symm

/-- The cell of a location of the activation. -/
theorem Laid.enter_eq (hb : Laid T c home bs) (hT : T.Once) (hm : (o, k) ∈ bs)
    (hx : (T.scope o).cells[i]? = some x) : L.enter T a start bs ⟨a, o, x⟩ = some (start + k + i) := by
  obtain ⟨hlt, rfl⟩ := List.getElem?_eq_some_iff.1 hx
  have hidx : (T.scope o).cells.idxOf? (T.scope o).cells[i] = some i :=
    List.idxOf?_eq_some_iff.2 ⟨hlt, rfl, fun j hj he =>
      Nat.ne_of_lt hj ((hT.nodup o).getElem_inj_iff.1 he)⟩
  rw [Link.enter, if_pos rfl, hb.lookup hm, hidx]
  rfl

theorem enter_of_ne (h : ℓ.activation ≠ a) : L.enter T a start bs ℓ = L ℓ := if_neg h

/-- New cells for the locations of an activation that has none yet. -/
theorem Linked.enter (h : Linked T W N ⟨L, σ, V⟩) (hT : T.Once) (hb : Laid T c home bs)
    (ha : a < σ.next)
    (hnew : ∀ ℓ, ℓ.activation = a → L ℓ = none ∧ σ.store ℓ = .boolean false) :
    Linked T W N ⟨L.enter T a V.heap.size bs, σ, ⟨V.heap.addCells c.own.size, V.globals⟩⟩ ∧
      Grown T P ⟨L, σ, V⟩
        ⟨L.enter T a V.heap.size bs, σ, ⟨V.heap.addCells c.own.size, V.globals⟩⟩ := by
  have hl : V.Leads ⟨V.heap.addCells c.own.size, V.globals⟩ := V.leads_addCells _
  have hlink (ℓ i) (hi : L ℓ = some i) : L.enter T a V.heap.size bs ℓ = some i := by
    rw [enter_of_ne, hi]
    intro he
    cases hi.symm.trans (hnew ℓ he).1
  have later {x : Val} {v : Value} (hx : x.Is T W N L V.heap v) :
      x.Is T W N (L.enter T a V.heap.size bs) (V.heap.addCells c.own.size) v := hx.later hlink hl
  refine ⟨⟨h.leads.trans hl, h.names, fun n x hx => ?_, h.unassigned, fun ℓ i hi => ?_,
    fun ℓ i hi => ?_, fun ℓ ℓ' i hi hi' => ?_, fun ℓ hℓ => ?_⟩,
    ⟨hlink, hl, Nat.le_refl _, fun _ _ _ _ => rfl⟩⟩
  · obtain ⟨v, hv, hx⟩ := h.assigned n x hx
    exact ⟨v, hv, later hx⟩
  · by_cases hℓ : ℓ.activation = a
    · obtain ⟨k, hk, rfl, -, -⟩ := hb.cell_of_enter hℓ hi
      refine ⟨.boolean false, Heap.cell?_addCells (Array.getElem?_eq_some_iff.1 hk).1, ?_⟩
      rw [Stage.Is, (hnew ℓ hℓ).2]
      exact .boolean false
    · dsimp only at hi
      rw [enter_of_ne hℓ] at hi
      obtain ⟨v, hv, hx⟩ := h.cells ℓ i hi
      refine ⟨v, ?_, later hx⟩
      exact Heap.cell?_eq_some.2 (Heap.get?_addCells_of_some _ (Heap.cell?_eq_some.1 hv))
  · by_cases hℓ : ℓ.activation = a
    · obtain ⟨-, -, -, hname, -⟩ := hb.cell_of_enter hℓ hi
      exact hname
    · exact h.captured ℓ i ((enter_of_ne hℓ).symm.trans hi)
  · -- new cells have greater handles than those before
    have old {ℓ : Location} (hℓ : ℓ.activation ≠ a) (hi : L.enter T a V.heap.size bs ℓ = some i) :
        L ℓ = some i ∧ i < V.heap.size := by
      have hi := (enter_of_ne hℓ).symm.trans hi
      obtain ⟨v, hv, -⟩ := h.cells ℓ i hi
      exact ⟨hi, (Array.getElem?_eq_some_iff.1 (Heap.cell?_eq_some.1 hv)).1⟩
    have new {ℓ : Location} (hℓ : ℓ.activation = a) (hi : L.enter T a V.heap.size bs ℓ = some i) :
        V.heap.size ≤ i := by
      obtain ⟨k, -, hk, -⟩ := hb.cell_of_enter hℓ hi
      exact hk ▸ Nat.le_add_right ..
    by_cases hℓ : ℓ.activation = a <;> by_cases hℓ' : ℓ'.activation = a
    · obtain ⟨k, hk, hki, hc, hh⟩ := hb.cell_of_enter hℓ hi
      obtain ⟨k', hk', hki', hc', hh'⟩ := hb.cell_of_enter hℓ' hi'
      have hkk : k = k' := Nat.add_left_cancel (hki.symm.trans hki')
      have hname : ℓ.name = ℓ'.name := Option.some.inj (hk.symm.trans (hkk ▸ hk'))
      have hscope := eq_of_home hT (hT.cells hc) (hname ▸ hT.cells hc') (hh.trans hh'.symm)
      cases ℓ
      cases ℓ'
      cases hℓ
      cases hℓ'
      cases hname
      cases hscope
      rfl
    · exact absurd (old hℓ' hi').2 (Nat.not_lt.2 (new hℓ hi))
    · exact absurd (old hℓ hi).2 (Nat.not_lt.2 (new hℓ' hi'))
    · exact h.injective ℓ ℓ' i (old hℓ hi).1 (old hℓ' hi').1
  · have hne : ℓ.activation ≠ a := fun he => Nat.not_lt.2 hℓ (he ▸ ha)
    have := h.new ℓ hℓ
    exact ⟨(enter_of_ne hne).trans this.1, this.2⟩

end

/-! ## The start of an activation -/

/-- Further variables hold something at the start. -/
theorem Memory.enter_concat (σ : Memory) (f : ScopeId) {starts : List (String × Val)} {x : String} {u : Val}
    (hx : starts.lookup x = none) :
    σ.enter f (starts ++ [(x, u)]) = (σ.enter f starts).put ⟨σ.next, f, x⟩ u := by
  simp only [Memory.enter, Memory.put, Memory.mk.injEq, and_true]
  funext ⟨a, o, y⟩
  by_cases hy : y = x
  · subst hy
    by_cases ha : a = σ.next ∧ o = f
    · simp [ha, List.lookup_append, hx]
    · simp [ha, Location.mk.injEq]
  · have hne : (Location.mk a o y) ≠ ⟨σ.next, f, x⟩ := fun he => hy (congrArg Location.name he)
    simp [hne, List.lookup_append, List.lookup_cons, beq_false_of_ne hy]

section

variable {T : Scopes} {W : World} {N : Float → Prop} {g : Setting} {f : ScopeId} {v : View}
  {pos n slot : Nat} {L : Link} {σ : Memory} {ls : List Value} {m : Machine} {x : String} {u : Val}
  {a : Value} {ix cell : UInt8} {code : List Instr} {names : List String} {vals : List Val}
  {starts : List (String × Val)} {ns : List String}

theorem Kept.eq_of_bare {ls' : List Value} (h : Kept v ls ls') (hv : v.slots = []) : ls' = ls :=
  List.ext_getElem? fun i => h.keep i fun x hx => by simp [hv] at hx

theorem standing_bare (hf : f < T.size) : Standing T f v.bare [] :=
  ⟨hf, nofun, List.nodup_nil, nofun, nofun, List.nodup_nil⟩

theorem lookup_declared (hx : x ∈ (T.scope f).declared) : T.lookup f x = some f := by
  rw [Scopes.lookup, Scopes.chain]
  exact List.find?_cons_of_pos (by simpa [Scope.declares] using hx)

/-- What the code at the start of a function has done when some variables hold what they should. -/
def Setting.Begins (g : Setting) (T : Scopes) (W : World) (N : Float → Prop) (f : ScopeId) (v : View)
    (pos : Nat) (ls : List Value) (S : Stage) (_ : Unit) (σ : Memory) (m : Machine) : Prop :=
  ∃ L, Situated T W N g f v pos L σ ls m ∧ Grown T (· = g.env (T.home f)) S ⟨L, σ, m.world⟩

/-- An argument is moved to its cell. -/
theorem Situated.follows_move (h : Situated T W N g f v.bare pos L σ ls m) (hf : f < T.size)
    (hl : g.code.Lies pos [.getLocal ix, .setCell cell, .pop]) (hx : x ∈ (T.scope f).declared)
    (hc : x ∈ (T.scope f).cells) (hcell : v.cell? x = some cell.toNat) (ha : ls[ix.toNat]? = some a)
    (hu : u.Is T W N L m.heap a) :
    m.Follows n (g.Begins T W N f v.bare (pos + 5) ls ⟨L, σ, m.world⟩) (Halted T W N)
      (.ok () (σ.put ⟨g.env (T.home f), f, x⟩ u)) := by
  obtain ⟨j, hj, hlj⟩ := h.cells x _ f hcell (lookup_declared hx) hc
  have hv : Standing T f v.bare [] := standing_bare hf
  refine (h.follows_getLocal hv hl.head ha hu).after ?_
  rintro m₁ ⟨L₁, ls₁, b, p₁, hb⟩
  obtain rfl := p₁.kept.eq_of_bare rfl
  refine (p₁.situated.follows_setCell hl.tail.head hj (p₁.grown.link _ j hlj) hb).after ?_
  rintro m₂ ⟨L₂, ls₂, p₂⟩
  obtain rfl := p₂.kept.eq_of_bare rfl
  obtain ⟨m₃, hr, hw, hs⟩ := p₂.situated.reaches_pop hv hl.tail.tail
  exact Or.inr ⟨m₃, hr, L₂, hs, hw ▸ p₁.grown.trans p₂.grown⟩

/-- An argument that is not captured is where it should be. -/
theorem Situated.put_argument (h : Situated T W N g f v.bare pos L σ ls m)
    (hs : T.storage (some f) x = .slot) :
    Situated T W N g f v.bare pos L (σ.put ⟨g.env (T.home f), f, x⟩ u) ls m :=
  { h with
    linked := h.linked.putSlot hs h.begun
    slots := nofun }

/-- What moves captured arguments to their cells. -/
theorem Situated.follows_moves (hm : Moves (T.scope f) v slot names code) (hf : f < T.size)
    (hk : (T.scope f).kind = .function) (ha : g.env (T.home f) = σ.next)
    (h : Situated T W N g f v.bare pos L (σ.enter f starts) ls m) (hl : g.code.Lies pos code)
    (hlen : names.length = vals.length)
    (hvals : ∀ (i : Nat) (u : Val), vals[i]? = some u → ∃ a, ls[slot + i]? = some a ∧ u.Is T W N L m.heap a)
    (hd : ∀ x ∈ names, x ∈ (T.scope f).declared) (hn : names.Nodup)
    (hnew : ∀ x ∈ names, starts.lookup x = none) :
    m.Follows n (g.Begins T W N f v.bare (pos + Instr.total code) ls ⟨L, σ.enter f starts, m.world⟩)
      (Halted T W N) (.ok () (σ.enter f (starts ++ names.zip vals))) := by
  induction names generalizing slot code pos L starts vals m with
  | nil =>
    cases hm
    refine Or.inr ⟨m, .start, L, ?_, ?_⟩
    · simpa using h
    · simpa using Grown.refl ..
  | cons x names ih =>
    obtain _ | ⟨u, vals⟩ := vals
    · cases hlen
    obtain ⟨a, ha', hu⟩ := hvals 0 u rfl
    have hx := hd x List.mem_cons_self
    have hput := Memory.enter_concat σ f (u := u) (hnew x List.mem_cons_self)
    rw [← ha] at hput
    -- the other arguments come after this one
    have rest {pos' slot' code' L₁ m₁} (hslot : slot' = slot + 1)
        (hm : Moves (T.scope f) v slot' names code') (hl : g.code.Lies pos' code')
        (h₁ : Situated T W N g f v.bare pos' L₁ (σ.enter f (starts ++ [(x, u)])) ls m₁)
        (hg : Grown T (· = g.env (T.home f)) ⟨L, σ.enter f starts, m.world⟩
          ⟨L₁, σ.enter f (starts ++ [(x, u)]), m₁.world⟩) :
        m₁.Follows n (g.Begins T W N f v.bare (pos' + Instr.total code') ls ⟨L, σ.enter f starts, m.world⟩)
          (Halted T W N) (.ok () (σ.enter f (starts ++ (x :: names).zip (u :: vals)))) := by
      subst hslot
      have := ih hm h₁ hl (Nat.succ.inj hlen) (fun i y hy => ?_)
        (fun y hy => hd y (List.mem_cons_of_mem x hy))
        (List.nodup_cons.1 hn).2 fun y hy => ?_
      · rw [List.append_assoc] at this
        refine this.mono ?_
        rintro - σ' m' ⟨L', hs, hg'⟩
        exact ⟨L', hs, hg.trans hg'⟩
      · obtain ⟨b, hb, hy⟩ := hvals (i + 1) y hy
        refine ⟨b, by rwa [Nat.add_right_comm, Nat.add_assoc], hg.is hy⟩
      · have hne : y ≠ x := fun he => (List.nodup_cons.1 hn).1 (he ▸ hy)
        rw [List.lookup_append, hnew y (List.mem_cons_of_mem x hy), List.lookup_cons,
          beq_false_of_ne hne]
        rfl
    cases hm with
    | stay hstay hm =>
      have hslot : T.storage (some f) x = .slot := by
        rw [Scope.declares, List.contains_iff_mem.2 hx, Bool.true_and] at hstay
        simp only [Scopes.storage, hk, hstay]
        rfl
      refine rest rfl hm hl (hput ▸ h.put_argument hslot) ?_
      rw [hput]
      exact grown_putSlot rfl
    | @move _ _ _ code ix cell hmove hix hcell hm =>
      rw [Bool.and_eq_true, Scope.declares, List.contains_iff_mem, List.contains_iff_mem] at hmove
      have hl : g.code.Lies pos ([.getLocal ix, .setCell cell, .pop] ++ code) := hl
      have moved := h.follows_move (n := n) hf hl.left hx hmove.2 hcell (hix ▸ ha') hu
      refine moved.after ?_
      rintro m₁ ⟨L₁, h₁, hg⟩
      have htotal : pos + Instr.total (.getLocal ix :: .setCell cell :: .pop :: code) =
          pos + 5 + Instr.total code := by
        change pos + Instr.total ([.getLocal ix, .setCell cell, .pop] ++ code) = _
        rw [Instr.total_append, ← Nat.add_assoc]
        rfl
      rw [htotal]
      rw [← hput] at h₁ hg
      exact rest rfl hm hl.right h₁ hg

end

/-! ## The variables of a function -/

section

variable {T : Scopes} {W V : World} {N : Float → Prop} {g : Setting} {F : Function} {v : View}
  {pos n : Nat} {L : Link} {σ : Memory} {ls : List Value} {m : Machine} {x : String} {u : Val}
  {c : Code} {k : Handle} {cells : Array Handle} {env : Env} {code : List Instr} {as : List Access}
  {bs : List (ScopeId × Nat)} {s : ScopeId} {callee : Val} {args : List Val} {callers : Array Frame}
  {below : List Value} {ix : Nat} {sc : Scope} {name : String} {params : List String}

theorem slot?_draftOf (h : (Emit.draftOf name params sc).view.slot? x = some ix) :
    (name :: params)[ix]? = some x := by
  obtain ⟨y, hy, rfl, rfl⟩ := View.slot?_mem h
  change y ∈ (Emit.draftOf name params sc).slots at hy
  rw [Emit.slots_draftOf, List.mem_reverse, List.mem_map] at hy
  obtain ⟨p, hp, rfl⟩ := hy
  exact List.mem_zipIdx_iff_getElem?.1 hp

theorem cell?_draftOf (h : (Emit.draftOf name params sc).view.cell? x = some ix) :
    (sc.free ++ sc.cells)[ix]? = some x := by
  obtain ⟨y, hy, rfl⟩ := Option.map_eq_some_iff.1 h
  have hm := List.mem_of_find?_eq_some hy
  have hname : y.name = x := by simpa using List.find?_some hy
  subst hname
  change y ∈ (Emit.draftOf name params sc).cells at hm
  rw [Emit.cells_draftOf, List.mem_reverse, List.mem_map] at hm
  obtain ⟨p, hp, rfl⟩ := hm
  exact List.mem_zipIdx_iff_getElem?.1 hp

theorem lookup_zip {names : List String} {vals : List Val} (hn : names.Nodup) (hx : names[ix]? = some x)
    (hu : vals[ix]? = some u) : (names.zip vals).lookup x = some u := by
  induction names generalizing vals ix with
  | nil => cases hx
  | cons y names ih =>
    obtain _ | ⟨w, vals⟩ := vals
    · cases hu
    cases ix with
    | zero =>
      cases hx
      cases hu
      exact List.lookup_cons_self
    | succ ix =>
      rw [List.nodup_cons] at hn
      have hne : x ≠ y := fun he => hn.1 (he ▸ List.mem_of_getElem? hx)
      rw [List.zip_cons_cons, List.lookup_cons, beq_false_of_ne hne]
      exact ih hn.2 hx hu

/-- What a variable of a function holds at the start. -/
theorem lookup_starts (hF : T.OpensFunction s F) (hx : x ∈ (T.scope F.scope).declared)
    (hix : (F.name :: F.params)[ix]? = some x) (hu : (callee :: args)[ix]? = some u) :
    (F.starts callee args).lookup x = some u := by
  have hn := hF.nodup
  rw [← List.cons_append, List.nodup_append] at hn
  unfold Function.starts
  split
  · exact lookup_zip hn.1 hix hu
  · next hown =>
    cases ix with
    | zero =>
      cases hix
      exact absurd (hF.own.2 hx) hown
    | succ ix => exact lookup_zip (List.nodup_cons.1 hn.1).2 hix hu

/-- The view at the start of a function. -/
theorem standing_draftOf (hF : T.OpensFunction s F) :
    Standing T F.scope (Emit.draftOf F.name F.params (T.scope F.scope)).view
      (Form.collectAll Form.declares? F.scope [F.body]) := by
  have hslots : (Emit.draftOf F.name F.params (T.scope F.scope)).view.slots =
      ((F.name :: F.params).zipIdx.map fun x => InView.mk x.1 x.2 0).reverse := Emit.slots_draftOf ..
  have hn := hF.nodup
  rw [← List.cons_append, List.nodup_append] at hn
  have named {y : InView} (hy : y ∈ (Emit.draftOf F.name F.params (T.scope F.scope)).view.slots) :
      (F.name :: F.params)[y.place]? = some y.name := by
    rw [hslots, List.mem_reverse, List.mem_map] at hy
    obtain ⟨p, hp, rfl⟩ := hy
    exact List.mem_zipIdx_iff_getElem?.1 hp
  refine ⟨hF.opens.lt_size nofun, fun y hy => ?_, ?_, fun y hy => ?_, fun y hy hm => ?_, ?_⟩
  · rw [Emit.depth_draftOf]
    exact (List.getElem?_eq_some_iff.1 (named hy)).1
  · rw [hslots, List.map_reverse, List.nodup_reverse, List.map_map]
    exact (List.zipIdx_map_snd 0 (F.name :: F.params)).symm ▸ List.nodup_range'
  · rcases List.mem_cons.1 (List.mem_of_getElem? (named hy)) with he | hp
    · refine he ▸ hF.around.imp_left fun h => ⟨s, ?_, h⟩
      rw [hF.opens.chain]
      exact List.mem_cons_of_mem _ List.mem_cons_self
    · exact Or.inl ⟨F.scope, List.mem_cons_self, hF.params _ hp⟩
  · simp only [Form.collectAll, List.append_nil] at hm
    exact hn.2.2 _ (List.mem_of_getElem? (named hy)) _ hm rfl
  · simpa [Form.collectAll] using hn.2.1

/-- A variable that a function captures is one of another activation. -/
theorem home_captured {f o : ScopeId} (hT : T.Once) (hf : f < T.size) (hc : T.Captured f x o) :
    T.home o ≠ f := by
  have hm := (List.mem_cons.1 (Scopes.lookup_mem hc.found)).resolve_left hc.outside
  have hlt := hT.nested.lt_of_mem_outer hf hm
  exact Nat.ne_of_lt (Nat.lt_of_le_of_lt (Scopes.home_le hT.nested (Nat.lt_trans hlt hf)) hlt)

theorem Memory.store_enter_nil (σ : Memory) (f : ScopeId) : (σ.enter f []).store = σ.store := by
  funext ℓ
  simp [Memory.enter]

/-- The number of activations grows. -/
theorem Linked.next (h : Linked T W N ⟨L, σ, V⟩) (f : ScopeId) (P : Nat → Prop) :
    Linked T W N ⟨L, σ.enter f [], V⟩ ∧ Grown T P ⟨L, σ, V⟩ ⟨L, σ.enter f [], V⟩ := by
  refine ⟨⟨h.leads, h.names, h.assigned, h.unassigned, fun ℓ i hi => ?_, h.captured, h.injective,
    fun ℓ hℓ => ?_⟩, fun _ _ h => h, .refl _, Nat.le_succ _, fun _ _ _ _ => ?_⟩
  · simp only [Stage.Is, Memory.store_enter_nil]
    exact h.cells ℓ i hi
  · rw [Memory.store_enter_nil]
    exact h.new ℓ (Nat.le_of_succ_le hℓ)
  · rw [Memory.store_enter_nil]

/-- The cells of an activation that starts. -/
theorem Linked.situated (h : Linked T W N ⟨L, σ, V⟩) (hT : T.Once)
    (hcaptured : ∀ x ∈ (T.scope F.scope).free, ∃ o, T.Captured F.scope x o)
    (hF : T.OpensFunction s F) (hcells : F.Holds T L env cells) (hk : W.heap.code? k = some c)
    (hfree : c.free = (T.scope F.scope).free.toArray) (hb : Laid T c F.scope ((F.scope, 0) :: bs))
    (hg : g = ⟨⟨0, below.length, k, cells ++ Array.range' V.heap.size c.own.size⟩, c, callers, below,
      env.enter F.scope σ.next, bs⟩)
    (hat : m.At g 0 ls) (hw : m.world = ⟨V.heap.addCells c.own.size, V.globals⟩)
    (hlen : ls.length = F.params.length + 1) (P : Nat → Prop) :
    ∃ L', Situated T W N g F.scope (Emit.draftOf F.name F.params (T.scope F.scope)).view.bare 0
      L' (σ.enter F.scope []) ls m ∧ Grown T P ⟨L, σ, V⟩ ⟨L', σ.enter F.scope [], m.world⟩ := by
  have hf : F.scope < T.size := hF.opens.lt_size nofun
  have hhome : T.home F.scope = F.scope := Scopes.home_function hF.opens.kind
  have henv : g.env F.scope = σ.next := by
    rw [hg]
    exact if_pos rfl
  obtain ⟨next, grown⟩ := h.next F.scope P
  obtain ⟨linked, grown'⟩ := next.enter (P := P) hT hb (Nat.lt_succ_self σ.next) fun ℓ hℓ => by
    rw [Memory.store_enter_nil]
    exact h.new ℓ (Nat.le_of_eq hℓ.symm)
  rw [← hw] at linked grown'
  have own {p : ScopeId × Nat} (hp : p ∈ (F.scope, 0) :: bs) {i x} (hx : (T.scope p.1).cells[i]? = some x) :
      g.frame.cells[c.free.size + p.2 + i]? = some (V.heap.size + p.2 + i) := by
    have hlt := (Array.getElem?_eq_some_iff.1 (hb.own p hp i x hx)).1
    have hsize : cells.size = c.free.size := by rw [hcells.size, hfree, List.size_toArray]
    rw [hg, Nat.add_assoc, ← hsize, Array.getElem?_append_right (Nat.le_add_right ..),
      Nat.add_sub_cancel_left, Array.getElem?_range', if_pos hlt, Nat.one_mul, Nat.add_assoc]
  refine ⟨_, ⟨linked, hat, hg ▸ hk, ?_, ?_, fun p hp i x hx => ?_, fun x ix o hx ho hm => ?_, nofun⟩,
    grown.trans grown'⟩
  · rw [hlen]
    exact (Emit.depth_draftOf ..).symm
  · rw [hhome, henv]
    exact Nat.lt_succ_self _
  · have hp : p ∈ g.blocks := hp
    rw [hg] at hp
    rw [show g.code = c by rw [hg]]
    refine ⟨_, own (List.mem_cons_of_mem _ hp) hx, ?_⟩
    rw [hb.home p (List.mem_cons_of_mem _ hp), henv]
    exact hb.enter_eq hT (List.mem_cons_of_mem _ hp) hx
  · have hx : (Emit.draftOf F.name F.params (T.scope F.scope)).view.cell? x = some ix := hx
    replace hx := cell?_draftOf hx
    by_cases hlt : ix < (T.scope F.scope).free.length
    · rw [List.getElem?_append_left hlt] at hx
      obtain ⟨o', ho'⟩ := hcaptured x (List.mem_of_getElem? hx)
      cases ho.symm.trans ho'.found
      obtain ⟨i, hi, hli⟩ := hcells.cell ix x o hx ho'
      refine ⟨i, ?_, grown'.link _ i ?_⟩
      · rw [hg, Array.getElem?_append_left (Array.getElem?_eq_some_iff.1 hi).1, hi]
      · have henv : g.env (T.home o) = env (T.home o) := by
          rw [hg]
          exact if_neg (home_captured hT hf ho')
        rwa [henv]
    · rw [List.getElem?_append_right (Nat.le_of_not_lt hlt)] at hx
      cases ho.symm.trans (lookup_declared (hT.cells (List.mem_of_getElem? hx)))
      have hsum : c.free.size + 0 + (ix - (T.scope F.scope).free.length) = ix := by
        rw [hfree, List.size_toArray]
        omega
      refine ⟨_, hsum ▸ own List.mem_cons_self hx, ?_⟩
      rw [hhome, henv]
      exact hb.enter_eq hT List.mem_cons_self hx

/-- The arguments are where the view says when those that are captured have been moved. -/
theorem Situated.whole
    (h : Situated T W N g F.scope (Emit.draftOf F.name F.params (T.scope F.scope)).view.bare pos L
      (σ.enter F.scope (F.starts callee args)) ls m)
    (hF : T.OpensFunction s F) (ha : g.env F.scope = σ.next) (hlen : F.params.length = args.length)
    (hvals : ∀ (i : Nat) (u : Val), (callee :: args)[i]? = some u → ∃ a, ls[i]? = some a ∧
      u.Is T W N L m.heap a) :
    Situated T W N g F.scope (Emit.draftOf F.name F.params (T.scope F.scope)).view pos L
      (σ.enter F.scope (F.starts callee args)) ls m :=
  { h with
    slots := fun x ix o hx ho hin hs => by
      rw [Scopes.within_function hF.opens.kind, List.mem_singleton] at hin
      subst hin
      have hix := slot?_draftOf hx
      have hlt : ix < (callee :: args).length := by
        have := (List.getElem?_eq_some_iff.1 hix).1
        rwa [List.length_cons, hlen, ← List.length_cons] at this
      obtain ⟨a, ha', hu⟩ := hvals ix _ (List.getElem?_eq_getElem hlt)
      have hl := lookup_starts hF (Scopes.declared_of_lookup ho) hix (List.getElem?_eq_getElem hlt)
      refine ⟨a, ha', ?_⟩
      rw [Scopes.home_function hF.opens.kind, ha]
      have hstore : (σ.enter F.scope (F.starts callee args)).store ⟨σ.next, F.scope, x⟩ =
          (callee :: args)[ix] := by
        simp [Memory.enter, hl]
      rw [hstore]
      exact hu }

/-- The code at the start of a function. -/
theorem Situated.follows_start {moved : List Instr}
    (h : Situated T W N g F.scope (Emit.draftOf F.name F.params (T.scope F.scope)).view.bare pos L
      (σ.enter F.scope []) ls m)
    (hm : Moves (T.scope F.scope) (Emit.draftOf F.name F.params (T.scope F.scope)).view 0
      (F.name :: F.params) moved) (hl : g.code.Lies pos moved)
    (hF : T.OpensFunction s F) (ha : g.env F.scope = σ.next) (hlen : F.params.length = args.length)
    (hvals : ∀ (i : Nat) (u : Val), (callee :: args)[i]? = some u → ∃ a, ls[i]? = some a ∧
      u.Is T W N L m.heap a) :
    m.Follows n (g.Begins T W N F.scope (Emit.draftOf F.name F.params (T.scope F.scope)).view
        (pos + Instr.total moved) ls ⟨L, σ.enter F.scope [], m.world⟩)
      (Halted T W N) (.ok () (σ.enter F.scope (F.starts callee args))) := by
  have hn := hF.nodup
  rw [← List.cons_append, List.nodup_append] at hn
  have hf : F.scope < T.size := hF.opens.lt_size nofun
  have hhome := Scopes.home_function hF.opens.kind
  have ha' : g.env (T.home F.scope) = σ.next := by rwa [hhome]
  have moves : m.Follows n (g.Begins T W N F.scope
      (Emit.draftOf F.name F.params (T.scope F.scope)).view.bare (pos + Instr.total moved) ls
        ⟨L, σ.enter F.scope [], m.world⟩)
      (Halted T W N) (.ok () (σ.enter F.scope (F.starts callee args))) := by
    unfold Function.starts
    split
    · next hown =>
      refine h.follows_moves hm hf hF.opens.kind ha' hl
        (show (F.name :: F.params).length = (callee :: args).length by simpa using hlen)
        (by simpa using hvals) (List.forall_mem_cons.2 ⟨hF.own.1 hown, hF.params⟩)
        hn.1 fun _ _ => rfl
    · next hown =>
      cases hm with
      | stay _ hm =>
        refine h.follows_moves hm hf hF.opens.kind ha' hl hlen (fun i u hu => ?_) hF.params
          (List.nodup_cons.1 hn.1).2 fun _ _ => rfl
        have := hvals (i + 1) u hu
        rwa [Nat.add_comm] at this
      | move hmove =>
        rw [Bool.and_eq_true, Scope.declares, List.contains_iff_mem] at hmove
        exact absurd (hF.own.2 hmove.1) hown
  refine moves.after ?_
  rintro m' ⟨L', hs, hg⟩
  refine Or.inr ⟨m', .start, L', ?_, hg⟩
  exact hs.whole hF ha hlen fun i u hu => (hvals i u hu).imp fun a h => ⟨h.1, hg.is h.2⟩

end

end Meaning

end ByteLisp
