/-
  ByteLisp: how code reads and writes variables.

  * `Scopes.Means`: a name means a variable in a slot or a cell, which the code can
    find;
  * `Setting.Leaves`: what a form leaves, by its outcome;
  * `Situated.follows_get`, `Situated.follows_set` and `Situated.follows_declares`:
    the code of a reference, of an assignment and of a declaration does what the
    evaluation says;
  * `Setting.Leaves.follows_drop` and `Setting.Leaves.follows_leave`: what comes
    after a form in a block.
-/
import ByteLisp.Proofs.Meaning.Follows
import ByteLisp.Proofs.Meaning.Situated

namespace ByteLisp

/-! ## Variables that are not global -/

namespace Scopes

variable {T : Scopes} {s o : ScopeId} {name : String} {binding : Binding}

/-- The name means the variable of the scope `o`, which is not global; it is a cell if the reference
    captures it. -/
structure Means (T : Scopes) (s : ScopeId) (name : String) (o : ScopeId) : Prop where
  inside : s < T.size
  kind : (T.scope o).kind ≠ .global
  found : T.lookup s name = some o
  cell : T.captures s o = true → name ∈ (T.scope o).cells

theorem Refers.means (h : T.Refers s name binding) (ho : binding.owner = some o)
    (hk : (T.scope o).kind ≠ .global) : T.Means s name o :=
  ⟨h.inside, hk, (h.found o ho hk).1, (h.found o ho hk).2⟩

theorem means_declared (hs : s < T.size) (hn : name ∈ (T.scope s).declared)
    (hk : (T.scope s).kind ≠ .global) : T.Means s name s := by
  refine ⟨hs, hk, ?_, fun hc => ?_⟩
  · rw [lookup, chain]
    exact List.find?_cons_of_pos (by simpa [Scope.declares] using hn)
  · rw [captures, pathTo, chain, List.takeWhile_cons_of_neg (by simp)] at hc
    simp at hc

/-- A variable in a slot is one of the current function. -/
theorem Means.within (h : T.Means s name o) (hT : T.Once) (hs : T.storage (some o) name = .slot) :
    o ∈ T.within s := by
  by_contra hout
  have hc := h.cell (hT.captures h.inside (lookup_mem h.found) h.kind hout)
  rw [storage_cell h.kind hc] at hs
  cases hs

end Scopes

open Machine

namespace Meaning

variable {T : Scopes} {W : World} {N : Float → Prop} {g : Setting} {s o : ScopeId} {v w : View}
  {pos pos' n : Nat} {L L' : Link} {σ σ' : Memory} {ls ls' us : List Value} {m m' : Machine} {S : Stage}
  {ns : List String} {name : String} {binding : Binding} {x : Val} {u : Value} {ix : UInt8}
  {owner : Option ScopeId} {env : Env} {place : Place} {direct : Bool} {out : Outcome}
  {store : List Instr}

theorem variableOf_global (h : T.storage owner name = .global) :
    variableOf T env owner name = .global name := by
  cases owner with
  | none => rfl
  | some o => rw [variableOf, Scopes.storage_global.1 h]

theorem variableOf_location (h : (T.scope o).kind ≠ .global) :
    variableOf T env (some o) name = .location ⟨env (T.home o), o, name⟩ := by
  rw [variableOf]
  cases hk : (T.scope o).kind with
  | global => exact absurd hk h
  | _ => rfl

theorem read_global_of_some (h : σ.globals name = some x) : read (.global name) σ = .ok x σ := by
  have hget : (get : Eval Memory) σ = .ok σ σ := rfl
  simp only [read, bind, EStateM.bind, hget, h]
  rfl

theorem read_global_of_none (h : σ.globals name = none) :
    read (.global name) σ = .error (.fault (.reference name)) σ := by
  have hget : (get : Eval Memory) σ = .ok σ σ := rfl
  simp only [read, bind, EStateM.bind, hget, h]
  rfl

/-- A variable is at the place at which code looks for it. -/
inductive Setting.Finds (g : Setting) (T : Scopes) (W : World) (s : ScopeId) (v : View) (L : Link) :
    Place → Variable → Prop
  | global {ix : UInt8} {name : String} : W.globals.name? ix.toNat = some name →
      Finds g T W s v L (.global ix) (.global name)
  | slot {ix : UInt8} {name : String} {o : ScopeId} : v.slot? name = some ix.toNat →
      T.Means s name o → o ∈ T.within s → T.storage (some o) name = .slot →
      Finds g T W s v L (.slot ix) (.location ⟨g.env (T.home s), o, name⟩)
  | cell {ix : UInt8} {ℓ : Location} {j : Handle} : g.frame.cells[ix.toNat]? = some j →
      L ℓ = some j → Finds g T W s v L (.cell ix) (.location ℓ)

/-! ## What code leaves -/

/-- A run that fails leaves the cells and the global variables as the memory says. -/
def Halted (T : Scopes) (W : World) (N : Float → Prop) (σ : Memory) (m : Machine) : Prop :=
  ∃ L, Linked T W N ⟨L, σ, m.world⟩

/-- What a form leaves: its value on top, a new slot, or a cell. -/
def Setting.Leaves (g : Setting) (T : Scopes) (W : World) (N : Float → Prop) (s : ScopeId) (v : View)
    (S : Stage) (ls : List Value) (pos : Nat) : Outcome → Val → Memory → Machine → Prop
  | .value, x, σ, m => ∃ L ls' u, g.Passes T W N s v S ls (v.push 1) pos [u] L ls' σ m ∧
      x.Is T W N L m.heap u
  | .slot name ix, x, σ, m => ix.toNat = v.depth ∧ ∃ L ls' u,
      g.Passes T W N s v S ls (v.bind name) pos [u] L ls' σ m ∧ x.Is T W N L m.heap u
  | .cell _ ix, x, σ, m => ∃ L ls' u j, g.Passes T W N s v S ls v pos [] L ls' σ m ∧
      g.frame.cells[ix.toNat]? = some j ∧ m.heap.cell? j = some u ∧ x.Is T W N L m.heap u

/-- What an instruction leaves that writes the value on top. -/
def Setting.Stores (g : Setting) (T : Scopes) (W : World) (N : Float → Prop) (s : ScopeId) (v : View)
    (S : Stage) (ls : List Value) (pos : Nat) (u : Value) (_ : Unit) (σ : Memory) (m : Machine) : Prop :=
  ∃ L ls', g.Passes T W N s v S ls (v.push 1) pos [u] L ls' σ m

theorem Val.Is.same (hx : x.Is T W N L m.heap u) (hw : m'.world = m.world) : x.Is T W N L m'.heap u := by
  rw [show m'.heap = m.heap from congrArg World.heap hw]
  exact hx

theorem Grown.is {P : Nat → Prop} (h : Grown T P ⟨L, σ, m.world⟩ ⟨L', σ', m'.world⟩)
    (hx : x.Is T W N L m.heap u) : x.Is T W N L' m'.heap u :=
  Stage.Is.later (S := ⟨L, σ, m.world⟩) hx h

namespace Setting.Passes

variable {w w' v' : View} {p p' k : Nat} {us ws : List Value} {L₁ L₂ : Link} {ls₁ ls₂ : List Value}
  {σ₁ σ₂ : Memory} {m₁ m₂ : Machine}

theorem trans (h : g.Passes T W N s v S ls w p us L₁ ls₁ σ₁ m₁)
    (h' : g.Passes T W N s v' ⟨L₁, σ₁, m₁.world⟩ ls₁ w' p' ws L₂ ls₂ σ₂ m₂) (hv : v'.slots = v.slots) :
    g.Passes T W N s v S ls w' p' ws L₂ ls₂ σ₂ m₂ :=
  ⟨h'.situated, h.grown.trans h'.grown, h.kept.trans (h'.kept.of_slots hv)⟩

/-- Values above the variables in view are among those that are left. -/
theorem absorb (h : g.Passes T W N s (v.push k) S (ls ++ us) w p ws L ls' σ m)
    (hv : Standing T s v ns) (hl : ls.length = v.depth) :
    ∃ ls₁, ls' = ls₁ ++ us ∧ g.Passes T W N s v S ls w p (us ++ ws) L ls₁ σ m := by
  obtain ⟨ls₁, rfl, hk⟩ := h.kept.split (v := v) rfl hl hv.depth
  exact ⟨ls₁, rfl, List.append_assoc ls₁ us ws ▸ h.situated, h.grown, hk⟩

theorem length (h : g.Passes T W N s v S ls (v.push k) p us L₁ ls₁ σ₁ m₁) (hk : us.length = k) :
    ls₁.length = v.depth := by
  have := h.situated.depth
  rw [List.length_append, hk, View.depth_push] at this
  exact Nat.add_right_cancel this

theorem length_kept (h : g.Passes T W N s v S ls (v.kept out) p us L₁ ls₁ σ₁ m₁)
    (hk : us.length = out.locals) : ls₁.length = v.depth := by
  have := h.situated.depth
  rw [List.length_append, hk, (View.binds_kept v out).depth] at this
  exact Nat.add_right_cancel this

theorem leaves (h : g.Passes T W N s v S ls w p us L₁ ls₁ σ₁ m₁)
    (hx : g.Leaves T W N s v ⟨L₁, σ₁, m₁.world⟩ ls₁ p' out x σ m) :
    g.Leaves T W N s v S ls p' out x σ m := by
  cases out with
  | value =>
    obtain ⟨L₂, ls₂, a, hp, hx⟩ := hx
    exact ⟨L₂, ls₂, a, h.trans hp rfl, hx⟩
  | slot name ix =>
    obtain ⟨hix, L₂, ls₂, a, hp, hx⟩ := hx
    exact ⟨hix, L₂, ls₂, a, h.trans hp rfl, hx⟩
  | cell name ix =>
    obtain ⟨L₂, ls₂, a, j, hp, hx⟩ := hx
    exact ⟨L₂, ls₂, a, j, h.trans hp rfl, hx⟩

end Setting.Passes

namespace Situated

/-- What is located is found. -/
theorem finds (h : Situated T W N g s v pos L σ ls m) (hT : T.Once) (hr : T.Refers s name binding)
    (hp : Located T W s v name binding place) :
    g.Finds T W s v L place (variableOf T g.env binding.owner name) := by
  have owned (hs : T.storage binding.owner name ≠ .global) :
      ∃ o, binding.owner = some o ∧ (T.scope o).kind ≠ .global := by
    cases ho : binding.owner with
    | none => exact absurd rfl (ho ▸ hs)
    | some o => exact ⟨o, rfl, fun hk => hs (ho ▸ Scopes.storage_global.2 hk)⟩
  cases hp with
  | global hs hn =>
    rw [hr.storage] at hs
    rw [variableOf_global hs]
    exact .global hn
  | slot hs hname =>
    rw [hr.storage] at hs
    obtain ⟨o, ho, hk⟩ := owned (by simp [hs])
    have hm := hr.means ho hk
    rw [ho] at hs ⊢
    have hin := hm.within hT hs
    rw [variableOf_location hk, Scopes.home_within hT.nested hm.inside hin]
    exact .slot hname hm hin hs
  | cell hs hname =>
    rw [hr.storage] at hs
    obtain ⟨o, ho, hk⟩ := owned (by simp [hs])
    rw [ho] at hs ⊢
    have hc : name ∈ (T.scope o).cells := List.contains_iff_mem.1 (Scopes.contains_of_storage hs)
    obtain ⟨j, hj, hlj⟩ := h.cells _ _ o hname (hr.means ho hk).found hc
    rw [variableOf_location hk]
    exact .cell hj hlj

/-- The next instruction of the code. -/
theorem instr? {i : Instr} (h : Situated T W N g s v pos L σ ls m) (hl : g.code.Lies pos [i]) :
    m.instr? = some i := h.place.instr? h.code? hl

/-- An instruction after which the same values lie on the stack. -/
theorem passes (h : Situated T W N g s w pos L σ (ls ++ us) m)
    (hl : Linked T W N ⟨L', σ', m'.world⟩)
    (hg : Grown T (fun _ => False) ⟨L, σ, m.world⟩ ⟨L', σ', m'.world⟩) (hat : m'.At g pos' (ls ++ us)) :
    g.Passes T W N s v ⟨L, σ, m.world⟩ ls w pos' us L' ls σ' m' :=
  ⟨h.next hl hg hat h.depth rfl rfl fun _ _ => rfl, hg.mono fun _ h => h.elim, .refl v ls⟩

/-- An instruction that pushes a value. -/
theorem follows_push {i : Instr} (h : Situated T W N g s v pos L σ ls m) (hv : Standing T s v ns)
    (hl : g.code.Lies pos [i]) (hx : x.Is T W N L m.heap u)
    (he : ∀ {P : Machine → Prop} {E : Fault → Machine → Prop},
      Ends (Machine.push u) (m.past i) (fun _ => P) E →
      Ends (execute i) (m.past i) (fun o m' => o = none ∧ P m') E) :
    m.Follows n (g.Leaves T W N s v ⟨L, σ, m.world⟩ ls (pos + i.size) .value) (Halted T W N)
      (.ok x σ) := by
  refine (Machine.follows_execute (h.instr? hl) (he (ends_push (Or.inl rfl) ?_))).anti (Nat.le_succ n)
  have hat := (h.place.past (i := i)).push u
  refine Or.inr ⟨_, .start, L, ls, u, ⟨h.push hv hat rfl, Grown.refl .., Kept.refl v ls⟩, hx⟩

/-! ## Reading -/

theorem follows_getLocal (h : Situated T W N g s v pos L σ ls m) (hv : Standing T s v ns)
    (hl : g.code.Lies pos [.getLocal ix]) (hu : ls[ix.toNat]? = some u) (hx : x.Is T W N L m.heap u) :
    m.Follows n (g.Leaves T W N s v ⟨L, σ, m.world⟩ ls (pos + 2) .value) (Halted T W N) (.ok x σ) :=
  h.follows_push hv hl hx fun he =>
    ends_bind (ends_get (ends_bind (ends_local (h.place.past.local? hu) (ends_seq he))))

theorem follows_getCell {j : Handle} (h : Situated T W N g s v pos L σ ls m) (hv : Standing T s v ns)
    (hl : g.code.Lies pos [.getCell ix]) (hj : g.frame.cells[ix.toNat]? = some j)
    (hu : m.heap.cell? j = some u) (hx : x.Is T W N L m.heap u) :
    m.Follows n (g.Leaves T W N s v ⟨L, σ, m.world⟩ ls (pos + 2) .value) (Halted T W N) (.ok x σ) := by
  refine h.follows_push hv hl hx fun he => ends_bind (ends_cellAt (i := j) ?_
    (ends_bind (ends_get (ends_bind (ends_expect (a := u) ?_ (ends_seq he))))))
  · rw [h.place.past.current]
    exact hj
  · exact hu

theorem follows_getGlobal (h : Situated T W N g s v pos L σ ls m) (hv : Standing T s v ns)
    (hl : g.code.Lies pos [.getGlobal ix]) (hn : W.globals.name? ix.toNat = some name) :
    m.Follows n (g.Leaves T W N s v ⟨L, σ, m.world⟩ ls (pos + 2) .value) (Halted T W N)
      (read (.global name) σ) := by
  obtain ⟨y, hy, rfl⟩ := Option.map_eq_some_iff.1 (h.linked.leads.globals _ _ hn)
  have hvalue := Globals.value?_of_get? h.linked.names hy
  cases hg : σ.globals y.name with
  | some x =>
    obtain ⟨u, hu, hx⟩ := h.linked.assigned y.name x hg
    rw [read_global_of_some hg]
    refine h.follows_push hv hl hx fun he => ends_bind (ends_get (ends_bind (ends_expect hy ?_)))
    rw [← hvalue, hu]
    exact ends_seq he
  | none =>
    rw [read_global_of_none hg]
    have hnone := h.linked.unassigned y.name hg
    refine (follows_execute (h.instr? hl) (ends_bind (ends_get (ends_bind (ends_expect hy ?_))))).anti
      (Nat.le_succ n)
    rw [← hvalue, hnone]
    exact ends_bind (ends_throw (Or.inr ⟨σ, rfl, L, h.linked⟩))

theorem follows_get {X : Variable} (h : Situated T W N g s v pos L σ ls m) (hv : Standing T s v ns)
    (hX : g.Finds T W s v L place X) (hl : g.code.Lies pos [place.get]) :
    m.Follows n (g.Leaves T W N s v ⟨L, σ, m.world⟩ ls (pos + 2) .value) (Halted T W N) (read X σ) := by
  cases hX with
  | global hn => exact h.follows_getGlobal hv hl hn
  | slot hname hm hin hs =>
    obtain ⟨u, hu, hx⟩ := h.slots _ _ _ hname hm.found hin hs
    exact h.follows_getLocal hv hl hu hx
  | cell hj hlj =>
    obtain ⟨u, hu, hx⟩ := h.linked.cells _ _ hlj
    exact h.follows_getCell hv hl hj hu hx

/-! ## Writing -/

theorem follows_setGlobal (h : Situated T W N g s (v.push 1) pos L σ (ls ++ [u]) m)
    (hl : g.code.Lies pos [.setGlobal ix]) (hn : W.globals.name? ix.toNat = some name)
    (hx : x.Is T W N L m.heap u) :
    m.Follows n (g.Stores T W N s v ⟨L, σ, m.world⟩ ls (pos + 2) u) (Halted T W N)
      (write (.global name) x σ) := by
  have hname : m.globals.name? ix.toNat = some name := h.linked.leads.globals _ _ hn
  obtain ⟨y, hy, -⟩ := Option.map_eq_some_iff.1 hname
  have hlt : ix.toNat < m.globals.size := (Array.getElem?_eq_some_iff.1 hy).1
  refine (follows_execute (h.instr? hl) ?_).anti (Nat.le_succ n)
  refine ends_bind (ends_peek (v := u) ?_ (ends_bind (ends_get (ends_guard
    (fun hle => absurd hlt (Nat.not_lt.2 hle)) fun _ => ends_seq (ends_modify ?_)))))
  · exact congrArg (·[0]?) h.place.values_top
  · exact Or.inr ⟨_, .start, L, ls, h.passes (h.linked.setGlobal hname hx) grown_setGlobal
      ((h.place.past (i := .setGlobal ix)).of_same rfl rfl rfl)⟩

theorem follows_setCell {ℓ : Location} {j : Handle}
    (h : Situated T W N g s (v.push 1) pos L σ (ls ++ [u]) m)
    (hl : g.code.Lies pos [.setCell ix]) (hj : g.frame.cells[ix.toNat]? = some j)
    (hlj : L ℓ = some j) (hx : x.Is T W N L m.heap u) :
    m.Follows n (g.Stores T W N s v ⟨L, σ, m.world⟩ ls (pos + 2) u) (Halted T W N)
      (write (.location ℓ) x σ) := by
  obtain ⟨w, hw, -⟩ := h.linked.cells ℓ j hlj
  refine (follows_execute (h.instr? hl) ?_).anti (Nat.le_succ n)
  refine ends_bind (ends_cellAt (i := j) ?_ (ends_bind (ends_peek (v := u) ?_ (ends_bind (ends_get
    (ends_bind (ends_expect hw (ends_seq (ends_modify ?_)))))))))
  · rw [h.place.past.current]
    exact hj
  · exact congrArg (·[0]?) h.place.values_top
  · exact Or.inr ⟨_, .start, L, ls, h.passes (h.linked.setCell hlj hx) (grown_setCell h.linked hlj)
      ((h.place.past (i := .setCell ix)).of_same rfl rfl rfl)⟩

theorem follows_setSlot (h : Situated T W N g s (v.push 1) pos L σ (ls ++ [u]) m)
    (hv : Standing T s v ns) (hl : g.code.Lies pos [.setLocal ix]) (hname : v.slot? name = some ix.toNat)
    (hm : T.Means s name o) (hs : T.storage (some o) name = .slot)
    (hx : x.Is T W N L m.heap u) :
    m.Follows n (g.Stores T W N s v ⟨L, σ, m.world⟩ ls (pos + 2) u) (Halted T W N)
      (write (.location ⟨g.env (T.home s), o, name⟩) x σ) := by
  have hdepth : ls.length = v.depth := by simpa using h.depth
  have hlt : ix.toNat < ls.length := by
    obtain ⟨y, hy, -, hp⟩ := View.slot?_mem hname
    rw [hdepth, ← hp]
    exact hv.depth y hy
  have hlt' : ix.toNat < (ls ++ [u]).length := Nat.lt_of_lt_of_le hlt (by simp)
  refine (follows_execute (h.instr? hl) ?_).anti (Nat.le_succ n)
  have hat := (h.place.past (i := .setLocal ix)).set (u := u) hlt'
  have hset : (ls ++ [u]).set ix.toNat u = ls.set ix.toNat u ++ [u] := List.set_append_left _ _ hlt
  refine ends_bind (ends_peek (v := u) ?_ (ends_bind (ends_get (ends_seq (ends_setLocal ?_ ?_)))))
  · exact congrArg (·[0]?) h.place.values_top
  · rw [h.place.past.current, h.place.past.values, List.length_reverse, List.length_append, h.place.base]
    exact Nat.add_lt_add_left hlt' _
  · rw [hset] at hat
    refine Or.inr ⟨_, .start, L, ls.set ix.toNat u, ?_, grown_putSlot rfl, ?_⟩
    · refine { h with
        linked := h.linked.putSlot hs h.begun
        place := hat
        depth := by simpa using h.depth
        slots := fun y iy o' hy ho' hin' hs' => ?_ }
      by_cases hyn : y = name
      · subst hyn
        cases hm.found.symm.trans ho'
        cases hname.symm.trans hy
        refine ⟨u, ?_, ?_⟩
        · rw [List.getElem?_append_left (by rwa [List.length_set]), List.getElem?_set_self hlt]
        · have : (σ.put ⟨g.env (T.home s), o, y⟩ x).store ⟨g.env (T.home s), o, y⟩ = x := if_pos rfl
          rw [this]
          exact hx
      · obtain ⟨w, hw, hwx⟩ := h.slots y iy o' hy ho' hin' hs'
        refine ⟨w, ?_, ?_⟩
        · rw [← hset, List.getElem?_set_ne (hv.place_ne hname hy (Ne.symm hyn)), hw]
        · rw [store_put_of_ne fun he => hyn (congrArg Location.name he)]
          exact hwx
    · refine ⟨List.length_set, fun i hi => List.getElem?_set_ne fun he => ?_⟩
      obtain ⟨y, hy, -, hp⟩ := View.slot?_mem hname
      exact hi y hy (hp.trans he)

theorem follows_set {X : Variable} (h : Situated T W N g s (v.push 1) pos L σ (ls ++ [u]) m)
    (hv : Standing T s v ns) (hX : g.Finds T W s (v.push 1) L place X)
    (hl : g.code.Lies pos [place.set])
    (hx : x.Is T W N L m.heap u) :
    m.Follows n (g.Stores T W N s v ⟨L, σ, m.world⟩ ls (pos + 2) u) (Halted T W N) (write X x σ) := by
  cases hX with
  | global hn => exact h.follows_setGlobal hl hn hx
  | slot hname hm _ hs => exact h.follows_setSlot hv hl hname hm hs hx
  | cell hj hlj => exact h.follows_setCell hl hj hlj hx

/-! ## Dropping -/

/-- The top value is dropped. -/
theorem reaches_pop (h : Situated T W N g s (v.push 1) pos L σ (ls ++ [u]) m) (hv : Standing T s v ns)
    (hl : g.code.Lies pos [.pop]) :
    ∃ m', m.Reaches m' ∧ m'.world = m.world ∧ Situated T W N g s v (pos + 1) L σ ls m' := by
  obtain ⟨m', hs, hw, h⟩ := reaches_execute (i := .pop)
    (P := fun m' => m'.world = m.world ∧ Situated T W N g s v (pos + 1) L σ ls m') (h.instr? hl)
    (ends_seq (ends_pop h.place.past.values_top
      ⟨rfl, h.drop hv rfl (h.place.past (i := .pop)).pop rfl⟩))
  exact ⟨m', reaches_step hs, hw, h⟩

/-! ## Declaring -/

/-- The value on top becomes a variable in a slot. -/
theorem follows_declareSlot (h : Situated T W N g s (v.push 1) pos L σ (ls ++ [u]) m)
    (hl : g.code.Lies pos [.setLocal ix]) (hix : ix.toNat = v.depth)
    (hs : T.storage (some s) name = .slot) (hd : name ∈ (T.scope s).declared)
    (hx : x.Is T W N L m.heap u) :
    m.Follows n (g.Leaves T W N s v ⟨L, σ, m.world⟩ ls (pos + 2) (.slot name ix)) (Halted T W N)
      (.ok x (σ.put ⟨g.env (T.home s), s, name⟩ x)) := by
  have hlen : ls.length = v.depth := by simpa using h.depth
  have hlt : ix.toNat < (ls ++ [u]).length := by simp [hix, hlen]
  have hset : (ls ++ [u]).set ix.toNat u = ls ++ [u] := by
    rw [hix, ← hlen, List.set_append_right _ _ (Nat.le_refl _), Nat.sub_self]
    rfl
  have hat := (h.place.past (i := .setLocal ix)).set (u := u) hlt
  rw [hset] at hat
  refine (follows_execute (h.instr? hl) ?_).anti (Nat.le_succ n)
  refine ends_bind (ends_peek (v := u) ?_ (ends_bind (ends_get (ends_seq (ends_setLocal ?_ ?_)))))
  · exact congrArg (·[0]?) h.place.values_top
  · rw [h.place.past.current, h.place.past.values, List.length_reverse, List.length_append, h.place.base]
    exact Nat.add_lt_add_left hlt _
  · refine Or.inr ⟨_, .start, hix, L, ls, u, ⟨?_, grown_putSlot rfl, .refl v ls⟩, hx⟩
    refine { h with
      linked := h.linked.putSlot hs h.begun
      place := hat
      slots := fun y iy o hy ho hin hs' => ?_ }
    by_cases hyn : y = name
    · subst hyn
      have hos : o = s := by
        rw [Scopes.lookup, Scopes.chain, List.find?_cons_of_pos (by simpa [Scope.declares] using hd)] at ho
        exact (Option.some.inj ho).symm
      subst hos
      have hiy : iy = v.depth := by
        rw [View.slot?, View.bind, List.find?_cons_of_pos (by simp)] at hy
        exact (Option.some.inj hy).symm
      have hput : (σ.put ⟨g.env (T.home o), o, y⟩ x).store ⟨g.env (T.home o), o, y⟩ = x := if_pos rfl
      rw [hput]
      exact ⟨u, by rw [hiy, ← hlen, List.getElem?_concat_length], hx⟩
    · have hy' : v.slot? y = some iy := by
        rw [View.slot?, View.bind, List.find?_cons_of_neg (by simpa using Ne.symm hyn)] at hy
        exact hy
      rw [store_put_of_ne fun he => hyn (congrArg Location.name he)]
      exact h.slots y iy o hy' ho hin hs'

/-- The value on top becomes that of a cell. -/
theorem follows_declareCell {j : Handle} (h : Situated T W N g s (v.push 1) pos L σ (ls ++ [u]) m)
    (hv : Standing T s v ns) (hl : g.code.Lies pos [.setCell ix, .pop])
    (hj : g.frame.cells[ix.toNat]? = some j) (hlj : L ⟨g.env (T.home s), s, name⟩ = some j)
    (hx : x.Is T W N L m.heap u) :
    m.Follows n (g.Leaves T W N s v ⟨L, σ, m.world⟩ ls (pos + 3) (.cell name ix)) (Halted T W N)
      (.ok x (σ.put ⟨g.env (T.home s), s, name⟩ x)) := by
  refine (h.follows_setCell hl.left hj hlj hx : m.Follows n _ _
    (.ok () (σ.put ⟨g.env (T.home s), s, name⟩ x))).after fun m₁ ⟨L₁, ls₁, hp⟩ => ?_
  obtain ⟨m₂, hr, hw, hs⟩ := hp.situated.reaches_pop hv hl.tail
  have hlj₁ : L₁ ⟨g.env (T.home s), s, name⟩ = some j := hp.grown.link _ j hlj
  obtain ⟨w, hcell, hw'⟩ := hs.linked.cells _ j hlj₁
  have hput : (σ.put ⟨g.env (T.home s), s, name⟩ x).store ⟨g.env (T.home s), s, name⟩ = x := if_pos rfl
  rw [Stage.Is, hput] at hw'
  refine Or.inr ⟨m₂, hr, L₁, ls₁, w, j, ⟨?_, hw ▸ hp.grown, hp.kept⟩, hj, hcell, hw'⟩
  rw [List.append_nil]
  exact hs

end Situated

/-! ## What comes after a form -/

/-- What some forms leave of which the last has the value: variables, and the value on top. -/
def Setting.Yields (g : Setting) (T : Scopes) (W : World) (N : Float → Prop) (s : ScopeId) (v : View)
    (S : Stage) (ls : List Value) (k pos : Nat) (x : Val) (σ : Memory) (m : Machine) : Prop :=
  ∃ L ls' us u, us.length = k ∧ g.Passes T W N s v S ls (v.push (k + 1)) pos (us ++ [u]) L ls' σ m ∧
    x.Is T W N L m.heap u

namespace Setting.Leaves

variable {S : Stage}

/-- The cell gives the value. -/
theorem follows_getCell (h : g.Leaves T W N s v S ls pos (.cell name ix) x σ m) (hv : Standing T s v ns)
    (hl : g.code.Lies pos [.getCell ix]) :
    m.Follows n (g.Leaves T W N s v S ls (pos + 2) .value) (Halted T W N) (.ok x σ) := by
  obtain ⟨L, ls', u, j, hp, hj, hu, hx⟩ := h
  have hs := hp.situated
  rw [List.append_nil] at hs
  refine (hs.follows_getCell hv hl hj hu hx).mono fun y σ' m' h => ?_
  obtain ⟨L', ls'', u', hp', hx'⟩ := h
  exact ⟨L', ls'', u', hp.trans hp' rfl, hx'⟩

/-- What leaves the value on top, with the variable of a slot below it. -/
theorem follows_leave (h : g.Leaves T W N s v S ls pos out x σ m) (hv : Standing T s v ns)
    (hd : ∀ name ix, out = .slot name ix → name ∈ ns ∧ name ∈ (T.scope s).declared)
    (hl : g.code.Lies pos out.leave) :
    m.Follows n (g.Yields T W N s v S ls out.locals (pos + Instr.total out.leave)) (Halted T W N)
      (.ok x σ) := by
  cases out with
  | value =>
    obtain ⟨L, ls', u, hp, hx⟩ := h
    exact Or.inr ⟨m, .start, L, ls', [], u, rfl, hp, hx⟩
  | cell name ix =>
    refine (h.follows_getCell hv hl).mono fun y σ' m' h => ?_
    obtain ⟨L, ls', u, hp, hx⟩ := h
    exact ⟨L, ls', [], u, rfl, hp, hx⟩
  | slot name ix =>
    obtain ⟨hix, L, ls', u, hp, hx⟩ := h
    obtain ⟨hn, hds⟩ := hd name ix rfl
    have hlen : ls'.length = v.depth := by simpa using hp.situated.depth
    have hopen : Standing T s v (ns ++ []) := by rwa [List.append_nil]
    have hv' : Standing T s (v.bind name) [] := hopen.bind hn hds
    have hu : (ls' ++ [u])[ix.toNat]? = some u := by rw [hix, ← hlen, List.getElem?_concat_length]
    refine (hp.situated.follows_getLocal hv' hl hu hx).mono fun y σ' m' h => ?_
    obtain ⟨L', ls'', u', hp', hx'⟩ := h
    obtain ⟨ls₁, b, rfl, hk⟩ := hp'.kept.unbind hlen
    refine ⟨L', ls₁, [b], u', rfl, ⟨?_, hp.grown.trans hp'.grown, hp.kept.trans hk⟩, hx'⟩
    have hs := hp'.situated.unbind hv hn
    rwa [List.append_assoc] at hs

/-- What drops the value, unless it is a variable. -/
theorem follows_drop (h : g.Leaves T W N s v S ls pos out x σ m) (hv : Standing T s v ns)
    (hl : g.code.Lies pos out.drop) :
    ∃ m', m.Reaches m' ∧ ∃ L ls' us, us.length = out.locals ∧
      g.Passes T W N s v S ls (v.kept out) (pos + Instr.total out.drop) us L ls' σ m' := by
  cases out with
  | value =>
    obtain ⟨L, ls', u, hp, -⟩ := h
    obtain ⟨m', hr, hw, hs⟩ := hp.situated.reaches_pop hv hl
    exact ⟨m', hr, L, ls', [], rfl, (List.append_nil ls').symm ▸ hs, hw ▸ hp.grown, hp.kept⟩
  | slot name ix =>
    obtain ⟨-, L, ls', u, hp, -⟩ := h
    exact ⟨m, .start, L, ls', [u], rfl, hp⟩
  | cell name ix =>
    obtain ⟨L, ls', u, j, hp, -⟩ := h
    exact ⟨m, .start, L, ls', [], rfl, hp⟩

end Setting.Leaves

/-- Variables that have been declared since are among the values that are left. -/
theorem Setting.Passes.unbind {w : View} {k : Nat} {ws : List Value} {S : Stage}
    (h : g.Passes T W N s (v.kept out) S (ls ++ us) w pos ws L ls' σ m) (hw : w = (v.kept out).push k)
    (hv : Standing T s v ns) (hd : ∀ name ix, out = .slot name ix → name ∈ ns)
    (hk : us.length = out.locals) (hl : ls.length = v.depth) :
    ∃ ls₁ us₁, us₁.length = out.locals ∧
      g.Passes T W N s v S ls (v.push (out.locals + k)) pos (us₁ ++ ws) L ls₁ σ m := by
  subst hw
  cases out with
  | slot name ix =>
    obtain ⟨a, rfl⟩ := List.length_eq_one_iff.1 hk
    obtain ⟨ls₁, b, rfl, hkept⟩ := h.kept.unbind hl
    refine ⟨ls₁, [b], rfl, ?_, h.grown, hkept⟩
    have hs := h.situated.unbind hv (hd name ix rfl)
    rwa [List.append_assoc, Nat.add_comm] at hs
  | value | cell name ix =>
    rw [List.length_eq_zero_iff.1 hk, List.append_nil] at h
    exact ⟨ls', [], rfl, by simpa [Outcome.locals, View.kept] using h⟩

/-- The code that makes the value on top a variable. -/
theorem Situated.follows_declares (h : Situated T W N g s (v.push 1) pos L σ (ls ++ [u]) m)
    (hv : Standing T s v ns) (hd : name ∈ (T.scope s).declared)
    (hD : Declares T W s v name direct out store) (hl : g.code.Lies pos store)
    (hx : x.Is T W N L m.heap u) :
    m.Follows n (g.Leaves T W N s v ⟨L, σ, m.world⟩ ls (pos + Instr.total store) out) (Halted T W N)
      ((do write (variableOf T g.env (some s) name) x; return x : Eval Val) σ) := by
  have located {j : UInt8} (hs : T.storageOf s name .unbound = .cell)
      (hname : v.cell? name = some j.toNat) : ∃ i, g.frame.cells[j.toNat]? = some i ∧
        L ⟨g.env (T.home s), s, name⟩ = some i ∧ (T.scope s).kind ≠ .global := by
    rw [Scopes.storageOf_declared hd] at hs
    have hk : (T.scope s).kind ≠ .global := fun hk => by
      rw [Scopes.storage_global.2 hk] at hs
      cases hs
    obtain ⟨i, hi, hli⟩ := h.cells name _ s hname (Scopes.means_declared hv.inside hd hk).found
      (List.contains_iff_mem.1 (Scopes.contains_of_storage hs))
    exact ⟨i, hi, hli, hk⟩
  cases hD with
  | global hs hn =>
    rw [Scopes.storageOf_declared hd] at hs
    rw [variableOf_global hs]
    refine (h.follows_setGlobal hl hn hx).bind fun _ σ' m' hp => ?_
    obtain ⟨L', ls', hp⟩ := hp
    exact follows_pure ⟨L', ls', u, hp, hp.grown.is hx⟩
  | cell hs hname =>
    obtain ⟨j, hj, hlj, hk⟩ := located hs hname
    rw [variableOf_location hk]
    exact h.follows_declareCell hv hl hj hlj hx
  | @inside ix hs hname =>
    obtain ⟨j, hj, hlj, hk⟩ := located hs hname
    rw [variableOf_location hk]
    have hl : g.code.Lies pos ([.setCell ix, .pop] ++ [.getCell ix]) := hl
    exact (h.follows_declareCell hv hl.left hj hlj hx).after fun m' h => h.follows_getCell hv hl.right
  | slot hs hix =>
    rw [Scopes.storageOf_declared hd] at hs
    have hk : (T.scope s).kind ≠ .global := fun hk => by
      rw [Scopes.storage_global.2 hk] at hs
      cases hs
    rw [variableOf_location hk]
    exact h.follows_declareSlot hl hix hs hd hx

end Meaning

end ByteLisp
