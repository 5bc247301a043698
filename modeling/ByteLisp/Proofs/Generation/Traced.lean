/-
  ByteLisp: the accesses of the code.

  Code is generated in the order of the walk, so that what a draft has in view can
  be compared with what the walk had declared.

  * `Task.Walked`: the forms of a part of a program have been walked over;
  * `Access.Traced`: at an access, the variables in view are those of the scopes
    around it, and the walk had bound the name there;
  * `Coded.traced`: so it is for all accesses of the code;
  * `Coded.references`: there is one for each reference of the program;
  * `Coded.fetched`: the instruction of an access lies at its place.
-/
import ByteLisp.Proofs.Code.Layout
import ByteLisp.Proofs.Generation.Tracked
import ByteLisp.Proofs.Scope.Collect

namespace ByteLisp

/-! ## Parts of a program and the walk -/

/-- A form has been walked over between two points of the walk. -/
def Form.WalkedIn (P : Scopes → Prop) (T₀ : Scopes) (s : ScopeId) (T₁ : Scopes) (f : Form) : Prop :=
  ∃ T T', T₀.Extends T ∧ Walks P T s [f] T' ∧ T'.Extends T₁

/-- The names that a function with the scope `f` declares at its start: its parameters, and its
    own name if it has one. -/
def Opens (P : Scopes → Prop) (N : List (ScopeId × String)) (f : ScopeId) (label : String)
    (params names : List String) : Prop :=
  names = label :: params ∧ (f, label) ∈ N ∨ names = params ∧ Labelled P f label

/-- The forms of a part of a program have been walked over, from one table to another. -/
def Task.Walked (P : Scopes → Prop) (N : List (ScopeId × String)) (T₀ : Scopes) (s : ScopeId)
    (T₁ : Scopes) : Task → Prop
  | .form _ f _ => Walks P T₀ s [f] T₁
  | .body fs _ => Walks P T₀ s fs T₁
  | .args fs => Walks P T₀ s fs T₁
  | .drops fs => ∀ f ∈ fs, f.WalkedIn P T₀ s T₁
  | .loop test fs => ∀ f ∈ test :: fs, f.WalkedIn P T₀ s T₁
  | .closure label f params inner => f = T₀.size ∧ ∃ names, Opens P N f label params names ∧
      Walks P (T₀.openFunction s names) f [inner] T₁
  | .finish _ inner => Walks P T₀ s [inner] T₁
  | .code label params inner => ∃ (U : Scopes) (s₀ : ScopeId) (names : List String),
      s₀ < U.size ∧ s = U.size ∧ U.Nested ∧ Opens P N s label params names ∧
      T₀ = U.openFunction s₀ names ∧ Walks P T₀ s [inner] T₁

section

variable {α : Type}

/-- What is found at the forms of a part of a program and within them. -/
def Task.collect (find : ScopeId → Form → List α) (s : ScopeId) : Task → List α
  | .form _ f _ => f.collect find s
  | .body fs _ => Form.collectAll find s fs
  | .args fs => Form.collectAll find s fs
  | .drops fs => Form.collectAll find s fs
  | .loop test fs => test.collect find s ++ Form.collectAll find s fs
  | .closure _ f _ inner => inner.collect find f
  | .finish _ inner => inner.collect find s
  | .code _ _ inner => inner.collect find s

end

/-! ## Accesses and the walk -/

/-- At an access the cells in view are those of the scopes around; a reference has been bound
    by the walk at a point where the slots in view were declared; a captured variable is free in
    the function that captures it. -/
structure Access.Traced (P : Scopes → Prop) (N : List (ScopeId × String)) (T : Scopes) (W : World)
    (a : Access) : Prop where
  cells : View.Cells T a.code a.scope a.view.level a.view.cells
  bound : ∀ write binding, a.purpose = .refer write binding →
    Located T W a.scope a.view a.name binding a.place ∧ ∃ T₀ T₁, P T₀ ∧ T₀.Nested ∧
      a.scope < T₀.size ∧ Walk.target a.scope a.name T₀ = (binding, T₁) ∧ T₁.Later T ∧
      a.view.Slots P N T₀ a.scope
  captured : ∀ f, a.purpose = .capture f → a.name ∈ (T.scope f).free ∧
    (T.scope f).kind = .function ∧ T.chain f = f :: T.chain a.scope ∧
    ∃ ix, a.place = .cell ix ∧ a.view.cell? a.name = some ix.toNat

/-- A part of a program stands in a scope of a code object, with a view, where the walk goes from
    one table to another. -/
structure Stands (P : Scopes → Prop) (N : List (ScopeId × String)) (T : Scopes) (c : Code)
    (s : ScopeId) (v : View) (T₀ T₁ : Scopes) : Prop where
  nested : T₀.Nested
  inside : s < T₀.size
  later : T₁.Later T
  cells : View.Cells T c s v.level v.cells
  slots : v.Slots P N T₀ s

/-- The reference of an access. -/
def Access.reference? (a : Access) : Option Form.Reference :=
  match a.purpose with
  | .refer write binding => some ⟨a.scope, a.name, write, binding⟩
  | .capture _ => none

section

variable {P : Scopes → Prop} {N : List (ScopeId × String)} {T T₀ T₁ T₂ T₃ : Scopes} {W : World}
  {c : Code} {s f b : ScopeId} {v u : View} {name : String}

theorem Stands.between (h : Stands P N T c s v T₀ T₃) (hx : T₀.Extends T₁) (hx' : T₂.Extends T₃) :
    Stands P N T c s v T₁ T₂ :=
  ⟨hx.nested h.nested, hx.lt h.inside, hx'.later.trans h.later, h.cells,
    h.slots.later h.nested h.inside hx.later⟩

theorem Stands.push (h : Stands P N T c s v T₀ T₁) (n : Nat) : Stands P N T c s (v.push n) T₀ T₁ :=
  ⟨h.nested, h.inside, h.later, h.cells, h.slots.push n⟩

theorem Stands.kept (h : Stands P N T c s v T₀ T₁) {o : Outcome}
    (hn : ∀ name ix, o = .slot name ix → name ∈ (T₀.scope s).declared) :
    Stands P N T c s (v.kept o) T₀ T₁ := by
  refine ⟨h.nested, h.inside, h.later, ?_, h.slots.kept hn⟩
  rw [(v.binds_kept o).level, (v.binds_kept o).cells]
  exact h.cells

/-- A block is entered, with its cells. -/
theorem Stands.enter (h : Stands P N T c s v T₀ T₁) (hx : (T₀.push .block s).Extends T₁)
    (hu : Enters T c T₀.size v u) : Stands P N T c T₀.size u (T₀.push .block s) T₁ := by
  have inside : T₀.size < (T₀.push .block s).size := Scopes.lt_size_push
  have later := hx.later.trans h.later
  have hk : (T.scope T₀.size).kind = .block := by
    rw [later.kind _ inside, Scopes.scope_push_size]
    rfl
  have hb₀ : (T₀.push .block s).chain T₀.size = T₀.size :: T₀.chain s := by
    rw [Scopes.chain, Scopes.scope_push_size]
    rfl
  have hs := (Scopes.later_push T₀ .block s).chain h.inside
  have hb : T.chain T₀.size = T₀.size :: T.chain s := by
    rw [later.chain inside, hb₀, ← hs, later.chain (Nat.lt_trans h.inside inside)]
  cases hu with
  | mk hplace _ =>
    refine ⟨h.nested.push h.inside _, inside, h.later, ?_, ?_⟩
    · rw [View.level_enter, View.cells_enter, Scopes.blockCells, if_pos hk]
      exact .block h.cells hk hb hplace
    · exact (h.slots.later h.nested h.inside (Scopes.later_push T₀ .block s)).enter
        (hs ▸ hb₀) _ _

/-- Forms one after the other. -/
theorem Stands.uncons (h : Stands P N T c s v T₀ T₁) {g : Form} {gs : List Form}
    (hw : Walks P T₀ s (g :: gs) T₁) :
    ∃ T₂, Walks P T₀ s [g] T₂ ∧ Walks P T₂ s gs T₁ ∧ Stands P N T c s v T₀ T₂ ∧
      Stands P N T c s v T₂ T₁ := by
  obtain ⟨T₂, h₁, h₂⟩ := hw.uncons
  have hx := h₁.extends h.inside
  exact ⟨T₂, h₁, h₂, h.between (.refl _) (h₂.extends (hx.lt h.inside)), h.between hx (.refl _)⟩

/-- A function is entered. -/
theorem Stands.function {label : String} {params names : List String} {W₀ : Scopes} {s₀ : ScopeId}
    (hn : W₀.Nested) (hs₀ : s₀ < W₀.size) (ho : Opens P N W₀.size label params names)
    (hx : (W₀.openFunction s₀ names).Extends T₁) (hl : T₁.Later T)
    (hc : c.free = (T.scope W₀.size).free.toArray) :
    Stands P N T c W₀.size (Emit.draftOf label params (T.scope W₀.size)).view
      (W₀.openFunction s₀ names) T₁ := by
  have inside : W₀.size < (W₀.openFunction s₀ names).size := Scopes.lt_size_openFunction
  have hk : (T.scope W₀.size).kind = .function := by
    rw [(hx.later.trans hl).kind _ inside]
    exact (Scopes.openFunction_scope hs₀).1
  refine ⟨(Scopes.extends_openFunction hs₀).nested hn, inside, hl, ?_, .function ho⟩
  have hcells : (Emit.draftOf label params (T.scope W₀.size)).view.cells =
      InView.row 0 0 ((T.scope W₀.size).free ++ (T.scope W₀.size).cells) := Emit.cells_draftOf ..
  have hlevel : (Emit.draftOf label params (T.scope W₀.size)).view.level = 0 := by
    simp [Draft.view, Emit.draftOf, Draft.addLocals_eq, Draft.start]
  rw [hcells, hlevel]
  exact .function hk hc

theorem Loads.traced {pos : Nat} {names : List String} {code : List Instr} {as : List Access}
    (h : Loads c s v f pos names code as) (hc : View.Cells T c s v.level v.cells)
    (hn : ∀ n ∈ names, n ∈ (T.scope f).free) (hk : (T.scope f).kind = .function)
    (hf : T.chain f = f :: T.chain s) : ∀ a ∈ as, a.Traced P N T W := by
  induction h with
  | nil => nofun
  | @cons pos name names ix code as hcell h ih =>
    intro a ha
    rcases List.mem_cons.1 ha with rfl | ha
    · refine ⟨hc, nofun, fun g hg => ?_⟩
      cases hg
      exact ⟨hn name List.mem_cons_self, hk, hf, ix, rfl, hcell⟩
    · exact ih (fun n hm => hn n (List.mem_cons_of_mem name hm)) a ha

theorem Loads.references {pos : Nat} {names : List String} {code : List Instr} {as : List Access}
    (h : Loads c s v f pos names code as) : as.filterMap Access.reference? = [] := by
  induction h with
  | nil => rfl
  | cons _ _ ih => exact ih

/-- The variable that a form leaves on the stack has been declared. -/
theorem Coded.declared_of_slot {direct : Bool} {form : Form} {ix : UInt8} {pos : Nat}
    {code : List Instr} {as : List Access}
    (h : Coded T W c s (.form direct form (.slot name ix)) v pos code as)
    (hw : Walks P T₀ s [form] T₁) (hs : s < T₀.size) : name ∈ (T₁.scope s).declared := by
  have declared {n : String} : n ∈ ((T₀.modify s (·.declare n)).scope s).declared := by
    rw [Scopes.scope_modify hs, if_pos rfl]
    exact List.mem_cons_self
  have hs' {n : String} : s < (T₀.modify s (·.declare n)).size := Scopes.size_modify.symm ▸ hs
  cases h with
  | declare _ hd =>
    cases hd
    cases hw with
    | declare hw => exact (hw.extends hs').later.declared s name hs' declared
  | define _ hd =>
    cases hd
    cases hw with
    | define hU hw =>
      subst hU
      have hx := (Scopes.extends_openFunction hs').trans (hw.extends Scopes.lt_size_openFunction)
      exact hx.later.declared s name hs' declared

theorem Coded.free_eq {label : String} {params : List String} {body : Form} {pos : Nat}
    {code : List Instr} {as : List Access}
    (h : Coded T W c f (.code label params body) v pos code as) :
    c.free = (T.scope f).free.toArray := by
  cases h with
  | code _ _ hfree _ _ _ _ _ => exact hfree

theorem Coded.traced {task : Task} {pos : Nat} {code : List Instr} {as : List Access}
    (h : Coded T W c s task v pos code as) :
    ∀ T₀ T₁, task.Walked P N T₀ s T₁ → (∀ p ∈ task.collect Form.named? s, p ∈ N) →
      Stands P N T c s v T₀ T₁ → ∀ a ∈ as, a.Traced P N T W := by
  induction h with
  | number | string | boolean | noArgs | noDrops => simp
  | reference hl =>
    intro T₀ T₁ hw _ hs a ha
    rw [List.mem_singleton.1 ha]
    cases hw with
    | reference hP _ ht =>
      refine ⟨hs.cells, fun _ b hb => ?_, by simp⟩
      cases hb
      exact ⟨hl, T₀, T₁, hP, hs.nested, hs.inside, ht, hs.later, hs.slots⟩
  | block hu _ _ ih =>
    intro T₀ T₁ hw hN hs
    simp only [Task.collect, Form.collect, List.forall_mem_append] at hN
    cases hw with
    | block hw => exact ih _ _ hw hN.1 (hs.enter (hw.extends Scopes.lt_size_push) hu)
  | declare _ _ ih =>
    intro T₀ T₁ hw hN hs
    simp only [Task.collect, Form.collect, List.forall_mem_append] at hN
    cases hw with
    | declare hw => exact ih _ _ hw hN.1 (hs.between Scopes.extends_declare (.refl _))
  | @assign c s direct name binding value v pos code place as _ hl ih =>
    intro T₀ T₁ hw hN hs a ha
    simp only [Task.collect, Form.collect, List.forall_mem_append] at hN
    cases hw with
    | @assign _ _ _ _ _ T₂ _ hP ht hw =>
      have htarget : T₀.Extends (Walk.target s name T₀).2 := extends_target
      rw [ht] at htarget
      have hvalue := hw.extends (htarget.lt hs.inside)
      rcases List.mem_append.1 ha with ha | ha
      · exact ih _ _ hw hN.1 (hs.between htarget (.refl _)) a ha
      · rw [List.mem_singleton.1 ha]
        refine ⟨(hs.push 1).cells, fun _ b hb => ?_, by simp⟩
        cases hb
        exact ⟨hl, T₀, T₂, hP, hs.nested, hs.inside, ht, hvalue.later.trans hs.later,
          hs.slots.push 1⟩
  | ifThen _ ih =>
    intro T₀ T₁ hw hN hs
    simp only [Task.collect, Form.collect, List.forall_mem_append] at hN ih
    cases hw with
    | ifThen hw =>
      obtain ⟨T₂, h₁, h₂⟩ := hw.uncons
      exact ih _ _ (.ifElse (.cons h₁ (.cons h₂ .boolean)))
        ⟨⟨hN.1, by simp [Form.named?]⟩, by simp [Form.named?]⟩ hs
  | ifElse _ _ _ _ _ ih₁ ih₂ ih₃ =>
    intro T₀ T₁ hw hN hs
    simp only [Task.collect, Form.collect, List.forall_mem_append] at hN ⊢
    cases hw with
    | ifElse hw =>
      obtain ⟨T₂, h₁, hw, s₁, hs⟩ := hs.uncons hw
      obtain ⟨T₃, h₂, h₃, s₂, s₃⟩ := hs.uncons hw
      obtain ⟨⟨⟨ht, hc⟩, ha⟩, -⟩ := hN
      exact ⟨⟨ih₁ _ _ h₁ ht s₁, ih₂ _ _ h₂ hc s₂⟩, ih₃ _ _ h₃ ha s₃⟩
  | whileLoop _ ih =>
    intro T₀ T₁ hw hN hs
    simp only [Task.collect, Form.collect, List.forall_mem_append] at hN
    cases hw with
    | whileLoop hw =>
      refine ih _ _ (fun f hf => hw.of_mem hs.inside hf) ?_ hs
      simpa [Task.collect, Form.collectAll, or_imp, forall_and] using hN.1
  | @forLoop _ s _ _ _ _ _ o _ _ _ _ _ _ hinit _ ih₁ ih₂ =>
    intro T₀ T₁ hw hN hs
    simp only [Task.collect, Form.collect, List.forall_mem_append] at hN ⊢
    cases hw with
    | forLoop hw =>
      obtain ⟨T₂, h₁, hw, s₁, hs⟩ := hs.uncons hw
      have slots : ∀ name ix, o = .slot name ix → name ∈ (T₂.scope s).declared := by
        rintro name ix rfl
        exact hinit.declared_of_slot h₁ s₁.inside
      refine ⟨ih₁ _ _ h₁ hN.1.1 s₁, ih₂ _ _ (fun f hf => hw.of_mem hs.inside ?_) ?_ (hs.kept slots)⟩
      · simp only [List.mem_cons, List.not_mem_nil, or_false] at hf ⊢
        rcases hf with rfl | rfl | rfl <;> simp
      · simpa [Task.collect, Form.collectAll, or_imp, forall_and, and_assoc] using hN.1.2
  | define _ _ ih =>
    intro T₀ T₁ hw hN hs
    simp only [Task.collect, Form.collect, List.forall_mem_append] at hN
    cases hw with
    | define hU hw =>
      subst hU
      have named := hN.2 _ (List.mem_singleton.2 rfl)
      exact ih _ _ ⟨rfl, _, Or.inl ⟨rfl, named⟩, hw⟩ hN.1 (hs.between Scopes.extends_declare (.refl _))
  | lambda _ ih =>
    intro T₀ T₁ hw hN hs
    simp only [Task.collect, Form.collect, List.forall_mem_append] at hN
    cases hw with
    | lambda hP hl hw =>
      exact ih _ _ ⟨rfl, _, Or.inr ⟨rfl, T₀, _, hP, rfl, hs.inside, hl⟩, hw⟩ hN.1 hs
  | operation _ _ ih₁ ih₂ =>
    intro T₀ T₁ hw hN hs
    simp only [Task.collect, Form.collect, List.forall_mem_append] at hN ⊢
    cases hw with
    | operation hw =>
      obtain ⟨T₂, h₁, h₂, s₁, s₂⟩ := hs.uncons hw
      exact ⟨ih₁ _ _ h₁ hN.1.1 s₁, ih₂ _ _ h₂ hN.1.2 (s₂.push 1)⟩
  | call _ _ _ ih₁ ih₂ =>
    intro T₀ T₁ hw hN hs
    simp only [Task.collect, Form.collect, List.forall_mem_append] at hN ⊢
    cases hw with
    | call hw =>
      obtain ⟨T₂, h₁, h₂, s₁, s₂⟩ := hs.uncons hw
      exact ⟨ih₁ _ _ h₁ hN.1.1 s₁, ih₂ _ _ h₂ hN.1.2 (s₂.push 1)⟩
  | empty _ ih =>
    intro T₀ T₁ hw hN hs
    cases hw
    exact ih _ _ .boolean (by simp [Task.collect, Form.collect, Form.named?]) hs
  | last _ ih =>
    intro T₀ T₁ hw hN hs
    simp only [Task.collect, Form.collectAll, List.append_nil] at hN
    exact ih _ _ hw hN hs
  | @next _ s _ _ _ o _ _ _ _ _ _ _ hform _ ih₁ ih₂ =>
    intro T₀ T₁ hw hN hs
    rw [Task.collect, Form.collectAll, List.forall_mem_append] at hN
    rw [List.forall_mem_append]
    obtain ⟨T₂, h₁, h₂, s₁, s₂⟩ := hs.uncons hw
    have slots : ∀ name ix, o = .slot name ix → name ∈ (T₂.scope s).declared := by
      rintro name ix rfl
      exact hform.declared_of_slot h₁ s₁.inside
    exact ⟨ih₁ _ _ h₁ hN.1 s₁, ih₂ _ _ h₂ hN.2 (s₂.kept slots)⟩
  | args _ _ ih₁ ih₂ =>
    intro T₀ T₁ hw hN hs
    rw [Task.collect, Form.collectAll, List.forall_mem_append] at hN
    rw [List.forall_mem_append]
    obtain ⟨T₂, h₁, h₂, s₁, s₂⟩ := hs.uncons hw
    exact ⟨ih₁ _ _ h₁ hN.1 s₁, ih₂ _ _ h₂ hN.2 (s₂.push 1)⟩
  | drops _ _ ih₁ ih₂ =>
    intro T₀ T₁ hw hN hs
    rw [Task.collect, Form.collectAll, List.forall_mem_append] at hN
    rw [List.forall_mem_append]
    obtain ⟨Ta, Tb, hx, h₁, hx'⟩ := hw _ List.mem_cons_self
    exact ⟨ih₁ _ _ h₁ hN.1 (hs.between hx hx'),
      ih₂ _ _ (fun f hf => hw f (List.mem_cons_of_mem _ hf)) hN.2 hs⟩
  | loop _ _ _ _ _ ih₁ ih₂ ih₃ =>
    intro T₀ T₁ hw hN hs
    simp only [Task.collect, List.forall_mem_append] at hN ⊢
    obtain ⟨Ta, Tb, hx, h₁, hx'⟩ := hw _ List.mem_cons_self
    refine ⟨⟨ih₁ _ _ h₁ hN.1 (hs.between hx hx'),
      ih₂ _ _ (fun f hf => hw f (List.mem_cons_of_mem _ hf)) hN.2 hs⟩, ?_⟩
    exact ih₃ _ _ .boolean (by simp [Task.collect, Form.collect, Form.named?])
      (hs.between hx ((h₁.extends (hx.lt hs.inside)).trans hx'))
  | constant _ hc _ _ _ ih =>
    intro T₀ T₁ hw hN hs
    obtain ⟨rfl, names, ho, hw⟩ := hw
    have hx := hw.extends Scopes.lt_size_openFunction
    exact ih _ _ ⟨T₀, _, names, hs.inside, rfl, hs.nested, ho, rfl, hw⟩ hN
      (.function hs.nested hs.inside ho hx hs.later hc.free_eq)
  | made hc _ hl _ _ _ ih =>
    intro T₀ T₁ hw hN hs
    obtain ⟨rfl, names, ho, hw⟩ := hw
    have hx := hw.extends Scopes.lt_size_openFunction
    have body := ih _ _ ⟨T₀, _, names, hs.inside, rfl, hs.nested, ho, rfl, hw⟩ hN
      (.function hs.nested hs.inside ho hx hs.later hc.free_eq)
    have later := hx.later.trans hs.later
    have opened : T₀.Extends (T₀.openFunction _ names) := Scopes.extends_openFunction hs.inside
    have inside := opened.lt hs.inside
    obtain ⟨hkind, hchain⟩ : ((T₀.openFunction _ names).scope T₀.size).kind = .function ∧ _ :=
      Scopes.openFunction_scope hs.inside
    rw [List.forall_mem_append]
    refine ⟨body, hl.traced hs.cells (fun n hn => ?_) ?_ ?_⟩
    · rw [hc.free_eq] at hn
      exact hn
    · rw [later.kind _ Scopes.lt_size_openFunction, hkind]
    · rw [later.chain Scopes.lt_size_openFunction, hchain, later.chain inside]
  | finishBlock hu _ _ ih =>
    intro T₀ T₁ hw hN hs
    simp only [Task.collect, Form.collect, List.forall_mem_append] at hN
    cases hw with
    | block hw => exact ih _ _ hw hN.1 (hs.enter (hw.extends Scopes.lt_size_push) hu)
  | finish _ _ ih => exact ih
  | code _ _ _ _ hv _ _ _ ih =>
    intro T₀ T₁ hw hN hs
    obtain ⟨_, _, _, _, _, _, _, _, hw⟩ := hw
    exact ih _ _ hw hN hs

/-- There is an access for each reference of a part of a program, in the order of the code. -/
theorem Coded.references {task : Task} {pos : Nat} {code : List Instr} {as : List Access}
    (h : Coded T W c s task v pos code as) :
    as.filterMap Access.reference? = task.collect Form.reference? s := by
  induction h with
  | made _ _ hl _ _ _ ih =>
    rw [List.filterMap_append, ih, hl.references, List.append_nil]
    rfl
  | ifThen _ ih =>
    rw [ih]
    simp [Task.collect, Form.collect, Form.reference?]
  | empty _ ih => rw [ih]; rfl
  | loop _ _ _ _ _ ih₁ ih₂ ih₃ =>
    rw [List.filterMap_append, List.filterMap_append, ih₁, ih₂, ih₃]
    simp [Task.collect, Form.collect, Form.reference?]
  | _ => simp_all [Task.collect, Form.collect, Form.collectAll, Form.reference?, Access.reference?]

/-! ## Where the accesses are -/

/-- The code object of an access is on the heap, and its instruction lies at its place. -/
structure Access.Placed (W : World) (a : Access) : Prop where
  stored : ∃ h, W.heap.code? h = some a.code
  fetch : Instr.fetch a.code.bytes a.pos = .ok a.instr

theorem Loads.placed {pos : Nat} {names : List String} {code : List Instr} {as : List Access}
    (h : Loads c s v f pos names code as) (hc : ∃ h, W.heap.code? h = some c) (hl : c.Lies pos code) :
    ∀ a ∈ as, a.Placed W := by
  induction h with
  | nil => nofun
  | cons _ _ ih =>
    intro a ha
    rcases List.mem_cons.1 ha with rfl | ha
    · exact ⟨hc, hl.fetch⟩
    · exact ih hl.tail a ha

theorem Coded.lies {label : String} {params : List String} {body : Form} {pos : Nat}
    {code : List Instr} {as : List Access}
    (h : Coded T W c f (.code label params body) v pos code as) : c.Lies pos code := by
  cases h with
  | code _ _ _ _ _ _ _ hb => exact Code.lies_of_bytes hb

theorem Coded.fetched {task : Task} {pos : Nat} {code : List Instr} {as : List Access}
    (h : Coded T W c s task v pos code as) (hc : ∃ h, W.heap.code? h = some c)
    (hl : c.Lies pos code) : ∀ a ∈ as, a.Placed W := by
  induction h with
  | number | string | boolean | noArgs | noDrops => nofun
  | reference =>
    intro a ha
    rw [List.mem_singleton.1 ha]
    exact ⟨hc, hl.fetch⟩
  | block _ _ _ ih | declare _ _ ih | finishBlock _ _ _ ih | finish _ _ ih | last _ ih | define _ _ ih =>
    exact ih hc hl.left
  | ifThen _ ih | whileLoop _ ih | lambda _ ih | empty _ ih => exact ih hc hl
  | assign _ _ ih =>
    rw [List.forall_mem_append]
    refine ⟨ih hc hl.left, fun a ha => ?_⟩
    rw [List.mem_singleton.1 ha]
    exact ⟨hc, hl.right.fetch⟩
  | ifElse _ _ ho _ _ ih₁ ih₂ ih₃ =>
    have hl₃ := hl.right.tail
    rw [Instr.total_append, Instr.total_cons, ← Nat.add_assoc, ← Nat.add_assoc] at hl₃
    simp only [List.forall_mem_append]
    exact ⟨⟨ih₁ hc hl.left.left, ih₂ hc hl.left.right.tail⟩, ih₃ hc (ho ▸ hl₃)⟩
  | forLoop _ _ ih₁ ih₂ =>
    exact List.forall_mem_append.2 ⟨ih₁ hc hl.left.left.left, ih₂ hc hl.left.right⟩
  | operation _ _ ih₁ ih₂ | call _ _ _ ih₁ ih₂ =>
    exact List.forall_mem_append.2 ⟨ih₁ hc hl.left.left, ih₂ hc hl.left.right⟩
  | next _ _ ih₁ ih₂ =>
    exact List.forall_mem_append.2 ⟨ih₁ hc hl.left.left, ih₂ hc hl.right⟩
  | args _ _ ih₁ ih₂ =>
    exact List.forall_mem_append.2 ⟨ih₁ hc hl.left, ih₂ hc hl.right⟩
  | drops _ _ ih₁ ih₂ =>
    exact List.forall_mem_append.2 ⟨ih₁ hc hl.left, ih₂ hc hl.right.tail⟩
  | loop _ _ _ hd _ ih₁ ih₂ ih₃ =>
    have hl₃ := hl.right.tail
    rw [Instr.total_append, Instr.total_cons, ← Nat.add_assoc, ← Nat.add_assoc] at hl₃
    simp only [List.forall_mem_append]
    exact ⟨⟨ih₁ hc hl.left.left, ih₂ hc hl.left.right.tail⟩, ih₃ hc (hd ▸ hl₃)⟩
  | constant _ h hcode _ _ ih => exact ih ⟨_, hcode⟩ h.lies
  | made h hcode hloads _ _ _ ih =>
    exact List.forall_mem_append.2 ⟨ih ⟨_, hcode⟩ h.lies, hloads.placed hc hl.left⟩
  | code _ _ _ _ _ _ _ _ ih =>
    have hl' := hl.left.right
    rw [Nat.zero_add] at hl'
    exact ih hc hl'

end

end ByteLisp
