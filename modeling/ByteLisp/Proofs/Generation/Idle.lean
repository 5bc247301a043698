/-
  ByteLisp: actions of code generation that need no constant.

  Most instructions have no constant as operand. What generates them leaves the heap
  and the constants of the current function as they are.

  * `Instr.constant?` is the constant that an instruction pushes, and `constantsOf` are
    those of some instructions, in order;
  * `Emit.Idle`: an action changes neither the heap nor the constants;
  * `Emit.Quiet`: an idle action whose instructions push no constant.
-/
import ByteLisp.Proofs.Generation.Growth

namespace ByteLisp

/-! ## The constants that code pushes -/

/-- The place of the constant that an instruction pushes. -/
def Instr.constant? : Instr → Option UInt8
  | .const ix => some ix
  | _ => none

/-- The places of the constants that some instructions push, in order. -/
def constantsOf (code : List Instr) : List UInt8 := code.filterMap Instr.constant?

@[simp] theorem constantsOf_nil : constantsOf [] = [] := rfl

@[simp] theorem constantsOf_append (is js : List Instr) :
    constantsOf (is ++ js) = constantsOf is ++ constantsOf js := List.filterMap_append

theorem constantsOf_cons (i : Instr) (is : List Instr) :
    constantsOf (i :: is) = i.constant?.toList ++ constantsOf is := by
  cases h : i.constant? <;> simp [constantsOf, h]

namespace Emit

variable {α β : Type}

/-! ## Idle actions -/

/-- An action that, if it succeeds, changes neither the heap nor the constants. -/
structure Idle (x : Emit α) : Prop where
  ok : ∀ {e a e'}, x e = .ok a e' → e'.heap = e.heap ∧ e'.draft.constants = e.draft.constants

theorem idle_bind {x : Emit α} {f : α → Emit β} (hx : Idle x) (hf : ∀ a, Idle (f a)) :
    Idle (x >>= f) where
  ok h := by
    obtain ⟨a, e₁, h₁, h₂⟩ := bind_ok.1 h
    obtain ⟨hh₁, hc₁⟩ := hx.ok h₁
    obtain ⟨hh₂, hc₂⟩ := (hf a).ok h₂
    exact ⟨hh₂.trans hh₁, hc₂.trans hc₁⟩

theorem idle_pure (a : α) : Idle (pure a : Emit α) where
  ok h := by
    obtain ⟨-, rfl⟩ := pure_ok.1 h
    exact ⟨rfl, rfl⟩

theorem idle_throw (err : CompileError) : Idle (throw err : Emit α) :=
  ⟨fun h => (throw_ok.1 h).elim⟩

theorem idle_ite {p : Prop} [Decidable p] {x y : Emit α} (hx : Idle x) (hy : Idle y) :
    Idle (if p then x else y) := by
  split
  · exact hx
  · exact hy

theorem idle_map {f : α → β} {x : Emit α} (hx : Idle x) : Idle (f <$> x) where
  ok h := by
    obtain ⟨a, h, -⟩ := map_ok.1 h
    exact hx.ok h

/-- An action that at each emission does what some idle action does. -/
theorem idle_of_forall {x : Emit α} (h : ∀ e, ∃ y : Emit α, Idle y ∧ x e = y e) : Idle x where
  ok {e a e'} he := by
    obtain ⟨y, hy, hxy⟩ := h e
    exact hy.ok (hxy ▸ he)

theorem idle_draft : Idle draft where
  ok h := by
    obtain ⟨-, rfl⟩ := draft_ok.1 h
    exact ⟨rfl, rfl⟩

/-- A change of the draft that leaves the constants as they are. -/
theorem idle_update {f : Draft → Draft} (hf : ∀ d, (f d).constants = d.constants) :
    Idle (update f) where
  ok h := by
    cases update_ok.1 h
    exact ⟨rfl, hf _⟩

theorem idle_grow {n : Nat} : Idle (update (·.grow n)) := idle_update fun _ => rfl

theorem idle_shrink {n : Nat} : Idle (update (·.shrink n)) := idle_update fun _ => rfl

theorem idle_instr (i : Instr) : Idle (instr i) :=
  idle_bind (idle_update fun _ => rfl) fun _ => idle_pure _

theorem idle_reserve : Idle reserve := idle_update fun _ => rfl

theorem idle_address : Idle address :=
  idle_bind idle_draft fun _ => idle_ite (idle_pure _) (idle_throw _)

theorem idle_addressOf (offset : Nat) : Idle (addressOf offset) :=
  idle_ite (idle_pure _) (idle_bind idle_draft fun _ => idle_throw _)

theorem idle_placeOperand (n : Nat) : Idle (placeOperand n) :=
  idle_ite (idle_pure _) (idle_bind idle_draft fun _ => idle_throw _)

theorem idle_countOperand (n : Nat) (whole : Form) (why : Malformation) :
    Idle (countOperand n whole why) := idle_ite (idle_pure _) (idle_throw _)

theorem idle_defineGlobal (name : String) : Idle (defineGlobal name) :=
  ⟨fun h => by cases h; exact ⟨rfl, rfl⟩⟩

theorem idle_globalCheck (ix : Nat) : Idle (globalIndex.check ix) :=
  idle_ite (idle_pure _) (idle_throw _)

theorem idle_globalIndex (T : Scopes) (name : String) : Idle (globalIndex T name) := by
  refine idle_of_forall fun e => ?_
  rw [globalIndex_apply]
  split
  · exact ⟨_, idle_globalCheck _, rfl⟩
  · split
    · exact ⟨_, idle_bind (idle_defineGlobal name) fun _ => idle_globalCheck _, rfl⟩
    · exact ⟨_, idle_throw _, rfl⟩

theorem idle_slotIndex (name : String) : Idle (slotIndex name) := by
  refine idle_bind idle_draft fun d => ?_
  split
  · exact idle_placeOperand _
  · exact idle_throw _

theorem idle_cellIndex (name : String) : Idle (cellIndex name) := by
  refine idle_bind idle_draft fun d => ?_
  split
  · exact idle_placeOperand _
  · exact idle_throw _

theorem constants_addBlockCells (d : Draft) (names : List String) :
    (d.addBlockCells names).constants = d.constants := by
  unfold Draft.addBlockCells
  induction names generalizing d with
  | nil => rfl
  | cons name names ih => exact ih _

theorem constants_addLocals (d : Draft) (slot : Nat) (names : List String) :
    (d.addLocals slot names).constants = d.constants := by
  induction names generalizing d slot with
  | nil => rfl
  | cons name names ih => exact ih _ _

/-! ## Quiet actions -/

/-- An idle action whose instructions, which `π` takes from its result, push no constant. -/
structure Quiet (π : α → List Instr) (x : Emit α) : Prop extends Idle x where
  code : ∀ {e a e'}, x e = .ok a e' → constantsOf (π a) = []

variable {π : α → List Instr} {ρ : β → List Instr}

/-- An idle action before a quiet one. -/
theorem quiet_bind {x : Emit α} {f : α → Emit β} (hx : Idle x) (hf : ∀ a, Quiet ρ (f a)) :
    Quiet ρ (x >>= f) where
  toIdle := idle_bind hx fun a => (hf a).toIdle
  code h := by
    obtain ⟨a, e₁, -, h₂⟩ := bind_ok.1 h
    exact (hf a).code h₂

/-- A quiet action before another one whose instructions include those of the first. -/
theorem quiet_append {x : Emit α} {f : α → Emit β} (hx : Quiet π x)
    (hf : ∀ a, constantsOf (π a) = [] → Quiet ρ (f a)) : Quiet ρ (x >>= f) where
  ok h := by
    obtain ⟨a, e₁, h₁, h₂⟩ := bind_ok.1 h
    obtain ⟨hh₁, hc₁⟩ := hx.ok h₁
    obtain ⟨hh₂, hc₂⟩ := (hf a (hx.code h₁)).ok h₂
    exact ⟨hh₂.trans hh₁, hc₂.trans hc₁⟩
  code h := by
    obtain ⟨a, e₁, h₁, h₂⟩ := bind_ok.1 h
    exact (hf a (hx.code h₁)).code h₂

theorem quiet_pure {b : β} (h : constantsOf (ρ b) = []) : Quiet ρ (pure b) where
  toIdle := idle_pure b
  code hb := by
    obtain ⟨rfl, -⟩ := pure_ok.1 hb
    exact h

theorem quiet_throw (err : CompileError) : Quiet ρ (throw err) where
  toIdle := idle_throw err
  code h := (throw_ok.1 h).elim

theorem quiet_ite {p : Prop} [Decidable p] {x y : Emit α} (hx : Quiet π x) (hy : Quiet π y) :
    Quiet π (if p then x else y) := by
  split
  · exact hx
  · exact hy

/-- An action that at each emission does what some quiet action does. -/
theorem quiet_of_forall {x : Emit α} (h : ∀ e, ∃ y : Emit α, Quiet π y ∧ x e = y e) : Quiet π x where
  toIdle := idle_of_forall fun e => (h e).imp fun _ hy => ⟨hy.1.toIdle, hy.2⟩
  code {e a e'} he := by
    obtain ⟨y, hy, hxy⟩ := h e
    exact hy.code (hxy ▸ he)

theorem quiet_instr {i : Instr} (h : i.constant? = none) : Quiet id (instr i) where
  toIdle := idle_instr i
  code hi := by
    obtain ⟨rfl, -⟩ := instr_ok.1 hi
    simp [constantsOf, h]

theorem quiet_map {f : α → β} {x : Emit α} (hx : Idle x) (h : ∀ a, constantsOf (ρ (f a)) = []) :
    Quiet ρ (f <$> x) where
  toIdle := idle_map hx
  code hb := by
    obtain ⟨a, -, rfl⟩ := map_ok.1 hb
    exact h a

/-- The code of an access to a variable: the instruction depends on where the variable is. -/
theorem quiet_variable {x : Emit Instr} {f : Instr → Emit (List Instr)}
    (hx : Quiet (fun i => [i]) x) (hf : ∀ i, i.constant? = none → Quiet id (f i)) :
    Quiet id (x >>= f) := by
  refine quiet_append hx fun i hi => hf i ?_
  simpa [constantsOf] using hi

theorem quiet_read (T : Scopes) (s : ScopeId) (name : String) (binding : Binding) :
    Quiet id (read T s name binding) := by
  have rest (i : Instr) (hi : i.constant? = none) : Quiet id (do update (·.grow 1); instr i) :=
    quiet_bind idle_grow fun _ => quiet_instr hi
  unfold read
  dsimp only
  split
  · exact quiet_variable (quiet_map (idle_globalIndex T name) fun _ => rfl) rest
  · exact quiet_variable (quiet_map (idle_slotIndex name) fun _ => rfl) rest
  · exact quiet_variable (quiet_map (idle_cellIndex name) fun _ => rfl) rest

theorem quiet_write (T : Scopes) (s : ScopeId) (name : String) (binding : Binding) :
    Quiet id (write T s name binding) := by
  have rest (i : Instr) (hi : i.constant? = none) : Quiet id (instr i) := quiet_instr hi
  unfold write
  dsimp only
  split
  · exact quiet_variable (quiet_map (idle_globalIndex T name) fun _ => rfl) rest
  · exact quiet_variable (quiet_map (idle_slotIndex name) fun _ => rfl) rest
  · exact quiet_variable (quiet_map (idle_cellIndex name) fun _ => rfl) rest

theorem quiet_declare (T : Scopes) (s : ScopeId) (whole : Form) (name : String) (direct : Bool) :
    Quiet Prod.snd (declare T s whole name direct) := by
  have single {i : Instr} (hi : i.constant? = none) (effect : Effect) :
      Quiet Prod.snd (do return (effect, ← instr i) : Emit (Effect × List Instr)) :=
    quiet_append (quiet_instr hi) fun _ h => quiet_pure h
  unfold declare
  split
  · refine quiet_of_forall fun e => ⟨do
      defineGlobal name
      let ix ← globalIndex.check (e.globals.define name).1
      return (.value, ← instr (.setGlobal ix)), ?_, rfl⟩
    exact quiet_bind (idle_defineGlobal name) fun _ => quiet_bind (idle_globalCheck _) fun _ =>
      single rfl _
  · refine quiet_bind (idle_cellIndex name) fun ix => quiet_append (quiet_instr rfl) fun store hs =>
      quiet_append (quiet_instr rfl) fun pop hp => quiet_bind idle_shrink fun _ => ?_
    simp only [id_eq] at hs hp
    refine quiet_ite (quiet_pure (by simp [hs, hp])) (quiet_bind idle_grow fun _ => ?_)
    exact quiet_append (quiet_instr rfl) fun get hg => quiet_pure (by simp_all)
  · refine quiet_ite ?_ (quiet_throw _)
    exact quiet_bind idle_draft fun _ => quiet_bind (idle_update fun _ => rfl) fun _ =>
      quiet_bind (idle_placeOperand _) fun _ => single rfl _

theorem quiet_discard : Quiet id discard := quiet_bind idle_shrink fun _ => quiet_instr rfl

theorem quiet_exit (n : Nat) (whole : Form) : Quiet id (exit n whole) :=
  quiet_ite (quiet_pure rfl) (quiet_bind (idle_countOperand _ _ _) fun _ =>
    quiet_bind idle_shrink fun _ => quiet_instr rfl)

theorem quiet_moveCaptured (sc : Scope) (slot : Nat) (names : List String) :
    Quiet id (moveCaptured sc slot names) := by
  induction names generalizing slot with
  | nil => exact quiet_pure rfl
  | cons name names ih =>
    refine quiet_ite ?_ (ih (slot + 1))
    refine quiet_bind (idle_placeOperand _) fun _ => quiet_bind (idle_cellIndex _) fun _ => ?_
    refine quiet_append (quiet_instr rfl) fun get hg => quiet_append (quiet_instr rfl) fun set hs =>
      quiet_append (quiet_instr rfl) fun pop hp => quiet_append (ih (slot + 1)) fun code hc => ?_
    exact quiet_pure (by simp_all)

theorem quiet_loadCells (names : List String) : Quiet id (loadCells names) := by
  induction names with
  | nil => exact quiet_pure rfl
  | cons name names ih =>
    refine quiet_bind (idle_cellIndex _) fun _ => quiet_bind idle_grow fun _ => ?_
    refine quiet_append (quiet_instr rfl) fun load hl => quiet_append ih fun code hc => ?_
    exact quiet_pure (by simp_all)

end Emit

end ByteLisp
