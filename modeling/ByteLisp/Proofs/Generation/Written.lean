/-
  ByteLisp: code generation never stops at an impossible step.

  The generator that writes bytes (`Write`) does what `Emit` does: it takes no value
  that the stack does not have, patches only what it has written, always has a function
  to work on, and finds the cell of each captured variable.

  * `Emission.Ready`: where an emission stands, and that the cells which the scope
    supplies are in view;
  * `Writes` says that an action of one generator agrees with one of the other from
    there on; one lemma for each action leads to `write_writes`;
  * `Expr.compile_faultless` is the result for programs.
-/
import ByteLisp.Proofs.Generation.Agree
import ByteLisp.Proofs.Generation.Emitted
import ByteLisp.Proofs.Scope.Supplied

namespace ByteLisp

/-- The cells that a scope supplies are in view. -/
def View.Stocked (T : Scopes) (s : ScopeId) (v : View) : Prop :=
  ∀ name, T.Supplies s name → ∃ ix, v.cell? name = some ix

theorem View.exists_cell? {v : View} {name : String} :
    (∃ ix, v.cell? name = some ix) ↔ ∃ x ∈ v.cells, x.name = name := by
  rw [← Option.isSome_iff_exists, cell?, Option.isSome_map, List.find?_isSome]
  simp

/-- Each name gets a place among new cells. -/
theorem exists_numbered {names : List String} {name : String} (ix level : Nat) (h : name ∈ names) :
    ∃ x ∈ ((names.zipIdx ix).map fun c => InView.mk c.1 c.2 level).reverse, x.name = name := by
  rw [← List.zipIdx_map_fst ix names, List.mem_map] at h
  obtain ⟨c, hc, rfl⟩ := h
  exact ⟨⟨c.1, c.2, level⟩, List.mem_reverse.2 (List.mem_map_of_mem hc), rfl⟩

/-- Where an emission stands after some bytes. -/
structure Emission.Ready (T : Scopes) (s : ScopeId) (v : View) (bytes : List UInt8) (e : Emission) :
    Prop extends e.At v bytes.length where
  leveled : v.Leveled
  stocked : v.Stocked T s

/-- The generator that writes bytes has written some code. -/
def Wrote (bytes : List UInt8) (frames : List Write.Frame) (code : List Instr) (e : Emission) (_ : Unit)
    (w : Writing) : Prop := w = e.writing (bytes ++ code.flatMap Instr.encode) frames

/-- The generator that writes bytes has written the code of a form. -/
def WroteForm (bytes : List UInt8) (frames : List Write.Frame) (r : Effect × List Instr) (e : Emission)
    (effect : Effect) (w : Writing) : Prop :=
  r.1 = effect ∧ Wrote bytes frames r.2 e () w

/-! ## Actions for parts of a program -/

/-- Two actions give the same code of a part of a program, which pushes `n` values. -/
structure Writes (T : Scopes) (s : ScopeId) (task : Task) (n : Nat) (x : Emit (List Instr))
    (y : Write Unit) : Prop where
  yields : ∀ W, Yields T W s task (·.push n) x
  agree : ∀ {e v bytes frames}, e.Ready T s v bytes →
    Agree x y e (e.writing bytes frames) (Wrote bytes frames)

/-- Two actions give the same code of a form. -/
structure WritesForm (T : Scopes) (s : ScopeId) (direct : Bool) (f : Form)
    (x : Emit (Effect × List Instr)) (y : Write Effect) : Prop where
  yields : ∀ W, YieldsForm T W s direct f x
  agree : ∀ {e v bytes frames}, e.Ready T s v bytes →
    Agree x y e (e.writing bytes frames) (WroteForm bytes frames)

/-- Two actions give the same code of the forms of a block. -/
structure WritesBody (T : Scopes) (s : ScopeId) (fs : List Form) (x : Emit (List Instr))
    (y : Write Unit) : Prop where
  yields : ∀ W, YieldsBody T W s fs x
  agree : ∀ {e v bytes frames}, e.Ready T s v bytes →
    Agree x y e (e.writing bytes frames) (Wrote bytes frames)

/-- Two actions give the same code of the body of a function. -/
structure WritesFinish (T : Scopes) (s : ScopeId) (params : List String) (body : Form)
    (x : Emit (List Instr)) (y : Write Unit) : Prop where
  yields : ∀ W, YieldsFinish T W s params body x
  agree : ∀ {e bytes frames} {v : View}, e.Ready T s (v.push (params.length + 1)) bytes → v.Leveled →
    Agree x y e (e.writing bytes frames) (Wrote bytes frames)

section

variable {T : Scopes} {s b f : ScopeId} {task : Task} {n : Nat} {x : Emit (List Instr)} {y : Write Unit}
  {e e' : Emission} {v v' : View} {bytes bytes' : List UInt8} {frames : List Write.Frame}
  {code : List Instr} {direct : Bool} {form : Form}

theorem wrote_of_eq {u : Unit} (h : bytes' = bytes ++ code.flatMap Instr.encode) :
    Wrote bytes frames code e u (e.writing bytes' frames) := by
  subst h
  rfl

/-- What is generated so far is part of itself. -/
theorem Emission.within_self (e : Emission) : e.Within e.world (e.draft.finish []) :=
  ⟨fun _ _ h => h, fun _ _ h => h, fun _ _ h => h, fun _ _ h => h, rfl⟩

theorem Emission.At.depth {pos : Nat} (h : e.At v pos) : e.draft.depth = v.depth :=
  congrArg View.depth h.view

theorem View.Stocked.of_cells (h : v.Stocked T s) (hc : v'.cells = v.cells) : v'.Stocked T s := by
  intro name hn
  rw [cell?, hc]
  exact h name hn

/-- The emission is ready where the cells in view are the same. -/
theorem Emission.Ready.next (h : e.Ready T s v bytes) (ha : e'.At v' bytes'.length)
    (hl : v'.Leveled) (hc : v'.cells = v.cells) : e'.Ready T s v' bytes' :=
  ⟨ha, hl, h.stocked.of_cells hc⟩

theorem length_wrote (bytes : List UInt8) (code : List Instr) :
    bytes.length + Instr.total code = (bytes ++ code.flatMap Instr.encode).length := by
  rw [List.length_append, Instr.length_flatMap_encode]

theorem Emission.Ready.one_le (h : e.Ready T s (v.push 1) bytes) : 1 ≤ e.draft.depth :=
  h.depth ▸ Nat.le_add_left ..

/-- A test is taken off the stack by a jump. -/
theorem Emission.Ready.jumped (h : e.Ready T s (v.push 1) bytes) (hl : v.Leveled) {i : Instr}
    (hi : i.size = 3) : Emission.Ready T s v (bytes ++ i.encode)
      { e with draft := (e.draft.advance 3).shrink 1 } := by
  refine h.next ⟨Emit.view_drop h.view, ?_, h.named⟩ hl rfl
  rw [List.length_append, Instr.length_encode, hi]
  exact congrArg (· + 3) h.offset

theorem Writes.ready (h : Writes T s task n x y) (hr : e.Ready T s v bytes) (hx : x e = .ok code e') :
    e'.Ready T s (v.push n) (bytes ++ code.flatMap Instr.encode) := by
  obtain ⟨ha, -⟩ := (h.yields e'.world).ok hx hr.toAt hr.leveled e'.within_self
  rw [length_wrote] at ha
  exact hr.next ha (hr.leveled.push n) rfl

theorem View.cells_after (v : View) (o : Outcome) : (v.after o).cells = v.cells := by
  cases o <;> rfl

theorem View.Leveled.after (h : v.Leveled) (o : Outcome) : (v.after o).Leveled := by
  cases o with
  | value => exact h.push 1
  | slot name ix => exact h.bind name
  | cell name ix => exact h

theorem WritesForm.ready {y : Write Effect} {x : Emit (Effect × List Instr)} {effect : Effect}
    (h : WritesForm T s direct form x y) (hr : e.Ready T s v bytes)
    (hx : x e = .ok (effect, code) e') :
    ∃ o : Outcome, o.effect = effect ∧
      e'.Ready T s (v.after o) (bytes ++ code.flatMap Instr.encode) := by
  obtain ⟨o, ho, -, ha, -⟩ := (h.yields e'.world).ok hx hr.toAt hr.leveled e'.within_self
  rw [length_wrote] at ha
  exact ⟨o, ho, hr.next ha (hr.leveled.after o) (v.cells_after o)⟩

end

namespace Emit

/-! ## Actions that write no code -/

section

variable {α β : Type} {T : Scopes} {name : String} {e : Emission}

/-- An action does not end with a fault of the compiler. -/
def Faultless (x : Emit α) : Prop := ∀ e err e', x e = .error err e' → err.isFault = false

theorem faultless_pure (a : α) : Faultless (pure a : Emit α) := fun _ _ _ h => nomatch h

theorem faultless_throw {err : CompileError} (h : err.isFault = false) :
    Faultless (throw err : Emit α) := by
  intro e err' e' he
  cases he
  exact h

theorem faultless_bind {x : Emit α} {f : α → Emit β} (hx : Faultless x)
    (hf : ∀ a, Faultless (f a)) : Faultless (x >>= f) := by
  intro e err e' h
  rcases bind_error.1 h with h | ⟨a, e₁, -, h⟩
  · exact hx e err e' h
  · exact hf a e₁ err e' h

theorem faultless_ite {p : Prop} [Decidable p] {x y : Emit α} (hx : Faultless x)
    (hy : Faultless y) : Faultless (if p then x else y) := by
  split
  · exact hx
  · exact hy

theorem faultless_draft : Faultless draft := fun _ _ _ h => nomatch h

theorem faultless_modify (g : Emission → Emission) : Faultless (modify g : Emit Unit) :=
  fun _ _ _ h => nomatch h

theorem faultless_placeOperand (n : Nat) : Faultless (placeOperand n) :=
  faultless_ite (faultless_pure _) (faultless_bind faultless_draft fun _ => faultless_throw rfl)

theorem faultless_countOperand (n : Nat) (whole : Form) {why : Malformation}
    (h : why.isFault = false) : Faultless (countOperand n whole why) :=
  faultless_ite (faultless_pure _) (faultless_throw h)

theorem faultless_constantIndex (v : Value) : Faultless (constantIndex v) := by
  have check (name ix) : Faultless (constantIndex.check name ix) :=
    faultless_ite (faultless_pure _) (faultless_throw rfl)
  intro e err e' h
  rw [constantIndex_apply] at h
  split at h
  · exact check _ _ _ _ _ h
  · exact faultless_bind (faultless_modify _) (fun _ => check _ _) _ _ _ h

theorem faultless_globalCheck (ix : Nat) : Faultless (globalIndex.check ix) :=
  faultless_ite (faultless_pure _) (faultless_throw rfl)

theorem faultless_globalIndex (T : Scopes) (name : String) : Faultless (globalIndex T name) := by
  intro e err e' h
  rw [globalIndex_apply] at h
  split at h
  · exact faultless_globalCheck _ _ _ _ h
  · split at h
    · exact faultless_bind (faultless_modify _) (fun _ => faultless_globalCheck _) _ _ _ h
    · cases h
      rfl

theorem faultless_slotIndex (name : String) : Faultless (slotIndex name) := by
  refine faultless_bind faultless_draft fun d => ?_
  split
  · exact faultless_placeOperand _
  · exact faultless_throw rfl

/-- The cell of a variable is found if it is in view. -/
theorem faultless_cellIndex (h : ∃ ix, e.draft.cell? name = some ix) {err : CompileError}
    {e' : Emission} (he : cellIndex name e = .error err e') : err.isFault = false := by
  obtain ⟨ix, hix⟩ := h
  unfold cellIndex at he
  rcases bind_error.1 he with he | ⟨d, e₁, hd, he⟩
  · exact faultless_draft e err e' he
  · obtain ⟨rfl, rfl⟩ := draft_ok.1 hd
    rw [hix] at he
    exact faultless_placeOperand ix _ err e' he

end

end Emit

namespace Write

section

variable {T : Scopes} {s b f : ScopeId} {e e' : Emission} {v : View} {bytes : List UInt8}
  {frames : List Frame} {name : String} {binding : Binding} {whole : Form} {direct : Bool}

theorem agree_cellIndex (h : ∃ ix, e.draft.cell? name = some ix) :
    Agree (Emit.cellIndex name) (lift (Emit.cellIndex name)) e (e.writing bytes frames)
      fun a e' b w' => a = b ∧ w' = e'.writing bytes frames :=
  agree_lift fun _ _ => Emit.faultless_cellIndex h

/-! ## Constants and variables -/

theorem agree_constant (value : Value) :
    Agree (Emit.constant value) (constant value) e (e.writing bytes frames) (Wrote bytes frames) := by
  unfold Emit.constant constant
  refine agree_bind (agree_lift (Emit.faultless_constantIndex value _)) ?_
  rintro ix e₁ _ _ - ⟨rfl, rfl⟩
  exact agree_right (instr_writing _) (agree_ok rfl put_writing (wrote_of_eq (by simp)))

/-- The instruction of a variable is found by the same action. -/
theorem agree_operand {index : Emit UInt8} {i : UInt8 → Instr}
    (h : ∀ err e', index e = .error err e' → err.isFault = false) :
    Agree (i <$> index) (lift index) e (e.writing bytes frames) fun c e' ix w' =>
      c = i ix ∧ w' = e'.writing bytes frames := by
  refine (agree_map (agree_lift h)).mono ?_
  rintro _ e' ix _ - ⟨_, rfl, rfl, rfl⟩
  exact ⟨rfl, rfl⟩

theorem agree_read (hc : T.storageOf s name binding = .cell → ∃ ix, e.draft.cell? name = some ix) :
    Agree (Emit.read T s name binding) (read T s name binding) e (e.writing bytes frames)
      (Wrote bytes frames) := by
  have rest (i : UInt8 → Instr) {index : Emit UInt8}
      (h : ∀ err e', index e = .error err e' → err.isFault = false) :
      Agree (do let i ← i <$> index; Emit.update (·.grow 1); Emit.instr i)
        (do instr (i (← lift index)); put) e (e.writing bytes frames) (Wrote bytes frames) := by
    refine agree_bind (agree_operand h) ?_
    rintro _ e₁ ix _ - ⟨rfl, rfl⟩
    exact agree_right (instr_writing _) (agree_ok rfl put_writing (wrote_of_eq (by simp)))
  unfold Emit.read read
  dsimp only
  cases hs : T.storageOf s name binding with
  | global => exact rest _ (Emit.faultless_globalIndex T name e)
  | slot => exact rest _ (Emit.faultless_slotIndex name e)
  | cell => exact rest _ fun _ _ => Emit.faultless_cellIndex (hc hs)

theorem agree_store (hc : T.storageOf s name binding = .cell → ∃ ix, e.draft.cell? name = some ix) :
    Agree (Emit.write T s name binding) (store T s name binding) e (e.writing bytes frames)
      (Wrote bytes frames) := by
  have rest (i : UInt8 → Instr) {index : Emit UInt8}
      (h : ∀ err e', index e = .error err e' → err.isFault = false) :
      Agree (do let i ← i <$> index; Emit.instr i) (do instr (i (← lift index))) e
        (e.writing bytes frames) (Wrote bytes frames) := by
    refine agree_bind (agree_operand h) ?_
    rintro _ e₁ ix _ - ⟨rfl, rfl⟩
    exact agree_ok rfl (instr_writing _) (wrote_of_eq (by simp))
  unfold Emit.write store
  dsimp only
  cases hs : T.storageOf s name binding with
  | global => exact rest _ (Emit.faultless_globalIndex T name e)
  | slot => exact rest _ (Emit.faultless_slotIndex name e)
  | cell => exact rest _ fun _ _ => Emit.faultless_cellIndex (hc hs)

/-- A variable is declared where there is a value that it gets. -/
theorem agree_declare (hd : 0 < e.draft.depth)
    (hc : T.storageOf s name .unbound = .cell → ∃ ix, e.draft.cell? name = some ix) :
    Agree (Emit.declare T s whole name direct) (declare T s whole name direct) e
      (e.writing bytes frames) (WroteForm bytes frames) := by
  unfold Emit.declare declare
  cases hs : T.storageOf s name .unbound with
  | global =>
    have define : Emit.Faultless (define name) := fun e err e' h =>
      Emit.faultless_globalCheck (e.globals.define name).1 _ err e' h
    change Agree (do
      let ix ← Write.define name
      return (Effect.value, ← Emit.instr (.setGlobal ix)) : Emit (Effect × List Instr)) _ _ _ _
    refine agree_bind (agree_lift (define e)) ?_
    rintro ix e₁ _ _ - ⟨rfl, rfl⟩
    exact agree_right (instr_writing _) (agree_ok rfl rfl ⟨rfl, wrote_of_eq (by simp)⟩)
  | cell =>
    dsimp only
    refine agree_bind (agree_cellIndex (hc hs)) ?_
    rintro ix e₁ _ _ h₁ ⟨rfl, rfl⟩
    obtain ⟨-, rfl⟩ := Emit.cellIndex_ok h₁
    refine agree_right (instr_writing _) (agree_right (instr_writing _) ?_)
    refine agree_right (take_writing hd) ?_
    cases direct with
    | true => exact agree_ok rfl rfl ⟨rfl, wrote_of_eq (by simp)⟩
    | false =>
      refine agree_right (instr_writing _) (agree_right put_writing ?_)
      exact agree_ok rfl rfl ⟨rfl, wrote_of_eq (by simp)⟩
  | slot =>
    cases direct with
    | false => exact agree_error rfl rfl rfl ⟨rfl, rfl, rfl⟩
    | true =>
      dsimp only
      rw [if_pos rfl, if_pos rfl]
      refine agree_left Emit.draft_apply (agree_right frame_writing ?_)
      dsimp only
      rw [if_neg (Nat.ne_of_gt hd)]
      refine agree_left Emit.update_apply
        (agree_right (update_draft (g := (·.addLocal name (e.draft.depth - 1)))) ?_)
      refine agree_bind (agree_lift (Emit.faultless_placeOperand _ _)) ?_
      rintro ix e₁ _ _ - ⟨rfl, rfl⟩
      exact agree_right (instr_writing _) (agree_ok rfl rfl ⟨rfl, wrote_of_eq (by simp)⟩)

theorem agree_discard (hd : 0 < e.draft.depth) :
    Agree Emit.discard discard e (e.writing bytes frames) (Wrote bytes frames) :=
  agree_right (instr_writing _) (agree_ok rfl (take_writing hd) (wrote_of_eq (by simp)))

end

/-! ## Operators, choices and loops -/

section

variable {T : Scopes} {s b f : ScopeId} {task : Task} {direct : Bool} {form g : Form} {fs : List Form}
  {x₁ y₁ z₁ : Emit (List Instr)} {x₂ y₂ z₂ : Write Unit} {w₁ : Emit (Effect × List Instr)}
  {w₂ : Write Effect}

theorem writes_only (h : WritesForm T s false form w₁ w₂) :
    Writes T s (.form false form .value) 1 (Emit.only w₁) (only w₂) where
  yields W := Emit.yields_only (h.yields W)
  agree hr := by
    refine agree_bind (h.agree hr) ?_
    rintro ⟨eff, code⟩ e' _ _ - ⟨rfl, rfl⟩
    exact agree_ok rfl rfl rfl

theorem writes_valued (h : Writes T s (.form direct form .value) 1 x₁ x₂) :
    WritesForm T s direct form (Emit.valued x₁) (valued x₂) where
  yields W := Emit.yields_valued (h.yields W)
  agree hr := by
    refine agree_bind (h.agree hr) ?_
    rintro code e' _ _ - rfl
    exact agree_ok rfl rfl ⟨rfl, rfl⟩

theorem writes_constant {value : Value}
    (hy : ∀ W, Yields T W s (.form direct form .value) (·.push 1) (Emit.constant value)) :
    Writes T s (.form direct form .value) 1 (Emit.constant value) (constant value) :=
  ⟨hy, fun _ => agree_constant value⟩

theorem writes_imp {n : Nat} {task' : Task} (h : Writes T s task n x₁ x₂)
    (hc : ∀ {W c v pos code as}, Coded T W c s task v pos code as →
      Coded T W c s task' v pos code as) : Writes T s task' n x₁ x₂ :=
  ⟨fun W => Emit.yields_imp (h.yields W) hc, h.agree⟩

theorem writes_operation {op : Operator} (hx : Writes T s (.form false form .value) 1 x₁ x₂)
    (hy : Writes T s (.form false g .value) 1 y₁ y₂) :
    Writes T s (.form direct (.operation op form g) .value) 1 (Emit.operation op x₁ y₁)
      (operation op x₂ y₂) where
  yields W := Emit.yields_operation (hx.yields W) (hy.yields W)
  agree {e v bytes frames} hr := by
    unfold Emit.operation operation
    refine agree_bind (hx.agree hr) ?_
    rintro first e₁ _ _ h₁ rfl
    have r₁ := hx.ready hr h₁
    refine agree_bind (hy.agree r₁) ?_
    rintro second e₂ _ _ h₂ rfl
    have r₂ := hy.ready r₁ h₂
    refine agree_right (instr_writing _) (agree_ok rfl (take_writing ?_) (wrote_of_eq (by simp)))
    exact r₂.depth ▸ Nat.le_add_left ..

theorem writes_branch {test thn els : Form} (hx : Writes T s (.form false test .value) 1 x₁ x₂)
    (hy : Writes T s (.form false thn .value) 1 y₁ y₂)
    (hz : Writes T s (.form false els .value) 1 z₁ z₂) :
    Writes T s (.form direct (.ifElse test thn els) .value) 1 (Emit.branch x₁ y₁ z₁)
      (branch x₂ y₂ z₂) where
  yields W := Emit.yields_branch (hx.yields W) (hy.yields W) (hz.yields W)
  agree {e v bytes frames} hr := by
    unfold Emit.branch branch
    refine agree_bind (hx.agree hr) ?_
    rintro asked e₁ _ _ h₁ rfl
    have r₁ := hx.ready hr h₁
    refine agree_left Emit.update_apply (agree_right (jump_writing fun _ => rfl) ?_)
    refine agree_left Emit.update_apply (agree_right (take_writing r₁.one_le) ?_)
    refine agree_left Emit.draft_apply (agree_right frame_writing ?_)
    have r₂ := r₁.jumped hr.leveled (i := .jumpIfFalse 0) rfl
    refine agree_bind (hy.agree r₂) ?_
    rintro consequent e₂ _ _ h₂ rfl
    have r₃ := hy.ready r₂ h₂
    refine agree_left Emit.update_apply (agree_right (jump_writing fun _ => rfl) ?_)
    have o₃ : e₂.draft.offset + 3 = (bytes ++ asked.flatMap Instr.encode ++
        (Instr.jumpIfFalse 0).encode ++ consequent.flatMap Instr.encode ++
        (Instr.jump 0).encode).length := by
      rw [List.length_append, ← r₃.offset]
      rfl
    refine agree_bind (agree_patch .jumpIfFalse (bytes ++ asked.flatMap Instr.encode)
      (consequent.flatMap Instr.encode ++ (Instr.jump 0).encode) (fun _ => rfl) (by simp) rfl
      o₃) ?_
    rintro otherwise _ _ _ - ⟨rfl, rfl⟩
    refine agree_left Emit.update_apply (agree_right
      (update_draft (g := fun d => { d with depth := (e₁.draft.shrink 1).depth })) ?_)
    have r₄ : Emission.Ready T s v (bytes ++ asked.flatMap Instr.encode ++
        (Instr.jumpIfFalse otherwise).encode ++ (consequent.flatMap Instr.encode ++
        (Instr.jump 0).encode)) { e₂ with
          draft := { e₂.draft.advance 3 with depth := (e₁.draft.shrink 1).depth } } := by
      refine r₃.next ⟨?_, ?_, r₃.named⟩ hr.leveled rfl
      · change { e₂.draft.view with depth := (e₁.draft.shrink 1).view.depth } = v
        rw [r₃.view, Emit.view_drop r₁.view]
        rfl
      · refine o₃.trans ?_
        rw [← length_jump (i := .jumpIfFalse) (fun _ => rfl) _ _ 0]
        simp
    refine agree_bind (hz.agree r₄) ?_
    rintro alternate e₃ _ _ h₃ rfl
    have r₅ := hz.ready r₄ h₃
    refine agree_then (agree_patch .jump (bytes ++ asked.flatMap Instr.encode ++
      (Instr.jumpIfFalse otherwise).encode ++ consequent.flatMap Instr.encode)
      (alternate.flatMap Instr.encode) (fun _ => rfl) (by simp) ?_ r₅.offset) ?_
    · simp only [List.length_append, Instr.length_encode]
      rfl
    rintro done _ _ _ - ⟨rfl, rfl⟩
    exact ⟨_, rfl, wrote_of_eq (by simp)⟩

/-- The value on top is dropped. -/
theorem ready_discarded {e e' : Emission} {v : View} {bytes : List UInt8} {code : List Instr}
    (h : e.Ready T s (v.push 1) bytes) (hl : v.Leveled) (hx : Emit.discard e = .ok code e') :
    e'.Ready T s v (bytes ++ code.flatMap Instr.encode) := by
  obtain ⟨rfl, ha, -⟩ := Emit.discard_ok hx h.toAt
  exact h.next (length_wrote bytes [.pop] ▸ ha) hl rfl

theorem writes_noModifier : Writes T s (.drops []) 0 (Emit.modify? none) (modify? none) :=
  ⟨fun _ => Emit.yields_noModifier, fun _ => agree_ok rfl rfl (wrote_of_eq (by simp))⟩

theorem writes_modifier (hx : Writes T s (.form false form .value) 1 x₁ x₂) :
    Writes T s (.drops [form]) 0 (Emit.modify? (some x₁)) (modify? (some x₂)) where
  yields W := Emit.yields_modifier (hx.yields W)
  agree hr := by
    unfold Emit.modify? modify?
    refine agree_bind (hx.agree hr) ?_
    rintro code e₁ _ _ h₁ rfl
    refine agree_then (agree_discard (hx.ready hr h₁).one_le) ?_
    rintro dropped e₂ _ _ - rfl
    exact ⟨_, rfl, wrote_of_eq (by simp)⟩

theorem writes_loop {test : Form} {m₁ : Option (Emit (List Instr))} {m₂ : Option (Write Unit)}
    (hyields : ∀ W, Yields T W s (.loop test (form :: fs)) (·.push 1) (Emit.loop x₁ y₁ m₁))
    (hx : Writes T s (.form false test .value) 1 x₁ x₂)
    (hy : Writes T s (.form false form .value) 1 y₁ y₂)
    (hm : Writes T s (.drops fs) 0 (Emit.modify? m₁) (modify? m₂)) :
    Writes T s (.loop test (form :: fs)) 1 (Emit.loop x₁ y₁ m₁) (loop x₂ y₂ m₂) where
  yields := hyields
  agree {e v bytes frames} hr := by
    unfold Emit.loop loop
    refine agree_left Emit.draft_apply (agree_right frame_writing ?_)
    rw [hr.offset]
    refine agree_bind (hx.agree hr) ?_
    rintro asked e₁ _ _ h₁ rfl
    have r₁ := hx.ready hr h₁
    refine agree_left Emit.update_apply (agree_right (jump_writing fun _ => rfl) ?_)
    refine agree_left Emit.update_apply (agree_right (take_writing r₁.one_le) ?_)
    have r₂ := r₁.jumped hr.leveled (i := .jumpIfFalse 0) rfl
    refine agree_bind (hy.agree r₂) ?_
    rintro body e₂ _ _ h₂ rfl
    have r₃ := hy.ready r₂ h₂
    refine agree_bind (agree_discard r₃.one_le) ?_
    rintro dropped e₃ _ _ h₃ rfl
    have r₄ := ready_discarded r₃ hr.leveled h₃
    refine agree_bind (hm.agree r₄) ?_
    rintro modified e₄ _ _ h₄ rfl
    have r₅ := hm.ready r₄ h₄
    refine agree_bind agree_addressOf ?_
    rintro start _ _ _ - ⟨rfl, rfl, rfl⟩
    refine agree_left (Emit.instr_apply _) (agree_right (instr_writing _) ?_)
    have o₅ : e₄.draft.offset + 3 = (bytes ++ asked.flatMap Instr.encode ++
        (Instr.jumpIfFalse 0).encode ++ body.flatMap Instr.encode ++ dropped.flatMap Instr.encode ++
        modified.flatMap Instr.encode ++ (Instr.jump start).encode).length := by
      rw [List.length_append, ← r₅.offset]
      rfl
    refine agree_bind (agree_patch .jumpIfFalse (bytes ++ asked.flatMap Instr.encode)
      (body.flatMap Instr.encode ++ dropped.flatMap Instr.encode ++
        modified.flatMap Instr.encode ++ (Instr.jump start).encode) (fun _ => rfl) (by simp) rfl o₅) ?_
    rintro done _ _ _ - ⟨rfl, rfl⟩
    refine agree_then (agree_constant _) ?_
    rintro result e₆ _ _ - rfl
    exact ⟨_, rfl, wrote_of_eq (by simp)⟩

theorem writes_forLoop {init test modifier body : Form} (hf : WritesForm T s true init w₁ w₂)
    (hx : Writes T s (.loop test [body, modifier]) 1 x₁ x₂) :
    Writes T s (.form direct (.forLoop init test modifier body) .value) 1 (Emit.forLoop w₁ x₁)
      (forLoop w₂ x₂) where
  yields W := Emit.yields_forLoop (hf.yields W) (hx.yields W)
  agree {e v bytes frames} hr := by
    unfold Emit.forLoop forLoop
    refine agree_bind (hf.agree hr) ?_
    rintro ⟨effect, first⟩ e₁ _ _ h₁ ⟨rfl, rfl⟩
    obtain ⟨o, rfl, r₁⟩ := hf.ready hr h₁
    cases o with
    | value =>
      refine agree_bind (agree_discard r₁.one_le) ?_
      rintro dropped e₂ _ _ h₂ rfl
      refine agree_then (hx.agree (ready_discarded r₁ hr.leveled h₂)) ?_
      rintro code e₃ _ _ - rfl
      exact ⟨_, rfl, wrote_of_eq (by simp)⟩
    | cell name ix =>
      refine agree_then (hx.agree r₁) ?_
      rintro code e₂ _ _ - rfl
      exact ⟨_, rfl, wrote_of_eq (by simp)⟩
    | slot name ix =>
      refine agree_bind (hx.agree r₁) ?_
      rintro code e₂ _ _ h₂ rfl
      have r₂ := hx.ready r₁ h₂
      refine agree_right (instr_writing _) (agree_right (take_writing r₂.one_le) ?_)
      exact agree_ok rfl update_draft (wrote_of_eq (by simp))

/-! ## Blocks -/

theorem writes_empty : WritesBody T s [] (Emit.constant (.boolean false)) (constant (.boolean false)) :=
  ⟨fun _ => Emit.yields_empty, fun _ => agree_constant _⟩

theorem writes_last (hf : WritesForm T s true form w₁ w₂) :
    WritesBody T s [form] (Emit.conclude w₁) (conclude w₂) where
  yields W := Emit.yields_last (hf.yields W)
  agree {e v bytes frames} hr := by
    unfold Emit.conclude conclude
    refine agree_bind (hf.agree hr) ?_
    rintro ⟨effect, first⟩ e₁ _ _ - ⟨rfl, rfl⟩
    cases effect with
    | value => exact agree_ok rfl rfl rfl
    | slot ix => exact agree_right (instr_writing _) (agree_ok rfl put_writing (wrote_of_eq (by simp)))
    | stored ix => exact agree_right (instr_writing _) (agree_ok rfl put_writing (wrote_of_eq (by simp)))

theorem agree_separate (hf : WritesForm T s true form w₁ w₂) {e : Emission} {v : View}
    {bytes : List UInt8} {frames : List Frame} (hr : e.Ready T s v bytes) :
    Agree (Emit.separate w₁) (separate w₂) e (e.writing bytes frames) (Wrote bytes frames) := by
  unfold Emit.separate separate
  refine agree_bind (hf.agree hr) ?_
  rintro ⟨effect, first⟩ e₁ _ _ h₁ ⟨rfl, rfl⟩
  obtain ⟨o, rfl, r₁⟩ := hf.ready hr h₁
  cases o with
  | value =>
    refine agree_then (agree_discard r₁.one_le) ?_
    rintro dropped e₂ _ _ - rfl
    exact ⟨_, rfl, wrote_of_eq (by simp)⟩
  | slot name ix => exact agree_ok rfl rfl rfl
  | cell name ix => exact agree_ok rfl rfl rfl

theorem writes_next (hf : WritesForm T s true form w₁ w₂) (hx : WritesBody T s (g :: fs) x₁ x₂) :
    WritesBody T s (form :: g :: fs) (do let code ← Emit.separate w₁; return code ++ (← x₁))
      (do separate w₂; x₂) where
  yields W := Emit.yields_next (hf.yields W) (hx.yields W)
  agree {e v bytes frames} hr := by
    refine agree_bind (agree_separate hf hr) ?_
    rintro first e₁ _ _ h₁ rfl
    obtain ⟨o, -, -, -, ha, -⟩ :=
      Emit.separate_ok (hf.yields e₁.world) h₁ hr.toAt hr.leveled e₁.within_self
    rw [length_wrote] at ha
    have hb := v.binds_kept o
    refine agree_then (hx.agree (hr.next ha (hb.leveled hr.leveled) hb.cells)) ?_
    rintro rest e₂ _ _ - rfl
    exact ⟨_, rfl, wrote_of_eq (by simp)⟩

theorem agree_exit {n : Nat} {whole : Form} {e : Emission} {bytes : List UInt8} {frames : List Frame}
    (h : n ≤ e.draft.depth) :
    Agree (Emit.exit n whole) (exit n whole) e (e.writing bytes frames) (Wrote bytes frames) := by
  unfold Emit.exit exit
  by_cases hn : n = 0
  · rw [if_pos hn, if_pos hn]
    exact agree_ok rfl rfl (wrote_of_eq (by simp))
  · rw [if_neg hn, if_neg hn]
    refine agree_bind (agree_lift (Emit.faultless_countOperand _ _ rfl _)) ?_
    rintro arg e₁ _ _ h₁ ⟨rfl, rfl⟩
    obtain ⟨-, rfl⟩ := Emit.countOperand_ok h₁
    exact agree_right (instr_writing _) (agree_ok rfl (take_writing h) (wrote_of_eq (by simp)))

/-- The cells of a block are supplied in it. -/
theorem stocked_enter {v : View} (h : v.Stocked T s)
    (hb : T.Opens .block b s ∨ (T.scope b).kind = .global) (ix : Nat) :
    (v.enter ix (T.blockCells b)).Stocked T b := by
  rintro name ⟨t, ht, hcell⟩
  rw [View.exists_cell?, View.cells_enter]
  rcases hb with hb | hk
  · rw [Scopes.within_block hb.kind hb.chain, List.mem_cons] at ht
    rcases ht with rfl | ht
    · have hmem : name ∈ T.blockCells t := by
        rw [Scopes.blockCells, if_pos hb.kind]
        exact hcell.resolve_right fun h => nomatch h.1.symm.trans hb.kind
      obtain ⟨x, hx, hn⟩ := exists_numbered ix (v.level + 1) hmem
      exact ⟨x, List.mem_append_left _ hx, hn⟩
    · obtain ⟨x, hx, hn⟩ := View.exists_cell?.1 (h name ⟨t, ht, hcell⟩)
      exact ⟨x, List.mem_append_right _ hx, hn⟩
  · rw [Scopes.within_global hk] at ht
    cases ht

/-- The cells of a function are supplied in it. -/
theorem stocked_draftOf (hf : (T.scope f).kind = .function) (name : String) (params : List String) :
    (Emit.draftOf name params (T.scope f)).view.Stocked T f := by
  rintro n ⟨t, ht, hcell⟩
  rw [Scopes.within_function hf, List.mem_singleton] at ht
  subst ht
  rw [View.exists_cell?]
  change ∃ x ∈ (Emit.draftOf name params (T.scope t)).cells, _
  rw [Emit.cells_draftOf]
  exact exists_numbered 0 0 (List.mem_append.2 (hcell.symm.imp_left And.right))

theorem agree_block {whole : Form} {extra : Nat} (hb : T.Opens .block b s ∨ (T.scope b).kind = .global)
    (hx : WritesBody T b fs x₁ x₂) {e : Emission} {v : View} {bytes : List UInt8}
    {frames : List Frame} (hr : e.Ready T s (v.push extra) bytes) (hv : v.Leveled) :
    Agree (Emit.block T whole b extra x₁) (block T whole b extra x₂) e (e.writing bytes frames)
      (Wrote bytes frames) := by
  have rest : Agree (Emit.blockEnd whole extra x₁)
      (do
        x₂
        let n := (← frame).draft.blockLocals + extra
        update fun f => { f with draft := f.draft.exitBlock }
        exit n whole)
      { e with draft := e.draft.enterBlock.addBlockCells (T.blockCells b) }
      (Emission.writing { e with draft := e.draft.enterBlock.addBlockCells (T.blockCells b) }
        bytes frames) (Wrote bytes frames) := by
    have r₁ : Emission.Ready T b _ bytes
        { e with draft := e.draft.enterBlock.addBlockCells (T.blockCells b) } :=
      ⟨hr.enterBlock (T.blockCells b), (hv.push extra).enter _ _, stocked_enter hr.stocked hb _⟩
    unfold Emit.blockEnd
    refine agree_bind (hx.agree r₁) ?_
    rintro code e₁ _ _ h₁ rfl
    obtain ⟨k, u, hu, a₁, -⟩ := (hx.yields e₁.world).ok h₁ r₁.toAt r₁.leveled e₁.within_self
    have hlocals := Draft.blockLocals_of_binds (hv.push extra) hu a₁.view
    refine agree_left Emit.draft_apply (agree_right frame_writing ?_)
    refine agree_left Emit.update_apply (agree_right (update_draft (g := Draft.exitBlock)) ?_)
    refine agree_then (agree_exit ?_) ?_
    · have hdepth := a₁.depth
      rw [View.depth_push, hu.depth, View.depth_enter, View.depth_push] at hdepth
      change e₁.draft.blockLocals + extra ≤ e₁.draft.depth
      omega
    · rintro exit e₂ _ _ - rfl
      exact ⟨_, rfl, wrote_of_eq (by simp)⟩
  unfold Emit.block block
  refine agree_left Emit.update_apply (agree_right (update_draft (g := Draft.enterBlock)) ?_)
  rw [Scopes.blockCells] at rest
  by_cases hk : (T.scope b).kind = .block
  · simp only [if_pos hk] at rest ⊢
    exact agree_left Emit.update_apply
      (agree_right (update_draft (g := (·.addBlockCells (T.scope b).cells))) rest)
  · simp only [if_neg hk] at rest ⊢
    exact rest

theorem writes_block {whole : Form} (hb : T.Opens .block b s ∨ (T.scope b).kind = .global)
    (hx : WritesBody T b fs x₁ x₂) :
    Writes T s (.form direct (.block b fs) .value) 1 (Emit.block T whole b 0 x₁)
      (block T whole b 0 x₂) where
  yields W := Emit.yields_block (hx.yields W)
  agree hr := agree_block hb hx hr hr.leveled

/-! ## Functions and calls -/

theorem agree_moveCaptured {sc : Scope} {slot : Nat} {names : List String} {e : Emission}
    {bytes : List UInt8} {frames : List Frame}
    (h : ∀ name ∈ sc.cells, ∃ ix, e.draft.cell? name = some ix) :
    Agree (Emit.moveCaptured sc slot names) (moveCaptured sc slot names) e (e.writing bytes frames)
      (Wrote bytes frames) := by
  induction names generalizing slot e bytes with
  | nil => exact agree_ok rfl rfl (wrote_of_eq (by simp))
  | cons name names ih =>
    unfold Emit.moveCaptured moveCaptured
    by_cases hc : (sc.declares name && sc.cells.contains name) = true
    · rw [if_pos hc, if_pos hc]
      have hcell := h name (by simpa using (Bool.and_eq_true_iff.1 hc).2)
      refine agree_bind (agree_lift (Emit.faultless_placeOperand _ _)) ?_
      rintro ix e₁ _ _ h₁ ⟨rfl, rfl⟩
      obtain ⟨-, rfl⟩ := Emit.placeOperand_ok h₁
      refine agree_bind (agree_cellIndex hcell) ?_
      rintro cell e₂ _ _ h₂ ⟨rfl, rfl⟩
      obtain ⟨-, rfl⟩ := Emit.cellIndex_ok h₂
      refine agree_left (Emit.instr_apply _) (agree_right (instr_writing _) ?_)
      refine agree_left (Emit.instr_apply _) (agree_right (instr_writing _) ?_)
      refine agree_left (Emit.instr_apply _) (agree_right (instr_writing _) ?_)
      refine agree_then (ih h) ?_
      rintro rest e₃ _ _ - rfl
      exact ⟨_, rfl, wrote_of_eq (by simp)⟩
    · rw [if_neg hc, if_neg hc]
      exact ih h

theorem agree_loadCells {names : List String} {e : Emission} {bytes : List UInt8}
    {frames : List Frame} (h : ∀ name ∈ names, ∃ ix, e.draft.cell? name = some ix) :
    Agree (Emit.loadCells names) (loadCells names) e (e.writing bytes frames) (Wrote bytes frames) := by
  induction names generalizing e bytes with
  | nil => exact agree_ok rfl rfl (wrote_of_eq (by simp))
  | cons name names ih =>
    unfold Emit.loadCells loadCells
    refine agree_bind (agree_cellIndex (h name List.mem_cons_self)) ?_
    rintro ix e₁ _ _ h₁ ⟨rfl, rfl⟩
    obtain ⟨-, rfl⟩ := Emit.cellIndex_ok h₁
    refine agree_left Emit.update_apply (agree_left (Emit.instr_apply _) ?_)
    refine agree_right (instr_writing _) (agree_right put_writing ?_)
    refine agree_then (ih fun name hname => h name (List.mem_cons_of_mem _ hname)) ?_
    rintro rest e₂ _ _ - rfl
    exact ⟨_, rfl, wrote_of_eq (by simp)⟩

theorem functionBody_of_ne {whole body : Form} {params : List String}
    (h : ∀ b fs, body = .block b fs → False) : functionBody T whole params body x₂ y₂ = (do
      y₂
      instr (.scopeExit
        (← lift (Emit.countOperand (params.length + 1) whole .tooManyParameters)))) := by
  unfold functionBody
  split
  · next b fs => exact (h b fs rfl).elim
  · rfl

theorem writes_functionBody {whole body : Form} {params : List String}
    (hx : ∀ b fs, body = .block b fs →
      (T.Opens .block b s ∨ (T.scope b).kind = .global) ∧ WritesBody T b fs x₁ x₂)
    (hg : Emit.Growing (fun _ => True) x₁) (hy : Writes T s (.form false body .value) 1 y₁ y₂) :
    WritesFinish T s params body (Emit.functionBody T whole params body x₁ y₁)
      (functionBody T whole params body x₂ y₂) where
  yields W := Emit.yields_functionBody (fun b fs h => (hx b fs h).2.yields W) hg (hy.yields W)
  agree {e bytes frames v} hr hv := by
    unfold Emit.functionBody
    split
    · next b fs => exact agree_block (hx b fs rfl).1 (hx b fs rfl).2 hr hv
    · next hne =>
      rw [functionBody_of_ne hne]
      refine agree_bind (hy.agree hr) ?_
      rintro code e₁ _ _ - rfl
      refine agree_bind (agree_lift (Emit.faultless_countOperand _ _ rfl _)) ?_
      rintro n e₂ _ _ h₂ ⟨rfl, rfl⟩
      exact agree_ok rfl (instr_writing _) (wrote_of_eq (by simp))

/-- The bytes that have been written are those of the code object. -/
theorem agree_functionCode {name : String} {params : List String} {body : Form}
    (hf : (T.scope f).kind = .function) (hx : WritesFinish T f params body x₁ x₂) {e : Emission}
    {bytes : List UInt8} {frames : List Frame} :
    Agree (Emit.functionCode T name f params x₁) (functionCode T name f params x₂) e
      (e.writing bytes frames) fun a e' b w' => a = b ∧ w' = e'.writing bytes frames := by
  obtain ⟨v, hl, hstart⟩ := Emit.view_draftOf_eq_push name params (T.scope f)
  have r₀ : Emission.Ready T f (v.push (params.length + 1)) []
      { e with draft := Emit.draftOf name params (T.scope f) } := by
    refine ⟨⟨hstart, ?_, Emit.named_draftOf name params (T.scope f) hstart⟩, hl.push _,
      hstart ▸ stocked_draftOf hf name params⟩
    simp [Emit.draftOf, Draft.addLocals_eq, Draft.start]
  have hcells : ∀ n ∈ (T.scope f).cells, ∃ ix, v.cell? n = some ix := fun n hn =>
    r₀.stocked n ⟨f, by rw [Scopes.within_function hf]; exact List.mem_singleton_self f, Or.inl hn⟩
  unfold Emit.functionCode functionCode
  refine agree_left Emit.draft_apply (agree_left Emit.update_apply ?_)
  refine agree_right (pushFrame_writing _) ?_
  refine agree_bind (agree_moveCaptured fun n hn => ?_) ?_
  · rw [← Draft.cell?_view, hstart]
    exact hcells n hn
  rintro moved e₁ _ _ h₁ rfl
  obtain ⟨-, a₁, -⟩ := Emit.moveCaptured_ok h₁ r₀.toAt
  rw [length_wrote] at a₁
  refine agree_bind (hx.agree (r₀.next a₁ (hl.push _) rfl) hl) ?_
  rintro code e₂ _ _ h₂ rfl
  refine agree_left (Emit.instr_apply _) (agree_right (instr_writing _) ?_)
  have hbytes : [] ++ moved.flatMap Instr.encode ++ code.flatMap Instr.encode ++ Instr.ret.encode =
      (moved ++ code ++ [Instr.ret]).flatMap Instr.encode := by simp
  rw [hbytes]
  exact agree_ok rfl rfl ⟨rfl, rfl⟩

theorem writes_function {whole body : Form} {name : String} {params : List String}
    (hf : T.SuppliesFunction s f) (hx : WritesFinish T f params body x₁ x₂) :
    Writes T s (.closure name f params body) 1 (Emit.function T whole name f params x₁)
      (function T whole name f params x₂) where
  yields W := Emit.yields_function (hx.yields W)
  agree {e v bytes frames} hr := by
    unfold Emit.function function
    refine agree_bind (agree_functionCode hf.kind hx) ?_
    rintro ⟨handle, c⟩ e₁ _ _ h₁ ⟨rfl, rfl⟩
    obtain ⟨-, -, hfree, hdraft, -⟩ := Emit.functionCode_coded (hx.yields e₁.world) h₁
      (fun _ _ h => h) fun _ _ h => h
    dsimp only
    by_cases hc : c.free.isEmpty = true
    · rw [if_pos hc, if_pos hc]
      refine agree_left (Emit.alloc_ok.2 ⟨rfl, rfl⟩) (agree_right (alloc_writing _) ?_)
      exact agree_constant _
    · rw [if_neg hc, if_neg hc]
      have a₁ : e₁.At (v.push 0) bytes.length := ⟨(congrArg Draft.view hdraft).trans hr.view,
        (congrArg Draft.offset hdraft).trans hr.offset, hdraft ▸ hr.named⟩
      refine agree_bind (agree_loadCells fun n hn => ?_) ?_
      · rw [hfree] at hn
        rw [← Draft.cell?_view, a₁.view]
        exact hr.stocked n (hf.free n (by simpa using hn))
      rintro cells e₂ _ _ h₂ rfl
      obtain ⟨-, a₂, -⟩ := Emit.loadCells_ok (c := c) (s := s) (f := f) h₂ a₁
      refine agree_bind (agree_constant _) ?_
      rintro made e₃ _ _ h₃ rfl
      obtain ⟨-, -, -, a₃, -⟩ := Emit.constant_ok h₃ a₂ e₃.within_self
      refine agree_bind (agree_lift (Emit.faultless_countOperand _ _ rfl _)) ?_
      rintro n e₄ _ _ h₄ ⟨rfl, rfl⟩
      obtain ⟨-, rfl⟩ := Emit.countOperand_ok h₄
      refine agree_right (instr_writing _) (agree_ok rfl (take_writing ?_) (wrote_of_eq (by simp)))
      have hdepth := a₃.depth
      rw [View.push_push, View.depth_push, Array.length_toList] at hdepth
      change c.free.size ≤ e₄.draft.depth
      omega

theorem writes_call {whole callee : Form} {args : List Form}
    (hx : Writes T s (.form false callee .value) 1 x₁ x₂)
    (hy : Writes T s (.args args) args.length y₁ y₂) :
    Writes T s (.form direct (.call callee args) .value) 1 (Emit.call whole args.length x₁ y₁)
      (call whole args.length x₂ y₂) where
  yields W := Emit.yields_call (hx.yields W) (hy.yields W)
  agree {e v bytes frames} hr := by
    unfold Emit.call call
    refine agree_bind (hx.agree hr) ?_
    rintro callee e₁ _ _ h₁ rfl
    have r₁ := hx.ready hr h₁
    refine agree_bind (hy.agree r₁) ?_
    rintro arguments e₂ _ _ h₂ rfl
    have r₂ := hy.ready r₁ h₂
    refine agree_bind (agree_lift (Emit.faultless_countOperand _ _ rfl _)) ?_
    rintro n e₃ _ _ h₃ ⟨rfl, rfl⟩
    obtain ⟨-, rfl⟩ := Emit.countOperand_ok h₃
    refine agree_right (instr_writing _) (agree_ok rfl (take_writing ?_) (wrote_of_eq (by simp)))
    exact r₂.depth ▸ Nat.le_add_left ..

theorem writes_noArgs : Writes T s (.args []) 0 (pure []) (pure ()) :=
  ⟨fun _ => Emit.yields_noArgs, fun _ => agree_ok rfl rfl (wrote_of_eq (by simp))⟩

theorem writes_args (hx : Writes T s (.form false form .value) 1 x₁ x₂)
    (hy : Writes T s (.args fs) fs.length y₁ y₂) :
    Writes T s (.args (form :: fs)) (form :: fs).length (do let code ← x₁; return code ++ (← y₁))
      (do x₂; y₂) where
  yields W := Emit.yields_args (hx.yields W) (hy.yields W)
  agree {e v bytes frames} hr := by
    refine agree_bind (hx.agree hr) ?_
    rintro first e₁ _ _ h₁ rfl
    refine agree_then (hy.agree (hx.ready hr h₁)) ?_
    rintro rest e₂ _ _ - rfl
    exact ⟨_, rfl, wrote_of_eq (by simp)⟩

/-! ## Variables -/

theorem writes_reference {name : String} {binding : Binding} (hc : T.Reaches s name binding) :
    Writes T s (.form direct (.reference name binding) .value) 1 (Emit.read T s name binding)
      (read T s name binding) where
  yields W := Emit.yields_reference
  agree hr := agree_read fun h => by
    rw [← Draft.cell?_view, hr.view]
    exact hr.stocked name (hc h)

theorem writes_string {text : String} :
    WritesForm T s direct (.string text)
      (do
        let h ← Emit.alloc (.string text)
        Emit.valued (Emit.constant (.object h)))
      (do
        let h ← alloc (.string text)
        valued (constant (.object h))) where
  yields W := Emit.yields_string
  agree {e v bytes frames} hr := by
    refine agree_left (Emit.alloc_ok.2 ⟨rfl, rfl⟩) (agree_right (alloc_writing _) ?_)
    refine agree_bind (agree_constant _) ?_
    rintro code e' _ _ - rfl
    exact agree_ok rfl rfl ⟨rfl, rfl⟩

theorem writes_assign {name : String} {binding : Binding} {value : Form}
    (hc : T.Reaches s name binding) (hx : Writes T s (.form false value .value) 1 x₁ x₂) :
    WritesForm T s direct (.assign name binding value)
      (do
        let code ← x₁
        return (.value, code ++ (← Emit.write T s name binding)))
      (do
        x₂
        valued (store T s name binding)) where
  yields W := Emit.yields_assign (hx.yields W)
  agree {e v bytes frames} hr := by
    refine agree_bind (hx.agree hr) ?_
    rintro code e₁ _ _ h₁ rfl
    have r₁ := hx.ready hr h₁
    refine agree_bind (agree_store fun h => ?_) ?_
    · rw [← Draft.cell?_view, r₁.view]
      exact hr.stocked name (hc h)
    rintro rest e₂ _ _ - rfl
    exact agree_ok rfl rfl ⟨rfl, wrote_of_eq (by simp)⟩

/-- A value is pushed, and then becomes a variable. -/
theorem writes_declared {whole : Form} {name : String} (hc : T.Reaches s name .unbound)
    (hyields : ∀ W, YieldsForm T W s direct whole (do
      let code ← x₁
      let (effect, store) ← Emit.declare T s whole name direct
      return (effect, code ++ store)))
    (hx : Writes T s task 1 x₁ x₂) :
    WritesForm T s direct whole
      (do
        let code ← x₁
        let (effect, store) ← Emit.declare T s whole name direct
        return (effect, code ++ store))
      (do
        x₂
        declare T s whole name direct) where
  yields := hyields
  agree {e v bytes frames} hr := by
    refine agree_bind (hx.agree hr) ?_
    rintro code e₁ _ _ h₁ rfl
    have r₁ := hx.ready hr h₁
    refine agree_then (agree_declare r₁.one_le fun h => ?_) ?_
    · rw [← Draft.cell?_view, r₁.view]
      exact hr.stocked name (hc h)
    rintro ⟨effect, store⟩ e₂ _ _ - ⟨rfl, rfl⟩
    exact ⟨_, rfl, rfl, wrote_of_eq (by simp)⟩

end

end Write

/-! ## Forms -/

namespace Form

open Write

mutual

/-- Both generators give the same code of a form whose cells are supplied. -/
theorem write_writes (T : Scopes) (s : ScopeId) (direct : Bool) (f : Form) (hf : f.Supplied T s) :
    WritesForm T s direct f (f.emit T s direct) (f.write T s direct) := by
  cases f with
  | number x => exact writes_valued (writes_constant fun _ => Emit.yields_constant .number)
  | string text => exact writes_string
  | boolean b => exact writes_valued (writes_constant fun _ => Emit.yields_constant .boolean)
  | reference name binding => exact writes_valued (writes_reference hf)
  | block b body => exact writes_valued (writes_block hf.1 (writeBody_writes T b body hf.2))
  | declare name init =>
    exact writes_declared hf.1 (fun W => emit_yields T W s direct (.declare name init))
      (writes_only (write_writes T s false init hf.2))
  | assign name binding value =>
    exact writes_assign hf.1 (writes_only (write_writes T s false value hf.2))
  | ifThen test thn =>
    exact writes_valued (writes_imp (writes_branch (writes_only (write_writes T s false test hf.1))
      (writes_only (write_writes T s false thn hf.2))
      (writes_constant fun _ => Emit.yields_constant .boolean)) .ifThen)
  | ifElse test thn els =>
    obtain ⟨ht, hc, ha⟩ := hf
    exact writes_valued (writes_branch (writes_only (write_writes T s false test ht))
      (writes_only (write_writes T s false thn hc))
      (writes_only (write_writes T s false els ha)))
  | whileLoop test body =>
    have htest := writes_only (write_writes T s false test hf.1)
    have hbody := writes_only (write_writes T s false body hf.2)
    exact writes_valued (writes_imp (writes_loop (fun W => Emit.yields_loop (htest.yields W)
      (hbody.yields W) (by simp) Emit.yields_noModifier) htest hbody writes_noModifier) .whileLoop)
  | forLoop init test modifier body =>
    obtain ⟨hi, ht, hm, hb⟩ := hf
    have htest := writes_only (write_writes T s false test ht)
    have hmodifier := writes_only (write_writes T s false modifier hm)
    have hbody := writes_only (write_writes T s false body hb)
    refine writes_valued (writes_forLoop (write_writes T s true init hi)
      (writes_loop (fun W => Emit.yields_loop (htest.yields W) (hbody.yields W) ?_
        (Emit.yields_modifier (hmodifier.yields W))) htest hbody (writes_modifier hmodifier)))
    rintro _ ⟨⟩
    exact (hmodifier.yields W).growing
  | define name f params body =>
    exact writes_declared hf.1 (fun W => emit_yields T W s direct (.define name f params body))
      (writes_function hf.2.1 (writes_functionBody (writeInside_writes T f body hf.2.2)
        (emitInside_growing (s := f) admits_true) (writes_only (write_writes T f false body hf.2.2))))
  | lambda label f params body =>
    exact writes_valued (writes_imp (writes_function hf.1 (writes_functionBody
      (writeInside_writes T f body hf.2) (emitInside_growing (s := f) admits_true)
      (writes_only (write_writes T f false body hf.2)))) .lambda)
  | operation op x y =>
    exact writes_valued (writes_operation (writes_only (write_writes T s false x hf.1))
      (writes_only (write_writes T s false y hf.2)))
  | call callee args =>
    exact writes_valued (writes_call (writes_only (write_writes T s false callee hf.1))
      (writeAll_writes T s args hf.2))
  | malformed e why =>
    exact ⟨fun W => emit_yields T W s direct (.malformed e why),
      fun _ => agree_error rfl rfl hf ⟨rfl, rfl, rfl⟩⟩

theorem writeInside_writes (T : Scopes) (s : ScopeId) (f : Form) (hf : f.Supplied T s) :
    ∀ b fs, f = .block b fs → (T.Opens .block b s ∨ (T.scope b).kind = .global) ∧
      WritesBody T b fs (emitInside T f) (writeInside T f) := by
  cases f with
  | block b body =>
    have inside := writeBody_writes T b body hf.2
    rintro _ _ ⟨⟩
    exact ⟨hf.1, inside⟩
  | _ => exact nofun

theorem writeBody_writes (T : Scopes) (s : ScopeId) (fs : List Form) (hf : AllSupplied T s fs) :
    WritesBody T s fs (emitBody T s fs) (writeBody T s fs) := by
  match fs with
  | [] => exact writes_empty
  | [f] => exact writes_last (write_writes T s true f hf.1)
  | f :: g :: fs =>
    exact writes_next (write_writes T s true f hf.1) (writeBody_writes T s (g :: fs) hf.2)

theorem writeAll_writes (T : Scopes) (s : ScopeId) (fs : List Form) (hf : AllSupplied T s fs) :
    Writes T s (.args fs) fs.length (emitAll T s fs) (writeAll T s fs) := by
  cases fs with
  | nil => exact writes_noArgs
  | cons f fs =>
    exact writes_args (writes_only (write_writes T s false f hf.1)) (writeAll_writes T s fs hf.2)

end

end Form

/-! ## Programs -/

/-- The main function is written as it is generated. -/
theorem Write.agree_main {T : Scopes} {program : Form} (hf : program.Supplied T Scopes.root)
    (hroot : (T.scope Scopes.root).kind = .global) (heap : Heap) (globals : Globals) (notes : Array String) :
    Agree (Emit.main T program) (Write.main T program) (.start heap globals notes)
      ⟨heap, globals, notes, []⟩ fun h e' h' w' => h = h' ∧ e'.Leaves w' := by
  have hstart : (Emission.start heap globals notes).Ready T Scopes.root .start [] :=
    ⟨⟨rfl, rfl, nofun⟩, View.leveled_start, fun _ ⟨_, ht, _⟩ =>
      absurd ht (Scopes.within_global hroot ▸ List.not_mem_nil)⟩
  unfold Emit.main Write.main
  have pushed : pushFrame ⟨.start "main" 0 1 #[] #[], []⟩ ⟨heap, globals, notes, []⟩ =
      .ok () ((Emission.start heap globals notes).writing [] []) := rfl
  refine agree_right pushed ?_
  refine agree_bind ((writes_only (program.write_writes T Scopes.root false hf)).agree hstart) ?_
  rintro code e₁ _ _ h₁ rfl
  refine agree_left (Emit.instr_apply _) (agree_right (instr_writing _) ?_)
  have hbytes : [] ++ code.flatMap Instr.encode ++ Instr.halt.encode =
      (code ++ [Instr.halt]).flatMap Instr.encode := by simp
  rw [hbytes]
  exact agree_ok rfl rfl ⟨rfl, rfl, rfl, rfl⟩

/-- The generator that writes bytes never stops at an impossible step and compiles each program
    to the same result; and if a program cannot be compiled, then not because a captured variable
    has no cell or because the walk gave no scope. -/
theorem Expr.compile_faultless (e : Expr) (heap : Heap) (globals : Globals) :
    e.write heap globals = .ok (e.compile heap globals) ∧
      (∀ name, (e.compile heap globals).result ≠ .error (.unresolvedCell name)) ∧
      ∀ form why, (e.compile heap globals).result = .error (.malformed form why) →
        why ≠ .blockWithoutScope ∧ why ≠ .functionWithoutScope := by
  have h := Write.agree_main e.resolveProgram_supplied e.records_resolveProgram.tree.global heap
    globals #[s!"analyzed {e.resolveProgram.2.size} scopes"]
  have written : e.write heap globals = .ok (e.compile heap globals) ∧
      ∀ err, (e.compile heap globals).result = .error err → err.isFault = false := by
    unfold Expr.write Expr.compile
    cases hm : Emit.main e.resolveProgram.2 (Form.ofResolved "lambda" e.resolveProgram.1)
        (.start heap globals #[s!"analyzed {e.resolveProgram.2.size} scopes"]) with
    | ok main e' =>
      obtain ⟨_, w', hw, rfl, hl⟩ := Ends.ok h hm
      rw [Emission.start] at hm
      simp only [EStateM.run, hm, hw, hl.heap, hl.globals, hl.notes]
      exact ⟨trivial, fun err h => by cases h⟩
    | error err e' =>
      obtain ⟨herr, w', hw, hl⟩ := Ends.error h hm
      rw [Emission.start] at hm
      simp only [EStateM.run, hm, hw, hl.heap, hl.globals, hl.notes]
      exact ⟨trivial, fun err' h => by cases h; exact herr⟩
  refine ⟨written.1, fun name hname => ?_, fun form why hwhy => ?_⟩
  · cases written.2 _ hname
  · have hfault := written.2 _ hwhy
    constructor
    · rintro rfl
      cases hfault
    · rintro rfl
      cases hfault

end ByteLisp
