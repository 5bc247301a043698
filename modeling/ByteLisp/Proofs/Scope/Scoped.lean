/-
  ByteLisp: forms and the final table of scopes.

  The walk binds a name by the table as it is at that point. In a program that
  declares no name twice, the bindings are those of the final table.

  * `Scopes.Refers`: a reference is bound to the declaration that the table gives,
    which is a cell if the reference captures it; `Scopes.OpensFunction`: a function
    has a scope of its own with its parameters;
  * `Form.Scoped`: so it is for all references and functions within a form;
    `Walks.scoped`: the walk over forms gives such forms;
  * `Walks.blocks`: each block has a scope of its own;
  * `Refers.captured`: where a captured name comes from;
  * `Scopes.home_within` and `Once.captures`: the scopes of one function;
  * `Expr.resolveProgram_fits` is the result for programs.
-/
import ByteLisp.Proofs.Generation.Defined
import ByteLisp.Proofs.Meaning.Evaluator
import ByteLisp.Proofs.Scope.Once
import Mathlib.Data.List.Nodup

namespace ByteLisp

/-! ## Scoped forms -/

namespace Scopes

/-- A reference in the scope `s` is bound as the table says: it is global, or the innermost
    declaration around it, which is a cell if the reference captures it. -/
structure Refers (T : Scopes) (s : ScopeId) (name : String) (binding : Binding) : Prop where
  inside : s < T.size
  storage : T.storageOf s name binding = T.storage binding.owner name
  found : ∀ o, binding.owner = some o → (T.scope o).kind ≠ .global →
    T.lookup s name = some o ∧ (T.captures s o = true → name ∈ (T.scope o).cells)

/-- The function stands in the scope `s` and declares its parameters, and its own name if it has
    one; a label is the name of no variable of the function. -/
structure OpensFunction (T : Scopes) (s : ScopeId) (f : Meaning.Function) : Prop where
  opens : T.Opens .function f.scope s
  own : f.own = true ↔ f.name ∈ (T.scope f.scope).declared
  params : ∀ p ∈ f.params, p ∈ (T.scope f.scope).declared
  around : f.name ∈ (T.scope s).declared ∨ ¬ T.Names f.name
  nodup : (f.name :: (f.params ++ f.body.collect Form.declares? f.scope)).Nodup

end Scopes

namespace Form

mutual

/-- All references and functions within a form are as the table says. -/
def Scoped (T : Scopes) (s : ScopeId) : Form → Prop
  | .number _ | .string _ | .boolean _ | .malformed _ _ => True
  | .reference name binding => T.Refers s name binding
  | .block b fs => T.Opens .block b s ∧ AllScoped T b fs
  | .declare name init => name ∈ (T.scope s).declared ∧ Scoped T s init
  | .assign name binding value => T.Refers s name binding ∧ Scoped T s value
  | .ifThen test thn => Scoped T s test ∧ Scoped T s thn
  | .ifElse test thn els => Scoped T s test ∧ Scoped T s thn ∧ Scoped T s els
  | .whileLoop test body => Scoped T s test ∧ Scoped T s body
  | .forLoop init test modifier body =>
    Scoped T s init ∧ Scoped T s test ∧ Scoped T s modifier ∧ Scoped T s body
  | .define name f params body =>
    name ∈ (T.scope s).declared ∧ T.OpensFunction s ⟨name, true, f, params, body⟩ ∧ Scoped T f body
  | .lambda label f params body =>
    T.OpensFunction s ⟨label, false, f, params, body⟩ ∧ Scoped T f body
  | .operation _ x y => Scoped T s x ∧ Scoped T s y
  | .call callee args => Scoped T s callee ∧ AllScoped T s args

/-- So it is for some forms. -/
def AllScoped (T : Scopes) (s : ScopeId) : List Form → Prop
  | [] => True
  | f :: fs => Scoped T s f ∧ AllScoped T s fs

end

/-- The scope of a block. -/
def block? (_ : ScopeId) : Form → List ScopeId
  | .block b _ => [b]
  | _ => []

end Form

/-! ## Names that are still to be declared -/

namespace Scopes

variable {T T' T₁ : Scopes} {s t o f b : ScopeId} {n name label : String} {ns ms : List String}

/-- No scope declares any of the names, and none of them is listed twice. -/
structure Unused (T : Scopes) (ns : List String) : Prop where
  nodup : ns.Nodup
  new : ∀ n ∈ ns, ¬ T.Names n

/-- No declared name is that of a truth value, or the label of a function without a name. -/
def Allowed (T : Scopes) : Prop := ∀ n, T.Names n → n ≠ "lambda" ∧ isTruth n = false

theorem Unused.perm (h : T.Unused ns) (hp : ns.Perm ms) : T.Unused ms :=
  ⟨hp.nodup_iff.1 h.nodup, fun n hn => h.new n (hp.mem_iff.2 hn)⟩

theorem Unused.after (h : T.Unused (ns ++ ms)) (hc : T.Changes ns T₁) : T₁.Unused ms where
  nodup := (List.nodup_append.1 h.nodup).2.1
  new n hn hm := by
    rcases hc.names hm with hm | hm
    · exact h.new n (List.mem_append_right ns hn) hm
    · exact (List.nodup_append.1 h.nodup).2.2 n hm n hn rfl

/-- What is declared on the way is declared at the end. -/
theorem Changes.named (h : Changes ns T T') (hn : n ∈ ns) : T'.Names n := by
  induction h with
  | refl => cases hn
  | append _ h' ih ih' =>
    rcases List.mem_append.1 hn with hn | hn
    · obtain ⟨t, ht⟩ := ih hn
      exact ⟨t, h'.extends.later.declared t n (lt_size_of_declared ht) ht⟩
    · exact ih' hn
  | perm _ hp ih => exact ih (hp.mem_iff.2 hn)
  | block _ => cases hn
  | declare hs => exact ⟨_, (mem_declared_declare hs).2 (Or.inr ⟨rfl, List.mem_singleton.1 hn⟩)⟩
  | define _ => exact ⟨_, mem_openFunction hn⟩
  | lambda _ => exact ⟨_, mem_openFunction hn⟩
  | capture _ => cases hn

theorem lookup_eq_none (h : ¬ T.Names n) : T.lookup s n = none := by
  rw [lookup, List.find?_eq_none]
  intro t _ ht
  exact h ⟨t, by simpa [Scope.declares] using ht⟩

end Scopes

/-! ## The walk gives scoped forms -/

section

variable {P : Scopes → Prop} {T T' T₁ : Scopes} {s : ScopeId} {fs : List Form} {name label : String}
  {ms params : List String} {binding : Binding} {body : Form}

/-- A reference is bound as the final table says. -/
theorem Walk.refers (h : Walk.target s name T = (binding, T₁)) (hs : s < T.size) (hn : T.Nested)
    (hl : T₁.Later T') (hset : T.Settled T') (ha : T'.Allowed) : T'.Refers s name binding := by
  have inside : s < T'.size := by
    have hx : T.Extends (Walk.target s name T).2 := extends_target
    rw [h] at hx
    exact Nat.lt_of_lt_of_le (hx.lt hs) hl.size
  cases binding with
  | unbound =>
    have htruth : isTruth name = true := by
      by_contra hf
      unfold Walk.target at h
      rw [if_neg hf] at h
      unfold Walk.refer at h
      split at h <;> cases h
    have hnone : T'.lookup s name = none :=
      Scopes.lookup_eq_none fun hm => by
        have := (ha name hm).2
        rw [htruth] at this
        cases this
    exact ⟨inside, by rw [Scopes.storageOf, hnone]; rfl, fun o howner => by cases howner⟩
  | reference owner =>
    obtain ⟨-, ho, hT⟩ := Walk.target_reference h
    refine ⟨inside, rfl, fun o howner _ => ?_⟩
    cases howner
    subst hT
    have later : T.Later T' := Scopes.Later.trans Scopes.later_capture hl
    have hsize := hn.lt_of_mem hs (Scopes.lookup_mem ho)
    refine ⟨hset.lookup later hs ho, fun hc => ?_⟩
    rw [later.captures hn hs hsize] at hc
    exact hl.cells o name (Nat.lt_of_lt_of_le hsize Scopes.later_capture.size)
      (Scopes.cells_capture hc hsize)

/-- A function that defines its name is as the final table says. -/
theorem Scopes.opensFunction_define {U : Scopes} (hU : U = T.modify s (·.declare name)) (hs : s < T.size)
    (hc : (U.openFunction s (name :: params)).Changes ms T')
    (hn : (name :: (params ++ body.collect Form.declares? U.size)).Nodup) :
    T'.OpensFunction s ⟨name, true, U.size, params, body⟩ := by
  have hsU : s < U.size := by rwa [hU, Scopes.size_modify]
  have inside : U.size < (U.openFunction s (name :: params)).size := Scopes.lt_size_openFunction
  have opened : U.Extends (U.openFunction s (name :: params)) := Scopes.extends_openFunction hsU
  have later := hc.extends.later
  have declared (n : String) (hm : n ∈ name :: params) : n ∈ (T'.scope U.size).declared :=
    later.declared _ n inside (Scopes.mem_openFunction hm)
  refine ⟨?_, ⟨fun _ => declared name List.mem_cons_self, fun _ => rfl⟩,
    fun p hp => declared p (List.mem_cons_of_mem name hp), Or.inl ?_, hn⟩
  · exact Scopes.Opens.later ⟨(Scopes.openFunction_scope hsU).1, (Scopes.openFunction_scope hsU).2⟩
      later inside (opened.lt hsU)
  · refine (opened.later.trans later).declared s name hsU ?_
    rw [hU, Scopes.mem_declared_declare hs]
    exact Or.inr ⟨rfl, rfl⟩

/-- A function without a name of its own is as the final table says. -/
theorem Scopes.opensFunction_lambda (hl : T.Labels s label) (hs : s < T.size)
    (hc : (T.openFunction s params).Changes (body.collect Form.declares? T.size ++ ms) T')
    (hu : T.Unused (params ++ body.collect Form.declares? T.size ++ ms)) (ha : T'.Allowed) :
    T'.OpensFunction s ⟨label, false, T.size, params, body⟩ := by
  have inside : T.size < (T.openFunction s params).size := Scopes.lt_size_openFunction
  have opened : T.Extends (T.openFunction s params) := Scopes.extends_openFunction hs
  have later := hc.extends.later
  have all : T.Changes (params ++ (body.collect Form.declares? T.size ++ ms)) T' :=
    (Scopes.Changes.lambda hs).append hc
  have unnamed : label ∉ (T'.scope T.size).declared ∧
      label ∉ params ++ body.collect Form.declares? T.size := by
    rcases hl with rfl | hl
    · refine ⟨fun h => (ha _ ⟨_, h⟩).1 rfl, fun h => (ha _ (all.named ?_)).1 rfl⟩
      rw [← List.append_assoc]
      exact List.mem_append_left ms h
    · have hset : T.Settled T' := all.settled fun n hn => hu.new n (by rwa [List.append_assoc])
      refine ⟨fun h => ?_, fun h => hu.new label (List.mem_append_left ms h) ⟨s, hl⟩⟩
      exact Nat.lt_irrefl _ (Scopes.lt_size_of_declared (hset hl h))
  refine ⟨?_, ⟨fun h => absurd h (by simp), fun h => absurd h unnamed.1⟩, fun p hp => ?_, ?_, ?_⟩
  · exact Scopes.Opens.later ⟨(Scopes.openFunction_scope hs).1, (Scopes.openFunction_scope hs).2⟩
      later inside (opened.lt hs)
  · exact later.declared _ p inside (Scopes.mem_openFunction hp)
  · rcases hl with rfl | hl
    · exact Or.inr fun h => (ha _ h).1 rfl
    · exact Or.inl ((opened.later.trans later).declared s label hs hl)
  · exact List.nodup_cons.2 ⟨unnamed.2, (List.nodup_append.1 hu.nodup).1⟩

/-- The forms that the walk gives are as the final table says. -/
theorem Walks.scoped (h : Walks P T s fs T₁) (hs : s < T.size) (hn : T.Nested)
    (hm : Form.collectAll Form.malformed? s fs = [])
    (hu : T.Unused (Form.collectAll Form.declares? s fs ++ ms)) (hc : T₁.Changes ms T')
    (ha : T'.Allowed) : Form.AllScoped T' s fs := by
  induction h generalizing ms with
  | nil => trivial
  | number | string | boolean => exact ⟨trivial, trivial⟩
  | malformed => cases hm
  | @cons T s f g fs T₂ T₁ h₁ h₂ ih₁ ih₂ =>
    rw [Form.collectAll, List.append_eq_nil_iff] at hm
    rw [Form.collectAll, List.append_assoc] at hu
    have hx := h₁.extends hs
    have hm₁ : Form.collectAll Form.malformed? s [f] = [] := by simpa [Form.collectAll] using hm.1
    have first : T.Changes (f.collect Form.declares? s) T₂ := by
      simpa [Form.collectAll] using h₁.changes hs hm₁
    have second := h₂.changes (hx.lt hs) hm.2
    refine ⟨(ih₁ hs hn hm₁ ?_ (second.append hc)).1, ih₂ (hx.lt hs) (hx.nested hn) hm.2 (hu.after first) hc⟩
    simpa [Form.collectAll] using hu
  | @reference T s name binding T₁ _ _ ht =>
    have hx : T.Extends (Walk.target s name T).2 := extends_target
    rw [ht] at hx
    have hset : T.Settled T' :=
      ((Walk.changes_target ht).append hc).settled fun n hn => hu.new n (List.mem_append_right _ hn)
    exact ⟨Walk.refers ht hs hn hc.extends.later hset ha, trivial⟩
  | @block T s fs T₁ hw ih =>
    have hm : Form.collectAll Form.malformed? T.size fs = [] := by
      simpa [Form.collectAll, Form.collect, Form.malformed?] using hm
    have hu : T.Unused ([] ++ (Form.collectAll Form.declares? T.size fs ++ ms)) := by
      simpa [Form.collectAll, Form.collect, Form.declares?] using hu
    have inside : T.size < (T.push .block s).size := Scopes.lt_size_push
    have pushed : T.Extends (T.push .block s) := Scopes.extends_push hs _
    have later := ((hw.changes inside hm).append hc).extends.later
    refine ⟨⟨Scopes.Opens.later ⟨?_, ?_⟩ later inside (pushed.lt hs),
      ih inside (hn.push hs _) hm (hu.after (.block hs)) hc⟩, trivial⟩
    · rw [Scopes.scope_push_size]
      rfl
    · rw [pushed.later.chain hs, Scopes.chain, Scopes.scope_push_size]
      rfl
  | @declare T s name init T₁ hw ih =>
    have hm : Form.collectAll Form.malformed? s [init] = [] := by
      simpa [Form.collectAll, Form.collect, Form.malformed?] using hm
    have hs' : s < (T.modify s (·.declare name)).size := by rwa [Scopes.size_modify]
    have hu : T.Unused ([name] ++ (Form.collectAll Form.declares? s [init] ++ ms)) := by
      refine hu.perm ?_
      simp [Form.collectAll, Form.collect, Form.declares?]
    refine ⟨⟨?_, (ih hs' (hn.modify (Scopes.adds_declare name)) hm (hu.after (.declare hs)) hc).1⟩,
      trivial⟩
    exact ((hw.changes hs' hm).append hc).extends.later.declared s name hs'
      ((Scopes.mem_declared_declare hs).2 (Or.inr ⟨rfl, rfl⟩))
  | @assign T s name binding value T₂ T₁ _ ht hw ih =>
    have hm : Form.collectAll Form.malformed? s [value] = [] := by
      simpa [Form.collectAll, Form.collect, Form.malformed?] using hm
    have hu : T.Unused ([] ++ (Form.collectAll Form.declares? s [value] ++ ms)) := by
      simpa [Form.collectAll, Form.collect, Form.declares?] using hu
    have hx : T.Extends (Walk.target s name T).2 := extends_target
    rw [ht] at hx
    have bound := Walk.changes_target ht
    have rest := (hw.changes (hx.lt hs) hm).append hc
    have hset : T.Settled T' := (bound.append rest).settled hu.new
    exact ⟨⟨Walk.refers ht hs hn rest.extends.later hset ha,
      (ih (hx.lt hs) (hx.nested hn) hm (hu.after bound) hc).1⟩, trivial⟩
  | @define T s name params body U T₁ hU hw ih =>
    have hm : Form.collectAll Form.malformed? U.size [body] = [] := by
      simpa [Form.collectAll, Form.collect, Form.malformed?] using hm
    have hu : T.Unused ((name :: params) ++ (Form.collectAll Form.declares? U.size [body] ++ ms)) := by
      refine hu.perm ?_
      simpa [Form.collectAll, Form.collect, Form.declares?] using
        (List.perm_append_comm_assoc (body.collect Form.declares? U.size) (name :: params) ms)
    have hsU : s < U.size := by rwa [hU, Scopes.size_modify]
    have inside : U.size < (U.openFunction s (name :: params)).size := Scopes.lt_size_openFunction
    have opened : U.Extends (U.openFunction s (name :: params)) := Scopes.extends_openFunction hsU
    have start : T.Extends (U.openFunction s (name :: params)) :=
      (hU ▸ Scopes.extends_declare : T.Extends U).trans opened
    have defined : T.Changes (name :: params) (U.openFunction s (name :: params)) :=
      hU ▸ Scopes.Changes.define hs
    have rest := (hw.changes inside hm).append hc
    refine ⟨⟨?_, Scopes.opensFunction_define hU hs rest ?_,
      (ih inside (start.nested hn) hm (hu.after defined) hc).1⟩,
      trivial⟩
    · refine (opened.later.trans rest.extends.later).declared s name hsU ?_
      rw [hU, Scopes.mem_declared_declare hs]
      exact Or.inr ⟨rfl, rfl⟩
    · have := hu.nodup
      rw [← List.append_assoc] at this
      simpa [Form.collectAll] using (List.nodup_append.1 this).1
  | @lambda T s label params body T₁ _ hl hw ih =>
    have hm : Form.collectAll Form.malformed? T.size [body] = [] := by
      simpa [Form.collectAll, Form.collect, Form.malformed?] using hm
    have hu : T.Unused (params ++ (Form.collectAll Form.declares? T.size [body] ++ ms)) := by
      refine hu.perm ?_
      simpa [Form.collectAll, Form.collect, Form.declares?] using
        (List.perm_append_comm_assoc (body.collect Form.declares? T.size) params ms)
    have inside : T.size < (T.openFunction s params).size := Scopes.lt_size_openFunction
    have rest := (hw.changes inside hm).append hc
    have rest' : Scopes.Changes (body.collect Form.declares? T.size ++ ms) (T.openFunction s params) T' := by
      simpa [Form.collectAll] using rest
    have hu' : T.Unused (params ++ body.collect Form.declares? T.size ++ ms) := by
      rw [← List.append_assoc] at hu
      simpa [Form.collectAll] using hu
    exact ⟨⟨Scopes.opensFunction_lambda hl hs rest' hu' ha,
      (ih inside ((Scopes.extends_openFunction hs).nested hn) hm (hu.after (.lambda hs)) hc).1⟩, trivial⟩
  | forLoop _ ih =>
    have all := ih hs hn ?_ (hu.perm ((Form.perm_forLoop _ rfl).symm.append_right _)) hc
    · obtain ⟨init, test, modifier, body, -⟩ := all
      exact ⟨⟨init, test, modifier, body⟩, trivial⟩
    · simp_all [Form.collectAll, Form.collect, Form.malformed?]
  | ifThen _ ih | whileLoop _ ih | operation _ ih =>
    have all := ih hs hn ?_ ?_ hc
    · obtain ⟨first, second, -⟩ := all
      exact ⟨⟨first, second⟩, trivial⟩
    · simpa [Form.collectAll, Form.collect, Form.malformed?] using hm
    · simpa [Form.collectAll, Form.collect, Form.declares?] using hu
  | ifElse _ ih =>
    have all := ih hs hn ?_ ?_ hc
    · obtain ⟨test, thn, els, -⟩ := all
      exact ⟨⟨test, thn, els⟩, trivial⟩
    · simpa [Form.collectAll, Form.collect, Form.malformed?, and_assoc] using hm
    · simpa [Form.collectAll, Form.collect, Form.declares?] using hu
  | call _ ih =>
    have all := ih hs hn ?_ ?_ hc
    · exact ⟨⟨all.1, all.2⟩, trivial⟩
    · simpa [Form.collectAll, Form.collect, Form.malformed?] using hm
    · simpa [Form.collectAll, Form.collect, Form.declares?] using hu

/-- Each block has a scope of its own, which is opened on the way. -/
theorem Walks.blocks (h : Walks P T s fs T₁) (hs : s < T.size) :
    (Form.collectAll Form.block? s fs).Nodup ∧
      ∀ b ∈ Form.collectAll Form.block? s fs, T.size ≤ b ∧ b < T₁.size := by
  induction h with
  | nil | number | string | boolean | reference | malformed =>
    exact ⟨List.nodup_nil, nofun⟩
  | @cons T s f g fs T₂ T₁ h₁ h₂ ih₁ ih₂ =>
    have hx := h₁.extends hs
    have hx₂ := h₂.extends (hx.lt hs)
    obtain ⟨hd₁, hb₁⟩ := ih₁ hs
    obtain ⟨hd₂, hb₂⟩ := ih₂ (hx.lt hs)
    rw [Form.collectAll, Form.collectAll, List.append_nil] at hd₁ hb₁
    rw [Form.collectAll]
    refine ⟨List.nodup_append.2 ⟨hd₁, hd₂, fun b hb b' hb' => Nat.ne_of_lt ?_⟩, fun b hb => ?_⟩
    · exact Nat.lt_of_lt_of_le (hb₁ b hb).2 (hb₂ b' hb').1
    · rcases List.mem_append.1 hb with hb | hb
      · exact ⟨(hb₁ b hb).1, Nat.lt_of_lt_of_le (hb₁ b hb).2 hx₂.later.size⟩
      · exact ⟨Nat.le_trans hx.later.size (hb₂ b hb).1, (hb₂ b hb).2⟩
  | @block T s fs T₁ hw ih =>
    have inside : T.size < (T.push .block s).size := Scopes.lt_size_push
    obtain ⟨hd, hb⟩ := ih inside
    have hx := (hw.extends inside).later.size
    simp only [Form.collectAll, Form.collect, Form.block?, List.append_nil]
    refine ⟨List.nodup_append.2 ⟨hd, List.nodup_singleton _, fun b hm b' hm' => ?_⟩, fun b hm => ?_⟩
    · rw [List.mem_singleton.1 hm']
      exact Nat.ne_of_gt (Nat.lt_of_lt_of_le inside (hb b hm).1)
    · rcases List.mem_append.1 hm with hm | hm
      · exact ⟨Nat.le_trans (Nat.le_of_lt inside) (hb b hm).1, (hb b hm).2⟩
      · rw [List.mem_singleton.1 hm]
        exact ⟨Nat.le_refl _, Nat.lt_of_lt_of_le inside hx⟩
  | @declare T s name init T₁ _ ih =>
    have := ih (by rwa [Scopes.size_modify])
    rw [Scopes.size_modify] at this
    simpa [Form.collectAll, Form.collect, Form.block?] using this
  | @assign T s name binding value T₂ T₁ _ ht _ ih =>
    have hx : T.Extends (Walk.target s name T).2 := extends_target
    rw [ht] at hx
    obtain ⟨hd, hb⟩ := ih (hx.lt hs)
    simp only [Form.collectAll, Form.collect, Form.block?, List.append_nil] at hd hb ⊢
    exact ⟨hd, fun b hm => ⟨Nat.le_trans hx.later.size (hb b hm).1, (hb b hm).2⟩⟩
  | @define T s name params body U T₁ hU _ ih =>
    have hsU : s < U.size := by rwa [hU, Scopes.size_modify]
    have hsize : T.size ≤ (U.openFunction s (name :: params)).size := by
      have : U.Extends (U.openFunction s (name :: params)) := Scopes.extends_openFunction hsU
      rw [← Scopes.size_modify (T := T) (s := s) (f := (·.declare name)), ← hU]
      exact this.later.size
    obtain ⟨hd, hb⟩ := ih Scopes.lt_size_openFunction
    simp only [Form.collectAll, Form.collect, Form.block?, List.append_nil] at hd hb ⊢
    exact ⟨hd, fun b hm => ⟨Nat.le_trans hsize (hb b hm).1, (hb b hm).2⟩⟩
  | @lambda T s label params body T₁ _ _ _ ih =>
    have hx : T.Extends (T.openFunction s params) := Scopes.extends_openFunction hs
    obtain ⟨hd, hb⟩ := ih Scopes.lt_size_openFunction
    simp only [Form.collectAll, Form.collect, Form.block?, List.append_nil] at hd hb ⊢
    exact ⟨hd, fun b hm => ⟨Nat.le_trans hx.later.size (hb b hm).1, (hb b hm).2⟩⟩
  | @forLoop T s init test modifier body T₁ _ ih =>
    obtain ⟨hd, hb⟩ := ih hs
    have hp : (Form.collectAll Form.block? s [init, test, modifier, body]).Perm _ :=
      Form.perm_forLoop _ rfl
    exact ⟨hp.nodup_iff.1 hd, fun b hm => hb b (hp.mem_iff.2 hm)⟩
  | ifThen _ ih | ifElse _ ih | whileLoop _ ih | operation _ ih | call _ ih =>
    simpa [Form.collectAll, Form.collect, Form.block?] using ih hs

end

/-! ## References and captured names -/

namespace Form

variable {T : Scopes}

mutual

/-- The references within a scoped form are bound as the table says. -/
theorem Scoped.refers {s : ScopeId} {f : Form} (h : f.Scoped T s) :
    ∀ r ∈ f.collect reference? s, T.Refers r.scope r.name r.binding := by
  cases f with
  | number | string | boolean | malformed => nofun
  | reference name binding =>
    intro r hr
    cases List.mem_singleton.1 hr
    exact h
  | block b fs => simpa [collect, reference?] using h.2.refers
  | declare name init => simpa [collect, reference?] using h.2.refers
  | assign name binding value =>
    simp only [collect, reference?, List.forall_mem_append, List.forall_mem_singleton]
    exact ⟨h.2.refers, h.1⟩
  | ifThen test thn => simpa [collect, reference?, or_imp, forall_and] using ⟨h.1.refers, h.2.refers⟩
  | ifElse test thn els =>
    obtain ⟨ht, hc, ha⟩ := h
    simpa [collect, reference?, or_imp, forall_and, and_assoc] using
      ⟨ht.refers, hc.refers, ha.refers⟩
  | whileLoop test body =>
    simpa [collect, reference?, or_imp, forall_and] using ⟨h.1.refers, h.2.refers⟩
  | forLoop init test modifier body =>
    obtain ⟨hi, ht, hm, hb⟩ := h
    simpa [collect, reference?, or_imp, forall_and, and_assoc] using
      ⟨hi.refers, ht.refers, hb.refers, hm.refers⟩
  | define name f params body => simpa [collect, reference?] using h.2.2.refers
  | lambda label f params body => simpa [collect, reference?] using h.2.refers
  | operation op x y => simpa [collect, reference?, or_imp, forall_and] using ⟨h.1.refers, h.2.refers⟩
  | call callee args => simpa [collect, reference?, or_imp, forall_and] using ⟨h.1.refers, h.2.refers⟩

/-- So are those within some scoped forms. -/
theorem AllScoped.refers {s : ScopeId} {fs : List Form} (h : AllScoped T s fs) :
    ∀ r ∈ collectAll reference? s fs, T.Refers r.scope r.name r.binding := by
  cases fs with
  | nil => nofun
  | cons f fs => exact List.forall_mem_append.2 ⟨h.1.refers, h.2.refers⟩

end

end Form

namespace Scopes

variable {T : Scopes} {s f o : ScopeId} {n : String}

/-- A name that is free in the scope `f` means a variable of the scope `o` around it, which is a
    cell. -/
structure Captured (T : Scopes) (f : ScopeId) (n : String) (o : ScopeId) : Prop where
  found : T.lookup f n = some o
  outside : o ≠ f
  kind : (T.scope o).kind ≠ .global
  cell : n ∈ (T.scope o).cells

/-- A reference that captures a name passes scopes in which the name means the same. -/
theorem Refers.captured {r : Form.Reference} (h : T.Refers r.scope r.name r.binding) (hn : T.Nested)
    (hp : r.Passes T f o) : T.Captured f r.name o := by
  obtain ⟨hbinding, hc, hf⟩ := hp
  have hk : (T.scope o).kind ≠ .global := by
    simp only [captures, Bool.and_eq_true, decide_eq_true_eq] at hc
    exact hc.1
  obtain ⟨ho, hcell⟩ := h.found o (by rw [hbinding]; rfl) hk
  have hne : f ≠ o := by simpa using List.mem_takeWhile_imp hf
  refine ⟨?_, hne.symm, hk, hcell hc⟩
  obtain ⟨hod, near, far, hchain, hnear⟩ := List.find?_eq_some_iff_append.1 ho
  have hpath : T.pathTo r.scope o = near := by
    have hno : ∀ t ∈ near, decide (t ≠ o) = true := fun t ht => decide_eq_true fun h => by
      have := hnear t ht
      simp [h, hod] at this
    rw [pathTo, hchain, List.takeWhile_append_of_pos hno, List.takeWhile_cons_of_neg (by simp),
      List.append_nil]
  obtain ⟨as, bs, hnear'⟩ := List.append_of_mem (hpath ▸ hf)
  have hsplit : T.chain r.scope = as ++ f :: (bs ++ o :: far) := by
    rw [hchain, hnear', List.append_assoc, List.cons_append]
  have houter : (T.scope f).outer = bs ++ o :: far := hn.outer_eq h.inside hsplit
  rw [lookup, chain, houter, List.find?_eq_some_iff_append]
  exact ⟨hod, f :: bs, far, rfl, fun t ht => hnear t (hnear' ▸ List.mem_append_right as ht)⟩

end Scopes

/-! ## The scopes of one function -/

namespace Scopes

variable {T : Scopes} {s t o b f : ScopeId} {n : String}

theorem Opens.within_block (h : T.Opens .block b s) : T.within b = b :: T.within s :=
  Scopes.within_block h.kind h.chain

theorem home_function (h : (T.scope f).kind = .function) : T.home f = f := by
  rw [home, chain, List.find?_cons_of_pos (by simpa using h)]
  rfl

theorem Opens.home_block (h : T.Opens .block b s) : T.home b = T.home s := by
  rw [home, h.chain, List.find?_cons_of_neg (by simp [h.kind]), home]

/-- The scopes of one function have the same home. -/
theorem home_within (hn : T.Nested) (hs : s < T.size) (ht : t ∈ T.within s) : T.home t = T.home s := by
  induction s using Nat.strongRecOn with
  | ind s ih =>
    cases hk : (T.scope s).kind with
    | global =>
      rw [within_global hk] at ht
      cases ht
    | function =>
      rw [within_function hk] at ht
      rw [List.mem_singleton.1 ht]
    | block =>
      rcases hn s hs with ho | ⟨p, hp, ho⟩
      · rw [within, chain, ho, inner, hk] at ht
        rw [List.mem_singleton.1 ht]
      · have hb : T.Opens .block s p := ⟨hk, by rw [chain, ho]⟩
        rw [hb.within_block] at ht
        rcases List.mem_cons.1 ht with rfl | ht
        · rfl
        · rw [ih p hp (Nat.lt_trans hp hs) ht, hb.home_block]

/-- A reference to a declaration outside its function captures it. -/
theorem Once.captures (hT : T.Once) (hs : s < T.size) (ho : o ∈ T.chain s)
    (hk : (T.scope o).kind ≠ .global) (hout : o ∉ T.within s) : T.captures s o = true := by
  rw [Scopes.captures, Bool.and_eq_true, decide_eq_true_eq, List.any_eq_true]
  obtain ⟨f, hf, hkf, hin⟩ :=
    (hT.nested.within_or_function (fun _ => hT.global) hs ho hk).resolve_left hout
  exact ⟨hk, f, (mem_pathTo hT.nested hs ho).2 ⟨mem_chain_of_within hf, hin⟩, by simpa using hkf⟩

theorem home_le (hn : T.Nested) (hs : s < T.size) : T.home s ≤ s := by
  rw [home]
  cases h : (T.chain s).find? fun t => decide ((T.scope t).kind = .function) with
  | none => exact Nat.zero_le s
  | some f => exact hn.le_of_mem hs (List.mem_of_find?_eq_some h)

end Scopes

/-! ## Programs -/

/-- The program declares no name twice, and no name that means something else. -/
structure Form.Distinct (program : Form) : Prop where
  nodup : program.declares.Nodup
  allowed : ∀ n ∈ program.declares, Head.ofSymbol? n = none ∧ isTruth n = false

/-- The table of scopes of a program that declares no name twice. -/
structure Scopes.Fits (T : Scopes) (program : Form) : Prop where
  once : T.Once
  inside : Scopes.root < T.size
  root : (T.scope Scopes.root).kind = .global
  forms : Form.AllScoped T Scopes.root program.top
  blocks : (Form.collectAll Form.block? Scopes.root program.top).Nodup
  captured : ∀ f n, n ∈ (T.scope f).free → ∃ o, T.Captured f n o

/-- The walk over a program that declares no name twice gives such a table. -/
theorem Expr.resolveProgram_fits (e : Expr)
    (hm : (Form.ofResolved "lambda" e.resolveProgram.1).collect Form.malformed? Scopes.root = [])
    (hd : (Form.ofResolved "lambda" e.resolveProgram.1).Distinct) :
    e.resolveProgram.2.Fits (Form.ofResolved "lambda" e.resolveProgram.1) := by
  have walked := e.resolveProgram_walks
  have inside : Scopes.root < Scopes.initial.size := Nat.zero_lt_one
  have malformed := (Form.collectAll_top (fun _ => rfl) _).trans hm
  have changes := walked.changes inside malformed
  rw [Form.collectAll_top fun _ => rfl] at changes
  have unnamed (n : String) : ¬ Scopes.initial.Names n := by
    rintro ⟨t, ht⟩
    have := Scopes.lt_size_of_declared ht
    have : t = 0 := Nat.lt_one_iff.1 this
    subst this
    cases ht
  have allowed : e.resolveProgram.2.Allowed := fun n hn => by
    have := hd.allowed n ((changes.names hn).resolve_left (unnamed n))
    refine ⟨?_, this.2⟩
    rintro rfl
    cases this.1
  have unused : Scopes.initial.Unused (Form.collectAll Form.declares? Scopes.root
      (Form.ofResolved "lambda" e.resolveProgram.1).top ++ []) := by
    rw [List.append_nil, Form.collectAll_top fun _ => rfl]
    exact ⟨hd.nodup, fun n _ => unnamed n⟩
  have forms := walked.scoped inside Scopes.nested_initial malformed unused .refl allowed
  have once := changes.once hd.nodup (fun n _ => unnamed n) Scopes.once_initial
  have later := (walked.extends inside).later
  refine ⟨once, Nat.lt_of_lt_of_le inside later.size, later.kind _ inside, forms,
    (walked.blocks inside).1, fun f n hf => ?_⟩
  rcases walked.free inside Scopes.nested_initial malformed (.refl _) hf with hf | ⟨r, hr, o, rfl, hp⟩
  · cases f <;> cases hf
  · exact ⟨o, (forms.refers r hr).captured once.nested hp⟩

end ByteLisp
