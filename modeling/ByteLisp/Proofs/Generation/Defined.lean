/-
  ByteLisp: which global variables a compilation adds.

  Code generation defines a variable when it is declared at the top of a program,
  or when such a variable is first used.

  * `Expr.admits_topNames`: nothing else is defined, whether the compilation
    succeeds or fails;
  * `Coded.defined`: all of them are, if it succeeds;
  * `Expr.compile_added` and `Expr.compile_defined` say this of programs.
-/
import ByteLisp.Proofs.Generation.Access
import ByteLisp.Proofs.Scope.Declared

namespace ByteLisp

section

variable {T : Scopes} {W : World} {c : Code} {s : ScopeId} {v : View} {n : String}

/-- A name that a scope declares means its own variable there. -/
theorem Scopes.storageOf_declared (hn : n ∈ (T.scope s).declared) :
    T.storageOf s n .unbound = T.storage (some s) n := by
  have found : T.lookup s n = some s := by
    rw [Scopes.lookup, Scopes.chain]
    exact List.find?_cons_of_pos (by simpa [Scope.declares] using hn)
  rw [Scopes.storageOf, found]

theorem Scopes.storage_global {o : ScopeId} :
    T.storage (some o) n = .global ↔ (T.scope o).kind = .global := by
  rw [Scopes.storage]
  cases (T.scope o).kind with
  | global => simp
  | _ => simp only [reduceCtorEq, iff_false]; split <;> simp

theorem Declares.defined {direct : Bool} {o : Outcome} {store : List Instr}
    (h : Declares T W s v n direct o store) (hs : T.storageOf s n .unbound = .global) :
    n ∈ W.globals.names := by
  cases h with
  | global _ hn => exact Globals.mem_names_of_name? hn
  | cell hc | inside hc | slot hc =>
    rw [hs] at hc
    cases hc

/-- Each variable that is declared globally is in the table. -/
theorem Coded.defined {task : Task} {pos : Nat} {code : List Instr} {as : List Access}
    (h : Coded T W c s task v pos code as) :
    ∀ d ∈ task.collect Form.declaration? s, T.storageOf d.1 d.2 .unbound = .global →
      d.2 ∈ W.globals.names := by
  induction h with
  | number | string | boolean | reference | empty | noArgs | noDrops =>
    intro d hm
    simp [Task.collect, Form.collect, Form.collectAll, Form.declaration?] at hm
  | declare _ hd ih =>
    intro d hm hg
    simp only [Task.collect, Form.collect, Form.declaration?, List.mem_append,
      List.mem_singleton] at hm
    rcases hm with hm | rfl
    · exact ih d hm hg
    · exact hd.defined hg
  | define _ hd ih =>
    intro d hm hg
    simp only [Task.collect, Form.collect, Form.declaration?, List.mem_append,
      List.mem_singleton] at hm
    rcases hm with hm | rfl
    · exact ih d hm hg
    · exact hd.defined hg
  | ifThen _ ih =>
    intro d hm hg
    exact ih d (by simpa [Task.collect, Form.collect, Form.declaration?] using hm) hg
  | loop _ _ _ _ _ ih₁ ih₂ _ =>
    intro d hm hg
    rcases List.mem_append.1 hm with hm | hm
    · exact ih₁ d hm hg
    · exact ih₂ d hm hg
  | _ =>
    intro d hm hg
    simp only [Task.collect, Form.collect, Form.collectAll, Form.declaration?, List.append_nil,
      List.mem_append] at *
    grind

end

/-! ## Programs -/

namespace Expr

variable {e : Expr} {heap : Heap} {globals : Globals}

/-- Code generation defines no names but those at the top of the program. -/
theorem admits_topNames : Form.Admits e.resolveProgram.2 (· ∈ e.topNames) Scopes.root
    [Form.ofResolved "lambda" e.resolveProgram.1] where
  top _ hn := mem_topNames.2 hn
  declared d hd hg := by
    have inside : Scopes.root < Scopes.initial.size := Nat.zero_lt_one
    rw [Form.collectAll, Form.collectAll, List.append_nil, ← Form.collectAll_top fun _ => rfl] at hd
    obtain ⟨-, declared, inner⟩ := e.resolveProgram_walks.declarations inside d hd
    rw [Scopes.storageOf_declared declared, Scopes.storage_global] at hg
    have root : d.1 = Scopes.root := inner.resolve_right (not_not_intro hg)
    rw [root] at declared
    rw [mem_topNames, Scopes.isGlobal, Scope.declares, List.contains_iff_mem]
    exact declared

/-- However a compilation ends, it adds only variables without a value, and only those at the top
    of the program. -/
theorem compile_added : globals.Adds (· ∈ e.topNames) (e.compile heap globals).globals :=
  (compile_extends admits_topNames).added

/-- A compilation that succeeds defines all variables at the top of the program. -/
theorem compile_defined {main : Handle} (h : (e.compile heap globals).result = .ok main) :
    ∀ n ∈ e.topNames, n ∈ (e.compile heap globals).globals.names := by
  intro n hn
  obtain ⟨⟨c, -, -, -, -, code, as, hcoded, -⟩, -⟩ := compile_ok h
  have inside : Scopes.root < Scopes.initial.size := Nat.zero_lt_one
  have walked := e.resolveProgram_walks
  have malformed := (Form.collectAll_top (fun _ => rfl) _).trans hcoded.no_malformed
  have declared : n ∈ (e.resolveProgram.2.scope Scopes.root).declared := by
    rw [mem_topNames, Scopes.isGlobal, Scope.declares, List.contains_iff_mem] at hn
    exact hn
  rcases walked.declared_of_mem inside inside malformed declared with hn | hd
  · cases hn
  · rw [Form.collectAll_top fun _ => rfl] at hd
    refine hcoded.defined (Scopes.root, n) hd ?_
    rw [Scopes.storageOf_declared declared, Scopes.storage_global]
    exact (walked.extends inside).later.kind _ inside

/-- A compilation that succeeds adds exactly the variables at the top of the program that are not
    there yet. -/
theorem compile_adding {main : Handle} (h : (e.compile heap globals).result = .ok main) :
    ∃ ns, (e.compile heap globals).globals = globals.adding ns ∧ ns.Nodup ∧
      ∀ n, n ∈ ns ↔ n ∈ e.topNames ∧ n ∉ globals.names := by
  obtain ⟨ns, hns, hd, hnew⟩ := compile_added
  refine ⟨ns, hns, hd, fun n => ⟨hnew n, fun ⟨hn, hg⟩ => ?_⟩⟩
  have := compile_defined h n hn
  rw [hns, Globals.names_adding, List.mem_append] at this
  exact this.resolve_left hg

end Expr

end ByteLisp
