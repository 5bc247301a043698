/-
  ByteLisp: a compilation that fails changes no variable.

  * `Engine.compile_globals`: after a compilation that fails the global variables
    are as before, after one that succeeds only those that the program declares at
    its top have been added; nothing on the heap has changed.
-/
import ByteLisp.Proofs.Engine.Safety
import ByteLisp.Proofs.Generation.Defined

namespace ByteLisp

namespace Engine

/-- All objects are still there, unchanged. -/
def KeepsHeap (e e' : Engine) : Prop := ∀ i o, e.heap.get? i = some o → e'.heap.get? i = some o

/-- The global variables are those from before, in their places and with their values, and after
    them once each the names at the top of the program that are new, without a value. -/
def AddsTopNames (program : Expr) (e e' : Engine) : Prop :=
  ∃ ns, e'.globals = e.globals.adding ns ∧ ns.Nodup ∧
    ∀ n, n ∈ ns ↔ n ∈ program.topNames ∧ n ∉ e.globals.names

theorem ends_compileProgram_globals (program : Expr) (e : Engine) :
    Ends (compileProgram program) e (fun _ e' => e.KeepsHeap e' ∧ AddsTopNames program e e')
      fun _ e' => e.KeepsHeap e' ∧ e'.globals = e.globals := by
  have hx : World.Extends (· ∈ program.topNames) e.world
      (program.compile e.heap e.globals).world := Expr.compile_extends Expr.admits_topNames
  refine ends_bind (ends_get (ends_bind (ends_set (ends_bind (ends_debugAll fun log => ?_)))))
  cases hr : (program.compile e.heap e.globals).result with
  | ok main => exact ends_bind (ends_modify (ends_pure ⟨hx.heap, Expr.compile_adding hr⟩))
  | error err => exact ends_bind (ends_modify (ends_throw ⟨hx.heap, hx.added.truncate⟩))

/-- A compilation that fails, in whichever way, leaves the global variables as they were. One that
    succeeds adds exactly the names at the top of the program that are new. Both keep the heap. -/
theorem compile_globals (src : List Char) (e : Engine) :
    Ends (compile src) e
      (fun _ e' => e.KeepsHeap e' ∧ ∃ program, Expr.parseProgram src = .ok program ∧
        AddsTopNames program e e')
      fun _ e' => e.KeepsHeap e' ∧ e'.globals = e.globals := by
  refine ends_bind (ends_parse (fun program log hp => ?_) fun _ _ => ⟨fun _ _ h => h, rfl⟩)
  exact (ends_compileProgram_globals program { e with log := log }).mono
    (fun _ _ h => ⟨h.1, program, hp, h.2⟩) fun _ _ h => h

end Engine

end ByteLisp
