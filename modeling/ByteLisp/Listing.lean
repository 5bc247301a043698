/-
  ByteLisp: listings of code.

  * `Listing.line` writes one instruction: its place, its bytes, its mnemonic and
    its operand, with the name or the value that the operand stands for;
  * `Listing.ofCode` lists one code object;
  * `Listing.reachable` is a code object and those that can be reached through
    constants, each once, in depth-first order (constants in their order);
  * `Listing.all` lists all of them, with an empty line between two listings.
-/
import ByteLisp.Comparison
import ByteLisp.Globals
import ByteLisp.Text.Blank

namespace ByteLisp

namespace Listing

/-! ## One code object -/

/-- What an operand stands for, if it stands for something. -/
def meaning (heap : Heap) (globals : Globals) (c : Code) : Instr → Option String
  | .const ix => some (((c.constant? ix.toNat).map heap.display).getD "?")
  | .cmp code => some (((Comparison.ofCode? code).map (·.symbol)).getD "?")
  | .getGlobal ix | .setGlobal ix => some ((globals.name? ix.toNat).getD "?")
  | .getLocal ix | .setLocal ix => some ((c.localName? ix.toNat).getD "?")
  | .getCell ix | .setCell ix | .loadCell ix => some ((c.cellName? ix.toNat).getD "?")
  | _ => none

/-- The operand of an instruction with what it stands for. -/
def operand (heap : Heap) (globals : Globals) (c : Code) (i : Instr) : String :=
  match i.address?, i.arg? with
  | some address, _ => Text.hex 4 address.toNat
  | none, some arg =>
    match meaning heap globals c i with
    | some text => toString arg.toNat ++ " (" ++ text ++ ")"
    | none => toString arg.toNat
  | none, none => ""

/-- The bytes of an instruction in hexadecimal. -/
def bytes (i : Instr) : String :=
  String.join (i.encode.map fun b => Text.hex 2 b.toNat ++ " ")

/-- One instruction. -/
def line (heap : Heap) (globals : Globals) (c : Code) (pos : Nat) (i : Instr) : String :=
  Text.trimEndString (Text.hex 4 pos ++ "    " ++ Text.padRight 12 (bytes i) ++
    Text.padRight 20 i.op.name ++ operand heap globals c i)

/-- The title of a listing. -/
def title (c : Code) : String := s!"---------------- Disassembly: {c.name} ----------------"

/-- One code object. -/
def ofCode (heap : Heap) (globals : Globals) (c : Code) : Except Code.DecodeError String := do
  let instrs ← c.instrs
  let lines := title c :: instrs.map fun x => line heap globals c x.1 x.2
  pure (String.join (lines.map (· ++ "\n")))

/-! ## Code objects within code objects -/

/-- The code object that a constant leads to. -/
def codeOf? (heap : Heap) (v : Value) : Option Handle := do
  let h ← v.handle?
  match ← heap.get? h with
  | .code _ => some h
  | .function f => some f.code
  | _ => none

/-- The code objects that the constants of a code object lead to, in order. -/
def nested (heap : Heap) (c : Code) : List Handle := c.constants.toList.filterMap (codeOf? heap)

/-- The handles that have not been visited. -/
def unvisited (heap : Heap) (visited : List Handle) : List Handle :=
  (List.range heap.size).filter fun h => !visited.contains h

theorem unvisited_lt (heap : Heap) (visited : List Handle) (h : Handle) (c : Code)
    (hc : heap.code? h = some c) (hv : visited.contains h = false) :
    (unvisited heap (h :: visited)).length < (unvisited heap visited).length := by
  have hlt : h < heap.size := by
    simp only [Heap.code?, Heap.get?] at hc
    split at hc
    · rename_i _ ho; exact (Array.getElem?_eq_some_iff.1 ho).1
    · cases hc
  have hsub : unvisited heap (h :: visited) =
      (unvisited heap visited).filter (fun x => x ≠ h) := by
    simp only [unvisited, List.filter_filter]
    refine List.filter_congr fun x _ => ?_
    by_cases hx : x = h <;> simp [hx]
  rw [hsub]
  refine List.length_filter_lt_length_iff_exists.2 ⟨h, ?_, by simp⟩
  simpa [unvisited, hlt] using hv

/-- The code objects that are pending or can be reached from these, without those
    visited before and those reached only through them. -/
def reachableFrom (heap : Heap) (visited : List Handle) : List Handle → List Code
  | [] => []
  | h :: pending =>
    if _ : visited.contains h then reachableFrom heap visited pending
    else
      match _ : heap.code? h with
      | none => reachableFrom heap visited pending
      | some c => c :: reachableFrom heap (h :: visited) (nested heap c ++ pending)
termination_by pending => ((unvisited heap visited).length, pending.length)
decreasing_by
  · exact Prod.Lex.right _ (by simp)
  · exact Prod.Lex.right _ (by simp)
  · exact Prod.Lex.left _ _ (unvisited_lt heap visited h c ‹_› (Bool.eq_false_iff.2 ‹_›))

/-- A code object and those that can be reached from it, in depth-first order. -/
def reachable (heap : Heap) (root : Handle) : List Code := reachableFrom heap [] [root]

/-- A code object and those that can be reached from it. -/
def all (heap : Heap) (globals : Globals) (root : Handle) : Except Code.DecodeError String := do
  let listings ← (reachable heap root).mapM (ofCode heap globals)
  pure ("\n".intercalate listings)

end Listing

end ByteLisp
