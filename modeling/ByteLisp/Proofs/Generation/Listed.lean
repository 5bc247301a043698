/-
  ByteLisp: the listings of a program.

  A compilation allocates a code object for each function and one for the program. Each
  is, at once or as the code of a function, among the constants of the one around it.

  * `Supplies.contains`: new code objects are led to by the constants supplied;
  * `Expr.compile_leads`: the code objects of a program are those its main one leads to;
  * `Listing.all_in_preorder`: what a listing shows, and in which order.
-/
import ByteLisp.Proofs.Code.Preorder
import ByteLisp.Proofs.Code.WellFormed
import ByteLisp.Proofs.Generation.Pools

namespace ByteLisp

open Listing

/-! ## What new constants lead to -/

section

variable {h h' : Heap} {cs cs' : Array Value} {v : Value} {ds : List Demand} {ixs : List UInt8}
  {i j k : Handle} {c : Code}

theorem Heap.Kept.leads (hk : h.Kept h') (hl : Leads h i j) : Leads h' i j := by
  refine hl.lift id fun a b => ?_
  rintro ⟨c, hc, hb⟩
  obtain ⟨v, hv, hb⟩ := List.mem_filterMap.1 hb
  exact ⟨c, hk.code? hc, List.mem_filterMap.2 ⟨v, hv, hk.codeOf? hb⟩⟩

/-- Some constants lead to a code object. -/
def LeadTo (h : Heap) (cs : Array Value) (i : Handle) : Prop :=
  ∃ v ∈ cs, ∃ k, Listing.codeOf? h v = some k ∧ Leads h k i

theorem LeadTo.kept (hl : LeadTo h cs i) (hk : h.Kept h') : LeadTo h' cs i := by
  obtain ⟨v, hv, k, hc, hl⟩ := hl
  exact ⟨v, hv, k, hk.codeOf? hc, hk.leads hl⟩

/-- A code object leads to what its constants lead to. -/
theorem LeadTo.leads (hl : LeadTo h c.constants i) (hk : h.code? k = some c) : Leads h k i := by
  obtain ⟨v, hv, j, hc, hl⟩ := hl
  exact .head ⟨c, hk, List.mem_filterMap.2 ⟨v, Array.mem_toList_iff.2 hv, hc⟩⟩ hl

/-- A constant that leads to code is taken itself: no other one is the same. -/
theorem Take.mem {ix : UInt8} (ht : Take h v cs ix cs') (hv : Listing.codeOf? h v = some k) : v ∈ cs' := by
  obtain ⟨u, hu, hs⟩ := ht.place
  obtain ⟨j, rfl, ho⟩ := codeOf?_eq_some.1 hv
  obtain rfl | ⟨_, text, -, -, htext⟩ := Demand.eq_or_string_of_same hs
  · exact Array.mem_of_getElem? hu
  · rw [Heap.string?_eq_some] at htext
    rcases ho with ⟨⟨c, hc⟩, -⟩ | ⟨f, hf, -⟩
    · rw [htext] at hc
      cases hc
    · rw [htext] at hf
      cases hf

/-- All new code objects are led to by the constants that were supplied. -/
theorem Supplies.leadTo (hs : Supplies h cs ds ixs h' cs') (hi : h.size ≤ i) (hc : h'.code? i = some c) :
    LeadTo h' cs' i := by
  induction hs with
  | nil | number | boolean => exact absurd (Heap.lt_size_of_code? hc) (Nat.not_lt.2 hi)
  | @append h₁ cs₁ _ _ h₂ cs₂ _ _ h₃ cs₃ _ hs' ih ih' =>
    rcases Nat.lt_or_ge i h₂.size with hlt | hge
    · obtain ⟨v, hv, hl⟩ := (ih hi (hs'.kept.code?_of_lt hlt hc)).kept hs'.kept
      obtain ⟨n, hn⟩ := Array.mem_iff_getElem?.1 hv
      exact ⟨v, Array.mem_of_getElem? (hs'.grows hn), hl⟩
    · exact ih' hge hc
  | string =>
    obtain hc | ⟨-, ⟨⟩⟩ := Heap.code?_alloc_cases hc
    exact absurd (Heap.lt_size_of_code? hc) (Nat.not_lt.2 hi)
  | @constant h cs name params body h' d code ix cs' hs _ _ _ ht ih =>
    have hd : (h'.alloc (.code d)).Kept ((h'.alloc (.code d)).alloc (.function ⟨h'.size, #[]⟩)) :=
      Heap.kept_alloc _ _
    have hcode := hd.code? (Heap.code?_eq_some.2 (Heap.get?_alloc_size h' (.code d)))
    have hf := Heap.get?_alloc_size (h'.alloc (.code d)) (.function ⟨h'.size, #[]⟩)
    rw [Heap.size_alloc] at hf
    have hv := codeOf?_eq_some.2 ⟨_, rfl, Or.inr ⟨_, hf, rfl⟩⟩
    refine ⟨_, ht.mem hv, h'.size, hv, ?_⟩
    obtain hc | ⟨-, ⟨⟩⟩ := Heap.code?_alloc_cases hc
    obtain hc | ⟨rfl, -⟩ := Heap.code?_alloc_cases hc
    · exact ((ih hi hc).kept ((Heap.kept_alloc _ _).trans hd)).leads hcode
    · exact .refl
  | @code h cs name params body h' d code ix cs' hs _ _ _ ht ih =>
    have hd := Heap.get?_alloc_size h' (.code d)
    have hv := codeOf?_eq_some.2 ⟨_, rfl, Or.inl ⟨⟨d, hd⟩, rfl⟩⟩
    refine ⟨_, ht.mem hv, h'.size, hv, ?_⟩
    obtain hc | ⟨rfl, -⟩ := Heap.code?_alloc_cases hc
    · exact ((ih hi hc).kept (Heap.kept_alloc _ _)).leads (Heap.code?_eq_some.2 hd)
    · exact .refl

end

/-! ## Programs -/

/-- The code objects that a compilation allocates are those that the main one leads to. -/
theorem Expr.compile_leads {e : Expr} {heap : Heap} {globals : Globals} {main : Handle}
    (h : (e.compile heap globals).result = .ok main) {i : Handle}
    (hc : (e.compile heap globals).heap.IsCode i) :
    Leads (e.compile heap globals).heap main i ↔ heap.size ≤ i := by
  constructor
  · intro hl
    obtain ⟨hmain, hobjects⟩ := Expr.compile_fresh h
    have new : ∀ j, Heap.Reaches (e.compile heap globals).heap main j → heap.size ≤ j := by
      intro j hj
      induction hj with
      | refl => exact hmain.1
      | next _ ho hk ih => exact ((hobjects _ _ ih ho).mentions hk).1
    exact new i hl.reaches
  · intro hi
    obtain ⟨c, hc⟩ := hc
    obtain ⟨heap', d, code, hs, -, rfl, hheap⟩ := e.compile_supplies h
    rw [hheap] at hc ⊢
    have hmain := Heap.code?_eq_some.2 (Heap.get?_alloc_size heap' (.code d))
    obtain hc | ⟨rfl, -⟩ := Heap.code?_alloc_cases hc
    · exact ((hs.leadTo hi hc).kept (Heap.kept_alloc _ _)).leads hmain
    · exact .refl

/-- A listing shows the code objects that its root leads to, each once, in the order of a recursive
    walk; if one of them does not decode, it fails as the first of these does. The texts in it are
    not cut unless a cell contains itself. After a compilation, it shows from the main code object
    on those that were allocated. -/
theorem Listing.all_in_preorder (heap : Heap) (globals : Globals) (root : Handle) :
    ∃ order, Visits heap [] [root] order ∧ order.Nodup ∧
      (∀ i, i ∈ order ↔ Leads heap root i ∧ heap.IsCode i) ∧
      Lists heap globals order (all heap globals root) ∧
      (heap.NoCircles → ∀ v, heap.Displayed v (heap.display v)) ∧
      ∀ e h g, (Expr.compile e h g).result = .ok root → (Expr.compile e h g).heap = heap →
        ∀ i, i ∈ order ↔ h.size ≤ i ∧ heap.IsCode i := by
  obtain ⟨order, hv⟩ := exists_visits heap [] [root]
  refine ⟨order, hv, hv.nodup, fun i => mem_visits_iff hv, lists_all hv globals, Heap.displayed_display, ?_⟩
  rintro e h g hr rfl i
  rw [mem_visits_iff hv]
  exact and_congr_left fun hc => Expr.compile_leads hr hc

/-- The program that keeps a variable has three code objects, and its listing shows them all. -/
theorem Listing.all_in_preorder_keeping :
    let r := Expr.keeping.compile .empty .empty
    r.result = .ok 4 ∧ r.heap.NoCircles ∧ ∃ order, Visits r.heap [] [4] order ∧
      Lists r.heap r.globals order (all r.heap r.globals 4) ∧
      (∀ v, r.heap.Displayed v (r.heap.display v)) ∧ ∀ i, i ∈ order ↔ r.heap.IsCode i := by
  have h : (Expr.keeping.compile .empty .empty).result = .ok 4 :=
    Compilation.result_eq_ok (by decide +kernel)
  have hno : (Expr.keeping.compile .empty .empty).heap.NoCircles := by
    intro i hi
    obtain ⟨_, hcell, -⟩ := Relation.TransGen.head'_iff.1 hi
    exact (Expr.compile_fresh h).2 i _ (Nat.zero_le i) (Heap.cell?_eq_some.1 hcell)
  obtain ⟨order, hv, -, -, hlists, hshown, hnew⟩ :=
    Listing.all_in_preorder (Expr.keeping.compile .empty .empty).heap
      (Expr.keeping.compile .empty .empty).globals 4
  refine ⟨h, hno, order, hv, hlists, hshown hno, fun i => ?_⟩
  exact (hnew _ _ _ h rfl i).trans (and_iff_right (Nat.zero_le i))

end ByteLisp
