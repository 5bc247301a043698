/-
  ByteLisp: what a listing shows.

  * `mem_reachable`: all code objects of a listing can be reached from its root;
  * `exists_all`: if they decode, there is a listing.
-/
import ByteLisp.Listing
import ByteLisp.Proofs.Generation.Fresh

namespace ByteLisp

theorem Heap.Reaches.trans {h : Heap} {i j k : Handle} (hj : h.Reaches i j) (hk : h.Reaches j k) :
    h.Reaches i k := by
  induction hk with
  | refl => exact hj
  | next _ ho hm ih => exact ih.next ho hm

namespace Listing

variable {heap : Heap} {c : Code} {root i j : Handle}

/-- A code object inside another one can be reached from it: it is a constant, or the code of a
    function that is one. -/
theorem reaches_nested (hc : heap.code? i = some c) (hj : j ∈ nested heap c) : heap.Reaches i j := by
  obtain ⟨v, hv, hj⟩ := List.mem_filterMap.1 hj
  obtain ⟨k, hk, hj⟩ := Option.bind_eq_some_iff.1 hj
  obtain ⟨o, ho, hj⟩ := Option.bind_eq_some_iff.1 hj
  obtain rfl : v = .object k := by
    cases v with
    | object k' => cases hk; rfl
    | _ => cases hk
  have hconst : heap.Reaches i k :=
    Heap.Reaches.refl.next (Heap.code?_eq_some.1 hc) (Array.mem_toList_iff.1 hv)
  cases o with
  | code d => cases hj; exact hconst
  | function f => cases hj; exact hconst.next ho (Or.inl rfl)
  | _ => cases hj

theorem mem_reachableFrom {visited pending : List Handle}
    (hc : c ∈ reachableFrom heap visited pending) :
    ∃ i ∈ pending, ∃ j, heap.Reaches i j ∧ heap.code? j = some c := by
  induction visited, pending using reachableFrom.induct heap with
  | case1 visited => simp [reachableFrom] at hc
  | case2 visited i pending hv ih =>
    rw [reachableFrom, dif_pos hv] at hc
    obtain ⟨k, hk, hj⟩ := ih hc
    exact ⟨k, List.mem_cons_of_mem i hk, hj⟩
  | case3 visited i pending hv hnone ih =>
    rw [reachableFrom, dif_neg hv] at hc
    split at hc
    · obtain ⟨k, hk, hj⟩ := ih hc
      exact ⟨k, List.mem_cons_of_mem i hk, hj⟩
    · next hd => rw [hnone] at hd; cases hd
  | case4 visited i pending hv d hd ih =>
    rw [reachableFrom, dif_neg hv] at hc
    split at hc
    · next hnone => rw [hd] at hnone; cases hnone
    · next d' hd' =>
      obtain rfl : d' = d := Option.some.inj (hd'.symm.trans hd)
      rcases List.mem_cons.1 hc with rfl | hc
      · exact ⟨i, List.mem_cons_self, i, .refl, hd⟩
      · obtain ⟨k, hk, j, hj, hcode⟩ := ih hc
        rcases List.mem_append.1 hk with hk | hk
        · exact ⟨i, List.mem_cons_self, j, (reaches_nested hd hk).trans hj, hcode⟩
        · exact ⟨k, List.mem_cons_of_mem i hk, j, hj, hcode⟩

/-- All code objects of a listing can be reached from its root. -/
theorem mem_reachable (hc : c ∈ reachable heap root) :
    ∃ i, heap.Reaches root i ∧ heap.code? i = some c := by
  obtain ⟨i, hi, hj⟩ := mem_reachableFrom hc
  rwa [List.mem_singleton.1 hi] at hj

theorem exists_listings (heap : Heap) (globals : Globals) {cs : List Code}
    (h : ∀ c ∈ cs, ∃ is, c.instrs = .ok is) :
    ∃ texts, cs.mapM (ofCode heap globals) = .ok texts := by
  induction cs with
  | nil => exact ⟨[], rfl⟩
  | cons c cs ih =>
    obtain ⟨is, his⟩ := h c List.mem_cons_self
    obtain ⟨texts, htexts⟩ := ih fun d hd => h d (List.mem_cons_of_mem c hd)
    rw [List.mapM_cons, ofCode, his, htexts]
    exact ⟨_, rfl⟩

/-- If all code objects that it shows decode, there is a listing. -/
theorem exists_all (globals : Globals) (h : ∀ c ∈ reachable heap root, ∃ is, c.instrs = .ok is) :
    ∃ text, all heap globals root = .ok text := by
  obtain ⟨texts, htexts⟩ := exists_listings heap globals h
  rw [all, htexts]
  exact ⟨_, rfl⟩

end Listing

end ByteLisp
