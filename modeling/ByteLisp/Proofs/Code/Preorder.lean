/-
  ByteLisp: the order of listings.

  The handles whose listings are pending are on a stack, possibly more than once, and what
  has been visited is looked up when a handle is taken from it. The order that comes of
  it is that of a recursive walk, also where constants lead in circles.

  * `Listing.Contains`, `Listing.Leads`: what constants lead to;
  * `Listing.Visits`: a recursive walk, which visits what a code object contains before
    what is pending;
  * `exists_visits`, `Visits.unique`: the walk ends, and in one way;
  * `Visits.nodup`, `mem_visits_iff`: it visits what can be reached, each once;
  * `Visits.reachable_eq`, `lists_all`: the listings are in the order of the walk;
  * `Heap.Displayed` and `Heap.displayed_display`: the text of a value, when no cell contains
    itself.
-/
import ByteLisp.Proofs.Code.Listing
import Mathlib.Logic.Relation
import Mathlib.Data.List.Chain
import Mathlib.Data.List.Forall2
import Mathlib.Data.List.Perm.Subperm

namespace ByteLisp

/-- A handle of a code object. -/
def Heap.IsCode (h : Heap) (i : Handle) : Prop := ∃ c, h.code? i = some c

namespace Listing

/-! ## What constants lead to -/

/-- A code object whose constants lead to another one. -/
def Contains (heap : Heap) (i j : Handle) : Prop := ∃ c, heap.code? i = some c ∧ j ∈ nested heap c

/-- What can be reached through constants. -/
def Leads (heap : Heap) : Handle → Handle → Prop := Relation.ReflTransGen (Contains heap)

theorem Leads.reaches {heap : Heap} {i j : Handle} (h : Leads heap i j) : heap.Reaches i j := by
  induction h with
  | refl => exact .refl
  | tail _ hc ih =>
    obtain ⟨c, hc, hj⟩ := hc
    exact ih.trans (reaches_nested hc hj)

/-! ## The recursive walk -/

/-- A walk through the handles that are pending, in their order. A code object that has not been
    seen is visited before all that it contains, and that before what is still pending. The
    handles seen have the last one first. -/
inductive Visits (heap : Heap) : List Handle → List Handle → List Handle → Prop
  | done {seen} : Visits heap seen [] []
  | again {seen i pending order} : i ∈ seen → Visits heap seen pending order →
      Visits heap seen (i :: pending) order
  | other {seen i pending order} : i ∉ seen → heap.code? i = none → Visits heap seen pending order →
      Visits heap seen (i :: pending) order
  | code {seen i c pending inner rest} : i ∉ seen → heap.code? i = some c →
      Visits heap (i :: seen) (nested heap c) inner →
      Visits heap (inner.reverse ++ i :: seen) pending rest →
      Visits heap seen (i :: pending) (i :: inner ++ rest)

section

variable {heap : Heap} {c : Code} {root i j : Handle} {seen pending order order' : List Handle}

/-- A walk goes one way. -/
theorem Visits.unique (h : Visits heap seen pending order) (h' : Visits heap seen pending order') :
    order = order' := by
  induction h generalizing order' with
  | done =>
    cases h'
    rfl
  | again hi _ ih =>
    cases h' with
    | again _ h' => exact ih h'
    | other hi' | code hi' => exact absurd hi hi'
  | other hi hc _ ih =>
    cases h' with
    | again hi' => exact absurd hi' hi
    | other _ _ h' => exact ih h'
    | code _ hc' => rw [hc] at hc'; cases hc'
  | code hi hc _ _ ih ih' =>
    cases h' with
    | again hi' => exact absurd hi' hi
    | other _ hc' => rw [hc] at hc'; cases hc'
    | code _ hc' hin hrest =>
      rw [hc] at hc'
      cases hc'
      obtain rfl := ih hin
      rw [ih' hrest]

theorem length_unvisited_append (heap : Heap) (seen more : List Handle) :
    (unvisited heap (more ++ seen)).length ≤ (unvisited heap seen).length := by
  refine (List.monotone_filter_right _ fun i hi => ?_).length_le
  simp_all

/-- A walk ends: what it visits has not been seen before. -/
theorem exists_visits (heap : Heap) (seen pending : List Handle) :
    ∃ order, Visits heap seen pending order := by
  -- on the number of handles not seen yet, and for as many on what is pending
  obtain ⟨n, hn⟩ : ∃ n, (unvisited heap seen).length = n := ⟨_, rfl⟩
  induction n using Nat.strongRecOn generalizing seen pending with
  | ind n ih =>
    induction pending with
    | nil => exact ⟨[], .done⟩
    | cons i pending ihp =>
      by_cases hi : i ∈ seen
      · exact ihp.imp fun _ h => .again hi h
      cases hc : heap.code? i with
      | none => exact ihp.imp fun _ h => .other hi hc h
      | some c =>
        have hlt : (unvisited heap (i :: seen)).length < n :=
          hn ▸ unvisited_lt heap seen i c hc (by simpa using hi)
        obtain ⟨inner, hinner⟩ := ih _ hlt (i :: seen) (nested heap c) rfl
        have hle := length_unvisited_append heap (i :: seen) inner.reverse
        obtain ⟨rest, hrest⟩ := ih _ (Nat.lt_of_le_of_lt hle hlt) (inner.reverse ++ i :: seen) pending rfl
        exact ⟨_, .code hi hc hinner hrest⟩

/-! ## What is visited -/

theorem Visits.not_seen (h : Visits heap seen pending order) : ∀ i ∈ order, i ∉ seen := by
  induction h with
  | done => nofun
  | again _ _ ih | other _ _ _ ih => exact ih
  | code hi _ _ _ ih ih' =>
    intro j hj hs
    rcases List.mem_cons.1 hj with rfl | hj
    · exact hi hs
    rcases List.mem_append.1 hj with hj | hj
    · exact ih j hj (List.mem_cons_of_mem _ hs)
    · exact ih' j hj (List.mem_append_right _ (List.mem_cons_of_mem _ hs))

/-- No handle is visited twice. -/
theorem Visits.nodup (h : Visits heap seen pending order) : order.Nodup := by
  induction h with
  | done => exact .nil
  | again _ _ ih | other _ _ _ ih => exact ih
  | code hi _ hin hrest ih ih' =>
    rw [List.cons_append, List.nodup_cons, List.nodup_append]
    refine ⟨fun h => ?_, ih, ih', fun j hj k hk hjk => ?_⟩
    · rcases List.mem_append.1 h with h | h
      · exact hin.not_seen _ h List.mem_cons_self
      · exact hrest.not_seen _ h (List.mem_append_right _ List.mem_cons_self)
    · subst hjk
      exact hrest.not_seen j hk (List.mem_append_left _ (List.mem_reverse.2 hj))

theorem Visits.leads (h : Visits heap seen pending order) :
    ∀ i ∈ order, heap.IsCode i ∧ ∃ j ∈ pending, Leads heap j i := by
  induction h with
  | done => nofun
  | again _ _ ih | other _ _ _ ih =>
    intro i hi
    obtain ⟨hc, j, hj, hl⟩ := ih i hi
    exact ⟨hc, j, List.mem_cons_of_mem _ hj, hl⟩
  | @code _ k c _ _ _ _ hc _ _ ih ih' =>
    intro i hi
    rcases List.mem_cons.1 hi with rfl | hi
    · exact ⟨⟨c, hc⟩, i, List.mem_cons_self, .refl⟩
    rcases List.mem_append.1 hi with hi | hi
    · obtain ⟨hcode, j, hj, hl⟩ := ih i hi
      exact ⟨hcode, k, List.mem_cons_self, .head ⟨c, hc, hj⟩ hl⟩
    · obtain ⟨hcode, j, hj, hl⟩ := ih' i hi
      exact ⟨hcode, j, List.mem_cons_of_mem _ hj, hl⟩

/-- The code objects that are pending are visited or have been seen. -/
theorem Visits.visited (h : Visits heap seen pending order) {i : Handle} (hi : i ∈ pending)
    (hc : heap.IsCode i) : i ∈ order ∨ i ∈ seen := by
  induction h with
  | done => cases hi
  | again hs _ ih =>
    rcases List.mem_cons.1 hi with rfl | hi
    · exact Or.inr hs
    · exact ih hi
  | other _ hnone _ ih =>
    rcases List.mem_cons.1 hi with rfl | hi
    · obtain ⟨c, hc⟩ := hc
      rw [hnone] at hc
      cases hc
    · exact ih hi
  | code _ _ _ _ _ ih' =>
    rcases List.mem_cons.1 hi with rfl | hi
    · exact Or.inl List.mem_cons_self
    · have := ih' hi
      simp only [List.mem_append, List.mem_reverse, List.mem_cons] at this ⊢
      tauto

/-- What a visited code object contains is visited too, or has been seen. -/
theorem Visits.closed (h : Visits heap seen pending order) (hi : i ∈ order) (hj : Contains heap i j)
    (hc : heap.IsCode j) : j ∈ order ∨ j ∈ seen := by
  induction h with
  | done => cases hi
  | again _ _ ih | other _ _ _ ih => exact ih hi
  | @code seen k c _ inner rest _ hk hin _ ih ih' =>
    have among (h : j ∈ inner ∨ j ∈ k :: seen) : j ∈ k :: inner ++ rest ∨ j ∈ seen := by
      simp only [List.cons_append, List.mem_cons, List.mem_append] at h ⊢
      tauto
    rcases List.mem_cons.1 hi with rfl | hi
    · obtain ⟨c', hc', hj⟩ := hj
      rw [hk] at hc'
      cases hc'
      exact among (hin.visited hj hc)
    rcases List.mem_append.1 hi with hi | hi
    · exact among (ih hi)
    · rcases ih' hi with h | h
      · exact Or.inl (List.mem_cons_of_mem _ (List.mem_append_right _ h))
      · exact among (by simpa using h)

/-- A walk from a handle visits the code objects that can be reached from it. -/
theorem mem_visits_iff (h : Visits heap [] [root] order) :
    i ∈ order ↔ Leads heap root i ∧ heap.IsCode i := by
  constructor
  · intro hi
    obtain ⟨hc, j, hj, hl⟩ := h.leads i hi
    rw [List.mem_singleton.1 hj] at hl
    exact ⟨hl, hc⟩
  · rintro ⟨hl, hc⟩
    induction hl with
    | refl => exact (h.visited (List.mem_singleton_self _) hc).resolve_right List.not_mem_nil
    | tail _ hj ih =>
      have hi := ih (hj.imp fun _ h => h.1)
      exact (h.closed hi hj hc).resolve_right List.not_mem_nil

/-! ## The listings -/

/-- The code objects of a list of handles. -/
def Codes (heap : Heap) : List Handle → List Code → Prop :=
  List.Forall₂ fun i c => heap.code? i = some c

theorem reachableFrom_append (h : Visits heap seen pending order) (rest : List Handle) :
    ∃ codes, Codes heap order codes ∧
      reachableFrom heap seen (pending ++ rest) =
        codes ++ reachableFrom heap (order.reverse ++ seen) rest := by
  induction h generalizing rest with
  | done => exact ⟨[], .nil, rfl⟩
  | again hi _ ih =>
    obtain ⟨codes, hcodes, heq⟩ := ih rest
    refine ⟨codes, hcodes, ?_⟩
    rw [List.cons_append, reachableFrom, dif_pos (by simpa using hi), heq]
  | other hi hc _ ih =>
    obtain ⟨codes, hcodes, heq⟩ := ih rest
    refine ⟨codes, hcodes, ?_⟩
    rw [List.cons_append, reachableFrom, dif_neg (by simpa using hi)]
    split
    · exact heq
    · next hc' => rw [hc] at hc'; cases hc'
  | @code _ _ c pending _ _ hi hc _ _ ih ih' =>
    obtain ⟨codes, hcodes, heq⟩ := ih (pending ++ rest)
    obtain ⟨codes', hcodes', heq'⟩ := ih' rest
    refine ⟨c :: codes ++ codes', .cons hc (List.rel_append hcodes hcodes'), ?_⟩
    rw [List.cons_append, reachableFrom, dif_neg (by simpa using hi)]
    split
    · next hc' => rw [hc] at hc'; cases hc'
    · next hc' =>
      rw [hc] at hc'
      cases hc'
      rw [heq, heq']
      simp

/-- The code objects are in the order of the walk. -/
theorem Visits.reachable_eq (h : Visits heap [] [root] order) : Codes heap order (reachable heap root) := by
  obtain ⟨codes, hcodes, heq⟩ := reachableFrom_append h []
  rw [List.append_nil] at heq
  rwa [reachable, heq, reachableFrom, List.append_nil]

/-- A handle of a code object that decodes. -/
def Decodes (heap : Heap) (i : Handle) : Prop := ∃ c is, heap.code? i = some c ∧ c.instrs = .ok is

/-- The listings of some code objects: their texts with an empty line between two of them, or the
    first failure to decode. -/
structure Lists (heap : Heap) (globals : Globals) (order : List Handle)
    (result : Except Code.DecodeError String) : Prop where
  texts : (∀ i ∈ order, Decodes heap i) → ∃ texts : List String,
    List.Forall₂ (fun i text => ∃ c, heap.code? i = some c ∧ ofCode heap globals c = .ok text) order texts ∧
      result = .ok ("\n".intercalate texts)
  fails : ∀ before i rest c e, order = before ++ i :: rest → (∀ j ∈ before, Decodes heap j) →
    heap.code? i = some c → c.instrs = .error e → result = .error e

theorem Codes.texts {codes : List Code} (h : Codes heap order codes) (globals : Globals)
    (hd : ∀ i ∈ order, Decodes heap i) : ∃ texts,
      List.Forall₂ (fun i text => ∃ c, heap.code? i = some c ∧ ofCode heap globals c = .ok text) order texts ∧
        codes.mapM (ofCode heap globals) = .ok texts := by
  induction h with
  | nil => exact ⟨[], .nil, rfl⟩
  | @cons i c order codes hc _ ih =>
    obtain ⟨texts, hof, htexts⟩ := ih fun j hj => hd j (List.mem_cons_of_mem _ hj)
    obtain ⟨d, is, hd, his⟩ := hd i List.mem_cons_self
    rw [hc] at hd
    cases hd
    obtain ⟨text, htext⟩ : ∃ text, ofCode heap globals c = .ok text := by
      rw [ofCode, his]
      exact ⟨_, rfl⟩
    refine ⟨text :: texts, .cons ⟨c, hc, htext⟩ hof, ?_⟩
    rw [List.mapM_cons, htext, htexts]
    rfl

theorem Codes.fails {codes : List Code} {before rest : List Handle} {e : Code.DecodeError}
    (h : Codes heap (before ++ i :: rest) codes) (globals : Globals)
    (hd : ∀ j ∈ before, Decodes heap j) (hc : heap.code? i = some c) (he : c.instrs = .error e) :
    codes.mapM (ofCode heap globals) = .error e := by
  induction before generalizing codes with
  | nil =>
    cases h with
    | cons hc' _ =>
      rw [hc] at hc'
      cases hc'
      rw [List.mapM_cons, ofCode, he]
      rfl
  | cons j before ih =>
    cases h with
    | cons hc' h =>
      obtain ⟨d, is, hd', his⟩ := hd j List.mem_cons_self
      rw [hc'] at hd'
      cases hd'
      rw [List.mapM_cons, ofCode, his, ih h fun k hk => hd k (List.mem_cons_of_mem _ hk)]
      rfl

/-- The listings are those of the code objects that a walk visits, in its order. -/
theorem lists_all (h : Visits heap [] [root] order) (globals : Globals) :
    Lists heap globals order (all heap globals root) where
  texts hd := by
    obtain ⟨texts, hof, htexts⟩ := h.reachable_eq.texts globals hd
    exact ⟨texts, hof, by rw [all, htexts]; rfl⟩
  fails before i rest c e horder hd hc he := by
    rw [all, Codes.fails (horder ▸ h.reachable_eq) globals hd hc he]
    rfl

end

end Listing

/-! ## The text of a value -/

namespace Heap

/-- A cell that contains another object. -/
def Holds (h : Heap) (i j : Handle) : Prop := h.cell? i = some (.object j)

/-- No cell contains itself through cells. -/
def NoCircles (h : Heap) : Prop := ∀ i, ¬Relation.TransGen h.Holds i i

/-- The text of a value, with no bound on the cells that are looked through. -/
inductive Displayed (h : Heap) : Value → String → Prop
  | cell {i v text} : h.cell? i = some v → Displayed h v text →
      Displayed h (.object i) ("<cell " ++ text ++ ">")
  | plain {v} : (∀ i, v = .object i → h.cell? i = none) → Displayed h v (h.displayWithin 0 v)

variable {h : Heap}

theorem displayWithin_of_cell {i : Handle} {v : Value} (n : Nat) (hc : h.cell? i = some v) :
    h.displayWithin (n + 1) (.object i) = "<cell " ++ h.displayWithin n v ++ ">" := by
  rw [displayWithin, cell?_eq_some.1 hc]

theorem displayWithin_of_plain {v : Value} (n : Nat) (hp : ∀ i, v = .object i → h.cell? i = none) :
    h.displayWithin n v = h.displayWithin 0 v := by
  cases v with
  | number | boolean => simp only [displayWithin]
  | object i =>
    have hp := hp i rfl
    simp only [displayWithin]
    cases ho : h.get? i with
    | none => rfl
    | some o =>
      cases o with
      | cell v => simp [Heap.cell?, ho] at hp
      | _ => rfl

/-- A text with a bound is the one without, or there are more cells, each in the one before, than
    the bound allows. -/
theorem displayed_or_chain (n : Nat) (v : Value) : h.Displayed v (h.displayWithin n v) ∨
    ∃ i is, v = .object i ∧ is.length = n ∧ (i :: is).IsChain h.Holds ∧
      ∀ j ∈ i :: is, ∃ u, h.cell? j = some u := by
  induction n generalizing v with
  | zero =>
    by_cases hp : ∀ i, v = .object i → h.cell? i = none
    · exact Or.inl (.plain hp)
    · simp only [not_forall, exists_prop, ← ne_eq, Option.ne_none_iff_exists'] at hp
      obtain ⟨i, rfl, hc⟩ := hp
      exact Or.inr ⟨i, [], rfl, rfl, .singleton i, by simpa using hc⟩
  | succ n ih =>
    by_cases hp : ∀ i, v = .object i → h.cell? i = none
    · exact Or.inl (displayWithin_of_plain (n + 1) hp ▸ .plain hp)
    · simp only [not_forall, exists_prop, ← ne_eq, Option.ne_none_iff_exists'] at hp
      obtain ⟨i, rfl, u, hc⟩ := hp
      rcases ih u with hs | ⟨j, is, rfl, hlen, hchain, hcells⟩
      · exact Or.inl (displayWithin_of_cell n hc ▸ .cell hc hs)
      · refine Or.inr ⟨i, j :: is, rfl, by rw [List.length_cons, hlen], .cons_cons hc hchain, ?_⟩
        intro k hk
        rcases List.mem_cons.1 hk with rfl | hk
        · exact ⟨_, hc⟩
        · exact hcells k hk

/-- If no cell contains itself, no text of a value is cut. -/
theorem displayed_display (hno : h.NoCircles) (v : Value) : h.Displayed v (h.display v) := by
  refine (displayed_or_chain h.size v).resolve_right ?_
  rintro ⟨i, is, -, hlen, hchain, hcells⟩
  -- the cells of such a row are different ones, and there are not as many
  have hpair : (i :: is).Pairwise (Relation.TransGen h.Holds) :=
    List.isChain_iff_pairwise.1 (hchain.imp fun _ _ => .single)
  have hnodup : (i :: is).Nodup := by
    refine hpair.imp fun {a b} hab => ?_
    rintro rfl
    exact hno a hab
  have hsub : i :: is ⊆ List.range h.size := fun j hj => by
    obtain ⟨u, hu⟩ := hcells j hj
    exact List.mem_range.2 (lt_size_of_get? (cell?_eq_some.1 hu))
  have hle := (hnodup.subperm hsub).length_le
  rw [List.length_cons, List.length_range, hlen] at hle
  exact Nat.not_succ_le_self _ hle

end Heap

end ByteLisp
