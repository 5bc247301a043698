/-
  ByteLisp: constant pools have no duplicates and hold what the code needs.

  A compilation allocates objects and takes constants for several functions by turns,
  each from its own pool. What is said of a pool stays true while objects are allocated
  for others.

  * `Demand.Met`: a value is what is needed, up to being the same constant;
  * `Pooled`: a pool has at most 256 constants, no two of which are the same, and the
    code pushes from it what is needed, in order;
  * `Supplies.pooled`: supplying demands keeps pools so, and makes them so for all
    new code objects;
  * `Expr.compile_pooled` is the result for programs.
-/
import ByteLisp.Listing
import ByteLisp.Proofs.Generation.Demands
import ByteLisp.Proofs.Machine.InRange

namespace ByteLisp

/-! ## Being the same constant -/

namespace Double

open Float.Model

theorem compare_eq_comm {u v : UnpackedFloat} (h : u.compare v = some .eq) : v.compare u = some .eq := by
  cases u with
  | notANumber => cases h
  | infinity s =>
    cases v with
    | infinity t => cases s <;> cases t <;> first | rfl | cases h
    | notANumber | zero t => cases s <;> cases h
    | finite t m e hm => cases s <;> cases h
  | zero s =>
    cases v with
    | zero t => rfl
    | notANumber => cases h
    | infinity t => cases t <;> cases h
    | finite t m e hm => cases t <;> cases h
  | finite s m e hm =>
    cases v with
    | notANumber | zero t => cases s <;> cases h
    | infinity t => cases t <;> cases s <;> cases h
    | finite t m' e' hm' =>
      cases s <;> cases t <;> try cases h
      all_goals
        have h := Option.some.inj h
        refine congrArg some ?_
        simp only [Ordering.swap_eq_eq, Ordering.then_eq_eq, Std.LawfulEqCmp.compare_eq_iff_eq] at h ⊢
        exact ⟨h.1.symm, h.2.symm⟩

/-- Equality of doubles does not depend on their order. -/
theorem beq_comm (x y : Float) : (x == y) = (y == x) := by
  have swap {x y : Float} (h : (x == y) = true) : (y == x) = true := by
    have h : (x.toModel.unpack.compare y.toModel.unpack == some .eq) = true := h
    change (y.toModel.unpack.compare x.toModel.unpack == some .eq) = true
    exact beq_iff_eq.2 (compare_eq_comm (beq_iff_eq.1 h))
  exact Bool.eq_iff_iff.2 ⟨swap, swap⟩

end Double

namespace Heap

variable {h h' : Heap} {u v : Value}

/-- All objects of a heap are on another one with the same handles. -/
def Kept (h h' : Heap) : Prop := ∀ i o, h.get? i = some o → h'.get? i = some o

theorem Kept.refl (h : Heap) : h.Kept h := fun _ _ ho => ho

theorem Kept.trans {h'' : Heap} (hk : h.Kept h') (hk' : h'.Kept h'') : h.Kept h'' :=
  fun i o ho => hk' i o (hk i o ho)

theorem kept_alloc (h : Heap) (o : Object) : h.Kept (h.alloc o) :=
  fun _ _ ho => get?_alloc_of_some ho

theorem Kept.size_le (hk : h.Kept h') : h.size ≤ h'.size := by
  refine Nat.le_of_not_lt fun hlt => ?_
  have hlast : h.get? h'.size = some h.objects[h'.size] := Array.getElem?_eq_getElem hlt
  exact Nat.lt_irrefl _ (lt_size_of_get? (hk _ _ hlast))

theorem Kept.string? (hk : h.Kept h') {i : Handle} (hi : i < h.size) :
    h'.string? i = h.string? i := by
  have ho : h.get? i = some h.objects[i] := Array.getElem?_eq_getElem hi
  rw [Heap.string?, Heap.string?, ho, hk _ _ ho]

theorem Kept.code? (hk : h.Kept h') {i : Handle} {c : Code} (hc : h.code? i = some c) :
    h'.code? i = some c := code?_eq_some.2 (hk _ _ (code?_eq_some.1 hc))

theorem sameConstant_comm (h : Heap) (u v : Value) : h.sameConstant u v = h.sameConstant v u := by
  cases u <;> cases v <;> simp only [sameConstant]
  · exact Double.beq_comm _ _
  · exact Bool.beq_comm
  · next i j =>
    have hij : decide (i = j) = decide (j = i) := decide_eq_decide.2 eq_comm
    rw [hij]
    cases h.string? i <;> cases h.string? j <;> simp [eq_comm]

/-- Whether two constants are the same does not depend on what is allocated later. -/
theorem Kept.sameConstant (hk : h.Kept h') (hu : u.Below h.size) (hv : v.Below h.size) :
    h'.sameConstant u v = h.sameConstant u v := by
  cases u <;> cases v <;> simp only [Heap.sameConstant]
  rw [hk.string? hu, hk.string? hv]

end Heap

/-! ## Pools without duplicates -/

/-- A pool has at most 256 constants, and no two of them are the same. -/
structure Heap.Distinct (h : Heap) (cs : Array Value) : Prop where
  size : cs.size ≤ 256
  below : ∀ v ∈ cs, v.Below h.size
  distinct : ∀ (i j : Nat) u v, cs[i]? = some u → cs[j]? = some v → i ≠ j →
    h.sameConstant u v = false

section

variable {h h' : Heap} {cs cs' : Array Value} {v : Value} {ix : UInt8} {ds : List Demand}
  {ixs : List UInt8}

theorem Heap.distinct_empty (h : Heap) : h.Distinct #[] :=
  ⟨Nat.zero_le _, fun _ hv => absurd hv (Array.not_mem_empty _), nofun⟩

theorem Heap.Distinct.kept (hd : h.Distinct cs) (hk : h.Kept h') : h'.Distinct cs where
  size := hd.size
  below v hv := (hd.below v hv).mono hk.size_le
  distinct i j u v hu hv hij := by
    rw [hk.sameConstant (hd.below u (Array.mem_of_getElem? hu)) (hd.below v (Array.mem_of_getElem? hv))]
    exact hd.distinct i j u v hu hv hij

theorem Take.grows (ht : Take h v cs ix cs') {i : Nat} {u : Value} (hu : cs[i]? = some u) :
    cs'[i]? = some u := by
  cases ht with
  | found => exact hu
  | added => exact getElem?_push_of_some hu

/-- The value that is taken, or one that is the same, is at its place. -/
theorem Take.place (ht : Take h v cs ix cs') :
    ∃ u, cs'[ix.toNat]? = some u ∧ (u = v ∨ h.sameConstant u v = true) := by
  cases ht with
  | @found ix hf hlt =>
    obtain ⟨hlt', hs, -⟩ := Array.findIdx?_eq_some_iff_getElem.1 hf
    rw [Emit.toNat_toUInt8 hlt]
    exact ⟨cs[ix], Array.getElem?_eq_getElem hlt', Or.inr hs⟩
  | added _ hlt =>
    rw [Emit.toNat_toUInt8 hlt]
    exact ⟨v, Array.getElem?_push_size, Or.inl rfl⟩

theorem Take.distinct (ht : Take h v cs ix cs') (hv : v.Below h.size) (hd : h.Distinct cs) :
    h.Distinct cs' := by
  cases ht with
  | found => exact hd
  | added hnone hlt =>
    have hnew : ∀ u ∈ cs, h.sameConstant u v = false := fun u hu => by
      simpa using Array.findIdx?_eq_none_iff.1 hnone u hu
    refine ⟨by rw [Array.size_push]; exact hlt, fun u hu => ?_, fun i j u w hu hw hij => ?_⟩
    · rcases Array.mem_push.1 hu with hu | rfl
      · exact hd.below u hu
      · exact hv
    · rw [Array.getElem?_push] at hu hw
      split at hu <;> split at hw
      · next hi hj => exact absurd (hi.trans hj.symm) hij
      · cases hu
        rw [h.sameConstant_comm]
        exact hnew w (Array.mem_of_getElem? hw)
      · cases hw
        exact hnew u (Array.mem_of_getElem? hu)
      · exact hd.distinct i j u w hu hw hij

/-! ## Supplying demands -/

theorem Supplies.kept (hs : Supplies h cs ds ixs h' cs') : h.Kept h' := by
  induction hs with
  | nil | number | boolean => exact .refl _
  | append _ _ ih ih' => exact ih.trans ih'
  | string => exact Heap.kept_alloc _ _
  | constant _ _ _ _ _ ih => exact (ih.trans (Heap.kept_alloc _ _)).trans (Heap.kept_alloc _ _)
  | code _ _ _ _ _ ih => exact ih.trans (Heap.kept_alloc _ _)

theorem Supplies.grows (hs : Supplies h cs ds ixs h' cs') {i : Nat} {u : Value}
    (hu : cs[i]? = some u) : cs'[i]? = some u := by
  induction hs with
  | nil => exact hu
  | append _ _ ih ih' => exact ih' (ih hu)
  | number ht | boolean ht | string ht | constant _ _ _ _ ht | code _ _ _ _ ht => exact ht.grows hu

/-- Supplying demands keeps a pool without duplicates. -/
theorem Supplies.distinct (hs : Supplies h cs ds ixs h' cs') (hd : h.Distinct cs) :
    h'.Distinct cs' := by
  induction hs with
  | nil => exact hd
  | append _ _ ih ih' => exact ih' (ih hd)
  | number ht | boolean ht => exact ht.distinct trivial hd
  | string ht => exact ht.distinct (by simp [Value.Below]) (hd.kept (Heap.kept_alloc _ _))
  | constant hs _ _ _ ht =>
    refine ht.distinct (by simp [Value.Below]) (hd.kept ?_)
    exact (hs.kept.trans (Heap.kept_alloc _ _)).trans (Heap.kept_alloc _ _)
  | code hs _ _ _ ht =>
    exact ht.distinct (by simp [Value.Below]) (hd.kept (hs.kept.trans (Heap.kept_alloc _ _)))

/-! ## What is at the places -/

/-- A value is what is needed: the same number, text or truth value, or a function with this name
    and as many parameters, or its code. -/
def Demand.Met (h : Heap) (v : Value) : Demand → Prop
  | .number x => ∃ y, v = .number y ∧ (y = x ∨ (y == x) = true)
  | .string text => h.text? v = some text
  | .boolean b => v = .boolean b
  | .function name params _ =>
    ∃ i c, Listing.codeOf? h v = some i ∧ h.code? i = some c ∧ c.name = name ∧ c.arity = params.length

/-- A constant leads to a code object if it is one or a function. -/
theorem Listing.codeOf?_eq_some {i : Handle} : codeOf? h v = some i ↔ ∃ k, v = .object k ∧
    ((∃ c, h.get? k = some (.code c)) ∧ k = i ∨ ∃ f, h.get? k = some (.function f) ∧ f.code = i) := by
  cases v with
  | number | boolean => simp [codeOf?, Value.handle?]
  | object k =>
    cases ho : h.get? k with
    | none => simp [codeOf?, Value.handle?, ho]
    | some o => cases o <;> simp [codeOf?, Value.handle?, ho]

theorem Heap.Kept.codeOf? {i : Handle} (hk : h.Kept h') (hv : Listing.codeOf? h v = some i) :
    Listing.codeOf? h' v = some i := by
  obtain ⟨k, rfl, ⟨⟨c, hc⟩, rfl⟩ | ⟨f, hf, rfl⟩⟩ := Listing.codeOf?_eq_some.1 hv
  · exact Listing.codeOf?_eq_some.2 ⟨k, rfl, Or.inl ⟨⟨c, hk _ _ hc⟩, rfl⟩⟩
  · exact Listing.codeOf?_eq_some.2 ⟨k, rfl, Or.inr ⟨f, hk _ _ hf, rfl⟩⟩

theorem Demand.Met.kept {d : Demand} (hm : d.Met h v) (hk : h.Kept h') : d.Met h' v := by
  cases d with
  | number | boolean => exact hm
  | string text =>
    obtain ⟨i, hi, ht⟩ := Option.bind_eq_some_iff.1 hm
    exact Option.bind_eq_some_iff.2 ⟨i, hi, Heap.string?_eq_some.2 (hk _ _ (Heap.string?_eq_some.1 ht))⟩
  | function name params body =>
    obtain ⟨i, c, hv, hc, hn, ha⟩ := hm
    exact ⟨i, c, hk.codeOf? hv, hk.code? hc, hn, ha⟩

namespace Demand

variable {u : Value} {i k : Handle} {c : Code}

theorem met_number {x : Float} (hu : u = .number x ∨ h.sameConstant u (.number x) = true) :
    (number x).Met h u := by
  obtain rfl | hu := hu
  · exact ⟨x, rfl, Or.inl rfl⟩
  · cases u with
    | number y => exact ⟨y, rfl, Or.inr hu⟩
    | _ => cases hu

theorem met_boolean {b : Bool} (hu : u = .boolean b ∨ h.sameConstant u (.boolean b) = true) :
    (boolean b).Met h u := by
  obtain rfl | hu := hu
  · rfl
  · cases u with
    | boolean a => exact congrArg _ (beq_iff_eq.1 hu)
    | _ => cases hu

/-- A constant that is the same as an object is this object, or both are strings with the same
    text. -/
theorem eq_or_string_of_same (hu : u = .object k ∨ h.sameConstant u (.object k) = true) :
    u = .object k ∨ ∃ j text, u = .object j ∧ h.string? j = some text ∧ h.string? k = some text := by
  obtain rfl | hu := hu
  · exact Or.inl rfl
  · cases u with
    | number | boolean => cases hu
    | object j =>
      rw [Heap.sameConstant, Bool.or_eq_true] at hu
      obtain hu | hu := hu
      · exact Or.inl (by rw [of_decide_eq_true hu])
      · split at hu
        · next s t hs ht => exact Or.inr ⟨j, t, rfl, by rw [hs, of_decide_eq_true hu], ht⟩
        · cases hu

theorem met_string {text : String} (ht : h.string? k = some text)
    (hu : u = .object k ∨ h.sameConstant u (.object k) = true) : (string text).Met h u := by
  obtain rfl | ⟨j, text', rfl, hj, hk⟩ := eq_or_string_of_same hu
  · exact ht
  · rw [ht] at hk
    cases hk
    exact hj

theorem met_function {name : String} {params : List String} {body : Form}
    (hk : Listing.codeOf? h (.object k) = some i) (hc : h.code? i = some c) (hn : c.name = name)
    (ha : c.arity = params.length) (hu : u = .object k ∨ h.sameConstant u (.object k) = true) :
    (function name params body).Met h u := by
  have hstring : h.string? k = none := by
    obtain ⟨_, ⟨⟩, ⟨⟨c, hc⟩, -⟩ | ⟨f, hf, -⟩⟩ := Listing.codeOf?_eq_some.1 hk
    · simp [Heap.string?, hc]
    · simp [Heap.string?, hf]
  obtain rfl | ⟨j, text, -, -, ht⟩ := eq_or_string_of_same hu
  · exact ⟨i, c, hk, hc, hn, ha⟩
  · rw [hstring] at ht
    cases ht

end Demand

/-- What is needed is at the places of a pool, in order. -/
def Met (h : Heap) (cs : Array Value) (ixs : List UInt8) (ds : List Demand) : Prop :=
  List.Forall₂ (fun ix d => ∃ v, cs[ix.toNat]? = some v ∧ d.Met h v) ixs ds

theorem Take.met {d : Demand} (ht : Take h v cs ix cs')
    (hm : ∀ u, u = v ∨ h.sameConstant u v = true → d.Met h u) : Met h cs' [ix] [d] := by
  obtain ⟨u, hu, hs⟩ := ht.place
  exact .cons ⟨u, hu, hm u hs⟩ .nil

/-- What is supplied is what is needed. -/
theorem Supplies.met (hs : Supplies h cs ds ixs h' cs') : Met h' cs' ixs ds := by
  induction hs with
  | nil => exact .nil
  | append _ hs' ih ih' =>
    refine List.rel_append (ih.imp fun ix d => ?_) ih'
    rintro ⟨v, hv, hm⟩
    exact ⟨v, hs'.grows hv, hm.kept hs'.kept⟩
  | number ht => exact ht.met fun _ => Demand.met_number
  | boolean ht => exact ht.met fun _ => Demand.met_boolean
  | string ht => exact ht.met fun _ => Demand.met_string (by simp [Heap.string?])
  | @constant h cs name params body h' c code ix cs' _ _ hn ha ht =>
    have hf := Heap.get?_alloc_size (h'.alloc (.code c)) (.function ⟨h'.size, #[]⟩)
    rw [Heap.size_alloc] at hf
    have hc := (Heap.kept_alloc (h'.alloc (.code c)) (.function ⟨h'.size, #[]⟩)).code?
      (Heap.code?_eq_some.2 (Heap.get?_alloc_size h' (.code c)))
    exact ht.met fun _ => Demand.met_function
      (Listing.codeOf?_eq_some.2 ⟨_, rfl, Or.inr ⟨_, hf, rfl⟩⟩) hc hn ha
  | @code h cs name params body h' c code ix cs' _ _ hn ha ht =>
    have hc := Heap.get?_alloc_size h' (.code c)
    exact ht.met fun _ => Demand.met_function
      (Listing.codeOf?_eq_some.2 ⟨_, rfl, Or.inl ⟨⟨c, hc⟩, rfl⟩⟩) (Heap.code?_eq_some.2 hc) hn ha

/-! ## New code objects -/

/-- The demands of the functions in some demands, those within functions included. -/
inductive Demand.Inner : List Demand → List Demand → Prop
  | here {ds name params body} : .function name params body ∈ ds → Inner ds (Form.demands body)
  | within {ds ds' name params body} : .function name params body ∈ ds →
      Inner (Form.demands body) ds' → Inner ds ds'

theorem Demand.Inner.mono {ds' ds'' : List Demand} (hi : Inner ds ds') (hsub : ds ⊆ ds'') :
    Inner ds'' ds' := by
  cases hi with
  | here hmem => exact .here (hsub hmem)
  | within hmem hi => exact .within (hsub hmem) hi

/-- The constants of a code object: at most 256, no two the same, and its code pushes from them
    what is needed, in order. -/
structure Pooled (h : Heap) (ds : List Demand) (c : Code) : Prop where
  size : c.constants.size ≤ 256
  distinct : ∀ (i j : Nat) u v, c.constants[i]? = some u → c.constants[j]? = some v → i ≠ j →
    h.sameConstant u v = false
  met : ∃ code, c.bytes = Instr.bytes code ∧ Met h c.constants (constantsOf code) ds

theorem Met.kept (hm : Met h cs ixs ds) (hk : h.Kept h') : Met h' cs ixs ds :=
  hm.imp fun _ _ ⟨v, hv, hd⟩ => ⟨v, hv, hd.kept hk⟩

/-- A code object whose constants were supplied from an empty pool. -/
theorem Supplies.pooled {c : Code} {code : List Instr} {h'' : Heap}
    (hs : Supplies h #[] ds (constantsOf code) h' c.constants) (hb : c.bytes = Instr.bytes code)
    (hk : h'.Kept h'') : Pooled h'' ds c :=
  have hd := (hs.distinct h.distinct_empty).kept hk
  ⟨hd.size, hd.distinct, code, hb, hs.met.kept hk⟩

theorem Heap.code?_alloc_cases {o : Object} {i : Handle} {c : Code} (hc : (h.alloc o).code? i = some c) :
    h.code? i = some c ∨ i = h.size ∧ o = .code c := by
  rw [Heap.code?_eq_some] at hc ⊢
  exact (Heap.get?_alloc_cases hc).imp_right fun ⟨hi, ho⟩ => ⟨hi, ho.symm⟩

theorem Heap.lt_size_of_code? {i : Handle} {c : Code} (hc : h.code? i = some c) : i < h.size :=
  Heap.lt_size_of_get? (Heap.code?_eq_some.1 hc)

theorem Heap.Kept.code?_of_lt (hk : h.Kept h') {i : Handle} {c : Code} (hi : i < h.size)
    (hc : h'.code? i = some c) : h.code? i = some c := by
  have ho : h.get? i = some h.objects[i] := Array.getElem?_eq_getElem hi
  rw [Heap.code?_eq_some] at hc ⊢
  rw [ho, ← hk _ _ ho, hc]

/-- All code objects that are allocated on the way are those of functions that are needed. -/
theorem Supplies.inner (hs : Supplies h cs ds ixs h' cs') {h'' : Heap} (hk : h'.Kept h'') {i : Handle}
    {c : Code} (hi : h.size ≤ i) (hc : h'.code? i = some c) :
    ∃ ds', Demand.Inner ds ds' ∧ Pooled h'' ds' c := by
  induction hs with
  | nil | number | boolean => exact absurd (Heap.lt_size_of_code? hc) (Nat.not_lt.2 hi)
  | @append h₁ cs₁ ds ixs h₂ cs₂ ds' ixs' h₃ cs₃ _ hs' ih ih' =>
    rcases Nat.lt_or_ge i h₂.size with hlt | hge
    · obtain ⟨ds'', hin, hp⟩ := ih (hs'.kept.trans hk) hi (hs'.kept.code?_of_lt hlt hc)
      exact ⟨ds'', hin.mono (List.subset_append_left _ _), hp⟩
    · obtain ⟨ds'', hin, hp⟩ := ih' hk hge hc
      exact ⟨ds'', hin.mono (List.subset_append_right _ _), hp⟩
  | string =>
    obtain hc | ⟨-, ⟨⟩⟩ := Heap.code?_alloc_cases hc
    exact absurd (Heap.lt_size_of_code? hc) (Nat.not_lt.2 hi)
  | constant hs hb _ _ _ ih =>
    have hk := (Heap.kept_alloc _ _).trans hk
    obtain hc | ⟨-, ⟨⟩⟩ := Heap.code?_alloc_cases hc
    obtain hc | ⟨-, ⟨⟩⟩ := Heap.code?_alloc_cases hc
    · obtain ⟨ds', hin, hp⟩ := ih ((Heap.kept_alloc _ _).trans hk) hi hc
      exact ⟨ds', .within (List.mem_singleton_self _) hin, hp⟩
    · exact ⟨_, .here (List.mem_singleton_self _), hs.pooled hb ((Heap.kept_alloc _ _).trans hk)⟩
  | code hs hb _ _ _ ih =>
    obtain hc | ⟨-, ⟨⟩⟩ := Heap.code?_alloc_cases hc
    · obtain ⟨ds', hin, hp⟩ := ih ((Heap.kept_alloc _ _).trans hk) hi hc
      exact ⟨ds', .within (List.mem_singleton_self _) hin, hp⟩
    · exact ⟨_, .here (List.mem_singleton_self _), hs.pooled hb ((Heap.kept_alloc _ _).trans hk)⟩

end

/-- In all code objects of a program that compiles the pool has at most 256 constants, no two of
    them the same, and the code pushes what the literals and the functions of its part of the
    program need, in their order: the main code object what the program needs, and each other one
    what a function in it needs. -/
theorem Expr.compile_pooled {e : Expr} {heap : Heap} {globals : Globals} {main : Handle}
    (h : (e.compile heap globals).result = .ok main) :
    let r := e.compile heap globals
    (∃ c, r.heap.code? main = some c ∧ Pooled r.heap e.demands c) ∧
      ∀ i c, heap.size ≤ i → r.heap.code? i = some c →
        ∃ ds, (ds = e.demands ∨ Demand.Inner e.demands ds) ∧ Pooled r.heap ds c := by
  obtain ⟨heap', c, code, hs, hb, rfl, hheap⟩ := e.compile_supplies h
  have hk : heap'.Kept (e.compile heap globals).heap := hheap ▸ Heap.kept_alloc _ _
  have hmain := hs.pooled hb hk
  refine ⟨⟨c, ?_, hmain⟩, fun i d hi hd => ?_⟩
  · rw [hheap]
    simp [Heap.code?]
  · have hd' := hd
    rw [hheap] at hd'
    obtain hd' | ⟨-, ⟨⟩⟩ := Heap.code?_alloc_cases hd'
    · obtain ⟨ds, hin, hp⟩ := hs.inner hk hi hd'
      exact ⟨ds, Or.inr hin, hp⟩
    · exact ⟨_, Or.inl rfl, hmain⟩

/-- A program with equal literals in a function, after it and in a loop without rounds:
    `(begin (def f (x) (begin (lambda () x) (+ x "a") false)) (while false "a") (f "a") (+ "b" "b"))`. -/
def Expr.repeating : Expr :=
  .list [.symbol "begin",
    .list [.symbol "def", .symbol "f", .list [.symbol "x"],
      .list [.symbol "begin",
        .list [.symbol "lambda", .list [], .symbol "x"],
        .list [.symbol "+", .symbol "x", .string "a"],
        .symbol "false"]],
    .list [.symbol "while", .symbol "false", .string "a"],
    .list [.symbol "f", .string "a"],
    .list [.symbol "+", .string "b", .string "b"]]

set_option maxRecDepth 4000 in
/-- It needs seven constants, and its pool has four. -/
theorem Expr.compile_pooled_repeating :
    let r := Expr.repeating.compile .empty .empty
    r.result = .ok 8 ∧ Expr.repeating.demands.length = 7 ∧
      ∃ c, r.heap.code? 8 = some c ∧ c.constants.size = 4 ∧ Pooled r.heap Expr.repeating.demands c := by
  have h : (Expr.repeating.compile .empty .empty).result = .ok 8 :=
    Compilation.result_eq_ok (by decide +kernel)
  obtain ⟨c, hc, hp⟩ := (Expr.compile_pooled h).1
  refine ⟨h, rfl, c, hc, ?_, hp⟩
  have hsize : ((Expr.repeating.compile .empty .empty).heap.code? 8).map (·.constants.size) = some 4 := by
    decide +kernel
  rw [hc] at hsize
  exact Option.some.inj hsize

end ByteLisp
