/-
  ByteLisp: how code makes functions.

  * `Situated.follows_loads`: the cells of the variables that a function captures are
    pushed;
  * `simulates_constant` and `simulates_made`: a function without captured variables
    is a constant, another one is made of its code and the cells;
  * `simulates_define` and `simulates_lambda` are the forms that do so.
-/
import ByteLisp.Proofs.Machine.Gathering
import ByteLisp.Proofs.Meaning.Simulation

namespace ByteLisp

open Machine

namespace Meaning

variable {T : Scopes} {W : World} {N : Float → Prop} {g : Setting} {s o t f : ScopeId} {v : View}
  {pos n k : Nat} {L : Link} {σ : Memory} {ls us : List Value} {m : Machine} {ns : List String}
  {name : String} {names params : List String} {code code' : List Instr} {as : List Access}
  {inner : Form} {c c' : Code} {h j : Handle} {ix l : UInt8} {x : String} {direct : Bool}

/-! ## Captured variables -/

/-- The handle is that of the cell of a variable in view. -/
def Setting.Cell (g : Setting) (T : Scopes) (s : ScopeId) (L : Link) (x : String) (i : Handle) : Prop :=
  ∀ o, T.lookup s x = some o → x ∈ (T.scope o).cells → L ⟨g.env (T.home o), o, x⟩ = some i

/-- A captured variable is one that is visible around the function. -/
theorem lookup_of_captured (hf : T.Opens .function f s) (hc : T.Captured f x t) :
    T.lookup s x = some t := by
  have hfound := hc.found
  rw [Scopes.lookup, hf.chain, List.find?_cons] at hfound
  split at hfound
  · exact absurd (Option.some.inj hfound).symm hc.outside
  · exact hfound

/-- What pushes the cells that a function captures. -/
theorem Situated.follows_loads (hloads : Loads c s v t pos names code as) (hv : Standing T s v ns)
    (hnames : ∀ x ∈ names, ∃ o, T.lookup s x = some o ∧ x ∈ (T.scope o).cells)
    (h : Situated T W N g s (v.push k) pos L σ (ls ++ us) m) (hk : us.length = k)
    (hl : g.code.Lies pos code) :
    m.Follows n (fun _ σ' m' => σ' = σ ∧ m'.world = m.world ∧ ∃ is,
      List.Forall₂ (g.Cell T s L) names is ∧
      Situated T W N g s (v.push (k + names.length)) (pos + Instr.total code) L σ
        (ls ++ (us ++ is.map .object)) m') (Halted T W N) (.ok () σ) := by
  induction hloads generalizing k us m with
  | nil => exact Or.inr ⟨m, .start, rfl, rfl, [], .nil, by simpa using h⟩
  | @cons pos x names ix code as hx hloads ih =>
    obtain ⟨o, ho, hxo⟩ := hnames x List.mem_cons_self
    obtain ⟨j, hj, hlj⟩ := h.cells x _ o hx ho hxo
    refine (follows_execute (i := .loadCell ix) (h.instr? hl.head) ?_).anti (Nat.le_succ n)
    refine ends_bind (ends_cellAt (i := j) ?_ (ends_seq (ends_push (Or.inl rfl) ?_)))
    · rw [h.place.past.current]
      exact hj
    have pushed : Situated T W N g s (v.push (k + 1)) (pos + 2) L σ (ls ++ (us ++ [.object j]))
        ((m.past (.loadCell ix)).put (.object j :: (m.past (.loadCell ix)).stack.values)) := by
      have hat := (h.place.past (i := .loadCell ix)).push (.object j)
      have pushed := h.push (hv.push k) hat rfl
      rwa [View.push_push, List.append_assoc] at pushed
    refine (ih (fun y hy => hnames y (List.mem_cons_of_mem x hy)) pushed (by simp [hk])
      hl.tail).mono ?_
    rintro - σ' m' ⟨hσ, hw, is, his, hs⟩
    refine ⟨hσ, hw, j :: is, .cons ?_ his, ?_⟩
    · intro o' ho' _
      cases ho.symm.trans ho'
      exact hlj
    · have htotal : pos + Instr.total (.loadCell ix :: code) = pos + 2 + Instr.total code := by
        rw [Instr.total_cons, ← Nat.add_assoc]
        rfl
      rw [htotal, List.length_cons, Nat.add_comm names.length, ← Nat.add_assoc]
      simpa using hs

/-- A closure holds the cells that have been pushed. -/
theorem holds_loaded {F : Function} {is : List Handle} (hf : T.Opens .function F.scope s)
    (h : List.Forall₂ (g.Cell T s L) (T.scope F.scope).free is) : F.Holds T L g.env is.toArray where
  size := by rw [List.size_toArray, h.length_eq]
  cell j x o hj hc := by
    obtain ⟨hlt, rfl⟩ := List.getElem?_eq_some_iff.1 hj
    have hlt' : j < is.length := h.length_eq ▸ hlt
    refine ⟨is[j], by rw [List.getElem?_toArray, List.getElem?_eq_getElem hlt'], ?_⟩
    exact (List.forall₂_iff_get.1 h).2 j hlt hlt' o (lookup_of_captured hf hc) hc.cell

/-! ## Functions -/

/-- A code object of a function has the variables that the function captures. -/
theorem free_of_coded (hc : Coded T W c f (.code name params inner) v pos code as) :
    c.free = (T.scope f).free.toArray := by
  cases hc with | code _ _ hfree => exact hfree

section

variable (hcode : Coded T W c' f (.code name params inner)
    (Emit.draftOf name params (T.scope f)).view 0 code' as) (hc' : W.heap.code? h = some c')
include hcode hc'

theorem compiled_of_placed {own : Bool}
    (hp : Task.Placed T N s v (.closure name f params inner))
    (hown : T.OpensFunction s ⟨name, own, f, params, inner⟩) :
    Function.Compiled T W N ⟨name, own, f, params, inner⟩ h := by
  obtain ⟨hstanding, -, hscoped, hblocks, hnumbers⟩ := hp
  exact ⟨⟨c', code', as, hc', hcode⟩, ⟨s, hstanding.inside, hown⟩, hscoped, hblocks, hnumbers⟩

theorem simulates_constant (hsize : c'.free.size = 0) (hj : W.heap.get? j = some (.function ⟨h, #[]⟩))
    (hh : Holds W c ix (.object j)) :
    Simulates T W N n c s (.closure name f params inner) v pos [.const ix] := by
  intro hl hp
  refine ⟨[], opened_nil, ?_⟩
  rintro g rfl - own hown L σ ls m hs
  have hfree : (T.scope f).free = [] := by
    have := free_of_coded hcode
    rw [this, List.size_toArray] at hsize
    exact List.length_eq_zero_iff.1 hsize
  have hnone : W.heap.string? j = none := by simp [Heap.string?, hj]
  have hnone' : List.Forall₂ (g.Cell T s L) (T.scope f).free [] := by
    rw [hfree]
    exact .nil
  have hfun := hs.linked.leads.objects _ _ hj fun _ hc => by cases hc
  refine hs.follows_const hp.1 hl (hh.object hnone) (.closure hfun
    (compiled_of_placed hcode hc' hp hown) (holds_loaded hown.opens hnone'))

theorem simulates_made {cells : List Instr} {bs : List Access}
    (hcaptured : ∀ x ∈ (T.scope f).free, ∃ o, T.Captured f x o)
    (hloads : Loads c s v f pos c'.free.toList cells bs) (hh : Holds W c ix (.object h))
    (hl : l.toNat = c'.free.size) :
    Simulates T W N n c s (.closure name f params inner) v pos
      (cells ++ [.const ix, .makeFunction l]) := by
  intro hlies hp
  refine ⟨[], opened_nil, ?_⟩
  rintro g rfl - own hown L σ ls m hs
  have hfree : c'.free.toList = (T.scope f).free := by rw [free_of_coded hcode]
  have hlength : (T.scope f).free.length = l.toNat := by rw [← hfree, hl, Array.length_toList]
  have visible (x) (hx : x ∈ (T.scope f).free) : ∃ o, T.lookup s x = some o ∧ x ∈ (T.scope o).cells := by
    obtain ⟨o, ho⟩ := hcaptured x hx
    exact ⟨o, lookup_of_captured hown.opens ho, ho.cell⟩
  rw [hfree] at hloads
  have hs₀ : Situated T W N g s (v.push 0) pos L σ (ls ++ []) m := by simpa using hs
  have hloaded := Situated.follows_loads (n := n) hloads hp.1 visible hs₀ rfl hlies.left
  rcases hloaded with hover | ⟨m₁, hr, -, hw, is, his, hs₁⟩
  · exact Or.inl hover
  rw [Nat.zero_add, List.nil_append] at hs₁
  rw [← hw]
  refine Follows.of_reaches ?_ hr
  have hconst : g.code.constants[ix.toNat]? = some (.object h) := hh.object (string?_of_code hc')
  -- the code object is pushed
  refine (follows_execute (i := .const ix) (hs₁.instr? hlies.right.head) ?_).anti (Nat.le_succ n)
  refine ends_bind (ends_get (ends_bind (ends_codeAt (c := g.code) ?_ (ends_bind
    (ends_expect hconst (ends_seq (ends_push (Or.inl rfl) ?_)))))))
  · rw [hs₁.place.past.current]
    exact hs₁.code?
  have hat₁ := (hs₁.place.past (i := .const ix)).push (.object h)
  have hs₂ := hs₁.push (hp.1.push _) hat₁ rfl
  rw [View.push_push, List.append_assoc] at hs₂
  have hlen : is.length = l.toNat := his.length_eq.symm.trans hlength
  -- the function is made
  have hcode₂ := Linked.code? hs₂.linked hc'
  have hat := hs₂.place.past (i := .makeFunction l)
  refine (follows_execute (i := .makeFunction l) (hs₂.instr? hlies.right.tail) ?_).anti (Nat.le_succ n)
  rw [execute, ← hlen]
  have hlast : (g.below ++ (ls ++ (is.map Value.object ++ [Value.object h]))).reverse =
      Value.object h :: (is.map Value.object).reverse ++ (g.below ++ ls).reverse := by simp
  have hvals := hat.values.trans hlast
  refine ends_seq (ends_makeFunction hcode₂ hvals (fun _ => Or.inl rfl) (Or.inr ⟨_, .start, ?_⟩))
  have hend : pos + Instr.total (cells ++ [.const ix, .makeFunction l]) =
      pos + Instr.total cells + (Instr.const ix).size + (Instr.makeFunction l).size := by
    simp [Instr.total_append, Instr.total_cons, Nat.add_assoc]
  rw [hend]
  refine hs₂.leaves hp.1 (by simp [hlen, hlength]) ⟨L, .object m₁.heap.size, hs₂.linked.alloc _,
    grown_alloc _, ⟨hat.current, hat.callers, hat.base, ?_⟩, ?_⟩
  · rw [values_put, ← List.append_assoc, List.reverse_concat]
    rfl
  exact .closure (Heap.get?_alloc_size ..) (compiled_of_placed hcode hc' hp hown)
    (holds_loaded hown.opens his)

end

/-! ## Forms that make functions -/

theorem simulates_define {o : Outcome} {store : List Instr}
    (h₁ : Simulates T W N n c s (.closure name f params inner) v pos code)
    (hd : Declares T W s v name direct o store) :
    Simulates T W N n c s (.form direct (.define name f params inner) o) v pos (code ++ store) := by
  intro hl hp
  obtain ⟨hname, hown, hinner⟩ := hp.forms.1
  have closure : Task.Placed T N s v (.closure name f params inner) :=
    ⟨hp.standing.sublist (List.nil_sublist _), ⟨true, hown⟩, hinner,
      by simpa [Form.collectAll, Form.collect, Form.block?] using hp.blocks,
      by simpa [Form.collectAll, Form.collect, Form.number?] using hp.numbers⟩
  obtain ⟨bs, ho, h₁⟩ := h₁ hl.left closure
  refine ⟨bs, ho.mono (by simp [Task.collect, Form.collect]), ?_⟩
  rintro g rfl hbs L σ ls m h
  rw [eval]
  refine (h₁ g rfl hbs true hown L σ ls m h).after ?_
  rintro m₁ ⟨L₁, ls₁, a, p₁, hx⟩
  refine (p₁.situated.follows_declares hp.standing hname hd hl.right hx).mono fun y σ₂ m₂ hy => ?_
  rw [Instr.total_append, ← Nat.add_assoc]
  exact p₁.leaves hy

theorem simulates_lambda (h₁ : Simulates T W N n c s (.closure name f params inner) v pos code) :
    Simulates T W N n c s (.form direct (.lambda name f params inner) .value) v pos code := by
  intro hl hp
  obtain ⟨hown, hinner⟩ := hp.forms.1
  have closure : Task.Placed T N s v (.closure name f params inner) :=
    ⟨hp.standing.sublist (List.nil_sublist _), ⟨false, hown⟩, hinner,
      by simpa [Form.collectAll, Form.collect, Form.block?] using hp.blocks,
      by simpa [Form.collectAll, Form.collect, Form.number?] using hp.numbers⟩
  obtain ⟨bs, ho, h₁⟩ := h₁ hl closure
  refine ⟨bs, ho.mono (by simp [Task.collect, Form.collect]), fun g hg hbs L σ ls m h => ?_⟩
  rw [eval]
  exact h₁ g hg hbs false hown L σ ls m h

end Meaning

end ByteLisp
