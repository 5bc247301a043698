/-
  ByteLisp: calls do what the evaluation says.

  * `simulates_finish` and `simulates_finishBlock`: at the end of a function only the
    value of its body is left;
  * `Coded.simulates`: all code does what the evaluation says, if calls do;
  * `follows_native`: so do calls of built-in functions;
  * `callsFollow`: so do all calls, by induction on the number of calls within one
    another.
-/
import ByteLisp.Proofs.Meaning.Activated
import ByteLisp.Proofs.Meaning.Closures

namespace ByteLisp

open Machine

namespace Meaning

variable {T : Scopes} {W : World} {N : Float → Prop} {g : Setting} {s b : ScopeId} {v u w : View}
  {pos n k l : Nat} {L L₁ : Link} {σ σ₁ : Memory} {ls ls₁ us : List Value} {m m₁ : Machine} {x : Val}
  {a : Value} {S : Stage} {c : Code} {f : Form} {fs : List Form} {code is : List Instr}

/-! ## The end of a function -/

theorem Setting.Passes.returns (h : g.Passes T W N s v S ls w l us L₁ ls₁ σ₁ m₁)
    (hx : g.Returns T W N s pos ⟨L₁, σ₁, m₁.world⟩ x σ m) : g.Returns T W N s pos S x σ m := by
  obtain ⟨L, a, hl, hg, hat, hx⟩ := hx
  exact ⟨L, a, hl, h.grown.trans hg, hat, hx⟩

/-- All values of the activation are dropped but the one on top. -/
theorem Situated.follows_end (h : Situated T W N g s w pos L σ (ls ++ [a]) m) (hk : ls.length = k)
    (hx : x.Is T W N L m.heap a) (he : Exits k is) (hl : g.code.Lies pos is) :
    m.Follows n (g.Returns T W N s (pos + Instr.total is) ⟨L, σ, m.world⟩) (Halted T W N)
      (.ok x σ) := by
  cases he with
  | none =>
    rw [List.length_eq_zero_iff.1 hk] at h
    exact Or.inr ⟨m, .start, L, a, h.linked, .refl .., h.place, hx⟩
  | @some k hne =>
    have hat := h.place.past (i := .scopeExit k)
    have hvals : (m.past (.scopeExit k)).stack.values = a :: (ls.reverse ++ g.below.reverse) := by
      rw [hat.values]
      simp
    refine (follows_execute (h.instr? hl) ?_).anti (Nat.le_succ n)
    rw [execute, if_pos hne]
    refine ends_bind (ends_pop hvals (ends_bind (ends_drop rfl (by simp [hk]) (ends_seq
      (ends_push (Or.inl rfl) (Or.inr ⟨_, .start, L, a, h.linked, .refl .., ?_, hx⟩))))))
    exact hat.put (by simp)

theorem simulates_finish {i : UInt8} (h₁ : Simulates T W N n c s (.form false f .value) v pos code)
    (hi : i.toNat = k + 1) : Simulates T W N n c s (.finish k f) v pos (code ++ [.scopeExit i]) := by
  intro hl hp
  obtain ⟨bs, ho, h₁⟩ := h₁ hl.left hp
  refine ⟨bs, ho, ?_⟩
  rintro g rfl hbs hv L σ ls m h
  refine (h₁ g rfl hbs L σ ls m h).further ?_
  rintro x σ₁ m₁ ⟨L₁, ls₁, a, p₁, hx⟩
  have hexits : Exits (k + 1) [.scopeExit i] := hi ▸ Exits.some fun h0 => by simp [h0] at hi
  rw [Instr.total_append, ← Nat.add_assoc]
  exact (p₁.situated.follows_end ((p₁.length rfl).trans hv) hx hexits hl.right).mono
    fun x σ₂ m₂ hx => p₁.returns hx

theorem simulates_finishBlock {exit : List Instr} (hT : T.Once) (hE : Enters T c b v u)
    (h₁ : Simulates T W N n c b (.body fs l) u pos code) (hexit : Exits (l + (k + 1)) exit) :
    Simulates T W N n c s (.finish k (.block b fs)) v pos (code ++ exit) := by
  intro hl hp
  obtain ⟨bs, ho, h₁⟩ := h₁.inside hT hE hl.left hp
  refine ⟨bs, ho, ?_⟩
  rintro g rfl hbs hv L σ ls m h
  refine (h₁ g rfl hbs L σ ls m h).further ?_
  rintro x σ₁ m₁ ⟨L₁, ls₁, us, a, hus, p₁, hx⟩
  have hs := p₁.situated
  have hlen : (ls₁ ++ us).length = l + (k + 1) := by
    have := hs.depth
    rw [← List.append_assoc, List.length_append, List.length_singleton, View.depth_push, hv] at this
    omega
  rw [← List.append_assoc] at hs
  rw [Instr.total_append, ← Nat.add_assoc]
  exact (hs.follows_end hlen hx hexit hl.right).mono fun x σ₂ m₂ hx => p₁.returns hx

/-! ## All code -/

/-- What leaves a variable in a slot declares it. -/
theorem declared_of_coded {direct : Bool} {o : Outcome} {as : List Access}
    (h : Coded T W c s (.form direct f o) v pos code as) : Declared T s f o := by
  rintro hf name ix rfl
  cases h with
  | declare _ hd =>
    cases hd
    exact ⟨List.mem_append_right _ List.mem_cons_self, hf.1⟩
  | define _ hd =>
    cases hd
    exact ⟨List.mem_append_right _ List.mem_cons_self, hf.1⟩

/-- All code does what the evaluation says, if calls do. -/
theorem Coded.simulates {task : Task} {as : List Access} (hT : T.Once) (hW : Numbered W N)
    (hcaptured : ∀ f x, x ∈ (T.scope f).free → ∃ o, T.Captured f x o) (hcalls : CallsFollow T W N n)
    (h : Coded T W c s task v pos code as) : Simulates T W N n c s task v pos code := by
  induction h with
  | number hh => exact simulates_number hW hh
  | string ht hh => exact simulates_string ht hh
  | boolean hh => exact simulates_boolean hh
  | reference hl => exact simulates_reference hT hl
  | block hE _ hexit ih => exact simulates_block hT hE ih hexit
  | declare _ hd ih => exact simulates_declare ih hd
  | assign _ hl ih => exact simulates_assign hT ih hl
  | ifThen _ ih => exact simulates_ifThen ih
  | ifElse _ _ ho _ hd ih₁ ih₂ ih₃ => exact simulates_ifElse ih₁ ih₂ ho ih₃ hd
  | whileLoop _ ih => exact simulates_whileLoop ih
  | forLoop h₁ _ ih₁ ih₂ => exact simulates_forLoop (declared_of_coded h₁) ih₁ ih₂
  | define _ hd ih => exact simulates_define ih hd
  | lambda _ ih => exact simulates_lambda ih
  | operation _ _ ih₁ ih₂ => exact simulates_operation ih₁ ih₂
  | call _ _ hn ih₁ ih₂ => exact simulates_call hcalls ih₁ ih₂ hn
  | empty _ ih => exact simulates_empty ih
  | last h₁ ih => exact simulates_last (declared_of_coded h₁) ih
  | next h₁ _ ih₁ ih₂ => exact simulates_next (declared_of_coded h₁) ih₁ ih₂
  | noArgs => exact simulates_noArgs
  | args _ _ ih₁ ih₂ => exact simulates_args ih₁ ih₂
  | noDrops => exact simulates_noDrops
  | drops _ _ ih₁ ih₂ => exact simulates_drops ih₁ ih₂
  | loop _ _ hs hd _ ih₁ ih₂ ih₃ => exact simulates_loop ih₁ ih₂ hs hd ih₃
  | constant hsize hcode hh hg hholds => exact simulates_constant hcode hh hsize hg hholds
  | made hcode hh hloads hholds hn => exact simulates_made hcode hh (hcaptured _) hloads hholds hn
  | finishBlock hE _ hexit ih => exact simulates_finishBlock hT hE ih hexit
  | finish _ hm ih => exact simulates_finish ih hm
  | code => exact fun _ hp => hp.elim

/-! ## Calls of built-in functions -/

theorem onStack_bind {α β : Type} (op : StackOp α) (f : α → StackOp β) :
    onStack (op >>= f) = (onStack op >>= fun a => onStack (f a)) := by
  funext m
  change onStack (EStateM.bind op f) m = EStateM.bind (onStack op) _ m
  simp only [onStack, EStateM.bind]
  cases op m.stack <;> rfl

theorem onStack_throw {α : Type} (e : Fault) : onStack (throw e : StackOp α) = throw e := rfl

/-- An argument of a built-in function must be a number. -/
theorem ends_numberArg {name : String} {i : Nat} {f : Float → StackOp Unit} {e : Float → Eval Val}
    {Q : EStateM.Result Stop Memory Val → Machine → Prop} (hi : m.stack.values[i]? = some a)
    (hx : x.Is T W N L m.heap a) (hl : Linked T W N ⟨L, σ, m.world⟩)
    (hf : ∀ p, Ends (onStack (f p)) m (fun _ => Q (e p σ)) (Allowed (Halted T W N) (e p σ))) :
    Ends (onStack (Native.numberArg name i >>= f)) m (fun _ => Q ((Builtin.argument name x >>= e) σ))
      (Allowed (Halted T W N) ((Builtin.argument name x >>= e) σ)) := by
  rw [onStack_bind, Native.numberArg, onStack_bind, bind_assoc]
  refine ends_bind (ends_peek hi ?_)
  cases hx with
  | number p => exact hf p
  | _ =>
    rw [onStack_throw]
    exact ends_bind (ends_throw (Or.inr ⟨σ, rfl, L, hl⟩))

/-- A built-in function pushes a number, or fails as the evaluation says. -/
theorem ends_builtin {G : Builtin} {xs : List Val} (hG : G.native.arity = xs.length)
    (hv : m.stack.values = us.reverse ++ ls) (hxs : List.Forall₂ (fun x u => x.Is T W N L m.heap u) xs us)
    (hl : Linked T W N ⟨L, σ, m.world⟩) :
    Ends (onStack G.native.run) m
      (fun _ m' => ∃ p, m' = m.put (.number p :: m.stack.values) ∧ G.apply xs σ = .ok (.number p) σ)
      (Allowed (Halted T W N) (G.apply xs σ)) := by
  cases G with
  | unary name f =>
    obtain ⟨x, rfl⟩ := List.length_eq_one_iff.1 hG.symm
    obtain _ | ⟨hx, hrest⟩ := hxs
    cases hrest
    refine ends_numberArg (Q := fun r m' => ∃ p, m' = m.put (.number p :: m.stack.values) ∧
      r = .ok (.number p) σ) (by rw [hv]; rfl) hx hl fun p => ?_
    exact ends_push (Or.inl rfl) ⟨f p, rfl, rfl⟩
  | binary name f =>
    obtain ⟨x, y, rfl⟩ := List.length_eq_two.1 hG.symm
    obtain _ | ⟨hx, hrest⟩ := hxs
    obtain _ | ⟨hy, hrest⟩ := hrest
    cases hrest
    refine ends_numberArg (Q := fun r m' => ∃ p, m' = m.put (.number p :: m.stack.values) ∧
      r = .ok (.number p) σ) (by rw [hv]; rfl) hx hl fun p => ?_
    refine ends_numberArg (Q := fun r m' => ∃ p, m' = m.put (.number p :: m.stack.values) ∧
      r = .ok (.number p) σ) (by rw [hv]; rfl) hy hl fun q => ?_
    exact ends_push (Or.inl rfl) ⟨f p q, rfl, rfl⟩

theorem apply_of_arity {G : Builtin} {xs : List Val} (h : G.native.arity ≠ xs.length) :
    G.apply xs = fail (.arity G.native.name G.native.arity xs.length) := by
  cases G with
  | unary name f =>
    match xs with
    | [] | _ :: _ :: _ => rfl
    | [_] => exact absurd rfl h
  | binary name f =>
    match xs with
    | [] | [_] | _ :: _ :: _ :: _ => rfl
    | [_, _] => exact absurd rfl h

section

variable {callee : Value} {argc : UInt8} {xs : List Val}

/-- The function and its arguments lie on the stack. -/
theorem values_call (argc : UInt8) (hat : m.At g pos (ls ++ callee :: us)) :
    (m.past (.call argc)).stack.values = us.reverse ++ callee :: (g.below ++ ls).reverse := by
  rw [(hat.past (i := .call argc)).values]
  simp

theorem values_callee (hat : m.At g pos (ls ++ callee :: us)) (hargc : argc.toNat = us.length) :
    (m.past (.call argc)).stack.values[argc.toNat]? = some callee := by
  rw [values_call argc hat, List.getElem?_append_right (by simp [hargc]), hargc, List.length_reverse,
    Nat.sub_self]
  rfl

/-- A call of something else than a function is refused. -/
theorem follows_refused (hat : m.At g pos (ls ++ callee :: us)) (hi : m.instr? = some (.call argc))
    (hargc : argc.toNat = us.length) (hl : Linked T W N ⟨L, σ, m.world⟩)
    (hx : x.Is T W N L m.heap callee)
    (hcallee : ∀ o, callee.handle?.bind m.heap.get? = some o → ∃ text, o = .string text) :
    m.Follows n (g.Answers T W N ⟨L, σ, m.world⟩ ls (pos + 2)) (Halted T W N)
      ((fail (.notCallable x.tag) : Eval Val) σ) := by
  refine (follows_execute hi (ends_seq ?_)).anti (Nat.le_succ n)
  refine ends_bind (ends_peek (values_callee hat hargc) (ends_bind (ends_get ?_)))
  split
  · next hf =>
    obtain ⟨text, he⟩ := hcallee _ hf
    cases he
  · next hf =>
    obtain ⟨text, he⟩ := hcallee _ hf
    cases he
  · exact ends_bind (ends_tagOf (m := m.past (.call argc)) hx.tag? (Or.inr ⟨σ, rfl, L, hl⟩))

/-- A call of a built-in function. -/
theorem follows_native {G : Builtin} {i : Handle} (hat : m.At g pos (ls ++ .object i :: us))
    (hi : m.instr? = some (.call argc)) (hargc : argc.toNat = us.length)
    (hl : Linked T W N ⟨L, σ, m.world⟩) (hG : m.heap.get? i = some (.native G.native))
    (hxs : List.Forall₂ (fun x u => x.Is T W N L m.heap u) xs us) :
    m.Follows n (g.Answers T W N ⟨L, σ, m.world⟩ ls (pos + 2)) (Halted T W N) (G.apply xs σ) := by
  have hvals := values_call argc hat
  have hG' : (m.past (.call argc)).heap.get? i = some (.native G.native) := hG
  have hlen : argc.toNat = xs.length := hargc.trans hxs.length_eq.symm
  refine (follows_execute hi (ends_seq ?_)).anti (Nat.le_succ n)
  refine ends_bind (ends_peek (values_callee hat hargc) (ends_bind (ends_get ?_)))
  simp only [Value.handle?, Option.bind_some, hG']
  unfold callNative
  refine ends_guard (fun hne => ?_) fun heq => ?_
  · rw [hlen] at hne ⊢
    rw [apply_of_arity hne]
    exact Or.inr ⟨σ, rfl, L, hl⟩
  rw [not_not, hlen] at heq
  refine ends_bind (ends_height (ends_bind ((ends_builtin (m := m.past (.call argc)) heq hvals hxs hl).mono
    ?_ fun _ _ h => h)))
  rintro - m' ⟨p, rfl, hr⟩
  refine ends_bind (ends_height (ends_guard (fun h => absurd rfl h) fun _ => ?_))
  have hdrop : us.reverse ++ .object i :: (g.below ++ ls).reverse =
      (us.reverse ++ [.object i]) ++ (g.below ++ ls).reverse := by simp
  refine ends_bind (ends_pop rfl (ends_bind (ends_drop (hvals.trans hdrop) (by simp [hargc])
    (ends_push (Or.inl rfl) ?_))))
  rw [hr]
  refine Or.inr ⟨_, .start, L, .number p, hl, .refl .., ?_, .number p⟩
  exact (hat.past (i := .call argc)).put (by simp)

end

/-! ## Calls of functions -/

/-- The code of a function with what is known of its parts. -/
structure Function.Ready (T : Scopes) (W : World) (N : Float → Prop) (n : Nat) (F : Function) (c : Code)
    (bs : List (ScopeId × Nat)) (moved body : List Instr) : Prop where
  name : c.name = F.name
  arity : c.arity = F.params.length
  free : c.free = (T.scope F.scope).free.toArray
  opens : ∃ s, T.OpensFunction s F
  moves : Moves (T.scope F.scope) (Emit.draftOf F.name F.params (T.scope F.scope)).view 0
    (F.name :: F.params) moved
  lies : c.Lies 0 (moved ++ body ++ [.ret])
  laid : Laid T c F.scope ((F.scope, 0) :: bs)
  does : ∀ g : Setting, g.code = c → (∀ p ∈ bs, p ∈ g.blocks) →
    g.Does T W N n F.scope (Emit.draftOf F.name F.params (T.scope F.scope)).view (Instr.total moved)
      (eval T (call T n) n g.env F.scope F.body) fun S _ =>
        g.Returns T W N F.scope (Instr.total moved + Instr.total body) S

section

variable {F : Function} {h : Handle} (hT : T.Once) (hW : Numbered W N)
  (hcaptured : ∀ f x, x ∈ (T.scope f).free → ∃ o, T.Captured f x o) (hcalls : CallsFollow T W N n)

include hT hW hcaptured hcalls in
theorem Function.Compiled.ready (hF : F.Compiled T W N h) :
    ∃ c bs moved body, W.heap.code? h = some c ∧ F.Ready T W N n c bs moved body := by
  obtain ⟨s, -, hopens⟩ := hF.stands
  obtain ⟨c, code, as, hc, hcoded⟩ := hF.code
  cases hcoded with
  | @code _ _ _ _ _ _ moved body _ hname harity hfree hown hv hmoves hfinish hbytes =>
    have hlies : c.Lies 0 (moved ++ body ++ [.ret]) := Code.lies_of_bytes hbytes
    have hbody : c.Lies (Instr.total moved) body := by simpa using hlies.left.right
    have standing := standing_draftOf hopens
    obtain ⟨bs, ho, hdoes⟩ := Coded.simulates hT hW hcaptured hcalls hfinish hbody
      ⟨standing, ⟨hF.forms, trivial⟩, by simpa [Form.collectAll] using hF.blocks,
        by simpa [Form.collectAll] using hF.numbers⟩
    have hhome := Scopes.home_function hopens.opens.kind
    refine ⟨c, bs, moved, body, hc, hname, harity, hfree, ⟨s, hopens⟩, hmoves, hlies, ⟨?_, ?_, ?_⟩,
      fun g hg hbs => hdoes g hg hbs (Emit.depth_draftOf ..)⟩
    · refine List.nodup_cons.2 ⟨fun hm => ?_, hF.blocks.sublist ho.sub⟩
      obtain ⟨p, hp, he⟩ := List.mem_map.1 hm
      have hk := ho.kind p hp
      rw [he, hopens.opens.kind] at hk
      cases hk
    · exact List.forall_mem_cons.2 ⟨hhome, fun p hp => (ho.home p hp).trans hhome⟩
    · refine List.forall_mem_cons.2 ⟨fun i x hx => ?_, ho.own⟩
      rw [Nat.zero_add]
      exact hown i x hx

variable {V : World} {cells : Array Handle} {callers : Array Frame} {below : List Value} {env : Env}
  {bs : List (ScopeId × Nat)} {moved body : List Instr} {callee : Val} {args : List Val} {argc : UInt8}
  {i : Handle}

include hT hcaptured in
/-- The run of a function that starts. -/
theorem Function.Ready.follows (hr : F.Ready T W N n c bs moved body) (hc : W.heap.code? h = some c)
    (hcells : F.Holds T L env cells) (hl : Linked T W N ⟨L, σ, V⟩)
    (hg : g = ⟨⟨0, below.length, h, cells ++ Array.range' V.heap.size c.own.size⟩, c, callers, below,
      env.enter F.scope σ.next, bs⟩)
    (hat : m.At g 0 (a :: us)) (hw : m.world = ⟨V.heap.addCells c.own.size, V.globals⟩)
    (hlen : F.params.length = args.length) (hx : callee.Is T W N L V.heap a)
    (hxs : List.Forall₂ (fun x u => x.Is T W N L V.heap u) args us) :
    m.Follows n (g.Returns T W N F.scope (Instr.total moved + Instr.total body) ⟨L, σ, V⟩) (Halted T W N)
      (eval T (call T n) n g.env F.scope F.body (σ.enter F.scope (F.starts callee args))) := by
  obtain ⟨s, hF⟩ := hr.opens
  have hhome := Scopes.home_function hF.opens.kind
  have henv : g.env F.scope = σ.next := by
    rw [hg]
    exact if_pos rfl
  have hus : (a :: us).length = F.params.length + 1 := by rw [List.length_cons, ← hxs.length_eq, hlen]
  obtain ⟨L₁, hs, hg₁⟩ := hl.situated hT (hcaptured _) hF hcells hc hr.free hr.laid hg hat hw hus
    (· = g.env (T.home F.scope))
  have hvals (i : Nat) (u : Val) (hu : (callee :: args)[i]? = some u) :
      ∃ b, (a :: us)[i]? = some b ∧ u.Is T W N L₁ m.heap b := by
    obtain ⟨hlt, rfl⟩ := List.getElem?_eq_some_iff.1 hu
    have hall := List.Forall₂.cons hx hxs
    have hlt' : i < (a :: us).length := hall.length_eq ▸ hlt
    exact ⟨_, List.getElem?_eq_getElem hlt', Val.Is.later ((List.forall₂_iff_get.1 hall).2 i hlt hlt')
      hg₁.link hg₁.world⟩
  have hcode : g.code = c := by rw [hg]
  have started := hs.follows_start (n := n) hr.moves (hcode ▸ hr.lies.left.left) hF henv hlen hvals
  refine started.after ?_
  rintro m₂ ⟨L₂, hs₂, hg₂⟩
  rw [Nat.zero_add] at hs₂
  refine (hr.does g hcode (by rw [hg]; exact fun p hp => hp) L₂ _ _ m₂ hs₂).mono ?_
  rintro x σ' m' ⟨L', b, hl', hg', hat', hx'⟩
  exact ⟨L', b, hl', (hg₁.trans hg₂).trans hg', hat', hx'⟩

/-- A new activation has no slots before it starts. -/
theorem Grown.elim {S S' : Stage} {l : Nat} (hg : Grown T (· = l) S S') (hl : S.memory.next ≤ l) :
    Grown T (fun _ => False) S S' :=
  ⟨hg.link, hg.world, hg.next, fun ℓ hℓ _ hs => hg.spares ℓ hℓ (Nat.ne_of_lt (Nat.lt_of_lt_of_le hℓ hl)) hs⟩

include hT hW hcaptured hcalls in
/-- A call of a function of the program. -/
theorem follows_closure (hat : m.At g pos (ls ++ .object i :: us))
    (hi : m.instr? = some (.call argc)) (hargc : argc.toNat = us.length)
    (hl : Linked T W N ⟨L, σ, m.world⟩) (hf : m.heap.get? i = some (.function ⟨h, cells⟩))
    (hF : F.Compiled T W N h) (hcells : F.Holds T L env cells)
    (hxs : List.Forall₂ (fun x u => x.Is T W N L m.heap u) args us) :
    m.Follows (n + 1) (g.Answers T W N ⟨L, σ, m.world⟩ ls (pos + 2)) (Halted T W N)
      (call T (n + 1) (.closure F env) args σ) := by
  obtain ⟨c, bs, moved, body, hc, hr⟩ := hF.ready hT hW hcaptured hcalls
  have hf' : (m.past (.call argc)).heap.get? i = some (.function ⟨h, cells⟩) := hf
  have hc' : (m.past (.call argc)).heap.code? h = some c := hl.code? hc
  have hlen : argc.toNat = args.length := hargc.trans hxs.length_eq.symm
  have hpast := hat.past (i := .call argc)
  rw [call]
  refine follows_execute hi (ends_seq (ends_bind (ends_peek (values_callee hat hargc) (ends_bind
    (ends_get ?_)))))
  simp only [Value.handle?, Option.bind_some, hf']
  refine ends_callCode hc' (fun hne => ?_) (Or.inl rfl) fun harity _ => ?_
  · rw [hr.arity, hlen] at hne
    rw [if_pos hne, hr.name, hr.arity, hlen]
    exact Or.inr ⟨σ, rfl, L, hl⟩
  rw [hr.arity, hlen] at harity
  rw [if_neg (not_not.2 harity)]
  let g' : Setting := ⟨⟨0, (g.below ++ ls).length, h, cells ++ Array.range' m.heap.size c.own.size⟩, c,
    (m.past (.call argc)).callers.push (m.past (.call argc)).current, g.below ++ ls,
    env.enter F.scope σ.next, bs⟩
  have entered : ((m.past (.call argc)).calling ⟨h, cells⟩ c argc.toNat).At g' 0 (.object i :: us) := by
    refine ⟨?_, rfl, rfl, ?_⟩
    · have hheight : (m.past (.call argc)).stack.height - argc.toNat - 1 = (g.below ++ ls).length := by
        rw [Stack.height_eq, values_call argc hat, hargc]
        simp
        omega
      rw [calling, hheight]
      rfl
    · exact (values_call argc hat).trans (by simp [g'])
  have ran := hr.follows hT hcaptured hc hcells hl (g := g') rfl entered rfl harity
    (.closure hf hF hcells) hxs
  refine Follows.further ran ?_
  rintro x σ' m₂ ⟨L₂, b, hl₂, hg₂, hat₂, hx₂⟩
  -- the value stays on top, and the caller goes on
  have hlast : c.Lies (Instr.total moved + Instr.total body) [.ret] := by
    rw [← Instr.total_append, ← Nat.zero_add (Instr.total _)]
    exact hr.lies.right
  have hi₂ : m₂.instr? = some .ret := hat₂.instr? (hl₂.code? hc) hlast
  have hcallers : (m₂.past .ret).callers =
      (m.past (.call argc)).callers.push (m.past (.call argc)).current := hat₂.callers
  have grown : Grown T (fun _ => False) ⟨L, σ, m.world⟩ ⟨L₂, σ', m₂.world⟩ := by
    obtain ⟨s, hopens⟩ := hr.opens
    refine Grown.elim hg₂ (Nat.le_of_eq ?_)
    rw [Scopes.home_function hopens.opens.kind]
    exact (if_pos rfl).symm
  refine (follows_execute hi₂ (ends_seq (ends_of_ok () { m₂.past .ret with
    current := (m.past (.call argc)).current, callers := (m.past (.call argc)).callers } ?_ ?_))).anti
      (Nat.le_succ n)
  · rw [ret, hcallers, Array.back?_push, Array.pop_push]
  · refine Or.inr ⟨_, .start, L₂, b, hl₂, grown, ⟨hpast.current, hpast.callers, hpast.base, ?_⟩, hx₂⟩
    rw [← List.append_assoc]
    exact hat₂.values

include hT hW hcaptured in
/-- All calls do what the evaluation says, by induction on the number of calls within one another. -/
theorem callsFollow (n : Nat) : CallsFollow T W N n := by
  induction n with
  | zero => exact fun _ _ _ _ _ _ _ _ _ _ _ _ _ _ _ _ _ => Or.inr rfl
  | succ n ih =>
    intro g pos argc ls u us L σ m f xs hat hi hargc hl hf hxs
    cases hf with
    | number x => exact follows_refused hat hi hargc hl (.number x) nofun
    | boolean b => exact follows_refused hat hi hargc hl (.boolean b) nofun
    | @string text j hj =>
      refine follows_refused hat hi hargc hl (.string hj) fun o ho => ⟨text, ?_⟩
      exact Option.some.inj (ho.symm.trans hj)
    | builtin hj => exact follows_native hat hi hargc hl hj hxs
    | closure hj hF hcells => exact follows_closure hT hW hcaptured ih hat hi hargc hl hj hF hcells hxs

end

end Meaning

end ByteLisp
