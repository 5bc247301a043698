/-
  ByteLisp: the constants that a form needs, and how they are supplied.

  A literal, the value of a loop or of a choice without an alternate, and a function
  each need a constant. The needs of a form can be listed in the order of its code;
  what a function needs in its turn is needed in another pool.

  * `Demand` is a need for a constant, `Form.demands` are those of a form;
  * `Take` says how a pool supplies a value, and `Supplies` how a heap and a pool supply
    some demands: strings, code objects and functions are allocated first;
  * `Emit.Asks`: an action supplies its demands in order, and its instructions push
    what is supplied; `Form.emit_asks` says so of all forms;
  * `Expr.compile_supplies` is the result for programs.
-/
import ByteLisp.Proofs.Generation.Emitted
import ByteLisp.Proofs.Generation.Idle

namespace ByteLisp

/-! ## Demands -/

/-- A need for a constant. -/
inductive Demand where
  | number (x : Float)
  | string (text : String)
  | boolean (b : Bool)
  /-- A function, or its code if it captures something. -/
  | function (name : String) (params : List String) (body : Form)

namespace Form

mutual

/-- The constants that a form needs, in the order of its code. -/
def demands : Form → List Demand
  | .number x => [.number x]
  | .string text => [.string text]
  | .boolean b => [.boolean b]
  | .reference _ _ => []
  | .block _ body => demandsBody body
  | .declare _ init => demands init
  | .assign _ _ value => demands value
  | .ifThen test thn => demands test ++ demands thn ++ [.boolean false]
  | .ifElse test thn els => demands test ++ demands thn ++ demands els
  | .whileLoop test body => demands test ++ demands body ++ [.boolean false]
  | .forLoop init test modifier body =>
    demands init ++ (demands test ++ demands body ++ demands modifier ++ [.boolean false])
  | .define name _ params body => [.function name params body]
  | .lambda label _ params body => [.function label params body]
  | .operation _ x y => demands x ++ demands y
  | .call callee args => demands callee ++ demandsAll args
  | .malformed _ _ => []

/-- The constants that a block needs; an empty one has the value `false`. -/
def demandsBody : List Form → List Demand
  | [] => [.boolean false]
  | [form] => demands form
  | form :: next :: rest => demands form ++ demandsBody (next :: rest)

/-- The constants that some forms need. -/
def demandsAll : List Form → List Demand
  | [] => []
  | form :: rest => demands form ++ demandsAll rest

end

end Form

/-! ## Supplies -/

/-- A pool supplies a value from a place: there is a constant that is the same, or the value is
    added. -/
inductive Take (h : Heap) (v : Value) : Array Value → UInt8 → Array Value → Prop
  | found {cs ix} : cs.findIdx? (h.sameConstant · v) = some ix → ix < 256 → Take h v cs ix.toUInt8 cs
  | added {cs} : cs.findIdx? (h.sameConstant · v) = none → cs.size < 256 →
      Take h v cs cs.size.toUInt8 (cs.push v)

/-- A heap and a pool supply some demands from some places; what they are afterwards. The constants
    of a function are supplied by a pool of its own. -/
inductive Supplies : Heap → Array Value → List Demand → List UInt8 → Heap → Array Value → Prop
  | nil {h cs} : Supplies h cs [] [] h cs
  | append {h₁ cs₁ ds ixs h₂ cs₂ ds' ixs' h₃ cs₃} : Supplies h₁ cs₁ ds ixs h₂ cs₂ →
      Supplies h₂ cs₂ ds' ixs' h₃ cs₃ → Supplies h₁ cs₁ (ds ++ ds') (ixs ++ ixs') h₃ cs₃
  | number {h cs x ix cs'} : Take h (.number x) cs ix cs' → Supplies h cs [.number x] [ix] h cs'
  | boolean {h cs b ix cs'} : Take h (.boolean b) cs ix cs' → Supplies h cs [.boolean b] [ix] h cs'
  | string {h cs text ix cs'} : Take (h.alloc (.string text)) (.object h.size) cs ix cs' →
      Supplies h cs [.string text] [ix] (h.alloc (.string text)) cs'
  /-- A function that captures nothing. -/
  | constant {h cs name params body h' c code ix cs'} :
      Supplies h #[] (Form.demands body) (constantsOf code) h' c.constants →
      c.bytes = Instr.bytes code → c.name = name → c.arity = params.length →
      Take ((h'.alloc (.code c)).alloc (.function ⟨h'.size, #[]⟩)) (.object (h'.size + 1)) cs ix cs' →
      Supplies h cs [.function name params body] [ix]
        ((h'.alloc (.code c)).alloc (.function ⟨h'.size, #[]⟩)) cs'
  /-- The code of a function that is made from it. -/
  | code {h cs name params body h' c code ix cs'} :
      Supplies h #[] (Form.demands body) (constantsOf code) h' c.constants →
      c.bytes = Instr.bytes code → c.name = name → c.arity = params.length →
      Take (h'.alloc (.code c)) (.object h'.size) cs ix cs' →
      Supplies h cs [.function name params body] [ix] (h'.alloc (.code c)) cs'

namespace Emit

variable {α β : Type} {π : α → List Instr} {ρ : β → List Instr} {pre : List UInt8}
  {ds ds' : List Demand}

/-- An action that supplies some demands if it succeeds: behind the constants `pre`, which were
    supplied before, its instructions push what is supplied. -/
structure Asks (pre : List UInt8) (π : α → List Instr) (ds : List Demand) (x : Emit α) : Prop where
  ok : ∀ {e a e'}, x e = .ok a e' → ∃ ixs, constantsOf (π a) = pre ++ ixs ∧
    Supplies e.heap e.draft.constants ds ixs e'.heap e'.draft.constants

theorem asks_bind {x : Emit α} {f : α → Emit β} (hx : Asks [] π ds x)
    (hf : ∀ a, Asks (pre ++ constantsOf (π a)) ρ ds' (f a)) : Asks pre ρ (ds ++ ds') (x >>= f) where
  ok h := by
    obtain ⟨a, e₁, h₁, h₂⟩ := bind_ok.1 h
    obtain ⟨ixs, hixs, hs⟩ := hx.ok h₁
    obtain ⟨ixs', hixs', hs'⟩ := (hf a).ok h₂
    refine ⟨ixs ++ ixs', ?_, hs.append hs'⟩
    rw [hixs', hixs, List.nil_append, List.append_assoc]

/-- An idle action before another one. -/
theorem asks_idle {x : Emit α} {f : α → Emit β} (hx : Idle x) (hf : ∀ a, Asks pre ρ ds (f a)) :
    Asks pre ρ ds (x >>= f) where
  ok h := by
    obtain ⟨a, e₁, h₁, h₂⟩ := bind_ok.1 h
    obtain ⟨hh, hc⟩ := hx.ok h₁
    rw [← hh, ← hc]
    exact (hf a).ok h₂

/-- A quiet action before another one. -/
theorem asks_quiet {x : Emit α} {f : α → Emit β} (hx : Quiet π x)
    (hf : ∀ a, constantsOf (π a) = [] → Asks pre ρ ds (f a)) : Asks pre ρ ds (x >>= f) where
  ok h := by
    obtain ⟨a, e₁, h₁, h₂⟩ := bind_ok.1 h
    obtain ⟨hh, hc⟩ := hx.ok h₁
    rw [← hh, ← hc]
    exact (hf a (hx.code h₁)).ok h₂

/-- An action after which only a result without instructions of its own is put together. -/
theorem asks_pure {a : α} (h : constantsOf (π a) = pre) : Asks pre π [] (pure a) where
  ok ha := by
    obtain ⟨rfl, rfl⟩ := pure_ok.1 ha
    exact ⟨[], by rw [h, List.append_nil], .nil⟩

/-- A quiet action asks for nothing. -/
theorem Quiet.asks {x : Emit α} (h : Quiet π x) : Asks [] π [] x where
  ok hx := by
    obtain ⟨hh, hc⟩ := h.ok hx
    rw [h.code hx, hh, hc]
    exact ⟨[], rfl, .nil⟩

theorem asks_throw (err : CompileError) : Asks pre π ds (throw err) :=
  ⟨fun h => (throw_ok.1 h).elim⟩

/-! ## Constants -/

theorem constantIndex_takes {v : Value} {e e' : Emission} {ix : UInt8}
    (h : constantIndex v e = .ok ix e') :
    e'.heap = e.heap ∧ Take e.heap v e.draft.constants ix e'.draft.constants := by
  have check {name : String} {i : Nat} {e₁ : Emission}
      (hi : constantIndex.check name i e₁ = .ok ix e') : i < 256 ∧ i.toUInt8 = ix ∧ e₁ = e' := by
    obtain ⟨hlt, hi⟩ | ⟨-, hi⟩ := ite_ok.1 hi
    · exact ⟨hlt, pure_ok.1 hi⟩
    · exact (throw_ok.1 hi).elim
  rw [constantIndex_apply] at h
  cases hfind : e.draft.constants.findIdx? (e.heap.sameConstant · v) with
  | some i =>
    rw [hfind] at h
    obtain ⟨hlt, rfl, rfl⟩ := check h
    exact ⟨rfl, .found hfind hlt⟩
  | none =>
    rw [hfind] at h
    obtain ⟨_, e₁, hadd, h⟩ := bind_ok.1 h
    cases update_ok.1 hadd
    obtain ⟨hlt, rfl, rfl⟩ := check h
    exact ⟨rfl, .added hfind hlt⟩

theorem constant_takes {v : Value} {e e' : Emission} {code : List Instr}
    (h : constant v e = .ok code e') : ∃ ix, constantsOf code = [ix] ∧ e'.heap = e.heap ∧
      Take e.heap v e.draft.constants ix e'.draft.constants := by
  obtain ⟨ix, e₁, h₁, h₂⟩ := bind_ok.1 h
  obtain ⟨hh₁, htake⟩ := constantIndex_takes h₁
  obtain ⟨_, e₂, hgrow, hinstr⟩ := bind_ok.1 h₂
  cases update_ok.1 hgrow
  obtain ⟨rfl, rfl⟩ := instr_ok.1 hinstr
  exact ⟨ix, rfl, hh₁, htake⟩

theorem asks_number (x : Float) : Asks [] id [.number x] (constant (.number x)) where
  ok h := by
    obtain ⟨ix, hix, hh, ht⟩ := constant_takes h
    exact ⟨[ix], hix, by rw [hh]; exact .number ht⟩

theorem asks_boolean (b : Bool) : Asks [] id [.boolean b] (constant (.boolean b)) where
  ok h := by
    obtain ⟨ix, hix, hh, ht⟩ := constant_takes h
    exact ⟨[ix], hix, by rw [hh]; exact .boolean ht⟩

/-! ## Composed actions -/

variable {x y z : Emit (List Instr)} {f : Emit (Effect × List Instr)} {dx dy dz df : List Demand}

theorem asks_operation (op : Operator) (hx : Asks [] id dx x) (hy : Asks [] id dy y) :
    Asks [] id (dx ++ dy) (operation op x y) := by
  have hop : (operator op).constant? = none := by cases op <;> rfl
  have h : Asks [] id (dx ++ (dy ++ [])) (operation op x y) :=
    asks_bind hx fun first => asks_bind hy fun second => asks_idle idle_shrink fun _ =>
      asks_quiet (quiet_instr hop) fun i hi => asks_pure (by simp_all)
  rwa [List.append_nil] at h

theorem asks_branch (hx : Asks [] id dx x) (hy : Asks [] id dy y) (hz : Asks [] id dz z) :
    Asks [] id (dx ++ dy ++ dz) (branch x y z) := by
  have h : Asks [] id (dx ++ (dy ++ (dz ++ []))) (branch x y z) :=
    asks_bind hx fun asked => asks_idle idle_reserve fun _ => asks_idle idle_shrink fun _ =>
      asks_idle idle_draft fun _ => asks_bind hy fun consequent => asks_idle idle_reserve fun _ =>
        asks_idle idle_address fun _ => asks_idle (idle_update fun _ => rfl) fun _ =>
          asks_bind hz fun alternate => asks_idle idle_address fun _ =>
            asks_pure (by simp [constantsOf_cons, Instr.constant?])
  rwa [List.append_nil, ← List.append_assoc] at h

theorem asks_modify? (hx : Asks [] id dx x) : Asks [] id dx (modify? (some x)) := by
  have h : Asks [] id (dx ++ []) (modify? (some x)) :=
    asks_bind hx fun code => asks_quiet quiet_discard fun pop hp => asks_pure (by simp_all)
  rwa [List.append_nil] at h

theorem asks_loop {modifier : Option (Emit (List Instr))} (hx : Asks [] id dx x)
    (hy : Asks [] id dy y) (hm : Asks [] id dz (modify? modifier)) :
    Asks [] id (dx ++ dy ++ dz ++ [.boolean false]) (loop x y modifier) := by
  have h : Asks [] id (dx ++ (dy ++ (dz ++ ([.boolean false] ++ [])))) (loop x y modifier) :=
    asks_idle idle_draft fun _ => asks_bind hx fun asked => asks_idle idle_reserve fun _ =>
      asks_idle idle_shrink fun _ => asks_bind hy fun body => asks_quiet quiet_discard fun pop hp =>
        asks_bind hm fun modified => asks_idle (idle_addressOf _) fun _ =>
          asks_quiet (quiet_instr rfl) fun back hb => asks_idle idle_address fun _ =>
            asks_bind (asks_boolean false) fun result =>
              asks_pure (by simp_all [constantsOf_cons, Instr.constant?])
  rwa [List.append_nil, ← List.append_assoc, ← List.append_assoc] at h

theorem asks_forLoop (hf : Asks [] Prod.snd df f) (hx : Asks [] id dx x) :
    Asks [] id (df ++ dx) (forLoop f x) := by
  have h : Asks [] id (df ++ (dx ++ [])) (forLoop f x) := by
    refine asks_bind hf fun (effect, first) => ?_
    cases effect with
    | value => exact asks_quiet quiet_discard fun pop hp => asks_bind hx fun code => asks_pure (by simp_all)
    | stored ix => exact asks_bind hx fun code => asks_pure (by simp)
    | slot ix =>
      exact asks_bind hx fun code => asks_quiet (quiet_instr rfl) fun exit he =>
        asks_idle (idle_update fun _ => rfl) fun _ => asks_pure (by simp_all)
  rwa [List.append_nil] at h

theorem asks_separate (hf : Asks [] Prod.snd df f) : Asks [] id df (separate f) := by
  have h : Asks [] id (df ++ []) (separate f) := by
    refine asks_bind hf fun (effect, code) => ?_
    cases effect with
    | value => exact asks_quiet quiet_discard fun pop hp => asks_pure (by simp_all)
    | stored ix | slot ix => exact asks_pure (by simp)
  rwa [List.append_nil] at h

theorem asks_conclude (hf : Asks [] Prod.snd df f) : Asks [] id df (conclude f) := by
  have h : Asks [] id (df ++ []) (conclude f) := by
    refine asks_bind hf fun (effect, code) => ?_
    cases effect with
    | value => exact asks_pure (by simp)
    | stored ix | slot ix =>
      exact asks_idle idle_grow fun _ => asks_quiet (quiet_instr rfl) fun get hg =>
        asks_pure (by simp_all)
  rwa [List.append_nil] at h

theorem asks_block (T : Scopes) (whole : Form) (b : ScopeId) (extra : Nat) (hx : Asks [] id dx x) :
    Asks [] id dx (block T whole b extra x) := by
  have rest : Asks [] id (dx ++ []) (blockEnd whole extra x) :=
    asks_bind hx fun code => asks_idle idle_draft fun _ => asks_idle (idle_update fun _ => rfl) fun _ =>
      asks_quiet (quiet_exit _ _) fun exit he => asks_pure (by simp_all)
  rw [List.append_nil] at rest
  refine asks_idle (idle_update fun _ => rfl) fun _ => ?_
  dsimp only
  split
  · exact asks_idle (idle_update fun d => constants_addBlockCells d _) fun _ => rest
  · exact rest

theorem asks_functionBody (T : Scopes) (whole : Form) (params : List String) (body : Form)
    (hx : ∀ b forms, body = .block b forms → Asks [] id dx x) (hy : Asks [] id dx y) :
    Asks [] id dx (functionBody T whole params body x y) := by
  unfold functionBody
  split
  · exact asks_block T _ _ _ (hx _ _ rfl)
  · have h : Asks [] id (dx ++ []) (do
        let code ← y
        let n ← countOperand (params.length + 1) whole .tooManyParameters
        return code ++ (← instr (.scopeExit n)) : Emit (List Instr)) :=
      asks_bind hy fun code => asks_idle (idle_countOperand _ _ _) fun _ =>
        asks_quiet (quiet_instr rfl) fun exit he => asks_pure (by simp_all)
    rwa [List.append_nil] at h

theorem asks_call (whole : Form) (argc : Nat) (hx : Asks [] id dx x) (hy : Asks [] id dy y) :
    Asks [] id (dx ++ dy) (call whole argc x y) := by
  have h : Asks [] id (dx ++ (dy ++ [])) (call whole argc x y) :=
    asks_bind hx fun function => asks_bind hy fun arguments =>
      asks_idle (idle_countOperand _ _ _) fun _ => asks_idle idle_shrink fun _ =>
        asks_quiet (quiet_instr rfl) fun call hc => asks_pure (by simp_all)
  rwa [List.append_nil] at h

theorem asks_only (hf : Asks [] Prod.snd df f) : Asks [] id df (only f) := by
  have h : Asks [] id (df ++ []) (only f) := asks_bind hf fun _ => asks_pure (by simp)
  rwa [List.append_nil] at h

theorem asks_valued (hx : Asks [] id dx x) : Asks [] Prod.snd dx (valued x) := by
  have h : Asks [] Prod.snd (dx ++ []) (valued x) := asks_bind hx fun _ => asks_pure (by simp)
  rwa [List.append_nil] at h

/-- The code object of a function has the constants that the body needs. -/
theorem functionCode_supplies {T : Scopes} {name : String} {s : ScopeId} {params : List String}
    {e e' : Emission} {h : Handle} {c : Code} (hg : Growing (fun _ => True) x)
    (hx : Asks [] id dx x) (hc : functionCode T name s params x e = .ok (h, c) e') :
    ∃ heap code, Supplies e.heap #[] dx (constantsOf code) heap c.constants ∧
      c.bytes = Instr.bytes code ∧ c.name = name ∧ c.arity = params.length ∧
      h = heap.size ∧ e'.heap = heap.alloc (.code c) ∧ e'.draft.constants = e.draft.constants := by
  obtain ⟨moved, e₁, code, e₂, hm, hbody, rfl, rfl, hh, -, hd⟩ := functionCode_ok hc
  have hgrows := ((growing_moveCaptured _ _ _).ok hm).trans (hg.ok hbody)
  obtain ⟨hheap, hconstants⟩ := (quiet_moveCaptured _ _ _).ok hm
  obtain ⟨ixs, hixs, hs⟩ := hx.ok hbody
  have hstart : (draftOf name params (T.scope s)).constants = #[] := constants_addLocals _ _ _
  have hcode : constantsOf (moved ++ code ++ [.ret]) = ixs := by
    have hmoved : constantsOf moved = [] := (quiet_moveCaptured _ _ _).code hm
    simpa [hmoved, constantsOf_cons, Instr.constant?] using hixs
  rw [hheap, hconstants, hstart] at hs
  refine ⟨e₂.heap, moved ++ code ++ [.ret], hcode ▸ hs, rfl, ?_, ?_, rfl, hh, congrArg _ hd⟩
  · refine hgrows.draft.name.trans ?_
    simp [draftOf, Draft.addLocals_eq, Draft.start]
  · refine hgrows.draft.arity.trans ?_
    simp [draftOf, Draft.addLocals_eq, Draft.start]

theorem asks_function (T : Scopes) (whole : Form) (name : String) (s : ScopeId)
    (params : List String) (body : Form) (hg : Growing (fun _ => True) x)
    (hx : Asks [] id body.demands x) :
    Asks [] id [.function name params body] (function T whole name s params x) where
  ok {e code e'} h := by
    obtain ⟨⟨handle, c⟩, e₁, h₁, h₂⟩ := bind_ok.1 h
    obtain ⟨heap, inner, hs, hb, hn, ha, rfl, hh, hd⟩ := functionCode_supplies hg hx h₁
    obtain ⟨-, h₂⟩ | ⟨-, h₂⟩ := ite_ok.1 h₂
    · obtain ⟨g, e₂, h₂, h₃⟩ := bind_ok.1 h₂
      obtain ⟨rfl, rfl⟩ := alloc_ok.1 h₂
      obtain ⟨ix, hix, hh', ht⟩ := constant_takes h₃
      simp only [hh, hd] at hh' ht
      refine ⟨[ix], hix, ?_⟩
      rw [hh']
      rw [Heap.size_alloc] at ht
      exact .constant hs hb hn ha ht
    · obtain ⟨cells, e₂, h₂, h₃⟩ := bind_ok.1 h₂
      obtain ⟨hh₂, hd₂⟩ := (quiet_loadCells _).ok h₂
      obtain ⟨push, e₃, h₃, h₄⟩ := bind_ok.1 h₃
      obtain ⟨ix, hix, hh₃, ht⟩ := constant_takes h₃
      have hcells : constantsOf cells = [] := (quiet_loadCells _).code h₂
      obtain ⟨n, e₄, h₄, h₅⟩ := bind_ok.1 h₄
      obtain ⟨hh₄, hd₄⟩ := (idle_countOperand _ _ _).ok h₄
      obtain ⟨_, e₅, h₅, h₆⟩ := bind_ok.1 h₅
      cases update_ok.1 h₅
      obtain ⟨made, e₆, h₆, h₇⟩ := bind_ok.1 h₆
      obtain ⟨rfl, rfl⟩ := instr_ok.1 h₆
      obtain ⟨rfl, rfl⟩ := pure_ok.1 h₇
      have hlast : ((e₄.draft.shrink c.free.size).advance (Instr.makeFunction n).size).constants =
          e₃.draft.constants := hd₄
      simp only [hh₃, hh₄, hh₂, hd₂, hh, hd] at ht ⊢
      refine ⟨[ix], ?_, hlast ▸ .code hs hb hn ha ht⟩
      simpa [hcells, constantsOf_cons, Instr.constant?] using hix

theorem asks_string (text : String) : Asks [] Prod.snd [.string text]
    (do let h ← alloc (.string text); valued (constant (.object h))) where
  ok {e a e'} h := by
    obtain ⟨i, e₁, h₁, h₂⟩ := bind_ok.1 h
    obtain ⟨rfl, rfl⟩ := alloc_ok.1 h₁
    have h₂ : (constant (.object e.heap.size) >>= fun code => pure (.value, code))
      { e with heap := e.heap.alloc (.string text) } = .ok a e' := h₂
    obtain ⟨code, e₂, hc, hp⟩ := bind_ok.1 h₂
    obtain ⟨rfl, rfl⟩ := pure_ok.1 hp
    obtain ⟨ix, hix, hh, ht⟩ := constant_takes hc
    exact ⟨[ix], hix, by rw [hh]; exact .string ht⟩

theorem asks_declared {T : Scopes} {s : ScopeId} {whole : Form} {name : String} {direct : Bool}
    (hx : Asks [] id dx x) : Asks [] Prod.snd dx (do
      let code ← x
      let (effect, store) ← declare T s whole name direct
      return (effect, code ++ store) : Emit (Effect × List Instr)) := by
  have h : Asks [] Prod.snd (dx ++ []) (do
      let code ← x
      let (effect, store) ← declare T s whole name direct
      return (effect, code ++ store) : Emit (Effect × List Instr)) :=
    asks_bind hx fun code => asks_quiet (quiet_declare T s whole name direct) fun _ hs =>
      asks_pure (by simp [hs])
  rwa [List.append_nil] at h

end Emit

/-! ## Forms -/

namespace Form

open Emit

mutual

theorem emit_asks (T : Scopes) (s : ScopeId) (direct : Bool) (f : Form) :
    Asks [] Prod.snd f.demands (f.emit T s direct) := by
  cases f with
  | number x => exact asks_valued (asks_number x)
  | string text => exact asks_string text
  | boolean b => exact asks_valued (asks_boolean b)
  | reference name binding => exact asks_valued (quiet_read T s name binding).asks
  | block b body => exact asks_valued (asks_block T _ b 0 (emitBody_asks T b body))
  | declare name init => exact asks_declared (asks_only (emit_asks T s false init))
  | assign name binding value =>
    have h : Asks [] Prod.snd (value.demands ++ []) (emit T s direct (.assign name binding value)) :=
      asks_bind (asks_only (emit_asks T s false value)) fun code =>
        asks_quiet (quiet_write T s name binding) fun set hs => asks_pure (by simp_all)
    rwa [List.append_nil] at h
  | ifThen test thn =>
    exact asks_valued (asks_branch (asks_only (emit_asks T s false test))
      (asks_only (emit_asks T s false thn)) (asks_boolean false))
  | ifElse test thn els =>
    exact asks_valued (asks_branch (asks_only (emit_asks T s false test))
      (asks_only (emit_asks T s false thn)) (asks_only (emit_asks T s false els)))
  | whileLoop test body =>
    have none : Asks [] id [] (modify? none) := asks_pure rfl
    have h := asks_loop (asks_only (emit_asks T s false test)) (asks_only (emit_asks T s false body)) none
    rw [List.append_nil] at h
    exact asks_valued h
  | forLoop init test modifier body =>
    exact asks_valued (asks_forLoop (emit_asks T s true init)
      (asks_loop (asks_only (emit_asks T s false test)) (asks_only (emit_asks T s false body))
        (asks_modify? (asks_only (emit_asks T s false modifier)))))
  | define name f params body =>
    exact asks_declared (asks_function T _ name f params body
      (growing_functionBody T _ params body (emitInside_growing (s := f) admits_true)
        (growing_only (emit_growing admits_true)))
      (asks_functionBody T _ params body (emitInside_asks T body) (asks_only (emit_asks T f false body))))
  | lambda label f params body =>
    exact asks_valued (asks_function T _ label f params body
      (growing_functionBody T _ params body (emitInside_growing (s := f) admits_true)
        (growing_only (emit_growing admits_true)))
      (asks_functionBody T _ params body (emitInside_asks T body) (asks_only (emit_asks T f false body))))
  | operation op x y =>
    exact asks_valued (asks_operation op (asks_only (emit_asks T s false x))
      (asks_only (emit_asks T s false y)))
  | call callee args =>
    exact asks_valued (asks_call _ _ (asks_only (emit_asks T s false callee)) (emitAll_asks T s args))
  | malformed e why => exact asks_throw _

theorem emitInside_asks (T : Scopes) (f : Form) :
    ∀ b forms, f = .block b forms → Asks [] id f.demands (emitInside T f) := by
  rintro b forms rfl
  exact emitBody_asks T b forms

theorem emitBody_asks (T : Scopes) (s : ScopeId) (fs : List Form) :
    Asks [] id (demandsBody fs) (emitBody T s fs) := by
  match fs with
  | [] => exact asks_boolean false
  | [f] => exact asks_conclude (emit_asks T s true f)
  | f :: g :: fs =>
    have h : Asks [] id (f.demands ++ (demandsBody (g :: fs) ++ [])) (emitBody T s (f :: g :: fs)) :=
      asks_bind (asks_separate (emit_asks T s true f)) fun _ =>
        asks_bind (emitBody_asks T s (g :: fs)) fun _ => asks_pure (by simp)
    rwa [List.append_nil] at h

theorem emitAll_asks (T : Scopes) (s : ScopeId) (fs : List Form) :
    Asks [] id (demandsAll fs) (emitAll T s fs) := by
  cases fs with
  | nil => exact asks_pure rfl
  | cons f fs =>
    have h : Asks [] id (f.demands ++ (demandsAll fs ++ [])) (emitAll T s (f :: fs)) :=
      asks_bind (asks_only (emit_asks T s false f)) fun _ => asks_bind (emitAll_asks T s fs) fun _ =>
        asks_pure (by simp)
    rwa [List.append_nil] at h

end

end Form

/-- The constants that a program needs. -/
def Expr.demands (e : Expr) : List Demand := (Form.ofResolved "lambda" e.resolveProgram.1).demands

/-- A program that compiles has the constants that it needs. -/
theorem Expr.compile_supplies {e : Expr} {heap : Heap} {globals : Globals} {main : Handle}
    (h : (e.compile heap globals).result = .ok main) :
    ∃ heap' c code, Supplies heap #[] e.demands (constantsOf code) heap' c.constants ∧
      c.bytes = Instr.bytes code ∧ main = heap'.size ∧
      (e.compile heap globals).heap = heap'.alloc (.code c) := by
  obtain ⟨notes, hr⟩ := e.compile_cases heap globals
  split at hr
  · next h' e' hm =>
    rw [hr] at h
    cases h
    obtain ⟨code, e₁, c, h₁, rfl, rfl, hheap, -⟩ := Emit.main_ok hm
    obtain ⟨ixs, hixs, hs⟩ := (Emit.asks_only (Form.emit_asks e.resolveProgram.2 Scopes.root false
      (Form.ofResolved "lambda" e.resolveProgram.1))).ok h₁
    refine ⟨e₁.heap, _, code ++ [.halt], ?_, rfl, rfl, by rw [hr]; exact hheap⟩
    have hcode : constantsOf (code ++ [.halt]) = ixs := by
      simpa [constantsOf_cons, Instr.constant?] using hixs
    rw [hcode]
    exact hs
  · rw [hr] at h
    cases h

end ByteLisp
