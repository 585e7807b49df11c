import LuaMachine.Proofs.Code.Layout
import LuaMachine.Proofs.Dump.Function

/-!
# Code for another address

The generator knows the address of the next instruction, and uses it for nothing but the targets of
jumps and the entries of closures. When it is started further on (`Site.shifted`), it makes the same
code with these addresses shifted along, or fails with the same fault (`Gen.Shifts`). A jump that is
not filled in yet has the target zero, which is not shifted. None is left in the code of a chunk: its
addresses lie in the chunk, wherever that begins.

Main statement: `Segment.compile_relocated`.
-/

namespace LuaMachine

/-- An address further on; zero stands for one that is not known yet. -/
def shiftedAddress (d a : Nat) : Nat := if a = 0 then 0 else a + d

theorem shiftedAddress_of_pos {d a : Nat} (h : 0 < a) : shiftedAddress d a = a + d :=
  if_neg (Nat.ne_of_gt h)

/-- An operation whose known addresses are further on. -/
def OpCode.shifted (d : Nat) (op : OpCode) : OpCode := op.mapAddress (shiftedAddress d)

/-- An instruction that has been moved from address zero to a base address. -/
def Instruction.relocated (base : Nat) (i : Instruction) : Instruction :=
  { i with op := i.op.relocate base }

/-- The same code further on. -/
def Code.shifted (d : Nat) (c : Code) : Code := c.map fun i => { i with op := i.op.shifted d }

/-- One code is the other further on. -/
def Code.Shifted (d : Nat) (c c' : Code) : Prop := c' = c.shifted d

/-- The same site further on. -/
def Site.shifted (d : Nat) (s : Site) : Site :=
  { s with address := s.address + d, loops := s.loops.map (·.map (· + d)) }

namespace Code.Shifted

variable {d : Nat} {c c' e e' : Code}

theorem nil : Code.Shifted d [] [] := rfl

theorem op {op op' : OpCode} (h : op' = op.shifted d) (span : Option Span) :
    Code.Shifted d [⟨op, span⟩] [⟨op', span⟩] := by
  subst h
  rfl

theorem append (hc : c.Shifted d c') (he : e.Shifted d e') : (c ++ e).Shifted d (c' ++ e') := by
  unfold Code.Shifted Code.shifted at *
  rw [hc, he, List.map_append]

theorem withTarget_shifted {target : Nat} (ht : 0 < target) (op : OpCode) :
    (op.shifted d).withTarget (target + d) = (op.withTarget target).shifted d := by
  cases op <;> simp [OpCode.shifted, OpCode.mapAddress, OpCode.withTarget, shiftedAddress_of_pos ht]

/-- Redirecting jumps of the same code to the same place. -/
theorem patch {target : Nat} (h : c.Shifted d c') (ht : 0 < target) (addresses : List Nat)
    (start : Nat) : (Gen.patch addresses target start c).Shifted d
      (Gen.patch (addresses.map (· + d)) (target + d) (start + d) c') := by
  have hmem : ∀ i, start + d + i ∈ addresses.map (· + d) ↔ start + i ∈ addresses := by
    intro i
    rw [Nat.add_right_comm]
    exact List.mem_map_of_injective fun _ _ => Nat.add_right_cancel
  unfold Code.Shifted Code.shifted at *
  subst h
  apply List.ext_getElem?
  intro i
  simp only [Gen.patch, List.getElem?_mapIdx, List.getElem?_map, Option.map_map,
    List.contains_iff_mem, hmem]
  refine congrFun (congrArg Option.map (funext fun ins => ?_)) _
  simp only [Function.comp]
  split
  · rw [withTarget_shifted ht]
  · rfl

end Code.Shifted

namespace Gen

variable {d : Nat} {α β : Type} {R : α → α → Prop} {Q : β → β → Prop}

/-- Two steps do the same, one of them further on: they fail with the same fault, or give related
results and leave the same site. -/
def Shifts (d : Nat) (x x' : Gen α) (R : α → α → Prop) : Prop :=
  ∀ s : Site, 0 < s.address → match x s with
    | .error e => x' (s.shifted d) = .error e
    | .ok (a, s₁) => 0 < s₁.address ∧ ∃ a', x' (s.shifted d) = .ok (a', s₁.shifted d) ∧ R a a'

/-! ## The rules -/

theorem shifts_of_ok {x x' : Gen α} (h : ∀ s : Site, 0 < s.address → ∃ a a' s₁,
    x s = .ok (a, s₁) ∧ x' (s.shifted d) = .ok (a', s₁.shifted d) ∧ 0 < s₁.address ∧ R a a') :
    Shifts d x x' R := by
  intro s hs
  obtain ⟨a, a', s₁, hx, hx', hs₁, hR⟩ := h s hs
  rw [hx]
  exact ⟨hs₁, a', hx', hR⟩

theorem Shifts.bind {x x' : Gen α} {f f' : α → Gen β} (hx : Shifts d x x' R)
    (hf : ∀ a a', R a a' → Shifts d (f a) (f' a') Q) : Shifts d (x >>= f) (x' >>= f') Q := by
  intro s hs
  have hfirst := hx s hs
  have hleft : (x >>= f) s = (x s >>= fun p => f p.1 p.2) := rfl
  have hright : (x' >>= f') (s.shifted d) = (x' (s.shifted d) >>= fun p => f' p.1 p.2) := rfl
  rw [hleft, hright]
  cases hrun : x s with
  | error e =>
    rw [hrun] at hfirst
    rw [hfirst]
    rfl
  | ok p =>
    obtain ⟨a, s₁⟩ := p
    rw [hrun] at hfirst
    obtain ⟨hs₁, a', hx', hR⟩ := hfirst
    rw [hx']
    exact hf a a' hR s₁ hs₁

theorem shifts_pure {a a' : α} (h : R a a') : Shifts d (pure a) (pure a') R :=
  shifts_of_ok fun s hs => ⟨a, a', s, rfl, rfl, hs, h⟩

theorem shifts_throw (e : SyntaxFault) : Shifts d (throw e) (throw e) R := fun _ _ => rfl

theorem shifts_get : Shifts d get get fun s s' => 0 < s.address ∧ s' = s.shifted d :=
  shifts_of_ok fun s hs => ⟨s, s.shifted d, s, rfl, rfl, hs, hs, rfl⟩

theorem shifts_set {s : Site} (h : 0 < s.address) :
    Shifts d (set s) (set (s.shifted d)) fun _ _ => True :=
  shifts_of_ok fun _ _ => ⟨_, _, s, rfl, rfl, h, trivial⟩

/-- A change of the site that the address and the loops have no part in. -/
theorem shifts_modify {f f' : Site → Site} (hf : ∀ s : Site, f' (s.shifted d) = (f s).shifted d)
    (ha : ∀ s : Site, (f s).address = s.address) :
    Shifts d (modify f) (modify f') fun _ _ => True :=
  shifts_of_ok fun s hs => by
    refine ⟨⟨⟩, ⟨⟩, f s, rfl, ?_, (ha s).symm ▸ hs, trivial⟩
    rw [← hf]
    rfl

theorem shifts_emit {op op' : OpCode} (h : op' = op.shifted d) :
    Shifts d (emit op) (emit op') (Code.Shifted d) :=
  shifts_of_ok fun s _ => by
    refine ⟨_, _, { s with address := s.address + 1 }, rfl, ?_, Nat.succ_pos _, .op h s.span⟩
    rw [emit, Site.shifted, Nat.add_right_comm]
    rfl

theorem shifts_reserve : Shifts d reserve reserve fun slot slot' =>
    0 < slot.1 ∧ slot' = (slot.1 + d, slot.2) :=
  shifts_of_ok fun s hs => by
    refine ⟨_, _, { s with address := s.address + 1 }, rfl, ?_, Nat.succ_pos _, hs, rfl⟩
    rw [reserve, Site.shifted, Nat.add_right_comm]
    rfl

theorem shifts_here : Shifts d here here fun a a' => 0 < a ∧ a' = a + d :=
  shifts_get.bind fun _ _ h => shifts_pure ⟨h.1, congrArg Site.address h.2⟩

theorem shifts_currentSpan : Shifts d currentSpan currentSpan fun a a' => a' = a :=
  shifts_get.bind fun _ _ h => shifts_pure (h.2 ▸ rfl)

theorem shifts_setSpan (span : Option Span) :
    Shifts d (setSpan span) (setSpan span) fun _ _ => True :=
  shifts_modify (fun _ => rfl) fun _ => rfl

theorem shifts_markSpan (span : Span) : Shifts d (markSpan span) (markSpan span) fun _ _ => True :=
  shifts_modify (fun _ => rfl) fun _ => rfl

theorem shifts_spanOf (e : Extent) : Shifts d (spanOf e) (spanOf e) fun a a' => a' = a :=
  shifts_get.bind fun _ _ h => shifts_pure (h.2 ▸ rfl)

theorem shifts_markExtent (e : Extent) : Shifts d (markExtent e) (markExtent e) fun _ _ => True :=
  (shifts_spanOf e).bind fun _ _ h => h ▸ shifts_markSpan _

theorem shifts_failHere (cause : SyntaxCause) : Shifts d (failHere cause) (failHere cause) R := by
  refine shifts_get.bind ?_
  rintro s _ ⟨-, rfl⟩
  have hspans : (s.shifted d).spans = s.spans := rfl
  rw [hspans]
  cases s.spans with
  | nil => exact shifts_throw _
  | cons span spans => exact shifts_throw _

theorem shifts_modifyScopes (f : ScopeStack → ScopeStack) :
    Shifts d (modifyScopes f) (modifyScopes f) fun _ _ => True :=
  shifts_modify (fun _ => rfl) fun _ => rfl

theorem shifts_resolve (name : String) : Shifts d (resolve name) (resolve name) fun a a' => a' = a :=
  shifts_of_ok fun s hs => ⟨_, _, { s with scopes := (s.scopes.resolve name).2 }, rfl, rfl, hs, rfl⟩

theorem shifts_declare (name : String) : Shifts d (declare name) (declare name) fun a a' => a' = a :=
  shifts_of_ok fun s hs => ⟨_, _, { s with scopes := s.scopes.declare name }, rfl, rfl, hs, rfl⟩

theorem shifts_pushLoop : Shifts d pushLoop pushLoop fun _ _ => True :=
  shifts_modify (fun _ => rfl) fun _ => rfl

theorem shifts_popLoop : Shifts d popLoop popLoop fun a a' => a' = a.map (· + d) :=
  shifts_of_ok fun s hs => by
    obtain ⟨address, scopes, source, loops, spans, span⟩ := s
    cases loops with
    | nil => exact ⟨_, _, _, rfl, rfl, hs, rfl⟩
    | cons breaks outer => exact ⟨_, _, _, rfl, rfl, hs, rfl⟩

theorem shifts_loops (loops : List (List Nat)) :
    Shifts d (modify fun s => { s with loops })
      (modify fun s => { s with loops := loops.map (·.map (· + d)) }) fun _ _ => True :=
  shifts_modify (fun _ => rfl) fun _ => rfl

theorem shifts_declareAll (names : List String) :
    Shifts d (forIn names PUnit.unit fun name _ => do
      modifyScopes (·.declare name)
      pure (ForInStep.yield PUnit.unit)) (forIn names PUnit.unit fun name _ => do
      modifyScopes (·.declare name)
      pure (ForInStep.yield PUnit.unit)) fun _ _ => True := by
  induction names with
  | nil => exact shifts_pure trivial
  | cons name names ih =>
    rw [List.forIn_cons]
    simp only [bind_assoc, pure_bind]
    exact (shifts_modifyScopes _).bind fun _ _ _ => ih

/-! ## Every construct -/

theorem shifts_scalarAfter (e : Expr) :
    Shifts d (scalarAfter e) (scalarAfter e) (Code.Shifted d) := by
  unfold scalarAfter
  split
  · exact shifts_emit rfl
  · exact shifts_pure .nil

/-- A step that makes the same code wherever it is started. -/
abbrev Movable (x : Gen Code) : Prop := ∀ d, Shifts d x x (Code.Shifted d)

/-- An expression cut down to one value. -/
theorem shifts_scalar {e : Expr} (he : Movable (expr e)) {f f' : Code → Code → Gen β}
    (hf : ∀ c c' one one' : Code, c.Shifted d c' → one.Shifted d one' →
      Shifts d (f c one) (f' c' one') Q) :
    Shifts d (do let c ← expr e; let one ← scalarAfter e; f c one)
      (do let c ← expr e; let one ← scalarAfter e; f' c one) Q :=
  (he d).bind fun c c' hc => (shifts_scalarAfter e).bind fun one one' hone =>
    hf c c' one one' hc hone

/-- A block with its own names. -/
theorem shifts_inner {body : List Stat} (hbody : Movable (block body)) {f f' : Code → Gen β}
    (hf : ∀ c c' : Code, c.Shifted d c' → Shifts d (f c) (f' c') Q) :
    Shifts d (do
      modifyScopes (·.pushBlock)
      let c ← block body
      modifyScopes (·.popBlock)
      f c) (do
      modifyScopes (·.pushBlock)
      let c ← block body
      modifyScopes (·.popBlock)
      f' c) Q :=
  (shifts_modifyScopes _).bind fun _ _ _ => (hbody d).bind fun c c' hc =>
    (shifts_modifyScopes _).bind fun _ _ _ => hf c c' hc

theorem shifts_bindNames : ∀ (names : List String) (i : Nat), Movable (bindNames names i)
  | [], _, d => by
    rw [bindNames]
    exact shifts_pure .nil
  | name :: names, i, d => by
    rw [bindNames]
    refine (shifts_declare name).bind ?_
    rintro _ slot rfl
    refine (shifts_emit rfl).bind fun bind bind' hbind => ?_
    refine (shifts_bindNames names (i + 1) d).bind fun binds binds' hbinds => ?_
    exact shifts_pure (hbind.append hbinds)

theorem shifts_assignField : ∀ keys : List String, Movable (assignField keys)
  | [], d => by
    rw [assignField]
    exact shifts_pure .nil
  | [key], d => by
    rw [assignField]
    refine (shifts_emit rfl).bind fun k k' hk => ?_
    refine (shifts_emit rfl).bind fun store store' hstore => ?_
    exact shifts_pure (hk.append hstore)
  | key :: key' :: rest, d => by
    rw [assignField]
    · refine (shifts_emit rfl).bind fun k k' hk => ?_
      refine (shifts_emit rfl).bind fun index index' hindex => ?_
      refine (shifts_assignField (key' :: rest) d).bind fun fields fields' hfields => ?_
      exact shifts_pure ((hk.append hindex).append hfields)
    · simp

mutual

theorem shifts_expr : ∀ e : Expr, Movable (expr e)
  | .nil, d => by
    rw [expr]
    exact shifts_emit rfl
  | .boolean b, d => by
    rw [expr]
    exact shifts_emit rfl
  | .number x, d => by
    rw [expr]
    exact shifts_emit rfl
  | .string t, d => by
    rw [expr]
    exact shifts_emit rfl
  | .varargs, d => by
    rw [expr]
    refine shifts_get.bind ?_
    rintro s _ ⟨-, rfl⟩
    have hscopes : (s.shifted d).scopes = s.scopes := rfl
    rw [hscopes]
    split
    · exact shifts_emit rfl
    · exact shifts_failHere _
  | .function body, d => by
    rw [expr]
    exact shifts_function body d
  | .table fs, d => by
    rw [expr]
    refine (shifts_emit rfl).bind fun new new' hnew => ?_
    refine (shifts_fields fs 1 d).bind fun c c' hc => ?_
    exact shifts_pure (hnew.append hc)
  | .binary op left right, d => by
    rw [expr]
    refine shifts_scalar (shifts_expr left) fun l l' one one' hl hone => ?_
    refine shifts_scalar (shifts_expr right) fun r r' two two' hr htwo => ?_
    refine (shifts_emit rfl).bind fun apply apply' happly => ?_
    exact shifts_pure ((((hl.append hone).append hr).append htwo).append happly)
  | .logical op left right, d => by
    rw [expr]
    refine shifts_scalar (shifts_expr left) fun l l' one one' hl hone => ?_
    refine shifts_reserve.bind ?_
    rintro jump _ ⟨-, rfl⟩
    refine shifts_scalar (shifts_expr right) fun r r' two two' hr htwo => ?_
    refine shifts_here.bind ?_
    rintro exit _ ⟨hexit, rfl⟩
    refine shifts_pure (((((hl.append hone).append (.op ?_ jump.2)).append hr).append htwo))
    cases op with
    | and => exact (congrArg OpCode.jumpFalseOrPop (shiftedAddress_of_pos hexit)).symm
    | or => exact (congrArg OpCode.jumpTrueOrPop (shiftedAddress_of_pos hexit)).symm
  | .unary op operand, d => by
    simp only [expr]
    refine shifts_scalar (shifts_expr operand) fun c c' one one' hc hone => ?_
    refine (shifts_emit ?_).bind fun apply apply' happly => ?_
    · cases op <;> rfl
    · exact shifts_pure ((hc.append hone).append happly)
  | .name t, d => by
    rw [expr]
    refine (shifts_resolve t).bind ?_
    rintro _ symbol rfl
    exact shifts_emit rfl
  | .index object key, d => by
    rw [expr]
    refine shifts_scalar (shifts_expr object) fun o o' one one' ho hone => ?_
    refine shifts_scalar (shifts_expr key) fun k k' two two' hk htwo => ?_
    refine (shifts_emit rfl).bind fun index index' hindex => ?_
    exact shifts_pure ((((ho.append hone).append hk).append htwo).append hindex)
  | .call f args, d => by
    rw [expr]
    refine shifts_scalar (shifts_expr f) fun c c' one one' hc hone => ?_
    refine (shifts_exprs args d).bind fun vs vs' hvs => ?_
    refine (shifts_emit rfl).bind fun call call' hcall => ?_
    exact shifts_pure (((hc.append hone).append hvs).append hcall)
  | .methodCall object method args, d => by
    rw [expr]
    refine shifts_scalar (shifts_expr object) fun o o' one one' ho hone => ?_
    refine (shifts_emit rfl).bind fun m m' hm => ?_
    refine (shifts_exprs args d).bind fun vs vs' hvs => ?_
    refine (shifts_emit rfl).bind fun call call' hcall => ?_
    exact shifts_pure ((((ho.append hone).append hm).append hvs).append hcall)
  | .paren e, d => by
    rw [expr]
    refine shifts_scalar (shifts_expr e) fun c c' one one' hc hone => ?_
    exact shifts_pure (hc.append hone)

theorem shifts_exprs : ∀ es : List Expr, Movable (exprs es)
  | [], d => by
    rw [exprs]
    exact shifts_pure .nil
  | [e], d => by
    rw [exprs]
    exact shifts_expr e d
  | e :: e' :: rest, d => by
    rw [exprs]
    refine shifts_scalar (shifts_expr e) fun c c' one one' hc hone => ?_
    refine (shifts_exprs (e' :: rest) d).bind fun vs vs' hvs => ?_
    exact shifts_pure ((hc.append hone).append hvs)

theorem shifts_fields : ∀ (fs : List Field) (position : Nat), Movable (fields fs position)
  | [], _, d => by
    rw [fields]
    exact shifts_pure .nil
  | .positional value :: rest, position, d => by
    rw [fields]
    refine (shifts_expr value d).bind fun c c' hc => ?_
    have hrest : ∀ one one' : Code, one.Shifted d one' → Shifts d (do
        let append ← emit (.tableAppend position (rest.isEmpty && value.isMultiValue))
        return c ++ one ++ append ++ (← fields rest (position + 1))) (do
        let append ← emit (.tableAppend position (rest.isEmpty && value.isMultiValue))
        return c' ++ one' ++ append ++ (← fields rest (position + 1))) (Code.Shifted d) := by
      intro one one' hone
      refine (shifts_emit rfl).bind fun append append' happend => ?_
      refine (shifts_fields rest (position + 1) d).bind fun cs cs' hcs => ?_
      exact shifts_pure (((hc.append hone).append happend).append hcs)
    -- the last field may keep all its values
    dsimp only
    split
    · exact hrest [] [] .nil
    · exact (shifts_scalarAfter value).bind hrest
  | .named name value :: rest, position, d => by
    rw [fields]
    refine (shifts_emit rfl).bind fun key key' hkey => ?_
    refine shifts_scalar (shifts_expr value) fun c c' one one' hc hone => ?_
    refine (shifts_emit rfl).bind fun store store' hstore => ?_
    refine (shifts_fields rest position d).bind fun cs cs' hcs => ?_
    exact shifts_pure ((((hkey.append hc).append hone).append hstore).append hcs)
  | .keyed key value :: rest, position, d => by
    rw [fields]
    refine shifts_scalar (shifts_expr key) fun k k' one one' hk hone => ?_
    refine shifts_scalar (shifts_expr value) fun c c' two two' hc htwo => ?_
    refine (shifts_emit rfl).bind fun store store' hstore => ?_
    refine (shifts_fields rest position d).bind fun cs cs' hcs => ?_
    exact shifts_pure (((((hk.append hone).append hc).append htwo).append hstore).append hcs)

theorem shifts_assignTo : ∀ (targets : List Expr) (i : Nat), Movable (assignTo targets i)
  | [], _, d => by
    rw [assignTo]
    exact shifts_pure .nil
  | e :: rest, i, d => by
    cases e with
    | name t =>
      rw [assignTo]
      refine (shifts_resolve t).bind ?_
      rintro _ symbol rfl
      refine (shifts_emit rfl).bind fun store store' hstore => ?_
      refine (shifts_assignTo rest (i + 1) d).bind fun cs cs' hcs => ?_
      exact shifts_pure (hstore.append hcs)
    | index object key =>
      rw [assignTo]
      refine shifts_scalar (shifts_expr object) fun o o' one one' ho hone => ?_
      refine shifts_scalar (shifts_expr key) fun k k' two two' hk htwo => ?_
      refine (shifts_emit rfl).bind fun store store' hstore => ?_
      refine (shifts_assignTo rest (i + 1) d).bind fun cs cs' hcs => ?_
      exact shifts_pure (((((ho.append hone).append hk).append htwo).append hstore).append hcs)
    | _ =>
      -- other expressions are refused
      rw [assignTo]
      · exact shifts_failHere _
      all_goals simp

theorem shifts_function : ∀ body : FunctionBody, Movable (function body)
  | .mk name params isVararg body extent closing, d => by
    rw [function]
    refine shifts_reserve.bind ?_
    rintro skip _ ⟨-, rfl⟩
    refine shifts_currentSpan.bind ?_
    rintro _ outer rfl
    refine (shifts_spanOf extent).bind ?_
    rintro _ span rfl
    refine (shifts_markSpan _).bind fun _ _ _ => ?_
    refine shifts_reserve.bind ?_
    rintro header _ ⟨hheader, rfl⟩
    refine shifts_reserve.bind ?_
    rintro begin_ _ ⟨-, rfl⟩
    refine (shifts_emit rfl).bind fun args args' hargs => ?_
    refine (shifts_modifyScopes _).bind fun _ _ _ => ?_
    refine (shifts_declareAll params).bind fun _ _ _ => ?_
    refine shifts_get.bind ?_
    rintro s _ ⟨-, rfl⟩
    refine (shifts_loops []).bind fun _ _ _ => ?_
    refine (shifts_block body d).bind fun inner inner' hinner => ?_
    refine (shifts_loops s.loops).bind fun _ _ _ => ?_
    refine (shifts_markExtent closing).bind fun _ _ _ => ?_
    refine (shifts_emit rfl).bind fun ret ret' hret => ?_
    refine shifts_get.bind ?_
    rintro s' _ ⟨-, rfl⟩
    refine (shifts_modifyScopes _).bind fun _ _ _ => ?_
    refine shifts_here.bind ?_
    rintro after _ ⟨hafter, rfl⟩
    refine (shifts_setSpan outer).bind fun _ _ _ => ?_
    have hentry : OpCode.closure (header.1 + d) s'.scopes.current.captures =
        (OpCode.closure header.1 s'.scopes.current.captures).shifted d :=
      congrArg (OpCode.closure · _) (shiftedAddress_of_pos hheader).symm
    refine (shifts_emit hentry).bind fun closure closure' hclosure => ?_
    have hskip : Code.Shifted d (fill skip (.jump after)) (fill skip (.jump (after + d))) :=
      .op (congrArg OpCode.jump (shiftedAddress_of_pos hafter).symm) skip.2
    -- the length of the function is the same
    have hlength : Code.Shifted d (fill header (.header name .function (after - header.1)))
        (fill header (.header name .function (after + d - (header.1 + d)))) := by
      rw [Nat.add_sub_add_right]
      exact .op rfl header.2
    have hbegin : Code.Shifted d (fill begin_ (.beginFn s'.scopes.current.locals))
        (fill begin_ (.beginFn s'.scopes.current.locals)) := .op rfl begin_.2
    exact shifts_pure ((((((hskip.append hlength).append hbegin).append hargs).append hinner).append
      hret).append hclosure)

theorem shifts_block : ∀ body : List Stat, Movable (block body)
  | [], d => by
    rw [block]
    exact shifts_pure .nil
  | st :: rest, d => by
    rw [block]
    refine (shifts_stat st d).bind fun c c' hc => ?_
    refine (shifts_block rest d).bind fun cs cs' hcs => ?_
    exact shifts_pure (hc.append hcs)

theorem shifts_stat : ∀ st : Stat, Movable (stat st)
  | .local names values extent, d => by
    rw [stat]
    refine (shifts_markExtent extent).bind fun _ _ _ => ?_
    refine (shifts_exprs values d).bind fun vs vs' hvs => ?_
    refine (shifts_emit rfl).bind fun tuple tuple' htuple => ?_
    refine (shifts_bindNames names 0 d).bind fun binds binds' hbinds => ?_
    refine (shifts_emit rfl).bind fun drop drop' hdrop => ?_
    exact shifts_pure (((hvs.append htuple).append hbinds).append hdrop)
  | .assign targets values extent, d => by
    rw [stat]
    refine (shifts_markExtent extent).bind fun _ _ _ => ?_
    refine (shifts_exprs values d).bind fun vs vs' hvs => ?_
    refine (shifts_emit rfl).bind fun tuple tuple' htuple => ?_
    refine (shifts_assignTo targets 0 d).bind fun stores stores' hstores => ?_
    refine (shifts_emit rfl).bind fun drop drop' hdrop => ?_
    exact shifts_pure (((hvs.append htuple).append hstores).append hdrop)
  | .call e extent, d => by
    rw [stat]
    refine (shifts_markExtent extent).bind fun _ _ _ => ?_
    refine (shifts_expr e d).bind fun c c' hc => ?_
    refine (shifts_emit rfl).bind fun drop drop' hdrop => ?_
    exact shifts_pure (hc.append hdrop)
  | .do body extent, d => by
    rw [stat]
    refine (shifts_markExtent extent).bind fun _ _ _ => ?_
    exact shifts_inner (shifts_block body) fun c c' hc => shifts_pure hc
  | .while condition body extent closing, d => by
    rw [stat]
    refine (shifts_markExtent extent).bind fun _ _ _ => ?_
    refine shifts_here.bind ?_
    rintro start _ ⟨hstart, rfl⟩
    refine shifts_scalar (shifts_expr condition) fun test test' one one' htest hone => ?_
    refine shifts_reserve.bind ?_
    rintro leave _ ⟨-, rfl⟩
    refine shifts_pushLoop.bind fun _ _ _ => ?_
    refine shifts_inner (shifts_block body) fun inner inner' hinner => ?_
    refine (shifts_markExtent closing).bind fun _ _ _ => ?_
    refine (shifts_emit (congrArg OpCode.jump (shiftedAddress_of_pos hstart).symm)).bind
      fun back back' hback => ?_
    refine shifts_here.bind ?_
    rintro exit _ ⟨hexit, rfl⟩
    refine shifts_popLoop.bind ?_
    rintro breaks _ rfl
    have hleave : Code.Shifted d (fill leave (.jumpIfFalse exit)) (fill leave (.jumpIfFalse (exit + d))) :=
      .op (congrArg OpCode.jumpIfFalse (shiftedAddress_of_pos hexit).symm) leave.2
    have hround := (((htest.append hone).append hleave).append hinner).append hback
    exact shifts_pure (hround.patch hexit breaks start)
  | .repeat body condition extent, d => by
    rw [stat]
    refine (shifts_markExtent extent).bind fun _ _ _ => ?_
    refine shifts_here.bind ?_
    rintro start _ ⟨hstart, rfl⟩
    refine shifts_pushLoop.bind fun _ _ _ => ?_
    refine (shifts_modifyScopes _).bind fun _ _ _ => ?_
    refine (shifts_block body d).bind fun inner inner' hinner => ?_
    refine (shifts_markExtent extent).bind fun _ _ _ => ?_
    refine shifts_scalar (shifts_expr condition) fun test test' one one' htest hone => ?_
    refine (shifts_emit (congrArg OpCode.jumpIfFalse (shiftedAddress_of_pos hstart).symm)).bind
      fun again again' hagain => ?_
    refine (shifts_modifyScopes _).bind fun _ _ _ => ?_
    refine shifts_here.bind ?_
    rintro exit _ ⟨hexit, rfl⟩
    refine shifts_popLoop.bind ?_
    rintro breaks _ rfl
    have hround := ((hinner.append htest).append hone).append hagain
    exact shifts_pure (hround.patch hexit breaks start)
  | .if branches extent, d => by
    rw [stat]
    refine (shifts_markExtent extent).bind fun _ _ _ => ?_
    refine shifts_here.bind ?_
    rintro start _ ⟨-, rfl⟩
    refine (shifts_clauses branches d).bind ?_
    rintro ⟨c, exits⟩ ⟨c', _⟩ ⟨hc, rfl⟩
    refine shifts_here.bind ?_
    rintro exit _ ⟨hexit, rfl⟩
    exact shifts_pure (hc.patch hexit exits start)
  | .numericFor var first limit step body extent closing, d => by
    rw [stat]
    refine (shifts_markExtent extent).bind fun _ _ _ => ?_
    refine shifts_scalar (shifts_expr first) fun a a' one one' ha hone => ?_
    refine shifts_scalar (shifts_expr limit) fun b b' two two' hb htwo => ?_
    refine shifts_scalar (shifts_expr step) fun c c' three three' hc hthree => ?_
    refine (shifts_emit rfl).bind fun prep prep' hprep => ?_
    refine shifts_reserve.bind ?_
    rintro loop _ ⟨hloop, rfl⟩
    refine shifts_pushLoop.bind fun _ _ _ => ?_
    refine (shifts_modifyScopes _).bind fun _ _ _ => ?_
    refine (shifts_declare var).bind ?_
    rintro _ slot rfl
    refine (shifts_emit rfl).bind fun bind bind' hbind => ?_
    refine (shifts_block body d).bind fun inner inner' hinner => ?_
    refine (shifts_modifyScopes _).bind fun _ _ _ => ?_
    refine (shifts_markExtent closing).bind fun _ _ _ => ?_
    refine (shifts_emit rfl).bind fun step step' hstep => ?_
    refine (shifts_emit (congrArg OpCode.jump (shiftedAddress_of_pos hloop).symm)).bind
      fun back back' hback => ?_
    refine shifts_here.bind ?_
    rintro exit _ ⟨hexit, rfl⟩
    refine (shifts_emit rfl).bind fun drop drop' hdrop => ?_
    refine shifts_popLoop.bind ?_
    rintro breaks _ rfl
    have hcheck : Code.Shifted d (fill loop (.forLoop exit))
        (fill (loop.1 + d, loop.2) (.forLoop (exit + d))) :=
      .op (congrArg OpCode.forLoop (shiftedAddress_of_pos hexit).symm) loop.2
    have hbounds := (((((ha.append hone).append hb).append htwo).append hc).append hthree).append hprep
    have hround := ((((hcheck.append hbind).append hinner).append hstep).append hback).patch hexit
      breaks loop.1
    exact shifts_pure ((hbounds.append hround).append hdrop)
  | .genericFor names values body extent closing, d => by
    rw [stat]
    refine (shifts_markExtent extent).bind fun _ _ _ => ?_
    refine (shifts_exprs values d).bind fun vs vs' hvs => ?_
    refine (shifts_emit rfl).bind fun tuple tuple' htuple => ?_
    refine (shifts_emit rfl).bind fun prep prep' hprep => ?_
    refine shifts_here.bind ?_
    rintro start _ ⟨hstart, rfl⟩
    refine (shifts_emit rfl).bind fun copy₁ copy₁' hcopy₁ => ?_
    refine (shifts_emit rfl).bind fun copy₂ copy₂' hcopy₂ => ?_
    refine (shifts_emit rfl).bind fun copy₃ copy₃' hcopy₃ => ?_
    refine (shifts_emit rfl).bind fun call call' hcall => ?_
    refine shifts_reserve.bind ?_
    rintro check _ ⟨-, rfl⟩
    refine shifts_pushLoop.bind fun _ _ _ => ?_
    refine (shifts_modifyScopes _).bind fun _ _ _ => ?_
    refine (shifts_bindNames names 0 d).bind fun binds binds' hbinds => ?_
    refine (shifts_emit rfl).bind fun drop drop' hdrop => ?_
    refine (shifts_block body d).bind fun inner inner' hinner => ?_
    refine (shifts_modifyScopes _).bind fun _ _ _ => ?_
    refine (shifts_markExtent closing).bind fun _ _ _ => ?_
    refine (shifts_emit (congrArg OpCode.jump (shiftedAddress_of_pos hstart).symm)).bind
      fun back back' hback => ?_
    refine shifts_here.bind ?_
    rintro exit _ ⟨hexit, rfl⟩
    refine (shifts_emit rfl).bind fun drop₃ drop₃' hdrop₃ => ?_
    refine shifts_popLoop.bind ?_
    rintro breaks _ rfl
    have hcheck : Code.Shifted d (fill check (.iterCheck exit))
        (fill (check.1 + d, check.2) (.iterCheck (exit + d))) :=
      .op (congrArg OpCode.iterCheck (shiftedAddress_of_pos hexit).symm) check.2
    have hcalls := (((hcopy₁.append hcopy₂).append hcopy₃).append hcall).append hcheck
    have hround := ((((hcalls.append hbinds).append hdrop).append hinner).append hback).patch hexit
      breaks start
    exact shifts_pure ((((hvs.append htuple).append hprep).append hround).append hdrop₃)
  | .function target keys body extent, d => by
    rw [stat]
    refine (shifts_markExtent extent).bind fun _ _ _ => ?_
    refine (shifts_function body d).bind fun f f' hf => ?_
    refine (shifts_resolve target).bind ?_
    rintro _ symbol rfl
    cases keys with
    | nil =>
      refine (shifts_emit rfl).bind fun store store' hstore => ?_
      refine (shifts_emit rfl).bind fun drop drop' hdrop => ?_
      exact shifts_pure ((hf.append hstore).append hdrop)
    | cons key rest =>
      refine (shifts_emit rfl).bind fun object object' hobject => ?_
      refine (shifts_assignField (key :: rest) d).bind fun fields fields' hfields => ?_
      refine (shifts_pure (hobject.append hfields)).bind fun store store' hstore => ?_
      refine (shifts_emit rfl).bind fun drop drop' hdrop => ?_
      exact shifts_pure ((hf.append hstore).append hdrop)
  | .localFunction name body extent, d => by
    rw [stat]
    refine (shifts_markExtent extent).bind fun _ _ _ => ?_
    refine (shifts_declare name).bind ?_
    rintro _ slot rfl
    refine (shifts_emit rfl).bind fun empty empty' hempty => ?_
    refine (shifts_emit rfl).bind fun bind bind' hbind => ?_
    refine (shifts_emit rfl).bind fun drop drop' hdrop => ?_
    refine (shifts_function body d).bind fun f f' hf => ?_
    refine (shifts_emit rfl).bind fun store store' hstore => ?_
    refine (shifts_emit rfl).bind fun drop₂ drop₂' hdrop₂ => ?_
    have hdeclared := (hempty.append hbind).append hdrop
    exact shifts_pure (((hdeclared.append hf).append hstore).append hdrop₂)
  | .return values extent, d => by
    rw [stat]
    refine (shifts_markExtent extent).bind fun _ _ _ => ?_
    refine (shifts_exprs values d).bind fun vs vs' hvs => ?_
    rcases values with _ | ⟨e₁, _ | ⟨e₂, rest⟩⟩
    · refine (shifts_emit rfl).bind fun ret ret' hret => ?_
      exact shifts_pure (hvs.append hret)
    · refine (shifts_emit rfl).bind fun ret ret' hret => ?_
      exact shifts_pure (hvs.append hret)
    · refine (shifts_emit rfl).bind fun tuple tuple' htuple => ?_
      refine (shifts_emit rfl).bind fun ret ret' hret => ?_
      exact shifts_pure ((hvs.append htuple).append hret)
  | .break extent, d => by
    rw [stat]
    refine (shifts_markExtent extent).bind fun _ _ _ => ?_
    refine shifts_reserve.bind ?_
    rintro slot _ ⟨-, rfl⟩
    refine shifts_get.bind ?_
    rintro ⟨address, scopes, source, loops, spans, span⟩ _ ⟨hs, rfl⟩
    cases loops with
    | nil => exact shifts_throw _
    | cons breaks outer =>
      -- the jump is noted, and is not filled in yet
      refine (shifts_set (s := ⟨address, scopes, source, (slot.1 :: breaks) :: outer, spans, span⟩)
        hs).bind fun _ _ _ => ?_
      exact shifts_pure (.op rfl slot.2)

theorem shifts_clauses : ∀ (branches : Branches) (d : Nat),
    Shifts d (clauses branches) (clauses branches)
      fun p p' => p.1.Shifted d p'.1 ∧ p'.2 = p.2.map (· + d)
  | .done, d => by
    rw [clauses]
    exact shifts_pure ⟨.nil, rfl⟩
  | .otherwise body, d => by
    rw [clauses]
    exact shifts_inner (shifts_block body) fun c c' hc => shifts_pure ⟨hc, rfl⟩
  | .clause condition body header rest, d => by
    rw [clauses]
    refine (shifts_markExtent header).bind fun _ _ _ => ?_
    refine shifts_scalar (shifts_expr condition) fun test test' one one' htest hone => ?_
    refine shifts_reserve.bind ?_
    rintro skip _ ⟨-, rfl⟩
    refine shifts_inner (shifts_block body) fun inner inner' hinner => ?_
    have hclause : ∀ next, 0 < next → Code.Shifted d
        (test ++ one ++ fill skip (.jumpIfFalse next) ++ inner)
        (test' ++ one' ++ fill (skip.1 + d, skip.2) (.jumpIfFalse (next + d)) ++ inner') := by
      intro next hnext
      have hskip : OpCode.jumpIfFalse (next + d) = (OpCode.jumpIfFalse next).shifted d :=
        congrArg OpCode.jumpIfFalse (shiftedAddress_of_pos hnext).symm
      exact ((htest.append hone).append (.op hskip skip.2)).append hinner
    have hlast : ∀ rest : Branches, Shifts d (clauses rest) (clauses rest)
        (fun p p' => p.1.Shifted d p'.1 ∧ p'.2 = p.2.map (· + d)) →
        Shifts d (do
          let leave ← reserve
          let next ← here
          let (code, exits) ← clauses rest
          return (test ++ one ++ fill skip (.jumpIfFalse next) ++ inner ++ fill leave (.jump 0) ++ code,
            leave.1 :: exits)) (do
          let leave ← reserve
          let next ← here
          let (code, exits) ← clauses rest
          return (test' ++ one' ++ fill (skip.1 + d, skip.2) (.jumpIfFalse next) ++ inner' ++
            fill leave (.jump 0) ++ code, leave.1 :: exits))
          fun p p' => p.1.Shifted d p'.1 ∧ p'.2 = p.2.map (· + d) := by
      intro rest hrest
      refine shifts_reserve.bind ?_
      rintro leave _ ⟨-, rfl⟩
      refine shifts_here.bind ?_
      rintro next _ ⟨hnext, rfl⟩
      refine hrest.bind ?_
      rintro ⟨c, exits⟩ ⟨c', _⟩ ⟨hc, rfl⟩
      have hleave : Code.Shifted d (fill leave (.jump 0)) (fill (leave.1 + d, leave.2) (.jump 0)) :=
        .op rfl leave.2
      exact shifts_pure ⟨((hclause next hnext).append hleave).append hc, rfl⟩
    cases rest with
    | done =>
      refine shifts_here.bind ?_
      rintro next _ ⟨hnext, rfl⟩
      exact shifts_pure ⟨hclause next hnext, rfl⟩
    | otherwise last => exact hlast _ (shifts_clauses (.otherwise last) d)
    | clause c b h rest => exact hlast _ (shifts_clauses (.clause c b h rest) d)

end

/-- What follows in a chunk after its header and its slots, which are filled in last. -/
def chunkAfter (name : String) (kind : HeaderKind) (body : Block) (header begin_ : Nat × Option Span) :
    Gen Code := do
  let args ← emit (.args 0 true)
  let inner ← block body
  setSpan none
  let ret ← emit (.ret 0)
  let scope := (← get).scopes.current
  return fill header (.header name kind ((← here) - header.1)) ++
    fill begin_ (.beginFn scope.locals) ++ args ++ inner ++ ret

theorem chunk_eq (name : String) (kind : HeaderKind) (body : Block) (s : Site) :
    chunk name kind body s = chunkAfter name kind body (s.address, s.span) (s.address + 1, s.span)
      { s with address := s.address + 2 } := rfl

theorem shifts_chunkAfter (name : String) (kind : HeaderKind) (body : Block)
    (header begin_ : Nat × Option Span) : Shifts d (chunkAfter name kind body header begin_)
      (chunkAfter name kind body (header.1 + d, header.2) (begin_.1 + d, begin_.2))
      (Code.Shifted d) := by
  unfold chunkAfter
  refine (shifts_emit rfl).bind fun args args' hargs => ?_
  refine (shifts_block body d).bind fun inner inner' hinner => ?_
  refine (shifts_setSpan none).bind fun _ _ _ => ?_
  refine (shifts_emit rfl).bind fun ret ret' hret => ?_
  refine shifts_get.bind ?_
  rintro s _ ⟨-, rfl⟩
  refine shifts_here.bind ?_
  rintro stop _ ⟨-, rfl⟩
  have hheader : Code.Shifted d (fill header (.header name kind (stop - header.1)))
      (fill (header.1 + d, header.2) (.header name kind (stop + d - (header.1 + d)))) := by
    rw [Nat.add_sub_add_right]
    exact .op rfl header.2
  have hbegin : Code.Shifted d (fill begin_ (.beginFn s.scopes.current.locals))
      (fill (begin_.1 + d, begin_.2) (.beginFn s.scopes.current.locals)) := .op rfl begin_.2
  exact shifts_pure ((((hheader.append hbegin).append hargs).append hinner).append hret)

end Gen

/-! ## Chunks -/

/-- Control passes from the operation of a jump to its target. -/
theorem OpCode.mem_next_or_closure {op : OpCode} {a : Nat} (x d : Nat) (h : a ∈ op.addresses) :
    (∃ e, (a, e) ∈ op.next x d) ∨ ∃ captures, op = .closure a captures := by
  cases op <;> simp_all [addresses, jumpTarget?, next]

variable {options : CompileOptions} {body : Block} {base : Nat} {code : Code} {spans : List Span}

/-- Where all functions are verified, no address leads out of the code. -/
theorem AllVerified.addresses {code : Listing} {n upvalues x a : Nat} {op : OpCode}
    (h : AllVerified code base n upvalues) (hle : base ≤ x) (hlt : x < base + n)
    (hop : code x = some op) (ha : a ∈ op.addresses) : base ≤ a ∧ a < base + n := by
  obtain ⟨⟨name, kind, hheader⟩, -⟩ := h.outermost
  obtain ⟨b, k, u, hb, ⟨⟨name', kind', hheader'⟩, locals, depth, -, hv⟩, hown⟩ :=
    h.owner (Nat.le_refl base) hheader hle hlt hlt
  have hbx : b ≤ x := hown.1
  have hend := (h.functionAt hb (Nat.lt_of_le_of_lt hbx hlt) hheader').1
  obtain ⟨op', hop', hchecked⟩ := hv.checked x hown
  obtain rfl := Option.some.inj (hop.symm.trans hop')
  rcases OpCode.mem_next_or_closure x (depth x) ha with ⟨e, he⟩ | ⟨captures, hclosure⟩
  · obtain ⟨⟨hba, hak, -⟩, -⟩ := hchecked.flow a e he
    omega
  · obtain ⟨-, -, m, -, hba, hak, -⟩ := hchecked.nested a captures hclosure
    omega

/-- The addresses in the code of a chunk lie in the chunk. -/
theorem Block.addresses_compile (h : body.compile options base = .ok (code, spans)) :
    ∀ i ∈ code, ∀ a ∈ i.op.addresses, base ≤ a ∧ a < base + code.length := by
  unfold Block.compile at h
  simp only [StateT.run] at h
  split at h
  · next hrun =>
    cases h
    have hall := Gen.allVerified_chunk _ _ body options.env _ rfl rfl _ _ hrun
    intro i hi a ha
    obtain ⟨k, hk⟩ := List.mem_iff_getElem?.1 hi
    have hop : listing base code (base + k) = some i.op := by
      rw [listing, if_pos (Nat.le_add_right _ _), Nat.add_sub_cancel_left, hk]
      rfl
    have hlt := (List.getElem?_eq_some_iff.1 hk).1
    exact hall.addresses (Nat.le_add_right base k) (Nat.add_lt_add_left hlt base) hop ha
  · cases h

/-- The same chunk further on: the same code but for the addresses, or the same fault. -/
theorem Block.compile_add (options : CompileOptions) (base d : Nat) (body : Block) :
    body.compile options (base + d) =
      (body.compile options base).map fun p => (p.1.shifted d, p.2) := by
  -- the chunk's own header may be at address zero, which nothing refers to
  have hchunk := Gen.shifts_chunkAfter (d := d) options.chunk options.kind body (base, none)
    (base + 1, none) ⟨base + 2, .start options.env, options.source, [], [], none⟩ (Nat.succ_pos _)
  have hadd : base + 1 + d = base + d + 1 ∧ base + 2 + d = base + d + 2 := by omega
  simp only [Site.shifted, List.map_nil, hadd] at hchunk
  simp only [Block.compile, StateT.run, Gen.chunk_eq]
  split at hchunk
  · next hrun => rw [hrun, hchunk]; rfl
  · next hrun =>
    obtain ⟨-, code', hrun', rfl⟩ := hchunk
    rw [hrun, hrun']
    rfl

/-- No address is left out of the code of a chunk at address zero. -/
theorem Block.pos_of_compile_zero (h : body.compile options 0 = .ok (code, spans)) :
    ∀ i ∈ code, ∀ a ∈ i.op.addresses, 0 < a := by
  have h' := Block.compile_add options 0 1 body
  rw [h] at h'
  intro i hi a ha
  rw [Nat.pos_iff_ne_zero]
  rintro rfl
  -- one that is left out would be left out further on, where the chunk has no such address
  have hi' : ({ i with op := i.op.shifted 1 } : Instruction) ∈ code.shifted 1 :=
    List.mem_map_of_mem hi
  have ha' : 0 ∈ (i.op.shifted 1).addresses := by
    rw [OpCode.shifted, OpCode.addresses_mapAddress]
    exact List.mem_map_of_mem ha
  have := (Block.addresses_compile h' _ hi' 0 ha').1
  omega

/-- The code of a chunk is its code for address zero, moved to its base. -/
theorem Block.compile_rebased (h : body.compile options base = .ok (code, spans)) :
    ∃ code₀, body.compile options 0 = .ok (code₀, spans) ∧
      code = code₀.map (Instruction.relocated base) := by
  have hadd := Block.compile_add options 0 base body
  rw [Nat.zero_add, h] at hadd
  cases h₀ : body.compile options 0 with
  | error e =>
    rw [h₀] at hadd
    cases hadd
  | ok p =>
    obtain ⟨code₀, spans₀⟩ := p
    rw [h₀] at hadd
    cases hadd
    refine ⟨code₀, rfl, List.map_congr_left fun i hi => ?_⟩
    have hop : i.op.shifted base = i.op.relocate base := by
      rw [OpCode.relocate_eq_mapAddress]
      exact OpCode.mapAddress_congr fun a ha =>
        shiftedAddress_of_pos (Block.pos_of_compile_zero h₀ i hi a ha)
    rw [hop]
    rfl

/-- Moving code twice; the order does not matter. -/
theorem Instruction.relocated_comm (a b : Nat) (i : Instruction) :
    (i.relocated a).relocated b = (i.relocated b).relocated a := by
  simp only [relocated, OpCode.relocate_eq_mapAddress, OpCode.mapAddress_mapAddress,
    Nat.add_right_comm]

theorem Instruction.addresses_relocated (base : Nat) (i : Instruction) :
    (i.relocated base).op.addresses = i.op.addresses.map (· + base) := by
  rw [relocated, OpCode.relocate_eq_mapAddress, OpCode.addresses_mapAddress]

namespace Segment

/-- A text that compiles at the end of some code compiles at the end of any other, to the same code
but for its addresses: those count from the base. They all lie in the new code, behind its first
instruction, so none is left to be filled in. -/
theorem compile_relocated {s t : Segment} {options : CompileOptions} {source : String}
    {chunk : CompiledChunk} (h : s.compile options source = .ok (chunk, t)) (s' : Segment) :
    ∃ code code' : Code, t = s.append code ∧
      s'.compile options source = .ok ({ chunk with
        entry := s'.size, block := s'.nextBlock code'.length }, s'.append code') ∧
      code'.map (Instruction.relocated s.size) = code.map (Instruction.relocated s'.size) ∧
      ∀ i ∈ code, ∀ a ∈ i.op.addresses, s.size < a ∧ a < s.size + code.length := by
  obtain ⟨body, code, spans, hparse, hcode, rfl, rfl⟩ := compile_eq_ok h
  obtain ⟨code₀, h₀, rfl⟩ := Block.compile_rebased hcode
  have hadd := Block.compile_add options 0 s'.size body
  rw [Nat.zero_add, h₀] at hadd
  have hcode' : body.compile options s'.size = .ok (code₀.shifted s'.size, spans) := hadd
  obtain ⟨code₁, h₁, hrelocated⟩ := Block.compile_rebased hcode'
  cases h₀.symm.trans h₁
  rw [hrelocated] at hcode'
  refine ⟨_, code₀.map (Instruction.relocated s'.size), rfl, ?_, ?_, ?_⟩
  · rw [compile, hparse]
    simp only [bind, Except.bind, hcode']
    rfl
  · simp only [List.map_map]
    exact List.map_congr_left fun i _ => i.relocated_comm _ _
  · intro i hi a ha
    obtain ⟨i, hi₀, rfl⟩ := List.mem_map.1 hi
    have hbounds := Block.addresses_compile hcode _ hi a ha
    rw [Instruction.addresses_relocated] at ha
    obtain ⟨a₀, ha₀, rfl⟩ := List.mem_map.1 ha
    have hpos := Block.pos_of_compile_zero h₀ i hi₀ a₀ ha₀
    exact ⟨by omega, hbounds.2⟩

/-- What is checked by compiling a text: it is accepted, and there is a jump in its code. -/
def hasJump (source : String) : Bool :=
  match Segment.empty.compile { chunk := "c", source := 0 } source with
  | .ok (_, t) => t.code.any (·.op.jumpTarget?.isSome)
  | .error _ => false

/-- A loop with a break, compiled a second time behind its own code. -/
theorem compile_relocated_loop : ∃ chunk t code code',
    Segment.empty.compile { chunk := "c", source := 0 } "while x do break end" = .ok (chunk, t) ∧
      t = Segment.empty.append code ∧ (∃ i ∈ code, ∃ a, i.op.jumpTarget? = some a ∧ 0 < a) ∧
      t.compile { chunk := "c", source := 0 } "while x do break end" = .ok ({ chunk with
        entry := t.size, block := t.nextBlock code'.length }, t.append code') ∧
      code'.map (Instruction.relocated 0) = code.map (Instruction.relocated t.size) := by
  have hrun : hasJump "while x do break end" = true := by decide +kernel
  unfold hasJump at hrun
  cases hc : Segment.empty.compile { chunk := "c", source := 0 } "while x do break end" with
  | error e =>
    rw [hc] at hrun
    cases hrun
  | ok p =>
    obtain ⟨chunk, t⟩ := p
    obtain ⟨code, code', ht, hagain, hcode, hbounds⟩ := compile_relocated hc t
    refine ⟨chunk, t, code, code', rfl, ht, ?_, hagain, hcode⟩
    simp only [hc, Array.any_eq_true'] at hrun
    obtain ⟨i, hi, hjump⟩ := hrun
    obtain ⟨a, ha⟩ := Option.isSome_iff_exists.1 hjump
    have hmem : i ∈ code := by
      rw [ht, append] at hi
      split at hi
      · simp [empty] at hi
      · simpa [empty] using hi
    have haddr : a ∈ i.op.addresses := by
      generalize i.op = op at ha
      cases op <;> simp_all [OpCode.addresses, OpCode.jumpTarget?]
    exact ⟨i, hmem, a, ha, (hbounds i hmem a haddr).1⟩

end Segment

end LuaMachine
