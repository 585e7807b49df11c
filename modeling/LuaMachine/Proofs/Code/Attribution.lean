import LuaMachine.Proofs.Code.Generation
import LuaMachine.Proofs.Code.Verification

/-!
# The source that code is attributed to

A compilation attributes every instruction it makes, and every span it lists, to the source it was
started for. The spans of the site are part of the statement: code takes its span from there
(`Site.LiesIn`), and each step of the generator hands on a site of the same kind (`Attributes`).

Main statement: `Block.attributed_compile`.
-/

namespace LuaMachine

/-- The span belongs to a source. -/
def Span.LiesIn (n : Nat) (span : Span) : Prop := span.origin = .source n

/-- What has a span of its own has one of a source. -/
def Code.LiesIn (n : Nat) (code : Code) : Prop := ∀ i ∈ code, ∀ span ∈ i.span, span.LiesIn n

/-- A source is compiled, and all spans met so far belong to it. -/
structure Site.LiesIn (n : Nat) (s : Site) : Prop where
  source : s.source = n
  spans : ∀ span ∈ s.spans, span.LiesIn n
  span : ∀ span ∈ s.span, span.LiesIn n

namespace Code.LiesIn

variable {n : Nat} {c d : Code}

theorem nil (n : Nat) : Code.LiesIn n [] := by
  intro i hi
  cases hi

theorem op {span : Option Span} (h : ∀ t ∈ span, t.LiesIn n) (op : OpCode) :
    Code.LiesIn n [⟨op, span⟩] := by
  intro i hi
  rw [List.mem_singleton] at hi
  subst hi
  exact h

theorem append (hc : c.LiesIn n) (hd : d.LiesIn n) : Code.LiesIn n (c ++ d) := by
  intro i hi
  rcases List.mem_append.1 hi with hi | hi
  · exact hc i hi
  · exact hd i hi

/-- Redirecting a jump leaves its span. -/
theorem patch (hc : c.LiesIn n) (addresses : List Nat) (target start : Nat) :
    Code.LiesIn n (Gen.patch addresses target start c) := by
  intro i hi
  obtain ⟨k, hk, rfl⟩ := List.mem_mapIdx.1 hi
  have hspan := hc _ (List.getElem_mem hk)
  split
  · exact hspan
  · exact hspan

end Code.LiesIn

namespace Gen

variable {n : Nat} {α β : Type} {P : α → Prop} {Q : β → Prop}

/-- In the compilation of source `n`, whatever a step gives has `P`. -/
def Attributes (n : Nat) (x : Gen α) (P : α → Prop) : Prop :=
  ∀ s : Site, s.LiesIn n → x.Ensures s fun a s' => P a ∧ s'.LiesIn n

/-! ## The rules -/

theorem Attributes.bind {x : Gen α} {f : α → Gen β} (hx : Attributes n x P)
    (hf : ∀ a, P a → Attributes n (f a) Q) : Attributes n (x >>= f) Q := by
  intro s hs
  rw [ensures_bind]
  refine (hx s hs).mono fun a s₁ h₁ => ?_
  exact hf a h₁.1 s₁ h₁.2

theorem attributes_pure {a : α} (h : P a) : Attributes n (pure a) P := by
  intro s hs
  rw [ensures_pure]
  exact ⟨h, hs⟩

theorem attributes_failHere (cause : SyntaxCause) : Attributes n (failHere cause) P := by
  intro s hs
  rw [ensures_failHere]
  trivial

theorem attributes_throw (e : SyntaxFault) : Attributes n (throw e) P := by
  intro s hs
  rw [ensures_throw]
  trivial

/-- Steps that leave the source and the spans alone. -/
theorem attributes_of_spans {x : Gen α} (h : ∀ s : Site, x.Ensures s fun _ s' =>
    s'.source = s.source ∧ s'.spans = s.spans ∧ s'.span = s.span) :
    Attributes n x fun _ => True := by
  intro s hs
  refine (h s).mono fun a s' h => ⟨trivial, ?_⟩
  obtain ⟨hsource, hspans, hspan⟩ := h
  refine ⟨hsource.trans hs.source, ?_, ?_⟩
  · rw [hspans]
    exact hs.spans
  · rw [hspan]
    exact hs.span

theorem attributes_here : Attributes n here fun _ => True :=
  attributes_of_spans fun s => by
    rw [ensures_here]
    exact ⟨rfl, rfl, rfl⟩

theorem attributes_modifyScopes (f : ScopeStack → ScopeStack) :
    Attributes n (modifyScopes f) fun _ => True :=
  attributes_of_spans fun s => by
    rw [ensures_modifyScopes]
    exact ⟨rfl, rfl, rfl⟩

theorem attributes_resolve (name : String) : Attributes n (resolve name) fun _ => True :=
  attributes_of_spans fun s => by
    rw [ensures_resolve]
    exact ⟨rfl, rfl, rfl⟩

theorem attributes_declare (name : String) : Attributes n (declare name) fun _ => True :=
  attributes_of_spans fun s => by
    rw [ensures_declare]
    exact ⟨rfl, rfl, rfl⟩

theorem attributes_pushLoop : Attributes n pushLoop fun _ => True :=
  attributes_of_spans fun s => by
    rw [ensures_pushLoop]
    exact ⟨rfl, rfl, rfl⟩

theorem attributes_popLoop : Attributes n popLoop fun _ => True :=
  attributes_of_spans fun s => by
    rw [ensures_popLoop]
    exact ⟨rfl, rfl, rfl⟩

theorem attributes_loops (loops : List (List Nat)) :
    Attributes n (modify fun s => { s with loops }) fun _ => True :=
  attributes_of_spans fun s => by
    rw [ensures_modify]
    exact ⟨rfl, rfl, rfl⟩

theorem attributes_declareAll (names : List String) :
    Attributes n (forIn names PUnit.unit fun name _ => do
      modifyScopes (·.declare name)
      pure (ForInStep.yield PUnit.unit)) fun _ => True :=
  attributes_of_spans fun s => by
    rw [ensures_forIn_declare]
    exact ⟨rfl, rfl, rfl⟩

theorem attributes_get : Attributes n get (Site.LiesIn n) := by
  intro s hs
  rw [ensures_get]
  exact ⟨hs, hs⟩

theorem attributes_set {t : Site} (h : t.LiesIn n) : Attributes n (set t) fun _ => True := by
  intro s _
  rw [ensures_set]
  exact ⟨trivial, h⟩

theorem attributes_emit (op : OpCode) : Attributes n (emit op) (Code.LiesIn n) := by
  intro s hs
  rw [ensures_emit]
  exact ⟨.op hs.span op, hs.source, hs.spans, hs.span⟩

theorem attributes_reserve :
    Attributes n reserve fun slot => ∀ span ∈ slot.2, span.LiesIn n := by
  intro s hs
  rw [ensures_reserve]
  exact ⟨hs.span, hs.source, hs.spans, hs.span⟩

theorem attributes_currentSpan :
    Attributes n currentSpan fun o => ∀ span ∈ o, span.LiesIn n := by
  intro s hs
  rw [ensures_currentSpan]
  exact ⟨hs.span, hs⟩

theorem attributes_setSpan {o : Option Span} (h : ∀ span ∈ o, span.LiesIn n) :
    Attributes n (setSpan o) fun _ => True := by
  intro s hs
  rw [ensures_setSpan]
  exact ⟨trivial, hs.source, hs.spans, h⟩

theorem attributes_markSpan {span : Span} (h : span.LiesIn n) :
    Attributes n (markSpan span) fun _ => True := by
  intro s hs
  rw [ensures_markSpan]
  refine ⟨trivial, hs.source, ?_, ?_⟩
  · intro t ht
    unfold Site.marked at ht
    split at ht
    · exact hs.spans t ht
    · rcases List.mem_cons.1 ht with rfl | ht
      · exact h
      · exact hs.spans t ht
  · intro t ht
    rw [← Option.some.inj ht]
    exact h

theorem attributes_spanOf (e : Extent) : Attributes n (spanOf e) (Span.LiesIn n) := by
  intro s hs
  rw [ensures_spanOf]
  exact ⟨congrArg Origin.source hs.source, hs⟩

theorem attributes_markExtent (e : Extent) : Attributes n (markExtent e) fun _ => True :=
  (attributes_spanOf e).bind fun _ h => attributes_markSpan h

/-! ## Every construct -/

theorem attributes_scalarAfter (e : Expr) : Attributes n (scalarAfter e) (Code.LiesIn n) := by
  unfold scalarAfter
  split
  · exact attributes_emit .scalar
  · exact attributes_pure (.nil n)

/-- An expression cut down to one value. -/
theorem attributes_scalar {e : Expr} (he : Attributes n (expr e) (Code.LiesIn n))
    {f : Code → Code → Gen β} (hf : ∀ c one : Code, c.LiesIn n → one.LiesIn n →
      Attributes n (f c one) Q) :
    Attributes n (do let c ← expr e; let one ← scalarAfter e; f c one) Q :=
  he.bind fun c hc => (attributes_scalarAfter e).bind fun one hone => hf c one hc hone

/-- A block with its own names. -/
theorem attributes_inner {body : List Stat} (hbody : Attributes n (block body) (Code.LiesIn n))
    {f : Code → Gen β} (hf : ∀ c : Code, c.LiesIn n → Attributes n (f c) Q) :
    Attributes n (do
      modifyScopes (·.pushBlock)
      let c ← block body
      modifyScopes (·.popBlock)
      f c) Q :=
  (attributes_modifyScopes _).bind fun _ _ => hbody.bind fun c hc =>
    (attributes_modifyScopes _).bind fun _ _ => hf c hc

theorem attributes_bindNames : ∀ (names : List String) (i : Nat),
    Attributes n (bindNames names i) (Code.LiesIn n)
  | [], _ => by
    rw [bindNames]
    exact attributes_pure (.nil n)
  | name :: names, i => by
    rw [bindNames]
    refine (attributes_declare name).bind fun slot _ => ?_
    refine (attributes_emit _).bind fun bind hbind => ?_
    refine (attributes_bindNames names (i + 1)).bind fun binds hbinds => ?_
    exact attributes_pure (hbind.append hbinds)

theorem attributes_assignField : ∀ keys : List String,
    Attributes n (assignField keys) (Code.LiesIn n)
  | [] => by
    rw [assignField]
    exact attributes_pure (.nil n)
  | [key] => by
    rw [assignField]
    refine (attributes_emit _).bind fun k hk => ?_
    refine (attributes_emit _).bind fun store hstore => ?_
    exact attributes_pure (hk.append hstore)
  | key :: key' :: rest => by
    rw [assignField]
    · refine (attributes_emit _).bind fun k hk => ?_
      refine (attributes_emit _).bind fun index hindex => ?_
      refine (attributes_assignField (key' :: rest)).bind fun fields hfields => ?_
      exact attributes_pure ((hk.append hindex).append hfields)
    · simp

mutual

theorem attributes_expr : ∀ e : Expr, Attributes n (expr e) (Code.LiesIn n)
  | .nil => by
    rw [expr]
    exact attributes_emit _
  | .boolean b => by
    rw [expr]
    exact attributes_emit _
  | .number x => by
    rw [expr]
    exact attributes_emit _
  | .string t => by
    rw [expr]
    exact attributes_emit _
  | .varargs => by
    rw [expr]
    refine attributes_get.bind fun s _ => ?_
    split
    · exact attributes_emit _
    · exact attributes_failHere _
  | .function body => by
    rw [expr]
    exact attributes_function body
  | .table fs => by
    rw [expr]
    refine (attributes_emit _).bind fun new hnew => ?_
    refine (attributes_fields fs 1).bind fun c hc => ?_
    exact attributes_pure (hnew.append hc)
  | .binary op left right => by
    rw [expr]
    refine attributes_scalar (attributes_expr left) fun l l' hl hl' => ?_
    refine attributes_scalar (attributes_expr right) fun r r' hr hr' => ?_
    refine (attributes_emit _).bind fun apply happly => ?_
    exact attributes_pure ((((hl.append hl').append hr).append hr').append happly)
  | .logical op left right => by
    rw [expr]
    refine attributes_scalar (attributes_expr left) fun l l' hl hl' => ?_
    refine attributes_reserve.bind fun jump hjump => ?_
    refine attributes_scalar (attributes_expr right) fun r r' hr hr' => ?_
    refine attributes_here.bind fun exit _ => ?_
    exact attributes_pure ((((hl.append hl').append (.op hjump _)).append hr).append hr')
  | .unary op operand => by
    simp only [expr]
    refine attributes_scalar (attributes_expr operand) fun c one hc hone => ?_
    refine (attributes_emit _).bind fun apply happly => ?_
    exact attributes_pure ((hc.append hone).append happly)
  | .name t => by
    rw [expr]
    refine (attributes_resolve t).bind fun symbol _ => ?_
    exact attributes_emit _
  | .index object key => by
    rw [expr]
    refine attributes_scalar (attributes_expr object) fun o o' ho ho' => ?_
    refine attributes_scalar (attributes_expr key) fun k k' hk hk' => ?_
    refine (attributes_emit _).bind fun index hindex => ?_
    exact attributes_pure ((((ho.append ho').append hk).append hk').append hindex)
  | .call f args => by
    rw [expr]
    refine attributes_scalar (attributes_expr f) fun c one hc hone => ?_
    refine (attributes_exprs args).bind fun vs hvs => ?_
    refine (attributes_emit _).bind fun call hcall => ?_
    exact attributes_pure (((hc.append hone).append hvs).append hcall)
  | .methodCall object method args => by
    rw [expr]
    refine attributes_scalar (attributes_expr object) fun o o' ho ho' => ?_
    refine (attributes_emit _).bind fun m hm => ?_
    refine (attributes_exprs args).bind fun vs hvs => ?_
    refine (attributes_emit _).bind fun call hcall => ?_
    exact attributes_pure ((((ho.append ho').append hm).append hvs).append hcall)
  | .paren e => by
    rw [expr]
    refine attributes_scalar (attributes_expr e) fun c one hc hone => ?_
    exact attributes_pure (hc.append hone)

theorem attributes_exprs : ∀ es : List Expr, Attributes n (exprs es) (Code.LiesIn n)
  | [] => by
    rw [exprs]
    exact attributes_pure (.nil n)
  | [e] => by
    rw [exprs]
    exact attributes_expr e
  | e :: e' :: rest => by
    rw [exprs]
    refine attributes_scalar (attributes_expr e) fun c one hc hone => ?_
    refine (attributes_exprs (e' :: rest)).bind fun vs hvs => ?_
    exact attributes_pure ((hc.append hone).append hvs)

theorem attributes_fields : ∀ (fs : List Field) (position : Nat),
    Attributes n (fields fs position) (Code.LiesIn n)
  | [], _ => by
    rw [fields]
    exact attributes_pure (.nil n)
  | .positional value :: rest, position => by
    rw [fields]
    refine (attributes_expr value).bind fun c hc => ?_
    have hrest : ∀ one : Code, one.LiesIn n → Attributes n (do
        let append ← emit (.tableAppend position (rest.isEmpty && value.isMultiValue))
        return c ++ one ++ append ++ (← fields rest (position + 1))) (Code.LiesIn n) := by
      intro one hone
      refine (attributes_emit _).bind fun append happend => ?_
      refine (attributes_fields rest (position + 1)).bind fun cs hcs => ?_
      exact attributes_pure (((hc.append hone).append happend).append hcs)
    -- the last field may keep all its values
    dsimp only
    split
    · exact hrest [] (.nil n)
    · exact (attributes_scalarAfter value).bind hrest
  | .named name value :: rest, position => by
    rw [fields]
    refine (attributes_emit _).bind fun key hkey => ?_
    refine attributes_scalar (attributes_expr value) fun c one hc hone => ?_
    refine (attributes_emit _).bind fun store hstore => ?_
    refine (attributes_fields rest position).bind fun cs hcs => ?_
    exact attributes_pure ((((hkey.append hc).append hone).append hstore).append hcs)
  | .keyed key value :: rest, position => by
    rw [fields]
    refine attributes_scalar (attributes_expr key) fun k k' hk hk' => ?_
    refine attributes_scalar (attributes_expr value) fun c one hc hone => ?_
    refine (attributes_emit _).bind fun store hstore => ?_
    refine (attributes_fields rest position).bind fun cs hcs => ?_
    exact attributes_pure (((((hk.append hk').append hc).append hone).append hstore).append hcs)

theorem attributes_assignTo : ∀ (targets : List Expr) (i : Nat),
    Attributes n (assignTo targets i) (Code.LiesIn n)
  | [], _ => by
    rw [assignTo]
    exact attributes_pure (.nil n)
  | e :: rest, i => by
    cases e with
    | name t =>
      rw [assignTo]
      refine (attributes_resolve t).bind fun symbol _ => ?_
      refine (attributes_emit _).bind fun store hstore => ?_
      refine (attributes_assignTo rest (i + 1)).bind fun cs hcs => ?_
      exact attributes_pure (hstore.append hcs)
    | index object key =>
      rw [assignTo]
      refine attributes_scalar (attributes_expr object) fun o o' ho ho' => ?_
      refine attributes_scalar (attributes_expr key) fun k k' hk hk' => ?_
      refine (attributes_emit _).bind fun store hstore => ?_
      refine (attributes_assignTo rest (i + 1)).bind fun cs hcs => ?_
      exact attributes_pure (((((ho.append ho').append hk).append hk').append hstore).append hcs)
    | _ =>
      -- other expressions are refused
      rw [assignTo]
      · exact attributes_failHere _
      all_goals simp

theorem attributes_function : ∀ body : FunctionBody,
    Attributes n (function body) (Code.LiesIn n)
  | .mk name params isVararg body extent closing => by
    rw [function]
    refine attributes_reserve.bind fun skip hskip => ?_
    refine attributes_currentSpan.bind fun outer houter => ?_
    refine (attributes_spanOf extent).bind fun span hspan => ?_
    have hnonBreakable : span.nonBreakable.LiesIn n := hspan
    refine (attributes_markSpan hnonBreakable).bind fun _ _ => ?_
    refine attributes_reserve.bind fun header hheader => ?_
    refine attributes_reserve.bind fun begin_ hbegin => ?_
    refine (attributes_emit _).bind fun args hargs => ?_
    refine (attributes_modifyScopes _).bind fun _ _ => ?_
    refine (attributes_declareAll params).bind fun _ _ => ?_
    refine attributes_get.bind fun s _ => ?_
    refine (attributes_loops []).bind fun _ _ => ?_
    refine (attributes_block body).bind fun inner hinner => ?_
    refine (attributes_loops s.loops).bind fun _ _ => ?_
    refine (attributes_markExtent closing).bind fun _ _ => ?_
    refine (attributes_emit _).bind fun ret hret => ?_
    refine attributes_get.bind fun s' _ => ?_
    refine (attributes_modifyScopes _).bind fun _ _ => ?_
    refine attributes_here.bind fun after _ => ?_
    refine (attributes_setSpan houter).bind fun _ _ => ?_
    refine (attributes_emit _).bind fun closure hclosure => ?_
    have hstart := ((Code.LiesIn.op hskip (.jump after)).append (.op hheader
      (.header name .function (after - header.1)))).append (.op hbegin (.beginFn s'.scopes.current.locals))
    exact attributes_pure ((((hstart.append hargs).append hinner).append hret).append hclosure)

theorem attributes_block : ∀ body : List Stat, Attributes n (block body) (Code.LiesIn n)
  | [] => by
    rw [block]
    exact attributes_pure (.nil n)
  | st :: rest => by
    rw [block]
    refine (attributes_stat st).bind fun c hc => ?_
    refine (attributes_block rest).bind fun cs hcs => ?_
    exact attributes_pure (hc.append hcs)

theorem attributes_stat : ∀ st : Stat, Attributes n (stat st) (Code.LiesIn n)
  | .local names values extent => by
    rw [stat]
    refine (attributes_markExtent extent).bind fun _ _ => ?_
    refine (attributes_exprs values).bind fun vs hvs => ?_
    refine (attributes_emit _).bind fun tuple htuple => ?_
    refine (attributes_bindNames names 0).bind fun binds hbinds => ?_
    refine (attributes_emit _).bind fun drop hdrop => ?_
    exact attributes_pure (((hvs.append htuple).append hbinds).append hdrop)
  | .assign targets values extent => by
    rw [stat]
    refine (attributes_markExtent extent).bind fun _ _ => ?_
    refine (attributes_exprs values).bind fun vs hvs => ?_
    refine (attributes_emit _).bind fun tuple htuple => ?_
    refine (attributes_assignTo targets 0).bind fun stores hstores => ?_
    refine (attributes_emit _).bind fun drop hdrop => ?_
    exact attributes_pure (((hvs.append htuple).append hstores).append hdrop)
  | .call e extent => by
    rw [stat]
    refine (attributes_markExtent extent).bind fun _ _ => ?_
    refine (attributes_expr e).bind fun c hc => ?_
    refine (attributes_emit _).bind fun drop hdrop => ?_
    exact attributes_pure (hc.append hdrop)
  | .do body extent => by
    rw [stat]
    refine (attributes_markExtent extent).bind fun _ _ => ?_
    exact attributes_inner (attributes_block body) fun c hc => attributes_pure hc
  | .while condition body extent closing => by
    rw [stat]
    refine (attributes_markExtent extent).bind fun _ _ => ?_
    refine attributes_here.bind fun start _ => ?_
    refine attributes_scalar (attributes_expr condition) fun test one htest hone => ?_
    refine attributes_reserve.bind fun leave hleave => ?_
    refine attributes_pushLoop.bind fun _ _ => ?_
    refine attributes_inner (attributes_block body) fun inner hinner => ?_
    refine (attributes_markExtent closing).bind fun _ _ => ?_
    refine (attributes_emit _).bind fun back hback => ?_
    refine attributes_here.bind fun exit _ => ?_
    refine attributes_popLoop.bind fun breaks _ => ?_
    refine attributes_pure (.patch ?_ breaks exit start)
    exact (((htest.append hone).append (.op hleave _)).append hinner).append hback
  | .repeat body condition extent => by
    rw [stat]
    refine (attributes_markExtent extent).bind fun _ _ => ?_
    refine attributes_here.bind fun start _ => ?_
    refine attributes_pushLoop.bind fun _ _ => ?_
    refine (attributes_modifyScopes _).bind fun _ _ => ?_
    refine (attributes_block body).bind fun inner hinner => ?_
    refine (attributes_markExtent extent).bind fun _ _ => ?_
    refine attributes_scalar (attributes_expr condition) fun test one htest hone => ?_
    refine (attributes_emit _).bind fun again hagain => ?_
    refine (attributes_modifyScopes _).bind fun _ _ => ?_
    refine attributes_here.bind fun exit _ => ?_
    refine attributes_popLoop.bind fun breaks _ => ?_
    refine attributes_pure (.patch ?_ breaks exit start)
    exact ((hinner.append htest).append hone).append hagain
  | .if branches extent => by
    rw [stat]
    refine (attributes_markExtent extent).bind fun _ _ => ?_
    refine attributes_here.bind fun start _ => ?_
    refine (attributes_clauses branches).bind fun p hp => ?_
    refine attributes_here.bind fun exit _ => ?_
    exact attributes_pure (hp.patch p.2 exit start)
  | .numericFor var first limit step body extent closing => by
    rw [stat]
    refine (attributes_markExtent extent).bind fun _ _ => ?_
    refine attributes_scalar (attributes_expr first) fun a a' ha ha' => ?_
    refine attributes_scalar (attributes_expr limit) fun b b' hb hb' => ?_
    refine attributes_scalar (attributes_expr step) fun c c' hc hc' => ?_
    refine (attributes_emit _).bind fun prep hprep => ?_
    refine attributes_reserve.bind fun loop hloop => ?_
    refine attributes_pushLoop.bind fun _ _ => ?_
    refine (attributes_modifyScopes _).bind fun _ _ => ?_
    refine (attributes_declare var).bind fun slot _ => ?_
    refine (attributes_emit _).bind fun bind hbind => ?_
    refine (attributes_block body).bind fun inner hinner => ?_
    refine (attributes_modifyScopes _).bind fun _ _ => ?_
    refine (attributes_markExtent closing).bind fun _ _ => ?_
    refine (attributes_emit _).bind fun step hstep => ?_
    refine (attributes_emit _).bind fun back hback => ?_
    refine attributes_here.bind fun exit _ => ?_
    refine (attributes_emit _).bind fun drop hdrop => ?_
    refine attributes_popLoop.bind fun breaks _ => ?_
    have hbounds := (((((ha.append ha').append hb).append hb').append hc).append hc').append hprep
    have hround := (((((Code.LiesIn.op hloop (.forLoop exit)).append hbind).append hinner).append
      hstep).append hback).patch breaks exit loop.1
    exact attributes_pure ((hbounds.append hround).append hdrop)
  | .genericFor names values body extent closing => by
    rw [stat]
    refine (attributes_markExtent extent).bind fun _ _ => ?_
    refine (attributes_exprs values).bind fun vs hvs => ?_
    refine (attributes_emit _).bind fun tuple htuple => ?_
    refine (attributes_emit _).bind fun prep hprep => ?_
    refine attributes_here.bind fun start _ => ?_
    refine (attributes_emit _).bind fun copy₁ hcopy₁ => ?_
    refine (attributes_emit _).bind fun copy₂ hcopy₂ => ?_
    refine (attributes_emit _).bind fun copy₃ hcopy₃ => ?_
    refine (attributes_emit _).bind fun call hcall => ?_
    refine attributes_reserve.bind fun check hcheck => ?_
    refine attributes_pushLoop.bind fun _ _ => ?_
    refine (attributes_modifyScopes _).bind fun _ _ => ?_
    refine (attributes_bindNames names 0).bind fun binds hbinds => ?_
    refine (attributes_emit _).bind fun drop hdrop => ?_
    refine (attributes_block body).bind fun inner hinner => ?_
    refine (attributes_modifyScopes _).bind fun _ _ => ?_
    refine (attributes_markExtent closing).bind fun _ _ => ?_
    refine (attributes_emit _).bind fun back hback => ?_
    refine attributes_here.bind fun exit _ => ?_
    refine (attributes_emit _).bind fun drop₃ hdrop₃ => ?_
    refine attributes_popLoop.bind fun breaks _ => ?_
    have hcalls := (((hcopy₁.append hcopy₂).append hcopy₃).append hcall).append
      (.op hcheck (.iterCheck exit))
    have hround := ((((hcalls.append hbinds).append hdrop).append hinner).append hback).patch
      breaks exit start
    exact attributes_pure ((((hvs.append htuple).append hprep).append hround).append hdrop₃)
  | .function target keys body extent => by
    rw [stat]
    refine (attributes_markExtent extent).bind fun _ _ => ?_
    refine (attributes_function body).bind fun f hf => ?_
    refine (attributes_resolve target).bind fun symbol _ => ?_
    cases keys with
    | nil =>
      refine (attributes_emit _).bind fun store hstore => ?_
      refine (attributes_emit _).bind fun drop hdrop => ?_
      exact attributes_pure ((hf.append hstore).append hdrop)
    | cons key rest =>
      refine (attributes_emit _).bind fun object hobject => ?_
      refine (attributes_assignField (key :: rest)).bind fun fields hfields => ?_
      refine (attributes_pure (hobject.append hfields)).bind fun store hstore => ?_
      refine (attributes_emit _).bind fun drop hdrop => ?_
      exact attributes_pure ((hf.append hstore).append hdrop)
  | .localFunction name body extent => by
    rw [stat]
    refine (attributes_markExtent extent).bind fun _ _ => ?_
    refine (attributes_declare name).bind fun slot _ => ?_
    refine (attributes_emit _).bind fun empty hempty => ?_
    refine (attributes_emit _).bind fun bind hbind => ?_
    refine (attributes_emit _).bind fun drop hdrop => ?_
    refine (attributes_function body).bind fun f hf => ?_
    refine (attributes_emit _).bind fun store hstore => ?_
    refine (attributes_emit _).bind fun drop' hdrop' => ?_
    have hdeclared := (hempty.append hbind).append hdrop
    exact attributes_pure (((hdeclared.append hf).append hstore).append hdrop')
  | .return values extent => by
    rw [stat]
    refine (attributes_markExtent extent).bind fun _ _ => ?_
    refine (attributes_exprs values).bind fun vs hvs => ?_
    rcases values with _ | ⟨e₁, _ | ⟨e₂, rest⟩⟩
    · refine (attributes_emit _).bind fun ret hret => ?_
      exact attributes_pure (hvs.append hret)
    · refine (attributes_emit _).bind fun ret hret => ?_
      exact attributes_pure (hvs.append hret)
    · refine (attributes_emit _).bind fun tuple htuple => ?_
      refine (attributes_emit _).bind fun ret hret => ?_
      exact attributes_pure ((hvs.append htuple).append hret)
  | .break extent => by
    rw [stat]
    refine (attributes_markExtent extent).bind fun _ _ => ?_
    refine attributes_reserve.bind fun slot hslot => ?_
    refine attributes_get.bind fun s hs => ?_
    split
    · next breaks outer _ =>
      have hs' : Site.LiesIn n { s with loops := (slot.1 :: breaks) :: outer } :=
        ⟨hs.source, hs.spans, hs.span⟩
      refine (attributes_set hs').bind fun _ _ => ?_
      exact attributes_pure (.op hslot _)
    · exact attributes_throw _

theorem attributes_clauses : ∀ branches : Branches,
    Attributes n (clauses branches) fun p => p.1.LiesIn n
  | .done => by
    rw [clauses]
    exact attributes_pure (.nil n)
  | .otherwise body => by
    rw [clauses]
    exact attributes_inner (attributes_block body) fun c hc => attributes_pure hc
  | .clause condition body header rest => by
    rw [clauses]
    refine (attributes_markExtent header).bind fun _ _ => ?_
    refine attributes_scalar (attributes_expr condition) fun test one htest hone => ?_
    refine attributes_reserve.bind fun skip hskip => ?_
    refine attributes_inner (attributes_block body) fun inner hinner => ?_
    have hclause := fun next => ((htest.append hone).append (.op hskip (.jumpIfFalse next))).append
      hinner
    have hlast : ∀ rest : Branches, Attributes n (clauses rest) (fun p => p.1.LiesIn n) →
        Attributes n (do
          let leave ← reserve
          let next ← here
          let (code, exits) ← clauses rest
          return (test ++ one ++ fill skip (.jumpIfFalse next) ++ inner ++ fill leave (.jump 0) ++ code,
            leave.1 :: exits)) fun p => p.1.LiesIn n := by
      intro rest hrest
      refine attributes_reserve.bind fun leave hleave => ?_
      refine attributes_here.bind fun next _ => ?_
      refine hrest.bind fun p hp => ?_
      exact attributes_pure (((hclause next).append (.op hleave _)).append hp)
    cases rest with
    | done =>
      refine attributes_here.bind fun next _ => ?_
      exact attributes_pure (hclause next)
    | otherwise last => exact hlast _ (attributes_clauses (.otherwise last))
    | clause c b h rest => exact hlast _ (attributes_clauses (.clause c b h rest))

end

theorem attributes_chunk (name : String) (kind : HeaderKind) (body : Block) :
    Attributes n (chunk name kind body) (Code.LiesIn n) := by
  unfold chunk
  refine attributes_reserve.bind fun header hheader => ?_
  refine attributes_reserve.bind fun begin_ hbegin => ?_
  refine (attributes_emit _).bind fun args hargs => ?_
  refine (attributes_block body).bind fun inner hinner => ?_
  refine (attributes_setSpan (o := none) nofun).bind fun _ _ => ?_
  refine (attributes_emit _).bind fun ret hret => ?_
  refine attributes_get.bind fun s _ => ?_
  refine attributes_here.bind fun stop _ => ?_
  exact attributes_pure ((((Code.LiesIn.op hheader _).append (.op hbegin _)).append hargs).append
    hinner |>.append hret)

end Gen

/-- All code of a chunk, and all spans that are listed for it, belong to the source it was compiled
for. -/
theorem Block.attributed_compile {options : CompileOptions} {base : Nat} {body : Block} {code : Code}
    {spans : List Span} (h : body.compile options base = .ok (code, spans)) :
    code.LiesIn options.source ∧ ∀ span ∈ spans, span.LiesIn options.source := by
  unfold Block.compile at h
  simp only [StateT.run] at h
  split at h
  · next s hrun =>
    cases h
    have hstart : Site.LiesIn options.source
        { address := base, scopes := .start options.env, source := options.source } :=
      ⟨rfl, nofun, nofun⟩
    obtain ⟨hcode, hsite⟩ := Gen.attributes_chunk _ _ body _ hstart _ _ hrun
    refine ⟨hcode, fun span hspan => ?_⟩
    exact hsite.spans span (List.mem_reverse.1 hspan)
  · cases h

end LuaMachine
