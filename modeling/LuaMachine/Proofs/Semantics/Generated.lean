import LuaMachine.Proofs.Code.Verification
import LuaMachine.Proofs.Code.Pieces
import LuaMachine.Proofs.Semantics.Placement

/-!
# Plain code is generated where it should lie

What the generator makes of a plain tree lies where `At` says. An expression leaves the scopes as
they were (`Pushes`); a statement may declare names in the innermost block, and its breaks are noted
in the innermost loop (`Settles`).

There is one lemma for each construct. The induction over the trees (`Gen.settling_block`) puts them
together, and `Segment.chunkAt_compile` says it of the code of a source text.
-/

namespace LuaMachine

/-! ## Visible names -/

namespace ScopeStack

variable {s s₁ s₂ : ScopeStack} {new new₁ new₂ : Visible}

/-- The visible declarations of the function that is compiled. -/
def visible (s : ScopeStack) : Visible := s.current.blocks.flatten

/-- A block is open, so that what is declared becomes visible. -/
def Opened (s : ScopeStack) : Prop := s.current.blocks ≠ []

/-- The innermost block has new declarations; all else that is visible is as it was. -/
def Declares (new : Visible) (s s' : ScopeStack) : Prop :=
  ∃ block outer, s.current.blocks = block :: outer ∧ s'.current.blocks = (new ++ block) :: outer

theorem Declares.refl (hs : s.Opened) : Declares [] s s := by
  obtain ⟨block, outer, h⟩ := List.exists_cons_of_ne_nil hs
  exact ⟨block, outer, h, h⟩

theorem Declares.trans (h₁ : Declares new₁ s s₁) (h₂ : Declares new₂ s₁ s₂) :
    Declares (new₂ ++ new₁) s s₂ := by
  obtain ⟨block, outer, hs, hs₁⟩ := h₁
  obtain ⟨block', outer', hs₁', hs₂⟩ := h₂
  obtain ⟨rfl, rfl⟩ := List.cons_eq_cons.1 (hs₁.symm.trans hs₁')
  exact ⟨block, outer, hs, by rw [hs₂, List.append_assoc]⟩

theorem Declares.opened (h : Declares new s s₁) : s₁.Opened := by
  obtain ⟨block, outer, -, hs₁⟩ := h
  unfold Opened
  rw [hs₁]
  exact List.cons_ne_nil _ _

theorem Declares.visible (h : Declares new s s₁) : s₁.visible = new ++ s.visible := by
  obtain ⟨block, outer, hs, hs₁⟩ := h
  simp [ScopeStack.visible, hs, hs₁]

/-- A stack with an open block has a function. -/
theorem Opened.functions (hs : s.Opened) : ∃ f outer, s.functions = f :: outer := by
  cases h : s.functions with
  | nil => exact absurd (by simp [current, h]) hs
  | cons f outer => exact ⟨f, outer, rfl⟩

theorem current_modifyCurrent (hs : s.Opened) (f : FunctionScope → FunctionScope) :
    (s.modifyCurrent f).current = f s.current := by
  obtain ⟨g, outer, h⟩ := hs.functions
  simp [modifyCurrent, current, h]

theorem Opened.declares_declare (hs : s.Opened) (name : String) :
    Declares [(name, s.nextSlot)] s (s.declare name) := by
  obtain ⟨block, outer, h⟩ := List.exists_cons_of_ne_nil hs
  refine ⟨block, outer, h, ?_⟩
  rw [declare, current_modifyCurrent hs]
  simp [FunctionScope.declare, h, nextSlot]

theorem nextSlot_declare (hs : s.Opened) (name : String) :
    (s.declare name).nextSlot = s.nextSlot + 1 := by
  unfold nextSlot
  rw [declare, current_modifyCurrent hs]
  simp [FunctionScope.declare]

theorem Opened.pushBlock (hs : s.Opened) : s.pushBlock.Opened := by
  unfold Opened
  rw [ScopeStack.pushBlock, current_modifyCurrent hs]
  exact List.cons_ne_nil _ _

theorem visible_pushBlock (hs : s.Opened) : s.pushBlock.visible = s.visible := by
  unfold ScopeStack.visible
  rw [ScopeStack.pushBlock, current_modifyCurrent hs]
  simp [FunctionScope.pushBlock]

theorem nextSlot_pushBlock (hs : s.Opened) : s.pushBlock.nextSlot = s.nextSlot := by
  unfold nextSlot
  rw [ScopeStack.pushBlock, current_modifyCurrent hs]
  rfl

theorem nextSlot_popBlock (hs : s.Opened) : s.popBlock.nextSlot = s.nextSlot := by
  unfold nextSlot
  rw [ScopeStack.popBlock, current_modifyCurrent hs]
  rfl

/-- What is declared in a block is not visible behind it. -/
theorem Declares.leave (hs : s.Opened) (h : Declares new s.pushBlock s₁) :
    Declares [] s s₁.popBlock := by
  have hopened := h.opened
  obtain ⟨block, outer, hpush, hs₁⟩ := h
  rw [ScopeStack.pushBlock, current_modifyCurrent hs] at hpush
  obtain ⟨-, rfl⟩ := List.cons_eq_cons.1 hpush
  obtain ⟨block', outer', h'⟩ := List.exists_cons_of_ne_nil hs
  refine ⟨block', outer', h', ?_⟩
  rw [ScopeStack.popBlock, current_modifyCurrent hopened]
  simp [FunctionScope.popBlock, hs₁, h']

/-- A visible name is resolved to the slot of its latest declaration. -/
theorem resolve_visible {name : String} (h : name ∈ s.visible.map (·.1)) :
    ∃ slot, s.visible.slot? name = some slot ∧ s.resolve name = (.local name slot, s) := by
  obtain ⟨fs⟩ := s
  cases fs with
  | nil => cases h
  | cons f outer =>
    have hfind : ((visible ⟨f :: outer⟩).find? (·.1 == name)).isSome := by
      rw [List.find?_isSome]
      obtain ⟨p, hp, rfl⟩ := List.mem_map.1 h
      exact ⟨p, hp, beq_self_eq_true p.1⟩
    obtain ⟨p, hp⟩ := Option.isSome_iff_exists.1 hfind
    have hslot : f.findLocal? name = some p.2 := congrArg (Option.map Prod.snd) hp
    refine ⟨p.2, hslot, ?_⟩
    simp only [resolve, resolveIn, hslot]

end ScopeStack

/-- The names that are visible where code is made. -/
def Site.names (s : Site) : List String := s.scopes.visible.map (·.1)

/-! ## Expressions -/

/-- A piece that declares nothing and has no breaks, with a property of what holds it. -/
structure Pushes (s : Site) (c : Code) (s' : Site) (P : Listing → Prop) : Prop where
  makes : Makes s.address c [] s'.address fun code _ => P code
  scopes : s'.scopes = s.scopes
  loops : s'.loops = s.loops

namespace Pushes

variable {s s₁ s₂ t : Site} {c c₁ c₂ : Code} {P Q : Listing → Prop}

theorem imp (h : Pushes s c s₁ P) (hPQ : ∀ code, P code → Q code) : Pushes s c s₁ Q :=
  ⟨h.makes.imp fun code _ => hPQ code, h.scopes, h.loops⟩

theorem seq (h₁ : Pushes s c₁ s₁ P) (h₂ : Pushes s₁ c₂ s₂ Q) :
    Pushes s (c₁ ++ c₂) s₂ fun code => P code ∧ Q code :=
  ⟨h₁.makes.append h₂.makes, h₂.scopes.trans h₁.scopes, h₂.loops.trans h₁.loops⟩

theorem nil (s : Site) : Pushes s [] s fun _ => True := ⟨.nil _, rfl, rfl⟩

theorem op (s : Site) (op : OpCode) :
    Pushes s [⟨op, s.span⟩] { s with address := s.address + 1 } fun code =>
      code s.address = some op :=
  ⟨.op _ _ _, rfl, rfl⟩

end Pushes

namespace Gen

variable {s : Site}

/-- A plain expression has one value, so nothing is cut down. -/
theorem scalarAfter_plain {names : List String} {e : Expr} (he : e.Plain names) :
    scalarAfter e = pure [] := by
  have hone : e.isMultiValue = false := by
    cases e with
    | varargs | call | methodCall => cases he
    | _ => rfl
  rw [scalarAfter, hone]
  rfl

/-- The code of an expression at a site lies there. -/
def Pushing (e : Expr) : Prop :=
  ∀ s : Site, e.Plain s.names → (expr e).Ensures s fun c s' =>
    Pushes s c s' fun code => e.At code s.scopes.visible s.address s'.address

theorem pushes_scalar {e : Expr} (he : Pushing e) (hp : e.Plain s.names)
    {Q : Code → Code → Site → Prop}
    (hQ : ∀ c s', Pushes s c s' (fun code => e.At code s.scopes.visible s.address s'.address) →
      Q c [] s') :
    (expr e).Ensures s fun c s₁ => (scalarAfter e).Ensures s₁ fun c' s' => Q c c' s' := by
  refine (he s hp).mono fun c s₁ h₁ => ?_
  rw [scalarAfter_plain hp, ensures_pure]
  exact hQ c s₁ h₁

theorem pushing_literal {e : Expr} {v : Value} (he : expr e = emit (.literal v))
    (hAt : ∀ code vis a, code a = some (.literal v) → e.At code vis a (a + 1)) : Pushing e := by
  intro s _
  rw [he, ensures_emit]
  exact (Pushes.op s (.literal v)).imp fun code h => hAt code _ _ h

theorem pushing_name (n : String) : Pushing (.name n) := by
  intro s hn
  obtain ⟨slot, hslot, hres⟩ := ScopeStack.resolve_visible hn
  rw [expr, ensures_bind, ensures_resolve, hres, ensures_emit]
  exact (Pushes.op s (.load (.local n slot))).imp fun code h => ⟨slot, hslot, h, rfl⟩

theorem pushing_paren {e : Expr} (he : Pushing e) : Pushing (.paren e) := by
  intro s hp
  rw [expr]
  simp only [ensures_bind]
  refine pushes_scalar he hp fun c s₁ h₁ => ?_
  rw [ensures_pure, List.append_nil]
  exact h₁

theorem pushing_unary {op : UnaryOp} {e : Expr} (he : Pushing e) : Pushing (.unary op e) := by
  intro s hp
  simp only [expr, ensures_bind]
  refine pushes_scalar he hp fun c s₁ h₁ => ?_
  rw [ensures_emit, ensures_pure, List.append_nil]
  have hop : Pushes s₁ [⟨op.opCode, s₁.span⟩] { s₁ with address := s₁.address + 1 } _ :=
    Pushes.op s₁ op.opCode
  have hall := (h₁.seq hop).imp fun code h =>
    show (Expr.unary op e).At code s.scopes.visible s.address (s₁.address + 1) from
      ⟨s₁.address, h.1, h.2, rfl⟩
  cases op <;> exact hall

theorem pushing_binary {op : BinaryOp} {left right : Expr} (hl : Pushing left)
    (hr : Pushing right) : Pushing (.binary op left right) := by
  intro s hp
  rw [expr]
  simp only [ensures_bind]
  refine pushes_scalar hl hp.1 fun l s₁ h₁ => ?_
  have hnames : s₁.names = s.names := by rw [Site.names, h₁.scopes, Site.names]
  refine pushes_scalar hr (hnames ▸ hp.2) fun r s₂ h₂ => ?_
  rw [ensures_emit, ensures_pure, List.append_nil, List.append_nil]
  refine ((h₁.seq h₂).seq (Pushes.op s₂ (.binary op))).imp ?_
  rintro code ⟨⟨hleft, hright⟩, hop⟩
  rw [h₁.scopes] at hright
  exact ⟨s₁.address, s₂.address, hleft, hright, hop, rfl⟩

theorem pushing_logical {op : LogicalOp} {left right : Expr} (hl : Pushing left)
    (hr : Pushing right) : Pushing (.logical op left right) := by
  intro s hp
  rw [expr]
  simp only [ensures_bind]
  refine pushes_scalar hl hp.1 fun l s₁ h₁ => ?_
  rw [ensures_reserve]
  have hnames : s₁.names = s.names := by rw [Site.names, h₁.scopes, Site.names]
  refine pushes_scalar (s := { s₁ with address := s₁.address + 1 }) hr (hnames ▸ hp.2)
    fun r s₂ h₂ => ?_
  rw [ensures_here, ensures_pure]
  have hjump : Pushes s₁ [⟨op.opCode s₂.address, s₁.span⟩] { s₁ with address := s₁.address + 1 } _ :=
    Pushes.op s₁ (op.opCode s₂.address)
  have hall := ((h₁.seq hjump).seq h₂).imp fun code h =>
    show (Expr.logical op left right).At code s.scopes.visible s.address s₂.address from
      ⟨s₁.address, h.1.1, h.1.2, by simpa only [h₁.scopes] using h.2⟩
  simp only [List.append_nil]
  cases op <;> exact hall

theorem pushing_expr : ∀ e : Expr, Pushing e
  | .nil => pushing_literal (by rw [expr]) fun _ _ _ h => ⟨h, rfl⟩
  | .boolean b => pushing_literal (by rw [expr]) fun _ _ _ h => ⟨h, rfl⟩
  | .number n => pushing_literal (by rw [expr]) fun _ _ _ h => ⟨h, rfl⟩
  | .string s => pushing_literal (by rw [expr]) fun _ _ _ h => ⟨h, rfl⟩
  | .name n => pushing_name n
  | .paren e => pushing_paren (pushing_expr e)
  | .unary _ e => pushing_unary (pushing_expr e)
  | .binary _ left right => pushing_binary (pushing_expr left) (pushing_expr right)
  | .logical _ left right => pushing_logical (pushing_expr left) (pushing_expr right)
  | .varargs | .function _ | .table _ | .index .. | .call .. | .methodCall .. => fun _ h => h.elim

/-- Several expressions, none of which is cut down. -/
theorem pushes_exprs : ∀ (es : List Expr) (s : Site), (∀ e ∈ es, e.Plain s.names) →
    (exprs es).Ensures s fun c s' => Pushes s c s' fun code =>
      Expr.AllAt code s.scopes.visible es s.address s'.address
  | [], s, _ => by
    rw [exprs, ensures_pure]
    exact (Pushes.nil s).imp fun code _ => rfl
  | [e], s, hp => by
    rw [exprs]
    refine (pushing_expr e s (hp e List.mem_cons_self)).mono fun c s₁ h₁ => ?_
    exact h₁.imp fun code h => ⟨s₁.address, h, rfl⟩
  | e :: e' :: rest, s, hp => by
    rw [exprs]
    simp only [ensures_bind]
    refine pushes_scalar (pushing_expr e) (hp e List.mem_cons_self) fun c s₁ h₁ => ?_
    have hnames : s₁.names = s.names := by rw [Site.names, h₁.scopes, Site.names]
    refine (pushes_exprs (e' :: rest) s₁ ?_).mono fun cs s₂ h₂ => ?_
    · intro x hx
      rw [hnames]
      exact hp x (List.mem_cons_of_mem e hx)
    · rw [ensures_pure, List.append_nil]
      refine (h₁.seq h₂).imp ?_
      rintro code ⟨hfirst, hrest⟩
      rw [h₁.scopes] at hrest
      exact ⟨s₁.address, hfirst, hrest⟩

end Gen

/-! ## Statements -/

/-- A piece after which certain names are visible, with a property of what holds it. -/
structure Settles (s : Site) (c : Code) (breaks : List Nat) (names : List String) (s' : Site)
    (P : Listing → Option Nat → Prop) : Prop where
  makes : Makes s.address c breaks s'.address P
  notes : Notes s breaks s'
  declares : ∃ new, s.scopes.Declares new s'.scopes ∧ new.map (·.1) ++ s.names = names

namespace Settles

variable {s s' t : Site} {c : Code} {breaks : List Nat} {names : List String}
  {P Q : Listing → Option Nat → Prop}

theorem imp (h : Settles s c breaks names s' P) (hPQ : ∀ code target, P code target → Q code target) :
    Settles s c breaks names s' Q :=
  ⟨h.makes.imp hPQ, h.notes, h.declares⟩

theorem opened (h : Settles s c breaks names s' P) : s'.scopes.Opened := by
  obtain ⟨new, hnew, -⟩ := h.declares
  exact hnew.opened

theorem names_eq (h : Settles s c breaks names s' P) : s'.names = names := by
  obtain ⟨new, hnew, rfl⟩ := h.declares
  rw [Site.names, hnew.visible, List.map_append, Site.names]

/-- Nothing is declared. -/
theorem of_declares (hm : Makes s.address c breaks s'.address P) (hn : Notes s breaks s')
    (hd : s.scopes.Declares [] s'.scopes) : Settles s c breaks s.names s' P :=
  ⟨hm, hn, [], hd, rfl⟩

end Settles

namespace Gen

variable {s : Site}

/-- The code of a statement at a site lies there. -/
def Settling (st : Stat) : Prop :=
  ∀ s : Site, s.scopes.Opened → st.Plain s.names → (stat st).Ensures s fun c s' =>
    ∃ breaks, Settles s c breaks (st.namesAfter s.names) s' fun code target =>
      st.At code target s.scopes.visible s.scopes.nextSlot s.address s'.address s'.scopes.visible
        s'.scopes.nextSlot

/-- The code of a block at a site lies there. -/
def BlockSettling (body : List Stat) : Prop :=
  ∀ s : Site, s.scopes.Opened → Block.Plain s.names body → (block body).Ensures s fun c s' =>
    ∃ breaks, Settles s c breaks (Block.namesAfter s.names body) s' fun code target =>
      Block.At code target body s.scopes.visible s.scopes.nextSlot s.address s'.address
        s'.scopes.visible s'.scopes.nextSlot

/-- The code of the clauses of an `if` lies where it should, once the jumps to the end are redirected
to it. -/
def ClausesSettling (branches : Branches) : Prop :=
  ∀ s : Site, s.scopes.Opened → branches.Plain s.names → (clauses branches).Ensures s fun p s' =>
    ∃ breaks, Notes s breaks s' ∧ s.scopes.Declares [] s'.scopes ∧
      (∀ x ∈ p.2, s.address ≤ x ∧ x < s'.address) ∧
      ∀ exit, Makes s.address (patch p.2 exit s.address p.1) breaks s'.address fun code target =>
        branches.At code target s.scopes.visible s.scopes.nextSlot s.address s'.address exit
          s'.scopes.nextSlot

theorem pushes_bindNames : ∀ (names : List String) (i : Nat) (s : Site), s.scopes.Opened →
    (bindNames names i).Ensures s fun c s' =>
      Makes s.address c [] s'.address (fun code _ =>
        BindsAt code s.scopes.nextSlot i names s.address s'.address) ∧
      s'.loops = s.loops ∧
      ∃ new, s.scopes.Declares new s'.scopes ∧ new.map (·.1) = names.reverse ∧
        new ++ s.scopes.visible = s.scopes.visible.declare s.scopes.nextSlot names ∧
        s'.scopes.nextSlot = s.scopes.nextSlot + names.length
  | [], i, s, hs => by
    rw [bindNames, ensures_pure]
    exact ⟨(Makes.nil _).imp fun _ _ _ => rfl, rfl, [], .refl hs, rfl, rfl, rfl⟩
  | name :: names, i, s, hs => by
    rw [bindNames]
    simp only [ensures_bind, ensures_declare, ensures_emit]
    have hd := hs.declares_declare name
    have hslot := ScopeStack.nextSlot_declare hs name
    refine (pushes_bindNames names (i + 1)
      { s with scopes := s.scopes.declare name, address := s.address + 1 } hd.opened).mono ?_
    rintro cs s' ⟨hm, hl, new, hnew, hnames, hvis, hnext⟩
    rw [ensures_pure]
    refine ⟨?_, hl, new ++ [(name, s.scopes.nextSlot)], hd.trans hnew, ?_, ?_, ?_⟩
    · refine ((Makes.op _ _ s.span).append hm).imp fun code _ h => ?_
      exact ⟨h.1, by simpa only [hslot] using h.2⟩
    · simp [hnames]
    · simp only [hd.visible, hslot] at hvis
      simpa [Visible.declare] using hvis
    · rw [hnext, hslot, List.length_cons]
      omega

theorem settling_local {names : List String} {values : List Expr} {extent : Extent} :
    Settling (.local names values extent) := by
  intro s hs hp
  rw [stat]
  simp only [ensures_bind]
  rw [ensures_markExtent]
  refine (pushes_exprs values (s.marked _) hp).mono fun vs s₁ h₁ => ?_
  rw [ensures_emit]
  have hscopes : s₁.scopes = s.scopes := h₁.scopes
  refine (pushes_bindNames names 0 { s₁ with address := s₁.address + 1 } (hscopes ▸ hs)).mono ?_
  rintro binds s₂ ⟨hm, hl, new, hnew, hnames, hvis, hnext⟩
  simp only [hscopes] at hm hnew hvis hnext
  rw [ensures_emit, ensures_pure]
  refine ⟨[], ?_, .of_eq (hl.trans h₁.loops), new, hnew, by simp [hnames, Stat.namesAfter]⟩
  have hall := ((h₁.makes.append (.op _ (.makeTuple values.length) s₁.span)).append hm).append
    (.op _ (.pop 1) s₂.span)
  refine hall.imp ?_
  rintro code target ⟨⟨⟨hvs, htuple⟩, hbinds⟩, hpop⟩
  exact ⟨s₁.address, s₂.address, hvs, htuple, hbinds, hpop, rfl, hnew.visible.trans hvis, hnext⟩

theorem pushes_assignTo : ∀ (targets : List Expr) (i : Nat) (s : Site),
    (∀ e ∈ targets, e.PlainTarget s.names) → (assignTo targets i).Ensures s fun c s' =>
      Pushes s c s' fun code => StoresAt code s.scopes.visible i targets s.address s'.address
  | [], i, s, _ => by
    rw [assignTo, ensures_pure]
    exact (Pushes.nil s).imp fun code _ => rfl
  | e :: rest, i, s, hp => by
    have he := hp e List.mem_cons_self
    cases e with
    | name n =>
      obtain ⟨slot, hslot, hres⟩ := ScopeStack.resolve_visible he
      rw [assignTo]
      simp only [ensures_bind, ensures_resolve, hres, ensures_emit]
      refine (pushes_assignTo rest (i + 1) { s with address := s.address + 1 } fun e' he' =>
        hp e' (List.mem_cons_of_mem _ he')).mono fun cs s' h => ?_
      rw [ensures_pure]
      exact ((Pushes.op s (.store (.local n slot) i)).seq h).imp fun code h =>
        ⟨slot, hslot, h.1, h.2⟩
    | _ => exact he.elim

theorem settling_assign {targets values : List Expr} {extent : Extent} :
    Settling (.assign targets values extent) := by
  intro s hs hp
  rw [stat]
  simp only [ensures_bind]
  rw [ensures_markExtent]
  refine (pushes_exprs values (s.marked _) hp.2).mono fun vs s₁ h₁ => ?_
  rw [ensures_emit]
  have hscopes : s₁.scopes = s.scopes := h₁.scopes
  have hnames : s₁.names = s.names := by rw [Site.names, hscopes, Site.names]
  refine (pushes_assignTo targets 0 { s₁ with address := s₁.address + 1 } ?_).mono
    fun stores s₂ h₂ => ?_
  · exact fun e he => hnames ▸ hp.1 e he
  · have hscopes₂ : s₂.scopes = s.scopes := h₂.scopes.trans hscopes
    have hdeclares : s.scopes.Declares [] s₂.scopes := by
      rw [hscopes₂]
      exact .refl hs
    rw [ensures_emit, ensures_pure]
    refine ⟨[], .of_declares ?_ (.of_eq (h₂.loops.trans h₁.loops)) hdeclares⟩
    have hall := ((h₁.makes.append (.op _ (.makeTuple values.length) s₁.span)).append
      h₂.makes).append (.op _ (.pop 1) s₂.span)
    refine hall.imp ?_
    rintro code target ⟨⟨⟨hvs, htuple⟩, hstores⟩, hpop⟩
    simp only [hscopes] at hstores
    simp only [hscopes₂]
    exact ⟨s₁.address, s₂.address, hvs, htuple, hstores, hpop, rfl, rfl, rfl⟩

theorem settling_return {values : List Expr} {extent : Extent} :
    Settling (.return values extent) := by
  intro s hs hp
  rw [stat]
  simp only [ensures_bind]
  rw [ensures_markExtent]
  refine (pushes_exprs values (s.marked _) hp).mono fun vs s₁ h₁ => ?_
  have hscopes : s₁.scopes = s.scopes := h₁.scopes
  have hdeclares : s.scopes.Declares [] s₁.scopes := by
    rw [hscopes]
    exact .refl hs
  cases values with
  | nil =>
    simp only [ensures_bind]
    rw [ensures_emit, ensures_pure]
    refine ⟨[], .of_declares ?_ (.of_eq h₁.loops) hdeclares⟩
    refine (h₁.makes.append (.op _ (.ret 0) s₁.span)).imp fun code target h => ?_
    exact ⟨s₁.address, h.1, ⟨h.2, rfl⟩, congrArg _ hscopes, congrArg _ hscopes⟩
  | cons e es =>
    cases es with
    | nil =>
      simp only [ensures_bind]
      rw [ensures_emit, ensures_pure]
      refine ⟨[], .of_declares ?_ (.of_eq h₁.loops) hdeclares⟩
      refine (h₁.makes.append (.op _ (.ret 1) s₁.span)).imp fun code target h => ?_
      exact ⟨s₁.address, h.1, ⟨h.2, rfl⟩, congrArg _ hscopes, congrArg _ hscopes⟩
    | cons e' es =>
      simp only [ensures_bind]
      rw [ensures_emit, ensures_emit, ensures_pure]
      refine ⟨[], .of_declares ?_ (.of_eq h₁.loops) hdeclares⟩
      have hall := (h₁.makes.append (.op _ (.makeTuple (e :: e' :: es).length) s₁.span)).append
        (.op _ (.ret 1) s₁.span)
      refine hall.imp fun code target h => ?_
      exact ⟨s₁.address, h.1.1, ⟨h.1.2, h.2, rfl⟩, congrArg _ hscopes, congrArg _ hscopes⟩

theorem settling_break {extent : Extent} : Settling (.break extent) := by
  intro s hs _
  rw [stat]
  simp only [ensures_bind]
  rw [ensures_markExtent, ensures_reserve, ensures_get]
  cases hl : s.loops with
  | nil =>
    simp only [Site.marked_loops, hl]
    rw [ensures_throw]
    trivial
  | cons breaks outer =>
    simp only [Site.marked_loops, hl, ensures_bind]
    rw [ensures_set, ensures_pure]
    refine ⟨[s.address], .of_declares ?_ ⟨by rw [hl]; rfl, by simp [hl]⟩ (.refl hs)⟩
    exact (Makes.hole s.address _).imp fun code target h => ⟨h, rfl, rfl, rfl⟩

/-- The body of a statement is a block of its own. -/
theorem ensures_body {body : List Stat} (hbody : BlockSettling body) (hs : s.scopes.Opened)
    (hp : Block.Plain s.names body) {Q : Code → Site → Prop}
    (hQ : ∀ c breaks s' vis', Makes s.address c breaks s'.address (fun code target =>
        Block.At code target body s.scopes.visible s.scopes.nextSlot s.address s'.address vis'
          s'.scopes.nextSlot) →
      Notes s breaks s' → s.scopes.Declares [] s'.scopes → Q c s') :
    (modifyScopes (·.pushBlock)).Ensures s fun _ s₁ => (block body).Ensures s₁ fun c s₂ =>
      (modifyScopes (·.popBlock)).Ensures s₂ fun _ s' => Q c s' := by
  rw [ensures_modifyScopes]
  have hnames : Site.names { s with scopes := s.scopes.pushBlock } = s.names := by
    rw [Site.names, ScopeStack.visible_pushBlock hs, Site.names]
  refine (hbody { s with scopes := s.scopes.pushBlock } hs.pushBlock (hnames.symm ▸ hp)).mono ?_
  rintro c s' ⟨breaks, h⟩
  rw [ensures_modifyScopes]
  obtain ⟨new, hnew, -⟩ := h.declares
  have hm := h.makes
  simp only [ScopeStack.visible_pushBlock hs, ScopeStack.nextSlot_pushBlock hs] at hm
  rw [← ScopeStack.nextSlot_popBlock h.opened] at hm
  exact hQ c breaks _ s'.scopes.visible hm ⟨h.notes.loops, h.notes.inLoop⟩ (hnew.leave hs)

theorem settling_do {body : List Stat} {extent : Extent} (hbody : BlockSettling body) :
    Settling (.do body extent) := by
  intro s hs hp
  rw [stat]
  simp only [ensures_bind]
  rw [ensures_markExtent]
  refine ensures_body (s := s.marked _) hbody hs hp fun c breaks s₁ vis₁ hm hn hd => ?_
  rw [ensures_pure]
  refine ⟨breaks, .of_declares (hm.imp fun code target h => ?_) (hn.congr_left rfl) hd⟩
  exact ⟨⟨vis₁, h⟩, by simpa using hd.visible⟩

theorem settling_while {condition : Expr} {body : List Stat} {extent closing : Extent}
    (hbody : BlockSettling body) : Settling (.while condition body extent closing) := by
  intro s hs hp
  rw [stat]
  simp only [ensures_bind]
  rw [ensures_markExtent, ensures_here]
  refine pushes_scalar (s := s.marked _) (pushing_expr condition) hp.1 fun test s₁ h₁ => ?_
  rw [ensures_reserve, ensures_pushLoop]
  have hscopes : s₁.scopes = s.scopes := h₁.scopes
  have hnames : s₁.names = s.names := by rw [Site.names, hscopes, Site.names]
  refine ensures_body (s := { s₁ with address := s₁.address + 1, loops := [] :: s₁.loops }) hbody
    (hscopes ▸ hs) (hnames ▸ hp.2) fun inner breaks s₂ vis₂ hm hn hd => ?_
  simp only [hscopes] at hm hd
  rw [ensures_markExtent, ensures_emit, ensures_here, ensures_popLoop, ensures_pure]
  obtain ⟨hhead, htail⟩ := hn.closeLoop rfl
  simp only [Site.marked_loops, hhead, htail, List.append_nil]
  refine ⟨[], .of_declares ?_ (.of_eq h₁.loops) hd⟩
  have hall := ((h₁.makes.append (.op _ (.jumpIfFalse (s₂.address + 1)) s₁.span)).append hm).append
    (.op _ (.jump s.address) (s₂.marked (s₂.spanOf closing)).span)
  have hloop := hall.patch (s₂.address + 1)
  simp only [List.append_nil, List.nil_append] at hloop
  refine hloop.imp ?_
  rintro code target ⟨⟨⟨htest, hleave⟩, hinner⟩, hback⟩
  exact ⟨s₁.address, s₂.address, vis₂, htest, hleave, hinner, hback, rfl, hd.visible⟩

theorem settling_repeat {body : List Stat} {condition : Expr} {extent : Extent}
    (hbody : BlockSettling body) : Settling (.repeat body condition extent) := by
  intro s hs hp
  rw [stat]
  simp only [ensures_bind]
  rw [ensures_markExtent, ensures_here, ensures_pushLoop, ensures_modifyScopes]
  simp only [Site.marked_address, Site.marked_scopes, Site.marked_loops]
  have hnames : Site.names { s with scopes := s.scopes.pushBlock } = s.names := by
    rw [Site.names, ScopeStack.visible_pushBlock hs, Site.names]
  refine (hbody { s.marked (s.spanOf extent) with
    loops := [] :: s.loops, scopes := s.scopes.pushBlock } hs.pushBlock (hnames.symm ▸ hp.1)).mono ?_
  rintro inner s₁ ⟨breaks, h₁⟩
  obtain ⟨new, hnew, -⟩ := h₁.declares
  obtain ⟨hhead, htail⟩ := h₁.notes.closeLoop rfl
  have hm := h₁.makes
  simp only [ScopeStack.visible_pushBlock hs, ScopeStack.nextSlot_pushBlock hs] at hm
  -- the condition sees the names of the body
  rw [ensures_markExtent]
  have hnames₁ : s₁.names = Block.namesAfter s.names body := by
    rw [h₁.names_eq]
    exact congrArg (Block.namesAfter · body) hnames
  refine pushes_scalar (s := s₁.marked _) (pushing_expr condition) (hnames₁ ▸ hp.2)
    fun test s₂ h₂ => ?_
  have hscopes : s₂.scopes = s₁.scopes := h₂.scopes
  simp only [ensures_emit, ensures_modifyScopes, ensures_here, ensures_popLoop, ensures_pure]
  rw [show s₂.loops = s₁.loops from h₂.loops, hhead, htail]
  have hd : s.scopes.Declares [] s₂.scopes.popBlock := hscopes ▸ hnew.leave hs
  refine ⟨[], .of_declares ?_ (.of_eq rfl) hd⟩
  have hall := (hm.append h₂.makes).append (.op _ (.jumpIfFalse s.address) s₂.span)
  have hloop := hall.patch (s₂.address + 1)
  simp only [List.append_nil, List.nil_append] at hloop ⊢
  refine hloop.imp ?_
  rintro code target ⟨⟨hinner, htest⟩, hagain⟩
  refine ⟨s₁.address, s₂.address, s₁.scopes.visible, ?_, htest, hagain, rfl, hd.visible⟩
  rw [ScopeStack.nextSlot_popBlock (hscopes ▸ hnew.opened), hscopes]
  exact hinner

theorem settling_numericFor {var : String} {first limit step : Expr} {body : List Stat}
    {extent closing : Extent} (hbody : BlockSettling body) :
    Settling (.numericFor var first limit step body extent closing) := by
  intro s hs hp
  obtain ⟨hfirst, hlimit, hstep, hplain⟩ := hp
  rw [stat]
  simp only [ensures_bind]
  rw [ensures_markExtent]
  refine pushes_scalar (s := s.marked _) (pushing_expr first) hfirst fun a s₁ h₁ => ?_
  have hscopes₁ : s₁.scopes = s.scopes := h₁.scopes
  have hnames₁ : s₁.names = s.names := by rw [Site.names, hscopes₁, Site.names]
  refine pushes_scalar (pushing_expr limit) (hnames₁ ▸ hlimit) fun b s₂ h₂ => ?_
  have hscopes₂ : s₂.scopes = s.scopes := h₂.scopes.trans hscopes₁
  have hnames₂ : s₂.names = s.names := by rw [Site.names, hscopes₂, Site.names]
  refine pushes_scalar (pushing_expr step) (hnames₂ ▸ hstep) fun c s₃ h₃ => ?_
  have hscopes₃ : s₃.scopes = s.scopes := h₃.scopes.trans hscopes₂
  simp only [ensures_emit, ensures_reserve, ensures_pushLoop, ensures_modifyScopes, ensures_declare]
  -- the body sees the variable of the loop
  have hd₀ := hs.pushBlock.declares_declare var
  have hvis₀ : (s.scopes.pushBlock.declare var).visible =
      (var, s.scopes.nextSlot) :: s.scopes.visible := by
    rw [hd₀.visible, ScopeStack.visible_pushBlock hs, ScopeStack.nextSlot_pushBlock hs]
    rfl
  have hslot₀ : (s.scopes.pushBlock.declare var).nextSlot = s.scopes.nextSlot + 1 := by
    rw [ScopeStack.nextSlot_declare hs.pushBlock, ScopeStack.nextSlot_pushBlock hs]
  simp only [hscopes₃, ScopeStack.nextSlot_pushBlock hs]
  refine (hbody { s₃ with
    address := s₃.address + 1 + 1 + 1, loops := [] :: s₃.loops,
    scopes := s.scopes.pushBlock.declare var } hd₀.opened ?_).mono ?_
  · rw [Site.names, hvis₀]
    exact hplain
  rintro inner s₄ ⟨breaks, h₄⟩
  obtain ⟨new, hnew, -⟩ := h₄.declares
  obtain ⟨hhead, htail⟩ := h₄.notes.closeLoop rfl
  have hm := h₄.makes
  simp only [hvis₀, hslot₀] at hm
  simp only [ensures_markExtent, ensures_here, ensures_popLoop, ensures_pure, Site.marked_loops,
    Site.marked_address, Site.marked_scopes, hhead, htail]
  have hd : s.scopes.Declares [] s₄.scopes.popBlock := (hd₀.trans hnew).leave hs
  refine ⟨[], .of_declares ?_ (.of_eq (h₃.loops.trans (h₂.loops.trans h₁.loops))) hd⟩
  have hall := fun span : Option Span =>
    (((h₁.makes.append h₂.makes).append h₃.makes).append (.op _ .forPrep s₃.span)).append
      ((((((Makes.op (s₃.address + 1) (.forLoop (s₄.address + 1 + 1)) s₃.span).append
        (.op _ (.forVar s.scopes.nextSlot) s₃.span)).append hm).append
        (.op _ .forStep span)).append
        (.op _ (.jump (s₃.address + 1)) span)).patch (s₄.address + 1 + 1) |>.append
      (.op _ (.pop 3) span))
  simp only [List.append_nil, List.nil_append, List.append_assoc] at hall ⊢
  refine (hall _).imp ?_
  rintro code target ⟨⟨⟨⟨ha, hb⟩, hc⟩, hprep⟩, ⟨⟨⟨⟨hloop, hvar⟩, hinner⟩, hstep⟩, hback⟩, hdrop⟩
  rw [hscopes₁] at hb
  rw [hscopes₂] at hc
  rw [ScopeStack.nextSlot_popBlock hnew.opened]
  exact ⟨s₁.address, s₂.address, s₃.address, s₄.address, s₄.scopes.visible, ha, hb, hc, hprep, hloop,
    hvar, hinner, hstep, hback, hdrop, rfl, hd.visible⟩

/-! ## Conditions -/

theorem clausesSettling_done : ClausesSettling .done := by
  intro s hs _
  rw [clauses, ensures_pure]
  exact ⟨[], .of_eq rfl, .refl hs, by simp, fun exit => (Makes.nil _).imp fun _ _ _ => ⟨rfl, rfl⟩⟩

theorem clausesSettling_otherwise {body : List Stat} (hbody : BlockSettling body) :
    ClausesSettling (.otherwise body) := by
  intro s hs hp
  rw [clauses]
  simp only [ensures_bind]
  refine ensures_body hbody hs hp fun c breaks s₁ vis₁ hm hn hd => ?_
  rw [ensures_pure]
  refine ⟨breaks, hn, hd, by simp, fun exit => ?_⟩
  rw [patch_of_outside exit (by simp)]
  exact hm.imp fun code target h => ⟨vis₁, h⟩

/-- The last clause goes behind its own block if its condition fails. -/
theorem clausesSettling_last {condition : Expr} {body : List Stat} {header : Extent}
    (hbody : BlockSettling body) : ClausesSettling (.clause condition body header .done) := by
  intro s hs hp
  simp only [clauses, ensures_bind]
  rw [ensures_markExtent]
  refine pushes_scalar (s := s.marked _) (pushing_expr condition) hp.1 fun test s₁ h₁ => ?_
  rw [ensures_reserve]
  have hscopes : s₁.scopes = s.scopes := h₁.scopes
  have hnames : s₁.names = s.names := by rw [Site.names, hscopes, Site.names]
  refine ensures_body (s := { s₁ with address := s₁.address + 1 }) hbody (hscopes ▸ hs)
    (hnames ▸ hp.2.1) fun inner breaks s₂ vis₂ hm hn hd => ?_
  rw [ensures_here, ensures_pure]
  simp only [hscopes] at hm hd
  refine ⟨breaks, hn.congr_left h₁.loops.symm, hd, by simp, fun exit => ?_⟩
  rw [patch_of_outside exit (by simp), List.append_nil]
  have hall := (h₁.makes.append (.op _ (.jumpIfFalse s₂.address) s₁.span)).append hm
  simp only [List.append_nil] at hall
  refine hall.imp fun code target h => ?_
  exact ⟨s₁.address, s₂.address, vis₂, s₂.scopes.nextSlot, h.1.1, h.2, .inl ⟨rfl, h.1.2, rfl, rfl⟩⟩

/-- A clause with others behind it goes on to them if its condition fails, and else jumps over
them. -/
theorem clausesSettling_clause {condition : Expr} {body : List Stat} {header : Extent}
    {rest : Branches} (hrest : rest ≠ .done) (hbody : BlockSettling body)
    (hr : ClausesSettling rest) : ClausesSettling (.clause condition body header rest) := by
  intro s hs hp
  simp only [clauses, ensures_bind]
  rw [ensures_markExtent]
  refine pushes_scalar (s := s.marked _) (pushing_expr condition) hp.1 fun test s₁ h₁ => ?_
  rw [ensures_reserve]
  have hscopes : s₁.scopes = s.scopes := h₁.scopes
  have hnames : s₁.names = s.names := by rw [Site.names, hscopes, Site.names]
  refine ensures_body (s := { s₁ with address := s₁.address + 1 }) hbody (hscopes ▸ hs)
    (hnames ▸ hp.2.1) fun inner b₁ s₂ vis₂ hm hn hd => ?_
  simp only [hscopes] at hm hd
  rw [ensures_reserve, ensures_here]
  have hvis₂ : s₂.scopes.visible = s.scopes.visible := hd.visible
  have hnames₂ : s₂.names = s.names := by rw [Site.names, hvis₂, Site.names]
  refine (hr { s₂ with address := s₂.address + 1 } hd.opened (hnames₂.symm ▸ hp.2.2)).mono ?_
  rintro ⟨code₃, exits⟩ s₃ ⟨b₂, hn₃, hd₃, hwithin, hm₃⟩
  rw [ensures_pure]
  simp only [hvis₂] at hm₃ hwithin
  -- the jump over the other clauses lies between them and all else
  have hfront := (h₁.makes.append (.op _ (.jumpIfFalse (s₂.address + 1)) s₁.span)).append hm
  have hlo := hfront.stop_eq
  refine ⟨b₂ ++ b₁, ?_, hd.trans hd₃, ?_, fun exit => ?_⟩
  · exact (hn.trans (hn₃.congr_left rfl)).congr_left h₁.loops.symm
  · have hhi := (hm₃ 0).stop_eq
    simp only [Site.marked_address] at hlo
    intro x hx
    rcases List.mem_cons.1 hx with rfl | hx
    · omega
    · have := hwithin x hx
      omega
  · have hall := ((hfront.append (.op _ (.jump exit) s₂.span)).append (hm₃ exit)).imp
      (Q := fun code target => Branches.At code target (.clause condition body header rest)
        s.scopes.visible s.scopes.nextSlot s.address s₃.address exit s₃.scopes.nextSlot)
      fun code target h => ⟨s₁.address, s₂.address, vis₂, s₂.scopes.nextSlot, h.1.1.1.1, h.1.1.2,
        .inr ⟨h.1.1.1.2, h.1.2, h.2⟩⟩
    simp only [Site.marked_address] at hlo hall
    have hpatch : patch (s₂.address :: exits) exit s.address (_ ++ [⟨.jump 0, s₂.span⟩] ++ code₃) = _ :=
      patch_around exit hlo fun x hx => by
        have := hwithin x hx
        omega
    simpa only [fill, List.append_nil, List.nil_append, hpatch] using hall

theorem settling_if {branches : Branches} {extent : Extent} (hb : ClausesSettling branches) :
    Settling (.if branches extent) := by
  intro s hs hp
  rw [stat]
  simp only [ensures_bind]
  rw [ensures_markExtent, ensures_here]
  refine (hb (s.marked _) hs hp).mono ?_
  rintro p s₁ ⟨breaks, hn, hd, -, hm⟩
  rw [ensures_here, ensures_pure]
  refine ⟨breaks, .of_declares ((hm s₁.address).imp fun code target h => ?_) (hn.congr_left rfl) hd⟩
  exact ⟨h, hd.visible⟩

/-! ## The induction -/

theorem blockSettling_nil : BlockSettling [] := by
  intro s hs _
  rw [block, ensures_pure]
  refine ⟨[], .of_declares ((Makes.nil _).imp fun code target _ => ?_) (.of_eq rfl) (.refl hs)⟩
  exact ⟨rfl, rfl, rfl⟩

theorem blockSettling_cons {st : Stat} {rest : List Stat} (hst : Settling st)
    (hrest : BlockSettling rest) : BlockSettling (st :: rest) := by
  intro s hs hp
  rw [block]
  simp only [ensures_bind]
  refine (hst s hs hp.1).mono ?_
  rintro c₁ s₁ ⟨b₁, h₁⟩
  have hnames := h₁.names_eq
  refine (hrest s₁ h₁.opened (hnames.symm ▸ hp.2)).mono ?_
  rintro c₂ s₂ ⟨b₂, h₂⟩
  rw [ensures_pure]
  obtain ⟨new₁, hnew₁, hn₁⟩ := h₁.declares
  obtain ⟨new₂, hnew₂, hn₂⟩ := h₂.declares
  refine ⟨b₂ ++ b₁, (h₁.makes.append h₂.makes).imp fun code target h => ?_, h₁.notes.trans h₂.notes,
    new₂ ++ new₁, hnew₁.trans hnew₂, ?_⟩
  · exact ⟨s₁.address, s₁.scopes.visible, s₁.scopes.nextSlot, h.1, h.2⟩
  · rw [List.map_append, List.append_assoc, hn₁, ← hnames, hn₂, hnames]
    rfl

mutual

theorem settling_stat : ∀ st : Stat, Settling st
  | .local .. => settling_local
  | .assign .. => settling_assign
  | .do body _ => settling_do (settling_block body)
  | .while _ body _ _ => settling_while (settling_block body)
  | .repeat body _ _ => settling_repeat (settling_block body)
  | .if branches _ => settling_if (settling_clauses branches)
  | .numericFor _ _ _ _ body _ _ => settling_numericFor (settling_block body)
  | .return .. => settling_return
  | .break _ => settling_break
  | .call .. | .genericFor .. | .function .. | .localFunction .. => fun _ _ h => h.elim

theorem settling_block : ∀ body : List Stat, BlockSettling body
  | [] => blockSettling_nil
  | st :: rest => blockSettling_cons (settling_stat st) (settling_block rest)

theorem settling_clauses : ∀ branches : Branches, ClausesSettling branches
  | .done => clausesSettling_done
  | .otherwise body => clausesSettling_otherwise (settling_block body)
  | .clause _ body _ .done => clausesSettling_last (settling_block body)
  | .clause _ body _ (.otherwise last) =>
    clausesSettling_clause (by simp) (settling_block body) (settling_clauses (.otherwise last))
  | .clause _ body _ (.clause c b h rest) =>
    clausesSettling_clause (by simp) (settling_block body) (settling_clauses (.clause c b h rest))

end

/-- The code of a plain chunk lies where it should. -/
theorem chunkAt_chunk (name : String) (kind : HeaderKind) {body : Block} (hp : Block.Plain [] body)
    (env : Bool) (hscopes : s.scopes = .start env) (hl : s.loops = []) :
    (chunk name kind body).Ensures s fun c _ => ∀ code : Listing,
      (∀ x op, listing s.address c x = some op → code x = some op) →
        Block.ChunkAt code body s.address := by
  have hopened : s.scopes.Opened := by
    rw [hscopes]
    cases env <;> exact List.cons_ne_nil _ _
  have hvis : s.scopes.visible = [] := by
    rw [hscopes]
    cases env <;> rfl
  have hslot : s.scopes.nextSlot = 0 := by
    rw [hscopes]
    cases env <;> rfl
  have hnames : s.names = [] := by rw [Site.names, hvis, List.map_nil]
  simp only [chunk, ensures_bind, ensures_reserve, ensures_emit]
  refine (settling_block body { s with address := s.address + 1 + 1 + 1 } hopened
    (hnames.symm ▸ hp)).mono ?_
  rintro inner s₁ ⟨breaks, h₁⟩
  -- a chunk is in no loop
  obtain rfl : breaks = [] := h₁.notes.inLoop hl
  simp only [ensures_setSpan, ensures_get, ensures_here, ensures_pure]
  have hall := ((((Makes.op s.address (.header name kind (s₁.address + 1 - s.address)) s.span).append
    (.op _ (.beginFn s₁.scopes.current.locals) s.span)).append (.op _ (.args 0 true) s.span)).append
    h₁.makes).append (.op _ (.ret 0) none)
  simp only [hvis, hslot] at hall
  intro code hcode
  have hholds : Holds code (fun _ => none) s.address _ := hcode
  obtain ⟨⟨⟨⟨hheader, hbegin⟩, hargs⟩, hbody⟩, hret⟩ :=
    hall.unbroken (fun _ _ _ => rfl) hholds
  exact ⟨name, kind, _, _, s₁.address, s₁.scopes.visible, hheader, hbegin, hargs, hbody, hret⟩

end Gen

/-- The code of a plain source text lies where it should in whatever holds the segment that it was
compiled to. -/
theorem Segment.chunkAt_compile {s s' : Segment} {options : CompileOptions} {source : String}
    {chunk : CompiledChunk} {body : Block} (h : s.compile options source = .ok (chunk, s'))
    (hparse : Block.parse options.chunk source = .ok body) (hp : Block.Plain [] body)
    {code : Listing} (hcode : ∀ x op, s'.ops x = some op → code x = some op) :
    Block.ChunkAt code body chunk.entry := by
  obtain ⟨body', c, spans, hparse', hc, rfl, rfl⟩ := compile_eq_ok h
  rw [hparse] at hparse'
  cases hparse'
  unfold Block.compile at hc
  simp only [StateT.run] at hc
  split at hc
  · next hrun =>
    cases hc
    refine Gen.chunkAt_chunk options.chunk options.kind hp options.env rfl rfl _ _ hrun code ?_
    intro x op hx
    have hle : s.size ≤ x := (listing_bounds hx).1
    exact hcode x op ((ops_append_of_le hle).trans hx)
  · cases hc

end LuaMachine
