import LuaMachine.Proofs.Capture.Scopes
import LuaMachine.Proofs.Code.Statements

/-!
# The places of generated code

`Charts s course c added holes exits s'` says what the generator promises of a piece `c` made between
the sites `s` and `s'`: its addresses have places between those that the scopes of the two sites stand
for, and `added` is what it has declared. It is the counterpart of `Compiles` for places. The scopes
change as the course says, and each instruction has the place that they stand for when it is made
(`Place.Means`). What expressions and assignments make declares nothing and has no loose ends
(`Charting`).

There is one lemma for each construct, which assumes the promise for the parts. Statements follow in
the next module.
-/

namespace LuaMachine

/-- The declarations that are visible at a site, latest first. -/
abbrev Site.visible (s : Site) : Visible := s.scopes.current.visible

/-- A place is that of the innermost function of some scopes. -/
structure Place.Means (p : Place) (s : ScopeStack) : Prop where
  orderly : s.Orderly
  visible : p.visible = s.current.visible
  foretells : p.outline.Foretells s

/-- A piece of code made between two sites, with its places. At its holes the declarations are visible
that were so before it. -/
structure Charts (s : Site) (course : Course) (c : Code) (added : Visible) (holes : List Nat)
    (exits : List (Nat × Visible)) (s' : Site) : Prop where
  orderly : s'.scopes.Orderly
  opens : s.scopes.Opens s'.scopes added
  after : course.after s.scopes = s'.scopes
  address : s'.address = s.address + (course.notes s.scopes).length
  scopes : ∀ S U, Course.Noted S s.address (course.notes s.scopes) → U.Foretells s'.scopes →
    Scopes (fun x p => p.Means (S x)) U U s.address c s'.address s.visible s'.visible
      (holes.map (·, s.visible)) exits

namespace Charts

variable {s s₁ s₂ t : Site} {course course₁ course₂ : Course} {c c₁ c₂ : Code}
  {added added₁ added₂ : Visible}
  {holes holes₁ holes₂ : List Nat} {exits exits₁ exits₂ : List (Nat × Visible)}

theorem visible (h : Charts s course c added holes exits s₁) : s₁.visible = added ++ s.visible :=
  h.opens.visible

/-- A piece that declares nothing. -/
theorem visible_eq (h : Charts s course c [] holes exits s₁) : s₁.visible = s.visible := h.visible

theorem nil (hs : s.scopes.Orderly) : Charts s [] [] [] [] [] s :=
  ⟨hs, .refl hs, rfl, rfl, fun _ U _ _ => .nil _ U _ _⟩

/-- Pieces compose. -/
theorem seq (h₁ : Charts s course₁ c₁ added₁ holes₁ exits₁ s₁)
    (h₂ : Charts s₁ course₂ c₂ added₂ holes₂ exits₂ s₂) :
    Charts s (course₁ ++ course₂) (c₁ ++ c₂) (added₂ ++ added₁) (holes₁ ++ holes₂)
      (exits₁ ++ exits₂) s₂ := by
  have hnotes : (course₁ ++ course₂).notes s.scopes =
      course₁.notes s.scopes ++ course₂.notes s₁.scopes := by
    rw [Course.notes_append, h₁.after]
  refine ⟨h₂.orderly, h₁.opens.trans h₂.opens, ?_, ?_, fun S U hS hU => ?_⟩
  · rw [Course.after_append, h₁.after, h₂.after]
  · rw [hnotes, List.length_append, h₂.address, h₁.address, Nat.add_assoc]
  rw [hnotes] at hS
  have hfirst := h₁.scopes S U hS.left (h₂.opens.foretells hU)
  have hsecond : Scopes (fun x p => p.Means (S x)) U U s₁.address c₂ s₂.address s₁.visible s₂.visible
      (holes₂.map (·, s.visible)) exits₂ := by
    refine (h₂.scopes S U (h₁.address ▸ hS.right) hU).mono (List.suffix_refl _) (List.suffix_refl _)
      ?_ ?_
    · intro x Λ hx
      obtain ⟨a, ha, heq⟩ := List.mem_map.1 hx
      cases heq
      exact ⟨s₁.visible, List.mem_map_of_mem ha, h₁.visible ▸ List.suffix_append _ _⟩
    · intro x hx Λ hmem
      obtain ⟨a, ha, heq⟩ := List.mem_map.1 hmem
      cases heq
      exact hx _ (List.mem_map_of_mem ha)
  rw [List.map_append]
  exact hfirst.append hsecond (List.suffix_refl _)

/-- A site counts only by its address and its scopes. -/
theorem congr_left (h : Charts s course c added holes exits s₁) (ha : t.address = s.address)
    (hsc : t.scopes = s.scopes) : Charts t course c added holes exits s₁ := by
  refine ⟨h.orderly, hsc ▸ h.opens, hsc ▸ h.after, ?_, fun S U hS hU => ?_⟩
  · rw [ha, hsc]
    exact h.address
  · rw [ha, hsc] at hS
    rw [ha, Site.visible, hsc]
    exact h.scopes S U hS hU

theorem congr_right (h : Charts s course c added holes exits s₁) (ha : t.address = s₁.address)
    (hsc : t.scopes = s₁.scopes) : Charts s course c added holes exits t := by
  have hvisible : t.visible = s₁.visible := by rw [Site.visible, hsc]
  refine ⟨hsc ▸ h.orderly, hsc ▸ h.opens, hsc ▸ h.after, ha.trans h.address, fun S U hS hU => ?_⟩
  rw [ha, hvisible]
  exact h.scopes S U hS (hsc ▸ hU)

/-- Exits to the two ends of a piece, where no more is visible, are no loose ends. -/
theorem close (h : Charts s course c added holes exits s₁)
    (hex : ∀ y Λ, (y, Λ) ∈ exits →
      y = s.address ∧ s.visible <:+ Λ ∨ y = s₁.address ∧ s₁.visible <:+ Λ) :
    Charts s course c added holes [] s₁ := by
  refine ⟨h.orderly, h.opens, h.after, h.address, fun S U hS hU =>
    (h.scopes S U hS hU).close fun y Λ hy => ?_⟩
  exact (hex y Λ hy).imp_right .inl

/-- The order of the holes does not count. -/
theorem congr_holes (h : Charts s course c added holes exits s₁) (hh : ∀ a, a ∈ holes₁ ↔ a ∈ holes) :
    Charts s course c added holes₁ exits s₁ := by
  refine ⟨h.orderly, h.opens, h.after, h.address, fun S U hS hU =>
    (h.scopes S U hS hU).mono (List.suffix_refl _) (List.suffix_refl _) ?_ ?_⟩
  · intro x Λ hx
    obtain ⟨a, ha, heq⟩ := List.mem_map.1 hx
    cases heq
    exact ⟨s.visible, List.mem_map_of_mem ((hh x).1 ha), List.suffix_refl _⟩
  · intro x hx Λ hmem
    obtain ⟨a, ha, heq⟩ := List.mem_map.1 hmem
    cases heq
    exact hx _ (List.mem_map_of_mem ((hh x).2 ha))

/-- Redirecting holes to the end of a piece that declares nothing fills them. -/
theorem patch {a b : List Nat} (h : Charts s course c [] (a ++ b) exits s₁) :
    Charts s course (Gen.patch a s₁.address s.address c) [] b exits s₁ := by
  refine ⟨h.orderly, h.opens, h.after, h.address, fun S U hS hU => ?_⟩
  refine (h.scopes S U hS hU).patch (fun x hx => ?_) (fun p hp => ?_) fun p hp hnot => ?_
  · rw [h.visible_eq]
    exact List.mem_map_of_mem (List.mem_append_left _ hx)
  · rw [List.map_append]
    exact List.mem_append_right _ hp
  · obtain ⟨x, hx, rfl⟩ := List.mem_map.1 hp
    exact List.mem_map_of_mem ((List.mem_append.1 hx).resolve_left hnot)

/-- A loop: its exits lead to its ends, and its breaks are redirected to behind it. -/
theorem loop {breaks : List Nat} (h : Charts s course c [] breaks exits s₁)
    (hex : ∀ y Λ, (y, Λ) ∈ exits → (y = s.address ∨ y = s₁.address) ∧ s.visible <:+ Λ) :
    Charts s course (Gen.patch breaks s₁.address s.address c) [] [] [] s₁ := by
  refine patch (b := []) ?_
  rw [List.append_nil]
  refine h.close fun y Λ hy => ?_
  obtain ⟨hy | hy, hΛ⟩ := hex y Λ hy
  · exact .inl ⟨hy, hΛ⟩
  · exact .inr ⟨hy, h.visible_eq ▸ hΛ⟩

/-- A block is left: what was declared in it is visible no more. -/
theorem leaveBlock (h : Charts t course c added holes exits s₁) (hs : s.scopes.Orderly)
    (ha : t.address = s.address) (hsc : t.scopes = s.scopes.pushBlock)
    (ha₂ : s₂.address = s₁.address) (hsc₂ : s₂.scopes = s₁.scopes.popBlock) :
    Charts s (Course.pushBlock :: course ++ [Course.popBlock]) c [] holes exits s₂ := by
  obtain ⟨horderly, hopens⟩ := hs.leaveBlock h.orderly (hsc ▸ h.opens)
  have hvisible : t.visible = s.visible := by
    rw [Site.visible, hsc]
    exact hs.visible_pushBlock.1
  have hback : s₂.visible = s.visible := by
    rw [Site.visible, hsc₂]
    exact hopens.visible
  have hnotes : Course.notes s.scopes (Course.pushBlock :: course ++ [Course.popBlock]) =
      course.notes t.scopes := by
    rw [hsc, List.cons_append]
    change Course.notes s.scopes.pushBlock (course ++ [Course.popBlock]) = _
    rw [Course.notes_append]
    exact List.append_nil _
  refine ⟨hsc₂ ▸ horderly, hsc₂ ▸ hopens, ?_, ?_, fun S U hS hU => ?_⟩
  · rw [List.cons_append, hsc₂, ← h.after, hsc]
    exact Course.after_append s.scopes.pushBlock course [Course.popBlock]
  · rw [hnotes, ha₂, h.address, ha]
  rw [hnotes, ← ha] at hS
  have hscopes := h.scopes S U hS (h.orderly.foretells_popBlock (hsc₂ ▸ hU))
  rw [ha, hvisible] at hscopes
  rw [ha₂, hback]
  refine hscopes.mono (List.suffix_refl _) ?_ (fun x Λ hx => ⟨Λ, hx, List.suffix_refl _⟩)
    fun x hx => hx
  rw [h.visible, hvisible]
  exact List.suffix_append _ _

/-- In the course of a compilation one instruction is made, with some scopes that declare as much as there
was before; behind it more may be declared. -/
structure Makes (s : Site) (course : Course) (scopes : ScopeStack) (t : Site) (added : Visible) :
    Prop where
  notes : course.notes s.scopes = [scopes]
  after : course.after s.scopes = t.scopes
  before : s.scopes.Opens scopes []
  behind : scopes.Opens t.scopes added
  made : scopes.Orderly
  orderly : t.scopes.Orderly

namespace Makes

variable {scopes : ScopeStack}

theorem opens (h : Makes s course scopes t added) : s.scopes.Opens t.scopes added := by
  have hopens := h.before.trans h.behind
  rwa [List.append_nil] at hopens

/-- The instruction has the place that the scopes stand for. -/
theorem means {S : Nat → ScopeStack} {U : Outline} (h : Makes s course scopes t added)
    (hS : Course.Noted S s.address (course.notes s.scopes)) (hU : U.Foretells t.scopes) :
    (Place.mk U s.visible).Means (S s.address) := by
  rw [h.notes] at hS
  rw [show S s.address = scopes from hS 0 scopes rfl]
  exact ⟨h.made, h.before.visible.symm, h.behind.foretells hU⟩

/-- The scopes stay as they are. -/
theorem same (hs : s.scopes.Orderly) (ht : t.scopes = s.scopes) :
    Makes s [.instruction] s.scopes t [] := by
  refine ⟨rfl, ht.symm, .refl hs, ?_, hs, ht ▸ hs⟩
  rw [ht]
  exact .refl hs

end Makes

/-- One operation, whose ways other than to the next instruction are exits. -/
theorem op {op : OpCode} {span : Option Span} {scopes : ScopeStack} (h : Makes s course scopes t added)
    (ha : t.address = s.address + 1) (hordinary : op.isOrdinary = true)
    (hsuits : ∀ U : Outline, U.Foretells t.scopes → op.Suits ⟨U, s.visible⟩)
    (htargets : ∀ y ∈ op.targets s.address, y = s.address + 1 ∨ (y, s.visible) ∈ exits)
    (hadded : added.map (·.2) = op.bound.reverse) (hexits : op.bound ≠ [] → exits = []) :
    Charts s course [⟨op, span⟩] added [] exits t := by
  have hvisible : t.visible = added ++ s.visible := h.opens.visible
  refine ⟨h.orderly, h.opens, h.after, ?_, fun S U hS hU => ?_⟩
  · rw [h.notes, ha]
    rfl
  rw [ha, hvisible]
  refine .op hordinary (h.means hS hU) (hsuits U hU) fun y hy => ?_
  rcases htargets y hy with rfl | hout
  · exact .inl ⟨rfl, OpCode.passes_declared (OpCode.announces_of_isOrdinary hordinary U) hadded⟩
  · refine .inr ⟨_, hout, OpCode.passes_of_within ?_ (OpCode.announces_of_isOrdinary hordinary U) (.refl _)⟩
    by_contra hbound
    rw [hexits hbound] at hout
    cases hout

end Charts

/-- A step makes code without loose ends that declares nothing. -/
def Charting (x : Gen Code) (course : Course) : Prop :=
  ∀ s : Site, s.scopes.Orderly →
    x.Ensures s fun c s' => Charts s course c [] [] [] s' ∧ s'.loops = s.loops

namespace Gen

variable {s : Site}

/-! ## Single operations -/

theorem suits_of_isSimple {op : OpCode} (h : isSimple op = true) :
    (∀ p, op.Suits p) ∧ op.bound = [] ∧ (∀ x, op.targets x = [x + 1]) ∧ op.isOrdinary = true := by
  cases op <;> first
    | exact ⟨fun _ => trivial, rfl, fun _ => rfl, rfl⟩
    | cases h

theorem charts_simple (op : OpCode) (hs : s.scopes.Orderly) (h : isSimple op = true)
    (span : Option Span) :
    Charts s [.instruction] [⟨op, span⟩] [] [] [] { s with address := s.address + 1 } := by
  obtain ⟨hsuits, hbound, htargets, hordinary⟩ := suits_of_isSimple h
  refine .op (.same hs rfl) rfl hordinary (fun U _ => hsuits _) (fun y hy => .inl ?_) ?_ fun _ => rfl
  · rw [htargets] at hy
    exact List.mem_singleton.1 hy
  · rw [hbound]
    rfl

theorem charting_emit (op : OpCode) (h : isSimple op = true) :
    Charting (emit op) [.instruction] := by
  intro s hs
  rw [ensures_emit]
  exact ⟨charts_simple op hs h s.span, rfl⟩

/-- An operation that goes on or to another address. -/
theorem charts_branch (hs : s.scopes.Orderly) (op : OpCode) {target : Nat} (span : Option Span)
    (hsuits : ∀ p, op.Suits p) (hbound : op.bound = [])
    (htargets : ∀ x, op.targets x = [target, x + 1])
    (hordinary : op.isOrdinary = true) :
    Charts s [.instruction] [⟨op, span⟩] [] [] [(target, s.visible)]
      { s with address := s.address + 1 } := by
  refine .op (.same hs rfl) rfl hordinary (fun U _ => hsuits _) (fun y hy => ?_) ?_
    fun h => absurd hbound h
  · rw [htargets] at hy
    rcases List.mem_cons.1 hy with rfl | hy
    · exact .inr (List.mem_singleton_self _)
    · exact .inl (List.mem_singleton.1 hy)
  · rw [hbound]
    rfl

theorem charts_jump (hs : s.scopes.Orderly) (target : Nat) (span : Option Span) :
    Charts s [.instruction] [⟨.jump target, span⟩] [] [] [(target, s.visible)]
      { s with address := s.address + 1 } := by
  refine .op (.same hs rfl) rfl rfl (fun U _ => trivial) (fun y hy => ?_) rfl
    fun h => absurd rfl h
  obtain rfl : y = target := List.mem_singleton.1 hy
  exact .inr (List.mem_singleton_self _)

/-- A jump to be filled in later. -/
theorem charts_hole (hs : s.scopes.Orderly) (span : Option Span) :
    Charts s [.instruction] [⟨.jump 0, span⟩] [] [s.address] [] { s with address := s.address + 1 } := by
  have hmakes : Charts.Makes s [.instruction] s.scopes { s with address := s.address + 1 } [] := .same hs rfl
  exact ⟨hs, .refl hs, rfl, rfl, fun S U hS hU => .hole (hmakes.means hS hU) _ span⟩

theorem charting_scalarAfter (e : Expr) : Charting (scalarAfter e) (Course.scalarAfter e) := by
  intro s hs
  unfold scalarAfter Course.scalarAfter
  split
  · exact charting_emit _ rfl s hs
  · rw [ensures_pure]
    exact ⟨.nil hs, rfl⟩

/-- The value of an expression, cut down to one. -/
theorem charting_scalar {e : Expr} (he : Charting (expr e) (Course.expr e)) (hs : s.scopes.Orderly)
    {Q : Code → Code → Site → Prop}
    (hQ : ∀ c c' s', Charts s (Course.expr e ++ Course.scalarAfter e) (c ++ c') [] [] [] s' →
      s'.loops = s.loops → Q c c' s') :
    (expr e).Ensures s fun c s₁ => (scalarAfter e).Ensures s₁ fun c' s' => Q c c' s' := by
  refine (he s hs).mono fun c s₁ h₁ => ?_
  refine (charting_scalarAfter e s₁ h₁.1.orderly).mono fun c' s₂ h₂ => ?_
  exact hQ c c' s₂ (h₁.1.seq h₂.1) (h₂.2.trans h₁.2)

/-- A resolved name, and an operation on what it stands for. -/
theorem charting_resolve_op (op : Symbol → OpCode) (name : String) (hs : s.scopes.Orderly)
    (hsuits : ∀ sym p, Place.Names p sym → (op sym).Suits p) (hbound : ∀ sym, (op sym).bound = [])
    (htargets : ∀ sym x, (op sym).targets x = [x + 1])
    (hordinary : ∀ sym, (op sym).isOrdinary = true) :
    (resolve name).Ensures s fun sym s₁ => (emit (op sym)).Ensures s₁ fun c s' =>
      Charts s [Course.resolve name, .instruction] c [] [] [] s' ∧ s'.loops = s.loops := by
  obtain ⟨horderly, hopens, hnames⟩ := hs.resolve name
  rw [ensures_resolve, ensures_emit]
  refine ⟨.op ⟨rfl, rfl, hopens, .refl horderly, horderly, horderly⟩ rfl (hordinary _)
    (fun U hU => hsuits _ _ ?_) (fun y hy => .inl ?_) ?_ fun _ => rfl, rfl⟩
  · have hvisible : (s.scopes.resolve name).2.current.visible = s.visible := hopens.visible
    rw [FunctionScope.place, hvisible] at hnames
    exact hnames.mono hU.captured
  · rw [htargets] at hy
    exact List.mem_singleton.1 hy
  · rw [hbound]
    rfl

/-! ## Expressions -/

theorem charting_varargs : Charting (expr .varargs) (Course.expr .varargs) := by
  intro s hs
  simp only [expr, Course.expr, ensures_bind, ensures_get]
  split
  · exact charting_emit _ rfl s hs
  · rw [ensures_failHere]
    trivial

theorem charting_name (name : String) :
    Charting (expr (.name name)) (Course.expr (.name name)) := by
  intro s hs
  simp only [expr, Course.expr, ensures_bind]
  exact charting_resolve_op .load name hs (fun _ _ h => h) (fun _ => rfl) (fun _ _ => rfl)
    fun _ => rfl

/-- Two values, and an operation on them. -/
theorem charting_two {left right : Expr} (hl : Charting (expr left) (Course.expr left))
    (hr : Charting (expr right) (Course.expr right)) {op : OpCode} (hop : isSimple op = true) (hs : s.scopes.Orderly) :
    (expr left).Ensures s fun l s₁ => (scalarAfter left).Ensures s₁ fun l' s₂ =>
      (expr right).Ensures s₂ fun r s₃ => (scalarAfter right).Ensures s₃ fun r' s₄ =>
        (emit op).Ensures s₄ fun c s₅ => (pure (l ++ l' ++ r ++ r' ++ c) : Gen Code).Ensures s₅
          fun c s' => Charts s (Course.expr left ++ Course.scalarAfter left ++ Course.expr right ++
            Course.scalarAfter right ++ [.instruction]) c [] [] [] s' ∧ s'.loops = s.loops := by
  refine charting_scalar hl hs fun l l' s₁ h₁ hl₁ => ?_
  refine charting_scalar hr h₁.orderly fun r r' s₂ h₂ hl₂ => ?_
  refine (charting_emit _ hop s₂ h₂.orderly).mono fun c s₃ h₃ => ?_
  rw [ensures_pure]
  have hall := (h₁.seq h₂).seq h₃.1
  simp only [List.append_assoc, List.append_nil] at hall ⊢
  exact ⟨hall, (h₃.2.trans hl₂).trans hl₁⟩

theorem charting_binary {op : BinaryOp} {left right : Expr} (hl : Charting (expr left) (Course.expr left))
    (hr : Charting (expr right) (Course.expr right)) :
    Charting (expr (.binary op left right)) (Course.expr (.binary op left right)) := by
  intro s hs
  simp only [expr, Course.expr, ensures_bind]
  exact charting_two hl hr rfl hs

theorem charting_index {object key : Expr} (ho : Charting (expr object) (Course.expr object))
    (hk : Charting (expr key) (Course.expr key)) :
    Charting (expr (.index object key)) (Course.expr (.index object key)) := by
  intro s hs
  simp only [expr, Course.expr, ensures_bind]
  exact charting_two ho hk rfl hs

theorem charting_logical {op : LogicalOp} {left right : Expr}
    (hl : Charting (expr left) (Course.expr left)) (hr : Charting (expr right) (Course.expr right)) :
    Charting (expr (.logical op left right)) (Course.expr (.logical op left right)) := by
  intro s hs
  simp only [expr, Course.expr, ensures_bind]
  refine charting_scalar hl hs fun l l' s₁ h₁ hl₁ => ?_
  rw [ensures_reserve]
  refine charting_scalar (s := { s₁ with address := s₁.address + 1 }) hr h₁.orderly
    fun r r' s₂ h₂ hl₂ => ?_
  rw [ensures_here, ensures_pure]
  -- the short cut goes behind the right value
  have hshort : ∀ op : OpCode, (∀ p, op.Suits p) → op.bound = [] →
      (∀ x, op.targets x = [s₂.address, x + 1]) → op.isOrdinary = true →
      Charts s (Course.expr left ++ Course.scalarAfter left ++ [.instruction] ++ Course.expr right ++
        Course.scalarAfter right) (l ++ l' ++ [⟨op, s₁.span⟩] ++ r ++ r') [] [] [] s₂ ∧
          s₂.loops = s.loops := by
    intro op hsuits hbound htargets hordinary
    have hbranch := charts_branch h₁.orderly op s₁.span hsuits hbound htargets hordinary
    have hall := (h₁.seq hbranch).seq h₂
    have hvisible : s₂.visible = s₁.visible := h₂.visible_eq
    simp only [List.append_assoc, List.append_nil, List.nil_append] at hall ⊢
    refine ⟨hall.close fun y Λ hy => .inr ?_, hl₂.trans hl₁⟩
    cases List.mem_singleton.1 hy
    exact ⟨rfl, hvisible ▸ List.suffix_refl _⟩
  cases op with
  | and =>
    exact hshort (.jumpFalseOrPop s₂.address) (fun _ => trivial) rfl (fun _ => rfl)
      rfl
  | or =>
    exact hshort (.jumpTrueOrPop s₂.address) (fun _ => trivial) rfl (fun _ => rfl)
      rfl

/-- A piece, and one more operation behind it. -/
theorem charting_snoc {s₁ : Site} {course : Course} {c : Code} (h : Charts s course c [] [] [] s₁)
    (hl : s₁.loops = s.loops) {op : OpCode} (hop : isSimple op = true) :
    (emit op).Ensures s₁ fun c' s' => (pure (c ++ c') : Gen Code).Ensures s' fun c s' =>
      Charts s (course ++ [.instruction]) c [] [] [] s' ∧ s'.loops = s.loops := by
  refine (charting_emit _ hop s₁ h.orderly).mono fun c' s₂ h₂ => ?_
  rw [ensures_pure]
  exact ⟨h.seq h₂.1, h₂.2.trans hl⟩

theorem charting_unary {op : UnaryOp} {operand : Expr}
    (he : Charting (expr operand) (Course.expr operand)) :
    Charting (expr (.unary op operand)) (Course.expr (.unary op operand)) := by
  intro s hs
  simp only [expr, Course.expr, ensures_bind]
  refine charting_scalar he hs fun c c' s₁ h₁ hl₁ => ?_
  cases op with
  | not => exact charting_snoc h₁ hl₁ rfl
  | neg => exact charting_snoc h₁ hl₁ rfl
  | len => exact charting_snoc h₁ hl₁ rfl

theorem charting_paren {e : Expr} (he : Charting (expr e) (Course.expr e)) :
    Charting (expr (.paren e)) (Course.expr (.paren e)) := by
  intro s hs
  simp only [expr, Course.expr, ensures_bind]
  refine charting_scalar he hs fun c c' s₁ h₁ hl₁ => ?_
  rw [ensures_pure]
  exact ⟨h₁, hl₁⟩

theorem charting_call {f : Expr} {args : List Expr} (hf : Charting (expr f) (Course.expr f))
    (hargs : Charting (exprs args) (Course.exprs args)) :
    Charting (expr (.call f args)) (Course.expr (.call f args)) := by
  intro s hs
  simp only [expr, Course.expr, ensures_bind]
  refine charting_scalar hf hs fun c c' s₁ h₁ hl₁ => ?_
  refine (hargs s₁ h₁.orderly).mono fun vs s₂ h₂ => ?_
  exact charting_snoc (h₁.seq h₂.1) (h₂.2.trans hl₁) rfl

theorem charting_methodCall {object : Expr} {method : String} {args : List Expr}
    (ho : Charting (expr object) (Course.expr object))
    (hargs : Charting (exprs args) (Course.exprs args)) :
    Charting (expr (.methodCall object method args)) (Course.expr (.methodCall object method args)) := by
  intro s hs
  simp only [expr, Course.expr, ensures_bind]
  refine charting_scalar ho hs fun o o' s₁ h₁ hl₁ => ?_
  refine (charting_emit (.method method) rfl s₁ h₁.orderly).mono fun m s₂ h₂ => ?_
  refine (hargs s₂ h₂.1.orderly).mono fun vs s₃ h₃ => ?_
  exact charting_snoc ((h₁.seq h₂.1).seq h₃.1) ((h₃.2.trans h₂.2).trans hl₁) rfl

theorem charting_exprs_cons {e e' : Expr} {rest : List Expr} (he : Charting (expr e) (Course.expr e))
    (hrest : Charting (exprs (e' :: rest)) (Course.exprs (e' :: rest))) :
    Charting (exprs (e :: e' :: rest)) (Course.exprs (e :: e' :: rest)) := by
  intro s hs
  simp only [exprs, Course.exprs, ensures_bind]
  refine charting_scalar he hs fun c c' s₁ h₁ hl₁ => ?_
  refine (hrest s₁ h₁.orderly).mono fun cs s₂ h₂ => ?_
  rw [ensures_pure]
  exact ⟨h₁.seq h₂.1, h₂.2.trans hl₁⟩

/-! ## Tables and assignments -/

theorem charting_fields_positional {value : Expr} {rest : List Field} {position : Nat}
    (hv : Charting (expr value) (Course.expr value))
    (hrest : Charting (fields rest (position + 1)) (Course.fields rest)) :
    Charting (fields (.positional value :: rest) position)
      (Course.fields (.positional value :: rest)) := by
  intro s hs
  simp only [fields, Course.fields, ensures_bind]
  refine (hv s hs).mono fun c s₁ h₁ => ?_
  have hbehind : ∀ course c' s₂, Charts s₁ course c' [] [] [] s₂ → s₂.loops = s₁.loops → ∀ expand,
      (emit (.tableAppend position expand)).Ensures s₂ fun a s₃ =>
        (fields rest (position + 1)).Ensures s₃ fun cs s₄ =>
          (pure (c ++ c' ++ a ++ cs) : Gen Code).Ensures s₄ fun r s' =>
            Charts s (Course.expr value ++ course ++ [.instruction] ++ Course.fields rest) r [] [] [] s' ∧
              s'.loops = s.loops := by
    intro course c' s₂ h₂ hl₂ expand
    refine (charting_emit (.tableAppend position expand) rfl s₂ h₂.orderly).mono
      fun a s₃ h₃ => ?_
    refine (hrest s₃ h₃.1.orderly).mono fun cs s₄ h₄ => ?_
    rw [ensures_pure]
    exact ⟨((h₁.1.seq h₂).seq h₃.1).seq h₄.1, ((h₄.2.trans h₃.2).trans hl₂).trans h₁.2⟩
  -- the last positional field may keep all its values
  split
  · simp only [ensures_bind]
    rw [ensures_pure]
    exact hbehind [] [] s₁ (.nil h₁.1.orderly) rfl _
  · simp only [ensures_bind]
    exact (charting_scalarAfter value s₁ h₁.1.orderly).mono
      fun c' s₂ h₂ => hbehind _ c' s₂ h₂.1 h₂.2 _

/-- A key, its value, and the fields behind them. -/
theorem charting_entry {value : Expr} {rest : List Field} {position : Nat} {course : Course} {k : Code}
    {s₁ : Site} (hk : Charts s course k [] [] [] s₁) (hl : s₁.loops = s.loops)
    (hv : Charting (expr value) (Course.expr value))
    (hrest : Charting (fields rest position) (Course.fields rest)) :
    (expr value).Ensures s₁ fun c s₂ => (scalarAfter value).Ensures s₂ fun c' s₃ =>
      (emit .tableSet).Ensures s₃ fun a s₄ => (fields rest position).Ensures s₄ fun cs s₅ =>
        (pure (k ++ c ++ c' ++ a ++ cs) : Gen Code).Ensures s₅ fun r s' =>
          Charts s (course ++ Course.expr value ++ Course.scalarAfter value ++ [.instruction] ++
            Course.fields rest) r [] [] [] s' ∧ s'.loops = s.loops := by
  refine charting_scalar hv hk.orderly fun c c' s₂ h₂ hl₂ => ?_
  refine (charting_emit .tableSet rfl s₂ h₂.orderly).mono fun a s₃ h₃ => ?_
  refine (hrest s₃ h₃.1.orderly).mono fun cs s₄ h₄ => ?_
  rw [ensures_pure]
  have hall := ((hk.seq h₂).seq h₃.1).seq h₄.1
  simp only [List.append_assoc, List.append_nil] at hall ⊢
  exact ⟨hall, ((h₄.2.trans h₃.2).trans hl₂).trans hl⟩

theorem charting_fields_named {name : String} {value : Expr} {rest : List Field} {position : Nat}
    (hv : Charting (expr value) (Course.expr value))
    (hrest : Charting (fields rest position) (Course.fields rest)) :
    Charting (fields (.named name value :: rest) position)
      (Course.fields (.named name value :: rest)) := by
  intro s hs
  simp only [fields, Course.fields, ensures_bind]
  refine (charting_emit (.literal (.string name)) rfl s hs).mono fun k s₁ h₁ => ?_
  exact charting_entry h₁.1 h₁.2 hv hrest

theorem charting_fields_keyed {key value : Expr} {rest : List Field} {position : Nat}
    (hk : Charting (expr key) (Course.expr key)) (hv : Charting (expr value) (Course.expr value))
    (hrest : Charting (fields rest position) (Course.fields rest)) :
    Charting (fields (.keyed key value :: rest) position)
      (Course.fields (.keyed key value :: rest)) := by
  intro s hs
  simp only [fields, Course.fields, ensures_bind]
  exact charting_scalar hk hs fun k k' s₁ h₁ hl₁ => charting_entry h₁ hl₁ hv hrest

theorem charting_table {fs : List Field} (hfs : Charting (fields fs 1) (Course.fields fs)) :
    Charting (expr (.table fs)) (Course.expr (.table fs)) := by
  intro s hs
  simp only [expr, Course.expr, ensures_bind]
  refine (charting_emit .newTable rfl s hs).mono fun c s₁ h₁ => ?_
  refine (hfs s₁ h₁.1.orderly).mono fun cs s₂ h₂ => ?_
  rw [ensures_pure]
  exact ⟨h₁.1.seq h₂.1, h₂.2.trans h₁.2⟩

theorem charting_assignField : ∀ keys : List String,
    Charting (assignField keys) (Course.assignField keys)
  | [] => by
    intro s hs
    rw [assignField, ensures_pure]
    exact ⟨.nil hs, rfl⟩
  | [key] => by
    intro s hs
    simp only [assignField, ensures_bind]
    refine (charting_emit (.literal (.string key)) rfl s hs).mono fun k s₁ h₁ => ?_
    exact charting_snoc h₁.1 h₁.2 rfl
  | key :: key' :: rest => by
    intro s hs
    simp only [assignField, ensures_bind]
    refine (charting_emit (.literal (.string key)) rfl s hs).mono fun k s₁ h₁ => ?_
    refine (charting_emit .index rfl s₁ h₁.1.orderly).mono fun a s₂ h₂ => ?_
    refine (charting_assignField (key' :: rest) s₂ h₂.1.orderly).mono fun cs s₃ h₃ => ?_
    rw [ensures_pure]
    exact ⟨(h₁.1.seq h₂.1).seq h₃.1, (h₃.2.trans h₂.2).trans h₁.2⟩

/-- What comes in front of the assignments of the other targets. -/
theorem charting_assignTo_cons {rest : List Expr} {i : Nat} {s₁ : Site} {course : Course} {c : Code}
    (h : Charts s course c [] [] [] s₁) (hl : s₁.loops = s.loops)
    (hrest : Charting (assignTo rest (i + 1)) (Course.assignTo rest)) :
    (assignTo rest (i + 1)).Ensures s₁ fun cs s₂ => (pure (c ++ cs) : Gen Code).Ensures s₂
      fun c s' => Charts s (course ++ Course.assignTo rest) c [] [] [] s' ∧ s'.loops = s.loops := by
  refine (hrest s₁ h.orderly).mono fun cs s₂ h₂ => ?_
  rw [ensures_pure]
  exact ⟨h.seq h₂.1, h₂.2.trans hl⟩

theorem charting_assignTo_name {name : String} {rest : List Expr} {i : Nat}
    (hrest : Charting (assignTo rest (i + 1)) (Course.assignTo rest)) :
    Charting (assignTo (.name name :: rest) i) (Course.assignTo (.name name :: rest)) := by
  intro s hs
  simp only [assignTo, Course.assignTo, ensures_bind]
  have hstore := charting_resolve_op (.store · i) name hs (fun _ _ h => h) (fun _ => rfl)
    (fun _ _ => rfl) fun _ => rfl
  refine hstore.mono fun sym s₁ h₁ => ?_
  refine h₁.mono fun c s₂ h₂ => ?_
  exact charting_assignTo_cons h₂.1 h₂.2 hrest

theorem charting_assignTo_index {object key : Expr} {rest : List Expr} {i : Nat}
    (ho : Charting (expr object) (Course.expr object)) (hk : Charting (expr key) (Course.expr key))
    (hrest : Charting (assignTo rest (i + 1)) (Course.assignTo rest)) :
    Charting (assignTo (.index object key :: rest) i) (Course.assignTo (.index object key :: rest)) := by
  intro s hs
  simp only [assignTo, Course.assignTo, ensures_bind]
  refine charting_scalar ho hs fun o o' s₁ h₁ hl₁ => ?_
  refine charting_scalar hk h₁.orderly fun k k' s₂ h₂ hl₂ => ?_
  refine (charting_emit (.indexSet i) rfl s₂ h₂.orderly).mono fun a s₃ h₃ => ?_
  have hall := (h₁.seq h₂).seq h₃.1
  simp only [List.append_assoc, List.append_nil] at hall
  have hbehind := charting_assignTo_cons hall ((h₃.2.trans hl₂).trans hl₁) hrest
  simpa only [List.append_assoc] using hbehind

theorem charting_assignTo_refused {e : Expr} {rest : List Expr} {i : Nat}
    (he : e.isAssignable = false) :
    Charting (assignTo (e :: rest) i) (Course.assignTo (e :: rest)) := by
  intro s _
  have hfail : assignTo (e :: rest) i = failHere .notAssignable := by
    cases e with
    | name n => cases he
    | index object key => cases he
    | _ => rw [assignTo] <;> simp
  rw [hfail, ensures_failHere]
  trivial

end Gen

end LuaMachine
