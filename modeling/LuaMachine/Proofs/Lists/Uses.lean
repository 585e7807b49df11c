import LuaMachine.Proofs.Lists.Elements

/-!
# The uses of lists of expressions

A list of expressions is used as the arguments of a call or of a method call, as the results of a function,
as the values of local variables or of an assignment, or as what a generic loop starts with. The code of
each use has the code of the list in front of the instructions that take its values
(`Gen.places_use`). The positional fields of a table constructor are stored one by one
(`Gen.places_table`).
-/

namespace LuaMachine

/-- A use of a list of expressions. -/
inductive ListUse where
  | call (f : Expr) (args : List Expr)
  | method (object : Expr) (name : String) (args : List Expr)
  | results (values : List Expr) (extent : Extent)
  | local (names : List String) (values : List Expr) (extent : Extent)
  | assign (targets values : List Expr) (extent : Extent)
  | iterate (names : List String) (values : List Expr) (body : List Stat) (extent closing : Extent)

/-! ## Where the code of a use lies -/

namespace Gen

/-- A step of the compilation leads from one site to another. -/
def Leads (x : Gen α) (s s' : Site) : Prop := ∃ a, x s = .ok (a, s')

/-- The code of values that become one result. -/
def tupled (values : List Expr) (extent : Extent) : Gen Code := do
  markExtent extent
  let vs ← exprs values
  return vs ++ (← emit (.makeTuple values.length))

/-- The code in front of a target: that of the values, and what assigns to the targets before it. -/
def ahead (values : List Expr) (extent : Extent) (before : List Expr) : Gen Code := do
  let vs ← tupled values extent
  return vs ++ (← assignTo before 0)

end Gen

/-- The code of an operand, which is cut down to one value. -/
def OperandAt (code : Listing) (e : Expr) (s s' : Site) : Prop :=
  (Gen.expr (.paren e)).LiesFrom s s' code

/-- The code that assigns the items of the top to targets, starting with item `i`. A name is resolved in
the scopes of the site where its target is compiled. -/
inductive TargetsAt (code : Listing) : List Expr → Nat → Site → Site → Prop where
  | nil {i : Nat} {s : Site} : TargetsAt code [] i s s
  | name {n : String} {rest : List Expr} {i : Nat} {s s' : Site}
    (hop : code s.address = some (.store (s.scopes.resolve n).1 i))
    (tail : TargetsAt code rest (i + 1)
      { s with address := s.address + 1, scopes := (s.scopes.resolve n).2 } s') :
    TargetsAt code (.name n :: rest) i s s'
  | index {object key : Expr} {rest : List Expr} {i : Nat} {s s₁ s₂ s' : Site}
    (ho : OperandAt code object s s₁) (hk : OperandAt code key s₁ s₂)
    (hop : code s₂.address = some (.indexSet i))
    (tail : TargetsAt code rest (i + 1) { s₂ with address := s₂.address + 1 } s') :
    TargetsAt code (.index object key :: rest) i s s'

/-- True of the fields that are stored at the next position. -/
def Field.isPositional : Field → Bool
  | positional _ => true
  | _ => false

/-- The slot of one of some names that are declared one after the other. -/
def ScopeStack.slotOf (scopes : ScopeStack) (names : List String) (i : Nat) : Nat :=
  ((names.take i).foldl ScopeStack.declare scopes).nextSlot

theorem OperandAt.elementAt {code : Listing} {e : Expr} {s s' : Site} (h : OperandAt code e s s') :
    ElementAt code e false s.address s'.address :=
  (h.has (Gen.places_last (.paren e))).of_paren

theorem TargetsAt.le {code : Listing} {targets : List Expr} {i : Nat} {s s' : Site}
    (h : TargetsAt code targets i s s') : s.address ≤ s'.address := by
  induction h with
  | nil => exact Nat.le_refl _
  | name _ _ ih => exact Nat.le_of_succ_le ih
  | index ho hk _ _ ih =>
    exact Nat.le_trans (Nat.le_trans ho.elementAt.le hk.elementAt.le) (Nat.le_of_succ_le ih)

/-- The code of a table constructor with a positional field: the table, the fields in front of it, its
value, the instruction that stores what it adds, and the fields behind it. -/
def FieldAt (code : Listing) (a b : Nat) (before : List Field) (value : Expr) (behind : List Field) :
    Prop :=
  ∃ c d, code a = some .newTable ∧ Carries code (a + 1) c 0 ∧ ElementAt code value behind.isEmpty c d ∧
    code d = some (.tableAppend (before.countP Field.isPositional + 1)
      (behind.isEmpty && value.isMultiValue)) ∧
    Carries code (d + 1) b 0

namespace ListUse

/-- The code of a use. -/
def generate : ListUse → Gen Code
  | call f args => Gen.expr (.call f args)
  | method object name args => Gen.expr (.methodCall object name args)
  | results values extent => Gen.stat (.return values extent)
  | «local» names values extent => Gen.stat (.local names values extent)
  | assign targets values extent => Gen.stat (.assign targets values extent)
  | iterate names values body extent closing =>
    Gen.stat (.genericFor names values body extent closing)

/-- The expressions of the list. -/
def values : ListUse → List Expr
  | call _ args | method _ _ args => args
  | results values _ | «local» _ values _ | assign _ values _ | iterate _ values _ _ _ => values

/-- The code of a use that is compiled from one site to another, with the list and the instructions that
take it. -/
def PlacedAt (code : Listing) (s s' : Site) : ListUse → Prop
  | call _ args => ∃ c d, Delivers code s.address c true ∧ ListAt code args c d ∧
      code d = some (.call args.length) ∧ s'.address = d + 1
  | method _ name args => ∃ c d, Delivers code s.address c true ∧ code c = some (.method name) ∧
      ListAt code args (c + 1) d ∧ code d = some (.call (args.length + 1)) ∧ s'.address = d + 1
  | results values _ => ∃ d, ListAt code values s.address d ∧
      (values = [] ∧ code d = some (.ret 0) ∧ s'.address = d + 1 ∨
        values.length = 1 ∧ code d = some (.ret 1) ∧ s'.address = d + 1 ∨
        code d = some (.makeTuple values.length) ∧ code (d + 1) = some (.ret 1) ∧ s'.address = d + 2)
  | «local» names values extent => ∃ d s₁, ListAt code values s.address d ∧
      code d = some (.makeTuple values.length) ∧ (Gen.tupled values extent).Leads s s₁ ∧
      (∀ i < names.length, code (d + 1 + i) = some (.local (s₁.scopes.slotOf names i) i)) ∧
      s'.address = d + 1 + names.length + 1
  | assign targets values extent => ∃ d s₁ s₂, ListAt code values s.address d ∧
      code d = some (.makeTuple values.length) ∧ (Gen.tupled values extent).Leads s s₁ ∧
      s₁.address = d + 1 ∧ TargetsAt code targets 0 s₁ s₂ ∧ s'.address = s₂.address + 1
  | iterate _ values _ _ _ => ∃ d, ListAt code values s.address d ∧
      code d = some (.makeTuple values.length) ∧ code (d + 1) = some .iterPrep ∧ d + 2 ≤ s'.address

end ListUse

namespace Gen

theorem places_bindNames (names : List String) (i : Nat) (s : Site) :
    (bindNames names i).Ensures s fun c s' => s'.loops = s.loops ∧
      Makes s.address c [] s'.address fun code _ => s'.address = s.address + names.length ∧
        ∀ j < names.length, code (s.address + j) = some (.local (s.scopes.slotOf names j) (i + j)) := by
  induction names generalizing i s with
  | nil =>
    rw [bindNames, ensures_pure]
    exact ⟨rfl, (Makes.nil _).imp fun _ _ _ => ⟨rfl, fun j hj => absurd hj (Nat.not_lt_zero j)⟩⟩
  | cons name names ih =>
    simp only [bindNames, ensures_bind, ensures_declare, ensures_emit]
    refine (ih (i + 1) _).mono ?_
    rintro c s' ⟨hloops, h⟩
    rw [ensures_pure]
    refine ⟨hloops, ((Makes.op s.address (.local s.scopes.nextSlot i) s.span).append h).imp ?_⟩
    rintro code target ⟨hop, hlength, hrest⟩
    refine ⟨by rw [hlength, List.length_cons]; dsimp only; omega, fun j hj => ?_⟩
    cases j with
    | zero => exact hop
    | succ j =>
      have h := hrest j (Nat.lt_of_succ_lt_succ hj)
      rwa [Nat.add_right_comm, Nat.add_assoc s.address, Nat.add_right_comm i] at h

theorem Leads.bind {x : Gen α} {f : α → Gen β} {a : α} {s s₁ s₂ : Site} (hx : x s = .ok (a, s₁))
    (hf : (f a).Leads s₁ s₂) : (x >>= f).Leads s s₂ := by
  obtain ⟨b, hb⟩ := hf
  refine ⟨b, ?_⟩
  change (x s >>= fun p => f p.1 p.2) = _
  rw [hx]
  exact hb

theorem leads_tupled {values : List Expr} {extent : Extent} {s s₁ : Site} {vs : Code}
    (hvs : exprs values (s.marked (s.spanOf extent)) = .ok (vs, s₁)) :
    (tupled values extent).Leads s { s₁ with address := s₁.address + 1 } := by
  have hmark : markExtent extent s = .ok ((), s.marked (s.spanOf extent)) := rfl
  exact .bind hmark (.bind hvs (.bind rfl ⟨_, rfl⟩))

theorem Leads.ahead {values before : List Expr} {extent : Extent} {s s₁ s₂ : Site}
    (hvalues : (tupled values extent).Leads s s₁) (hbefore : (assignTo before 0).Leads s₁ s₂) :
    (Gen.ahead values extent before).Leads s s₂ := by
  obtain ⟨vs, hvs⟩ := hvalues
  obtain ⟨stores, hstores⟩ := hbefore
  exact .bind hvs (.bind hstores ⟨_, rfl⟩)

theorem Leads.name {n : String} {before : List Expr} {i : Nat} {s s₁ : Site}
    (h : (assignTo before (i + 1)).Leads
      { s with address := s.address + 1, scopes := (s.scopes.resolve n).2 } s₁) :
    (assignTo (.name n :: before) i).Leads s s₁ := by
  obtain ⟨stores, hstores⟩ := h
  rw [assignTo]
  exact .bind rfl (.bind rfl (.bind hstores ⟨_, rfl⟩))

theorem Leads.index {code : Listing} {object key : Expr} {before : List Expr} {i : Nat}
    {s s₁ s₂ s₃ : Site} (h : (assignTo before (i + 1)).Leads { s₂ with address := s₂.address + 1 } s₃)
    (ho : OperandAt code object s s₁) (hk : OperandAt code key s₁ s₂) :
    (assignTo (.index object key :: before) i).Leads s s₃ := by
  obtain ⟨stores, hstores⟩ := h
  -- an operand in parentheses has the code of the operand and what cuts it down
  have hoperands : (expr (.paren object)).Ensures s fun _ s₁ => (expr (.paren key)).Ensures s₁
      fun _ s₂' => s₂' = s₂ → (assignTo (.index object key :: before) i).Leads s s₃ := by
    simp only [expr, assignTo, ensures_bind]
    intro o t₁ ho o' t₂ ho'
    rw [ensures_pure]
    intro k t₃ hkey k' t₄ hkey'
    rw [ensures_pure]
    rintro rfl
    exact .bind ho (.bind ho' (.bind hkey (.bind hkey' (.bind rfl (.bind hstores ⟨_, rfl⟩)))))
  obtain ⟨o, ho, -⟩ := ho
  obtain ⟨k, hk, -⟩ := hk
  exact hoperands o s₁ ho k s₂ hk rfl

theorem places_operand (e : Expr) : (expr (.paren e)).PlacesFrom fun code s s' => OperandAt code e s s' :=
  fun s => ((places_last (.paren e)).liesFrom s).mono fun _ _ h => h.imp fun _ _ h => h.1

theorem places_assignTo (targets : List Expr) (i : Nat) :
    (assignTo targets i).PlacesFrom fun code s s' => TargetsAt code targets i s s' := by
  induction targets generalizing i with
  | nil =>
    intro s
    rw [assignTo, ensures_pure]
    exact (Makes.nil _).imp fun code _ _ => .nil
  | cons target rest ih =>
    intro s
    cases target with
    | name n =>
      simp only [assignTo, ensures_bind, ensures_resolve, ensures_emit]
      refine (ih (i + 1) _).mono fun c s' h => ?_
      rw [ensures_pure]
      exact ((Makes.op s.address (.store (s.scopes.resolve n).1 i) s.span).append h).imp
        fun _ _ h => .name h.1 h.2
    | index object key =>
      have ho := places_operand object s
      have hk := fun s => places_operand key s
      simp only [expr, assignTo, ensures_bind] at ho hk ⊢
      refine ho.mono fun o s₁ h₁ => h₁.mono fun o' s₂ h₂ => ?_
      refine (hk s₂).mono fun k s₃ h₃ => h₃.mono fun k' s₄ h₄ => ?_
      rw [ensures_pure] at h₂ h₄
      rw [ensures_emit]
      refine (ih (i + 1) _).mono fun c s' h => ?_
      rw [ensures_pure]
      have hall := ((h₂.append h₄).append (.op _ (.indexSet i) s₄.span)).append h
      simp only [List.append_nil, List.append_assoc] at hall ⊢
      exact hall.imp fun _ _ h => .index h.1.1.1 h.1.1.2 h.1.2 h.2
    | _ => simp only [assignTo, ensures_failHere]

theorem places_call (f : Expr) (args : List Expr) :
    (expr (.call f args)).PlacesFrom fun code s s' => (ListUse.call f args).PlacedAt code s s' := by
  intro s
  simp only [expr, ensures_bind]
  refine delivers_scalar (delivering_expr f) fun c c' s₁ h₁ => ?_
  refine (places_exprs args s₁).mono fun vs s₂ h₂ => ?_
  rw [ensures_emit, ensures_pure]
  refine ((h₁.append h₂).append (.op _ (.call args.length) s₂.span)).imp fun code target h => ?_
  exact ⟨_, _, h.1.1, h.1.2, h.2, rfl⟩

theorem places_methodCall (object : Expr) (name : String) (args : List Expr) :
    (expr (.methodCall object name args)).PlacesFrom fun code s s' =>
      (ListUse.method object name args).PlacedAt code s s' := by
  intro s
  simp only [expr, ensures_bind]
  refine delivers_scalar (delivering_expr object) fun o o' s₁ h₁ => ?_
  rw [ensures_emit]
  refine (places_exprs args _).mono fun vs s₂ h₂ => ?_
  rw [ensures_emit, ensures_pure]
  have hall := ((h₁.append (.op _ (.method name) s₁.span)).append h₂).append
    (.op _ (.call (args.length + 1)) s₂.span)
  exact hall.imp fun code target h => ⟨_, _, h.1.1.1, h.1.1.2, h.1.2, h.2, rfl⟩

theorem places_return (values : List Expr) (extent : Extent) :
    (stat (.return values extent)).PlacesFrom fun code s s' =>
      (ListUse.results values extent).PlacedAt code s s' := by
  intro s
  rw [stat]
  simp only [ensures_bind]
  rw [ensures_markExtent]
  refine (places_exprs values _).mono fun vs s₁ h₁ => ?_
  split
  · rw [ensures_bind, ensures_emit, ensures_pure]
    exact (h₁.append (.op _ (.ret 0) s₁.span)).imp fun _ _ h => ⟨_, h.1, .inl ⟨rfl, h.2, rfl⟩⟩
  · rw [ensures_bind, ensures_emit, ensures_pure]
    exact (h₁.append (.op _ (.ret 1) s₁.span)).imp fun _ _ h => ⟨_, h.1, .inr (.inl ⟨rfl, h.2, rfl⟩)⟩
  · simp only [ensures_bind]
    rw [ensures_emit, ensures_emit, ensures_pure]
    refine ((h₁.append (.op _ (.makeTuple values.length) s₁.span)).append (.op _ (.ret 1) s₁.span)).imp
      fun _ _ h => ?_
    exact ⟨_, h.1.1, .inr (.inr ⟨h.1.2, h.2, rfl⟩)⟩

theorem places_local (names : List String) (values : List Expr) (extent : Extent) :
    (stat (.local names values extent)).PlacesFrom fun code s s' =>
      (ListUse.local names values extent).PlacedAt code s s' := by
  intro s
  rw [stat]
  simp only [ensures_bind]
  rw [ensures_markExtent]
  intro vs s₁ hvs
  have h₁ := places_exprs values _ vs s₁ hvs
  rw [ensures_emit]
  refine (places_bindNames names 0 _).mono ?_
  rintro binds s₂ ⟨-, h₂⟩
  rw [ensures_emit, ensures_pure]
  have hall := ((h₁.append (.op _ (.makeTuple values.length) s₁.span)).append h₂).append
    (.op _ (.pop 1) s₂.span)
  refine hall.imp ?_
  rintro code target ⟨⟨⟨hlist, htuple⟩, hlength, hbinds⟩, -⟩
  refine ⟨_, _, hlist, htuple, leads_tupled hvs, fun i hi => ?_, congrArg (· + 1) hlength⟩
  have h := hbinds i hi
  rwa [Nat.zero_add] at h

theorem places_assign (targets values : List Expr) (extent : Extent) :
    (stat (.assign targets values extent)).PlacesFrom fun code s s' =>
      (ListUse.assign targets values extent).PlacedAt code s s' := by
  intro s
  rw [stat]
  simp only [ensures_bind]
  rw [ensures_markExtent]
  intro vs s₁ hvs
  have h₁ := places_exprs values _ vs s₁ hvs
  rw [ensures_emit]
  refine (places_assignTo targets 0 _).mono fun stores s₂ h₂ => ?_
  rw [ensures_emit, ensures_pure]
  have hall := ((h₁.append (.op _ (.makeTuple values.length) s₁.span)).append h₂).append
    (.op _ (.pop 1) s₂.span)
  exact hall.imp fun _ _ h =>
    ⟨_, _, _, h.1.1.1, h.1.1.2, leads_tupled hvs, rfl, h.1.2, rfl⟩

theorem places_genericFor (names : List String) (values : List Expr) (body : List Stat)
    (extent closing : Extent) :
    (stat (.genericFor names values body extent closing)).PlacesFrom fun code s s' =>
      (ListUse.iterate names values body extent closing).PlacedAt code s s' := by
  intro s
  rw [stat]
  simp only [ensures_bind]
  rw [ensures_markExtent]
  refine (places_exprs values _).mono fun vs s₁ h₁ => ?_
  simp only [ensures_emit, ensures_here, ensures_reserve, ensures_pushLoop, ensures_modifyScopes]
  refine (places_bindNames names 0 _).mono ?_
  rintro binds s₂ ⟨hloops, h₂⟩
  refine (balancing_block body _).mono ?_
  rintro inner s₃ ⟨breaks, h₃⟩
  obtain ⟨hhead, -⟩ := h₃.notes.closeLoop hloops
  have hbody := h₃.makes
  simp only [ensures_markExtent, ensures_popLoop, ensures_pure, Site.marked_loops,
    Site.marked_address, hhead]
  have hround := fun span => (((((((((Makes.op _ (.copy 2) s₁.span).append (.op _ (.copy 2) s₁.span)).append
    (.op _ (.copy 2) s₁.span)).append (.op _ (.call 2) s₁.span)).append
    (.op _ (.iterCheck (s₃.address + 1)) s₁.span)).append h₂).append (.op _ (.pop 1) s₂.span)).append
    hbody).append (.op _ (.jump (s₁.address + 1 + 1)) span)).patch (s₃.address + 1)
  have hall := fun span => (((h₁.append (.op _ (.makeTuple values.length) s₁.span)).append
    (.op _ .iterPrep s₁.span)).append (hround span)).append (.op _ (.pop 3) span)
  have hle := (hround none).stop_eq
  simp only [List.append_nil, List.nil_append, List.append_assoc] at hall ⊢
  refine (hall _).imp ?_
  rintro code target ⟨⟨⟨⟨hlist, htuple⟩, hprep⟩, -⟩, -⟩
  exact ⟨_, hlist, htuple, hprep, by dsimp only; omega⟩

/-- The list of a use stands in front of the instructions that take it. -/
theorem places_use : ∀ use : ListUse, use.generate.PlacesFrom fun code s s' => use.PlacedAt code s s'
  | .call f args => places_call f args
  | .method object name args => places_methodCall object name args
  | .results values extent => places_return values extent
  | .local names values extent => places_local names values extent
  | .assign targets values extent => places_assign targets values extent
  | .iterate names values body extent closing => places_genericFor names values body extent closing

/-! ## Table constructors -/

theorem places_value (value : Expr) (behind : List Field) (position : Nat) :
    (fields (.positional value :: behind) position).Places fun code a b =>
      ∃ d, ElementAt code value behind.isEmpty a d ∧
        code d = some (.tableAppend position (behind.isEmpty && value.isMultiValue)) ∧
        Carries code (d + 1) b 0 := by
  intro s
  simp only [fields, ensures_bind]
  have hbehind : ∀ {c s₁}, (Makes s.address c [] s₁.address fun code _ =>
      ElementAt code value behind.isEmpty s.address s₁.address) →
      (emit (.tableAppend position (behind.isEmpty && value.isMultiValue))).Ensures s₁ fun a s₂ =>
        (fields behind (position + 1)).Ensures s₂ fun cs s₃ =>
          (pure (c ++ a ++ cs) : Gen Code).Ensures s₃ fun c s' =>
            Makes s.address c [] s'.address fun code _ => ∃ d,
              ElementAt code value behind.isEmpty s.address d ∧
                code d = some (.tableAppend position (behind.isEmpty && value.isMultiValue)) ∧
                Carries code (d + 1) s'.address 0 := by
    intro c s₁ h₁
    rw [ensures_emit]
    refine (carrying_fields behind (position + 1) _).mono fun cs s₂ h₂ => ?_
    rw [ensures_pure]
    exact ((h₁.append (.op _ _ s₁.span)).append h₂).imp fun _ _ h => ⟨_, h.1.1, h.1.2, h.2⟩
  cases hexpand : behind.isEmpty && value.isMultiValue with
  | true =>
    rw [hexpand] at hbehind
    simp only [if_true, ensures_bind]
    refine (places_last value s).mono fun c s₁ h₁ => ?_
    rw [ensures_pure, List.append_nil]
    refine hbehind (h₁.imp fun _ _ h => ?_)
    rwa [(Bool.and_eq_true_iff.1 hexpand).1]
  | false =>
    rw [hexpand] at hbehind
    have hcut := places_paren (places_last value) s
    simp only [expr, Bool.false_eq_true, if_false, ensures_bind] at hcut ⊢
    refine hcut.mono fun c s₁ h₁ => h₁.mono fun c' s₂ h₂ => ?_
    rw [ensures_pure] at h₂
    exact hbehind (h₂.imp fun _ _ h => h.of_paren.of_cut hexpand)

theorem places_fields (before : List Field) (value : Expr) (behind : List Field) (position : Nat) :
    (fields (before ++ .positional value :: behind) position).Places fun code a b =>
      ∃ c d, Carries code a c 0 ∧ ElementAt code value behind.isEmpty c d ∧
        code d = some (.tableAppend (before.countP Field.isPositional + position)
          (behind.isEmpty && value.isMultiValue)) ∧ Carries code (d + 1) b 0 := by
  induction before generalizing position with
  | nil =>
    intro s
    refine (places_value value behind position s).mono fun _ _ h => h.imp ?_
    rintro code target ⟨d, hvalue, hop, hbehind⟩
    exact ⟨_, d, .nil code _, hvalue, (Nat.zero_add position).symm ▸ hop, hbehind⟩
  | cons f before ih =>
    obtain ⟨next, hnext, hprecedes⟩ : ∃ next, (f :: before).countP Field.isPositional + position =
        before.countP Field.isPositional + next ∧
          Precedes f (before ++ .positional value :: behind) position next := by
      cases f with
      | positional v =>
        refine ⟨_, ?_, precedes_positional (delivering_expr v)⟩
        rw [List.countP_cons_of_pos rfl, Nat.add_assoc, Nat.add_comm 1]
      | named name v => exact ⟨_, rfl, precedes_named (delivering_expr v)⟩
      | keyed k v => exact ⟨_, rfl, precedes_keyed (delivering_expr k) (delivering_expr v)⟩
    intro s
    rw [hnext]
    refine (hprecedes _ (ih next) s).mono fun _ _ h => h.imp ?_
    rintro code target ⟨m, hfront, c, d, hbefore, hvalue, hop, hbehind⟩
    exact ⟨c, d, hfront.append hbefore, hvalue, hop, hbehind⟩

theorem places_table (before : List Field) (value : Expr) (behind : List Field) :
    (expr (.table (before ++ .positional value :: behind))).Places fun code a b =>
      FieldAt code a b before value behind := by
  intro s
  simp only [expr, ensures_bind]
  rw [ensures_emit]
  refine (places_fields before value behind 1 _).mono fun cs s₁ h₁ => ?_
  rw [ensures_pure]
  refine ((Makes.op s.address .newTable s.span).append h₁).imp ?_
  rintro code target ⟨hnew, c, d, hbefore, hvalue, hop, hbehind⟩
  exact ⟨c, d, hnew, hbefore, hvalue, hop, hbehind⟩

end Gen

end LuaMachine
