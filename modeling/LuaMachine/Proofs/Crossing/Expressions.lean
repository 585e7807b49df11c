import LuaMachine.Proofs.Crossing.Regions

/-!
# The code of expressions

Wherever the code of an expression lies, a function that comes to its start stays in it until it comes to
its end with one more value, above all those that were there (`Gen.delivers_expr`). The value of an
expression that cannot give several values is a single one.

Until it comes to that end for the first time, the function is in the code of the expression
(`Reentry.Lasts`); the value on top is then what the expression gives (`Reentry.Yields`). From each
world there is one such value at most.
-/

namespace LuaMachine

/-- Code that leaves some more values behind. -/
structure Carries (code : Listing) (a b n : Nat) : Prop where
  le : a ≤ b
  run : ∀ {r : Reentry} {bottom : Processor} {A : Activation} {w : World}, r.Calm → r.Sifting →
    w.Has code → A.At 0 a w.processor →
      r.Unless bottom (A.Inside a b) (fun u => A.At n b u.processor) w

/-- Code that leaves one more value, which may have to be a single one. -/
structure Delivers (code : Listing) (a b : Nat) (single : Bool) : Prop where
  le : a ≤ b
  run : ∀ {r : Reentry} {bottom : Processor} {A : Activation} {w : World}, r.Calm → r.Sifting →
    w.Has code → A.At 0 a w.processor →
      r.Unless bottom (A.Inside a b)
        (fun u => ∃ v, (A.push v).At 0 b u.processor ∧ (single = true → v.Single)) w

variable {code : Listing} {a b c k m n : Nat} {one : Bool}

namespace Carries

theorem nil (code : Listing) (a : Nat) : Carries code a a 0 :=
  ⟨Nat.le_refl a, fun _ _ _ hat => .done hat⟩

theorem append (h₁ : Carries code a b m) (h₂ : Carries code b c n) : Carries code a c (m + n) := by
  refine ⟨Nat.le_trans h₁.le h₂.le, fun hc hr hcode hat => ?_⟩
  refine (h₁.run hc hr hcode hat).andThen hc hr h₁.le h₂.le fun v hl hv => ?_
  obtain ⟨vs, rfl, hvs⟩ := hv.exists_pushAll
  exact (h₂.run hc hr (hcode.mono hl) hvs).mono (fun _ => Activation.Inside.of_pushAll)
    fun _ => Activation.At.of_pushAll

/-- An operation other than a return that goes on to the next one. -/
theorem op {op : OpCode} (h : Carries code a b m) (hop : code b = some op) (hneeds : op.needs ≤ m)
    (hret : ∀ n, op ≠ .ret n) (hnext : op.next b m = [(b + 1, n)]) : Carries code a (b + 1) n := by
  refine ⟨Nat.le_succ_of_le h.le, fun hc hr hcode hat => ?_⟩
  refine (h.run hc hr hcode hat).andThen hc hr h.le (Nat.le_succ b) fun v hl hv => ?_
  refine .of_next hc hr
    ((Reentry.Next.flows hc hr (hcode.mono hl hop) hneeds hret hv).mono (fun _ => id) ?_)
  rintro u ⟨y, d, hmem, hu⟩
  rw [hnext] at hmem
  cases List.mem_singleton.1 hmem
  exact hu

/-- A jump over other code. -/
theorem jump {t : Nat} (hop : code a = some (.jump t)) (h : Carries code t b n) (hle : a < t) :
    Carries code a b n := by
  refine ⟨Nat.le_trans (Nat.le_of_lt hle) h.le, fun hc hr hcode hat => ?_⟩
  refine ((Reentry.Unless.jump hc hr (hcode hop) hat).mono
    (fun _ hp => hp.mono (Nat.le_refl a) hle) fun _ => id).andThen hc hr (Nat.le_of_lt hle) h.le ?_
  exact fun v hl hv => h.run hc hr (hcode.mono hl) hv

/-- A field of a table is set that lies below. -/
theorem tableSet (h : Carries code a b 2) (hop : code b = some .tableSet) :
    Carries code a (b + 1) 0 := by
  refine ⟨Nat.le_succ_of_le h.le, fun hc hr hcode hat => ?_⟩
  refine (h.run hc hr hcode hat).andThen hc hr h.le (Nat.le_succ b) fun v hl hv => ?_
  exact .tableSet hc hr (hcode.mono hl hop) hv

/-- Items are added to a table that lies below. -/
theorem tableAppend {i : Nat} {expand : Bool} (h : Carries code a b 1)
    (hop : code b = some (.tableAppend i expand)) : Carries code a (b + 1) 0 := by
  refine ⟨Nat.le_succ_of_le h.le, fun hc hr hcode hat => ?_⟩
  refine (h.run hc hr hcode hat).andThen hc hr h.le (Nat.le_succ b) fun v hl hv => ?_
  exact .tableAppend hc hr (hcode.mono hl hop) hv

end Carries

namespace Delivers

theorem of_carries (h : Carries code a b 1) : Delivers code a b false :=
  ⟨h.le, fun hc hr hcode hat => (h.run hc hr hcode hat).mono (fun _ => id) fun _ hu =>
    (Activation.at_succ.1 hu).imp fun _ hv => ⟨hv, fun h => by cases h⟩⟩

theorem carries (h : Delivers code a b one) : Carries code a b 1 :=
  ⟨h.le, fun hc hr hcode hat => (h.run hc hr hcode hat).mono (fun _ => id)
    fun _ ⟨_, hv, _⟩ => hv.of_push⟩

theorem weaken (h : Delivers code a b true) : Delivers code a b one :=
  ⟨h.le, fun hc hr hcode hat => (h.run hc hr hcode hat).mono (fun _ => id)
    fun _ ⟨v, hv, hsingle⟩ => ⟨v, hv, fun _ => hsingle rfl⟩⟩

/-- An operation that leaves one single value in the place of its operands. -/
theorem single {op : OpCode} (h : Carries code a b n) (hop : code b = some op)
    (harity : op.arity? = some n) (hliteral : ∀ v, op = .literal v → v.Single) :
    Delivers code a (b + 1) true := by
  refine ⟨Nat.le_succ_of_le h.le, fun hc hr hcode hat => ?_⟩
  refine (h.run hc hr hcode hat).andThen hc hr h.le (Nat.le_succ b) fun v hl hv => ?_
  refine (Reentry.Unless.single hc hr (hcode.mono hl hop) harity hv hliteral).mono (fun _ => id) ?_
  exact fun u ⟨v, hv, hsingle⟩ => ⟨v, hv, fun _ => hsingle⟩

/-- The value of a literal, a name or a closure. -/
theorem atom {op : OpCode} (hop : code a = some op) (harity : op.arity? = some 0)
    (hliteral : ∀ v, op = .literal v → v.Single) : Delivers code a (a + 1) true :=
  .single (.nil code a) hop harity hliteral

/-- The value is cut down to one. -/
theorem scalar (h : Delivers code a b one) (hop : code b = some .scalar) :
    Delivers code a (b + 1) true := by
  refine ⟨Nat.le_succ_of_le h.le, fun hc hr hcode hat => ?_⟩
  refine (h.run hc hr hcode hat).andThen hc hr h.le (Nat.le_succ b) fun v hl hv => ?_
  obtain ⟨v, hv, -⟩ := hv
  exact (Reentry.Unless.scalar hc hr (hcode.mono hl hop) hv).mono (fun _ => id)
    fun u hu => ⟨_, hu, fun _ => v.single_scalar⟩

/-- A table, with its fields. -/
theorem table (hop : code a = some .newTable) (h : Carries code (a + 1) b 0) :
    Delivers code a b true := by
  refine ⟨Nat.le_of_succ_le h.le, fun hc hr hcode hat => ?_⟩
  refine (Reentry.Unless.newTable hc hr (hcode hop) hat).andThen hc hr (Nat.le_succ a) h.le ?_
  rintro v hl ⟨id, hv⟩
  exact (h.run hc hr (hcode.mono hl) hv).mono (fun _ => Activation.Inside.of_push)
    fun u hu => ⟨_, hu, fun _ => rfl⟩

/-- The left operand of a logical operation, or the right one in its place. -/
theorem logical (h₁ : Delivers code a c true)
    (hop : code c = some (.jumpFalseOrPop b) ∨ code c = some (.jumpTrueOrPop b))
    (h₂ : Delivers code (c + 1) b true) : Delivers code a b true := by
  have hlt : c < b := h₂.le
  refine ⟨Nat.le_trans h₁.le (Nat.le_of_lt hlt), fun hc hr hcode hat => ?_⟩
  refine (h₁.run hc hr hcode hat).andThen hc hr h₁.le (Nat.le_of_lt hlt) fun v hl hv => ?_
  obtain ⟨left, hleft, hsingle⟩ := hv
  have hjump := hop.imp (hcode.mono hl) (hcode.mono hl)
  refine (Reentry.Unless.keepOrPop hc hr hjump hleft).andThen hc hr (Nat.le_succ c) h₂.le ?_
  rintro u hl' (hu | hu)
  · exact .done ⟨left, hu, hsingle⟩
  · exact h₂.run hc hr (hcode.mono (hl.trans hl')) hu

end Delivers

namespace Gen

/-! ## Every construct -/

/-- The code of an expression delivers its value. -/
def Delivering (e : Expr) : Prop :=
  (expr e).Places fun code a b => Delivers code a b (!e.isMultiValue)

/-- The code of some steps leaves `n` values. -/
def Carrying (x : Gen Code) (n : Nat) : Prop := x.Places fun code a b => Carries code a b n

variable {e : Expr} {s : Site}

/-- The value of an expression, cut down to one. -/
theorem delivers_scalar (he : Delivering e) {Q : Code → Code → Site → Prop}
    (hQ : ∀ c c' s', Makes s.address (c ++ c') [] s'.address
      (fun code _ => Delivers code s.address s'.address true) → Q c c' s') :
    (expr e).Ensures s fun c s₁ => (scalarAfter e).Ensures s₁ fun c' s' => Q c c' s' := by
  refine (he s).mono fun c s₁ h₁ => ?_
  unfold scalarAfter
  cases hmulti : e.isMultiValue with
  | true =>
    simp only [if_true, ensures_emit]
    refine hQ _ _ _ ((h₁.append (.op _ .scalar s₁.span)).imp fun code target h => ?_)
    exact h.1.scalar h.2
  | false =>
    simp only [Bool.false_eq_true, if_false, ensures_pure]
    refine hQ _ _ _ ?_
    rw [List.append_nil]
    rw [hmulti] at h₁
    exact h₁

theorem delivering_atom {x : Gen Code} {op : OpCode} (hx : expr e = x) (hop : x = emit op)
    (harity : op.arity? = some 0) (hliteral : ∀ v, op = .literal v → v.Single) : Delivering e := by
  intro s
  rw [hx, hop, ensures_emit]
  exact (Makes.op s.address op s.span).imp fun code target h => (Delivers.atom h harity hliteral).weaken

theorem delivering_literal {v : Value} (hx : expr e = emit (.literal v)) (hv : v.Single) :
    Delivering e :=
  delivering_atom hx rfl rfl fun u hu => by
    cases hu
    exact hv

theorem delivering_varargs : Delivering .varargs := by
  intro s
  simp only [expr, ensures_bind, ensures_get]
  split
  · rw [ensures_emit]
    refine (Makes.op s.address .varargs s.span).imp fun code target h => ?_
    exact .of_carries ((Carries.nil code s.address).op h (Nat.zero_le 0) (fun _ h => by cases h) rfl)
  · rw [ensures_failHere]
    trivial

theorem delivering_name (name : String) : Delivering (.name name) := by
  intro s
  simp only [expr, ensures_bind, ensures_resolve, ensures_emit]
  exact (Makes.op s.address (.load (s.scopes.resolve name).1) s.span).imp fun code target h =>
    (Delivers.atom h rfl fun _ h => by cases h).weaken

/-- Two values, and an operation on them. -/
theorem delivers_two {left right : Expr} (hl : Delivering left) (hr : Delivering right) {op : OpCode}
    (harity : op.arity? = some 2) (hliteral : ∀ v, op ≠ .literal v) :
    (expr left).Ensures s fun l s₁ => (scalarAfter left).Ensures s₁ fun l' s₂ =>
      (expr right).Ensures s₂ fun r s₃ => (scalarAfter right).Ensures s₃ fun r' s₄ =>
        (emit op).Ensures s₄ fun c s₅ =>
          (pure (l ++ l' ++ r ++ r' ++ c) : Gen Code).Ensures s₅ fun c s' =>
            Makes s.address c [] s'.address fun code _ => Delivers code s.address s'.address true := by
  refine delivers_scalar hl fun l l' s₁ h₁ => ?_
  refine delivers_scalar hr fun r r' s₂ h₂ => ?_
  rw [ensures_emit, ensures_pure]
  have hall := (h₁.append h₂).append (.op _ op s₂.span)
  simp only [List.append_nil, List.append_assoc] at hall ⊢
  refine hall.imp fun code target h => ?_
  exact .single (h.1.1.carries.append h.1.2.carries) h.2 harity fun v hv => absurd hv (hliteral v)

theorem delivering_binary {op : BinaryOp} {left right : Expr} (hl : Delivering left)
    (hr : Delivering right) : Delivering (.binary op left right) := by
  intro s
  simp only [expr, ensures_bind]
  exact delivers_two hl hr rfl fun _ h => by cases h

theorem delivering_index {object key : Expr} (ho : Delivering object) (hk : Delivering key) :
    Delivering (.index object key) := by
  intro s
  simp only [expr, ensures_bind]
  exact delivers_two ho hk rfl fun _ h => by cases h

theorem delivering_logical {op : LogicalOp} {left right : Expr} (hl : Delivering left)
    (hr : Delivering right) : Delivering (.logical op left right) := by
  intro s
  simp only [expr, ensures_bind]
  refine delivers_scalar hl fun l l' s₁ h₁ => ?_
  rw [ensures_reserve]
  refine delivers_scalar (s := { s₁ with address := s₁.address + 1 }) hr fun r r' s₂ h₂ => ?_
  rw [ensures_here, ensures_pure]
  have hall := fun op : OpCode => (h₁.append (.op _ op s₁.span)).append h₂
  simp only [List.append_nil, List.append_assoc] at hall ⊢
  cases op with
  | and => exact (hall (.jumpFalseOrPop s₂.address)).imp fun code target h =>
      .logical h.1.1 (.inl h.1.2) h.2
  | or => exact (hall (.jumpTrueOrPop s₂.address)).imp fun code target h =>
      .logical h.1.1 (.inr h.1.2) h.2

theorem delivering_unary {op : UnaryOp} {operand : Expr} (he : Delivering operand) :
    Delivering (.unary op operand) := by
  intro s
  simp only [expr, ensures_bind]
  refine delivers_scalar he fun c c' s₁ h₁ => ?_
  have happly : ∀ apply : OpCode, apply.arity? = some 1 → (∀ v, apply ≠ .literal v) →
      (emit apply).Ensures s₁ fun a s' => (pure (c ++ c' ++ a) : Gen Code).Ensures s' fun r s'' =>
        Makes s.address r [] s''.address fun code _ => Delivers code s.address s''.address true := by
    intro apply harity hliteral
    rw [ensures_emit, ensures_pure]
    refine (h₁.append (.op _ apply s₁.span)).imp fun code target h => ?_
    exact .single h.1.carries h.2 harity fun v hv => absurd hv (hliteral v)
  cases op with
  | not => exact happly _ rfl fun _ h => by cases h
  | neg => exact happly _ rfl fun _ h => by cases h
  | len => exact happly _ rfl fun _ h => by cases h

theorem delivering_paren (he : Delivering e) : Delivering (.paren e) := by
  intro s
  simp only [expr, ensures_bind]
  refine delivers_scalar he fun c c' s₁ h₁ => ?_
  rw [ensures_pure]
  exact h₁

theorem delivering_call {f : Expr} {args : List Expr} (hf : Delivering f)
    (hargs : Carrying (exprs args) args.length) : Delivering (.call f args) := by
  intro s
  simp only [expr, ensures_bind]
  refine delivers_scalar hf fun c c' s₁ h₁ => ?_
  refine (hargs s₁).mono fun vs s₂ h₂ => ?_
  rw [ensures_emit, ensures_pure]
  refine ((h₁.append h₂).append (.op _ (.call args.length) s₂.span)).imp fun code target h => ?_
  refine .of_carries ((h.1.1.carries.append h.1.2).op h.2 (Nat.le_of_eq (Nat.add_comm _ _))
    (fun _ h => by cases h) ?_)
  simp [OpCode.next, OpCode.leaves, Nat.add_comm 1]

theorem delivering_methodCall {object : Expr} {method : String} {args : List Expr}
    (ho : Delivering object) (hargs : Carrying (exprs args) args.length) :
    Delivering (.methodCall object method args) := by
  intro s
  simp only [expr, ensures_bind]
  refine delivers_scalar ho fun o o' s₁ h₁ => ?_
  rw [ensures_emit]
  refine (hargs _).mono fun vs s₂ h₂ => ?_
  rw [ensures_emit, ensures_pure]
  have hall := ((h₁.append (.op _ (.method method) s₁.span)).append h₂).append
    (.op _ (.call (args.length + 1)) s₂.span)
  refine hall.imp fun code target h => ?_
  have hself : Carries code s.address (s₁.address + 1) 2 :=
    h.1.1.1.carries.op h.1.1.2 (Nat.le_refl 1) (fun _ h => by cases h) rfl
  have hneeds : (OpCode.call (args.length + 1)).needs = 2 + args.length :=
    Nat.add_comm args.length 2
  refine .of_carries ((hself.append h.1.2).op h.2 (Nat.le_of_eq hneeds) (fun _ h => by cases h) ?_)
  simp [OpCode.next, OpCode.leaves, Nat.add_comm 2]

/-- Control passes over the code of a function to where the closure is made. -/
theorem delivering_function {name : String} {params : List String} {isVararg : Bool}
    {body : List Stat} {extent closing : Extent} :
    Delivering (.function (.mk name params isVararg body extent closing)) := by
  intro s
  simp only [expr, function, ensures_bind, ensures_reserve, ensures_currentSpan, ensures_spanOf,
    ensures_markSpan, ensures_emit, ensures_modifyScopes, ensures_forIn_declare, ensures_get,
    ensures_modify, ensures_markExtent, ensures_here, ensures_setSpan, ensures_pure,
    Site.marked_address, Site.marked_scopes, Site.marked_loops]
  refine (balancing_block body _).mono ?_
  rintro inner s₁ ⟨breaks, h₁⟩
  obtain rfl : breaks = [] := h₁.notes.inLoop rfl
  have hinner := h₁.makes
  have hskip := fun span => Makes.op s.address (.jump (s₁.address + 1)) span
  have hheader := fun kind n span => Makes.op (s.address + 1) (.header name kind n) span
  have hbegin := fun names span => Makes.op (s.address + 1 + 1) (.beginFn names) span
  have hargs := fun span => Makes.op (s.address + 1 + 1 + 1) (.args params.length isVararg) span
  have hret := fun span => Makes.op s₁.address (.ret 0) span
  have hmake := fun captures span => Makes.op (s₁.address + 1) (.closure (s.address + 1) captures) span
  have hall := fun kind n names captures p₁ p₂ p₃ p₄ p₅ p₆ =>
    ((((((hskip p₁).append (hheader kind n p₂)).append (hbegin names p₃)).append (hargs p₄)).append
      hinner).append (hret p₅)).append (hmake captures p₆)
  simp only [List.append_nil] at hall
  refine (hall _ _ _ _ _ _ _ _ _ _).imp fun code target h => ?_
  have hle := hinner.stop_eq
  dsimp only at hle
  exact .single (.jump h.1.1.1.1.1.1 (.nil code _) (by omega)) h.2 rfl fun _ h => by cases h

/-! ## Lists and fields -/

theorem carrying_nil : Carrying (exprs []) 0 := by
  intro s
  rw [exprs, ensures_pure]
  exact (Makes.nil _).imp fun code _ _ => .nil code _

theorem carrying_single (he : Delivering e) : Carrying (exprs [e]) 1 := by
  intro s
  rw [exprs]
  exact (he s).mono fun c s₁ h₁ => h₁.imp fun code _ h => h.carries

theorem carrying_cons {e' : Expr} {rest : List Expr} (he : Delivering e)
    (hrest : Carrying (exprs (e' :: rest)) (e' :: rest).length) :
    Carrying (exprs (e :: e' :: rest)) (e :: e' :: rest).length := by
  intro s
  simp only [exprs, ensures_bind]
  refine delivers_scalar he fun c c' s₁ h₁ => ?_
  refine (hrest s₁).mono fun cs s₂ h₂ => ?_
  rw [ensures_pure]
  refine (h₁.append h₂).imp fun code target h => ?_
  have hall := h.1.carries.append h.2
  rw [Nat.add_comm] at hall
  exact hall

theorem carrying_fields_nil (position : Nat) : Carrying (fields [] position) 0 := by
  intro s
  rw [fields, ensures_pure]
  exact (Makes.nil _).imp fun code _ _ => .nil code _

/-- A field, whatever is known of those behind it. -/
def Precedes (f : Field) (rest : List Field) (position next : Nat) : Prop :=
  ∀ P : Listing → Nat → Nat → Prop, (fields rest next).Places P →
    (fields (f :: rest) position).Places fun code a b => ∃ c, Carries code a c 0 ∧ P code c b

theorem precedes_positional {value : Expr} {rest : List Field} {position : Nat}
    (hv : Delivering value) : Precedes (.positional value) rest position (position + 1) := by
  intro P hrest s
  simp only [fields, ensures_bind]
  have hbehind : ∀ {c s₁} (expand : Bool), (Makes s.address c [] s₁.address fun code _ =>
      Carries code s.address s₁.address 1) →
      (emit (.tableAppend position expand)).Ensures s₁ fun a s₂ =>
        (fields rest (position + 1)).Ensures s₂ fun cs s₃ =>
          (pure (c ++ a ++ cs) : Gen Code).Ensures s₃ fun c s' =>
            Makes s.address c [] s'.address fun code _ =>
              ∃ m, Carries code s.address m 0 ∧ P code m s'.address := by
    intro c s₁ expand h₁
    rw [ensures_emit]
    refine (hrest _).mono fun cs s₂ h₂ => ?_
    rw [ensures_pure]
    refine ((h₁.append (.op _ (.tableAppend position expand) s₁.span)).append h₂).imp
      fun code target h => ?_
    exact ⟨_, h.1.1.tableAppend h.1.2, h.2⟩
  -- the last positional field may keep all its values
  cases hexpand : rest.isEmpty && value.isMultiValue with
  | true =>
    simp only [if_true, ensures_bind]
    refine (hv s).mono fun c s₁ h₁ => ?_
    rw [ensures_pure, List.append_nil]
    exact hbehind true (h₁.imp fun _ _ h => h.carries)
  | false =>
    simp only [Bool.false_eq_true, if_false, ensures_bind]
    refine delivers_scalar hv fun c c' s₁ h₁ => ?_
    exact hbehind false (h₁.imp fun _ _ h => h.carries)

/-- A key, its value, and the fields behind them. -/
theorem places_entry {value : Expr} {rest : List Field} {position : Nat} {k : Code} {s₁ : Site}
    {P : Listing → Nat → Nat → Prop}
    (hk : Makes s.address k [] s₁.address fun code _ => Delivers code s.address s₁.address true)
    (hv : Delivering value) (hrest : (fields rest position).Places P) :
    (expr value).Ensures s₁ fun c s₂ => (scalarAfter value).Ensures s₂ fun c' s₃ =>
      (emit .tableSet).Ensures s₃ fun a s₄ => (fields rest position).Ensures s₄ fun cs s₅ =>
        (pure (k ++ c ++ c' ++ a ++ cs) : Gen Code).Ensures s₅ fun c s' =>
          Makes s.address c [] s'.address fun code _ =>
            ∃ m, Carries code s.address m 0 ∧ P code m s'.address := by
  refine delivers_scalar hv fun c c' s₂ h₂ => ?_
  rw [ensures_emit]
  refine (hrest _).mono fun cs s₃ h₃ => ?_
  rw [ensures_pure]
  have hall := ((hk.append h₂).append (.op _ .tableSet s₂.span)).append h₃
  simp only [List.append_nil, List.append_assoc] at hall ⊢
  refine hall.imp fun code target h => ?_
  exact ⟨_, (h.1.1.1.carries.append h.1.1.2.carries).tableSet h.1.2, h.2⟩

theorem precedes_named {name : String} {value : Expr} {rest : List Field} {position : Nat}
    (hv : Delivering value) : Precedes (.named name value) rest position position := by
  intro P hrest s
  simp only [fields, ensures_bind]
  rw [ensures_emit]
  refine places_entry ((Makes.op _ (.literal (.string name)) s.span).imp fun code target h => ?_) hv hrest
  exact .atom h rfl fun _ h => by cases h; rfl

theorem precedes_keyed {key value : Expr} {rest : List Field} {position : Nat}
    (hk : Delivering key) (hv : Delivering value) :
    Precedes (.keyed key value) rest position position := by
  intro P hrest s
  simp only [fields, ensures_bind]
  exact delivers_scalar hk fun k k' s₁ h₁ => places_entry h₁ hv hrest

theorem Precedes.carrying {f : Field} {rest : List Field} {position next : Nat}
    (hf : Precedes f rest position next) (hrest : Carrying (fields rest next) 0) :
    Carrying (fields (f :: rest) position) 0 :=
  fun s => (hf _ hrest s).mono fun _ _ h => h.imp fun _ _ ⟨_, hfront, hback⟩ => hfront.append hback

theorem delivering_table {fs : List Field} (hfs : Carrying (fields fs 1) 0) :
    Delivering (.table fs) := by
  intro s
  simp only [expr, ensures_bind]
  rw [ensures_emit]
  refine (hfs _).mono fun cs s₁ h₁ => ?_
  rw [ensures_pure]
  exact ((Makes.op s.address .newTable s.span).append h₁).imp fun code target h => .table h.1 h.2

mutual

theorem delivering_expr : ∀ e : Expr, Delivering e
  | .nil => delivering_literal (by rw [expr]) rfl
  | .boolean b => delivering_literal (by rw [expr]) rfl
  | .number n => delivering_literal (by rw [expr]) rfl
  | .string s => delivering_literal (by rw [expr]) rfl
  | .varargs => delivering_varargs
  | .function (.mk ..) => delivering_function
  | .table fs => delivering_table (carrying_fields fs 1)
  | .binary _ left right => delivering_binary (delivering_expr left) (delivering_expr right)
  | .logical _ left right => delivering_logical (delivering_expr left) (delivering_expr right)
  | .unary _ operand => delivering_unary (delivering_expr operand)
  | .name n => delivering_name n
  | .index object key => delivering_index (delivering_expr object) (delivering_expr key)
  | .call f args => delivering_call (delivering_expr f) (carrying_exprs args)
  | .methodCall object _ args => delivering_methodCall (delivering_expr object) (carrying_exprs args)
  | .paren e => delivering_paren (delivering_expr e)

theorem carrying_exprs : ∀ es : List Expr, Carrying (exprs es) es.length
  | [] => carrying_nil
  | [e] => carrying_single (delivering_expr e)
  | e :: e' :: rest => carrying_cons (delivering_expr e) (carrying_exprs (e' :: rest))

theorem carrying_fields : ∀ (fs : List Field) (position : Nat), Carrying (fields fs position) 0
  | [], position => carrying_fields_nil position
  | .positional value :: rest, position =>
    (precedes_positional (delivering_expr value)).carrying (carrying_fields rest (position + 1))
  | .named _ value :: rest, position =>
    (precedes_named (delivering_expr value)).carrying (carrying_fields rest position)
  | .keyed key value :: rest, position =>
    (precedes_keyed (delivering_expr key) (delivering_expr value)).carrying
      (carrying_fields rest position)

end

end Gen

/-! ## What the code of an expression gives -/

namespace Reentry

variable {r : Reentry} {bottom : Processor} {stay : Processor → Prop} {goal : World → Prop}
  {w u v : World} {depth k m n : Nat}

/-- Instructions lead to one world. -/
theorem Passes.unique (h : r.Passes depth k w u) (h' : r.Passes depth k w v) : u = v := by
  induction h with
  | refl =>
    cases h'
    rfl
  | step hi hheard hstep _ ih =>
    cases h' with
    | step hi' hheard' hstep' h' =>
      obtain rfl := Option.some.inj (hi.symm.trans hi')
      cases hheard.symm.trans hheard'
      cases hstep.symm.trans hstep'
      exact ih h'

/-- Of some instructions, some come first. -/
theorem Passes.split (h : r.Passes depth (k + m) w u) :
    ∃ v, r.Passes depth k w v ∧ r.Passes depth m v u := by
  induction k generalizing w with
  | zero => exact ⟨w, .refl, Nat.zero_add m ▸ h⟩
  | succ k ih =>
    rw [Nat.add_right_comm] at h
    cases h with
    | step hi hheard hstep h =>
      obtain ⟨v, hk, hm⟩ := ih h
      exact ⟨v, .step hi hheard hstep hk, hm⟩

/-- From one world up to another, control is in some places. -/
def Lasts (r : Reentry) (depth : Nat) (stay : Processor → Prop) (w u : World) : Prop :=
  ∃ n, r.Passes depth n w u ∧ ∀ m v, m < n → r.Passes depth m w v → stay v.processor

theorem Lasts.refl : r.Lasts depth stay w w :=
  ⟨0, .refl, fun _ _ h => absurd h (Nat.not_lt_zero _)⟩

theorem Lasts.mono {stay' : Processor → Prop} (h : r.Lasts depth stay w u)
    (hstay : ∀ p, stay p → stay' p) : r.Lasts depth stay' w u :=
  h.imp fun _ h => ⟨h.1, fun m v hm hv => hstay _ (h.2 m v hm hv)⟩

theorem Lasts.trans (h₁ : r.Lasts depth stay w u) (h₂ : r.Lasts depth stay u v) :
    r.Lasts depth stay w v := by
  obtain ⟨m, hm, hstay⟩ := h₁
  obtain ⟨n, hn, hstay'⟩ := h₂
  refine ⟨m + n, hm.trans hn, fun j x hj hx => ?_⟩
  rcases Nat.lt_or_ge j m with hlt | hle
  · exact hstay j x hlt hx
  · obtain ⟨i, rfl⟩ := Nat.exists_eq_add_of_le hle
    obtain ⟨y, hy, hx⟩ := hx.split
    cases hm.unique hy
    exact hstay' i x (by omega) hx

/-- The first time at the goal. -/
theorem Unless.first (hc : r.Calm) (h : r.Unless bottom stay goal w) :
    r.Unless bottom stay (fun v => goal v ∧ r.Lasts bottom.frames.size stay w v) w := by
  intro hw ha n u hpasses hg
  refine (h hw ha hpasses hg).imp_right fun ⟨m, k, v, hn, hm, hk, hv⟩ => ?_
  -- an earlier world that is somewhere else has come by the goal before
  induction m using Nat.strongRecOn generalizing k v with
  | ind m ih =>
    by_cases hlasts : ∀ j x, j < m → r.Passes bottom.frames.size j w x → stay x.processor
    · exact ⟨m, k, v, hn, hm, hk, hv, m, hm, hlasts⟩
    · simp only [not_forall] at hlasts
      obtain ⟨j, x, hj, hx, haway⟩ := hlasts
      have hrest : r.Passes bottom.frames.size (n - j) x u := by
        obtain ⟨y, hy, hu⟩ := (show n = j + (n - j) by omega) ▸ hpasses |>.split
        exact hx.unique hy ▸ hu
      have hgx : x.Genuine := (hrest.follows hc bottom).later.genuine hg
      rcases h hw ha hx hgx with hstay | ⟨m', k', v', hj', hm', hk', hv'⟩
      · exact absurd hstay haway
      · exact ih m' (by omega) (k' + (n - j)) v' (by omega) hm' (hk'.trans hrest) hv'

/-- From one goal to the next, with what lies between them. -/
theorem Unless.andFirst {A : Activation} {a b c : Nat} {goal' : World → Prop} (hc : r.Calm)
    (hr : r.Sifting) (h : r.Unless bottom (A.Inside a b) goal w) (hab : a ≤ b) (hbc : b ≤ c)
    (hnext : ∀ v, w.Later v → v.Genuine → v.Sane → r.Lasts bottom.frames.size (A.Inside a b) w v →
      goal v → r.Unless bottom (A.Inside b c) goal' v) :
    r.Unless bottom (A.Inside a c) goal' w := by
  refine ((h.first hc).mono (fun p hp => hp.mono (Nat.le_refl a) hbc) fun _ => id).seq hc hr
    fun _ v _ hl hg hw ⟨hv, hlasts⟩ => ?_
  exact (hnext v hl hg hw hlasts hv).mono (fun p hp => hp.mono hab (Nat.le_refl c)) fun _ => id

/-- In a function, an expression gives a value: its code lies where control is, and when control has come
to the end of it for the first time, the value is on top. -/
def Yields (r : Reentry) (depth : Nat) (code : Listing) (A : Activation) (e : Expr) (w : World)
    (v : Value) (u : World) : Prop :=
  ∃ a b, (Gen.expr e).LiesIn code a b ∧ A.At 0 a w.processor ∧
    r.Lasts depth (A.Inside a b) w u ∧ (A.push v).At 0 b u.processor

end Reentry

namespace Gen

variable {x : Gen Code} {P : Listing → Nat → Nat → Prop}

/-- Where a property is had, the code lies. -/
theorem Places.liesFrom (hx : x.Places P) :
    x.PlacesFrom fun code s s' => x.LiesFrom s s' code ∧ P code s.address s'.address := by
  intro s c s' hok
  have hmakes := hx s c s' hok
  refine ⟨hmakes.stop_eq, hmakes.within, fun {code target redirect} htarget hr hcode => ?_⟩
  refine ⟨⟨c, hok, fun y op hy => ?_⟩, hmakes.holds htarget hr hcode⟩
  obtain ⟨hlo, hhi⟩ := listing_bounds hy
  have hnone : redirect y = none := by simpa using hr y hlo (hmakes.stop_eq ▸ hhi)
  rw [hcode y op hy, hnone]

theorem Places.lies (hx : x.Places P) : x.Places fun code a b => x.LiesIn code a b ∧ P code a b :=
  fun s => (hx.liesFrom s).mono fun _ s' h => h.imp fun _ _ ⟨⟨c, hok, hcode⟩, hP⟩ =>
    ⟨⟨s, c, s', hok, rfl, rfl, hcode⟩, hP⟩

end Gen

end LuaMachine
