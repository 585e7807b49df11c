import LuaMachine.Proofs.Code.Pieces

/-!
# The code of every construct fits

`Compiles s c i o holes exits s'` says what the generator promises of a piece `c` made between the
sites `s` and `s'`: the scopes have grown within bounds, and at whatever depth the piece is run it
takes `i` values off the stack and leaves `o`. Expressions leave no loose ends (`Evaluates`); the
loose ends of a statement are the jumps of `break`, which the innermost open loop has taken note of
(`Performs`).

There is one lemma for each construct, which assumes the promise for the parts. The induction over
the trees (`Gen.acts_block`) puts them together.
-/

namespace LuaMachine

/-- Loose ends of a piece of code that is run at depth `d`. -/
def raise (d : Nat) (ends : List (Nat × Nat)) : List (Nat × Nat) := ends.map fun p => (p.1, d + p.2)

theorem raise_nil (d : Nat) : raise d [] = [] := rfl

theorem raise_append (d : Nat) (a b : List (Nat × Nat)) : raise d (a ++ b) = raise d a ++ raise d b :=
  List.map_append

theorem raise_raise (d n : Nat) (ends : List (Nat × Nat)) :
    raise d (raise n ends) = raise (d + n) ends := by
  simp [raise, Nat.add_assoc]

/-- The same depth for several addresses. -/
def level (n : Nat) (addresses : List Nat) : List (Nat × Nat) := addresses.map (·, n)

theorem raise_level (d n : Nat) (addresses : List Nat) :
    raise d (level n addresses) = level (d + n) addresses := by
  simp [raise, level]

theorem mem_level {n : Nat} {addresses : List Nat} {p : Nat × Nat} :
    p ∈ level n addresses ↔ p.1 ∈ addresses ∧ p.2 = n := by
  obtain ⟨x, e⟩ := p
  constructor
  · intro h
    obtain ⟨a, ha, heq⟩ := List.mem_map.1 h
    cases heq
    exact ⟨ha, rfl⟩
  · rintro ⟨hx, rfl⟩
    exact List.mem_map.2 ⟨x, hx, rfl⟩

/-- A piece of code made between two sites, which takes `i` values and leaves `o`. -/
structure Compiles (s : Site) (c : Code) (i o : Nat) (holes exits : List (Nat × Nat)) (s' : Site) :
    Prop where
  bounded : s'.scopes.Bounded
  grows : s.scopes.Extends s'.scopes
  fits : ∀ d, Fits s'.scopes.current s.address c s'.address (d + i) (d + o) (raise d holes)
    (raise d exits)

namespace Compiles

variable {s s₁ s₂ t : Site} {c c₁ c₂ : Code} {i m o : Nat}
  {holes holes₁ holes₂ exits exits₁ exits₂ : List (Nat × Nat)}

/-- Any number of values may lie below those that the piece works on. -/
theorem lift (h : Compiles s c i o holes exits s₁) (n : Nat) :
    Compiles s c (n + i) (n + o) (raise n holes) (raise n exits) s₁ := by
  refine ⟨h.bounded, h.grows, ?_⟩
  intro d
  simpa only [raise_raise, Nat.add_assoc] using h.fits (d + n)

/-- Pieces compose. -/
theorem seq (h₁ : Compiles s c₁ i m holes₁ exits₁ s₁) (h₂ : Compiles s₁ c₂ m o holes₂ exits₂ s₂) :
    Compiles s (c₁ ++ c₂) i o (holes₁ ++ holes₂) (exits₁ ++ exits₂) s₂ := by
  refine ⟨h₂.bounded, h₁.grows.trans h₂.grows, ?_⟩
  intro d
  rw [raise_append, raise_append]
  exact ((h₁.fits d).mono h₂.grows.current).append (h₂.fits d)

theorem nil (hs : s.scopes.Bounded) (i : Nat) : Compiles s [] i i [] [] s :=
  ⟨hs, .refl _, fun _ => .nil _ _ _⟩

/-- A site counts only by its address and its scopes. -/
theorem congr_left (h : Compiles s c i o holes exits s₁) (ha : t.address = s.address)
    (hsc : t.scopes = s.scopes) : Compiles t c i o holes exits s₁ := by
  refine ⟨h.bounded, hsc ▸ h.grows, ?_⟩
  rw [ha]
  exact h.fits

theorem congr_right (h : Compiles s c i o holes exits s₁) (ha : t.address = s₁.address)
    (hsc : t.scopes = s₁.scopes) : Compiles s c i o holes exits t := by
  refine ⟨hsc ▸ h.bounded, hsc ▸ h.grows, ?_⟩
  rw [ha, hsc]
  exact h.fits

/-- Entering a block before a piece, and leaving it behind the piece, is the same to the piece. -/
theorem of_scopes_left (h : Compiles t c i o holes exits s₁) (ha : t.address = s.address)
    (hsc : s.scopes.Extends t.scopes) : Compiles s c i o holes exits s₁ := by
  refine ⟨h.bounded, hsc.trans h.grows, ?_⟩
  rw [← ha]
  exact h.fits

theorem of_scopes_right (h : Compiles s c i o holes exits s₁) (ha : t.address = s₁.address)
    (hb : t.scopes.Bounded) (hsc : s₁.scopes.Extends t.scopes) :
    Compiles s c i o holes exits t := by
  refine ⟨hb, h.grows.trans hsc, ?_⟩
  rw [ha]
  exact fun d => (h.fits d).mono hsc.current

/-- Exits to the two ends of a piece are no loose ends. -/
theorem close (h : Compiles s c i o holes exits s₁)
    (hex : ∀ p ∈ exits, p = (s.address, i) ∨ p = (s₁.address, o)) :
    Compiles s c i o holes [] s₁ := by
  refine ⟨h.bounded, h.grows, ?_⟩
  intro d
  refine (h.fits d).close ?_
  intro p hp
  obtain ⟨q, hq, rfl⟩ := List.mem_map.1 hp
  rcases hex q hq with rfl | rfl
  · exact .inl rfl
  · exact .inr (.inl rfl)

theorem congr_holes (h : Compiles s c i o holes exits s₁) (hh : ∀ p, p ∈ holes₁ ↔ p ∈ holes) :
    Compiles s c i o holes₁ exits s₁ := by
  refine ⟨h.bounded, h.grows, ?_⟩
  intro d
  refine (h.fits d).congr_holes ?_
  intro p
  simp only [raise, List.mem_map, hh]

/-- Redirecting holes of the right depth to the end of the piece fills them. -/
theorem patch {a b : List Nat} (h : Compiles s c i o (level o (a ++ b)) exits s₁) :
    Compiles s (Gen.patch a s₁.address s.address c) i o (level o b) exits s₁ := by
  refine ⟨h.bounded, h.grows, ?_⟩
  intro d
  have hf := h.fits d
  rw [raise_level] at hf ⊢
  refine hf.patch ?_ ?_ ?_
  · intro x hx
    exact mem_level.2 ⟨List.mem_append_left _ hx, rfl⟩
  · intro p hp
    obtain ⟨hp, he⟩ := mem_level.1 hp
    exact mem_level.2 ⟨List.mem_append_right _ hp, he⟩
  · intro p hp hnot
    obtain ⟨hp, he⟩ := mem_level.1 hp
    exact mem_level.2 ⟨(List.mem_append.1 hp).resolve_left hnot, he⟩

/-- A loop: its exits lead to its ends, and its breaks are redirected to behind it. -/
theorem loop {breaks : List Nat} (h : Compiles s c i i (level i breaks) exits s₁)
    (hex : ∀ p ∈ exits, p = (s.address, i) ∨ p = (s₁.address, i)) :
    Compiles s (Gen.patch breaks s₁.address s.address c) i i [] [] s₁ := by
  refine patch (b := []) ?_
  rw [List.append_nil]
  exact h.close hex

/-- One operation, whose ways other than to the next instruction are exits. -/
theorem op {op : OpCode} {span : Option Span} (hs : s.scopes.Bounded) (hp : op.isPlain = true)
    (hn : op.needs ≤ i)
    (hsl : op.SlotsWithin s.scopes.current.locals.length s.scopes.current.upvalues.length)
    (hnext : ∀ d y e, (y, e) ∈ op.next s.address (d + i) →
      (y = s.address + 1 ∧ e = d + o) ∨ (y, e) ∈ raise d exits)
    (ha : t.address = s.address + 1) (hsc : t.scopes = s.scopes) :
    Compiles s [⟨op, span⟩] i o [] exits t := by
  refine ⟨hsc ▸ hs, hsc ▸ .refl _, ?_⟩
  intro d
  rw [ha, hsc]
  exact Fits.op hp (Nat.le_trans hn (Nat.le_add_left _ _)) hsl (hnext d)

end Compiles

/-- A piece without loose ends. -/
structure Evaluates (s : Site) (c : Code) (i o : Nat) (s' : Site) : Prop where
  compiles : Compiles s c i o [] [] s'
  loops : s'.loops = s.loops

namespace Evaluates

variable {s s₁ s₂ : Site} {c c₁ c₂ : Code} {i m o : Nat}

theorem bounded (h : Evaluates s c i o s₁) : s₁.scopes.Bounded := h.compiles.bounded

theorem lift (h : Evaluates s c i o s₁) (n : Nat) : Evaluates s c (n + i) (n + o) s₁ :=
  ⟨h.compiles.lift n, h.loops⟩

/-- What pushes values pushes them on top of others. -/
theorem onTop (h : Evaluates s c 0 o s₁) (n : Nat) : Evaluates s c n (o + n) s₁ := by
  rw [Nat.add_comm o n]
  exact h.lift n

theorem seq (h₁ : Evaluates s c₁ i m s₁) (h₂ : Evaluates s₁ c₂ m o s₂) :
    Evaluates s (c₁ ++ c₂) i o s₂ :=
  ⟨h₁.compiles.seq h₂.compiles, h₂.loops.trans h₁.loops⟩

theorem nil (hs : s.scopes.Bounded) (i : Nat) : Evaluates s [] i i s := ⟨.nil hs i, rfl⟩

end Evaluates

/-- Take note of breaks in the innermost open loop. -/
def addBreaks (breaks : List Nat) : List (List Nat) → List (List Nat)
  | [] => []
  | b :: outer => (breaks ++ b) :: outer

@[simp] theorem addBreaks_nil (loops : List (List Nat)) : addBreaks [] loops = loops := by
  cases loops <;> rfl

theorem addBreaks_addBreaks (b₁ b₂ : List Nat) (loops : List (List Nat)) :
    addBreaks b₂ (addBreaks b₁ loops) = addBreaks (b₂ ++ b₁) loops := by
  cases loops with
  | nil => rfl
  | cons b outer => simp [addBreaks]

theorem addBreaks_eq_nil {breaks : List Nat} {loops : List (List Nat)} :
    addBreaks breaks loops = [] ↔ loops = [] := by
  cases loops <;> simp [addBreaks]

/-- The breaks made between two sites are noted in the innermost loop; outside of loops there are
none. -/
structure Notes (s : Site) (breaks : List Nat) (s' : Site) : Prop where
  loops : s'.loops = addBreaks breaks s.loops
  inLoop : s.loops = [] → breaks = []

namespace Notes

variable {s s₁ s₂ : Site} {b₁ b₂ : List Nat}

theorem of_eq (h : s₁.loops = s.loops) : Notes s [] s₁ := ⟨by rw [h, addBreaks_nil], fun _ => rfl⟩

theorem congr_left {t : Site} (h : Notes s b₁ s₁) (hl : t.loops = s.loops) : Notes t b₁ s₁ := by
  refine ⟨hl ▸ h.loops, ?_⟩
  rw [hl]
  exact h.inLoop

theorem trans (h₁ : Notes s b₁ s₁) (h₂ : Notes s₁ b₂ s₂) : Notes s (b₂ ++ b₁) s₂ := by
  refine ⟨by rw [h₂.loops, h₁.loops, addBreaks_addBreaks], ?_⟩
  intro hs
  have hs₁ : s₁.loops = [] := by rw [h₁.loops, addBreaks_eq_nil, hs]
  rw [h₁.inLoop hs, h₂.inLoop hs₁]
  rfl

/-- At the end of a loop its breaks are at hand, and the loops around it are as they were. -/
theorem closeLoop {loops : List (List Nat)} (h : Notes s b₁ s₁) (hs : s.loops = [] :: loops) :
    s₁.loops.headD [] = b₁ ∧ s₁.loops.tail = loops := by
  rw [h.loops, hs]
  simp [addBreaks]

end Notes

/-- A piece that leaves the stack as it was and whose loose ends are breaks. -/
structure Performs (s : Site) (c : Code) (breaks : List Nat) (s' : Site) : Prop where
  compiles : Compiles s c 0 0 (level 0 breaks) [] s'
  notes : Notes s breaks s'

theorem Performs.bounded {s s' : Site} {c : Code} {breaks : List Nat} (h : Performs s c breaks s') :
    s'.scopes.Bounded :=
  h.compiles.bounded

theorem Evaluates.performs {s s' : Site} {c : Code} (h : Evaluates s c 0 0 s') :
    Performs s c [] s' :=
  ⟨h.compiles, .of_eq h.loops⟩

/-- A step makes code that takes `i` values and leaves `o`. -/
def Computes (x : Gen Code) (i o : Nat) : Prop :=
  ∀ s : Site, s.scopes.Bounded → x.Ensures s fun c s' => Evaluates s c i o s'

/-- A step makes code that leaves the stack as it was. -/
def Acts (x : Gen Code) : Prop :=
  ∀ s : Site, s.scopes.Bounded → x.Ensures s fun c s' => ∃ breaks, Performs s c breaks s'

namespace Gen

/-! ## Single operations -/

/-- Operations that use no symbol and lead to the next instruction only. -/
def isSimple : OpCode → Bool
  | .nop | .literal _ | .pop _ | .copy _ | .varargs | .call _ | .method _ | .binary _ | .not | .neg
  | .len | .newTable | .tableSet | .tableAppend .. | .index | .indexSet _ | .makeTuple _ | .scalar
  | .forPrep | .forStep | .iterPrep => true
  | _ => false

theorem isPlain_of_isSimple {op : OpCode} (h : isSimple op = true) :
    op.isPlain = true ∧ (∀ l u, op.SlotsWithin l u) ∧
      ∀ x d, op.next x d = [(x + 1, op.leaves d)] := by
  cases op <;> first
    | exact ⟨rfl, fun _ _ => trivial, fun _ _ => rfl⟩
    | cases h

theorem computes_emit {op : OpCode} {i o : Nat} (hop : isSimple op = true) (hn : op.needs ≤ i)
    (ho : ∀ d, op.leaves (d + i) = d + o) : Computes (emit op) i o := by
  intro s hs
  rw [ensures_emit]
  obtain ⟨hp, hsl, hnext⟩ := isPlain_of_isSimple hop
  refine ⟨.op hs hp hn (hsl _ _) ?_ rfl rfl, rfl⟩
  intro d y e hy
  rw [hnext, ho, List.mem_singleton] at hy
  cases hy
  exact .inl ⟨rfl, rfl⟩

/-- An operation that uses a symbol of the function and leads to the next instruction only. -/
theorem evaluates_op {s : Site} (op : OpCode) {i o : Nat} (span : Option Span)
    (hs : s.scopes.Bounded) (hp : op.isPlain = true) (hn : op.needs ≤ i)
    (hsl : op.SlotsWithin s.scopes.current.locals.length s.scopes.current.upvalues.length)
    (hnext : ∀ d, op.next s.address (d + i) = [(s.address + 1, d + o)]) :
    Evaluates s [⟨op, span⟩] i o { s with address := s.address + 1 } := by
  refine ⟨.op hs hp hn hsl ?_ rfl rfl, rfl⟩
  intro d y e hy
  rw [hnext, List.mem_singleton] at hy
  cases hy
  exact .inl ⟨rfl, rfl⟩

/-- An operation that goes on or to another address. -/
theorem compiles_branch {s : Site} (op : OpCode) {i o target e : Nat} (span : Option Span)
    (hs : s.scopes.Bounded) (hp : op.isPlain = true) (hn : op.needs ≤ i)
    (hsl : ∀ l u, op.SlotsWithin l u)
    (hnext : ∀ x d, op.next x (d + i) = [(target, d + e), (x + 1, d + o)]) :
    Compiles s [⟨op, span⟩] i o [] [(target, e)] { s with address := s.address + 1 } := by
  refine .op hs hp hn (hsl _ _) ?_ rfl rfl
  intro d y e' hy
  rw [hnext] at hy
  rcases List.mem_cons.1 hy with hy | hy
  · cases hy
    exact .inr (List.mem_singleton.2 rfl)
  · cases List.mem_singleton.1 hy
    exact .inl ⟨rfl, rfl⟩

/-- A jump; what lies behind it may have any depth. -/
theorem compiles_jump {s : Site} (target i o : Nat) (span : Option Span) (hs : s.scopes.Bounded) :
    Compiles s [⟨.jump target, span⟩] i o [] [(target, i)] { s with address := s.address + 1 } := by
  refine .op hs rfl (Nat.zero_le _) trivial ?_ rfl rfl
  intro d y e hy
  cases List.mem_singleton.1 hy
  exact .inr (List.mem_singleton.2 rfl)

theorem computes_scalarAfter (e : Expr) : Computes (scalarAfter e) 1 1 := by
  intro s hs
  unfold scalarAfter
  split
  · have h : Computes (emit .scalar) 1 1 := computes_emit rfl (Nat.le_refl _) fun _ => rfl
    exact h s hs
  · rw [ensures_pure]
    exact .nil hs 1

/-- The value of an expression, cut down to one. -/
theorem computes_scalar {e : Expr} (he : Computes (expr e) 0 1) {s : Site} (hs : s.scopes.Bounded)
    {Q : Code → Code → Site → Prop} (hQ : ∀ c c' s', Evaluates s (c ++ c') 0 1 s' → Q c c' s') :
    (expr e).Ensures s fun c s₁ => (scalarAfter e).Ensures s₁ fun c' s' => Q c c' s' := by
  refine (he s hs).mono fun c s₁ h₁ => ?_
  refine (computes_scalarAfter e s₁ h₁.bounded).mono fun c' s₂ h₂ => ?_
  exact hQ c c' s₂ (h₁.seq h₂)

/-- A resolved name, and an operation on what it stands for. -/
theorem ensures_resolve_op {s : Site} (op : Symbol → OpCode) {i o : Nat} (hs : s.scopes.Bounded)
    (name : String) (hp : ∀ sym, (op sym).isPlain = true) (hn : ∀ sym, (op sym).needs ≤ i)
    (hsl : ∀ sym l u, sym.Within l u → (op sym).SlotsWithin l u)
    (hnext : ∀ sym x d, (op sym).next x (d + i) = [(x + 1, d + o)]) :
    (resolve name).Ensures s fun sym s₁ =>
      (emit (op sym)).Ensures s₁ fun c s' => Evaluates s c i o s' := by
  obtain ⟨hb, hext, hcov⟩ := ScopeStack.resolve_bounded hs name
  simp only [ensures_resolve, ensures_emit]
  have hop := evaluates_op (s := { s with scopes := (s.scopes.resolve name).2 }) _ s.span hb
    (hp _) (hn _) (hsl _ _ _ hcov) fun d => hnext _ _ d
  exact ⟨hop.compiles.of_scopes_left rfl hext, rfl⟩

/-! ## Expressions -/

theorem computes_literal (v : Value) : Computes (emit (.literal v)) 0 1 :=
  computes_emit rfl (Nat.le_refl _) fun _ => rfl

theorem computes_varargs : Computes (expr .varargs) 0 1 := by
  intro s hs
  simp only [expr, ensures_bind, ensures_get]
  split
  · have h : Computes (emit .varargs) 0 1 := computes_emit rfl (Nat.le_refl _) fun _ => rfl
    exact h s hs
  · rw [ensures_failHere]
    trivial

theorem computes_name (name : String) : Computes (expr (.name name)) 0 1 := by
  intro s hs
  simp only [expr, ensures_bind]
  exact ensures_resolve_op .load hs name (fun _ => rfl) (fun _ => Nat.le_refl _) (fun _ _ _ h => h)
    fun _ _ _ => rfl

theorem computes_binary {op : BinaryOp} {left right : Expr} (hl : Computes (expr left) 0 1)
    (hr : Computes (expr right) 0 1) : Computes (expr (.binary op left right)) 0 1 := by
  intro s hs
  have hop : Computes (emit (.binary op)) 2 1 := computes_emit rfl (Nat.le_refl _) fun _ => rfl
  simp only [expr, ensures_bind]
  refine computes_scalar hl hs fun l l' s₁ h₁ => ?_
  refine computes_scalar hr h₁.bounded fun r r' s₂ h₂ => ?_
  refine (hop s₂ h₂.bounded).mono fun b s₃ h₃ => ?_
  rw [ensures_pure]
  simpa only [List.append_assoc] using (h₁.seq (h₂.lift 1)).seq h₃

theorem computes_logical {op : LogicalOp} {left right : Expr} (hl : Computes (expr left) 0 1)
    (hr : Computes (expr right) 0 1) : Computes (expr (.logical op left right)) 0 1 := by
  intro s hs
  simp only [expr, ensures_bind]
  refine computes_scalar hl hs fun l l' s₁ h₁ => ?_
  rw [ensures_reserve]
  refine computes_scalar (s := { s₁ with address := s₁.address + 1 }) hr h₁.bounded
    fun r r' s₂ h₂ => ?_
  rw [ensures_here, ensures_pure]
  -- the short cut keeps the left value and goes behind the right one
  have hshort : ∀ op : OpCode, op.isPlain = true → op.needs ≤ 1 → (∀ l u, op.SlotsWithin l u) →
      (∀ x d, op.next x (d + 1) = [(s₂.address, d + 1), (x + 1, d + 0)]) →
      Evaluates s (l ++ l' ++ [⟨op, s₁.span⟩] ++ r ++ r') 0 1 s₂ := by
    intro op hp hn hsl hnext
    have hj := compiles_branch op s₁.span h₁.bounded hp hn hsl hnext
    refine ⟨?_, h₂.loops.trans h₁.loops⟩
    simp only [List.append_assoc]
    have hall := (h₁.compiles.seq hj).seq h₂.compiles
    simp only [List.append_assoc] at hall
    refine hall.close ?_
    intro p hp
    exact .inr (List.mem_singleton.1 hp)
  cases op with
  | and => exact hshort (.jumpFalseOrPop s₂.address) rfl (Nat.le_refl _) (fun _ _ => trivial) fun _ _ => rfl
  | or => exact hshort (.jumpTrueOrPop s₂.address) rfl (Nat.le_refl _) (fun _ _ => trivial) fun _ _ => rfl

theorem computes_unary {op : UnaryOp} {operand : Expr} (he : Computes (expr operand) 0 1) :
    Computes (expr (.unary op operand)) 0 1 := by
  intro s hs
  have hop : ∀ apply : OpCode, isSimple apply = true → apply.needs ≤ 1 →
      (∀ d, apply.leaves d = d) → Computes (emit apply) 1 1 :=
    fun apply h₁ h₂ h₃ => computes_emit h₁ h₂ fun _ => h₃ _
  simp only [expr, ensures_bind]
  refine computes_scalar he hs fun c c' s₁ h₁ => ?_
  have happly : ∀ apply : OpCode, Computes (emit apply) 1 1 →
      (emit apply).Ensures s₁ fun a s' => (pure (c ++ c' ++ a) : Gen Code).Ensures s' fun r s'' =>
        Evaluates s r 0 1 s'' := by
    intro apply h
    refine (h s₁ h₁.bounded).mono fun a s₂ h₂ => ?_
    rw [ensures_pure]
    exact h₁.seq h₂
  cases op with
  | not => exact happly _ (hop .not rfl (Nat.le_refl _) fun _ => rfl)
  | neg => exact happly _ (hop .neg rfl (Nat.le_refl _) fun _ => rfl)
  | len => exact happly _ (hop .len rfl (Nat.le_refl _) fun _ => rfl)

theorem computes_index {object key : Expr} (ho : Computes (expr object) 0 1)
    (hk : Computes (expr key) 0 1) : Computes (expr (.index object key)) 0 1 := by
  intro s hs
  have hop : Computes (emit .index) 2 1 := computes_emit rfl (Nat.le_refl _) fun _ => rfl
  simp only [expr, ensures_bind]
  refine computes_scalar ho hs fun l l' s₁ h₁ => ?_
  refine computes_scalar hk h₁.bounded fun r r' s₂ h₂ => ?_
  refine (hop s₂ h₂.bounded).mono fun b s₃ h₃ => ?_
  rw [ensures_pure]
  simpa only [List.append_assoc] using (h₁.seq (h₂.lift 1)).seq h₃

theorem computes_paren {e : Expr} (he : Computes (expr e) 0 1) :
    Computes (expr (.paren e)) 0 1 := by
  intro s hs
  simp only [expr, ensures_bind]
  refine computes_scalar he hs fun c c' s₁ h₁ => ?_
  rw [ensures_pure]
  exact h₁

/-- A call takes the function and its arguments and leaves what it returns. -/
theorem computes_emit_call (argc : Nat) : Computes (emit (.call argc)) (argc + 1) 1 := by
  refine computes_emit rfl (Nat.le_refl _) ?_
  intro d
  simp only [OpCode.leaves]
  omega

theorem computes_call {f : Expr} {args : List Expr} (hf : Computes (expr f) 0 1)
    (hargs : Computes (exprs args) 0 args.length) : Computes (expr (.call f args)) 0 1 := by
  intro s hs
  simp only [expr, ensures_bind]
  refine computes_scalar hf hs fun c c' s₁ h₁ => ?_
  refine (hargs s₁ h₁.bounded).mono fun vs s₂ h₂ => ?_
  refine (computes_emit_call args.length s₂ h₂.bounded).mono fun call s₃ h₃ => ?_
  rw [ensures_pure]
  exact (h₁.seq (h₂.onTop 1)).seq h₃

theorem computes_methodCall {object : Expr} {method : String} {args : List Expr}
    (ho : Computes (expr object) 0 1) (hargs : Computes (exprs args) 0 args.length) :
    Computes (expr (.methodCall object method args)) 0 1 := by
  intro s hs
  have hm : Computes (emit (.method method)) 1 2 := computes_emit rfl (Nat.le_refl _) fun _ => rfl
  simp only [expr, ensures_bind]
  refine computes_scalar ho hs fun o o' s₁ h₁ => ?_
  refine (hm s₁ h₁.bounded).mono fun m s₂ h₂ => ?_
  refine (hargs s₂ h₂.bounded).mono fun vs s₃ h₃ => ?_
  refine (computes_emit_call (args.length + 1) s₃ h₃.bounded).mono fun call s₄ h₄ => ?_
  rw [ensures_pure]
  exact ((h₁.seq h₂).seq (h₃.onTop 2)).seq h₄

theorem computes_exprs_cons {e e' : Expr} {rest : List Expr} (he : Computes (expr e) 0 1)
    (hrest : Computes (exprs (e' :: rest)) 0 (e' :: rest).length) :
    Computes (exprs (e :: e' :: rest)) 0 (e :: e' :: rest).length := by
  intro s hs
  simp only [exprs, ensures_bind]
  refine computes_scalar he hs fun c c' s₁ h₁ => ?_
  refine (hrest s₁ h₁.bounded).mono fun cs s₂ h₂ => ?_
  rw [ensures_pure]
  exact h₁.seq (h₂.onTop 1)

/-! ## Tables and assignments -/

theorem computes_emit_tableSet : Computes (emit .tableSet) 3 1 :=
  computes_emit rfl (Nat.le_refl _) fun _ => rfl

theorem computes_fields_positional {value : Expr} {rest : List Field} {position : Nat}
    (hv : Computes (expr value) 0 1) (hrest : Computes (fields rest (position + 1)) 1 1) :
    Computes (fields (.positional value :: rest) position) 1 1 := by
  intro s hs
  have hop : ∀ expand, Computes (emit (.tableAppend position expand)) 2 1 :=
    fun expand => computes_emit rfl (Nat.le_refl _) fun _ => rfl
  simp only [fields, ensures_bind]
  refine (hv s hs).mono fun c s₁ h₁ => ?_
  have hbehind : ∀ c' s₂, Evaluates s₁ c' 1 1 s₂ → ∀ expand,
      (emit (.tableAppend position expand)).Ensures s₂ fun a s₃ =>
        (fields rest (position + 1)).Ensures s₃ fun cs s₄ =>
          (pure (c ++ c' ++ a ++ cs) : Gen Code).Ensures s₄ fun r s' => Evaluates s r 1 1 s' := by
    intro c' s₂ h₂ expand
    refine (hop expand s₂ h₂.bounded).mono fun a s₃ h₃ => ?_
    refine (hrest s₃ h₃.bounded).mono fun cs s₄ h₄ => ?_
    rw [ensures_pure]
    exact (((h₁.onTop 1).seq (h₂.lift 1)).seq h₃).seq h₄
  -- the last positional field may keep all its values
  split
  · simp only [ensures_bind]
    rw [ensures_pure]
    exact hbehind [] s₁ (.nil h₁.bounded 1) _
  · simp only [ensures_bind]
    exact (computes_scalarAfter value s₁ h₁.bounded).mono fun c' s₂ h₂ => hbehind c' s₂ h₂ _

theorem computes_fields_named {name : String} {value : Expr} {rest : List Field} {position : Nat}
    (hv : Computes (expr value) 0 1) (hrest : Computes (fields rest position) 1 1) :
    Computes (fields (.named name value :: rest) position) 1 1 := by
  intro s hs
  simp only [fields, ensures_bind]
  refine (computes_literal _ s hs).mono fun k s₁ h₁ => ?_
  refine computes_scalar hv h₁.bounded fun c c' s₂ h₂ => ?_
  refine (computes_emit_tableSet s₂ h₂.bounded).mono fun a s₃ h₃ => ?_
  refine (hrest s₃ h₃.bounded).mono fun cs s₄ h₄ => ?_
  rw [ensures_pure]
  simpa only [List.append_assoc] using (((h₁.onTop 1).seq (h₂.onTop 2)).seq h₃).seq h₄

theorem computes_fields_keyed {key value : Expr} {rest : List Field} {position : Nat}
    (hk : Computes (expr key) 0 1) (hv : Computes (expr value) 0 1)
    (hrest : Computes (fields rest position) 1 1) :
    Computes (fields (.keyed key value :: rest) position) 1 1 := by
  intro s hs
  simp only [fields, ensures_bind]
  refine computes_scalar hk hs fun k k' s₁ h₁ => ?_
  refine computes_scalar hv h₁.bounded fun c c' s₂ h₂ => ?_
  refine (computes_emit_tableSet s₂ h₂.bounded).mono fun a s₃ h₃ => ?_
  refine (hrest s₃ h₃.bounded).mono fun cs s₄ h₄ => ?_
  rw [ensures_pure]
  simpa only [List.append_assoc] using (((h₁.onTop 1).seq (h₂.onTop 2)).seq h₃).seq h₄

theorem computes_table {fs : List Field} (hfs : Computes (fields fs 1) 1 1) :
    Computes (expr (.table fs)) 0 1 := by
  intro s hs
  have hop : Computes (emit .newTable) 0 1 := computes_emit rfl (Nat.le_refl _) fun _ => rfl
  simp only [expr, ensures_bind]
  refine (hop s hs).mono fun c s₁ h₁ => ?_
  refine (hfs s₁ h₁.bounded).mono fun cs s₂ h₂ => ?_
  rw [ensures_pure]
  exact h₁.seq h₂

/-- A new variable, which an operation binds. -/
theorem evaluates_declare {s : Site} (op : Nat → OpCode) {i : Nat} (span : Option Span)
    (hs : s.scopes.Bounded) (name : String) (hp : ∀ slot, (op slot).isPlain = true)
    (hn : ∀ slot, (op slot).needs ≤ i) (hsl : ∀ slot l u, slot < l → (op slot).SlotsWithin l u)
    (hnext : ∀ slot x d, (op slot).next x (d + i) = [(x + 1, d + i)]) :
    Evaluates s [⟨op s.scopes.nextSlot, span⟩] i i
      { s with scopes := s.scopes.declare name, address := s.address + 1 } := by
  have hslot : s.scopes.nextSlot < (s.scopes.declare name).current.locals.length := by
    rw [ScopeStack.length_locals_declare hs.1]
    exact Nat.lt_succ_self _
  have hop := evaluates_op (s := { s with scopes := s.scopes.declare name }) _ span
    (hs.declare name) (hp _) (hn _) (hsl _ _ _ hslot) fun d => hnext _ _ d
  exact ⟨hop.compiles.of_scopes_left rfl (ScopeStack.extends_declare _ name), rfl⟩

theorem computes_bindNames (names : List String) (i : Nat) : Computes (bindNames names i) 1 1 := by
  induction names generalizing i with
  | nil =>
    intro s hs
    rw [bindNames, ensures_pure]
    exact .nil hs 1
  | cons name names ih =>
    intro s hs
    simp only [bindNames, ensures_bind, ensures_declare, ensures_emit]
    have h₁ := evaluates_declare (.local · i) (i := 1) s.span hs name
      (fun _ => rfl) (fun _ => Nat.le_refl _) (fun _ _ _ h => h) fun _ _ _ => rfl
    refine (ih (i + 1) _ h₁.bounded).mono fun cs s₂ h₂ => ?_
    rw [ensures_pure]
    exact h₁.seq h₂

theorem computes_assignField : ∀ (keys : List String), keys ≠ [] → Computes (assignField keys) 2 1
  | [], h => absurd rfl h
  | [key], _ => by
    intro s hs
    have hop : Computes (emit (.indexSet 0)) 3 1 := computes_emit rfl (Nat.le_refl _) fun _ => rfl
    simp only [assignField, ensures_bind]
    refine (computes_literal _ s hs).mono fun k s₁ h₁ => ?_
    refine (hop s₁ h₁.bounded).mono fun a s₂ h₂ => ?_
    rw [ensures_pure]
    exact (h₁.onTop 2).seq h₂
  | key :: key' :: rest, _ => by
    intro s hs
    have hop : Computes (emit .index) 2 1 := computes_emit rfl (Nat.le_refl _) fun _ => rfl
    have ih := computes_assignField (key' :: rest) (by simp)
    simp only [assignField, ensures_bind]
    refine (computes_literal _ s hs).mono fun k s₁ h₁ => ?_
    refine (hop s₁ h₁.bounded).mono fun a s₂ h₂ => ?_
    refine (ih s₂ h₂.bounded).mono fun cs s₃ h₃ => ?_
    rw [ensures_pure]
    exact ((h₁.onTop 2).seq (h₂.lift 1)).seq h₃

theorem computes_assignTo_name {name : String} {rest : List Expr} {i : Nat}
    (hrest : Computes (assignTo rest (i + 1)) 1 1) :
    Computes (assignTo (.name name :: rest) i) 1 1 := by
  intro s hs
  simp only [assignTo, ensures_bind]
  have hstore := ensures_resolve_op (.store · i) (i := 1) (o := 1) hs name
    (fun _ => rfl) (fun _ => Nat.le_refl _) (fun _ _ _ h => h) fun _ _ _ => rfl
  refine hstore.mono fun sym s₁ h₁ => ?_
  refine h₁.mono fun c s₂ h₂ => ?_
  refine (hrest s₂ h₂.bounded).mono fun cs s₃ h₃ => ?_
  rw [ensures_pure]
  exact h₂.seq h₃

theorem computes_assignTo_index {object key : Expr} {rest : List Expr} {i : Nat}
    (ho : Computes (expr object) 0 1) (hk : Computes (expr key) 0 1)
    (hrest : Computes (assignTo rest (i + 1)) 1 1) :
    Computes (assignTo (.index object key :: rest) i) 1 1 := by
  intro s hs
  have hop : Computes (emit (.indexSet i)) 3 1 := computes_emit rfl (Nat.le_refl _) fun _ => rfl
  simp only [assignTo, ensures_bind]
  refine computes_scalar ho hs fun o o' s₁ h₁ => ?_
  refine computes_scalar hk h₁.bounded fun k k' s₂ h₂ => ?_
  refine (hop s₂ h₂.bounded).mono fun a s₃ h₃ => ?_
  refine (hrest s₃ h₃.bounded).mono fun cs s₄ h₄ => ?_
  rw [ensures_pure]
  simpa only [List.append_assoc] using (((h₁.onTop 1).seq (h₂.onTop 2)).seq h₃).seq h₄

end Gen

end LuaMachine
