import LuaMachine.Proofs.Code.Blocks

/-!
# How compiled code is laid out

Three facts about compiled code that hold for every piece of it, whatever the scopes are: the
literals are values without an identity, the instruction that makes a closure stands right behind
the code of its function, and the exit of a counting or generic loop lies ahead. From the second it
follows that the functions of a chunk are nested: what lies in a function and belongs to an inner one
belongs to it as a whole (`AllVerified.nested`), so a jump inside a function never leaves it.

Main statement: `laid_compile`.
-/

namespace LuaMachine

/-- The values that a literal can have. -/
def Value.isLiteral : Value → Bool
  | nil | boolean _ | number _ | string _ => true
  | _ => false

/-- Where a loop goes on when it is over. -/
def OpCode.exit? : OpCode → Option Nat
  | forLoop t | iterCheck t => some t
  | _ => none

/-- Operations that may stand anywhere: all but closures, literals of other values, and the checks of
loops. -/
def OpCode.standsAlone : OpCode → Bool
  | closure .. | forLoop _ | iterCheck _ => false
  | literal v => v.isLiteral
  | _ => true

/-- The code from `start` up to `stop` has plain literals, loops are left forwards, and each closure
stands at the end of its function. -/
structure Laid (start : Nat) (c : Code) (stop : Nat) : Prop where
  stop_eq : stop = start + c.length
  literals : ∀ {x v}, listing start c x = some (.literal v) → v.isLiteral = true
  exits : ∀ {x op t}, listing start c x = some op → op.exit? = some t → x < t
  closures : ∀ {x h captures}, listing start c x = some (.closure h captures) →
    h ≤ x ∧ ∃ name kind, listing start c h = some (.header name kind (x - h))

namespace Laid

variable {start mid stop : Nat} {c c₁ c₂ : Code}

theorem nil (start : Nat) : Laid start [] start := by
  refine ⟨rfl, ?_, ?_, ?_⟩ <;> intro x <;> simp [listing_nil]

theorem op {op : OpCode} (h : op.standsAlone = true) (start : Nat) (span : Option Span) :
    Laid start [⟨op, span⟩] (start + 1) := by
  refine ⟨rfl, ?_, ?_, ?_⟩
  · intro x v hx
    obtain ⟨-, rfl⟩ := listing_singleton _ hx
    exact h
  · intro x op' t hx ht
    obtain ⟨-, rfl⟩ := listing_singleton _ hx
    cases op' with
    | forLoop t | iterCheck t => cases h
    | _ => cases ht
  · intro x a captures hx
    obtain ⟨-, rfl⟩ := listing_singleton _ hx
    cases h

/-- The check of a loop, with an exit ahead. -/
theorem check {op : OpCode} {t : Nat} (hop : op.exit? = some t) {start : Nat} (h : start < t)
    (span : Option Span) : Laid start [⟨op, span⟩] (start + 1) := by
  refine ⟨rfl, ?_, ?_, ?_⟩
  · intro x v hx
    obtain ⟨-, rfl⟩ := listing_singleton _ hx
    cases hop
  · intro x op' t' hx ht
    obtain ⟨rfl, rfl⟩ := listing_singleton _ hx
    rw [hop] at ht
    cases ht
    exact h
  · intro x a captures hx
    obtain ⟨-, rfl⟩ := listing_singleton _ hx
    cases hop

theorem append (h₁ : Laid start c₁ mid) (h₂ : Laid mid c₂ stop) : Laid start (c₁ ++ c₂) stop := by
  obtain rfl := h₁.stop_eq
  have hstop := h₂.stop_eq
  -- an operation of the whole is one of a part, at the same address
  have hcases : ∀ {x op}, listing start (c₁ ++ c₂) x = some op →
      listing start c₁ x = some op ∨ listing (start + c₁.length) c₂ x = some op := by
    intro x op hx
    by_cases hlt : x < start + c₁.length
    · exact .inl (by rw [← listing_append_left hlt, hx])
    · exact .inr (by rw [← listing_append_right (Nat.le_of_not_lt hlt), hx])
  have hleft : ∀ {x op}, listing start c₁ x = some op → listing start (c₁ ++ c₂) x = some op := by
    intro x op hx
    rw [listing_append_left (listing_bounds hx).2, hx]
  have hright : ∀ {x op}, listing (start + c₁.length) c₂ x = some op →
      listing start (c₁ ++ c₂) x = some op := by
    intro x op hx
    rw [listing_append_right (listing_bounds hx).1, hx]
  refine ⟨by rw [hstop, List.length_append, Nat.add_assoc], ?_, ?_, ?_⟩
  · intro x v hx
    rcases hcases hx with hx | hx
    · exact h₁.literals hx
    · exact h₂.literals hx
  · intro x op t hx ht
    rcases hcases hx with hx | hx
    · exact h₁.exits hx ht
    · exact h₂.exits hx ht
  · intro x a captures hx
    rcases hcases hx with hx | hx
    · obtain ⟨ha, name, kind, hheader⟩ := h₁.closures hx
      exact ⟨ha, name, kind, hleft hheader⟩
    · obtain ⟨ha, name, kind, hheader⟩ := h₂.closures hx
      exact ⟨ha, name, kind, hright hheader⟩

/-- Redirecting jumps to what is ahead moves nothing. -/
theorem patch (h : Laid start c stop) (addresses : List Nat) {target : Nat}
    (htarget : stop ≤ target) : Laid start (Gen.patch addresses target start c) stop := by
  have hback : ∀ {x op}, listing start (Gen.patch addresses target start c) x = some op →
      op.jumpTarget? = none → listing start c x = some op := by
    intro x op hx hop
    rw [listing_patch, Option.map_eq_some_iff] at hx
    obtain ⟨op', hx', rfl⟩ := hx
    rw [hx']
    split at hop
    · next hmem =>
      rw [if_pos hmem]
      cases op' <;> simp_all [OpCode.withTarget, OpCode.jumpTarget?]
    · next hmem => rw [if_neg hmem]
  refine ⟨by rw [length_patch]; exact h.stop_eq, ?_, ?_, ?_⟩
  · intro x v hx
    exact h.literals (hback hx rfl)
  · intro x op t hx ht
    rw [listing_patch, Option.map_eq_some_iff] at hx
    obtain ⟨op', hx', rfl⟩ := hx
    split at ht
    · -- the new target lies behind all the code
      have hlt := (listing_bounds hx').2
      have hstop := h.stop_eq
      cases op' <;> simp_all only [OpCode.withTarget, OpCode.exit?, Option.some.injEq, reduceCtorEq] <;>
        omega
    · exact h.exits hx' ht
  · intro x a captures hx
    obtain ⟨ha, name, kind, hheader⟩ := h.closures (hback hx rfl)
    refine ⟨ha, name, kind, ?_⟩
    rw [listing_patch, hheader, Option.map_some]
    split <;> rfl

/-- A function: a header that covers the code up to the closure, and the closure. -/
theorem function (h : Laid (start + 1) c stop) (name : String) (kind : HeaderKind)
    (captures : List Symbol) (span span' : Option Span) :
    Laid start ([⟨.header name kind (stop - start), span⟩] ++ c ++ [⟨.closure start captures, span'⟩])
      (stop + 1) := by
  have hheader : Laid start [⟨.header name kind (stop - start), span⟩] (start + 1) :=
    .op rfl start span
  have hbody := hheader.append h
  have hle : start ≤ stop := by
    rw [h.stop_eq]
    omega
  have hcases : ∀ {x op}, listing start
      ([⟨.header name kind (stop - start), span⟩] ++ c ++ [⟨.closure start captures, span'⟩]) x =
        some op →
      listing start ([⟨.header name kind (stop - start), span⟩] ++ c) x = some op ∨
        (x = stop ∧ op = .closure start captures) := by
    intro x op hx
    by_cases hlt : x < start + ([⟨.header name kind (stop - start), span⟩] ++ c : Code).length
    · exact .inl (by rw [← listing_append_left hlt, hx])
    · rw [listing_append_right (Nat.le_of_not_lt hlt), ← hbody.stop_eq] at hx
      exact .inr (listing_singleton _ hx)
  have hleft : ∀ {x op}, listing start ([⟨.header name kind (stop - start), span⟩] ++ c) x = some op →
      listing start ([⟨.header name kind (stop - start), span⟩] ++ c ++
        [⟨.closure start captures, span'⟩]) x = some op := by
    intro x op hx
    rw [listing_append_left (listing_bounds hx).2, hx]
  refine ⟨?_, ?_, ?_, ?_⟩
  · rw [List.length_append, ← Nat.add_assoc, ← hbody.stop_eq]
    rfl
  · intro x v hx
    rcases hcases hx with hx | ⟨-, hx⟩
    · exact hbody.literals hx
    · cases hx
  · intro x op t hx ht
    rcases hcases hx with hx | ⟨-, rfl⟩
    · exact hbody.exits hx ht
    · cases ht
  · intro x a captures' hx
    rcases hcases hx with hx | ⟨rfl, hop⟩
    · obtain ⟨ha, name', kind', hheader⟩ := hbody.closures hx
      exact ⟨ha, name', kind', hleft hheader⟩
    · obtain ⟨rfl, rfl⟩ := OpCode.closure.inj hop
      exact ⟨hle, name, kind, hleft (listing_cons_self _ _)⟩

end Laid

namespace Gen

/-! ## Every construct -/

/-- The code that a compilation step makes is well laid out, from the address it starts at to the
address it stops at. -/
def Lays (x : Gen Code) : Prop := ∀ s, x.Ensures s fun c s' => Laid s.address c s'.address

theorem lays_emit {op : OpCode} (h : op.standsAlone = true) : Lays (emit op) := by
  intro s
  rw [ensures_emit]
  exact .op h s.address s.span

theorem lays_scalarAfter (e : Expr) : Lays (scalarAfter e) := by
  intro s
  unfold scalarAfter
  split
  · exact lays_emit rfl s
  · rw [ensures_pure]
    exact .nil _

/-- An expression cut down to one value. -/
theorem lays_scalar {e : Expr} (he : Lays (expr e)) {s : Site} {Q : Code → Code → Site → Prop}
    (hQ : ∀ c one m s', Laid s.address c m → Laid m one s'.address → Q c one s') :
    (expr e).Ensures s fun c s₁ => (scalarAfter e).Ensures s₁ fun one s' => Q c one s' := by
  refine (he s).mono fun c s₁ h₁ => ?_
  exact (lays_scalarAfter e s₁).mono fun one s₂ h₂ => hQ c one s₁.address s₂ h₁ h₂

/-- A block with its own names. -/
theorem lays_inner {body : List Stat} (hbody : Lays (block body)) {s : Site}
    {Q : Code → Site → Prop} (hQ : ∀ c s', Laid s.address c s'.address → Q c s') :
    (modifyScopes (·.pushBlock)).Ensures s fun _ s₁ => (block body).Ensures s₁ fun c s₂ =>
      (modifyScopes (·.popBlock)).Ensures s₂ fun _ s' => Q c s' := by
  rw [ensures_modifyScopes]
  refine (hbody _).mono fun c s₁ h₁ => ?_
  rw [ensures_modifyScopes]
  exact hQ c _ h₁

theorem lays_bindNames : ∀ (names : List String) (i : Nat), Lays (bindNames names i)
  | [], _ => fun s => by
    rw [bindNames, ensures_pure]
    exact .nil _
  | name :: names, i => fun s => by
    simp only [bindNames, ensures_bind, ensures_declare, ensures_emit]
    refine (lays_bindNames names (i + 1) _).mono fun c s₁ h₁ => ?_
    rw [ensures_pure]
    exact (Laid.op rfl _ _).append h₁

theorem lays_assignField : ∀ keys : List String, Lays (assignField keys)
  | [] => fun s => by
    rw [assignField, ensures_pure]
    exact .nil _
  | [key] => fun s => by
    simp only [assignField, ensures_bind, ensures_emit, ensures_pure]
    exact (Laid.op rfl _ _).append (.op rfl _ _)
  | key :: key' :: rest => fun s => by
    simp only [assignField, ensures_bind, ensures_emit]
    refine (lays_assignField (key' :: rest) _).mono fun c s₁ h₁ => ?_
    rw [ensures_pure]
    exact ((Laid.op rfl _ _).append (.op rfl _ _)).append h₁

mutual

theorem lays_expr : ∀ e : Expr, Lays (expr e)
  | .nil => by
    rw [expr]
    exact lays_emit rfl
  | .boolean b => by
    rw [expr]
    exact lays_emit rfl
  | .number n => by
    rw [expr]
    exact lays_emit rfl
  | .string t => by
    rw [expr]
    exact lays_emit rfl
  | .varargs => fun s => by
    simp only [expr, ensures_bind, ensures_get]
    split
    · exact lays_emit rfl s
    · rw [ensures_failHere]
      trivial
  | .function body => by
    rw [expr]
    exact lays_function body
  | .table fs => fun s => by
    simp only [expr, ensures_bind, ensures_emit]
    refine (lays_fields fs 1 _).mono fun c s₁ h₁ => ?_
    rw [ensures_pure]
    exact (Laid.op rfl _ _).append h₁
  | .binary op left right => fun s => by
    simp only [expr, ensures_bind]
    refine lays_scalar (lays_expr left) fun l l' _ s₁ h₁ h₁' => ?_
    refine lays_scalar (lays_expr right) fun r r' _ s₂ h₂ h₂' => ?_
    rw [ensures_emit, ensures_pure]
    exact (((h₁.append h₁').append h₂).append h₂').append (.op rfl _ _)
  | .logical op left right => fun s => by
    simp only [expr, ensures_bind]
    refine lays_scalar (lays_expr left) fun l l' _ s₁ h₁ h₁' => ?_
    rw [ensures_reserve]
    refine lays_scalar (lays_expr right) fun r r' _ s₂ h₂ h₂' => ?_
    rw [ensures_here, ensures_pure]
    cases op <;> exact (((h₁.append h₁').append (.op rfl _ _)).append h₂).append h₂'
  | .unary op operand => fun s => by
    simp only [expr, ensures_bind]
    refine lays_scalar (lays_expr operand) fun c one _ s₁ h₁ h₁' => ?_
    rw [ensures_emit, ensures_pure]
    cases op <;> exact (h₁.append h₁').append (.op rfl _ _)
  | .name n => fun s => by
    simp only [expr, ensures_bind, ensures_resolve, ensures_emit]
    exact .op rfl _ _
  | .index object key => fun s => by
    simp only [expr, ensures_bind]
    refine lays_scalar (lays_expr object) fun o o' _ s₁ h₁ h₁' => ?_
    refine lays_scalar (lays_expr key) fun k k' _ s₂ h₂ h₂' => ?_
    rw [ensures_emit, ensures_pure]
    exact (((h₁.append h₁').append h₂).append h₂').append (.op rfl _ _)
  | .call f args => fun s => by
    simp only [expr, ensures_bind]
    refine lays_scalar (lays_expr f) fun c one _ s₁ h₁ h₁' => ?_
    refine (lays_exprs args s₁).mono fun vs s₂ h₂ => ?_
    rw [ensures_emit, ensures_pure]
    exact ((h₁.append h₁').append h₂).append (.op rfl _ _)
  | .methodCall object method args => fun s => by
    simp only [expr, ensures_bind]
    refine lays_scalar (lays_expr object) fun o o' _ s₁ h₁ h₁' => ?_
    rw [ensures_emit]
    refine (lays_exprs args _).mono fun vs s₂ h₂ => ?_
    rw [ensures_emit, ensures_pure]
    exact (((h₁.append h₁').append (.op rfl _ _)).append h₂).append (.op rfl _ _)
  | .paren e => fun s => by
    simp only [expr, ensures_bind]
    refine lays_scalar (lays_expr e) fun c one _ s₁ h₁ h₁' => ?_
    rw [ensures_pure]
    exact h₁.append h₁'

theorem lays_exprs : ∀ es : List Expr, Lays (exprs es)
  | [] => fun s => by
    rw [exprs, ensures_pure]
    exact .nil _
  | [e] => by
    rw [exprs]
    exact lays_expr e
  | e :: e' :: rest => fun s => by
    simp only [exprs, ensures_bind]
    refine lays_scalar (lays_expr e) fun c one _ s₁ h₁ h₁' => ?_
    refine (lays_exprs (e' :: rest) s₁).mono fun vs s₂ h₂ => ?_
    rw [ensures_pure]
    exact (h₁.append h₁').append h₂

theorem lays_fields : ∀ (fs : List Field) (position : Nat), Lays (fields fs position)
  | [], _ => fun s => by
    rw [fields, ensures_pure]
    exact .nil _
  | .positional value :: rest, position => fun s => by
    simp only [fields, ensures_bind]
    refine (lays_expr value s).mono fun c s₁ h₁ => ?_
    -- the last field may keep all its values
    split
    · rw [pure_bind, ensures_bind, ensures_emit]
      simp only [ensures_bind]
      refine (lays_fields rest (position + 1) _).mono fun cs s₂ h₂ => ?_
      rw [ensures_pure]
      exact ((h₁.append (.nil _)).append (.op rfl _ _)).append h₂
    · simp only [ensures_bind]
      refine (lays_scalarAfter value s₁).mono fun one s₂ h₂ => ?_
      rw [ensures_emit]
      refine (lays_fields rest (position + 1) _).mono fun cs s₃ h₃ => ?_
      rw [ensures_pure]
      exact ((h₁.append h₂).append (.op rfl _ _)).append h₃
  | .named name value :: rest, position => fun s => by
    simp only [fields, ensures_bind, ensures_emit]
    refine lays_scalar (lays_expr value) fun c one _ s₁ h₁ h₁' => ?_
    refine (lays_fields rest position _).mono fun cs s₂ h₂ => ?_
    rw [ensures_pure]
    exact ((((Laid.op rfl _ _).append h₁).append h₁').append (.op rfl _ _)).append h₂
  | .keyed key value :: rest, position => fun s => by
    simp only [fields, ensures_bind]
    refine lays_scalar (lays_expr key) fun k k' _ s₁ h₁ h₁' => ?_
    refine lays_scalar (lays_expr value) fun c one _ s₂ h₂ h₂' => ?_
    rw [ensures_emit]
    refine (lays_fields rest position _).mono fun cs s₃ h₃ => ?_
    rw [ensures_pure]
    exact ((((h₁.append h₁').append h₂).append h₂').append (.op rfl _ _)).append h₃

theorem lays_assignTo : ∀ (targets : List Expr) (i : Nat), Lays (assignTo targets i)
  | [], _ => fun s => by
    rw [assignTo, ensures_pure]
    exact .nil _
  | e :: rest, i => fun s => by
    cases e with
    | name n =>
      simp only [assignTo, ensures_bind, ensures_resolve, ensures_emit]
      refine (lays_assignTo rest (i + 1) _).mono fun cs s₁ h₁ => ?_
      rw [ensures_pure]
      exact (Laid.op rfl _ _).append h₁
    | index object key =>
      simp only [assignTo, ensures_bind]
      refine lays_scalar (lays_expr object) fun o o' _ s₁ h₁ h₁' => ?_
      refine lays_scalar (lays_expr key) fun k k' _ s₂ h₂ h₂' => ?_
      rw [ensures_emit]
      refine (lays_assignTo rest (i + 1) _).mono fun cs s₃ h₃ => ?_
      rw [ensures_pure]
      exact ((((h₁.append h₁').append h₂).append h₂').append (.op rfl _ _)).append h₃
    | _ =>
      -- other expressions are refused
      rw [assignTo]
      · rw [ensures_failHere]
        trivial
      all_goals simp

theorem lays_function : ∀ body : FunctionBody, Lays (function body)
  | .mk name params isVararg body extent closing => fun s => by
    simp only [function, ensures_bind, ensures_reserve, ensures_currentSpan, ensures_spanOf,
      ensures_markSpan, ensures_emit, ensures_modifyScopes, ensures_forIn_declare, ensures_get,
      ensures_modify, ensures_markExtent, ensures_here, ensures_setSpan, ensures_pure,
      Site.marked_address, Site.marked_scopes]
    refine (lays_block body _).mono fun inner s₁ h₁ => ?_
    have hbody : ∀ locals span span', Laid (s.address + 1 + 1)
        ([⟨.beginFn locals, span⟩] ++ [⟨.args params.length isVararg, span⟩] ++ inner ++
          [⟨.ret 0, span'⟩]) (s₁.address + 1) := fun locals span span' =>
      (((Laid.op rfl _ _).append (.op rfl _ _)).append h₁).append (.op rfl _ _)
    have hskip : Laid s.address [⟨.jump (s₁.address + 1), s.span⟩] (s.address + 1) :=
      .op rfl s.address s.span
    have hall := fun locals captures span span' span'' =>
      hskip.append ((hbody locals span span').function name .function captures span span'')
    simpa only [fill, List.append_assoc] using hall _ _ _ _ _

theorem lays_block : ∀ body : List Stat, Lays (block body)
  | [] => fun s => by
    rw [block, ensures_pure]
    exact .nil _
  | st :: rest => fun s => by
    simp only [block, ensures_bind]
    refine (lays_stat st s).mono fun c s₁ h₁ => ?_
    refine (lays_block rest s₁).mono fun cs s₂ h₂ => ?_
    rw [ensures_pure]
    exact h₁.append h₂

theorem lays_stat : ∀ st : Stat, Lays (stat st)
  | .local names values extent => fun s => by
    simp only [stat, ensures_bind, ensures_markExtent]
    refine (lays_exprs values _).mono fun vs s₁ h₁ => ?_
    rw [ensures_emit]
    refine (lays_bindNames names 0 _).mono fun binds s₂ h₂ => ?_
    rw [ensures_emit, ensures_pure]
    exact ((h₁.append (.op rfl _ _)).append h₂).append (.op rfl _ _)
  | .assign targets values extent => fun s => by
    simp only [stat, ensures_bind, ensures_markExtent]
    refine (lays_exprs values _).mono fun vs s₁ h₁ => ?_
    rw [ensures_emit]
    refine (lays_assignTo targets 0 _).mono fun stores s₂ h₂ => ?_
    rw [ensures_emit, ensures_pure]
    exact ((h₁.append (.op rfl _ _)).append h₂).append (.op rfl _ _)
  | .call e extent => fun s => by
    simp only [stat, ensures_bind, ensures_markExtent]
    refine (lays_expr e _).mono fun c s₁ h₁ => ?_
    rw [ensures_emit, ensures_pure]
    exact h₁.append (.op rfl _ _)
  | .do body extent => fun s => by
    simp only [stat, ensures_bind, ensures_markExtent]
    refine lays_inner (lays_block body) fun c s₁ h₁ => ?_
    rw [ensures_pure]
    exact h₁
  | .while condition body extent closing => fun s => by
    simp only [stat, ensures_bind, ensures_markExtent, ensures_here]
    refine lays_scalar (lays_expr condition) fun test one _ s₁ h₁ h₁' => ?_
    rw [ensures_reserve, ensures_pushLoop]
    refine lays_inner (lays_block body) fun inner s₂ h₂ => ?_
    rw [ensures_emit, ensures_popLoop, ensures_pure]
    refine Laid.patch ?_ _ (Nat.le_refl _)
    exact (((h₁.append h₁').append (.op rfl _ _)).append h₂).append (.op rfl _ _)
  | .repeat body condition extent => fun s => by
    simp only [stat, ensures_bind, ensures_markExtent, ensures_here, ensures_pushLoop,
      ensures_modifyScopes]
    refine (lays_block body _).mono fun inner s₁ h₁ => ?_
    refine lays_scalar (lays_expr condition) fun test one _ s₂ h₂ h₂' => ?_
    simp only [ensures_emit, ensures_popLoop, ensures_pure]
    refine Laid.patch ?_ _ (Nat.le_refl _)
    exact ((h₁.append h₂).append h₂').append (.op rfl _ _)
  | .if branches extent => fun s => by
    simp only [stat, ensures_bind, ensures_markExtent, ensures_here]
    refine (lays_clauses branches _).mono fun p s₁ h₁ => ?_
    rw [ensures_pure]
    exact h₁.patch _ (Nat.le_refl _)
  | .numericFor var first limit step body extent closing => fun s => by
    simp only [stat, ensures_bind, ensures_markExtent]
    refine lays_scalar (lays_expr first) fun a a' _ s₁ h₁ h₁' => ?_
    refine lays_scalar (lays_expr limit) fun b b' _ s₂ h₂ h₂' => ?_
    refine lays_scalar (lays_expr step) fun c c' _ s₃ h₃ h₃' => ?_
    simp only [ensures_emit, ensures_reserve, ensures_pushLoop, ensures_modifyScopes,
      ensures_declare]
    refine (lays_block body _).mono fun inner s₄ h₄ => ?_
    simp only [ensures_here, ensures_popLoop, ensures_pure]
    refine Laid.append (Laid.append ?_ (Laid.patch ?_ _ (Nat.le_refl _))) (.op rfl _ _)
    · exact (((((h₁.append h₁').append h₂).append h₂').append h₃).append h₃').append (.op rfl _ _)
    · have hstop := h₄.stop_eq
      have hexit : s₃.address + 1 < s₄.address + 1 + 1 := by
        simp only at hstop
        omega
      exact ((((Laid.check rfl hexit _).append (.op rfl _ _)).append h₄).append (.op rfl _ _)).append
        (.op rfl _ _)
  | .genericFor names values body extent closing => fun s => by
    simp only [stat, ensures_bind, ensures_markExtent]
    refine (lays_exprs values _).mono fun vs s₁ h₁ => ?_
    simp only [ensures_emit, ensures_here, ensures_reserve, ensures_pushLoop, ensures_modifyScopes]
    refine (lays_bindNames names 0 _).mono fun binds s₂ h₂ => ?_
    refine (lays_block body _).mono fun inner s₃ h₃ => ?_
    rw [ensures_popLoop, ensures_pure]
    refine Laid.append (Laid.append ?_ (Laid.patch ?_ _ (Nat.le_refl _))) (.op rfl _ _)
    · exact (h₁.append (.op rfl _ _)).append (.op rfl _ _)
    · have hbinds := h₂.stop_eq
      have hinner := h₃.stop_eq
      refine Laid.append (Laid.append (Laid.append (Laid.append ?_ h₂) (.op rfl _ _)) h₃) (.op rfl _ _)
      refine ((((Laid.op rfl _ _).append (.op rfl _ _)).append (.op rfl _ _)).append
        (.op rfl _ _)).append (.check rfl ?_ _)
      simp only [Site.marked_address] at hbinds hinner ⊢
      omega
  | .function target keys body extent => fun s => by
    simp only [stat, ensures_bind, ensures_markExtent]
    refine (lays_function body _).mono fun f s₁ h₁ => ?_
    rw [ensures_resolve]
    cases keys with
    | nil =>
      simp only [ensures_bind, ensures_emit, ensures_pure]
      exact (h₁.append (.op rfl _ _)).append (.op rfl _ _)
    | cons key rest =>
      simp only [ensures_bind, ensures_emit]
      refine (lays_assignField (key :: rest) _).mono fun cs s₂ h₂ => ?_
      simp only [ensures_pure]
      exact (h₁.append ((Laid.op rfl _ _).append h₂)).append (.op rfl _ _)
  | .localFunction name body extent => fun s => by
    simp only [stat, ensures_bind, ensures_markExtent, ensures_declare, ensures_emit]
    refine (lays_function body _).mono fun f s₁ h₁ => ?_
    rw [ensures_pure]
    exact (((((Laid.op rfl _ _).append (.op rfl _ _)).append (.op rfl _ _)).append h₁).append
      (.op rfl _ _)).append (.op rfl _ _)
  | .return values extent => fun s => by
    simp only [stat, ensures_bind, ensures_markExtent]
    refine (lays_exprs values _).mono fun vs s₁ h₁ => ?_
    rcases values with _ | ⟨e₁, _ | ⟨e₂, rest⟩⟩
    · simp only [ensures_bind, ensures_emit, ensures_pure]
      exact h₁.append (.op rfl _ _)
    · simp only [ensures_bind, ensures_emit, ensures_pure]
      exact h₁.append (.op rfl _ _)
    · simp only [ensures_bind, ensures_emit, ensures_pure]
      exact (h₁.append (.op rfl _ _)).append (.op rfl _ _)
  | .break extent => fun s => by
    simp only [stat, ensures_bind, ensures_markExtent, ensures_reserve, ensures_get]
    split
    · simp only [ensures_bind, ensures_set, ensures_pure]
      exact .op rfl _ _
    · rw [ensures_throw]
      trivial

theorem lays_clauses : ∀ (branches : Branches) (s : Site),
    (clauses branches).Ensures s fun p s' => Laid s.address p.1 s'.address
  | .done, s => by
    rw [clauses, ensures_pure]
    exact .nil _
  | .otherwise body, s => by
    simp only [clauses, ensures_bind]
    refine lays_inner (lays_block body) fun c s₁ h₁ => ?_
    rw [ensures_pure]
    exact h₁
  | .clause condition body header rest, s => by
    simp only [clauses, ensures_bind, ensures_markExtent]
    refine lays_scalar (lays_expr condition) fun test one _ s₁ h₁ h₁' => ?_
    rw [ensures_reserve]
    refine lays_inner (lays_block body) fun inner s₂ h₂ => ?_
    cases rest with
    | done =>
      simp only [ensures_bind, ensures_here, ensures_pure]
      exact ((h₁.append h₁').append (.op rfl _ _)).append h₂
    | otherwise last =>
      simp only [ensures_bind, ensures_reserve, ensures_here]
      refine (lays_clauses (.otherwise last) _).mono fun p s₃ h₃ => ?_
      rw [ensures_pure]
      exact ((((h₁.append h₁').append (.op rfl _ _)).append h₂).append (.op rfl _ _)).append h₃
    | clause c b h rest =>
      simp only [ensures_bind, ensures_reserve, ensures_here]
      refine (lays_clauses (.clause c b h rest) _).mono fun p s₃ h₃ => ?_
      rw [ensures_pure]
      exact ((((h₁.append h₁').append (.op rfl _ _)).append h₂).append (.op rfl _ _)).append h₃

end

theorem laid_chunk (name : String) (kind : HeaderKind) (body : Block) (s : Site) :
    (chunk name kind body).Ensures s fun c s' => Laid s.address c s'.address := by
  simp only [chunk, ensures_bind, ensures_reserve, ensures_emit]
  refine (lays_block body _).mono fun inner s₁ h₁ => ?_
  simp only [ensures_setSpan, ensures_get, ensures_here, ensures_pure]
  exact ((((Laid.op rfl _ _).append (.op rfl _ _)).append (.op rfl _ _)).append h₁).append
    (.op rfl _ _)

end Gen

/-! ## Chunks -/

/-- The code of a chunk is well laid out. -/
theorem Block.laid_compile {options : CompileOptions} {base : Nat} {body : Block} {code : Code}
    {spans : List Span} (h : body.compile options base = .ok (code, spans)) :
    Laid base code (base + code.length) := by
  unfold Block.compile at h
  simp only [StateT.run] at h
  split at h
  · next s hrun =>
    cases h
    have hlaid := Gen.laid_chunk _ _ body _ _ _ hrun
    exact hlaid.stop_eq ▸ hlaid
  · cases h

section Nested

variable {base n upvalues : Nat} {code : Listing}

/-- Every header in a chunk is that of a verified function that ends in the chunk. -/
theorem AllVerified.functionAt (h : AllVerified code base n upvalues) {a m : Nat} {name : String}
    {kind : HeaderKind} (hle : base ≤ a) (hlt : a < base + n)
    (ha : code a = some (.header name kind m)) :
    a + m ≤ base + n ∧ ∃ u, FunctionAt code a m u := by
  have hlength : ∀ {m' u}, FunctionAt code a m' u → m' = m := by
    rintro m' u ⟨⟨name', kind', ha'⟩, -⟩
    rw [ha] at ha'
    cases ha'
    rfl
  rcases h.headers hle hlt ha with rfl | ⟨x, captures, hx, hxn, hclosure⟩
  · have hout := h.outermost
    obtain rfl := hlength hout
    exact ⟨Nat.le_refl _, _, hout⟩
  · obtain ⟨-, m', hm', hf⟩ := h.closures hx hxn hclosure
    obtain rfl := hlength hf
    exact ⟨hm', _, hf⟩

/-- When every function is verified, what lies in one is owned by it or by a function that starts
behind its header. -/
theorem exists_owner (h : ∀ {a name kind m}, base ≤ a → a < base + n →
    code a = some (.header name kind m) → a + m ≤ base + n ∧ ∃ u, FunctionAt code a m u)
    {a m x : Nat} {name : String} {kind : HeaderKind} (hle : base ≤ a)
    (ha : code a = some (.header name kind m)) (hax : a ≤ x) (hxm : x < a + m) (hx : x < base + n) :
    ∃ b k u, a ≤ b ∧ FunctionAt code b k u ∧ Owns code b k x := by
  -- the innermost function is found by going inwards
  induction hd : x - a using Nat.strongRecOn generalizing a m name kind with
  | ind d ih =>
    by_cases hcov : Covered code (a + 1) x
    · obtain ⟨b, name', kind', k, hb, hab, hbx, hxk⟩ := hcov
      obtain ⟨c, k', u, hbc, hf, hown⟩ := ih (x - b) (by omega) (by omega) hb hbx hxk rfl
      exact ⟨c, k', u, by omega, hf, hown⟩
    · obtain ⟨-, u, hf⟩ := h hle (by omega) ha
      exact ⟨a, m, u, Nat.le_refl _, hf, hax, hxm, hcov⟩

/-- What lies in a function is owned by it or by a function that starts behind its header. -/
theorem AllVerified.owner (h : AllVerified code base n upvalues) {a m x : Nat} {name : String}
    {kind : HeaderKind} (hle : base ≤ a) (ha : code a = some (.header name kind m)) (hax : a ≤ x)
    (hxm : x < a + m) (hx : x < base + n) :
    ∃ b k u, a ≤ b ∧ FunctionAt code b k u ∧ Owns code b k x :=
  exists_owner h.functionAt hle ha hax hxm hx

/-- Each closure of a chunk stands at the end of its function. -/
def ClosuresBehind (code : Listing) (base n : Nat) : Prop :=
  ∀ x a captures, base ≤ x → x < base + n → code x = some (.closure a captures) →
    a ≤ x ∧ ∃ name kind, code a = some (.header name kind (x - a))

/-- The functions of a chunk are nested: a function that starts inside another one ends there. -/
theorem AllVerified.nested (h : AllVerified code base n upvalues)
    (hbehind : ClosuresBehind code base n) {a b m k : Nat} {name name' : String}
    {kind kind' : HeaderKind} (ha : code a = some (.header name kind m))
    (hb : code b = some (.header name' kind' k)) (hle : base ≤ a) (hab : a < b)
    (hbm : b < a + m) (hlt : b < base + n) : b + k ≤ a + m := by
  have hend := (h.functionAt (by omega) hlt hb).1
  rcases h.headers hle (by omega) ha with rfl | ⟨z, captures, hz, hzn, hclosure⟩
  · -- the outer function is the whole chunk
    obtain ⟨⟨_, _, ha'⟩, -⟩ := h.outermost
    rw [ha] at ha'
    cases ha'
    exact hend
  · -- otherwise the closure of the outer one would stand inside the inner one, which would then
    -- have to start before the outer one
    obtain ⟨haz, _, _, ha'⟩ := hbehind z a captures hz hzn hclosure
    rw [ha] at ha'
    cases ha'
    by_contra hover
    obtain ⟨c, k', u, hbc, ⟨-, locals, depth, -, hv⟩, hown⟩ :=
      h.owner (by omega) hb (x := z) (by omega) (by omega) hzn
    obtain ⟨op, hop, hchecked⟩ := hv.checked z hown
    rw [hclosure] at hop
    cases hop
    obtain ⟨_, _, _, _, hca, -⟩ := hchecked.nested a captures rfl
    omega

end Nested

/-- The literals of a compiled chunk are plain, its closures stand at the ends of their functions, and
its loops are left forwards. -/
theorem Segment.laid_compile {s s' : Segment} {options : CompileOptions} {source : String}
    {chunk : CompiledChunk} (h : s.compile options source = .ok (chunk, s')) :
    (∀ x v, chunk.block.contains x = true → s'.ops x = some (.literal v) → v.isLiteral = true) ∧
      ClosuresBehind s'.ops chunk.block.base (chunk.block.limit - chunk.block.base) ∧
      ∀ x op t, chunk.block.base ≤ x → s'.ops x = some op → op.exit? = some t → x < t := by
  obtain ⟨body, code, spans, -, hcode, rfl, rfl⟩ := compile_eq_ok h
  have hlaid := Block.laid_compile hcode
  refine ⟨?_, ?_, ?_⟩
  · intro x v hx hv
    simp only [nextBlock, CodeBlock.contains, Bool.and_eq_true] at hx
    rw [ops_append_of_le (of_decide_eq_true hx.1)] at hv
    exact hlaid.literals hv
  · intro x a captures hx _ hclosure
    simp only [nextBlock] at hx
    rw [ops_append_of_le hx] at hclosure
    obtain ⟨hax, name, kind, hheader⟩ := hlaid.closures hclosure
    have ha := (listing_bounds hheader).1
    exact ⟨hax, name, kind, (ops_append_of_le ha).trans hheader⟩
  · intro x op t hx hop ht
    rw [ops_append_of_le hx] at hop
    exact hlaid.exits hop ht

end LuaMachine
