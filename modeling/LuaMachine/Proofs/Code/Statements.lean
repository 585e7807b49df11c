import LuaMachine.Proofs.Code.Compilation

/-!
# The code of every statement fits

Functions and statements, each under the assumption that the promise holds for its parts.
-/

namespace LuaMachine

namespace Gen

/-! ## Functions -/

theorem computes_function {name : String} {params : List String} {isVararg : Bool}
    {body : List Stat} {extent closing : Extent} (hbody : Acts (block body)) :
    Computes (function (.mk name params isVararg body extent closing)) 0 1 := by
  intro s hs
  simp only [function, ensures_bind, ensures_reserve, ensures_currentSpan, ensures_spanOf,
    ensures_markSpan, ensures_emit, ensures_modifyScopes, ensures_forIn_declare, ensures_get,
    ensures_modify, ensures_markExtent, ensures_here, ensures_setSpan, ensures_pure,
    Site.marked_address, Site.marked_scopes, Site.marked_loops]
  have hin : (params.foldl ScopeStack.declare (s.scopes.pushFunction isVararg)).Bounded :=
    (hs.pushFunction isVararg).foldl_declare params
  refine (hbody _ hin).mono ?_
  rintro inner s₁ ⟨breaks, h₁⟩
  -- the body is in no loop, so it has no breaks
  obtain rfl : breaks = [] := h₁.notes.inLoop rfl
  have hext : (s.scopes.pushFunction isVararg).Extends s₁.scopes :=
    (ScopeStack.extends_foldl_declare _ params).trans h₁.compiles.grows
  have hparams : params.length ≤ s₁.scopes.current.locals.length := by
    have hle := h₁.compiles.grows.current.1.length_le
    have hlen := ScopeStack.length_locals_foldl_declare (hs.pushFunction isVararg).1 params
    simp only at hle
    omega
  refine ⟨⟨h₁.bounded.popFunction hs.1 hext, hext.popFunction hs.1, ?_⟩, rfl⟩
  intro d
  have hfit := h₁.compiles.fits 0
  simp only [fill, List.append_assoc, List.cons_append, List.nil_append]
  exact Fits.function hfit hparams (by simp [FunctionScope.captures])
    (ScopeStack.covers_captures h₁.bounded hs.1 hext) rfl rfl rfl rfl rfl rfl

/-! ## Statements without inner blocks -/

/-- Attributing code to a span does not change the code. -/
theorem acts_marked {x : Gen Code} {extent : Extent} (h : Acts x) :
    Acts (markExtent extent >>= fun _ => x) := by
  intro s hs
  rw [ensures_bind, ensures_markExtent]
  refine (h (s.marked _) hs).mono ?_
  rintro c s' ⟨breaks, h'⟩
  exact ⟨breaks, h'.compiles.congr_left rfl rfl, h'.notes.loops, h'.notes.inLoop⟩

theorem computes_emit_makeTuple (n : Nat) : Computes (emit (.makeTuple n)) n 1 := by
  refine computes_emit rfl (Nat.le_refl _) ?_
  intro d
  simp only [OpCode.leaves]
  omega

theorem computes_emit_pop (n : Nat) : Computes (emit (.pop n)) n 0 :=
  computes_emit rfl (Nat.le_refl _) fun d => Nat.add_sub_cancel d n

theorem acts_local {names : List String} {values : List Expr} {extent : Extent}
    (hvs : Computes (exprs values) 0 values.length) : Acts (stat (.local names values extent)) := by
  rw [stat]
  refine acts_marked ?_
  intro s hs
  simp only [ensures_bind]
  refine (hvs _ hs).mono fun vs s₁ h₁ => ?_
  refine (computes_emit_makeTuple _ s₁ h₁.bounded).mono fun tuple s₂ h₂ => ?_
  refine (computes_bindNames names 0 s₂ h₂.bounded).mono fun binds s₃ h₃ => ?_
  refine (computes_emit_pop 1 s₃ h₃.bounded).mono fun drop s₄ h₄ => ?_
  rw [ensures_pure]
  exact ⟨[], (((h₁.seq h₂).seq h₃).seq h₄).performs⟩

theorem acts_assign {targets values : List Expr} {extent : Extent}
    (hvs : Computes (exprs values) 0 values.length) (hts : Computes (assignTo targets 0) 1 1) :
    Acts (stat (.assign targets values extent)) := by
  rw [stat]
  refine acts_marked ?_
  intro s hs
  simp only [ensures_bind]
  refine (hvs _ hs).mono fun vs s₁ h₁ => ?_
  refine (computes_emit_makeTuple _ s₁ h₁.bounded).mono fun tuple s₂ h₂ => ?_
  refine (hts s₂ h₂.bounded).mono fun stores s₃ h₃ => ?_
  refine (computes_emit_pop 1 s₃ h₃.bounded).mono fun drop s₄ h₄ => ?_
  rw [ensures_pure]
  exact ⟨[], (((h₁.seq h₂).seq h₃).seq h₄).performs⟩

theorem acts_call {e : Expr} {extent : Extent} (he : Computes (expr e) 0 1) :
    Acts (stat (.call e extent)) := by
  rw [stat]
  refine acts_marked ?_
  intro s hs
  simp only [ensures_bind]
  refine (he _ hs).mono fun c s₁ h₁ => ?_
  refine (computes_emit_pop 1 s₁ h₁.bounded).mono fun drop s₂ h₂ => ?_
  rw [ensures_pure]
  exact ⟨[], (h₁.seq h₂).performs⟩

/-- Store the top in the variable of a function statement, or in a field of it. -/
theorem computes_functionTarget {s : Site} (hs : s.scopes.Bounded) (target : String)
    (keys : List String) :
    (resolve target).Ensures s fun symbol s₁ =>
      (match keys with
        | [] => emit (.store symbol 0)
        | _ => do
          let object ← emit (.load symbol)
          pure (object ++ (← assignField keys))).Ensures s₁ fun c s' => Evaluates s c 1 1 s' := by
  cases keys with
  | nil =>
    exact ensures_resolve_op (.store · 0) hs target (fun _ => rfl) (fun _ => Nat.le_refl _)
      (fun _ _ _ h => h) fun _ _ _ => rfl
  | cons key rest =>
    have hload := ensures_resolve_op .load (i := 1) (o := 2) hs target (fun _ => rfl)
      (fun _ => Nat.zero_le _) (fun _ _ _ h => h) fun _ _ _ => rfl
    refine hload.mono fun symbol s₁ h₁ => ?_
    rw [ensures_bind]
    refine h₁.mono fun object s₂ h₂ => ?_
    rw [ensures_bind]
    refine (computes_assignField (key :: rest) (by simp) s₂ h₂.bounded).mono fun cs s₃ h₃ => ?_
    rw [ensures_pure]
    exact h₂.seq h₃

theorem acts_function {target : String} {keys : List String} {body : FunctionBody}
    {extent : Extent} (hf : Computes (function body) 0 1) :
    Acts (stat (.function target keys body extent)) := by
  rw [stat]
  refine acts_marked ?_
  intro s hs
  simp only [ensures_bind]
  refine (hf _ hs).mono fun f s₁ h₁ => ?_
  refine (computes_functionTarget h₁.bounded target keys).mono fun symbol s₂ h₂ => ?_
  have hbehind : ∀ store s₃, Evaluates s₁ store 1 1 s₃ → (emit (.pop 1)).Ensures s₃ fun a s' =>
      (pure (f ++ store ++ a) : Gen Code).Ensures s' fun c s'' => ∃ breaks, Performs s c breaks s'' := by
    intro store s₃ h₃
    refine (computes_emit_pop 1 s₃ h₃.bounded).mono fun drop s₄ h₄ => ?_
    rw [ensures_pure]
    exact ⟨[], ((h₁.seq h₃).seq h₄).performs⟩
  cases keys with
  | nil => 
    simp only [ensures_bind]
    exact h₂.mono hbehind
  | cons key rest => 
    simp only [ensures_bind] at h₂ ⊢
    refine h₂.mono ?_
    intro object s₃ h₃
    refine h₃.mono ?_
    intro fields s₄ h₄
    rw [ensures_pure] at h₄ ⊢
    exact hbehind _ _ h₄

theorem acts_localFunction {name : String} {body : FunctionBody} {extent : Extent}
    (hf : Computes (function body) 0 1) : Acts (stat (.localFunction name body extent)) := by
  rw [stat]
  refine acts_marked ?_
  intro s hs
  simp only [ensures_bind]
  rw [ensures_declare]
  have hslot : s.scopes.nextSlot < (s.scopes.declare name).current.locals.length := by
    rw [ScopeStack.length_locals_declare hs.1]
    exact Nat.lt_succ_self _
  refine (computes_literal .nil { s with scopes := s.scopes.declare name } (hs.declare name)).mono
    fun empty s₁ h₁ => ?_
  rw [ensures_emit]
  have h₂ := evaluates_op (.local s.scopes.nextSlot 0) (i := 1) (o := 1) s₁.span h₁.bounded rfl
    (Nat.le_refl _) (Nat.lt_of_lt_of_le hslot h₁.compiles.grows.current.1.length_le) fun _ => rfl
  refine (computes_emit_pop 1 _ h₂.bounded).mono fun drop s₃ h₃ => ?_
  have h₁₃ := (h₁.seq h₂).seq h₃
  refine (hf s₃ h₃.bounded).mono fun f s₄ h₄ => ?_
  have h₁₄ := h₁₃.seq h₄
  rw [ensures_emit]
  have h₅ := evaluates_op (.store (.local name s.scopes.nextSlot) 0) (i := 1) (o := 1) s₄.span
    h₄.bounded rfl (Nat.le_refl _)
    (Nat.lt_of_lt_of_le hslot h₁₄.compiles.grows.current.1.length_le) fun _ => rfl
  refine (computes_emit_pop 1 _ h₅.bounded).mono fun drop₂ s₆ h₆ => ?_
  rw [ensures_pure]
  have hall := (h₁₄.seq h₅).seq h₆
  exact ⟨[], hall.compiles.of_scopes_left rfl (ScopeStack.extends_declare _ name), .of_eq hall.loops⟩

theorem acts_return {values : List Expr} {extent : Extent}
    (hvs : Computes (exprs values) 0 values.length) : Acts (stat (.return values extent)) := by
  have hret : ∀ n, Computes (emit (.ret n)) (if n = 0 then 0 else 1) 0 := by
    intro n s hs
    rw [ensures_emit]
    refine ⟨.op hs rfl (Nat.le_refl _) trivial ?_ rfl rfl, rfl⟩
    intro d y e hy
    cases hy
  rw [stat]
  refine acts_marked ?_
  intro s hs
  simp only [ensures_bind]
  refine (hvs _ hs).mono fun vs s₁ h₁ => ?_
  rcases values with _ | ⟨e₁, _ | ⟨e₂, rest⟩⟩
  · -- nothing is returned
    simp only [ensures_bind]
    refine (hret 0 s₁ h₁.bounded).mono fun r s₂ h₂ => ?_
    rw [ensures_pure]
    exact ⟨[], (h₁.seq h₂).performs⟩
  · -- one value
    simp only [ensures_bind]
    refine (hret 1 s₁ h₁.bounded).mono fun r s₂ h₂ => ?_
    rw [ensures_pure]
    exact ⟨[], (h₁.seq h₂).performs⟩
  · -- several values are returned as one
    simp only [ensures_bind]
    refine (computes_emit_makeTuple _ s₁ h₁.bounded).mono fun tuple s₂ h₂ => ?_
    refine (hret 1 s₂ h₂.bounded).mono fun r s₃ h₃ => ?_
    rw [ensures_pure]
    exact ⟨[], ((h₁.seq h₂).seq h₃).performs⟩

/-- A jump to be filled in at the end of the innermost loop. -/
theorem acts_break {extent : Extent} : Acts (stat (.break extent)) := by
  rw [stat]
  refine acts_marked ?_
  intro s hs
  simp only [ensures_bind, ensures_reserve, ensures_get]
  cases hl : s.loops with
  | nil => simp only [ensures_throw]
  | cons breaks outer =>
    simp only [ensures_bind, ensures_set, ensures_pure]
    refine ⟨[s.address], ⟨hs, .refl _, ?_⟩, by simp [addBreaks, hl], by simp [hl]⟩
    intro d
    exact Fits.hole _ _ _ _ _

/-! ## Blocks and loops -/

theorem acts_block_cons {st : Stat} {rest : List Stat} (hst : Acts (stat st))
    (hrest : Acts (block rest)) : Acts (block (st :: rest)) := by
  intro s hs
  simp only [block, ensures_bind]
  refine (hst s hs).mono ?_
  rintro c s₁ ⟨b₁, h₁⟩
  refine (hrest s₁ h₁.bounded).mono ?_
  rintro cs s₂ ⟨b₂, h₂⟩
  rw [ensures_pure]
  refine ⟨b₂ ++ b₁, (h₁.compiles.seq h₂.compiles).congr_holes ?_, h₁.notes.trans h₂.notes⟩
  intro p
  simp only [mem_level, List.mem_append, or_and_right]
  exact or_comm

/-- A block with its own names. -/
theorem ensures_inner {body : List Stat} (hbody : Acts (block body)) {s : Site}
    (hs : s.scopes.Bounded) {Q : Code → Site → Prop}
    (hQ : ∀ c breaks s', Performs s c breaks s' → Q c s') :
    (modifyScopes (·.pushBlock)).Ensures s fun _ s₁ => (block body).Ensures s₁ fun c s₂ =>
      (modifyScopes (·.popBlock)).Ensures s₂ fun _ s' => Q c s' := by
  rw [ensures_modifyScopes]
  refine (hbody { s with scopes := s.scopes.pushBlock } hs.pushBlock).mono
    ?_
  rintro c s' ⟨breaks, h⟩
  rw [ensures_modifyScopes]
  have hleft := h.compiles.of_scopes_left (s := s) rfl (ScopeStack.extends_pushBlock _)
  refine hQ c breaks _ ⟨?_, h.notes.loops, h.notes.inLoop⟩
  exact hleft.of_scopes_right rfl h.bounded.popBlock (ScopeStack.extends_popBlock _)

theorem acts_do {body : List Stat} {extent : Extent} (hbody : Acts (block body)) :
    Acts (stat (.do body extent)) := by
  rw [stat]
  refine acts_marked ?_
  intro s hs
  simp only [ensures_bind]
  refine ensures_inner hbody hs fun c breaks s' h => ?_
  rw [ensures_pure]
  exact ⟨breaks, h⟩

/-- Opening a loop: the instruction that leaves it is kept for later, and its body is a block. -/
theorem ensures_opening {s : Site} {Q : Nat × Option Span → Site → Prop}
    (hQ : ∀ t : Site, t.address = s.address + 1 → t.scopes = s.scopes.pushBlock →
      t.loops = [] :: s.loops → Q (s.address, s.span) t) :
    reserve.Ensures s fun slot s₁ => pushLoop.Ensures s₁ fun _ s₂ =>
      (modifyScopes (·.pushBlock)).Ensures s₂ fun _ t => Q slot t := by
  rw [ensures_reserve, ensures_pushLoop, ensures_modifyScopes]
  exact hQ _ rfl rfl rfl

/-- Closing a loop: its block is left, and the next instructions are attributed to its last word. -/
theorem ensures_closing {closing : Extent} {s : Site} {Q : Site → Prop}
    (hQ : ∀ t : Site, t.address = s.address → t.scopes = s.scopes.popBlock → t.loops = s.loops →
      Q t) :
    (modifyScopes (·.popBlock)).Ensures s fun _ s₁ =>
      (markExtent closing).Ensures s₁ fun _ t => Q t := by
  rw [ensures_modifyScopes, ensures_markExtent]
  exact hQ _ rfl rfl rfl

/-- The instruction that leaves a loop, when its target is known. -/
theorem compiles_leave {s t : Site} (op : OpCode) {i o target e : Nat} (hs : s.scopes.Bounded)
    (ht : t.address = s.address + 1) (htsc : t.scopes = s.scopes.pushBlock) (hp : op.isPlain = true)
    (hn : op.needs ≤ i) (hsl : ∀ l u, op.SlotsWithin l u)
    (hnext : ∀ x d, op.next x (d + i) = [(target, d + e), (x + 1, d + o)]) :
    Compiles s (fill (s.address, s.span) op) i o [] [(target, e)] t := by
  refine (compiles_branch op s.span hs hp hn hsl hnext).of_scopes_right ht ?_ ?_
  · rw [htsc]
    exact hs.pushBlock
  · rw [htsc]
    exact ScopeStack.extends_pushBlock _

/-- The jump back to the start of a loop, and the end of its block. -/
theorem compiles_back {s t : Site} (target i : Nat) (hs : s.scopes.Bounded)
    (ht : t.address = s.address) (htsc : t.scopes = s.scopes.popBlock) :
    Compiles s [⟨.jump target, t.span⟩] i i [] [(target, i)]
      { t with address := t.address + 1 } := by
  refine (compiles_jump target i i t.span hs).of_scopes_right (by simp [ht]) ?_ ?_
  · simpa only [htsc] using hs.popBlock
  · simpa only [htsc] using ScopeStack.extends_popBlock _

theorem acts_while {condition : Expr} {body : List Stat} {extent closing : Extent}
    (hc : Computes (expr condition) 0 1) (hbody : Acts (block body)) :
    Acts (stat (.while condition body extent closing)) := by
  rw [stat]
  refine acts_marked ?_
  intro s hs
  simp only [ensures_bind]
  rw [ensures_here]
  refine computes_scalar hc hs fun test one s₁ h₁ => ?_
  refine ensures_opening fun t ht htsc htl => ?_
  refine (hbody t (htsc ▸ h₁.bounded.pushBlock)).mono ?_
  rintro inner s₂ ⟨breaks, h₂⟩
  refine ensures_closing fun t' ht' htsc' htl' => ?_
  rw [ensures_emit, ensures_here, ensures_popLoop, ensures_pure]
  obtain ⟨hhead, htail⟩ := h₂.notes.closeLoop htl
  have hleave := compiles_leave (.jumpIfFalse (t'.address + 1)) (i := 1) (e := 0) (o := 0) h₁.bounded
    ht htsc rfl (Nat.le_refl _) (fun _ _ => trivial) fun _ _ => rfl
  have hback := compiles_back s.address 0 h₂.bounded ht' htsc'
  have hall := ((h₁.compiles.seq hleave).seq h₂.compiles).seq hback
  simp only [List.nil_append, List.append_nil] at hall
  have hloop := hall.loop (by simp)
  simp only [htl', hhead, htail]
  exact ⟨[], hloop.congr_right rfl rfl, .of_eq h₁.loops⟩

theorem acts_repeat {body : List Stat} {condition : Expr} {extent : Extent}
    (hbody : Acts (block body)) (hc : Computes (expr condition) 0 1) :
    Acts (stat (.repeat body condition extent)) := by
  rw [stat]
  refine acts_marked ?_
  intro s hs
  simp only [ensures_bind]
  rw [ensures_here, ensures_pushLoop, ensures_modifyScopes]
  refine (hbody { s with loops := [] :: s.loops, scopes := s.scopes.pushBlock } hs.pushBlock).mono
    ?_
  rintro inner s₁ ⟨breaks, h₁⟩
  rw [ensures_markExtent]
  refine computes_scalar (s := s₁.marked _) hc h₁.bounded fun test one s₂ h₂ => ?_
  simp only [ensures_emit, ensures_modifyScopes, ensures_here, ensures_popLoop, ensures_pure]
  have hloops : s₂.loops = s₁.loops := h₂.loops
  obtain ⟨hhead, htail⟩ := h₁.notes.closeLoop rfl
  rw [hloops, hhead, htail]
  -- the condition sees the names of the body
  have hagain := compiles_branch (.jumpIfFalse s.address) (i := 1) (e := 0) (o := 0) s₂.span
    h₂.bounded rfl (Nat.le_refl _) (fun _ _ => trivial) fun _ _ => rfl
  have hall := ((h₁.compiles.of_scopes_left (s := s) rfl (ScopeStack.extends_pushBlock _)).seq
    (h₂.compiles.congr_left rfl rfl)).seq hagain
  simp only [List.nil_append, List.append_nil] at hall
  have hloop := hall.loop (by simp)
  rw [List.append_assoc inner test one]
  refine ⟨[], hloop.of_scopes_right rfl h₂.bounded.popBlock (ScopeStack.extends_popBlock _), .of_eq rfl⟩

theorem acts_numericFor {var : String} {first limit step : Expr} {body : List Stat}
    {extent closing : Extent} (ha : Computes (expr first) 0 1) (hb : Computes (expr limit) 0 1)
    (hc : Computes (expr step) 0 1) (hbody : Acts (block body)) :
    Acts (stat (.numericFor var first limit step body extent closing)) := by
  have hprep : Computes (emit .forPrep) 3 3 := computes_emit rfl (Nat.le_refl _) fun _ => rfl
  have hstep : Computes (emit .forStep) 3 3 := computes_emit rfl (Nat.le_refl _) fun _ => rfl
  rw [stat]
  refine acts_marked ?_
  intro s hs
  simp only [ensures_bind]
  refine computes_scalar ha hs fun a a' s₁ h₁ => ?_
  refine computes_scalar hb h₁.bounded fun b b' s₂ h₂ => ?_
  refine computes_scalar hc h₂.bounded fun c c' s₃ h₃ => ?_
  refine (hprep s₃ h₃.bounded).mono fun prep s₄ h₄ => ?_
  have hfront := ((h₁.seq (h₂.onTop 1)).seq (h₃.onTop 2)).seq h₄
  refine ensures_opening fun t ht htsc htl => ?_
  rw [ensures_declare, ensures_emit]
  have hbind := evaluates_declare .forVar (i := 3) t.span (htsc ▸ h₄.bounded.pushBlock) var
    (fun _ => rfl) (fun _ => Nat.le_refl _) (fun _ _ _ h => h) fun _ _ _ => rfl
  refine (hbody _ hbind.bounded).mono ?_
  rintro inner s₅ ⟨breaks, h₅⟩
  refine ensures_closing fun t' ht' htsc' htl' => ?_
  have hb₅ : t'.scopes.Bounded := htsc' ▸ h₅.bounded.popBlock
  refine (hstep t' hb₅).mono fun step s₆ h₆ => ?_
  rw [ensures_emit, ensures_here]
  have hback := compiles_jump s₄.address 3 3 s₆.span h₆.bounded
  refine (computes_emit_pop 3 _ hback.bounded).mono fun drop s₇ h₇ => ?_
  rw [ensures_popLoop, ensures_pure]
  obtain ⟨hhead, htail⟩ := h₅.notes.closeLoop htl
  have hloops : s₇.loops = s₅.loops := h₇.loops.trans (h₆.loops.trans htl')
  -- from the test of the loop to behind the jump back to it, three values stay on the stack
  have hleave := compiles_leave (.forLoop (s₆.address + 1)) (i := 3) (e := 3) (o := 3) h₄.bounded ht
    htsc rfl (Nat.le_refl _) (fun _ _ => trivial) fun _ _ => rfl
  have hinner := (h₅.compiles.lift 3).of_scopes_right ht' hb₅ (htsc' ▸ ScopeStack.extends_popBlock _)
  have hall := (((hleave.seq hbind.compiles).seq hinner).seq h₆.compiles).seq hback
  simp only [raise_level, raise_nil, Nat.add_zero, List.nil_append, List.append_nil] at hall
  have hloop := hall.loop (by simp)
  have hwhole := (hfront.compiles.seq hloop).seq h₇.compiles
  simp only [List.append_assoc] at hwhole ⊢
  rw [hloops, hhead, htail]
  exact ⟨[], hwhole.congr_right rfl rfl, .of_eq hfront.loops⟩

/-- The call of the iterator at the start of each round of a generic loop. -/
theorem computes_iterate {s : Site} (hs : s.scopes.Bounded) {Q : Code → Code → Code → Code → Site → Prop}
    (hQ : ∀ c₁ c₂ c₃ c₄ s', Evaluates s (c₁ ++ c₂ ++ c₃ ++ c₄) 3 4 s' → Q c₁ c₂ c₃ c₄ s') :
    (emit (.copy 2)).Ensures s fun c₁ s₁ => (emit (.copy 2)).Ensures s₁ fun c₂ s₂ =>
      (emit (.copy 2)).Ensures s₂ fun c₃ s₃ => (emit (.call 2)).Ensures s₃ fun c₄ s' =>
        Q c₁ c₂ c₃ c₄ s' := by
  have hcopy : Computes (emit (.copy 2)) 3 4 := computes_emit rfl (Nat.le_refl _) fun _ => rfl
  refine (hcopy s hs).mono fun c₁ s₁ h₁ => ?_
  refine (hcopy s₁ h₁.bounded).mono fun c₂ s₂ h₂ => ?_
  refine (hcopy s₂ h₂.bounded).mono fun c₃ s₃ h₃ => ?_
  refine (computes_emit_call 2 s₃ h₃.bounded).mono fun c₄ s₄ h₄ => ?_
  exact hQ c₁ c₂ c₃ c₄ s₄ (((h₁.seq (h₂.lift 1)).seq (h₃.lift 2)).seq (h₄.lift 3))

theorem acts_genericFor {names : List String} {values : List Expr} {body : List Stat}
    {extent closing : Extent} (hvs : Computes (exprs values) 0 values.length)
    (hbody : Acts (block body)) : Acts (stat (.genericFor names values body extent closing)) := by
  have hprep : Computes (emit .iterPrep) 1 3 := computes_emit rfl (Nat.le_refl _) fun _ => rfl
  rw [stat]
  refine acts_marked ?_
  intro s hs
  simp only [ensures_bind]
  refine (hvs s hs).mono fun vs s₁ h₁ => ?_
  refine (computes_emit_makeTuple _ s₁ h₁.bounded).mono fun tuple s₂ h₂ => ?_
  refine (hprep s₂ h₂.bounded).mono fun prep s₃ h₃ => ?_
  have hfront := (h₁.seq h₂).seq h₃
  rw [ensures_here]
  refine computes_iterate h₃.bounded fun c₁ c₂ c₃ c₄ s₄ h₄ => ?_
  refine ensures_opening fun t ht htsc htl => ?_
  refine (computes_bindNames names 0 t (htsc ▸ h₄.bounded.pushBlock)).mono fun binds s₅ h₅ => ?_
  refine (computes_emit_pop 1 s₅ h₅.bounded).mono fun drop s₆ h₆ => ?_
  refine (hbody s₆ h₆.bounded).mono ?_
  rintro inner s₇ ⟨breaks, h₇⟩
  refine ensures_closing fun t' ht' htsc' htl' => ?_
  rw [ensures_emit, ensures_here]
  have hback := compiles_back s₃.address 3 h₇.bounded ht' htsc'
  refine (computes_emit_pop 3 _ hback.bounded).mono fun drop₃ s₈ h₈ => ?_
  rw [ensures_popLoop, ensures_pure]
  obtain ⟨hhead, htail⟩ := h₇.notes.closeLoop (h₆.loops.trans (h₅.loops.trans htl))
  have hloops : s₈.loops = s₇.loops := h₈.loops.trans htl'
  have hleave := compiles_leave (.iterCheck (t'.address + 1)) (i := 4) (e := 3) (o := 4) h₄.bounded ht
    htsc rfl (Nat.le_refl _) (fun _ _ => trivial) fun _ _ => rfl
  have hall := ((((h₄.compiles.seq hleave).seq (h₅.lift 3).compiles).seq (h₆.lift 3).compiles).seq
    (h₇.compiles.lift 3)).seq hback
  simp only [raise_level, raise_nil, Nat.add_zero, List.nil_append, List.append_nil] at hall
  have hloop := hall.loop (by simp)
  have hwhole := (hfront.compiles.seq hloop).seq h₈.compiles
  rw [hloops, hhead, htail]
  exact ⟨[], hwhole.congr_right rfl rfl, .of_eq (h₄.loops.trans hfront.loops)⟩

/-! ## Conditions -/

/-- The clauses of an `if` leave the stack as it was; their loose ends are the jumps to the end and
the breaks in them. -/
def Chooses (x : Gen (Code × List Nat)) : Prop :=
  ∀ s : Site, s.scopes.Bounded → x.Ensures s fun p s' =>
    ∃ breaks, Compiles s p.1 0 0 (level 0 (p.2 ++ breaks)) [] s' ∧ Notes s breaks s'

theorem chooses_done : Chooses (clauses .done) := by
  intro s hs
  rw [clauses, ensures_pure]
  exact ⟨[], .nil hs 0, .of_eq rfl⟩

theorem chooses_otherwise {body : List Stat} (hbody : Acts (block body)) :
    Chooses (clauses (.otherwise body)) := by
  intro s hs
  simp only [clauses, ensures_bind]
  refine ensures_inner hbody hs fun c breaks s' h => ?_
  rw [ensures_pure]
  exact ⟨breaks, h.compiles, h.notes⟩

/-- The last clause goes behind its own block if its condition fails. -/
theorem chooses_last {condition : Expr} {body : List Stat} {header : Extent}
    (hc : Computes (expr condition) 0 1) (hbody : Acts (block body)) :
    Chooses (clauses (.clause condition body header .done)) := by
  intro s hs
  simp only [clauses, ensures_bind]
  rw [ensures_markExtent]
  refine computes_scalar (s := s.marked _) hc hs fun test one s₁ h₁ => ?_
  rw [ensures_reserve]
  refine ensures_inner (s := { s₁ with address := s₁.address + 1 }) hbody h₁.bounded
    fun inner breaks s₂ h₂ => ?_
  rw [ensures_here, ensures_pure]
  have hskip := compiles_branch (.jumpIfFalse s₂.address) (i := 1) (e := 0) (o := 0) s₁.span
    h₁.bounded rfl (Nat.le_refl _) (fun _ _ => trivial) fun _ _ => rfl
  have hall := (h₁.compiles.seq hskip).seq h₂.compiles
  simp only [List.nil_append, List.append_nil] at hall
  have hclosed := hall.close (by simp)
  exact ⟨breaks, hclosed.congr_left rfl rfl, h₂.notes.congr_left h₁.loops.symm⟩

/-- A clause with others behind it goes on to them if its condition fails, and else jumps over
them. -/
theorem chooses_clause {condition : Expr} {body : List Stat} {header : Extent} {rest : Branches}
    (hrest : rest ≠ .done) (hc : Computes (expr condition) 0 1) (hbody : Acts (block body))
    (hr : Chooses (clauses rest)) : Chooses (clauses (.clause condition body header rest)) := by
  intro s hs
  simp only [clauses, ensures_bind]
  rw [ensures_markExtent]
  refine computes_scalar (s := s.marked _) hc hs fun test one s₁ h₁ => ?_
  rw [ensures_reserve]
  refine ensures_inner (s := { s₁ with address := s₁.address + 1 }) hbody h₁.bounded
    fun inner b₁ s₂ h₂ => ?_
  rw [ensures_reserve, ensures_here]
  refine (hr { s₂ with address := s₂.address + 1 } h₂.bounded).mono ?_
  rintro p s₃ ⟨b₂, h₃, hn₃⟩
  rw [ensures_pure]
  have hskip := compiles_branch (.jumpIfFalse (s₂.address + 1)) (i := 1) (e := 0) (o := 0) s₁.span
    h₁.bounded rfl (Nat.le_refl _) (fun _ _ => trivial) fun _ _ => rfl
  have hhole : Compiles s₂ (fill (s₂.address, s₂.span) (.jump 0)) 0 0 (level 0 [s₂.address]) []
      { s₂ with address := s₂.address + 1 } :=
    ⟨h₂.bounded, .refl _, fun d => Fits.hole _ _ _ _ _⟩
  -- the failed condition leads to the end of the clause, behind its jump
  have hclause := ((h₁.compiles.seq hskip).seq h₂.compiles).seq hhole
  have hall := (hclause.close (by simp)).seq h₃
  refine ⟨b₂ ++ b₁, (hall.congr_holes ?_).congr_left rfl rfl, ?_⟩
  · intro q
    simp only [mem_level, List.mem_append, List.mem_cons, List.not_mem_nil, or_false, false_or]
    tauto
  · exact (h₂.notes.trans (hn₃.congr_left rfl)).congr_left h₁.loops.symm

theorem acts_if {branches : Branches} {extent : Extent} (hb : Chooses (clauses branches)) :
    Acts (stat (.if branches extent)) := by
  rw [stat]
  refine acts_marked ?_
  intro s hs
  simp only [ensures_bind]
  rw [ensures_here]
  refine (hb s hs).mono ?_
  rintro p s₁ ⟨breaks, h₁, hn⟩
  rw [ensures_here, ensures_pure]
  exact ⟨breaks, h₁.patch, hn⟩

end Gen

end LuaMachine
