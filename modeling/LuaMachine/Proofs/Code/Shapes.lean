import LuaMachine.Proofs.Code.Shaping
import LuaMachine.Proofs.Code.Statements

/-!
# The shapes that statements make

Functions and statements, each under the assumption that the promise holds for its parts, and the
induction over the trees. A statement leaves a stack of any shape as it was; the loose ends are the
jumps of `break`, which leave it as it was as well (`Balances`).

Main statement: a chunk has shapes for all its addresses, those of its inner functions included
(`Gen.forms_chunk`).
-/

namespace LuaMachine

namespace Forms

variable {start mid stop : Nat} {c : Code} {σ : Shape}

/-- An operation with nothing on the stack, which goes on to the next instruction with nothing on the
stack. -/
theorem op_bare {op : OpCode} {span : Option Span} (hadmits : op.Admits [])
    (hpasses : op.passes start [] = [(start + 1, [])]) :
    Forms start [⟨op, span⟩] (start + 1) [] [] [] [] := by
  refine .op hadmits fun p hp => ?_
  rw [hpasses] at hp
  exact .inl (List.mem_singleton.1 hp)

/-- A function begins with nothing on the stack, and whatever lies behind its return is not reached
from there. -/
theorem function_inside {name : String} {kind : HeaderKind} {length params : Nat} {locals : List String}
    {varargs : Bool} {span₁ span₂ span₃ span₄ : Option Span} {σ : Shape}
    (hbody : Forms (start + 3) c stop [] [] [] []) :
    Forms start ([⟨.header name kind length, span₁⟩] ++ [⟨.beginFn locals, span₂⟩] ++
      [⟨.args params varargs, span₃⟩] ++ c ++ [⟨.ret 0, span₄⟩]) (stop + 1) [] σ [] [] := by
  have hheader : Forms start [⟨.header name kind length, span₁⟩] (start + 1) [] [] [] [] :=
    op_bare ⟨Nat.zero_le _, rfl⟩ rfl
  have hbegin : Forms (start + 1) [⟨.beginFn locals, span₂⟩] (start + 2) [] [] [] [] :=
    op_bare ⟨Nat.zero_le _, trivial⟩ rfl
  have hargs : Forms (start + 2) [⟨.args params varargs, span₃⟩] (start + 3) [] [] [] [] :=
    op_bare ⟨Nat.zero_le _, trivial⟩ rfl
  have hret : Forms stop [⟨.ret 0, span₄⟩] (stop + 1) [] σ [] [] :=
    .op ⟨Nat.le_refl _, trivial⟩ fun p hp => (List.not_mem_nil hp).elim
  exact (((hheader.append hbegin).append hargs).append hbody).append hret

/-- The code of a function, which control passes over, and the closure made of it. -/
theorem function {name : String} {kind : HeaderKind} {length params : Nat} {locals : List String}
    {varargs : Bool} {captures : List Symbol} {span₀ span₁ span₂ span₃ span₄ span₅ : Option Span}
    (hbody : Forms (start + 4) c stop [] [] [] []) :
    Forms start ([⟨.jump (stop + 1), span₀⟩] ++ ([⟨.header name kind length, span₁⟩] ++
      [⟨.beginFn locals, span₂⟩] ++ [⟨.args params varargs, span₃⟩] ++ c ++ [⟨.ret 0, span₄⟩]) ++
      [⟨.closure (start + 1) captures, span₅⟩]) (stop + 2) σ (false :: σ) [] [] := by
  have hskip : Forms start [⟨.jump (stop + 1), span₀⟩] (start + 1) σ [] [] [(stop + 1, σ)] :=
    .op ⟨Nat.zero_le _, trivial⟩ fun p hp => .inr hp
  have hmake : Forms (stop + 1) [⟨.closure (start + 1) captures, span₅⟩] (stop + 2) σ (false :: σ)
      [] [] :=
    .op ⟨Nat.zero_le _, trivial⟩ fun p hp => .inl (List.mem_singleton.1 hp)
  have hover : ∀ {f}, Forms (start + 1) f (stop + 1) [] σ [] [] →
      Forms start ([⟨.jump (stop + 1), span₀⟩] ++ f) (stop + 1) σ σ [] [] := by
    refine fun hf => (hskip.append hf).close fun p hp => ?_
    rw [List.append_nil, List.mem_singleton] at hp
    exact .inr (.inl hp)
  exact (hover hbody.function_inside).append hmake

end Forms

/-- A piece that leaves the stack as it was and whose loose ends are breaks. -/
structure Balances (s : Site) (c : Code) (breaks : List Nat) (s' : Site) : Prop where
  molds : Molds s c [] [] (alike [] breaks) [] s'
  notes : Notes s breaks s'

theorem Turns.balances {s s' : Site} {c : Code} (h : Turns s c [] [] s') : Balances s c [] s' :=
  ⟨h.molds, .of_eq h.loops⟩

/-- A step makes code that leaves the stack as it was. -/
def Balancing (x : Gen Code) : Prop := ∀ s, x.Ensures s fun c s' => ∃ breaks, Balances s c breaks s'

namespace Gen

/-! ## Functions -/

theorem forming_function {name : String} {params : List String} {isVararg : Bool} {body : List Stat}
    {extent closing : Extent} (hbody : Balancing (block body)) :
    Forming (function (.mk name params isVararg body extent closing)) [] (.any 1) := by
  intro s
  simp only [function, ensures_bind, ensures_reserve, ensures_currentSpan, ensures_spanOf,
    ensures_markSpan, ensures_emit, ensures_modifyScopes, ensures_forIn_declare, ensures_get,
    ensures_modify, ensures_markExtent, ensures_here, ensures_setSpan, ensures_pure,
    Site.marked_address, Site.marked_scopes, Site.marked_loops]
  refine (hbody _).mono ?_
  rintro inner s₁ ⟨breaks, h₁⟩
  -- the body is in no loop, so it has no breaks
  obtain rfl : breaks = [] := h₁.notes.inLoop rfl
  refine ⟨fun σ => ?_, rfl⟩
  have hinner : Forms (s.address + 4) inner s₁.address [] [] [] [] := h₁.molds []
  exact hinner.function

/-! ## Statements without inner blocks -/

/-- Attributing code to a span does not change the code. -/
theorem balancing_marked {x : Gen Code} {extent : Extent} (h : Balancing x) :
    Balancing (markExtent extent >>= fun _ => x) := by
  intro s
  rw [ensures_bind, ensures_markExtent]
  refine (h (s.marked _)).mono ?_
  rintro c s' ⟨breaks, h'⟩
  exact ⟨breaks, h'.molds.congr_left rfl, h'.notes.loops, h'.notes.inLoop⟩

theorem forming_emit_makeTuple (n : Nat) : Forming (emit (.makeTuple n)) (.any n) (.any 1) := by
  refine forming_emit_simple rfl ⟨?_, trivial⟩ ?_
  · rw [Shape.length_any]
    exact Nat.le_refl _
  · simp only [OpCode.shape, Shape.drop_any, Nat.sub_self]
    rfl

theorem forming_emit_pop {i : Shape} : Forming (emit (.pop i.length)) i [] := by
  refine forming_emit ⟨Nat.le_refl _, trivial⟩ (fun _ _ _ => OpCode.noConfusion) fun x => ?_
  simp only [OpCode.passes, OpCode.shape, List.drop_length]

/-- Values are put together, used, and dropped. -/
theorem balancing_values {values : List Expr} {use : Gen Code}
    (hvs : Forming (exprs values) [] (.any values.length)) (huse : Forming use (.any 1) (.any 1)) :
    Balancing (do
      let vs ← exprs values
      let tuple ← emit (.makeTuple values.length)
      let code ← use
      return vs ++ tuple ++ code ++ (← emit (.pop 1))) := by
  intro s
  simp only [ensures_bind]
  refine (hvs s).mono fun vs s₁ h₁ => ?_
  refine (forming_emit_makeTuple _ s₁).mono fun tuple s₂ h₂ => ?_
  refine (huse s₂).mono fun code s₃ h₃ => ?_
  refine (forming_emit_pop (i := .any 1) s₃).mono fun drop s₄ h₄ => ?_
  rw [ensures_pure]
  exact ⟨[], (((h₁.seq h₂).seq h₃).seq h₄).balances⟩

theorem balancing_local {names : List String} {values : List Expr} {extent : Extent}
    (hvs : Forming (exprs values) [] (.any values.length)) :
    Balancing (stat (.local names values extent)) := by
  rw [stat]
  exact balancing_marked (balancing_values hvs (forming_bindNames names 0))

theorem balancing_assign {targets values : List Expr} {extent : Extent}
    (hvs : Forming (exprs values) [] (.any values.length))
    (hts : Forming (assignTo targets 0) (.any 1) (.any 1)) :
    Balancing (stat (.assign targets values extent)) := by
  rw [stat]
  exact balancing_marked (balancing_values hvs hts)

theorem balancing_call {e : Expr} {extent : Extent} (he : Forming (expr e) [] (.any 1)) :
    Balancing (stat (.call e extent)) := by
  rw [stat]
  refine balancing_marked ?_
  intro s
  simp only [ensures_bind]
  refine (he s).mono fun c s₁ h₁ => ?_
  refine (forming_emit_pop (i := .any 1) s₁).mono fun drop s₂ h₂ => ?_
  rw [ensures_pure]
  exact ⟨[], (h₁.seq h₂).balances⟩

/-- Store the top in the variable of a function statement, or in a field of it. -/
theorem forming_functionTarget {s : Site} (target : String) (keys : List String) :
    (resolve target).Ensures s fun symbol s₁ =>
      (match keys with
        | [] => emit (.store symbol 0)
        | _ => do
          let object ← emit (.load symbol)
          pure (object ++ (← assignField keys))).Ensures s₁ fun c s' =>
            Turns s c (.any 1) (.any 1) s' := by
  cases keys with
  | nil =>
    exact forming_resolve_op (.store · 0) target (fun _ => ⟨Nat.le_refl _, trivial⟩)
      (fun _ _ _ _ h => OpCode.noConfusion h) fun _ _ => rfl
  | cons key rest =>
    have hload := forming_resolve_op (s := s) (i := .any 1) (o := .any 2) .load target
      (fun _ => ⟨Nat.zero_le _, trivial⟩) (fun _ _ _ _ h => OpCode.noConfusion h) fun _ _ => rfl
    refine hload.mono fun symbol s₁ h₁ => ?_
    rw [ensures_bind]
    refine h₁.mono fun object s₂ h₂ => ?_
    rw [ensures_bind]
    refine (forming_assignField (key :: rest) (by simp) s₂).mono fun cs s₃ h₃ => ?_
    rw [ensures_pure]
    exact h₂.seq h₃

theorem balancing_function {target : String} {keys : List String} {body : FunctionBody}
    {extent : Extent} (hf : Forming (function body) [] (.any 1)) :
    Balancing (stat (.function target keys body extent)) := by
  rw [stat]
  refine balancing_marked ?_
  intro s
  simp only [ensures_bind]
  refine (hf s).mono fun f s₁ h₁ => ?_
  refine (forming_functionTarget target keys).mono fun symbol s₂ h₂ => ?_
  have hbehind : ∀ store s₃, Turns s₁ store (.any 1) (.any 1) s₃ →
      (emit (.pop 1)).Ensures s₃ fun a s' =>
        (pure (f ++ store ++ a) : Gen Code).Ensures s' fun c s'' =>
          ∃ breaks, Balances s c breaks s'' := by
    intro store s₃ h₃
    refine (forming_emit_pop (i := .any 1) s₃).mono fun drop s₄ h₄ => ?_
    rw [ensures_pure]
    exact ⟨[], ((h₁.seq h₃).seq h₄).balances⟩
  cases keys with
  | nil =>
    simp only [ensures_bind]
    exact h₂.mono hbehind
  | cons key rest =>
    simp only [ensures_bind] at h₂ ⊢
    refine h₂.mono ?_
    intro object s₃ h₃
    refine h₃.mono ?_
    intro fields s₄ h₄
    rw [ensures_pure] at h₄ ⊢
    exact hbehind _ _ h₄

theorem balancing_localFunction {name : String} {body : FunctionBody} {extent : Extent}
    (hf : Forming (function body) [] (.any 1)) :
    Balancing (stat (.localFunction name body extent)) := by
  have hbind : ∀ slot, Forming (emit (.local slot 0)) (.any 1) (.any 1) :=
    fun slot => forming_emit ⟨Nat.le_refl _, trivial⟩ (fun _ _ _ => OpCode.noConfusion) fun _ => rfl
  have hstore : ∀ symbol, Forming (emit (.store symbol 0)) (.any 1) (.any 1) :=
    fun symbol =>
      forming_emit ⟨Nat.le_refl _, trivial⟩ (fun _ _ _ => OpCode.noConfusion) fun _ => rfl
  have hdrop : Forming (emit (.pop 1)) (.any 1) [] := forming_emit_pop (i := .any 1)
  rw [stat]
  refine balancing_marked ?_
  intro s
  simp only [ensures_bind]
  rw [ensures_declare]
  refine (forming_literal rfl { s with scopes := s.scopes.declare name }).mono fun empty s₁ h₁ => ?_
  refine (hbind _ s₁).mono fun bind s₂ h₂ => ?_
  refine (hdrop s₂).mono fun drop s₃ h₃ => ?_
  refine (hf s₃).mono fun f s₄ h₄ => ?_
  refine (hstore _ s₄).mono fun store s₅ h₅ => ?_
  refine (hdrop s₅).mono fun drop₂ s₆ h₆ => ?_
  rw [ensures_pure]
  have hall := ((((h₁.seq h₂).seq h₃).seq h₄).seq h₅).seq h₆
  exact ⟨[], hall.molds.congr_left rfl, .of_eq hall.loops⟩

theorem balancing_return {values : List Expr} {extent : Extent}
    (hvs : Forming (exprs values) [] (.any values.length)) :
    Balancing (stat (.return values extent)) := by
  have hret : ∀ {n m : Nat}, (if m = 0 then 0 else 1) = n → Forming (emit (.ret m)) (.any n) [] := by
    rintro n m rfl s
    rw [ensures_emit]
    refine ⟨.op ⟨?_, trivial⟩ (fun _ _ _ => OpCode.noConfusion)
      (fun p hp => (List.not_mem_nil hp).elim) rfl, rfl⟩
    rw [Shape.length_any]
    exact Nat.le_refl _
  rw [stat]
  refine balancing_marked ?_
  intro s
  simp only [ensures_bind]
  refine (hvs s).mono fun vs s₁ h₁ => ?_
  rcases values with _ | ⟨e₁, _ | ⟨e₂, rest⟩⟩
  · -- nothing is returned
    simp only [ensures_bind]
    refine (hret (m := 0) rfl s₁).mono fun r s₂ h₂ => ?_
    rw [ensures_pure]
    exact ⟨[], (h₁.seq h₂).balances⟩
  · -- one value
    simp only [ensures_bind]
    refine (hret (m := 1) rfl s₁).mono fun r s₂ h₂ => ?_
    rw [ensures_pure]
    exact ⟨[], (h₁.seq h₂).balances⟩
  · -- several values are returned as one
    simp only [ensures_bind]
    refine (forming_emit_makeTuple _ s₁).mono fun tuple s₂ h₂ => ?_
    refine (hret (m := 1) rfl s₂).mono fun r s₃ h₃ => ?_
    rw [ensures_pure]
    exact ⟨[], ((h₁.seq h₂).seq h₃).balances⟩

/-- A jump to be filled in at the end of the innermost loop. -/
theorem balancing_break {extent : Extent} : Balancing (stat (.break extent)) := by
  rw [stat]
  refine balancing_marked ?_
  intro s
  simp only [ensures_bind, ensures_reserve, ensures_get]
  cases hl : s.loops with
  | nil => simp only [ensures_throw]
  | cons breaks outer =>
    simp only [ensures_bind, ensures_set, ensures_pure]
    exact ⟨[s.address], fun σ => .hole _ _ _ _, by simp [addBreaks, hl], by simp [hl]⟩

/-! ## Blocks and loops -/

theorem balancing_block_cons {st : Stat} {rest : List Stat} (hst : Balancing (stat st))
    (hrest : Balancing (block rest)) : Balancing (block (st :: rest)) := by
  intro s
  simp only [block, ensures_bind]
  refine (hst s).mono ?_
  rintro c s₁ ⟨b₁, h₁⟩
  refine (hrest s₁).mono ?_
  rintro cs s₂ ⟨b₂, h₂⟩
  rw [ensures_pure]
  refine ⟨b₂ ++ b₁, (h₁.molds.seq h₂.molds).congr_holes ?_, h₁.notes.trans h₂.notes⟩
  intro p
  simp only [mem_alike, List.mem_append, or_and_right]
  exact or_comm

/-- A block with its own names. -/
theorem ensures_balanced {body : List Stat} (hbody : Balancing (block body)) {s : Site}
    {Q : Code → Site → Prop} (hQ : ∀ c breaks s', Balances s c breaks s' → Q c s') :
    (modifyScopes (·.pushBlock)).Ensures s fun _ s₁ => (block body).Ensures s₁ fun c s₂ =>
      (modifyScopes (·.popBlock)).Ensures s₂ fun _ s' => Q c s' := by
  rw [ensures_modifyScopes]
  refine (hbody { s with scopes := s.scopes.pushBlock }).mono ?_
  rintro c s' ⟨breaks, h⟩
  rw [ensures_modifyScopes]
  have hmolds : Molds s c [] [] (alike [] breaks) [] s' := h.molds.congr_left rfl
  exact hQ c breaks _ ⟨hmolds.congr_right rfl, h.notes.loops, h.notes.inLoop⟩

theorem balancing_do {body : List Stat} {extent : Extent} (hbody : Balancing (block body)) :
    Balancing (stat (.do body extent)) := by
  rw [stat]
  refine balancing_marked ?_
  intro s
  simp only [ensures_bind]
  refine ensures_balanced hbody fun c breaks s' h => ?_
  rw [ensures_pure]
  exact ⟨breaks, h⟩

theorem balancing_while {condition : Expr} {body : List Stat} {extent closing : Extent}
    (hc : Forming (expr condition) [] (.any 1)) (hbody : Balancing (block body)) :
    Balancing (stat (.while condition body extent closing)) := by
  rw [stat]
  refine balancing_marked ?_
  intro s
  simp only [ensures_bind]
  rw [ensures_here]
  refine forming_scalar hc fun test one s₁ h₁ => ?_
  refine ensures_opening fun t ht htsc htl => ?_
  refine (hbody t).mono ?_
  rintro inner s₂ ⟨breaks, h₂⟩
  refine ensures_closing fun t' ht' htsc' htl' => ?_
  rw [ensures_emit, ensures_here, ensures_popLoop, ensures_pure]
  obtain ⟨hhead, htail⟩ := h₂.notes.closeLoop htl
  have hleave : Molds s₁ (fill (s₁.address, s₁.span) (.jumpIfFalse (t'.address + 1))) (.any 1) [] []
      [(t'.address + 1, [])] t :=
    (molds_branch (.jumpIfFalse _) s₁.span ⟨Nat.le_refl _, trivial⟩
      (fun _ _ _ => OpCode.noConfusion) fun _ => rfl).congr_right ht
  have hback := (molds_jump (s := t') s.address [] [] t'.span).congr_left ht'.symm
  have hall := ((h₁.molds.seq hleave).seq h₂.molds).seq hback
  simp only [List.nil_append, List.append_nil] at hall
  have hloop := hall.loop (by simp)
  simp only [htl', hhead, htail]
  exact ⟨[], hloop.congr_right rfl, .of_eq h₁.loops⟩

theorem balancing_repeat {body : List Stat} {condition : Expr} {extent : Extent}
    (hbody : Balancing (block body)) (hc : Forming (expr condition) [] (.any 1)) :
    Balancing (stat (.repeat body condition extent)) := by
  rw [stat]
  refine balancing_marked ?_
  intro s
  simp only [ensures_bind]
  rw [ensures_here, ensures_pushLoop, ensures_modifyScopes]
  refine (hbody { s with loops := [] :: s.loops, scopes := s.scopes.pushBlock }).mono ?_
  rintro inner s₁ ⟨breaks, h₁⟩
  rw [ensures_markExtent]
  refine forming_scalar (s := s₁.marked _) hc fun test one s₂ h₂ => ?_
  simp only [ensures_emit, ensures_modifyScopes, ensures_here, ensures_popLoop, ensures_pure]
  have hloops : s₂.loops = s₁.loops := h₂.loops
  obtain ⟨hhead, htail⟩ := h₁.notes.closeLoop rfl
  rw [hloops, hhead, htail]
  have hagain := molds_branch (s := s₂) (.jumpIfFalse s.address) (i := .any 1) s₂.span
    ⟨Nat.le_refl _, trivial⟩ (fun _ _ _ => OpCode.noConfusion) fun _ => rfl
  have hinner : Molds s inner [] [] (alike [] breaks) [] s₁ := h₁.molds.congr_left rfl
  have hall := (hinner.seq (h₂.molds.congr_left (t := s₁) rfl)).seq hagain
  simp only [List.nil_append, List.append_nil] at hall
  have hloop := hall.loop (by simp)
  rw [List.append_assoc inner test one]
  exact ⟨[], hloop.congr_right rfl, .of_eq rfl⟩

theorem balancing_numericFor {var : String} {first limit step : Expr} {body : List Stat}
    {extent closing : Extent} (ha : Forming (expr first) [] (.any 1))
    (hb : Forming (expr limit) [] (.any 1)) (hc : Forming (expr step) [] (.any 1))
    (hbody : Balancing (block body)) :
    Balancing (stat (.numericFor var first limit step body extent closing)) := by
  have hprep : Forming (emit .forPrep) (.any 3) Shape.control :=
    forming_emit ⟨Nat.le_refl _, trivial⟩ (fun _ _ _ => OpCode.noConfusion) fun _ => rfl
  have hbind : ∀ slot, Forming (emit (.forVar slot)) Shape.control Shape.control :=
    fun slot => forming_emit ⟨Nat.le_refl _, [], rfl⟩ (fun _ _ _ => OpCode.noConfusion) fun _ => rfl
  have hstep : Forming (emit .forStep) Shape.control Shape.control :=
    forming_emit ⟨Nat.le_refl _, [], rfl⟩ (fun _ _ _ => OpCode.noConfusion) fun _ => rfl
  rw [stat]
  refine balancing_marked ?_
  intro s
  simp only [ensures_bind]
  refine forming_scalar ha fun a a' s₁ h₁ => ?_
  refine forming_scalar hb fun b b' s₂ h₂ => ?_
  refine forming_scalar hc fun c c' s₃ h₃ => ?_
  refine (hprep s₃).mono fun prep s₄ h₄ => ?_
  have hfront := ((h₁.seq (h₂.onTop (i := 0) 1)).seq (h₃.onTop (i := 0) 2)).seq h₄
  refine ensures_opening fun t ht htsc htl => ?_
  rw [ensures_declare]
  refine (hbind _ { t with scopes := t.scopes.declare var }).mono fun bind t₁ h₅ => ?_
  refine (hbody t₁).mono ?_
  rintro inner s₅ ⟨breaks, h₆⟩
  refine ensures_closing fun t' ht' htsc' htl' => ?_
  refine (hstep t').mono fun step s₆ h₇ => ?_
  rw [ensures_emit, ensures_here]
  have hback := molds_jump (s := s₆) s₄.address Shape.control Shape.control s₆.span
  refine (forming_emit_pop (i := Shape.control) { s₆ with address := s₆.address + 1 }).mono
    fun drop s₇ h₈ => ?_
  rw [ensures_popLoop, ensures_pure]
  obtain ⟨hhead, htail⟩ := h₆.notes.closeLoop (h₅.loops.trans htl)
  have hloops : s₇.loops = s₅.loops := h₈.loops.trans (h₇.loops.trans htl')
  -- from the test of the loop to behind the jump back to it, the control values stay on the stack
  have hleave : Molds s₄ (fill (s₄.address, s₄.span) (.forLoop (s₆.address + 1))) Shape.control Shape.control []
      [(s₆.address + 1, Shape.control)] t :=
    (molds_branch (.forLoop _) s₄.span ⟨Nat.le_refl _, [], rfl⟩
      (fun _ _ _ => OpCode.noConfusion) fun _ => rfl).congr_right ht
  have hbound : Molds t bind Shape.control Shape.control [] [] t₁ := h₅.molds.congr_left rfl
  have hinner := (h₆.molds.lift Shape.control).congr_right ht'
  have hall := (((hleave.seq hbound).seq hinner).seq h₇.molds).seq hback
  simp only [above_alike, above_nil, List.nil_append, List.append_nil] at hall
  have hloop := hall.loop (by simp)
  have hwhole := (hfront.molds.seq hloop).seq h₈.molds
  simp only [List.append_assoc] at hwhole ⊢
  rw [hloops, hhead, htail]
  exact ⟨[], hwhole.congr_right rfl, .of_eq hfront.loops⟩

/-- The call of the iterator at the start of each round of a generic loop. -/
theorem forming_iterate {s : Site} {Q : Code → Code → Code → Code → Site → Prop}
    (hQ : ∀ c₁ c₂ c₃ c₄ s', Turns s (c₁ ++ c₂ ++ c₃ ++ c₄) Shape.control (false :: Shape.control) s' →
      Q c₁ c₂ c₃ c₄ s') :
    (emit (.copy 2)).Ensures s fun c₁ s₁ => (emit (.copy 2)).Ensures s₁ fun c₂ s₂ =>
      (emit (.copy 2)).Ensures s₂ fun c₃ s₃ => (emit (.call 2)).Ensures s₃ fun c₄ s' =>
        Q c₁ c₂ c₃ c₄ s' := by
  have hcopy : ∀ i : Shape, i[2]? = some true → Forming (emit (.copy 2)) i (false :: i) := by
    intro i hi
    have hlt : 2 < i.length := (List.getElem?_eq_some_iff.1 hi).1
    exact forming_emit ⟨hlt, hi⟩ (fun _ _ _ => OpCode.noConfusion) fun _ => rfl
  refine (hcopy Shape.control rfl s).mono fun c₁ s₁ h₁ => ?_
  refine (hcopy (false :: Shape.control) rfl s₁).mono fun c₂ s₂ h₂ => ?_
  refine (hcopy (false :: false :: Shape.control) rfl s₂).mono fun c₃ s₃ h₃ => ?_
  refine (forming_emit_call 2 s₃).mono fun c₄ s₄ h₄ => ?_
  exact hQ c₁ c₂ c₃ c₄ s₄ (((h₁.seq h₂).seq h₃).seq (h₄.lift Shape.control))

theorem balancing_genericFor {names : List String} {values : List Expr} {body : List Stat}
    {extent closing : Extent} (hvs : Forming (exprs values) [] (.any values.length))
    (hbody : Balancing (block body)) :
    Balancing (stat (.genericFor names values body extent closing)) := by
  have hprep : Forming (emit .iterPrep) (.any 1) Shape.control :=
    forming_emit ⟨Nat.le_refl _, trivial⟩ (fun _ _ _ => OpCode.noConfusion) fun _ => rfl
  rw [stat]
  refine balancing_marked ?_
  intro s
  simp only [ensures_bind]
  refine (hvs s).mono fun vs s₁ h₁ => ?_
  refine (forming_emit_makeTuple _ s₁).mono fun tuple s₂ h₂ => ?_
  refine (hprep s₂).mono fun prep s₃ h₃ => ?_
  have hfront := (h₁.seq h₂).seq h₃
  rw [ensures_here]
  refine forming_iterate fun c₁ c₂ c₃ c₄ s₄ h₄ => ?_
  refine ensures_opening fun t ht htsc htl => ?_
  refine (forming_bindNames names 0 t).mono fun binds s₅ h₅ => ?_
  refine (forming_emit_pop (i := .any 1) s₅).mono fun drop s₆ h₆ => ?_
  refine (hbody s₆).mono ?_
  rintro inner s₇ ⟨breaks, h₇⟩
  refine ensures_closing fun t' ht' htsc' htl' => ?_
  rw [ensures_emit, ensures_here]
  have hback := (molds_jump (s := t') s₃.address Shape.control Shape.control t'.span).congr_left ht'.symm
  refine (forming_emit_pop (i := Shape.control) { t' with address := t'.address + 1 }).mono
    fun drop₃ s₈ h₈ => ?_
  rw [ensures_popLoop, ensures_pure]
  obtain ⟨hhead, htail⟩ := h₇.notes.closeLoop (h₆.loops.trans (h₅.loops.trans htl))
  have hloops : s₈.loops = s₇.loops := h₈.loops.trans htl'
  have hleave : Molds s₄ (fill (s₄.address, s₄.span) (.iterCheck (t'.address + 1)))
      (false :: Shape.control) (false :: Shape.control) [] [(t'.address + 1, Shape.control)] t :=
    (molds_branch (.iterCheck _) s₄.span ⟨Nat.le_refl _, false, [], rfl⟩
      (fun _ _ _ => OpCode.noConfusion) fun _ => rfl).congr_right ht
  have hall := ((((h₄.molds.seq hleave).seq (h₅.lift Shape.control).molds).seq (h₆.lift Shape.control).molds).seq
    (h₇.molds.lift Shape.control)).seq hback
  simp only [above_alike, above_nil, List.nil_append, List.append_nil] at hall
  have hloop := hall.loop (by simp)
  have hwhole := (hfront.molds.seq hloop).seq h₈.molds
  rw [hloops, hhead, htail]
  exact ⟨[], hwhole.congr_right rfl, .of_eq (h₄.loops.trans hfront.loops)⟩

/-! ## Conditions -/

/-- The clauses of an `if` leave the stack as it was; their loose ends are the jumps to the end and
the breaks in them. -/
def Selecting (x : Gen (Code × List Nat)) : Prop :=
  ∀ s, x.Ensures s fun p s' =>
    ∃ breaks, Molds s p.1 [] [] (alike [] (p.2 ++ breaks)) [] s' ∧ Notes s breaks s'

theorem selecting_done : Selecting (clauses .done) := by
  intro s
  rw [clauses, ensures_pure]
  exact ⟨[], .nil s [], .of_eq rfl⟩

theorem selecting_otherwise {body : List Stat} (hbody : Balancing (block body)) :
    Selecting (clauses (.otherwise body)) := by
  intro s
  simp only [clauses, ensures_bind]
  refine ensures_balanced hbody fun c breaks s' h => ?_
  rw [ensures_pure]
  exact ⟨breaks, h.molds, h.notes⟩

/-- The last clause goes behind its own block if its condition fails. -/
theorem selecting_last {condition : Expr} {body : List Stat} {header : Extent}
    (hc : Forming (expr condition) [] (.any 1)) (hbody : Balancing (block body)) :
    Selecting (clauses (.clause condition body header .done)) := by
  intro s
  simp only [clauses, ensures_bind]
  rw [ensures_markExtent]
  refine forming_scalar (s := s.marked _) hc fun test one s₁ h₁ => ?_
  rw [ensures_reserve]
  refine ensures_balanced (s := { s₁ with address := s₁.address + 1 }) hbody
    fun inner breaks s₂ h₂ => ?_
  rw [ensures_here, ensures_pure]
  have hskip := molds_branch (s := s₁) (.jumpIfFalse s₂.address) (i := .any 1) s₁.span
    ⟨Nat.le_refl _, trivial⟩ (fun _ _ _ => OpCode.noConfusion) fun _ => rfl
  have hall := (h₁.molds.seq hskip).seq h₂.molds
  simp only [List.nil_append, List.append_nil] at hall
  have hclosed := hall.close (by simp)
  exact ⟨breaks, hclosed.congr_left rfl, h₂.notes.congr_left h₁.loops.symm⟩

/-- A clause with others behind it goes on to them if its condition fails, and else jumps over
them. -/
theorem selecting_clause {condition : Expr} {body : List Stat} {header : Extent} {rest : Branches}
    (hrest : rest ≠ .done) (hc : Forming (expr condition) [] (.any 1)) (hbody : Balancing (block body))
    (hr : Selecting (clauses rest)) : Selecting (clauses (.clause condition body header rest)) := by
  intro s
  simp only [clauses, ensures_bind]
  rw [ensures_markExtent]
  refine forming_scalar (s := s.marked _) hc fun test one s₁ h₁ => ?_
  rw [ensures_reserve]
  refine ensures_balanced (s := { s₁ with address := s₁.address + 1 }) hbody
    fun inner b₁ s₂ h₂ => ?_
  rw [ensures_reserve, ensures_here]
  refine (hr { s₂ with address := s₂.address + 1 }).mono ?_
  rintro p s₃ ⟨b₂, h₃, hn₃⟩
  rw [ensures_pure]
  have hskip := molds_branch (s := s₁) (.jumpIfFalse (s₂.address + 1)) (i := .any 1) s₁.span
    ⟨Nat.le_refl _, trivial⟩ (fun _ _ _ => OpCode.noConfusion) fun _ => rfl
  have hhole : Molds s₂ (fill (s₂.address, s₂.span) (.jump 0)) [] [] (alike [] [s₂.address]) []
      { s₂ with address := s₂.address + 1 } := fun σ => .hole _ _ _ _
  -- the failed condition leads to the end of the clause, behind its jump
  have hclause := ((h₁.molds.seq hskip).seq h₂.molds).seq hhole
  have hall := (hclause.close (by simp)).seq h₃
  refine ⟨b₂ ++ b₁, (hall.congr_holes ?_).congr_left rfl, ?_⟩
  · intro q
    simp only [mem_alike, List.mem_append, List.mem_cons, List.not_mem_nil, or_false, false_or]
    tauto
  · exact (h₂.notes.trans (hn₃.congr_left rfl)).congr_left h₁.loops.symm

theorem balancing_if {branches : Branches} {extent : Extent} (hb : Selecting (clauses branches)) :
    Balancing (stat (.if branches extent)) := by
  rw [stat]
  refine balancing_marked ?_
  intro s
  simp only [ensures_bind]
  rw [ensures_here]
  refine (hb s).mono ?_
  rintro p s₁ ⟨breaks, h₁, hn⟩
  rw [ensures_here, ensures_pure]
  exact ⟨breaks, h₁.patch, hn⟩

/-! ## The induction -/

mutual

theorem forming_expr : ∀ e : Expr, Forming (expr e) [] (.any 1)
  | .nil => by
    rw [expr]
    exact forming_literal rfl
  | .boolean b => by
    rw [expr]
    exact forming_literal rfl
  | .number n => by
    rw [expr]
    exact forming_literal rfl
  | .string s => by
    rw [expr]
    exact forming_literal rfl
  | .varargs => forming_varargs
  | .function body => by
    rw [expr]
    exact forming_functionBody body
  | .table fs => forming_table (forming_fields fs 1)
  | .binary _ left right => forming_binary (forming_expr left) (forming_expr right)
  | .logical _ left right => forming_logical (forming_expr left) (forming_expr right)
  | .unary _ operand => forming_unary (forming_expr operand)
  | .name n => forming_name n
  | .index object key => forming_index (forming_expr object) (forming_expr key)
  | .call f args => forming_call (forming_expr f) (forming_exprs args)
  | .methodCall object _ args => forming_methodCall (forming_expr object) (forming_exprs args)
  | .paren e => forming_paren (forming_expr e)

theorem forming_exprs : ∀ es : List Expr, Forming (exprs es) [] (.any es.length)
  | [] => by
    intro s
    rw [exprs, ensures_pure]
    exact .nil s _
  | [e] => by
    rw [exprs]
    exact forming_expr e
  | e :: e' :: rest => forming_exprs_cons (forming_expr e) (forming_exprs (e' :: rest))

theorem forming_fields : ∀ (fs : List Field) (position : Nat),
    Forming (fields fs position) (.any 1) (.any 1)
  | [], _ => by
    intro s
    rw [fields, ensures_pure]
    exact .nil s _
  | .positional value :: rest, position =>
    forming_fields_positional (forming_expr value) (forming_fields rest (position + 1))
  | .named _ value :: rest, position =>
    forming_fields_named (forming_expr value) (forming_fields rest position)
  | .keyed key value :: rest, position =>
    forming_fields_keyed (forming_expr key) (forming_expr value) (forming_fields rest position)

theorem forming_assignTo : ∀ (targets : List Expr) (i : Nat),
    Forming (assignTo targets i) (.any 1) (.any 1)
  | [], _ => by
    intro s
    rw [assignTo, ensures_pure]
    exact .nil s _
  | e :: rest, i => by
    cases e with
    | name n => exact forming_assignTo_name (forming_assignTo rest (i + 1))
    | index object key =>
      exact forming_assignTo_index (forming_expr object) (forming_expr key)
        (forming_assignTo rest (i + 1))
    | _ => exact forming_assignTo_refused rfl

theorem forming_functionBody : ∀ body : FunctionBody, Forming (function body) [] (.any 1)
  | .mk _ _ _ body _ _ => forming_function (balancing_block body)

theorem balancing_block : ∀ body : List Stat, Balancing (block body)
  | [] => by
    intro s
    rw [block, ensures_pure]
    exact ⟨[], (Turns.nil s []).balances⟩
  | st :: rest => balancing_block_cons (balancing_stat st) (balancing_block rest)

theorem balancing_stat : ∀ st : Stat, Balancing (stat st)
  | .local _ values _ => balancing_local (forming_exprs values)
  | .assign targets values _ => balancing_assign (forming_exprs values) (forming_assignTo targets 0)
  | .call e _ => balancing_call (forming_expr e)
  | .do body _ => balancing_do (balancing_block body)
  | .while condition body _ _ => balancing_while (forming_expr condition) (balancing_block body)
  | .repeat body condition _ => balancing_repeat (balancing_block body) (forming_expr condition)
  | .if branches _ => balancing_if (selecting_clauses branches)
  | .numericFor _ first limit step body _ _ =>
    balancing_numericFor (forming_expr first) (forming_expr limit) (forming_expr step)
      (balancing_block body)
  | .genericFor _ values body _ _ => balancing_genericFor (forming_exprs values) (balancing_block body)
  | .function _ _ body _ => balancing_function (forming_functionBody body)
  | .localFunction _ body _ => balancing_localFunction (forming_functionBody body)
  | .return values _ => balancing_return (forming_exprs values)
  | .break _ => balancing_break

theorem selecting_clauses : ∀ branches : Branches, Selecting (clauses branches)
  | .done => selecting_done
  | .otherwise body => selecting_otherwise (balancing_block body)
  | .clause condition body _ .done => selecting_last (forming_expr condition) (balancing_block body)
  | .clause condition body _ (.otherwise last) =>
    selecting_clause (by simp) (forming_expr condition) (balancing_block body)
      (selecting_clauses (.otherwise last))
  | .clause condition body _ (.clause c b h rest) =>
    selecting_clause (by simp) (forming_expr condition) (balancing_block body)
      (selecting_clauses (.clause c b h rest))

end

/-- A chunk has shapes for all its addresses. -/
theorem forms_chunk (name : String) (kind : HeaderKind) (body : Block) (s : Site) (hl : s.loops = []) :
    (Gen.chunk name kind body).Ensures s fun c s' => Forms s.address c s'.address [] [] [] [] := by
  simp only [chunk, ensures_bind, ensures_reserve, ensures_emit]
  refine (balancing_block body { s with address := s.address + 1 + 1 + 1 }).mono ?_
  rintro inner s₁ ⟨breaks, h₁⟩
  -- a chunk is in no loop
  obtain rfl : breaks = [] := h₁.notes.inLoop hl
  simp only [ensures_setSpan, ensures_get, ensures_here, ensures_pure]
  have hinner : Forms (s.address + 3) inner s₁.address [] [] [] [] := h₁.molds []
  exact hinner.function_inside

end Gen

end LuaMachine
