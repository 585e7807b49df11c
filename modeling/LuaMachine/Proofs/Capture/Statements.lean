import LuaMachine.Proofs.Capture.Expressions
import LuaMachine.Proofs.Code.Blocks
import LuaMachine.Proofs.Code.Verification

/-!
# The places of statements and functions

Functions and statements, each under the assumption that the promise holds for its parts, and the
induction over the trees. A statement may declare variables in its block, and its loose ends are the
jumps of `break`, at which is visible what was so before it (`Declaring`).

Main statement: a chunk has places for all its addresses, those of its inner functions included
(`Gen.scopes_chunk`).
-/

namespace LuaMachine

/-- A step makes code that may declare variables and whose loose ends are breaks. -/
def Declaring (x : Gen Code) (course : Course) : Prop :=
  ∀ s : Site, s.scopes.Orderly → x.Ensures s fun c s' =>
    ∃ added breaks, Charts s course c added breaks [] s' ∧ Notes s breaks s'

namespace Gen

variable {s : Site}

/-! ## Functions -/

theorem after_declares (params : List String) (scopes : ScopeStack) :
    Course.after scopes (params.map Course.declare) = params.foldl ScopeStack.declare scopes := by
  induction params generalizing scopes with
  | nil => rfl
  | cons name rest ih => exact ih (scopes.declare name)

theorem notes_declares (params : List String) (scopes : ScopeStack) :
    Course.notes scopes (params.map Course.declare) = [] := by
  induction params generalizing scopes with
  | nil => rfl
  | cons name rest ih => exact ih (scopes.declare name)

/-- The parameters of a function are its first declarations. -/
theorem charts_args (hs : s.scopes.Orderly) (hnone : s.visible = []) (hslot : s.scopes.nextSlot = 0)
    (params : List String) (isVararg : Bool) (span : Option Span) :
    ∃ added, Charts s (.instruction :: params.map Course.declare)
      [⟨.args params.length isVararg, span⟩] added [] []
      { s with address := s.address + 1, scopes := params.foldl ScopeStack.declare s.scopes } := by
  obtain ⟨horderly, added, hopens, hadded⟩ := hs.foldl_declare params
  have hmakes : Charts.Makes s (.instruction :: params.map Course.declare) s.scopes
      { s with address := s.address + 1, scopes := params.foldl ScopeStack.declare s.scopes } added :=
    ⟨congrArg (s.scopes :: ·) (notes_declares params _), after_declares params _, .refl hs, hopens, hs,
      horderly⟩
  refine ⟨added, .op hmakes rfl rfl (fun U _ => hnone)
    (fun y hy => .inl (List.mem_singleton.1 hy)) ?_ fun _ => rfl⟩
  rw [hadded, hslot, OpCode.bound, List.range_eq_range']

/-- A function begins without declarations, and names the slots that it has in the end. -/
theorem scopes_beginning {S : Nat → ScopeStack} {start : Nat} {course : Course} {c : Code}
    {added : Visible} {t s₁ : Site} (h : Charts t course c added [] [] s₁) (ht : t.scopes.Orderly)
    (hnone : t.visible = []) (hslot : t.scopes.nextSlot = 0) (hstart : t.address = start + 2)
    (hS : Course.Noted S start (t.scopes :: t.scopes :: course.notes t.scopes)) (name : String)
    (kind : HeaderKind) (length : Nat) (span₁ span₂ : Option Span) :
    Scopes (fun x p => p.Means (S x)) ⟨s₁.scopes.current.captured, []⟩ s₁.scopes.current.outline start
      ([⟨.header name kind length, span₁⟩] ++ [⟨.beginFn s₁.scopes.current.locals, span₂⟩] ++ c)
      s₁.address [] s₁.visible [] [] := by
  have hend := h.orderly.foretells
  obtain ⟨hcaptured, -, hnodup, hbound⟩ := h.opens.foretells hend
  have hlocals : t.scopes.current.locals = [] := List.length_eq_zero_iff.1 hslot
  have hmeans : (Place.mk ⟨s₁.scopes.current.captured, []⟩ []).Means t.scopes :=
    ⟨ht, hnone.symm, hcaptured, hlocals ▸ List.prefix_refl _, hnodup, hbound⟩
  have hbegin : Scopes (fun x p => p.Means (S x)) ⟨s₁.scopes.current.captured, []⟩
      s₁.scopes.current.outline start ([⟨.header name kind length, span₁⟩] ++
        [⟨.beginFn s₁.scopes.current.locals, span₂⟩]) (start + 2) [] [] [] [] := by
    refine .beginning s₁.scopes.current.outline name kind length ?_ ?_ rfl
    · exact (hS 0 _ rfl : S start = t.scopes) ▸ hmeans
    · exact (hS 1 _ rfl : S (start + 1) = t.scopes) ▸ hmeans
  have hrest := h.scopes S _ (hstart ▸ hS.right (a := [_, _])) hend
  rw [hstart, hnone] at hrest
  exact hbegin.append hrest (List.suffix_refl _)

/-- The code of a function, between the functions around it. -/
theorem charts_function {isVararg : Bool} {course : Course} {c : Code} {added : Visible}
    {t s₁ s' : Site} (hs : s.scopes.Orderly) (ht : t.address = s.address + 3)
    (htsc : t.scopes = s.scopes.pushFunction isVararg) (h : Charts t course c added [] [] s₁)
    (hs' : s'.address = s₁.address + 2) (hs'sc : s'.scopes = s₁.scopes.popFunction) (name : String)
    (kind : HeaderKind) (length : Nat) (span₀ span₁ span₂ span₃ span₄ : Option Span) :
    Charts s ([.instruction] ++ (Course.pushFunction isVararg :: ([.instruction] ++ [.instruction] ++
        course ++ [.instruction]) ++ [Course.popFunction]) ++ [.instruction])
      ([⟨.jump (s₁.address + 1), span₀⟩] ++ ([⟨.header name kind length, span₁⟩] ++
        [⟨.beginFn s₁.scopes.current.locals, span₂⟩] ++ c) ++ [⟨.ret 0, span₃⟩] ++
        [⟨.closure (s.address + 1) s₁.scopes.current.captures, span₄⟩]) [] [] [] s' := by
  obtain ⟨horderly, hopens, hcaptured⟩ := hs.leaveFunction h.orderly (htsc ▸ h.opens)
  have hvisible : s'.visible = s.visible := by
    rw [Site.visible, hs'sc]
    exact hopens.visible
  have hnone : t.visible = [] := by
    rw [Site.visible, htsc]
    rfl
  have hnames : s₁.scopes.current.captures.map Symbol.name = s₁.scopes.current.captured := by
    rw [FunctionScope.captures, FunctionScope.captured, List.map_map]
    exact List.map_congr_left fun u hu => (hcaptured u hu).1
  have hnotes : Course.notes s.scopes ([.instruction] ++ (Course.pushFunction isVararg ::
      ([.instruction] ++ [.instruction] ++ course ++ [.instruction]) ++ [Course.popFunction]) ++
        [.instruction]) = [s.scopes] ++ ((t.scopes :: t.scopes :: course.notes t.scopes) ++
          ([s₁.scopes] ++ [s'.scopes])) := by
    have hinside : Course.notes (s.scopes.pushFunction isVararg) (course ++ [.instruction] ++
        [Course.popFunction] ++ [.instruction]) =
          course.notes t.scopes ++ ([s₁.scopes] ++ [s'.scopes]) := by
      rw [← htsc, Course.notes_append, Course.notes_append, Course.notes_append, Course.after_append,
        Course.after_append, h.after, hs'sc]
      simp [Course.notes, Course.after, Course.popFunction, ScopeStack.apply, h.after]
    simp only [List.append_assoc, List.cons_append, List.nil_append] at hinside ⊢
    rw [htsc] at hinside ⊢
    exact congrArg (fun l => s.scopes :: s.scopes.pushFunction isVararg ::
      s.scopes.pushFunction isVararg :: l) hinside
  refine ⟨hs'sc ▸ horderly, hs'sc ▸ hopens, ?_, ?_, fun S U hS hU => ?_⟩
  · have hafter : Course.after (s.scopes.pushFunction isVararg) (course ++ [.instruction] ++
        [Course.popFunction] ++ [.instruction]) = s'.scopes := by
      rw [← htsc, Course.after_append, Course.after_append, Course.after_append, h.after, hs'sc]
      rfl
    simp only [List.append_assoc, List.cons_append, List.nil_append] at hafter ⊢
    exact hafter
  · rw [hnotes, hs', h.address, ht]
    simp only [List.length_append, List.length_cons, List.length_nil]
    omega
  rw [hnotes] at hS
  have hinside : Course.Noted S (s.address + 1) (t.scopes :: t.scopes :: course.notes t.scopes) :=
    hS.right.left
  have hbody := scopes_beginning h (htsc ▸ hs.pushFunction isVararg) hnone (htsc ▸ rfl) ht hinside name
    kind length span₁ span₂
  have hlast : Course.Noted S s₁.address ([s₁.scopes] ++ [s'.scopes]) := by
    have haddress : s₁.address =
        s.address + 1 + (t.scopes :: t.scopes :: course.notes t.scopes).length := by
      rw [h.address, ht, List.length_cons, List.length_cons]
      omega
    exact haddress ▸ hS.right.right
  have hfirst : S s.address = s.scopes := hS.left 0 _ rfl
  have hret : S s₁.address = s₁.scopes := hlast 0 _ rfl
  have hclosure : S (s₁.address + 1) = s'.scopes := hlast 1 _ rfl
  rw [FunctionScope.outline, ← hnames] at hbody
  rw [hs', hvisible]
  refine Scopes.function hbody (fun sym hsym => ?_) (by simp) ?_ ?_ ?_
  · obtain ⟨u, hu, rfl⟩ := List.mem_map.1 hsym
    obtain ⟨-, hvariable, hplace⟩ := hcaptured u hu
    rw [FunctionScope.place, ← hs'sc] at hplace
    have hplace' : (Place.mk s'.scopes.current.outline s.visible).Names u.2 := hvisible ▸ hplace
    exact ⟨hvariable, hplace'.mono hU.captured⟩
  · rw [hfirst]
    exact ⟨hs, rfl, hopens.foretells (hs'sc ▸ hU)⟩
  · rw [hret, hnames]
    exact ⟨h.orderly, rfl, h.orderly.foretells⟩
  · rw [hclosure]
    exact ⟨hs'sc ▸ horderly, hvisible.symm, hU⟩

theorem charting_function {name : String} {params : List String} {isVararg : Bool} {body : List Stat}
    {extent closing : Extent} (hbody : Declaring (block body) (Course.block body)) :
    Charting (function (.mk name params isVararg body extent closing))
      (Course.function (.mk name params isVararg body extent closing)) := by
  intro s hs
  simp only [function, Course.function, ensures_bind, ensures_reserve, ensures_currentSpan,
    ensures_spanOf, ensures_markSpan, ensures_emit, ensures_modifyScopes, ensures_forIn_declare,
    ensures_get, ensures_modify, ensures_markExtent, ensures_here, ensures_setSpan, ensures_pure,
    Site.marked_address, Site.marked_scopes, Site.marked_loops]
  have hin := (hs.pushFunction isVararg).foldl_declare params
  refine (hbody _ hin.1).mono ?_
  rintro inner s₁ ⟨added, breaks, h₁, hn₁⟩
  -- the body is in no loop, so it has no breaks
  obtain rfl : breaks = [] := hn₁.inLoop rfl
  let span := (s.marked (s.spanOf extent).nonBreakable).span
  obtain ⟨added₀, hargs⟩ := charts_args (s := { s with
    address := s.address + 3, scopes := s.scopes.pushFunction isVararg }) (hs.pushFunction isVararg)
    rfl rfl params isVararg span
  have hwhole := hargs.seq (h₁.congr_left rfl rfl)
  refine ⟨?_, trivial⟩
  let s₂ : Site := { s₁ with address := s₁.address + 2, scopes := s₁.scopes.popFunction }
  have hs₂ : s₂.address = s₁.address + 2 ∧ s₂.scopes = s₁.scopes.popFunction := ⟨rfl, rfl⟩
  have hall := charts_function hs rfl rfl hwhole hs₂.1 hs₂.2 name .function
    (s₁.address + 1 - (s.address + 1)) s.span span span (s₁.marked (s₁.spanOf closing)).span s.span
  simp only [fill, List.append_assoc] at hall ⊢
  exact hall.congr_right rfl rfl

/-! ## Statements without inner blocks -/

/-- Attributing code to a span does not change the code. -/
theorem declaring_marked {x : Gen Code} {course : Course} {extent : Extent} (h : Declaring x course) :
    Declaring (markExtent extent >>= fun _ => x) course := by
  intro s hs
  rw [ensures_bind, ensures_markExtent]
  refine (h (s.marked _) hs).mono ?_
  rintro c s' ⟨added, breaks, h', hn⟩
  exact ⟨added, breaks, h'.congr_left rfl rfl, hn.loops, hn.inLoop⟩

theorem declaring_of_charting {x : Gen Code} {course : Course} (h : Charting x course) :
    Declaring x course := by
  intro s hs
  refine (h s hs).mono fun c s' h' => ?_
  exact ⟨[], [], h'.1, .of_eq h'.2⟩

/-- One more variable, which an operation binds. -/
theorem charts_declare (op : Nat → OpCode) (hs : s.scopes.Orderly) (name : String)
    (hordinary : ∀ slot, (op slot).isOrdinary = true)
    (hsuits : ∀ slot p, (∀ d ∈ p.visible, d.2 ≠ slot) → (op slot).Suits p)
    (hbound : ∀ slot, (op slot).bound = [slot]) (htargets : ∀ slot x, (op slot).targets x = [x + 1])
    (span : Option Span) :
    Charts s [.instruction, Course.declare name] [⟨op s.scopes.nextSlot, span⟩]
      [(name, s.scopes.nextSlot)] [] []
      { s with address := s.address + 1, scopes := s.scopes.declare name } := by
  refine .op ⟨rfl, rfl, .refl hs, hs.opens_declare name, hs, hs.declare name⟩ rfl (hordinary _)
    (fun U _ => hsuits _ _ ?_) (fun y hy => .inl ?_) ?_ fun _ => rfl
  · exact fun d hd => Nat.ne_of_lt (hs.slot_lt d hd)
  · rw [htargets] at hy
    exact List.mem_singleton.1 hy
  · rw [hbound]
    rfl

theorem charts_local (hs : s.scopes.Orderly) (name : String) (i : Nat) (span : Option Span) :
    Charts s [.instruction, Course.declare name] [⟨.local s.scopes.nextSlot i, span⟩]
      [(name, s.scopes.nextSlot)] [] []
      { s with address := s.address + 1, scopes := s.scopes.declare name } :=
  charts_declare (.local · i) hs name (fun _ => rfl) (fun _ _ h => h)
    (fun _ => rfl) (fun _ _ => rfl) span

theorem charting_bindNames (names : List String) (i : Nat) (hs : s.scopes.Orderly) :
    (bindNames names i).Ensures s fun c s' =>
      (∃ added, Charts s (Course.bindNames names) c added [] [] s') ∧ s'.loops = s.loops := by
  induction names generalizing i s with
  | nil =>
    rw [bindNames, ensures_pure]
    exact ⟨⟨[], .nil hs⟩, rfl⟩
  | cons name names ih =>
    simp only [bindNames, ensures_bind, ensures_declare, ensures_emit]
    have h₁ := charts_local hs name i s.span
    refine (ih (i + 1) h₁.orderly).mono ?_
    rintro cs s₂ ⟨⟨added, h₂⟩, hl₂⟩
    rw [ensures_pure]
    exact ⟨⟨_, h₁.seq h₂⟩, hl₂⟩

theorem declaring_local {names : List String} {values : List Expr} {extent : Extent}
    (hvs : Charting (exprs values) (Course.exprs values)) : Declaring (stat (.local names values extent)) (Course.stat (.local names values extent)) := by
  rw [stat, Course.stat]
  refine declaring_marked ?_
  intro s hs
  simp only [ensures_bind]
  refine (hvs s hs).mono fun vs s₁ h₁ => ?_
  refine (charting_emit (.makeTuple values.length) rfl s₁ h₁.1.orderly).mono fun tuple s₂ h₂ => ?_
  refine (charting_bindNames names 0 h₂.1.orderly).mono ?_
  rintro binds s₃ ⟨⟨added, h₃⟩, hl₃⟩
  refine (charting_emit (.pop 1) rfl s₃ h₃.orderly).mono fun drop s₄ h₄ => ?_
  rw [ensures_pure]
  exact ⟨_, [], ((h₁.1.seq h₂.1).seq h₃).seq h₄.1,
    .of_eq (((h₄.2.trans hl₃).trans h₂.2).trans h₁.2)⟩

theorem declaring_assign {targets values : List Expr} {extent : Extent}
    (hvs : Charting (exprs values) (Course.exprs values)) (hts : Charting (assignTo targets 0) (Course.assignTo targets)) :
    Declaring (stat (.assign targets values extent)) (Course.stat (.assign targets values extent)) := by
  rw [stat, Course.stat]
  refine declaring_marked (declaring_of_charting ?_)
  intro s hs
  simp only [ensures_bind]
  refine (hvs s hs).mono fun vs s₁ h₁ => ?_
  refine (charting_emit (.makeTuple values.length) rfl s₁ h₁.1.orderly).mono fun tuple s₂ h₂ => ?_
  refine (hts s₂ h₂.1.orderly).mono fun stores s₃ h₃ => ?_
  exact charting_snoc ((h₁.1.seq h₂.1).seq h₃.1) ((h₃.2.trans h₂.2).trans h₁.2) rfl

theorem declaring_call {e : Expr} {extent : Extent} (he : Charting (expr e) (Course.expr e)) :
    Declaring (stat (.call e extent)) (Course.stat (.call e extent)) := by
  rw [stat, Course.stat]
  refine declaring_marked (declaring_of_charting ?_)
  intro s hs
  simp only [ensures_bind]
  refine (he s hs).mono fun c s₁ h₁ => ?_
  exact charting_snoc h₁.1 h₁.2 rfl

/-- Store the top in the variable of a function statement, or in a field of it. -/
theorem charting_functionTarget (hs : s.scopes.Orderly) (target : String) (keys : List String) :
    (resolve target).Ensures s fun symbol s₁ =>
      (match keys with
        | [] => emit (.store symbol 0)
        | _ => do
          let object ← emit (.load symbol)
          pure (object ++ (← assignField keys))).Ensures s₁ fun c s' =>
            Charts s ([Course.resolve target, .instruction] ++ Course.assignField keys) c [] [] [] s' ∧
              s'.loops = s.loops := by
  cases keys with
  | nil =>
    exact charting_resolve_op (.store · 0) target hs (fun _ _ h => h) (fun _ => rfl) (fun _ _ => rfl)
      fun _ => rfl
  | cons key rest =>
    have hload := charting_resolve_op .load target hs (fun _ _ h => h) (fun _ => rfl) (fun _ _ => rfl)
      fun _ => rfl
    refine hload.mono fun symbol s₁ h₁ => ?_
    rw [ensures_bind]
    refine h₁.mono fun object s₂ h₂ => ?_
    rw [ensures_bind]
    refine (charting_assignField (key :: rest) s₂ h₂.1.orderly).mono fun cs s₃ h₃ => ?_
    rw [ensures_pure]
    exact ⟨h₂.1.seq h₃.1, h₃.2.trans h₂.2⟩

theorem declaring_function {target : String} {keys : List String} {body : FunctionBody}
    {extent : Extent} (hf : Charting (function body) (Course.function body)) :
    Declaring (stat (.function target keys body extent)) (Course.stat (.function target keys body extent)) := by
  rw [stat, Course.stat]
  refine declaring_marked (declaring_of_charting ?_)
  intro s hs
  simp only [ensures_bind]
  refine (hf s hs).mono fun f s₁ h₁ => ?_
  refine (charting_functionTarget h₁.1.orderly target keys).mono fun symbol s₂ h₂ => ?_
  have hbehind : ∀ store s₃, Charts s₁ ([Course.resolve target, .instruction] ++
      Course.assignField keys) store [] [] [] s₃ ∧ s₃.loops = s₁.loops →
      (emit (.pop 1)).Ensures s₃ fun a s' =>
        (pure (f ++ store ++ a) : Gen Code).Ensures s' fun c s'' =>
          Charts s (Course.function body ++ ([Course.resolve target, .instruction] ++
            Course.assignField keys) ++ [.instruction]) c [] [] [] s'' ∧ s''.loops = s.loops :=
    fun store s₃ h₃ => charting_snoc (h₁.1.seq h₃.1) (h₃.2.trans h₁.2) rfl
  cases keys with
  | nil =>
    simp only [ensures_bind]
    exact h₂.mono hbehind
  | cons key rest =>
    simp only [ensures_bind] at h₂ ⊢
    refine h₂.mono ?_
    intro object s₃ h₃
    refine h₃.mono ?_
    intro fields s₄ h₄
    rw [ensures_pure] at h₄ ⊢
    exact hbehind _ _ h₄

/-- The function sees the variable that it will be stored in. -/
theorem declaring_localFunction {name : String} {body : FunctionBody} {extent : Extent}
    (hf : Charting (function body) (Course.function body)) : Declaring (stat (.localFunction name body extent)) (Course.stat (.localFunction name body extent)) := by
  rw [stat, Course.stat]
  refine declaring_marked ?_
  intro s hs
  simp only [ensures_bind, ensures_declare, ensures_emit]
  have hempty := charts_simple (.literal .nil) hs rfl s.span
  have hbind := charts_local (s := { s with address := s.address + 1 }) hs name 0 s.span
  have hdrop := charts_simple (.pop 1) hbind.orderly rfl s.span
  have hfront := (hempty.seq hbind).seq hdrop
  refine (hf _ hfront.orderly).mono fun f s₁ h₁ => ?_
  rw [ensures_pure]
  -- the variable is still what its name stands for
  have hstore : Charts s₁ [.instruction] [⟨.store (.local name s.scopes.nextSlot) 0, s₁.span⟩] [] [] []
      { s₁ with address := s₁.address + 1 } := by
    refine .op (.same h₁.1.orderly rfl) rfl rfl (fun U _ => ?_)
      (fun y hy => .inl (List.mem_singleton.1 hy)) rfl fun _ => rfl
    show Visible.slot? s₁.visible name = some s.scopes.nextSlot
    rw [h₁.1.visible_eq, hfront.visible]
    simp [Visible.slot?]
  have hlast := charts_simple (.pop 1) (s := { s₁ with address := s₁.address + 1 })
    h₁.1.orderly rfl s₁.span
  have hall := ((hfront.seq h₁.1).seq hstore).seq hlast
  exact ⟨_, [], hall, .of_eq h₁.2⟩

theorem declaring_return {values : List Expr} {extent : Extent} (hvs : Charting (exprs values) (Course.exprs values)) :
    Declaring (stat (.return values extent)) (Course.stat (.return values extent)) := by
  have hret : ∀ n, Charting (emit (.ret n)) [.instruction] := by
    intro n s hs
    rw [ensures_emit]
    exact ⟨.op (.same hs rfl) rfl rfl (fun _ _ => trivial)
      (fun y hy => (List.not_mem_nil hy).elim) rfl fun _ => rfl, rfl⟩
  have hbehind : ∀ {s s₁ : Site} {course : Course} {c : Code} (n : Nat),
      Charts s course c [] [] [] s₁ → s₁.loops = s.loops →
      (emit (.ret n)).Ensures s₁ fun r s' => (pure (c ++ r) : Gen Code).Ensures s' fun c s' =>
        Charts s (course ++ [.instruction]) c [] [] [] s' ∧ s'.loops = s.loops := by
    intro s s₁ course c n h hl
    refine (hret n s₁ h.orderly).mono fun r s₂ h₂ => ?_
    rw [ensures_pure]
    exact ⟨h.seq h₂.1, h₂.2.trans hl⟩
  rw [stat, Course.stat]
  refine declaring_marked (declaring_of_charting ?_)
  intro s hs
  simp only [ensures_bind]
  refine (hvs s hs).mono fun vs s₁ h₁ => ?_
  rcases values with _ | ⟨e₁, _ | ⟨e₂, rest⟩⟩
  · -- nothing is returned
    simp only [ensures_bind, Course.tupled, List.append_nil]
    exact hbehind 0 h₁.1 h₁.2
  · -- one value
    simp only [ensures_bind, Course.tupled, List.append_nil]
    exact hbehind 1 h₁.1 h₁.2
  · -- several values are returned as one
    simp only [ensures_bind]
    refine (charting_emit (.makeTuple _) rfl s₁ h₁.1.orderly).mono fun tuple s₂ h₂ => ?_
    exact hbehind 1 (h₁.1.seq h₂.1) (h₂.2.trans h₁.2)

/-- A jump to be filled in at the end of the innermost loop. -/
theorem declaring_break {extent : Extent} : Declaring (stat (.break extent)) (Course.stat (.break extent)) := by
  rw [stat, Course.stat]
  refine declaring_marked ?_
  intro s hs
  simp only [ensures_bind, ensures_reserve, ensures_get]
  cases hl : s.loops with
  | nil => simp only [ensures_throw]
  | cons breaks outer =>
    simp only [ensures_bind, ensures_set, ensures_pure]
    exact ⟨[], [s.address], (charts_hole hs s.span).congr_right rfl rfl, by simp [addBreaks, hl],
      by simp [hl]⟩

/-! ## Blocks and loops -/

theorem declaring_block_cons {st : Stat} {rest : List Stat} (hst : Declaring (stat st) (Course.stat st))
    (hrest : Declaring (block rest) (Course.block rest)) : Declaring (block (st :: rest)) (Course.block (st :: rest)) := by
  intro s hs
  simp only [block, Course.block, ensures_bind]
  refine (hst s hs).mono ?_
  rintro c s₁ ⟨added₁, b₁, h₁, hn₁⟩
  refine (hrest s₁ h₁.orderly).mono ?_
  rintro cs s₂ ⟨added₂, b₂, h₂, hn₂⟩
  rw [ensures_pure]
  refine ⟨added₂ ++ added₁, b₂ ++ b₁, (h₁.seq h₂).congr_holes fun a => ?_, hn₁.trans hn₂⟩
  rw [List.mem_append, List.mem_append]
  exact or_comm

/-- A block with its own names: what it declares is visible in it only. -/
theorem ensures_enclosed {body : List Stat} (hbody : Declaring (block body) (Course.block body)) {s : Site}
    (hs : s.scopes.Orderly) {Q : Code → Site → Prop}
    (hQ : ∀ c breaks s', Charts s (Course.pushBlock :: Course.block body ++ [Course.popBlock]) c []
      breaks [] s' → Notes s breaks s' → Q c s') :
    (modifyScopes (·.pushBlock)).Ensures s fun _ s₁ => (block body).Ensures s₁ fun c s₂ =>
      (modifyScopes (·.popBlock)).Ensures s₂ fun _ s' => Q c s' := by
  rw [ensures_modifyScopes]
  refine (hbody { s with scopes := s.scopes.pushBlock } hs.pushBlock).mono ?_
  rintro c s' ⟨added, breaks, h, hn⟩
  rw [ensures_modifyScopes]
  exact hQ c breaks _ (h.leaveBlock hs rfl rfl rfl rfl) ⟨hn.loops, hn.inLoop⟩

theorem declaring_do {body : List Stat} {extent : Extent} (hbody : Declaring (block body) (Course.block body)) :
    Declaring (stat (.do body extent)) (Course.stat (.do body extent)) := by
  rw [stat, Course.stat]
  refine declaring_marked ?_
  intro s hs
  simp only [ensures_bind]
  refine ensures_enclosed hbody hs fun c breaks s' h hn => ?_
  rw [ensures_pure]
  exact ⟨[], breaks, h, hn⟩

/-- A loop with a test in front. What its block declares is not visible behind it. -/
theorem declaring_while {condition : Expr} {body : List Stat} {extent closing : Extent}
    (hc : Charting (expr condition) (Course.expr condition)) (hbody : Declaring (block body) (Course.block body)) :
    Declaring (stat (.while condition body extent closing)) (Course.stat (.while condition body extent closing)) := by
  rw [stat, Course.stat]
  refine declaring_marked ?_
  intro s hs
  simp only [ensures_bind]
  rw [ensures_here]
  refine charting_scalar hc hs fun test one s₁ h₁ hl₁ => ?_
  refine ensures_opening fun t ht htsc htl => ?_
  have hs₁ := h₁.orderly
  refine (hbody t (htsc ▸ hs₁.pushBlock)).mono ?_
  rintro inner s₂ ⟨added, breaks, h₂, hn₂⟩
  refine ensures_closing fun t' ht' htsc' htl' => ?_
  rw [ensures_emit, ensures_here, ensures_popLoop, ensures_pure]
  obtain ⟨hhead, htail⟩ := hn₂.closeLoop htl
  have hleave := charts_branch hs₁ (.jumpIfFalse (t'.address + 1)) s₁.span (fun _ => trivial) rfl
    (fun _ => rfl) rfl
  have hinner : Charts { s₁ with address := s₁.address + 1 }
      (Course.pushBlock :: Course.block body ++ [Course.popBlock]) inner [] breaks [] t' :=
    h₂.leaveBlock hs₁ ht htsc ht' htsc'
  have hback := charts_jump hinner.orderly s.address t'.span
  have hall := ((h₁.seq hleave).seq hinner).seq hback
  have hvisible : s₁.visible = s.visible := h₁.visible_eq
  have hvisible' : t'.visible = s.visible := hinner.visible_eq.trans hvisible
  simp only [List.nil_append, List.append_nil] at hall
  have hloop := hall.loop fun y Λ hy => ?_
  · rw [htl', hhead, htail]
    exact ⟨[], [], hloop.congr_right rfl rfl, .of_eq hl₁⟩
  · rcases List.mem_append.1 hy with hy | hy
    · cases List.mem_singleton.1 hy
      exact ⟨.inr rfl, hvisible ▸ List.suffix_refl _⟩
    · cases List.mem_singleton.1 hy
      exact ⟨.inl rfl, hvisible' ▸ List.suffix_refl _⟩

/-- A loop with a test behind, which sees what the block of the loop has declared. -/
theorem declaring_repeat {body : List Stat} {condition : Expr} {extent : Extent}
    (hbody : Declaring (block body) (Course.block body)) (hc : Charting (expr condition) (Course.expr condition)) :
    Declaring (stat (.repeat body condition extent)) (Course.stat (.repeat body condition extent)) := by
  rw [stat, Course.stat]
  refine declaring_marked ?_
  intro s hs
  simp only [ensures_bind]
  rw [ensures_here, ensures_pushLoop, ensures_modifyScopes]
  refine (hbody { s with loops := [] :: s.loops, scopes := s.scopes.pushBlock } hs.pushBlock).mono ?_
  rintro inner s₁ ⟨added, breaks, h₁, hn₁⟩
  rw [ensures_markExtent]
  refine charting_scalar (s := s₁.marked _) hc h₁.orderly fun test one s₂ h₂ hl₂ => ?_
  simp only [ensures_emit, ensures_modifyScopes, ensures_here, ensures_popLoop, ensures_pure]
  obtain ⟨hhead, htail⟩ := hn₁.closeLoop rfl
  have hloops : s₂.loops = s₁.loops := hl₂
  rw [hloops, hhead, htail]
  have hagain := charts_branch h₂.orderly (.jumpIfFalse s.address) s₂.span (fun _ => trivial) rfl
    (fun _ => rfl) rfl
  have hall := (h₁.seq (h₂.congr_left (t := s₁) rfl rfl)).seq hagain
  simp only [List.nil_append, List.append_nil] at hall
  have hblock : Charts s _ _ [] breaks _ { s₂ with
      address := s₂.address + 1, scopes := s₂.scopes.popBlock } :=
    hall.leaveBlock hs rfl rfl rfl rfl
  have hloop := hblock.loop fun y Λ hy => ?_
  · rw [List.append_assoc inner test one]
    exact ⟨[], [], hloop.congr_right rfl rfl, .of_eq rfl⟩
  · cases List.mem_singleton.1 hy
    refine ⟨.inl rfl, ?_⟩
    have hpushed : s.scopes.pushBlock.current.visible = s.visible := hs.visible_pushBlock.1
    have hvisible : s₂.visible = added ++ s.visible :=
      (h₂.visible_eq.trans h₁.visible).trans (congrArg (added ++ ·) hpushed)
    exact hvisible ▸ List.suffix_append _ _

/-- A counting loop: each round has a new variable. -/
theorem declaring_numericFor {var : String} {first limit step : Expr} {body : List Stat}
    {extent closing : Extent} (ha : Charting (expr first) (Course.expr first)) (hb : Charting (expr limit) (Course.expr limit))
    (hc : Charting (expr step) (Course.expr step)) (hbody : Declaring (block body) (Course.block body)) :
    Declaring (stat (.numericFor var first limit step body extent closing)) (Course.stat (.numericFor var first limit step body extent closing)) := by
  rw [stat, Course.stat]
  refine declaring_marked ?_
  intro s hs
  simp only [ensures_bind]
  refine charting_scalar ha hs fun a a' s₁ h₁ hl₁ => ?_
  refine charting_scalar hb h₁.orderly fun b b' s₂ h₂ hl₂ => ?_
  refine charting_scalar hc h₂.orderly fun c c' s₃ h₃ hl₃ => ?_
  refine (charting_emit .forPrep rfl s₃ h₃.orderly).mono fun prep s₄ h₄ => ?_
  have hfront := ((h₁.seq h₂).seq h₃).seq h₄.1
  have hs₄ := hfront.orderly
  refine ensures_opening fun t ht htsc htl => ?_
  have hts : t.scopes.Orderly := htsc ▸ hs₄.pushBlock
  rw [ensures_declare, ensures_emit]
  have hbind := charts_declare .forVar hts var (fun _ => rfl) (fun _ _ h => h)
    (fun _ => rfl) (fun _ _ => rfl) t.span
  refine (hbody _ hbind.orderly).mono ?_
  rintro inner s₅ ⟨added, breaks, h₅, hn₅⟩
  refine ensures_closing fun t' ht' htsc' htl' => ?_
  rw [ensures_emit, ensures_emit, ensures_here, ensures_emit, ensures_popLoop, ensures_pure]
  obtain ⟨hhead, htail⟩ := hn₅.closeLoop htl
  have hleave := charts_branch hs₄ (.forLoop (t'.address + 2)) s₄.span (fun _ => trivial) rfl
    (fun _ => rfl) rfl
  have hinner : Charts { s₄ with address := s₄.address + 1 } _ _ [] breaks [] t' :=
    (hbind.seq h₅).leaveBlock hs₄ ht htsc ht' htsc'
  have hstep := charts_simple .forStep hinner.orderly rfl t'.span
  have hback := charts_jump hstep.orderly s₄.address t'.span
  have hall := ((hleave.seq hinner).seq hstep).seq hback
  have hvisible' : t'.visible = s₄.visible := hinner.visible_eq
  simp only [List.nil_append, List.append_nil] at hall
  have hloop := hall.loop fun y Λ hy => ?_
  · have hdrop := charts_simple (.pop 3) hloop.orderly rfl t'.span
    have hwhole := (hfront.seq hloop).seq hdrop
    simp only [List.append_assoc] at hwhole ⊢
    rw [htl', hhead, htail]
    exact ⟨[], [], hwhole.congr_right rfl rfl,
      .of_eq (((h₄.2.trans hl₃).trans hl₂).trans hl₁)⟩
  · rcases List.mem_append.1 hy with hy | hy
    · cases List.mem_singleton.1 hy
      exact ⟨.inr rfl, List.suffix_refl _⟩
    · cases List.mem_singleton.1 hy
      exact ⟨.inl rfl, hvisible' ▸ List.suffix_refl _⟩

/-- The call of the iterator at the start of each round of a generic loop. -/
theorem charting_iterate (hs : s.scopes.Orderly) {Q : Code → Code → Code → Code → Site → Prop}
    (hQ : ∀ c₁ c₂ c₃ c₄ s', Charts s (List.replicate 4 .instruction) (c₁ ++ c₂ ++ c₃ ++ c₄) [] [] [] s' →
      s'.loops = s.loops → Q c₁ c₂ c₃ c₄ s') :
    (emit (.copy 2)).Ensures s fun c₁ s₁ => (emit (.copy 2)).Ensures s₁ fun c₂ s₂ =>
      (emit (.copy 2)).Ensures s₂ fun c₃ s₃ => (emit (.call 2)).Ensures s₃ fun c₄ s' =>
        Q c₁ c₂ c₃ c₄ s' := by
  have hcopy : Charting (emit (.copy 2)) [.instruction] := charting_emit _ rfl
  refine (hcopy s hs).mono fun c₁ s₁ h₁ => ?_
  refine (hcopy s₁ h₁.1.orderly).mono fun c₂ s₂ h₂ => ?_
  refine (hcopy s₂ h₂.1.orderly).mono fun c₃ s₃ h₃ => ?_
  refine (charting_emit (.call 2) rfl s₃ h₃.1.orderly).mono fun c₄ s₄ h₄ => ?_
  exact hQ c₁ c₂ c₃ c₄ s₄ (((h₁.1.seq h₂.1).seq h₃.1).seq h₄.1)
    (((h₄.2.trans h₃.2).trans h₂.2).trans h₁.2)

/-- A loop over an iterator: each round has new variables. -/
theorem declaring_genericFor {names : List String} {values : List Expr} {body : List Stat}
    {extent closing : Extent} (hvs : Charting (exprs values) (Course.exprs values)) (hbody : Declaring (block body) (Course.block body)) :
    Declaring (stat (.genericFor names values body extent closing)) (Course.stat (.genericFor names values body extent closing)) := by
  rw [stat, Course.stat]
  refine declaring_marked ?_
  intro s hs
  simp only [ensures_bind]
  refine (hvs s hs).mono fun vs s₁ h₁ => ?_
  refine (charting_emit (.makeTuple values.length) rfl s₁ h₁.1.orderly).mono fun tuple s₂ h₂ => ?_
  refine (charting_emit .iterPrep rfl s₂ h₂.1.orderly).mono fun prep s₃ h₃ => ?_
  have hfront := (h₁.1.seq h₂.1).seq h₃.1
  rw [ensures_here]
  refine charting_iterate h₃.1.orderly fun c₁ c₂ c₃ c₄ s₄ h₄ hl₄ => ?_
  have hs₄ := h₄.orderly
  refine ensures_opening fun t ht htsc htl => ?_
  refine (charting_bindNames names 0 (htsc ▸ hs₄.pushBlock)).mono ?_
  rintro binds s₅ ⟨⟨added, h₅⟩, hl₅⟩
  refine (charting_emit (.pop 1) rfl s₅ h₅.orderly).mono fun drop s₆ h₆ => ?_
  refine (hbody s₆ h₆.1.orderly).mono ?_
  rintro inner s₇ ⟨added', breaks, h₇, hn₇⟩
  refine ensures_closing fun t' ht' htsc' htl' => ?_
  rw [ensures_emit, ensures_here, ensures_emit, ensures_popLoop, ensures_pure]
  obtain ⟨hhead, htail⟩ := hn₇.closeLoop ((h₆.2.trans hl₅).trans htl)
  have hleave := charts_branch hs₄ (.iterCheck (t'.address + 1)) s₄.span (fun _ => trivial) rfl
    (fun _ => rfl) rfl
  have hinner : Charts { s₄ with address := s₄.address + 1 } _ _ [] breaks [] t' :=
    ((h₅.seq h₆.1).seq h₇).leaveBlock hs₄ ht htsc ht' htsc'
  have hback := charts_jump hinner.orderly s₃.address t'.span
  have hall := ((h₄.seq hleave).seq hinner).seq hback
  have hvisible : s₄.visible = s₃.visible := h₄.visible_eq
  have hvisible' : t'.visible = s₃.visible := hinner.visible_eq.trans hvisible
  simp only [List.nil_append, List.append_nil] at hall
  have hloop := hall.loop fun y Λ hy => ?_
  · have hdrop := charts_simple (.pop 3) hloop.orderly rfl t'.span
    have hwhole := (hfront.seq hloop).seq hdrop
    simp only [List.append_assoc] at hwhole ⊢
    rw [htl', hhead, htail]
    exact ⟨[], [], hwhole.congr_right rfl rfl,
      .of_eq (((hl₄.trans h₃.2).trans h₂.2).trans h₁.2)⟩
  · rcases List.mem_append.1 hy with hy | hy
    · cases List.mem_singleton.1 hy
      exact ⟨.inr rfl, hvisible ▸ List.suffix_refl _⟩
    · cases List.mem_singleton.1 hy
      exact ⟨.inl rfl, hvisible' ▸ List.suffix_refl _⟩

/-! ## Conditions -/

/-- The clauses of an `if` declare nothing outside their blocks; their loose ends are the jumps to the
end and the breaks in them. -/
def Choosing (x : Gen (Code × List Nat)) (course : Course) : Prop :=
  ∀ s : Site, s.scopes.Orderly → x.Ensures s fun p s' =>
    ∃ breaks, Charts s course p.1 [] (p.2 ++ breaks) [] s' ∧ Notes s breaks s'

theorem choosing_done : Choosing (clauses .done) (Course.clauses .done) := by
  intro s hs
  rw [clauses, Course.clauses, ensures_pure]
  exact ⟨[], .nil hs, .of_eq rfl⟩

theorem choosing_otherwise {body : List Stat} (hbody : Declaring (block body) (Course.block body)) :
    Choosing (clauses (.otherwise body)) (Course.clauses (.otherwise body)) := by
  intro s hs
  simp only [clauses, Course.clauses_otherwise, ensures_bind]
  refine ensures_enclosed hbody hs fun c breaks s' h hn => ?_
  rw [ensures_pure]
  exact ⟨breaks, h, hn⟩

/-- The last clause goes behind its own block if its condition fails. -/
theorem choosing_last {condition : Expr} {body : List Stat} {header : Extent}
    (hc : Charting (expr condition) (Course.expr condition))
    (hbody : Declaring (block body) (Course.block body)) :
    Choosing (clauses (.clause condition body header .done))
      (Course.clauses (.clause condition body header .done)) := by
  intro s hs
  simp only [clauses, Course.clauses, List.append_nil, ensures_bind]
  rw [ensures_markExtent]
  refine charting_scalar (s := s.marked _) hc hs fun test one s₁ h₁ hl₁ => ?_
  rw [ensures_reserve]
  refine ensures_enclosed (s := { s₁ with address := s₁.address + 1 }) hbody h₁.orderly
    fun inner breaks s₂ h₂ hn₂ => ?_
  rw [ensures_here, ensures_pure]
  have hskip := charts_branch h₁.orderly (.jumpIfFalse s₂.address) s₁.span (fun _ => trivial) rfl
    (fun _ => rfl) rfl
  have hall := (h₁.seq hskip).seq h₂
  have hvisible : s₂.visible = s₁.visible := h₂.visible_eq
  simp only [List.nil_append, List.append_nil] at hall
  have hclosed := hall.close fun y Λ hy => ?_
  · exact ⟨breaks, hclosed.congr_left rfl rfl, hn₂.congr_left hl₁.symm⟩
  · cases List.mem_singleton.1 hy
    exact .inr ⟨rfl, hvisible ▸ List.suffix_refl _⟩

/-- A clause with others behind it goes on to them if its condition fails, and else jumps over
them. -/
theorem choosing_clause {condition : Expr} {body : List Stat} {header : Extent} {rest : Branches}
    (hrest : rest ≠ .done) (hc : Charting (expr condition) (Course.expr condition)) (hbody : Declaring (block body) (Course.block body))
    (hr : Choosing (clauses rest) (Course.clauses rest)) : Choosing (clauses (.clause condition body header rest)) (Course.clauses (.clause condition body header rest)) := by
  intro s hs
  simp only [clauses, Course.clauses, ensures_bind]
  rw [ensures_markExtent]
  refine charting_scalar (s := s.marked _) hc hs fun test one s₁ h₁ hl₁ => ?_
  rw [ensures_reserve]
  refine ensures_enclosed (s := { s₁ with address := s₁.address + 1 }) hbody h₁.orderly
    fun inner b₁ s₂ h₂ hn₂ => ?_
  rw [ensures_reserve, ensures_here]
  refine (hr { s₂ with address := s₂.address + 1 } h₂.orderly).mono ?_
  rintro p s₃ ⟨b₂, h₃, hn₃⟩
  rw [ensures_pure]
  have hskip := charts_branch h₁.orderly (.jumpIfFalse (s₂.address + 1)) s₁.span (fun _ => trivial) rfl
    (fun _ => rfl) rfl
  have hhole := charts_hole h₂.orderly s₂.span
  -- the failed condition leads to the end of the clause, behind its jump
  have hclause := ((h₁.seq hskip).seq h₂).seq hhole
  have hvisible : s₂.visible = s₁.visible := h₂.visible_eq
  simp only [List.nil_append, List.append_nil] at hclause
  have hclosed := hclause.close fun y Λ hy => ?_
  · have hall := hclosed.seq h₃
    rw [List.append_assoc _ [Course.Step.instruction] (Course.clauses rest)] at hall
    refine ⟨b₂ ++ b₁, (hall.congr_holes fun q => ?_).congr_left rfl rfl, ?_⟩
    · simp only [List.mem_append, List.mem_cons, List.not_mem_nil, or_false]
      tauto
    · exact (hn₂.trans (hn₃.congr_left rfl)).congr_left hl₁.symm
  · cases List.mem_singleton.1 hy
    exact .inr ⟨rfl, hvisible ▸ List.suffix_refl _⟩

theorem declaring_if {branches : Branches} {extent : Extent} (hb : Choosing (clauses branches) (Course.clauses branches)) :
    Declaring (stat (.if branches extent)) (Course.stat (.if branches extent)) := by
  rw [stat, Course.stat_if]
  refine declaring_marked ?_
  intro s hs
  simp only [ensures_bind]
  rw [ensures_here]
  refine (hb s hs).mono ?_
  rintro p s₁ ⟨breaks, h₁, hn⟩
  rw [ensures_here, ensures_pure]
  exact ⟨[], breaks, h₁.patch, hn⟩

/-! ## The induction -/

mutual

theorem charting_expr : ∀ e : Expr, Charting (expr e) (Course.expr e)
  | .nil => by
    rw [expr]
    exact charting_emit _ rfl
  | .boolean b => by
    rw [expr]
    exact charting_emit _ rfl
  | .number n => by
    rw [expr]
    exact charting_emit _ rfl
  | .string s => by
    rw [expr]
    exact charting_emit _ rfl
  | .varargs => charting_varargs
  | .function body => by
    rw [expr]
    exact charting_functionBody body
  | .table fs => charting_table (charting_fields fs 1)
  | .binary _ left right => charting_binary (charting_expr left) (charting_expr right)
  | .logical _ left right => charting_logical (charting_expr left) (charting_expr right)
  | .unary _ operand => charting_unary (charting_expr operand)
  | .name n => charting_name n
  | .index object key => charting_index (charting_expr object) (charting_expr key)
  | .call f args => charting_call (charting_expr f) (charting_exprs args)
  | .methodCall object _ args => charting_methodCall (charting_expr object) (charting_exprs args)
  | .paren e => charting_paren (charting_expr e)

theorem charting_exprs : ∀ es : List Expr, Charting (exprs es) (Course.exprs es)
  | [] => by
    intro s hs
    rw [exprs, ensures_pure]
    exact ⟨.nil hs, rfl⟩
  | [e] => by
    rw [exprs]
    exact charting_expr e
  | e :: e' :: rest => charting_exprs_cons (charting_expr e) (charting_exprs (e' :: rest))

theorem charting_fields : ∀ (fs : List Field) (position : Nat), Charting (fields fs position) (Course.fields fs)
  | [], _ => by
    intro s hs
    rw [fields, ensures_pure]
    exact ⟨.nil hs, rfl⟩
  | .positional value :: rest, position =>
    charting_fields_positional (charting_expr value) (charting_fields rest (position + 1))
  | .named _ value :: rest, position =>
    charting_fields_named (charting_expr value) (charting_fields rest position)
  | .keyed key value :: rest, position =>
    charting_fields_keyed (charting_expr key) (charting_expr value) (charting_fields rest position)

theorem charting_assignTo : ∀ (targets : List Expr) (i : Nat), Charting (assignTo targets i) (Course.assignTo targets)
  | [], _ => by
    intro s hs
    rw [assignTo, ensures_pure]
    exact ⟨.nil hs, rfl⟩
  | e :: rest, i => by
    cases e with
    | name n => exact charting_assignTo_name (charting_assignTo rest (i + 1))
    | index object key =>
      exact charting_assignTo_index (charting_expr object) (charting_expr key)
        (charting_assignTo rest (i + 1))
    | _ => exact charting_assignTo_refused rfl

theorem charting_functionBody : ∀ body : FunctionBody, Charting (function body) (Course.function body)
  | .mk _ _ _ body _ _ => charting_function (declaring_block body)

theorem declaring_block : ∀ body : List Stat, Declaring (block body) (Course.block body)
  | [] => by
    intro s hs
    rw [block, ensures_pure]
    exact ⟨[], [], .nil hs, .of_eq rfl⟩
  | st :: rest => declaring_block_cons (declaring_stat st) (declaring_block rest)

theorem declaring_stat : ∀ st : Stat, Declaring (stat st) (Course.stat st)
  | .local _ values _ => declaring_local (charting_exprs values)
  | .assign targets values _ => declaring_assign (charting_exprs values) (charting_assignTo targets 0)
  | .call e _ => declaring_call (charting_expr e)
  | .do body _ => declaring_do (declaring_block body)
  | .while condition body _ _ => declaring_while (charting_expr condition) (declaring_block body)
  | .repeat body condition _ => declaring_repeat (declaring_block body) (charting_expr condition)
  | .if branches _ => declaring_if (choosing_clauses branches)
  | .numericFor _ first limit step body _ _ =>
    declaring_numericFor (charting_expr first) (charting_expr limit) (charting_expr step)
      (declaring_block body)
  | .genericFor _ values body _ _ => declaring_genericFor (charting_exprs values) (declaring_block body)
  | .function _ _ body _ => declaring_function (charting_functionBody body)
  | .localFunction _ body _ => declaring_localFunction (charting_functionBody body)
  | .return values _ => declaring_return (charting_exprs values)
  | .break _ => declaring_break

theorem choosing_clauses : ∀ branches : Branches, Choosing (clauses branches) (Course.clauses branches)
  | .done => choosing_done
  | .otherwise body => choosing_otherwise (declaring_block body)
  | .clause condition body _ .done => choosing_last (charting_expr condition) (declaring_block body)
  | .clause condition body _ (.otherwise last) =>
    choosing_clause (by simp) (charting_expr condition) (declaring_block body)
      (choosing_clauses (.otherwise last))
  | .clause condition body _ (.clause c b h rest) =>
    choosing_clause (by simp) (charting_expr condition) (declaring_block body)
      (choosing_clauses (.clause c b h rest))

end

/-- A chunk has places for all its addresses, from which the compiler was when it made their
instructions. It ends with a return, which nothing goes behind. -/
theorem scopes_chunk (name : String) (kind : HeaderKind) (body : Block) (s : Site)
    (hs : s.scopes = .start true) (hl : s.loops = []) {S : Nat → ScopeStack}
    (hS : Course.Noted S s.address ((Course.chunk body).notes s.scopes)) :
    (Gen.chunk name kind body).Ensures s fun c _ => ∃ c' span stop U Δ,
      c = c' ++ [⟨.ret 0, span⟩] ∧ U.captured = [envName] ∧ (Place.mk U Δ).Means (S stop) ∧
        Scopes (fun x p => p.Means (S x)) ⟨U.captured, []⟩ U s.address c' stop [] Δ [] [] := by
  have horderly : s.scopes.Orderly := hs ▸ .start
  have hnone : s.visible = [] := by
    rw [Site.visible, hs]
    rfl
  have hslot : s.scopes.nextSlot = 0 := by
    rw [hs]
    rfl
  simp only [chunk, ensures_bind, ensures_reserve, ensures_emit]
  intro inner s₁ hrun
  obtain ⟨added, breaks, h₁, hn₁⟩ :=
    declaring_block body { s with address := s.address + 1 + 1 + 1 } horderly inner s₁ hrun
  obtain ⟨_, hperforms⟩ := acts_block body { s with address := s.address + 1 + 1 + 1 }
    horderly.bounded inner s₁ hrun
  -- a chunk is in no loop
  obtain rfl : breaks = [] := hn₁.inLoop hl
  simp only [ensures_setSpan, ensures_get, ensures_here, ensures_pure]
  let t : Site := { s with address := s.address + 2 }
  obtain ⟨added₀, hargs⟩ := charts_args (s := t) horderly hnone hslot [] true s.span
  have hall := hargs.seq (h₁.congr_left (t := { t with address := t.address + 1 }) rfl rfl)
  have hnotes : (Course.chunk body).notes s.scopes = (s.scopes :: s.scopes ::
      Course.notes t.scopes (.instruction :: [].map Course.declare ++ Course.block body)) ++
        [s₁.scopes] := by
    simp [Course.chunk, Course.notes, h₁.after, t]
  rw [hnotes] at hS
  have hscopes := scopes_beginning hall horderly hnone hslot rfl hS.left name kind
    (s₁.address + 1 - s.address) s.span s.span
  have hlast : S s₁.address = s₁.scopes := by
    have haddress : s₁.address = s.address + 2 + _ := hall.address
    have hend := hS.right 0 _ rfl
    rw [Nat.add_zero, List.length_cons, List.length_cons] at hend
    rw [← hend]
    exact congrArg S (by omega)
  -- the outermost function captures nothing but what it has been given
  have hcaptured : s₁.scopes.current.captured = [envName] := by
    have hprefix := h₁.opens.captured
    have hlength := hperforms.compiles.grows
    simp only [hs] at hlength hprefix
    have hlen : s₁.scopes.current.captured.length = (ScopeStack.start true).current.captured.length := by
      rw [FunctionScope.captured, List.length_map, hlength.length_upvalues]
      rfl
    rw [← hprefix.eq_of_length hlen.symm]
    rfl
  refine ⟨_, none, _, s₁.scopes.current.outline, _, rfl, hcaptured, ?_, hscopes⟩
  rw [hlast]
  exact ⟨h₁.orderly, rfl, h₁.orderly.foretells⟩

end Gen

namespace Segment

/-- Places for the addresses of a segment. Instructions suit their places and pass control on to
places that agree with what they declare; a function has captured what the instruction says that makes
its closure, and the outermost function of a block has captured its environment. -/
structure Scoping (s : Segment) (label : Nat → Place) : Prop where
  suits : ∀ {x op}, s.ops x = some op → op.Suits (label x)
  passes : ∀ {x op}, s.ops x = some op → ∀ y ∈ op.targets x, op.Passes (label x) (label y)
  closures : ∀ {x a captures}, s.ops x = some (.closure a captures) →
    (label a).captured = captures.map Symbol.name
  blocks : ∀ b ∈ s.blocks, (label b.base).captured = [envName]

/-- Control and closures stay in the code. -/
def Enclosed (s : Segment) : Prop :=
  ∀ {x op}, s.ops x = some op →
    (∀ y ∈ op.targets x, y < s.size) ∧ ∀ a captures, op = .closure a captures → a < s.size

/-- All blocks of a segment were made by the compiler, for texts that have an environment, and the
scopes `S` are those that it had when it made the instructions. -/
inductive Noted (S : Nat → ScopeStack) : Segment → Prop where
  | empty : Noted S .empty
  | compile {s s' : Segment} {options : CompileOptions} {source : String} {body : Block}
    {chunk : CompiledChunk} (h : Noted S s) (henv : options.env = true)
    (hbody : Block.parse options.chunk source = .ok body)
    (hcompile : s.compile options source = .ok (chunk, s'))
    (hS : Course.Noted S s.size ((Course.chunk body).notes (.start true))) : Noted S s'

variable {S : Nat → ScopeStack} {s t : Segment} {label : Nat → Place}

theorem Noted.compiled (h : s.Noted S) : s.Compiled := by
  induction h with
  | empty => exact .empty
  | compile h henv hbody hcompile hS ih => exact .compile ih hcompile

/-- A scoping of code that has grown is one of the code as it was. -/
theorem Scoping.of_grows (h : t.Scoping label) (hg : s.Grows t) : s.Scoping label where
  suits hx := h.suits (hg.ops hx)
  passes hx := h.passes (hg.ops hx)
  closures hx := h.closures (hg.ops hx)
  blocks b hb := h.blocks b (hg.mem_blocks hb)

theorem lt_size_of_ops {x : Nat} {op : OpCode} (h : s.ops x = some op) : x < s.size := by
  by_contra hle
  rw [ops_eq_none_of_le (Nat.le_of_not_lt hle)] at h
  cases h

/-- The code that has grown has no other places at the addresses that there were. -/
theorem Scoping.congr (h : s.Scoping label) (hin : s.Enclosed) (ht : Segment.empty.Grows s)
    (label' : Nat → Place) (hlabel : ∀ x < s.size, label' x = label x) : s.Scoping label' := by
  refine ⟨fun hx => ?_, fun hx y hy => ?_, fun hx => ?_, fun b hb => ?_⟩
  · rw [hlabel _ (lt_size_of_ops hx)]
    exact h.suits hx
  · rw [hlabel _ (lt_size_of_ops hx), hlabel y ((hin hx).1 y hy)]
    exact h.passes hx y hy
  · rw [hlabel _ ((hin hx).2 _ _ rfl)]
    exact h.closures hx
  · have hbase := ht.tiled.nonempty b hb
    have hlimit := ht.tiled.limit_le hb
    rw [hlabel b.base (by omega)]
    exact h.blocks b hb

/-- What the compiler makes of a text has places, from which the compiler was when it made it. -/
theorem scoped_compile {s' : Segment} {options : CompileOptions} {source : String} {body : Block}
    {chunk : CompiledChunk} (henv : options.env = true)
    (hbody : Block.parse options.chunk source = .ok body)
    (hcompile : s.compile options source = .ok (chunk, s'))
    (hS : Course.Noted S s.size ((Course.chunk body).notes (.start true))) :
    ∃ c span stop U Δ, s' = s.append (c ++ [⟨.ret 0, span⟩]) ∧ U.captured = [envName] ∧
      (Place.mk U Δ).Means (S stop) ∧
      Scopes (fun x p => p.Means (S x)) ⟨U.captured, []⟩ U s.size c stop [] Δ [] [] := by
  obtain ⟨body', code, spans, hbody', hcode, rfl, -⟩ := compile_eq_ok hcompile
  obtain rfl := Except.ok.inj (hbody.symm.trans hbody')
  unfold Block.compile at hcode
  simp only [StateT.run] at hcode
  rw [henv] at hcode
  split at hcode
  · next hrun =>
    cases hcode
    obtain ⟨c, span, stop, U, Δ, rfl, hcaptured, hmeans, hscopes⟩ :=
      Gen.scopes_chunk _ _ body _ rfl rfl hS _ _ hrun
    exact ⟨c, span, stop, U, Δ, rfl, hcaptured, hmeans, hscopes⟩
  · cases hcode

/-- The code that is added last brings its own places. -/
theorem scoping_append {U : Outline} {c : Code} {span : Option Span} {stop : Nat} {Δ : Visible}
    (hs : s.Scoping label) (hin : s.Enclosed) (ht : Segment.empty.Grows s)
    (hknown : ∀ {x op}, s.ops x = some op → (label x).Means (S x)) (hU : U.captured = [envName])
    (hstop : (Place.mk U Δ).Means (S stop))
    (h : Scopes (fun x p => p.Means (S x)) ⟨U.captured, []⟩ U s.size c stop [] Δ [] []) :
    ∃ label, (s.append (c ++ [⟨.ret 0, span⟩])).Scoping label ∧
      (s.append (c ++ [⟨.ret 0, span⟩])).Enclosed ∧
      ∀ {x op}, (s.append (c ++ [⟨.ret 0, span⟩])).ops x = some op → (label x).Means (S x) := by
  obtain ⟨label', h⟩ := h
  have hlength := h.stop_eq
  have hsize : (s.append (c ++ [⟨.ret 0, span⟩])).size = stop + 1 := by
    rw [size_append, List.length_append, List.length_singleton]
    omega
  -- an instruction is an old one, one of the new code, or the return behind it
  have hcases : ∀ {x op}, (s.append (c ++ [⟨.ret 0, span⟩])).ops x = some op →
      x < s.size ∧ s.ops x = some op ∨ s.size ≤ x ∧ LuaMachine.listing s.size c x = some op ∨
        s.size ≤ x ∧ x = stop ∧ op = .ret 0 := by
    intro x op hx
    by_cases hlt : x < s.size
    · rw [ops_append_of_lt hlt] at hx
      exact .inl ⟨hlt, hx⟩
    · have hle := Nat.le_of_not_lt hlt
      rw [ops_append_of_le hle] at hx
      by_cases hret : x < stop
      · rw [listing_append_left (by omega)] at hx
        exact .inr (.inl ⟨hle, hx⟩)
      · rw [listing_append_right (by omega)] at hx
        obtain ⟨heq, hop⟩ := listing_singleton _ hx
        exact .inr (.inr ⟨hle, heq.trans hlength.symm, hop⟩)
  have hold := hs.congr hin ht (fun x => if x < s.size then label x else label' x)
    fun x hx => if_pos hx
  have hnew : ∀ x, s.size ≤ x → (if x < s.size then label x else label' x) = label' x :=
    fun x hx => if_neg (by omega)
  refine ⟨fun x => if x < s.size then label x else label' x, ⟨?_, ?_, ?_, ?_⟩, ?_, ?_⟩
  · intro x op hx
    rcases hcases hx with ⟨-, hx⟩ | ⟨hle, hx⟩ | ⟨-, -, rfl⟩
    · exact hold.suits hx
    · rw [hnew x hle]
      exact (h.flow hx fun _ => List.not_mem_nil).1
    · trivial
  · intro x op hx y hy
    rcases hcases hx with ⟨-, hx⟩ | ⟨hle, hx⟩ | ⟨-, -, rfl⟩
    · exact hold.passes hx y hy
    · rcases (h.flow hx fun _ => List.not_mem_nil).2 y hy with ⟨hy₁, -, hpasses⟩ | ⟨Λ, hout, -⟩
      · rw [hnew x hle, hnew y hy₁]
        exact hpasses
      · cases hout
    · cases hy
  · intro x a captures hx
    rcases hcases hx with ⟨-, hx⟩ | ⟨hle, hx⟩ | ⟨-, -, hop⟩
    · exact hold.closures hx
    · obtain ⟨ha, -, hlabel⟩ := h.closures hx
      rw [hnew a ha]
      exact hlabel
    · cases hop
  · intro b hb
    rw [blocks_append (by simp), Array.mem_push] at hb
    rcases hb with hb | rfl
    · exact hold.blocks b hb
    · exact (congrArg Place.captured (hnew s.size (Nat.le_refl _))).trans
        ((congrArg Outline.captured h.enters.1).trans hU)
  · intro x op hx
    rw [hsize]
    rcases hcases hx with ⟨-, hx⟩ | ⟨hle, hx⟩ | ⟨-, -, rfl⟩
    · obtain ⟨htargets, hclosures⟩ := hin hx
      exact ⟨fun y hy => by have := htargets y hy; omega,
        fun a captures hop => by have := hclosures a captures hop; omega⟩
    · refine ⟨fun y hy => ?_, fun a captures hop => ?_⟩
      · rcases (h.flow hx fun _ => List.not_mem_nil).2 y hy with ⟨-, hy₂, -⟩ | ⟨Λ, hout, -⟩
        · omega
        · cases hout
      · obtain ⟨-, hastop, -⟩ := h.closures (hop ▸ hx)
        omega
    · exact ⟨fun y hy => (List.not_mem_nil hy).elim, fun _ _ hop => OpCode.noConfusion hop⟩
  · intro x op hx
    dsimp only
    rcases hcases hx with ⟨hlt, hx⟩ | ⟨hle, hx⟩ | ⟨hle, rfl, -⟩
    · rw [if_pos hlt]
      exact hknown hx
    · rw [hnew x hle]
      exact h.known hx
    · rw [hnew x hle, h.leaves]
      exact hstop

theorem Compiled.grows (h : s.Compiled) : Segment.empty.Grows s := by
  induction h with
  | empty => exact .refl _
  | compile _ hcompile ih => exact ih.trans (hasHeader_compile hcompile).1

/-- What the compiler has made has a scoping: at each instruction the place that the scopes of the
compiler stood for when it made it. -/
theorem Noted.exists_scoping (h : s.Noted S) :
    ∃ label, s.Scoping label ∧ ∀ {x op}, s.ops x = some op → (label x).Means (S x) := by
  have hall : ∃ label, s.Scoping label ∧ s.Enclosed ∧
      ∀ {x op}, s.ops x = some op → (label x).Means (S x) := by
    induction h with
    | empty =>
      refine ⟨fun _ => ⟨⟨[], []⟩, []⟩, ⟨fun hx => ?_, fun hx => ?_, fun hx => ?_, fun b hb => ?_⟩,
        fun hx => ?_, fun hx => ?_⟩
      · cases hx
      · cases hx
      · cases hx
      · exact absurd hb (Array.not_mem_empty b)
      · cases hx
      · cases hx
    | compile hs henv hbody hcompile hS ih =>
      obtain ⟨label, hlabel, hin, hknown⟩ := ih
      obtain ⟨c, span, stop, U, Δ, rfl, hU, hstop, hscopes⟩ := scoped_compile henv hbody hcompile hS
      exact scoping_append hlabel hin hs.compiled.grows hknown hU hstop hscopes
  obtain ⟨label, hlabel, -, hknown⟩ := hall
  exact ⟨label, hlabel, hknown⟩

end Segment

end LuaMachine
