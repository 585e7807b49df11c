import LuaMachine.Proofs.Machine.Aside

/-!
# How the debugger is consulted

A stopped script shows its debugger what it looks like and asks it for actions, until one of them lets
the script go on. All that changes is the debugger's state (`World.Consults`), and at least one action is
taken (`Exec.answers_lt_pause`). So to listen to the debugger, and to tell it of an error, is something
aside (`Exec.aside_listen`, `Exec.aside_trace`). If a step over is what lets the script go on, it begins
at the height and at the place where the script was stopped (`Exec.stepOver_of_pause`).
-/

namespace LuaMachine

namespace World

variable {w w' w'' : World} {d : DebugState}

/-- The world with another state of the running script's debugger. -/
def withDebug (w : World) (d : DebugState) : World :=
  { w with scripts := w.scripts.modify w.active.index fun s => { s with debug := d } }

/-- A script that has a debugger exists. -/
theorem active_of_attached (h : w.debug.isAttached = true) : w.active.index < w.scripts.size := by
  refine Nat.lt_of_not_le fun hout => ?_
  unfold debug at h
  rw [Array.getD_eq_getD_getElem?, Array.getElem?_eq_none hout] at h
  cases h

theorem debug_withDebug (h : w.active.index < w.scripts.size) : (w.withDebug d).debug = d := by
  unfold debug withDebug
  rw [Array.getD_eq_getD_getElem?, Array.getElem?_modify, if_pos rfl, Array.getElem?_eq_getElem h]
  rfl

/-- The running script's debugger was shown or told something, or was asked for actions. -/
structure Consults (w w' : World) : Prop extends Apart w w' where
  others : ∀ i, i ≠ w.active.index → w'.scripts[i]? = w.scripts[i]?
  answers : w.debug.answers ≤ w'.debug.answers
  attached : w.debug.isAttached = true → w'.debug.isAttached = true

namespace Consults

theorem refl (w : World) : w.Consults w := ⟨.refl w, fun _ _ => rfl, Nat.le_refl _, id⟩

theorem trans (h₁ : w.Consults w') (h₂ : w'.Consults w'') : w.Consults w'' := by
  refine ⟨h₁.toApart.trans h₂.toApart, fun i hi => ?_, Nat.le_trans h₁.answers h₂.answers,
    fun h => h₂.attached (h₁.attached h)⟩
  exact (h₂.others i (h₁.active.symm ▸ hi)).trans (h₁.others i hi)

/-- The running script changes no more than its debugger's state. -/
theorem modifyScript (w : World) {f : Script → Script} (hf : ∀ s : Script, (f s).bare = s.bare)
    (hd : ∀ s : Script, w.scripts[w.active.index]? = some s → s.debug.answers ≤ (f s).debug.answers ∧
      (s.debug.isAttached = true → (f s).debug.isAttached = true)) :
    w.Consults { w with scripts := w.scripts.modify w.active.index f } := by
  have hdebug : ({ w with scripts := w.scripts.modify w.active.index f } : World).debug =
      ((w.scripts[w.active.index]?.map f).getD default).debug := by
    unfold debug
    rw [Array.getD_eq_getD_getElem?, Array.getElem?_modify, if_pos rfl]
  have hbefore : w.debug = (w.scripts[w.active.index]?.getD default).debug := by
    unfold debug
    rw [Array.getD_eq_getD_getElem?]
  refine ⟨.modifyScript w _ hf, fun i hi => ?_, ?_, ?_⟩
  · exact Array.getElem?_modify.trans (if_neg (Ne.symm hi))
  · rw [hdebug, hbefore]
    cases hs : w.scripts[w.active.index]? with
    | none => exact Nat.le_refl _
    | some s => exact (hd s hs).1
  · rw [hdebug, hbefore]
    cases hs : w.scripts[w.active.index]? with
    | none => exact id
    | some s => exact (hd s hs).2

theorem withDebug (w : World) (hanswers : w.debug.answers ≤ d.answers)
    (hattached : w.debug.isAttached = true → d.isAttached = true) : w.Consults (w.withDebug d) := by
  refine .modifyScript w (fun _ => rfl) fun s hs => ?_
  have hbefore : w.debug = s.debug := by
    unfold debug
    rw [Array.getD_eq_getD_getElem?, hs]
    rfl
  rw [hbefore] at hanswers hattached
  exact ⟨hanswers, hattached⟩

/-- If the running script's debugger is heeded, so are all. -/
theorem aside (h : w.Consults w') (hd : w.debug.Heeds w'.debug) : w.Aside w' := by
  refine ⟨h.toApart, fun i => ?_⟩
  by_cases hi : i = w.active.index
  · subst hi
    unfold debug at hd
    rw [h.active] at hd
    exact hd
  · rw [Array.getD_eq_getD_getElem?, Array.getD_eq_getD_getElem?, h.others i hi]
    exact .refl _

end Consults

end World

namespace Exec

variable {α β : Type} {w w' : World} {d : DebugState} {front : Debugger} {place : Option Span} {ip n : Nat}

/-- A computation that consults the running script's debugger at most, however it ends. -/
abbrev Consulting (x : Exec α) : Prop := x.Ends World.Consults

theorem Consulting.bind {x : Exec α} {f : α → Exec β} (hx : Consulting x) (hf : ∀ a, Consulting (f a)) :
    Consulting (x >>= f) :=
  Ends.bind (R := World.Consults) .trans hx hf

theorem consulting_pure (a : α) : Consulting (pure a) := .of_change (fun _ => rfl) .refl

theorem consulting_get : Consulting (get : Exec World) := .of_change (fun _ => rfl) .refl

theorem consulting_script : Consulting script := consulting_get.bind fun _ => consulting_pure _

theorem Consulting.forIn {f : α → PUnit → Exec (ForInStep PUnit)} (as : List α)
    (hf : ∀ a b, Consulting (f a b)) (b : PUnit) : Consulting (forIn as b f) := by
  induction as generalizing b with
  | nil => exact consulting_pure _
  | cons a as ih =>
    rw [List.forIn_cons]
    refine (hf a b).bind fun next => ?_
    cases next with
    | done b => exact consulting_pure _
    | yield b => exact ih b

/-! ## Changes of the debugger's state -/

theorem modifyDebug_eq (f : DebugState → DebugState) (w : World) :
    modifyDebug f w = .ok () (w.withDebug (f w.debug)) := by
  have hscripts : w.scripts.modify w.active.index (fun s => { s with debug := f s.debug }) =
      w.scripts.modify w.active.index fun s => { s with debug := f w.debug } := by
    refine Array.ext_getElem? fun i => ?_
    rw [Array.getElem?_modify, Array.getElem?_modify]
    split
    · next hi =>
      subst hi
      unfold World.debug
      rw [Array.getD_eq_getD_getElem?]
      cases w.scripts[w.active.index]? <;> rfl
    · rfl
  change EStateM.Result.ok () { w with scripts := _ } = _
  rw [hscripts]
  rfl

theorem consulting_modifyScript {f : Script → Script} (hf : ∀ s : Script, (f s).bare = s.bare)
    (hd : ∀ s : Script, s.debug.answers ≤ (f s).debug.answers ∧
      (s.debug.isAttached = true → (f s).debug.isAttached = true)) : Consulting (modifyScript f) :=
  .of_change (fun _ => rfl) fun w => .modifyScript w hf fun s _ => hd s

theorem consulting_tell (f : DebugState → DebugEvent) :
    Consulting (modifyDebug fun d => d.tell (f d)) :=
  consulting_modifyScript (fun _ => rfl) fun s => ⟨(s.debug.heeds_tell (f s.debug)).answers, id⟩

theorem consulting_showPanels (place : Option Span) (hard : Bool) :
    Consulting (showPanels place hard) := by
  unfold showPanels
  refine consulting_script.bind fun s => ?_
  split
  · exact consulting_pure _
  · refine consulting_get.bind fun w => (Consulting.forIn _ ?_ _).bind fun _ => ?_
    · intro panel _
      split
      · exact (consulting_tell _).bind fun _ => consulting_pure _
      · exact consulting_pure _
    · split
      · exact consulting_tell _
      · exact consulting_pure _

/-- Breakpoints of a source of the script change. -/
theorem consulting_modifySource (id : Nat) (f : DebugState → SourceText → DebugState)
    (hf : ∀ d s, (f d s).events = d.events ∧ (f d s).debugger = d.debugger) :
    Consulting (modifyScript fun s => match s.sources[id]? with
      | some source => { s with debug := f s.debug source }
      | none => s) := by
  refine consulting_modifyScript (fun s => ?_) fun s => ?_
  · cases s.sources[id]? <;> rfl
  · cases s.sources[id]? with
    | none => exact ⟨Nat.le_refl _, fun h => h⟩
    | some source =>
      obtain ⟨hevents, hdebugger⟩ := hf s.debug source
      refine ⟨Nat.le_of_eq ?_, fun h => ?_⟩
      · exact (congrArg (·.countP DebugEvent.isAnswer) hevents).symm
      · exact (congrArg Option.isSome hdebugger).trans h

theorem consulting_placeBreakpoints (a : DebuggerAction) (state : Option Bool) :
    Consulting (placeBreakpoints a state) :=
  consulting_modifySource a.source (fun d source => d.toggle source a.line a.column state)
    fun _ _ => ⟨rfl, rfl⟩

theorem consulting_attend (a : DebuggerAction) (place : Option Span) : Consulting (attend a place) := by
  unfold attend
  split
  · exact (consulting_placeBreakpoints a _).bind fun _ => consulting_showPanels place _
  · exact (consulting_placeBreakpoints a _).bind fun _ => consulting_showPanels place _
  · exact (consulting_placeBreakpoints a _).bind fun _ => consulting_showPanels place _
  · refine (consulting_modifySource a.source (fun d source => d.reset source a.lines)
      fun _ _ => ⟨rfl, rfl⟩).bind fun _ => ?_
    exact consulting_showPanels place _
  · exact consulting_showPanels place _
  · exact consulting_showPanels place _
  · exact consulting_pure _

/-! ## Actions -/

/-- What an answer does to the debugger's state: the front end goes on with its plan, and the answer is
put on record. -/
def answered (d : DebugState) (a : DebuggerAction) (front : Debugger) (ip : Nat) (place : Option Span) :
    DebugState :=
  { d with debugger := some front }.tell (.action ip place a.kind)

theorem answers_answered (d : DebugState) (a : DebuggerAction) (front : Debugger) (ip : Nat)
    (place : Option Span) : (answered d a front ip place).answers = d.answers + 1 :=
  DebugState.answers_tell _ _

/-- A front end takes an action, and either lets the script go on or is asked again. -/
theorem takeActions_eq (hfront : w.debug.debugger = some front) {a : DebuggerAction} {front' : Debugger}
    (hnext : front.next = (a, front')) (ip : Nat) (place : Option Span) (n : Nat) :
    takeActions ip place (n + 1) w =
      match (answered w.debug a front' ip place).resume? a.kind ip w.processor.frames.size place with
      | some d => .ok () ((w.withDebug (answered w.debug a front' ip place)).withDebug d)
      | none => (attend a place >>= fun _ => takeActions ip place n)
          (w.withDebug (answered w.debug a front' ip place)) := by
  have hattached : w.debug.isAttached = true := congrArg Option.isSome hfront
  let w₁ := w.withDebug (answered w.debug a front' ip place)
  have hdebug : (w₁.scripts.getD w₁.active.index default).debug = answered w.debug a front' ip place :=
    World.debug_withDebug (World.active_of_attached hattached)
  have hscript : ∀ u : World, script u = .ok (u.scripts.getD u.active.index default) u := fun _ => rfl
  have hprocessor : processor w₁ = .ok w.processor w₁ := rfl
  have hanswer : modifyDebug (answered · a front' ip place) w = .ok () w₁ := modifyDebug_eq _ w
  have hfront' : (w.scripts.getD w.active.index default).debug.debugger = some front := hfront
  rw [takeActions, bind_ok (hscript w), hfront']
  dsimp only
  rw [hnext]
  dsimp only
  refine (bind_ok hanswer).trans ?_
  rw [bind_ok hprocessor, bind_ok (hscript w₁), hdebug]
  cases (answered w.debug a front' ip place).resume? a.kind ip w.processor.frames.size place with
  | some d => exact modifyDebug_eq _ w₁
  | none => rfl

theorem takeActions_of_detached (h : w.debug.debugger = none) (ip : Nat) (place : Option Span) (n : Nat) :
    takeActions ip place (n + 1) w = .ok () w := by
  have hnone : (w.scripts.getD w.active.index default).debug.debugger = none := h
  rw [takeActions, bind_ok (script_getD _), hnone]
  rfl

/-- An action that lets the script go on is the latest one, and a step over begins where it is taken. -/
theorem resume?_spec {kind : ActionKind} {depth : Nat} {d' : DebugState}
    (h : d.resume? kind ip depth place = some d') : d'.events = d.events ∧ d'.debugger = d.debugger ∧
      (d'.action = .stepOver → d'.depthAtStep = depth ∧ d'.last = place) := by
  unfold DebugState.resume? at h
  split at h <;> cases h
  all_goals exact ⟨rfl, rfl, by simp⟩

/-- What follows an answer. -/
theorem consults_of_answered (hfront : w.debug.debugger = some front) {a : DebuggerAction}
    {front' : Debugger} (hnext : front.next = (a, front'))
    (hn : ∀ u : World, u.Consults ((takeActions ip place n).final u)) :
    (w.withDebug (answered w.debug a front' ip place)).Consults
      ((takeActions ip place (n + 1)).final w) := by
  let w₁ := w.withDebug (answered w.debug a front' ip place)
  have hattached : w.debug.isAttached = true := congrArg Option.isSome hfront
  have hdebug : w₁.debug = _ := World.debug_withDebug (World.active_of_attached hattached)
  unfold final
  rw [takeActions_eq hfront hnext]
  cases hresume : (answered w.debug a front' ip place).resume? a.kind ip w.processor.frames.size place with
  | some d =>
    obtain ⟨hevents, hdebugger, -⟩ := resume?_spec hresume
    refine .withDebug w₁ (Nat.le_of_eq ?_) fun _ => ?_
    · rw [hdebug]
      exact (congrArg (·.countP DebugEvent.isAnswer) hevents).symm
    · exact congrArg Option.isSome hdebugger
  | none =>
    have hrest := (consulting_attend a place).bind fun _ => ends_iff.2 hn
    exact ends_iff.1 hrest _

theorem consulting_takeActions (ip : Nat) (place : Option Span) (n : Nat) :
    Consulting (takeActions ip place n) := by
  induction n with
  | zero => exact .of_throw .refl _
  | succ n ih =>
    refine ends_iff.2 fun w => ?_
    cases hfront : w.debug.debugger with
    | none =>
      unfold final
      rw [takeActions_of_detached hfront]
      exact .refl w
    | some front =>
      refine World.Consults.trans (.withDebug w ?_ fun _ => rfl)
        (consults_of_answered hfront rfl (ends_iff.1 ih))
      rw [answers_answered]
      exact Nat.le_succ _

/-- A debugger that is there takes an action. -/
theorem answers_lt_takeActions (h : w.debug.isAttached = true) (ip : Nat) (place : Option Span) (n : Nat) :
    w.debug.answers < ((takeActions ip place (n + 1)).final w).debug.answers := by
  obtain ⟨front, hfront⟩ := Option.isSome_iff_exists.1 h
  have hrest := consults_of_answered hfront rfl (ends_iff.1 (consulting_takeActions ip place n))
  have hanswers := hrest.answers
  rw [World.debug_withDebug (World.active_of_attached h), answers_answered] at hanswers
  exact hanswers

/-- If a step over lets the script go on, it begins at the height and at the place where the script was
stopped. -/
theorem stepOver_of_takeActions (hattached : w.debug.isAttached = true)
    (h : takeActions ip place n w = .ok () w') (hover : w'.debug.action = .stepOver) :
    w'.debug.depthAtStep = w.processor.frames.size ∧ w'.debug.last = place := by
  induction n generalizing w with
  | zero => cases h
  | succ n ih =>
    obtain ⟨front, hfront⟩ := Option.isSome_iff_exists.1 hattached
    rcases hnext : front.next with ⟨a, front'⟩
    let w₁ := w.withDebug (answered w.debug a front' ip place)
    have hexists := World.active_of_attached hattached
    have hactive : w₁.active.index < w₁.scripts.size :=
      Nat.lt_of_lt_of_eq hexists Array.size_modify.symm
    have hdebug : w₁.debug = answered w.debug a front' ip place := World.debug_withDebug hexists
    rw [takeActions_eq hfront hnext] at h
    cases hresume : (answered w.debug a front' ip place).resume? a.kind ip w.processor.frames.size place with
    | some d =>
      rw [hresume] at h
      cases h
      have hlatest : (w₁.withDebug d).debug = d := World.debug_withDebug hactive
      rw [hlatest] at hover ⊢
      exact (resume?_spec hresume).2.2 hover
    | none =>
      rw [hresume] at h
      obtain ⟨_, w₂, hattend, hrest⟩ := of_bind_ok h
      have hconsults := (consulting_attend a place).ok hattend
      have hframes : w₂.processor = w.processor := hconsults.processor
      rw [← hframes]
      have hattached₁ : w₁.debug.isAttached = true := by
        rw [hdebug]
        rfl
      exact ih (hconsults.attached hattached₁) hrest

/-! ## Stopping a script -/

/-- The panels are always shown. -/
theorem showPanels_ok (place : Option Span) (hard : Bool) (w : World) :
    ∃ w', showPanels place hard w = .ok () w' := by
  -- one panel after the other
  have hpanels : ∀ (g : Panel → PUnit → Exec (ForInStep PUnit)) (panels : List Panel),
      (∀ panel b u, ∃ b' u', g panel b u = .ok (.yield b') u') →
        ∀ b u, ∃ b' u', forIn panels b g u = .ok b' u' := by
    intro g panels hg
    induction panels with
    | nil => exact fun b u => ⟨b, u, rfl⟩
    | cons panel rest ih =>
      intro b u
      obtain ⟨b₁, u₁, hfirst⟩ := hg panel b u
      obtain ⟨b₂, u₂, hrest⟩ := ih b₁ u₁
      rw [List.forIn_cons, bind_ok hfirst]
      exact ⟨b₂, u₂, hrest⟩
  unfold showPanels
  rw [bind_ok (script_getD _)]
  cases (w.scripts.getD w.active.index default).debug.debugger with
  | none => exact ⟨w, rfl⟩
  | some front =>
    dsimp only
    rw [bind_ok (get_eq _)]
    have hthen : ∀ (g : Panel → PUnit → Exec (ForInStep PUnit)) (f : PUnit → Exec Unit),
        (∀ panel b u, ∃ b' u', g panel b u = .ok (.yield b') u') → (∀ b u, ∃ u', f b u = .ok () u') →
          ∃ w', (forIn Panel.all PUnit.unit g >>= f) w = .ok () w' := by
      intro g f hg hf
      obtain ⟨b, w₁, hshown⟩ := hpanels g Panel.all hg PUnit.unit w
      rw [bind_ok hshown]
      exact hf b w₁
    refine hthen _ _ (fun panel b u => ?_) fun b u => ?_
    · split
      · exact ⟨_, _, rfl⟩
      · exact ⟨_, u, rfl⟩
    · split
      · exact ⟨_, modifyDebug_eq _ u⟩
      · exact ⟨u, rfl⟩

/-- A stopped script asks its debugger, and what lets it go on is known. -/
theorem pause_spec (hattached : w.debug.isAttached = true) (ip : Nat) (place : Option Span) :
    w.Consults ((pause ip place).final w) ∧
      w.debug.answers < ((pause ip place).final w).debug.answers ∧
      ∀ w', pause ip place w = .ok () w' → w'.debug.action = .stepOver →
        w'.debug.depthAtStep = w.processor.frames.size ∧ w'.debug.last = place := by
  obtain ⟨w₁, hshown⟩ := showPanels_ok place false w
  have hconsults := (consulting_showPanels place false).ok hshown
  have hattached₁ := hconsults.attached hattached
  obtain ⟨n, hpause⟩ : ∃ n, pause ip place w = takeActions ip place (n + 1) w₁ := by
    unfold pause
    rw [bind_ok hshown, bind_ok (script_getD _)]
    exact ⟨_, rfl⟩
  have hfinal : (pause ip place).final w = (takeActions ip place (n + 1)).final w₁ := by
    unfold final
    rw [hpause]
  rw [hfinal]
  refine ⟨?_, ?_, fun w' h hover => ?_⟩
  · exact hconsults.trans (ends_iff.1 (consulting_takeActions ip place _) w₁)
  · exact Nat.lt_of_le_of_lt hconsults.answers (answers_lt_takeActions hattached₁ ip place n)
  · have hframes : w₁.processor = w.processor := hconsults.processor
    rw [← hframes]
    exact stepOver_of_takeActions hattached₁ (hpause.symm.trans h) hover

/-- Stopping a script is something aside. -/
theorem aside_pause (ip : Nat) (place : Option Span) : Aside (pause ip place) := by
  refine ends_iff.2 fun w => ?_
  cases hfront : w.debug.debugger with
  | some front =>
    obtain ⟨hconsults, htaken, -⟩ := pause_spec (congrArg Option.isSome hfront) ip place
    exact hconsults.aside (.of_lt htaken hconsults.attached)
  | none =>
    have hnone : (w.scripts.getD w.active.index default).debug.debugger = none := hfront
    have hshown : showPanels place false w = .ok () w := by
      unfold showPanels
      rw [bind_ok (script_getD _)]
      simp only [hnone]
      rfl
    have hpause : pause ip place w = .ok () w := by
      unfold pause
      rw [bind_ok hshown, bind_ok (script_getD _)]
      exact takeActions_of_detached hfront ip place _
    unfold final
    rw [hpause]
    exact .refl w

end Exec

/-! ## Listening -/

namespace World

/-- What the debugger decides at an instruction: whether the script goes on, and the state that the
debugger is in then. -/
def decides (w : World) (front : Debugger) (place : Option Span) : Bool × DebugState :=
  { w.debug with debugger := some { front with asked := front.asked + 1 } }.arrive w.processor.ip
    w.processor.frames.size place (front.pauseAt.contains (front.asked + 1))

variable {w : World} {front : Debugger} {place : Option Span}

theorem answers_decides : (w.decides front place).2.answers = w.debug.answers :=
  DebugState.answers_arrive

theorem attached_decides : (w.decides front place).2.isAttached = true := by
  unfold DebugState.isAttached decides
  rw [DebugState.debugger_arrive]
  rfl

theorem heeds_decides (h : (w.decides front place).1 = true) : w.debug.Heeds (w.decides front place).2 :=
  have hasked : w.debug.Heeds
      { w.debug with debugger := some { front with asked := front.asked + 1 } } :=
    ⟨fun _ => rfl, Nat.le_refl _, fun _ => rfl, fun _ => rfl, fun _ _ => rfl⟩
  hasked.trans (DebugState.heeds_arrive h)

end World

namespace Exec

variable {w w' : World} {front : Debugger} {place : Option Span}

/-- A debugger lets the script go on or stops it. -/
theorem listen_eq (hfront : w.debug.debugger = some front) (place : Option Span) :
    listen place w = if (w.decides front place).1 then .ok () (w.withDebug (w.decides front place).2)
      else pause w.processor.ip place (w.withDebug (w.decides front place).2) := by
  have hfront' : (w.scripts.getD w.active.index default).debug.debugger = some front := hfront
  have hdecided : modifyDebug (fun _ => (w.decides front place).2) w =
      .ok () (w.withDebug (w.decides front place).2) := modifyDebug_eq _ w
  unfold listen
  rw [bind_ok (script_getD _)]
  dsimp only
  rw [hfront']
  dsimp only
  rw [bind_ok (processor_eq _)]
  change (modifyDebug (fun _ => (w.decides front place).2) >>= fun _ => _) w = _
  rw [bind_ok hdecided]
  change (if (!(w.decides front place).1) = true then pause w.processor.ip place else pure ())
    (w.withDebug (w.decides front place).2) = _
  cases (w.decides front place).1 <;> rfl

theorem listen_of_detached (h : w.debug.debugger = none) (place : Option Span) :
    listen place w = .ok () w := by
  have hnone : (w.scripts.getD w.active.index default).debug.debugger = none := h
  unfold listen
  rw [bind_ok (script_getD _)]
  dsimp only
  rw [hnone]
  rfl

theorem aside_listen (place : Option Span) : Aside (listen place) := by
  refine ends_iff.2 fun w => ?_
  cases hfront : w.debug.debugger with
  | none =>
    unfold final
    rw [listen_of_detached hfront]
    exact .refl w
  | some front =>
    let w₁ := w.withDebug (w.decides front place).2
    have hattached : w.debug.isAttached = true := congrArg Option.isSome hfront
    have hdebug : w₁.debug = (w.decides front place).2 :=
      World.debug_withDebug (World.active_of_attached hattached)
    have hdecides : w.Consults w₁ :=
      .withDebug w (Nat.le_of_eq World.answers_decides.symm) fun _ => World.attached_decides
    unfold final
    rw [listen_eq hfront]
    cases hgoes : (w.decides front place).1 with
    | true => exact hdecides.aside (hdebug ▸ World.heeds_decides hgoes)
    | false =>
      obtain ⟨hconsults, htaken, -⟩ :=
        pause_spec (hdebug ▸ World.attached_decides) w.processor.ip place
      have hall := hdecides.trans hconsults
      exact hall.aside (.of_lt (Nat.lt_of_le_of_lt hdecides.answers htaken) hall.attached)

/-- An error passes a debugger that is not there. -/
theorem trace_of_detached (h : w.debug.debugger = none) (e : ScriptError) (place : Option Span) :
    ∃ e', trace e place w = .ok e' w := by
  have hnone : (w.scripts.getD w.active.index default).debug.debugger = none := h
  cases e with
  | runtime e =>
    change ∃ e', (script >>= fun s => _) w = .ok e' w
    rw [bind_ok (script_getD _)]
    dsimp only
    rw [bind_ok (processor_eq _), hnone]
    exact ⟨_, rfl⟩
  | _ => exact ⟨_, rfl⟩

/-- A debugger is told of an error in the script, and stops the script if it is meant to. -/
theorem trace_of_attached (hfront : w.debug.debugger = some front) (e : RuntimeError)
    (place : Option Span) : ∃ e' : RuntimeError, trace (.runtime e) place w =
      (if front.pauseOnError then pause w.processor.ip place >>= fun _ => pure (.runtime e')
        else pure (.runtime e')) (w.withDebug (w.debug.tell (.error e'.display))) := by
  have hfront' : (w.scripts.getD w.active.index default).debug.debugger = some front := hfront
  change ∃ e' : RuntimeError, (script >>= fun s => _) w = _
  rw [bind_ok (script_getD _)]
  dsimp only
  rw [bind_ok (processor_eq _), hfront']
  exact ⟨_, bind_ok (modifyDebug_eq _ w)⟩

theorem aside_trace (e : ScriptError) (place : Option Span) : Aside (trace e place) := by
  have htell : ∀ message, Aside (modifyDebug (·.tell (.error message))) := fun message =>
    .of_change (fun _ => rfl) fun w => .modifyScript w _ (fun _ => rfl) fun s => s.debug.heeds_tell _
  unfold trace
  split
  · refine aside_script.bind fun s => aside_processor.bind fun p => ?_
    dsimp only
    split
    · refine (htell _).bind fun _ => ?_
      split
      · exact (aside_pause _ place).bind fun _ => aside_pure _
      · exact aside_pure _
    · exact aside_pure _
  · exact aside_pure _

end Exec

end LuaMachine
