import LuaMachine.Proofs.Capture.Running

/-!
# Runs of code continue histories

A run of instructions continues the history of the world that it begins in, and if it is suspended then
its activations are explained (`Reentry.recounts_run`). Functions that are entered have no visible
declarations yet. A suspended coroutine keeps activations that are explained, and goes on with them when
it is resumed (`Reentry.recounts_continueBody`). The processors of scripts that are idle refer to cells
that are there. So all ways into the machine continue histories, by induction on the depth of re-entry
(`Reentry.telling_atDepth`).
-/

namespace LuaMachine

open Exec

/-! ## One instruction after the other -/

namespace World

variable {L : Placing} {H H' : List Execution} {v v₁ v' w w' : World} {depth : Nat} {op : OpCode}
  {exit : Option Exit}

/-- Activations are explained while the loop goes on, and when a coroutine is suspended. -/
def LexicalAfter (L : Placing) (H : List Execution) (depth : Nat) (v : World) : Option Exit → Prop
  | none => v.Lexical L H depth
  | some (.yielded _) => depth = 0 → v.Lexical L H 0
  | some (.returned _) => True

theorem LexicalAfter.mono (h : v.LexicalAfter L H depth exit) (hH : H ⊆ H') :
    v.LexicalAfter L H' depth exit := by
  match exit, h with
  | none, h => exact Lexical.mono h hH
  | some (.yielded _), h => exact fun hzero => (h hzero).mono hH
  | some (.returned _), _ => trivial

theorem Steps.precedes (h : w.Steps L depth op exit w') : w.Precedes w' := by
  cases h with
  | proceeds hbound hclosure htells hnames hstands => exact htells.precedes
  | declares hdeclares => exact ⟨hdeclares.reworks.precedes.cells, hdeclares.reworks.precedes.closures⟩
  | makes hop hprecedes => exact hprecedes
  | enters => exact ⟨Nat.le_refl _, id⟩
  | leaves => exact ⟨Nat.le_refl _, id⟩
  | returns => exact ⟨Nat.le_refl _, id⟩
  | yields hop hcalled =>
    obtain rfl := called_world hcalled
    exact ⟨Nat.le_refl _, id⟩

end World

namespace Reentry

variable {L : Placing} {H : List Execution} {n depth : Nat} {i : Instruction} {v v₁ v' w : World}
  {exit : Option Exit}

theorem follows_step {r : Reentry} (hr : r.Calm) {a : Nat} (hop : w.ops a = some i.op)
    (h : r.step depth i w = .ok exit v) : w.Follows v := by
  let bottom : Processor := { frames := Array.replicate depth (.host "" 0 none) }
  have hsize : bottom.frames.size = depth := Array.size_replicate
  rw [← hsize] at h
  exact ((keeps_step hr hop).ok h).1

/-- An instruction continues the history, and activations stay explained. -/
theorem recounts_step (hr : (atDepth n).Telling L)
    (hi : (v.scripts.getD v.active.index default).code.instruction? v.processor.ip = some i)
    (hheard : hear (v.scripts.getD v.active.index default) i v = .ok () v₁)
    (hstep : (atDepth n).step depth i v₁ = .ok exit v') :
    v.Recounts L (v.Lexical L · depth) v' (v'.LexicalAfter L · depth exit) := by
  have haside : v.Aside v₁ := (aside_hear _ i).ok hheard
  have hsteady : v.Steady v₁ := haside.reworks
  have hop := World.ops_of_instruction hi
  have hfollows := follows_step (calm_atDepth n) (hsteady.later.ops hop) hstep
  have hsteps : v₁.Steps L depth i.op exit v' := (hr.step (calm_atDepth n) depth i).ok hstep
  have hlater := hsteady.later.trans hfollows.later
  refine ⟨hlater, fun hg hv => hfollows.closed hg (hsteady.closed hv),
    hsteady.precedes.trans hsteps.precedes, fun hp' hv hactive H hH hlexical => ?_⟩
  have hp := hp'.of_later hlater
  have hv₁ := hsteady.closed hv
  have hcarries : exit = none → v.Carries i.op v' := by
    rintro rfl
    exact ⟨n, depth, i, v₁, hi, rfl, hheard, hstep⟩
  have hsustains : exit = none → v.Sustains L v' := fun hexit => (hcarries hexit).sustains hp' hv
  have hprocessor := haside.processor
  have hip : v₁.processor.ip = v.processor.ip := congrArg (·.ip) hprocessor
  have hH₁ := hsteady.explained hH
  cases hsteps with
  | proceeds hbound hclosure htells hnames hstands =>
    obtain ⟨H', hsuffix, hH', -⟩ :=
      (hsteady.tells.trans htells).explained hp' hv hactive hH trivial
    obtain ⟨hstands, htarget⟩ := hstands hp'.genuine hv₁
    rw [hprocessor] at hstands htarget
    exact ⟨H', hsuffix, hH', hlexical.proceeds hsuffix.subset hlater.active (hsustains rfl)
      hp hop hbound hnames hstands htarget⟩
  | @declares w₁ hdeclares hordinary htarget =>
    refine hlexical.declares hH hp hp' hv hop (hcarries rfl) ?_ hordinary (hprocessor ▸ htarget)
    obtain ⟨f, hf, hcells, hdistinct⟩ := hdeclares.binds
    exact ⟨haside.reworks.trans hdeclares.reworks, f, hf, haside.cells ▸ hcells, hdistinct⟩
  | @makes entry captures w' hop' hprecedes hstands hmakes =>
    rw [hop'] at hop
    obtain ⟨c, vs, hcaptures, heq⟩ := hmakes fun s hs => by
      obtain ⟨hvariable, hdeclared⟩ := hlexical.mayCapture hp hop s hs
      exact ⟨hvariable, fun hname hf => hdeclared hname (hprocessor ▸ hf)⟩
    have hcells := World.cellOf?_congr hprocessor
    refine hlexical.makes hH hp hp' hv hop haside (hip ▸ heq) (hop' ▸ hcarries rfl) ?_
    exact ⟨hcaptures.owner.trans haside.active, hcaptures.entry_eq, hcaptures.names,
      hcells ▸ hcaptures.upvalue, hcells ▸ hcaptures.declared⟩
  | @enters argc f vs hop' hclosure howner hlocals hsymbols hreturn =>
    rw [hip] at hreturn
    have htarget : v.processor.ip + 1 ∈ i.op.targets v.processor.ip := by
      rw [hop']
      exact List.mem_singleton_self _
    have hbound : i.op.bound = [] := hop' ▸ rfl
    have hpasses := hp.passes hop htarget
    have hentry := hH₁.entry (hp'.of_later hfollows.later) hv₁ hclosure
      (by rwa [hsteady.later.active, hsteady.later.size]) howner
    refine ⟨H, List.suffix_refl H, hH₁.withProcessor ?_, ?_⟩
    · exact (hH₁.processor.pushFrame hlocals (hH₁.closures _ hclosure).2).of_subset fun _ => id
    · refine hlexical.calls hlater.active (hprocessor ▸ rfl) rfl (hsustains rfl) hreturn
        hpasses.captured (hpasses.slots fun names => hop' ▸ OpCode.noConfusion) (fun d hd => ?_)
        fun height => World.explained_of_called howner hsymbols hentry
      exact (hpasses.visible hd).resolve_right (hbound ▸ List.not_mem_nil)
  | @leaves values x f vs hop' hf hreturn hdepth =>
    refine ⟨H, List.suffix_refl H, hH₁.withProcessor ?_, ?_⟩
    · exact hH₁.processor.popFrame.of_subset fun _ => id
    · rw [hprocessor] at hf hdepth
      exact hlexical.leaves hlater.active (hprocessor ▸ rfl) rfl (hsustains rfl) hf hreturn
        hdepth
  | @returns values vs result hop' =>
    refine ⟨H, List.suffix_refl H, hH₁.withProcessor ?_, trivial⟩
    exact hH₁.processor.popFrame.of_subset fun _ => id
  | @yields argc c args w₁ hop' hcalled hnative hallowed =>
    obtain ⟨operation, span⟩ := i
    cases hop'
    obtain rfl := called_world hcalled
    let y : v.YieldPoint := ⟨argc, span, v₁, c, args, _, hi, hheard, hcalled, hnative, hallowed⟩
    refine ⟨H, List.suffix_refl H, hH₁.withProcessor ?_, ?_⟩
    · exact hH₁.processor.of_subset fun _ => id
    · rintro rfl
      refine hlexical.proceeds (fun _ => id) hlater.active y.sustains hp hop rfl ?_ (.of_eq ?_) ?_
      · rintro names f hop'
        cases hop'
      · rw [← hprocessor]
        rfl
      · rw [← hprocessor]
        exact List.mem_singleton_self _

/-! ## Runs -/

/-- What a run of instructions does to histories. -/
abbrev Recounts (L : Placing) (depth : Nat) (x : Exec Exit) : Prop :=
  ∀ w, x.Leads w (fun exit w' => w.Recounts L (w.Lexical L · depth) w'
    (w'.LexicalAfter L · depth (some exit))) fun w' => w.Recounts L (w.Lexical L · depth) w' fun _ => True

/-- An instruction is carried out, and the rest of the run comes after it. -/
theorem recounts_stepThen (hr : (atDepth n).Telling L) {rest : Exec Exit} (hrest : Recounts L depth rest)
    (hi : (v.scripts.getD v.active.index default).code.instruction? v.processor.ip = some i)
    (hheard : hear (v.scripts.getD v.active.index default) i v = .ok () v₁) :
    (stepThen (atDepth n) depth i rest).Leads v₁ (fun exit w' => v.Recounts L (v.Lexical L · depth) w'
      (w'.LexicalAfter L · depth (some exit))) fun w' =>
        v.Recounts L (v.Lexical L · depth) w' fun _ => True := by
  have hsteady : v.Steady v₁ := ((aside_hear _ i).ok hheard).reworks
  have htrace : ∀ (e : ScriptError) (w : World), (trace e i.span >>= failWith : Exec Exit).Leads w
      (fun _ _ => False) (w.Tells L) := by
    intro e w
    refine Leads.bind ((aside_trace e i.span).telling w) fun e' w' hw' => ?_
    exact ⟨nofun, fun h => hw'.trans (((aside_failWith e').telling w').error h)⟩
  have hfailed : ∀ {e : ScriptError} {w : World},
      (atDepth n).step depth i v₁ = .error (.error e) w → v.Tells L w := fun h =>
    hsteady.tells.trans ((hr.step (calm_atDepth n) depth i).error h)
  constructor
  · intro exit w' h
    unfold stepThen at h
    split at h
    · next w₁ hstep => exact (recounts_step hr hi hheard hstep).trans ((hrest w₁).ok h)
    · next hstep =>
      cases h
      exact recounts_step hr hi hheard hstep
    · next e w₁ hstep => exact ((htrace e w₁).ok h).elim
    · cases h
  · intro e w' h
    unfold stepThen at h
    split at h
    · next w₁ hstep => exact (recounts_step hr hi hheard hstep).trans ((hrest w₁).error h)
    · cases h
    · next e w₁ hstep =>
      exact ((hfailed hstep).trans ((htrace e w₁).error h)).mono (fun _ _ => trivial) fun _ => id
    · next hnot _ =>
      cases h
      exact absurd rfl (hnot e)

theorem recounts_run (hr : (atDepth n).Telling L) (depth fuel : Nat) :
    Recounts L depth ((atDepth n).run depth fuel) := by
  induction fuel with
  | zero => exact fun w => ⟨nofun, nofun⟩
  | succ fuel ih =>
    intro w
    have hsame : ∀ {w' : World}, w.Tells L w' → w.Recounts L (w.Lexical L · depth) w' fun _ => True :=
      fun h => h.mono (fun _ _ => trivial) fun _ => id
    cases hi : (w.scripts.getD w.active.index default).code.instruction? w.processor.ip with
    | none =>
      have heq : (atDepth n).run depth (fuel + 1) w =
          .error (.error (.ofFault (.invalidAddress w.processor.ip))) w := by
        rw [run]
        simp only [hi]
      refine ⟨fun h => ?_, fun h => ?_⟩
      · rw [heq] at h
        cases h
      · rw [heq] at h
        cases h
        exact hsame (.refl w)
    | some i =>
      have hhear := aside_hear (w.scripts.getD w.active.index default) i
      have hall : (hear (w.scripts.getD w.active.index default) i >>= fun _ =>
          stepThen (atDepth n) depth i ((atDepth n).run depth fuel)).Leads w
          (fun exit w' => w.Recounts L (w.Lexical L · depth) w' (w'.LexicalAfter L · depth (some exit)))
          fun w' => w.Recounts L (w.Lexical L · depth) w' fun _ => True :=
        Leads.bind (Q := fun _ w₁ => hear (w.scripts.getD w.active.index default) i w = .ok () w₁)
          ⟨id, fun h => hsame (hhear.error h).tells⟩ fun _ _ hheard => recounts_stepThen hr ih hi hheard
      exact ⟨fun h => hall.ok ((run_eq _ depth fuel hi).symm.trans h),
        fun h => hall.error ((run_eq _ depth fuel hi).symm.trans h)⟩

/-! ## Functions -/

/-- A function that is entered from outside has a frame on top, and no visible declarations. -/
theorem recounts_enterClosure (f : ClosureId) (args : List Value) (site : Option Span) (depth : Nat)
    (w : World) : (enterClosure f args none site).Leads w (fun _ w' =>
      w.Recounts L (fun _ => w.processor.frames.size = depth) w' (w'.Lexical L · depth)) (w.Tells L) := by
  refine (leads_enterClosure f args none site).mono ?_ fun _ => id
  rintro - w' ⟨f, hclosure, howner, hlocals, hsymbols, -, rfl⟩
  refine ⟨(World.Later.refl w).elsewhere _ w.token, fun _ => id, ⟨Nat.le_refl _, id⟩,
    fun hp hw hactive H hH hdepth => ?_⟩
  have hentry := hH.entry ⟨hp.genuine, hp.scoping⟩ hw hclosure hactive howner
  have hbelow := hH.processor.pushFrame hlocals (hH.closures _ hclosure).2
  have hsize : (w.calls f w.processor.values).processor.frames.size = w.processor.frames.size + 1 :=
    Array.size_push _
  refine ⟨H, List.suffix_refl H, hH.withProcessor (hbelow.of_subset fun _ => id), ?_, ?_⟩
  · rw [hsize, hdepth]
    exact .inl (Nat.lt_succ_self _)
  · intro height g hheight hg
    have hlt := (Array.getElem?_eq_some_iff.1 hg).1
    obtain rfl : height = w.processor.frames.size := by omega
    have htop : (w.processor.frames.push (.script f))[w.processor.frames.size]? = some g := hg
    rw [Array.getElem?_push_size] at htop
    cases htop
    exact ⟨f, _, rfl, .inl ⟨hsize.symm, rfl⟩, World.explained_of_called howner hsymbols hentry⟩

/-- A function that is entered continues the history. -/
theorem recounts_enterFunction (hr : (atDepth n).Telling L) (depth : Nat) (f : Value)
    (args : List Value) (w : World) : ((atDepth n).enterFunction depth f args).Leads w
      (fun exit w' => w.Recounts L (fun _ => w.processor.frames.size = depth) w'
        (w'.LexicalAfter L · depth (some exit)))
      fun w' => w.Recounts L (fun _ => w.processor.frames.size = depth) w' fun _ => True := by
  have hresolve := aside_resolveCallable f args
  have hfailed : ∀ {w' : World}, w.Tells L w' →
      w.Recounts L (fun _ => w.processor.frames.size = depth) w' fun _ => True :=
    fun h => h.mono (fun _ _ => trivial) fun _ => id
  unfold enterFunction
  refine Leads.bind (Q := fun _ => w.Aside) ⟨hresolve.ok, fun h => hfailed (hresolve.error h).tells⟩ ?_
  rintro ⟨f, args⟩ w₁ hw₁
  have htells : w.Tells L w₁ := hw₁.tells
  have hkept : w.Recounts L (fun _ => w.processor.frames.size = depth) w₁
      fun _ => w₁.processor.frames.size = depth :=
    .keep htells fun _ _ _ hsize => hw₁.processor ▸ hsize
  dsimp only
  split
  · next f =>
    refine ((recounts_enterClosure f args none depth w₁).mono (fun _ _ => hkept.trans)
      fun _ h => hfailed (htells.trans h)).bind fun _ w₂ hw₂ => ?_
    exact (recounts_run hr depth stepLimit w₂).mono (fun _ _ => hw₂.trans) fun _ => hw₂.trans
  · next c =>
    split
    · refine .of_ok rfl (hkept.mono (fun _ => id) fun H hsize hzero => ⟨.inr rfl, fun _ hg => ?_⟩)
      have hlt := (Array.getElem?_eq_some_iff.1 hg).1
      omega
    · refine (((hr.invoke c args none).after htells).mono (fun _ _ => id) fun _ => hfailed).bind
        fun v w₂ hw₂ => ?_
      exact .of_ok rfl (hfailed hw₂)
  · exact (leads_fail _).mono (fun _ _ => id) fun _ h => hfailed (htells.trans h)

end Reentry

namespace Exec

variable {α : Type} {L : Placing} {w : World}

theorem tells_nested (w : World) : w.Tells L w.nested :=
  World.tells_modifyScript (fun _ _ => .refl _) fun _ => rfl

theorem tells_unnested (w : World) (i : ScriptId) : w.Tells L (w.unnested i) :=
  World.tells_modifyScript (fun _ _ => .refl _) fun _ => rfl

/-- A level of nesting has nothing to do with variables. -/
theorem leads_nested_tells {x : Exec α}
    (hx : w.MayNest → x.Leads w.nested (fun _ => w.Tells L) (w.Tells L)) :
    (nested x).Leads w (fun _ => w.Tells L) (w.Tells L) :=
  Reentry.leads_nested hx (fun _ w' h => h.trans (tells_unnested w' _))
    (fun w' h => h.trans (tells_unnested w' _)) (.refl w)

end Exec

namespace Reentry

variable {L : Placing} {n : Nat} {w : World}

theorem telling_callFunction (hr : (atDepth n).Telling L) (f : Value) (args : List Value) :
    ((atDepth n).callFunction f args).Telling L := by
  intro w
  refine leads_nested_tells fun _ => (Leads.get_bind ?_).mono (fun _ _ => (tells_nested w).trans)
    fun _ => (tells_nested w).trans
  have henter := recounts_enterFunction hr w.nested.processor.frames.size f (Value.flatten args) w.nested
  refine Leads.andSettle (Q := fun _ => w.nested.Tells L) (E := w.nested.Tells L) ?_ _ _
    (fun _ w' hw' => ?_) fun w' hw' => ?_
  · refine (henter.mono (fun exit w' hw' => (hw'.mono (fun _ _ => rfl) fun _ => id).tells)
      fun w' hw' => (hw'.mono (fun _ _ => rfl) fun _ => id)).bind fun exit w' hw' => ?_
    cases exit with
    | returned v => exact .of_ok rfl hw'
    | yielded v => exact (leads_fail _).mono (fun _ _ => id) fun _ => hw'.trans
  · exact hw'.trans (World.tells_withProcessor fun H hH => hH.processor.of_subset fun _ => id)
  · exact hw'.trans (World.tells_withProcessor fun H hH =>
      (hH.processor.unwind _ w.nested.processor.values.size).of_subset fun _ => id)

end Reentry

/-! ## Changes of coroutines -/

namespace World

variable {L : Placing} {H : List Execution} {w : World} {id : CoroutineId} {g : Coroutine → Coroutine}

theorem later_modifyCoroutine (hg : ∀ c, w.heap.coroutine? id = some c → (g c).owner = c.owner) :
    w.Later { w with heap := w.heap.modifyCoroutine id g } := by
  refine ⟨rfl, rfl, (Later.refl w).code, fun {i c} hi => ?_⟩
  rw [Heap.modifyCoroutine, Array.getElem?_modify, hi]
  split
  · next hid =>
    subst hid
    exact ⟨g c, rfl, hg c hi⟩
  · exact ⟨c, rfl, rfl⟩

/-- One coroutine changes, and is explained afterwards. -/
theorem Explained.modifyCoroutine (h : w.Explained L H)
    (hg : ∀ c, w.heap.coroutine? id = some c → ∀ body, (g c).body = some body →
      body.processor.Below w.heap.cells.size ∧ body.Explained L H (g c).owner) :
    World.Explained L H { w with heap := w.heap.modifyCoroutine id g } := by
  refine { h with recorded := h.recorded.mono ⟨Nat.le_refl _, fun h => h⟩, coroutines := ?_ }
  intro c hc body hbody
  obtain ⟨i, hi⟩ := Array.getElem?_of_mem hc
  rw [Heap.modifyCoroutine, Array.getElem?_modify] at hi
  split at hi
  · next hid =>
    subst hid
    obtain ⟨c₀, hc₀, rfl⟩ := Option.map_eq_some_iff.1 hi
    exact hg c₀ hc₀ body hbody
  · exact h.coroutines c (Array.mem_of_getElem? hi) body hbody

/-- A coroutine keeps its body, or loses it. -/
theorem tells_modifyCoroutine (hg : ∀ c, w.heap.coroutine? id = some c →
    (g c).owner = c.owner ∧ ∀ body, (g c).body = some body → c.body = some body) :
    w.Tells L { w with heap := w.heap.modifyCoroutine id g } := by
  have hlater := later_modifyCoroutine fun c hc => (hg c hc).1
  refine tells_of_explained hlater (fun _ hw i c hi => hlater.hasHeader (hw i c hi))
    ⟨Nat.le_refl _, fun h => h⟩ fun _ _ {H} hH => hH.modifyCoroutine fun c hc body hbody => ?_
  obtain ⟨howner, hkept⟩ := hg c hc
  rw [howner]
  exact hH.coroutines c (Array.mem_of_getElem? hc) body (hkept body hbody)

end World

namespace Exec

variable {L : Placing} {H H' : List Execution} {w w' : World} {id : CoroutineId}

theorem telling_transition (id : CoroutineId) (state : CoroutineState) :
    (Reentry.transition id state).Telling L := by
  intro w
  unfold Reentry.transition
  refine .ok_bind rfl ?_
  cases hc : w.heap.coroutine? id with
  | none => exact leads_fail _
  | some c =>
    unfold Coroutine.become
    dsimp only
    split
    · refine .of_ok rfl (World.tells_modifyCoroutine fun c' hc' => ?_)
      obtain rfl := Option.some.inj (hc.symm.trans hc')
      exact ⟨rfl, fun _ => fun h => h⟩
    · exact leads_fail _

/-- What a body leaves that ran: if it was suspended, activations that are explained. -/
def Leaves (L : Placing) (H : List Execution) (w : World)
    (result : Except ScriptError Exit × Processor) : Prop :=
  ∀ v, result.1 = .ok (.yielded v) → result.2.Below w.heap.cells.size ∧
    ∃ z : World, z.processor = result.2 ∧ z.active = w.active ∧ z.Lexical L H 0

theorem Leaves.keep {result : Except ScriptError Exit × Processor} (h : Leaves L H w result)
    (hw : w.Tells L w') (hH : H <:+ H') : Leaves L H' w' result := by
  intro v hv
  obtain ⟨hbelow, z, hp, hactive, hz⟩ := h v hv
  exact ⟨hbelow.mono hw.precedes.cells, z, hp, hactive.trans hw.later.active.symm, hz.mono hH.subset⟩

/-- A coroutine that was suspended gets its body back. -/
theorem recounts_giveBody {p : Processor} {v : Value}
    (howner : ∀ c, w.heap.coroutine? id = some c → c.owner = w.active) :
    w.Recounts L (Leaves L · w (.ok (.yielded v), p)) { w with heap := w.heap.modifyCoroutine id fun c =>
      { c with body := some { processor := p, function := none } } } fun _ => True := by
  have hlater : w.Later { w with heap := w.heap.modifyCoroutine id fun c =>
      { c with body := some { processor := p, function := none } } } :=
    World.later_modifyCoroutine fun _ _ => rfl
  refine ⟨hlater, fun _ hw i c hi => hlater.hasHeader (hw i c hi), ⟨Nat.le_refl _, fun h => h⟩,
    fun _ _ _ H hH hleaves => ⟨H, List.suffix_refl H, hH.modifyCoroutine fun c hc body hbody => ?_,
      trivial⟩⟩
  cases hbody
  obtain ⟨hbelow, z, hp, hactive, hz⟩ := hleaves v rfl
  refine ⟨hbelow, nofun, fun _ => ⟨z, hp, ?_, hz⟩⟩
  rw [hactive, howner c hc]

end Exec

namespace Reentry

variable {L : Placing} {n : Nat} {w : World} {id : CoroutineId} {c : Coroutine} {body : CoroutineBody}

/-! ## Resumptions -/

/-- A coroutine is resumed: its processor comes in. -/
theorem recounts_resuming (hc : w.MayResume id c) (hbody : c.body = some body) :
    w.Recounts L (fun _ => True) (w.nested.resuming id body.processor)
      (body.Explained L · w.active) := by
  have hstart : w.nested.Tells L { w.nested with
      heap := w.nested.heap.modifyCoroutine id fun c => { c with state := .running, body := none } } :=
    World.tells_modifyCoroutine fun _ _ => ⟨rfl, nofun⟩
  have htells : w.Tells L { w.nested with
      heap := w.nested.heap.modifyCoroutine id fun c => { c with state := .running, body := none }
      scripts := w.nested.scripts.modify w.nested.active.index fun s =>
        { s with running := id :: s.running } } :=
    ((tells_nested w).trans hstart).trans (World.tells_modifyScript (fun _ _ => .refl _) fun _ => rfl)
  refine ⟨htells.later.elsewhere body.processor w.token, htells.closed, ⟨Nat.le_refl _, fun h => h⟩,
    fun hp hw hactive H hH _ => ?_⟩
  obtain ⟨H', hsuffix, hH', -⟩ := htells.explained ⟨hp.genuine, hp.scoping⟩ hw hactive hH trivial
  obtain ⟨hbelow, hexplained⟩ := hH.coroutines c (Array.mem_of_getElem? hc.coroutine) body hbody
  refine ⟨H', hsuffix, hH'.withProcessor hbelow, ?_⟩
  exact hc.owner ▸ hexplained.mono hsuffix.subset

/-- A coroutine goes on with the activations that it had when it was suspended. -/
theorem recounts_push {args : List Value} {p : Processor} {s : World} (hc : w.MayResume id c)
    (hbody : c.body = some { processor := p, function := none })
    (hpush : push (.ofList (Value.flatten args)) (w.nested.resuming id p) = .ok () s) :
    (w.nested.resuming id p).Recounts L
      (CoroutineBody.Explained L · w.active { processor := p, function := none })
      s (s.Lexical L · 0) := by
  have hsteady : (w.nested.resuming id p).Steady s := (reworking_push _ _).ok hpush
  refine hsteady.tells.keep fun H H' hsuffix hexplained => ?_
  obtain ⟨z, rfl, hactive, hz⟩ := hexplained.suspended rfl
  have hsustains : z.Sustains L s := fun hlives _ _ => hlives.resumed hc hbody hpush
  have hip : s.processor.ip = z.processor.ip := hsteady.ip
  have hstands : z.processor.Stands (fun _ => True) s.processor := by
    cases hpush
    exact .of_eq rfl
  refine hz.sustained hsuffix.subset ?_ hsustains hstands ?_ ?_ ?_
  · exact hsteady.active.trans hactive.symm
  · rw [hip]
  · intro height f f' _ _ hbecomes hf
    rw [hip, hbecomes.symbols 0 trivial, hf]
  · intro height f' _ _ d hd
    rw [hip] at hd
    exact .inl ⟨hd, trivial⟩

/-- A coroutine goes on from where it stands. -/
theorem recounts_continueBody (hr : (atDepth n).Telling L) (hc : w.MayResume id c)
    (hbody : c.body = some body) (args : List Value) :
    Leads ((atDepth n).continueBody body.function args) (w.nested.resuming id body.processor)
      (fun exit u => w.Recounts L (fun _ => True) u (u.LexicalAfter L · 0 (some exit))) (w.Tells L) := by
  have hresuming : w.Recounts L (fun _ => True) (w.nested.resuming id body.processor)
      (body.Explained L · w.active) := recounts_resuming hc hbody
  obtain ⟨p, start⟩ := body
  cases start with
  | some f =>
    have hfresh : ∀ H : List Execution,
        CoroutineBody.Explained L H w.active { processor := p, function := some f } →
        (w.nested.resuming id p).processor.frames.size = 0 := by
      intro H hexplained
      exact congrArg Array.size (hexplained.fresh rfl)
    exact (recounts_enterFunction hr 0 f _ _).mono
      (fun exit u hu => hresuming.trans (hu.mono hfresh fun _ h => h))
      fun u hu => hresuming.trans (hu.mono hfresh fun _ h => h)
  | none =>
    refine Leads.bind (Q := fun _ s => push (.ofList (Value.flatten args)) _ = .ok () s)
      ⟨fun h => h, nofun⟩ fun _ s hpush => ?_
    have hs := hresuming.trans (recounts_push hc hbody hpush)
    exact (recounts_run hr 0 stepLimit s).mono (fun _ _ => hs.trans) fun _ => hs.trans

/-- The processor of whoever has resumed a coroutine comes back when it stops. -/
theorem recounts_popped {P Q : List Execution → Prop} {u : World} (h : w.Recounts L P u Q)
    (hmono : ∀ H H', H <:+ H' → Q H → Q H') :
    w.Recounts L P (u.popped w.processor) fun H => Q H ∧ u.processor.Below u.heap.cells.size := by
  have hscripts : u.Tells L { u with scripts := u.scripts.modify u.active.index fun s =>
      { s with running := s.running.tail } } :=
    World.tells_modifyScript (fun _ _ => .refl _) fun _ => rfl
  exact (h.trans (.keep hscripts hmono)).back

/-- What the body of a resumed coroutine leaves. -/
theorem recounts_runBody (hr : (atDepth n).Telling L) (hc : w.MayResume id c)
    (hbody : c.body = some body) (args : List Value) :
    Leads (do setBody id none; transition id .running; (atDepth n).runBody id body args :
        Exec (Except ScriptError Exit × Processor)) w.nested
      (fun result u => w.Recounts L (fun _ => True) u (Leaves L · u result)) fun _ => False := by
  have hstart := start_eq (w := w.nested) hc.coroutine hc.state
  have hrun := runBody_eq (atDepth n) id body args w.nested
  have hcontinue := recounts_continueBody hr hc hbody args
  rw [← bind_assoc]
  constructor
  · intro result u' h
    rw [bind_ok hstart, hrun] at h
    split at h
    · next exit u hx =>
      cases h
      refine (recounts_popped (hcontinue.ok hx) fun _ _ hH h => h.mono hH.subset).mono
        (fun _ h => h) ?_
      rintro H ⟨hafter, hbelow⟩ v hv
      cases hv
      exact ⟨hbelow, u, rfl, rfl, hafter rfl⟩
    · next e u hx =>
      cases h
      exact (recounts_popped (hcontinue.error hx) fun _ _ _ h => h).mono (fun _ h => h)
        fun H _ => nofun
    · cases h
  · intro e u' h
    rw [bind_ok hstart, hrun] at h
    split at h
    · cases h
    · cases h
    · next hnot _ =>
      cases h
      exact absurd rfl (hnot e)

/-- A resumed coroutine is suspended again, or over. -/
theorem leads_finishBody {result : Except ScriptError Exit × Processor} {u : World}
    (hc : w.MayResume id c) (hu : w.Recounts L (fun _ => True) u (Leaves L · u result)) :
    (finishBody id result).Leads u (fun _ => w.Tells L) (w.Tells L) := by
  have hover : ∀ {x : Exec Value}, x.Telling L →
      (transition id .dead >>= fun _ => x).Leads u (fun _ => w.Tells L) (w.Tells L) := fun hx =>
    ((telling_transition id .dead).bind fun _ => hx).after hu.tells
  unfold finishBody
  split
  · next v hv =>
    refine Leads.bind (Q := fun _ u' => u.Tells L u') ⟨(telling_transition id _ u).ok,
      fun h => hu.tells.trans ((telling_transition id _ u).error h)⟩ fun _ u' hu' => ?_
    obtain ⟨outcome, p⟩ := result
    cases hv
    have hkept : w.Recounts L (fun _ => True) u' (Leaves L · u' (.ok (.yielded v), p)) :=
      hu.trans (.keep hu' fun _ _ hsuffix hleaves => hleaves.keep hu' hsuffix)
    refine .of_ok rfl (hkept.trans (recounts_giveBody fun c' hc' => ?_))
    obtain ⟨c'', hc'', howner⟩ := hkept.later.owners hc.coroutine
    obtain rfl := Option.some.inj (hc'.symm.trans hc'')
    rw [howner, hc.owner, hkept.later.active]
  · exact hover (telling_pure _)
  · exact hover (aside_failWith _).telling

theorem resumeCoroutine_bodiless (r : Reentry) (hc : w.MayResume id c) (hbody : c.body = none)
    (args : List Value) : r.resumeCoroutine id args w = nested (fail .deadCoroutine) w := by
  have howner : (c.owner != w.active) = false := by simp [hc.owner]
  unfold Reentry.resumeCoroutine
  rw [bind_ok (get_eq _), hc.coroutine]
  dsimp only
  rw [howner, hbody]
  rcases hc.state with h | h <;> rw [h] <;> rfl

theorem telling_resumeCoroutine (hr : (atDepth n).Telling L) (id : CoroutineId) (args : List Value) :
    ((atDepth n).resumeCoroutine id args).Telling L := by
  intro w
  by_cases hrejects : w.Rejects id
  · obtain ⟨e, heq⟩ := resume_rejected (atDepth n) hrejects args
    refine ⟨fun h => ?_, fun h => ?_⟩
    · cases heq.symm.trans h
    · cases heq.symm.trans h
      exact .refl w
  · obtain ⟨c, hc⟩ := World.exists_mayResume hrejects
    cases hbody : c.body with
    | none =>
      have heq := resumeCoroutine_bodiless (atDepth n) hc hbody args
      have hall : (nested (fail .deadCoroutine : Exec Value)).Leads w (fun _ => w.Tells L) (w.Tells L) :=
        leads_nested_tells fun _ => (leads_fail _).mono (fun _ _ h => h) fun _ => (tells_nested w).trans
      exact ⟨fun h => hall.ok (heq.symm.trans h), fun h => hall.error (heq.symm.trans h)⟩
    | some body =>
      have heq := resumeCoroutine_nested (atDepth n) hc hbody args
      have hall : (nested ((atDepth n).resumeBody id body args)).Leads w (fun _ => w.Tells L)
          (w.Tells L) := by
        refine leads_nested_tells fun _ => ?_
        rw [resumeBody_eq]
        exact Leads.bind ((recounts_runBody hr hc hbody args).mono (fun _ _ h => h) fun _ => False.elim)
          fun result u hu => leads_finishBody hc hu
      exact ⟨fun h => hall.ok (heq.symm.trans h), fun h => hall.error (heq.symm.trans h)⟩

end Reentry

/-! ## Scripts -/

namespace Exec

variable {α : Type} {L : Placing} {w : World}

theorem telling_modifyScript {f : Script → Script} (hcode : ∀ s, (f s).code = s.code)
    (hprocessor : ∀ s, (f s).processor = s.processor) : (modifyScript f).Telling L := by
  refine telling_modify fun w => World.tells_modifyScript (fun s _ => ?_) hprocessor
  rw [hcode]
  exact .refl _

theorem telling_acquire : Reentry.acquire.Telling L := by
  unfold Reentry.acquire
  refine aside_script.telling.bind fun s => aside_get.telling.bind fun w => ?_
  dsimp only
  split
  · exact telling_modifyScript (fun _ => rfl) fun _ => rfl
  · split
    · exact telling_fail _
    · split
      · exact (aside_failWith _).telling
      · exact telling_throw _

/-- The main processor of the running script comes in. -/
theorem tells_onMain (w : World) (token : Nat) : w.Tells L
    { w with processor := (w.scripts.getD w.active.index default).processor, token } := by
  have hprecedes : w.Precedes
      { w with processor := (w.scripts.getD w.active.index default).processor, token } :=
    ⟨Nat.le_refl _, fun h => h⟩
  refine World.tells_of_explained ((World.Later.refl w).elsewhere _ token) (fun _ h => h) hprecedes
    fun _ hactive {H} hH => ?_
  refine { hH with recorded := hH.recorded.mono hprecedes, processor := ?_ }
  rw [Array.getD_eq_getD_getElem?, Array.getElem?_eq_getElem hactive]
  exact hH.scripts _ (Array.getElem_mem hactive)

/-- The main processor of a script goes back to it, and the processor from before comes back. -/
theorem tells_offMain {u : World} (h : w.Tells L u) : w.Tells L { u with
    scripts := u.scripts.modify w.active.index fun s =>
      { s with processor := u.processor, owner := none, counters := s.counters.countExecution }
    processor := w.processor
    token := w.token } := by
  have hfollows : u.Follows { u with scripts := u.scripts.modify w.active.index fun s =>
      { s with processor := u.processor, owner := none, counters := s.counters.countExecution } } :=
    World.follows_modifyScript fun _ _ => .refl _
  refine ⟨(h.later.trans hfollows.later).elsewhere _ _, fun hg hw i c hi => ?_,
    ⟨h.precedes.cells, h.precedes.closures⟩, fun hp hw hactive H hH _ => ?_⟩
  · exact hfollows.closed hg (h.closed (hfollows.later.genuine hg) hw) i c hi
  · have hu : u.Placed L := hp.of_later (hfollows.later.elsewhere _ _)
    obtain ⟨H', hsuffix, hH', -⟩ := h.explained hu hw hactive hH trivial
    refine ⟨H', hsuffix, { hH' with
      recorded := hH'.recorded.mono ⟨Nat.le_refl _, fun h => h⟩
      scripts := fun s hs => ?_
      processor := hH.processor.mono h.precedes.cells }, trivial⟩
    obtain ⟨i, hi⟩ := Array.getElem?_of_mem hs
    rw [Array.getElem?_modify] at hi
    split at hi
    · obtain ⟨s₀, -, rfl⟩ := Option.map_eq_some_iff.1 hi
      exact hH'.processor
    · exact hH'.scripts s (Array.mem_of_getElem? hi)

theorem Telling.onMainProcessor {x : Exec α} (hx : x.Telling L) (token : Nat) :
    (Reentry.onMainProcessor token x).Telling L := by
  intro w
  have hinside := hx.after (tells_onMain w token)
  have hall : (Exec.andFinally x _).Leads _ (fun _ => w.Tells L) (w.Tells L) :=
    hinside.andFinally _ (fun _ u hu => tells_offMain hu) fun u hu => tells_offMain hu
  exact ⟨hall.ok, hall.error⟩

/-- Something is done for another script, which is there. -/
theorem Telling.within {x : Exec α} (hx : x.Telling L) {id : ScriptId}
    (hid : id.index < w.scripts.size) :
    (Exec.within id x).Leads w (fun _ => w.Tells L) (w.Tells L) := by
  have hback : ∀ u : World, World.Tells L { w with active := id } u →
      w.Tells L { u with active := w.active } := by
    intro u hu
    refine ⟨⟨rfl, hu.later.size, hu.later.code, hu.later.owners⟩, hu.closed,
      ⟨hu.precedes.cells, hu.precedes.closures⟩, fun hp hw _ H hH _ => ?_⟩
    obtain ⟨H', hsuffix, hH', -⟩ := hu.explained ⟨hp.genuine, hp.scoping⟩ hw hid
      { hH with recorded := hH.recorded.mono ⟨Nat.le_refl _, fun h => h⟩ } trivial
    exact ⟨H', hsuffix, { hH' with recorded := hH'.recorded.mono ⟨Nat.le_refl _, fun h => h⟩ }, trivial⟩
  have hall : (Exec.andFinally x _).Leads _ (fun _ => w.Tells L) (w.Tells L) :=
    (hx { w with active := id }).andFinally (fun u => { u with active := w.active })
      (fun _ => hback) hback
  exact ⟨hall.ok, hall.error⟩

end Exec

namespace Reentry

variable {L : Placing} {n : Nat}

theorem telling_callScript (hr : (atDepth n).Telling L) (token : Nat) (f : Value) (args : List Value) :
    ((atDepth n).callScript token f args).Telling L := by
  have hended : ∀ w : World, w.Tells L { w with scripts := w.scripts.modify w.active.index fun s =>
      { s with debug := s.debug.executionEnded } } :=
    fun w => World.tells_modifyScript (fun _ _ => .refl _) fun _ => rfl
  unfold callScript
  refine telling_acquire.bind fun _ w => ?_
  exact ((telling_callFunction hr f args).onMainProcessor token w).andSettle _ _
    (fun _ u hu => hu.trans (hended u)) fun u hu => hu.trans (hended u)

theorem telling_enterScript (hr : (atDepth n).Telling L) (id : ScriptId) (code : String) :
    ((atDepth n).enterScript id code).Telling L := by
  have hinside : (do
      let f ← loadString code none none
      (atDepth n).callScript (← newToken) f [] : Exec Value).Telling L := by
    refine (telling_loadString code none none).bind fun f => aside_newToken.telling.bind fun token => ?_
    exact telling_callScript hr token f []
  intro w
  unfold enterScript
  refine .get_bind ?_
  dsimp only
  split
  · exact ⟨nofun, nofun⟩
  · next hid => exact hinside.within (Nat.lt_of_not_le hid)

/-- All ways into the machine continue histories. -/
theorem telling_atDepth (L : Placing) (n : Nat) : (atDepth n).Telling L := by
  induction n with
  | zero => exact ⟨fun _ _ => telling_throw _, fun _ _ => telling_throw _, fun _ _ => telling_throw _⟩
  | succ n ih => exact ⟨telling_callFunction ih, telling_resumeCoroutine ih, telling_enterScript ih⟩

end Reentry

end LuaMachine
