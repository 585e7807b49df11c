import LuaMachine.Proofs.Capture.Steady
import LuaMachine.Proofs.Flat.Values

/-!
# What becomes of histories

Whatever is carried out, a history of the world before can be continued to one of the world afterwards
(`World.Tells`). Where activations are under way, what is known of them comes on top of that
(`World.Recounts`). The library tells of nothing but what it asks the machine for, so it continues
histories if the machine does (`Reentry.Telling.native`).
-/

namespace LuaMachine

open Exec

namespace Processor

variable {p : Processor} {n : Nat}

/-- A frame without cells comes on top, whose closure refers to cells that are there. -/
theorem Below.pushFrame (h : p.Below n) {f : ScriptFrame} (hlocals : f.locals = #[])
    (hclosure : f.closure.Below n) :
    ({ p with frames := p.frames.push (.script f) } : Processor).Below n := by
  refine below_of_frames fun g hg => ?_
  rcases Array.mem_push.1 hg with hg | hg
  · exact h.frame hg
  · cases hg
    rintro cell (hcell | ⟨slot, hcell⟩)
    · exact hclosure cell hcell
    · rw [ScriptFrame.cell?, hlocals] at hcell
      cases hcell

theorem Below.popFrame (h : p.Below n) : ({ p with frames := p.frames.pop } : Processor).Below n := by
  refine h.of_subset fun f hf => ?_
  rw [← Array.extract_eq_pop rfl] at hf
  exact mem_of_mem_extract hf

theorem Below.unwind (h : p.Below n) (depth height : Nat) : (p.unwind depth height).Below n :=
  h.of_subset fun _ hf => mem_of_mem_extract hf

end Processor

namespace World

/-- A history of the world before, of which something is known, can be continued to one of the world
afterwards, of which something is known. -/
structure Recounts (L : Placing) (P : List Execution → Prop) (w w' : World)
    (Q : List Execution → Prop) : Prop where
  later : w.Later w'
  closed : w'.Genuine → w.Closed → w'.Closed
  precedes : w.Precedes w'
  explained : w'.Placed L → w.Closed → w.active.index < w.scripts.size → ∀ {H}, w.Explained L H → P H →
    ∃ H', H <:+ H' ∧ w'.Explained L H' ∧ Q H'

/-- Every history of the world before can be continued to one of the world afterwards. -/
abbrev Tells (L : Placing) (w w' : World) : Prop := w.Recounts L (fun _ => True) w' fun _ => True

variable {L : Placing} {P Q R : List Execution → Prop} {w w' w'' : World}

namespace Recounts

theorem trans (h₁ : w.Recounts L P w' Q) (h₂ : w'.Recounts L Q w'' R) : w.Recounts L P w'' R := by
  refine ⟨h₁.later.trans h₂.later, fun hg hw => ?_, h₁.precedes.trans h₂.precedes,
    fun hp hw hactive H hH hP => ?_⟩
  · exact h₂.closed hg (h₁.closed (h₂.later.genuine hg) hw)
  · have hp' := hp.of_later h₂.later
    have hactive' : w'.active.index < w'.scripts.size := by
      rwa [h₁.later.active, h₁.later.size]
    obtain ⟨H', hsuffix, hH', hQ⟩ := h₁.explained hp' hw hactive hH hP
    obtain ⟨H'', hsuffix', hH'', hR⟩ :=
      h₂.explained hp (h₁.closed hp'.genuine hw) hactive' hH' hQ
    exact ⟨H'', hsuffix.trans hsuffix', hH'', hR⟩

theorem mono {P' Q' : List Execution → Prop} (h : w.Recounts L P w' Q) (hP : ∀ H, P' H → P H)
    (hQ : ∀ H, Q H → Q' H) : w.Recounts L P' w' Q' := by
  refine ⟨h.later, h.closed, h.precedes, fun hp hw hactive H hH hP' => ?_⟩
  obtain ⟨H', hsuffix, hH', hQ'⟩ := h.explained hp hw hactive hH (hP H hP')
  exact ⟨H', hsuffix, hH', hQ H' hQ'⟩

/-- What is known of a history is known of longer ones. -/
theorem keep (h : w.Tells L w') (hmono : ∀ H H', H <:+ H' → P H → Q H') : w.Recounts L P w' Q := by
  refine ⟨h.later, h.closed, h.precedes, fun hp hw hactive H hH hP => ?_⟩
  obtain ⟨H', hsuffix, hH', -⟩ := h.explained hp hw hactive hH trivial
  exact ⟨H', hsuffix, hH', hmono H H' hsuffix hP⟩

/-- The processor that was there before comes back. -/
theorem back (h : w.Recounts L P w' Q) : w.Recounts L P { w' with processor := w.processor }
    fun H => Q H ∧ w'.processor.Below w'.heap.cells.size := by
  refine ⟨h.later.elsewhere _ _, h.closed, ⟨h.precedes.cells, h.precedes.closures⟩,
    fun hp hw hactive H hH hP => ?_⟩
  obtain ⟨H', hsuffix, hH', hQ⟩ := h.explained ⟨hp.genuine, hp.scoping⟩ hw hactive hH hP
  exact ⟨H', hsuffix, hH'.withProcessor (hH.processor.mono h.precedes.cells), hQ, hH'.processor⟩

/-- Nothing need be known of activations. -/
theorem tells (h : w.Recounts L (fun _ => True) w' Q) : w.Tells L w' := h.mono (fun _ => id) fun _ _ => trivial

end Recounts

/-- The same history explains both worlds. -/
theorem tells_of_explained (hl : w.Later w') (hclosed : w'.Genuine → w.Closed → w'.Closed)
    (hprecedes : w.Precedes w')
    (h : w'.Placed L → w.active.index < w.scripts.size → ∀ {H}, w.Explained L H → w'.Explained L H) :
    w.Tells L w' :=
  ⟨hl, hclosed, hprecedes, fun hp _ hactive H hH _ => ⟨H, List.suffix_refl H, h hp hactive hH, trivial⟩⟩

theorem Reworks.tells {spared : Nat → Prop} (h : w.Reworks spared w') : w.Tells L w' :=
  tells_of_explained h.later (fun _ => h.closed) h.precedes fun _ _ {_} => h.explained

theorem Tells.refl (w : World) : w.Tells L w := (Reworks.refl w : w.Steady w).tells

theorem Aside.tells (h : w.Aside w') : w.Tells L w' := (h.reworks : w.Steady w').tells

/-- Another processor comes in. -/
theorem tells_withProcessor {p : Processor} (h : ∀ H, w.Explained L H → p.Below w.heap.cells.size) :
    w.Tells L { w with processor := p } := by
  exact tells_of_explained ((Later.refl w).elsewhere p w.token) (fun _ => id)
    ⟨Nat.le_refl _, id⟩ fun _ _ {H} hH => hH.withProcessor (h H hH)

/-- Another thread comes in. -/
theorem tells_withThread (w : World) (thread : String) : w.Tells L { w with thread } := by
  have h : w.Steady { w with thread } := .of_eq rfl rfl rfl rfl (Nat.le_refl _) rfl rfl
  exact h.tells

/-- A script takes in code, and has the processor that it had. -/
theorem tells_modifyScript {i : Nat} {f : Script → Script}
    (hcode : ∀ s, w.scripts[i]? = some s → s.code.Grows (f s).code)
    (hprocessor : ∀ s, (f s).processor = s.processor) :
    w.Tells L { w with scripts := w.scripts.modify i f } := by
  have hf : w.Follows { w with scripts := w.scripts.modify i f } := follows_modifyScript hcode
  have hprecedes : w.Precedes { w with scripts := w.scripts.modify i f } := ⟨Nat.le_refl _, id⟩
  refine tells_of_explained hf.later hf.closed hprecedes fun _ _ {H} hH => ?_
  refine { hH with recorded := hH.recorded.mono hprecedes, scripts := fun s hs => ?_ }
  obtain ⟨j, hj⟩ := Array.getElem?_of_mem hs
  have hj : (w.scripts.modify i f)[j]? = some s := hj
  rw [Array.getElem?_modify] at hj
  split at hj
  · obtain ⟨s₀, hs₀, rfl⟩ := Option.map_eq_some_iff.1 hj
    rw [hprocessor]
    exact hH.scripts s₀ (Array.mem_of_getElem? hs₀)
  · exact hH.scripts s (Array.mem_of_getElem? hj)

theorem precedes_addClosure (w : World) (c : Closure) :
    w.Precedes { w with heap := w.heap.addClosure c } := by
  refine ⟨Nat.le_refl _, fun {i c'} hi => ?_⟩
  have hlt := (Array.getElem?_eq_some_iff.1 hi).1
  rw [Heap.addClosure, Array.getElem?_push, if_neg (Nat.ne_of_lt hlt)]
  exact hi

/-- A closure is made of a loaded function. -/
theorem tells_addClosure {c : Closure} (howner : c.owner = w.active) (hheader : w.HasHeader c)
    (hloaded : w.Placed L → w.active.index < w.scripts.size → c.Loaded L)
    (hbelow : c.Below w.heap.cells.size) : w.Tells L { w with heap := w.heap.addClosure c } := by
  have hf : w.Follows { w with heap := w.heap.addClosure c } :=
    follows_addClosure howner fun _ => hheader
  have hprecedes := w.precedes_addClosure c
  refine tells_of_explained hf.later hf.closed hprecedes fun hp hactive {H} hH => ?_
  refine { hH with recorded := hH.recorded.mono hprecedes, closures := fun c' hc' => ?_ }
  rcases Array.mem_push.1 hc' with hc' | rfl
  · exact hH.closures c' hc'
  · exact ⟨.inl (hloaded (hp.of_later hf.later) hactive), hbelow⟩

end World

/-! ## Computations that continue histories -/

namespace Exec

variable {α β : Type} {L : Placing} {w : World}

/-- A computation that returns has continued every history. -/
def Telling (L : Placing) (x : Exec α) : Prop := ∀ w, x.Leads w (fun _ => w.Tells L) (w.Tells L)

theorem Reworking.telling {spared : Nat → Prop} {x : Exec α} (hx : x.Reworking spared) :
    x.Telling L :=
  fun w => (hx w).mono (fun _ _ => World.Reworks.tells) fun _ => World.Reworks.tells

theorem Aside.telling {x : Exec α} (hx : x.Aside) : x.Telling L :=
  (hx.reworking : x.Steady).telling

/-- A computation that begins in a world to which a history has been continued. -/
theorem Telling.after {x : Exec α} {w' : World} (hw : w.Tells L w') (hx : x.Telling L) :
    x.Leads w' (fun _ => w.Tells L) (w.Tells L) :=
  (hx w').mono (fun _ _ => hw.trans) fun _ => hw.trans

theorem Telling.bind {x : Exec α} {f : α → Exec β} (hx : x.Telling L) (hf : ∀ a, (f a).Telling L) :
    (x >>= f).Telling L :=
  fun w => (hx w).bind fun a _ hw' => (hf a).after hw'

theorem telling_pure (a : α) : (pure a : Exec α).Telling L := (aside_pure a).telling

theorem telling_fail (f : Fault) : (fail f : Exec α).Telling L := (aside_fail f).telling

theorem telling_throw (s : Stop) : (throw s : Exec α).Telling L := (aside_throw s).telling

theorem telling_modify {f : World → World} (hf : ∀ w : World, w.Tells L (f w)) :
    (modify f : Exec Unit).Telling L :=
  fun w => .of_ok rfl (hf w)

theorem Telling.catchError {x : Exec α} {f : ScriptError → Exec α} (hx : x.Telling L)
    (hf : ∀ e, (f e).Telling L) : (Exec.catchError x f).Telling L :=
  fun w => (hx w).catchError fun e _ hw' => (hf e).after hw'

/-- Something is done before a computation and after it. -/
theorem Telling.around {x : Exec α} (hx : x.Telling L) {before : World → World}
    {after : World → World → World} (hbefore : ∀ w : World, w.Tells L (before w))
    (hafter : ∀ w w' : World, w'.Tells L (after w w')) :
    Exec.Telling L fun w => andFinally x (after w) (before w) := by
  intro w
  have hall : (andFinally x (after w)).Leads (before w) (fun _ => w.Tells L) (w.Tells L) :=
    (hx.after (hbefore w)).andFinally (after w) (fun _ w' h => h.trans (hafter w w'))
      fun w' h => h.trans (hafter w w')
  exact ⟨hall.ok, hall.error⟩

/-! ### Loading -/

end Exec

namespace Segment

variable {s s' : Segment} {code : Code}

/-- The function that new code begins with is the outermost function of a block. -/
theorem exists_block_append (h : (s.append code).HasHeader s.size) :
    ∃ b ∈ (s.append code).blocks, b.base = s.size := by
  by_cases hne : code = []
  · obtain ⟨name, kind, n, hheader⟩ := h
    rw [hne, append_nil, ops_eq_none_of_le (Nat.le_refl _)] at hheader
    cases hheader
  · rw [blocks_append hne]
    exact ⟨_, Array.mem_push_self, rfl⟩

theorem exists_block_compile {options : CompileOptions} {source : String} {chunk : CompiledChunk}
    (h : s.compile options source = .ok (chunk, s')) : ∃ b ∈ s'.blocks, b.base = chunk.entry := by
  have hheader := (hasHeader_compile h).2
  obtain ⟨body, code, spans, -, -, rfl, rfl⟩ := compile_eq_ok h
  exact exists_block_append hheader

theorem exists_block_undump {bytes : List UInt8} {source : Nat} {f : Undumped}
    (h : s.undump bytes source = .ok (f, s')) : ∃ b ∈ s'.blocks, b.base = f.entry := by
  have hheader := (hasHeader_undump h).2
  unfold undump at h
  split at h
  · cases h
  · split at h
    · cases h
      exact exists_block_append hheader
    · cases h

end Segment

namespace Exec

variable {L : Placing} {w : World}

/-- The function of loaded code. -/
theorem tells_loaded {entry : Nat} (hasEnv : Bool) (env : Option TableId)
    (hentry : ∀ s : Script, w.scripts[w.active.index]? = some s → s.code.HasHeader entry)
    (hblock : ∀ s : Script, w.scripts[w.active.index]? = some s →
      ∃ b ∈ s.code.blocks, b.base = entry) :
    (loaded entry hasEnv env).Leads w (fun _ => w.Tells L) (w.Tells L) := by
  have hloaded : ∀ upvalues, Closure.upvalueNames ⟨w.active, entry, upvalues⟩ <+: [envName] →
      w.Placed L → w.active.index < w.scripts.size → Closure.Loaded L ⟨w.active, entry, upvalues⟩ := by
    intro upvalues hnames hp hactive
    have hs := Array.getElem?_eq_getElem hactive
    obtain ⟨b, hb, rfl⟩ := hblock _ hs
    have hcaptured : (L w.active b.base).captured = [envName] := (hp.scoping _ _ hs).blocks b hb
    unfold Closure.Loaded
    rw [hcaptured]
    exact ⟨hnames, List.prefix_refl _⟩
  cases hasEnv with
  | true =>
    let cell : Value := .table (env.getD (w.scripts.getD w.active.index default).globals)
    have hcell := ((reworking_newCell cell : (newCell cell).Steady) w).ok rfl
    refine .of_ok rfl (hcell.tells.trans (World.tells_addClosure rfl hentry
      (fun hp => hloaded _ (by simp [Closure.upvalueNames]) ⟨hp.genuine, hp.scoping⟩) ?_))
    rintro id ⟨i, hi⟩
    have hid : ⟨w.heap.cells.size⟩ = id := by
      cases i with
      | zero => exact Option.some.inj hi
      | succ i => cases hi
    rw [← hid]
    change w.heap.cells.size < (w.heap.cells.push cell).size
    rw [Array.size_push]
    exact Nat.lt_succ_self _
  | false =>
    refine .of_ok rfl (World.tells_addClosure rfl hentry
      (hloaded _ (by simp [Closure.upvalueNames])) ?_)
    rintro id ⟨i, hi⟩
    cases hi

/-- New code in the running script, and the function it starts with. -/
theorem tells_addSource {segment : Segment} {source : SourceText} {entry : Nat} (hasEnv : Bool)
    (env : Option TableId)
    (hgrows : (w.scripts.getD w.active.index default).code.Grows segment)
    (hentry : segment.HasHeader entry) (hblock : ∃ b ∈ segment.blocks, b.base = entry) :
    (modifyScript (·.addSource segment source) >>= fun _ => loaded entry hasEnv env).Leads w
      (fun _ => w.Tells L) (w.Tells L) := by
  have hadded : w.Tells L
      { w with scripts := w.scripts.modify w.active.index (·.addSource segment source) } := by
    refine World.tells_modifyScript (fun s hs => ?_) fun _ => rfl
    rw [Array.getD_eq_getD_getElem?, hs] at hgrows
    exact hgrows
  have hcode : ∀ s : Script, (w.scripts.modify w.active.index
      (·.addSource segment source))[w.active.index]? = some s → s.code = segment := by
    intro s hs
    rw [Array.getElem?_modify, if_pos rfl] at hs
    obtain ⟨s₀, -, rfl⟩ := Option.map_eq_some_iff.1 hs
    rfl
  refine .ok_bind rfl ((tells_loaded hasEnv env (fun s hs => ?_) fun s hs => ?_).mono
    (fun _ _ => hadded.trans) fun _ => hadded.trans)
  · rw [hcode s hs]
    exact hentry
  · rw [hcode s hs]
    exact hblock

theorem telling_compile (code : String) (env : Option TableId) (name : Option String)
    (kind : HeaderKind) : (Exec.compile code env name kind).Telling L := by
  intro w
  let w₁ : World := { w with scripts := w.scripts.modify w.active.index fun s =>
    { s with counters := s.counters.countCompilation } }
  have hcounted : w.Tells L w₁ := World.Aside.tells (.modifyScript w _ (fun _ => rfl) fun _ => .refl _)
  unfold Exec.compile
  refine .ok_bind (v := w₁) rfl (.ok_bind (v := w₁) rfl (.ok_bind (v := w₁) rfl ?_))
  dsimp only
  split
  · exact (aside_failWith _).telling.after hcounted
  · next hcompile =>
    obtain ⟨hgrows, hentry⟩ := Segment.hasHeader_compile hcompile
    exact (tells_addSource _ env hgrows hentry (Segment.exists_block_compile hcompile)).mono
      (fun _ _ => hcounted.trans) fun _ => hcounted.trans

theorem telling_loadDump (bytes : List UInt8) (env : Option TableId) (name : Option String) :
    (loadDump bytes env name).Telling L := by
  intro w
  unfold loadDump
  refine .ok_bind (v := w) rfl (.ok_bind (v := w) rfl ?_)
  dsimp only
  split
  · exact (aside_failWith _).telling w
  · next hundump =>
    obtain ⟨hgrows, hentry⟩ := Segment.hasHeader_undump hundump
    exact tells_addSource _ env hgrows hentry (Segment.exists_block_undump hundump)

theorem telling_loadString (code : String) (env : Option TableId) (name : Option String) :
    (loadString code env name).Telling L := by
  unfold loadString
  dsimp only
  split
  · split
    · exact telling_loadDump _ env name
    · exact (aside_failWith _).telling
  · exact telling_compile code env name .chunk

/-! ### Coroutines -/

/-- A new coroutine has no activations. -/
theorem telling_newCoroutine {c : Coroutine} (hresumable : ∀ w : World, c.Resumable w)
    (hc : ∀ body, c.body = some body → body.processor.frames = #[] ∧ ∃ f, body.function = some f) :
    (newCoroutine c).Telling L := by
  intro w
  have hf : w.Follows { w with heap := w.heap.addCoroutine c } := World.follows_addCoroutine hresumable
  have hprecedes : w.Precedes { w with heap := w.heap.addCoroutine c } := ⟨Nat.le_refl _, id⟩
  refine .of_ok rfl (World.tells_of_explained hf.later hf.closed hprecedes fun _ _ {H} hH => ?_)
  refine { hH with recorded := hH.recorded.mono hprecedes, coroutines := fun c' hc' body hbody => ?_ }
  rcases Array.mem_push.1 hc' with hc' | rfl
  · exact hH.coroutines c' hc' body hbody
  · obtain ⟨hframes, f, hf⟩ := hc body hbody
    refine ⟨Processor.below_of_empty hframes, fun _ => hframes, fun hnone => ?_⟩
    cases hf.symm.trans hnone

theorem telling_startCoroutine (f : Value) : (startCoroutine f).Telling L := by
  intro w
  have hbody : ∀ body, (Coroutine.fresh w.active f).body = some body →
      body.processor.frames = #[] ∧ ∃ f, body.function = some f := by
    rintro body ⟨⟩
    exact ⟨rfl, f, rfl⟩
  have hnew := telling_newCoroutine (L := L) (fun _ => .of_fresh rfl) hbody w
  exact ⟨hnew.ok, hnew.error⟩

/-- The library continues histories. -/
theorem uniform_telling (L : Placing) : Uniform fun x _ => x.Telling L where
  aside hx := hx.telling
  bind := Telling.bind
  catchError := Telling.catchError
  intruding hx := Telling.around hx (fun w => World.tells_withThread w _) fun _ w' =>
    World.tells_withThread w' _
  loadString := telling_loadString
  start := telling_startCoroutine

end Exec

/-! ## Machines -/

/-- The ways into a machine continue histories. -/
structure Reentry.Telling (L : Placing) (r : Reentry) : Prop where
  call : ∀ f args, Exec.Telling L (r.call f args)
  resume : ∀ id args, Exec.Telling L (r.resume id args)
  enter : ∀ id code, Exec.Telling L (r.enter id code)

namespace Reentry.Telling

variable {L : Placing} {r : Reentry}

theorem alike (hr : r.Telling L) : Alike (fun x _ => x.Telling L) r r :=
  ⟨uniform_telling L, hr.call, hr.resume, hr.enter⟩

/-- A native function has a frame of its own, and its caller goes on with the frames that there were. -/
theorem invoke (hr : r.Telling L) (c : Callback) (args : List Value) (caller : Option Span) :
    Exec.Telling L (Exec.invoke r c args caller) := by
  unfold Exec.invoke
  refine (reworking_checkDepth : checkDepth.Steady).telling.bind fun _ =>
    aside_get.telling.bind fun u => ?_
  have hpush : Exec.Telling L (pushFrame (.host c.name u.processor.values.size caller)) := by
    refine telling_modify fun w => World.tells_withProcessor fun H hH => ?_
    refine hH.processor.of_subset fun f hf => ?_
    rcases Array.mem_push.1 hf with hf | hf
    · exact hf
    · cases hf
  refine hpush.bind fun _ w => ?_
  have hleave : ∀ w' : World, w'.Tells L { w' with processor := { w'.processor.unwind
      u.processor.frames.size u.processor.values.size with ip := u.processor.ip } } := by
    refine fun w' => World.tells_withProcessor fun H hH => ?_
    exact (hH.processor.unwind _ u.processor.values.size).of_subset fun _ => id
  exact ((hr.alike.native caller ⟨args⟩ c.native) w).andSettle _ _
    (fun _ w' h => h.trans (hleave w')) fun w' h => h.trans (hleave w')

end Reentry.Telling

end LuaMachine
