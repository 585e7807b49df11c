import LuaMachine.Proofs.Capture.Machine
import LuaMachine.Proofs.Coroutine.Yieldable

/-!
# Variables wherever control comes

Every world of a host has a history (`World.Hosted.explained`), and it is continued wherever control
comes to while a request is in progress (`Comes.explained`). A loop that is under way there has frames
that the history explains. A request that is asked in the middle of an instruction is asked in a world
with a history as well: a machine that cancels it there would be left in that very world.
-/

namespace LuaMachine

open Exec

/-! ## Requests in the middle of something -/

namespace Reentry.Telling

variable {L : Placing} {r : Reentry} {w v : World} {q : Request} {i : Instruction} {depth : Nat}

/-- A machine that answers one request in one world with a cancellation still continues histories. -/
theorem answering_cancelled (hr : r.Telling L) (q : Request) (v : World) :
    (r.answering q v (.error (.error .cancelled) v)).Telling L := by
  have hanswer : ∀ {p : Prop} {x x' : Exec Value}, Exec.Telling L x →
      (∀ w, p ∧ w = v → x' w = .error (.error .cancelled) v) →
      (∀ w, ¬(p ∧ w = v) → x' w = x w) → Exec.Telling L x' := by
    intro p x x' hx hthere helsewhere w
    by_cases h : p ∧ w = v
    · have hx' := hthere w h
      obtain ⟨-, rfl⟩ := h
      refine ⟨fun h => ?_, fun h => ?_⟩
      · cases hx'.symm.trans h
      · cases hx'.symm.trans h
        exact .refl w
    · have hx' := helsewhere w h
      exact ⟨fun h => (hx w).ok (hx'.symm.trans h), fun h => (hx w).error (hx'.symm.trans h)⟩
  refine ⟨fun f args => ?_, fun id args => ?_, fun id code => ?_⟩
  · exact hanswer (hr.call f args) (fun _ h => if_pos h) fun _ h => if_neg h
  · exact hanswer (hr.resume id args) (fun _ h => if_pos h) fun _ h => if_neg h
  · exact hanswer (hr.enter id code) (fun _ h => if_pos h) fun _ h => if_neg h

/-- What an instruction that calls nothing asks the machine for. -/
theorem asks_step (hc : r.Calm) (hr : r.Telling L) (hcall : ∀ argc, i.op ≠ .call argc)
    (hasks : Asks (·.step depth i) r w q v) : w.Tells L v := by
  have hcancelled := cancelled_of_asks hasks fun hr' => (paired_cancelled hr').step _ i hcall
  exact ((hr.answering_cancelled q v).step (hc.answering_cancelled q v) depth i).error hcancelled

/-- What a native function asks the machine for. -/
theorem asks_native (hr : r.Telling L) {f : Native} {caller : Option Span} {args : Arguments}
    (hasks : Asks (f.run · caller args) r w q v) : w.Tells L v := by
  by_cases hf : f.LetsPass
  · have hcancelled := cancelled_of_asks hasks fun hr' =>
      (paired_cancelled hr').toPaired.native caller args f hf
    exact ((hr.answering_cancelled q v).alike.native caller args f w).error hcancelled
  · cases f with
    | probe home p =>
      rcases world_of_asks_probe hf hasks with rfl | rfl
      · exact .refl v
      · exact w.tells_withThread _
    | _ => exact absurd trivial hf

end Reentry.Telling

/-! ## On the way inwards -/

/-- Of the frames of a loop that is under way all those above the height that it was entered at are
explained; a function is entered at the height of the call stack. -/
def Spot.Explained (L : Placing) (H : List Execution) (v : World) : Spot → Prop
  | .loop depth _ => v.Lexical L H depth
  | .function depth _ _ => v.processor.frames.size = depth
  | .request _ | .native .. => True

namespace World

variable {L : Placing} {P Q : List Execution → Prop} {w w' : World}

theorem tells_inside (w : World) (c : Callback) (caller : Option Span) : w.Tells L (w.inside c caller) := by
  refine tells_withProcessor fun H hH => hH.processor.of_subset fun f hf => ?_
  rcases Array.mem_push.1 hf with hf | hf
  · exact hf
  · cases hf

/-- A history of the world before, of which something is known, can be continued to one of the world
afterwards, of which something is known; another script may be running there. -/
structure Recalls (L : Placing) (P : List Execution → Prop) (w w' : World)
    (Q : List Execution → Prop) : Prop where
  placed : w'.Placed L → w.Placed L
  cells : w.heap.cells.size ≤ w'.heap.cells.size
  explained : w'.Placed L → w.Closed → w.active.index < w.scripts.size → ∀ {H}, w.Explained L H → P H →
    ∃ H', w'.Explained L H' ∧ Q H'

theorem Recounts.recalls (h : w.Recounts L P w' Q) : w.Recalls L P w' Q := by
  refine ⟨fun hp => hp.of_later h.later, h.precedes.cells, fun hp hclosed hactive H hH hP => ?_⟩
  obtain ⟨H', -, hH', hQ⟩ := h.explained hp hclosed hactive hH hP
  exact ⟨H', hH', hQ⟩

theorem Tells.recalls (h : w.Tells L w') (hQ : ∀ H, Q H) : w.Recalls L P w' Q :=
  Recounts.recalls (h.mono (fun _ _ => trivial) fun H _ => hQ H)

/-- Something is done for another script, which is there. -/
theorem Tells.recalls_within {id : ScriptId} (hid : id.index < w.scripts.size)
    (h : World.Tells L { w with active := id } w') (hQ : ∀ H, Q H) : w.Recalls L P w' Q := by
  have hrecalls : World.Recalls L P { w with active := id } w' Q := Tells.recalls h hQ
  refine ⟨fun hp => ⟨(hrecalls.placed hp).genuine, (hrecalls.placed hp).scoping⟩, hrecalls.cells,
    fun hp hclosed _ H hH hP => hrecalls.explained hp hclosed hid ?_ hP⟩
  exact { hH with recorded := hH.recorded.mono ⟨Nat.le_refl _, fun h => h⟩ }

end World

variable {L : Placing} {H : List Execution} {n k m : Nat} {spot between inner : Spot} {w w₁ v : World}
  {link : List (ScriptId × CoroutineId)}

/-- From a world with a history control goes on to one whose history continues it. -/
theorem Inward.recalls (h : Inward n spot w link k between w₁) :
    w.Recalls L (spot.Explained L · w) w₁ (between.Explained L · w₁) := by
  cases h with
  | next hi hheard hstep =>
    exact (Reentry.recounts_step (Reentry.telling_atDepth L _) hi hheard hstep).recalls
  | @asked _ _ _ _ w₂ _ _ _ hi hheard hcall hasks =>
    have hheard : w.Tells L w₂ := ((Reentry.aside_hear _ _).ok hheard).tells
    exact World.Tells.recalls (hheard.trans ((Reentry.telling_atDepth L _).asks_step
      (Reentry.calm_atDepth _) hcall hasks)) fun _ => trivial
  | @invoked _ _ _ argc _ w₂ w₃ span c args hi hheard hcalled hyield hdepth =>
    have hheard : w.Tells L w₂ := ((Reentry.aside_hear _ _).ok hheard).tells
    have hcalled : w₂.Tells L w₃ := ((reworking_called argc : (called argc).Steady).telling w₂).ok hcalled
    exact World.Tells.recalls (hheard.trans (hcalled.trans (w₃.tells_inside c span))) fun _ => trivial
  | nativeAsked hf hasks =>
    exact World.Tells.recalls ((Reentry.telling_atDepth L _).asks_native hasks) fun _ => trivial
  | @closure _ depth f args args' id _ w₂ _ hf henter =>
    have haside : w.Aside w₂ := (aside_resolveCallable f args).ok hf
    have hkept : w.Recounts L (fun _ => w.processor.frames.size = depth) w₂
        fun _ => w₂.processor.frames.size = depth :=
      .keep haside.tells fun _ _ _ hsize => haside.processor ▸ hsize
    exact (hkept.trans ((Reentry.recounts_enterClosure id args' none depth w₂).ok henter)).recalls
  | @callback _ _ f args _ c _ w₂ hf hyield hdepth =>
    have haside : w.Aside w₂ := (aside_resolveCallable f args).ok hf
    exact World.Tells.recalls (haside.tells.trans (w₂.tells_inside c none)) fun _ => trivial
  | call hnest => exact World.Tells.recalls (tells_nested w) fun _ => rfl
  | @start _ id c p f args _ hc hbody =>
    refine ((Reentry.recounts_resuming hc hbody).mono (fun _ _ => trivial) fun H' hexplained => ?_).recalls
    exact congrArg Array.size (hexplained.fresh rfl)
  | again hc hbody hpush =>
    exact (((Reentry.recounts_resuming hc hbody).trans (Reentry.recounts_push hc hbody hpush)).mono
      (fun _ _ => trivial) fun _ => id).recalls
  | @host _ token _ _ _ w₂ hacquire =>
    have hacquired : w.Tells L w₂ := (telling_acquire w).ok hacquire
    exact World.Tells.recalls (hacquired.trans (tells_onMain w₂ token)) fun _ => trivial
  | @enter _ token id code f _ w₂ _ hid hload htoken =>
    have hloaded : World.Tells L _ w₂ := (telling_loadString code none none _).ok hload
    exact World.Tells.recalls_within hid (hloaded.trans ((aside_newToken.telling w₂).ok htoken))
      fun _ => trivial

/-- Others cancel an execution. -/
theorem recalls_cancel {token : Nat} (h : Exec.cancel token w = .ok () w₁) :
    w.Recalls L (spot.Explained L · w) w₁ (spot.Explained L · w₁) := by
  have haside : w.Aside w₁ := (aside_cancel token).ok h
  refine World.Recounts.recalls (.keep haside.tells fun H H' hsuffix hs => ?_)
  cases spot with
  | loop depth fuel =>
    have hlexical : w.Lexical L H depth := hs
    have hprocessor := haside.processor
    have hstands : w.processor.Stands (fun _ => True) w₁.processor := .of_eq (by rw [hprocessor])
    refine hlexical.sustained hsuffix.subset haside.active (fun hlives _ _ => hlives.cancelled h) hstands
      (by rw [hprocessor]) ?_ ?_
    · intro height f f' _ _ hbecomes hf
      rw [hprocessor, hbecomes.symbols 0 trivial, hf]
    · intro height f' _ _ d hd
      rw [hprocessor] at hd
      exact .inl ⟨hd, trivial⟩
  | function depth f args =>
    have hsize : w₁.processor.frames.size = w.processor.frames.size := by rw [haside.processor]
    exact hsize.trans hs
  | request q => trivial
  | native f args caller => trivial

theorem Comes.placed (h : Comes n spot w m inner v) (hp : v.Placed L) : w.Placed L := by
  induction h with
  | here => exact hp
  | inward hfirst _ ih => exact hfirst.recalls.placed (ih hp)
  | asked hasks _ ih => exact (ih hp).of_later ((Reentry.telling_atDepth L _).asks_native hasks).later
  | @cancelled _ _ _ spot _ w w₁ _ hcancel _ ih =>
    have hrecalls : w.Recalls L (spot.Explained L · w) w₁ (spot.Explained L · w₁) := recalls_cancel hcancel
    exact hrecalls.placed (ih hp)

/-- No cell goes away. -/
theorem Comes.cells_le (h : Comes n spot w m inner v) : w.heap.cells.size ≤ v.heap.cells.size := by
  let L : Placing := fun _ _ => ⟨⟨[], []⟩, []⟩
  induction h with
  | here => exact Nat.le_refl _
  | @inward _ _ _ spot between _ w w₁ _ _ hfirst _ ih =>
    have hrecalls : w.Recalls L (spot.Explained L · w) w₁ (between.Explained L · w₁) := hfirst.recalls
    exact Nat.le_trans hrecalls.cells ih
  | asked hasks _ ih =>
    have htells := (Reentry.telling_atDepth L _).asks_native hasks
    exact Nat.le_trans htells.precedes.cells ih
  | @cancelled _ _ _ spot _ w w₁ _ hcancel _ ih =>
    have haside : w.Aside w₁ := (aside_cancel _).ok hcancel
    exact Nat.le_trans (Nat.le_of_eq (by rw [haside.cells])) ih

/-- Wherever control comes from a world with a history, there is a history, and the frames of a loop that
is under way there are explained by it. -/
theorem Comes.explained (h : Comes n spot w m inner v) (hp : v.Placed L) (hclosed : w.Closed)
    (hlive : w.Live) (hH : w.Explained L H) (hs : spot.Explained L H w) :
    ∃ H', v.Explained L H' ∧ inner.Explained L H' v := by
  induction h generalizing H with
  | here => exact ⟨H, hH, hs⟩
  | inward hfirst hrest ih =>
    have hp₁ := hrest.placed hp
    obtain ⟨H₁, hH₁, hs₁⟩ := hfirst.recalls.explained hp₁ hclosed hlive.active hH hs
    exact ih hp (hfirst.inherits.closed hp₁.genuine hclosed) (hfirst.live hlive) hH₁ hs₁
  | @asked n _ f args caller _ u _ q _ hasks hrest ih =>
    have htells := (Reentry.telling_atDepth L (n + 1)).asks_native hasks
    have hp₁ := hrest.placed hp
    obtain ⟨H₁, -, hH₁, -⟩ := htells.explained hp₁ hclosed hlive.active hH trivial
    have hcontinues := (Reentry.tidy_atDepth (n + 1)).asks hlive
      (fun r' hr' => hr'.native caller ⟨args⟩ f) hasks
    exact ih hp (htells.closed hp₁.genuine hclosed) (hcontinues.live hlive) hH₁ trivial
  | cancelled hcancel hrest ih =>
    have hp₁ := hrest.placed hp
    obtain ⟨H₁, hH₁, hs₁⟩ := (recalls_cancel hcancel).explained hp₁ hclosed hlive.active hH hs
    exact ih hp ((inherits_cancel hcancel).closed hp₁.genuine hclosed)
      (((aside_cancel _).quiet.continues hlive hcancel).live hlive) hH₁ hs₁

/-! ## Worlds of a host -/

theorem Script.Provides.telling {α : Type} {x : Exec α} (h : Provides x) : x.Telling L := by
  refine h.uniform (K := fun x => Exec.Telling L x) (fun hx => hx.telling) telling_loadString
    telling_loadDump telling_compile ?_
  refine telling_modify fun w => ?_
  have hsteady : w.Steady { w with heap := w.heap.replaceStore } :=
    .of_eq rfl rfl rfl rfl (Nat.le_refl _) rfl rfl
  exact hsteady.tells

theorem Reentry.telling_perform (L : Placing) (n : Nat) (q : Request) :
    ((atDepth n).perform q).Telling L := by
  have hr := telling_atDepth L n
  cases q with
  | call f args => exact telling_callFunction hr f args
  | resume id args => exact telling_resumeCoroutine hr id args
  | enter id code => exact telling_enterScript hr id code
  | host token f args => exact telling_callScript hr token f args

namespace World

variable {w w' : World} {s : Script}

theorem Tells.of_returns {α : Type} {x : Exec α} (hx : x.Telling L) (h : x.Returns w w') : w.Tells L w' := by
  rcases h with ⟨a, ha⟩ | ⟨e, he⟩
  · exact (hx w).ok ha
  · exact (hx w).error he

/-- A new script has an idle processor, and nothing of what it brings along has to do with variables. -/
theorem Explained.createScript {options : ScriptOptions} {id : ScriptId}
    (h : Script.create options w = .ok id w') (hH : w.Explained L H) : w'.Explained L H := by
  obtain ⟨s, c, -, hs, hc, hinstall⟩ := createScript_ok h
  refine (((Library.aside_install s.globals).ok hinstall).reworks : World.Steady _ w').explained ?_
  refine hH.grow (fun _ h => h) (hH.recorded.mono ⟨Nat.le_refl _, fun h => h⟩) (Nat.le_refl _)
    (fun _ => .inl) (fun c' hc' body hbody => ?_) (fun s' hs' => ?_) hH.processor
  · rcases Array.mem_push.1 hc' with hc' | rfl
    · exact .inl ⟨c', hc', rfl, hbody⟩
    · cases hc.symm.trans hbody
  · rcases Array.mem_push.1 hs' with hs' | rfl
    · exact .inl ⟨s', hs', rfl⟩
    · exact .inr (Processor.below_of_empty (by rw [hs]))

theorem Placed.of_createScript {options : ScriptOptions} {id : ScriptId}
    (h : Script.create options w = .ok id w') (hp : w'.Placed L) : w.Placed L := by
  obtain ⟨s, c, -, -, -, hinstall⟩ := createScript_ok h
  have htells : Tells L _ w' := ((Library.aside_install s.globals).ok hinstall).tells
  have hpushed := hp.of_later htells.later
  refine ⟨genuine_of_push (s := s) hpushed.genuine, fun i s' hs' => hpushed.scoping i s' ?_⟩
  have hlt := (Array.getElem?_eq_some_iff.1 hs').1
  change (w.scripts.push s)[i]? = some s'
  rw [Array.getElem?_push, if_neg (Nat.ne_of_lt hlt), hs']

/-- Every world of a host has a history. -/
theorem Hosted.explained (h : w.Hosted) (hp : w.Placed L) : ∃ H, w.Explained L H := by
  induction h with
  | empty hheap hscripts hprocessor =>
    refine ⟨[], .nil, fun c hc => ?_, fun c hc => ?_, fun s hs => ?_, ?_⟩
    · rw [hheap] at hc
      exact absurd hc (Array.not_mem_empty _)
    · rw [hheap] at hc
      exact absurd hc (Array.not_mem_empty _)
    · rw [hscripts] at hs
      exact absurd hs (Array.not_mem_empty _)
    · exact Processor.below_of_empty (by rw [hprocessor])
  | script _ hcreate ih =>
    obtain ⟨H, hH⟩ := ih (hp.of_createScript hcreate)
    exact ⟨H, hH.createScript hcreate⟩
  | @coroutine w _ f _ h hactive hcreate ih =>
    have htells := ((uniform_telling L).create f w).ok hcreate
    have hp₀ := hp.of_later htells.later
    obtain ⟨H, hH⟩ := ih hp₀
    obtain ⟨H', -, hH', -⟩ := htells.explained hp (h.sane hp₀.genuine).closed hactive hH trivial
    exact ⟨H', hH'⟩
  | provides h hactive hx hreturns ih =>
    have htells := Tells.of_returns (L := L) hx.telling hreturns
    have hp₀ := hp.of_later htells.later
    obtain ⟨H, hH⟩ := ih hp₀
    obtain ⟨H', -, hH', -⟩ := htells.explained hp (h.sane hp₀.genuine).closed hactive hH trivial
    exact ⟨H', hH'⟩
  | @request _ _ n q h hactive hreturns ih =>
    have htells := Tells.of_returns (Reentry.telling_perform L n q) hreturns
    have hp₀ := hp.of_later htells.later
    obtain ⟨H, hH⟩ := ih hp₀
    obtain ⟨H', -, hH', -⟩ := htells.explained hp (h.sane hp₀.genuine).closed hactive hH trivial
    exact ⟨H', hH'⟩
  | @settings w w' h hheap hprocessor hscripts ih =>
    have hget : ∀ i : Nat, w'.scripts[i]?.map (fun s => (s.code, s.processor, s.running)) =
        w.scripts[i]?.map fun s => (s.code, s.processor, s.running) := by
      intro i
      rw [← Array.getElem?_map, hscripts, Array.getElem?_map]
    have hp₀ : w.Placed L := by
      have hcode : ∀ (i : Nat) (s : Script), w.scripts[i]? = some s →
          ∃ s', w'.scripts[i]? = some s' ∧ s'.code = s.code := by
        intro i s hs
        have hi := hget i
        rw [hs] at hi
        obtain ⟨s', hs', heq⟩ := Option.map_eq_some_iff.1 hi
        exact ⟨s', hs', congrArg (·.1) heq⟩
      refine ⟨fun i s hs => ?_, fun i s hs => ?_⟩
      · obtain ⟨s', hs', heq⟩ := hcode i s hs
        exact heq ▸ hp.genuine i s' hs'
      · obtain ⟨s', hs', heq⟩ := hcode i s hs
        exact heq ▸ hp.scoping i s' hs'
    obtain ⟨H, hH⟩ := ih hp₀
    have hcells : w.heap.cells.size ≤ w'.heap.cells.size := Nat.le_of_eq (by rw [hheap])
    refine ⟨H, hH.grow (fun _ h => h) (hH.recorded.mono ⟨hcells, fun hc => hheap ▸ hc⟩) hcells
      (fun c hc => .inl (hheap ▸ hc)) (fun c hc body hbody => .inl ⟨c, hheap ▸ hc, rfl, hbody⟩)
      (fun s' hs' => .inl ?_) ?_⟩
    · obtain ⟨i, hi⟩ := Array.getElem?_of_mem hs'
      have hmap := hget i
      rw [hi] at hmap
      obtain ⟨s, hs, heq⟩ := Option.map_eq_some_iff.1 hmap.symm
      exact ⟨s, Array.mem_of_getElem? hs, congrArg (·.2.1) heq⟩
    · rw [hprocessor]
      exact hH.processor.mono hcells

end World

end LuaMachine
