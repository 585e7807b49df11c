import LuaMachine.Proofs.Machine.Transparency
import LuaMachine.Proofs.Semantics.Generated
import LuaMachine.Proofs.Semantics.Simulation

/-!
# Plain chunks mean what they say

A chunk that calls nothing is compiled to code that does what the tree of the chunk means. Main
statement: `Reentry.run_chunk_iff`. The run of the chunk returns some values just if the semantics
gives them, it fails with a message just if the semantics gives a fault with that message, and it
goes on for ever just if the semantics needs more passes than any bound allows.
-/

namespace LuaMachine

open Exec

/-! ## Entering a chunk -/

/-- The world inside one more frame, at an address. -/
def World.inFrame (w : World) (frame : ScriptFrame) (ip : Nat) : World :=
  { w with processor := { w.processor with frames := w.processor.frames.push (.script frame), ip } }

/-- A world in which the code of a plain chunk can run: no debugger may hold it, and its execution has
not been cancelled. -/
structure World.Undisturbed (w : World) : Prop where
  unattended : (w.scripts.getD w.active.index default).debug.debugger = none
  uncancelled : w.cancelled.getD w.token false = false

namespace Setting

/-- The setting of a chunk that was entered by the host, behind the start of its function. -/
def ofEntry (r : Reentry) (w : World) (h : w.Undisturbed) (closure : Closure) (args : List Value)
    (names : List String) : Setting where
  reentry := r
  depth := w.processor.frames.size
  world := w
  frame := { closure, base := w.processor.values.size, returnAddress := none, symbols := names
             varargs := args, callSite := none }
  frames := w.processor.frames
  values := w.processor.values
  cells := w.heap.cells
  base := rfl
  returnAddress := rfl
  unattended := h.unattended
  uncancelled := h.uncancelled

variable {g : Setting} {n : Nat} {w : World} {body : Block}

/-- What comes of a chunk. A chunk that comes to its end returns nothing. -/
theorem outcome_of_meets {a : Nat} {slots : Slots} {vis' : Visible} {slot' : Nat}
    (hret : g.code a = some (.ret 0))
    (h : g.Meets n (g.Behind 0 slots [] [] a vis' slot') (g.Broken none 0 slots [] []) w
      (Block.execute n body [] [])) :
    match body.evaluate n with
    | some (.returned ds) => g.Returns w ds
    | some (.failed f) => g.Fails w f
    | none => ∃ k w', n ≤ k ∧ g.Passes k w w' := by
  unfold Block.evaluate
  cases hc : Block.execute n body [] [] with
  | normal ρ σ =>
    rw [hc] at h
    obtain ⟨k, w', hpass, slots', rfl, -, -⟩ := h
    exact Returns.after hpass (returns_nothing hret)
  | broke σ =>
    -- no loop is left outside of a loop
    rw [hc] at h
    obtain ⟨k, w', -, t, slots', ht, -⟩ := h
    cases ht
  | returned ds =>
    rw [hc] at h
    exact h
  | failed f =>
    rw [hc] at h
    exact h
  | unfinished =>
    rw [hc] at h
    exact h

end Setting

namespace Reentry

variable {r : Reentry} {w w' w₁ : World} {id : ClosureId} {closure : Closure} {args : List Value}
  {frame frame' : ScriptFrame} {ip : Nat} {op : OpCode}

/-- The frame of a function that the host called. -/
def entryFrame (w : World) (closure : Closure) (args : List Value) : ScriptFrame :=
  { closure, base := w.processor.values.size, returnAddress := none, pending := args
    callSite := none }

/-- The world in which the code of a function starts that the host called. -/
theorem enterClosure_ok (hclosure : w.heap.closure? id = some closure)
    (henter : enterClosure id args none none w = .ok () w₁) :
    w₁ = w.inFrame (entryFrame w closure args) closure.entry := by
  unfold enterClosure at henter
  rw [bind_ok (get_eq _), hclosure] at henter
  dsimp only at henter
  by_cases howner : (closure.owner != w.active) = true
  · rw [if_pos howner] at henter
    cases henter
  · rw [if_neg howner] at henter
    change (checkDepth >>= fun _ => _) w = _ at henter
    cases hdepth : checkDepth w with
    | error s w' =>
      rw [bind_error hdepth] at henter
      cases henter
    | ok u w' =>
      rw [bind_ok hdepth] at henter
      obtain rfl := checkDepth_ok hdepth
      cases henter
      rfl

theorem topFrameOr_inFrame (missing : Fault) :
    topFrameOr missing (w.inFrame frame ip) = .ok frame (w.inFrame frame ip) := by
  simp [topFrameOr, World.inFrame]

theorem modifyTopFrame_inFrame (f : ScriptFrame → ScriptFrame) :
    modifyTopFrame f (w.inFrame frame ip) = .ok () (w.inFrame (f frame) ip) := by
  show EStateM.Result.ok () _ = _
  simp only [World.inFrame, Setting.modify_push]

theorem bindArguments_inFrame :
    bindArguments 0 true (w.inFrame frame ip) =
      .ok () (w.inFrame { frame with pending := [], varargs := frame.pending } ip) := by
  unfold bindArguments topFrame
  refine (bind_ok (topFrameOr_inFrame _)).trans ((bind_ok (modifyTopFrame_inFrame _)).trans ?_)
  rw [List.take_zero]
  exact modifyTopFrame_inFrame _

/-- An instruction of a function that only does something and goes on. -/
theorem passes_inFrame (r : Reentry) (depth : Nat) {x : Exec Unit}
    (hw : (w.scripts.getD w.active.index default).debug.debugger = none) (hop : w.ops ip = some op)
    (hx : ∀ span, r.step depth ⟨op, span⟩ = (do x; advance; return none))
    (h : x (w.inFrame frame ip) = .ok () (w'.inFrame frame' ip)) :
    r.Passes depth 1 (w.inFrame frame ip) (w'.inFrame frame' (ip + 1)) := by
  refine .one (w := w.inFrame frame ip) hw hop fun span => ?_
  rw [hx, bind_ok h]
  rfl

/-- The start of the function of a chunk: its slots are empty, and the arguments are kept for
`...`. -/
theorem passes_start (hw : w.Undisturbed) (args : List Value) {name : String} {kind : HeaderKind}
    {size : Nat} {names : List String}
    (hheader : w.ops closure.entry = some (.header name kind size))
    (hbegin : w.ops (closure.entry + 1) = some (.beginFn names))
    (hargs : w.ops (closure.entry + 2) = some (.args 0 true)) :
    r.Passes w.processor.frames.size 3 (w.inFrame (entryFrame w closure args) closure.entry)
      ((Setting.ofEntry r w hw closure args names).state [] (Array.replicate names.length none) []
        (closure.entry + 3)) := by
  let start := entryFrame w closure args
  let begun := { start with locals := Array.replicate names.length none, symbols := names }
  have hbegun : (topFrame >>= fun _ => modifyTopFrame fun f =>
      { f with locals := Array.replicate names.length none, symbols := names })
      (w.inFrame start (closure.entry + 1)) = .ok () (w.inFrame begun (closure.entry + 1)) :=
    (bind_ok (topFrameOr_inFrame _)).trans (modifyTopFrame_inFrame _)
  have hbound : bindArguments 0 true (w.inFrame begun (closure.entry + 2)) = .ok () _ :=
    bindArguments_inFrame
  have h₁ : r.Passes w.processor.frames.size 1 (w.inFrame start closure.entry) _ :=
    passes_inFrame r _ (x := pure ()) hw.unattended hheader (fun _ => rfl) rfl
  have h₂ := passes_inFrame r w.processor.frames.size hw.unattended hbegin (fun _ => rfl) hbegun
  have h₃ := passes_inFrame r w.processor.frames.size hw.unattended hargs (fun _ => rfl) hbound
  have hstate : (Setting.ofEntry r w hw closure args names).state []
      (Array.replicate names.length none) [] (closure.entry + 3) =
        w.inFrame { begun with pending := [], varargs := args } (closure.entry + 3) := by
    unfold Setting.state Setting.ofEntry
    simp only [List.map_nil, Array.append_empty]
    rfl
  rw [hstate]
  exact (h₁.trans h₂).trans h₃

/-! ## What comes of a chunk -/

/-- Data are known by the values that they are returned as. -/
theorem ofList_toValue_inj {ds ds' : List Datum}
    (h : Value.ofList (ds.map Datum.toValue) = Value.ofList (ds'.map Datum.toValue)) : ds = ds' := by
  have htuple : ∀ (d : Datum) (vs : List Value), d.toValue ≠ .tuple vs := by
    intro d vs hd
    cases d <;> cases hd
  have hinj : Function.Injective Datum.toValue := by
    intro d d' hd
    cases d <;> cases d' <;> cases hd <;> rfl
  rcases ds with _ | ⟨d, _ | ⟨e, ds⟩⟩ <;> rcases ds' with _ | ⟨d', _ | ⟨e', ds'⟩⟩
  · rfl
  · exact absurd h.symm (htuple d' _)
  · cases h
  · exact absurd h (htuple d _)
  · exact congrArg (fun d => [d]) (hinj h)
  · exact absurd h (htuple d _)
  · cases h
  · exact absurd h.symm (htuple d' _)
  · exact List.map_injective_iff.2 hinj (Value.tuple.inj h)

variable {g : Setting} {body : Block} {depth : Nat}

/-- The semantics decides what comes of the code of a chunk. -/
theorem run_iff_of_outcome {run : Nat → EStateM.Result Stop World Exit}
    (hover : ∀ {k m}, (∀ w', run k ≠ .error .exhausted w') → (∀ w', run m ≠ .error .exhausted w') →
      run k = run m)
    (hreturned : ∀ {n ds}, body.evaluate n = some (.returned ds) →
      ∃ k w', run k = .ok (.returned (.ofList (ds.map Datum.toValue))) w')
    (hfailed : ∀ {n f}, body.evaluate n = some (.failed f) →
      ∃ k e w', run k = .error (.error (.runtime e)) w' ∧ e.message = f.message)
    (hnone : ∀ {n}, body.evaluate n = none → ∀ k ≤ n, ∃ w', run k = .error .exhausted w') :
    (∀ ds, (∃ n, body.evaluate n = some (.returned ds)) ↔
      ∃ k w', run k = .ok (.returned (.ofList (ds.map Datum.toValue))) w') ∧
    (∀ message, (∃ n f, body.evaluate n = some (.failed f) ∧ f.message = message) ↔
      ∃ k e w', run k = .error (.error (.runtime e)) w' ∧ e.message = message) ∧
    ((∃ n, (body.evaluate n).isSome) ↔ ∃ k, ∀ w', run k ≠ .error .exhausted w') := by
  -- a run that is over has an outcome, and it is the one of the semantics
  have hthere : ∀ k, (∀ w', run k ≠ .error .exhausted w') →
      (∃ ds, body.evaluate k = some (.returned ds) ∧
        ∃ w', run k = .ok (.returned (.ofList (ds.map Datum.toValue))) w') ∨
      (∃ f, body.evaluate k = some (.failed f) ∧
        ∃ e w', run k = .error (.error (.runtime e)) w' ∧ e.message = f.message) := by
    intro k hk
    cases hout : body.evaluate k with
    | none =>
      obtain ⟨w', hw'⟩ := hnone hout k (Nat.le_refl k)
      exact absurd hw' (hk w')
    | some out =>
      cases out with
      | returned ds =>
        obtain ⟨m, w', hm⟩ := hreturned hout
        refine .inl ⟨ds, rfl, w', ?_⟩
        rw [hover hk (m := m) fun _ h => by rw [hm] at h; cases h]
        exact hm
      | failed f =>
        obtain ⟨m, e, w', hm, hmessage⟩ := hfailed hout
        refine .inr ⟨f, rfl, e, w', ?_, hmessage⟩
        rw [hover hk (m := m) fun _ h => by rw [hm] at h; cases h]
        exact hm
  refine ⟨fun ds => ⟨fun ⟨n, hn⟩ => hreturned hn, ?_⟩, fun message => ⟨?_, ?_⟩, ?_, ?_⟩
  · rintro ⟨k, w', hk⟩
    rcases hthere k (fun _ h => by rw [hk] at h; cases h) with
      ⟨ds', hout, w'', hk'⟩ | ⟨f, -, e, w'', hk', -⟩
    · rw [hk] at hk'
      injection hk' with hexit
      injection hexit with hvalue
      obtain rfl := ofList_toValue_inj hvalue
      exact ⟨k, hout⟩
    · rw [hk] at hk'
      cases hk'
  · rintro ⟨n, f, hn, rfl⟩
    exact hfailed hn
  · rintro ⟨k, e, w', hk, rfl⟩
    rcases hthere k (fun _ h => by rw [hk] at h; cases h) with
      ⟨ds', -, w'', hk'⟩ | ⟨f, hout, e', w'', hk', hmessage⟩
    · rw [hk] at hk'
      cases hk'
    · rw [hk] at hk'
      cases hk'
      exact ⟨k, f, hout, hmessage.symm⟩
  · rintro ⟨n, hn⟩
    obtain ⟨out, hout⟩ := Option.isSome_iff_exists.1 hn
    cases out with
    | returned ds =>
      obtain ⟨k, w', hk⟩ := hreturned hout
      exact ⟨k, fun _ h => by rw [hk] at h; cases h⟩
    | failed f =>
      obtain ⟨k, e, w', hk, -⟩ := hfailed hout
      exact ⟨k, fun _ h => by rw [hk] at h; cases h⟩
  · rintro ⟨k, hk⟩
    rcases hthere k hk with ⟨ds, hout, -⟩ | ⟨f, hout, -⟩
    · exact ⟨k, by rw [hout]; rfl⟩
    · exact ⟨k, by rw [hout]; rfl⟩

/-- The code of a plain chunk does what the chunk means. Once the chunk is entered, its run returns
some values just if the semantics does, fails with a message just if the semantics gives a fault with
that message, and ends just if the semantics does. Later loads may have added code, and `n` bounds the
passes of loops as `k` does the instructions of the run. -/
theorem run_chunk_iff {s s' : Segment} {options : CompileOptions} {source : String}
    {chunk : CompiledChunk} (hcompile : s.compile options source = .ok (chunk, s'))
    (hparse : Block.parse options.chunk source = .ok body) (hplain : Block.Plain [] body)
    (hcode : ∀ x op, s'.ops x = some op → w.ops x = some op) (hw : w.Undisturbed)
    (hclosure : w.heap.closure? id = some closure) (hentry : closure.entry = chunk.entry)
    (henter : enterClosure id args none none w = .ok () w₁) (r : Reentry) :
    let run := fun k => r.run w.processor.frames.size k w₁
    r.enterFunction w.processor.frames.size (.function id) args w = run stepLimit ∧
    (∀ ds, (∃ n, body.evaluate n = some (.returned ds)) ↔
      ∃ k w', run k = .ok (.returned (.ofList (ds.map Datum.toValue))) w') ∧
    (∀ message, (∃ n f, body.evaluate n = some (.failed f) ∧ f.message = message) ↔
      ∃ k e w', run k = .error (.error (.runtime e)) w' ∧ e.message = message) ∧
    ((∃ n, (body.evaluate n).isSome) ↔ ∃ k, ∀ w', run k ≠ .error .exhausted w') := by
  obtain ⟨name, kind, size, names, b, vis, hheader, hbegin, hargs, hbody, hret⟩ :=
    Segment.chunkAt_compile hcompile hparse hplain hcode
  rw [← hentry] at hheader hbegin hargs hbody
  let g := Setting.ofEntry r w hw closure args names
  have hstart : g.Passes 3 w₁
      (g.state [] (Array.replicate names.length none) [] (closure.entry + 3)) := by
    rw [enterClosure_ok hclosure henter]
    exact passes_start hw args hheader hbegin hargs
  have hmatches : g.Matches (Array.replicate names.length none) [] 0 [] [] := .nil
  have houtcome := fun n =>
    Setting.outcome_of_meets (g := g) hret (Setting.runs_block (n := n) body hbody hmatches)
  refine ⟨enterFunction_function henter, run_iff_of_outcome ?_ ?_ ?_ ?_⟩
  · exact fun hk hm => run_eq_of_over hk hm
  · intro n ds hout
    have h := houtcome n
    rw [hout] at h
    exact Setting.Returns.after hstart h
  · intro n f hout
    have h := houtcome n
    rw [hout] at h
    exact Setting.Fails.after hstart h
  · intro n hout k hk
    have h := houtcome n
    rw [hout] at h
    obtain ⟨m, w', hle, hpass⟩ := h
    exact Passes.run_exhausted (hstart.trans hpass) (by omega)

/-- What is checked of a plain source text: in a script of its own it is compiled to a function that
can be entered, and the semantics gives an outcome within `n` passes of each loop. -/
def evaluatesTo (source : String) (n : Nat) (out : ChunkOutcome) : Bool :=
  match Segment.empty.compile { chunk := "c", source := 0 } source, Block.parse "c" source with
  | .ok (chunk, code), .ok body =>
    decide (Block.Plain [] body) && body.evaluate n == some out &&
      match enterClosure ⟨0⟩ [] none none (soleFunction chunk.entry code) with
      | .ok _ _ => true
      | .error _ _ => false
  | _, _ => false

/-- A text with a loop, whose condition sees a variable of its body. -/
def loopSource : String :=
  "local s, n = 'a' repeat local t = s .. 'b' s = t until t == 'abb' return s, n"

theorem run_chunk_iff_loop : ∃ (w w₁ w' : World) (body : Block) (k : Nat),
    Block.parse "c" loopSource = .ok body ∧ Block.Plain [] body ∧
    enterClosure ⟨0⟩ [] none none w = .ok () w₁ ∧
    (atDepth 1).run w.processor.frames.size k w₁ =
      .ok (.returned (.tuple [.string "abb", .nil])) w' := by
  have hcheck : evaluatesTo loopSource 2 (.returned [.string "abb", .nil]) = true := by
    decide +kernel
  unfold evaluatesTo at hcheck
  split at hcheck
  · next chunk code body hcompile hparse =>
    simp only [Bool.and_eq_true, decide_eq_true_eq, beq_iff_eq] at hcheck
    obtain ⟨⟨hplain, hout⟩, hentered⟩ := hcheck
    split at hentered
    · next u w₁ henter =>
      have hclosure : (soleFunction chunk.entry code).heap.closure? ⟨0⟩ =
          some ⟨⟨0⟩, chunk.entry, #[]⟩ := rfl
      have hcode : ∀ x op, code.ops x = some op → (soleFunction chunk.entry code).ops x = some op :=
        fun _ _ h => h
      have hrun := run_chunk_iff hcompile hparse hplain hcode ⟨rfl, rfl⟩ hclosure rfl henter
        (atDepth 1)
      obtain ⟨k, w', hk⟩ := (hrun.2.1 [.string "abb", .nil]).1 ⟨2, hout⟩
      exact ⟨_, w₁, w', body, k, hparse, hplain, henter, hk⟩
    · cases hentered
  · cases hcheck

end Reentry

end LuaMachine
