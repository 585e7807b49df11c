import LuaMachine.Proofs.Semantics.Chunk
import LuaMachine.Proofs.Cancellation.Propagation

/-!
# Readers that go on for ever

`load` asks a reader for pieces until it gives an empty one or none. The loop is a native one and has no
safepoint, and a reader without calls and loops comes to none either. So a reader that always gives
the same piece keeps `load` busy for ever, and no cancellation ends it.

Main statement: `Library.load_endless`.
-/

namespace LuaMachine

open Exec

/-- A function of the running script does nothing but to return a text, and it can be called. -/
structure World.Recites (w : World) (id : ClosureId) (piece : String) : Prop where
  closure : ∃ c, w.heap.closure? id = some c ∧ c.owner = w.active ∧
    (∃ name kind size, w.ops c.entry = some (.header name kind size)) ∧
    w.ops (c.entry + 1) = some (.beginFn []) ∧ w.ops (c.entry + 2) = some (.args 0 false) ∧
    w.ops (c.entry + 3) = some (.literal (.string piece)) ∧ w.ops (c.entry + 4) = some (.ret 1)
  unattended : (w.scripts.getD w.active.index default).debug.debugger = none
  nest : w.MayNest
  depth : w.processor.frames.size <
    (w.scripts.getD w.active.index default).options.callStackLimit

namespace Reentry

variable {w : World} {id : ClosureId} {piece : String}

/-- The world with a value on the stack. -/
def withValue (w : World) (v : Value) : World :=
  { w with processor := { w.processor with values := w.processor.values.push v } }

/-- A function that only returns a text is run to its end, and leaves the world as it was but for the
place that the processor is at. -/
theorem run_recites (r : Reentry) {c : Closure} {name : String} {kind : HeaderKind} {size : Nat}
    (k : Nat) (hw : (w.scripts.getD w.active.index default).debug.debugger = none)
    (hheader : w.ops c.entry = some (.header name kind size))
    (hbegin : w.ops (c.entry + 1) = some (.beginFn []))
    (hargs : w.ops (c.entry + 2) = some (.args 0 false))
    (hliteral : w.ops (c.entry + 3) = some (.literal (.string piece)))
    (hret : w.ops (c.entry + 4) = some (.ret 1)) :
    r.run w.processor.frames.size (4 + (k + 1)) (w.inFrame (entryFrame w c []) c.entry) =
      .ok (.returned (.string piece))
        { w with processor := { w.processor with ip := c.entry + 4 } } := by
  have hmodify : ∀ {f : ScriptFrame → ScriptFrame} {frame : ScriptFrame} {ip : Nat},
      (topFrame >>= fun _ => modifyTopFrame f) (w.inFrame frame ip) =
        .ok () (w.inFrame (f frame) ip) :=
    (bind_ok (topFrameOr_inFrame _)).trans (modifyTopFrame_inFrame _)
  have hbind : ∀ {frame : ScriptFrame} {ip : Nat}, bindArguments 0 false (w.inFrame frame ip) =
      .ok () (w.inFrame { frame with pending := [] } ip) := by
    intro frame ip
    unfold bindArguments topFrame
    refine (bind_ok (topFrameOr_inFrame _)).trans ((bind_ok (modifyTopFrame_inFrame _)).trans ?_)
    rw [List.take_zero]
    rfl
  have hpush : ∀ {frame : ScriptFrame} {ip : Nat}, push (.string piece) (w.inFrame frame ip) =
      .ok () ((withValue w (.string piece)).inFrame frame ip) := rfl
  let frame : ScriptFrame := { entryFrame w c [] with locals := #[], pending := [] }
  let u := (withValue w (.string piece)).inFrame frame (c.entry + 4)
  have hpass : r.Passes w.processor.frames.size 4 (w.inFrame (entryFrame w c []) c.entry) u :=
    (((passes_inFrame r _ (x := pure ()) hw hheader (fun _ => rfl) rfl).trans
      (passes_inFrame r _ hw hbegin (fun _ => rfl) hmodify)).trans
        (passes_inFrame r _ hw hargs (fun _ => rfl) hbind)).trans
          (passes_inFrame r _ hw hliteral (fun _ => rfl) hpush)
  have hleave : leaveFrame w.processor.frames.size 1 u = .ok (some (.returned (.string piece)))
      { w with processor := { w.processor with ip := c.entry + 4 } } := by
    have hpop : pop u = .ok (.string piece) (w.inFrame frame (c.entry + 4)) := by
      simp [pop, u, World.inFrame, withValue]
    have hback : (w.inFrame frame (c.entry + 4)).processor.frames.back? = some (.script frame) := by
      simp [World.inFrame]
    have hframes : ∀ f, (w.processor.frames.push f).pop = w.processor.frames := by simp
    have hvalues : w.processor.values.shrink w.processor.values.size = w.processor.values := by
      rw [← Array.toList_inj, Array.toList_shrink, ← Array.length_toList, List.take_length]
    unfold leaveFrame
    refine (bind_ok hpop).trans ((bind_ok (processor_eq _)).trans ?_)
    simp only [hback]
    change EStateM.Result.ok _ _ = _
    simp only [World.inFrame, hframes, Frame.base, frame, entryFrame, hvalues]
  rw [hpass.run_eq]
  exact run_last (w := u) hw hret fun _ => hleave

/-- A call of a function that only returns a text leaves the world as it was. -/
theorem call_recites (n : Nat) (h : w.Recites id piece) :
    (atDepth (n + 1)).call (.function id) [] w = .ok (.string piece) w := by
  obtain ⟨c, hclosure, howner, ⟨name, kind, size, hheader⟩, hbegin, hargs, hliteral, hret⟩ := h.closure
  obtain ⟨s, hs, -⟩ := World.exists_script_of_ops hheader
  have hscript : w.scripts.getD w.active.index default = s := by
    simp [Array.getD_eq_getD_getElem?, hs]
  have hnested : w.nested.scripts.getD w.nested.active.index default =
      { s with nesting := s.nesting + 1 } := by
    simp [World.nested, Array.getD_eq_getD_getElem?, Array.getElem?_modify, hs]
  have hunattended := h.unattended
  have hdepth := h.depth
  rw [hscript] at hunattended hdepth
  have hops : w.nested.ops = w.ops := by
    unfold World.ops
    rw [hnested, hscript]
  have henter : enterClosure id [] none none w.nested =
      .ok () (w.nested.inFrame (entryFrame w.nested c []) c.entry) := by
    have hroom : checkDepth w.nested = .ok () w.nested := World.checkDepth_eq (by rw [hnested]; exact hdepth)
    have hfound : w.nested.heap.closure? id = some c := hclosure
    have howner : ¬(c.owner != w.nested.active) = true := by
      rw [howner]
      simp [World.nested]
    unfold enterClosure
    rw [bind_ok (get_eq _), hfound]
    dsimp only
    rw [if_neg howner]
    exact bind_ok hroom
  have hrun : (atDepth n).run w.processor.frames.size stepLimit
      (w.nested.inFrame (entryFrame w.nested c []) c.entry) = .ok (.returned (.string piece))
        { w.nested with processor := { w.processor with ip := c.entry + 4 } } := by
    have hlimit : stepLimit = 4 + (stepLimit - 5 + 1) := rfl
    rw [hlimit]
    exact run_recites (w := w.nested) (atDepth n) _ (by rw [hnested]; exact hunattended)
      (hops ▸ hheader) (hops ▸ hbegin) (hops ▸ hargs) (hops ▸ hliteral) (hops ▸ hret)
  have hcall := callFunction_ok h.nest henter hrun
  exact hcall.trans (congrArg (EStateM.Result.ok (Value.string piece)) (unnested_nested w))

end Reentry

namespace Library

open Reentry

variable {w : World} {id : ClosureId} {piece : String}

/-- However many pieces are read, the reader has another one. -/
theorem readPieces_recites (n : Nat) (h : w.Recites id piece) (hpiece : piece ≠ "") (fuel : Nat)
    (text : String) :
    readPieces (atDepth (n + 1)) (.function id) fuel text w = .error .exhausted w := by
  induction fuel generalizing text with
  | zero => rfl
  | succ fuel ih =>
    have hcall : (atDepth (n + 1)).call (.function id) [] w = .ok (.string piece) w :=
      call_recites n h
    unfold readPieces
    rw [bind_ok hcall]
    have hnonempty : piece.isEmpty = false := by simpa using hpiece
    dsimp only [Value.scalar]
    rw [hnonempty]
    exact ih _

/-- `load` never returns if its reader always gives the same piece: whatever the bound on the pieces
is, it is reached. The execution may have been cancelled or not. -/
theorem load_endless (n : Nat) (h : w.Recites id piece) (hpiece : piece ≠ "") (caller : Option Span) :
    (∀ fuel text, readPieces (atDepth (n + 1)) (.function id) fuel text w = .error .exhausted w) ∧
      Native.run (atDepth (n + 1)) caller ⟨[.function id]⟩ (.builtin .load) w =
        .error .exhausted w := by
  have hread := readPieces_recites n h hpiece
  refine ⟨hread, ?_⟩
  exact bind_error (hread stepLimit "")

/-- What is checked of a source text: the function at an address only returns a piece. -/
def recitesAt (source : String) (entry : Nat) (piece : String) : Bool :=
  match Segment.empty.compile { chunk := "c", source := 0 } source with
  | .ok (_, code) =>
    match code.ops entry, code.ops (entry + 1), code.ops (entry + 2), code.ops (entry + 3),
      code.ops (entry + 4) with
    | some (.header ..), some (.beginFn []), some (.args 0 false), some (.literal (.string s)),
      some (.ret 1) => s == piece
    | _, _, _, _, _ => false
  | .error _ => false

/-- In an execution that was cancelled, `load` asks such a reader for ever. -/
theorem load_endless_cancelled : ∃ w : World, w.cancelled.getD w.token false = true ∧
    w.Recites ⟨0⟩ "-" ∧ Native.run (atDepth 1) none ⟨[.function ⟨0⟩]⟩ (.builtin .load) w =
      .error .exhausted w := by
  have hcheck : recitesAt "return function() return '-' end" 4 "-" = true := by decide +kernel
  unfold recitesAt at hcheck
  split at hcheck
  · next chunk code hcompile =>
    split at hcheck
    · next name kind size s hheader hbegin hargs hliteral hret =>
      obtain rfl : s = "-" := by simpa using hcheck
      let w : World := { soleFunction 4 code with cancelled := #[true] }
      have hrecites : w.Recites ⟨0⟩ "-" :=
        ⟨⟨_, rfl, rfl, ⟨name, kind, size, hheader⟩, hbegin, hargs, hliteral, hret⟩, rfl,
          Nat.zero_lt_succ _, Nat.zero_lt_succ _⟩
      exact ⟨w, rfl, hrecites, (load_endless 0 hrecites (by decide) none).2⟩
    · cases hcheck
  · cases hcheck

end Library

end LuaMachine
