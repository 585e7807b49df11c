import LuaMachine.Proofs.Debug.Listening
import LuaMachine.Proofs.Machine.Keeping
import LuaMachine.Proofs.Machine.Uniform

/-!
# Operators and native functions leave the processor alone

Operators, host objects, the library and loading work on the processor only by calling back into the
machine. If the ways into the machine are calm (`Reentry.Calm`), so are all of these
(`Reentry.Calm.alike`): what happens aside is calm, and so are sequences, handlers, and the making of
functions and coroutines.
-/

namespace LuaMachine

open Exec

/-! ## Loading -/

namespace Exec

theorem keeps_loaded {w : World} {entry : Nat} (hasEnv : Bool) (env : Option TableId)
    (hentry : ∀ s : Script, w.scripts[w.active.index]? = some s → s.code.HasHeader entry)
    (p : Processor) :
    (loaded entry hasEnv env).Keeps w (w.processor = p) (fun _ w' => w'.processor = p)
      (fun w' => w'.processor = p) := by
  cases hasEnv with
  | true =>
    have hcell : w.Follows { w with heap := w.heap.addCell (.table (env.getD
        (w.scripts.getD w.active.index default).globals)) } :=
      World.follows_of_eq rfl
    exact .of_ok rfl (hcell.trans (World.follows_addClosure rfl fun _ => hentry)) id
  | false => exact .of_ok rfl (World.follows_addClosure rfl fun _ => hentry) id

/-- New code in the running script, and the function it starts with. -/
theorem keeps_addSource {w : World} {segment : Segment} {source : SourceText} {entry : Nat}
    (hasEnv : Bool) (env : Option TableId)
    (hgrows : (w.scripts.getD w.active.index default).code.Grows segment)
    (hentry : segment.HasHeader entry) (p : Processor) :
    (modifyScript (·.addSource segment source) >>= fun _ => loaded entry hasEnv env).Keeps w
      (w.processor = p) (fun _ w' => w'.processor = p) (fun w' => w'.processor = p) := by
  have hfollows : w.Follows
      { w with scripts := w.scripts.modify w.active.index (·.addSource segment source) } := by
    refine World.follows_modifyScript fun s hs => ?_
    have hs' : w.scripts.getD w.active.index default = s := by simp [hs]
    rw [hs'] at hgrows
    exact hgrows
  refine .modify_bind hfollows (keeps_loaded hasEnv env ?_ p)
  intro s hs
  simp only [Array.getElem?_modify, if_true] at hs
  obtain ⟨s₀, -, rfl⟩ := Option.map_eq_some_iff.1 hs
  exact hentry

theorem calm_compile (code : String) (env : Option TableId) (name : Option String)
    (kind : HeaderKind) : Calm (Exec.compile code env name kind) := by
  intro p w
  unfold Exec.compile
  refine .modify_bind (World.follows_modifyScript fun _ _ => .refl _) ?_
  refine .script_bind (.get_bind ?_)
  dsimp only
  split
  · exact calm_failWith _ p _
  · next chunk segment hc =>
    obtain ⟨hgrows, hentry⟩ := Segment.hasHeader_compile hc
    exact keeps_addSource _ env hgrows hentry p

theorem calm_loadDump (bytes : List UInt8) (env : Option TableId) (name : Option String) :
    Calm (loadDump bytes env name) := by
  intro p w
  unfold loadDump
  refine .script_bind (.get_bind ?_)
  dsimp only
  split
  · exact calm_failWith _ p _
  · next f segment hc =>
    obtain ⟨hgrows, hentry⟩ := Segment.hasHeader_undump hc
    exact keeps_addSource _ env hgrows hentry p

theorem calm_loadString (code : String) (env : Option TableId) (name : Option String) :
    Calm (loadString code env name) := by
  unfold loadString
  dsimp only
  split
  · split
    · exact calm_loadDump _ env name
    · exact calm_failWith _
  · exact calm_compile code env name .chunk

/-! ## Coroutines and threads -/

theorem Calm.intruding {x : Exec α} (hx : Calm x) : Calm (Probe.intruding x) := by
  intro p w
  have hthread : ∀ (w : World) (t : String), w.Follows { w with thread := t } := fun _ _ =>
    World.follows_of_eq rfl
  have hinside : (andFinally x fun w' => { w' with thread := w.thread }).Keeps
      { w with thread := intruderThread } (w.processor = p) (fun _ w' => w'.processor = p)
      (fun w' => w'.processor = p) :=
    (hx p _).andFinally (hthread · w.thread) (fun _ _ => id) (fun _ => id)
  have hafter := hinside.after (hthread w intruderThread) fun _ _ h => h
  exact ⟨hafter.ok, hafter.error⟩

theorem uniform_calm : Uniform fun x _ => Calm x where
  aside := Aside.calm
  bind hx hf := hx.bind hf
  catchError hx hf := hx.catchError hf
  intruding hx := hx.intruding
  loadString := calm_loadString
  start _ := calm_of_change (fun _ => rfl) (fun _ => World.follows_addCoroutine fun _ => .of_fresh rfl)
    fun _ => rfl

theorem calm_createCoroutine (f : Value) : Calm (createCoroutine f) := uniform_calm.create f

end Exec

/-! ## The library -/

/-- The ways into the machine leave the processor as it was. -/
structure Reentry.Calm (r : Reentry) : Prop where
  call : ∀ f args, Exec.Calm (r.call f args)
  resume : ∀ id args, Exec.Calm (r.resume id args)
  enter : ∀ id code, Exec.Calm (r.enter id code)

/-- So does whatever the library does with them. -/
theorem Reentry.Calm.alike {r : Reentry} (hr : r.Calm) : Alike (fun x _ => Exec.Calm x) r r where
  toUniform := uniform_calm
  call := hr.call
  resume := hr.resume
  enter := hr.enter

end LuaMachine
