import LuaMachine.Proofs.Flat.Sifting

/-!
# What operators and native functions sift

If calls into the machine keep a sane world sane and give flat values (`Reentry.Sifting`), then operators
and indexing give single values, and native functions that are called with single values give flat
ones. What the debugger does concerns no value at all.
-/

namespace LuaMachine

open Exec

/-! ## Loading -/

namespace Exec

variable {P : Prop}

theorem sifts_loaded {w : World} {entry : Nat} (hasEnv : Bool) (env : Option TableId)
    (hentry : ∀ s : Script, w.scripts[w.active.index]? = some s → s.code.HasHeader entry) :
    (loaded entry hasEnv env).Sifts w P fun v _ => v.Single := by
  cases hasEnv with
  | true =>
    let cell : Value := .table (env.getD (w.scripts.getD w.active.index default).globals)
    have hcell : w.Follows { w with heap := w.heap.addCell cell } := World.follows_of_eq rfl
    have hf := hcell.trans (World.follows_addClosure (c := ⟨w.active, entry,
      #[(envName, ⟨w.heap.cells.size⟩)]⟩) rfl fun _ => hentry)
    refine .of_ok rfl hf fun hg hw _ => ⟨hw.grow hf hg rfl ?_, rfl⟩
    exact hw.flat.withHeap { hw.flat.heap.addCell (v := cell) rfl with }
  | false =>
    have hf := World.follows_addClosure (w := w) (c := ⟨w.active, entry, #[]⟩) rfl fun _ => hentry
    refine .of_ok rfl hf fun hg hw _ => ⟨hw.grow hf hg rfl ?_, rfl⟩
    exact hw.flat.withHeap { hw.flat.heap with }

/-- New code in the running script, and the function it starts with. -/
theorem sifts_addSource {w : World} {segment : Segment} {source : SourceText} {entry : Nat}
    (hasEnv : Bool) (env : Option TableId)
    (hgrows : (w.scripts.getD w.active.index default).code.Grows segment)
    (hentry : segment.HasHeader entry) :
    (modifyScript (·.addSource segment source) >>= fun _ => loaded entry hasEnv env).Sifts w P
      fun v _ => v.Single := by
  have hf : w.Follows
      { w with scripts := w.scripts.modify w.active.index (·.addSource segment source) } := by
    refine World.follows_modifyScript fun s hs => ?_
    have hs' : w.scripts.getD w.active.index default = s := by simp [hs]
    rw [hs'] at hgrows
    exact hgrows
  refine .modify_bind hf (fun hg hw _ => ?_) (sifts_loaded hasEnv env ?_)
  · exact hw.grow hf hg rfl (hw.flat.modifyScript _ fun _ => id)
  · intro s hs
    simp only [Array.getElem?_modify, if_true] at hs
    obtain ⟨s₀, -, rfl⟩ := Option.map_eq_some_iff.1 hs
    exact hentry

theorem sifting_compile (code : String) (env : Option TableId) (name : Option String)
    (kind : HeaderKind) : Sifting P (Exec.compile code env name kind) Value.Single := by
  intro w
  unfold Exec.compile
  have hf : w.Follows { w with scripts := w.scripts.modify w.active.index fun s =>
      { s with counters := s.counters.countCompilation } } :=
    World.follows_modifyScript fun _ _ => .refl _
  refine .modify_bind hf (fun hg hw _ => ?_) (.script_bind (.get_bind ?_))
  · exact hw.grow hf hg rfl (hw.flat.modifyScript _ fun _ => id)
  · dsimp only
    split
    · next e _ => exact sifting_failWith (e := .syntaxError e) (fun _ => trivial) _
    · next chunk segment hc =>
      obtain ⟨hgrows, hentry⟩ := Segment.hasHeader_compile hc
      exact sifts_addSource _ env hgrows hentry

theorem sifting_loadDump (bytes : List UInt8) (env : Option TableId) (name : Option String) :
    Sifting P (loadDump bytes env name) Value.Single := by
  intro w
  unfold loadDump
  refine .script_bind (.get_bind ?_)
  dsimp only
  split
  · next e _ => exact sifting_failWith (e := .dump e) (fun _ => trivial) _
  · next f segment hc =>
    obtain ⟨hgrows, hentry⟩ := Segment.hasHeader_undump hc
    exact sifts_addSource _ env hgrows hentry

theorem sifting_loadString (code : String) (env : Option TableId) (name : Option String) :
    Sifting P (loadString code env name) Value.Single := by
  unfold loadString
  dsimp only
  split
  · split
    · exact sifting_loadDump _ env name
    · exact sifting_failWith fun _ => trivial
  · exact sifting_compile code env name .chunk

end Exec

/-! ## Operators -/

/-- The ways into the machine keep sane worlds sane, and give flat values. -/
structure Reentry.Sifting (r : Reentry) : Prop where
  call : ∀ {P : Prop} f args, Exec.Sifting P (r.call f args) Value.Flat
  resume : ∀ {P : Prop} id args, Exec.Sifting P (r.resume id args) Value.Flat
  enter : ∀ {P : Prop} id code, Exec.Sifting P (r.enter id code) Value.Flat

namespace Reentry.Sifting

variable {r : Reentry} (hr : r.Sifting) {P : Prop}

include hr

theorem handle (handler : Value) (args : List Value) :
    Exec.Sifting P (r.handle handler args) Value.Single :=
  (hr.call handler args).bind fun v => sifting_pure fun _ => v.single_scalar

/-- A handler of one of two operands, or a fault. -/
theorem handleOr {x : Exec (Option Value)} {Q : Option Value → Prop} (hx : Exec.Sifting P x Q)
    (args : List Value) (f : Fault) :
    Exec.Sifting P (x >>= fun handler? => match handler? with
      | some handler => r.handle handler args
      | none => fail f) Value.Single := by
  refine hx.bind fun handler? => ?_
  cases handler? with
  | none => exact sifting_fail f
  | some handler => exact hr.handle handler args

theorem arithmetic (event : String) (f : Number → Number → Number) (a b : Value) :
    Exec.Sifting P (r.arithmetic event f a b) Value.Single := by
  unfold Reentry.arithmetic
  split
  · exact sifting_pure fun _ => rfl
  · exact hr.handleOr (sifting_handlerOf? a b event) _ _

theorem concat (a b : Value) : Exec.Sifting P (r.concat a b) Value.Single := by
  unfold Reentry.concat
  split
  · exact sifting_pure fun _ => rfl
  · exact hr.handleOr (sifting_handlerOf? a b _) _ _

/-- A handler decides, or something else does. -/
theorem askOr {x : Exec (Option Value)} {Q : Option Value → Prop} (hx : Exec.Sifting P x Q)
    {args : List Value} {answer : Value → Bool} {other : Exec Bool}
    (ho : ∀ {P : Prop}, Exec.Sifting P other fun _ => True) :
    Exec.Sifting P (x >>= fun handler? => match handler? with
      | some handler => do return answer (← r.handle handler args)
      | none => other) fun _ => True := by
  refine hx.bind fun handler? => ?_
  cases handler? with
  | none => exact ho
  | some handler => exact (hr.handle handler args).bind fun _ => sifting_pure fun _ => trivial

theorem equals (a b : Value) : Exec.Sifting P (r.equals a b) fun _ => True := by
  unfold Reentry.equals
  split
  · exact sifting_pure fun _ => trivial
  · split
    · exact hr.askOr (sifting_handlerOf? _ _ _) (sifting_pure fun _ => trivial)
    · exact sifting_pure fun _ => trivial

theorem lessThan (a b : Value) : Exec.Sifting P (r.lessThan a b) fun _ => True := by
  unfold Reentry.lessThan
  split
  · exact sifting_pure fun _ => trivial
  · exact sifting_pure fun _ => trivial
  · exact hr.askOr (sifting_handlerOf? a b _) (sifting_fail _)

theorem lessEqual (a b : Value) : Exec.Sifting P (r.lessEqual a b) fun _ => True := by
  unfold Reentry.lessEqual
  split
  · exact sifting_pure fun _ => trivial
  · exact sifting_pure fun _ => trivial
  · exact hr.askOr (sifting_handlerOf? a b _) (hr.askOr (sifting_handlerOf? a b _) (sifting_fail _))

theorem binary (op : BinaryOp) (a b : Value) :
    Exec.Sifting P (r.binary op a b) Value.Single := by
  have hcompare : ∀ {x : Exec Bool} (f : Bool → Bool), (Exec.Sifting P x fun _ => True) →
      Exec.Sifting P (do return Value.boolean (f (← x))) Value.Single :=
    fun f hx => hx.bind fun _ => sifting_pure fun _ => rfl
  cases op with
  | add => exact hr.arithmetic _ _ a b
  | sub => exact hr.arithmetic _ _ a b
  | mul => exact hr.arithmetic _ _ a b
  | div => exact hr.arithmetic _ _ a b
  | mod => exact hr.arithmetic _ _ a b
  | pow => exact hr.arithmetic _ _ a b
  | concat => exact hr.concat a b
  | eq => exact hcompare id (hr.equals a b)
  | ne => exact hcompare not (hr.equals a b)
  | lt => exact hcompare id (hr.lessThan a b)
  | le => exact hcompare id (hr.lessEqual a b)
  | gt => exact hcompare id (hr.lessThan b a)
  | ge => exact hcompare id (hr.lessEqual b a)

theorem negate (a : Value) : Exec.Sifting P (r.negate a) Value.Single := by
  unfold Reentry.negate
  split
  · exact sifting_pure fun _ => rfl
  · exact hr.handleOr (sifting_metamethod? a _) _ _

theorem length (a : Value) : Exec.Sifting P (r.length a) Value.Single := by
  unfold Reentry.length
  refine (sifting_metamethod? a "__len").bind fun handler? => ?_
  cases handler? with
  | some handler => exact hr.handle handler _
  | none =>
    cases a with
    | string s => exact sifting_pure fun _ => rfl
    | table id => exact sifting_heap.bind fun _ => sifting_pure fun _ => rfl
    | _ => exact sifting_fail _

end Reentry.Sifting

/-! ## Host objects and indexing -/

namespace Exec

variable {P : Prop}

/-- A change of the objects on the heap. -/
theorem sifting_modifyObjects {f : Heap → Array HostObject} :
    Sifting P (modifyHeap fun h => { h with objects := f h }) fun _ => True :=
  sifting_modifyHeap (fun _ => rfl) (fun _ => rfl) fun _ _ hh => { hh with }

theorem sifting_member? (id : ObjectId) (o : HostObject) (name : String) :
    Sifting P (o.member? id name) fun v? => ∀ v ∈ v?, v.Single := by
  have hproperty : ∀ {h : Heap} {v : Value}, h.Flat → o.property? (h.storeOf o) name = some v →
      v.Single := by
    intro h v hh hv
    unfold HostObject.property? at hv
    split at hv
    · split at hv
      · cases hv
        rfl
      · split at hv
        · cases hv
          rfl
        · cases hv
    · split at hv
      · cases hv
        rfl
      · split at hv
        · cases hv
          rfl
        · cases hv
    · cases hv
      exact (hh.storeOf _).get name
    · cases hv
      exact (hh.storeOf _).get name
  unfold HostObject.member?
  refine sifting_heap.bind fun h => ?_
  split
  · next v hv =>
    refine sifting_pure fun hp u hu => ?_
    cases hu
    exact hproperty hp.2 hv
  · split
    · refine (sifting_newCallback _).bind fun v => sifting_pure fun hp u hu => ?_
      cases hu
      exact hp.2
    · exact sifting_pure fun _ _ hu => nomatch hu

theorem sifting_getMember (id : ObjectId) (key : Value) :
    Sifting P (HostObject.getMember id key) Value.Single := by
  unfold HostObject.getMember
  refine sifting_heap.bind fun h => ?_
  dsimp only
  split
  · next o _ =>
    refine (sifting_member? id o _).bind fun v? => ?_
    cases v? with
    | none => exact sifting_fail _
    | some v => exact sifting_pure fun hp => hp.2 v rfl
  · exact sifting_fail _

theorem sifting_setMember (id : ObjectId) (key value : Value) :
    Sifting P (HostObject.setMember id key value) fun _ => True := by
  have hformer : ∀ (h : Heap) (n : Nat) (name : String), h.Flat →
      ({ h with former := h.former.modify n (·.set name value) } : Heap).Flat := by
    intro h n name hh
    refine { hh with former := fun s hs => ?_ }
    obtain ⟨i, hi⟩ := Array.getElem?_of_mem hs
    rw [Array.getElem?_modify] at hi
    split at hi
    · obtain ⟨s', hs', rfl⟩ := Option.map_eq_some_iff.1 hi
      exact (hh.former s' (Array.mem_of_getElem? hs')).set name value
    · exact hh.former s (Array.mem_of_getElem? hi)
  unfold HostObject.setMember
  refine sifting_heap.bind fun h => ?_
  dsimp only
  split
  · split
    · exact sifting_modifyHeap (fun _ => rfl) (fun _ => rfl) fun _ _ hh =>
        { hh with store := hh.store.set _ value }
    · exact sifting_modifyHeap (fun _ => rfl) (fun _ => rfl) fun h _ hh => hformer h _ _ hh
    · split
      · split
        · exact sifting_modifyObjects
        · exact sifting_fail _
      · split
        · exact sifting_fail _
        · exact sifting_fail _
    · split
      · exact sifting_fail _
      · exact sifting_fail _
  · exact sifting_fail _

end Exec

namespace Reentry.Sifting

variable {r : Reentry} (hr : r.Sifting) {P : Prop}

include hr

theorem indexFrom (key : Value) (n : Nat) (object : Value) :
    Exec.Sifting P (r.indexFrom key n object) Value.Single := by
  induction n generalizing P object with
  | zero => exact sifting_fail _
  | succ n ih =>
    unfold Reentry.indexFrom
    split
    · refine sifting_heap.bind fun h => ?_
      dsimp only
      split
      · exact sifting_pure fun hp => hp.2.getIndex _ key
      · refine (sifting_metamethod? _ _).bind fun handler? => ?_
        cases handler? with
        | none => exact sifting_pure fun _ => rfl
        | some handler =>
          dsimp only
          split
          · exact hr.handle handler _
          · exact ih handler
    · exact sifting_getMember _ key
    · exact sifting_fail _

theorem index (object key : Value) : Exec.Sifting P (r.index object key) Value.Single :=
  hr.indexFrom key _ _

theorem setIndexFrom (key value : Value) (n : Nat) (object : Value) :
    Exec.Sifting P (r.setIndexFrom key value n object) fun _ => True := by
  induction n generalizing P object with
  | zero => exact sifting_fail _
  | succ n ih =>
    unfold Reentry.setIndexFrom
    split
    · refine sifting_heap.bind fun h => ?_
      split
      · exact sifting_setIndex _ key value
      · refine (sifting_metamethod? _ _).bind fun handler? => ?_
        cases handler? with
        | none => exact sifting_setIndex _ key value
        | some handler =>
          dsimp only
          split
          · exact (hr.call handler _).bind fun _ => sifting_pure fun _ => trivial
          · exact ih handler
    · exact sifting_setMember _ key value
    · exact sifting_fail _

theorem setIndex (object key value : Value) :
    Exec.Sifting P (r.setIndex object key value) fun _ => True :=
  hr.setIndexFrom key value _ _

omit hr in
theorem readCell (s : Symbol) : Exec.Sifting P (fun w => .ok (w.readCell s) w) Value.Single := by
  have hread : ∀ w : World, w.Flat → (w.readCell s).Single := ?_
  · exact sifting_of_read (fun _ => rfl) fun w _ hw => hread w hw
  intro w hw
  unfold World.readCell
  split
  · unfold World.globals
    split <;> rfl
  · split
    · exact hw.heap.cell _
    · rfl

theorem readSymbol (s : Symbol) : Exec.Sifting P (r.readSymbol s) Value.Single := by
  induction s with
  | global name env ih =>
    refine ih.bind fun v => ?_
    cases v with
    | table id =>
      refine sifting_heap.bind fun h => ?_
      dsimp only
      split
      · exact sifting_pure fun hp => (hp.2.table id).find _
      · exact hr.index _ _
    | _ => exact sifting_fail _
  | «local» name slot => exact readCell _
  | upvalue name i => exact readCell _
  | defaultEnv => exact readCell _

end Reentry.Sifting

/-! ## Arguments -/

namespace Arguments

/-- No argument is a tuple. -/
def Single (args : Arguments) : Prop := ∀ v ∈ args.values, v.Single

variable {args : Arguments}

theorem Single.get (h : args.Single) (i : Nat) : (args.get i).Single := by
  unfold Arguments.get Arguments.get?
  cases hv : args.values[i]? with
  | none => rfl
  | some v => exact h v (List.mem_of_getElem? hv)

theorem Single.drop (h : args.Single) (n m : Nat) : ∀ v ∈ (args.skip n).values.drop m, v.Single :=
  fun v hv => h v (List.mem_of_mem_drop (List.mem_of_mem_drop hv))

theorem Single.withoutReceiver (h : args.Single) (id : ObjectId) :
    (Method.withoutReceiver id args).Single := by
  unfold Method.withoutReceiver
  split
  · split
    · exact fun v hv => h v (List.mem_of_mem_drop hv)
    · exact h
  · exact h

end Arguments

/-! ## The library -/

namespace Exec

variable {P : Prop}

/-- A new coroutine, whose body is not started yet if there is one. -/
theorem sifting_newCoroutine {c : Coroutine} (hc : ∀ w : World, c.Resumable w)
    (hpoised : ∀ w : World, c.Poised w) (hflat : P → c.Flat) :
    Sifting P (newCoroutine c) fun _ => True := by
  intro w
  have hf : w.Follows { w with heap := w.heap.addCoroutine c } := World.follows_addCoroutine hc
  refine .of_ok rfl hf fun hg hw hp => ⟨⟨hf.closed hg hw.closed, fun c' hc' => ?_, ?_⟩, trivial⟩
  · rcases Array.mem_push.1 hc' with hc' | rfl
    · exact (hw.poised c' hc').mono hf.later
    · exact hpoised _
  · exact hw.flat.withHeap (hw.flat.heap.addCoroutine (hflat hp))

theorem sifting_createCoroutine (f : Value) : Sifting P (createCoroutine f) fun _ => True := by
  unfold createCoroutine
  refine sifting_get.bind fun w => ?_
  have hrest : ∀ {P : Prop} (_ : Unit), Sifting P (do
      let id ← newCoroutine
        { owner := w.active, state := .notStarted
          body := some { processor := { isCoroutine := true }, function := some f.scalar } }
      let h ← heap
      let isDead (c : CoroutineId) : Bool := (h.coroutine? c).map (·.state) == some .dead
      modifyScript fun s => { s with coroutines := (s.coroutines.filter (!isDead ·)).push id }
      return id) fun _ => True := by
    intro P _
    have hflat : Coroutine.Flat { owner := w.active, state := .notStarted
                                  body := some { processor := { isCoroutine := true }
                                                 function := some f.scalar } } := by
      intro b hb
      cases hb
      exact ⟨Processor.flat_empty.of_eq rfl rfl, fun g hg => Option.some.inj hg ▸ f.single_scalar⟩
    refine (sifting_newCoroutine (fun _ => .of_fresh rfl) (fun _ => .of_fresh rfl)
      fun _ => hflat).bind fun id => sifting_heap.bind fun h => ?_
    refine Sifting.bind (sifting_modifyScript ?_ fun _ => rfl) fun _ => sifting_pure fun _ => trivial
    exact fun s => .refl _
  dsimp only
  split
  · split
    · exact (sifting_fail _ (Q := fun _ => True)).bind hrest
    · exact hrest ()
  · exact hrest ()
  · exact (sifting_fail _ (Q := fun _ => True)).bind hrest

theorem sifting_statusOf (id : CoroutineId) : Sifting P (statusOf id) fun _ => True := by
  unfold statusOf
  refine sifting_heap.bind fun h => ?_
  split
  · split
    · exact sifting_script.bind fun _ => sifting_pure fun _ => trivial
    · exact sifting_script.bind fun _ => sifting_pure fun _ => trivial
    · exact sifting_pure fun _ => trivial
    · exact sifting_pure fun _ => trivial
    · exact sifting_pure fun _ => trivial
  · exact sifting_pure fun _ => trivial

/-- The outcome of a protected call is a list of single values. -/
theorem Sifting.protect {x : Exec Value} (hx : Sifting P x Value.Flat) :
    Sifting P (Exec.protect x) Value.Flat := by
  refine Sifting.catchError (hx.bind fun v => sifting_pure fun hp => ?_) fun e => ?_
  · refine Value.flat_ofList fun u hu => ?_
    rcases List.mem_cons.1 hu with rfl | hu
    · rfl
    · exact hp.2 u hu
  · split
    · next e =>
      refine sifting_pure fun hp => Value.flat_ofList fun u hu => ?_
      rcases List.mem_cons.1 hu with rfl | hu
      · rfl
      · cases List.mem_singleton.1 hu
        exact hp.2
    · exact sifting_failWith fun hp => hp.2

theorem sifting_isyieldable : Sifting P Library.isyieldable fun _ => True :=
  sifting_processor.bind fun _ => sifting_pure fun _ => trivial

end Exec

namespace Library

variable {args : Arguments}

theorem sifting_create : Sifting args.Single (create args) Value.Flat :=
  (sifting_lift _).bind fun _ => (sifting_createCoroutine _).bind fun _ =>
    sifting_pure fun _ => Value.Single.flat rfl

theorem sifting_status : Sifting args.Single (status args) Value.Flat :=
  (sifting_lift _).bind fun _ => (sifting_statusOf _).bind fun _ =>
    sifting_pure fun _ => Value.Single.flat rfl

theorem sifting_running : Sifting args.Single running Value.Flat := by
  refine sifting_script.bind fun s => sifting_heap.bind fun h => sifting_pure fun _ => ?_
  exact Value.flat_ofList (by simpa using ⟨rfl, rfl⟩)

theorem sifting_wrap : Sifting args.Single (wrap args) Value.Flat :=
  (sifting_lift _).bind fun _ => (sifting_createCoroutine _).bind fun _ =>
    (sifting_newCallback _).mono id fun _ _ h => h.flat

/-- A number, or `nil` in place of none. -/
theorem flat_numberOrNil (n? : Option Number) : ((n?.map Value.number).getD .nil).Flat := by
  cases n? <;> exact Value.Single.flat rfl

theorem sifting_tonumber : Sifting args.Single (tonumber args) Value.Flat := by
  unfold tonumber
  refine (sifting_lift _).bind fun v => ?_
  split
  · split
    · exact sifting_pure fun _ => Value.Single.flat rfl
    · exact sifting_pure fun _ => flat_numberOrNil _
    · exact sifting_pure fun _ => Value.Single.flat rfl
  · refine (sifting_lift _).bind fun base => ?_
    dsimp only
    split
    · exact (sifting_fail _ (Q := fun _ => True)).bind fun _ => (sifting_lift _).bind fun _ =>
        sifting_pure fun _ => flat_numberOrNil _
    · exact (sifting_lift _).bind fun _ => sifting_pure fun _ => flat_numberOrNil _

theorem sifting_next : Sifting args.Single (next args) Value.Flat := by
  unfold next
  refine (sifting_lift _).bind fun id => sifting_heap.bind fun h => ?_
  split
  · next k v hn =>
    refine sifting_pure fun hp => Value.flat_ofList ?_
    simpa using (hp.2.table id).next hn
  · exact sifting_pure fun _ => Value.Single.flat rfl
  · exact sifting_fail _

theorem sifting_ipairs : Sifting args.Single (ipairs args) Value.Flat := by
  refine (sifting_lift _).bind fun id => (sifting_newCallback _).bind fun step => ?_
  refine sifting_pure fun hp => Value.flat_ofList ?_
  simpa using ⟨hp.2, rfl, rfl⟩

theorem sifting_ipairsStep : Sifting args.Single (ipairsStep args) Value.Flat := by
  unfold ipairsStep
  refine (sifting_lift _).bind fun id => (sifting_lift _).bind fun i => sifting_heap.bind fun h => ?_
  dsimp only
  split
  · exact sifting_pure fun _ => Value.Single.flat rfl
  · refine sifting_pure fun hp => Value.flat_ofList ?_
    simpa using ⟨rfl, hp.2.getIndex id _⟩

theorem sifting_select : Sifting args.Single (select args) Value.Flat := by
  unfold select
  refine (sifting_lift _).bind fun selector => ?_
  dsimp only
  split
  · exact sifting_pure fun _ => Value.Single.flat rfl
  · split
    · exact sifting_fail _
    · split
      · exact sifting_pure fun hp => Value.flat_ofList (hp.1.drop 1 _)
      · split
        · exact sifting_pure fun hp => Value.flat_ofList (hp.1.drop 1 _)
        · exact sifting_fail _

theorem sifting_unpack : Sifting args.Single (unpack args) Value.Flat := by
  unfold unpack
  refine (sifting_lift _).bind fun id => (sifting_lift _).bind fun first =>
    sifting_heap.bind fun h => ?_
  have hrest : ∀ {P : Prop}, (P → h.Flat) → ∀ last : Int, Sifting P (do
      if first.toInteger > last then return Value.void
      if last - first.toInteger + 1 > maxUnpacked then fail .tooManyResults
      return .ofList ((List.range (last - first.toInteger + 1).toNat).map fun (i : Nat) =>
        (h.table id).get (.ofInt (first.toInteger + i)))) Value.Flat := by
    intro P hh last
    have hlist : ∀ {P' : Prop}, (P' → P) → Sifting P' (pure (Value.ofList
        ((List.range (last - first.toInteger + 1).toNat).map fun (i : Nat) =>
          (h.table id).get (.ofInt (first.toInteger + i))))) Value.Flat := by
      intro P' hp
      refine sifting_pure fun hp' => Value.flat_ofList fun v hv => ?_
      obtain ⟨i, -, rfl⟩ := List.mem_map.1 hv
      exact ((hh (hp hp')).table id).get _
    dsimp only
    split
    · exact sifting_pure fun _ => Value.flat_void
    · split
      · exact (sifting_fail _ (Q := fun _ => True)).bind fun _ => hlist And.left
      · exact hlist fun hp => hp
  dsimp only
  split
  · exact (sifting_pure (Q := fun _ => True) fun _ => trivial).bind fun last =>
      hrest (fun hp => hp.1.2) last
  · exact (sifting_lift _).bind fun last => hrest (fun hp => hp.1.2) last

/-- A place in front of a message leaves the value single. -/
theorem single_decorate {e : RuntimeError} (h : e.value.Single) (location : Option Span)
    (place : String) : (e.decorate location place).value.Single := by
  unfold RuntimeError.decorate
  split
  · exact h
  · dsimp only
    split
    · rfl
    · exact h

theorem sifting_error (caller : Option Span) : Sifting args.Single (error caller args) Value.Flat := by
  unfold error
  refine (sifting_lift _).bind fun level => ?_
  have hraise : ∀ {P : Prop} (e : RuntimeError), (P → e.value.Single) →
      Sifting P (failWith (.runtime { e with decorated := e.decorated.getD e.message }) : Exec Value)
        Value.Flat :=
    fun e h => sifting_failWith h
  dsimp only
  split
  · split
    · exact sifting_script.bind fun s =>
        hraise _ fun hp => single_decorate (hp.1.1.get 0) _ _
    · exact hraise _ fun hp => hp.1.get 0
  · exact hraise _ fun hp => hp.1.get 0

theorem sifting_assert : Sifting args.Single (assert args) Value.Flat := by
  unfold assert
  split
  · exact sifting_pure fun hp => Value.flat_ofList hp
  · split
    · exact sifting_fail _
    · exact sifting_failWith fun hp => hp.get 1

theorem sifting_rawget : Sifting args.Single (rawget args) Value.Flat :=
  (sifting_lift _).bind fun _ => sifting_heap.bind fun _ =>
    sifting_pure fun hp => (hp.2.getIndex _ _).flat

theorem sifting_rawset : Sifting args.Single (rawset args) Value.Flat :=
  (sifting_lift _).bind fun _ => (sifting_setIndex _ _ _).bind fun _ =>
    sifting_pure fun _ => Value.Single.flat rfl

theorem sifting_rawequal : Sifting args.Single (rawequal args) Value.Flat :=
  (sifting_lift _).bind fun _ => (sifting_lift _).bind fun _ =>
    sifting_pure fun _ => Value.Single.flat rfl

theorem sifting_rawlen : Sifting args.Single (rawlen args) Value.Flat := by
  unfold rawlen
  split
  · exact sifting_heap.bind fun _ => sifting_pure fun _ => Value.Single.flat rfl
  · exact sifting_pure fun _ => Value.Single.flat rfl
  · exact sifting_fail _

theorem sifting_setmetatable : Sifting args.Single (setmetatable args) Value.Flat := by
  unfold setmetatable
  refine (sifting_lift _).bind fun id => ?_
  have hrest : ∀ {P : Prop} (metatable : Option TableId), Sifting P (do
      if !(protection (← heap) id).isNil then fail .protectedMetatable
      modifyHeap (·.modifyTable id fun t => { t with metatable })
      return Value.table id) Value.Flat := by
    intro P metatable
    have hset : ∀ {P : Prop}, Sifting P
        (modifyHeap (·.modifyTable id fun t => { t with metatable })) fun _ => True :=
      sifting_modifyHeap (fun _ => rfl) (fun _ => rfl) fun _ _ hh =>
        hh.modifyTable id fun _ ht => ht.of_entries rfl
    refine sifting_heap.bind fun h => ?_
    dsimp only
    split
    · exact (sifting_fail _ (Q := fun _ => True)).bind fun _ => hset.bind fun _ =>
        sifting_pure fun _ => Value.Single.flat rfl
    · exact hset.bind fun _ => sifting_pure fun _ => Value.Single.flat rfl
  dsimp only
  split
  · exact (sifting_pure (Q := fun _ => True) fun _ => trivial).bind hrest
  · exact (sifting_pure (Q := fun _ => True) fun _ => trivial).bind hrest
  · exact (sifting_fail _ (Q := fun _ => True)).bind hrest

theorem sifting_getmetatable : Sifting args.Single (getmetatable args) Value.Flat := by
  unfold getmetatable
  split
  · next id _ =>
    refine sifting_heap.bind fun h => ?_
    split
    · exact sifting_pure fun _ => Value.Single.flat rfl
    · next mt hmt =>
      refine sifting_pure fun hp => ?_
      split
      · exact Value.Single.flat rfl
      · unfold protection
        rw [hmt]
        exact (hp.2.getField mt _).flat
  · exact sifting_pure fun _ => Value.Single.flat rfl

theorem sifting_sleep : Sifting args.Single (sleep args) Value.Flat :=
  (sifting_lift _).bind fun _ => sifting_safepoint.bind fun _ => sifting_pure fun _ => Value.flat_void

end Library

namespace Reentry.Sifting

variable {r : Reentry} (hr : r.Sifting) {P : Prop} {args : Arguments}

include hr

theorem textOf (v : Value) : Exec.Sifting P (Library.textOf r v) fun _ => True := by
  unfold Library.textOf
  refine (sifting_metamethod? v _).bind fun handler? => ?_
  cases handler? with
  | none => exact sifting_heap.bind fun _ => sifting_pure fun _ => trivial
  | some handler =>
    refine (hr.call handler _).bind fun result => ?_
    split
    · exact sifting_pure fun _ => trivial
    · exact sifting_pure fun _ => trivial
    · exact sifting_fail _

theorem print : Exec.Sifting args.Single (Library.print r args) Value.Flat :=
  (Sifting.mapM hr.textOf args.values).bind fun _ => (sifting_print _).bind fun _ =>
    sifting_pure fun _ => Value.flat_void

theorem pairs : Exec.Sifting args.Single (Library.pairs r args) Value.Flat := by
  unfold Library.pairs
  refine (sifting_lift _).bind fun v => (sifting_metamethod? v _).bind fun handler? => ?_
  cases handler? with
  | none =>
    refine (sifting_lift _).bind fun id => (sifting_newCallback _).bind fun f => ?_
    refine sifting_pure fun hp => Value.flat_ofList ?_
    simpa using ⟨hp.2, rfl, rfl⟩
  | some handler =>
    refine (hr.call handler _).bind fun result => sifting_pure fun _ => Value.flat_ofList ?_
    simpa using ⟨result.single_nth 0, result.single_nth 1, result.single_nth 2⟩

theorem pcall : Exec.Sifting args.Single (Library.pcall r args) Value.Flat :=
  (sifting_lift _).bind fun f => (hr.call f _).protect

theorem resumed : Exec.Sifting args.Single (Library.resume r args) Value.Flat :=
  (sifting_lift _).bind fun id => (hr.resume id _).protect

theorem readPieces (reader : Value) (n : Nat) (text : String) :
    Exec.Sifting P (Library.readPieces r reader n text) fun _ => True := by
  induction n generalizing P text with
  | zero => exact sifting_exhausted
  | succ n ih =>
    unfold Library.readPieces
    refine (hr.call reader _).bind fun result => ?_
    split
    · split
      · exact sifting_pure fun _ => trivial
      · exact ih _
    · exact sifting_pure fun _ => trivial
    · exact sifting_fail _

omit hr in
/-- What loading a text comes to for a script: a syntax error is a result. -/
theorem loadResult (code : String) (env : Option TableId) (name : Option String) :
    Exec.Sifting P (catchError (loadString code env name) fun
      | .syntaxError e => return .ofList [.nil, .string e.display]
      | e => failWith e) Value.Flat := by
  refine ((sifting_loadString code env name).mono id fun _ _ h => h.flat).catchError fun e => ?_
  split
  · exact sifting_pure fun _ => Value.flat_ofList (by simpa using ⟨rfl, rfl⟩)
  · exact sifting_failWith fun hp => hp.2

theorem load : Exec.Sifting args.Single (Library.load r args) Value.Flat := by
  unfold Library.load
  dsimp only
  split
  · exact (sifting_pure (Q := fun _ => True) fun _ => trivial).bind fun code => loadResult code _ _
  · split
    · exact (hr.readPieces _ _ _).bind fun code => loadResult code _ _
    · exact (sifting_fail _ (Q := fun _ => True)).bind fun code => loadResult code _ _

theorem builtin (caller : Option Span) (b : Builtin) :
    Exec.Sifting args.Single (b.run r caller args) Value.Flat := by
  cases b with
  | print => exact hr.print
  | typeOf => exact (sifting_lift _).bind fun _ => sifting_pure fun _ => Value.Single.flat rfl
  | tostring =>
    exact (sifting_lift _).bind fun v => (hr.textOf v).bind fun _ =>
      sifting_pure fun _ => Value.Single.flat rfl
  | tonumber => exact Library.sifting_tonumber
  | pairs => exact hr.pairs
  | ipairs => exact Library.sifting_ipairs
  | ipairsStep => exact Library.sifting_ipairsStep
  | next => exact Library.sifting_next
  | select => exact Library.sifting_select
  | error => exact Library.sifting_error caller
  | assert => exact Library.sifting_assert
  | pcall => exact hr.pcall
  | rawget => exact Library.sifting_rawget
  | rawset => exact Library.sifting_rawset
  | rawequal => exact Library.sifting_rawequal
  | rawlen => exact Library.sifting_rawlen
  | setmetatable => exact Library.sifting_setmetatable
  | getmetatable => exact Library.sifting_getmetatable
  | unpack => exact Library.sifting_unpack
  | load => exact hr.load
  | sleep => exact Library.sifting_sleep
  | create => exact Library.sifting_create
  | resume => exact hr.resumed
  | status => exact Library.sifting_status
  | running => exact Library.sifting_running
  | wrap => exact Library.sifting_wrap
  | isyieldable => exact sifting_isyieldable.bind fun _ => sifting_pure fun _ => Value.Single.flat rfl

/-! ## Methods and probes -/

theorem method (id : ObjectId) (m : Method) :
    Exec.Sifting args.Single (m.run r id args) Value.Flat := by
  unfold Method.run
  dsimp only
  refine sifting_heap.bind fun h => ?_
  split
  · exact (sifting_lift _).bind fun _ => sifting_modifyObjects.bind fun _ =>
      sifting_pure fun _ => Value.Single.flat rfl
  · exact (sifting_lift _).bind fun _ => sifting_modifyObjects.bind fun _ =>
      sifting_pure fun _ => Value.Single.flat rfl
  · exact sifting_pure fun hp => Value.flat_ofList (hp.1.withoutReceiver id)
  · exact hr.call _ _
  · exact sifting_heap.bind fun _ => sifting_fail _
  · exact sifting_panic _
  · exact sifting_pure fun _ => Value.Single.flat rfl

theorem attempt (target : ScriptId) (code : String) :
    Exec.Sifting P (Probe.attempt r target code) Value.Flat :=
  (hr.enter target code).catchError fun _ => sifting_pure fun _ => Value.Single.flat rfl

omit hr in
/-- The thread that is running has nothing to do with values. -/
theorem intruding {x : Exec Value} (hx : Exec.Sifting P x Value.Flat) :
    Exec.Sifting P (Probe.intruding x) Value.Flat := by
  intro w
  have hthread : ∀ (w : World) (t : String), w.Follows { w with thread := t } := fun _ _ =>
    World.follows_of_eq rfl
  have hsane : ∀ {w : World} (t : String), ({ w with thread := t } : World).Genuine → w.Sane →
      ({ w with thread := t } : World).Sane := fun t hg hw =>
    hw.grow (hthread _ t) hg rfl ⟨hw.flat.heap, hw.flat.processor, hw.flat.scripts⟩
  have hinside : (andFinally x fun w' => { w' with thread := w.thread }).Sifts
      { w with thread := intruderThread } P fun v _ => v.Flat :=
    (hx _).andFinally (hthread · w.thread) (fun _ _ hg hw _ => hsane w.thread hg hw) fun _ _ => id
  have hafter := hinside.after (hthread w intruderThread) fun hg hw hp => ⟨hsane _ hg hw, hp⟩
  exact ⟨hafter.ok, hafter.error⟩

omit hr in
theorem info (caller : Option Span) : Exec.Sifting P (Probe.info caller) Value.Flat := by
  unfold Probe.info
  refine sifting_script.bind fun s => sifting_get.bind fun w => sifting_isyieldable.bind fun _ => ?_
  refine sifting_isCancelled.bind fun _ => sifting_pure fun _ => Value.flat_ofList ?_
  cases caller <;> simpa using ⟨rfl, rfl, rfl, rfl, rfl, rfl⟩

theorem probe (home : ScriptId) (caller : Option Span) (p : Probe) :
    Exec.Sifting args.Single (p.run r home caller args) Value.Flat := by
  cases p with
  | cancel =>
    exact sifting_get.bind fun _ => (sifting_cancel _).bind fun _ =>
      sifting_pure fun _ => Value.flat_void
  | hostcall => exact (sifting_lift _).bind fun f => hr.call f _
  | hostload =>
    exact (sifting_lift _).bind fun code =>
      (sifting_loadString code _ _).mono id fun _ _ h => h.flat
  | hostinfo => exact info caller
  | hostfail => exact (sifting_lift _).bind fun _ => sifting_fail _
  | registry =>
    unfold Probe.run
    refine (sifting_lift _).bind fun key => sifting_script.bind fun s =>
      sifting_heap.bind fun h => ?_
    dsimp only
    split
    · exact (sifting_setIndex _ _ _).bind fun _ =>
        sifting_pure fun hp => (hp.1.2.getIndex s.registry key).flat
    · exact sifting_pure fun hp => (hp.2.getIndex s.registry key).flat
  | reenter => exact (sifting_lift _).bind fun code => hr.attempt home code
  | intrude =>
    unfold Probe.run
    refine (sifting_lift _).bind fun code => sifting_get.bind fun w => ?_
    dsimp only
    split
    · exact (sifting_fail _ (Q := fun _ => True)).bind fun _ => intruding (hr.attempt home code)
    · exact intruding (hr.attempt home code)

theorem operation (caller : Option Span) (op : Operation) :
    Exec.Sifting P (op.run r caller) Value.Flat := by
  cases op with
  | call f args => exact hr.call f args
  | resume co args => exact hr.resume co args
  | load code env name => exact (sifting_loadString code env name).mono id fun _ _ h => h.flat
  | create f => exact (sifting_createCoroutine f).bind fun _ => sifting_pure fun _ => Value.Single.flat rfl
  | newTable => exact (sifting_newTable fun _ => Table.flat_empty).mono id fun _ _ h => h.flat
  | get id key => exact sifting_heap.bind fun _ => sifting_pure fun hp => (hp.2.getIndex id key).flat
  | set id key value =>
    exact (sifting_setIndex id key value).bind fun _ => sifting_pure fun _ => Value.flat_void
  | print line => exact (sifting_print line).bind fun _ => sifting_pure fun _ => Value.flat_void
  | canYield => exact sifting_isyieldable.bind fun _ => sifting_pure fun _ => Value.Single.flat rfl
  | isCancelled => exact sifting_isCancelled.bind fun _ => sifting_pure fun _ => Value.Single.flat rfl
  | location =>
    refine sifting_script.bind fun s => sifting_pure fun _ => ?_
    cases caller <;> exact Value.Single.flat rfl
  | _ => exact sifting_script.bind fun _ => sifting_pure fun _ => Value.Single.flat rfl

theorem actions (caller : Option Span) (name : String) (n : Nat) :
    Exec.Sifting P (External.actions r caller name n) Value.Flat := by
  induction n generalizing P with
  | zero => exact sifting_exhausted
  | succ n ih =>
    unfold External.actions
    refine sifting_get.bind fun w => ?_
    split
    · refine sifting_pure fun _ => Value.flat_ofList fun v hv => ?_
      obtain ⟨v', -, rfl⟩ := List.mem_map.1 hv
      exact v'.single_scalar
    · exact sifting_fail _
    · exact (hr.operation caller _).bind fun v => (sifting_tell v).bind fun _ => ih

/-- A native function that is called with single values gives a flat one. -/
theorem native (caller : Option Span) (n : Native) :
    Exec.Sifting args.Single (n.run r caller args) Value.Flat := by
  cases n with
  | builtin b => exact hr.builtin caller b
  | yield => exact sifting_fail _
  | resumer co => exact hr.resume co _
  | method id m => exact hr.method id m
  | probe home p => exact hr.probe home caller p
  | echo name => exact sifting_pure fun hp => Value.flat_ofList hp
  | external name => exact (sifting_tell _).bind fun _ => hr.actions caller name _

end Reentry.Sifting

/-! ## The debugger -/

namespace Exec

variable {P : Prop}

theorem sifting_modifyDebug (f : DebugState → DebugState) :
    Sifting P (modifyDebug f) fun _ => True :=
  sifting_modifyScript (fun _ => .refl _) fun _ => rfl

theorem Sifting.forIn {α : Type} {f : α → PUnit → Exec (ForInStep PUnit)} (as : List α)
    (hf : ∀ a b, Sifting P (f a b) fun _ => True) (b : PUnit) :
    Sifting P (forIn as b f) fun _ => True := by
  induction as generalizing b with
  | nil => exact sifting_pure fun _ => trivial
  | cons a as ih =>
    rw [List.forIn_cons]
    refine (hf a b).bind fun next => ?_
    cases next with
    | done b => exact sifting_pure fun _ => trivial
    | yield b => exact (ih b).weaken And.left

theorem sifting_showPanels (place : Option Span) (hard : Bool) :
    Sifting P (showPanels place hard) fun _ => True := by
  unfold showPanels
  refine sifting_script.bind fun s => ?_
  split
  · exact sifting_pure fun _ => trivial
  · refine sifting_get.bind fun w => (Sifting.forIn _ ?_ _).bind fun _ => ?_
    · intro panel _
      split
      · exact (sifting_modifyDebug _).bind fun _ => sifting_pure fun _ => trivial
      · exact sifting_pure fun _ => trivial
    · split
      · exact sifting_modifyDebug _
      · exact sifting_pure fun _ => trivial

/-- A change of the debugger's state by a source of the script. -/
theorem sifting_modifySource (id : Nat) (f : DebugState → SourceText → DebugState) :
    Sifting P (modifyScript fun s => match s.sources[id]? with
      | some source => { s with debug := f s.debug source }
      | none => s) fun _ => True := by
  refine sifting_modifyScript (fun s => ?_) fun s => ?_
  · cases s.sources[id]? with
    | none => exact .refl _
    | some source => exact .refl _
  · cases s.sources[id]? with
    | none => rfl
    | some source => rfl

theorem sifting_attend (a : DebuggerAction) (place : Option Span) :
    Sifting P (attend a place) fun _ => True := by
  have hplace : ∀ state, Sifting P (placeBreakpoints a state) fun _ => True := fun state =>
    sifting_modifySource a.source fun d source => d.toggle source a.line a.column state
  unfold attend
  split
  · exact (hplace _).bind fun _ => sifting_showPanels place _
  · exact (hplace _).bind fun _ => sifting_showPanels place _
  · exact (hplace _).bind fun _ => sifting_showPanels place _
  · refine (sifting_modifySource a.source fun d source => d.reset source a.lines).bind fun _ => ?_
    exact sifting_showPanels place _
  · exact sifting_showPanels place _
  · exact sifting_showPanels place _
  · exact sifting_pure fun _ => trivial

theorem sifting_takeActions (ip : Nat) (place : Option Span) (n : Nat) :
    Sifting P (takeActions ip place n) fun _ => True := by
  induction n generalizing P with
  | zero => exact sifting_exhausted
  | succ n ih =>
    unfold takeActions
    refine sifting_script.bind fun s => ?_
    split
    · exact sifting_pure fun _ => trivial
    · refine (sifting_modifyDebug _).bind fun _ => sifting_processor.bind fun p => ?_
      refine sifting_script.bind fun s => ?_
      split
      · exact sifting_modifyDebug _
      · exact (sifting_attend _ place).bind fun _ => ih

theorem sifting_pause (ip : Nat) (place : Option Span) : Sifting P (pause ip place) fun _ => True :=
  (sifting_showPanels place _).bind fun _ => sifting_script.bind fun _ => sifting_takeActions ip place _

theorem sifting_listen (place : Option Span) : Sifting P (listen place) fun _ => True := by
  unfold listen
  refine sifting_script.bind fun s => ?_
  dsimp only
  split
  · exact sifting_pure fun _ => trivial
  · refine sifting_processor.bind fun p => (sifting_modifyDebug _).bind fun _ => ?_
    split
    · exact sifting_pause _ place
    · exact sifting_pure fun _ => trivial

theorem sifting_trace (e : ScriptError) (place : Option Span) :
    Sifting e.Single (trace e place) ScriptError.Single := by
  unfold trace
  split
  · next e =>
    refine sifting_script.bind fun s => sifting_processor.bind fun p => ?_
    -- neither a place nor a call stack changes whether the value is single
    have hvalue : ∀ {P : Prop} (e' : RuntimeError), (P → e'.value.Single) →
        Sifting P (pure (ScriptError.runtime (if e'.callStack.isEmpty then
          { e' with callStack := s.callStackNames p.frames } else e')) : Exec ScriptError)
          ScriptError.Single := by
      intro P e' h
      refine sifting_pure fun hp => ?_
      split
      · exact h hp
      · exact h hp
    dsimp only
    split
    · refine (sifting_modifyDebug _).bind fun _ => ?_
      split
      · refine (sifting_pause _ place).bind fun _ => hvalue _ fun hp => ?_
        split
        · exact Library.single_decorate hp.1.1.1.1 _ _
        · exact hp.1.1.1.1
      · refine hvalue _ fun hp => ?_
        split
        · exact Library.single_decorate hp.1.1.1 _ _
        · exact hp.1.1.1
    · refine hvalue _ fun hp => ?_
      split
      · exact Library.single_decorate hp.1.1 _ _
      · exact hp.1.1
  · exact sifting_pure id

end Exec

end LuaMachine
