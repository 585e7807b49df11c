import LuaMachine.Proofs.Code.Shapes
import LuaMachine.Proofs.Crossing.Steps
import LuaMachine.Proofs.Code.Pieces
import LuaMachine.Proofs.Script.Loading

/-!
# Regions of code

A region of a listing has a shape for each of its addresses that agrees with what its operations do
(`Region`); control leaves it at its end, through an exit, or by a return. Pieces of compiled code are
regions of whatever listing holds them (`Forms.makes`). A function that comes to the start of a region
stays there until it leaves it in one of these ways, whatever functions it calls in between
(`Reentry.Unless.region`).

A source text that a script loads is compiled to a function, and the code of its first statement lies
behind the three instructions that a function starts with (`Gen.places_first`). When a host calls the
function, control comes there after these instructions; `Script.reaches` computes whether it does.
-/

namespace LuaMachine

open Exec

/-- Code between two addresses that takes the shape `σ` to the shape `τ`, or leads to an exit. -/
def Region (code : Listing) (a b : Nat) (σ τ : Shape) (exits : List (Nat × Shape)) : Prop :=
  ∃ shape : Nat → Shape, shape a = σ ∧ shape b = τ ∧ ∀ x, a ≤ x → x < b →
    ∃ op, code x = some op ∧ op.Admits (shape x) ∧ ∀ y π, (y, π) ∈ op.passes x (shape x) →
      (a ≤ y ∧ y ≤ b ∧ shape y = π) ∨ (y, π) ∈ exits

theorem exists_listing {a x : Nat} {c : Code} (hlo : a ≤ x) (hhi : x < a + c.length) :
    ∃ op, listing a c x = some op := by
  unfold listing
  rw [if_pos hlo, List.getElem?_eq_getElem (by omega)]
  exact ⟨_, rfl⟩

/-- A piece is a region of what holds it, and its breaks are exits. -/
theorem Forms.makes {a b : Nat} {c : Code} {σ τ π : Shape} {breaks : List Nat}
    {exits : List (Nat × Shape)} (h : Forms a c b σ τ (alike π breaks) exits) :
    Makes a c breaks b fun code target =>
      Region code a b σ τ (exits ++ (target.map (·, π)).toList) := by
  obtain ⟨shape, h⟩ := h
  refine ⟨h.stop_eq, fun x hx => ?_, fun {code target redirect} hsome hr hcode => ?_⟩
  · obtain ⟨⟨t, ht⟩, -⟩ := h.holes (mem_alike.2 ⟨hx, rfl⟩)
    have hb := listing_bounds ht
    exact ⟨hb.1, h.stop_eq ▸ hb.2⟩
  refine ⟨shape, h.enters, h.leaves, fun x hlo hhi => ?_⟩
  obtain ⟨op, hop⟩ := exists_listing hlo (h.stop_eq ▸ hhi)
  have hx := hcode x op hop
  rw [hr x hlo hhi] at hx
  by_cases hmem : x ∈ breaks
  · obtain ⟨⟨t, ht⟩, hshape⟩ := h.holes (mem_alike.2 ⟨hmem, rfl⟩)
    obtain ⟨exit, rfl⟩ := Option.isSome_iff_exists.1 (hsome (List.ne_nil_of_mem hmem))
    rw [hop] at ht
    cases ht
    rw [if_pos hmem] at hx
    refine ⟨_, hx, ⟨Nat.zero_le _, trivial⟩, fun y ρ hy => .inr ?_⟩
    cases List.mem_singleton.1 hy
    rw [hshape]
    exact List.mem_append_right _ (List.mem_singleton_self _)
  · rw [if_neg hmem] at hx
    have hnot : ∀ ρ, (x, ρ) ∉ alike π breaks := fun ρ hρ => hmem (mem_alike.1 hρ).1
    obtain ⟨hadmits, hpasses⟩ := h.flow hop hnot
    exact ⟨op, hx, hadmits, fun y ρ hy => (hpasses y ρ hy).imp id (List.mem_append_left _)⟩

/-- A piece that leaves the stack as it was, with its breaks. -/
theorem Balances.makes {s s' : Site} {c : Code} {breaks : List Nat} (h : Balances s c breaks s') :
    Makes s.address c breaks s'.address fun code target =>
      Region code s.address s'.address [] [] (target.map (·, [])).toList := by
  have hforms := h.molds []
  simp only [List.append_nil, above_nil, above_alike] at hforms
  exact Forms.makes hforms

namespace Gen

/-- The code of a step of the compilation lies in a listing from `a` up to `b`. -/
def LiesIn (x : Gen Code) (code : Listing) (a b : Nat) : Prop :=
  ∃ s c s', x s = .ok (c, s') ∧ s.address = a ∧ s'.address = b ∧ Holds code (fun _ => none) a c

/-- A step of the compilation that starts at one site and ends at another has its code in a listing. -/
def LiesFrom (x : Gen Code) (s s' : Site) (code : Listing) : Prop :=
  ∃ c, x s = .ok (c, s') ∧ Holds code (fun _ => none) s.address c

/-- Wherever the code of a step of the compilation lies, the listing has a property there. -/
def Places (x : Gen Code) (P : Listing → Nat → Nat → Prop) : Prop :=
  ∀ s, x.Ensures s fun c s' =>
    Makes s.address c [] s'.address fun code _ => P code s.address s'.address

/-- Wherever the code of a step of the compilation lies, the listing has a property that depends on the
sites between which it was made. -/
def PlacesFrom (x : Gen Code) (P : Listing → Site → Site → Prop) : Prop :=
  ∀ s, x.Ensures s fun c s' => Makes s.address c [] s'.address fun code _ => P code s s'

variable {x : Gen Code} {code : Listing} {a b : Nat} {P : Listing → Nat → Nat → Prop}

theorem LiesFrom.has {P : Listing → Site → Site → Prop} {s s' : Site} (h : x.LiesFrom s s' code)
    (hx : PlacesFrom x P) : P code s s' := by
  obtain ⟨c, hok, hcode⟩ := h
  exact (hx s _ _ hok).unbroken (fun _ _ _ => rfl) hcode

theorem LiesIn.has (h : x.LiesIn code a b) (hx : Places x P) : P code a b := by
  obtain ⟨s, c, s', hok, rfl, rfl, hcode⟩ := h
  exact (hx s _ _ hok).unbroken (fun _ _ _ => rfl) hcode

theorem LiesIn.le (h : x.LiesIn code a b) (hx : Places x P) : a ≤ b := by
  obtain ⟨s, c, s', hok, rfl, rfl, hcode⟩ := h
  exact (hx s _ _ hok).stop_eq ▸ Nat.le_add_right _ _

end Gen

namespace OpCode

theorem exists_passes_of_mem_next {op : OpCode} {x y d : Nat} {σ : Shape} (hn : op.needs ≤ σ.length)
    (h : (y, d) ∈ op.next x σ.length) : ∃ τ, (y, τ) ∈ op.passes x σ ∧ τ.length = d := by
  have hshape := length_shape hn
  have heq : (op.passes x σ).map (fun p => (p.1, p.2.length)) = op.next x σ.length := by
    cases op <;>
      simp only [passes, next, List.map_cons, List.map_nil, hshape, List.length_drop]
  rw [← heq] at h
  obtain ⟨⟨y', τ⟩, hmem, hp⟩ := List.mem_map.1 h
  cases hp
  exact ⟨τ, hmem, rfl⟩

end OpCode

namespace Reentry

variable {r : Reentry} {bottom : Processor} {A : Activation} {w : World} {code : Listing}
  {k x a b : Nat} {op : OpCode} {σ τ : Shape} {exits : List (Nat × Shape)}

/-- An instruction goes on in the function, or returns from it. -/
theorem Next.either (hc : r.Calm) (hr : r.Sifting) (hop : w.ops x = some op) (hneeds : op.needs ≤ k)
    (hat : A.At k x w.processor) :
    r.Next bottom (A.Inside x (x + 1)) (fun u => (∃ y d, (y, d) ∈ op.next x k ∧
      A.At d y u.processor) ∨ u.processor.frames.size = A.outer.frames.size) w := by
  by_cases hret : ∃ n, op = .ret n
  · obtain ⟨n, rfl⟩ := hret
    exact (Next.ret hop hat).mono (fun _ => id) fun _ => .inr
  · exact (Next.flows hc hr hop hneeds (fun n h => hret ⟨n, h⟩) hat).mono (fun _ => id) fun _ => .inl

/-- A function stays in a region until it leaves it at its end, through an exit, or by a return. -/
theorem Unless.region (hc : r.Calm) (hr : r.Sifting) (h : Region code a b σ τ exits) (hab : a ≤ b)
    (hcode : w.Has code) (hat : A.At σ.length a w.processor) :
    r.Unless bottom (A.Inside a b) (fun u => (∃ y π, ((y, π) = (b, τ) ∨ (y, π) ∈ exits) ∧
      A.At π.length y u.processor) ∨ u.processor.frames.size = A.outer.frames.size) w := by
  obtain ⟨shape, rfl, rfl, hflow⟩ := h
  rcases Nat.eq_or_lt_of_le hab with rfl | hlt
  · exact .done (.inl ⟨a, _, .inl rfl, hat⟩)
  refine rounds hc hr (fun v => v.Has code ∧ ∃ x, a ≤ x ∧ x < b ∧
    A.At (shape x).length x v.processor) ⟨hcode, a, Nat.le_refl a, hlt, hat⟩ ?_
  rintro v ⟨hhas, x, hlo, hhi, hat⟩
  obtain ⟨op, hop, hadmits, hpasses⟩ := hflow x hlo hhi
  refine ((Next.either hc hr (hhas hop) hadmits.1 hat).later hc hr).mono
    (fun p hp => hp.mono hlo (Nat.succ_le_of_lt hhi)) ?_
  rintro u ⟨hl, ⟨y, d, hnext, hat'⟩ | hleft⟩
  · obtain ⟨π, hpass, rfl⟩ := OpCode.exists_passes_of_mem_next hadmits.1 hnext
    rcases hpasses y π hpass with ⟨hy, hy', rfl⟩ | hexit
    · rcases Nat.eq_or_lt_of_le hy' with rfl | hlt'
      · exact .inl (.inl ⟨_, _, .inl rfl, hat'⟩)
      · exact .inr ⟨hhas.mono hl, y, hy, hlt', hat'⟩
    · exact .inl (.inl ⟨_, _, .inr hexit, hat'⟩)
  · exact .inl (.inr hleft)

end Reentry

/-! ## Where the code of a statement lies -/

namespace Gen

variable {x : Gen Code} {code code' : Listing} {a b : Nat}

theorem LiesIn.mono (h : x.LiesIn code a b) (hcode : ∀ x op, code x = some op → code' x = some op) :
    x.LiesIn code' a b := by
  obtain ⟨s, c, s', hok, ha, hb, hholds⟩ := h
  exact ⟨s, c, s', hok, ha, hb, fun x op hx => hcode _ _ (hholds x op hx)⟩

/-- The first statement of a chunk stands behind its header, slots and arguments. -/
theorem first_chunk (name : String) (kind : HeaderKind) (st : Stat) (rest : List Stat) (s : Site) :
    (chunk name kind (st :: rest)).Ensures s fun c _ => ∀ code : Listing,
      Holds code (fun _ => none) s.address c → ∃ b, (stat st).LiesIn code (s.address + 3) b := by
  simp only [chunk, block, ensures_bind, ensures_reserve, ensures_emit]
  intro c s₁ hst cs s₂ _
  simp only [ensures_pure, ensures_setSpan, ensures_get, ensures_here]
  intro code hcode
  exact ⟨s₁.address, _, c, s₁, hst, rfl, rfl, hcode.left.right.left⟩

end Gen

/-- The first statement of a source text stands behind the three instructions that a function starts
with, in whatever holds the segment that the text was compiled to. -/
theorem Segment.first_compile {s s' : Segment} {options : CompileOptions} {source : String}
    {chunk : CompiledChunk} {st : Stat} {rest : List Stat}
    (h : s.compile options source = .ok (chunk, s'))
    (hparse : Block.parse options.chunk source = .ok (st :: rest)) :
    ∃ b, (Gen.stat st).LiesIn s'.ops (s.size + 3) b := by
  obtain ⟨body, c, spans, hparse', hc, rfl, -⟩ := compile_eq_ok h
  rw [hparse] at hparse'
  cases hparse'
  unfold Block.compile at hc
  simp only [StateT.run] at hc
  split at hc
  · next hrun =>
    cases hc
    refine Gen.first_chunk _ _ _ _ _ _ _ hrun _ fun x op hx => ?_
    exact (ops_append_of_le (listing_bounds hx).1).trans hx
  · cases hc

namespace Exec

theorem scripts_loaded {entry : Nat} {hasEnv : Bool} {env : Option TableId} {v : Value}
    {w w' : World} (h : loaded entry hasEnv env w = .ok v w') :
    w'.scripts = w.scripts ∧ w'.active = w.active := by
  cases hasEnv with
  | true =>
    cases h
    exact ⟨rfl, rfl⟩
  | false =>
    cases h
    exact ⟨rfl, rfl⟩

/-- The code of a source text that the running script compiles. -/
theorem compile_eq_ok {source : String} {env : Option TableId} {name : Option String}
    {kind : HeaderKind} {v : Value} {w w' : World} {s : Script}
    (hs : w.scripts[w.active.index]? = some s)
    (h : Exec.compile source env name kind w = .ok v w') :
    ∃ chunk segment, s.code.compile
      { chunk := name.getD s!"chunk_{s.sources.size}", source := s.sources.size, kind } source =
        .ok (chunk, segment) ∧ ∀ x op, segment.ops x = some op → w'.ops x = some op := by
  unfold Exec.compile at h
  rw [bind_ok (modifyScript_eq hs _)] at h
  have hs₁ := setScript_running hs { s with counters := s.counters.countCompilation }
  rw [bind_ok (script_eq hs₁), bind_ok (get_eq _)] at h
  cases hcompile : s.code.compile { chunk := name.getD s!"chunk_{s.sources.size}"
                                    source := s.sources.size
                                    kind } source with
  | error e =>
    simp only [hcompile] at h
    cases h
  | ok p =>
    obtain ⟨chunk, segment⟩ := p
    simp only [hcompile] at h
    rw [bind_ok (modifyScript_eq hs₁ _)] at h
    refine ⟨chunk, segment, rfl, fun x op hx => ?_⟩
    unfold World.ops
    obtain ⟨hscripts, hactive⟩ := scripts_loaded h
    rw [hscripts, hactive, Array.getD_eq_getD_getElem?, setScript_running hs₁]
    exact hx

end Exec

/-! ## Coming to a statement -/

namespace Reentry

/-- The world after some instructions of a loop that was entered at a height of the call stack. -/
def proceed (r : Reentry) (depth : Nat) : Nat → World → Option World
  | 0, w => some w
  | k + 1, w =>
    let s := w.scripts.getD w.active.index default
    match s.code.instruction? w.processor.ip with
    | none => none
    | some i => match hear s i w with
      | .error .. => none
      | .ok _ w₁ => match r.step depth i w₁ with
        | .ok none w₂ => proceed r depth k w₂
        | _ => none

theorem passes_of_proceed {r : Reentry} {depth k : Nat} {w u : World}
    (h : r.proceed depth k w = some u) : r.Passes depth k w u := by
  induction k generalizing w with
  | zero =>
    cases h
    exact .refl
  | succ k ih =>
    unfold proceed at h
    dsimp only at h
    split at h
    · cases h
    · next i hi =>
      split at h
      · cases h
      · next _ w₁ hheard =>
        split at h
        · next w₂ hstep => exact .step hi hheard hstep (ih h)
        · cases h

end Reentry

/-- Control comes to wherever the instructions of a loop lead. -/
theorem Comes.of_passes {n depth fuel k : Nat} {w u : World}
    (h : (Reentry.atDepth n).Passes depth k w u) :
    Comes n (.loop depth (fuel + k)) w n (.loop depth fuel) u := by
  induction h with
  | refl => exact .here
  | step hi hheard hstep _ ih => exact .inward (.next hi hheard hstep) ih

/-- A host calls a function, and some of its instructions are carried out. -/
theorem Comes.of_proceed {f : ClosureId} {args : List Value} {k : Nat} {w u v : World} (hnest : w.MayNest)
    (hframes : w.processor.frames.size = 0)
    (henter : enterClosure f (Value.flatten args) none none w.nested = .ok () u)
    (hproceed : (Reentry.atDepth 1).proceed 0 k u = some v) (hk : k ≤ stepLimit) :
    Comes 1 (.request (.call (.function f) args)) w 1 (.loop 0 (stepLimit - k)) v ∧ w.Follows v := by
  have hpasses := Reentry.passes_of_proceed hproceed
  refine ⟨.inward (.call hnest) (.inward (.closure rfl henter) ?_), ?_⟩
  · rw [hframes]
    have hcomes : Comes 1 (.loop 0 (stepLimit - k + k)) u 1 (.loop 0 (stepLimit - k)) v :=
      .of_passes hpasses
    rwa [Nat.sub_add_cancel hk] at hcomes
  · have hnested : w.Follows w.nested := World.follows_modifyScript fun _ _ => .refl _
    have hentered := (Reentry.Sifting.sifts_enterClosure (P := False) f none none
      False.elim |>.ok henter).1
    obtain ⟨bottom, hbottom⟩ := Processor.exists_bottom 0
    exact (hnested.trans hentered).trans
      ((hbottom ▸ hpasses : (Reentry.atDepth 1).Passes bottom.frames.size k u v).follows
        (Reentry.calm_atDepth 1) bottom)

namespace World

/-- What is checked of a source text that a new script loads as a function: a host calls it, and after some
instructions, which bring no other code, the tree of the text and the world pass a test. -/
def comesTo (source : String) (args : List Value) (k : Nat) (test : Block → World → Bool) : Bool :=
  match Script.create {} {} with
  | .error .. => false
  | .ok _ w₀ => match w₀.scripts[w₀.active.index]? with
    | none => false
    | some s => s.code.size == 0 && match Exec.loadFunction source none none w₀ with
      | .ok (.function f) w =>
        let s' := w.scripts.getD w.active.index default
        s'.nesting < s'.options.maxNestedCalls && w.processor.frames.size == 0 &&
        match Block.parse s!"chunk_{s.sources.size}" source, enterClosure f (Value.flatten args) none none w.nested with
        | .ok body, .ok _ u => match (Reentry.atDepth 1).proceed 0 k u with
          | some v => v.scripts.map (·.code.size) == w.scripts.map (·.code.size) && test body v
          | none => false
        | _, _ => false
      | _ => false

/-- A new script has loaded a source text as a function, and a later world has no other code. -/
structure Arrives (source : String) (body : Block) (w v : World) : Prop where
  hosted : w.Hosted
  loads : ∃ i w₀ s f, Script.create {} {} = .ok i w₀ ∧ w₀.scripts[w₀.active.index]? = some s ∧
    s.code.size = 0 ∧ Block.parse s!"chunk_{s.sources.size}" source = .ok body ∧
    Exec.loadFunction source none none w₀ = .ok f w
  later : w.Later v
  sizes : v.scripts.map (·.code.size) = w.scripts.map (·.code.size)

/-- A text that passes the test, with a world of a host in which it is called. -/
theorem exists_of_comesTo {source : String} {args : List Value} {k : Nat} {test : Block → World → Bool}
    (hk : k ≤ stepLimit) (h : comesTo source args k test = true) :
    ∃ (w v : World) (q : Request) (fuel : Nat) (body : Block), Arrives source body w v ∧
      Comes 1 (.request q) w 1 (.loop 0 fuel) v ∧ test body v = true := by
  unfold comesTo at h
  cases hscript : Script.create {} {} with
  | error e w => simp [hscript] at h
  | ok i w₀ =>
    simp only [hscript] at h
    have hw₀ : w₀.Hosted := .script (.empty rfl rfl rfl) hscript
    split at h
    · cases h
    · next s hs =>
      have hactive : w₀.active.index < w₀.scripts.size := (Array.getElem?_eq_some_iff.1 hs).1
      simp only [Bool.and_eq_true, beq_iff_eq] at h
      obtain ⟨hsize, h⟩ := h
      split at h
      · next f w hload =>
        have hw : w.Hosted := .provides hw₀ hactive (.loadFunction _ none none) (.inl ⟨_, hload⟩)
        simp only [Bool.and_eq_true, decide_eq_true_eq, beq_iff_eq] at h
        obtain ⟨⟨hnest, hframes⟩, h⟩ := h
        split at h
        · next body _ u hparse henter =>
          split at h
          · next v hproceed =>
            simp only [Bool.and_eq_true, beq_iff_eq] at h
            obtain ⟨hsizes, htest⟩ := h
            obtain ⟨hcomes, hfollows⟩ := Comes.of_proceed hnest hframes henter hproceed hk
            refine ⟨w, v, _, _, body, ⟨hw, ?_, hfollows.later, hsizes⟩, hcomes, htest⟩
            exact ⟨i, w₀, s, _, hscript, hs, hsize, hparse, hload⟩
          · cases h
        · cases h
      · cases h

namespace Arrives

variable {source : String} {body : Block} {w v : World}

theorem genuine (h : Arrives source body w v) : v.Genuine := by
  obtain ⟨i, w₀, s, f, hcreate, -, -, -, hload⟩ := h.loads
  have hempty : World.Genuine {} := fun i s hs => by cases hs
  exact ((hempty.createScript hcreate).compile hload).of_sizes h.later h.sizes

/-- The code of the first statement. -/
theorem first (h : Arrives source body w v) (hip : v.processor.ip = 3) {st : Stat} {rest : Block}
    (hbody : body = st :: rest) : ∃ b, (Gen.stat st).LiesIn v.ops v.processor.ip b := by
  obtain ⟨i, w₀, s, f, -, hs, hsize, hparse, hload⟩ := h.loads
  obtain ⟨chunk, segment, hcompile, hops⟩ := compile_eq_ok hs hload
  subst hbody
  -- Three instructions, with which every function starts, lie in front of it.
  obtain ⟨b, hb⟩ := Segment.first_compile hcompile hparse
  rw [hsize] at hb
  exact ⟨b, hip ▸ hb.mono fun x op hx => h.later.ops (hops x op hx)⟩

end Arrives

end World

end LuaMachine
