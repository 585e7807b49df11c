import LuaMachine.Proofs.Code.Verification
import LuaMachine.Proofs.Grammar.Targets

/-!
# Which chunks are accepted

A `break` belongs into the body of a loop of its own function, and an ellipsis into a function whose
parameters end with one; the chunk itself is such a function. The generator finds out by the loops
that are open and by the function that it is in, and both are what they were when it has passed a
construct (`Gen.Decides`). So a parsed chunk is refused exactly if something is out of place in it
(`blockMisplaced`), and for the first thing that is.

Main statement: `Segment.compile_iff_placed`.
-/

namespace LuaMachine

/-! ## What is out of place -/

/-- A break that is in no loop of its function, or an ellipsis in a function without further
arguments. -/
inductive Misplaced where
  | break (line : Nat)
  | ellipsis
deriving DecidableEq, Repr

/-- What a chunk with something out of place is refused for. -/
def Misplaced.cause : Misplaced → SyntaxCause
  | .break line => .breakOutsideLoop line
  | .ellipsis => .varargOutsideFunction

mutual

/-- What is out of place in an expression of a function that has, or has not, further arguments: its
ellipses, and whatever is out of place in the functions that it makes. First things come first. -/
def Expr.misplaced (inVararg : Bool) : Expr → List Misplaced
  | .nil | .boolean _ | .number _ | .string _ | .name _ => []
  | .varargs => if inVararg then [] else [.ellipsis]
  | .function body => body.misplaced
  | .table fs => fieldsMisplaced inVararg fs
  | .binary _ left right | .logical _ left right =>
    left.misplaced inVararg ++ right.misplaced inVararg
  | .unary _ e | .paren e => e.misplaced inVararg
  | .index object key => object.misplaced inVararg ++ key.misplaced inVararg
  | .call f args => f.misplaced inVararg ++ exprsMisplaced inVararg args
  | .methodCall object _ args => object.misplaced inVararg ++ exprsMisplaced inVararg args

def exprsMisplaced (inVararg : Bool) : List Expr → List Misplaced
  | [] => []
  | e :: rest => e.misplaced inVararg ++ exprsMisplaced inVararg rest

def Field.misplaced (inVararg : Bool) : Field → List Misplaced
  | .positional value | .named _ value => value.misplaced inVararg
  | .keyed key value => key.misplaced inVararg ++ value.misplaced inVararg

def fieldsMisplaced (inVararg : Bool) : List Field → List Misplaced
  | [] => []
  | f :: rest => f.misplaced inVararg ++ fieldsMisplaced inVararg rest

/-- A function has the ellipsis that its parameters end with, and no loop around it counts. -/
def FunctionBody.misplaced : FunctionBody → List Misplaced
  | .mk _ _ isVararg body _ _ => blockMisplaced isVararg false body

def Branches.misplaced (inVararg inLoop : Bool) : Branches → List Misplaced
  | .done => []
  | .otherwise body => blockMisplaced inVararg inLoop body
  | .clause condition body _ rest => condition.misplaced inVararg ++
      (blockMisplaced inVararg inLoop body ++ rest.misplaced inVararg inLoop)

def Stat.misplaced (inVararg inLoop : Bool) : Stat → List Misplaced
  | .local _ values _ | .return values _ => exprsMisplaced inVararg values
  | .assign targets values _ => exprsMisplaced inVararg values ++ exprsMisplaced inVararg targets
  | .call e _ => e.misplaced inVararg
  | .do body _ => blockMisplaced inVararg inLoop body
  | .while condition body _ _ => condition.misplaced inVararg ++ blockMisplaced inVararg true body
  | .repeat body condition _ => blockMisplaced inVararg true body ++ condition.misplaced inVararg
  | .if branches _ => branches.misplaced inVararg inLoop
  | .numericFor _ first limit step body _ _ => first.misplaced inVararg ++
      (limit.misplaced inVararg ++ (step.misplaced inVararg ++ blockMisplaced inVararg true body))
  | .genericFor _ values body _ _ =>
    exprsMisplaced inVararg values ++ blockMisplaced inVararg true body
  | .function _ _ body _ | .localFunction _ body _ => body.misplaced
  | .break extent => if inLoop then [] else [.break extent.line]

def blockMisplaced (inVararg inLoop : Bool) : List Stat → List Misplaced
  | [] => []
  | st :: rest => st.misplaced inVararg inLoop ++ blockMisplaced inVararg inLoop rest

end

/-! ## Where the generator stands -/

/-- Where a compilation stands: for each function around it whether it has further arguments, and the
number of loops of the innermost one. -/
structure Standing where
  functions : List Bool
  loops : Nat

def Site.standing (s : Site) : Standing := ⟨s.scopes.functions.map (·.isVararg), s.loops.length⟩

theorem Site.standing_scopes (s : Site) {scopes : ScopeStack}
    (h : scopes.functions.map (·.isVararg) = s.scopes.functions.map (·.isVararg)) :
    { s with scopes }.standing = s.standing := congrArg (Standing.mk · s.loops.length) h

namespace Standing

def inVararg (σ : Standing) : Bool := σ.functions.headD false

def inLoop (σ : Standing) : Bool := 0 < σ.loops

/-- Within a loop. -/
def loop (σ : Standing) : Standing := { σ with loops := σ.loops + 1 }

theorem inLoop_loop (σ : Standing) : σ.loop.inLoop = true := decide_eq_true (Nat.succ_pos _)

end Standing

namespace ScopeStack

theorem isVararg_current (s : ScopeStack) :
    s.current.isVararg = (s.functions.map (·.isVararg)).headD false := by
  obtain ⟨_ | ⟨f, fs⟩⟩ := s <;> rfl

/-- A change of the innermost function that leaves its parameters alone. -/
theorem isVararg_modifyCurrent (s : ScopeStack) {f : FunctionScope → FunctionScope}
    (hf : ∀ g, (f g).isVararg = g.isVararg) :
    (s.modifyCurrent f).functions.map (·.isVararg) = s.functions.map (·.isVararg) := by
  obtain ⟨_ | ⟨g, fs⟩⟩ := s
  · rfl
  · simp [modifyCurrent, hf]

theorem isVararg_declare (s : ScopeStack) (name : String) :
    (s.declare name).functions.map (·.isVararg) = s.functions.map (·.isVararg) :=
  s.isVararg_modifyCurrent fun _ => rfl

theorem isVararg_resolveIn (name : String) : ∀ fs : List FunctionScope,
    (resolveIn name fs).2.map (·.isVararg) = fs.map (·.isVararg)
  | [] => rfl
  | f :: outer => by
    have ih := isVararg_resolveIn name outer
    rw [resolveIn]
    split
    · rfl
    · split
      · rfl
      · split <;> simp_all [FunctionScope.addUpvalue]

theorem isVararg_resolve (s : ScopeStack) (name : String) :
    (s.resolve name).2.functions.map (·.isVararg) = s.functions.map (·.isVararg) := by
  have hname := isVararg_resolveIn name s.functions
  unfold resolve
  split
  · simp_all
  · next fs _ =>
    have henv := isVararg_resolveIn envName fs
    split
    · simp_all
    · split <;> simp_all

end ScopeStack

namespace Gen

variable {α β : Type} {σ σ₁ σ' : Standing} {ms ns : List Misplaced}

/-- From where a step stands, it goes on to `σ'` if nothing is out of place, and fails for the first
thing that is. -/
def Decides (σ : Standing) (x : Gen α) (ms : List Misplaced) (σ' : Standing) : Prop :=
  ∀ s : Site, s.standing = σ → match x s with
    | .error e => ms.head?.map Misplaced.cause = some e.cause ∧ e.premature = false
    | .ok (_, s') => ms = [] ∧ s'.standing = σ'

/-! ## The rules -/

theorem Decides.bind {x : Gen α} {f : α → Gen β} (hx : Decides σ x ms σ₁)
    (hf : ∀ a, Decides σ₁ (f a) ns σ') : Decides σ (x >>= f) (ms ++ ns) σ' := by
  intro s hs
  have hfirst := hx s hs
  have hsplit : (x >>= f) s = (x s >>= fun p => f p.1 p.2) := rfl
  rw [hsplit]
  cases hrun : x s with
  | error e =>
    rw [hrun] at hfirst
    obtain ⟨hcause, hfinal⟩ := hfirst
    refine ⟨?_, hfinal⟩
    obtain ⟨m, hm, hcause⟩ := Option.map_eq_some_iff.1 hcause
    rw [List.head?_append, hm]
    exact congrArg some hcause
  | ok p =>
    rw [hrun] at hfirst
    obtain ⟨rfl, hs₁⟩ := hfirst
    exact hf p.1 p.2 hs₁

/-- Nothing is out of place in the first step. -/
theorem Decides.then {x : Gen α} {f : α → Gen β} (hx : Decides σ x [] σ₁)
    (hf : ∀ a, Decides σ₁ (f a) ns σ') : Decides σ (x >>= f) ns σ' :=
  Decides.bind hx hf

/-- Nothing is out of place in what follows. -/
theorem Decides.before {x : Gen α} {f : α → Gen β} (hx : Decides σ x ms σ₁)
    (hf : ∀ a, Decides σ₁ (f a) [] σ') : Decides σ (x >>= f) ms σ' := by
  have hboth := hx.bind hf
  rwa [List.append_nil] at hboth

/-- A step that cannot fail. -/
theorem decides_of_ok {x : Gen α} (h : ∀ s : Site, s.standing = σ → ∃ a s',
    x s = .ok (a, s') ∧ s'.standing = σ') : Decides σ x [] σ' := by
  intro s hs
  obtain ⟨a, s', hrun, hs'⟩ := h s hs
  rw [hrun]
  exact ⟨rfl, hs'⟩

theorem decides_pure (a : α) : Decides σ (pure a) [] σ := decides_of_ok fun s hs => ⟨a, s, rfl, hs⟩

theorem decides_get_bind {f : Site → Gen β} (hf : ∀ s : Site, s.standing = σ →
    Decides σ (f s) ms σ') : Decides σ (get >>= f) ms σ' := fun s hs => hf s hs s hs

theorem decides_set {s : Site} (h : s.standing = σ') : Decides σ (set s) [] σ' :=
  decides_of_ok fun _ _ => ⟨_, s, rfl, h⟩

theorem decides_modify {f : Site → Site} (hf : ∀ s : Site, s.standing = σ → (f s).standing = σ') :
    Decides σ (modify f) [] σ' := decides_of_ok fun s hs => ⟨_, f s, rfl, hf s hs⟩

theorem decides_emit (op : OpCode) : Decides σ (emit op) [] σ :=
  decides_of_ok fun _ hs => ⟨_, _, rfl, hs⟩

theorem decides_reserve : Decides σ reserve [] σ := decides_of_ok fun _ hs => ⟨_, _, rfl, hs⟩

theorem decides_here : Decides σ here [] σ := decides_of_ok fun s hs => ⟨_, s, rfl, hs⟩

theorem decides_currentSpan : Decides σ currentSpan [] σ := decides_of_ok fun s hs => ⟨_, s, rfl, hs⟩

theorem decides_setSpan (span : Option Span) : Decides σ (setSpan span) [] σ :=
  decides_modify fun _ hs => hs

theorem decides_markSpan (span : Span) : Decides σ (markSpan span) [] σ :=
  decides_modify fun _ hs => hs

theorem decides_spanOf (e : Extent) : Decides σ (spanOf e) [] σ :=
  decides_of_ok fun s hs => ⟨_, s, rfl, hs⟩

theorem decides_markExtent (e : Extent) : Decides σ (markExtent e) [] σ :=
  (decides_spanOf e).then fun _ => decides_markSpan _

theorem decides_failHere (m : Misplaced) : Decides σ (failHere m.cause : Gen α) [m] σ := by
  refine decides_get_bind fun s _ => ?_
  cases s.spans with
  | nil => exact fun _ _ => ⟨rfl, rfl⟩
  | cons span spans => exact fun _ _ => ⟨rfl, rfl⟩

theorem decides_modifyScopes {f : ScopeStack → ScopeStack}
    (hf : ∀ s, (f s).functions.map (·.isVararg) = s.functions.map (·.isVararg)) :
    Decides σ (modifyScopes f) [] σ :=
  decides_modify fun s hs => (s.standing_scopes (hf s.scopes)).trans hs

theorem decides_pushBlock : Decides σ (modifyScopes (·.pushBlock)) [] σ :=
  decides_modifyScopes fun s => s.isVararg_modifyCurrent fun _ => rfl

theorem decides_popBlock : Decides σ (modifyScopes (·.popBlock)) [] σ :=
  decides_modifyScopes fun s => s.isVararg_modifyCurrent fun _ => rfl

theorem decides_resolve (name : String) : Decides σ (resolve name) [] σ :=
  decides_of_ok fun s hs =>
    ⟨_, _, rfl, (s.standing_scopes (s.scopes.isVararg_resolve name)).trans hs⟩

theorem decides_declare (name : String) : Decides σ (declare name) [] σ :=
  decides_of_ok fun s hs =>
    ⟨_, _, rfl, (s.standing_scopes (s.scopes.isVararg_declare name)).trans hs⟩

theorem decides_declareAll (names : List String) :
    Decides σ (forIn names PUnit.unit fun name _ => do
      modifyScopes (·.declare name)
      pure (ForInStep.yield PUnit.unit)) [] σ := by
  induction names with
  | nil => exact decides_pure _
  | cons name names ih =>
    rw [List.forIn_cons]
    simp only [bind_assoc, pure_bind]
    exact (decides_modifyScopes fun s => s.isVararg_declare name).then fun _ => ih

theorem decides_pushLoop : Decides σ pushLoop [] σ.loop :=
  decides_modify fun s hs => by rw [← hs]; rfl

theorem decides_popLoop : Decides σ.loop popLoop [] σ := by
  refine decides_of_ok fun s hs => ⟨_, _, rfl, ?_⟩
  obtain ⟨hfunctions, hloops⟩ := Standing.mk.inj hs
  rw [Site.standing, hfunctions, List.length_tail, hloops]
  rfl

/-! ## Every construct -/

theorem decides_scalarAfter (e : Expr) : Decides σ (scalarAfter e) [] σ := by
  unfold scalarAfter
  split
  · exact decides_emit _
  · exact decides_pure _

/-- An expression cut down to one value. -/
theorem decides_scalar {e : Expr} (he : Decides σ (expr e) ms σ) {f : Code → Code → Gen β}
    (hf : ∀ c one, Decides σ (f c one) ns σ') :
    Decides σ (do let c ← expr e; let one ← scalarAfter e; f c one) (ms ++ ns) σ' :=
  he.bind fun c => (decides_scalarAfter e).then fun one => hf c one

theorem decides_scalar_last {e : Expr} (he : Decides σ (expr e) ms σ) {f : Code → Code → Gen β}
    (hf : ∀ c one, Decides σ (f c one) [] σ') :
    Decides σ (do let c ← expr e; let one ← scalarAfter e; f c one) ms σ' :=
  he.before fun c => (decides_scalarAfter e).then fun one => hf c one

/-- A block with its own names. -/
theorem decides_inner {body : List Stat} (hbody : Decides σ (block body) ms σ) {f : Code → Gen β}
    (hf : ∀ c, Decides σ (f c) ns σ') :
    Decides σ (do
      modifyScopes (·.pushBlock)
      let c ← block body
      modifyScopes (·.popBlock)
      f c) (ms ++ ns) σ' :=
  decides_pushBlock.then fun _ => hbody.bind fun c => decides_popBlock.then fun _ => hf c

theorem decides_inner_last {body : List Stat} (hbody : Decides σ (block body) ms σ)
    {f : Code → Gen β} (hf : ∀ c, Decides σ (f c) [] σ') :
    Decides σ (do
      modifyScopes (·.pushBlock)
      let c ← block body
      modifyScopes (·.popBlock)
      f c) ms σ' :=
  decides_pushBlock.then fun _ => hbody.before fun c => decides_popBlock.then fun _ => hf c

theorem decides_bindNames : ∀ (names : List String) (i : Nat), Decides σ (bindNames names i) [] σ
  | [], _ => by
    rw [bindNames]
    exact decides_pure _
  | name :: names, i => by
    rw [bindNames]
    refine (decides_declare name).then fun slot => (decides_emit _).then fun bind => ?_
    exact (decides_bindNames names (i + 1)).then fun binds => decides_pure _

theorem decides_assignField : ∀ keys : List String, Decides σ (assignField keys) [] σ
  | [] => by
    rw [assignField]
    exact decides_pure _
  | [key] => by
    rw [assignField]
    exact (decides_emit _).then fun k => (decides_emit _).then fun store => decides_pure _
  | key :: key' :: rest => by
    rw [assignField]
    · refine (decides_emit _).then fun k => (decides_emit _).then fun index => ?_
      exact (decides_assignField (key' :: rest)).then fun fields => decides_pure _
    · simp

mutual

theorem decides_expr : ∀ (e : Expr) (σ : Standing), e.WellTargeted →
    Decides σ (expr e) (e.misplaced σ.inVararg) σ
  | .nil, σ, _ => by
    rw [expr]
    exact decides_emit _
  | .boolean _, σ, _ => by
    rw [expr]
    exact decides_emit _
  | .number _, σ, _ => by
    rw [expr]
    exact decides_emit _
  | .string _, σ, _ => by
    rw [expr]
    exact decides_emit _
  | .varargs, σ, _ => by
    rw [expr, Expr.misplaced]
    refine decides_get_bind fun s hs => ?_
    have hflag : s.scopes.current.isVararg = σ.inVararg := by
      rw [s.scopes.isVararg_current, ← hs]
      rfl
    rw [hflag]
    split
    · exact decides_emit _
    · exact decides_failHere .ellipsis
  | .function body, σ, h => by
    rw [expr]
    exact decides_function body σ h
  | .table fs, σ, h => by
    rw [expr]
    refine (decides_emit _).then fun new => ?_
    exact (decides_fields fs 1 σ h).before fun c => decides_pure _
  | .binary op left right, σ, h => by
    rw [expr]
    refine decides_scalar (decides_expr left σ h.1) fun l one => ?_
    refine decides_scalar_last (decides_expr right σ h.2) fun r two => ?_
    exact (decides_emit _).then fun apply => decides_pure _
  | .logical op left right, σ, h => by
    rw [expr]
    refine decides_scalar (decides_expr left σ h.1) fun l one => decides_reserve.then fun jump => ?_
    refine decides_scalar_last (decides_expr right σ h.2) fun r two => ?_
    exact decides_here.then fun exit => decides_pure _
  | .unary op operand, σ, h => by
    simp only [expr]
    refine decides_scalar_last (decides_expr operand σ h) fun c one => ?_
    exact (decides_emit _).then fun apply => decides_pure _
  | .name t, σ, _ => by
    rw [expr]
    exact (decides_resolve t).then fun symbol => decides_emit _
  | .index object key, σ, h => by
    rw [expr]
    refine decides_scalar (decides_expr object σ h.1) fun o one => ?_
    refine decides_scalar_last (decides_expr key σ h.2) fun k two => ?_
    exact (decides_emit _).then fun index => decides_pure _
  | .call f args, σ, h => by
    rw [expr]
    refine decides_scalar (decides_expr f σ h.1) fun c one => ?_
    refine (decides_exprs args σ h.2).before fun vs => ?_
    exact (decides_emit _).then fun call => decides_pure _
  | .methodCall object method args, σ, h => by
    rw [expr]
    refine decides_scalar (decides_expr object σ h.1) fun o one => (decides_emit _).then fun m => ?_
    refine (decides_exprs args σ h.2).before fun vs => ?_
    exact (decides_emit _).then fun call => decides_pure _
  | .paren e, σ, h => by
    rw [expr]
    exact decides_scalar_last (decides_expr e σ h) fun c one => decides_pure _

theorem decides_exprs : ∀ (es : List Expr) (σ : Standing), exprsWellTargeted es →
    Decides σ (exprs es) (exprsMisplaced σ.inVararg es) σ
  | [], σ, _ => by
    rw [exprs]
    exact decides_pure _
  | [e], σ, h => by
    rw [exprs, exprsMisplaced, exprsMisplaced, List.append_nil]
    exact decides_expr e σ h.1
  | e :: e' :: rest, σ, h => by
    rw [exprs, exprsMisplaced]
    refine decides_scalar (decides_expr e σ h.1) fun c one => ?_
    exact (decides_exprs (e' :: rest) σ h.2).before fun vs => decides_pure _

theorem decides_fields : ∀ (fs : List Field) (position : Nat) (σ : Standing), fieldsWellTargeted fs →
    Decides σ (fields fs position) (fieldsMisplaced σ.inVararg fs) σ
  | [], _, σ, _ => by
    rw [fields]
    exact decides_pure _
  | .positional value :: rest, position, σ, h => by
    rw [fields, fieldsMisplaced]
    refine (decides_expr value σ h.1).bind fun c => ?_
    have hrest : ∀ one : Code, Decides σ (do
        let append ← emit (.tableAppend position (rest.isEmpty && value.isMultiValue))
        return c ++ one ++ append ++ (← fields rest (position + 1)))
        (fieldsMisplaced σ.inVararg rest) σ := fun one =>
      (decides_emit _).then fun append =>
        (decides_fields rest (position + 1) σ h.2).before fun cs => decides_pure _
    dsimp only
    split
    · exact hrest []
    · exact (decides_scalarAfter value).then hrest
  | .named name value :: rest, position, σ, h => by
    rw [fields, fieldsMisplaced]
    refine (decides_emit _).then fun key => ?_
    refine decides_scalar (decides_expr value σ h.1) fun c one => (decides_emit _).then fun store => ?_
    exact (decides_fields rest position σ h.2).before fun cs => decides_pure _
  | .keyed key value :: rest, position, σ, h => by
    rw [fields, fieldsMisplaced, Field.misplaced, List.append_assoc]
    refine decides_scalar (decides_expr key σ h.1.1) fun k one => ?_
    refine decides_scalar (decides_expr value σ h.1.2) fun c two => ?_
    refine (decides_emit _).then fun store => ?_
    exact (decides_fields rest position σ h.2).before fun cs => decides_pure _

theorem decides_assignTo : ∀ (targets : List Expr) (i : Nat) (σ : Standing),
    targets.all (·.isAssignable) → exprsWellTargeted targets →
    Decides σ (assignTo targets i) (exprsMisplaced σ.inVararg targets) σ
  | [], _, σ, _, _ => by
    rw [assignTo]
    exact decides_pure _
  | e :: rest, i, σ, hall, h => by
    simp only [List.all_cons, Bool.and_eq_true] at hall
    obtain ⟨he, hrest⟩ := hall
    cases e with
    | name t =>
      rw [assignTo]
      refine (decides_resolve t).then fun symbol => (decides_emit _).then fun store => ?_
      exact (decides_assignTo rest (i + 1) σ hrest h.2).before fun cs => decides_pure _
    | index object key =>
      rw [assignTo, exprsMisplaced, Expr.misplaced, List.append_assoc]
      refine decides_scalar (decides_expr object σ h.1.1) fun o one => ?_
      refine decides_scalar (decides_expr key σ h.1.2) fun k two => ?_
      refine (decides_emit _).then fun store => ?_
      exact (decides_assignTo rest (i + 1) σ hrest h.2).before fun cs => decides_pure _
    | _ => cases he

/-- The loops around a function are put aside for its body, and its parameters decide on ellipses. -/
theorem decides_function : ∀ (body : FunctionBody) (σ : Standing), body.WellTargeted →
    Decides σ (function body) body.misplaced σ
  | .mk name params isVararg body extent closing, σ, h => by
    rw [function, FunctionBody.misplaced]
    refine decides_reserve.then fun skip => decides_currentSpan.then fun outer => ?_
    refine (decides_spanOf extent).then fun span => (decides_markSpan _).then fun _ => ?_
    refine decides_reserve.then fun header => decides_reserve.then fun begin_ => ?_
    refine (decides_emit _).then fun args => ?_
    have hpush : Decides σ (modifyScopes (·.pushFunction isVararg)) []
        ⟨isVararg :: σ.functions, σ.loops⟩ := decides_modify fun s hs => by rw [← hs]; rfl
    refine hpush.then fun _ => (decides_declareAll params).then fun _ => ?_
    refine decides_get_bind fun s hs => ?_
    have hin : Decides ⟨isVararg :: σ.functions, σ.loops⟩
        (modify fun s : Site => { s with loops := [] }) [] ⟨isVararg :: σ.functions, 0⟩ :=
      decides_modify fun t ht => congrArg (Standing.mk · 0) (Standing.mk.inj ht).1
    refine hin.then fun _ => (decides_block body _ h).before fun inner => ?_
    have hout : Decides ⟨isVararg :: σ.functions, 0⟩
        (modify fun t : Site => { t with loops := s.loops }) [] ⟨isVararg :: σ.functions, σ.loops⟩ :=
      decides_modify fun t ht =>
        congr (congrArg Standing.mk (Standing.mk.inj ht).1) (Standing.mk.inj hs).2
    refine hout.then fun _ => (decides_markExtent closing).then fun _ => ?_
    refine (decides_emit _).then fun ret => decides_get_bind fun s' _ => ?_
    have hpop : Decides ⟨isVararg :: σ.functions, σ.loops⟩ (modifyScopes (·.popFunction)) [] σ := by
      refine decides_modify fun t ht => ?_
      obtain ⟨hfunctions, hloops⟩ := Standing.mk.inj ht
      simp only [Site.standing, ScopeStack.popFunction, List.map_tail, hfunctions, hloops]
      rfl
    refine hpop.then fun _ => decides_here.then fun after => (decides_setSpan outer).then fun _ => ?_
    exact (decides_emit _).then fun closure => decides_pure _

theorem decides_block : ∀ (body : List Stat) (σ : Standing), blockWellTargeted body →
    Decides σ (block body) (blockMisplaced σ.inVararg σ.inLoop body) σ
  | [], σ, _ => by
    rw [block]
    exact decides_pure _
  | st :: rest, σ, h => by
    rw [block, blockMisplaced]
    refine (decides_stat st σ h.1).bind fun c => ?_
    exact (decides_block rest σ h.2).before fun cs => decides_pure _

theorem decides_stat : ∀ (st : Stat) (σ : Standing), st.WellTargeted →
    Decides σ (stat st) (st.misplaced σ.inVararg σ.inLoop) σ
  | .local names values extent, σ, h => by
    rw [stat]
    refine (decides_markExtent extent).then fun _ => (decides_exprs values σ h).before fun vs => ?_
    refine (decides_emit _).then fun tuple => (decides_bindNames names 0).then fun binds => ?_
    exact (decides_emit _).then fun drop => decides_pure _
  | .assign targets values extent, σ, h => by
    rw [stat]
    refine (decides_markExtent extent).then fun _ => (decides_exprs values σ h.2.2).bind fun vs => ?_
    refine (decides_emit _).then fun tuple => ?_
    refine (decides_assignTo targets 0 σ h.1 h.2.1).before fun stores => ?_
    exact (decides_emit _).then fun drop => decides_pure _
  | .call e extent, σ, h => by
    rw [stat]
    refine (decides_markExtent extent).then fun _ => (decides_expr e σ h).before fun c => ?_
    exact (decides_emit _).then fun drop => decides_pure _
  | .do body extent, σ, h => by
    rw [stat]
    refine (decides_markExtent extent).then fun _ => ?_
    exact decides_inner_last (decides_block body σ h) fun c => decides_pure _
  | .while condition body extent closing, σ, h => by
    rw [stat]
    refine (decides_markExtent extent).then fun _ => decides_here.then fun start => ?_
    refine decides_scalar (decides_expr condition σ h.1) fun test one => ?_
    refine decides_reserve.then fun leave => decides_pushLoop.then fun _ => ?_
    have hbody := decides_block body σ.loop h.2
    rw [σ.inLoop_loop] at hbody
    refine decides_inner_last hbody fun inner => (decides_markExtent closing).then fun _ => ?_
    refine (decides_emit _).then fun back => decides_here.then fun exit => ?_
    exact decides_popLoop.then fun breaks => decides_pure _
  | .repeat body condition extent, σ, h => by
    rw [stat]
    refine (decides_markExtent extent).then fun _ => decides_here.then fun start => ?_
    refine decides_pushLoop.then fun _ => decides_pushBlock.then fun _ => ?_
    have hbody := decides_block body σ.loop h.2
    rw [σ.inLoop_loop] at hbody
    refine hbody.bind fun inner => (decides_markExtent extent).then fun _ => ?_
    refine decides_scalar_last (decides_expr condition σ.loop h.1) fun test one => ?_
    refine (decides_emit _).then fun again => decides_popBlock.then fun _ => ?_
    exact decides_here.then fun exit => decides_popLoop.then fun breaks => decides_pure _
  | .if branches extent, σ, h => by
    rw [stat]
    refine (decides_markExtent extent).then fun _ => decides_here.then fun start => ?_
    refine (decides_clauses branches σ h).before fun p => ?_
    exact decides_here.then fun exit => decides_pure _
  | .numericFor var first limit step body extent closing, σ, h => by
    rw [stat]
    refine (decides_markExtent extent).then fun _ => ?_
    refine decides_scalar (decides_expr first σ h.1) fun a one => ?_
    refine decides_scalar (decides_expr limit σ h.2.1) fun b two => ?_
    refine decides_scalar (decides_expr step σ h.2.2.1) fun c three => ?_
    refine (decides_emit _).then fun prep => decides_reserve.then fun loop => ?_
    refine decides_pushLoop.then fun _ => decides_pushBlock.then fun _ => ?_
    refine (decides_declare var).then fun slot => (decides_emit _).then fun bind => ?_
    have hbody := decides_block body σ.loop h.2.2.2
    rw [σ.inLoop_loop] at hbody
    refine hbody.before fun inner => decides_popBlock.then fun _ => ?_
    refine (decides_markExtent closing).then fun _ => (decides_emit _).then fun step => ?_
    refine (decides_emit _).then fun back => decides_here.then fun exit => ?_
    exact (decides_emit _).then fun drop => decides_popLoop.then fun breaks => decides_pure _
  | .genericFor names values body extent closing, σ, h => by
    rw [stat]
    refine (decides_markExtent extent).then fun _ => (decides_exprs values σ h.1).bind fun vs => ?_
    refine (decides_emit _).then fun tuple => (decides_emit _).then fun prep => ?_
    refine decides_here.then fun start => (decides_emit _).then fun copy₁ => ?_
    refine (decides_emit _).then fun copy₂ => (decides_emit _).then fun copy₃ => ?_
    refine (decides_emit _).then fun call => decides_reserve.then fun check => ?_
    refine decides_pushLoop.then fun _ => decides_pushBlock.then fun _ => ?_
    refine (decides_bindNames names 0).then fun binds => (decides_emit _).then fun drop => ?_
    have hbody := decides_block body σ.loop h.2
    rw [σ.inLoop_loop] at hbody
    refine hbody.before fun inner => decides_popBlock.then fun _ => ?_
    refine (decides_markExtent closing).then fun _ => (decides_emit _).then fun back => ?_
    refine decides_here.then fun exit => (decides_emit _).then fun drop₃ => ?_
    exact decides_popLoop.then fun breaks => decides_pure _
  | .function target keys body extent, σ, h => by
    rw [stat]
    refine (decides_markExtent extent).then fun _ => (decides_function body σ h).before fun f => ?_
    refine (decides_resolve target).then fun symbol => ?_
    have hdrop : ∀ store : Code, Decides σ (do return f ++ store ++ (← emit (.pop 1))) [] σ :=
      fun store => (decides_emit _).then fun drop => decides_pure _
    cases keys with
    | nil => exact (decides_emit _).then hdrop
    | cons key rest =>
      refine (decides_emit _).then fun object => ?_
      exact (decides_assignField (key :: rest)).then fun fields => (decides_pure _).then hdrop
  | .localFunction name body extent, σ, h => by
    rw [stat]
    refine (decides_markExtent extent).then fun _ => (decides_declare name).then fun slot => ?_
    refine (decides_emit _).then fun empty => (decides_emit _).then fun bind => ?_
    refine (decides_emit _).then fun drop => (decides_function body σ h).before fun f => ?_
    exact (decides_emit _).then fun store => (decides_emit _).then fun drop₂ => decides_pure _
  | .return values extent, σ, h => by
    rw [stat]
    refine (decides_markExtent extent).then fun _ => (decides_exprs values σ h).before fun vs => ?_
    rcases values with _ | ⟨e₁, _ | ⟨e₂, rest⟩⟩
    · exact (decides_emit _).then fun ret => decides_pure _
    · exact (decides_emit _).then fun ret => decides_pure _
    · exact (decides_emit _).then fun tuple => (decides_emit _).then fun ret => decides_pure _
  | .break extent, σ, _ => by
    rw [stat, Stat.misplaced]
    refine (decides_markExtent extent).then fun _ => decides_reserve.then fun slot => ?_
    refine decides_get_bind fun s hs => ?_
    have hlength : s.loops.length = σ.loops := congrArg Standing.loops hs
    cases hloops : s.loops with
    | nil =>
      have hnone : σ.inLoop = false := by
        rw [Standing.inLoop, ← hlength, hloops]
        rfl
      rw [hnone]
      exact fun _ _ => ⟨rfl, rfl⟩
    | cons breaks outer =>
      have hsome : σ.inLoop = true := by
        rw [Standing.inLoop, ← hlength, hloops]
        exact decide_eq_true (Nat.succ_pos _)
      rw [hsome]
      refine Decides.then (decides_set ?_) fun _ => decides_pure _
      rw [← hs, Site.standing, Site.standing, hloops]
      rfl

theorem decides_clauses : ∀ (branches : Branches) (σ : Standing), branches.WellTargeted →
    Decides σ (clauses branches) (branches.misplaced σ.inVararg σ.inLoop) σ
  | .done, σ, _ => by
    rw [clauses]
    exact decides_pure _
  | .otherwise body, σ, h => by
    rw [clauses]
    exact decides_inner_last (decides_block body σ h) fun c => decides_pure _
  | .clause condition body header rest, σ, h => by
    rw [clauses, Branches.misplaced]
    refine (decides_markExtent header).then fun _ => ?_
    refine decides_scalar (decides_expr condition σ h.1) fun test one => ?_
    refine decides_reserve.then fun skip => ?_
    refine decides_inner (decides_block body σ h.2.1) fun inner => ?_
    have hlast : ∀ rest : Branches, Decides σ (clauses rest) (rest.misplaced σ.inVararg σ.inLoop) σ →
        Decides σ (do
          let leave ← reserve
          let next ← here
          let (code, exits) ← clauses rest
          return (test ++ one ++ fill skip (.jumpIfFalse next) ++ inner ++ fill leave (.jump 0) ++ code,
            leave.1 :: exits)) (rest.misplaced σ.inVararg σ.inLoop) σ := fun rest hrest =>
      decides_reserve.then fun leave => decides_here.then fun next =>
        hrest.before fun p => decides_pure _
    cases rest with
    | done => exact decides_here.then fun next => decides_pure _
    | otherwise last => exact hlast _ (decides_clauses (.otherwise last) σ h.2.2)
    | clause c b e rest => exact hlast _ (decides_clauses (.clause c b e rest) σ h.2.2)

end

/-- A chunk is a function with further arguments, and in no loop. -/
theorem decides_chunk (name : String) (kind : HeaderKind) {body : Block}
    (h : blockWellTargeted body) :
    Decides ⟨[true], 0⟩ (chunk name kind body) (blockMisplaced true false body) ⟨[true], 0⟩ := by
  unfold chunk
  refine decides_reserve.then fun header => decides_reserve.then fun begin_ => ?_
  refine (decides_emit _).then fun args => (decides_block body _ h).before fun inner => ?_
  refine (decides_setSpan none).then fun _ => (decides_emit _).then fun ret => ?_
  exact decides_get_bind fun _ _ => decides_here.then fun stop => decides_pure _

end Gen

/-- The compilation of a tree whose assignments are to names and fields. -/
theorem Block.decided_compile (options : CompileOptions) (base : Nat) {body : Block}
    (h : blockWellTargeted body) : match body.compile options base with
      | .error e => (blockMisplaced true false body).head?.map Misplaced.cause = some e.cause ∧
          e.premature = false
      | .ok _ => blockMisplaced true false body = [] := by
  have hstart : Site.standing
      { address := base, scopes := .start options.env, source := options.source } = ⟨[true], 0⟩ := by
    cases options.env <;> rfl
  have hchunk := Gen.decides_chunk options.chunk options.kind h _ hstart
  unfold Block.compile
  simp only [StateT.run]
  split at hchunk
  · next hrun =>
    rw [hrun]
    exact hchunk
  · next hrun =>
    rw [hrun]
    exact hchunk.1

namespace Segment

/-- A text is accepted if and only if it is parsed and nothing is out of place in it. What is parsed
and refused is refused for the first thing that is out of place, and more text would not mend it. -/
theorem compile_iff_placed (s : Segment) (options : CompileOptions) (source : String) :
    ((∃ chunk t, s.compile options source = .ok (chunk, t)) ↔
      ∃ body, Block.parse options.chunk source = .ok body ∧ blockMisplaced true false body = []) ∧
    ∀ body e, Block.parse options.chunk source = .ok body → s.compile options source = .error e →
      ∃ m rest, blockMisplaced true false body = m :: rest ∧ e.cause = m.cause ∧
        e.premature = false ∧ e.chunk = options.chunk := by
  cases hparse : Block.parse options.chunk source with
  | error e =>
    refine ⟨⟨?_, ?_⟩, fun body e h => by cases h⟩
    · rintro ⟨chunk, t, hcompile⟩
      rw [compile, hparse] at hcompile
      cases hcompile
    · rintro ⟨body, hbody, -⟩
      cases hbody
  | ok body =>
    have hdecided := Block.decided_compile options s.size (Block.wellTargeted_parse hparse)
    rw [compile, hparse]
    simp only [bind, Except.bind]
    split at hdecided
    · next fault hrun =>
      obtain ⟨hcause, hfinal⟩ := hdecided
      obtain ⟨m, hm, hcause⟩ := Option.map_eq_some_iff.1 hcause
      obtain ⟨rest, hmisplaced⟩ := List.head?_eq_some_iff.1 hm
      rw [hrun]
      refine ⟨⟨?_, ?_⟩, ?_⟩
      · rintro ⟨chunk, t, hcompile⟩
        cases hcompile
      · rintro ⟨_, hbody, hnone⟩
        cases hbody
        rw [hmisplaced] at hnone
        cases hnone
      · intro _ e hbody hcompile
        cases hbody
        cases hcompile
        exact ⟨m, rest, hmisplaced, hcause.symm, hfinal, rfl⟩
    · next p hrun =>
      rw [hrun]
      refine ⟨⟨fun _ => ⟨body, rfl, hdecided⟩, fun _ => ⟨_, _, rfl⟩⟩, ?_⟩
      intro _ e _ hcompile
      cases hcompile

/-- What is checked by parsing and compiling a text: the line of the break that it is refused for. -/
def strayBreak? (source : String) : Option Nat :=
  match Block.parse "c" source, Segment.empty.compile { chunk := "c", source := 0 } source with
  | .ok _, .error e => match e.cause with
    | .breakOutsideLoop line => some line
    | _ => none
  | _, _ => none

/-- The loop around a function is none of its own: a break in the function is out of place. -/
theorem compile_iff_placed_stray : ∃ body e,
    Block.parse "c" "while x do\n f = function() break end end" = .ok body ∧
      Segment.empty.compile { chunk := "c", source := 0 }
        "while x do\n f = function() break end end" = .error e ∧
      ∃ m rest, blockMisplaced true false body = m :: rest ∧ m.cause = .breakOutsideLoop 2 ∧
        e.premature = false := by
  have hrun : strayBreak? "while x do\n f = function() break end end" = some 2 := by decide +kernel
  unfold strayBreak? at hrun
  split at hrun
  · next body e hparse hcompile =>
    obtain ⟨m, rest, hmisplaced, hcause, hfinal, -⟩ :=
      (compile_iff_placed .empty { chunk := "c", source := 0 }
        "while x do\n f = function() break end end").2 body e hparse hcompile
    refine ⟨body, e, hparse, hcompile, m, rest, hmisplaced, ?_, hfinal⟩
    split at hrun
    · next line hbreak =>
      cases hrun
      rw [← hcause, hbreak]
    · cases hrun
  · cases hrun

end Segment

end LuaMachine
