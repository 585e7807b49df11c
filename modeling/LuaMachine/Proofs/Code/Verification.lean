import LuaMachine.Proofs.Code.Statements

/-!
# Compiled code is verified

Every function of every chunk that the compiler makes passes the verifier. The induction over the
trees is here, and from it follows the statement about source texts (`Segment.compile_verified`).
-/

namespace LuaMachine

namespace Gen

/-! ## The induction -/

theorem computes_assignTo_refused {e : Expr} {rest : List Expr} {i : Nat}
    (he : e.isAssignable = false) : Computes (assignTo (e :: rest) i) 1 1 := by
  intro s hs
  have hfail : assignTo (e :: rest) i = failHere .notAssignable := by
    cases e with
    | name n => cases he
    | index object key => cases he
    | _ => rw [assignTo] <;> simp
  rw [hfail, ensures_failHere]
  trivial

mutual

theorem computes_expr : ∀ e : Expr, Computes (expr e) 0 1
  | .nil => by
    rw [expr]
    exact computes_literal _
  | .boolean b => by
    rw [expr]
    exact computes_literal _
  | .number n => by
    rw [expr]
    exact computes_literal _
  | .string s => by
    rw [expr]
    exact computes_literal _
  | .varargs => computes_varargs
  | .function body => by
    rw [expr]
    exact computes_functionBody body
  | .table fs => computes_table (computes_fields fs 1)
  | .binary _ left right => computes_binary (computes_expr left) (computes_expr right)
  | .logical _ left right => computes_logical (computes_expr left) (computes_expr right)
  | .unary _ operand => computes_unary (computes_expr operand)
  | .name n => computes_name n
  | .index object key => computes_index (computes_expr object) (computes_expr key)
  | .call f args => computes_call (computes_expr f) (computes_exprs args)
  | .methodCall object _ args => computes_methodCall (computes_expr object) (computes_exprs args)
  | .paren e => computes_paren (computes_expr e)

theorem computes_exprs : ∀ es : List Expr, Computes (exprs es) 0 es.length
  | [] => by
    intro s hs
    rw [exprs, ensures_pure]
    exact .nil hs 0
  | [e] => by
    rw [exprs]
    exact computes_expr e
  | e :: e' :: rest => computes_exprs_cons (computes_expr e) (computes_exprs (e' :: rest))

theorem computes_fields : ∀ (fs : List Field) (position : Nat), Computes (fields fs position) 1 1
  | [], _ => by
    intro s hs
    rw [fields, ensures_pure]
    exact .nil hs 1
  | .positional value :: rest, position =>
    computes_fields_positional (computes_expr value) (computes_fields rest (position + 1))
  | .named _ value :: rest, position =>
    computes_fields_named (computes_expr value) (computes_fields rest position)
  | .keyed key value :: rest, position =>
    computes_fields_keyed (computes_expr key) (computes_expr value) (computes_fields rest position)

theorem computes_assignTo : ∀ (targets : List Expr) (i : Nat), Computes (assignTo targets i) 1 1
  | [], _ => by
    intro s hs
    rw [assignTo, ensures_pure]
    exact .nil hs 1
  | e :: rest, i => by
    cases e with
    | name n => exact computes_assignTo_name (computes_assignTo rest (i + 1))
    | index object key =>
      exact computes_assignTo_index (computes_expr object) (computes_expr key)
        (computes_assignTo rest (i + 1))
    | _ => exact computes_assignTo_refused rfl

theorem computes_functionBody : ∀ body : FunctionBody, Computes (function body) 0 1
  | .mk _ _ _ body _ _ => computes_function (acts_block body)

theorem acts_block : ∀ body : List Stat, Acts (block body)
  | [] => by
    intro s hs
    rw [block, ensures_pure]
    exact ⟨[], (Evaluates.nil hs 0).performs⟩
  | st :: rest => acts_block_cons (acts_stat st) (acts_block rest)

theorem acts_stat : ∀ st : Stat, Acts (stat st)
  | .local _ values _ => acts_local (computes_exprs values)
  | .assign targets values _ => acts_assign (computes_exprs values) (computes_assignTo targets 0)
  | .call e _ => acts_call (computes_expr e)
  | .do body _ => acts_do (acts_block body)
  | .while condition body _ _ => acts_while (computes_expr condition) (acts_block body)
  | .repeat body condition _ => acts_repeat (acts_block body) (computes_expr condition)
  | .if branches _ => acts_if (chooses_clauses branches)
  | .numericFor _ first limit step body _ _ =>
    acts_numericFor (computes_expr first) (computes_expr limit) (computes_expr step)
      (acts_block body)
  | .genericFor _ values body _ _ => acts_genericFor (computes_exprs values) (acts_block body)
  | .function _ _ body _ => acts_function (computes_functionBody body)
  | .localFunction _ body _ => acts_localFunction (computes_functionBody body)
  | .return values _ => acts_return (computes_exprs values)
  | .break _ => acts_break

theorem chooses_clauses : ∀ branches : Branches, Chooses (clauses branches)
  | .done => chooses_done
  | .otherwise body => chooses_otherwise (acts_block body)
  | .clause condition body _ .done => chooses_last (computes_expr condition) (acts_block body)
  | .clause condition body _ (.otherwise last) =>
    chooses_clause (by simp) (computes_expr condition) (acts_block body)
      (chooses_clauses (.otherwise last))
  | .clause condition body _ (.clause c b h rest) =>
    chooses_clause (by simp) (computes_expr condition) (acts_block body)
      (chooses_clauses (.clause c b h rest))

end

end Gen

/-! ## Chunks -/

/-- Code of `n` instructions at `base` in which every function is verified: the outermost one, with
`upvalues` captures, fills it, and every other one lies inside it and has a closure made of it. -/
structure AllVerified (code : Listing) (base n upvalues : Nat) : Prop where
  outermost : FunctionAt code base n upvalues
  headers : ∀ {a name kind m}, base ≤ a → a < base + n → code a = some (.header name kind m) →
    a = base ∨ ∃ x captures, base ≤ x ∧ x < base + n ∧ code x = some (.closure a captures)
  closures : ∀ {x a captures}, base ≤ x → x < base + n → code x = some (.closure a captures) →
    base < a ∧ ∃ m, a + m ≤ base + n ∧ FunctionAt code a m captures.length

theorem AllVerified.congr {code code' : Listing} {base n upvalues : Nat}
    (h : AllVerified code base n upvalues)
    (hcode : ∀ x, base ≤ x → x < base + n → code' x = code x) :
    AllVerified code' base n upvalues := by
  refine ⟨h.outermost.congr hcode, ?_, ?_⟩
  · intro a name kind m hle hlt ha
    rw [hcode a hle hlt] at ha
    rcases h.headers hle hlt ha with rfl | ⟨x, captures, hx, hxn, hc⟩
    · exact .inl rfl
    · exact .inr ⟨x, captures, hx, hxn, (hcode x hx hxn).trans hc⟩
  · intro x a captures hle hlt hx
    rw [hcode x hle hlt] at hx
    obtain ⟨hba, m, hm, hf⟩ := h.closures hle hlt hx
    exact ⟨hba, m, hm, hf.congr fun y hy hym => hcode y (by omega) (by omega)⟩

/-- The outermost function has its environment to capture, or nothing. -/
theorem ScopeStack.Extends.length_upvalues {env : Bool} {t : ScopeStack}
    (h : (ScopeStack.start env).Extends t) :
    t.current.upvalues.length = if env then 1 else 0 := by
  obtain ⟨fs⟩ := t
  have hout := h.outermost
  cases h.functions with
  | cons _ hnil =>
    cases hnil
    simp only [ScopeStack.outermostCaptures] at hout
    simp only [ScopeStack.current, List.headD_cons, hout]
    cases env <;> rfl

/-- Header, slots, arguments, a body that fits and a return make a chunk. -/
theorem allVerified_of_body {f : FunctionScope} {base stop : Nat} {name : String}
    {kind : HeaderKind} {body : Code} {i₁ i₂ i₃ i₄ : Instruction}
    (hfit : Fits f (base + 3) body stop 0 0 [] [])
    (h₁ : i₁.op = .header name kind (stop + 1 - base)) (h₂ : i₂.op = .beginFn f.locals)
    (h₃ : i₃.op = .args 0 true) (h₄ : i₄.op = .ret 0) :
    AllVerified (listing base (i₁ :: i₂ :: i₃ :: (body ++ [i₄]))) base (stop + 1 - base)
      f.upvalues.length := by
  obtain ⟨depth, h⟩ := id hfit
  have hstop := h.stop_eq
  generalize hc : listing base (i₁ :: i₂ :: i₃ :: (body ++ [i₄])) = code
  have c₀ : code base = some (.header name kind (stop + 1 - base)) := by
    rw [← hc, listing_cons_self, h₁]
  have c₁ : code (base + 1) = some (.beginFn f.locals) := by
    rw [← hc, listing_cons_of_ne (by omega), listing_cons_self, h₂]
  have c₂ : code (base + 2) = some (.args 0 true) := by
    rw [← hc, listing_cons_of_ne (by omega), listing_cons_of_ne (by omega), listing_cons_self, h₃]
  have cbehind : ∀ x, base + 3 ≤ x → code x = listing (base + 3) (body ++ [i₄]) x := by
    intro x hx
    rw [← hc, listing_cons_of_ne (by omega), listing_cons_of_ne (by omega),
      listing_cons_of_ne (by omega)]
  have cbody : ∀ x, base + 3 ≤ x → x < stop → code x = listing (base + 3) body x := by
    intro x hx hxs
    rw [cbehind x hx, listing_append_left (by omega)]
  have cret : code stop = some (.ret 0) := by
    rw [cbehind stop (by omega), listing_append_right (by omega), ← hstop, listing_cons_self, h₄]
  have haddr : ∀ x, base ≤ x → x < base + (stop + 1 - base) → x = base ∨ x = base + 1 ∨
      x = base + 2 ∨ (base + 3 ≤ x ∧ x < stop) ∨ x = stop := by
    intro x hx hxs
    omega
  refine ⟨?_, ?_, ?_⟩
  · obtain ⟨dep, hv⟩ := verified_of_body c₀ c₁ c₂ (Nat.zero_le _) cbody cret (by omega) hfit
    exact ⟨⟨_, _, c₀⟩, _, dep, c₁, hv⟩
  · intro a nm kd m hle hlt ha
    rcases haddr a hle hlt with rfl | rfl | rfl | ⟨ha₁, ha₂⟩ | rfl
    · exact .inl rfl
    · rw [c₁] at ha
      cases ha
    · rw [c₂] at ha
      cases ha
    · rw [cbody a ha₁ ha₂] at ha
      obtain ⟨-, -, x, captures, hx⟩ := h.headers ha
      have hxb := listing_bounds hx
      exact .inr ⟨x, captures, by omega, by omega, (cbody x (by omega) (by omega)).trans hx⟩
    · rw [cret] at ha
      cases ha
  · intro x a captures hle hlt hx
    rcases haddr x hle hlt with rfl | rfl | rfl | ⟨hx₁, hx₂⟩ | rfl
    · rw [c₀] at hx
      cases hx
    · rw [c₁] at hx
      cases hx
    · rw [c₂] at hx
      cases hx
    · rw [cbody x hx₁ hx₂] at hx
      obtain ⟨ha, -, m, hm, hf⟩ := h.closures hx
      refine ⟨by omega, m, by omega, hf.congr ?_⟩
      exact fun y hy hym => cbody y (by omega) (by omega)
    · rw [cret] at hx
      cases hx

theorem Gen.allVerified_chunk (name : String) (kind : HeaderKind) (body : Block) (env : Bool)
    (s : Site) (hs : s.scopes = .start env) (hl : s.loops = []) :
    (Gen.chunk name kind body).Ensures s fun c _ =>
      AllVerified (listing s.address c) s.address c.length (if env then 1 else 0) := by
  have hb : s.scopes.Bounded := hs ▸ ScopeStack.Bounded.start env
  simp only [chunk, ensures_bind, ensures_reserve, ensures_emit]
  refine (acts_block body { s with address := s.address + 1 + 1 + 1 } hb).mono
    ?_
  rintro inner s₁ ⟨breaks, h₁⟩
  -- a chunk is in no loop
  obtain rfl : breaks = [] := h₁.notes.inLoop hl
  simp only [ensures_setSpan, ensures_get, ensures_here, ensures_pure]
  have hfit := h₁.compiles.fits 0
  have hv : AllVerified (listing s.address
      (⟨.header name kind (s₁.address + 1 - s.address), s.span⟩ ::
        ⟨.beginFn s₁.scopes.current.locals, s.span⟩ :: ⟨.args 0 true, s.span⟩ ::
        (inner ++ [⟨.ret 0, none⟩]))) s.address (s₁.address + 1 - s.address)
      s₁.scopes.current.upvalues.length :=
    allVerified_of_body hfit rfl rfl rfl rfl
  have hgrows := h₁.compiles.grows
  simp only [hs] at hgrows
  rw [hgrows.length_upvalues] at hv
  have hlen : s₁.address + 1 - s.address = inner.length + 4 := by
    have := hfit.stop_eq
    simp only at this
    omega
  rw [hlen] at hv
  simpa [fill, hlen] using hv

/-! ## Source texts -/

namespace Segment

/-- The operations of a segment. -/
def ops (s : Segment) : Listing := fun x => (s.instruction? x).map (·.op)

theorem ops_append_of_lt {s : Segment} {code : Code} {x : Nat} (hx : x < s.size) :
    (s.append code).ops x = s.ops x := by
  unfold ops append instruction?
  split
  · rfl
  · rw [Array.getElem?_append_left hx]

theorem ops_append_of_le {s : Segment} {code : Code} {x : Nat} (hx : s.size ≤ x) :
    (s.append code).ops x = LuaMachine.listing s.size code x := by
  unfold ops append instruction? LuaMachine.listing
  rw [if_pos hx]
  split
  · next hempty =>
    rw [List.isEmpty_iff.1 hempty, Array.getElem?_eq_none hx]
    rfl
  · rw [Array.getElem?_append_right hx]
    simp [size]

/-- What it takes for a text to be compiled: it is parsed, its tree gives code, and that is added. -/
theorem compile_eq_ok {s s' : Segment} {options : CompileOptions} {source : String}
    {chunk : CompiledChunk} (h : s.compile options source = .ok (chunk, s')) :
    ∃ body code spans, Block.parse options.chunk source = .ok body ∧
      body.compile options s.size = .ok (code, spans) ∧ s' = s.append code ∧
      chunk = { entry := s.size, block := s.nextBlock code.length, hasEnv := options.env, spans } := by
  unfold compile at h
  cases hparse : Block.parse options.chunk source with
  | error e =>
    rw [hparse] at h
    cases h
  | ok body =>
    rw [hparse] at h
    cases hcode : body.compile options s.size with
    | error e =>
      simp only [Except.bind, bind, hcode] at h
      cases h
    | ok p =>
      simp only [Except.bind, bind, hcode, pure, Except.pure] at h
      cases h
      exact ⟨body, p.1, p.2, rfl, hcode, rfl, rfl⟩

/-- Every function of the code that a text is compiled to is verified. -/
theorem allVerified_compile {s s' : Segment} {options : CompileOptions} {source : String}
    {chunk : CompiledChunk} (h : s.compile options source = .ok (chunk, s')) :
    chunk.entry = chunk.block.base ∧
      AllVerified s'.ops chunk.block.base (chunk.block.limit - chunk.block.base)
        (if options.env then 1 else 0) := by
  obtain ⟨body, code, spans, -, hcode, rfl, rfl⟩ := compile_eq_ok h
  refine ⟨rfl, ?_⟩
  simp only [nextBlock, Nat.add_sub_cancel_left]
  unfold Block.compile at hcode
  simp only [StateT.run] at hcode
  split at hcode
  · next hrun =>
    cases hcode
    refine (Gen.allVerified_chunk _ _ body options.env _ rfl rfl _ _ hrun).congr ?_
    intro x hx _
    exact ops_append_of_le hx
  · cases hcode

/-- The number of variables that the function at an address captures: the environment, in the
outermost function of a chunk that has one, or what the instruction that makes its closure says. -/
def Captures (s : Segment) (chunk : CompiledChunk) (a upvalues : Nat) : Prop :=
  (a = chunk.entry ∧ upvalues = if chunk.hasEnv then 1 else 0) ∨
    ∃ x captures, chunk.block.contains x = true ∧ s.ops x = some (.closure a captures) ∧
      upvalues = captures.length

/-- Every function of a compiled chunk passes the verifier: it has a number of captures, and for each
one that it is made with there are depths for all its instructions under which it is verified. They
are the depths of all paths from its header, none of which leaves the function. -/
theorem compile_verified {s s' : Segment} {options : CompileOptions} {source : String}
    {chunk : CompiledChunk} (h : s.compile options source = .ok (chunk, s')) {a n : Nat}
    {name : String} {kind : HeaderKind} (hin : chunk.block.contains a = true)
    (ha : s'.ops a = some (.header name kind n)) :
    (∃ upvalues, s'.Captures chunk a upvalues) ∧
      ∀ upvalues, s'.Captures chunk a upvalues → ∃ locals depth,
        s'.ops (a + 1) = some (.beginFn locals) ∧
          Verified s'.ops a n locals.length upvalues depth ∧
          ∀ x d, Reaches s'.ops a x d → Owns s'.ops a n x ∧ depth x = d := by
  obtain ⟨hentry, hall⟩ := allVerified_compile h
  have henv : chunk.hasEnv = options.env := by
    obtain ⟨_, _, _, -, -, -, rfl⟩ := compile_eq_ok h
    rfl
  have hcontains : ∀ x, chunk.block.contains x = true → chunk.block.base ≤ x ∧
      x < chunk.block.base + (chunk.block.limit - chunk.block.base) := by
    intro x hx
    simp only [CodeBlock.contains, Bool.and_eq_true, decide_eq_true_eq] at hx
    omega
  constructor
  · rcases hall.headers (hcontains a hin).1 (hcontains a hin).2 ha with rfl | ⟨x, captures, hx⟩
    · exact ⟨_, .inl ⟨hentry.symm, rfl⟩⟩
    · refine ⟨captures.length, .inr ⟨x, captures, ?_, hx.2.2, rfl⟩⟩
      simp only [CodeBlock.contains, Bool.and_eq_true, decide_eq_true_eq]
      omega
  · intro upvalues hcap
    -- whatever the captures come from, the function is one that the chunk accounts for
    have hf : ∃ m, FunctionAt s'.ops a m upvalues := by
      rcases hcap with ⟨rfl, rfl⟩ | ⟨x, captures, hx, hclosure, rfl⟩
      · rw [hentry, henv]
        exact ⟨_, hall.outermost⟩
      · obtain ⟨-, m, -, hf⟩ := hall.closures (hcontains x hx).1 (hcontains x hx).2 hclosure
        exact ⟨m, hf⟩
    obtain ⟨m, ⟨name', kind', hhead⟩, locals, depth, hbegin, hv⟩ := hf
    rw [ha] at hhead
    cases hhead
    exact ⟨locals, depth, hbegin, hv, fun x d hr => hv.reaches hr⟩

/-- What is checked of a chunk by running the compiler: its inner function. -/
def hasInner (source : String) (a : Nat) : Bool :=
  match Segment.empty.compile { chunk := "c", source := 0 } source with
  | .ok (chunk, s') => chunk.block.contains a && (match s'.ops a with
    | some (.header _ .function _) => true
    | _ => false)
  | .error _ => false

theorem compile_verified_inner_function : ∃ chunk s' name n,
    Segment.empty.compile { chunk := "c", source := 0 } "return function() return x end" =
        .ok (chunk, s') ∧
      chunk.block.contains 4 = true ∧ s'.ops 4 = some (.header name .function n) ∧
      ∃ upvalues locals depth, s'.Captures chunk 4 upvalues ∧
        s'.ops 5 = some (.beginFn locals) ∧
        Verified s'.ops 4 n locals.length upvalues depth := by
  have hrun : hasInner "return function() return x end" 4 = true := by decide +kernel
  unfold hasInner at hrun
  cases hc : Segment.empty.compile { chunk := "c", source := 0 } "return function() return x end" with
  | error e =>
    rw [hc] at hrun
    cases hrun
  | ok p =>
    obtain ⟨chunk, s'⟩ := p
    simp only [hc, Bool.and_eq_true] at hrun
    obtain ⟨hin, hhead⟩ := hrun
    split at hhead
    · next name n ha =>
      obtain ⟨⟨upvalues, hcap⟩, hall⟩ := compile_verified hc hin ha
      obtain ⟨locals, depth, hbegin, hv, -⟩ := hall upvalues hcap
      exact ⟨chunk, s', name, n, rfl, hin, ha, upvalues, locals, depth, hcap, hbegin, hv⟩
    · cases hhead

end Segment

end LuaMachine
