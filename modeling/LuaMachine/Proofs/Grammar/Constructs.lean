import LuaMachine.Grammar.Reader

/-!
# The constructs of the grammar

Every parsing function reads a construct: it looks at lexemes, passes them and calls for other constructs.
One step of it (`Construct.step`) leaves open what these calls do. So two ways to do them are compared at
the steps alone: a relation between parsing steps that the lexemes respect (`Parse.Compatible`) holds of a
construct if it holds of the calls that it makes (`Parse.related_step`). These are calls where fewer lexemes
are left, or calls for a construct of a lower rank.
-/

namespace LuaMachine

/-- What a look at the next lexeme gives. -/
def Reader.next (r : Reader) : Except SyntaxFault Lexeme :=
  match r.lexemes with
  | l :: _ => .ok l
  | [] => r.ending

/-- What stands behind the lexemes is the end of the input, or a fault. -/
def Reader.Ends (r : Reader) : Prop := ∀ l, r.ending = .ok l → l.token = .endOfInput

theorem Reader.next_of_lexemes_eq {r : Reader} {l : Lexeme} {ls : List Lexeme}
    (h : r.lexemes = l :: ls) : r.next = .ok l := by
  rw [next, h]

namespace Parse

/-- No condition on the reader. -/
abbrev Any : Reader → Prop := fun _ => True

/-- The next lexeme, or what stands for it at the end of the input. -/
def Sees (l : Lexeme) (r : Reader) : Prop :=
  r.lexemes.head? = some l ∨ (r.lexemes = [] ∧ r.ending = .ok l)

section

variable {β : Type}

theorem peek_eq (r : Reader) : peek r = r.next.map fun l => (l, r) := by
  unfold peek Reader.next
  cases r.lexemes with
  | cons l ls => rfl
  | nil => cases r.ending <;> rfl

theorem peek_bind_apply {r : Reader} {l : Lexeme} (h : r.next = .ok l) (f : Lexeme → Parse β) :
    (peek >>= f) r = f l r := by
  show (peek r >>= fun x => f x.1 x.2) = _
  rw [peek_eq, h]
  rfl

theorem sees_of_next {r : Reader} {l : Lexeme} (h : r.next = .ok l) : Sees l r := by
  unfold Reader.next at h
  split at h
  · next heq =>
    cases h
    exact .inl (by rw [heq]; rfl)
  · next heq => exact .inr ⟨heq, h⟩

theorem next_of_peek_bind {r : Reader} {f : Lexeme → Parse β} {x : β × Reader}
    (h : (peek >>= f) r = .ok x) : ∃ l, r.next = .ok l := by
  have h : (peek r >>= fun x => f x.1 x.2) = .ok x := h
  rw [peek_eq] at h
  cases hnext : r.next with
  | ok l => exact ⟨l, rfl⟩
  | error e =>
    rw [hnext] at h
    cases h

theorem failNear_ne_ok (cause : String → SyntaxCause) (r : Reader) (x : β × Reader) :
    (failNear cause : Parse β) r ≠ .ok x := by
  intro h
  obtain ⟨l, hl⟩ := next_of_peek_bind h
  unfold failNear at h
  rw [peek_bind_apply hl] at h
  cases h

end

/-- What a parsing function reads: with its rank, and how many lexemes it passes at least. A construct that
may begin with another one has a higher rank. -/
inductive Construct : (rank least : Nat) → Type → Type
  | moreNames : Construct 0 0 (List String)
  | localNames : Construct 0 1 (List String)
  | params : Construct 0 1 (List String × Bool)
  | dottedKeys : Construct 0 0 (List String)
  | block : Construct 3 0 Block
  | returnStat : Construct 0 1 Stat
  | statement : Construct 2 1 Stat
  | clauses (start : Extent) (openLine : Nat) : Construct 4 1 Branches
  | forStat (start : Extent) : Construct 0 1 Stat
  | exprStat (start : Extent) : Construct 1 1 Stat
  | moreTargets : Construct 0 0 (List Expr)
  | functionBody (start : Extent) (name : String) (isMethod : Bool) : Construct 0 1 FunctionBody
  | exprList : Construct 4 1 (List Expr)
  | expr : Construct 3 1 Expr
  | subExpr (limit : Nat) : Construct 2 1 Expr
  | infixTail (limit : Nat) (left : Expr) : Construct 0 0 Expr
  | infixRest (left : Expr) : Construct 0 0 Expr
  | simpleExpr : Construct 1 1 Expr
  | suffixedExpr : Construct 0 1 Expr
  | suffixes (e : Expr) : Construct 2 0 Expr
  | callArgs : Construct 1 1 (List Expr)
  | tableExpr : Construct 0 1 Expr
  | tableFields : Construct 5 0 (List Field)
  | tableField : Construct 4 1 Field

/-- A way to read the constructs. -/
abbrev Reading := ∀ {rank least : Nat} {α : Type}, Construct rank least α → Parse α

/-- A construct is read, where `call` reads the constructs that it consists of. -/
def Construct.step (call : Reading) {rank least : Nat} {α : Type} : Construct rank least α → Parse α
  | .moreNames => do
    if ← accept (.punctuator .comma) then
      let name ← expectName
      return name :: (← call .moreNames)
    else return []
  | .localNames => do
    let name ← expectName
    if ← accept (.punctuator .less) then
      let _ ← expectName
      let _ ← expect (.punctuator .greater)
    if ← accept (.punctuator .comma) then return name :: (← call .localNames)
    else return [name]
  | .params => do
    if ← accept (.punctuator .ellipsis) then return ([], true)
    else
      let name ← expectName
      if ← accept (.punctuator .comma) then
        let (names, isVararg) ← call .params
        return (name :: names, isVararg)
      else return ([name], false)
  | .dottedKeys => do
    if ← accept (.punctuator .dot) then
      let key ← expectName
      return key :: (← call .dottedKeys)
    else return []
  | .block => do
    if ← blockFollows then return []
    else if ← check (.keyword .return) then return [← call .returnStat]
    else if ← accept (.punctuator .semicolon) then call .block
    else
      let s ← call .statement
      return s :: (← call .block)
  | .returnStat => do
    let start ← expect (.keyword .return)
    let bare ← if ← blockFollows then pure true else check (.punctuator .semicolon)
    let values ← if bare then pure [] else call .exprList
    let _ ← accept (.punctuator .semicolon)
    return .return values (start.through (← lastExtent))
  | .statement => do
    let first ← peek
    let start := first.extent
    match first.token with
    | .keyword .if =>
      let _ ← advance
      let branches ← call (.clauses start start.line)
      let extent := match branches with
        | .clause _ _ header _ => header
        | _ => start
      return .if branches extent
    | .keyword .while =>
      let _ ← advance
      let condition ← call .expr
      let _ ← expect (.keyword .do)
      let extent := start.through (← lastExtent)
      let body ← call .block
      let closing ← expectClosing (.keyword .end) Keyword.while.text start.line
      return .while condition body extent closing
    | .keyword .do =>
      let _ ← advance
      let body ← call .block
      let _ ← expectClosing (.keyword .end) Keyword.do.text start.line
      return .do body start
    | .keyword .for =>
      let _ ← advance
      call (.forStat start)
    | .keyword .repeat =>
      let _ ← advance
      let body ← call .block
      let closing ← expectClosing (.keyword .until) Keyword.repeat.text start.line
      let condition ← call .expr
      return .repeat body condition (closing.through (← lastExtent))
    | .keyword .function =>
      let _ ← advance
      let target ← expectName
      let path ← call .dottedKeys
      let method? ← if ← accept (.punctuator .colon) then some <$> expectName else pure none
      let dotted := ".".intercalate (target :: path)
      match method? with
      | some m =>
        let body ← call (.functionBody start s!"{dotted}:{m}" true)
        return .function target (path ++ [m]) body body.extent
      | none =>
        let body ← call (.functionBody start dotted false)
        return .function target path body body.extent
    | .keyword .local =>
      let _ ← advance
      if ← accept (.keyword .function) then
        let name ← expectName
        let body ← call (.functionBody start name false)
        return .localFunction name body body.extent
      else
        let names ← call .localNames
        let values ← if ← accept (.punctuator .assign) then call .exprList else pure []
        return .local names values (start.through (← lastExtent))
    | .keyword .break =>
      let _ ← advance
      return .break start
    | .keyword .goto | .punctuator .doubleColon => failAt first .labelsNotSupported
    | _ => call (.exprStat start)
  | .clauses start openLine => do
    let condition ← call .expr
    let _ ← expect (.keyword .then)
    let header := start.through (← lastExtent)
    let body ← call .block
    if ← check (.keyword .elseif) then
      let next ← advance
      return .clause condition body header (← call (.clauses next.extent openLine))
    else if ← accept (.keyword .else) then
      let other ← call .block
      let _ ← expectClosing (.keyword .end) Keyword.if.text openLine
      return .clause condition body header (.otherwise other)
    else
      let _ ← expectClosing (.keyword .end) Keyword.if.text openLine
      return .clause condition body header .done
  | .forStat start => do
    let first ← expectName
    if ← accept (.punctuator .assign) then
      let initial ← call .expr
      let _ ← expect (.punctuator .comma)
      let limit ← call .expr
      let step ← if ← accept (.punctuator .comma) then call .expr else pure (.number .one)
      let _ ← expect (.keyword .do)
      let extent := start.through (← lastExtent)
      let body ← call .block
      let closing ← expectClosing (.keyword .end) Keyword.for.text start.line
      return .numericFor first initial limit step body extent closing
    else
      let names ← call .moreNames
      if !(← check (.keyword .in)) then failNear (.expected "'=' or 'in'")
      let _ ← advance
      let values ← call .exprList
      let _ ← expect (.keyword .do)
      let extent := start.through (← lastExtent)
      let body ← call .block
      let closing ← expectClosing (.keyword .end) Keyword.for.text start.line
      return .genericFor (first :: names) values body extent closing
  | .exprStat start => do
    let first ← call .suffixedExpr
    let several ← if ← check (.punctuator .assign) then pure true else check (.punctuator .comma)
    if several then
      let targets := first :: (← call .moreTargets)
      if targets.any (!·.isAssignable) then failNear .notAStatement
      let _ ← expect (.punctuator .assign)
      let values ← call .exprList
      return .assign targets values (start.through (← lastExtent))
    else if first.isCall then return .call first (start.through (← lastExtent))
    else failNear .notAStatement
  | .moreTargets => do
    if ← accept (.punctuator .comma) then
      let target ← call .suffixedExpr
      return target :: (← call .moreTargets)
    else return []
  | .functionBody start name isMethod => do
    let _ ← expect (.punctuator .leftParen)
    let (names, isVararg) ←
      if ← check (.punctuator .rightParen) then pure ([], false) else call .params
    let _ ← expect (.punctuator .rightParen)
    let extent := start.through (← lastExtent)
    let body ← call .block
    let closing ← expectClosing (.keyword .end) Keyword.function.text start.line
    let names := if isMethod then "self" :: names else names
    return .mk name names isVararg body extent closing
  | .exprList => do
    let e ← call .expr
    if ← accept (.punctuator .comma) then return e :: (← call .exprList) else return [e]
  | .expr => call (.subExpr 0)
  | .subExpr limit => do
    match UnaryOp.ofToken? (← peek).token with
    | some op =>
      let _ ← advance
      let operand ← call (.subExpr UnaryOp.priority)
      call (.infixTail limit (.ofUnary op operand))
    | none =>
      let left ← call .simpleExpr
      call (.infixTail limit left)
  | .infixTail limit left => do
    match InfixOp.ofToken? (← peek).token with
    | none => return left
    | some op =>
      if op.priority.1 ≤ limit then return left
      else
        let _ ← advance
        let right ← call (.subExpr op.priority.2)
        call (.infixTail limit (.ofInfix op left right))
  | .infixRest left => do
    match InfixOp.ofToken? (← peek).token with
    | none => return left
    | some op =>
      let _ ← advance
      let right ← call (.subExpr op.priority.2)
      call (.infixRest (.ofInfix op left right))
  | .simpleExpr => do
    match (← peek).token with
    | .number x => let _ ← advance; return .number x
    | .string s => let _ ← advance; return .string s
    | .keyword .nil => let _ ← advance; return .nil
    | .keyword .true => let _ ← advance; return .boolean true
    | .keyword .false => let _ ← advance; return .boolean false
    | .punctuator .ellipsis => let _ ← advance; return .varargs
    | .punctuator .leftBrace => call .tableExpr
    | .keyword .function =>
      let start := (← advance).extent
      return .function (← call (.functionBody start s!"function@{start.line}" false))
    | _ => call .suffixedExpr
  | .suffixedExpr => do
    match (← peek).token with
    | .identifier name =>
      let _ ← advance
      call (.suffixes (.name name))
    | .punctuator .leftParen =>
      let start := (← advance).extent
      let inner ← call .expr
      let _ ← expectClosing (.punctuator .rightParen) Punctuator.leftParen.text start.line
      call (.suffixes (.paren inner))
    | _ => failNear .unexpectedSymbol
  | .suffixes e => do
    match (← peek).token with
    | .punctuator .dot =>
      let _ ← advance
      let key ← expectName
      call (.suffixes (.index e (.string key)))
    | .punctuator .leftBracket =>
      let _ ← advance
      let key ← call .expr
      let _ ← expect (.punctuator .rightBracket)
      call (.suffixes (.index e key))
    | .punctuator .colon =>
      let _ ← advance
      let method ← expectName
      let args ← call .callArgs
      call (.suffixes (.methodCall e method args))
    | .punctuator .leftParen | .punctuator .leftBrace | .string _ =>
      let args ← call .callArgs
      call (.suffixes (.call e args))
    | _ => return e
  | .callArgs => do
    match (← peek).token with
    | .string s => let _ ← advance; return [.string s]
    | .punctuator .leftBrace => return [← call .tableExpr]
    | .punctuator .leftParen =>
      let _ ← advance
      let args ← if ← check (.punctuator .rightParen) then pure [] else call .exprList
      let _ ← expect (.punctuator .rightParen)
      return args
    | _ => failNear (.expected "function arguments")
  | .tableExpr => do
    let start ← expect (.punctuator .leftBrace)
    let fields ← call .tableFields
    let _ ← expectClosing (.punctuator .rightBrace) Punctuator.leftBrace.text start.line
    return .table fields
  | .tableFields => do
    if ← check (.punctuator .rightBrace) then return []
    else
      let field ← call .tableField
      let more ← if ← accept (.punctuator .comma) then pure true
        else accept (.punctuator .semicolon)
      if more then return field :: (← call .tableFields) else return [field]
  | .tableField => do
    if ← accept (.punctuator .leftBracket) then
      let key ← call .expr
      let _ ← expect (.punctuator .rightBracket)
      let _ ← expect (.punctuator .assign)
      return .keyed key (← call .expr)
    else match (← peek).token with
      | .identifier name =>
        let _ ← advance
        if ← accept (.punctuator .assign) then return .named name (← call .expr)
        else
          let left ← call (.suffixes (.name name))
          return .positional (← call (.infixRest left))
      | _ => return .positional (← call .expr)

/-- The parsing functions, with a bound on the nesting of their calls. -/
def run (n : Nat) {rank least : Nat} {α : Type} : Construct rank least α → Parse α
  | .moreNames => moreNames n
  | .localNames => localNames n
  | .params => params n
  | .dottedKeys => dottedKeys n
  | .block => block n
  | .returnStat => returnStat n
  | .statement => statement n
  | .clauses start openLine => clauses n start openLine
  | .forStat start => forStat n start
  | .exprStat start => exprStat n start
  | .moreTargets => moreTargets n
  | .functionBody start name isMethod => functionBody n start name isMethod
  | .exprList => exprList n
  | .expr => expr n
  | .subExpr limit => subExpr n limit
  | .infixTail limit left => infixTail n limit left
  | .infixRest left => infixRest n left
  | .simpleExpr => simpleExpr n
  | .suffixedExpr => suffixedExpr n
  | .suffixes e => suffixes n e
  | .callArgs => callArgs n
  | .tableExpr => tableExpr n
  | .tableFields => tableFields n
  | .tableField => tableField n

theorem run_succ (n : Nat) {rank least : Nat} {α : Type} (c : Construct rank least α) :
    run (n + 1) c = c.step (run n) := by
  cases c <;> rfl

/-! ## Relations between steps -/

/-- A relation between parsing steps that read at most `k` lexemes and pass at least `c` of them. It holds
of the steps that read single lexemes, and one step after another keeps it. -/
structure Compatible (R : ∀ {α : Type}, (Reader → Prop) → Nat → Nat → Parse α → Parse α → Prop) : Prop where
  weaken {α : Type} {A : Reader → Prop} {k c e : Nat} {p p' : Parse α} (h : R Any k c p p') (he : e ≤ c) :
    R A k e p p'
  bind {α β : Type} {A : Reader → Prop} {k c e : Nat} {p p' : Parse α} {f f' : α → Parse β}
    (hp : R A k c p p') (hf : ∀ a, c ≤ k → R Any (k - c) (e - c) (f a) (f' a)) :
    R A k e (p >>= f) (p' >>= f')
  pure {α : Type} {A : Reader → Prop} {k : Nat} (a : α) : R A k 0 (pure a) (pure a)
  lastExtent {A : Reader → Prop} {k : Nat} : R A k 0 lastExtent lastExtent
  peek_bind {β : Type} {A : Reader → Prop} {k e : Nat} {f f' : Lexeme → Parse β}
    (hf : ∀ l, R (Sees l) k e (f l) (f' l)) : R A k e (peek >>= f) (peek >>= f')
  advance {k : Nat} {l : Lexeme} (hl : l.token ≠ .endOfInput) : R (Sees l) k 1 advance advance
  failAt {α : Type} {k e : Nat} (l : Lexeme) (cause : SyntaxCause) :
    R (Sees l) k e (failAt l cause : Parse α) (failAt l cause)

section Related

variable {R : ∀ {α : Type}, (Reader → Prop) → Nat → Nat → Parse α → Parse α → Prop}
  {A : Reader → Prop} {k e : Nat} {α β : Type} (hR : Compatible R)

include hR

theorem related_failNear (cause : String → SyntaxCause) :
    R A k e (failNear cause : Parse α) (failNear cause) :=
  hR.peek_bind fun l => hR.failAt l _

/-! ## Single lexemes -/

theorem related_check_bind {t : Token} {f f' : Bool → Parse β}
    (htrue : ∀ l : Lexeme, l.token = t → R (Sees l) k e (f true) (f' true))
    (hfalse : R Any k e (f false) (f' false)) :
    R A k e (check t >>= f) (check t >>= f') := by
  unfold check
  simp only [bind_assoc, pure_bind]
  refine hR.peek_bind fun l => ?_
  by_cases hl : l.token = t
  · rw [decide_eq_true hl]
    exact htrue l hl
  · rw [decide_eq_false hl]
    exact hR.weaken hfalse (Nat.le_refl _)

theorem related_accept_bind {t : Token} (ht : t ≠ .endOfInput) {f f' : Bool → Parse β}
    (htrue : 1 ≤ k → R Any (k - 1) (e - 1) (f true) (f' true))
    (hfalse : R Any k e (f false) (f' false)) :
    R A k e (accept t >>= f) (accept t >>= f') := by
  unfold accept
  rw [bind_assoc, bind_assoc]
  refine related_check_bind hR ?_ ?_
  · intro l hl
    simp only [if_true, bind_assoc, pure_bind]
    exact hR.bind (hR.advance (hl ▸ ht)) fun _ h => htrue h
  · simp only [Bool.false_eq_true, if_false, pure_bind]
    exact hfalse

theorem related_expect {t : Token} (ht : t ≠ .endOfInput) :
    R A k 1 (expect t) (expect t) := by
  unfold expect
  refine related_check_bind hR ?_ ?_
  · intro l hl
    exact hR.bind (hR.advance (hl ▸ ht)) fun _ _ => hR.pure _
  · exact related_failNear hR _

theorem related_expectClosing {t : Token} (ht : t ≠ .endOfInput) (opener : String) (line : Nat) :
    R A k 1 (expectClosing t opener line) (expectClosing t opener line) := by
  unfold expectClosing
  refine related_check_bind hR ?_ ?_
  · intro l hl
    exact hR.bind (hR.advance (hl ▸ ht)) fun _ _ => hR.pure _
  · refine hR.peek_bind fun l => ?_
    split
    · exact hR.failAt l _
    · exact hR.failAt l _

theorem related_expectName : R A k 1 expectName expectName := by
  unfold expectName
  refine hR.peek_bind fun l => ?_
  split
  · next name hl =>
    refine hR.bind (hR.advance ?_) fun _ _ => hR.pure _
    rw [hl]
    exact nofun
  · exact related_failNear hR _

theorem related_blockFollows : R A k 0 blockFollows blockFollows := by
  unfold blockFollows
  refine hR.peek_bind fun l => ?_
  split
  all_goals exact hR.pure _

/-! ## Expressions and statements -/

/-- The calls that a construct makes are related. The measure counts the lexemes first and then the rank. -/
def Calls (R : ∀ {α : Type}, (Reader → Prop) → Nat → Nat → Parse α → Parse α → Prop)
    (call call' : Reading) (m : Nat) : Prop :=
  ∀ {rank least : Nat} {α : Type} (c : Construct rank least α) {k : Nat}, 16 * k + rank < m →
    R Any k least (call c) (call' c)

variable {call call' : Reading}

-- `Construct.step` computes at each construct, so the rules for steps apply to it as it stands.

theorem related_moreNames (h : Calls R call call' (16 * k)) :
    R Any k 0 (Construct.step call .moreNames) (Construct.step call' .moreNames) := by
  refine related_accept_bind hR (by simp) ?_ ?_
  · intro h₁
    refine hR.bind (related_expectName hR) fun name h₂ => ?_
    refine hR.bind (h .moreNames (by omega)) fun names _ => ?_
    exact hR.pure _
  · exact hR.pure _

theorem related_dottedKeys (h : Calls R call call' (16 * k)) :
    R Any k 0 (Construct.step call .dottedKeys) (Construct.step call' .dottedKeys) := by
  refine related_accept_bind hR (by simp) ?_ ?_
  · intro h₁
    refine hR.bind (related_expectName hR) fun name h₂ => ?_
    refine hR.bind (h .dottedKeys (by omega)) fun names _ => ?_
    exact hR.pure _
  · exact hR.pure _

theorem related_params (h : Calls R call call' (16 * k)) :
    R Any k 1 (Construct.step call .params) (Construct.step call' .params) := by
  refine related_accept_bind hR (by simp) ?_ ?_
  · intro h₁
    exact hR.pure _
  · refine hR.bind (related_expectName hR) fun name h₁ => ?_
    refine related_accept_bind hR (by simp) ?_ ?_
    · intro h₂
      refine hR.bind (h .params (by omega)) fun names _ => ?_
      exact hR.pure _
    · exact hR.pure _

theorem related_localNames (h : Calls R call call' (16 * k)) :
    R Any k 1 (Construct.step call .localNames) (Construct.step call' .localNames) := by
  refine hR.bind (related_expectName hR) fun name h₁ => ?_
  have hmore : ∀ {k' : Nat}, k' + 1 ≤ k → R Any k' 0
      (do if ← accept (.punctuator .comma) then return name :: (← call .localNames) else return [name])
      (do if ← accept (.punctuator .comma) then return name :: (← call' .localNames) else return [name]) := by
    intro k' hk'
    refine related_accept_bind hR (by simp) ?_ ?_
    · intro h₂
      refine hR.bind (h .localNames (by omega)) fun names _ => ?_
      exact hR.pure _
    · exact hR.pure _
  refine related_accept_bind hR (by simp) ?_ ?_
  · intro h₂
    refine hR.bind (related_expectName hR) fun _ h₃ => ?_
    refine hR.bind (related_expect hR (by simp)) fun _ h₄ => ?_
    exact hmore (by omega)
  · exact hmore (by omega)

theorem related_block (h : Calls R call call' (16 * k + 3)) :
    R Any k 0 (Construct.step call .block) (Construct.step call' .block) := by
  refine hR.bind (related_blockFollows hR) fun done h₁ => ?_
  cases done with
  | true => exact hR.pure _
  | false =>
    refine related_check_bind hR ?_ ?_
    · intro l _
      refine hR.bind (hR.weaken (h .returnStat (by omega)) (Nat.le_refl _)) fun s h₂ => ?_
      exact hR.pure _
    · refine related_accept_bind hR (by simp) ?_ ?_
      · intro h₂
        exact h .block (by omega)
      · refine hR.bind (h .statement (by omega)) fun s h₂ => ?_
        refine hR.bind (h .block (by omega)) fun rest _ => ?_
        exact hR.pure _

theorem related_returnStat (h : Calls R call call' (16 * k)) :
    R Any k 1 (Construct.step call .returnStat) (Construct.step call' .returnStat) := by
  refine hR.bind (related_expect hR (by simp)) fun start h₁ => ?_
  refine hR.bind (related_blockFollows hR) fun done h₂ => ?_
  have hend : ∀ {k' : Nat} (values : List Expr), R Any k' 0
      (do
        let _ ← accept (.punctuator .semicolon)
        return Stat.return values (start.through (← lastExtent)))
      (do
        let _ ← accept (.punctuator .semicolon)
        return Stat.return values (start.through (← lastExtent))) := by
    intro k' values
    refine related_accept_bind hR (by simp) ?_ ?_
    · intro _
      exact hR.bind hR.lastExtent fun _ _ => hR.pure _
    · exact hR.bind hR.lastExtent fun _ _ => hR.pure _
  cases done with
  | true => exact hend []
  | false =>
    refine related_check_bind hR ?_ ?_
    · intro l _
      exact hR.weaken (hend []) (Nat.le_refl _)
    · exact hR.bind (h .exprList (by omega)) fun values _ => hend values

theorem related_statement (h : Calls R call call' (16 * k + 2)) :
    R Any k 1 (Construct.step call .statement) (Construct.step call' .statement) := by
  refine hR.peek_bind fun l => ?_
  dsimp only
  have hpass : ∀ {t : Token}, l.token = t → t ≠ .endOfInput → R (Sees l) k 1 advance advance :=
    fun hl ht => hR.advance (hl ▸ ht)
  split
  · next hl =>
    -- if
    refine hR.bind (hpass hl (by simp)) fun _ h₁ => ?_
    refine hR.bind (h (.clauses _ _) (by omega)) fun branches _ => ?_
    exact hR.pure _
  · next hl =>
    -- while
    refine hR.bind (hpass hl (by simp)) fun _ h₁ => ?_
    refine hR.bind (h .expr (by omega)) fun condition h₂ => ?_
    refine hR.bind (related_expect hR (by simp)) fun _ h₃ => ?_
    refine hR.bind hR.lastExtent fun _ h₄ => ?_
    refine hR.bind (h .block (by omega)) fun body _ => ?_
    refine hR.bind (related_expectClosing hR (by simp) _ _) fun closing _ => ?_
    exact hR.pure _
  · next hl =>
    -- do
    refine hR.bind (hpass hl (by simp)) fun _ h₁ => ?_
    refine hR.bind (h .block (by omega)) fun body _ => ?_
    refine hR.bind (related_expectClosing hR (by simp) _ _) fun closing _ => ?_
    exact hR.pure _
  · next hl =>
    -- for
    refine hR.bind (hpass hl (by simp)) fun _ h₁ => ?_
    exact hR.weaken (h (.forStat _) (by omega)) (Nat.zero_le _)
  · next hl =>
    -- repeat
    refine hR.bind (hpass hl (by simp)) fun _ h₁ => ?_
    refine hR.bind (h .block (by omega)) fun body h₂ => ?_
    refine hR.bind (related_expectClosing hR (by simp) _ _) fun closing h₃ => ?_
    refine hR.bind (h .expr (by omega)) fun condition _ => ?_
    refine hR.bind hR.lastExtent fun _ _ => ?_
    exact hR.pure _
  · next hl =>
    -- function
    refine hR.bind (hpass hl (by simp)) fun _ h₁ => ?_
    refine hR.bind (related_expectName hR) fun target h₂ => ?_
    refine hR.bind (h .dottedKeys (by omega)) fun path h₃ => ?_
    have hbody : ∀ {k' : Nat} (name : String) (keys : List String) (isMethod : Bool), k' ≤ k - 2 →
        R Any k' 0
          (do
            let body ← call (.functionBody l.extent name isMethod)
            return Stat.function target keys body body.extent)
          (do
            let body ← call' (.functionBody l.extent name isMethod)
            return Stat.function target keys body body.extent) := by
      intro k' name keys isMethod hk'
      refine hR.bind (h (.functionBody _ _ _) (by omega)) fun body _ => ?_
      exact hR.pure _
    refine related_accept_bind hR (by simp) ?_ ?_
    · intro h₄
      rw [if_pos rfl, map_eq_pure_bind, bind_assoc, bind_assoc]
      refine hR.bind (related_expectName hR) fun m h₅ => ?_
      exact hbody _ _ _ (by omega)
    · exact hbody _ _ _ (by omega)
  · next hl =>
    -- local
    refine hR.bind (hpass hl (by simp)) fun _ h₁ => ?_
    refine related_accept_bind hR (by simp) ?_ ?_
    · intro h₂
      refine hR.bind (related_expectName hR) fun name h₃ => ?_
      refine hR.bind (h (.functionBody _ _ _) (by omega)) fun body _ => ?_
      exact hR.pure _
    · refine hR.bind (h .localNames (by omega)) fun names h₂ => ?_
      refine related_accept_bind hR (by simp) ?_ ?_
      · intro h₃
        refine hR.bind (h .exprList (by omega)) fun values _ => ?_
        exact hR.bind hR.lastExtent fun _ _ => hR.pure _
      · simp only [Bool.false_eq_true, if_false, pure_bind]
        exact hR.bind hR.lastExtent fun _ _ => hR.pure _
  · next hl =>
    -- break
    refine hR.bind (hpass hl (by simp)) fun _ h₁ => ?_
    exact hR.pure _
  · exact hR.failAt l _
  · exact hR.failAt l _
  · exact hR.weaken (h (.exprStat _) (by omega)) (Nat.le_refl _)

theorem related_clauses (start : Extent) (openLine : Nat) (h : Calls R call call' (16 * k + 4)) :
    R Any k 1 (Construct.step call (.clauses start openLine))
      (Construct.step call' (.clauses start openLine)) := by
  refine hR.bind (h .expr (by omega)) fun condition h₁ => ?_
  refine hR.bind (related_expect hR (by simp)) fun _ h₂ => ?_
  refine hR.bind hR.lastExtent fun last h₃ => ?_
  refine hR.bind (h .block (by omega)) fun body h₄ => ?_
  refine related_check_bind hR ?_ ?_
  · intro l hl
    refine hR.bind (hR.advance (hl ▸ by simp)) fun next h₅ => ?_
    refine hR.bind (h (.clauses _ _) (by omega)) fun rest _ => ?_
    exact hR.pure _
  · refine related_accept_bind hR (by simp) ?_ ?_
    · intro h₅
      refine hR.bind (h .block (by omega)) fun other _ => ?_
      refine hR.bind (related_expectClosing hR (by simp) _ _) fun _ _ => ?_
      exact hR.pure _
    · refine hR.bind (related_expectClosing hR (by simp) _ _) fun _ _ => ?_
      exact hR.pure _

theorem related_forStat (start : Extent) (h : Calls R call call' (16 * k)) :
    R Any k 1 (Construct.step call (.forStat start)) (Construct.step call' (.forStat start)) := by
  refine hR.bind (related_expectName hR) fun first h₁ => ?_
  refine related_accept_bind hR (by simp) ?_ ?_
  · intro h₂
    refine hR.bind (h .expr (by omega)) fun initial h₃ => ?_
    refine hR.bind (related_expect hR (by simp)) fun _ h₄ => ?_
    refine hR.bind (h .expr (by omega)) fun limit h₅ => ?_
    have hrest : ∀ {k' : Nat} (step : Expr), k' ≤ k - 1 → R Any k' 0
        (do
          let _ ← expect (.keyword .do)
          let extent := start.through (← lastExtent)
          let body ← call .block
          let closing ← expectClosing (.keyword .end) Keyword.for.text start.line
          return Stat.numericFor first initial limit step body extent closing)
        (do
          let _ ← expect (.keyword .do)
          let extent := start.through (← lastExtent)
          let body ← call' .block
          let closing ← expectClosing (.keyword .end) Keyword.for.text start.line
          return Stat.numericFor first initial limit step body extent closing) := by
      intro k' step hk'
      refine hR.bind (related_expect hR (by simp)) fun _ h₆ => ?_
      refine hR.bind hR.lastExtent fun _ h₇ => ?_
      refine hR.bind (h .block (by omega)) fun body _ => ?_
      refine hR.bind (related_expectClosing hR (by simp) _ _) fun closing _ => ?_
      exact hR.pure _
    refine related_accept_bind hR (by simp) ?_ ?_
    · intro h₆
      refine hR.bind (h .expr (by omega)) fun step _ => ?_
      exact hrest step (by omega)
    · exact hrest _ (by omega)
  · refine hR.bind (h .moreNames (by omega)) fun names h₂ => ?_
    refine related_check_bind hR ?_ ?_
    · intro l hl
      refine hR.bind (hR.advance (hl ▸ by simp)) fun _ h₃ => ?_
      refine hR.bind (h .exprList (by omega)) fun values _ => ?_
      refine hR.bind (related_expect hR (by simp)) fun _ h₄ => ?_
      refine hR.bind hR.lastExtent fun _ h₅ => ?_
      refine hR.bind (h .block (by omega)) fun body _ => ?_
      refine hR.bind (related_expectClosing hR (by simp) _ _) fun closing _ => ?_
      exact hR.pure _
    · exact hR.bind (related_failNear (e := k + 1) hR _) fun _ hfailed => absurd hfailed (by omega)

theorem related_exprStat (start : Extent) (h : Calls R call call' (16 * k + 1)) :
    R Any k 1 (Construct.step call (.exprStat start)) (Construct.step call' (.exprStat start)) := by
  refine hR.bind (h .suffixedExpr (by omega)) fun first h₁ => ?_
  have hassign : R Any (k - 1) 0
      (do
        let targets := first :: (← call .moreTargets)
        if targets.any (!·.isAssignable) then failNear .notAStatement
        let _ ← expect (.punctuator .assign)
        let values ← call .exprList
        return Stat.assign targets values (start.through (← lastExtent)))
      (do
        let targets := first :: (← call' .moreTargets)
        if targets.any (!·.isAssignable) then failNear .notAStatement
        let _ ← expect (.punctuator .assign)
        let values ← call' .exprList
        return Stat.assign targets values (start.through (← lastExtent))) := by
    refine hR.bind (h .moreTargets (by omega)) fun rest h₂ => ?_
    dsimp only
    split
    · exact hR.bind (related_failNear (e := k + 1) hR _) fun _ hfailed => absurd hfailed (by omega)
    · refine hR.bind (related_expect hR (by simp)) fun _ h₃ => ?_
      refine hR.bind (h .exprList (by omega)) fun values _ => ?_
      exact hR.bind hR.lastExtent fun _ _ => hR.pure _
  have hcall : R Any (k - 1) 0
      (if first.isCall then return Stat.call first (start.through (← lastExtent))
        else failNear .notAStatement)
      (if first.isCall then return Stat.call first (start.through (← lastExtent))
        else failNear .notAStatement) := by
    split
    · exact hR.bind hR.lastExtent fun _ _ => hR.pure _
    · exact related_failNear hR _
  refine related_check_bind hR ?_ ?_
  · intro l _
    exact hR.weaken hassign (Nat.le_refl _)
  · refine related_check_bind hR ?_ ?_
    · intro l _
      exact hR.weaken hassign (Nat.le_refl _)
    · exact hcall

theorem related_moreTargets (h : Calls R call call' (16 * k)) :
    R Any k 0 (Construct.step call .moreTargets) (Construct.step call' .moreTargets) := by
  refine related_accept_bind hR (by simp) ?_ ?_
  · intro h₁
    refine hR.bind (h .suffixedExpr (by omega)) fun target h₂ => ?_
    refine hR.bind (h .moreTargets (by omega)) fun rest _ => ?_
    exact hR.pure _
  · exact hR.pure _

theorem related_functionBody (start : Extent) (name : String) (isMethod : Bool)
    (h : Calls R call call' (16 * k)) :
    R Any k 1 (Construct.step call (.functionBody start name isMethod))
      (Construct.step call' (.functionBody start name isMethod)) := by
  refine hR.bind (related_expect hR (by simp)) fun _ h₁ => ?_
  have hrest : ∀ {k' : Nat} (p : List String × Bool), k' ≤ k - 1 → R Any k' 0
      (do
        let _ ← expect (.punctuator .rightParen)
        let extent := start.through (← lastExtent)
        let body ← call .block
        let closing ← expectClosing (.keyword .end) Keyword.function.text start.line
        let names := if isMethod then "self" :: p.1 else p.1
        return FunctionBody.mk name names p.2 body extent closing)
      (do
        let _ ← expect (.punctuator .rightParen)
        let extent := start.through (← lastExtent)
        let body ← call' .block
        let closing ← expectClosing (.keyword .end) Keyword.function.text start.line
        let names := if isMethod then "self" :: p.1 else p.1
        return FunctionBody.mk name names p.2 body extent closing) := by
    intro k' p hk'
    refine hR.bind (related_expect hR (by simp)) fun _ h₂ => ?_
    refine hR.bind hR.lastExtent fun _ h₃ => ?_
    refine hR.bind (h .block (by omega)) fun body _ => ?_
    refine hR.bind (related_expectClosing hR (by simp) _ _) fun closing _ => ?_
    exact hR.pure _
  refine related_check_bind hR ?_ ?_
  · intro l _
    exact hR.weaken (hrest ([], false) (by omega)) (Nat.le_refl _)
  · refine hR.bind (h .params (by omega)) fun p _ => ?_
    exact hrest p (by omega)

theorem related_exprList (h : Calls R call call' (16 * k + 4)) :
    R Any k 1 (Construct.step call .exprList) (Construct.step call' .exprList) := by
  refine hR.bind (h .expr (by omega)) fun e h₁ => ?_
  refine related_accept_bind hR (by simp) ?_ ?_
  · intro h₂
    refine hR.bind (h .exprList (by omega)) fun es _ => ?_
    exact hR.pure _
  · exact hR.pure _

omit hR in
theorem related_expr (h : Calls R call call' (16 * k + 3)) :
    R Any k 1 (Construct.step call .expr) (Construct.step call' .expr) := by
  exact h (.subExpr 0) (by omega)

theorem related_subExpr (limit : Nat) (h : Calls R call call' (16 * k + 2)) :
    R Any k 1 (Construct.step call (.subExpr limit)) (Construct.step call' (.subExpr limit)) := by
  refine hR.peek_bind fun l => ?_
  cases hop : UnaryOp.ofToken? l.token with
  | some op =>
    have hl : l.token ≠ .endOfInput := by
      intro hl
      rw [hl] at hop
      cases hop
    refine hR.bind (hR.advance hl) fun _ h₁ => ?_
    refine hR.bind (h (.subExpr _) (by omega)) fun operand h₂ => ?_
    exact h (.infixTail _ _) (by omega)
  | none =>
    refine hR.weaken ?_ (Nat.le_refl 1)
    refine hR.bind (h .simpleExpr (by omega)) fun left h₁ => ?_
    exact h (.infixTail _ _) (by omega)

theorem related_infixTail (limit : Nat) (left : Expr) (h : Calls R call call' (16 * k)) :
    R Any k 0 (Construct.step call (.infixTail limit left))
      (Construct.step call' (.infixTail limit left)) := by
  refine hR.peek_bind fun l => ?_
  cases hop : InfixOp.ofToken? l.token with
  | none => exact hR.pure _
  | some op =>
    have hl : l.token ≠ .endOfInput := by
      intro hl
      rw [hl] at hop
      cases hop
    dsimp only
    split
    · exact hR.pure _
    · refine hR.bind (hR.advance hl) fun _ h₁ => ?_
      refine hR.bind (h (.subExpr _) (by omega)) fun right h₂ => ?_
      exact h (.infixTail _ _) (by omega)

theorem related_infixRest (left : Expr) (h : Calls R call call' (16 * k)) :
    R Any k 0 (Construct.step call (.infixRest left)) (Construct.step call' (.infixRest left)) := by
  refine hR.peek_bind fun l => ?_
  cases hop : InfixOp.ofToken? l.token with
  | none => exact hR.pure _
  | some op =>
    have hl : l.token ≠ .endOfInput := by
      intro hl
      rw [hl] at hop
      cases hop
    refine hR.bind (hR.advance hl) fun _ h₁ => ?_
    refine hR.bind (h (.subExpr _) (by omega)) fun right h₂ => ?_
    exact h (.infixRest _) (by omega)

theorem related_simpleExpr (h : Calls R call call' (16 * k + 1)) :
    R Any k 1 (Construct.step call .simpleExpr) (Construct.step call' .simpleExpr) := by
  refine hR.peek_bind fun l => ?_
  have hpass : ∀ {t : Token} (e : Expr), l.token = t → t ≠ .endOfInput →
      R (Sees l) k 1 (do let _ ← advance; return e) (do let _ ← advance; return e) :=
    fun e hl ht => hR.bind (hR.advance (hl ▸ ht)) fun _ _ => hR.pure _
  split
  · next hl => exact hpass _ hl (by simp)
  · next hl => exact hpass _ hl (by simp)
  · next hl => exact hpass _ hl (by simp)
  · next hl => exact hpass _ hl (by simp)
  · next hl => exact hpass _ hl (by simp)
  · next hl => exact hpass _ hl (by simp)
  · exact hR.weaken (h .tableExpr (by omega)) (Nat.le_refl _)
  · next hl =>
    refine hR.bind (hR.advance (hl ▸ by simp)) fun _ h₁ => ?_
    refine hR.bind (h (.functionBody _ _ _) (by omega)) fun body _ => ?_
    exact hR.pure _
  · exact hR.weaken (h .suffixedExpr (by omega)) (Nat.le_refl _)

theorem related_suffixedExpr (h : Calls R call call' (16 * k)) :
    R Any k 1 (Construct.step call .suffixedExpr) (Construct.step call' .suffixedExpr) := by
  refine hR.peek_bind fun l => ?_
  split
  · next name hl =>
    refine hR.bind (hR.advance (hl ▸ by simp)) fun _ h₁ => ?_
    exact h (.suffixes _) (by omega)
  · next hl =>
    refine hR.bind (hR.advance (hl ▸ by simp)) fun start h₁ => ?_
    refine hR.bind (h .expr (by omega)) fun inner h₂ => ?_
    refine hR.bind (related_expectClosing hR (by simp) _ _) fun _ h₃ => ?_
    exact h (.suffixes _) (by omega)
  · exact related_failNear hR _

theorem related_suffixes (e : Expr) (h : Calls R call call' (16 * k + 2)) :
    R Any k 0 (Construct.step call (.suffixes e)) (Construct.step call' (.suffixes e)) := by
  refine hR.peek_bind fun l => ?_
  have hcall : R Any k 0
      (do let args ← call .callArgs; call (.suffixes (.call e args)))
      (do let args ← call' .callArgs; call' (.suffixes (.call e args))) := by
    refine hR.bind (h .callArgs (by omega)) fun args h₁ => ?_
    exact h (.suffixes _) (by omega)
  split
  · next hl =>
    refine hR.bind (hR.advance (hl ▸ by simp)) fun _ h₁ => ?_
    refine hR.bind (related_expectName hR) fun key h₂ => ?_
    exact h (.suffixes _) (by omega)
  · next hl =>
    refine hR.bind (hR.advance (hl ▸ by simp)) fun _ h₁ => ?_
    refine hR.bind (h .expr (by omega)) fun key h₂ => ?_
    refine hR.bind (related_expect hR (by simp)) fun _ h₃ => ?_
    exact h (.suffixes _) (by omega)
  · next hl =>
    refine hR.bind (hR.advance (hl ▸ by simp)) fun _ h₁ => ?_
    refine hR.bind (related_expectName hR) fun method h₂ => ?_
    refine hR.bind (h .callArgs (by omega)) fun args h₃ => ?_
    exact h (.suffixes _) (by omega)
  · exact hR.weaken hcall (Nat.le_refl _)
  · exact hR.weaken hcall (Nat.le_refl _)
  · exact hR.weaken hcall (Nat.le_refl _)
  · exact hR.pure _

theorem related_callArgs (h : Calls R call call' (16 * k + 1)) :
    R Any k 1 (Construct.step call .callArgs) (Construct.step call' .callArgs) := by
  refine hR.peek_bind fun l => ?_
  split
  · next hl =>
    refine hR.bind (hR.advance (hl ▸ by simp)) fun _ h₁ => ?_
    exact hR.pure _
  · refine hR.weaken ?_ (Nat.le_refl 1)
    refine hR.bind (h .tableExpr (by omega)) fun t h₁ => ?_
    exact hR.pure _
  · next hl =>
    refine hR.bind (hR.advance (hl ▸ by simp)) fun _ h₁ => ?_
    have hclose : ∀ {k' : Nat} (args : List Expr), R Any k' 0
        (do let _ ← expect (.punctuator .rightParen); return args)
        (do let _ ← expect (.punctuator .rightParen); return args) :=
      fun args => hR.bind (related_expect hR (by simp)) fun _ _ => hR.pure _
    refine related_check_bind hR ?_ ?_
    · intro l _
      exact hR.weaken (hclose []) (Nat.le_refl _)
    · refine hR.bind (h .exprList (by omega)) fun args _ => ?_
      exact hclose args
  · exact related_failNear hR _

theorem related_tableExpr (h : Calls R call call' (16 * k)) :
    R Any k 1 (Construct.step call .tableExpr) (Construct.step call' .tableExpr) := by
  refine hR.bind (related_expect hR (by simp)) fun start h₁ => ?_
  refine hR.bind (h .tableFields (by omega)) fun fields h₂ => ?_
  refine hR.bind (related_expectClosing hR (by simp) _ _) fun _ _ => ?_
  exact hR.pure _

theorem related_tableFields (h : Calls R call call' (16 * k + 5)) :
    R Any k 0 (Construct.step call .tableFields) (Construct.step call' .tableFields) := by
  refine related_check_bind hR ?_ ?_
  · intro l _
    exact hR.pure _
  · refine hR.bind (h .tableField (by omega)) fun field h₁ => ?_
    have hmore : ∀ {k' : Nat}, k' ≤ k - 1 → R Any k' 0
        (do return field :: (← call .tableFields)) (do return field :: (← call' .tableFields)) :=
      fun hk' => hR.bind (h .tableFields (by omega)) fun rest _ => hR.pure _
    refine related_accept_bind hR (by simp) ?_ ?_
    · intro h₂
      exact hmore (by omega)
    · refine related_accept_bind hR (by simp) ?_ ?_
      · intro h₂
        exact hmore (by omega)
      · exact hR.pure _

theorem related_tableField (h : Calls R call call' (16 * k + 4)) :
    R Any k 1 (Construct.step call .tableField) (Construct.step call' .tableField) := by
  refine related_accept_bind hR (by simp) ?_ ?_
  · intro h₁
    refine hR.bind (h .expr (by omega)) fun key h₂ => ?_
    refine hR.bind (related_expect hR (by simp)) fun _ h₃ => ?_
    refine hR.bind (related_expect hR (by simp)) fun _ h₄ => ?_
    refine hR.bind (h .expr (by omega)) fun value _ => ?_
    exact hR.pure _
  · refine hR.peek_bind fun l => ?_
    split
    · next name hl =>
      refine hR.bind (hR.advance (hl ▸ by simp)) fun _ h₁ => ?_
      refine related_accept_bind hR (by simp) ?_ ?_
      · intro h₂
        refine hR.bind (h .expr (by omega)) fun value _ => ?_
        exact hR.pure _
      · refine hR.bind (h (.suffixes _) (by omega)) fun left h₂ => ?_
        refine hR.bind (h (.infixRest _) (by omega)) fun value _ => ?_
        exact hR.pure _
    · refine hR.weaken ?_ (Nat.le_refl 1)
      refine hR.bind (h .expr (by omega)) fun value _ => ?_
      exact hR.pure _


/-- What is related for the calls of a construct is related for the construct. -/
theorem related_step {rank least : Nat} {α : Type} (c : Construct rank least α)
    (h : Calls R call call' (16 * k + rank)) : R Any k least (c.step call) (c.step call') := by
  cases c with
  | moreNames => exact related_moreNames hR h
  | localNames => exact related_localNames hR h
  | params => exact related_params hR h
  | dottedKeys => exact related_dottedKeys hR h
  | block => exact related_block hR h
  | returnStat => exact related_returnStat hR h
  | statement => exact related_statement hR h
  | clauses start openLine => exact related_clauses hR _ _ h
  | forStat start => exact related_forStat hR _ h
  | exprStat start => exact related_exprStat hR _ h
  | moreTargets => exact related_moreTargets hR h
  | functionBody start name isMethod => exact related_functionBody hR _ _ _ h
  | exprList => exact related_exprList hR h
  | expr => exact related_expr h
  | subExpr limit => exact related_subExpr hR _ h
  | infixTail limit left => exact related_infixTail hR _ _ h
  | infixRest left => exact related_infixRest hR _ h
  | simpleExpr => exact related_simpleExpr hR h
  | suffixedExpr => exact related_suffixedExpr hR h
  | suffixes e => exact related_suffixes hR _ h
  | callArgs => exact related_callArgs hR h
  | tableExpr => exact related_tableExpr hR h
  | tableFields => exact related_tableFields hR h
  | tableField => exact related_tableField hR h

end Related

end Parse

end LuaMachine
