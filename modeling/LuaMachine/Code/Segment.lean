import LuaMachine.Code.Instruction

/-!
# Code segments

A segment is the code of one script. It only grows: each load appends one block, and blocks lie side
by side, so that an address names the same instruction for ever. A `Builder` collects the
instructions of a block under the addresses they will have.

The block of an address is found by halving, which relies on the order of the blocks.
-/

namespace LuaMachine

/-- A block: the addresses from `base` up to `limit`, which is outside. -/
structure CodeBlock where
  base : Nat
  limit : Nat
deriving DecidableEq, Repr

namespace CodeBlock

def contains (b : CodeBlock) (address : Nat) : Bool := b.base ≤ address && address < b.limit

end CodeBlock

/-- The first place in a range at which a test fails, or the end of the range. The range is halved, so
the test has to hold up to some place and to fail from there on. -/
def partitionPoint (test : Nat → Bool) (start stop : Nat) : Nat :=
  if start < stop then
    let middle := start + (stop - start) / 2
    if test middle then partitionPoint test (middle + 1) stop else partitionPoint test start middle
  else start
termination_by stop - start

/-- The code of a script: all instructions, and the blocks they came in, oldest first. -/
structure Segment where
  code : Array Instruction := #[]
  blocks : Array CodeBlock := #[]
deriving Repr, Inhabited

namespace Segment

def empty : Segment := {}

def size (s : Segment) : Nat := s.code.size

def isEmpty (s : Segment) : Bool := s.code.isEmpty

def instruction? (s : Segment) (address : Nat) : Option Instruction := s.code[address]?

def span? (s : Segment) (address : Nat) : Option Span := s.code[address]?.bind (·.span)

/-- The block that an address lies in: the first one that does not end before it. -/
def blockAt? (s : Segment) (address : Nat) : Option CodeBlock :=
  let place := partitionPoint (fun i => s.blocks[i]?.any (·.limit ≤ address)) 0 s.blocks.size
  s.blocks[place]?.filter (·.contains address)

/-- The block that the next load will make, of a given size. -/
def nextBlock (s : Segment) (size : Nat) : CodeBlock := ⟨s.size, s.size + size⟩

/-- Add a block; one without instructions leaves no trace. -/
def append (s : Segment) (code : List Instruction) : Segment :=
  if code.isEmpty then s
  else { code := s.code ++ code.toArray, blocks := s.blocks.push (s.nextBlock code.length) }

/-- A range of the block at an address: `none` when there is no block, and `some none` when the
range leaves it. -/
def range? (s : Segment) (b : CodeBlock) (start length : Nat) : Option (List Instruction) :=
  if b.base ≤ start && start + length ≤ b.limit then
    some ((s.code.extract start (start + length)).toList)
  else none

/-- The instructions of a block. -/
def blockCode (s : Segment) (b : CodeBlock) : List Instruction :=
  (s.code.extract b.base b.limit).toList

/-- The instruction that a block has at an address. -/
def get? (s : Segment) (b : CodeBlock) (address : Nat) : Option Instruction :=
  if b.base ≤ address then (s.blockCode b)[address - b.base]? else none

/-- A line of the listing. -/
def line (address : Nat) (i : Instruction) : String :=
  s!"{Text.hexPadded 8 address}  {i.op.display}"

/-- The listing, block by block: one line for each instruction, with its address. -/
def listing (s : Segment) : List String :=
  s.blocks.toList.flatMap fun b => (s.blockCode b).mapIdx fun i ins => line (b.base + i) ins

end Segment

/-- A block in the making. -/
structure Builder where
  base : Nat
  code : Array Instruction := #[]
  /-- the source text that the next instructions come from -/
  span : Option Span := none
deriving Repr

namespace Builder

def nextAddress (b : Builder) : Nat := b.base + b.code.size

/-- Add an instruction at `nextAddress`. -/
def emit (b : Builder) (op : OpCode) : Builder := { b with code := b.code.push ⟨op, b.span⟩ }

def withSpan (b : Builder) (span : Option Span) : Builder := { b with span }

/-- The instruction at an address, if this builder made it. -/
def get? (b : Builder) (address : Nat) : Option Instruction :=
  if b.base ≤ address then b.code[address - b.base]? else none

/-- Change the operation at an address, if this builder made it. -/
def modify (b : Builder) (address : Nat) (f : OpCode → OpCode) : Builder :=
  if b.base ≤ address then
    { b with code := b.code.modify (address - b.base) fun i => { i with op := f i.op } }
  else b

/-- Redirect the jump at an address. -/
def patchJump (b : Builder) (address target : Nat) : Builder :=
  b.modify address (·.withTarget target)

/-- Let the header at an address cover everything up to here. -/
def closeHeader (b : Builder) (address : Nat) : Builder :=
  b.modify address fun
    | .header name kind _ => .header name kind (b.nextAddress - address)
    | op => op

end Builder

/-- Make a block by a builder that stands at the next address, and add it. A builder that fails adds
nothing. -/
def Segment.appendWith {ε α : Type} (s : Segment) (build : Builder → Except ε (α × Builder)) :
    Except ε ((CodeBlock × α) × Segment) :=
  match build { base := s.size } with
  | .ok (result, b) => .ok ((s.nextBlock b.code.size, result), s.append b.code.toList)
  | .error e => .error e

end LuaMachine
