import LuaMachine.Value.Basic
import LuaMachine.Text.Quoted

/-!
# The text of values

How a value prints. References print their kind and an address that tells them apart; a host object
may have a text of its own, which the caller supplies.
-/

namespace LuaMachine

namespace Value

/-- The address that stands for the thing at a position of its store. -/
def addressOf (index : Nat) : String :=
  "0x" ++ String.ofList (Text.hexDigits (0x7f0000000000 + 16 * (index + 1)))

mutual

/-- The text of a value; the items of a tuple are joined by tabs. -/
def display (objectText : ObjectId → Option String) : Value → String
  | nil => "nil"
  | boolean b => if b then "true" else "false"
  | number n => n.format
  | string s => s
  | table id => s!"table: {addressOf id.index}"
  | function id => s!"function: {addressOf id.index}"
  | callback c => s!"function: builtin: {c.name}"
  | userdata id => match objectText id with
    | some text => text
    | none => s!"userdata: {addressOf id.index}"
  | coroutine id => s!"thread: {addressOf id.index}"
  | tuple vs => "\t".intercalate (displayList objectText vs)

@[inherit_doc display]
def displayList (objectText : ObjectId → Option String) : List Value → List String
  | [] => []
  | v :: vs => display objectText v :: displayList objectText vs

end

end Value

end LuaMachine
