import LuaMachine.Value.Key
import Std.Data.HashMap

/-!
# Tables

A table keeps its entries in the order of their first insertion. Clearing a field leaves its entry
in place with the value `nil`, so that a traversal may clear fields as it goes; the cleared entries
are dropped only when a new key comes in and they are at least sixteen and at least half of all.
-/

namespace LuaMachine

/-- An associative array with an optional metatable. -/
structure Table where
  /-- the entries in order of insertion; a cleared one holds `nil` -/
  entries : Array (Key × Value) := #[]
  /-- the position of each key in `entries` -/
  index : Std.HashMap Key Nat := {}
  /-- how many entries are cleared -/
  cleared : Nat := 0
  metatable : Option TableId := none
deriving Inhabited

namespace Table

def empty : Table := {}

/-- The value of a key, `nil` when it has none. -/
def find (t : Table) (k : Key) : Value :=
  match t.index[k]? with
  | some i => match t.entries[i]? with
    | some (_, v) => v
    | none => .nil
  | none => .nil

/-- The value at any index; one that cannot be a key has `nil`. -/
def get (t : Table) (key : Value) : Value :=
  match Key.ofValue key with
  | .ok k => t.find k
  | .error _ => .nil

def getString (t : Table) (key : String) : Value := t.find (.string key)

/-- The positions of the keys of a list of entries. -/
def indexOf (entries : Array (Key × Value)) : Std.HashMap Key Nat :=
  (entries.foldl (fun (m, i) e => (m.insert e.1 i, i + 1))
    ((Std.HashMap.emptyWithCapacity entries.size : Std.HashMap Key Nat), 0)).1

/-- Least number of cleared entries that are worth dropping. -/
def compactThreshold : Nat := 16

/-- Drop the cleared entries when they are many. -/
def compact (t : Table) : Table :=
  if t.cleared ≥ compactThreshold && t.cleared * 2 ≥ t.entries.size then
    let entries := t.entries.filter fun e => !e.2.isNil
    { t with entries, index := indexOf entries, cleared := 0 }
  else t

/-- Add an entry for a key that the table does not have. -/
def insertNew (t : Table) (k : Key) (v : Value) : Table :=
  let t := t.compact
  let position := t.entries.size
  { t with entries := t.entries.push (k, v), index := t.index.insert k position }

/-- Set the value of a key; `nil` clears it. -/
def put (t : Table) (k : Key) (v : Value) : Table :=
  match t.index[k]? with
  | none => if v.isNil then t else t.insertNew k v
  | some i =>
    let held := match t.entries[i]? with
      | some e => !e.2.isNil
      | none => false
    if v.isNil then
      if held then
        { t with entries := t.entries.modify i fun e => (e.1, .nil), cleared := t.cleared + 1 }
      else t
    else
      { t with
        entries := t.entries.modify i fun e => (e.1, v)
        cleared := if held then t.cleared else t.cleared - 1 }

/-- Assignment to any index; a tuple is stored as its scalar. -/
def set (t : Table) (key value : Value) : Except TableFault Table :=
  match Key.ofValue key with
  | .ok k => .ok (t.put k value.scalar)
  | .error e => .error e

def setString (t : Table) (key : String) (value : Value) : Table :=
  t.put (.string key) value.scalar

/-- The first position from `n + 1` on that is empty, less one; `fuel` bounds the search. -/
def borderFrom (t : Table) : Nat → Nat → Nat
  | 0, n => n
  | fuel + 1, n => if (t.find (.ofNat (n + 1))).isNil then n else t.borderFrom fuel (n + 1)

/-- The length of the sequence part: every position up to it holds a value and the next does not.
A table of `m` entries has its border at `m` or before. -/
def length (t : Table) : Nat := t.borderFrom (t.entries.size + 1) 0

/-- Set the position after the border. -/
def append (t : Table) (value : Value) : Table :=
  t.put (.ofNat (t.length + 1)) value.scalar

/-- The number of entries that hold a value. -/
def count (t : Table) : Nat := t.entries.size - t.cleared

/-- The first entry from a position on that holds a value; `fuel` bounds the search. -/
def liveFrom (t : Table) : Nat → Nat → Option (Value × Value)
  | 0, _ => none
  | fuel + 1, i =>
    match t.entries[i]? with
    | none => none
    | some (k, v) => if v.isNil then t.liveFrom fuel (i + 1) else some (k.toValue, v)

/-- The entry after a key in traversal order; `nil` starts the traversal. -/
def next (t : Table) (key : Value) : Except TableFault (Option (Value × Value)) :=
  if key.isNil then .ok (t.liveFrom t.entries.size 0)
  else match Key.ofValue key with
    | .error e => .error e
    | .ok k => match t.index[k]? with
      | some i => .ok (t.liveFrom (t.entries.size - i) (i + 1))
      | none => .error .unknownKey

/-- The entries that hold a value, in traversal order. -/
def pairs (t : Table) : List (Value × Value) :=
  (t.entries.toList.filter fun e => !e.2.isNil).map fun e => (e.1.toValue, e.2)

/-- The table whose positions from one on hold the values of a list. -/
def ofSequence (vs : List Value) : Table :=
  (vs.foldl (fun (t, i) v => (t.put (.ofNat i) v.scalar, i + 1)) (empty, 1)).1

end Table

end LuaMachine
