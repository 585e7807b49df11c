import LuaMachine.Number.Basic

/-!
# Configuration documents

The tree that a configuration document in TOML describes, and the rules by which its lines build it:
a key is set once, a table is defined once, and a table that a dotted key made is closed to headers.
-/

namespace LuaMachine.Toml

/-- How a table came about. -/
inductive TableOrigin where
  /-- by a header of its own -/
  | defined
  /-- on the way to the table of a header -/
  | implied
  /-- on the way of a dotted key -/
  | dotted
deriving DecidableEq, Repr, Inhabited

/-- What a key stands for. -/
inductive Item where
  | string (s : String)
  | integer (n : Int)
  | float (x : Number)
  | boolean (b : Bool)
  /-- a date, a time or both, as written -/
  | dateTime (text : String)
  | array (items : List Item)
  /-- a table written as a value -/
  | inline (rows : List (String × Item))
  | table (origin : TableOrigin) (rows : List (String × Item))
  /-- tables that share a header -/
  | tables (items : List (List (String × Item)))
deriving Inhabited

/-- The keys of a table with their items, in the order in which they were first set. -/
abbrev Rows := List (String × Item)

namespace Rows

def get? (rows : Rows) (key : String) : Option Item := (rows.find? (·.1 == key)).map (·.2)

/-- Replace the item of a key in its place, or add the key at the end. -/
def set (rows : Rows) (key : String) (item : Item) : Rows :=
  match rows with
  | [] => [(key, item)]
  | row :: rest => if row.1 == key then (key, item) :: rest else row :: set rest key item

@[simp] theorem get?_set_self (rows : Rows) (key : String) (item : Item) :
    (rows.set key item).get? key = some item := by
  induction rows with
  | nil => simp [set, get?]
  | cons row rest ih =>
    simp only [set]
    split
    · simp [get?]
    · simp_all [get?]

/-- Change the table at the end of a path that starts in a table. Tables that are missing on the way
are made. The way passes the last of several tables that share a header; it does not pass a value,
and the way of a dotted key does not pass a table that has a header. -/
def descend (made : TableOrigin) (change : TableOrigin → Rows → Option Rows) :
    List String → TableOrigin → Rows → Option Rows
  | [], origin, rows => change origin rows
  | key :: path, _, rows =>
    match rows.get? key with
    | none => (descend made change path made []).map fun inner => rows.set key (.table made inner)
    | some (.table origin inner) =>
      if made == .dotted && origin == .defined then none
      else (descend made change path origin inner).map fun inner =>
        rows.set key (.table origin inner)
    | some (.tables items) => match items.getLast? with
      | some last => (descend made change path .defined last).map fun last =>
        rows.set key (.tables (items.dropLast ++ [last]))
      | none => none
    | some _ => none

/-- Set a key behind a dotted path, which may be empty. Without a path the key belongs to a table
that was not made by dotted keys, and with one to a table that was. -/
def put (rows : Rows) (origin : TableOrigin) (path : List String) (key : String) (item : Item) :
    Option Rows :=
  let add (origin : TableOrigin) (rows : Rows) : Option Rows :=
    if (origin == .dotted) == path.isEmpty || (rows.get? key).isSome then none
    else some (rows.set key item)
  descend .dotted add path origin rows

end Rows

/-- A document in the making. -/
structure Document where
  rows : Rows := []
  /-- the path of the last header -/
  header : List String := []
deriving Inhabited

namespace Document

/-- A header: the table is defined here, and was at most implied before. -/
def openTable (d : Document) (path : List String) (key : String) : Option Document := do
  let rows ← d.rows.descend .implied
    (fun _ rows => match rows.get? key with
      | none => some (rows.set key (.table .defined []))
      | some (.table .implied inner) => some (rows.set key (.table .defined inner))
      | some _ => none)
    path .defined
  return { rows, header := path ++ [key] }

/-- A header that other tables may share: one more table with it. -/
def openElement (d : Document) (path : List String) (key : String) : Option Document := do
  let rows ← d.rows.descend .implied
    (fun _ rows => match rows.get? key with
      | none => some (rows.set key (.tables [[]]))
      | some (.tables items) => some (rows.set key (.tables (items ++ [[]])))
      | some _ => none)
    path .defined
  return { rows, header := path ++ [key] }

/-- A line that sets a key of the table of the last header. -/
def put (d : Document) (path : List String) (key : String) (item : Item) : Option Document := do
  let rows ← d.rows.descend .implied (fun origin rows => rows.put origin path key item)
    d.header .defined
  return { d with rows }

end Document

end LuaMachine.Toml
