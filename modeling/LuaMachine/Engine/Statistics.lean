import LuaMachine.Number.Basic

/-!
# Execution statistics

What an engine counts, and how it reports the counts.
-/

namespace LuaMachine

/-- The counts of an engine. -/
structure Statistics where
  /-- executions in progress -/
  active : Nat := 0
  run : Nat := 0
  /-- executions of a function that had run before and was there already compiled -/
  fromCache : Nat := 0
  errors : Nat := 0
  compiled : Nat := 0
  created : Nat := 0
  discarded : Nat := 0
deriving DecidableEq, Repr, Inhabited

namespace Statistics

/-- An execution begins. -/
def start (s : Statistics) : Statistics := { s with active := s.active + 1, run := s.run + 1 }

/-- An execution ends. -/
def finish (s : Statistics) : Statistics := { s with active := s.active - 1 }

/-- Start counting again; executions in progress stay in progress. -/
def reset (s : Statistics) : Statistics := { active := s.active }

/-- The share of executions from the cache, in percent. -/
def hitPercentage (s : Statistics) : Number :=
  if s.run == 0 then .zero
  else ((Number.ofNat s.fromCache).div (.ofNat s.run)).mul (.ofNat 100)

/-- The counts by name. -/
def rows (s : Statistics) : List (String × Nat) :=
  [("active_scripts", s.active), ("scripts_run", s.run), ("scripts_run_from_cache", s.fromCache),
    ("error_count", s.errors), ("functions_compiled", s.compiled),
    ("instances_created", s.created), ("instances_discarded", s.discarded)]

/-- The counts as a JSON object, one line each. -/
def toJson (s : Statistics) : String :=
  let line (row : String × Nat) : String := s!"  \"{row.1}\": {row.2}"
  "\x7b\n" ++ ",\n".intercalate (s.rows.map line) ++ "\n\x7d"

end Statistics

end LuaMachine
