/-!
# Pools

A pool keeps idle things for reuse, up to a limit. What was put back last is taken out first.
Main statements: what is put in comes out next (`take?_put?`), and a pool never holds more than its
limit if it did not before (`size_put?_le`).
-/

namespace LuaMachine

/-- A pool of reusable things. -/
structure Pool (α : Type) where
  /-- the idle things, the latest first -/
  items : List α := []
  maxIdle : Nat
deriving Repr, Inhabited

namespace Pool

variable {α : Type}

def size (p : Pool α) : Nat := p.items.length

def isEmpty (p : Pool α) : Bool := p.items.isEmpty

/-- The idle things in the order in which they were put back. -/
def idle (p : Pool α) : List α := p.items.reverse

/-- Take out the latest thing. -/
def take? (p : Pool α) : Option (α × Pool α) :=
  match p.items with
  | a :: rest => some (a, { p with items := rest })
  | [] => none

/-- Put a thing back; refused when the pool is full. -/
def put? (p : Pool α) (a : α) : Option (Pool α) :=
  if p.size < p.maxIdle then some { p with items := a :: p.items } else none

def clear (p : Pool α) : Pool α := { p with items := [] }

theorem take?_put? {p q : Pool α} {a : α} (h : p.put? a = some q) : q.take? = some (a, p) := by
  simp only [put?] at h
  split at h
  · cases h; rfl
  · cases h

theorem size_put?_le {p q : Pool α} {a : α} (h : p.put? a = some q) : q.size ≤ q.maxIdle := by
  simp only [put?] at h
  split at h
  next room => cases h; exact room
  next => cases h

end Pool

end LuaMachine
