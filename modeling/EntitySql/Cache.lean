import EntitySql.Compiler

/-!
# Keeping compiled queries

A cache maps query texts to compiled queries. What is asked for and not there is generated and kept;
a failed generation keeps nothing. Several compilers may share a cache: the text alone is the key.

Every key has a cell. It is made before the first generation, filled by a generation that succeeds
and dropped again after one that fails.
-/

namespace EntitySql

structure Cache where
  /-- The cells by their keys; one without a value is still empty. -/
  cells : List (String × Option Artifact) := []
  deriving DecidableEq, Repr, Inhabited

namespace Cache

variable (m : Cache)

def get? (key : String) : Option Artifact := (Pairs.find? key m.cells).join

/-- The number of cells, empty ones included. -/
def slots : Nat := m.cells.length

/-- The number of filled cells. -/
def size : Nat := (m.cells.filter fun cell => cell.2.isSome).length

def isEmpty : Bool := m.size == 0

/-- The cache with a cell for a key. -/
def reserve (key : String) : Cache :=
  if Pairs.contains key m.cells then m else ⟨Pairs.insert key none m.cells⟩

/-- The cache with a value in the cell of a key. -/
def fill (key : String) (a : Artifact) : Cache := ⟨Pairs.insert key (some a) m.cells⟩

/-- The cache without the cell of a key, where that is empty. -/
def evict (key : String) : Cache :=
  match Pairs.find? key m.cells with
  | some none => ⟨m.cells.filter fun cell => cell.1 != key⟩
  | _ => m

/-- The compilation under a key, and the cache after it. The generator is run only where nothing is kept.
What is kept was compiled before, so an observer sees nothing. -/
def askWith {μ : Type → Type} [Monad μ] (key : String) (generate : Unit → μ Compilation) :
    μ (Compilation × Cache) := do
  let m := m.reserve key
  match m.get? key with
  | some a => return (⟨[], .ok a⟩, m)
  | none =>
    let made ← generate ()
    match made.outcome with
    | .ok a => return (made, m.fill key a)
    | .error _ => return (made, m.evict key)

/-- `askWith` for a generator without effects. -/
def ask (key : String) (generate : Unit → Compilation) : Compilation × Cache :=
  Id.run (m.askWith key fun _ => pure (generate ()))

end Cache

namespace Compiler

/-- The compilation of a text by a compiler with a cache, which it uses only where it is to keep what it
compiles, and the cache after it. -/
def translateWith {μ : Type → Type} [Monad μ] (c : Compiler) (m : Cache) (text : String)
    (generate : Unit → μ Compilation) : μ (Compilation × Cache) := do
  if c.settings.memoize then m.askWith text generate else return (← generate (), m)

end Compiler

end EntitySql
