import BalancedMove.MoveTable.OfStore
import BalancedMove.MoveTable.OfStores
import BalancedMove.Store.Bounded

/-! Construction of a move structure from the pairs of a permutation: by balancing, with one worker
or with several, by bounding the lengths, or as the pairs are. Each way first accepts its input. -/
namespace BalancedMove

structure Construction where
  width : Width
  n : Nat
  pairs : List Pair
  parameters : BalanceParameters := {}
deriving DecidableEq, Repr

namespace Construction

def withParameters (construction : Construction) (parameters : BalanceParameters) : Construction :=
  { construction with parameters }

def withBalancing (construction : Construction) (a : Nat) : Construction :=
  { construction with parameters := { construction.parameters with a } }

def withWorkers (construction : Construction) (workers : Nat) : Construction :=
  { construction with parameters := { construction.parameters with workers } }

def balanceAlone (construction : Construction) : Outcome (MoveTable × BalanceCounts) := do
  let store ← Store.load construction.width construction.n construction.pairs
  let (store,counts) ← store.balance construction.parameters.a
  let table ← MoveTable.ofStore store
  return (table,counts)

def balanceShared (construction : Construction) : Outcome (MoveTable × BalanceCounts) := do
  let (stores,counts) ← Parallel.balanceAccepted construction.width construction.n
    construction.pairs construction.parameters
  let table ← MoveTable.ofStores stores construction.parameters.a
  return (table,counts)

def buildCounted (construction : Construction) (cores : Nat) :
    Outcome (MoveTable × BalanceCounts) := do
  validate construction.width construction.n construction.pairs
  construction.parameters.validate cores construction.n
  if construction.parameters.workers = 1 then construction.balanceAlone
  else construction.balanceShared

def build (construction : Construction) (cores : Nat) : Outcome MoveTable := do
  let (table,_) ← construction.buildCounted cores
  return table

def buildBounded (construction : Construction) (bound : Nat) : Outcome MoveTable := do
  let store ← Store.bounded construction.width construction.n construction.pairs bound
  MoveTable.ofStore store

def buildAsGiven (construction : Construction) : Outcome MoveTable := do
  validate construction.width construction.n construction.pairs
  MoveTable.ofPairs construction.width construction.n construction.pairs

end Construction

end BalancedMove
