import BalancedMove.BuildError

/-! Parameters of a construction: `a` bounds the number of starts in an output interval by
`2a - 1`, and `workers` is the number of workers that share the balancing. -/
namespace BalancedMove

structure BalanceParameters where
  a : Nat := 8
  workers : Nat := 1
deriving DecidableEq, Repr

namespace BalanceParameters

/-- A machine of `cores` cores runs that many workers at once; one without a position of its own would
have nothing to do. -/
def maxWorkers (cores n : Nat) : Nat := if n < Width.w64.limit then min n cores else cores

def validate (parameters : BalanceParameters) (cores n : Nat) : Outcome Unit :=
  if parameters.a < 2 then reject (.balancingParameter parameters.a)
  else if parameters.workers = 0 ∨ maxWorkers cores n < parameters.workers then
    reject (.workerCount parameters.workers (maxWorkers cores n))
  else .ok ()

end BalanceParameters

end BalancedMove
