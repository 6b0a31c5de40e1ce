/-! A stopwatch for the phases of a computation. Its operations take the time at which they happen,
in ticks of any clock that does not run backwards; the stopwatch reads no clock itself. -/
namespace BalancedMove

structure Phase where
  name : String
  duration : Nat
deriving DecidableEq, Repr

structure Report where
  stopwatch : String
  phase : Phase
deriving DecidableEq, Repr

structure Stopwatch where
  name : String
  elapsed : Nat := 0
  last : Nat
  running : Bool := false
  phases : Array Phase := #[]
deriving DecidableEq, Repr

namespace Stopwatch

def create (name : String) (now : Nat) : Stopwatch := { name, last := now }

def start (watch : Stopwatch) (now : Nat) : Stopwatch :=
  { watch with running := true, last := now }

def started (name : String) (now : Nat) : Stopwatch := (create name now).start now

def pending (watch : Stopwatch) (now : Nat) : Nat := if watch.running then now - watch.last else 0

def stop (watch : Stopwatch) (now : Nat) : Nat × Stopwatch :=
  (watch.pending now,
    { watch with elapsed := watch.elapsed + watch.pending now, running := false })

def reset (watch : Stopwatch) : Stopwatch :=
  { watch with elapsed := 0, phases := #[], running := false }

def lap (watch : Stopwatch) (now : Nat) : Nat × Stopwatch :=
  if watch.running then
    (now - watch.last,{ watch with elapsed := watch.elapsed + (now - watch.last), last := now })
  else (0,watch)

def report (watch : Stopwatch) (phase : Phase) : Report := ⟨watch.name,phase⟩

def closePhase (watch : Stopwatch) (name : String) (now : Nat) :
    Nat × Stopwatch × List Report :=
  let (duration,watch) := watch.lap now
  if watch.running then
    let phase : Phase := { name, duration }
    (duration,{ watch with phases := watch.phases.push phase },[watch.report phase])
  else (duration,watch,[])

def total (watch : Stopwatch) (now : Nat) : Nat := watch.elapsed + watch.pending now

def reportTotal (watch : Stopwatch) (now : Nat) : Report :=
  watch.report { name := "total", duration := watch.total now }

end Stopwatch

end BalancedMove
