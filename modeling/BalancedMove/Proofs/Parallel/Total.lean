import BalancedMove.Proofs.Pairs.Verdict
import BalancedMove.Proofs.Parallel.Safety
import BalancedMove.Proofs.Parallel.Schedule

/-! Balancing with several workers always answers. It refuses its pairs, or else the number of workers,
or else the parameter; and if it refuses none of them, every schedule of the workers ends with the answer
and no step of a worker fails on the way: neither its own pass, nor handing over, nor linking. -/
namespace BalancedMove

open Sequence Store Balancer

variable {p : Nat}

section Runs

variable {layout : Layout} {pairs : List Pair}

theorem Together.consistent (together : Together layout pairs) {begun : Fin layout.workers → Worker}
    (isBegun : together.begun = List.ofFn begun) : (Exchange.start begun).Consistent layout
      (fun t => (outputsOf layout (layout.pieces pairs) t).length)
      (inputsOf layout (layout.pieces pairs)) (fun t => sharedPairs layout (layout.pieces pairs) t)
      (fun t src => sharedPairs layout (layout.pieces pairs) src t) := by
  refine ⟨fun t inside => ⟨⟨inputsOf layout (layout.pieces pairs) t,
    outputsOf layout (layout.pieces pairs) t,?_,List.Subset.refl _,fun begun => absurd rfl begun⟩,
    List.not_mem_nil⟩,?_,fun _ _ _ => trivial⟩
  · refine together.starts t inside (begun t) ?_
    rw [isBegun]
    simp
  · intro src dst _
    simp [Exchange.start,Exchange.inFlight,Stage.pendingFrom]

end Runs

/-- Whatever a process is to do next can be done. Its own pass and the linking of a message succeed, and
a message names one of the records that its receiver shares with the sender. Whoever is sent to still
listens, whoever receives has a batch to receive, and every record of a tree directs its splits. -/
structure Unfailing (system : Exchange p) : Prop where
  live : ∀ t, (system.process t).stage ≠ .finished → ∃ event after, Step system event after
  sweeps : ∀ t, (system.process t).stage = .sweeping →
    ∃ worker, (system.process t).worker.sweep = .ok worker
  sends : ∀ t dst rest, (system.process t).stage = .flushing (dst :: rest) →
    (system.process dst).stage ≠ .finished
  receives : ∀ t src rest, (system.process t).stage = .receiving [] (src :: rest) →
    ∃ batch later, system.queue src t = batch :: later
  links : ∀ t src message pending senders,
    (system.process t).stage = .receiving ((src,message) :: pending) senders →
      ∃ ids worker, (system.process t).worker.records[src.val]? = some ids ∧
        message.after < ids.size ∧ (system.process t).worker.receive src message = .ok worker
  directs : ∀ t, ∃ listed shown,
    (system.process t).worker.balancer.store.inputIds = .ok listed ∧
      (system.process t).worker.balancer.store.outputIds = .ok shown ∧
      ∀ id ∈ shown, (system.process t).worker.Directs listed id

section Verdicts

variable {width : Width} {n a workers : Nat} {pairs : List Pair}

theorem balance_refused {cause : BuildError} (refused : validate width n pairs = reject cause) :
    Parallel.balance width n pairs { a, workers } = reject cause := by
  rw [Parallel.balance,refused]
  rfl

theorem balance_workers (accepted : validate width n pairs = .ok ())
    (wrong : workers = 0 ∨ Width.w64.saturate n < workers) :
    Parallel.balance width n pairs { a, workers } =
      reject (.workerCount workers (Width.w64.saturate n)) := by
  rw [Parallel.balance,accepted,Checked.ok_bind,Parallel.balanceAccepted]
  exact if_pos wrong

theorem balance_parameter (accepted : validate width n pairs = .ok ()) (positive : 0 < workers)
    (most : workers ≤ Width.w64.saturate n) (few : a < 2) :
    Parallel.balance width n pairs { a, workers } = reject (.balancingParameter a) := by
  have right : ¬ (workers = 0 ∨ Width.w64.saturate n < workers) := by omega
  rw [Parallel.balance,accepted,Checked.ok_bind,Parallel.balanceAccepted]
  simp only [if_neg right,if_pos few]

/-- The run is begun and ends with an answer; every schedule of it ends, and fails nowhere. -/
def Parallel.Completes (width : Width) (n a workers : Nat) (pairs : List Pair) : Prop :=
  ∃ (begun : Fin workers → Worker) (stores : List Store) (counts : BalanceCounts) (steps : Nat),
    Parallel.lineUp width n a workers pairs = .ok (List.ofFn begun) ∧
    Parallel.balance width n pairs { a, workers } = .ok (stores,counts) ∧
    stores.length = workers ∧
    counts.rounds ≤ counts.messages ∧ counts.messages ≤ counts.splits ∧ counts.splits ≤ n ∧
    ∀ log system, Runs (Exchange.start begun) log system → log.length ≤ steps ∧ Unfailing system

theorem Together.completes {layout : Layout} (together : Together layout pairs)
    (positive : 0 < layout.workers) :
    Parallel.Completes layout.width layout.n layout.a layout.workers pairs := by
  obtain ⟨course,begun,ended,lockstep⟩ := together.exists_course
  obtain ⟨rounds,messages,splits⟩ := together.counts_le rfl
  refine ⟨course.begun,_,_,course.duration,begun ▸ together.lined,together.balanced,?_,rounds,messages,
    splits,fun log system runs => ?_⟩
  · rw [List.length_map]
    exact together.finished.length
  · have length := lockstep.duration_eq positive runs
    have tracks := lockstep.tracks positive runs
    obtain ⟨told,heard,consistent⟩ := (together.consistent begun).runs rfl runs
    refine ⟨by omega,⟨fun t => tracks.goes_on lockstep,fun t => consistent.sweeps rfl,?_,?_,?_,?_⟩⟩
    · exact fun t dst rest stage => tracks.listens rfl stage
    · exact fun t src rest stage => tracks.waits rfl stage
    · exact fun t src message pending senders stage => consistent.links rfl stage
    · exact fun t => consistent.directs rfl t

/-- Balancing with several workers refuses its pairs, or else their number, or else the parameter, or else
it ends with an answer and no step of a worker fails. -/
theorem balance_answers (small : n < width.limit) (fits : n * workers < Width.w128.limit)
    (few : Storable pairs.length) :
    (∃ cause, validate width n pairs = reject cause ∧
      Parallel.balance width n pairs { a, workers } = reject cause) ∨
    (validate width n pairs = .ok () ∧ (workers = 0 ∨ Width.w64.saturate n < workers) ∧
      Parallel.balance width n pairs { a, workers } =
        reject (.workerCount workers (Width.w64.saturate n))) ∨
    (validate width n pairs = .ok () ∧ 0 < workers ∧ workers ≤ Width.w64.saturate n ∧ a < 2 ∧
      Parallel.balance width n pairs { a, workers } = reject (.balancingParameter a)) ∨
    (validate width n pairs = .ok () ∧ 0 < workers ∧ workers ≤ Width.w64.saturate n ∧ 2 ≤ a ∧
      Parallel.Completes width n a workers pairs) := by
  rcases validate_decided small pairs with ⟨_,accepted⟩ | ⟨cause,refused⟩
  · refine Or.inr ?_
    by_cases wrong : workers = 0 ∨ Width.w64.saturate n < workers
    · exact Or.inl ⟨accepted,wrong,balance_workers accepted wrong⟩
    · have positive : 0 < workers := by omega
      have most : workers ≤ Width.w64.saturate n := by omega
      refine Or.inr ?_
      by_cases capable : 2 ≤ a
      · have inside : workers ≤ n := Nat.le_trans most (Nat.min_le_left _ _)
        obtain ⟨together⟩ :=
          exists_together small capable positive inside fits few accepted
        exact Or.inr ⟨accepted,positive,most,capable,together.completes positive⟩
      · have incapable : a < 2 := Nat.lt_of_not_le capable
        exact Or.inl ⟨accepted,positive,most,incapable,
          balance_parameter accepted positive most incapable⟩
  · exact Or.inl ⟨cause,refused,balance_refused refused⟩

theorem comb_balance_answers : 2 ≤ Width.w64.saturate 8 ∧
    Parallel.Completes .w8 8 2 2 comb := by
  refine ⟨by decide,?_⟩
  rcases @balance_answers .w8 8 2 2 comb (by decide) (by decide) (by decide) with
    ⟨_,refused,_⟩ | ⟨_,wrong,_⟩ | ⟨_,_,_,few,_⟩ | ⟨_,_,_,_,done⟩
  · rw [comb_accepted] at refused
    cases refused
  · exact absurd wrong (by decide)
  · exact absurd few (by decide)
  · exact done

end Verdicts

end BalancedMove
