import BalancedMove.Parallel.Rounds
import BalancedMove.Proofs.Parallel.Worker

/-! Rounds of messages. At the beginning of a round every receiver has been told what its senders have
told it. A round hands over what has been staged since and passes it on, so this holds again at its
end. Each message stands for a split and so for a position, so there are not many rounds. -/
namespace BalancedMove

open Sequence Store Balancer

namespace Worker

def flush (worker : Worker) (receiver : Nat) : Batch × Worker :=
  if receiver = worker.index then (#[],worker) else worker.handOver receiver

variable {layout : Layout} {t base dst other : Nat} {inside : t < layout.workers}
variable {handed known : Nat → List Pair} {worker : Worker}

theorem index_flush (worker : Worker) (dst : Nat) : (worker.flush dst).2.index = worker.index := by
  unfold flush
  split <;> rfl

theorem handOver_other (worker : Worker) (differ : other ≠ dst) :
    ((worker.handOver dst).2.handOver other).1 = (worker.handOver other).1 := by
  obtain ⟨index,⟨store,⟨bounds,next,staged⟩,a,splits⟩,records,rounds,messages⟩ := worker
  simp [handOver,Outgoing.take,Array.getD_eq_getD_getElem?,
    Array.getElem?_setIfInBounds_ne (Ne.symm differ)]

theorem flush_other (worker : Worker) (differ : other ≠ dst) :
    ((worker.flush dst).2.flush other).1 = (worker.flush other).1 := by
  unfold flush
  by_cases own : dst = worker.index
  · rw [if_pos own]
  · rw [if_neg own]
    have index : (worker.handOver dst).2.index = worker.index := rfl
    rw [index]
    split
    · rfl
    · exact handOver_other worker differ

theorem handOverAll_eq (receivers : List Nat) (distinct : receivers.Nodup) (worker : Worker) :
    worker.handOverAll receivers = (receivers.map fun dst => (worker.flush dst).1,
      receivers.foldl (fun worker dst => (worker.flush dst).2) worker) := by
  induction receivers generalizing worker with
  | nil => rfl
  | cons dst rest ih =>
    obtain ⟨absent,tail⟩ := List.nodup_cons.mp distinct
    have step : worker.handOverAll (dst :: rest) =
        ((worker.flush dst).1 :: ((worker.flush dst).2.handOverAll rest).1,
          ((worker.flush dst).2.handOverAll rest).2) := rfl
    have others : (rest.map fun e => ((worker.flush dst).2.flush e).1) =
        rest.map fun e => (worker.flush e).1 :=
      List.map_congr_left fun e member => flush_other worker fun same => absent (same ▸ member)
    rw [step,ih tail,others]
    rfl

theorem flush_calm (calm : worker.Calm layout t inside handed known base)
    (receiver : dst < layout.workers) :
    (worker.flush dst).2.Calm layout t inside
        (Function.update handed dst (handed dst ++ (worker.flush dst).1.toList.map Message.pair))
        known base ∧
      FitsAll layout t dst (handed dst) (worker.flush dst).1.toList := by
  unfold flush
  split
  · refine ⟨?_,trivial⟩
    simpa using calm
  · exact handOver_calm calm receiver

theorem flushAll_calm {receivers : List Nat} (distinct : receivers.Nodup)
    (bounded : ∀ dst ∈ receivers, dst < layout.workers)
    (calm : worker.Calm layout t inside handed known base) :
    ∃ told, (receivers.foldl (fun worker dst => (worker.flush dst).2) worker).Calm layout t inside
        told known base ∧
      (∀ dst ∈ receivers, told dst = handed dst ++ (worker.flush dst).1.toList.map Message.pair) ∧
      (∀ dst ∉ receivers, told dst = handed dst) ∧
      ∀ dst ∈ receivers, FitsAll layout t dst (handed dst) (worker.flush dst).1.toList := by
  induction receivers generalizing worker handed with
  | nil => exact ⟨handed,calm,by simp,fun _ _ => rfl,by simp⟩
  | cons dst rest ih =>
    obtain ⟨absent,tail⟩ := List.nodup_cons.mp distinct
    obtain ⟨first,fits⟩ := flush_calm calm (bounded dst (by simp))
    obtain ⟨told,last,toldRest,others,fitsRest⟩ :=
      ih tail (fun e member => bounded e (by simp [member])) first
    have later : ∀ e ∈ rest, e ≠ dst := fun e member same => absent (same ▸ member)
    refine ⟨told,last,?_,?_,?_⟩
    · intro e member
      rcases List.mem_cons.mp member with rfl | behind
      · rw [others e absent,Function.update_self]
      · rw [toldRest e behind,Function.update_of_ne (later e behind),
          flush_other worker (later e behind)]
    · intro e outside
      rw [List.mem_cons,not_or] at outside
      rw [others e outside.2,Function.update_of_ne outside.1]
    · intro e member
      rcases List.mem_cons.mp member with rfl | behind
      · exact fits
      · have own := fitsRest e behind
        rwa [Function.update_of_ne (later e behind),flush_other worker (later e behind)] at own

theorem receiveAll_calm {batches : Array (Array Batch)} {rows : Nat → Batch} {senders : List Nat}
    (distinct : senders.Nodup) (bounded : ∀ src ∈ senders, src < layout.workers)
    (others : ∀ src ∈ senders, src ≠ t)
    (found : ∀ src ∈ senders, ∃ row, batches[src]? = some row ∧ row[t]? = some (rows src))
    (calm : worker.Calm layout t inside handed known base)
    (fits : ∀ src ∈ senders, FitsAll layout src t (known src) (rows src).toList) :
    ∃ after heard, senders.foldlM (fun worker sender => do
        let handed ← Checked.found batches[sender]?
        let batch ← Checked.found handed[worker.index]?
        worker.receiveBatch sender batch) worker = .ok after ∧
      after.Calm layout t inside handed heard base ∧
      (∀ src ∈ senders, heard src = known src ++ (rows src).toList.map Message.pair) ∧
      (∀ src ∉ senders, heard src = known src) ∧
      after.rounds = worker.rounds ∧ after.messages = worker.messages := by
  -- one sender after another; what is known of those still to come does not change
  induction senders generalizing worker known with
  | nil => exact ⟨worker,known,rfl,calm,by simp,fun _ _ => rfl,rfl,rfl⟩
  | cons src rest ih =>
    obtain ⟨absent,tail⟩ := List.nodup_cons.mp distinct
    have later : ∀ e ∈ rest, e ≠ src := fun e member same => absent (same ▸ member)
    obtain ⟨row,rowPlace,place⟩ := found src (by simp)
    obtain ⟨middle,received,stands,rounds,messages⟩ :=
      receiveBatch_calm calm (bounded src (by simp)) (others src (by simp)) (fits src (by simp))
    obtain ⟨after,heard,ok,last,heardRest,same,sameRounds,sameMessages⟩ := ih tail
      (fun e member => bounded e (by simp [member])) (fun e member => others e (by simp [member]))
      (fun e member => found e (by simp [member])) stands (fun e member => by
        rw [Function.update_of_ne (later e member)]
        exact fits e (by simp [member]))
    have first : (do
        let handed ← Checked.found batches[src]?
        let batch ← Checked.found handed[worker.index]?
        worker.receiveBatch src batch) = (.ok middle : Checked Worker) := by
      rw [calm.index,rowPlace,Checked.found,Checked.ok_bind,place,Checked.found,Checked.ok_bind]
      exact received
    refine ⟨after,heard,?_,last,?_,?_,sameRounds.trans rounds,sameMessages.trans messages⟩
    · rw [List.foldlM_cons,first,Checked.ok_bind]
      exact ok
    · intro e member
      rcases List.mem_cons.mp member with rfl | behind
      · rw [same e absent,Function.update_self]
      · rw [heardRest e behind,Function.update_of_ne (later e behind)]
    · intro e outside
      rw [List.mem_cons,not_or] at outside
      rw [same e outside.2,Function.update_of_ne outside.1]

theorem receiveRound_calm {batches : Array (Array Batch)} {rows : Nat → Batch}
    (size : batches.size = layout.workers)
    (found : ∀ src < layout.workers, ∃ row, batches[src]? = some row ∧ row[t]? = some (rows src))
    (calm : worker.Calm layout t inside handed known base)
    (fits : ∀ src < layout.workers, src ≠ t →
      FitsAll layout src t (known src) (rows src).toList) :
    ∃ after heard, worker.receiveRound batches = .ok after ∧
      after.Calm layout t inside handed heard base ∧
      (∀ src < layout.workers, src ≠ t →
        heard src = known src ++ (rows src).toList.map Message.pair) ∧
      after.rounds = worker.rounds + 1 ∧ after.messages = worker.messages := by
  have index := calm.index
  obtain ⟨inputs,outputs,stands,clear⟩ := calm
  have begun : ({ worker with rounds := worker.rounds + 1 } : Worker).Calm layout t inside handed
      known base := ⟨inputs,outputs,stands.inRound _,clear⟩
  have members : ∀ src ∈ (List.range batches.size).filter (· != worker.index),
      src < layout.workers ∧ src ≠ t := by
    intro src member
    rw [List.mem_filter,List.mem_range,size,index] at member
    exact ⟨member.1,by simpa using member.2⟩
  obtain ⟨after,heard,ok,last,told,_,rounds,messages⟩ := receiveAll_calm (List.nodup_range.filter _)
    (fun src member => (members src member).1) (fun src member => (members src member).2)
    (fun src member => found src (members src member).1) begun
    (fun src member => fits src (members src member).1 (members src member).2)
  refine ⟨after,heard,ok,last,?_,rounds,messages⟩
  intro src bounded other
  apply told
  rw [List.mem_filter,List.mem_range,size,index]
  exact ⟨bounded,by simpa using other⟩

end Worker

section Teams

theorem mapM_exists {ε α β : Type} {step : α → Except ε β} {items : List α} {good : Nat → β → Prop}
    (each : ∀ i x, items[i]? = some x → ∃ y, step x = .ok y ∧ good i y) :
    ∃ results, items.mapM step = .ok results ∧ results.length = items.length ∧
      ∀ i y, results[i]? = some y → good i y := by
  induction items generalizing good with
  | nil => exact ⟨[],rfl,rfl,by simp⟩
  | cons x rest ih =>
    obtain ⟨y,first,fine⟩ := each 0 x rfl
    obtain ⟨results,ok,length,all⟩ := @ih (fun i => good (i + 1)) fun i z place =>
      each (i + 1) z (by simpa using place)
    refine ⟨y :: results,?_,by simp [length],?_⟩
    · simp [first,ok]
    · intro i z place
      cases i with
      | zero =>
        obtain rfl : y = z := by simpa using place
        exact fine
      | succ i => exact all i z (by simpa using place)

theorem mapM_range {ε α β : Type} {step : α → Except ε β} {items : List α} {value : Nat → β}
    (each : ∀ (i : Nat) (x : α), items[i]? = some x → step x = .ok (value i)) :
    items.mapM step = .ok ((List.range items.length).map value) := by
  induction items generalizing value with
  | nil => rfl
  | cons x rest ih =>
    have first := each 0 x rfl
    have others := @ih (fun i => value (i + 1)) fun i y place => each (i + 1) y (by simpa using place)
    rw [List.mapM_cons,first,Checked.ok_bind,others,List.length_cons,List.range_succ_eq_map,
      List.map_cons,List.map_map]
    rfl

theorem map_eq_map {α β γ : Type} {f : β → γ} {g : α → γ} {results : List β} {items : List α}
    (length : results.length = items.length)
    (each : ∀ (i : Nat) (y : β), results[i]? = some y → items[i]?.map g = some (f y)) :
    results.map f = items.map g := by
  apply List.ext_getElem?
  intro i
  rw [List.getElem?_map,List.getElem?_map]
  by_cases inside : i < results.length
  · have place := List.getElem?_eq_getElem inside
    rw [place,each i _ place,Option.map_some]
  · rw [List.getElem?_eq_none (Nat.le_of_not_lt inside),
      List.getElem?_eq_none (length ▸ Nat.le_of_not_lt inside)]
    rfl

structure Team (layout : Layout) (handed known : Nat → Nat → List Pair) (base : Nat → Nat)
    (workers : List Worker) : Prop where
  length : workers.length = layout.workers
  calm : ∀ t (inside : t < layout.workers) worker, workers[t]? = some worker →
    worker.Calm layout t inside (handed t) (known t) (base t)

def Synced (layout : Layout) (handed known : Nat → Nat → List Pair) : Prop :=
  ∀ src < layout.workers, ∀ dst < layout.workers, src ≠ dst → handed src dst = known dst src

variable {layout : Layout} {handed known : Nat → Nat → List Pair} {base : Nat → Nat}
variable {workers : List Worker}

def Worker.outbox (worker : Worker) (receivers : Nat) : List Batch :=
  (List.range receivers).map fun dst => (worker.flush dst).1

def Worker.emptied (worker : Worker) (receivers : Nat) : Worker :=
  (List.range receivers).foldl (fun worker dst => (worker.flush dst).2) worker

theorem handOver_eq (workers : List Worker) : Rounds.handOver workers =
    (workers.map fun worker => worker.outbox workers.length,
      workers.map fun worker => worker.emptied workers.length) := by
  have each : (fun worker : Worker => worker.handOverAll (List.range workers.length)) =
      fun worker => (worker.outbox workers.length,worker.emptied workers.length) :=
    funext fun worker => Worker.handOverAll_eq _ List.nodup_range worker
  simp only [Rounds.handOver,each,List.unzip_eq_map,List.map_map]
  rfl

theorem Worker.count_emptied (receivers : List Nat) (distinct : receivers.Nodup) (worker : Worker) :
    (receivers.foldl (fun worker dst => (worker.flush dst).2) worker).messages =
        worker.messages + total (fun dst => (worker.flush dst).1.size) receivers ∧
      (receivers.foldl (fun worker dst => (worker.flush dst).2) worker).rounds = worker.rounds := by
  induction receivers generalizing worker with
  | nil => exact ⟨rfl,rfl⟩
  | cons dst rest ih =>
    obtain ⟨absent,tail⟩ := List.nodup_cons.mp distinct
    obtain ⟨messages,rounds⟩ := ih tail (worker.flush dst).2
    have same : total (fun e => ((worker.flush dst).2.flush e).1.size) rest =
        total (fun e => (worker.flush e).1.size) rest :=
      total_congr fun e member => by
        have differ : e ≠ dst := fun equal => absent (equal ▸ member)
        rw [flush_other worker differ]
    have first : (worker.flush dst).2.messages = worker.messages + (worker.flush dst).1.size ∧
        (worker.flush dst).2.rounds = worker.rounds := by
      unfold flush
      split <;> exact ⟨rfl,rfl⟩
    rw [List.foldl_cons,messages,rounds,same,total,first.1,first.2]
    exact ⟨by omega,rfl⟩

theorem messageCount_map (workers : List Worker) (receivers : Nat) :
    Rounds.messageCount (workers.map fun worker => worker.outbox receivers) =
      total (fun worker => total (fun dst => (worker.flush dst).1.size) (List.range receivers))
        workers := by
  induction workers with
  | nil => rfl
  | cons worker rest ih =>
    rw [total,← ih]
    simp only [Rounds.messageCount,List.map_cons,List.flatten_cons,List.flatMap_append,
      List.length_append,length_flatMap,Worker.outbox,total_map,Array.length_toList]

theorem count_handOver (workers : List Worker) :
    total Worker.messages (Rounds.handOver workers).2 =
      total Worker.messages workers + Rounds.messageCount (Rounds.handOver workers).1 := by
  rw [handOver_eq,total_map,messageCount_map,← total_add]
  exact total_congr fun worker _ => (Worker.count_emptied _ List.nodup_range worker).1

def batchOf (workers : List Worker) (src dst : Nat) : Batch :=
  ((workers[src]?).map fun worker => (worker.flush dst).1).getD #[]

theorem batchOf_eq {worker : Worker} {src : Nat} (place : workers[src]? = some worker) (dst : Nat) :
    batchOf workers src dst = (worker.flush dst).1 := by simp [batchOf,place]

theorem Team.handOver (team : Team layout handed known base workers) :
    ∃ told, Team layout told known base (Rounds.handOver workers).2 ∧
      ∀ src < layout.workers, ∀ dst < layout.workers,
        told src dst = handed src dst ++ (batchOf workers src dst).toList.map Message.pair ∧
        FitsAll layout src dst (handed src dst) (batchOf workers src dst).toList := by
  have each : ∀ t < layout.workers, ∃ told, ∀ inside : t < layout.workers, ∀ worker,
      workers[t]? = some worker →
      (worker.emptied workers.length).Calm layout t inside told (known t) (base t) ∧
      ∀ dst < layout.workers,
        told dst = handed t dst ++ (batchOf workers t dst).toList.map Message.pair ∧
        FitsAll layout t dst (handed t dst) (batchOf workers t dst).toList := by
    intro t inside
    have present : t < workers.length := team.length ▸ inside
    have place := List.getElem?_eq_getElem present
    obtain ⟨told,calm,members,_,fits⟩ := Worker.flushAll_calm List.nodup_range
      (fun dst member => team.length ▸ List.mem_range.mp member) (team.calm t inside _ place)
    refine ⟨told,fun _ worker same => ?_⟩
    obtain rfl : workers[t] = worker := Option.some.inj (place.symm.trans same)
    refine ⟨calm,fun dst bounded => ?_⟩
    rw [batchOf_eq place]
    have member := List.mem_range.mpr (team.length.symm ▸ bounded)
    exact ⟨members dst member,fits dst member⟩
  choose! told facts using each
  rw [handOver_eq]
  refine ⟨told,⟨by simpa using team.length,?_⟩,?_⟩
  · intro t inside worker place
    obtain ⟨before,known,rfl⟩ := List.getElem?_map.symm.trans place |> Option.map_eq_some_iff.mp
    exact (facts t inside inside before known).1
  · intro src inside
    have place := List.getElem?_eq_getElem (show src < workers.length from team.length ▸ inside)
    exact (facts src inside inside _ place).2

def sentRows (workers : List Worker) : Array (Array Batch) :=
  ((Rounds.handOver workers).1.map List.toArray).toArray

theorem sentRows_size (workers : List Worker) : (sentRows workers).size = workers.length := by
  simp [sentRows,handOver_eq]

theorem sentRows_get {src dst : Nat} (sender : src < workers.length)
    (receiver : dst < workers.length) :
    ∃ row, (sentRows workers)[src]? = some row ∧ row[dst]? = some (batchOf workers src dst) := by
  have place := List.getElem?_eq_getElem sender
  refine ⟨(workers[src].outbox workers.length).toArray,?_,?_⟩
  · simp [sentRows,handOver_eq,place]
  · rw [batchOf_eq place]
    simp [Worker.outbox,List.getElem?_range receiver]

theorem Team.receive {told : Nat → Nat → List Pair} {receivers : List Worker}
    (team : Team layout told known base receivers) (size : workers.length = layout.workers)
    (fits : ∀ src < layout.workers, ∀ dst < layout.workers, src ≠ dst →
      FitsAll layout src dst (known dst src) (batchOf workers src dst).toList) :
    ∃ after heard, (receivers.mapM fun worker =>
        guarded worker.index (worker.receiveRound (sentRows workers))) = .ok after ∧
      Team layout told heard base after ∧
      (∀ dst < layout.workers, ∀ src < layout.workers, src ≠ dst → heard dst src =
        known dst src ++ (batchOf workers src dst).toList.map Message.pair) ∧
      after.map Worker.messages = receivers.map Worker.messages ∧
      after.map Worker.rounds = receivers.map (fun worker => worker.rounds + 1) := by
  obtain ⟨after,ok,length,all⟩ := @mapM_exists _ _ _ (fun worker : Worker =>
      guarded worker.index (worker.receiveRound (sentRows workers))) receivers
    (fun t after => ∃ heard, (∀ inside : t < layout.workers,
        after.Calm layout t inside (told t) heard (base t) ∧
        ∀ src < layout.workers, src ≠ t →
          heard src = known t src ++ (batchOf workers src t).toList.map Message.pair) ∧
      receivers[t]?.map Worker.messages = some after.messages ∧
      receivers[t]?.map (fun worker => worker.rounds + 1) = some after.rounds) (by
    intro t worker place
    have inside : t < layout.workers := team.length ▸ (List.getElem?_eq_some_iff.mp place).1
    obtain ⟨after,heard,received,calm,members,rounds,messages⟩ := Worker.receiveRound_calm
      ((sentRows_size workers).trans size)
      (fun src bounded => sentRows_get (size.symm ▸ bounded) (size.symm ▸ inside))
      (team.calm t inside worker place) (fun src bounded other => fits src bounded t inside other)
    refine ⟨after,by simp [guarded,received],heard,fun _ => ⟨calm,members⟩,?_,?_⟩
    · rw [place,messages]
      rfl
    · rw [place,rounds]
      rfl)
  -- what every receiver has heard, to be put together for the whole team
  have each : ∀ t < layout.workers, ∃ heard, ∀ inside : t < layout.workers,
      (∀ worker, after[t]? = some worker →
        worker.Calm layout t inside (told t) heard (base t)) ∧
      ∀ src < layout.workers, src ≠ t →
        heard src = known t src ++ (batchOf workers src t).toList.map Message.pair := by
    intro t inside
    have present : t < after.length := length ▸ team.length.symm ▸ inside
    have place := List.getElem?_eq_getElem present
    obtain ⟨heard,facts,_⟩ := all t _ place
    refine ⟨heard,fun _ => ⟨fun worker same => ?_,(facts inside).2⟩⟩
    obtain rfl : after[t] = worker := Option.some.inj (place.symm.trans same)
    exact (facts inside).1
  choose! heard facts using each
  refine ⟨after,heard,ok,⟨length.trans team.length,?_⟩,?_,?_,?_⟩
  · exact fun t inside worker place => (facts t inside inside).1 worker place
  · exact fun dst inside => (facts dst inside inside).2
  · refine map_eq_map length fun t worker place => ?_
    obtain ⟨_,_,messages,_⟩ := all t worker place
    exact messages
  · refine map_eq_map length fun t worker place => ?_
    obtain ⟨_,_,_,rounds⟩ := all t worker place
    exact rounds

/-- Every message stands for a split, and every split for an output start. -/
theorem Worker.Calm.messages_le {t first : Nat} {inside : t < layout.workers}
    {told heard : Nat → List Pair} {worker : Worker}
    (calm : worker.Calm layout t inside told heard first) :
    worker.messages ≤ worker.balancer.splits ∧
      worker.balancer.splits ≤ layout.bound (t + 1) - layout.bound t := by
  obtain ⟨inputs,outputs,stands,_⟩ := calm
  have owed := stands.steady.routed.owed
  have grown := stands.grown
  have length : outputs.length ≤ layout.bound (t + 1) - layout.bound t :=
    stands.steady.sound.length_outputs_le
  omega

theorem total_positions {amount : Worker → Nat} (length : workers.length = layout.workers)
    (each : ∀ t < layout.workers, ∀ worker, workers[t]? = some worker →
      amount worker ≤ layout.bound (t + 1) - layout.bound t) : total amount workers ≤ layout.n := by
  have below := @total_le_range' _ amount workers
    (fun t => layout.bound (t + 1) - layout.bound t) 0 fun t worker place => by
      have inside : t < layout.workers := length ▸ (List.getElem?_eq_some_iff.mp place).1
      rw [Nat.zero_add]
      exact each t inside worker place
  have steps := @total_steps layout.bound layout.workers fun t inside =>
    Nat.le_of_lt (layout.increasing t inside)
  rw [length,← List.range_eq_range'] at below
  have last := layout.last
  omega

theorem Team.messages_le (team : Team layout handed known base workers) :
    total Worker.messages workers ≤ layout.n :=
  total_positions team.length fun t inside worker place => by
    have few := (team.calm t inside worker place).messages_le
    omega

theorem Worker.batch_flushed (receivers : List Nat) {worker : Worker} {dst : Nat}
    (other : dst ≠ worker.index)
    (named : dst ∈ receivers ∨ worker.balancer.router.batch dst = []) :
    (receivers.foldl (fun worker dst => (worker.flush dst).2) worker).balancer.router.batch dst =
      [] := by
  induction receivers generalizing worker with
  | nil => simpa using named
  | cons e rest ih =>
    have step : (worker.flush e).2.balancer.router.batch dst =
        if dst = e then [] else worker.balancer.router.batch dst := by
      unfold flush
      split
      next own => rw [if_neg (own ▸ other)]
      next => exact Outgoing.batch_take _ _ _
    refine ih (index_flush worker e ▸ other) ?_
    rw [step]
    rcases named with member | none
    · rcases List.mem_cons.mp member with same | behind
      · exact Or.inr (if_pos same)
      · exact Or.inl behind
    · right
      split
      · rfl
      · exact none

theorem Worker.Calm.batch_self {t first : Nat} {inside : t < layout.workers}
    {told heard : Nat → List Pair} {worker : Worker}
    (calm : worker.Calm layout t inside told heard first) :
    worker.balancer.router.batch t = [] := by
  obtain ⟨inputs,outputs,stands,_⟩ := calm
  have channels := stands.steady.routed
  have sound := stands.steady.sound
  rw [List.eq_nil_iff_forall_not_mem]
  intro message member
  have told : message.pair ∈ worker.balancer.router.shared told t :=
    List.mem_append_right _ (List.mem_map_of_mem member)
  obtain ⟨i,place⟩ := List.getElem?_of_mem told
  obtain ⟨owns,r,shown,unlisted,pair,_⟩ := channels.shown t inside i _ place
  have away := sound.away r shown unlisted
  have above := (sound.outputIsEnd shown).above
  have low : layout.bound t ≤ r.p ∧ r.p < layout.bound (t + 1) := by
    rw [Record.p,pair]
    exact owns
  have start : (layout.setting t inside).start = layout.bound t := rfl
  have stop : (layout.setting t inside).stop = layout.bound (t + 1) := rfl
  omega

theorem rounds_handOver (workers : List Worker) :
    (Rounds.handOver workers).2.map Worker.rounds = workers.map Worker.rounds := by
  rw [handOver_eq,List.map_map]
  exact List.map_congr_left fun worker _ => (Worker.count_emptied _ List.nodup_range worker).2

theorem total_eq_of_map {α β : Type} {f : α → Nat} {g : β → Nat} {items : List α} {others : List β}
    (same : items.map f = others.map g) : total f items = total g others := by
  have first := @total_map _ (fun x : Nat => x) _ f items
  have second := @total_map _ (fun x : Nat => x) _ g others
  rw [← first,same,second]

theorem Team.drained (team : Team layout handed known base workers) :
    ∀ worker ∈ (Rounds.handOver workers).2, ∀ dst < layout.workers,
      worker.balancer.router.batch dst = [] := by
  obtain ⟨told,after,_⟩ := team.handOver
  intro worker member dst receiver
  obtain ⟨t,place⟩ := List.getElem?_of_mem member
  have inside : t < layout.workers := after.length ▸ (List.getElem?_eq_some_iff.mp place).1
  by_cases own : dst = t
  · subst own
    exact (after.calm dst inside worker place).batch_self
  · rw [handOver_eq,List.getElem?_map] at place
    obtain ⟨before,known,rfl⟩ := Option.map_eq_some_iff.mp place
    have index := (team.calm t inside before known).index
    refine Worker.batch_flushed _ (index.symm ▸ own) (Or.inl ?_)
    rw [List.mem_range,team.length]
    exact receiver

theorem Team.quiet (team : Team layout handed known base workers)
    (none : Rounds.messageCount (Rounds.handOver workers).1 = 0) {src dst : Nat}
    (sender : src < layout.workers) (receiver : dst < layout.workers) :
    batchOf workers src dst = #[] := by
  obtain ⟨row,rowPlace,place⟩ :=
    sentRows_get (team.length.symm ▸ sender) (team.length.symm ▸ receiver)
  have empty : (Rounds.handOver workers).1.flatten.flatMap Array.toList = [] :=
    List.eq_nil_of_length_eq_zero none
  have rowMember : row.toList ∈ (Rounds.handOver workers).1 := by
    have member := Array.mem_of_getElem? rowPlace
    simp only [sentRows,List.mem_toArray,List.mem_map] at member
    obtain ⟨batches,inside,rfl⟩ := member
    exact inside
  have member : batchOf workers src dst ∈ (Rounds.handOver workers).1.flatten :=
    List.mem_flatten.mpr ⟨row.toList,rowMember,Array.mem_toList_iff.mpr (Array.mem_of_getElem? place)⟩
  have batch := List.flatMap_eq_nil_iff.mp empty _ member
  exact Array.toList_eq_nil_iff.mp batch

theorem run_settles {fuel rounds : Nat} (team : Team layout handed known base workers)
    (synced : Synced layout handed known) (even : ∀ worker ∈ workers, worker.rounds = rounds)
    (few : rounds ≤ total Worker.messages workers)
    (enough : layout.n < total Worker.messages workers + fuel) :
    ∃ after told heard last, Rounds.run fuel workers = .ok after ∧
      Team layout told heard base after ∧ Synced layout told heard ∧
      (∀ worker ∈ after, worker.rounds = last) ∧ last ≤ total Worker.messages after ∧
      ∀ worker ∈ after, ∀ dst < layout.workers, worker.balancer.router.batch dst = [] := by
  -- a round that is not the last one sends a message, and there are no more messages than positions
  induction fuel generalizing workers handed known rounds with
  | zero => exact absurd team.messages_le (by omega)
  | succ fuel ih =>
    obtain ⟨told,handedTeam,members⟩ := team.handOver
    have counted := count_handOver workers
    have sameRounds : ∀ worker ∈ (Rounds.handOver workers).2, worker.rounds = rounds := by
      intro worker member
      have inside : worker.rounds ∈ (Rounds.handOver workers).2.map Worker.rounds :=
        List.mem_map_of_mem member
      rw [rounds_handOver] at inside
      obtain ⟨before,known,same⟩ := List.mem_map.mp inside
      exact same ▸ even before known
    by_cases none : Rounds.messageCount (Rounds.handOver workers).1 = 0
    · refine ⟨_,told,known,rounds,?_,handedTeam,?_,sameRounds,by omega,team.drained⟩
      · simp [Rounds.run,none]
      · intro src sender dst receiver differ
        rw [(members src sender dst receiver).1,team.quiet none sender receiver]
        simpa using synced src sender dst receiver differ
    · obtain ⟨after,heard,ok,received,hears,messages,moreRounds⟩ :=
        handedTeam.receive team.length fun src sender dst receiver differ => by
          rw [← synced src sender dst receiver differ]
          exact (members src sender dst receiver).2
      have next : Synced layout told heard := by
        intro src sender dst receiver differ
        rw [hears dst receiver src sender differ,(members src sender dst receiver).1,
          synced src sender dst receiver differ]
      have sum := total_eq_of_map messages
      have later : ∀ worker ∈ after, worker.rounds = rounds + 1 := by
        intro worker member
        have inside : worker.rounds ∈ after.map Worker.rounds := List.mem_map_of_mem member
        rw [moreRounds] at inside
        obtain ⟨before,known,same⟩ := List.mem_map.mp inside
        rw [← same,sameRounds before known]
      obtain ⟨last,lastTold,lastHeard,final,rest,facts⟩ :=
        ih received next later (by omega) (by omega)
      refine ⟨last,lastTold,lastHeard,final,?_,facts⟩
      simp only [Rounds.run,none,if_false]
      unfold sentRows at ok
      rw [ok]
      exact rest

structure Lineup (layout : Layout) (handed known : Nat → Nat → List Pair) (base : Nat → Nat)
    (workers : List Worker) : Prop where
  length : workers.length = layout.workers
  stands : ∀ t (inside : t < layout.workers) worker, workers[t]? = some worker →
    ∃ inputs outputs, worker.Stands layout t inside (handed t) (known t) (base t) inputs outputs
  fresh : ∀ worker ∈ workers, worker.rounds = 0
  synced : Synced layout handed known

theorem Lineup.sweep (lineup : Lineup layout handed known base workers) :
    ∃ swept, (workers.mapM fun worker => guarded worker.index worker.sweep) = .ok swept ∧
      Team layout handed known base swept ∧ ∀ worker ∈ swept, worker.rounds = 0 := by
  obtain ⟨swept,ok,length,all⟩ := @mapM_exists _ _ _ (fun worker : Worker =>
      guarded worker.index worker.sweep) workers
    (fun t after => (∀ inside : t < layout.workers,
      after.Calm layout t inside (handed t) (known t) (base t)) ∧ after.rounds = 0) (by
    intro t worker place
    have inside : t < layout.workers := lineup.length ▸ (List.getElem?_eq_some_iff.mp place).1
    obtain ⟨inputs,outputs,stands⟩ := lineup.stands t inside worker place
    obtain ⟨after,ok,calm,rounds,_⟩ := Worker.sweep_calms stands
    have none := lineup.fresh worker (List.mem_of_getElem? place)
    exact ⟨after,by simp [guarded,ok],fun _ => calm,rounds.trans none⟩)
  refine ⟨swept,ok,⟨length.trans lineup.length,?_⟩,?_⟩
  · exact fun t inside worker place => (all t worker place).1 inside
  · intro worker member
    obtain ⟨t,place⟩ := List.getElem?_of_mem member
    exact (all t worker place).2

/-- Running rounds until no message is left: they end, and everyone has been told everything. -/
theorem Lineup.settles (lineup : Lineup layout handed known base workers) {width : Width}
    (small : layout.n < width.limit) :
    ∃ after told heard last, Rounds.balance width workers = .ok after ∧
      Team layout told heard base after ∧ Synced layout told heard ∧
      (∀ worker ∈ after, worker.rounds = last) ∧ last ≤ total Worker.messages after ∧
      ∀ worker ∈ after, ∀ dst < layout.workers, worker.balancer.router.batch dst = [] := by
  obtain ⟨swept,ok,team,none⟩ := lineup.sweep
  obtain ⟨after,told,heard,last,run,facts⟩ :=
    @run_settles layout handed known base swept (width.limit + 1) 0 team lineup.synced none
      (Nat.zero_le _) (by omega)
  refine ⟨after,told,heard,last,?_,facts⟩
  rw [Rounds.balance,ok]
  exact run

end Teams

end BalancedMove
