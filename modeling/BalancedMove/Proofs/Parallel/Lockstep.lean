import BalancedMove.Proofs.Parallel.Course

/-! A run in lockstep has a course. Each round of the run takes the workers from one state of the course
to the next; that they are kept in a list there, and hand an empty batch to themselves, makes no
difference. -/
namespace BalancedMove

open Sequence

variable {p : Nat}

theorem ofFn_mapM {ε α β : Type} {step : α → Except ε β} {items : Fin p → α} {results : List β}
    (ok : (List.ofFn items).mapM step = .ok results) :
    ∃ result : Fin p → β, results = List.ofFn result ∧ ∀ t, step (items t) = .ok (result t) := by
  induction p generalizing results with
  | zero => exact ⟨fun t => t.elim0,by simpa using (Except.ok.inj ok).symm,fun t => t.elim0⟩
  | succ p ih =>
    rw [List.ofFn_succ,List.mapM_cons] at ok
    obtain ⟨head,first,ok⟩ := Checked.bind_success ok
    obtain ⟨tail,others,ok⟩ := Checked.bind_success ok
    obtain ⟨result,rfl,each⟩ := ih others
    refine ⟨Fin.cons head result,?_,fun t => ?_⟩
    · rw [List.ofFn_succ]
      exact (Except.ok.inj ok).symm
    · cases t using Fin.cases with
      | zero => exact first
      | succ t => exact each t

theorem peers_val (t : Fin p) :
    (peers t).map Fin.val = (List.range p).filter fun u => u != t.val := by
  rw [← List.map_coe_finRange_eq_range,List.filter_map]
  congr 1
  refine List.filter_congr fun u _ => ?_
  rw [Bool.eq_iff_iff]
  simp [Fin.ext_iff]

namespace Worker

variable {worker : Worker} {t : Fin p}

theorem flush_peer (index : worker.index = t) {dst : Fin p} (other : dst ≠ t) :
    worker.flush dst = worker.handOver dst := by
  rw [flush,if_neg fun same => other (Fin.ext (same.trans index))]

theorem flush_self (index : worker.index = t) : worker.flush t = (#[],worker) := if_pos index.symm

theorem index_handEach (worker : Worker) (receivers : List (Fin p)) :
    (worker.handEach receivers).index = worker.index := by
  induction receivers generalizing worker with
  | nil => rfl
  | cons dst rest ih => exact ih (worker.handOver dst).2

theorem emptied_eq (index : worker.index = t) : worker.emptied p = worker.handEach (peers t) := by
  have each : ∀ (receivers : List (Fin p)) (worker : Worker), worker.index = t →
      (receivers.map Fin.val).foldl (fun worker dst => (worker.flush dst).2) worker =
        worker.handEach (receivers.filter fun u => u ≠ t) := by
    intro receivers
    induction receivers with
    | nil => exact fun _ _ => rfl
    | cons dst rest ih =>
      intro worker index
      rw [List.map_cons,List.foldl_cons]
      by_cases own : dst = t
      · subst own
        rw [flush_self index,ih worker index]
        simp
      · rw [flush_peer index own,ih (worker.handOver dst).2 index]
        simp [own,handEach_cons]
  have all := each (List.finRange p) worker index
  rw [List.map_coe_finRange_eq_range] at all
  exact all

theorem receiveFrom_eq {course : Course p} {round : Nat} {batches : Array (Array Batch)}
    (found : ∀ src, src ≠ t → ∃ row : Array Batch, batches[src.val]? = some row ∧
      row[t.val]? = some (course.batch round src t))
    {senders : List (Fin p)} (others : ∀ src ∈ senders, src ≠ t) (index : worker.index = t) :
    (senders.map Fin.val).foldlM (fun worker sender => do
        let handed ← Checked.found batches[sender]?
        let batch ← Checked.found handed[worker.index]?
        worker.receiveBatch sender batch) worker = course.receiveFrom round t senders worker := by
  induction senders generalizing worker with
  | nil => rfl
  | cons src rest ih =>
    obtain ⟨row,rowPlace,place⟩ := found src (others src (by simp))
    rw [List.map_cons,List.foldlM_cons,Course.receiveFrom,List.foldlM_cons,rowPlace,index]
    simp only [Checked.found,Checked.ok_bind,place]
    cases received : worker.receiveBatch src (course.batch round src t) with
    | error fault => rfl
    | ok next =>
      have sameIndex := (receiveBatch_frame received).1
      exact ih (fun e member => others e (by simp [member])) (sameIndex.trans index)

theorem sweep_frame {after : Worker} (ok : worker.sweep = .ok after) :
    after.index = worker.index ∧ after.rounds = worker.rounds := by
  obtain ⟨index,balancer,records,rounds,messages⟩ := worker
  obtain ⟨swept,_,rest⟩ := Checked.bind_success ok
  cases rest
  exact ⟨rfl,rfl⟩

theorem receiveFrom_frame {course : Course p} {round : Nat} {senders : List (Fin p)} {after : Worker}
    (ok : course.receiveFrom round t senders worker = .ok after) :
    after.index = worker.index ∧ after.rounds = worker.rounds := by
  unfold Course.receiveFrom at ok
  induction senders generalizing worker with
  | nil =>
    cases ok
    exact ⟨rfl,rfl⟩
  | cons src rest ih =>
    rw [List.foldlM_cons] at ok
    obtain ⟨middle,first,others⟩ := Checked.bind_success ok
    obtain ⟨index,rounds⟩ := receiveBatch_frame first
    obtain ⟨sameIndex,sameRounds⟩ := ih others
    exact ⟨sameIndex.trans index,sameRounds.trans rounds⟩

end Worker

section Rounds

variable {course : Course p} {fuel round : Nat} {workers : Fin p → Worker} {after : List Worker}

theorem receiveRound_eq (state : course.state round = workers)
    (index : ∀ t, (workers t).index = t) (t : Fin p) :
    ((workers t).emptied p).receiveRound (sentRows (List.ofFn workers)) =
      course.receiveFrom round t (peers t) (course.emptied round t).nextRound := by
  have size : (sentRows (List.ofFn workers)).size = p := by
    rw [sentRows_size,List.length_ofFn]
  have emptied : (workers t).emptied p = course.emptied round t := by
    rw [Worker.emptied_eq (index t),Course.emptied,state]
  have sameIndex : (course.emptied round t).index = t := by
    rw [Course.emptied,Worker.index_handEach,state,index t]
  have found : ∀ src, src ≠ t → ∃ row : Array Batch,
      (sentRows (List.ofFn workers))[src.val]? = some row ∧
        row[t.val]? = some (course.batch round src t) := by
    intro src other
    obtain ⟨row,rowPlace,place⟩ := @sentRows_get (List.ofFn workers) src t
      (by rw [List.length_ofFn]; exact src.isLt) (by rw [List.length_ofFn]; exact t.isLt)
    have sender : (List.ofFn workers)[src.val]? = some (workers src) := by simp
    rw [batchOf_eq sender,Worker.flush_peer (index src) (Ne.symm other),← state] at place
    exact ⟨row,rowPlace,place⟩
  change ((List.range (sentRows (List.ofFn workers)).size).filter
    (· != ((workers t).emptied p).index)).foldlM _ ((workers t).emptied p).nextRound = _
  rw [emptied,size,sameIndex,← peers_val]
  exact Worker.receiveFrom_eq found (fun src member => mem_peers.mp member) sameIndex

theorem messageCount_eq (state : course.state round = workers)
    (index : ∀ t, (workers t).index = t) :
    Rounds.messageCount (Rounds.handOver (List.ofFn workers)).1 =
      total (course.sent round) (List.finRange p) := by
  rw [handOver_eq,messageCount_map,List.length_ofFn,List.ofFn_eq_map,total_map]
  refine total_congr fun t _ => ?_
  rw [← List.map_coe_finRange_eq_range,total_map,Course.sent,peers,total_filter]
  refine total_congr fun dst _ => ?_
  by_cases own : dst = t
  · subst own
    rw [Worker.flush_self (index dst)]
    simp
  · rw [Worker.flush_peer (index t) own,Course.batch,state]
    simp [own]

structure Course.Taken (course : Course p) (round : Nat) (after : List Worker) : Prop where
  rounds : ∀ i ≤ course.last, ∀ t, (course.state i t).rounds = round + i
  moves : ∀ i < course.last, ∀ t, course.receiveFrom i t (peers t) (course.emptied i t).nextRound =
    .ok (course.state (i + 1) t)
  moving : ∀ i < course.last, total (course.sent i) (List.finRange p) ≠ 0
  quiet : total (course.sent course.last) (List.finRange p) = 0
  final : after = List.ofFn (course.emptied course.last)

def Course.still (workers : Fin p → Worker) : Course p := ⟨workers,fun _ => workers,0⟩

def Course.behind (course : Course p) (workers : Fin p → Worker) : Course p :=
  ⟨workers,fun i => i.casesOn workers course.state,course.last + 1⟩

theorem handOver_ofFn (index : ∀ t, (workers t).index = t) :
    (Rounds.handOver (List.ofFn workers)).2 = List.ofFn ((Course.still workers).emptied 0) := by
  have each : (fun t => (workers t).emptied p) = (Course.still workers).emptied 0 :=
    funext fun t => Worker.emptied_eq (index t)
  rw [← each]
  simp only [handOver_eq,List.length_ofFn,List.map_ofFn]
  rfl

theorem run_ends (ok : Rounds.run (fuel + 1) (List.ofFn workers) = .ok after)
    (index : ∀ t, (workers t).index = t) (rounds : ∀ t, (workers t).rounds = round)
    (none : Rounds.messageCount (Rounds.handOver (List.ofFn workers)).1 = 0) :
    (Course.still workers).Taken round after := by
  have counted := messageCount_eq (show (Course.still workers).state 0 = workers from rfl) index
  simp only [Rounds.run,none,if_true,handOver_ofFn index] at ok
  exact {
    rounds := fun i inside t => by
      obtain rfl : i = 0 := Nat.le_zero.mp inside
      exact rounds t
    moves := fun i below => absurd below (Nat.not_lt_zero i)
    moving := fun i below => absurd below (Nat.not_lt_zero i)
    quiet := counted.symm.trans none
    final := (Except.ok.inj ok).symm }

theorem guarded_ok {index : Nat} {step : Checked Worker} {result : Worker}
    (ok : guarded index step = .ok result) : step = .ok result := by
  cases step with
  | error fault => cases ok
  | ok worker => exact congrArg Except.ok (Except.ok.inj ok)

theorem run_continues (ok : Rounds.run (fuel + 1) (List.ofFn workers) = .ok after)
    (index : ∀ t, (workers t).index = t) (rounds : ∀ t, (workers t).rounds = round)
    (some : Rounds.messageCount (Rounds.handOver (List.ofFn workers)).1 ≠ 0) :
    ∃ next : Fin p → Worker, Rounds.run fuel (List.ofFn next) = .ok after ∧
      (∀ t, (Course.still workers).receiveFrom 0 t (peers t)
        ((Course.still workers).emptied 0 t).nextRound = .ok (next t)) ∧
      ∀ t, (next t).index = t ∧ (next t).rounds = round + 1 := by
  have begins : (Course.still workers).state 0 = workers := rfl
  have handed : (Rounds.handOver (List.ofFn workers)).2 =
      List.ofFn fun t => (workers t).emptied p := by
    simp only [handOver_eq,List.length_ofFn,List.map_ofFn]
    rfl
  simp only [Rounds.run,some,if_false,handed] at ok
  obtain ⟨results,received,rest⟩ := Checked.bind_success ok
  obtain ⟨next,rfl,each⟩ := ofFn_mapM received
  have step : ∀ t, (Course.still workers).receiveFrom 0 t (peers t)
      ((Course.still workers).emptied 0 t).nextRound = .ok (next t) := fun t =>
    (receiveRound_eq begins index t).symm.trans (guarded_ok (each t))
  refine ⟨next,rest,step,fun t => ?_⟩
  obtain ⟨sameIndex,sameRounds⟩ := Worker.receiveFrom_frame (step t)
  refine ⟨sameIndex.trans ((Worker.index_handEach _ _).trans (index t)),?_⟩
  rw [sameRounds]
  exact congrArg (· + 1) ((Worker.rounds_handEach _ _).trans (rounds t))

theorem Course.Taken.behind (taken : course.Taken (round + 1) after)
    (rounds : ∀ t, (workers t).rounds = round)
    (step : ∀ t, (Course.still workers).receiveFrom 0 t (peers t)
      ((Course.still workers).emptied 0 t).nextRound = .ok (course.state 0 t))
    (some : total ((Course.still workers).sent 0) (List.finRange p) ≠ 0) :
    (course.behind workers).Taken round after := by
  refine ⟨fun i inside t => ?_,fun i below t => ?_,fun i below => ?_,taken.quiet,taken.final⟩
  · cases i with
    | zero => exact rounds t
    | succ i => exact (taken.rounds i (Nat.le_of_succ_le_succ inside) t).trans (by omega)
  · cases i with
    | zero => exact step t
    | succ i => exact taken.moves i (Nat.lt_of_succ_lt_succ below) t
  · cases i with
    | zero => exact some
    | succ i => exact taken.moving i (Nat.lt_of_succ_lt_succ below)

theorem run_course (ok : Rounds.run fuel (List.ofFn workers) = .ok after)
    (index : ∀ t, (workers t).index = t) (rounds : ∀ t, (workers t).rounds = round) :
    ∃ course : Course p, course.state 0 = workers ∧ course.Taken round after := by
  induction fuel generalizing workers round with
  | zero => cases ok
  | succ fuel ih =>
    by_cases none : Rounds.messageCount (Rounds.handOver (List.ofFn workers)).1 = 0
    · exact ⟨Course.still workers,rfl,run_ends ok index rounds none⟩
    · obtain ⟨next,rest,step,frames⟩ := run_continues ok index rounds none
      obtain ⟨course,begins,taken⟩ := ih rest (fun t => (frames t).1) fun t => (frames t).2
      have counted := messageCount_eq (show (Course.still workers).state 0 = workers from rfl) index
      refine ⟨course.behind workers,rfl,taken.behind rounds (fun t => ?_) fun zero =>
        none (counted.trans zero)⟩
      rw [begins]
      exact step t

theorem balance_course {width : Width} (ok : Rounds.balance width (List.ofFn workers) = .ok after)
    (index : ∀ t, (workers t).index = t) (rounds : ∀ t, (workers t).rounds = 0) :
    ∃ course : Course p, course.begun = workers ∧ course.Lockstep ∧
      after = List.ofFn (course.emptied course.last) := by
  unfold Rounds.balance at ok
  obtain ⟨results,swept,ok⟩ := Checked.bind_success ok
  obtain ⟨first,rfl,each⟩ := ofFn_mapM swept
  have step : ∀ t, (workers t).sweep = .ok (first t) := fun t => guarded_ok (each t)
  have frames : ∀ t, (first t).index = t ∧ (first t).rounds = 0 := by
    intro t
    obtain ⟨sameIndex,sameRounds⟩ := Worker.sweep_frame (step t)
    exact ⟨sameIndex.trans (index t),sameRounds.trans (rounds t)⟩
  obtain ⟨course,begins,taken⟩ := run_course ok (fun t => (frames t).1) fun t => (frames t).2
  refine ⟨{ course with begun := workers },rfl,?_,taken.final⟩
  refine ⟨fun t => ?_,rounds,fun i inside t => ?_,taken.moves,fun i below => ?_,?_⟩
  · rw [step t,← begins]
  · have same := taken.rounds i inside t
    rwa [Nat.zero_add] at same
  · have amount := taken.moving i below
    rw [Course.sum_succ]
    change _ + total (course.sent i) _ ≠ _
    omega
  · rw [Course.sum_succ]
    change _ + total (course.sent course.last) _ = _
    rw [taken.quiet,Nat.add_zero]

end Rounds

end BalancedMove
