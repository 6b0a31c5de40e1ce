import BalancedMove.Proofs.Parallel.Exchange
import BalancedMove.Proofs.Parallel.Worker

/-! Safety of the exchange. In every order of steps, what a worker has been told of by a sender and what
is on the way from there come to what the sender has told, and each message on the way fits behind the
ones in front of it. So a worker finds the record behind which a start belongs, and none of its own
steps fails. -/
namespace BalancedMove

open Sequence Store Balancer

variable {p : Nat}

namespace Stage

def partners : Stage p → List (Fin p)
  | .flushing receivers => receivers
  | .receiving pending senders => pending.map Prod.fst ++ senders
  | _ => []

def pendingFrom (stage : Stage p) (src : Fin p) : List Message :=
  match stage with
  | .receiving pending _ => (pending.filter fun entry => entry.1 = src).map Prod.snd
  | _ => []

end Stage

/-- Messages from one process to another that are not linked yet, in the order of sending. -/
def Exchange.inFlight (system : Exchange p) (src dst : Fin p) : List Message :=
  (system.process dst).stage.pendingFrom src ++ (system.queue src dst).flatMap Array.toList

structure Process.Stands (layout : Layout) (t : Fin p) (inside : t.val < layout.workers)
    (handed known : Nat → List Pair) (base : Nat) (first : List Record) (process : Process p) :
    Prop where
  worker : ∃ inputs outputs,
    process.worker.Stands layout t inside handed known base inputs outputs ∧ first ⊆ inputs ∧
      (process.stage ≠ .sweeping →
        Clear (layout.setting t inside) (layout.setting t inside).stop inputs outputs)
  apart : t ∉ process.stage.partners

/-- The processes stand, and what one was told is what the other has told but for what is in flight. -/
structure Exchange.Consistent (layout : Layout) (base : Nat → Nat) (first : Nat → List Record)
    (handed known : Fin p → Nat → List Pair) (system : Exchange p) : Prop where
  stands : ∀ t (inside : t.val < layout.workers),
    (system.process t).Stands layout t inside (handed t) (known t) (base t) (first t)
  told : ∀ src dst : Fin p, src ≠ dst →
    handed src dst = known dst src ++ (system.inFlight src dst).map Message.pair
  fits : ∀ src dst : Fin p, src ≠ dst →
    FitsAll layout src dst (known dst src) (system.inFlight src dst)

section Steps

variable {layout : Layout} {base : Nat → Nat} {first : Nat → List Record}
variable {handed known : Fin p → Nat → List Pair} {system after : Exchange p} {t : Fin p}
variable {process next : Process p} {event : Event p}

theorem tell_apply {told : Fin p → Nat → List Pair} {t src dst e : Fin p} {pairs : List Pair} :
    Function.update told t (Function.update (told t) dst.val (told t dst ++ pairs)) src e.val =
      told src e ++ if src = t ∧ e = dst then pairs else [] := by
  by_cases sender : src = t
  · subst src
    by_cases receiver : e = dst
    · subst e
      simp
    · have differ : e.val ≠ dst.val := fun same => receiver (Fin.ext same)
      simp [receiver,differ]
  · simp [sender]

theorem Exchange.inFlight_put (src dst : Fin p) : (system.put t next).inFlight src dst =
    (if dst = t then next else system.process dst).stage.pendingFrom src ++
      (system.queue src dst).flatMap Array.toList := by
  rw [← Exchange.process_put]
  rfl

theorem Exchange.inFlight_setQueue {s d : Fin p} {batches : List Batch} (src dst : Fin p) :
    ((system.put t next).setQueue s d batches).inFlight src dst =
      (if dst = t then next else system.process dst).stage.pendingFrom src ++
        (if src = s ∧ dst = d then batches else system.queue src dst).flatMap Array.toList := by
  rw [← Exchange.process_put]
  rfl

theorem Exchange.Consistent.put_stands
    (consistent : system.Consistent layout base first handed known)
    (stands : ∀ inside : t.val < layout.workers,
      next.Stands layout t inside (handed t) (known t) (base t) (first t)) (u : Fin p)
    (inside : u.val < layout.workers) :
    ((system.put t next).process u).Stands layout u inside (handed u) (known u) (base u) (first u) := by
  by_cases same : u = t
  · subst same
    rw [Exchange.put_same]
    exact stands inside
  · rw [Exchange.put_other same]
    exact consistent.stands u inside

theorem Exchange.Consistent.put (consistent : system.Consistent layout base first handed known)
    (here : system.process t = process)
    (stands : ∀ inside : t.val < layout.workers,
      next.Stands layout t inside (handed t) (known t) (base t) (first t))
    (same : ∀ src, next.stage.pendingFrom src = process.stage.pendingFrom src) :
    (system.put t next).Consistent layout base first handed known := by
  have flies : ∀ src dst, (system.put t next).inFlight src dst = system.inFlight src dst := by
    intro src dst
    rw [Exchange.inFlight_put,Exchange.inFlight]
    by_cases mine : dst = t
    · subst mine
      rw [if_pos rfl,same,here]
    · rw [if_neg mine]
  refine ⟨consistent.put_stands stands,?_,?_⟩
  · intro src dst differ
    rw [flies]
    exact consistent.told src dst differ
  · intro src dst differ
    rw [flies]
    exact consistent.fits src dst differ

theorem Exchange.Consistent.stay (consistent : system.Consistent layout base first handed known)
    (here : system.process t = process) {rounds : Nat}
    (worker : next.worker = { process.worker with rounds }) (begun : process.stage ≠ .sweeping)
    (apart : t ∉ next.stage.partners)
    (same : ∀ src, next.stage.pendingFrom src = process.stage.pendingFrom src) :
    (system.put t next).Consistent layout base first handed known := by
  refine consistent.put here (fun inside => ?_) same
  obtain ⟨inputs,outputs,own,kept,clear⟩ := (here ▸ consistent.stands t inside).worker
  refine ⟨⟨inputs,outputs,?_,kept,fun _ => clear begun⟩,apart⟩
  rw [worker]
  exact own.inRound rounds

variable (consistent : system.Consistent layout base first handed known) (size : layout.workers = p)
variable (here : system.process t = process)

include consistent size here

theorem Exchange.Consistent.sweep {worker : Worker} (stage : process.stage = .sweeping)
    (swept : process.worker.sweep = .ok worker) :
    (system.put t { process with worker, stage := .flushing (peers t) }).Consistent layout base first
      handed known := by
  have inside : t.val < layout.workers := size ▸ t.isLt
  obtain ⟨inputs,outputs,own,kept,_⟩ := (here ▸ consistent.stands t inside).worker
  obtain ⟨found,newInputs,newOutputs,ok,standing,clear,grows,_⟩ := Worker.sweep_stands own
  obtain rfl : found = worker := Except.ok.inj (ok.symm.trans swept)
  refine consistent.put here (fun _ => ⟨⟨newInputs,newOutputs,standing,?_,fun _ => clear⟩,?_⟩) ?_
  · exact List.Subset.trans kept grows
  · exact fun member => mem_peers.mp member rfl
  · intro src
    simp [Stage.pendingFrom,stage]

theorem Exchange.Consistent.flush {dst : Fin p} {rest : List (Fin p)} {batch : Batch}
    {worker : Worker} (stage : process.stage = .flushing (dst :: rest))
    (given : process.worker.handOver dst = (batch,worker)) (sent : Nat) : ∃ told,
    ((system.put t { process with worker, stage := .flushing rest, sent }).setQueue t dst
      (system.queue t dst ++ [batch])).Consistent layout base first told known := by
  have inside : t.val < layout.workers := size ▸ t.isLt
  have receiver : dst.val < layout.workers := size ▸ dst.isLt
  have stands := here ▸ consistent.stands t inside
  have apart := stands.apart
  obtain ⟨inputs,outputs,own,kept,clear⟩ := stands.worker
  obtain ⟨standing,fits⟩ := Worker.handOver_stands own receiver
  rw [given] at standing fits
  simp only [Stage.partners,stage,List.mem_cons,not_or] at apart
  -- one more batch is in flight, and only from this process to that receiver
  have flies : ∀ src e, ((system.put t { process with
        worker, stage := .flushing rest, sent }).setQueue t dst
        (system.queue t dst ++ [batch])).inFlight src e =
      system.inFlight src e ++ if src = t ∧ e = dst then batch.toList else [] := by
    intro src e
    have pending : ((if e = t then { process with worker, stage := .flushing rest, sent }
        else system.process e) : Process p).stage.pendingFrom src =
        (system.process e).stage.pendingFrom src := by
      split
      next same => simp [same,here,Stage.pendingFrom,stage]
      next => rfl
    rw [Exchange.inFlight_setQueue,pending,Exchange.inFlight,List.append_assoc]
    congr 1
    split
    next both => simp [both]
    next => simp
  refine ⟨Function.update handed t (Function.update (handed t) dst.val
    (handed t dst ++ batch.toList.map Message.pair)),?_,?_,?_⟩
  · intro u bounded
    by_cases same : u = t
    · subst same
      rw [Function.update_self]
      refine (show (system.put u _).process u = _ from Exchange.put_same) ▸
        ⟨⟨inputs,outputs,standing,kept,fun _ => clear (by simp [stage])⟩,apart.2⟩
    · rw [Function.update_of_ne same]
      exact (show (system.put t _).process u = _ from Exchange.put_other same) ▸
        consistent.stands u bounded
  · intro src e differ
    rw [tell_apply,flies,consistent.told src e differ,List.map_append,List.append_assoc]
    congr 2
    split <;> rfl
  · intro src e differ
    rw [flies,fitsAll_append,← consistent.told src e differ]
    refine ⟨consistent.fits src e differ,?_⟩
    split
    next both =>
      obtain ⟨rfl,rfl⟩ := both
      exact fits
    next => trivial

theorem Exchange.Consistent.receive {src : Fin p} {rest : List (Fin p)} {batch : Batch}
    {later : List Batch} (stage : process.stage = .receiving [] (src :: rest))
    (waits : system.queue src t = batch :: later) :
    ((system.put t { process with
      stage := .receiving (batch.toList.map fun message => (src,message)) rest }).setQueue src t
      later).Consistent layout base first handed known := by
  have inside : t.val < layout.workers := size ▸ t.isLt
  have stands := here ▸ consistent.stands t inside
  have apart := stands.apart
  simp only [Stage.partners,stage,List.map_nil,List.nil_append,List.mem_cons,not_or] at apart
  -- the batch leaves the queue, but its messages stay in flight
  have flies : ∀ s e, ((system.put t { process with
        stage := .receiving (batch.toList.map fun message => (src,message)) rest }).setQueue src t
        later).inFlight s e = system.inFlight s e := by
    intro s e
    rw [Exchange.inFlight_setQueue,Exchange.inFlight]
    by_cases receiver : e = t
    · subst e
      by_cases same : s = src
      · subst s
        simp [Stage.pendingFrom,here,stage,waits,List.filter_map,Function.comp_def]
      · simp [Stage.pendingFrom,here,stage,same,Ne.symm same,List.filter_map,Function.comp_def]
    · simp [receiver]
  obtain ⟨inputs,outputs,own,kept,clear⟩ := stands.worker
  refine ⟨consistent.put_stands fun _ =>
    ⟨⟨inputs,outputs,own,kept,fun _ => clear (by simp [stage])⟩,?_⟩,?_,?_⟩
  · simp only [Stage.partners,List.map_map,List.mem_append,not_or]
    refine ⟨fun member => ?_,apart.2⟩
    obtain ⟨_,_,same⟩ := List.mem_map.mp member
    exact apart.1 same.symm
  · intro s e differ
    rw [flies]
    exact consistent.told s e differ
  · intro s e differ
    rw [flies]
    exact consistent.fits s e differ

theorem Exchange.Consistent.link {src : Fin p} {message : Message}
    {pending : List (Fin p × Message)} {senders : List (Fin p)} {worker : Worker}
    (stage : process.stage = .receiving ((src,message) :: pending) senders)
    (linked : process.worker.receive src message = .ok worker) : ∃ heard,
    (system.put t { process with worker, stage := .receiving pending senders }).Consistent layout base
      first handed heard := by
  have inside : t.val < layout.workers := size ▸ t.isLt
  have sender : src.val < layout.workers := size ▸ src.isLt
  have stands := here ▸ consistent.stands t inside
  have apart := stands.apart
  simp only [Stage.partners,stage,List.map_cons,List.cons_append,List.mem_cons,not_or] at apart
  -- the message was the first one in flight from its sender
  have flies : ∀ s e, system.inFlight s e = (if e = t ∧ s = src then [message] else []) ++
      (system.put t { process with worker, stage := .receiving pending senders }).inFlight s e := by
    intro s e
    rw [Exchange.inFlight_put,Exchange.inFlight]
    by_cases receiver : e = t
    · subst e
      by_cases same : s = src
      · subst s
        simp [Stage.pendingFrom,here,stage]
      · simp [Stage.pendingFrom,here,stage,same,Ne.symm same]
    · simp [receiver]
  have fits := consistent.fits src t (Ne.symm apart.1)
  rw [flies,fitsAll_append,if_pos ⟨rfl,rfl⟩] at fits
  obtain ⟨inputs,outputs,own,kept,clear⟩ := stands.worker
  obtain ⟨found,newInputs,newOutputs,ok,standing,light,grows,_⟩ := Worker.receive_stands own
    (clear (by simp [stage])) sender (fun same => apart.1 (Fin.ext same.symm)) fits.1.1
  obtain rfl : found = worker := Except.ok.inj (ok.symm.trans linked)
  refine ⟨Function.update known t (Function.update (known t) src.val
    (known t src ++ [message.pair])),?_,?_,?_⟩
  · intro u bounded
    by_cases same : u = t
    · subst same
      rw [Exchange.put_same,Function.update_self]
      exact ⟨⟨newInputs,newOutputs,standing,List.Subset.trans kept grows,fun _ => light⟩,apart.2⟩
    · rw [Exchange.put_other same,Function.update_of_ne same]
      exact consistent.stands u bounded
  · intro s e differ
    rw [tell_apply,consistent.told s e differ,flies,List.map_append,← List.append_assoc]
    congr 2
    split <;> rfl
  · intro s e differ
    have others := consistent.fits s e differ
    rw [flies,fitsAll_append] at others
    rw [tell_apply]
    refine Eq.mp ?_ others.2
    congr 2
    split <;> rfl

omit here in
theorem Exchange.Consistent.step (step : Step system event after) :
    ∃ told heard, after.Consistent layout base first told heard := by
  -- only handing over and linking change what has been told or heard
  cases step with
  | sweep t process worker here stage swept =>
    exact ⟨handed,known,consistent.sweep size here stage swept⟩
  | flush t dst process rest batch worker here stage listens given =>
    obtain ⟨told,next⟩ := consistent.flush size here stage given _
    exact ⟨told,known,next⟩
  | add t process here stage =>
    have next : (system.put t { process with stage := .meeting false, sent := 0 }).Consistent layout
        base first handed known := consistent.stay here rfl (by simp [stage])
      (by simp [Stage.partners]) (by simp [Stage.pendingFrom,stage])
    exact ⟨handed,known,next.stands,next.told,next.fits⟩
  | arrive t process again here stage =>
    have next : (system.put t { process with
        stage := .waiting again system.barrier.generation }).Consistent layout base first handed known :=
      consistent.stay here rfl (by simp [stage]) (by simp [Stage.partners])
        (by simp [Stage.pendingFrom,stage])
    exact ⟨handed,known,next.stands,next.told,next.fits⟩
  | leave t process generation here stage past =>
    exact ⟨handed,known,consistent.stay here rfl (by simp [stage]) (by simp [Stage.partners])
      (by simp [Stage.pendingFrom,stage])⟩
  | read t process here stage =>
    exact ⟨handed,known,consistent.stay here rfl (by simp [stage]) (by simp [Stage.partners])
      (by simp [Stage.pendingFrom,stage])⟩
  | finish t process generation here stage past same =>
    exact ⟨handed,known,consistent.stay here rfl (by simp [stage]) (by simp [Stage.partners])
      (by simp [Stage.pendingFrom,stage])⟩
  | proceed t process generation here stage past moved =>
    exact ⟨handed,known,consistent.stay here rfl (by simp [stage])
      (by simp [Stage.partners,mem_peers]) (by simp [Stage.pendingFrom,stage])⟩
  | receive t src process rest batch later here stage waits =>
    exact ⟨handed,known,consistent.receive size here stage waits⟩
  | link t src process message pending senders worker here stage linked =>
    obtain ⟨heard,next⟩ := consistent.link size here stage linked
    exact ⟨handed,heard,next⟩
  | turn t process here stage =>
    exact ⟨handed,known,consistent.stay here rfl (by simp [stage])
      (by simp [Stage.partners,mem_peers]) (by simp [Stage.pendingFrom,stage])⟩

omit here in
theorem Exchange.Consistent.runs {log : List (Event p)} (runs : Runs system log after) :
    ∃ told heard, after.Consistent layout base first told heard := by
  induction runs with
  | nil => exact ⟨handed,known,consistent⟩
  | step _ step ih =>
    obtain ⟨told,heard,before⟩ := ih
    exact before.step size step

end Steps

section Work

variable {layout : Layout} {base : Nat → Nat} {first : Nat → List Record}
variable {handed known : Fin p → Nat → List Pair} {system : Exchange p} {t : Fin p}

/-- What is split off the tree record `id` stays in the range, and then the list has the record too, or
the record has a twin: one of the pairs shared with the owner of the start that is split off. -/
def Worker.Directs (worker : Worker) (listed : List NodeId) (id : NodeId) : Prop :=
  ∃ node stop, worker.balancer.store.node id = .ok node ∧
    worker.balancer.store.outputEnd id = .ok stop ∧
    ∀ landed y, node.pair.q < y → y < stop → landed + node.pair.q = node.pair.p + y →
      (worker.balancer.store.start ≤ landed ∧ landed < worker.balancer.store.stop → id ∈ listed) ∧
      (¬ (worker.balancer.store.start ≤ landed ∧ landed < worker.balancer.store.stop) →
        ∃ dst after number, rangeOf worker.balancer.router.bounds landed = .ok dst ∧
          node.twin = some after ∧ worker.balancer.router.nextNumber[dst]? = some number ∧
          after < number)

theorem Worker.Stands.directs {t base : Nat} {inside : t < layout.workers}
    {handed known : Nat → List Pair} {worker : Worker} {inputs outputs : List Record}
    (stands : worker.Stands layout t inside handed known base inputs outputs) {r : Record}
    (shown : r ∈ outputs) : worker.Directs (inputs.map Record.id) r.id := by
  have steady := stands.steady
  have sound := steady.sound
  have channels := steady.routed
  obtain ⟨node,read,pair,twin,_⟩ := steady.holds.node (Or.inr shown)
  refine ⟨node,_,read,steady.holds.outputEnd shown,fun landed y above below shifted => ?_⟩
  rw [pair] at above shifted
  rw [steady.stop] at below
  let new : Record := { id := worker.balancer.store.arena.size, pair := ⟨landed,y⟩ }
  have off : Offshoot (layout.bound (t + 1)) outputs r new := ⟨shown,above,below,shifted⟩
  rw [steady.start,steady.stop]
  constructor
  · intro stays
    by_contra missing
    exact off.leaves sound (fun listed => missing (List.mem_map_of_mem listed)) stays
  · intro leaves
    have absent : r ∉ inputs := fun listed => leaves (off.stays sound listed)
    obtain ⟨dst,receiver,after,owns,named,place⟩ := channels.numbered r shown absent
    refine ⟨dst,after,_,?_,twin.trans named,channels.next dst receiver,
      (List.getElem?_eq_some_iff.mp place).1⟩
    rw [channels.bounds]
    exact Layout.rangeOf_eq receiver (channels.moves.owner off receiver owns)

variable (consistent : system.Consistent layout base first handed known) (size : layout.workers = p)

include consistent size

theorem Exchange.Consistent.sweeps (stage : (system.process t).stage = .sweeping) :
    ∃ worker, (system.process t).worker.sweep = .ok worker := by
  obtain ⟨inputs,outputs,own,_⟩ := (consistent.stands t (size ▸ t.isLt)).worker
  obtain ⟨worker,_,_,swept,_⟩ := Worker.sweep_stands own
  exact ⟨worker,swept⟩

/-- A message names a record of its receiver, and is linked behind it. -/
theorem Exchange.Consistent.links {src : Fin p} {message : Message}
    {pending : List (Fin p × Message)} {senders : List (Fin p)}
    (stage : (system.process t).stage = .receiving ((src,message) :: pending) senders) :
    ∃ ids worker, (system.process t).worker.records[src.val]? = some ids ∧
      message.after < ids.size ∧ (system.process t).worker.receive src message = .ok worker := by
  have stands := consistent.stands t (size ▸ t.isLt)
  have apart := stands.apart
  simp only [Stage.partners,stage,List.map_cons,List.cons_append,List.mem_cons,not_or] at apart
  have flies : system.inFlight src t = message ::
      (Stage.receiving pending senders).pendingFrom src ++
        (system.queue src t).flatMap Array.toList := by
    simp [Exchange.inFlight,Stage.pendingFrom,stage]
  have fits := consistent.fits src t (Ne.symm apart.1)
  rw [flies] at fits
  obtain ⟨inputs,outputs,own,_,clear⟩ := stands.worker
  have sender : src.val < layout.workers := size ▸ src.isLt
  have other : src.val ≠ t.val := fun same => apart.1 (Fin.ext same.symm)
  obtain ⟨ids,_,_,known,found,_⟩ := own.finds sender other fits.1
  obtain ⟨worker,_,_,linked,_⟩ := Worker.receive_stands own (clear (by simp [stage])) sender other
    fits.1
  exact ⟨ids,worker,known,(Array.getElem?_eq_some_iff.mp found).1,linked⟩

theorem Exchange.Consistent.directs (t : Fin p) : ∃ listed shown,
    (system.process t).worker.balancer.store.inputIds = .ok listed ∧
      (system.process t).worker.balancer.store.outputIds = .ok shown ∧
      ∀ id ∈ shown, (system.process t).worker.Directs listed id := by
  obtain ⟨inputs,outputs,own,_⟩ := (consistent.stands t (size ▸ t.isLt)).worker
  refine ⟨_,_,own.steady.holds.inputIds,own.steady.holds.outputIds,fun id member => ?_⟩
  obtain ⟨r,shown,rfl⟩ := List.mem_map.mp member
  exact own.directs shown

end Work

end BalancedMove
