import BalancedMove.Balance.Sweep
import BalancedMove.Proofs.Balance.Growth
import BalancedMove.Proofs.Parallel.Channel

/-! One worker. Its list has the records of its tree that stay in the range, and those that the other
workers have told it of, for each of them in the order of telling. Its own pass, the handing over of a
batch and the linking of a received start keep this up, and after each of them no interval is heavy. -/
namespace BalancedMove

open Sequence Store Balancer

/-- The records of a list that belong to the tree of another range. -/
def guests (layout : Layout) (t : Nat) (inputs : List Record) : List Record :=
  inputs.filter fun r => ¬ layout.Owns t r.q

namespace Worker

/-- A worker between two steps. It has told `handed` to each receiver and been told `known` by each
sender; its tree began with `base` records. No node is in neither order. -/
structure Stands (layout : Layout) (t : Nat) (inside : t < layout.workers)
    (handed known : Nat → List Pair) (base : Nat) (worker : Worker) (inputs outputs : List Record) :
    Prop where
  index : worker.index = t
  steady : Steady (layout.setting t inside) (Channels layout t handed (base + worker.messages))
    worker.balancer inputs outputs
  tidy : worker.balancer.store.Tidy outputs
  grown : outputs.length = base + worker.balancer.splits
  filled : worker.balancer.store.arena.size ≤ outputs.length + (guests layout t inputs).length
  backed : Backed base layout.a (layout.bound (t + 1)) inputs outputs
  records : ∀ src < layout.workers, ∃ shared : List Record,
    worker.records[src]? = some (shared.map Record.id).toArray ∧
      shared.map Record.pair = known src ∧ ∀ r ∈ shared, r ∈ inputs
  comes : ∀ src < layout.workers, ∀ v ∈ known src, layout.Owns src v.q ∧ src ≠ t
  foreign : ∀ r ∈ inputs, r ∉ outputs → ∃ src < layout.workers, r.pair ∈ known src

def Calm (layout : Layout) (t : Nat) (inside : t < layout.workers) (handed known : Nat → List Pair)
    (base : Nat) (worker : Worker) : Prop :=
  ∃ inputs outputs, worker.Stands layout t inside handed known base inputs outputs ∧
    Clear (layout.setting t inside) (layout.setting t inside).stop inputs outputs

variable {layout : Layout} {t base : Nat} {inside : t < layout.workers}
variable {handed known : Nat → List Pair} {worker : Worker} {inputs outputs : List Record}

theorem Calm.index (calm : worker.Calm layout t inside handed known base) : worker.index = t := by
  obtain ⟨_,_,stands,_⟩ := calm
  exact stands.index

theorem Stands.inRound (stands : worker.Stands layout t inside handed known base inputs outputs)
    (rounds : Nat) :
    ({ worker with rounds } : Worker).Stands layout t inside handed known base inputs outputs :=
  ⟨stands.index,stands.steady,stands.tidy,stands.grown,stands.filled,stands.backed,stands.records,
    stands.comes,stands.foreign⟩

theorem Stands.progress (stands : worker.Stands layout t inside handed known base inputs outputs)
    {after : Balancer Outgoing} {number : Nat} {newInputs newOutputs : List Record}
    (steady : Steady (layout.setting t inside) (Channels layout t handed (base + worker.messages))
      after newInputs newOutputs)
    (progress : Progress (layout.setting t inside) number worker.balancer after inputs outputs
      newInputs newOutputs) :
    ({ worker with balancer := after } : Worker).Stands layout t inside handed known base newInputs
      newOutputs := by
  have backed := progress.run.backed stands.steady.sound stands.backed
  have length := progress.run.length_outputs
  refine ⟨stands.index,steady,progress.tidy stands.tidy,?_,?_,backed,?_,stands.comes,?_⟩
  · have grown := stands.grown
    have splits := progress.splits
    simp only
    omega
  · have filled := stands.filled
    have size := progress.size
    have kept : (guests layout t inputs).length ≤ (guests layout t newInputs).length :=
      (progress.run.inputs_sublist.filter _).length_le
    simp only
    omega
  · intro src bounded
    obtain ⟨shared,ids,pairs,listed⟩ := stands.records src bounded
    exact ⟨shared,ids,pairs,fun r member => progress.run.inputs_sublist.subset (listed r member)⟩
  · intro r listed absent
    obtain ⟨before,outside⟩ := progress.run.unshown listed absent
    exact stands.foreign r before outside

theorem sweep_stands (stands : worker.Stands layout t inside handed known base inputs outputs) :
    ∃ after newInputs newOutputs, worker.sweep = .ok after ∧
      after.Stands layout t inside handed known base newInputs newOutputs ∧
      Clear (layout.setting t inside) (layout.setting t inside).stop newInputs newOutputs ∧
      inputs ⊆ newInputs ∧ after.rounds = worker.rounds ∧ after.messages = worker.messages := by
  obtain ⟨balancer,number,newInputs,newOutputs,swept,steady,progress,clear⟩ :=
    sweep_balances (channels_routes handed (base + worker.messages)) stands.steady
  refine ⟨{ worker with balancer },newInputs,newOutputs,?_,stands.progress steady progress,clear,
    progress.run.inputs_sublist.subset,rfl,rfl⟩
  simp [sweep,swept]

theorem sweep_calms (stands : worker.Stands layout t inside handed known base inputs outputs) :
    ∃ after, worker.sweep = .ok after ∧ after.Calm layout t inside handed known base ∧
      after.rounds = worker.rounds ∧ after.messages = worker.messages := by
  obtain ⟨after,newInputs,newOutputs,swept,standing,clear,_,frame⟩ := sweep_stands stands
  exact ⟨after,swept,⟨newInputs,newOutputs,standing,clear⟩,frame⟩

theorem handOver_stands (stands : worker.Stands layout t inside handed known base inputs outputs)
    {dst : Nat} (receiver : dst < layout.workers) :
    ((worker.handOver dst).2).Stands layout t inside
        (Function.update handed dst (handed dst ++ (worker.handOver dst).1.toList.map Message.pair))
        known base inputs outputs ∧
      FitsAll layout t dst (handed dst) (worker.handOver dst).1.toList := by
  obtain ⟨index,⟨store,router,a,splits⟩,records,rounds,messages⟩ := worker
  obtain ⟨sameIndex,steady,tidy,grown,filled,backed,slots,comes,foreign⟩ := stands
  have routed := steady.routed.hand receiver
  refine ⟨⟨sameIndex,⟨steady.width,steady.start,steady.stop,steady.param,steady.holds,steady.sound,
    steady.room,?_⟩,tidy,grown,filled,backed,slots,comes,foreign⟩,steady.routed.fits dst receiver⟩
  rw [Nat.add_assoc] at routed
  exact routed

theorem handOver_calm (calm : worker.Calm layout t inside handed known base) {dst : Nat}
    (receiver : dst < layout.workers) :
    ((worker.handOver dst).2).Calm layout t inside
        (Function.update handed dst (handed dst ++ (worker.handOver dst).1.toList.map Message.pair))
        known base ∧
      FitsAll layout t dst (handed dst) (worker.handOver dst).1.toList := by
  obtain ⟨inputs,outputs,stands,clear⟩ := calm
  obtain ⟨after,fits⟩ := handOver_stands stands receiver
  exact ⟨⟨inputs,outputs,after,clear⟩,fits⟩

section Receiving

variable {setting : Setting} {mark new interval split r : Record}

/-- One more start in the list makes no interval heavy but the one in which it lies. -/
theorem startsIn_received (sound : Sound setting.n setting.start setting.stop inputs outputs)
    (clear : Clear setting setting.stop inputs outputs) (listed : mark ∈ inputs)
    (member : r ∈ outputs) :
    startsIn setting.stop (putBehind mark new inputs) outputs r ≤ 2 * setting.a ∧
      (¬ (r.q ≤ new.p ∧ new.p < endOf Record.q setting.stop outputs r) →
        startsIn setting.stop (putBehind mark new inputs) outputs r < 2 * setting.a) := by
  have light := (clear r member (sound.outputBelow r member)).1
  unfold startsIn at light ⊢
  rw [count_putBehind listed]
  constructor
  · split <;> omega
  · intro outside
    rw [if_neg outside]
    exact light

theorem clear_received (sound : Sound setting.n setting.start setting.stop inputs outputs)
    (clear : Clear setting setting.stop inputs outputs) (listed : mark ∈ inputs)
    (shown : interval ∈ outputs) (low : interval.q ≤ new.p)
    (high : new.p < endOf Record.q setting.stop outputs interval)
    (light : startsIn setting.stop (putBehind mark new inputs) outputs interval <
      heavyCount setting.a) : Clear setting setting.stop (putBehind mark new inputs) outputs := by
  intro r member below
  have least := heavyCount_le setting.a
  refine ⟨?_,(clear r member below).2⟩
  by_cases same : r = interval
  · subst r
    omega
  · exact (startsIn_received sound clear listed member).2 fun inside =>
      same (sound.outputSorted.apart sound.outputBelow member shown inside.1 inside.2 low high)

theorem ready_received (sound : Sound setting.n setting.start setting.stop inputs outputs)
    (clear : Clear setting setting.stop inputs outputs) (listed : mark ∈ inputs)
    (shown : interval ∈ outputs) (low : interval.q ≤ new.p)
    (high : new.p < endOf Record.q setting.stop outputs interval)
    (begins : split ∈ putBehind mark new inputs)
    (below : split.p < endOf Record.q setting.stop outputs interval)
    (front : count Record.p (putBehind mark new inputs) interval.q split.p = setting.a)
    (heavy : heavyCount setting.a ≤
      startsIn setting.stop (putBehind mark new inputs) outputs interval) :
    Ready setting setting.stop (putBehind mark new inputs) outputs split interval := by
  have enough := setting.enough
  have ends := (sound.outputIsEnd shown).inside
  have most : startsIn setting.stop (putBehind mark new inputs) outputs interval ≤ 2 * setting.a :=
    (startsIn_received sound clear listed shown).1
  refine ⟨begins,shown,?_,below,front,heavy,?_,sound.outputBelow interval shown,
    Or.inr ⟨most,ends⟩⟩
  · by_contra under
    have none : count Record.p (putBehind mark new inputs) interval.q split.p = 0 :=
      count_eq_zero.mpr fun s _ _ => by omega
    omega
  · intro r member inFront differ
    refine ⟨?_,(clear r member inFront).2⟩
    exact (startsIn_received sound clear listed member).2 fun inside =>
      differ (sound.outputSorted.apart sound.outputBelow member shown inside.1 inside.2 low high)

variable {src : Nat} {message : Message}

theorem Stands.finds (stands : worker.Stands layout t inside handed known base inputs outputs)
    (sender : src < layout.workers) (other : src ≠ t)
    (fits : Fits layout src t (known src) message) :
    ∃ ids : Array NodeId, ∃ mark ∈ inputs, worker.records[src]? = some ids ∧
      ids[message.after]? = some mark.id ∧ mark ∉ outputs ∧ mark.p < message.pair.p ∧
      message.pair.p < endOf Record.p (layout.bound (t + 1)) inputs mark := by
  have sound := stands.steady.sound
  have elsewhere : ∀ r ∈ outputs, ¬ layout.Owns src r.q := fun r shown owns =>
    other (Layout.owns_unique sender inside owns (sound.outputRange r shown))
  obtain ⟨shared,ids,pairs,listed⟩ := stands.records src sender
  obtain ⟨v,place,before,owned,free⟩ := fits.follows
  rw [← pairs,List.getElem?_map] at place
  obtain ⟨mark,found,rfl⟩ := Option.map_eq_some_iff.mp place
  have member := List.mem_of_getElem? found
  have shownTo : mark.pair ∈ known src := pairs ▸ List.mem_map_of_mem member
  refine ⟨_,mark,listed mark member,ids,?_,?_,before,?_⟩
  · simp [found]
  · exact fun shown => elsewhere mark shown (stands.comes src sender _ shownTo).1
  · by_contra reached
    have ends := sound.inputIsEnd (listed mark member)
    have lands := fits.lands.2
    rcases ends.reached with last | ⟨s,present,same⟩
    · exact reached (Nat.lt_of_lt_of_eq lands last.symm)
    · -- a start in between comes from the same sender, and so it would not be in between
      have above := ends.above
      have between : s.p ≤ message.pair.p := by
        rw [same]
        exact Nat.le_of_not_lt reached
      have comes : layout.Owns src s.q := by
        rw [← stands.steady.routed.listed s present]
        exact owned s.p (by change mark.p ≤ s.p; omega) between
      obtain ⟨origin,bounded,told⟩ := stands.foreign s present fun shown => elsewhere s shown comes
      obtain rfl := Layout.owns_unique bounded sender (stands.comes origin bounded _ told).1 comes
      have behind := free s.pair told (by change mark.p < s.p; omega)
      exact absurd between (Nat.not_le_of_lt behind)

theorem Stands.link (stands : worker.Stands layout t inside handed known base inputs outputs)
    (sender : src < layout.workers) (other : src ≠ t)
    (fits : Fits layout src t (known src) message) {mark : Record} (listed : mark ∈ inputs)
    (absent : mark ∉ outputs) (low : mark.p < message.pair.p)
    (high : message.pair.p < endOf Record.p (layout.bound (t + 1)) inputs mark) :
    ∃ linked, ∃ new : Record, new.pair = message.pair ∧
      (worker.balancer.store.alloc message.pair).1 = new.id ∧
      (worker.balancer.store.alloc message.pair).2.insertAfter new.id mark.id = .ok linked ∧
      ({ worker with
        balancer := { worker.balancer with store := linked }
        records := worker.records.modify src (·.push new.id) } : Worker).Stands layout t inside handed
        (Function.update known src (known src ++ [message.pair])) base (putBehind mark new inputs)
        outputs := by
  have sound := stands.steady.sound
  have steady := stands.steady
  let store := worker.balancer.store
  let new : Record := { id := store.arena.size, pair := message.pair }
  have unused : ∀ r, r ∈ inputs ∨ r ∈ outputs → r.id ≠ new.id := fun r present =>
    Nat.ne_of_lt (steady.holds.lt_size present)
  have unknown : new ∉ outputs := fun shown => unused new (Or.inr shown) rfl
  obtain ⟨linked,inserted,holds,keeps,links⟩ := @Holds.insertAfter _ _ _ _ new
    (steady.holds.alloc message.pair) listed (fun r present => unused r (Or.inl present))
    (store.label_alloc message.pair)
  -- the new start comes last among what the sender has told
  refine ⟨linked,new,rfl,rfl,inserted,stands.index,⟨?_,?_,?_,steady.param,holds,?_,
    Or.inl fits.capable,?_⟩,?_,stands.grown,?_,stands.backed.mono (sublist_putBehind inputs),?_,?_,
    ?_⟩
  · exact keeps.width.trans steady.width
  · exact keeps.start.trans steady.start
  · exact keeps.stop.trans steady.stop
  · exact sound.receive listed absent unknown low high
  · exact steady.routed.admit listed unknown fits.moved
  · exact (stands.tidy.alloc message.pair).of_links links
  · have filled := stands.filled
    have size : linked.arena.size = worker.balancer.store.arena.size + 1 :=
      links.size.trans (Store.size_alloc _ _)
    have comes : ¬ layout.Owns t new.q := fun owns =>
      other (Layout.owns_unique sender inside fits.leaves owns)
    have more : (guests layout t (putBehind mark new inputs)).length =
        (guests layout t inputs).length + 1 := by
      rw [guests,((putBehind_perm listed).filter _).length_eq,List.filter_cons_of_pos (by simpa),
        List.length_cons,guests]
    simp only
    omega
  · intro origin bounded
    obtain ⟨shared,ids,pairs,present⟩ := stands.records origin bounded
    by_cases same : src = origin
    · subst origin
      refine ⟨shared ++ [new],?_,?_,?_⟩
      · simp [Array.getElem?_modify,ids]
      · simp [pairs,new]
      · intro r member
        rcases List.mem_append.mp member with early | last
        · exact (mem_putBehind listed).mpr (Or.inr (present r early))
        · exact (mem_putBehind listed).mpr (Or.inl (List.mem_singleton.mp last))
    · refine ⟨shared,?_,?_,fun r member => (mem_putBehind listed).mpr (Or.inr (present r member))⟩
      · simpa [Array.getElem?_modify,same] using ids
      · rw [Function.update_of_ne (Ne.symm same)]
        exact pairs
  · intro origin bounded v told
    by_cases same : origin = src
    · subst origin
      rw [Function.update_self,List.mem_append,List.mem_singleton] at told
      rcases told with early | rfl
      · exact stands.comes src bounded v early
      · exact ⟨fits.leaves,other⟩
    · rw [Function.update_of_ne same] at told
      exact stands.comes origin bounded v told
  · intro r present outside
    rcases (mem_putBehind listed).mp present with rfl | early
    · exact ⟨src,sender,by simp [new]⟩
    · obtain ⟨origin,bounded,told⟩ := stands.foreign r early outside
      refine ⟨origin,bounded,?_⟩
      by_cases same : origin = src
      · subst origin
        simp [told]
      · rw [Function.update_of_ne same]
        exact told

/-- A fitting message is received, and whatever becomes heavy by it is split. -/
theorem receive_stands (stands : worker.Stands layout t inside handed known base inputs outputs)
    (clear : Clear (layout.setting t inside) (layout.setting t inside).stop inputs outputs)
    (sender : src < layout.workers) (other : src ≠ t)
    (fits : Fits layout src t (known src) message) :
    ∃ after newInputs newOutputs, worker.receive src message = .ok after ∧
      after.Stands layout t inside handed
        (Function.update known src (known src ++ [message.pair])) base newInputs newOutputs ∧
      Clear (layout.setting t inside) (layout.setting t inside).stop newInputs newOutputs ∧
      inputs ⊆ newInputs ∧ after.rounds = worker.rounds ∧ after.messages = worker.messages := by
  obtain ⟨ids,mark,listed,found,named,absent,low,high⟩ := stands.finds sender other fits
  obtain ⟨linked,new,isPair,isNew,inserted,after⟩ :=
    stands.link sender other fits listed absent low high
  obtain ⟨index,⟨store,router,a,splits⟩,records,rounds,messages⟩ := worker
  have sound := stands.steady.sound
  have present : new ∈ putBehind mark new inputs := (mem_putBehind listed).mpr (Or.inl rfl)
  obtain ⟨interval,shown,first,last,answer⟩ := after.steady.around present
  rcases answer with ⟨none,light⟩ | ⟨split,begins,some,below,front,heavy⟩
  · have light := clear_received sound clear listed shown first last light
    refine ⟨_,_,_,?_,after,light,(sublist_putBehind inputs).subset,rfl,rfl⟩
    simp only at none
    simp only [receive,found,Checked.found,Checked.ok_bind,named,isNew,inserted,none,Checked.pure_ok]
  · have ready := ready_received sound clear listed shown first last begins below front heavy
    obtain ⟨balancer,number,newInputs,newOutputs,rear,tally,settled,steady,progress,light,_⟩ :=
      after.steady.settle_eq (channels_routes handed (base + messages)) (Nat.le_refl _) ready 0
    have stop := after.steady.stop
    refine ⟨_,newInputs,newOutputs,?_,after.progress steady progress,light,
      ((sublist_putBehind inputs).trans progress.run.inputs_sublist).subset,rfl,rfl⟩
    simp only at stop some settled
    rw [← stop] at settled
    simp only [receive,found,Checked.found,Checked.ok_bind,named,isNew,inserted,some,settled,
      Checked.pure_ok]

theorem receive_calm (calm : worker.Calm layout t inside handed known base)
    (sender : src < layout.workers) (other : src ≠ t)
    (fits : Fits layout src t (known src) message) :
    ∃ after, worker.receive src message = .ok after ∧
      after.Calm layout t inside handed
        (Function.update known src (known src ++ [message.pair])) base ∧
      after.rounds = worker.rounds ∧ after.messages = worker.messages := by
  obtain ⟨inputs,outputs,stands,clear⟩ := calm
  obtain ⟨after,newInputs,newOutputs,received,standing,light,_,frame⟩ :=
    receive_stands stands clear sender other fits
  exact ⟨after,received,⟨newInputs,newOutputs,standing,light⟩,frame⟩

theorem receiveBatch_calm {messages : List Message}
    (calm : worker.Calm layout t inside handed known base) (sender : src < layout.workers)
    (other : src ≠ t) (fits : FitsAll layout src t (known src) messages) :
    ∃ after, messages.foldlM (fun worker message => worker.receive src message) worker = .ok after ∧
      after.Calm layout t inside handed
        (Function.update known src (known src ++ messages.map Message.pair)) base ∧
      after.rounds = worker.rounds ∧ after.messages = worker.messages := by
  induction messages generalizing worker known with
  | nil =>
    refine ⟨worker,rfl,?_,rfl,rfl⟩
    simpa using calm
  | cons message rest ih =>
    obtain ⟨middle,received,stands,rounds,count⟩ := receive_calm calm sender other fits.1
    obtain ⟨after,ok,last,sameRounds,sameCount⟩ := ih stands (by simpa using fits.2)
    refine ⟨after,?_,?_,sameRounds.trans rounds,sameCount.trans count⟩
    · rw [List.foldlM_cons,received]
      exact ok
    · simpa using last

end Receiving

end Worker

end BalancedMove
