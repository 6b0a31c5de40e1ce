import BalancedMove.Proofs.Balance.Bound
import BalancedMove.Proofs.Parallel.Union

/-! A run with several workers that has ended. Its stores pass their self-check, hold each pair once in a
list and once in a tree between them, and number the twins as the messages were. -/
namespace BalancedMove

open Sequence Store Balancer

/-- Standing workers of all ranges. Each has shared `told` with the others, those pairs that it has yet to
hand over among them, and has been told of no others. -/
structure Crew (layout : Layout) (told known : Nat → Nat → List Pair) (base : Nat → Nat)
    (inputs outputs : Nat → List Record) : Prop where
  each : ∀ t (inside : t < layout.workers), ∃ (worker : Worker) (handed : Nat → List Pair),
    worker.Stands layout t inside handed (known t) (base t) (inputs t) (outputs t) ∧
      ∀ dst < layout.workers, worker.balancer.router.shared handed dst = told t dst
  comes : ∀ src < layout.workers, ∀ dst < layout.workers, src ≠ dst → known dst src ⊆ told src dst

theorem Crew.sharing {layout : Layout} {told known : Nat → Nat → List Pair} {base : Nat → Nat}
    {inputs outputs : Nat → List Record} (crew : Crew layout told known base inputs outputs) :
    Sharing layout told inputs outputs := by
  refine ⟨?_,?_,?_,?_,?_,?_,?_⟩
  · intro t inside
    obtain ⟨_,_,stands,_⟩ := crew.each t inside
    exact stands.steady.sound
  · intro t inside
    obtain ⟨_,_,stands,_⟩ := crew.each t inside
    exact stands.steady.routed.listed
  · intro t inside
    obtain ⟨_,_,stands,_⟩ := crew.each t inside
    exact stands.steady.routed.moves
  · intro t inside
    obtain ⟨_,_,stands,_⟩ := crew.each t inside
    exact stands.steady.routed.own
  · intro t inside r shown absent
    obtain ⟨_,_,stands,same⟩ := crew.each t inside
    obtain ⟨dst,bounded,i,owns,twin,place⟩ := stands.steady.routed.numbered r shown absent
    rw [same dst bounded] at place
    exact ⟨dst,bounded,i,owns,twin,place⟩
  · intro t inside dst bounded i v place
    obtain ⟨_,_,stands,same⟩ := crew.each t inside
    rw [← same dst bounded] at place
    exact stands.steady.routed.shown dst bounded i v place
  · intro t inside r listed absent
    obtain ⟨_,_,stands,_⟩ := crew.each t inside
    obtain ⟨src,sender,member⟩ := stands.foreign r listed absent
    exact ⟨src,sender,crew.comes src sender t inside (stands.comes src sender _ member).2 member⟩

structure Finished (layout : Layout) (told heard : Nat → Nat → List Pair) (base : Nat → Nat)
    (workers : List Worker) (inputs outputs : Nat → List Record) : Prop where
  length : workers.length = layout.workers
  stands : ∀ t (inside : t < layout.workers) worker, workers[t]? = some worker →
    worker.Stands layout t inside (told t) (heard t) (base t) (inputs t) (outputs t)
  clear : ∀ t (inside : t < layout.workers),
    Clear (layout.setting t inside) (layout.setting t inside).stop (inputs t) (outputs t)
  drained : ∀ worker ∈ workers, ∀ dst < layout.workers, worker.balancer.router.batch dst = []
  synced : Synced layout told heard

section Finish

variable {layout : Layout} {told heard : Nat → Nat → List Pair} {base : Nat → Nat}
variable {workers : List Worker} {inputs outputs : Nat → List Record} {t : Nat}

theorem Team.finished (team : Team layout told heard base workers) (synced : Synced layout told heard)
    (drained : ∀ worker ∈ workers, ∀ dst < layout.workers, worker.balancer.router.batch dst = []) :
    ∃ inputs outputs, Finished layout told heard base workers inputs outputs := by
  have each : ∀ t < layout.workers, ∃ inputs outputs, ∀ inside : t < layout.workers,
      (∀ worker, workers[t]? = some worker →
        worker.Stands layout t inside (told t) (heard t) (base t) inputs outputs) ∧
      Clear (layout.setting t inside) (layout.setting t inside).stop inputs outputs := by
    intro t inside
    have place := List.getElem?_eq_getElem (show t < workers.length from team.length ▸ inside)
    obtain ⟨inputs,outputs,stands,clear⟩ := team.calm t inside _ place
    refine ⟨inputs,outputs,fun _ => ⟨fun worker same => ?_,clear⟩⟩
    exact Option.some.inj (place.symm.trans same) ▸ stands
  choose! inputs outputs facts using each
  exact ⟨inputs,outputs,team.length,fun t inside => (facts t inside inside).1,
    fun t inside => (facts t inside inside).2,drained,synced⟩

variable (finished : Finished layout told heard base workers inputs outputs)

include finished

theorem Finished.inside {worker : Worker} (place : workers[t]? = some worker) : t < layout.workers :=
  finished.length ▸ (List.getElem?_eq_some_iff.mp place).1

theorem Finished.worker (inside : t < layout.workers) : ∃ worker, workers[t]? = some worker ∧
    worker.Stands layout t inside (told t) (heard t) (base t) (inputs t) (outputs t) ∧
    ∀ dst < layout.workers, worker.balancer.router.shared (told t) dst = told t dst := by
  have place := List.getElem?_eq_getElem (show t < workers.length from finished.length ▸ inside)
  refine ⟨_,place,finished.stands t inside _ place,fun dst bounded => ?_⟩
  rw [Outgoing.shared,finished.drained _ (List.mem_of_getElem? place) dst bounded]
  simp

theorem Finished.store {store : Store} (place : (workers.map (·.balancer.store))[t]? = some store) :
    t < layout.workers ∧ store.stop = layout.bound (t + 1) ∧ store.start = layout.bound t ∧
      store.width = layout.width ∧ store.Holds (inputs t) (outputs t) ∧ store.Tidy (outputs t) := by
  rw [List.getElem?_map] at place
  obtain ⟨worker,known,rfl⟩ := Option.map_eq_some_iff.mp place
  have inside := finished.inside known
  have stands := finished.stands t inside worker known
  exact ⟨inside,stands.steady.stop,stands.steady.start,stands.steady.width,stands.steady.holds,
    stands.tidy⟩

theorem Finished.crew : Crew layout told heard base inputs outputs := by
  refine ⟨fun t inside => ?_,fun src sender dst receiver differ => ?_⟩
  · obtain ⟨worker,_,stands,same⟩ := finished.worker inside
    exact ⟨worker,_,stands,same⟩
  · rw [finished.synced src sender dst receiver differ]
    exact List.Subset.refl _

theorem Finished.agreeing : Agreeing layout told inputs outputs := by
  refine ⟨finished.crew.sharing,fun src sender dst receiver differ v member => ?_⟩
  obtain ⟨worker,_,stands,_⟩ := finished.worker receiver
  obtain ⟨shared,_,pairs,listed⟩ := stands.records src sender
  rw [finished.synced src sender dst receiver differ,← pairs] at member
  obtain ⟨r,present,same⟩ := List.mem_map.mp member
  exact ⟨r,listed r present,same⟩

theorem Finished.lists : (workers.map (·.balancer.store)).mapM Store.pairs =
    .ok ((List.range layout.workers).map fun t => (inputs t).map Record.pair) := by
  have each := @mapM_range _ _ _ Store.pairs (workers.map (·.balancer.store))
    (fun t => (inputs t).map Record.pair) fun t store place => by
      obtain ⟨_,_,_,_,holds,_⟩ := finished.store place
      exact holds.pairs
  rw [each,List.length_map,finished.length]

theorem Finished.trees : (workers.map (·.balancer.store)).mapM Store.outputPairs =
    .ok ((List.range layout.workers).map fun t => (outputs t).map Record.pair) := by
  have each := @mapM_range _ _ _ Store.outputPairs (workers.map (·.balancer.store))
    (fun t => (outputs t).map Record.pair) fun t store place => by
      obtain ⟨_,_,_,_,holds,_⟩ := finished.store place
      exact holds.outputPairs
  rw [each,List.length_map,finished.length]

end Finish

structure Presents (start stop : Nat) (store : Store) (listed shown : List Pair) : Prop where
  checked : store.check = .ok true
  list : store.pairs = .ok listed
  tree : store.outputPairs = .ok shown
  increasing : Increasing Pair.p listed
  inside : ∀ v ∈ listed, start ≤ v.p ∧ v.p < stop
  inputFirst : listed.head?.map Pair.p = some start
  distinct : (shown.map Pair.q).Nodup
  outputFirst : shown.head?.map Pair.q = some start

def Store.twinsInto (store : Store) (low high : Nat) : Checked (List Nat) := do
  let ids ← store.outputIds
  let nodes ← ids.mapM store.node
  return (nodes.filter fun node => low ≤ node.pair.p && node.pair.p < high).filterMap Node.twin

section Presentation

variable {layout : Layout} {told : Nat → Nat → List Pair} {inputs outputs : Nat → List Record}
variable {t dst : Nat} {store : Store}

theorem Agreeing.presents (agreeing : Agreeing layout told inputs outputs)
    (inside : t < layout.workers) (start : store.start = layout.bound t)
    (stop : store.stop = layout.bound (t + 1)) (holds : store.Holds (inputs t) (outputs t))
    (tidy : store.Tidy (outputs t)) : Presents (layout.bound t) (layout.bound (t + 1)) store
      ((inputs t).map Record.pair) ((outputs t).map Record.pair) := by
  have sound := agreeing.sound t inside
  have checked := sound
  rw [← start,← stop] at checked
  refine ⟨check_accepts holds tidy checked,holds.pairs,holds.outputPairs,
    agreeing.inputChain.sorted t inside,agreeing.inputChain.owned t inside,
    agreeing.inputChain.first t inside,?_,agreeing.outputChain.first t inside⟩
  rw [List.Nodup,List.pairwise_map]
  exact (agreeing.outputChain.sorted t inside).imp fun less => Nat.ne_of_lt less

/-- A record of the tree has no twin exactly if the list of the same store has its pair. -/
theorem Agreeing.twin_iff (agreeing : Agreeing layout told inputs outputs)
    (inside : t < layout.workers) {r : Record} (shown : r ∈ outputs t) :
    r.twin = none ↔ r.pair ∈ (inputs t).map Record.pair := by
  have sound := agreeing.sound t inside
  constructor
  · intro none
    by_contra unlisted
    have absent : r ∉ inputs t := fun listed => unlisted (List.mem_map_of_mem listed)
    obtain ⟨_,_,i,_,twin,_⟩ := agreeing.numbered t inside r shown absent
    rw [none] at twin
    cases twin
  · intro member
    obtain ⟨s,listed,same⟩ := List.mem_map.mp member
    have range := sound.inputRange s listed
    have start : s.p = r.p := congrArg Pair.p same
    refine agreeing.own t inside r shown ?_
    by_contra absent
    have away := sound.away r shown absent
    have above := (sound.outputIsEnd shown).above
    omega

theorem twinsInto_eq {inputs outputs : List Record} (holds : store.Holds inputs outputs)
    (low high : Nat) : store.twinsInto low high =
      .ok ((outputs.filter fun r => low ≤ r.p && r.p < high).filterMap Record.twin) := by
  obtain ⟨nodes,ok,length,all⟩ := @mapM_exists _ _ _ store.node (outputs.map Record.id)
    (fun i node => outputs[i]?.map (fun r => (r.pair,r.twin)) = some (node.pair,node.twin)) (by
    intro i id place
    rw [List.getElem?_map] at place
    obtain ⟨r,known,rfl⟩ := Option.map_eq_some_iff.mp place
    obtain ⟨node,read,pair,twin,_⟩ := holds.node (Or.inr (List.mem_of_getElem? known))
    refine ⟨node,read,?_⟩
    rw [known,Option.map_some,pair,twin])
  rw [List.length_map] at length
  have same := map_eq_map length all
  have each := congrArg (fun entries : List (Pair × Option Nat) => (entries.filter fun entry =>
    low ≤ entry.1.p && entry.1.p < high).filterMap Prod.snd) same
  simp only [List.filter_map,List.filterMap_map] at each
  rw [Store.twinsInto,holds.outputIds,Checked.ok_bind,ok,Checked.ok_bind,Checked.pure_ok]
  exact congrArg Except.ok each

/-- The twins of what one tree shares with another range are the numbers up to some number. -/
theorem Agreeing.twins (agreeing : Agreeing layout told inputs outputs)
    (inside : t < layout.workers) (bounded : dst < layout.workers)
    (holds : store.Holds (inputs t) (outputs t)) :
    ∃ twins, store.twinsInto (layout.bound dst) (layout.bound (dst + 1)) = .ok twins ∧
      twins.Perm (List.range (told t dst).length) := by
  have sorted := (agreeing.sound t inside).outputSorted
  -- a twin is the place of a pair among the ones told to the owner of its input start
  have place : ∀ r ∈ outputs t, layout.Owns dst r.p → ∀ i, r.twin = some i →
      (told t dst)[i]? = some r.pair := by
    intro r shown owns i twin
    have absent : r ∉ inputs t := fun listed => by
      rw [agreeing.own t inside r shown listed] at twin
      cases twin
    obtain ⟨other,known,j,otherOwns,otherTwin,there⟩ := agreeing.numbered t inside r shown absent
    obtain rfl := Layout.owns_unique known bounded otherOwns owns
    obtain rfl := Option.some.inj (twin.symm.trans otherTwin)
    exact there
  have owned : ∀ r ∈ (outputs t).filter (fun r =>
      layout.bound dst ≤ r.p && r.p < layout.bound (dst + 1)),
      r ∈ outputs t ∧ layout.Owns dst r.p := by
    intro r member
    rw [List.mem_filter] at member
    simpa [Layout.Owns] using member
  refine ⟨_,twinsInto_eq holds _ _,?_⟩
  refine (List.perm_ext_iff_of_nodup ?_ List.nodup_range).mpr fun i => ?_
  · rw [List.Nodup,List.pairwise_filterMap]
    refine (sorted.nodup.filter _).imp_of_mem ?_
    intro r s first second differ i twin j otherTwin same
    subst j
    obtain ⟨shown,owns⟩ := owned r first
    obtain ⟨otherShown,otherOwns⟩ := owned s second
    have pair := (place r shown owns i twin).symm.trans (place s otherShown otherOwns i otherTwin)
    exact differ (sorted.eq_of_key shown otherShown (congrArg Pair.q (Option.some.inj pair)))
  · rw [List.mem_filterMap,List.mem_range]
    constructor
    · rintro ⟨r,member,twin⟩
      obtain ⟨shown,owns⟩ := owned r member
      exact (List.getElem?_eq_some_iff.mp (place r shown owns i twin)).1
    · intro below
      obtain ⟨owns,r,shown,_,pair,twin⟩ :=
        agreeing.shown t inside dst bounded i _ (List.getElem?_eq_getElem below)
      refine ⟨r,List.mem_filter.mpr ⟨shown,?_⟩,twin⟩
      rw [← pair] at owns
      change layout.Owns dst r.p at owns
      simpa [Layout.Owns] using owns

theorem Agreeing.node_twin (agreeing : Agreeing layout told inputs outputs)
    (inside : t < layout.workers) (holds : store.Holds (inputs t) (outputs t)) :
    ∀ id ∈ (outputs t).map Record.id, ∃ node, store.node id = .ok node ∧
      (node.twin = none ↔ node.pair ∈ (inputs t).map Record.pair) := by
  intro id member
  obtain ⟨r,shown,rfl⟩ := List.mem_map.mp member
  obtain ⟨node,read,pair,twin,_⟩ := holds.node (Or.inr shown)
  refine ⟨node,read,?_⟩
  rw [pair,twin]
  exact agreeing.twin_iff inside shown

end Presentation

end BalancedMove
