import BalancedMove.Balance.Cascade
import BalancedMove.Proofs.Balance.Splits
import BalancedMove.Proofs.Store.Operations

/-! The split of a balancer, for any router. A router keeps an invariant of its own over the two
sequences; `Routes` says what it does with the input start of a split, and everything about balancing
is proved from that. -/
namespace BalancedMove

open Sequence Store

structure Setting where
  width : Width
  n : Nat
  start : Nat
  stop : Nat
  a : Nat
  small : n < width.limit
  inside : stop ≤ n
  enough : 2 ≤ a

variable {ρ : Type} [InputRouter ρ]

/-- How a router with invariant `inv` places the start of a record `new` that was split off `old`. It
may give the record a number. -/
structure Routes (setting : Setting) (inv : ρ → List Record → List Record → Prop) : Prop where
  place : ∀ {router : ρ} {store : Store} {inputs outputs : List Record} {old new : Record},
    store.start = setting.start → store.stop = setting.stop →
    Sound setting.n setting.start setting.stop inputs outputs →
    Split setting.a setting.stop inputs outputs old new → 2 * setting.a ≤ heavyCount setting.a →
    inv router inputs outputs →
    store.Holds inputs (putBehind old new outputs) →
    (∀ r, r ∈ inputs ∨ r ∈ outputs → r.id ≠ new.id) → new.twin = none →
    ∃ after newStore placedNew, InputRouter.place router store new.id old.id =
        .ok (after,newStore,decide (old ∈ inputs)) ∧
      placedNew.id = new.id ∧ placedNew.pair = new.pair ∧ placedNew.cut = new.cut ∧
      store.Keeps newStore ∧
      newStore.arena.size = store.arena.size ∧
      (∀ id, id ≠ new.id → newStore.arena.labelOf id = store.arena.labelOf id) ∧
      newStore.Holds (placed old placedNew inputs) (putBehind old placedNew outputs) ∧
      (store.Tidy (putBehind old new outputs) → newStore.Tidy (putBehind old placedNew outputs)) ∧
      inv after (placed old placedNew inputs) (putBehind old placedNew outputs)

namespace Balancer

omit [InputRouter ρ] in
theorem start_eq {a : Nat} (enough : 2 ≤ a) (store : Store) (router : ρ) :
    start store router a = .ok { store, router, a } := by
  simp [start,Checked.require,enough]

/-- A balancer between two steps. -/
structure Steady (setting : Setting) (inv : ρ → List Record → List Record → Prop)
    (balancer : Balancer ρ) (inputs outputs : List Record) : Prop where
  width : balancer.store.width = setting.width
  start : balancer.store.start = setting.start
  stop : balancer.store.stop = setting.stop
  param : balancer.a = setting.a
  holds : balancer.store.Holds inputs outputs
  sound : Sound setting.n setting.start setting.stop inputs outputs
  room : 2 * setting.a ≤ heavyCount setting.a ∨ inputs.length < heavyCount setting.a
  routed : inv balancer.router inputs outputs

structure Progress (setting : Setting) (number : Nat) (before after : Balancer ρ)
    (inputs outputs newInputs newOutputs : List Record) : Prop where
  splits : after.splits = before.splits + number
  size : after.store.arena.size = before.store.arena.size + number
  frame : ∀ id < before.store.arena.size,
    after.store.arena.labelOf id = before.store.arena.labelOf id
  tidy : before.store.Tidy outputs → after.store.Tidy newOutputs
  run : Splits setting.a setting.stop number inputs outputs newInputs newOutputs

variable {setting : Setting} {inv : ρ → List Record → List Record → Prop}
variable {balancer : Balancer ρ} {inputs outputs : List Record} {split old r : Record}

omit [InputRouter ρ] in
theorem Progress.refl (setting : Setting) (balancer : Balancer ρ) (inputs outputs : List Record) :
    Progress setting 0 balancer balancer inputs outputs inputs outputs :=
  ⟨rfl,rfl,fun _ _ => rfl,fun tidy => tidy,.none inputs outputs⟩

omit [InputRouter ρ] in
theorem Progress.trans {number more : Nat} {middle last : Balancer ρ}
    {newInputs newOutputs lastInputs lastOutputs : List Record}
    (first : Progress setting number balancer middle inputs outputs newInputs newOutputs)
    (second : Progress setting more middle last newInputs newOutputs lastInputs lastOutputs) :
    Progress setting (number + more) balancer last inputs outputs lastInputs lastOutputs :=
  ⟨by rw [second.splits,first.splits,Nat.add_assoc],by rw [second.size,first.size,Nat.add_assoc],
    fun id old => (second.frame id (by rw [first.size]; omega)).trans (first.frame id old),
    fun tidy => second.tidy (first.tidy tidy),first.run.append second.run⟩

section Reading

omit [InputRouter ρ]

variable (steady : Steady setting inv balancer inputs outputs)

include steady

theorem Steady.outputEnd (member : r ∈ outputs) :
    balancer.store.outputEnd r.id = .ok (endOf Record.q setting.stop outputs r) := by
  rw [← steady.stop]
  exact steady.holds.outputEnd member

theorem Steady.few : outputs.length ≤ Width.w128.limit := by
  have few := steady.sound.length_outputs_le
  have small := setting.small
  have inside := setting.inside
  have wide := setting.width.limit_le
  omega

theorem Steady.fuel_le : setting.stop - setting.start < balancer.splitFuel := by
  have small := setting.small
  have inside := setting.inside
  have width := steady.width
  unfold splitFuel
  rw [width]
  omega

theorem Steady.capable (heavy : heavyCount setting.a ≤ startsIn setting.stop inputs outputs r) :
    2 * setting.a ≤ heavyCount setting.a := by
  have most : startsIn setting.stop inputs outputs r ≤ inputs.length := startsIn_le
  have room := steady.room
  omega

theorem Steady.splittable (heavy : heavyCount setting.a ≤ startsIn setting.stop inputs outputs r) :
    setting.a < heavyCount setting.a := by
  have capable := steady.capable heavy
  have enough := setting.enough
  omega

end Reading

omit [InputRouter ρ] in
theorem Steady.splitPair (steady : Steady setting inv balancer inputs outputs)
    (begins : split ∈ inputs) (member : old ∈ outputs) (above : old.q < split.p)
    (below : split.p < endOf Record.q setting.stop outputs old) :
    splitPair balancer.store split.id old.id =
      .ok ⟨old.p + (split.p - old.q),old.q + (split.p - old.q)⟩ := by
  have pair : balancer.store.pair old.id = .ok old.pair := steady.holds.pair (Or.inr member)
  have start : balancer.store.p split.id = .ok split.p := steady.holds.p (Or.inl begins)
  have within := steady.sound.within old member
  have ends := (steady.sound.outputIsEnd member).inside
  have small := setting.small
  have inside := setting.inside
  have offset : Checked.sub split.p old.q = .ok (split.p - old.q) :=
    Checked.sub_of_le (Nat.le_of_lt above)
  have newInput : setting.width.add old.p (split.p - old.q) = .ok (old.p + (split.p - old.q)) :=
    Width.add_of_lt (by omega)
  have newOutput : setting.width.add old.q (split.p - old.q) = .ok (old.q + (split.p - old.q)) :=
    Width.add_of_lt (by omega)
  unfold Record.p Record.q at offset newInput newOutput ⊢
  unfold Record.p at start
  simp [Balancer.splitPair,pair,start,steady.width,offset,newInput,newOutput]

theorem Steady.split_eq (routes : Routes setting inv)
    (steady : Steady setting inv balancer inputs outputs) (begins : split ∈ inputs)
    (member : old ∈ outputs) (above : old.q < split.p)
    (below : split.p < endOf Record.q setting.stop outputs old)
    (front : count Record.p inputs old.q split.p = setting.a)
    (heavy : heavyCount setting.a ≤ startsIn setting.stop inputs outputs old) :
    ∃ after new, balancer.split split.id old.id = .ok (after,new.id,decide (old ∈ inputs)) ∧
      new.q = split.p ∧ Split setting.a setting.stop inputs outputs old new ∧
      Steady setting inv after (placed old new inputs) (putBehind old new outputs) ∧
      Progress setting 1 balancer after inputs outputs (placed old new inputs)
        (putBehind old new outputs) := by
  have pair := steady.splitPair begins member above below
  generalize offsets : (⟨old.p + (split.p - old.q),old.q + (split.p - old.q)⟩ : Pair) = fresh at pair
  have freshP : fresh.p = old.p + (split.p - old.q) := by rw [← offsets]
  have freshQ : fresh.q = split.p := by
    rw [← offsets]
    exact Nat.add_sub_cancel' (Nat.le_of_lt above)
  obtain ⟨⟨width,start,stop,arena,list,tree⟩,router,a,splits⟩ := balancer
  have sound := steady.sound
  let store : Store := ⟨width,start,stop,arena,list,tree⟩
  let new : Record := { id := arena.size, pair := fresh }
  have holds : store.Holds inputs outputs := steady.holds
  have unused : ∀ r, r ∈ inputs ∨ r ∈ outputs → r.id ≠ new.id := fun r known =>
    Nat.ne_of_lt (holds.lt_size known)
  -- the record as it is before the router sees it, and as the router leaves it
  have made : ∀ added : Record, added.pair = fresh → added.cut = new.cut →
      Split setting.a setting.stop inputs outputs old added := by
    intro added same plain
    have addedP : added.p = old.p + (split.p - old.q) := by rw [Record.p,same,freshP]
    have addedQ : added.q = split.p := by rw [Record.q,same,freshQ]
    refine ⟨⟨member,by omega,by omega,by omega⟩,⟨split,begins,addedQ.symm⟩,?_,
      Nat.le_trans (steady.capable heavy) heavy,plain⟩
    rw [addedQ]
    exact front
  have isSplit : Split setting.a setting.stop inputs outputs old new := made new rfl rfl
  obtain ⟨treed,inserted,treedHolds,treedKeeps,cells⟩ := @Holds.insertBehind _ _ _ _ new
    (holds.alloc fresh) member (fun r inside => unused r (Or.inr inside)) (store.label_alloc fresh)
    steady.few
  have tidy (before : store.Tidy outputs) : treed.Tidy (putBehind old new outputs) :=
    (before.alloc fresh).putBehind member cells
  obtain ⟨after,placedStore,added,placedOk,sameId,samePair,sameCut,keeps,size,labels,placedHolds,
      placedTidy,routed⟩ :=
    routes.place (treedKeeps.start.trans steady.start) (treedKeeps.stop.trans steady.stop) sound
      isSplit (steady.capable heavy) steady.routed treedHolds unused rfl
  have grown : placedStore.arena.size = store.arena.size + 1 := by
    rw [size,cells.size]
    exact store.size_alloc fresh
  have frame : ∀ id < store.arena.size,
      placedStore.arena.labelOf id = store.arena.labelOf id := by
    intro id known
    rw [labels id (Nat.ne_of_lt known),cells.labels id]
    exact (Arena.labelOf_alloc _ _ _).trans (if_neg (Nat.ne_of_lt known))
  refine ⟨⟨placedStore,after,a,splits + 1⟩,added,?_,?_,made added samePair sameCut,
    ⟨?_,?_,?_,steady.param,placedHolds,?_,Or.inl (steady.capable heavy),routed⟩,
    ⟨rfl,grown,frame,fun before => placedTidy (tidy before),
      .more (made added samePair sameCut) (.none _ _)⟩⟩
  · have first : (⟨width,start,stop,arena,list,tree⟩ : Store).alloc fresh =
      (new.id,store.withArena (store.arena.alloc fresh).2) := rfl
    simp only [Balancer.split,pair,Checked.ok_bind,first,inserted,placedOk,sameId,Checked.pure_ok]
  · rw [Record.q,samePair,freshQ]
  · exact keeps.width.trans (treedKeeps.width.trans steady.width)
  · exact keeps.start.trans (treedKeeps.start.trans steady.start)
  · exact keeps.stop.trans (treedKeeps.stop.trans steady.stop)
  · exact sound.split (made added samePair sameCut).toOffshoot

end Balancer

end BalancedMove
