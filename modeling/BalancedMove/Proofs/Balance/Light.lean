import BalancedMove.Proofs.Balance.Bound

/-! Balancing where there is nothing to balance. A pass that meets no heavy interval gives back the store
as it was, so balancing splits exactly the stores that have a heavy interval, and a balanced store stays
as it is under any bound that is not tighter. -/
namespace BalancedMove

open Sequence Store Balancer

namespace Balancer

variable {ρ : Type} [InputRouter ρ] {balancer : Balancer ρ} {n start : Nat}
variable {inputs outputs : List Record}

section Pass

variable (holds : balancer.store.Holds inputs outputs)
variable (sound : Sound n start balancer.store.stop inputs outputs)
variable (light : ∀ r ∈ outputs, startsIn balancer.store.stop inputs outputs r < heavyCount balancer.a)

include holds sound light

theorem sweepFrom_light {fuel : Nat} {interval last : Record} (shown : interval ∈ outputs)
    (listed : last ∈ inputs) (low : interval.q ≤ last.p)
    (high : last.p < endOf Record.q balancer.store.stop outputs interval)
    (enough : balancer.store.stop ≤ interval.q + fuel) :
    sweepFrom fuel balancer interval.id (tallyAt inputs interval.q last) = .ok balancer := by
  induction fuel generalizing interval last with
  | zero => exact absurd (sound.outputBelow interval shown) (by omega)
  | succ fuel ih =>
    have stop := holds.outputEnd shown
    obtain ⟨seen,seenMember,point,_,seenInside,_⟩ :=
      splitPoint_light holds.lists sound.inputSorted listed low high (light interval shown)
    rcases nextOccupied_finds holds sound shown seenMember seenInside with
      ⟨none,_⟩ | ⟨found,first,answer,occupied,behind,_⟩
    · simp [sweepFrom,stop,point,none]
    · have rest := ih occupied.shown occupied.listed occupied.low occupied.high (by omega)
      rw [← occupied.tally] at rest
      simp [sweepFrom,stop,point,answer,rest]

theorem sweep_light (enough : balancer.store.stop ≤ balancer.splitFuel) :
    balancer.sweep = .ok balancer := by
  rcases firstOccupied_finds holds sound with ⟨none,_⟩ | ⟨found,first,answer,occupied,_⟩
  · simp [sweep,none]
  · have pass := sweepFrom_light holds sound light occupied.shown occupied.listed occupied.low
      occupied.high (Nat.le_trans enough (Nat.le_add_left _ _))
    rw [← occupied.tally] at pass
    simpa [sweep,answer] using pass

end Pass

end Balancer

namespace Store

variable {store : Store} {inputs outputs newInputs newOutputs : List Record} {a b number stop : Nat}

theorem heavyCount_mono (order : a ≤ b) : heavyCount a ≤ heavyCount b := by
  unfold heavyCount Width.saturate
  omega

theorem Whole.balance_light (whole : store.Whole inputs outputs) (enough : 2 ≤ a)
    (light : ∀ r ∈ outputs, startsIn store.stop inputs outputs r < heavyCount a) :
    store.balance a = .ok (store,{}) := by
  have small := whole.small
  have fuel : store.stop ≤ ({ store, router := Local.here, a } : Balancer Local).splitFuel := by
    unfold splitFuel
    dsimp only
    omega
  have swept := @sweep_light Local _ { store, router := Local.here, a } _ _ _ _ whole.holds whole.sound
    light fuel
  simp [Store.balance,start_eq enough,swept]

section Runs

variable (run : Splits a stop number inputs outputs newInputs newOutputs)

include run

theorem Splits.unchanged (none : number = 0) : newInputs = inputs ∧ newOutputs = outputs := by
  subst none
  cases run
  exact ⟨rfl,rfl⟩

variable (bound : ∀ r ∈ newOutputs, startsIn stop newInputs newOutputs r < 2 * a)

include bound

theorem Splits.none_iff (positive : 0 < a) :
    number = 0 ↔ ∀ r ∈ outputs, startsIn stop inputs outputs r ≤ 2 * a - 1 := by
  constructor
  · intro none r shown
    obtain ⟨rfl,rfl⟩ := run.unchanged none
    exact Nat.le_sub_one_of_lt (bound r shown)
  · intro light
    refine run.none_of_light fun r shown => ?_
    have own := light r shown
    omega

theorem Splits.settled (positive : 0 < a) (few : Addressable inputs.length) :
    ∀ r ∈ newOutputs, startsIn stop newInputs newOutputs r < heavyCount a := by
  intro r shown
  rcases few.room a with exact | room
  · exact Nat.lt_of_lt_of_le (bound r shown) exact
  · -- the store has not enough starts for a single split
    have none : number = 0 := (run.none_iff bound positive).mpr fun s _ => by
      have within : startsIn stop inputs outputs s ≤ inputs.length := startsIn_le
      have most := heavyCount_le a
      omega
    obtain ⟨rfl,rfl⟩ := run.unchanged none
    exact Nat.lt_of_le_of_lt startsIn_le room

end Runs

end Store

/-- Balancing splits exactly where an interval is heavy; otherwise it changes nothing, and least of all
a store that has been balanced before. -/
theorem balance_idempotent {store : Store} {inputs outputs : List Record} {a : Nat}
    (whole : store.Whole inputs outputs) (few : Addressable inputs.length) (enough : 2 ≤ a) :
    ∃ after counts, store.balance a = .ok (after,counts) ∧
      (counts.splits = 0 ↔ ∀ r ∈ outputs, startsIn store.stop inputs outputs r ≤ 2 * a - 1) ∧
      (counts.splits = 0 → after = store) ∧
      ∀ b, a ≤ b → after.balance b = .ok (after,{}) := by
  obtain ⟨after,number,newInputs,newOutputs,balanced,steady,progress,same,clear⟩ :=
    whole.balance_eq enough few
  have newWhole := whole.balanced enough steady same
  have run : Splits a store.stop number inputs outputs newInputs newOutputs := progress.run
  have bound : ∀ r ∈ newOutputs, startsIn store.stop newInputs newOutputs r < 2 * a :=
    fun r shown => (clear r shown (steady.sound.outputBelow r shown)).1
  have settled := run.settled bound (by omega) few
  refine ⟨after.store,_,balanced,run.none_iff bound (by omega),?_,?_⟩
  · intro none
    obtain ⟨rfl,rfl⟩ := run.unchanged none
    have still := whole.balance_light enough settled
    rw [balanced] at still
    exact congrArg Prod.fst (Except.ok.inj still)
  · intro b order
    refine newWhole.balance_light (Nat.le_trans enough order) fun r shown => ?_
    have stop : after.store.stop = store.stop := steady.stop
    rw [stop]
    exact Nat.lt_of_lt_of_le (settled r shown) (heavyCount_mono order)

/-- The comb has a heavy interval, and no longer once it is balanced. -/
theorem comb_balance_idempotent :
    ∃ store outputs after counts, Store.load .w8 8 comb = .ok store ∧
      store.Whole (numbered 0 comb) outputs ∧ store.balance 2 = .ok (after,counts) ∧
      (counts.splits = 0 ↔
        ∀ r ∈ outputs, startsIn store.stop (numbered 0 comb) outputs r ≤ 3) ∧
      (counts.splits = 0 → after = store) ∧ ∀ b, 2 ≤ b → after.balance b = .ok (after,{}) := by
  obtain ⟨store,outputs,loaded,whole,_⟩ := load_numbered (by decide) comb_accepted
  have few : Addressable (numbered 0 comb).length := by decide
  obtain ⟨after,counts,facts⟩ := balance_idempotent whole few (Nat.le_refl 2)
  exact ⟨store,outputs,after,counts,loaded,whole,facts⟩

end BalancedMove
