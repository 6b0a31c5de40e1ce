import BalancedMove.Proofs.Balance.Alone

/-! Balancing a whole store with different routers. The confined router refuses every start outside the
range, so whatever it does any domestic router does as well, without a change of its own: each step of
one balancer follows the same step of the other. A whole store has no start to refuse, and so its
balancing depends on the router in nothing. -/
namespace BalancedMove

open Sequence Store

/-- Whatever the first computation answers, the second answers too, carried over. -/
def Follows {α β : Type} (carry : α → β) (first : Checked α) (second : Checked β) : Prop :=
  ∀ value, first = .ok value → second = .ok (carry value)

section Steps

variable {α β γ δ : Type} {carry : α → β} {onward : γ → δ}

theorem Follows.done (value : α) : Follows carry (pure value) (pure (carry value)) := by
  rintro _ ⟨⟩
  rfl

theorem Follows.failed {fault : Fault} {second : Checked β} :
    Follows carry (.error fault) second := by
  rintro _ ⟨⟩

theorem Follows.bind {first : Checked α} {second : Checked β} {next : α → Checked γ}
    {follow : β → Checked δ} (here : Follows carry first second)
    (later : ∀ value, Follows onward (next value) (follow (carry value))) :
    Follows onward (first >>= next) (second >>= follow) := by
  intro result ok
  obtain ⟨value,answer,rest⟩ := Checked.bind_success ok
  rw [here value answer]
  exact later value result rest

theorem Follows.same {step : Checked α} {next : α → Checked γ} {follow : α → Checked δ}
    (later : ∀ value, Follows onward (next value) (follow value)) :
    Follows onward (step >>= next) (step >>= follow) :=
  @Follows.bind α α γ δ id onward step step next follow (fun _ ok => ok) later

theorem Follows.branch {condition : Prop} [Decidable condition] {first other : Checked α}
    {second another : Checked β} (yes : Follows carry first second)
    (no : Follows carry other another) :
    Follows carry (if condition then first else other) (if condition then second else another) := by
  split
  · exact yes
  · exact no

end Steps

namespace Balancer

/-- The router that refuses the starts outside its range. -/
inductive Confined where
  | here

instance : InputRouter Confined where
  place router store new old := do
    let landed ← store.p new
    Checked.require (store.start ≤ landed ∧ landed < store.stop)
    let store ← store.insertAfter new old
    return (router,store,true)

theorem confined_domestic : Domestic Confined := by
  intro router store linked new old landed read range inserted
  simp [InputRouter.place,read,Checked.require,range,inserted]

theorem confined_place {router after : Confined} {store linked : Store} {new old : NodeId}
    {stayed : Bool} (ok : InputRouter.place router store new old = .ok (after,linked,stayed)) :
    ∃ landed, store.p new = .ok landed ∧ (store.start ≤ landed ∧ landed < store.stop) ∧
      store.insertAfter new old = .ok linked ∧ stayed = true := by
  obtain ⟨landed,read,ok⟩ := Checked.bind_success ok
  obtain ⟨_,required,ok⟩ := Checked.bind_success ok
  obtain ⟨_,inserted,ok⟩ := Checked.bind_success ok
  cases ok
  refine ⟨landed,read,?_,inserted,rfl⟩
  by_contra outside
  simp [Checked.require,outside] at required

def reroute {ρ σ : Type} (router : σ) (balancer : Balancer ρ) : Balancer σ where
  store := balancer.store
  router := router
  a := balancer.a
  splits := balancer.splits

section Simulation

variable {σ : Type} [InputRouter σ] (domestic : Domestic σ) (router : σ)

include domestic

theorem split_follows (balancer : Balancer Confined) (start old : NodeId) :
    Follows (Prod.map (reroute router) id) (balancer.split start old)
      ((balancer.reroute router).split start old) := by
  obtain ⟨store,own,a,splits⟩ := balancer
  refine .same fun pair => .same fun treed => ?_
  -- up to here the router was not asked; what the confined one answers, the other answers as well
  refine @Follows.bind _ _ _ _ (fun placed => (router,placed.2)) _ _ _ _ _ ?_ fun placed => .done _
  rintro ⟨after,linked,stayed⟩ ok
  obtain ⟨landed,read,range,inserted,rfl⟩ := confined_place ok
  exact domestic router _ _ _ _ landed read range inserted

theorem cascade_follows (swept counted : Nat) {fuel : Nat} (balancer : Balancer Confined)
    (first : Option NodeId) (start old : NodeId) (count : Nat) :
    Follows (Prod.map (reroute router) id) (cascade swept counted fuel balancer first start old count)
      (cascade swept counted fuel (balancer.reroute router) first start old count) := by
  induction fuel generalizing balancer first start old count with
  | zero => exact .failed
  | succ fuel ih =>
    refine .same fun low => .same fun high =>
      .bind (split_follows domestic router balancer start old) ?_
    rintro ⟨middle,new,stayed⟩
    cases stayed with
    | false => exact .done _
    | true =>
      refine .same fun landed => .branch (.done _) (.branch (.done _) (.same ?_))
      rintro (_ | ⟨start,old⟩)
      · exact .done _
      · exact ih middle _ start old count

theorem sweepFrom_follows {fuel : Nat} (balancer : Balancer Confined) (interval : NodeId)
    (tally : Tally) : Follows (reroute router) (sweepFrom fuel balancer interval tally)
      (sweepFrom fuel (balancer.reroute router) interval tally) := by
  induction fuel generalizing balancer interval tally with
  | zero => exact .failed
  | succ fuel ih =>
    refine .same fun stop => .same ?_
    rintro ⟨_ | start,tally⟩
    · refine .same ?_
      rintro (_ | ⟨next,first⟩)
      · exact .done _
      · exact ih balancer next _
    · refine .same fun swept => .same fun counted =>
        .bind (cascade_follows domestic router swept counted balancer none start interval _) ?_
      rintro ⟨middle,right,count⟩
      exact .same fun count => ih middle right _

theorem sweep_follows (balancer : Balancer Confined) :
    Follows (reroute router) balancer.sweep (balancer.reroute router).sweep := by
  refine .same ?_
  rintro (_ | ⟨interval,start⟩)
  · exact .done _
  · exact sweepFrom_follows domestic router balancer interval _

end Simulation

end Balancer

namespace Store

open Balancer

variable {store : Store} {inputs outputs : List Record} {a : Nat}

/-- The pass over a whole store makes the same of it for every domestic router. -/
theorem Whole.swept_alike (whole : store.Whole inputs outputs) (enough : 2 ≤ a)
    (few : Addressable inputs.length) : ∃ after number newInputs newOutputs,
      (∀ {ρ : Type} [InputRouter ρ], Domestic ρ → ∀ router : ρ,
        ({ store, router, a } : Balancer ρ).sweep = .ok ⟨after,router,a,number⟩) ∧
      after.Whole newInputs newOutputs ∧
      Splits a store.stop number inputs outputs newInputs newOutputs := by
  obtain ⟨swept,number,newInputs,newOutputs,ok,steady,progress,_⟩ :=
    sweep_balances (domestic_routes confined_domestic _) (whole.steady enough few Confined.here)
  refine ⟨swept.store,number,newInputs,newOutputs,?_,
    whole.balanced enough steady (progress.run.perm whole.same),progress.run⟩
  intro ρ _ domestic router
  have follow := sweep_follows domestic router _ swept ok
  have splits := progress.splits
  rw [Nat.zero_add] at splits
  have same : reroute router swept = ⟨swept.store,router,a,number⟩ := by
    rw [reroute,splits,steady.param]
    rfl
  exact follow.trans (congrArg Except.ok same)

end Store

end BalancedMove
