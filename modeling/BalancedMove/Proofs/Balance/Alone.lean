import BalancedMove.Construction
import BalancedMove.Proofs.Balance.Sweep
import BalancedMove.Proofs.MoveTable.OfStore

/-! Balancing a store of the whole domain. Every record is in both orders, so every start of a split
stays, and one pass leaves no interval heavy. A construction with one worker loads such a store, balances
it and encodes what is left. -/
namespace BalancedMove

open Sequence Store Balancer

/-- Nodes are named by 64-bit indices, one of which stands for no node. -/
def Addressable (nodes : Nat) : Prop := nodes < Width.w64.limit - 1

instance (nodes : Nat) : Decidable (Addressable nodes) :=
  inferInstanceAs (Decidable (nodes < Width.w64.limit - 1))

/-- With so few nodes, an interval is heavy only if it holds `2a` starts. -/
theorem Addressable.room {nodes : Nat} (few : Addressable nodes) (a : Nat) :
    2 * a ≤ heavyCount a ∨ nodes < heavyCount a := by
  unfold heavyCount Width.saturate
  unfold Addressable at few
  omega

theorem Addressable.records {pairs : List Pair} {inputs : List Record}
    (few : Addressable pairs.length) (given : inputs.map Record.pair = pairs) :
    Addressable inputs.length := by
  rw [← given,List.length_map] at few
  exact few

section Routers

variable {ρ : Type}

/-- Without foreign records every start stays. -/
def Complete (_ : ρ) (inputs outputs : List Record) : Prop := ∀ r ∈ outputs, r ∈ inputs

/-- A router that links every start of its own range where it is. -/
def Domestic (ρ : Type) [InputRouter ρ] : Prop :=
  ∀ (router : ρ) (store linked : Store) (new old : NodeId) (landed : Nat),
    store.p new = .ok landed → store.start ≤ landed ∧ landed < store.stop →
    store.insertAfter new old = .ok linked →
    InputRouter.place router store new old = .ok (router,linked,true)

theorem local_domestic : Domestic Local := by
  intro router store linked new old landed _ _ inserted
  simp [InputRouter.place,inserted]

theorem domestic_routes [InputRouter ρ] (domestic : Domestic ρ) (setting : Setting) :
    Routes setting (Complete : ρ → List Record → List Record → Prop) := by
  refine ⟨?_⟩
  intro router store inputs outputs old new start stop sound split _ complete holds unused _
  have member := complete old split.member
  have shown : new ∈ putBehind old new outputs := (mem_putBehind split.member).mpr (Or.inl rfl)
  obtain ⟨after,inserted,afterHolds,keeps,links⟩ := holds.insertAfter member
    (fun r listed => unused r (Or.inl listed)) (holds.labelled new (Or.inr shown))
  have place : placed old new inputs = putBehind old new inputs := if_pos member
  refine ⟨router,after,new,?_,rfl,rfl,rfl,keeps,links.size,fun id _ => links.labels id,?_,
    fun tidy => tidy.of_links links,?_⟩
  · have range := (sound.split split.toOffshoot).inputRange new (mem_placed.mpr (Or.inl ⟨member,rfl⟩))
    rw [← start,← stop] at range
    rw [decide_eq_true member]
    exact domestic router store after new.id old.id new.p (holds.p (Or.inr shown)) range inserted
  · rw [place]
    exact afterHolds
  · intro r present
    rcases (mem_putBehind split.member).mp present with rfl | before
    · exact mem_placed.mpr (Or.inl ⟨member,rfl⟩)
    · exact mem_placed.mpr (Or.inr (complete r before))

end Routers

namespace Store

variable {store : Store} {inputs outputs : List Record} {a : Nat}

def Whole.setting (whole : store.Whole inputs outputs) (enough : 2 ≤ a) : Setting where
  width := store.width
  n := store.stop
  start := 0
  stop := store.stop
  a := a
  small := whole.small
  inside := Nat.le_refl _
  enough := enough

theorem Whole.stands {ρ : Type} {balancer : Balancer ρ} (whole : balancer.store.Whole inputs outputs)
    (enough : 2 ≤ balancer.a) (few : Addressable inputs.length) :
    Steady (whole.setting enough) Complete balancer inputs outputs :=
  ⟨rfl,whole.origin,rfl,rfl,whole.holds,whole.sound,few.room balancer.a,
    fun _ shown => whole.same.mem_iff.mpr shown⟩

theorem Whole.steady {ρ : Type} (whole : store.Whole inputs outputs) (enough : 2 ≤ a)
    (few : Addressable inputs.length) (router : ρ) :
    Steady (whole.setting enough) Complete { store, router, a } inputs outputs :=
  @Whole.stands _ _ ρ { store, router, a } whole enough few

theorem Whole.balance_eq (whole : store.Whole inputs outputs) (enough : 2 ≤ a)
    (few : Addressable inputs.length) :
    ∃ after : Balancer Local, ∃ number newInputs newOutputs,
      store.balance a = .ok (after.store,{ splits := number }) ∧
      Steady (whole.setting enough) Complete after newInputs newOutputs ∧
      Progress (whole.setting enough) number { store, router := Local.here, a } after inputs outputs
        newInputs newOutputs ∧
      newInputs.Perm newOutputs ∧ Clear (whole.setting enough) store.stop newInputs newOutputs := by
  obtain ⟨after,number,newInputs,newOutputs,swept,steady,progress,clear⟩ :=
    sweep_balances (domestic_routes local_domestic _) (whole.steady enough few Local.here)
  refine ⟨after,number,newInputs,newOutputs,?_,steady,progress,progress.run.perm whole.same,clear⟩
  have splits : after.splits = number := by
    rw [progress.splits]
    exact Nat.zero_add _
  simp [Store.balance,start_eq enough,swept,splits]

theorem Whole.balanced {ρ : Type} (whole : store.Whole inputs outputs) (enough : 2 ≤ a)
    {after : Balancer ρ} {newInputs newOutputs : List Record}
    (steady : Steady (whole.setting enough) Complete after newInputs newOutputs)
    (same : newInputs.Perm newOutputs) : after.store.Whole newInputs newOutputs := by
  have sound : Sound store.stop 0 store.stop newInputs newOutputs := steady.sound
  have width : after.store.width = store.width := steady.width
  have stop : after.store.stop = store.stop := steady.stop
  refine ⟨steady.holds,same,Increasing.weaken sound.outputSorted,steady.start,?_,?_⟩
  · rw [width,stop]
    exact whole.small
  · rw [width,stop,validate_iff whole.small]
    exact sound.valid same

end Store

theorem parameters_alone {width : Width} {a n cores : Nat} {pairs : List Pair} (enough : 2 ≤ a)
    (machine : 0 < cores) (small : n < width.limit) (accepted : validate width n pairs = .ok ()) :
    ({ a, workers := 1 } : BalanceParameters).validate cores n = .ok () := by
  have positive := ((validate_iff small).mp accepted).positive
  have most : ¬ BalanceParameters.maxWorkers cores n < 1 := by
    unfold BalanceParameters.maxWorkers
    split <;> omega
  unfold BalanceParameters.validate
  rw [if_neg (Nat.not_lt.mpr enough),if_neg (by simp only [not_or]; exact ⟨by decide,most⟩)]

namespace Construction

structure Alone (construction : Construction) (enough : 2 ≤ construction.parameters.a) where
  store : Store
  inputs : List Record
  outputs : List Record
  after : Balancer Local
  number : Nat
  newInputs : List Record
  newOutputs : List Record
  table : MoveTable
  loaded : Store.load construction.width construction.n construction.pairs = .ok store
  whole : store.Whole inputs outputs
  stop : store.stop = construction.n
  given : inputs.map Record.pair = construction.pairs
  few : Addressable inputs.length
  balanced : store.balance construction.parameters.a = .ok (after.store,{ splits := number })
  steady : Steady (whole.setting enough) Complete after newInputs newOutputs
  progress : Progress (whole.setting enough) number { store, router := Local.here, a :=
    construction.parameters.a } after inputs outputs newInputs newOutputs
  same : newInputs.Perm newOutputs
  clear : Clear (whole.setting enough) store.stop newInputs newOutputs
  encoded : MoveTable.ofStore after.store = .ok table
  small : construction.n < table.width.limit
  encodes : table.Encodes construction.n (newInputs.map Record.pair)
  built : construction.balanceAlone = .ok (table,{ splits := number })

variable {construction : Construction} {enough : 2 ≤ construction.parameters.a}

theorem exists_alone (small : construction.n < construction.width.limit)
    (few : Addressable construction.pairs.length) (enough : 2 ≤ construction.parameters.a)
    (accepted : validate construction.width construction.n construction.pairs = .ok ()) :
    Nonempty (construction.Alone enough) := by
  obtain ⟨store,inputs,outputs,loaded,whole,width,stop,given⟩ := load_whole small accepted
  have length := few.records given
  obtain ⟨after,number,newInputs,newOutputs,balanced,steady,progress,same,clear⟩ :=
    whole.balance_eq enough length
  obtain ⟨table,encoded,tableWidth,encodes⟩ :=
    MoveTable.ofStore_encodes (whole.balanced enough steady same)
  have newStop : after.store.stop = construction.n := steady.stop.trans stop
  have newWidth : after.store.width = construction.width := steady.width.trans width
  rw [newStop] at encodes
  refine ⟨⟨store,inputs,outputs,after,number,newInputs,newOutputs,table,loaded,whole,stop,given,length,
    balanced,steady,progress,same,clear,encoded,?_,encodes,?_⟩⟩
  · rw [tableWidth,newWidth]
    exact small
  · simp [balanceAlone,loaded,balanced,encoded]

theorem buildCounted_alone {cores : Nat} (single : construction.parameters.workers = 1)
    (accepted : validate construction.width construction.n construction.pairs = .ok ())
    (fine : construction.parameters.validate cores construction.n = .ok ()) :
    construction.buildCounted cores = construction.balanceAlone := by
  rw [buildCounted,accepted,Checked.ok_bind,fine,Checked.ok_bind,if_pos single]

theorem Alone.valid (alone : construction.Alone enough) :
    Valid construction.n (alone.newInputs.map Record.pair) := by
  rw [← alone.stop]
  exact alone.steady.sound.valid alone.same

end Construction

end BalancedMove
