import BalancedMove.MoveTable.OfStores
import BalancedMove.Proofs.MoveTable.OfPairs
import BalancedMove.Proofs.Parallel.Balance
import BalancedMove.Proofs.Parallel.Joining

/-! The bound for several workers. When the run ends every store is light by its own list; an output
interval lies in one range, and so do the starts in it, so the lists of all stores are light together.
Joining keeps them light. -/
namespace BalancedMove

open Sequence Store Balancer

section Lists

variable {layout : Layout} {told heard : Nat → Nat → List Pair} {base : Nat → Nat}
variable {workers : List Worker} {inputs outputs : Nat → List Record}

theorem Finished.light (finished : Finished layout told heard base workers inputs outputs)
    (permutes : Permutes layout) : ∀ u ∈ allInputs layout inputs,
      u.degree layout.n (allInputs layout inputs) < 2 * layout.a := by
  intro u member
  have agreeing := finished.agreeing
  obtain ⟨t,inside,r,shown,rfl⟩ := mem_allInputs.mp (agreeing.mem_iff.mpr member)
  have sound := agreeing.sound t inside
  have ends := sound.outputIsEnd shown
  have length := agreeing.lengths permutes member (agreeing.outputEnd inside shown)
    (sound.within r shown) ((agreeing.moves t inside).image r shown)
  have counted := agreeing.inputChain.count_eq inside (sound.outputRange r shown).1 ends.inside
  have light := (finished.clear t inside r shown (sound.outputBelow r shown)).1
  rw [Pair.degree,length]
  rw [count_pairs] at counted
  exact counted ▸ light

theorem storePieces_eq {store : Store} {inputs outputs : List Record}
    (holds : store.Holds inputs outputs) : Parallel.storePieces store =
      .ok (inputs.map fun r => { pair := r.pair, cut := r.cut }) := by
  rw [Parallel.storePieces,holds.inputIds,Checked.ok_bind,List.mapM_map]
  refine Checked.mapM_ok fun r member => ?_
  obtain ⟨node,read,pair,_,cut⟩ := holds.node (Or.inl member)
  simp [read,pair,cut]

def allPieces (layout : Layout) (inputs : Nat → List Record) : List Piece :=
  joined layout fun t => (inputs t).map fun r => { pair := r.pair, cut := r.cut }

theorem mem_allPieces {piece : Piece} : piece ∈ allPieces layout inputs ↔
    ∃ t < layout.workers, piece ∈ (inputs t).map fun r => { pair := r.pair, cut := r.cut } := mem_joined

theorem map_pair_allPieces : (allPieces layout inputs).map Piece.pair = allInputs layout inputs := by
  simp [allPieces,allInputs,joined,List.map_flatMap,Function.comp_def]

theorem Finished.joinedPieces (finished : Finished layout told heard base workers inputs outputs)
    (positive : 0 < layout.workers) : ∃ last,
      (workers.map (·.balancer.store)).getLast? = some last ∧ last.width = layout.width ∧
      last.stop = layout.n ∧ ∀ a, Parallel.joinedPairs (workers.map (·.balancer.store)) a =
        joinPieces layout.width layout.n a (allPieces layout inputs) := by
  have inside : layout.workers - 1 < layout.workers := by omega
  obtain ⟨worker,place,_⟩ := finished.worker inside
  have isLast : (workers.map (·.balancer.store)).getLast? = some worker.balancer.store := by
    rw [List.getLast?_eq_getElem?,List.length_map,finished.length,List.getElem?_map,place]
    rfl
  have there : (workers.map (·.balancer.store))[layout.workers - 1]? = some worker.balancer.store := by
    rw [List.getElem?_map,place]
    rfl
  obtain ⟨_,stop,_,width,_⟩ := finished.store there
  have reaches : layout.workers - 1 + 1 = layout.workers := by omega
  rw [reaches,layout.last] at stop
  have read := @mapM_range _ _ _ Parallel.storePieces (workers.map (·.balancer.store))
    (fun t => (inputs t).map fun r => { pair := r.pair, cut := r.cut }) fun t store known => by
      obtain ⟨_,_,_,_,holds,_⟩ := finished.store known
      exact storePieces_eq holds
  rw [List.length_map,finished.length] at read
  refine ⟨_,isLast,width,stop,fun a => ?_⟩
  rw [Parallel.joinedPairs,isLast]
  simp only [read,Checked.ok_bind,width,stop]
  rw [← List.flatMap_def]
  rfl

theorem Finished.joinedPairs (finished : Finished layout told heard base workers inputs outputs)
    (positive : 0 < layout.workers) (a : Nat) : ∃ last pieces,
      (workers.map (·.balancer.store)).getLast? = some last ∧ last.width = layout.width ∧
      last.stop = layout.n ∧ pieces.map Piece.pair = allInputs layout inputs ∧
      Parallel.joinedPairs (workers.map (·.balancer.store)) a =
        joinPieces layout.width layout.n a pieces := by
  obtain ⟨last,isLast,width,stop,joinedAre⟩ := finished.joinedPieces positive
  exact ⟨last,_,isLast,width,stop,map_pair_allPieces,joinedAre a⟩

end Lists

section Runs

variable {width : Width} {n a workers : Nat} {pairs : List Pair}

/-- Balancing with several workers leaves less than `2a` input starts in every output interval, also
when the cuts at the ends of the ranges are undone. -/
theorem balance_joined_bounded (small : n < width.limit) (enough : 2 ≤ a) (positive : 0 < workers)
    (most : workers ≤ n) (fits : n * workers < Width.w128.limit) (few : Storable pairs.length)
    (accepted : validate width n pairs = .ok ()) :
    ∃ stores counts table, Parallel.balance width n pairs { a, workers } = .ok (stores,counts) ∧
      MoveTable.ofStores stores a = .ok table ∧
      ∀ j < table.size, ∃ degree, table.inDegree j = .ok degree ∧ degree ≤ 2 * a - 1 := by
  obtain ⟨together⟩ := exists_together small enough positive most fits few accepted
  have finished := together.finished
  have permutes := permutes_image together.valid fun _ _ => rfl
  obtain ⟨final,pieces,isLast,finalWidth,stop,listed,joinedAre⟩ := finished.joinedPairs positive a
  have all := finished.agreeing.valid permutes positive
  have light := finished.light permutes
  rw [← listed] at all light
  obtain ⟨kept,joins,_,keptValid,keptLight⟩ := joinPieces_light small all light
  obtain ⟨table,encoded,tableWidth,encodes⟩ := MoveTable.ofPairs_encodes keptValid small
  refine ⟨_,_,table,together.balanced,?_,?_⟩
  · rw [MoveTable.ofStores,isLast]
    have joinedOk := joinedAre.trans joins
    simp only [joinedOk,lift_ok,Checked.ok_bind,finalWidth,stop]
    exact encoded
  · refine encodes.inDegree_le keptValid (tableWidth ▸ small) fun v member => ?_
    have degree := keptLight v member
    exact Nat.le_sub_one_of_lt degree

theorem comb_balance_joined_bounded : ∃ stores counts table,
    Parallel.balance .w8 8 comb { a := 2, workers := 2 } = .ok (stores,counts) ∧
      MoveTable.ofStores stores 2 = .ok table ∧
      ∀ j < table.size, ∃ degree, table.inDegree j = .ok degree ∧ degree ≤ 3 :=
  balance_joined_bounded (by decide) (by decide) (by decide) (by decide) (by decide)
    (by decide) comb_accepted

end Runs

end BalancedMove
