import BalancedMove.Proofs.Parallel.Preservation

/-! How far the stores of several workers grow. A worker splits on the starts that it knows of, so each
of its splits is backed by starts in its own list. No start is in two lists, so what the workers have
paid adds up to what one worker would have paid for as many splits. -/
namespace BalancedMove

open Sequence Store Balancer

section Runs

variable {layout : Layout} {pairs : List Pair}

theorem Together.grows (together : Together layout pairs) :
    let splits := (BalanceCounts.total (together.team.map Worker.counts)).splits
    let cut := (layout.pieces pairs).length
    (splits = 0 ∨ splits * (layout.a - 1) + layout.a ≤ cut) ∧ cut + splits ≤ 2 * cut := by
  have paid := together.finished.crew.paid
  rw [together.finished.total_gained,together.length_inputs,← together.splits_eq] at paid
  exact splits_le layout.enough paid

variable {width : Width} {n a workers : Nat}

/-- The workers split so seldom that they never double the number of intervals that they share out, of
which there are hardly more than there were at first. -/
theorem balance_joined_grows (small : n < width.limit) (enough : 2 ≤ a)
    (few : Storable pairs.length) (accepted : validate width n pairs = .ok ())
    (divisible : Divisible n workers) :
    ∃ bounds cut stores counts table, rangeBounds n workers = .ok bounds ∧
      cutAtBounds width n bounds.toArray pairs = .ok cut ∧
      cut.length ≤ pairs.length + 2 * (workers - 1) ∧
      Parallel.balance width n pairs { a, workers } = .ok (stores,counts) ∧
      (counts.splits = 0 ∨ counts.splits * (a - 1) + a ≤ cut.length) ∧
      MoveTable.ofStores stores a = .ok table ∧ pairs.length ≤ table.size ∧
      table.size ≤ cut.length + counts.splits ∧ cut.length + counts.splits ≤ 2 * cut.length := by
  obtain ⟨together⟩ := exists_together small enough divisible.positive divisible.most
    divisible.fits few accepted
  obtain ⟨bounds,ranges,shared⟩ := pieces_divide small enough divisible.positive divisible.most
    divisible.fits accepted
  obtain ⟨kept,table,tabulated⟩ := together.tabulated divisible.positive (fun x _ => rfl) a
  obtain ⟨bound,double⟩ := together.grows
  have size := tabulated.encodes.size
  have most : kept.length ≤ _ :=
    (List.subperm_of_subset tabulated.valid.sorted.nodup tabulated.refines.kept).length_le
  rw [together.length_inputs,← size] at most
  refine ⟨bounds,_,_,_,table,ranges,cutAtBounds_eq shared,?_,together.balanced,?_,tabulated.encoded,
    ?_,?_,?_⟩
  · rw [List.length_map]
    exact length_pieces_le together.valid
  · rw [List.length_map]
    exact bound
  · rw [size]
    exact tabulated.sublist.length_le
  · rw [List.length_map]
    exact most
  · rw [List.length_map]
    exact double

theorem comb_balance_joined_grows :
    ∃ bounds cut stores counts table, rangeBounds 8 3 = .ok bounds ∧
      cutAtBounds .w8 8 bounds.toArray comb = .ok cut ∧ cut.length ≤ 9 ∧
      Parallel.balance .w8 8 comb { a := 2, workers := 3 } = .ok (stores,counts) ∧
      (counts.splits = 0 ∨ counts.splits * 1 + 2 ≤ cut.length) ∧
      MoveTable.ofStores stores 2 = .ok table ∧ 5 ≤ table.size ∧
      table.size ≤ cut.length + counts.splits ∧ cut.length + counts.splits ≤ 2 * cut.length :=
  balance_joined_grows (by decide) (by decide) (by decide) comb_accepted
    ⟨by decide,by decide,by decide⟩

end Runs

end BalancedMove
