import BalancedMove.Proofs.Arena.OrderStatistics

/-! Heights of trees. A balanced tree with a given height has at least as many nodes as the Fibonacci
numbers say, so that any tree over nodes with ids of a machine word is low enough for the byte in
which heights are stored. No height is larger at any time, not even between two steps of an
insertion: all operations run alike with a byte that refuses what it cannot hold. -/
namespace BalancedMove

/-- The links of a tree over these ids reach down as far as its root tells, and no farther than the
Fibonacci numbers and the field of a node allow. -/
structure AvlTree.Rises (tree : AvlTree) (arena : Arena) (ids : List NodeId) (height : Nat) : Prop where
  linked : ∃ shape : Shape, tree.root = shape.root? ∧ arena.Hung none shape ∧ shape.ids = ids ∧
    shape.height = height
  told : arena.heightAt tree.root = .ok height
  many : Nat.fib (height + 2) ≤ ids.length + 1
  fits : height < Width.w8.limit

theorem AvlTree.Holds.rises {tree : AvlTree} {arena : Arena} {ids : List NodeId}
    (holds : tree.Holds arena ids) (few : ids.length ≤ Width.w128.limit) :
    ∃ height, tree.Rises arena ids height := by
  obtain ⟨shape,root,hung,balanced,rfl,_⟩ := holds
  rw [Shape.length_ids] at few
  have limit : Width.w8.limit = 256 := rfl
  have low := balanced.height_le few
  refine ⟨shape.height,⟨shape,root,hung,rfl,rfl⟩,?_,?_,by omega⟩
  · rw [root,hung.heightAt]
  · rw [Shape.length_ids]
    exact balanced.fib_le

namespace SharedTrees

variable {ι : Type}

theorem rebuild_least [DecidableEq ι] {shared : SharedTrees ι} (target : ι) {ids : List NodeId}
    (occupied : ids ≠ []) (distinct : ids.Nodup) (inside : ∀ id ∈ ids, id < shared.arena.size)
    (few : ids.length ≤ Width.w128.limit) :
    ∃ fresh, shared.apply target (.ofSorted ids) = .ok fresh ∧
      (fresh.trees target).Rises fresh.arena ids (Nat.log 2 ids.length + 1) ∧
      ∀ shape : Shape, shape.size = ids.length → Nat.log 2 ids.length + 1 ≤ shape.height := by
  have least := levels_eq_log (List.length_pos_iff.mpr occupied)
  obtain ⟨tree,arena,uncut,holds,told,_⟩ := AvlTree.ofSortedWith_holds distinct inside few
  have built : TreeOperation.run (shared.trees target) shared.arena (.ofSorted ids) = .ok (tree,arena) :=
    uncut.byte
  obtain ⟨height,rises⟩ := holds.rises few
  obtain rfl : height = Nat.log 2 ids.length + 1 :=
    (Except.ok.inj (rises.told.symm.trans told)).trans least
  refine ⟨⟨arena,Function.update shared.trees target tree⟩,?_,?_,fun shape size => ?_⟩
  · rw [TreeOperation.run] at built
    rw [apply,applyWith,built]
    rfl
  · simpa only [Function.update_self] using rises
  · rw [← least,← size]
    exact levels_le_height shape

/-- After any log of admitted operations the height `h` of every tree of `m` nodes satisfies
`fib (h + 2) ≤ m + 1` and fits into its byte. The same log runs to the same end if a byte refuses every
height that it cannot hold. A tree built next from sorted ids has the least height. Ids are machine
words, so no arena is larger than said. -/
theorem heights_follow [DecidableEq ι] (pairs : List Pair) (small : pairs.length ≤ Width.w128.limit)
    (log : List (ι × TreeOperation))
    (admits : TreeOperation.Admits pairs.length (Arena.ofPairs pairs).key (fun _ => []) log) :
    let shown := TreeOperation.replay (Arena.ofPairs pairs).key (fun _ => []) log
    ∃ after, (unplanted pairs).run log = .ok after ∧
      (unplanted pairs).runWith Width.w8.fit log = .ok after ∧
      (∀ t, ∃ height, (after.trees t).Rises after.arena (shown t) height) ∧
      ∀ target ids, ids ≠ [] →
        (TreeOperation.ofSorted ids).Admitted pairs.length (Arena.ofPairs pairs).key shown target →
        ∃ fresh, after.apply target (.ofSorted ids) = .ok fresh ∧
          (fresh.trees target).Rises fresh.arena ids (Nat.log 2 ids.length + 1) ∧
          ∀ shape : Shape, shape.size = ids.length → Nat.log 2 ids.length + 1 ≤ shape.height := by
  intro shown
  have size := Arena.size_ofPairs pairs
  obtain ⟨after,uncut,shows,same⟩ :=
    (@shows_nothing ι (Arena.ofPairs pairs)).runWith_log (size.symm ▸ small) log (size.symm ▸ admits)
  have final : after.arena.size = pairs.length := same.trans size
  refine ⟨after,uncut.byte,uncut _ HeightField.roomy_fit,
    fun t => ?_,fun target ids occupied admitted => ?_⟩
  · have short := (shows.trees t).length_le
    exact (shows.trees t).rises (by omega)
  · obtain ⟨distinct,_,inside,_⟩ := admitted
    exact rebuild_least target occupied distinct (final ▸ inside)
      (Nat.le_trans (length_le_of_nodup distinct inside) small)

/-- One tree grows by keys and hints until it rotates, and the other one is built anew. -/
theorem two_trees_heights :
    let pairs : List Pair := [⟨0,5⟩,⟨1,3⟩,⟨2,5⟩,⟨3,9⟩,⟨4,5⟩,⟨5,5⟩,⟨6,2⟩,⟨7,7⟩]
    let log : List (Fin 2 × TreeOperation) := [(0,.insert 0),(0,.insert 2),(0,.insert 4),
      (0,.insertBehind 5 0),(1,.ofSorted [6,1]),(1,.insertBehind 7 1)]
    let shown := TreeOperation.replay (Arena.ofPairs pairs).key (fun _ => []) log
    pairs.length ≤ Width.w128.limit ∧
      TreeOperation.Admits pairs.length (Arena.ofPairs pairs).key (fun _ => []) log ∧
      (TreeOperation.ofSorted [6,1,7,3]).Admitted pairs.length (Arena.ofPairs pairs).key shown 1 ∧
      ∃ after, (unplanted pairs).run log = .ok after ∧
        (unplanted pairs).runWith Width.w8.fit log = .ok after ∧
        (∀ t, ∃ height, (after.trees t).Rises after.arena (shown t) height) ∧
        ∃ fresh, after.apply 1 (.ofSorted [6,1,7,3]) = .ok fresh ∧
          (fresh.trees 1).Rises fresh.arena [6,1,7,3] 3 ∧
          ∀ shape : Shape, shape.size = 4 → 3 ≤ shape.height := by
  intro pairs log shown
  have small : pairs.length ≤ Width.w128.limit := by decide
  have admits : TreeOperation.Admits pairs.length (Arena.ofPairs pairs).key (fun _ => []) log := by decide
  have admitted : (TreeOperation.ofSorted [6,1,7,3]).Admitted pairs.length (Arena.ofPairs pairs).key
      shown 1 := by decide
  obtain ⟨after,ran,fitted,rise,least⟩ := heights_follow pairs small log admits
  exact ⟨small,admits,admitted,after,ran,fitted,rise,least 1 _ (by simp) admitted⟩

end SharedTrees

end BalancedMove
