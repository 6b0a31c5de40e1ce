import BalancedMove.Proofs.Arena.Insert
import Mathlib.Data.Nat.Log

/-! Trees built from sorted ids. Taking the middle id as the root at every step gives a tree whose
height depends on the number of ids alone, and it is as low as any tree of that many nodes. -/
namespace BalancedMove

/-- Height of the lowest binary tree with this many nodes. -/
def levels (count : Nat) : Nat := if count = 0 then 0 else 1 + levels (count / 2)
termination_by count

theorem levels_zero : levels 0 = 0 := by simp [levels]

theorem levels_step {count : Nat} (positive : 0 < count) : levels count = 1 + levels (count / 2) := by
  rw [levels,if_neg (by omega)]

theorem levels_mono {few many : Nat} (le : few ≤ many) : levels few ≤ levels many := by
  induction many using Nat.strongRecOn generalizing few with
  | ind many ih =>
    rcases Nat.eq_zero_or_pos few with rfl | positive
    · rw [levels_zero]
      exact Nat.zero_le _
    · rw [levels_step positive,levels_step (show 0 < many by omega)]
      exact Nat.add_le_add_left (ih (many / 2) (by omega) (by omega)) 1

theorem levels_le_pred {count : Nat} (positive : 0 < count) :
    levels count ≤ levels (count - 1) + 1 := by
  rw [levels_step positive]
  have lower := levels_mono (show count / 2 ≤ count - 1 by omega)
  omega

theorem levels_eq_log {count : Nat} (positive : 0 < count) : levels count = Nat.log 2 count + 1 := by
  induction count using Nat.strongRecOn with
  | ind count ih =>
    rw [levels_step positive]
    rcases Nat.lt_or_ge count 2 with single | many
    · obtain rfl : count = 1 := by omega
      rw [levels_zero,Nat.log_one_right]
    · rw [ih (count / 2) (by omega) (by omega),Nat.log_of_one_lt_of_le Nat.one_lt_two many]
      exact Nat.add_comm _ _

/-- One of the two subtrees of a node has at least half of the other nodes. -/
theorem levels_le_height (shape : Shape) : levels shape.size ≤ shape.height := by
  induction shape with
  | leaf => exact Nat.le_of_eq levels_zero
  | node left id right leftLow rightLow =>
    have half := levels_mono
      (show (1 + left.size + right.size) / 2 ≤ max left.size right.size by omega)
    have parts : levels (max left.size right.size) = max (levels left.size) (levels right.size) :=
      Monotone.map_max fun _ _ => levels_mono
    simp only [Shape.size,Shape.height]
    rw [levels_step (by omega)]
    omega

theorem levels_middle {front behind : Nat} (middle : front = (front + (behind + 1)) / 2) :
    levels behind ≤ levels front ∧ levels front ≤ levels behind + 1 ∧
      levels (front + (behind + 1)) = 1 + levels front := by
  refine ⟨levels_mono (by omega),?_,?_⟩
  · rcases Nat.eq_zero_or_pos front with rfl | positive
    · exact Nat.le_succ_of_le (levels_mono (Nat.zero_le _))
    · exact Nat.le_trans (levels_le_pred positive)
        (Nat.add_le_add_right (levels_mono (by omega)) 1)
  · rw [levels_step (by omega),← middle]

namespace AvlTree

open Shape

theorem eq_middle {ids : List NodeId} (occupied : ids ≠ []) :
    ∃ front id behind, ids = front ++ id :: behind ∧ front.length = ids.length / 2 := by
  have positive := List.length_pos_iff.mpr occupied
  have bound : ids.length / 2 < ids.length := by omega
  refine ⟨ids.take (ids.length / 2),ids[ids.length / 2],ids.drop (ids.length / 2 + 1),?_,?_⟩
  · rw [List.getElem_cons_drop,List.take_append_drop]
  · rw [List.length_take]
    omega

theorem linkWith_middle {field : HeightField} {arena : Arena} {parent : Option NodeId}
    {front behind : List NodeId} {id : NodeId}
    (middle : front.length = (front ++ id :: behind).length / 2) :
    link field arena parent (front ++ id :: behind) = (do
      let arena ← arena.modify id fun node => { node with parent := parent }
      let (arena,left) ← link field arena (some id) front
      let arena ← arena.modify id fun node => node.setChild .left left
      let (arena,right) ← link field arena (some id) behind
      let arena ← arena.modify id fun node => node.setChild .right right
      let arena ← arena.measure field id
      return (arena,some id)) := by
  rw [link,← middle,List.take_left]
  split
  next none => simp at none
  next other rest found =>
    rw [List.drop_left,List.cons.injEq] at found
    obtain ⟨rfl,rfl⟩ := found
    rfl

theorem between_hung {arena second fourth : Arena} {parent : Option NodeId} {left right : Shape}
    {id : NodeId} (inside : id < arena.size) (distinct : (left.ids ++ id :: right.ids).Nodup)
    (leftOnly : Arena.CellsOnly (· ∈ left.ids)
      (arena.put id fun node => { node with parent := parent }) second)
    (rightOnly : Arena.CellsOnly (· ∈ right.ids)
      (second.put id fun node => node.setChild .left left.root?) fourth)
    (leftHung : second.Hung (some id) left) (rightHung : fourth.Hung (some id) right)
    (leftLow : left.height ≤ 240) (rightLow : right.height ≤ 240) :
    ∃ result, Uncut (fun field =>
        (fourth.put id fun node => node.setChild .right right.root?).measure field id) result ∧
      result.Hung parent (.node left id right) ∧
      Arena.CellsOnly (· ∈ left.ids ++ id :: right.ids) arena result := by
  obtain ⟨_,rear,apart⟩ := List.nodup_append.mp distinct
  have notLeft : id ∉ left.ids := fun member => apart id member id (by simp) rfl
  have notRight : id ∉ right.ids := (List.nodup_cons.mp rear).1
  have leftSet := Arena.put_setChild_only second id .left left.root?
  have rightSet := Arena.put_setChild_only fourth id .right right.root?
  have known : arena.cellOf id = some arena.nodes[id].cell := by
    rw [Arena.cellOf,Array.getElem?_eq_getElem inside]
    rfl
  -- of all these writes three are to the node itself: its parent and its two children
  have cell : (fourth.put id fun node => node.setChild .right right.root?).cellOf id =
      some (.facing .left parent left.root? right.root? arena.nodes[id].cell.height
        arena.nodes[id].cell.size) := by
    rw [Arena.cellOf_put_setChild,if_pos rfl,rightOnly.cells id notRight,Arena.cellOf_put_setChild,
      if_pos rfl,leftOnly.cells id notLeft,Arena.cellOf_put_parent,if_pos rfl,known]
    rfl
  have leftFinal : (fourth.put id fun node => node.setChild .right right.root?).Hung (some id) left := by
    apply leftHung.congr
    intro other member
    have differ : other ≠ id := by rintro rfl; exact notLeft member
    rw [rightSet.cells other differ,rightOnly.cells other fun inRight =>
      apart other member other (by simp [inRight]) rfl,leftSet.cells other differ]
  have rightFinal : (fourth.put id fun node => node.setChild .right right.root?).Hung (some id) right :=
    rightHung.congr fun other member => rightSet.cells other (by rintro rfl; exact notRight member)
  obtain ⟨result,ok,hung,only⟩ := Arena.measure_hung cell leftFinal rightFinal
    (by simp [notLeft,notRight]) leftLow rightLow
  have here : ∀ other, other = id → other ∈ left.ids ++ id :: right.ids := by rintro _ rfl; simp
  refine ⟨result,ok,hung,((Arena.put_parent_only arena id parent).widen here).trans ?_⟩
  exact (leftOnly.widen fun _ member => by simp [member]).trans ((leftSet.widen here).trans
    ((rightOnly.widen fun _ member => by simp [member]).trans
      ((rightSet.widen here).trans (only.widen here))))

theorem link_hung (ids : List NodeId) {arena : Arena} (parent : Option NodeId) (distinct : ids.Nodup)
    (inside : ∀ id ∈ ids, id < arena.size) (few : ids.length ≤ Width.w128.limit) :
    ∃ result shape, Uncut (fun field => link field arena parent ids) (result,shape.root?) ∧
      result.Hung parent shape ∧ shape.Balanced ∧ shape.ids = ids ∧ shape.height = levels ids.length ∧
      Arena.CellsOnly (· ∈ ids) arena result := by
  induction length : ids.length using Nat.strongRecOn generalizing ids arena parent with
  | ind count ih =>
    subst length
    by_cases occupied : ids = []
    · subst occupied
      refine ⟨arena,.leaf,fun field _ => ?_,trivial,trivial,rfl,levels_zero.symm,
        Arena.CellsOnly.refl _ _⟩
      change link field arena parent [] = _
      rw [link]
      rfl
    · obtain ⟨front,id,behind,rfl,middle⟩ := eq_middle occupied
      have total : (front ++ id :: behind).length = front.length + (behind.length + 1) := by simp
      rw [total] at few ih
      have idInside : id < arena.size := inside id (by simp)
      obtain ⟨frontDistinct,rear,_⟩ := List.nodup_append.mp distinct
      -- the node, its left subtree, its right subtree, and the node again
      obtain ⟨second,left,leftOk,leftHung,leftBalanced,rfl,leftHeight,leftOnly⟩ :=
        @ih front.length (by omega) front (arena.put id fun node => { node with parent := parent })
          (some id) frontDistinct
          (fun other member => by rw [Arena.size_put]; exact inside other (by simp [member]))
          (by omega) rfl
      have secondSize : second.size = arena.size := leftOnly.size.trans (Arena.size_put _ _ _)
      obtain ⟨fourth,right,rightOk,rightHung,rightBalanced,rfl,rightHeight,rightOnly⟩ :=
        @ih behind.length (by omega) behind (second.put id fun node => node.setChild .left left.root?)
          (some id) (List.nodup_cons.mp rear).2
          (fun other member => by
            rw [Arena.size_put,secondSize]
            exact inside other (by simp [member])) (by omega) rfl
      have fourthSize : fourth.size = arena.size :=
        rightOnly.size.trans ((Arena.size_put _ _ _).trans secondSize)
      have leftLow := leftBalanced.height_le (by rw [← length_ids]; omega)
      have rightLow := rightBalanced.height_le (by rw [← length_ids]; omega)
      obtain ⟨result,resultOk,resultHung,only⟩ := between_hung idInside distinct leftOnly rightOnly
        leftHung rightHung (by omega) (by omega)
      obtain ⟨lower,upper,whole⟩ := levels_middle (total ▸ middle)
      refine ⟨result,.node left id right,fun field roomy => ?_,resultHung,?_,rfl,?_,only⟩
      · refine (linkWith_middle middle).trans ?_
        rw [Arena.modify_put idInside]
        simp only [Checked.ok_bind,leftOk field roomy]
        rw [Arena.modify_put (secondSize ▸ idInside)]
        simp only [Checked.ok_bind,rightOk field roomy]
        rw [Arena.modify_put (fourthSize ▸ idInside)]
        simp only [Checked.ok_bind,resultOk field roomy]
        rfl
      · exact ⟨by omega,by omega,leftBalanced,rightBalanced⟩
      · rw [total,whole,Shape.height]
        omega

/-- Building a tree, which is as low as any tree of its nodes. -/
theorem ofSortedWith_holds {ids : List NodeId} {arena : Arena} (distinct : ids.Nodup)
    (inside : ∀ id ∈ ids, id < arena.size) (few : ids.length ≤ Width.w128.limit) :
    ∃ tree result, Uncut (fun field => ofSortedWith field arena ids) (tree,result) ∧
      tree.Holds result ids ∧ result.heightAt tree.root = .ok (levels ids.length) ∧
      Arena.CellsOnly (· ∈ ids) arena result := by
  obtain ⟨result,shape,uncut,hung,balanced,same,height,only⟩ := link_hung ids none distinct inside few
  refine ⟨⟨shape.root?⟩,result,fun field roomy => ?_,⟨shape,rfl,hung,balanced,same,distinct⟩,?_,only⟩
  · simp only [ofSortedWith,uncut field roomy,Checked.ok_bind,Checked.pure_ok]
  · rw [hung.heightAt,height]

theorem ofSorted_holds {ids : List NodeId} {arena : Arena} (distinct : ids.Nodup)
    (inside : ∀ id ∈ ids, id < arena.size) (few : ids.length ≤ Width.w128.limit) :
    ∃ tree result, ofSorted arena ids = .ok (tree,result) ∧ tree.Holds result ids ∧
      Arena.CellsOnly (· ∈ ids) arena result := by
  obtain ⟨tree,result,uncut,holds,_,only⟩ := ofSortedWith_holds distinct inside few
  exact ⟨tree,result,uncut.byte,holds,only⟩

end AvlTree

end BalancedMove
