import BalancedMove.Proofs.Arena.TreeOrder

/-! Insertion by key. The descent from the root ends at an empty place that has all nodes with a key up
to the new one in front of it and the others behind it. Rotations on the way back may put nodes with
equal keys on either side of one another; only the tree order is what counts, and they keep it. -/
namespace BalancedMove

def Arena.key (arena : Arena) (id : NodeId) : Nat :=
  ((arena.labelOf id).map fun label => label.pair.q).getD 0

theorem Arena.key_congr {arena changed : Arena}
    (same : ∀ id, changed.labelOf id = arena.labelOf id) : changed.key = arena.key := by
  funext id
  rw [Arena.key,same,Arena.key]

namespace AvlTree

open Shape BalancedMove.Frame

variable {arena : Arena} {key : NodeId → Nat}

theorem keyed_key {ids : List NodeId} (inside : ∀ id ∈ ids, id < arena.size) :
    Keyed arena arena.key ids := by
  intro id member
  have within : id < arena.nodes.size := inside id member
  have labelled : arena.labelOf id = some arena.nodes[id].label := by
    rw [Arena.labelOf,Array.getElem?_eq_getElem within]
    rfl
  refine ⟨_,labelled,?_⟩
  rw [Arena.key,labelled]
  rfl

theorem Keyed.congr {changed : Arena} {ids : List NodeId} (keyed : Keyed arena key ids)
    (same : ∀ id, changed.labelOf id = arena.labelOf id) : Keyed changed key ids := by
  intro id member
  rw [same]
  exact keyed id member

/-- The descent for a key ends at an empty place that parts the tree at this key. -/
theorem vacancy_hung {parent : Option NodeId} {shape : Shape} {root : NodeId}
    (hung : arena.Hung parent shape) (isRoot : shape.root? = some root)
    (keyed : Keyed arena key shape.ids) (sorted : shape.ids.Pairwise fun x y => key x ≤ key y)
    (position : Nat) {fuel : Nat} (enough : shape.size ≤ fuel) :
    ∃ frame rest, vacancy arena position fuel root = .ok (frame.id,frame.side) ∧
      shape = plug (frame :: rest) .leaf ∧
      ∀ new, (plug (frame :: rest) (.node .leaf new .leaf)).ids =
        shape.ids.filter (fun id => key id ≤ position) ++
          new :: shape.ids.filter fun id => position < key id := by
  -- along the shape, as the descent goes: the subtree that is not entered lies on one side of the
  -- key
  induction shape generalizing parent root fuel with
  | leaf => cases isRoot
  | node left middle right leftFound rightFound =>
    obtain rfl : middle = root := Option.some.inj isRoot
    obtain ⟨cell,leftHung,rightHung⟩ := hung
    simp only [Shape.size] at enough
    obtain ⟨fuel,rfl⟩ : ∃ less, fuel = less + 1 := ⟨fuel - 1,by omega⟩
    simp only [Shape.ids] at keyed sorted ⊢
    obtain ⟨node,read,isCell,isQ⟩ := keyed.node_of_cell (show middle ∈ _ by simp) cell
    have leftRoot : node.left = left.root? := congrArg Cell.left isCell
    have rightRoot : node.right = right.root? := congrArg Cell.right isCell
    obtain ⟨frontSorted,rear,_⟩ := List.pairwise_append.mp sorted
    simp only [vacancy,read,Checked.ok_bind,isQ]
    by_cases low : position < key middle
    · obtain ⟨front,behind⟩ := filters_left sorted low
      rw [if_pos low,Node.child,leftRoot,front,behind]
      cases entry : left.root? with
      | none =>
        obtain rfl := root?_eq_none.mp entry
        exact ⟨⟨.left,middle,right⟩,[],rfl,rfl,fun new => rfl⟩
      | some next =>
        obtain ⟨frame,rest,found,same,order⟩ := leftFound leftHung entry
          (fun id member => keyed id (by simp [member])) frontSorted (show left.size ≤ fuel by omega)
        refine ⟨frame,rest ++ [⟨.left,middle,right⟩],found,?_,fun new => ?_⟩
        · rw [← List.cons_append,plug_append,← same]
          rfl
        · rw [← List.cons_append,plug_append,plug_single]
          simp [hang,Shape.ids,order new]
    · obtain ⟨front,behind⟩ := filters_right sorted (Nat.not_lt.mp low)
      rw [if_neg low,Node.child,rightRoot,front,behind]
      cases entry : right.root? with
      | none =>
        obtain rfl := root?_eq_none.mp entry
        exact ⟨⟨.right,middle,left⟩,[],rfl,rfl,fun new => by simp [plug,hang,Shape.ids]⟩
      | some next =>
        obtain ⟨frame,rest,found,same,order⟩ := rightFound rightHung entry
          (fun id member => keyed id (by simp [member])) (List.pairwise_cons.mp rear).2
          (show right.size ≤ fuel by omega)
        refine ⟨frame,rest ++ [⟨.right,middle,left⟩],found,?_,fun new => ?_⟩
        · rw [← List.cons_append,plug_append,← same]
          rfl
        · rw [← List.cons_append,plug_append,plug_single]
          simp [hang,Shape.ids,order new]

theorem holds_single {id : NodeId} (alone : arena.cellOf id = some ⟨none,none,none,1,1⟩) :
    (⟨some id⟩ : AvlTree).Holds arena [id] :=
  ⟨.node .leaf id .leaf,rfl,⟨alone,trivial,trivial⟩,by simp [Shape.Balanced],rfl,List.nodup_singleton id⟩

theorem Holds.insertWith {tree : AvlTree} {ids : List NodeId} {id : NodeId}
    (holds : tree.Holds arena ids) (keyed : Keyed arena key (id :: ids))
    (sorted : ids.Pairwise fun x y => key x ≤ key y) (fresh : id ∉ ids)
    (few : ids.length ≤ Width.w128.limit) :
    ∃ changed result, Uncut (fun field => AvlTree.insertWith field tree arena id) (changed,result) ∧
      changed.Holds result (Sequence.putByKey key id ids) ∧
      Arena.CellsOnly (fun other => other = id ∨ other ∈ ids) arena result := by
  obtain ⟨label,labelled,_⟩ := keyed id (by simp)
  obtain ⟨first,firstOk,alone,firstOnly⟩ := isolate_alone (Arena.lt_of_label labelled)
  have kept : tree.Holds first ids := holds.congr fun other inTree =>
    firstOnly.cells other fun same => fresh (same ▸ inTree)
  have stillKeyed : Keyed first key ids :=
    Keyed.congr (fun other member => keyed other (by simp [member])) firstOnly.labels
  obtain ⟨shape,root,hung,balanced,rfl,distinct⟩ := kept
  simp only [AvlTree.insertWith,firstOk,Checked.ok_bind,root]
  cases top : shape.root? with
  | none =>
    obtain rfl := root?_eq_none.mp top
    exact ⟨⟨some id⟩,first,fun _ _ => rfl,holds_single alone,firstOnly.widen fun _ => Or.inl⟩
  | some middle =>
    obtain ⟨node,read,isQ⟩ := (keyed.congr firstOnly.labels).node (List.mem_cons_self ..)
    have bound := length_le_of_nodup distinct hung.lt_size
    rw [length_ids] at bound few
    obtain ⟨frame,rest,found,whole,order⟩ := vacancy_hung hung top stillKeyed sorted (key id)
      (show shape.size ≤ first.stepLimit by rw [Arena.stepLimit]; omega)
    obtain ⟨place,_⟩ := (whole ▸ hung).at_place (whole ▸ root)
    obtain ⟨changed,result,ok,shown,only⟩ := attach_holds place alone (whole ▸ fresh) (whole ▸ distinct)
      (whole ▸ balanced) (whole ▸ few)
    rw [order id] at shown
    refine ⟨changed,result,fun field roomy => ?_,shown,?_⟩
    · simpa [read,isQ,found] using ok field roomy
    · exact (firstOnly.widen fun _ => Or.inl).trans (whole ▸ only)

theorem Holds.insert {tree : AvlTree} {ids : List NodeId} {id : NodeId}
    (holds : tree.Holds arena ids) (keyed : Keyed arena key (id :: ids))
    (sorted : ids.Pairwise fun x y => key x ≤ key y) (fresh : id ∉ ids)
    (few : ids.length ≤ Width.w128.limit) :
    ∃ changed result, tree.insert arena id = .ok (changed,result) ∧
      changed.Holds result (Sequence.putByKey key id ids) ∧
      Arena.CellsOnly (fun other => other = id ∨ other ∈ ids) arena result := by
  obtain ⟨changed,result,uncut,shown,only⟩ := holds.insertWith keyed sorted fresh few
  exact ⟨changed,result,uncut.byte,shown,only⟩

theorem Holds.length {tree : AvlTree} {ids : List NodeId} (holds : tree.Holds arena ids) :
    tree.length arena = .ok ids.length := by
  obtain ⟨shape,root,hung,_,rfl,_⟩ := holds
  rw [AvlTree.length,root,hung.sizeAt,length_ids]

end AvlTree

end BalancedMove
