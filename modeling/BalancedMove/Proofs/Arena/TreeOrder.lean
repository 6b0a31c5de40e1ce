import BalancedMove.Arena.AvlCheck
import BalancedMove.Proofs.Arena.Insert

/-! What the queries of a tree answer, in terms of the sequence it shows: neighbours, the two ends,
the walk along the whole tree, the last node at or below a key, and the self-check. -/
namespace BalancedMove

namespace AvlTree

open Shape BalancedMove.Frame

theorem split_unique {left right other rest : List NodeId} {id : NodeId}
    (same : left ++ id :: right = other ++ id :: rest) (distinct : (left ++ id :: right).Nodup) :
    left = other ∧ right = rest := by
  have parts := List.nodup_append.mp distinct
  have notLeft : id ∉ left := fun inside => parts.2.2 id inside id (by simp) rfl
  have notRight : id ∉ right := (List.nodup_cons.mp parts.2.1).1
  obtain ⟨first,_,second⟩ := (List.append_cons_inj_of_notMem notLeft notRight).mp same
  exact ⟨first,second⟩

theorem climb_step {arena : Arena} {root : Option NodeId} {frame : Frame} {path : List Frame}
    {id : NodeId} (encloses : arena.Encloses root (frame :: path) (some id))
    (outside : id ∉ around (frame :: path)) (distinct : (around (frame :: path)).Nodup) :
    arena.parent frame.id = .ok (up path) ∧ frame.id ∉ around path ∧ (around path).Nodup ∧
      frame.sibling.root? ≠ some id := by
  obtain ⟨⟨height,size,cell⟩,_,_⟩ := encloses
  have parts : frame.id ∉ frame.sibling.ids ++ around path ∧
      (frame.sibling.ids ++ around path).Nodup := List.nodup_cons.mp distinct
  refine ⟨?_,fun inside => parts.1 (by simp [inside]),(List.nodup_append.mp parts.2).2.1,
    fun found => outside (by simp [around_cons,mem_of_root? found])⟩
  rw [Arena.parent_of_cell cell,Cell.parent_facing]

theorem climb_encloses {arena : Arena} {side : Side} {root : Option NodeId} {path : List Frame}
    {id : NodeId} (encloses : arena.Encloses root path (some id))
    (parent : arena.parent id = .ok (up path)) (outside : id ∉ around path)
    (distinct : (around path).Nodup) {fuel : Nat} (enough : path.length < fuel) :
    arena.climb side fuel id = .ok (beyond side path).head? := by
  induction path generalizing id fuel with
  | nil =>
    obtain ⟨fuel,rfl⟩ : ∃ less, fuel = less + 1 := ⟨fuel - 1,by omega⟩
    simp [Arena.climb,parent,up,beyond]
  | cons frame path ih =>
    obtain ⟨fuel,rfl⟩ : ∃ less, fuel = less + 1 := ⟨fuel - 1,by omega⟩
    obtain ⟨parentUp,above,rest,differ⟩ := climb_step encloses outside distinct
    obtain ⟨⟨height,size,cell⟩,_,place⟩ := encloses
    have child := Arena.child_of_cell cell side
    simp only [Arena.climb,parent,up,List.head?_cons,Option.map_some,Checked.ok_bind,child]
    by_cases same : frame.side = side
    · rw [same,Cell.child_facing,if_pos rfl,beyond,if_pos same]
      exact ih place parentUp above rest (by simpa using enough)
    · have other := Side.eq_other_of_ne (Ne.symm same)
      rw [other,Cell.child_facing_other,if_neg differ,← other,beyond,if_neg same]
      rfl

theorem neighbour_hung {arena : Arena} {side : Side} {root : Option NodeId} {path : List Frame}
    {near far : Shape} {id : NodeId} (encloses : arena.Encloses root path (some id))
    (hung : arena.Hung (up path) (hang side near id far))
    (distinct : ((hang side near id far).ids ++ around path).Nodup) :
    arena.neighbour side id = .ok (near.along side ++ beyond side path).head? := by
  obtain ⟨cell,nearHung,_⟩ := Arena.hung_hang.mp hung
  have child := Arena.child_of_cell cell side
  rw [Cell.child_facing] at child
  have parts := List.nodup_append.mp distinct
  cases below : near.root? with
  | none =>
    obtain rfl := root?_eq_none.mp below
    have parent := Arena.parent_of_cell cell
    rw [Cell.parent_facing] at parent
    have outside : id ∉ around path := fun inside =>
      parts.2.2 id (by simp [mem_hang]) id inside rfl
    have short := path_le_stepLimit encloses parts.2.1
    have climbed : arena.climb side arena.stepLimit id = .ok (beyond side path).head? :=
      climb_encloses encloses parent outside parts.2.1
        (show path.length < arena.stepLimit by rw [Arena.stepLimit]; omega)
    have empty : Shape.leaf.along side = [] := by cases side <;> rfl
    simp [Arena.neighbour,child,Shape.root?,climbed,empty]
  | some next =>
    have bound := length_le_of_nodup parts.1 hung.lt_size
    rw [length_ids,size_hang] at bound
    obtain ⟨descent,first,rest,same,inward,reached⟩ :=
      outermost_hung side.other nearHung below (show near.size ≤ arena.stepLimit by
        rw [Arena.stepLimit]; omega)
    have empty : Shape.leaf.along side = [] := by cases side <;> rfl
    have front : (near.along side).head? = some first := by
      rw [same,along_plug,inward,along_hang_other,empty]
      rfl
    simp [Arena.neighbour,child,below,Arena.outermost,reached,front]

section Queries

variable {tree : AvlTree} {arena : Arena} {shown left right : List NodeId} {id : NodeId}

/-- The neighbour of a node towards a side is the node met next on the way along the tree to that side. -/
theorem Holds.neighbour (side : Side) (holds : tree.Holds arena shown)
    (met : side.along shown = left ++ id :: right) : arena.neighbour side id = .ok right.head? := by
  obtain ⟨shape,root,hung,_,rfl,distinct⟩ := holds
  have member : id ∈ shape.ids := by
    rw [← Side.mem_along side,met]
    simp
  obtain ⟨path,near,far,rfl⟩ := locate side member
  obtain ⟨place,here⟩ := hung.at_place root
  rw [root?_hang] at place
  have order := along_plug side path (hang side near id far)
  rw [along_hang] at order
  have split : left ++ id :: right = ((beyond side.other path).reverse ++ far.along side) ++
      id :: (near.along side ++ beyond side path) := by
    rw [← met,← along_ids,order]
    simp
  have once : (left ++ id :: right).Nodup := met ▸ (Side.nodup_along side).mpr distinct
  rw [(split_unique split once).2]
  exact neighbour_hung place here ((perm_plug _ _).nodup_iff.mp distinct)

theorem Holds.next (holds : tree.Holds arena (left ++ id :: right)) :
    arena.treeNext id = .ok right.head? := holds.neighbour .right rfl

theorem Holds.prev (holds : tree.Holds arena (left ++ id :: right)) :
    arena.treePrev id = .ok left.getLast? := by
  have met : Side.left.along (left ++ id :: right) = right.reverse ++ id :: left.reverse := by
    simp [Side.along]
  rw [Arena.treePrev,holds.neighbour .left met,List.head?_reverse]

theorem Holds.extreme (side : Side) (holds : tree.Holds arena shown) :
    tree.extreme arena side = .ok (side.along shown).getLast? := by
  have short := holds.length_le
  obtain ⟨shape,root,hung,_,rfl,_⟩ := holds
  cases top : shape.root? with
  | none =>
    obtain rfl := root?_eq_none.mp top
    cases side <;> simp [AvlTree.extreme,root,Shape.root?,Shape.ids,Side.along]
  | some id =>
    rw [length_ids] at short
    obtain ⟨path,first,far,same,inward,reached⟩ := outermost_hung side hung top
      (show shape.size ≤ arena.stepLimit by rw [Arena.stepLimit]; omega)
    have empty : Shape.leaf.along side = [] := by cases side <;> rfl
    have last : (side.along shape.ids).getLast? = some first := by
      have order := along_plug side path (hang side .leaf first far)
      rw [along_hang,empty,inward,← same] at order
      rw [← along_ids,order]
      simp
    simp [AvlTree.extreme,root,top,Arena.outermost,reached,last]

theorem Holds.min? (holds : tree.Holds arena shown) : tree.min? arena = .ok shown.head? := by
  rw [AvlTree.min?,holds.extreme .left,Side.along,List.getLast?_reverse]

theorem Holds.max? (holds : tree.Holds arena shown) : tree.max? arena = .ok shown.getLast? :=
  holds.extreme .right

theorem Holds.ids (holds : tree.Holds arena shown) : tree.ids arena = .ok shown := by
  rw [AvlTree.ids,holds.min?,Checked.ok_bind]
  apply Arena.walk_eq _ holds.length_le
  rintro left id right rfl
  exact holds.next

theorem Holds.firstIds (holds : tree.Holds arena shown) (limit : Nat) :
    tree.firstIds arena limit = .ok (shown.take limit) := by
  rw [AvlTree.firstIds,holds.min?,Checked.ok_bind]
  apply Arena.follow_eq_take
  rintro left id right rfl
  exact holds.next

end Queries

section Keys

variable {arena : Arena} {key : NodeId → Nat}

def Keyed (arena : Arena) (key : NodeId → Nat) (ids : List NodeId) : Prop :=
  ∀ id ∈ ids, ∃ label, arena.labelOf id = some label ∧ label.pair.q = key id

theorem Keyed.node {ids : List NodeId} {id : NodeId} (keyed : Keyed arena key ids)
    (member : id ∈ ids) : ∃ node, arena.node id = .ok node ∧ node.pair.q = key id := by
  obtain ⟨label,labelled,isKey⟩ := keyed id member
  obtain ⟨node,read,isLabel⟩ := Arena.node_of_label labelled
  refine ⟨node,read,?_⟩
  rw [← isKey,← isLabel]
  rfl

theorem Keyed.node_of_cell {ids : List NodeId} {id : NodeId} {cell : Cell}
    (keyed : Keyed arena key ids) (member : id ∈ ids) (here : arena.cellOf id = some cell) :
    ∃ node, arena.node id = .ok node ∧ node.cell = cell ∧ node.pair.q = key id := by
  obtain ⟨node,read,isQ⟩ := keyed.node member
  obtain ⟨same,again,isCell⟩ := Arena.node_of_cell here
  obtain rfl := Except.ok.inj (read.symm.trans again)
  exact ⟨node,read,isCell,isQ⟩

theorem filters_left {left right : List NodeId} {middle : NodeId} {position : Nat}
    (sorted : (left ++ middle :: right).Pairwise fun x y => key x ≤ key y)
    (low : position < key middle) :
    (left ++ middle :: right).filter (fun id => key id ≤ position) =
        left.filter (fun id => key id ≤ position) ∧
      (left ++ middle :: right).filter (fun id => position < key id) =
        left.filter (fun id => position < key id) ++ middle :: right := by
  have behind := (List.pairwise_cons.mp (List.pairwise_append.mp sorted).2.1).1
  have none : right.filter (fun id => key id ≤ position) = [] :=
    List.filter_eq_nil_iff.mpr fun id member => by
      have := behind id member
      simp
      omega
  have all : right.filter (fun id => position < key id) = right :=
    List.filter_eq_self.mpr fun id member => by
      have := behind id member
      simp
      omega
  simp [List.filter_append,none,all,low,Nat.not_le.mpr low]

theorem filters_right {left right : List NodeId} {middle : NodeId} {position : Nat}
    (sorted : (left ++ middle :: right).Pairwise fun x y => key x ≤ key y)
    (high : key middle ≤ position) :
    (left ++ middle :: right).filter (fun id => key id ≤ position) =
        left ++ middle :: right.filter (fun id => key id ≤ position) ∧
      (left ++ middle :: right).filter (fun id => position < key id) =
        right.filter (fun id => position < key id) := by
  have across := (List.pairwise_append.mp sorted).2.2
  have all : left.filter (fun id => key id ≤ position) = left :=
    List.filter_eq_self.mpr fun id member => by
      have := across id member middle (by simp)
      simp
      omega
  have none : left.filter (fun id => position < key id) = [] :=
    List.filter_eq_nil_iff.mpr fun id member => by
      have := across id member middle (by simp)
      simp
      omega
  simp [List.filter_append,none,all,high,Nat.not_lt.mpr high]

theorem lastAtMost_hung {parent : Option NodeId} {shape : Shape} (hung : arena.Hung parent shape)
    (keyed : Keyed arena key shape.ids) (sorted : shape.ids.Pairwise fun x y => key x ≤ key y)
    (position : Nat) (best : Option NodeId) {fuel : Nat} (enough : shape.size ≤ fuel) :
    arena.lastAtMost position fuel shape.root? best =
      .ok ((shape.ids.filter fun id => key id ≤ position).getLast?.or best) := by
  induction shape generalizing parent best fuel with
  | leaf => cases fuel <;> rfl
  | node left id right leftFound rightFound =>
    obtain ⟨cell,leftHung,rightHung⟩ := hung
    simp only [Shape.size] at enough
    obtain ⟨fuel,rfl⟩ : ∃ less, fuel = less + 1 := ⟨fuel - 1,by omega⟩
    simp only [Shape.ids] at keyed sorted ⊢
    obtain ⟨node,read,isCell,isQ⟩ := keyed.node_of_cell (show id ∈ _ by simp) cell
    have leftRoot : node.left = left.root? := congrArg Cell.left isCell
    have rightRoot : node.right = right.root? := congrArg Cell.right isCell
    have parts := List.pairwise_append.mp sorted
    have upper := List.pairwise_cons.mp parts.2.1
    simp only [Shape.root?_node,Arena.lastAtMost,read,Checked.ok_bind,isQ,leftRoot,rightRoot]
    by_cases low : key id ≤ position
    · rw [if_pos low,(filters_right sorted low).1,rightFound rightHung
        (fun other member => keyed other (by simp [member])) upper.2 _ (by omega)]
      simp [List.getLast?_append,List.getLast?_cons]
    · rw [if_neg low,(filters_left sorted (Nat.lt_of_not_le low)).1,leftFound leftHung
        (fun other member => keyed other (by simp [member])) parts.1 _ (by omega)]

theorem Holds.greatestAtMost {tree : AvlTree} {shown : List NodeId} (holds : tree.Holds arena shown)
    (keyed : Keyed arena key shown) (sorted : shown.Pairwise fun x y => key x ≤ key y)
    (position : Nat) : tree.greatestAtMost arena position =
      .ok (shown.filter fun id => key id ≤ position).getLast? := by
  have short := holds.length_le
  obtain ⟨shape,root,hung,_,rfl,_⟩ := holds
  rw [length_ids] at short
  rw [AvlTree.greatestAtMost,root,lastAtMost_hung hung keyed sorted position none
    (show shape.size ≤ arena.stepLimit by rw [Arena.stepLimit]; omega)]
  simp

theorem keyPasses_root {shape : Shape} (keyed : Keyed arena key shape.ids) {test : Nat → Bool}
    (passes : ∀ id ∈ shape.ids, test (key id) = true) :
    keyPasses arena test shape.root? = .ok true := by
  cases shape with
  | leaf => rfl
  | node left id right =>
    obtain ⟨node,read,isQ⟩ := keyed.node (show id ∈ _ by simp [Shape.ids])
    simp [root?_node,keyPasses,read,isQ,passes id (by simp [Shape.ids])]

theorem audit_hung {parent : Option NodeId} {shape : Shape} (hung : arena.Hung parent shape)
    (balanced : shape.Balanced) (keyed : Keyed arena key shape.ids)
    (sorted : shape.ids.Pairwise fun x y => key x ≤ key y) {fuel : Nat}
    (enough : shape.size ≤ fuel) :
    audit arena fuel shape.root? parent = .ok (some (shape.height,shape.size)) := by
  induction shape generalizing parent fuel with
  | leaf => cases fuel <;> rfl
  | node left id right leftFound rightFound =>
    obtain ⟨cell,leftHung,rightHung⟩ := hung
    obtain ⟨leftHigh,rightHigh,leftBalanced,rightBalanced⟩ := balanced
    simp only [Shape.size] at enough
    obtain ⟨fuel,rfl⟩ : ∃ less, fuel = less + 1 := ⟨fuel - 1,by omega⟩
    simp only [Shape.ids] at keyed sorted
    obtain ⟨node,read,isCell,isQ⟩ := keyed.node_of_cell (show id ∈ _ by simp) cell
    have isParent : node.parent = parent := congrArg Cell.parent isCell
    have leftRoot : node.left = left.root? := congrArg Cell.left isCell
    have rightRoot : node.right = right.root? := congrArg Cell.right isCell
    have isHeight : node.height = 1 + max left.height right.height := congrArg Cell.height isCell
    have isSize : node.size = 1 + left.size + right.size := congrArg Cell.size isCell
    have leftKeyed : Keyed arena key left.ids := fun other member => keyed other (by simp [member])
    have rightKeyed : Keyed arena key right.ids := fun other member => keyed other (by simp [member])
    have parts := List.pairwise_append.mp sorted
    have upper := List.pairwise_cons.mp parts.2.1
    have ordered : childrenOrdered arena node = .ok true := by
      have before : keyPasses arena (fun q => q ≤ key id) left.root? = .ok true :=
        keyPasses_root leftKeyed fun other member => by
          simpa using parts.2.2 other member id (by simp)
      have behind : keyPasses arena (fun q => key id ≤ q) right.root? = .ok true :=
        keyPasses_root rightKeyed fun other member => by simpa using upper.1 other member
      simp [childrenOrdered,leftRoot,rightRoot,isQ,before,behind]
    have leftOk : audit arena fuel left.root? (some id) = .ok (some (left.height,left.size)) :=
      leftFound leftHung leftBalanced leftKeyed parts.1 (by omega)
    have rightOk : audit arena fuel right.root? (some id) = .ok (some (right.height,right.size)) :=
      rightFound rightHung rightBalanced rightKeyed upper.2 (by omega)
    simp [root?_node,audit,read,isParent,ordered,leftRoot,rightRoot,leftOk,rightOk,leftHigh,
      rightHigh,isHeight,isSize,Shape.height,Shape.size]

theorem adjacent_of_pairwise {α : Type} {related : α → α → Bool} {items : List α}
    (pairwise : items.Pairwise fun x y => related x y = true) : adjacent related items = true := by
  induction items with
  | nil => rfl
  | cons x rest ih =>
    cases rest with
    | nil => rfl
    | cons y rest =>
      have parts := List.pairwise_cons.mp pairwise
      simp [adjacent,parts.1 y (by simp),ih parts.2]

theorem pairwise_of_adjacent {α : Type} {related : α → α → Bool} {items : List α}
    (trans : ∀ x y z, related x y = true → related y z = true → related x z = true)
    (adjoins : adjacent related items = true) : items.Pairwise fun x y => related x y = true := by
  induction items with
  | nil => exact List.Pairwise.nil
  | cons x rest ih =>
    cases rest with
    | nil => exact List.pairwise_singleton _ _
    | cons y rest =>
      obtain ⟨first,later⟩ := (Bool.and_eq_true _ _).mp adjoins
      have tail := ih later
      refine List.pairwise_cons.mpr ⟨fun z member => ?_,tail⟩
      rcases List.mem_cons.mp member with rfl | inside
      · exact first
      · exact trans x y z first ((List.pairwise_cons.mp tail).1 z inside)

theorem Holds.check {tree : AvlTree} {shown : List NodeId} (holds : tree.Holds arena shown)
    (keyed : Keyed arena key shown) (sorted : shown.Pairwise fun x y => key x ≤ key y) :
    tree.check arena = .ok true := by
  have short := holds.length_le
  have walked := holds.ids
  have listed : tree.keys arena = .ok (shown.map key) := by
    rw [keys,walked,Checked.ok_bind]
    apply Checked.mapM_ok
    intro id member
    obtain ⟨node,read,isQ⟩ := keyed.node member
    rw [read,Checked.ok_bind,Checked.pure_ok,isQ]
  obtain ⟨shape,root,hung,balanced,rfl,_⟩ := holds
  rw [length_ids] at short
  have audited := audit_hung hung balanced keyed sorted
    (show shape.size ≤ arena.stepLimit by rw [Arena.stepLimit]; omega)
  have increasing : adjacent (fun x y : Nat => decide (x ≤ y)) (shape.ids.map key) = true :=
    adjacent_of_pairwise (by simpa [List.pairwise_map] using sorted)
  rw [AvlTree.check,root,audited]
  simp [listed,increasing]

end Keys

end AvlTree

end BalancedMove
