import BalancedMove.Proofs.Arena.Rebalance

/-! Trees as images of sequences of ids. A node that is inserted behind another takes the place next
to it in tree order, and the tree is balanced again. -/
namespace BalancedMove

namespace AvlTree

open Shape BalancedMove.Frame

def Holds (tree : AvlTree) (arena : Arena) (ids : List NodeId) : Prop :=
  ∃ shape, tree.root = shape.root? ∧ arena.Hung none shape ∧ shape.Balanced ∧ shape.ids = ids ∧
    ids.Nodup

section Views

variable {tree : AvlTree} {arena : Arena} {shown : List NodeId}

theorem holds_empty (arena : Arena) : ({} : AvlTree).Holds arena [] :=
  ⟨.leaf,rfl,trivial,trivial,rfl,List.nodup_nil⟩

theorem Holds.distinct (holds : tree.Holds arena shown) : shown.Nodup := by
  obtain ⟨_,_,_,_,_,distinct⟩ := holds
  exact distinct

theorem Holds.lt_size (holds : tree.Holds arena shown) : ∀ id ∈ shown, id < arena.size := by
  obtain ⟨shape,_,hung,_,rfl,_⟩ := holds
  exact hung.lt_size

theorem Holds.length_le (holds : tree.Holds arena shown) : shown.length ≤ arena.size :=
  length_le_of_nodup holds.distinct holds.lt_size

theorem Holds.height_pos (holds : tree.Holds arena shown) {id : NodeId} (member : id ∈ shown) {cell : Cell}
    (here : arena.cellOf id = some cell) : 0 < cell.height := by
  obtain ⟨shape,root,hung,_,rfl,_⟩ := holds
  obtain ⟨path,near,far,rfl⟩ := locate .left member
  obtain ⟨own,_⟩ := Arena.hung_hang.mp (hung.at_place root).2
  obtain rfl := Option.some.inj (here.symm.trans own)
  exact Nat.lt_of_lt_of_le Nat.zero_lt_one (Nat.le_add_right _ _)

theorem Holds.size_le (holds : tree.Holds arena shown) {id : NodeId} (member : id ∈ shown) :
    ∃ node, arena.node id = .ok node ∧ node.size ≤ shown.length := by
  obtain ⟨shape,root,hung,_,rfl,_⟩ := holds
  obtain ⟨path,near,far,rfl⟩ := locate .left member
  obtain ⟨node,read,cell⟩ := Arena.node_of_cell (Arena.hung_hang.mp (hung.at_place root).2).1
  have own : node.size = 1 + near.size + far.size := congrArg Cell.size cell
  refine ⟨node,read,?_⟩
  rw [Shape.length_ids,own]
  exact size_le_plug path (.hang .left near id far)

theorem Holds.congr {changed : Arena} (holds : tree.Holds arena shown)
    (same : ∀ id ∈ shown, changed.cellOf id = arena.cellOf id) : tree.Holds changed shown := by
  obtain ⟨shape,root,hung,balanced,rfl,distinct⟩ := holds
  exact ⟨shape,root,hung.congr same,balanced,rfl,distinct⟩

end Views

theorem path_le_stepLimit {arena : Arena} {root hole : Option NodeId} {path : List Frame}
    (encloses : arena.Encloses root path hole) (distinct : (around path).Nodup) :
    path.length ≤ arena.size := by
  have short := length_le_of_nodup distinct encloses.lt_size
  exact Nat.le_trans (length_path_le path) short

theorem isolate_alone {arena : Arena} {id : NodeId} (inside : id < arena.size) :
    ∃ result, arena.isolate id = .ok result ∧
      result.cellOf id = some ⟨none,none,none,1,1⟩ ∧ Arena.CellsOnly (· = id) arena result := by
  refine ⟨_,Arena.modify_put inside _,?_,Arena.CellsOnly.put _ rfl (fun _ => rfl) fun _ => rfl⟩
  rw [@Arena.cellOf_put _ _ _ (fun _ => ⟨none,none,none,1,1⟩) (fun _ => rfl),if_pos rfl]
  have present : arena.nodes[id]? = some arena.nodes[id] := Array.getElem?_eq_getElem inside
  rw [Arena.cellOf,present]
  rfl

theorem attach_holds {tree : AvlTree} {arena : Arena} {frame : Frame} {path : List Frame}
    {id : NodeId} (encloses : arena.Encloses tree.root (frame :: path) none)
    (alone : arena.cellOf id = some ⟨none,none,none,1,1⟩)
    (fresh : id ∉ (plug (frame :: path) .leaf).ids)
    (distinct : (plug (frame :: path) .leaf).ids.Nodup)
    (balanced : (plug (frame :: path) .leaf).Balanced)
    (few : (plug (frame :: path) .leaf).size ≤ Width.w128.limit) :
    ∃ changed result,
      Uncut (fun field => attach field tree arena frame.id frame.side id) (changed,result) ∧
      changed.Holds result (plug (frame :: path) (.node .leaf id .leaf)).ids ∧
      Arena.CellsOnly (fun other => other = id ∨ other ∈ (plug (frame :: path) .leaf).ids) arena result := by
  -- the place is empty, so all nodes of the tree are around it
  have regroup : (plug (frame :: path) .leaf).ids.Perm (around (frame :: path)) := by
    simpa [Shape.ids] using perm_plug (frame :: path) .leaf
  simp only [regroup.mem_iff] at fresh ⊢
  rw [regroup.nodup_iff] at distinct
  have short := path_le_stepLimit encloses distinct
  obtain ⟨⟨height,size,cell⟩,sibling,place⟩ := encloses
  have inside := Arena.lt_of_cell alone
  have upInside := Arena.lt_of_cell cell
  let first := arena.put frame.id fun node => node.setChild frame.side (some id)
  let second := first.put id fun node => { node with parent := some frame.id }
  have firstOnly : Arena.CellsOnly (· = frame.id) arena first := Arena.put_setChild_only _ _ _ _
  have secondOnly : Arena.CellsOnly (· = id) first second := Arena.put_parent_only _ _ _
  have separate : frame.id ≠ id := fun same => fresh (by simp [around_cons,same])
  have parts : frame.id ∉ frame.sibling.ids ++ around path ∧ (frame.sibling.ids ++ around path).Nodup :=
    List.nodup_cons.mp distinct
  -- only the new node and the one it is hung under are written
  have kept : ∀ other ∈ frame.sibling.ids ++ around path, second.cellOf other = arena.cellOf other := by
    intro other member
    have notId : other ≠ id := by
      rintro rfl
      exact fresh (by rw [around_cons]; exact List.mem_cons_of_mem _ member)
    have notFrame : other ≠ frame.id := by
      rintro rfl
      exact parts.1 member
    rw [secondOnly.cells other notId,firstOnly.cells other notFrame]
  have newPlace : second.Encloses tree.root (frame :: path) (some id) := by
    refine ⟨⟨height,size,?_⟩,?_,?_⟩
    · rw [secondOnly.cells frame.id separate,Arena.cellOf_put_setChild,if_pos rfl,cell]
      simp
    · exact sibling.congr fun other member => kept other (by simp [member])
    · exact place.congr fun other member => kept other (by simp [member])
  have newHung : second.Hung (some frame.id) (.node .leaf id .leaf) := by
    refine ⟨?_,trivial,trivial⟩
    rw [Arena.cellOf_put_parent,if_pos rfl,firstOnly.cells id separate.symm,alone]
    rfl
  have newDistinct : ((Shape.node .leaf id .leaf).ids ++ around (frame :: path)).Nodup :=
    List.nodup_cons.mpr ⟨fresh,distinct⟩
  have leafBalanced : (Shape.node .leaf id .leaf).Balanced := by simp [Shape.Balanced]
  have secondSize : second.size = arena.size := secondOnly.size.trans firstOnly.size
  -- the place held nothing before, so it has grown by one level
  obtain ⟨changed,result,final,ok,root,finalHung,finalBalanced,same,only⟩ :=
    settleUp_hung newPlace newHung leafBalanced balanced few
      (Or.inr rfl) newDistinct (Nat.le_trans short (show arena.size ≤ second.stepLimit by
        rw [Arena.stepLimit,secondSize]; omega))
  refine ⟨changed,result,fun field roomy => ?_,⟨final,root,finalHung,finalBalanced,same,?_⟩,?_⟩
  · simp only [attach,Arena.modify_put upInside,Checked.ok_bind]
    rw [Arena.modify_put (firstOnly.size.symm ▸ inside : id < first.size),Checked.ok_bind]
    exact ok field roomy
  · exact (perm_plug _ _).nodup_iff.mpr newDistinct
  · refine (firstOnly.widen ?_).trans ((secondOnly.widen fun _ => Or.inl).trans (only.widen ?_))
    · rintro other rfl
      exact Or.inr (by simp [around_cons])
    · intro other member
      exact List.mem_cons.mp member

theorem outermost_hung {arena : Arena} (side : Side) {parent : Option NodeId} {shape : Shape}
    {root : NodeId} (hung : arena.Hung parent shape) (isRoot : shape.root? = some root)
    {fuel : Nat} (enough : shape.size ≤ fuel) :
    ∃ path id far, shape = plug path (hang side .leaf id far) ∧ beyond side path = [] ∧
      Arena.farthest (arena.child side) fuel root = .ok id := by
  induction shape generalizing parent root fuel with
  | leaf => cases isRoot
  | node left middle right leftFound rightFound =>
    obtain ⟨near,far,split,found⟩ : ∃ near far, Shape.node left middle right = hang side near middle far ∧
        (∀ root, arena.Hung (some middle) near → near.root? = some root → ∀ fuel, near.size ≤ fuel →
          ∃ path id far, near = plug path (hang side .leaf id far) ∧ beyond side path = [] ∧
            Arena.farthest (arena.child side) fuel root = .ok id) := by
      cases side
      · exact ⟨left,right,rfl,fun _ hung isRoot _ enough => leftFound hung isRoot enough⟩
      · exact ⟨right,left,rfl,fun _ hung isRoot _ enough => rightFound hung isRoot enough⟩
    rw [split] at hung isRoot enough ⊢
    obtain rfl : middle = root := by simpa using isRoot
    obtain ⟨cell,nearHung,_⟩ := Arena.hung_hang.mp hung
    rw [size_hang] at enough
    obtain ⟨fuel,rfl⟩ : ∃ less, fuel = less + 1 := ⟨fuel - 1,by omega⟩
    have child := Arena.child_of_cell cell side
    rw [Cell.child_facing] at child
    cases below : near.root? with
    | none =>
      obtain rfl := root?_eq_none.mp below
      refine ⟨[],middle,far,rfl,rfl,?_⟩
      simp [Arena.farthest,child,Shape.root?]
    | some next =>
      obtain ⟨path,id,rest,same,inward,reached⟩ := found next nearHung below fuel (by omega)
      refine ⟨path ++ [⟨side,middle,far⟩],id,rest,?_,?_,?_⟩
      · rw [plug_append,← same,plug_single]
      · rw [beyond_append,inward]
        simp [beyond]
      · simp [Arena.farthest,child,below,reached]

/-- Where the node that follows `hint` belongs: an empty place directly behind it. -/
theorem following_place {arena : Arena} {root : Option NodeId} {path : List Frame} {near far : Shape}
    {hint : NodeId} (encloses : arena.Encloses root path (some hint))
    (hung : arena.Hung (up path) (hang .right near hint far)) (enough : near.size ≤ arena.stepLimit) :
    ∃ frame rest, plug path (hang .right near hint far) = plug (frame :: rest) .leaf ∧
      arena.Encloses root (frame :: rest) none ∧
      (∀ id, (plug (frame :: rest) (.node .leaf id .leaf)).ids =
        (beyond .left path).reverse ++ far.ids ++ hint :: id :: near.ids ++ beyond .right path) ∧
      ∀ field tree id, (do
        match ← arena.child .right hint with
        | none => attach field tree arena hint .right id
        | some right =>
          let parent ← arena.outermost .left right
          attach field tree arena parent .left id) =
        attach field tree arena frame.id frame.side id := by
  obtain ⟨cell,nearHung,farHung⟩ := Arena.hung_hang.mp hung
  have child := Arena.child_of_cell cell .right
  rw [Cell.child_facing] at child
  have placed : arena.Encloses root (⟨.right,hint,far⟩ :: path) near.root? :=
    ⟨⟨_,_,cell⟩,farHung,encloses⟩
  -- without a right child the place is there, otherwise it is at the left end of the right subtree
  cases below : near.root? with
  | none =>
    obtain rfl := root?_eq_none.mp below
    refine ⟨⟨.right,hint,far⟩,path,rfl,placed,?_,?_⟩
    · intro id
      have order := along_plug .right (⟨.right,hint,far⟩ :: path) (.node .leaf id .leaf)
      simpa [along,beyond,Side.other,Shape.ids] using order
    · intro field tree id
      simp [child,below]
  | some next =>
    obtain ⟨descent,last,rest,same,inward,reached⟩ := outermost_hung .left nearHung below enough
    let inner : List Frame := ⟨.left,last,rest⟩ :: descent
    have nearSame : near = plug inner .leaf := same
    have innerLeft : beyond .left inner = [] := by simp [inner,beyond,inward]
    have nearIds : ∀ id, (plug inner (.node .leaf id .leaf)).ids = id :: near.ids := by
      intro id
      have new := along_plug .right inner (.node .leaf id .leaf)
      have old := along_plug .right inner .leaf
      simp only [Side.other,innerLeft,along,Shape.ids] at new old
      rw [new,nearSame,old]
      simp
    have nearPlaced : arena.Encloses root (⟨.right,hint,far⟩ :: path) (plug inner .leaf).root? :=
      nearSame ▸ placed
    have nearHere : arena.Hung (up (⟨.right,hint,far⟩ :: path)) (plug inner .leaf) :=
      nearSame ▸ nearHung
    have descended := nearPlaced.descend nearHere
    refine ⟨⟨.left,last,rest⟩,descent ++ ⟨.right,hint,far⟩ :: path,?_,?_,?_,?_⟩
    · rw [← List.cons_append,plug_append]
      exact congrArg (fun shape => plug path (hang .right shape hint far)) nearSame
    · exact descended.1
    · intro id
      rw [← List.cons_append,plug_append]
      have order := along_plug .right (⟨.right,hint,far⟩ :: path) (plug inner (.node .leaf id .leaf))
      simp only [along,beyond,Side.other,reduceCtorEq,if_false,if_true,nearIds] at order
      rw [order]
      simp
    · intro field tree id
      simp [child,below,Arena.outermost,reached]

theorem Holds.insertBehindWith {tree : AvlTree} {arena : Arena} {ids : List NodeId} {id hint : NodeId}
    (holds : tree.Holds arena ids) (member : hint ∈ ids) (fresh : id ∉ ids)
    (inside : id < arena.size) (few : ids.length ≤ Width.w128.limit) :
    ∃ changed result,
      Uncut (fun field => AvlTree.insertBehindWith field tree arena id hint) (changed,result) ∧
      changed.Holds result (Sequence.putBehind hint id ids) ∧
      Arena.CellsOnly (fun other => other = id ∨ other ∈ ids) arena result := by
  obtain ⟨first,firstOk,alone,firstOnly⟩ := isolate_alone inside
  have kept : tree.Holds first ids := holds.congr fun other inTree =>
    firstOnly.cells other fun same => fresh (same ▸ inTree)
  obtain ⟨shape,root,hung,balanced,rfl,distinct⟩ := kept
  obtain ⟨path,near,far,rfl⟩ := locate .right member
  obtain ⟨place,here⟩ := hung.at_place root
  rw [root?_hang] at place
  have nearSmall : near.size ≤ first.stepLimit := by
    have whole := size_le_plug path (hang .right near hint far)
    have bound := length_le_of_nodup distinct hung.lt_size
    rw [length_ids] at bound
    rw [size_hang] at whole
    rw [Arena.stepLimit]
    omega
  obtain ⟨frame,rest,whole,newPlace,order,reached⟩ := following_place place here nearSmall
  rw [length_ids] at few
  obtain ⟨changed,result,ok,shown,only⟩ := attach_holds newPlace alone (whole ▸ fresh) (whole ▸ distinct)
    (whole ▸ balanced) (whole ▸ few)
  refine ⟨changed,result,fun field roomy => ?_,?_,?_⟩
  · simp only [AvlTree.insertBehindWith,firstOk,Checked.ok_bind]
    exact (reached field tree id).trans (ok field roomy)
  · rw [order] at shown
    have before : (plug path (hang .right near hint far)).ids =
        ((beyond .left path).reverse ++ far.ids) ++ hint :: (near.ids ++ beyond .right path) := by
      have shape := along_plug .right path (hang .right near hint far)
      rw [along_hang] at shape
      simpa [along,Side.other] using shape
    rw [before] at distinct ⊢
    have absent : hint ∉ (beyond .left path).reverse ++ far.ids := fun inside =>
      (List.nodup_append.mp distinct).2.2 hint inside hint (by simp) rfl
    rw [Sequence.putBehind_split absent]
    simpa using shown
  · exact (firstOnly.widen fun _ => Or.inl).trans (whole ▸ only)

theorem Holds.insertBehind {tree : AvlTree} {arena : Arena} {ids : List NodeId} {id hint : NodeId}
    (holds : tree.Holds arena ids) (member : hint ∈ ids) (fresh : id ∉ ids)
    (inside : id < arena.size) (few : ids.length ≤ Width.w128.limit) :
    ∃ changed result, tree.insertBehind arena id hint = .ok (changed,result) ∧
      changed.Holds result (Sequence.putBehind hint id ids) ∧
      Arena.CellsOnly (fun other => other = id ∨ other ∈ ids) arena result := by
  obtain ⟨changed,result,uncut,shown,only⟩ := holds.insertBehindWith member fresh inside few
  exact ⟨changed,result,uncut.byte,shown,only⟩

end AvlTree

end BalancedMove
