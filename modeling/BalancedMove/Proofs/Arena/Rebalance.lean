import BalancedMove.Proofs.Arena.ListView
import BalancedMove.Proofs.Arena.TreeView

/-! Rotations and rebalancing. A rotation keeps the tree order and everything outside its place; a
settled place holds a balanced tree that is at most one higher than before, and this is what the
walk up to the root needs at the next place. All of this is alike in any field for the heights, since no
subtree that is measured on the way is higher than a byte tells. -/
namespace BalancedMove

namespace Arena

theorem cellOf_putAt_parent (arena : Arena) (id parent : Option NodeId) (other : NodeId) :
    (arena.putAt id fun node => { node with parent := parent }).cellOf other =
      if id = some other then (arena.cellOf other).map fun cell => { cell with parent := parent }
      else arena.cellOf other := by
  cases id with
  | none => simp [putAt]
  | some id =>
    rw [putAt,cellOf_put_parent]
    simp [eq_comm]

theorem modify?_putAt {arena : Arena} {id : Option NodeId} (change : Node → Node)
    (inside : ∀ other, id = some other → other < arena.size) :
    arena.modify? id change = .ok (arena.putAt id change) := by
  cases id with
  | none => rfl
  | some id => exact modify_put (inside id rfl) change

theorem putAt_parent_only (arena : Arena) (id parent : Option NodeId) :
    CellsOnly (fun other => id = some other) arena
      (arena.putAt id fun node => { node with parent := parent }) := by
  cases id with
  | none => exact CellsOnly.refl _ _
  | some id => exact (put_parent_only arena id parent).widen fun other same => by rw [same]

end Arena

namespace AvlTree

open Shape BalancedMove.Frame

theorem graft_encloses {tree : AvlTree} {arena : Arena} {path : List Frame} {old new : NodeId}
    {cell : Cell} (encloses : arena.Encloses tree.root path (some old))
    (newCell : arena.cellOf new = some cell) (oldOutside : old ∉ around path)
    (newOutside : new ∉ around path) (distinct : (around path).Nodup) :
    ∃ changed result, tree.graft arena (up path) old new = .ok (changed,result) ∧
      result.Encloses changed.root path (some new) ∧
      result.cellOf new = some { cell with parent := up path } ∧
      Arena.CellsOnly (fun id => id = new ∨ up path = some id) arena result := by
  have inside := Arena.lt_of_cell newCell
  cases path with
  | nil =>
    refine ⟨⟨some new⟩,_,?_,rfl,?_,(Arena.put_parent_only arena new none).widen fun _ => Or.inl⟩
    · simp only [graft,up,List.head?_nil,Option.map_none,Arena.modify_put inside,Checked.ok_bind]
      rfl
    · rw [Arena.cellOf_put_parent,if_pos rfl,newCell]
      rfl
  | cons frame path =>
    obtain ⟨⟨height,size,upCell⟩,sibling,rest⟩ := encloses
    have upInside := Arena.lt_of_cell upCell
    have separate : new ≠ frame.id := fun same => newOutside (by simp [around,same])
    let choose (node : Node) : Node :=
      node.setChild (if node.left = some old then .left else .right) (some new)
    let middle := arena.put frame.id choose
    let result := middle.put new fun node => { node with parent := some frame.id }
    have onlyMiddle : Arena.CellsOnly (· = frame.id) arena middle :=
      Arena.CellsOnly.put _ rfl (fun node => Node.links_setChild node _ _)
        fun node => Node.label_setChild node _ _
    have onlyResult := Arena.put_parent_only middle new (some frame.id)
    -- the child to be replaced is the one on the side of the place
    have chosen : middle.cellOf frame.id =
        some (.facing frame.side (up path) (some new) frame.sibling.root? height size) := by
      rw [@Arena.cellOf_put _ _ choose
        (fun cell => cell.setChild (if cell.left = some old then .left else .right) (some new))
        (fun node => Node.cell_setChild node _ _),if_pos rfl,upCell]
      cases side : frame.side with
      | left => simp [Cell.facing,Cell.setChild]
      | right =>
        have differ : frame.sibling.root? ≠ some old := by
          intro same
          exact oldOutside (by simp [around,mem_of_root? same])
        simp [Cell.facing,Cell.setChild,differ]
    have kept : ∀ id, id ≠ frame.id → id ≠ new → result.cellOf id = arena.cellOf id :=
      fun id first second => (onlyResult.cells id second).trans (onlyMiddle.cells id first)
    have distinctParts : frame.id ∉ frame.sibling.ids ++ around path ∧
        (frame.sibling.ids ++ around path).Nodup := List.nodup_cons.mp distinct
    refine ⟨tree,result,?_,⟨⟨height,size,?_⟩,?_,?_⟩,?_,?_⟩
    · have newInside : new < middle.size := by rw [onlyMiddle.size]; exact inside
      simp only [graft,up,List.head?_cons,Option.map_some,Arena.modify_put upInside,Checked.ok_bind]
      rw [show (arena.put frame.id fun node =>
        node.setChild (if node.left = some old then .left else .right) (some new)) = middle from rfl,
        Arena.modify_put newInside]
      rfl
    · rw [onlyResult.cells frame.id separate.symm]
      exact chosen
    · apply sibling.congr
      intro id member
      refine kept id (fun same => distinctParts.1 (by simp [← same,member])) fun same => ?_
      exact newOutside (by simp [around,← same,member])
    · apply rest.congr
      intro id member
      refine kept id (fun same => distinctParts.1 ?_) fun same => newOutside ?_
      · rw [← same]
        exact List.mem_append_right _ member
      · rw [← same,around,List.flatMap_cons]
        exact List.mem_append_right _ member
    · rw [Arena.cellOf_put_parent,if_pos rfl,onlyMiddle.cells new separate,newCell]
      rfl
    · refine (onlyMiddle.widen ?_).trans (onlyResult.widen fun _ => Or.inl)
      rintro id rfl
      exact Or.inr rfl

section Rotation

def relinked (side : Side) (arena : Arena) (x y : NodeId) (between : Option NodeId) : Arena :=
  let arena := arena.put x fun node => node.setChild side.other between
  let arena := arena.putAt between fun node => { node with parent := some x }
  let arena := arena.put y fun node => node.setChild side (some x)
  arena.put x fun node => { node with parent := some y }

structure Apart (outer inner far : Shape) (x y : NodeId) (path : List Frame) : Prop where
  nodes : x ≠ y
  ofOuter : ∀ id ∈ outer.ids, id ≠ x ∧ id ≠ y ∧ id ∉ inner.ids ∧ id ∉ around path
  ofInner : ∀ id ∈ inner.ids, id ≠ x ∧ id ≠ y ∧ id ∉ around path
  ofFar : ∀ id ∈ far.ids, id ≠ x ∧ id ≠ y ∧ id ∉ inner.ids ∧ id ∉ around path
  ofPath : ∀ id ∈ around path, id ≠ x ∧ id ≠ y ∧ id ∉ inner.ids
  between : inner.ids.Nodup
  places : (around path).Nodup

variable {tree : AvlTree} {arena : Arena} {side : Side} {path : List Frame}
variable {outer inner far : Shape} {x y : NodeId} {height size : Nat}

theorem apart_of_nodup
    (distinct : ((hang side outer x (hang side inner y far)).ids ++ around path).Nodup) :
    Apart outer inner far x y path := by
  have flat : (x :: y :: (outer.ids ++ inner.ids ++ far.ids ++ around path)).Nodup := by
    refine (List.Perm.nodup_iff ?_).mp distinct
    refine ((perm_hang side outer _ x).append_right _).trans ?_
    refine List.Perm.cons x ?_
    refine (((perm_hang side inner far y).append_left outer.ids).append_right _).trans ?_
    simp
  simp only [List.nodup_cons,List.nodup_append,List.mem_cons,List.mem_append,not_or] at flat
  obtain ⟨⟨xNotY,⟨⟨xOuter,xInner⟩,xFar⟩,xPath⟩,⟨⟨⟨yOuter,yInner⟩,yFar⟩,yPath⟩,
    ⟨⟨_,innerNodup,outerInner⟩,_,nearFar⟩,pathNodup,treePath⟩ := flat
  refine ⟨xNotY,?_,?_,?_,?_,innerNodup,pathNodup⟩
  · intro id member
    exact ⟨fun same => xOuter (same ▸ member),fun same => yOuter (same ▸ member),
      fun inside => outerInner id member id inside rfl,
      fun inside => treePath id (Or.inl (Or.inl member)) id inside rfl⟩
  · intro id member
    exact ⟨fun same => xInner (same ▸ member),fun same => yInner (same ▸ member),
      fun inside => treePath id (Or.inl (Or.inr member)) id inside rfl⟩
  · intro id member
    exact ⟨fun same => xFar (same ▸ member),fun same => yFar (same ▸ member),
      fun inside => nearFar id (Or.inr inside) id member rfl,
      fun inside => treePath id (Or.inr member) id inside rfl⟩
  · intro id member
    exact ⟨fun same => xPath (same ▸ member),fun same => yPath (same ▸ member),
      fun inside => treePath id (Or.inl (Or.inr inside)) id member rfl⟩

theorem relinked_other {id : NodeId} {between : Option NodeId} (notX : id ≠ x) (notY : id ≠ y) :
    (relinked side arena x y between).cellOf id = if between = some id then
      (arena.cellOf id).map fun cell => { cell with parent := some x } else arena.cellOf id := by
  simp only [relinked,Arena.cellOf_put_parent,Arena.cellOf_put_setChild,Arena.cellOf_putAt_parent,
    if_neg notX,if_neg notY]

theorem relinked_kept {id : NodeId} (notX : id ≠ x) (notY : id ≠ y) (notInner : id ∉ inner.ids) :
    (relinked side arena x y inner.root?).cellOf id = arena.cellOf id :=
  (relinked_other notX notY).trans (if_neg fun same => notInner (mem_of_root? same))

theorem relinked_only (between : Option NodeId) :
    Arena.CellsOnly (fun id => id = x ∨ id = y ∨ between = some id) arena
      (relinked side arena x y between) := by
  refine ((Arena.put_setChild_only arena x side.other between).widen fun _ => Or.inl).trans ?_
  refine ((Arena.putAt_parent_only _ between (some x)).widen fun _ same =>
    Or.inr (Or.inr same)).trans ?_
  exact ((Arena.put_setChild_only _ y side (some x)).widen fun _ same => Or.inr (Or.inl same)).trans
    ((Arena.put_parent_only _ x (some y)).widen fun _ => Or.inl)

section Relinking

variable (apart : Apart outer inner far x y path)

include apart

theorem Apart.x_outside : x ∉ inner.ids := fun inside => (apart.ofInner x inside).1 rfl

theorem Apart.y_outside : y ∉ inner.ids := fun inside => (apart.ofInner y inside).2.1 rfl

theorem Apart.cellOf_x : (relinked side arena x y inner.root?).cellOf x = (arena.cellOf x).map
    fun cell => { cell.setChild side.other inner.root? with parent := some y } := by
  have own : inner.root? ≠ some x := fun same => apart.x_outside (mem_of_root? same)
  simp only [relinked,Arena.cellOf_put_parent,Arena.cellOf_put_setChild,Arena.cellOf_putAt_parent,
    if_true,if_neg apart.nodes,if_neg own,Option.map_map]
  rfl

theorem Apart.cellOf_y : (relinked side arena x y inner.root?).cellOf y =
    (arena.cellOf y).map fun cell => cell.setChild side (some x) := by
  have own : inner.root? ≠ some y := fun same => apart.y_outside (mem_of_root? same)
  simp only [relinked,Arena.cellOf_put_parent,Arena.cellOf_put_setChild,Arena.cellOf_putAt_parent,
    if_true,if_neg (Ne.symm apart.nodes),if_neg own]

theorem Apart.relinks (encloses : arena.Encloses tree.root path (some x))
    (outerHung : arena.Hung (some x) outer) (innerHung : arena.Hung (some y) inner)
    (farHung : arena.Hung (some y) far) :
    (relinked side arena x y inner.root?).Encloses tree.root path (some x) ∧
      (relinked side arena x y inner.root?).Hung (some x) outer ∧
      (relinked side arena x y inner.root?).Hung (some x) inner ∧
      (relinked side arena x y inner.root?).Hung (some y) far := by
  refine ⟨encloses.congr fun id member => ?_,outerHung.congr fun id member => ?_,
    innerHung.reparent apart.between fun id member => ?_,farHung.congr fun id member => ?_⟩
  · have out := apart.ofPath id member
    exact relinked_kept out.1 out.2.1 out.2.2
  · have out := apart.ofOuter id member
    exact relinked_kept out.1 out.2.1 out.2.2.1
  · have out := apart.ofInner id member
    exact relinked_other out.1 out.2.1
  · have out := apart.ofFar id member
    exact relinked_kept out.1 out.2.1 out.2.2.1

theorem Apart.measures {parent : Option NodeId} {xHeight xSize yHeight ySize : Nat}
    (xCell : arena.cellOf x = some (.facing side (some y) outer.root? inner.root? xHeight xSize))
    (yCell : arena.cellOf y = some (.facing side parent (some x) far.root? yHeight ySize))
    (outerHung : arena.Hung (some x) outer) (innerHung : arena.Hung (some x) inner)
    (farHung : arena.Hung (some y) far) (outerLow : outer.height ≤ 230) (innerLow : inner.height ≤ 230)
    (farLow : far.height ≤ 230) : ∃ lower result,
      Uncut (fun field => arena.measure field x) lower ∧
      Uncut (fun field => lower.measure field y) result ∧
      result.Hung parent (hang side (hang side outer x inner) y far) ∧
      Arena.CellsOnly (fun id => id = x ∨ id = y) arena result := by
  have xOuter : x ∉ outer.ids := fun inside => (apart.ofOuter x inside).1 rfl
  have yOuter : y ∉ outer.ids := fun inside => (apart.ofOuter y inside).2.1 rfl
  have yFar : y ∉ far.ids := fun inside => (apart.ofFar y inside).2.1 rfl
  obtain ⟨lower,lowerOk,lowerHung,lowerOnly⟩ := Arena.measure_hung xCell outerHung innerHung
    (by simp [xOuter,apart.x_outside]) (by omega) (by omega)
  have yLower : lower.cellOf y =
      some (.facing side parent (hang side outer x inner).root? far.root? yHeight ySize) := by
    rw [lowerOnly.cells y (Ne.symm apart.nodes),yCell,root?_hang]
  have farLower : lower.Hung (some y) far :=
    farHung.congr fun id member => lowerOnly.cells id (apart.ofFar id member).1
  obtain ⟨result,resultOk,resultHung,resultOnly⟩ := Arena.measure_hung yLower lowerHung farLower
    (by simp [mem_hang,Ne.symm apart.nodes,yOuter,apart.y_outside,yFar])
    (by rw [height_hang]; omega) (by omega)
  exact ⟨lower,result,lowerOk,resultOk,resultHung,
    (lowerOnly.widen fun _ => Or.inl).trans (resultOnly.widen fun _ => Or.inr)⟩

end Relinking

/-- A rotation is a relinking, a new link to the parent and two measurements. -/
theorem rotate_eq {parent : Option NodeId} {changed : AvlTree} {grafted lower result : Arena}
    {yHeight ySize : Nat}
    (xCell : arena.cellOf x = some (.facing side parent outer.root? (some y) height size))
    (yCell : arena.cellOf y = some (.facing side (some x) inner.root? far.root? yHeight ySize))
    (innerHung : arena.Hung (some y) inner)
    (graftOk : graft tree (relinked side arena x y inner.root?) parent x y = .ok (changed,grafted))
    (lowerOk : Uncut (fun field => grafted.measure field x) lower)
    (resultOk : Uncut (fun field => lower.measure field y) result) :
    Uncut (fun field => rotate field side tree arena x) (changed,result,y) := by
  intro field roomy
  have xInside := Arena.lt_of_cell xCell
  have yInside := Arena.lt_of_cell yCell
  obtain ⟨node,read,equal⟩ := Arena.node_of_cell xCell
  have above : node.parent = parent := by
    have field := congrArg Cell.parent equal
    rwa [Cell.parent_facing] at field
  have child : node.child side.other = some y := by
    rw [Node.child_cell,equal,Cell.child_facing_other]
  have firstSize : (arena.put x fun node => node.setChild side.other inner.root?).size = arena.size :=
    Arena.size_put _ _ _
  have betweenInside : ∀ id, inner.root? = some id →
      id < (arena.put x fun node => node.setChild side.other inner.root?).size := fun id found =>
    firstSize ▸ innerHung.lt_size id (mem_of_root? found)
  have secondSize := (Arena.putAt_parent_only (arena.put x fun node =>
    node.setChild side.other inner.root?) inner.root? (some x)).size.trans firstSize
  simp only [rotate,read,Checked.ok_bind,child,Checked.found,Arena.child_of_cell yCell,Cell.child_facing]
  rw [Arena.modify_put xInside,Checked.ok_bind,Arena.modify?_putAt _ betweenInside,Checked.ok_bind,
    Arena.modify_put (secondSize ▸ yInside),Checked.ok_bind,
    Arena.modify_put (by rw [Arena.size_put,secondSize]; exact xInside),Checked.ok_bind,above]
  change (graft tree (relinked side arena x y inner.root?) parent x y >>= _) = _
  simp only [graftOk,Checked.ok_bind,lowerOk field roomy,resultOk field roomy,Checked.pure_ok]

theorem rotate_hung (encloses : arena.Encloses tree.root path (some x))
    (xCell : arena.cellOf x = some (.facing side (up path) outer.root? (some y) height size))
    (outerHung : arena.Hung (some x) outer) (childHung : arena.Hung (some x) (hang side inner y far))
    (distinct : ((hang side outer x (hang side inner y far)).ids ++ around path).Nodup)
    (outerLow : outer.height ≤ 230) (childLow : (hang side inner y far).height ≤ 230) :
    ∃ changed result, Uncut (fun field => rotate field side tree arena x) (changed,result,y) ∧
      result.Encloses changed.root path (some y) ∧
      result.Hung (up path) (hang side (hang side outer x inner) y far) ∧
      Arena.CellsOnly (· ∈ (hang side outer x (hang side inner y far)).ids ++ around path)
        arena result := by
  obtain ⟨yCell,innerHung,farHung⟩ := Arena.hung_hang.mp childHung
  rw [height_hang] at childLow
  have apart := apart_of_nodup distinct
  obtain ⟨pathLinked,outerLinked,innerLinked,farLinked⟩ :=
    @Apart.relinks tree arena side _ _ _ _ _ _ apart encloses outerHung innerHung farHung
  have xLinked := @Apart.cellOf_x arena side _ _ _ _ _ _ apart
  have yLinked := @Apart.cellOf_y arena side _ _ _ _ _ _ apart
  rw [xCell,Option.map_some,Cell.setChild_facing_other,Cell.facing_with_parent] at xLinked
  rw [yCell,Option.map_some,Cell.setChild_facing] at yLinked
  obtain ⟨changed,grafted,graftOk,graftPath,yGrafted,graftOnly⟩ := graft_encloses pathLinked yLinked
    (fun inside => (apart.ofPath x inside).1 rfl) (fun inside => (apart.ofPath y inside).2.1 rfl)
    apart.places
  rw [Cell.facing_with_parent] at yGrafted
  have kept : ∀ id, id ≠ y → id ∉ around path →
      grafted.cellOf id = (relinked side arena x y inner.root?).cellOf id :=
    fun id notY outside => graftOnly.cells id fun named =>
      named.elim notY fun parent => outside (mem_around_of_up parent)
  obtain ⟨lower,result,lowerOk,resultOk,resultHung,resultOnly⟩ := apart.measures
    ((kept x apart.nodes fun inside => (apart.ofPath x inside).1 rfl).trans xLinked) yGrafted
    (outerLinked.congr fun id member =>
      kept id (apart.ofOuter id member).2.1 (apart.ofOuter id member).2.2.2)
    (innerLinked.congr fun id member =>
      kept id (apart.ofInner id member).2.1 (apart.ofInner id member).2.2)
    (farLinked.congr fun id member => kept id (apart.ofFar id member).2.1 (apart.ofFar id member).2.2.2)
    (by omega) (by omega) (by omega)
  have xMember : x ∈ (hang side outer x (hang side inner y far)).ids := by simp [mem_hang]
  have yMember : y ∈ (hang side outer x (hang side inner y far)).ids := by simp [mem_hang]
  refine ⟨changed,result,rotate_eq xCell yCell innerHung graftOk lowerOk resultOk,?_,resultHung,?_⟩
  · exact graftPath.congr fun id member => resultOnly.cells id fun named =>
      named.elim (apart.ofPath id member).1 (apart.ofPath id member).2.1
  · refine ((relinked_only inner.root?).widen ?_).trans ((graftOnly.widen ?_).trans
      (resultOnly.widen ?_))
    · rintro id (rfl | rfl | root)
      · simp [xMember]
      · simp [yMember]
      · simp [mem_hang,mem_of_root? root]
    · rintro id (rfl | parent)
      · simp [yMember]
      · simp [mem_around_of_up parent]
    · rintro id (rfl | rfl)
      · simp [xMember]
      · simp [yMember]

end Rotation

theorem turn_hung {tree : AvlTree} {arena : Arena} {side : Side} {path : List Frame}
    {outer inner far : Shape} {id child : NodeId} {height size : Nat}
    (encloses : arena.Encloses tree.root path (some id))
    (cell : arena.cellOf id = some (.facing side (up path) (some child) far.root? height size))
    (childHung : arena.Hung (some id) (hang side outer child inner))
    (farHung : arena.Hung (some id) far)
    (distinct : ((hang side (hang side outer child inner) id far).ids ++ around path).Nodup)
    (childLow : (hang side outer child inner).height ≤ 230) (farLow : far.height ≤ 230) :
    ∃ changed result,
      Uncut (fun field => rotate field side.other tree arena id) (changed,result,child) ∧
      result.Encloses changed.root path (some child) ∧
      result.Hung (up path) (hang side outer child (hang side inner id far)) ∧
      Arena.CellsOnly (· ∈ (hang side (hang side outer child inner) id far).ids ++ around path)
        arena result := by
  have flipped : hang side (hang side outer child inner) id far =
      hang side.other far id (hang side.other inner child outer) := by
    rw [hang_other,hang_other]
  have turned : hang side outer child (hang side inner id far) =
      hang side.other (hang side.other far id inner) child outer := by
    rw [hang_other,hang_other]
  rw [flipped] at distinct ⊢
  rw [← hang_other] at childHung childLow
  rw [turned]
  exact rotate_hung encloses (by rw [Cell.facing_other]; exact cell) farHung childHung distinct
    farLow childLow

/-- Lowering a node whose child on the given side is two higher than the other. -/
theorem lower_hung {tree : AvlTree} {arena : Arena} {side : Side} {path : List Frame}
    {heavy far : Shape} {id : NodeId} {height size : Nat}
    (encloses : arena.Encloses tree.root path (some id))
    (cell : arena.cellOf id = some (.facing side (up path) heavy.root? far.root? height size))
    (heavyHung : arena.Hung (some id) heavy) (farHung : arena.Hung (some id) far)
    (distinct : ((hang side heavy id far).ids ++ around path).Nodup)
    (heavyBalanced : heavy.Balanced) (farBalanced : far.Balanced)
    (high : heavy.height = far.height + 2) (low : heavy.height ≤ 220) :
    ∃ changed result top shape,
      Uncut (fun field => lower field side tree arena id) (changed,result,top) ∧
      shape.root? = some top ∧ result.Encloses changed.root path (some top) ∧
      result.Hung (up path) shape ∧ shape.Balanced ∧ shape.ids = (hang side heavy id far).ids ∧
      (shape.height = far.height + 2 ∨ shape.height = far.height + 3) ∧
      Arena.CellsOnly (· ∈ (hang side heavy id far).ids ++ around path) arena result := by
  have occupied : heavy ≠ .leaf := by
    rintro rfl
    simp [Shape.height] at high
  obtain ⟨outer,child,inner,rfl⟩ := eq_hang side occupied
  obtain ⟨childCell,outerHung,innerHung⟩ := Arena.hung_hang.mp heavyHung
  obtain ⟨node,read,equal⟩ := Arena.node_of_cell childCell
  have outerRoot : node.child side = outer.root? := by rw [Node.child_cell,equal,Cell.child_facing]
  have innerRoot : node.child side.other = inner.root? := by
    rw [Node.child_cell,equal,Cell.child_facing_other]
  have start (field : HeightField) : lower field side tree arena id =
      (if outer.height < inner.height then do
        let turned ← rotate field side tree arena child
        rotate field side.other turned.1 turned.2.1 id
      else rotate field side.other tree arena id) := by
    rw [lower,Arena.child_of_cell cell]
    simp only [Checked.ok_bind,Cell.child_facing,root?_hang,Checked.found,read,outerRoot,innerRoot,
      outerHung.heightAt,innerHung.heightAt]
  rw [root?_hang] at cell
  by_cases leans : outer.height < inner.height
  · -- the inner grandchild is turned up twice
    have innerOccupied : inner ≠ .leaf := by
      rintro rfl
      simp [Shape.height] at leans
    obtain ⟨first,middle,second,rfl⟩ := eq_hang side innerOccupied
    have childPlace : arena.Encloses tree.root (⟨side,id,far⟩ :: path) (some child) :=
      ⟨⟨height,size,cell⟩,farHung,encloses⟩
    have regroup := perm_around ⟨side,id,far⟩ path (hang side outer child (hang side first middle second))
    have childDistinct := regroup.nodup_iff.mp distinct
    have farLow : far.height ≤ 230 := by omega
    rw [height_hang] at low
    rw [root?_hang] at childCell
    obtain ⟨changed,turnedOnce,onceOk,⟨⟨h,s,onceCell⟩,onceFar,oncePath⟩,onceHung,onceOnly⟩ :=
      rotate_hung childPlace childCell outerHung innerHung childDistinct (by omega) (by omega)
    have sameIds : (hang side (hang side (hang side outer child first) middle second) id far).ids =
        (hang side (hang side outer child (hang side first middle second)) id far).ids := by
      apply @ids_eq_of_along side
      simp only [along_hang,List.append_assoc,List.cons_append]
    obtain ⟨final,result,twiceOk,twicePath,twiceHung,twiceOnly⟩ := turn_hung oncePath onceCell
      onceHung onceFar (by rw [sameIds]; exact distinct)
      (by simp only [height_hang] at low leans ⊢; omega) farLow
    obtain ⟨balanced,lowered⟩ := heavyBalanced.turnTwice farBalanced high leans
    refine ⟨final,result,middle,_,fun field roomy => ?_,root?_hang _ _ _ _,twicePath,twiceHung,balanced,
      ?_,Or.inl lowered,?_⟩
    · refine (start field).trans ?_
      simp only [if_pos leans,onceOk field roomy,Checked.ok_bind]
      exact twiceOk field roomy
    · apply @ids_eq_of_along side
      simp only [along_hang,List.append_assoc,List.cons_append]
    · rw [sameIds] at twiceOnly
      exact (onceOnly.widen fun other member => regroup.mem_iff.mpr member).trans twiceOnly
  · -- the child leans outwards, and one turn is enough
    obtain ⟨changed,result,ok,resultPath,resultHung,only⟩ := turn_hung encloses cell heavyHung farHung
      distinct (by omega) (by omega)
    obtain ⟨balanced,lowered⟩ := heavyBalanced.turn farBalanced high (Nat.le_of_not_lt leans)
    refine ⟨changed,result,child,_,fun field roomy => ?_,root?_hang _ _ _ _,resultPath,resultHung,
      balanced,?_,lowered,only⟩
    · exact (start field).trans ((if_neg leans).trans (ok field roomy))
    · apply @ids_eq_of_along side
      simp only [along_hang,List.append_assoc,List.cons_append]

def SettledHeight (left right settled : Nat) : Prop :=
  (left ≤ right + 1 ∧ right ≤ left + 1 ∧ settled = 1 + max left right) ∨
    (left = right + 2 ∧ (settled = left ∨ settled = left + 1)) ∨
    (right = left + 2 ∧ (settled = right ∨ settled = right + 1))

theorem settle_hung {tree : AvlTree} {arena : Arena} {path : List Frame} {left right : Shape}
    {id : NodeId} {height size : Nat} (encloses : arena.Encloses tree.root path (some id))
    (cell : arena.cellOf id = some ⟨up path,left.root?,right.root?,height,size⟩)
    (leftHung : arena.Hung (some id) left) (rightHung : arena.Hung (some id) right)
    (distinct : ((Shape.node left id right).ids ++ around path).Nodup)
    (leftBalanced : left.Balanced) (rightBalanced : right.Balanced)
    (leftHigh : left.height ≤ right.height + 2) (rightHigh : right.height ≤ left.height + 2)
    (leftLow : left.height ≤ 220) (rightLow : right.height ≤ 220) :
    ∃ changed result top shape,
      Uncut (fun field => settle field tree arena id) (changed,result,top) ∧
      shape.root? = some top ∧ result.Encloses changed.root path (some top) ∧
      result.Hung (up path) shape ∧ shape.Balanced ∧ shape.ids = (Shape.node left id right).ids ∧
      SettledHeight left.height right.height shape.height ∧
      Arena.CellsOnly (· ∈ (Shape.node left id right).ids ++ around path) arena result := by
  have fresh : id ∉ left.ids ++ right.ids :=
    (List.nodup_cons.mp (List.perm_middle.nodup_iff.mp (List.nodup_append.mp distinct).1)).1
  have outside : id ∉ around path := fun member =>
    (List.nodup_append.mp distinct).2.2 id (by simp [Shape.ids]) id member rfl
  obtain ⟨measured,measuredOk,hung,only⟩ := Arena.measure_hung (Cell.facing_left _ _ _ _ _ ▸ cell)
    leftHung rightHung fresh (by omega) (by omega)
  have newPath : measured.Encloses tree.root path (some id) :=
    encloses.congr fun other member => only.cells other fun same => outside (same ▸ member)
  have onlyHere : Arena.CellsOnly (· ∈ (Shape.node left id right).ids ++ around path) arena measured :=
    only.widen fun other same => by simp [same,Shape.ids]
  obtain ⟨newCell,newLeft,newRight⟩ := Arena.hung_hang.mp hung
  obtain ⟨node,read,equal⟩ := Arena.node_of_cell newCell
  have leftRoot : node.left = left.root? := congrArg Cell.left equal
  have rightRoot : node.right = right.root? := congrArg Cell.right equal
  have start : ∀ field, HeightField.Roomy field → settle field tree arena id =
      (if right.height + 1 < left.height then lower field .left tree measured id
      else if left.height + 1 < right.height then lower field .right tree measured id
      else .ok (tree,measured,id)) := by
    intro field roomy
    simp only [settle,measuredOk field roomy,Checked.ok_bind,read,leftRoot,rightRoot,
      newLeft.heightAt,newRight.heightAt,Checked.pure_ok]
  -- the two heavy cases are mirror images of each other
  by_cases leftHeavy : right.height + 1 < left.height
  · obtain ⟨changed,result,top,shape,ok,root,place,settled,balanced,same,lowered,rest⟩ :=
      lower_hung newPath newCell newLeft newRight distinct leftBalanced rightBalanced (by omega)
        leftLow
    refine ⟨changed,result,top,shape,fun field roomy => ?_,root,place,settled,balanced,same,?_,
      onlyHere.trans rest⟩
    · exact (start field roomy).trans ((if_pos leftHeavy).trans (ok field roomy))
    · exact Or.inr (Or.inl ⟨by omega,by omega⟩)
  · by_cases rightHeavy : left.height + 1 < right.height
    · have flipped : hang .right right id left = Shape.node left id right := rfl
      obtain ⟨changed,result,top,shape,ok,root,place,settled,balanced,same,lowered,rest⟩ :=
        lower_hung newPath (Cell.facing_right _ _ _ _ _ ▸ newCell) newRight newLeft
          (flipped ▸ distinct) rightBalanced leftBalanced (by omega) rightLow
      refine ⟨changed,result,top,shape,fun field roomy => ?_,root,place,settled,balanced,same,?_,
        onlyHere.trans rest⟩
      · refine (start field roomy).trans ?_
        rw [if_neg leftHeavy,if_pos rightHeavy]
        exact ok field roomy
      · exact Or.inr (Or.inr ⟨by omega,by omega⟩)
    · refine ⟨tree,measured,id,_,fun field roomy => ?_,rfl,newPath,hung,?_,rfl,?_,onlyHere⟩
      · refine (start field roomy).trans ?_
        rw [if_neg leftHeavy,if_neg rightHeavy]
      · exact ⟨by omega,by omega,leftBalanced,rightBalanced⟩
      · exact Or.inl ⟨by omega,by omega,rfl⟩

theorem settle_frame {tree : AvlTree} {arena : Arena} {frame : Frame} {path : List Frame}
    {shape : Shape} (encloses : arena.Encloses tree.root (frame :: path) shape.root?)
    (hung : arena.Hung (some frame.id) shape)
    (distinct : (shape.ids ++ around (frame :: path)).Nodup)
    (balanced : shape.Balanced) (siblingBalanced : frame.sibling.Balanced)
    (high : shape.height ≤ frame.sibling.height + 2) (siblingHigh : frame.sibling.height ≤ shape.height + 2)
    (low : shape.height ≤ 220) (siblingLow : frame.sibling.height ≤ 220) :
    ∃ changed result top settled,
      Uncut (fun field => settle field tree arena frame.id) (changed,result,top) ∧
      settled.root? = some top ∧ result.Encloses changed.root path (some top) ∧
      result.Hung (up path) settled ∧ settled.Balanced ∧
      settled.ids = (hang frame.side shape frame.id frame.sibling).ids ∧
      SettledHeight shape.height frame.sibling.height settled.height ∧
      Arena.CellsOnly (· ∈ shape.ids ++ around (frame :: path)) arena result := by
  obtain ⟨⟨height,size,cell⟩,siblingHung,place⟩ := encloses
  have regroup := perm_around frame path shape
  rw [← regroup.nodup_iff] at distinct
  have members : (fun id => id ∈ shape.ids ++ around (frame :: path)) =
      fun id => id ∈ (hang frame.side shape frame.id frame.sibling).ids ++ around path :=
    funext fun id => propext regroup.mem_iff.symm
  rw [members]
  cases side : frame.side with
  | left =>
    rw [side] at cell distinct
    exact settle_hung place cell hung siblingHung distinct balanced siblingBalanced high siblingHigh
      low siblingLow
  | right =>
    rw [side] at cell distinct
    obtain ⟨changed,result,top,settled,ok,root,newPlace,settledHung,settledBalanced,same,lowered,only⟩ :=
      settle_hung place cell siblingHung hung distinct siblingBalanced balanced siblingHigh high
        siblingLow low
    refine ⟨changed,result,top,settled,ok,root,newPlace,settledHung,settledBalanced,same,?_,only⟩
    unfold SettledHeight at lowered ⊢
    rw [Nat.max_comm]
    tauto

theorem settleUp_hung {path : List Frame} {fuel : Nat} {tree : AvlTree} {arena : Arena}
    {before shape : Shape} (encloses : arena.Encloses tree.root path shape.root?)
    (hung : arena.Hung (up path) shape) (balanced : shape.Balanced)
    (whole : (plug path before).Balanced) (few : (plug path before).size ≤ Width.w128.limit)
    (grown : shape.height = before.height ∨ shape.height = before.height + 1)
    (distinct : (shape.ids ++ around path).Nodup) (enough : path.length ≤ fuel) :
    ∃ changed result final,
      Uncut (fun field => settleUp field fuel tree arena (up path)) (changed,result) ∧
      changed.root = final.root? ∧ result.Hung none final ∧ final.Balanced ∧
      final.ids = (plug path shape).ids ∧
      Arena.CellsOnly (· ∈ shape.ids ++ around path) arena result := by
  -- along the way up; `before` is what the place held in the balanced tree, so that the place above
  -- has grown by one level at most once this one is settled
  induction path generalizing fuel tree arena before shape with
  | nil =>
    refine ⟨tree,arena,shape,fun field _ => ?_,encloses,hung,balanced,rfl,Arena.CellsOnly.refl _ _⟩
    cases fuel <;> rfl
  | cons frame path ih =>
    obtain ⟨fuel,rfl⟩ : ∃ less, fuel = less + 1 := ⟨fuel - 1,by simp at enough; omega⟩
    have hereBalanced : (hang frame.side before frame.id frame.sibling).Balanced :=
      balanced_of_plug whole
    have hereFew := size_le_plug path (hang frame.side before frame.id frame.sibling)
    have hereLow := hereBalanced.height_le (Nat.le_trans hereFew few)
    rw [height_hang] at hereLow
    obtain ⟨nearHigh,farHigh,_,siblingBalanced⟩ := (balanced_hang _ _ _ _).mp hereBalanced
    obtain ⟨changed,result,top,settled,ok,root,place,settledHung,settledBalanced,same,lowered,only⟩ :=
      settle_frame encloses hung distinct balanced siblingBalanced (by omega) (by omega) (by omega)
        (by omega)
    have regroup : (settled.ids ++ around path).Perm (shape.ids ++ around (frame :: path)) := by
      rw [same]
      exact perm_around frame path shape
    have newHeight : settled.height = (hang frame.side before frame.id frame.sibling).height ∨
        settled.height = (hang frame.side before frame.id frame.sibling).height + 1 := by
      rw [height_hang]
      unfold SettledHeight at lowered
      omega
    obtain ⟨last,final,finalShape,finalOk,finalRoot,finalHung,finalBalanced,finalSame,finalOnly⟩ :=
      ih (root ▸ place) settledHung settledBalanced whole few newHeight
        (regroup.nodup_iff.mpr distinct) (Nat.le_of_succ_le_succ enough)
    have parent : result.parent top = .ok (up path) := by
      cases settled with
      | leaf => cases root
      | node left id right =>
        cases root
        exact Arena.parent_of_cell settledHung.1
    refine ⟨last,final,finalShape,fun field roomy => ?_,finalRoot,finalHung,finalBalanced,?_,?_⟩
    · simp only [up,List.head?_cons,Option.map_some,settleUp,ok field roomy,Checked.ok_bind,parent]
      exact finalOk field roomy
    · rw [finalSame,plug]
      exact ids_plug_congr path same
    · exact only.trans (finalOnly.widen fun id member => regroup.mem_iff.mp member)

end AvlTree

end BalancedMove
