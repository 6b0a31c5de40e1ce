import BalancedMove.Proofs.Arena.HeightField
import BalancedMove.Proofs.Arena.Shape

/-! Trees in an arena as images of shapes. `Hung` ties parents, children, heights and sizes below a
parent to a shape. `Encloses` says the same of everything outside a place, except that heights and
sizes on the way up to the root are left open: they are the ones that an insertion still has to
bring up to date. -/
namespace BalancedMove

def Cell.facing (side : Side) (parent near far : Option NodeId) (height size : Nat) : Cell :=
  match side with
  | .left => ⟨parent,near,far,height,size⟩
  | .right => ⟨parent,far,near,height,size⟩

namespace Cell

variable (side : Side) (parent near far id : Option NodeId) (height size : Nat)

@[simp] theorem parent_facing : (facing side parent near far height size).parent = parent := by
  cases side <;> rfl

@[simp] theorem child_facing : (facing side parent near far height size).child side = near := by
  cases side <;> rfl

@[simp] theorem child_facing_other :
    (facing side parent near far height size).child side.other = far := by
  cases side <;> rfl

theorem facing_other :
    facing side.other parent near far height size = facing side parent far near height size := by
  cases side <;> rfl

theorem facing_left : facing .left parent near far height size = ⟨parent,near,far,height,size⟩ := rfl

theorem facing_right : facing .right parent near far height size = ⟨parent,far,near,height,size⟩ := rfl

@[simp] theorem setChild_facing : (facing side parent near far height size).setChild side id =
    facing side parent id far height size := by
  cases side <;> rfl

@[simp] theorem setChild_facing_other :
    (facing side parent near far height size).setChild side.other id =
      facing side parent near id height size := by
  cases side <;> rfl

@[simp] theorem facing_with_parent :
    { facing side parent near far height size with parent := id } =
      facing side id near far height size := by
  cases side <;> rfl

end Cell

namespace Arena

/-- A shape is linked in the arena below a parent, with its heights and sizes. -/
def Hung (arena : Arena) : Option NodeId → Shape → Prop
  | _, .leaf => True
  | parent, .node left id right =>
    arena.cellOf id = some ⟨parent,left.root?,right.root?,1 + max left.height right.height,
      1 + left.size + right.size⟩ ∧ Hung arena (some id) left ∧ Hung arena (some id) right

/-- The surroundings of a place, in which the node `hole` is the child. -/
def Encloses (arena : Arena) (root : Option NodeId) : List Frame → Option NodeId → Prop
  | [], hole => root = hole
  | frame :: path, hole =>
    (∃ height size, arena.cellOf frame.id =
      some (.facing frame.side (Frame.up path) hole frame.sibling.root? height size)) ∧
      arena.Hung (some frame.id) frame.sibling ∧ Encloses arena root path (some frame.id)

section Views

variable {arena changed : Arena} {parent : Option NodeId} {shape : Shape}

theorem hung_hang {side : Side} {near far : Shape} {id : NodeId} :
    arena.Hung parent (.hang side near id far) ↔
      arena.cellOf id = some (.facing side parent near.root? far.root?
        (1 + max near.height far.height) (1 + near.size + far.size)) ∧
      arena.Hung (some id) near ∧ arena.Hung (some id) far := by
  cases side
  · rfl
  · simp only [Shape.hang,Hung,Cell.facing,Nat.max_comm near.height,Nat.add_right_comm _ near.size]
    tauto

theorem Hung.congr (hung : arena.Hung parent shape)
    (same : ∀ id ∈ shape.ids, changed.cellOf id = arena.cellOf id) : changed.Hung parent shape := by
  induction shape generalizing parent with
  | leaf => trivial
  | node left id right leftHung rightHung =>
    obtain ⟨cell,inLeft,inRight⟩ := hung
    refine ⟨(same id (by simp [Shape.ids])).trans cell,?_,?_⟩
    · exact leftHung inLeft fun other member => same other (by simp [Shape.ids,member])
    · exact rightHung inRight fun other member => same other (by simp [Shape.ids,member])

theorem Hung.reparent {other : Option NodeId} (hung : arena.Hung parent shape)
    (distinct : shape.ids.Nodup)
    (change : ∀ id ∈ shape.ids, changed.cellOf id = if shape.root? = some id then
      (arena.cellOf id).map fun cell => { cell with parent := other } else arena.cellOf id) :
    changed.Hung other shape := by
  cases shape with
  | leaf => trivial
  | node left id right =>
    obtain ⟨cell,inLeft,inRight⟩ := hung
    have absent := (List.nodup_cons.mp (List.perm_middle.nodup_iff.mp distinct)).1
    have own := change id (by simp [Shape.ids])
    have others : ∀ member ∈ left.ids ++ right.ids, changed.cellOf member = arena.cellOf member := by
      intro member inside
      have differ : id ≠ member := fun same => absent (same ▸ inside)
      have inShape : member ∈ (Shape.node left id right).ids := by
        simp only [Shape.ids,List.mem_append,List.mem_cons] at inside ⊢
        tauto
      rw [change member inShape]
      simp [Shape.root?,differ]
    refine ⟨by simpa [Shape.root?,cell] using own,?_,?_⟩
    · exact inLeft.congr fun member inside => others member (by simp [inside])
    · exact inRight.congr fun member inside => others member (by simp [inside])

theorem Hung.lt_size (hung : arena.Hung parent shape) : ∀ id ∈ shape.ids, id < arena.size := by
  induction shape generalizing parent with
  | leaf => simp [Shape.ids]
  | node left id right leftBound rightBound =>
    obtain ⟨cell,inLeft,inRight⟩ := hung
    intro other member
    simp only [Shape.ids,List.mem_append,List.mem_cons] at member
    rcases member with inside | rfl | inside
    · exact leftBound inLeft other inside
    · exact lt_of_cell cell
    · exact rightBound inRight other inside

theorem Hung.heightAt (hung : arena.Hung parent shape) :
    arena.heightAt shape.root? = .ok shape.height := by
  cases shape with
  | leaf => rfl
  | node left id right =>
    obtain ⟨node,read,cell⟩ := node_of_cell hung.1
    simp only [Shape.root?,Arena.heightAt,read,Checked.ok_bind,Checked.pure_ok]
    exact congrArg (fun cell => Except.ok cell.height) cell

theorem Hung.sizeAt (hung : arena.Hung parent shape) :
    arena.sizeAt shape.root? = .ok shape.size := by
  cases shape with
  | leaf => rfl
  | node left id right =>
    obtain ⟨node,read,cell⟩ := node_of_cell hung.1
    simp only [Shape.root?,Arena.sizeAt,read,Checked.ok_bind,Checked.pure_ok]
    exact congrArg (fun cell => Except.ok cell.size) cell

theorem Encloses.congr {root hole : Option NodeId} {path : List Frame}
    (encloses : arena.Encloses root path hole)
    (same : ∀ id ∈ Frame.around path, changed.cellOf id = arena.cellOf id) :
    changed.Encloses root path hole := by
  induction path generalizing hole with
  | nil => exact encloses
  | cons frame path ih =>
    obtain ⟨⟨height,size,cell⟩,sibling,rest⟩ := encloses
    have inside : ∀ id, id = frame.id ∨ id ∈ frame.sibling.ids ∨ id ∈ Frame.around path →
        changed.cellOf id = arena.cellOf id := by
      intro id member
      apply same
      simpa [Frame.around] using member
    refine ⟨⟨height,size,(inside _ (Or.inl rfl)).trans cell⟩,?_,?_⟩
    · exact sibling.congr fun id member => inside id (Or.inr (Or.inl member))
    · exact ih rest fun id member => inside id (Or.inr (Or.inr member))

theorem Encloses.lt_size {root hole : Option NodeId} {path : List Frame}
    (encloses : arena.Encloses root path hole) : ∀ id ∈ Frame.around path, id < arena.size := by
  induction path generalizing hole with
  | nil => simp [Frame.around]
  | cons frame path ih =>
    obtain ⟨⟨height,size,cell⟩,sibling,rest⟩ := encloses
    intro id member
    have cases : id = frame.id ∨ id ∈ frame.sibling.ids ∨ id ∈ Frame.around path := by
      simpa [Frame.around] using member
    rcases cases with rfl | inside | inside
    · exact lt_of_cell cell
    · exact sibling.lt_size id inside
    · exact ih rest id inside

theorem Encloses.descend {root : Option NodeId} {path descent : List Frame}
    (encloses : arena.Encloses root path (Frame.plug descent shape).root?)
    (hung : arena.Hung (Frame.up path) (Frame.plug descent shape)) :
    arena.Encloses root (descent ++ path) shape.root? ∧
      arena.Hung (Frame.up (descent ++ path)) shape := by
  induction descent generalizing shape with
  | nil => exact ⟨encloses,hung⟩
  | cons frame descent ih =>
    obtain ⟨place,here⟩ := ih encloses hung
    obtain ⟨cell,own,sibling⟩ := hung_hang.mp here
    rw [Shape.root?_hang] at place
    exact ⟨⟨⟨_,_,cell⟩,sibling,place⟩,own⟩

theorem Hung.at_place {root : Option NodeId} {path : List Frame}
    (isRoot : root = (Frame.plug path shape).root?) (hung : arena.Hung none (Frame.plug path shape)) :
    arena.Encloses root path shape.root? ∧ arena.Hung (Frame.up path) shape := by
  have whole : arena.Encloses root [] (Frame.plug path shape).root? := isRoot
  simpa using whole.descend hung

end Views

section Puts

variable (arena : Arena) (id : NodeId)

theorem cellOf_put_setChild (side : Side) (child : Option NodeId) (other : NodeId) :
    (arena.put id fun node => node.setChild side child).cellOf other =
      if other = id then (arena.cellOf other).map fun cell => cell.setChild side child
      else arena.cellOf other :=
  @cellOf_put _ _ _ (fun cell => cell.setChild side child)
    (fun node => Node.cell_setChild node side child) other

theorem cellOf_put_parent (parent : Option NodeId) (other : NodeId) :
    (arena.put id fun node => { node with parent := parent }).cellOf other =
      if other = id then (arena.cellOf other).map fun cell => { cell with parent := parent }
      else arena.cellOf other :=
  @cellOf_put _ _ _ (fun cell => { cell with parent := parent }) (fun _ => rfl) other

theorem put_setChild_only (side : Side) (child : Option NodeId) :
    CellsOnly (· = id) arena (arena.put id fun node => node.setChild side child) :=
  CellsOnly.put _ rfl (fun node => Node.links_setChild node side child)
    fun node => Node.label_setChild node side child

theorem put_parent_only (parent : Option NodeId) :
    CellsOnly (· = id) arena (arena.put id fun node => { node with parent := parent }) :=
  CellsOnly.put _ rfl (fun _ => rfl) fun _ => rfl

end Puts

theorem measure_hung {arena : Arena} {side : Side} {parent : Option NodeId} {near far : Shape}
    {id : NodeId} {height size : Nat}
    (cell : arena.cellOf id = some (.facing side parent near.root? far.root? height size))
    (nearHung : arena.Hung (some id) near) (farHung : arena.Hung (some id) far)
    (fresh : id ∉ near.ids ++ far.ids) (nearLow : near.height ≤ 240) (farLow : far.height ≤ 240) :
    ∃ result, Uncut (fun field => arena.measure field id) result ∧
      result.Hung parent (.hang side near id far) ∧
      CellsOnly (· = id) arena result := by
  obtain ⟨node,read,equal⟩ := node_of_cell cell
  have inside := lt_of_cell cell
  -- the two heights and sizes, read as those of the left and the right child
  have heights : ∃ left right, arena.heightAt node.left = .ok left ∧
      arena.heightAt node.right = .ok right ∧ max left right = max near.height far.height := by
    cases side
    · have first : node.left = near.root? := congrArg Cell.left equal
      have second : node.right = far.root? := congrArg Cell.right equal
      exact ⟨_,_,by rw [first,nearHung.heightAt],by rw [second,farHung.heightAt],rfl⟩
    · have first : node.left = far.root? := congrArg Cell.left equal
      have second : node.right = near.root? := congrArg Cell.right equal
      exact ⟨_,_,by rw [first,farHung.heightAt],by rw [second,nearHung.heightAt],Nat.max_comm _ _⟩
  have sizes : ∃ left right, arena.sizeAt node.left = .ok left ∧
      arena.sizeAt node.right = .ok right ∧ 1 + left + right = 1 + near.size + far.size := by
    cases side
    · have first : node.left = near.root? := congrArg Cell.left equal
      have second : node.right = far.root? := congrArg Cell.right equal
      exact ⟨_,_,by rw [first,nearHung.sizeAt],by rw [second,farHung.sizeAt],rfl⟩
    · have first : node.left = far.root? := congrArg Cell.left equal
      have second : node.right = near.root? := congrArg Cell.right equal
      exact ⟨_,_,by rw [first,farHung.sizeAt],by rw [second,nearHung.sizeAt],Nat.add_right_comm _ _ _⟩
  obtain ⟨leftHeight,rightHeight,readLeft,readRight,highest⟩ := heights
  obtain ⟨leftSize,rightSize,countLeft,countRight,total⟩ := sizes
  have small : 1 + max near.height far.height < Width.w8.limit := by
    have limit : Width.w8.limit = 256 := rfl
    omega
  let change (node : Node) : Node :=
    { node with height := 1 + max near.height far.height, size := 1 + near.size + far.size }
  have only : CellsOnly (· = id) arena (arena.put id change) :=
    CellsOnly.put _ rfl (fun _ => rfl) fun _ => rfl
  refine ⟨arena.put id change,fun field roomy => ?_,?_,only⟩
  · simp only [measure,read,Checked.ok_bind,readLeft,readRight,countLeft,countRight,highest,
      total,roomy _ small]
    exact modify_put inside change
  · refine hung_hang.mpr ⟨?_,?_,?_⟩
    · rw [@cellOf_put _ _ change (fun cell => { cell with
        height := 1 + max near.height far.height, size := 1 + near.size + far.size }) (fun _ => rfl),
        if_pos rfl,cell]
      cases side <;> rfl
    · exact nearHung.congr fun other member =>
        only.cells other fun same => fresh (by simp [← same,member])
    · exact farHung.congr fun other member =>
        only.cells other fun same => fresh (by simp [← same,member])

end Arena

end BalancedMove
