import BalancedMove.Arena.Basic
import BalancedMove.Width
import Mathlib.Data.Nat.Fib.Basic
import Mathlib.Tactic.Common
import Mathlib.Tactic.NormNum.NatFib

/-! Shapes of binary trees of ids, apart from any arena. The two directions are treated alike:
`hang` names the children of a node by side, and `along` lists a tree towards one side. A place in
a tree is the list of frames from there up to the root. -/
namespace BalancedMove

inductive Shape where
  | leaf
  | node (left : Shape) (id : NodeId) (right : Shape)

@[simp] theorem Side.other_ne (side : Side) : side.other ≠ side := by cases side <;> simp [Side.other]

/-- A sequence from left to right in the order in which it is met towards a side. -/
def Side.along (side : Side) (ids : List NodeId) : List NodeId :=
  match side with
  | .left => ids.reverse
  | .right => ids

theorem Side.mem_along (side : Side) {ids : List NodeId} {id : NodeId} :
    id ∈ side.along ids ↔ id ∈ ids := by
  cases side
  · exact List.mem_reverse
  · rfl

theorem Side.nodup_along (side : Side) {ids : List NodeId} : (side.along ids).Nodup ↔ ids.Nodup := by
  cases side
  · exact List.nodup_reverse
  · rfl

theorem Side.eq_other_of_ne {first second : Side} (differ : first ≠ second) :
    first = second.other := by
  cases first <;> cases second <;> simp_all [Side.other]

namespace Shape

def root? : Shape → Option NodeId
  | leaf => none
  | node _ id _ => some id

def ids : Shape → List NodeId
  | leaf => []
  | node left id right => left.ids ++ id :: right.ids

def height : Shape → Nat
  | leaf => 0
  | node left _ right => 1 + max left.height right.height

def size : Shape → Nat
  | leaf => 0
  | node left _ right => 1 + left.size + right.size

def Balanced : Shape → Prop
  | leaf => True
  | node left _ right => left.height ≤ right.height + 1 ∧ right.height ≤ left.height + 1 ∧
      left.Balanced ∧ right.Balanced

def hang (side : Side) (near : Shape) (id : NodeId) (far : Shape) : Shape :=
  match side with
  | .left => node near id far
  | .right => node far id near

def along (side : Side) (shape : Shape) : List NodeId :=
  match side with
  | .left => shape.ids.reverse
  | .right => shape.ids

theorem along_ids (side : Side) (shape : Shape) : shape.along side = side.along shape.ids := by
  cases side <;> rfl

section Hang

variable (side : Side) (near far : Shape) (id : NodeId)

theorem root?_node : (node near id far).root? = some id := rfl

@[simp] theorem root?_hang : (hang side near id far).root? = some id := by cases side <;> rfl

theorem hang_other : hang side.other near id far = hang side far id near := by cases side <;> rfl

@[simp] theorem height_hang : (hang side near id far).height = 1 + max near.height far.height := by
  cases side
  · rfl
  · simp [hang,height,Nat.max_comm]

@[simp] theorem size_hang : (hang side near id far).size = 1 + near.size + far.size := by
  cases side
  · rfl
  · simp [hang,size]
    omega

@[simp] theorem balanced_hang : (hang side near id far).Balanced ↔
    near.height ≤ far.height + 1 ∧ far.height ≤ near.height + 1 ∧ near.Balanced ∧ far.Balanced := by
  cases side
  · rfl
  · simp only [hang,Balanced]
    tauto

theorem along_hang : (hang side near id far).along side = far.along side ++ id :: near.along side := by
  cases side <;> simp [hang,along,ids]

theorem along_hang_other : (hang side.other near id far).along side =
    near.along side ++ id :: far.along side := by
  rw [hang_other,along_hang]

theorem perm_hang : (hang side near id far).ids.Perm (id :: (near.ids ++ far.ids)) := by
  cases side
  · exact List.perm_middle
  · exact List.perm_middle.trans (List.perm_append_comm.cons id)

theorem mem_hang {other : NodeId} : other ∈ (hang side near id far).ids ↔
    other = id ∨ other ∈ near.ids ∨ other ∈ far.ids := by
  rw [(perm_hang side near far id).mem_iff]
  simp

end Hang

theorem along_other (side : Side) (shape : Shape) :
    shape.along side.other = (shape.along side).reverse := by
  cases side <;> simp [along,Side.other]

theorem ids_eq_of_along {side : Side} {first second : Shape}
    (same : first.along side = second.along side) : first.ids = second.ids := by
  cases side
  · exact List.reverse_injective same
  · exact same

@[simp] theorem length_ids (shape : Shape) : shape.ids.length = shape.size := by
  induction shape with
  | leaf => rfl
  | node left id right leftLength rightLength =>
    simp [ids,size,leftLength,rightLength]
    omega

theorem eq_hang (side : Side) {shape : Shape} (occupied : shape ≠ leaf) :
    ∃ near id far, shape = hang side near id far := by
  cases shape with
  | leaf => exact absurd rfl occupied
  | node left id right =>
    cases side
    · exact ⟨left,id,right,rfl⟩
    · exact ⟨right,id,left,rfl⟩

theorem root?_eq_none {shape : Shape} : shape.root? = none ↔ shape = leaf := by
  cases shape <;> simp [root?]

theorem mem_of_root? {shape : Shape} {id : NodeId} (root : shape.root? = some id) :
    id ∈ shape.ids := by
  cases shape with
  | leaf => cases root
  | node left root right => simp_all [root?,ids]

section Height

theorem Balanced.fib_le {shape : Shape} (balanced : shape.Balanced) :
    Nat.fib (shape.height + 2) ≤ shape.size + 1 := by
  induction shape with
  | leaf => simp [height,size]
  | node left id right leftBound rightBound =>
    obtain ⟨leftHigh,rightHigh,leftBalanced,rightBalanced⟩ := balanced
    have leftFib := leftBound leftBalanced
    have rightFib := rightBound rightBalanced
    simp only [height,size]
    rcases Nat.le_total right.height left.height with order | order
    · rw [Nat.max_eq_left order]
      have step : Nat.fib (1 + left.height + 2) =
          Nat.fib (left.height + 1) + Nat.fib (left.height + 2) := by
        rw [← Nat.fib_add_two]
        congr 1
        omega
      have lower := Nat.fib_mono (show left.height + 1 ≤ right.height + 2 by omega)
      omega
    · rw [Nat.max_eq_right order]
      have step : Nat.fib (1 + right.height + 2) =
          Nat.fib (right.height + 1) + Nat.fib (right.height + 2) := by
        rw [← Nat.fib_add_two]
        congr 1
        omega
      have lower := Nat.fib_mono (show right.height + 1 ≤ left.height + 2 by omega)
      omega

/-- No balanced tree whose nodes have different positions as keys is higher than this. -/
theorem Balanced.height_le {shape : Shape} (balanced : shape.Balanced)
    (few : shape.size ≤ Width.w128.limit) : shape.height ≤ 200 := by
  by_contra high
  have large : Width.w128.limit + 1 < Nat.fib 203 := by
    have value : Width.w128.limit = 340282366920938463463374607431768211456 := by decide +kernel
    rw [value]
    norm_num
  have mono := Nat.fib_mono (show 203 ≤ shape.height + 2 by omega)
  have bound := balanced.fib_le
  omega

/-- Turning the child on one side up over its parent, where that child leans outwards. -/
theorem Balanced.turn {side : Side} {outer inner far : Shape} {child id : NodeId}
    (heavy : (hang side outer child inner).Balanced) (light : far.Balanced)
    (high : (hang side outer child inner).height = far.height + 2)
    (leans : inner.height ≤ outer.height) :
    (hang side outer child (hang side inner id far)).Balanced ∧
      ((hang side outer child (hang side inner id far)).height = far.height + 2 ∨
        (hang side outer child (hang side inner id far)).height = far.height + 3) := by
  simp only [balanced_hang,height_hang] at *
  obtain ⟨outerHigh,innerHigh,outerBalanced,innerBalanced⟩ := heavy
  refine ⟨⟨by omega,by omega,outerBalanced,by omega,by omega,innerBalanced,light⟩,by omega⟩

/-- Turning the inner grandchild up over both, where the child leans inwards. -/
theorem Balanced.turnTwice {side : Side} {outer first second far : Shape} {child middle id : NodeId}
    (heavy : (hang side outer child (hang side first middle second)).Balanced)
    (light : far.Balanced)
    (high : (hang side outer child (hang side first middle second)).height = far.height + 2)
    (leans : outer.height < (hang side first middle second).height) :
    (hang side (hang side outer child first) middle (hang side second id far)).Balanced ∧
      (hang side (hang side outer child first) middle (hang side second id far)).height =
        far.height + 2 := by
  simp only [balanced_hang,height_hang] at *
  obtain ⟨outerHigh,innerHigh,outerBalanced,firstHigh,secondHigh,firstBalanced,secondBalanced⟩ := heavy
  refine ⟨⟨by omega,by omega,?_,?_⟩,by omega⟩
  · exact ⟨by omega,by omega,outerBalanced,firstBalanced⟩
  · exact ⟨by omega,by omega,secondBalanced,light⟩

end Height

end Shape

/-- A step from a place in a tree up to its parent `id`, whose child on `side` is left and whose
other child is `sibling`. -/
structure Frame where
  side : Side
  id : NodeId
  sibling : Shape

namespace Frame

def plug : List Frame → Shape → Shape
  | [], shape => shape
  | frame :: path, shape => plug path (.hang frame.side shape frame.id frame.sibling)

def up (path : List Frame) : Option NodeId := path.head?.map Frame.id

def around (path : List Frame) : List NodeId :=
  path.flatMap fun frame => frame.id :: frame.sibling.ids

theorem around_cons (frame : Frame) (path : List Frame) :
    around (frame :: path) = frame.id :: (frame.sibling.ids ++ around path) := rfl

theorem mem_around_of_up {path : List Frame} {id : NodeId} (parent : up path = some id) :
    id ∈ around path := by
  cases path with
  | nil => cases parent
  | cons frame path => simp_all [up,around_cons]

/-- The ids met towards a side once the place has been left. -/
def beyond (side : Side) : List Frame → List NodeId
  | [] => []
  | frame :: path =>
    if frame.side = side then beyond side path
    else frame.id :: frame.sibling.along side ++ beyond side path

theorem plug_append (first second : List Frame) (shape : Shape) :
    plug (first ++ second) shape = plug second (plug first shape) := by
  induction first generalizing shape with
  | nil => rfl
  | cons frame first ih => exact ih _

theorem plug_single (frame : Frame) (shape : Shape) :
    plug [frame] shape = .hang frame.side shape frame.id frame.sibling := rfl

theorem locate (side : Side) {shape : Shape} {id : NodeId} (member : id ∈ shape.ids) :
    ∃ path near far, shape = plug path (.hang side near id far) := by
  induction shape with
  | leaf => simp [Shape.ids] at member
  | node left root right leftFound rightFound =>
    simp only [Shape.ids,List.mem_append,List.mem_cons] at member
    rcases member with inLeft | rfl | inRight
    · obtain ⟨path,near,far,found⟩ := leftFound inLeft
      exact ⟨path ++ [⟨.left,root,right⟩],near,far,by rw [plug_append,← found,plug_single]; rfl⟩
    · obtain ⟨near,other,far,found⟩ :=
        Shape.eq_hang side (show Shape.node left id right ≠ .leaf by simp)
      have same : some id = some other := by
        have roots := congrArg Shape.root? found
        rwa [Shape.root?_hang] at roots
      exact ⟨[],near,far,by rw [found,Option.some.inj same]; rfl⟩
    · obtain ⟨path,near,far,found⟩ := rightFound inRight
      exact ⟨path ++ [⟨.right,root,left⟩],near,far,by rw [plug_append,← found,plug_single]; rfl⟩

theorem perm_around (frame : Frame) (path : List Frame) (shape : Shape) :
    ((Shape.hang frame.side shape frame.id frame.sibling).ids ++ around path).Perm
      (shape.ids ++ around (frame :: path)) := by
  refine ((Shape.perm_hang frame.side shape frame.sibling frame.id).append_right _).trans ?_
  rw [around_cons,List.cons_append,List.append_assoc]
  exact List.perm_middle.symm

theorem perm_plug (path : List Frame) (shape : Shape) :
    (plug path shape).ids.Perm (shape.ids ++ around path) := by
  induction path generalizing shape with
  | nil => simp [plug,around]
  | cons frame path ih => exact (ih _).trans (perm_around frame path shape)

theorem along_plug (side : Side) (path : List Frame) (shape : Shape) :
    (plug path shape).along side =
      (beyond side.other path).reverse ++ shape.along side ++ beyond side path := by
  induction path generalizing shape with
  | nil => simp [plug,beyond]
  | cons frame path ih =>
    rw [plug,ih]
    by_cases same : frame.side = side
    · have differ : frame.side ≠ side.other := by
        rw [same]
        exact (Side.other_ne side).symm
      rw [beyond,if_neg differ,beyond,if_pos same,same,Shape.along_hang,Shape.along_other]
      simp
    · have other := Side.eq_other_of_ne same
      rw [beyond,if_pos other,beyond,if_neg same,other,Shape.along_hang_other]
      simp

theorem beyond_append (side : Side) (first second : List Frame) :
    beyond side (first ++ second) = beyond side first ++ beyond side second := by
  induction first with
  | nil => rfl
  | cons frame first ih =>
    rw [List.cons_append,beyond,beyond,ih]
    split
    · rfl
    · simp

theorem size_le_plug (path : List Frame) (shape : Shape) : shape.size ≤ (plug path shape).size := by
  rw [← Shape.length_ids,← Shape.length_ids,(perm_plug path shape).length_eq,List.length_append]
  exact Nat.le_add_right _ _

theorem ids_plug_congr (path : List Frame) {first second : Shape} (same : first.ids = second.ids) :
    (plug path first).ids = (plug path second).ids := by
  have right := along_plug .right path
  simp only [Shape.along] at right
  rw [right,right,same]

theorem length_path_le (path : List Frame) : path.length ≤ (around path).length := by
  induction path with
  | nil => simp
  | cons frame path ih =>
    simp only [around,List.flatMap_cons,List.length_append,List.length_cons] at ih ⊢
    omega

theorem balanced_of_plug {path : List Frame} {shape : Shape} (balanced : (plug path shape).Balanced) :
    shape.Balanced := by
  induction path generalizing shape with
  | nil => exact balanced
  | cons frame path ih => exact ((Shape.balanced_hang _ _ _ _).mp (ih balanced)).2.2.1

end Frame

end BalancedMove
