import BalancedMove.Proofs.Arena.SharedTrees

/-! Order statistics of a tree: every query that follows links or reads subtree sizes, against the sequence
that the tree shows. Descents are read off the shape of the tree, and ascents off the place of a node in
it: what lies beyond the place towards a side is met there, and in that order. -/
namespace BalancedMove

open Sequence

namespace AvlTree

open Shape BalancedMove.Frame

variable {tree : AvlTree} {arena : Arena} {shown left right : List NodeId} {id : NodeId}

theorem nodeAt_hung {parent : Option NodeId} {shape : Shape} (hung : arena.Hung parent shape) (i : Nat)
    {fuel : Nat} (enough : shape.size ≤ fuel) : arena.nodeAt fuel i shape.root? = .ok shape.ids[i]? := by
  induction shape generalizing parent i fuel with
  | leaf => cases fuel <;> rfl
  | node left id right leftFound rightFound =>
    obtain ⟨cell,leftHung,rightHung⟩ := hung
    simp only [Shape.size] at enough
    obtain ⟨fuel,rfl⟩ : ∃ less, fuel = less + 1 := ⟨fuel - 1,by omega⟩
    obtain ⟨node,read,isCell⟩ := Arena.node_of_cell cell
    have leftRoot : node.left = left.root? := congrArg Cell.left isCell
    have rightRoot : node.right = right.root? := congrArg Cell.right isCell
    simp only [root?_node,Arena.nodeAt,read,Checked.ok_bind,leftRoot,rightRoot,leftHung.sizeAt,Shape.ids]
    rw [← length_ids]
    by_cases inLeft : i < left.ids.length
    · rw [if_pos inLeft,leftFound leftHung i (by omega),List.getElem?_append_left inLeft]
    · rw [if_neg inLeft,List.getElem?_append_right (Nat.le_of_not_lt inLeft)]
      by_cases here : i = left.ids.length
      · rw [if_pos here,here,Nat.sub_self]
        rfl
      · obtain ⟨j,rfl⟩ : ∃ j, i = j + (left.ids.length + 1) := ⟨i - (left.ids.length + 1),by omega⟩
        have behind : j + (left.ids.length + 1) - left.ids.length = j + 1 := by omega
        rw [if_neg here,Nat.add_sub_cancel,rightFound rightHung j (by omega),behind]
        rfl

theorem Holds.select (holds : tree.Holds arena shown) (i : Nat) :
    tree.select arena i = .ok shown[i]? := by
  have short := holds.length_le
  obtain ⟨shape,root,hung,_,rfl,_⟩ := holds
  rw [length_ids] at short
  rw [AvlTree.select,root]
  exact nodeAt_hung hung i (show shape.size ≤ arena.stepLimit by rw [Arena.stepLimit]; omega)

/-- On the way up, a node and its left subtree are counted when the way comes from the right. -/
theorem rankAbove_encloses {root : Option NodeId} {path : List Frame}
    (encloses : arena.Encloses root path (some id)) (parent : arena.parent id = .ok (up path))
    (outside : id ∉ around path) (distinct : (around path).Nodup) (before : Nat) {fuel : Nat}
    (enough : path.length < fuel) :
    arena.rankAbove fuel id before = .ok (before + (beyond .left path).length) := by
  induction path generalizing id before fuel with
  | nil =>
    obtain ⟨fuel,rfl⟩ : ∃ less, fuel = less + 1 := ⟨fuel - 1,by omega⟩
    simp [Arena.rankAbove,parent,up,beyond]
  | cons frame path ih =>
    obtain ⟨fuel,rfl⟩ : ∃ less, fuel = less + 1 := ⟨fuel - 1,by omega⟩
    obtain ⟨parentUp,beyondPath,rest,notSibling⟩ := climb_step encloses outside distinct
    obtain ⟨⟨height,size,cell⟩,sibling,place⟩ := encloses
    obtain ⟨node,read,isCell⟩ := Arena.node_of_cell cell
    have shorter : path.length < fuel := Nat.lt_of_succ_lt_succ enough
    have above := fun before => ih place parentUp beyondPath rest before shorter
    simp only [Arena.rankAbove,parent,up,List.head?_cons,Option.map_some,Checked.ok_bind,read]
    cases side : frame.side with
    | left =>
      rw [side] at isCell
      have far : node.right = frame.sibling.root? := congrArg Cell.right isCell
      rw [if_neg (far ▸ notSibling),above,beyond,if_pos side]
    | right =>
      rw [side] at isCell
      have near : node.right = some id := congrArg Cell.right isCell
      have far : node.left = frame.sibling.root? := congrArg Cell.left isCell
      have counted : (beyond .left (frame :: path)).length =
          frame.sibling.size + 1 + (beyond .left path).length := by
        simp [beyond,side,along]
        omega
      rw [if_pos near,far,sibling.sizeAt,Checked.ok_bind,above,counted]
      congr 1
      omega

theorem Holds.rank (holds : tree.Holds arena (left ++ id :: right)) :
    arena.rank id = .ok left.length := by
  obtain ⟨shape,root,hung,_,same,distinct⟩ := holds
  obtain ⟨path,near,far,rfl⟩ := locate .left (show id ∈ shape.ids by simp [same])
  obtain ⟨place,here⟩ := hung.at_place root
  rw [root?_hang] at place
  have order := along_plug .right path (hang .left near id far)
  have split : left ++ id :: right = ((beyond .left path).reverse ++ near.ids) ++
      id :: (far.ids ++ beyond .right path) := by
    rw [← same]
    simpa [along,hang,Shape.ids,Side.other] using order
  obtain ⟨front,_⟩ := split_unique split distinct
  rw [← same] at distinct
  obtain ⟨_,aroundDistinct,apart⟩ := List.nodup_append.mp ((perm_plug _ _).nodup_iff.mp distinct)
  obtain ⟨cell,nearHung,_⟩ := Arena.hung_hang.mp here
  have child := Arena.child_of_cell cell .left
  have parent := Arena.parent_of_cell cell
  rw [Cell.child_facing] at child
  rw [Cell.parent_facing] at parent
  have outside : id ∉ around path := fun inside => apart id (by simp [mem_hang]) id inside rfl
  have short := path_le_stepLimit place aroundDistinct
  have climbed := rankAbove_encloses place parent outside aroundDistinct near.size
    (show path.length < arena.stepLimit by rw [Arena.stepLimit]; omega)
  rw [Arena.rank,child,Checked.ok_bind,nearHung.sizeAt,Checked.ok_bind,climbed,front]
  simp
  omega

theorem Holds.second? (holds : tree.Holds arena shown) : tree.second? arena = .ok shown[1]? := by
  rw [AvlTree.second?,holds.min?,Checked.ok_bind]
  cases shown with
  | nil => rfl
  | cons first rest =>
    rw [List.getElem?_cons_succ,← List.head?_eq_getElem?]
    exact @Holds.next tree arena [] rest first holds

/-- What the order queries answer about a sequence of nodes. -/
structure Answers (tree : AvlTree) (arena : Arena) (shown : List NodeId) : Prop where
  ids : tree.ids arena = .ok shown
  greatest : ∀ key, tree.greatestAtMost arena key =
    .ok (shown.filter fun id => arena.key id ≤ key).getLast?
  select : ∀ i, tree.select arena i = .ok shown[i]?
  rank : ∀ i id, shown[i]? = some id → arena.rank id = .ok i
  next : ∀ i id, shown[i]? = some id → arena.treeNext id = .ok shown[i + 1]?
  prev : ∀ i id, shown[i + 1]? = some id → arena.treePrev id = .ok shown[i]?
  first : ∀ id, shown[0]? = some id → arena.treePrev id = .ok none
  min : tree.min? arena = .ok shown[0]?
  max : tree.max? arena = .ok shown[shown.length - 1]?
  second : tree.second? arena = .ok shown[1]?

theorem Holds.answers (holds : tree.Holds arena shown)
    (sorted : shown.Pairwise fun x y => arena.key x ≤ arena.key y) : tree.Answers arena shown := by
  refine ⟨holds.ids,holds.greatestAtMost (keyed_key holds.lt_size) sorted,holds.select,?_,?_,?_,?_,?_,?_,
    holds.second?⟩
  · intro i id found
    obtain ⟨left,right,rfl,rfl⟩ := exists_split found
    exact holds.rank
  · intro i id found
    obtain ⟨left,right,rfl,rfl⟩ := exists_split found
    rw [holds.next,List.getElem?_append_right (Nat.le_add_right _ 1),Nat.add_sub_cancel_left,
      List.getElem?_cons_succ,List.head?_eq_getElem?]
  · intro i id found
    obtain ⟨left,right,rfl,place⟩ := exists_split found
    rw [holds.prev,List.getLast?_eq_getElem?,List.getElem?_append_left (by omega),place]
    rfl
  · intro id found
    obtain ⟨left,right,rfl,place⟩ := exists_split found
    rw [holds.prev,List.length_eq_zero_iff.mp place]
    rfl
  · rw [holds.min?,List.head?_eq_getElem?]
  · rw [holds.max?,List.getLast?_eq_getElem?]

end AvlTree

namespace TreeOperation

variable {ι : Type} [DecidableEq ι]

def replay (key : NodeId → Nat) (shown : ι → List NodeId) (log : List (ι × TreeOperation)) :
    ι → List NodeId :=
  log.foldl (fun shown entry =>
    Function.update shown entry.1 (entry.2.act key (shown entry.1))) shown

end TreeOperation

namespace SharedTrees

variable {ι : Type}

def unplanted (pairs : List Pair) : SharedTrees ι := ⟨Arena.ofPairs pairs,fun _ => {}⟩

def runWith [DecidableEq ι] (field : HeightField) (shared : SharedTrees ι)
    (log : List (ι × TreeOperation)) : Checked (SharedTrees ι) :=
  log.foldlM (fun shared entry => shared.applyWith field entry.1 entry.2) shared

def run [DecidableEq ι] (shared : SharedTrees ι) (log : List (ι × TreeOperation)) :
    Checked (SharedTrees ι) := shared.runWith .byte log

variable {shared : SharedTrees ι} {shown : ι → List NodeId}

theorem Shows.runWith_log [DecidableEq ι] (shows : shared.Shows shown)
    (small : shared.arena.size ≤ Width.w128.limit) (log : List (ι × TreeOperation))
    (admits : TreeOperation.Admits shared.arena.size shared.arena.key shown log) :
    ∃ after, Uncut (fun field => shared.runWith field log) after ∧
      after.Shows (TreeOperation.replay shared.arena.key shown log) ∧
      after.arena.size = shared.arena.size := by
  induction log generalizing shared shown with
  | nil => exact ⟨shared,fun _ _ => rfl,shows,rfl⟩
  | cons entry rest ih =>
    obtain ⟨target,operation⟩ := entry
    obtain ⟨admitted,later⟩ := admits
    obtain ⟨middle,ok,still,spares⟩ := shows.applyWith small admitted
    have size := spares.arena.size
    have keys := Arena.key_congr spares.arena.labels
    rw [← keys] at still
    rw [← size,← keys] at later
    obtain ⟨after,ran,final,lastSize⟩ := ih still (size.symm ▸ small) later
    rw [keys] at final
    refine ⟨after,fun field roomy => ?_,final,lastSize.trans size⟩
    simp only [SharedTrees.runWith,List.foldlM_cons,ok field roomy,Checked.ok_bind]
    exact ran field roomy

theorem Shows.run_log [DecidableEq ι] (shows : shared.Shows shown)
    (small : shared.arena.size ≤ Width.w128.limit) (log : List (ι × TreeOperation))
    (admits : TreeOperation.Admits shared.arena.size shared.arena.key shown log) :
    ∃ after, shared.run log = .ok after ∧
      after.Shows (TreeOperation.replay shared.arena.key shown log) := by
  obtain ⟨after,uncut,final,_⟩ := shows.runWith_log small log admits
  exact ⟨after,uncut.byte,final⟩

/-- After any log of admitted operations the order queries of every tree answer about the sequence that
the operations make, which is the one that the links of the tree show from left to right. Keys may
repeat. Ids are machine words, so no arena is larger than said. -/
theorem statistics_follow [DecidableEq ι] (pairs : List Pair) (small : pairs.length ≤ Width.w128.limit)
    (log : List (ι × TreeOperation))
    (admits : TreeOperation.Admits pairs.length (Arena.ofPairs pairs).key (fun _ => []) log) :
    ∃ after, (unplanted pairs).run log = .ok after ∧ ∀ t,
      let ids := TreeOperation.replay (Arena.ofPairs pairs).key (fun _ => []) log t
      (after.trees t).Holds after.arena ids ∧ (after.trees t).Answers after.arena ids := by
  have size := Arena.size_ofPairs pairs
  obtain ⟨after,ran,shows⟩ := (@shows_nothing ι (Arena.ofPairs pairs)).run_log (size.symm ▸ small) log
    (size.symm ▸ admits)
  exact ⟨after,ran,fun t => ⟨shows.trees t,(shows.trees t).answers (shows.sorted t)⟩⟩

/-- Two trees over eight nodes, four of which have the same key. -/
theorem two_trees_statistics :
    let pairs : List Pair := [⟨0,5⟩,⟨1,3⟩,⟨2,5⟩,⟨3,9⟩,⟨4,5⟩,⟨5,5⟩,⟨6,2⟩,⟨7,7⟩]
    let log : List (Fin 2 × TreeOperation) := [(0,.insert 0),(0,.insert 2),(0,.insert 4),
      (0,.insertBehind 5 0),(1,.ofSorted [6,1]),(1,.insertBehind 7 1),(1,.insert 3)]
    pairs.length ≤ Width.w128.limit ∧
      TreeOperation.Admits pairs.length (Arena.ofPairs pairs).key (fun _ => []) log ∧
      ∃ after, (unplanted pairs).run log = .ok after ∧ ∀ t,
        let ids := TreeOperation.replay (Arena.ofPairs pairs).key (fun _ => []) log t
        (after.trees t).Holds after.arena ids ∧ (after.trees t).Answers after.arena ids := by
  intro pairs log
  have small : pairs.length ≤ Width.w128.limit := by decide
  have admits : TreeOperation.Admits pairs.length (Arena.ofPairs pairs).key (fun _ => []) log := by decide
  exact ⟨small,admits,statistics_follow pairs small log admits⟩

end SharedTrees

end BalancedMove
