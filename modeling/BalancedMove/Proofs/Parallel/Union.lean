import BalancedMove.Proofs.Parallel.Start
import BalancedMove.Proofs.Store.Check

/-! All stores together. The lists one after the other increase over the whole domain, and so do the
trees, which have all pairs of the lists. When no message is left, every shared pair has been told of, so
both hold the same pairs; and since the domain is permuted, the intervals of a pair have one length on
both sides. -/
namespace BalancedMove

open Sequence Store Balancer

section Chains

variable {α : Type} {layout : Layout} {key : α → Nat} {part : Nat → List α} {t low e : Nat}

/-- Sequences for the ranges of a layout, each of which begins with its range. -/
structure Chain (layout : Layout) (key : α → Nat) (part : Nat → List α) : Prop where
  sorted : ∀ t < layout.workers, Increasing key (part t)
  owned : ∀ t < layout.workers, ∀ x ∈ part t, layout.Owns t (key x)
  first : ∀ t < layout.workers, (part t).head?.map key = some (layout.bound t)

def joined (layout : Layout) (part : Nat → List α) : List α :=
  (List.range layout.workers).flatMap part

theorem mem_joined {x : α} : x ∈ joined layout part ↔ ∃ t < layout.workers, x ∈ part t := by
  simp [joined]

theorem Chain.increasing (chain : Chain layout key part) :
    Increasing key (joined layout part) := by
  rw [Increasing,joined,List.pairwise_flatMap]
  refine ⟨fun t member => chain.sorted t (List.mem_range.mp member),?_⟩
  refine List.pairwise_lt_range.imp_of_mem ?_
  intro s t first second less x inS y inT
  rw [List.mem_range] at first second
  have left := chain.owned s first x inS
  have right := chain.owned t second y inT
  have order := @Layout.bound_mono layout (s + 1) t less (Nat.le_of_lt second)
  have below := left.2
  have above := right.1
  omega

theorem Chain.isEnd (chain : Chain layout key part) (inside : t < layout.workers)
    (above : layout.bound t ≤ low) (ends : IsEnd key (layout.bound (t + 1)) (part t) low e) :
    IsEnd key layout.n (joined layout part) low e := by
  have limit := ends.inside
  have most := @Layout.bound_le layout (t + 1) inside
  refine ⟨ends.above,by omega,?_,?_⟩
  · intro x member behind
    obtain ⟨s,bounded,present⟩ := mem_joined.mp member
    have owns := chain.owned s bounded x present
    have ownLow := owns.1
    have ownHigh := owns.2
    rcases Nat.lt_trichotomy s t with less | rfl | more
    · have order := @Layout.bound_mono layout (s + 1) t less (Nat.le_of_lt inside)
      omega
    · exact ends.free x present behind
    · have order := @Layout.bound_mono layout (t + 1) s more (Nat.le_of_lt bounded)
      omega
  · rcases ends.reached with last | ⟨x,member,same⟩
    · by_cases final : t + 1 = layout.workers
      · rw [last,final,layout.last]
        exact Or.inl rfl
      · have next : t + 1 < layout.workers := by omega
        obtain ⟨x,head,begins⟩ := Option.map_eq_some_iff.mp (chain.first (t + 1) next)
        exact Or.inr ⟨x,mem_joined.mpr ⟨t + 1,next,List.mem_of_head? head⟩,begins.trans last.symm⟩
    · exact Or.inr ⟨x,mem_joined.mpr ⟨t,inside,member⟩,same⟩

theorem Chain.count_eq (chain : Chain layout key part) (inside : t < layout.workers) {high : Nat}
    (above : layout.bound t ≤ low) (below : high ≤ layout.bound (t + 1)) :
    count key (joined layout part) low high = count key (part t) low high := by
  obtain ⟨left,right,split⟩ := List.append_of_mem (List.mem_range.mpr inside)
  have distinct : (left ++ t :: right).Nodup := split ▸ List.nodup_range
  have none : ∀ others : List Nat, (∀ s ∈ others, s ∈ List.range layout.workers ∧ s ≠ t) →
      count key (others.flatMap part) low high = 0 := by
    intro others apart
    refine count_eq_zero.mpr fun x member lowest => ?_
    obtain ⟨s,present,inPart⟩ := List.mem_flatMap.mp member
    obtain ⟨bounded,differ⟩ := apart s present
    have owns := chain.owned s (List.mem_range.mp bounded) x inPart
    by_contra early
    exact differ (Layout.owns_unique (List.mem_range.mp bounded) inside owns
      ⟨Nat.le_trans above lowest,by omega⟩)
  have absent := List.nodup_middle.mp distinct
  have apart := (List.nodup_cons.mp absent).1
  have leftNone := none left fun s member => ⟨by rw [split]; simp [member],
    fun same => apart (by simp [← same,member])⟩
  have rightNone := none right fun s member => ⟨by rw [split]; simp [member],
    fun same => apart (by simp [← same,member])⟩
  rw [joined,split,List.flatMap_append,List.flatMap_cons]
  unfold count at leftNone rightNone ⊢
  rw [List.countP_append,List.countP_append,leftNone,rightNone,Nat.zero_add,Nat.add_zero]

theorem Chain.head (chain : Chain layout key part) (positive : 0 < layout.workers) :
    (joined layout part).head?.map key = some 0 := by
  obtain ⟨m,count⟩ := Nat.exists_eq_succ_of_ne_zero (Nat.ne_of_gt positive)
  have first := chain.first 0 positive
  obtain ⟨x,head,begins⟩ := Option.map_eq_some_iff.mp first
  have split : joined layout part = part 0 ++ ((List.range m).map Nat.succ).flatMap part := by
    rw [joined,count,List.range_succ_eq_map,List.flatMap_cons]
  rw [split,List.head?_append,head,Option.some_or,Option.map_some,begins,layout.first]

end Chains

/-- The records of all stores, with the pairs that each has shared with each other one. -/
structure Sharing (layout : Layout) (told : Nat → Nat → List Pair)
    (inputs outputs : Nat → List Record) : Prop where
  sound : ∀ t < layout.workers,
    Sound layout.n (layout.bound t) (layout.bound (t + 1)) (inputs t) (outputs t)
  listed : ∀ t < layout.workers, ∀ r ∈ inputs t, layout.image r.p = r.q
  moves : ∀ t < layout.workers, Moves layout (layout.bound (t + 1)) (outputs t)
  own : ∀ t < layout.workers, ∀ r ∈ outputs t, r ∈ inputs t → r.twin = none
  numbered : ∀ t < layout.workers, ∀ r ∈ outputs t, r ∉ inputs t → ∃ dst < layout.workers, ∃ i,
    layout.Owns dst r.p ∧ r.twin = some i ∧ (told t dst)[i]? = some r.pair
  shown : ∀ t < layout.workers, ∀ dst < layout.workers, ∀ i v, (told t dst)[i]? = some v →
    layout.Owns dst v.p ∧ ∃ r ∈ outputs t, r ∉ inputs t ∧ r.pair = v ∧ r.twin = some i
  foreign : ∀ t < layout.workers, ∀ r ∈ inputs t, r ∉ outputs t → ∃ src < layout.workers,
    r.pair ∈ told src t

structure Agreeing (layout : Layout) (told : Nat → Nat → List Pair)
    (inputs outputs : Nat → List Record) : Prop extends Sharing layout told inputs outputs where
  heard : ∀ src < layout.workers, ∀ dst < layout.workers, src ≠ dst → ∀ v ∈ told src dst,
    ∃ r ∈ inputs dst, r.pair = v

structure Permutes (layout : Layout) : Prop where
  inside : ∀ x < layout.n, layout.image x < layout.n
  injective : ∀ x < layout.n, ∀ y < layout.n, layout.image x = layout.image y → x = y

section Union

variable {layout : Layout} {told : Nat → Nat → List Pair} {inputs outputs : Nat → List Record}
variable {t : Nat} {r : Record} {u v : Pair}

def allInputs (layout : Layout) (inputs : Nat → List Record) : List Pair :=
  joined layout fun t => (inputs t).map Record.pair

theorem mem_allInputs : u ∈ allInputs layout inputs ↔
    ∃ t < layout.workers, ∃ r ∈ inputs t, r.pair = u := by
  simp [allInputs,mem_joined]

section Sharing

variable (sharing : Sharing layout told inputs outputs)

include sharing

theorem Sharing.inputChain : Chain layout Pair.p fun t => (inputs t).map Record.pair := by
  refine ⟨?_,?_,?_⟩
  · intro t inside
    exact increasing_pairs.mpr (sharing.sound t inside).inputSorted
  · intro t inside v member
    obtain ⟨r,listed,rfl⟩ := List.mem_map.mp member
    exact (sharing.sound t inside).inputRange r listed
  · intro t inside
    rw [List.head?_map,Option.map_map]
    exact (sharing.sound t inside).inputFirst

theorem Sharing.outputChain : Chain layout Pair.q fun t => (outputs t).map Record.pair := by
  refine ⟨?_,?_,?_⟩
  · intro t inside
    exact List.pairwise_map.mpr (sharing.sound t inside).outputSorted
  · intro t inside v member
    obtain ⟨r,shown,rfl⟩ := List.mem_map.mp member
    exact (sharing.sound t inside).outputRange r shown
  · intro t inside
    rw [List.head?_map,Option.map_map]
    exact (sharing.sound t inside).outputFirst

/-- Whoever has a start in its list has the pair in its tree, or was told of it by someone who has. -/
theorem Sharing.subset : allInputs layout inputs ⊆ allInputs layout outputs := by
  intro u member
  obtain ⟨t,inside,r,listed,rfl⟩ := mem_allInputs.mp member
  refine mem_allInputs.mpr ?_
  by_cases shown : r ∈ outputs t
  · exact ⟨t,inside,r,shown,rfl⟩
  · obtain ⟨src,bounded,known⟩ := sharing.foreign t inside r listed shown
    obtain ⟨i,place⟩ := List.getElem?_of_mem known
    obtain ⟨_,s,present,_,same,_⟩ := sharing.shown src bounded t inside i _ place
    exact ⟨src,bounded,s,present,same⟩

theorem Sharing.length_le :
    (allInputs layout inputs).length ≤ (allInputs layout outputs).length :=
  (List.subperm_of_subset sharing.inputChain.increasing.nodup sharing.subset).length_le

end Sharing

variable (agreeing : Agreeing layout told inputs outputs)

include agreeing

theorem Agreeing.elsewhere (inside : t < layout.workers) (shown : r ∈ outputs t)
    (absent : r ∉ inputs t) {dst : Nat} (bounded : dst < layout.workers)
    (owns : layout.Owns dst r.p) : t ≠ dst := by
  rintro rfl
  have sound := agreeing.sound t inside
  have away := sound.away r shown absent
  have above := (sound.outputIsEnd shown).above
  unfold Layout.Owns at owns
  omega

theorem Agreeing.mem_iff : u ∈ allInputs layout outputs ↔ u ∈ allInputs layout inputs := by
  refine ⟨fun member => ?_,fun member => agreeing.subset member⟩
  obtain ⟨t,inside,r,shown,rfl⟩ := mem_allInputs.mp member
  refine mem_allInputs.mpr ?_
  by_cases listed : r ∈ inputs t
  · exact ⟨t,inside,r,listed,rfl⟩
  · obtain ⟨dst,bounded,i,owns,_,place⟩ := agreeing.numbered t inside r shown listed
    obtain ⟨s,present,same⟩ := agreeing.heard t inside dst bounded
      (agreeing.elsewhere inside shown listed bounded owns) _ (List.mem_of_getElem? place)
    exact ⟨dst,bounded,s,present,same⟩

theorem Agreeing.perm : (allInputs layout outputs).Perm (allInputs layout inputs) :=
  (List.perm_ext_iff_of_nodup agreeing.outputChain.increasing.nodup
    agreeing.inputChain.increasing.nodup).mpr fun _ => agreeing.mem_iff

theorem Agreeing.moved (member : u ∈ allInputs layout inputs) : layout.image u.p = u.q := by
  obtain ⟨t,inside,r,listed,rfl⟩ := mem_allInputs.mp member
  exact agreeing.listed t inside r listed

theorem Agreeing.outputEnd (inside : t < layout.workers) (shown : r ∈ outputs t) :
    IsEnd Pair.q layout.n (allInputs layout outputs) r.q
      (endOf Record.q (layout.bound (t + 1)) (outputs t) r) := by
  have sound := agreeing.sound t inside
  refine agreeing.outputChain.isEnd inside (sound.outputRange r shown).1 ?_
  exact (sound.outputIsEnd shown).transfer fun k => by simp [Record.q]

theorem Agreeing.outputInterval (member : u ∈ allInputs layout inputs) : ∃ e,
    IsEnd Pair.q layout.n (allInputs layout outputs) u.q e ∧ u.p + e ≤ layout.n + u.q ∧
      ∀ y, u.q ≤ y → y < e → layout.image (u.p + (y - u.q)) = y := by
  obtain ⟨t,inside,r,shown,rfl⟩ := mem_allInputs.mp (agreeing.mem_iff.mpr member)
  exact ⟨_,agreeing.outputEnd inside shown,(agreeing.sound t inside).within r shown,
    (agreeing.moves t inside).image r shown⟩

theorem Agreeing.below : ∀ u ∈ allInputs layout inputs, u.p < layout.n := by
  intro u member
  obtain ⟨t,inside,r,listed,rfl⟩ := mem_allInputs.mp member
  exact Layout.owns_lt inside ((agreeing.sound t inside).inputRange r listed)

theorem Agreeing.outputBelow : ∀ u ∈ allInputs layout inputs, u.q < layout.n := by
  intro u member
  obtain ⟨e,ends,_⟩ := agreeing.outputInterval member
  have above := ends.above
  have inside := ends.inside
  omega

/-- A start inside a tree interval would begin a tree interval of its own. -/
theorem Agreeing.noStart (other : v ∈ allInputs layout inputs) {e : Nat}
    (ends : IsEnd Pair.q layout.n (allInputs layout outputs) u.q e)
    (moves : ∀ y, u.q ≤ y → y < e → layout.image (u.p + (y - u.q)) = y) (behind : u.p < v.p) :
    u.q + (v.p - u.p) ≥ e := by
  by_contra inside
  have own := moves (u.q + (v.p - u.p)) (by omega) (by omega)
  have place : u.p + (u.q + (v.p - u.p) - u.q) = v.p := by omega
  rw [place,agreeing.moved other] at own
  have free := ends.free v (agreeing.mem_iff.mpr other) (by omega)
  omega

theorem Agreeing.lengths (permutes : Permutes layout) (member : u ∈ allInputs layout inputs)
    {e : Nat} (ends : IsEnd Pair.q layout.n (allInputs layout outputs) u.q e)
    (within : u.p + e ≤ layout.n + u.q)
    (moves : ∀ y, u.q ≤ y → y < e → layout.image (u.p + (y - u.q)) = y) :
    u.q + (endOf Pair.p layout.n (allInputs layout inputs) u - u.p) = e := by
  have sorted : Increasing Pair.p (allInputs layout inputs) := agreeing.inputChain.increasing
  have inputEnd := sorted.isEnd agreeing.below member
  have above := ends.above
  have inputAbove := inputEnd.above
  have inputMost := inputEnd.inside
  rcases Nat.lt_trichotomy (u.q + (endOf Pair.p layout.n (allInputs layout inputs) u - u.p)) e with
    shorter | same | longer
  · -- the next start of the list lies inside the tree interval
    rcases inputEnd.reached with last | ⟨v,next,begins⟩
    · omega
    · have far := agreeing.noStart next ends moves (by omega)
      omega
  · exact same
  · -- the place where the tree interval ends is moved by no other pair
    have place : u.p + (e - u.q) < layout.n := by omega
    obtain ⟨t,inside,owns⟩ := Layout.owns_exists (permutes.inside _ place)
    obtain ⟨r,shown,low,high⟩ := (agreeing.sound t inside).outputCovered owns.1 owns.2
    have known : r.pair ∈ allInputs layout inputs :=
      agreeing.mem_iff.mp (mem_allInputs.mpr ⟨t,inside,r,shown,rfl⟩)
    obtain ⟨f,otherEnd,otherWithin,otherMoves⟩ := agreeing.outputInterval known
    have sameEnd : f = endOf Record.q (layout.bound (t + 1)) (outputs t) r :=
      otherEnd.unique (agreeing.outputEnd inside shown)
    rw [← sameEnd] at high
    have moved := otherMoves _ low high
    change r.q ≤ _ at low
    have source := permutes.injective (r.p + (layout.image (u.p + (e - u.q)) - r.q))
      (by change r.p + f ≤ layout.n + r.q at otherWithin; omega) _ place moved
    have before : r.p ≤ u.p := by
      by_contra behind
      have free := inputEnd.free r.pair known (by change u.p < r.p; omega)
      change _ ≤ r.p at free
      omega
    rcases Nat.lt_or_eq_of_le before with less | equal
    · have far := agreeing.noStart member otherEnd otherMoves less
      change r.q + (u.p - r.p) ≥ f at far
      omega
    · obtain rfl : r.pair = u := sorted.eq_of_key known member equal
      have equalEnd := otherEnd.unique ends
      simp only [Record.p,Record.q] at source low
      omega

theorem Agreeing.valid (permutes : Permutes layout) (positive : 0 < layout.workers) :
    Valid layout.n (allInputs layout inputs) := by
  have same := agreeing.perm
  refine ⟨agreeing.inputChain.head positive,agreeing.inputChain.increasing,fun u member =>
    ⟨agreeing.below u member,agreeing.outputBelow u member⟩,?_,?_,?_⟩
  · obtain ⟨u,head,zero⟩ := Option.map_eq_some_iff.mp (agreeing.outputChain.head positive)
    exact ⟨u,same.mem_iff.mp (List.mem_of_head? head),zero⟩
  · have distinct : ((allInputs layout outputs).map Pair.q).Nodup := by
      rw [List.Nodup,List.pairwise_map]
      exact agreeing.outputChain.increasing.imp fun less => Nat.ne_of_lt less
    exact (same.map Pair.q).nodup_iff.mp distinct
  · intro u member
    obtain ⟨e,ends,within,moves⟩ := agreeing.outputInterval member
    rw [agreeing.lengths permutes member ends within moves]
    exact ends.transfer fun k => (same.map Pair.q).mem_iff

end Union

end BalancedMove
