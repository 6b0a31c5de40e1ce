import BalancedMove.Random
import BalancedMove.Proofs.Arena.Fields
import Mathlib.Algebra.Order.Floor.Div
import Mathlib.Data.Finite.Defs
import Mathlib.Data.Nat.Count
import Mathlib.Data.UInt
import Mathlib.Order.Interval.Finset.Nat

/-! What a random source can draw. Mixing loses nothing: a difference with a shifted copy determines the
word, because only zero is its own shifted copy, and the factors have inverses. So every word comes up
once as the counter runs through all words. Scaling gives neighbouring words the same draw, and the words
of two values differ in number by one at most, so all values are drawn equally often as far as the bound
allows. A bound of at most half the number of words leaves two words for every value, one of which comes
up before the last counter. Shuffling exchanges items and nothing else. -/
namespace BalancedMove

section Mixing

/-- A word is known from its difference with its image under an additive map that moves all words but
zero. -/
theorem xor_image_injective {f : UInt64 → UInt64} (additive : ∀ u v, f (u ^^^ v) = f u ^^^ f v)
    (moved : ∀ word, f word = word → word = 0) :
    Function.Injective fun word => word ^^^ f word := by
  intro u v same
  have grouped : (u ^^^ v) ^^^ (f u ^^^ f v) = (u ^^^ f u) ^^^ (v ^^^ f v) := by ac_rfl
  have fixed : f (u ^^^ v) = u ^^^ v := by
    rw [additive]
    exact (UInt64.xor_eq_zero_iff.mp (grouped.trans (UInt64.xor_eq_zero_iff.mpr same))).symm
  exact UInt64.xor_eq_zero_iff.mp (moved _ fixed)

theorem xor_shiftRight_injective {shift : UInt64} (positive : 0 < shift.toNat % 64) :
    Function.Injective fun word : UInt64 => word ^^^ word >>> shift := by
  refine xor_image_injective (fun u v => UInt64.shiftRight_xor) fun word fixed => ?_
  have quotient := congrArg UInt64.toNat fixed
  rw [UInt64.toNat_shiftRight,Nat.shiftRight_eq_div_pow] at quotient
  by_contra nonzero
  have value : 0 < word.toNat := Nat.pos_of_ne_zero fun zero => nonzero (UInt64.toNat.inj zero)
  have smaller := Nat.div_lt_self value (Nat.one_lt_two_pow (Nat.ne_of_gt positive))
  omega

theorem xor_shiftLeft_injective {shift : UInt64} (positive : 0 < shift.toNat % 64) :
    Function.Injective fun word : UInt64 => word ^^^ word <<< shift := by
  refine xor_image_injective (fun u v => UInt64.shiftLeft_xor) fun word fixed => ?_
  have amount : (shift.toBitVec % 64).toNat = shift.toNat % 64 := by simp
  have moved := congrArg UInt64.toBitVec fixed
  rw [UInt64.toBitVec_shiftLeft,BitVec.shiftLeft_eq',amount] at moved
  -- every bit is zero or the copy of a lower one
  have clear : ∀ i, word.toBitVec.getLsbD i = false := by
    intro i
    induction i using Nat.strongRecOn with
    | ind i ih =>
      rw [← moved,BitVec.getLsbD_shiftLeft]
      by_cases low : i < shift.toNat % 64
      · simp [low]
      · rw [ih (i - shift.toNat % 64) (by omega),Bool.and_false]
  exact UInt64.eq_of_toBitVec_eq (BitVec.eq_of_getLsbD_eq fun i _ => by simp [clear i])

theorem multiple_injective {factor inverse : UInt64} (unit : factor * inverse = 1) :
    Function.Injective fun word : UInt64 => word * factor := by
  intro u v same
  have undone := congrArg (fun word => word * inverse) same
  simpa only [UInt64.mul_assoc,unit,UInt64.mul_one] using undone

theorem hashWord_injective : Function.Injective hashWord :=
  have first : Function.Injective fun word : UInt64 => word * 3935559000370003845 :=
    @multiple_injective _ 13700500150304694605 (by decide)
  have shifted : Function.Injective fun word : UInt64 => word + 2691343689449507681 :=
    fun _ _ => (UInt64.add_left_inj _).mp
  have second : Function.Injective fun word : UInt64 => word * 4768777513237032717 :=
    @multiple_injective _ 1615231051170002885 (by decide)
  have right := fun shift => @xor_shiftRight_injective shift
  have left := fun shift => @xor_shiftLeft_injective shift
  (left 5 (by decide)).comp <| (right 41 (by decide)).comp <| (left 20 (by decide)).comp <|
    second.comp <| (right 4 (by decide)).comp <| (left 37 (by decide)).comp <|
    (right 21 (by decide)).comp <| shifted.comp first

theorem hashWord_bijective : Function.Bijective hashWord :=
  have : Finite UInt64 := Finite.of_injective UInt64.toFin fun _ _ => UInt64.toFin_inj.mp
  Finite.injective_iff_bijective.mp hashWord_injective

end Mixing

section Scaling

variable {bound word v : Nat}

def firstWord (bound v : Nat) : Nat := v * Width.w64.limit ⌈/⌉ bound

theorem firstWord_le_iff (positive : 0 < bound) :
    firstWord bound v ≤ word ↔ v * Width.w64.limit ≤ word * bound := by
  rw [firstWord,ceilDiv_le_iff_le_mul positive,Nat.mul_comm bound]

theorem scaled_eq_iff (positive : 0 < bound) : word * bound / Width.w64.limit = v ↔
    firstWord bound v ≤ word ∧ word < firstWord bound (v + 1) := by
  have limit : 0 < Width.w64.limit := by decide
  rw [firstWord_le_iff positive,← Nat.not_le,firstWord_le_iff positive,Nat.not_le,
    ← Nat.le_div_iff_mul_le limit,← Nat.div_lt_iff_lt_mul limit]
  omega

/-- A value has its share of all words, rounded down or up. -/
theorem firstWord_step (positive : 0 < bound) :
    firstWord bound (v + 1) = firstWord bound v + Width.w64.limit / bound ∨
      firstWord bound (v + 1) = firstWord bound v + Width.w64.limit ⌈/⌉ bound := by
  have down : Width.w64.limit / bound * bound ≤ Width.w64.limit := Nat.div_mul_le_self _ _
  have up : Width.w64.limit ≤ bound * (Width.w64.limit ⌈/⌉ bound) := le_smul_ceilDiv positive
  have near : Width.w64.limit ⌈/⌉ bound ≤ Width.w64.limit / bound + 1 :=
    (ceilDiv_le_iff_le_mul positive).mpr (Nat.lt_mul_div_succ _ positive).le
  have start := (firstWord_le_iff positive).mp (le_refl (firstWord bound v))
  have next := (firstWord_le_iff positive).mp (le_refl (firstWord bound (v + 1)))
  rw [Nat.succ_mul] at next
  have least : firstWord bound v + Width.w64.limit / bound ≤ firstWord bound (v + 1) := by
    have room : Width.w64.limit / bound ≤ firstWord bound (v + 1) :=
      Nat.le_of_mul_le_mul_right (by omega) positive
    rw [← Nat.le_sub_iff_add_le room,firstWord_le_iff positive,Nat.sub_mul]
    omega
  have most : firstWord bound (v + 1) ≤ firstWord bound v + Width.w64.limit ⌈/⌉ bound := by
    rw [firstWord_le_iff positive,Nat.succ_mul,Nat.add_mul,Nat.mul_comm (_ ⌈/⌉ _)]
    omega
  omega

theorem firstWord_le_limit (inside : v < bound) : firstWord bound (v + 1) ≤ Width.w64.limit := by
  rw [firstWord_le_iff (Nat.zero_lt_of_lt inside),Nat.mul_comm]
  exact Nat.mul_le_mul_left _ inside

end Scaling

namespace RandomSource

variable {source : RandomSource} {counter : UInt64} {bound word v draw : Nat}

theorem word_bijective (source : RandomSource) : Function.Bijective source.word :=
  hashWord_bijective.comp ⟨fun _ _ => (UInt64.add_left_inj _).mp,
    fun word => ⟨word - source.seed,UInt64.sub_add_cancel word source.seed⟩⟩

theorem below_eq (positive : 0 < bound) : source.below counter bound =
    .ok ((source.word counter).toNat * bound / Width.w64.limit) :=
  if_neg (Nat.ne_of_gt positive)

theorem below_lt (ok : source.below counter bound = .ok draw) : draw < bound := by
  rcases Nat.eq_zero_or_pos bound with zero | positive
  · rw [below,if_pos zero] at ok
    cases ok
  · rw [below_eq positive] at ok
    obtain rfl := Except.ok.inj ok
    rw [Nat.div_lt_iff_lt_mul (by decide),Nat.mul_comm bound]
    exact Nat.mul_lt_mul_of_pos_right (source.word counter).toNat_lt positive

theorem below_iff (positive : 0 < bound) : source.below counter bound = .ok v ↔
    firstWord bound v ≤ (source.word counter).toNat ∧
      (source.word counter).toNat < firstWord bound (v + 1) := by
  rw [below_eq positive,Except.ok.injEq,scaled_eq_iff positive]

theorem exists_counter (source : RandomSource) (inside : word < Width.w64.limit) :
    ∃ counter < Width.w64.limit, (source.word (UInt64.ofNat counter)).toNat = word := by
  obtain ⟨counter,drawn⟩ := source.word_bijective.surjective (UInt64.ofNat word)
  refine ⟨counter.toNat,counter.toNat_lt,?_⟩
  rw [UInt64.ofNat_toNat,drawn,UInt64.toNat_ofNat_of_lt' inside]

def drawCount (source : RandomSource) (bound v : Nat) : Nat :=
  Nat.count (fun counter => source.below (UInt64.ofNat counter) bound = .ok v) Width.w64.limit

theorem drawCount_eq (inside : v < bound) :
    source.drawCount bound v = firstWord bound (v + 1) - firstWord bound v := by
  have positive := Nat.zero_lt_of_lt inside
  rw [drawCount,Nat.count_eq_card_filter_range,← Nat.card_Ico]
  -- the counters that draw the value against the words that are scaled down to it
  refine Finset.card_bij (fun counter _ => (source.word (UInt64.ofNat counter)).toNat) ?_ ?_ ?_
  · intro counter member
    exact Finset.mem_Ico.mpr ((below_iff positive).mp (Finset.mem_filter.mp member).2)
  · intro first low second high same
    have before := Finset.mem_range.mp (Finset.mem_filter.mp low).1
    have behind := Finset.mem_range.mp (Finset.mem_filter.mp high).1
    have equal := source.word_bijective.injective (UInt64.toNat.inj same)
    rw [← UInt64.toNat_ofNat_of_lt' before,equal,UInt64.toNat_ofNat_of_lt' behind]
  · intro word member
    have range := Finset.mem_Ico.mp member
    have room := firstWord_le_limit inside
    obtain ⟨counter,before,rfl⟩ := source.exists_counter (Nat.lt_of_lt_of_le range.2 room)
    exact ⟨counter,Finset.mem_filter.mpr ⟨Finset.mem_range.mpr before,(below_iff positive).mpr range⟩,
      rfl⟩

theorem drawCount_share (source : RandomSource) (inside : v < bound) :
    source.drawCount bound v = Width.w64.limit / bound ∨
      source.drawCount bound v = Width.w64.limit ⌈/⌉ bound := by
  rw [drawCount_eq inside]
  rcases firstWord_step (v := v) (Nat.zero_lt_of_lt inside) with down | up
  · exact Or.inl (by rw [down,Nat.add_sub_cancel_left])
  · exact Or.inr (by rw [up,Nat.add_sub_cancel_left])

/-- Different counters give different words. A bound that is a word itself takes no product out of twice
its width, all draws are below it, and each value below it comes up for its share of the counters. -/
theorem draws_cover : Function.Bijective hashWord ∧ ∀ source : RandomSource,
    Function.Injective source.word ∧ ∀ bound, 0 < bound → bound < Width.w64.limit →
      (∀ counter, (source.word counter).toNat * bound < Width.w128.limit ∧
        ∃ draw < bound, source.below counter bound = .ok draw) ∧
      ∀ v < bound, source.drawCount bound v = Width.w64.limit / bound ∨
        source.drawCount bound v = Width.w64.limit ⌈/⌉ bound := by
  refine ⟨hashWord_bijective,fun source => ⟨source.word_bijective.injective,?_⟩⟩
  intro bound positive small
  constructor
  · intro counter
    have product := Width.product_of_words (source.word counter).toNat_lt small
    exact ⟨product,_,below_lt (below_eq positive),below_eq positive⟩
  · intro v inside
    exact source.drawCount_share inside

theorem dice_cover : 0 < 6 ∧ 6 < Width.w64.limit ∧ 5 < 6 ∧
    (∃ draw < 6, RandomSource.below ⟨42⟩ 0 6 = .ok draw) ∧
    (RandomSource.drawCount ⟨42⟩ 6 5 = 3074457345618258602 ∨
      RandomSource.drawCount ⟨42⟩ 6 5 = 3074457345618258603) := by
  have ⟨draws,shares⟩ := (draws_cover.2 ⟨42⟩).2 6 (by decide) (by decide)
  exact ⟨by decide,by decide,by decide,(draws 0).2,shares 5 (by decide)⟩

theorem exists_draw (source : RandomSource) (half : 2 * bound ≤ Width.w64.limit) (inside : v < bound) :
    ∃ counter < Width.w64.limit - 1, source.below (UInt64.ofNat counter) bound = .ok v := by
  have floor : 2 ≤ Width.w64.limit / bound :=
    (Nat.le_div_iff_mul_le (Nat.zero_lt_of_lt inside)).mpr half
  have ceil : 2 ≤ Width.w64.limit ⌈/⌉ bound := by
    rw [← Nat.floorDiv_eq_div] at floor
    exact floor.trans floorDiv_le_ceilDiv
  have twice : 2 ≤ source.drawCount bound v := by
    rcases source.drawCount_share inside with share | share <;> rwa [share]
  -- only one of these counters can be the last
  obtain ⟨last,next⟩ : ∃ last, Width.w64.limit = last + 1 := ⟨Width.w64.limit - 1,by decide⟩
  rw [drawCount,next,Nat.count_succ] at twice
  rw [next,Nat.add_sub_cancel]
  apply Nat.count_ne_iff_exists.mp
  split at twice <;> omega

theorem swapIfInBounds_perm {α : Type} (items : Array α) (i j : Nat) :
    (items.swapIfInBounds i j).Perm items := by
  unfold Array.swapIfInBounds
  split
  · split
    · exact Array.swap_perm _ _
    · exact Array.Perm.refl _
  · exact Array.Perm.refl _

theorem shuffleFrom_perm {α : Type} (source : RandomSource) (last : Nat) (items : Array α) :
    ∃ order, source.shuffleFrom last items = .ok order ∧ order.Perm items := by
  induction last generalizing items with
  | zero => exact ⟨items,rfl,Array.Perm.refl _⟩
  | succ last ih =>
    rw [shuffleFrom,below_eq (Nat.succ_pos _),Checked.ok_bind]
    obtain ⟨order,ok,same⟩ := ih _
    exact ⟨order,ok,same.trans (swapIfInBounds_perm _ _ _)⟩

theorem shuffle_perm {α : Type} (source : RandomSource) (items : Array α) :
    ∃ order, source.shuffle items = .ok order ∧ order.Perm items :=
  shuffleFrom_perm source _ items

end RandomSource

end BalancedMove
