import BalancedMove.Proofs.MoveTable.InDegree
import Mathlib.Data.List.Nodup

/-! The table of accepted pairs, spelled out. The row of a pair names the last input start that is not
behind its output start, and how far in front of the output start it is. Both ways of encoding find this
start by looking for the place where the starts, closed by the size of the domain, pass the output start. -/
namespace BalancedMove

open Sequence

section Writing

variable {α β : Type} {entries : List (Nat × α)} {entry : Nat × α} {target : Array α}

def written (entries : List (Nat × α)) (target : Array α) : Array α :=
  entries.foldl (fun target entry => target.setIfInBounds entry.1 entry.2) target

theorem size_written : (written entries target).size = target.size := by
  induction entries generalizing target with
  | nil => rfl
  | cons entry rest ih => exact ih.trans Array.size_setIfInBounds

theorem written_other {i : Nat} (absent : i ∉ entries.map Prod.fst) :
    (written entries target)[i]? = target[i]? := by
  induction entries generalizing target with
  | nil => rfl
  | cons entry rest ih =>
    rw [List.map_cons,List.mem_cons,not_or] at absent
    exact (ih absent.2).trans (Array.getElem?_setIfInBounds_ne (Ne.symm absent.1))

theorem written_mem (distinct : (entries.map Prod.fst).Nodup) (member : entry ∈ entries)
    (inside : entry.1 < target.size) : (written entries target)[entry.1]? = some entry.2 := by
  induction entries generalizing target with
  | nil => cases member
  | cons first rest ih =>
    obtain ⟨apart,others⟩ := List.nodup_cons.mp distinct
    rcases List.mem_cons.mp member with rfl | behind
    · refine (written_other apart).trans ?_
      rw [Array.getElem?_setIfInBounds_self_of_lt inside]
    · exact ih others behind (by rwa [Array.size_setIfInBounds])

theorem written_all [DecidableEq α] {items others : List α} (same : items.Perm others)
    (distinct : items.Nodup) (value : α → β) {target : Array β} (size : target.size = items.length) :
    written (others.map fun x => (items.idxOf x,value x)) target = (items.map value).toArray := by
  apply Array.ext_getElem?
  intro i
  by_cases inside : i < items.length
  · have place := distinct.idxOf_getElem i inside
    have present : (i,value items[i]) ∈ others.map fun x => (items.idxOf x,value x) :=
      List.mem_map.mpr ⟨items[i],same.mem_iff.mp (List.getElem_mem inside),by rw [place]⟩
    have places : ((others.map fun x => (items.idxOf x,value x)).map Prod.fst).Nodup := by
      rw [List.map_map]
      refine List.Nodup.map_on (fun x first y _ equal => ?_) (same.nodup_iff.mp distinct)
      exact (List.idxOf_inj (same.mem_iff.mpr first)).mp equal
    rw [written_mem places present (by rw [size]; exact inside)]
    simp [inside]
  · rw [Array.getElem?_eq_none (by rw [size_written,size]; omega),Array.getElem?_eq_none]
    simpa using Nat.le_of_not_lt inside

end Writing

variable {n y i : Nat} {pairs : List Pair}

theorem Valid.length_le (valid : Valid n pairs) : pairs.length ≤ n :=
  valid.sorted.length_le (fun _ _ => Nat.zero_le _) valid.below

namespace MoveTable

def rowAt (pairs : List Pair) (y : Nat) : Nat := pairs.countP (fun v => v.p ≤ y) - 1

def offsetAt (pairs : List Pair) (y : Nat) : Nat :=
  y - (pairs.map Pair.p).getD (rowAt pairs y) 0

def tabulate (width : Width) (n : Nat) (pairs : List Pair) : MoveTable where
  width := width
  n := n
  inputStarts := (pairs.map Pair.p).toArray.push n
  outputStarts := (pairs.map Pair.q).toArray
  indices := (pairs.map fun v => rowAt pairs v.q).toArray
  offsets := (pairs.map fun v => offsetAt pairs v.q).toArray

theorem countP_starts (valid : Valid n pairs) (y : Nat) :
    (pairs.map Pair.p).countP (fun start => start ≤ y) = rowAt pairs y + 1 := by
  obtain ⟨v,head,zero⟩ := Option.map_eq_some_iff.mp valid.first
  have positive : 0 < pairs.countP fun v => v.p ≤ y :=
    List.countP_pos_iff.mpr ⟨v,List.mem_of_head? head,by simp [zero]⟩
  rw [List.countP_map,rowAt,Nat.sub_add_cancel positive]
  rfl

theorem starts_sorted (valid : Valid n pairs) :
    (pairs.map Pair.p).Pairwise fun x y => x ≤ y :=
  List.pairwise_map.mpr (valid.sorted.imp Nat.le_of_lt)

theorem turns_starts (valid : Valid n pairs) (y : Nat) :
    Turns (fun i => (pairs.map Pair.p).getD i 0) pairs.length y (rowAt pairs y + 1) := by
  have turns := turns_countP (starts_sorted valid) y
  rwa [countP_starts valid,List.length_map] at turns

theorem turns_closed (valid : Valid n pairs) (inside : y < n) :
    Turns (fun i => (pairs.map Pair.p ++ [n]).getD i 0) (pairs.length + 1) y
      (rowAt pairs y + 1) := by
  have sorted : (pairs.map Pair.p ++ [n]).Pairwise fun x y => x ≤ y := by
    refine List.pairwise_append.mpr ⟨starts_sorted valid,List.pairwise_singleton _ n,?_⟩
    rintro _ member last isLast
    obtain ⟨v,present,rfl⟩ := List.mem_map.mp member
    rw [List.mem_singleton.mp isLast]
    exact Nat.le_of_lt (valid.below v present)
  have turns := turns_countP sorted y
  have none : [n].countP (fun x => x ≤ y) = 0 := by simp [inside]
  rwa [List.countP_append,countP_starts valid,none,List.length_append,List.length_map] at turns

theorem rowAt_lt (valid : Valid n pairs) (y : Nat) : rowAt pairs y < pairs.length :=
  (turns_starts valid y).inside

theorem startAt_le (valid : Valid n pairs) (y : Nat) :
    (pairs.map Pair.p).getD (rowAt pairs y) 0 ≤ y :=
  (turns_starts valid y).front _ (Nat.lt_succ_self _)

theorem tabulate_pairs (width : Width) (n : Nat) (pairs : List Pair) :
    (tabulate width n pairs).pairs = pairs := by
  have zipped : ∀ rest : List Pair, List.zipWith (fun p q => (⟨p,q⟩ : Pair)) (rest.map Pair.p ++ [n])
      (rest.map Pair.q) = rest := by
    intro rest
    induction rest with
    | nil => rfl
    | cons v rest ih => exact congrArg (List.cons v) ih
  simpa [MoveTable.pairs,tabulate] using zipped pairs

theorem tabulate_encodes (width : Width) (n : Nat) (pairs : List Pair) :
    (tabulate width n pairs).Encodes n pairs := ⟨rfl,rfl⟩

end MoveTable

end BalancedMove
