import BalancedMove.Parallel.Balance
import BalancedMove.Proofs.Parallel.Finished
import Mathlib.Tactic.Linarith

/-! Room for the counts of a run. A worker splits on the starts that it knows of, so each of its splits is
backed by starts in its own list, and no start is in two lists. Few workers add few cuts to the pairs, and
the ranges of many workers are short; either way lists and splits keep within 64 bits, and so do the
sums of the counts. -/
namespace BalancedMove

open Sequence Store Balancer

section Totals

theorem total_counts (items : List BalanceCounts) (start : BalanceCounts) :
    (items.foldl BalanceCounts.combine start).splits =
        start.splits + total BalanceCounts.splits items ∧
      (items.foldl BalanceCounts.combine start).messages =
        start.messages + total BalanceCounts.messages items ∧
      ∀ most, start.rounds ≤ most → (∀ counts ∈ items, counts.rounds ≤ most) →
        (items.foldl BalanceCounts.combine start).rounds ≤ most := by
  induction items generalizing start with
  | nil => exact ⟨rfl,rfl,fun _ le _ => le⟩
  | cons counts rest ih =>
    obtain ⟨splits,messages,rounds⟩ := ih (start.combine counts)
    rw [List.foldl_cons,splits,messages]
    refine ⟨Nat.add_assoc _ _ _,Nat.add_assoc _ _ _,fun most first others => ?_⟩
    exact rounds most (Nat.max_le.mpr ⟨first,others counts (by simp)⟩)
      fun later member => others later (by simp [member])

theorem checkedTotal_eq {items : List BalanceCounts} {start : BalanceCounts}
    (splits : start.splits + total BalanceCounts.splits items < Width.w64.limit)
    (messages : start.messages + total BalanceCounts.messages items < Width.w64.limit) :
    BalanceCounts.checkedTotal start items = .ok (items.foldl BalanceCounts.combine start) := by
  induction items generalizing start with
  | nil => rfl
  | cons counts rest ih =>
    simp only [total,← Nat.add_assoc] at splits messages
    have fitSplits : (start.combine counts).splits < Width.w64.limit := by
      simp only [BalanceCounts.combine]
      omega
    have fitMessages : (start.combine counts).messages < Width.w64.limit := by
      simp only [BalanceCounts.combine]
      omega
    rw [BalanceCounts.checkedTotal,Width.fit_of_lt fitSplits,Checked.ok_bind,
      Width.fit_of_lt fitMessages,Checked.ok_bind,ih splits messages]
    rfl

end Totals

section Sums

variable {α : Type} {least : Nat} {gained held : α → Nat} {items : List α}

theorem total_paid (each : ∀ x ∈ items, gained x = 0 ∨ least * (gained x + 1) ≤ held x) :
    total gained items = 0 ∨ least * (total gained items + 1) ≤ total held items := by
  induction items with
  | nil => exact Or.inl rfl
  | cons x rest ih =>
    have others := ih fun y member => each y (by simp [member])
    simp only [total]
    rcases each x (by simp) with none | own
    · rw [none,Nat.zero_add]
      exact others.imp_right fun paid => by omega
    · right
      rcases others with none | paid
      · rw [none,Nat.add_zero]
        omega
      · have apart : least * (gained x + total gained rest + 1) + least =
            least * (gained x + 1) + least * (total gained rest + 1) := by ring
        omega

/-- Splits that cost `a` starts each, and `a` starts once, in a list of a bounded length. -/
theorem paid_share {a splits held most : Nat} (enough : 2 ≤ a) (short : held ≤ most)
    (paid : splits = 0 ∨ a * (splits + 1) ≤ held) : 2 * most * splits ≤ (most - 2) * held := by
  rcases paid with rfl | paid
  · simp
  · have least := Nat.le_trans (Nat.mul_le_mul_right (splits + 1) enough) paid
    obtain ⟨room,rfl⟩ : ∃ room, most = room + 2 := ⟨most - 2,by omega⟩
    have product := Nat.mul_le_mul_left (room + 2) least
    rw [Nat.add_sub_cancel]
    linarith

end Sums

section Crews

variable {layout : Layout} {told known : Nat → Nat → List Pair} {base : Nat → Nat} {t : Nat}
variable {inputs outputs : Nat → List Record} (crew : Crew layout told known base inputs outputs)

include crew

theorem Crew.length_outputs : (allInputs layout outputs).length =
    total base (List.range layout.workers) +
      total (fun t => (outputs t).length - base t) (List.range layout.workers) := by
  rw [← total_add,allInputs,joined,length_flatMap]
  refine total_congr fun t member => ?_
  obtain ⟨_,_,stands,_⟩ := crew.each t (List.mem_range.mp member)
  have grown := stands.grown
  rw [List.length_map]
  omega

/-- What a worker has split off is paid for with the starts in its list. -/
theorem Crew.worker_paid (inside : t < layout.workers) : (outputs t).length - base t = 0 ∨
    layout.a * ((outputs t).length - base t + 1) ≤ (inputs t).length := by
  obtain ⟨_,_,stands,_⟩ := crew.each t inside
  have grown : (outputs t).length = base t + ((outputs t).length - base t) := by
    have same := stands.grown
    omega
  exact stands.backed.bound stands.steady.sound grown

theorem Crew.paid :
    total (fun t => (outputs t).length - base t) (List.range layout.workers) = 0 ∨
      layout.a * (total (fun t => (outputs t).length - base t) (List.range layout.workers) + 1) ≤
        (allInputs layout inputs).length := by
  rw [allInputs,joined,length_flatMap]
  refine total_paid fun t member => ?_
  rw [List.length_map]
  exact crew.worker_paid (List.mem_range.mp member)

/-- The trees never hold twice the pieces that they began with. -/
theorem Crew.length_le : (allInputs layout outputs).length ≤
    2 * total base (List.range layout.workers) := by
  have lists := crew.sharing.length_le
  rw [crew.length_outputs] at lists ⊢
  exact (splits_le layout.enough (crew.paid.imp_right fun paid => Nat.le_trans paid lists)).2

/-- No arena has more nodes than all trees together. -/
theorem Crew.arena_le {inside : t < layout.workers} {worker : Worker} {handed : Nat → List Pair}
    (stands : worker.Stands layout t inside handed (known t) (base t) (inputs t) (outputs t)) :
    worker.balancer.store.arena.size ≤ (allInputs layout outputs).length := by
  have sound := stands.steady.sound
  have guest : ∀ r ∈ guests layout t (inputs t), r ∈ inputs t ∧ ¬ layout.Owns t r.q := fun r member => by
    simpa [guests] using member
  have own : ((outputs t).map Record.pair).Nodup :=
    (List.pairwise_map.mpr sound.outputSorted : Increasing Pair.q _).nodup
  have others : ((guests layout t (inputs t)).map Record.pair).Nodup :=
    ((increasing_pairs.mpr sound.inputSorted).nodup).sublist (List.filter_sublist.map _)
  have apart : ((outputs t).map Record.pair).Disjoint
      ((guests layout t (inputs t)).map Record.pair) := by
    intro v shown foreign
    obtain ⟨r,present,rfl⟩ := List.mem_map.mp shown
    obtain ⟨s,member,same⟩ := List.mem_map.mp foreign
    refine (guest s member).2 ?_
    rw [Record.q,same]
    exact sound.outputRange r present
  have known : (outputs t).map Record.pair ++ (guests layout t (inputs t)).map Record.pair ⊆
      allInputs layout outputs := by
    intro v member
    rcases List.mem_append.mp member with shown | foreign
    · obtain ⟨r,present,rfl⟩ := List.mem_map.mp shown
      exact mem_allInputs.mpr ⟨t,inside,r,present,rfl⟩
    · obtain ⟨r,kept,rfl⟩ := List.mem_map.mp foreign
      exact crew.sharing.subset (mem_allInputs.mpr ⟨t,inside,r,(guest r kept).1,rfl⟩)
  have length := (List.subperm_of_subset (List.nodup_append'.mpr ⟨own,others,apart⟩) known).length_le
  have filled := stands.filled
  rw [List.length_append,List.length_map,List.length_map] at length
  omega

theorem Crew.share {most : Nat}
    (short : ∀ t < layout.workers, layout.bound (t + 1) - layout.bound t ≤ most) :
    2 * most * total (fun t => (outputs t).length - base t) (List.range layout.workers) ≤
      (most - 2) * (allInputs layout inputs).length := by
  rw [allInputs,joined,length_flatMap,← total_mul,← total_mul]
  refine total_le fun t member => ?_
  have inside := List.mem_range.mp member
  obtain ⟨_,_,stands,_⟩ := crew.each t inside
  rw [List.length_map]
  exact paid_share layout.enough
    (Nat.le_trans stands.steady.sound.length_inputs_le (short t inside)) (crew.worker_paid inside)

end Crews

section Ends

variable {layout : Layout} {told heard : Nat → Nat → List Pair} {base : Nat → Nat} {t : Nat}
variable {team : List Worker} {inputs outputs : Nat → List Record}

theorem Finished.total_gained (finished : Finished layout told heard base team inputs outputs) :
    total (fun t => (outputs t).length - base t) (List.range layout.workers) =
      total (fun worker => worker.balancer.splits) team := by
  rw [← finished.length]
  refine total_range fun t worker place => ?_
  have grown := (finished.stands t (finished.inside place) worker place).grown
  omega

theorem Finished.length_outputs (finished : Finished layout told heard base team inputs outputs) :
    (allInputs layout outputs).length =
      total base (List.range layout.workers) + total (fun worker => worker.balancer.splits) team := by
  rw [finished.crew.length_outputs,finished.total_gained]

theorem Finished.messages_le (finished : Finished layout told heard base team inputs outputs) :
    total Worker.messages team ≤ total (fun worker => worker.balancer.splits) team := by
  refine total_le fun worker member => ?_
  obtain ⟨t,place⟩ := List.getElem?_of_mem member
  have inside := finished.inside place
  exact (Worker.Calm.messages_le ⟨_,_,finished.stands t inside worker place,finished.clear t inside⟩).1

end Ends

section Room

variable {width : Width} {n a workers : Nat} {pairs : List Pair} {layout : Layout}
variable {told heard : Nat → Nat → List Pair} {base : Nat → Nat} {team : List Worker}
variable {inputs outputs : Nat → List Record}

theorem length_listedBy_le (valid : Valid layout.n pairs) (t : Nat) :
    (listedBy layout (layout.pieces pairs) t).length ≤ layout.bound (t + 1) - layout.bound t := by
  have owned : ∀ piece ∈ listedBy layout (layout.pieces pairs) t, layout.Owns t piece.pair.p := by
    intro piece member
    obtain ⟨known,mine⟩ := List.mem_filter.mp member
    have below := ((pieces_refine valid).valid valid).below _ (List.mem_map_of_mem known)
    exact beq_iff_eq.mp mine ▸ (Layout.owner_owns below).2.1
  have sorted : Increasing (fun piece : Piece => piece.pair.p)
      (listedBy layout (layout.pieces pairs) t) :=
    (List.pairwise_map.mp (pieces_sorted valid)).filter _
  exact sorted.length_le (fun piece member => (owned piece member).1) fun piece member =>
    (owned piece member).2

/-- So many pairs can lie in one block of memory, which takes at most half of the 64-bit addresses. -/
def Storable (items : Nat) : Prop := 2 * items < Width.w64.limit

instance (items : Nat) : Decidable (Storable items) :=
  inferInstanceAs (Decidable (2 * items < Width.w64.limit))

theorem Storable.addressable {items : Nat} (few : Storable items) : Addressable items := by
  have limit : 2 ≤ Width.w64.limit := by decide
  unfold Storable at few
  unfold Addressable
  omega

theorem length_divide_le {small : n < width.limit} {enough : 2 ≤ a} {positive : 0 < workers}
    {most : workers ≤ n}
    (isLayout : layout = Layout.divide width n a workers (image pairs) small enough positive most)
    (t : Nat) : layout.bound (t + 1) - layout.bound t ≤ n / workers + 1 := by
  subst isLayout
  have length := (range_length n workers t).2
  rw [Nat.add_assoc] at length
  exact Nat.sub_le_iff_le_add'.mpr length

/-- Few workers add few cuts to the pairs, and the ranges of many workers are short. -/
theorem storable_lists {small : n < width.limit} {enough : 2 ≤ a} {positive : 0 < workers}
    {most : workers ≤ n} (fits : n * workers < Width.w128.limit) (few : Storable pairs.length)
    (isLayout : layout = Layout.divide width n a workers (image pairs) small enough positive most)
    (valid : Valid layout.n pairs) (t : Nat) :
    Addressable (listedBy layout (layout.pieces pairs) t).length := by
  have limit : Width.w64.limit = 4 * 2 ^ 62 := by decide
  have wide : Width.w128.limit = 16 * 2 ^ 62 * 2 ^ 62 := by decide
  by_cases many : 2 ^ 62 < workers
  · have short := length_listedBy_le valid t
    have range := length_divide_le isLayout t
    have domain : n < 16 * 2 ^ 62 := by
      by_contra large
      have product := Nat.mul_le_mul (Nat.le_of_not_lt large) (Nat.le_of_lt many)
      omega
    have length : n / workers < 16 := Nat.div_lt_of_lt_mul (by omega)
    unfold Addressable
    omega
  · have pieces := length_pieces_le valid
    have some : (listedBy layout (layout.pieces pairs) t).length ≤ (layout.pieces pairs).length :=
      List.length_filter_le _ _
    have same : layout.workers = workers := by
      rw [isLayout]
      rfl
    unfold Storable at few
    unfold Addressable
    omega

theorem most_workers (most : workers ≤ n) (fits : n * workers < Width.w128.limit) :
    workers ≤ Width.w64.saturate n := by
  have few : workers < Width.w64.limit := by
    by_contra many
    have square := Nat.mul_le_mul (Nat.le_of_not_lt many) (Nat.le_of_not_lt many)
    have product := Nat.mul_le_mul_right workers most
    have limit : Width.w64.limit * Width.w64.limit = Width.w128.limit := by decide
    omega
  unfold Width.saturate
  omega

/-- Ranges of more than one position leave no room for so many workers. -/
theorem not_crowded {limit room : Nat} (positive : 0 < limit)
    (area : room * (workers * workers) ≤ limit * limit) :
    ¬ room * limit + 8 * limit ≤ room * (4 * workers) := by
  intro excess
  have above : limit < 4 * workers := by
    by_contra below
    have product := Nat.mul_le_mul_left room (Nat.le_of_not_lt below)
    omega
  obtain ⟨rest,isRest⟩ : ∃ rest, 4 * workers = limit + rest := ⟨4 * workers - limit,by omega⟩
  rw [isRest,Nat.mul_add] at excess
  have squares : 8 * (workers * workers) ≤ limit * rest := by
    refine Nat.le_of_mul_le_mul_left ?_ positive
    have left := Nat.mul_le_mul_right (workers * workers) (Nat.le_of_add_le_add_left excess)
    have right := Nat.mul_le_mul_right rest area
    linarith
  have whole : 4 * workers * (4 * workers) = (limit + rest) * (limit + rest) := by rw [isRest]
  have some := Nat.mul_pos positive positive
  linarith [Nat.zero_le (rest * rest)]

/-- More workers make more cuts, but the ranges get shorter with the square of their number. -/
theorem splits_fit {cut splits : Nat} (few : Storable pairs.length)
    (cuts : cut ≤ pairs.length + 2 * (workers - 1)) (fits : n * workers < Width.w128.limit)
    (share : 2 * (n / workers + 1) * splits ≤ (n / workers + 1 - 2) * (cut + splits)) :
    splits < Width.w64.limit := by
  have square : Width.w64.limit * Width.w64.limit = Width.w128.limit := by decide
  have positive : 0 < Width.w64.limit := by decide
  have quotient := Nat.mul_le_mul_right workers (Nat.div_mul_le_self n workers)
  unfold Storable at few
  generalize Width.w64.limit = limit at *
  by_contra many
  rw [Nat.not_lt] at many
  cases length : n / workers with
  | zero =>
    rw [length] at share
    omega
  | succ room =>
    rw [length] at share quotient
    change 2 * (room + 2) * splits ≤ room * (cut + splits) at share
    have most : (room + 4) * limit ≤ room * cut := by
      have least := Nat.mul_le_mul_left (room + 4) many
      linarith
    have twice : room * (2 * cut) ≤ room * (limit + 4 * workers) :=
      Nat.mul_le_mul_left room (by omega)
    have area : room * (workers * workers) ≤ limit * limit := by
      rw [square]
      have less : room * (workers * workers) ≤ (room + 1) * workers * workers := by
        rw [Nat.mul_assoc]
        exact Nat.mul_le_mul_right _ (Nat.le_succ room)
      omega
    exact not_crowded positive area (by linarith)

theorem Finished.splits_lt {small : n < width.limit} {enough : 2 ≤ a} {positive : 0 < workers}
    {most : workers ≤ n} (fits : n * workers < Width.w128.limit) (few : Storable pairs.length)
    (isLayout : layout = Layout.divide width n a workers (image pairs) small enough positive most)
    (valid : Valid layout.n pairs)
    (finished : Finished layout told heard base team inputs outputs)
    (begun : total base (List.range layout.workers) = (layout.pieces pairs).length) :
    total (fun worker => worker.balancer.splits) team < Width.w64.limit := by
  have share := finished.crew.share fun t _ => length_divide_le isLayout t
  have cuts := length_pieces_le valid
  have same : layout.workers = workers := by
    rw [isLayout]
    rfl
  rw [← finished.agreeing.perm.length_eq,finished.length_outputs,finished.total_gained,begun] at share
  rw [same] at cuts
  exact splits_fit few cuts fits share

theorem Finished.checkedTotal (finished : Finished layout told heard base team inputs outputs)
    (splits : total (fun worker => worker.balancer.splits) team < Width.w64.limit) :
    BalanceCounts.checkedTotal {} (team.map Worker.counts) =
      .ok (BalanceCounts.total (team.map Worker.counts)) := by
  refine checkedTotal_eq ?_ ?_
  · rw [total_map,Nat.zero_add]
    exact splits
  · rw [total_map,Nat.zero_add]
    exact Nat.lt_of_le_of_lt finished.messages_le splits

end Room

end BalancedMove
