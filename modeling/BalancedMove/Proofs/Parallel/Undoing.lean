import BalancedMove.Proofs.Parallel.Joining
import BalancedMove.Proofs.Parallel.Pieces

/-! When all cuts are undone. A walk over the pieces joins the cut at its head as long as the pair in
front of it stays light, counted with the cuts that the walk has not reached. So a cut that would be
undone later can stand in the way of an earlier one, and both are kept. -/
namespace BalancedMove

open Sequence

def uncut (pieces : List Piece) : List Pair :=
  (pieces.filter fun piece => !piece.cut).map Piece.pair

/-- Number of starts in `[low, high)` when all cuts up to that of `cut` are undone. -/
def standing (pieces : List Piece) (cut : Piece) (low high : Nat) : Nat :=
  pieces.countP fun other => (!other.cut || cut.pair.p < other.pair.p) &&
    (low ≤ other.pair.p && other.pair.p < high)

/-- The pair around a cut stays light when it is joined up to the end of the piece behind the cut. -/
def Passes (n limit : Nat) (pieces : List Piece) (cut : Piece) : Prop :=
  ∀ u ∈ uncut pieces, u.p < cut.pair.p → cut.pair.p < endOf Pair.p n (uncut pieces) u →
    standing pieces cut u.q
      (cut.pair.q + (endOf Pair.p n (pieces.map Piece.pair) cut.pair - cut.pair.p)) < heavyCount limit

def Undoable (n limit : Nat) (pieces : List Piece) : Prop :=
  ∀ cut ∈ pieces, cut.cut = true → Passes n limit pieces cut

instance (n limit : Nat) (pieces : List Piece) : Decidable (Undoable n limit pieces) :=
  inferInstanceAs (Decidable (∀ cut ∈ pieces, cut.cut = true → ∀ u ∈ uncut pieces,
    u.p < cut.pair.p → cut.pair.p < endOf Pair.p n (uncut pieces) u → _ < heavyCount limit))

/-- A walk that has undone all cuts in `front`; `last` is the pair kept last. -/
structure Walking (pieces front rest : List Piece) (joined : List Nat) (last : Pair) : Prop where
  whole : pieces = front ++ rest
  undone : ∀ start, start ∈ joined ↔ ∃ piece ∈ front, piece.cut = true ∧ piece.pair.p = start
  kept : (⟨last,false⟩ : Piece) ∈ front
  latest : ∀ piece ∈ front, piece.cut = false → piece.pair.p ≤ last.p

variable {width : Width} {n a limit : Nat} {pieces front rest : List Piece} {joined : List Nat}
variable {last : Pair} {piece cut : Piece} {kept : List Pair}

theorem mem_uncut {v : Pair} : v ∈ uncut pieces ↔ (⟨v,false⟩ : Piece) ∈ pieces := by
  simp only [uncut,List.mem_map,List.mem_filter,Bool.not_eq_true']
  constructor
  · rintro ⟨⟨_,_⟩,⟨member,rfl⟩,rfl⟩
    exact member
  · exact fun member => ⟨_,⟨member,rfl⟩,rfl⟩

theorem increasing_pieces : Increasing Pair.p (pieces.map Piece.pair) ↔
    Increasing (fun piece : Piece => piece.pair.p) pieces := List.pairwise_map

section Walk

variable (sorted : Increasing (fun piece : Piece => piece.pair.p) pieces)

include sorted

theorem uncut_sorted : Increasing Pair.p (uncut pieces) :=
  List.pairwise_map.mpr (sorted.sublist List.filter_sublist)

theorem Walking.order (walking : Walking pieces front (cut :: rest) joined last) :
    (∀ piece ∈ front, piece.pair.p < cut.pair.p) ∧ ∀ piece ∈ rest, cut.pair.p < piece.pair.p := by
  rw [walking.whole] at sorted
  exact ⟨sorted.before,sorted.behind⟩

theorem Walking.standing_eq (walking : Walking pieces front (cut :: rest) joined last)
    (marked : cut.cut = true) (low high : Nat) :
    count id (remaining (pieces.map fun piece => piece.pair.p) (cut.pair.p :: joined)) low high =
      standing pieces cut low high := by
  obtain ⟨before,behind⟩ := walking.order sorted
  have present : cut ∈ pieces := by simp [walking.whole]
  -- every cut up to this one has been undone
  have left : ∀ other ∈ pieces, other.pair.p ∉ cut.pair.p :: joined ↔
      other.cut = false ∨ cut.pair.p < other.pair.p := by
    intro other member
    rw [List.mem_cons,not_or,walking.undone]
    constructor
    · rintro ⟨differ,fresh⟩
      have place := member
      rw [walking.whole,List.mem_append,List.mem_cons] at place
      rcases place with inFront | rfl | inRest
      · exact Or.inl (by simpa using fun isCut => fresh ⟨other,inFront,isCut,rfl⟩)
      · exact absurd rfl differ
      · exact Or.inr (behind other inRest)
    · intro stays
      constructor
      · intro same
        obtain rfl := sorted.eq_of_key member present same
        rcases stays with plain | less
        · rw [plain] at marked
          cases marked
        · omega
      · rintro ⟨piece,inFront,isCut,same⟩
        have known : piece ∈ pieces := by simp [walking.whole,inFront]
        obtain rfl := sorted.eq_of_key known member same
        have less := before piece inFront
        rcases stays with plain | more
        · rw [plain] at isCut
          cases isCut
        · omega
  rw [count,remaining,List.countP_filter,List.countP_map,standing]
  refine List.countP_congr fun other member => ?_
  have same := left other member
  simp only [Function.comp_apply,id,Bool.and_eq_true,decide_eq_true_eq,Bool.or_eq_true,
    Bool.not_eq_true'] at same ⊢
  rw [same]
  exact and_comm

theorem Walking.keep (walking : Walking pieces front (piece :: rest) joined last)
    (marked : piece.cut = false) : Walking pieces (front ++ [piece]) rest joined piece.pair := by
  obtain ⟨before,_⟩ := walking.order sorted
  refine ⟨by simp [walking.whole],?_,?_,?_⟩
  · intro start
    rw [walking.undone]
    simp [marked,or_and_right,exists_or]
  · rw [← marked]
    simp
  · intro other member plain
    rcases List.mem_append.mp member with inFront | isLast
    · exact Nat.le_of_lt (before other inFront)
    · obtain rfl := List.mem_singleton.mp isLast
      exact Nat.le_refl _

omit sorted in
theorem Walking.join (walking : Walking pieces front (cut :: rest) joined last)
    (marked : cut.cut = true) : Walking pieces (front ++ [cut]) rest (cut.pair.p :: joined) last := by
  refine ⟨by simp [walking.whole],?_,by simp [walking.kept],?_⟩
  · intro start
    rw [List.mem_cons,walking.undone,or_comm,@eq_comm _ start]
    simp [marked,or_and_right,exists_or]
  · intro other member plain
    rcases List.mem_append.mp member with inFront | isLast
    · exact walking.latest other inFront plain
    · obtain rfl := List.mem_singleton.mp isLast
      rw [marked] at plain
      cases plain

theorem Walking.around (walking : Walking pieces front (cut :: rest) joined last)
    (below : ∀ piece ∈ pieces, piece.pair.p < n) (marked : cut.cut = true) :
    last ∈ uncut pieces ∧ last.p < cut.pair.p ∧
      cut.pair.p < endOf Pair.p n (uncut pieces) last := by
  obtain ⟨before,behind⟩ := walking.order sorted
  have known : last ∈ uncut pieces := mem_uncut.mpr (by simp [walking.whole,walking.kept])
  have inside : ∀ v ∈ uncut pieces, v.p < n := fun v member => below _ (mem_uncut.mp member)
  have ends := (uncut_sorted sorted).isEnd inside known
  refine ⟨known,before _ walking.kept,?_⟩
  rcases ends.reached with final | ⟨v,member,same⟩
  · rw [final]
    exact below cut (by simp [walking.whole])
  · rw [← same]
    have above := ends.above
    have place := mem_uncut.mp member
    rw [walking.whole,List.mem_append,List.mem_cons] at place
    rcases place with inFront | isCut | inRest
    · have latest := walking.latest _ inFront rfl
      simp only at latest
      omega
    · rw [← isCut] at marked
      cases marked
    · exact behind _ inRest

variable (below : ∀ piece ∈ pieces, piece.pair.p < n)

include below

theorem Walking.unique (walking : Walking pieces front (cut :: rest) joined last)
    (marked : cut.cut = true) {u : Pair} (member : u ∈ uncut pieces) (low : u.p ≤ cut.pair.p)
    (high : cut.pair.p < endOf Pair.p n (uncut pieces) u) : u = last := by
  obtain ⟨known,first,second⟩ := walking.around sorted below marked
  exact (uncut_sorted sorted).apart (fun v inside => below _ (mem_uncut.mp inside)) member known low high
    (Nat.le_of_lt first) second

variable (refines : Refines n (uncut pieces) (pieces.map Piece.pair))

include refines

theorem Walking.continues (walking : Walking pieces front (cut :: rest) joined last)
    (marked : cut.cut = true) : last.q + cut.pair.p = cut.pair.q + last.p := by
  have present : cut ∈ pieces := by simp [walking.whole]
  obtain ⟨v,member,low,high,shifted⟩ := refines.parts cut.pair (List.mem_map_of_mem present)
  obtain rfl := walking.unique sorted below marked member low high
  exact shifted.symm

theorem Walking.passes (walking : Walking pieces front (cut :: rest) joined last)
    (marked : cut.cut = true) : Passes n limit pieces cut ↔
      Joinable n limit (pieces.map fun piece => piece.pair.p) joined last cut
        (rest.map Piece.pair) := by
  obtain ⟨known,low,high⟩ := walking.around sorted below marked
  have continues := walking.continues sorted below refines marked
  have isEnd : endOf Pair.p n (pieces.map Piece.pair) cut.pair = nextStart n (rest.map Piece.pair) := by
    have absent : cut.pair ∉ front.map Piece.pair := by
      intro member
      obtain ⟨piece,inFront,same⟩ := List.mem_map.mp member
      have less := (walking.order sorted).1 piece inFront
      rw [same] at less
      exact Nat.lt_irrefl _ less
    rw [walking.whole,List.map_append,List.map_cons,endOf_split absent]
    cases rest <;> rfl
  unfold Passes Joinable
  rw [walking.standing_eq sorted marked,isEnd]
  constructor
  · exact fun all => ⟨marked,continues,all last known low high⟩
  · rintro ⟨_,_,light⟩ u member first second
    obtain rfl := walking.unique sorted below marked member (Nat.le_of_lt first) second
    exact light

theorem joinFrom_undoes (small : n < width.limit) (few : limit ≤ a)
    (walking : Walking pieces front rest joined last)
    (ahead : Ahead n a (pieces.map fun piece => piece.pair.p) joined last (rest.map Piece.pair))
    (walked : joinFrom width n limit (pieces.map fun piece => piece.pair.p).toArray joined last rest =
      .ok kept) : kept = uncut rest ↔ ∀ cut ∈ rest, cut.cut = true → Passes n limit pieces cut := by
  -- while every cut so far has been undone; the first one that stays shows in what is kept
  induction rest generalizing front joined last kept with
  | nil =>
    obtain rfl : [] = kept := Except.ok.inj walked
    simp [uncut]
  | cons piece rest ih =>
    rw [joinFrom_cons small (List.pairwise_map.mpr sorted) ahead] at walked
    rw [List.forall_mem_cons]
    cases marked : piece.cut with
    | false =>
      have plain : ¬ Joinable n limit (pieces.map fun piece => piece.pair.p) joined last piece
          (rest.map Piece.pair) := fun ⟨isCut,_⟩ => by
        rw [marked] at isCut
        cases isCut
      rw [if_neg plain] at walked
      obtain ⟨others,rear,same⟩ := Checked.bind_success walked
      obtain rfl : piece.pair :: others = kept := Except.ok.inj same
      have behind := ih (walking.keep sorted marked) ahead.keep rear
      rw [← behind]
      simp [uncut,marked]
    | true =>
      have passes := @Walking.passes _ limit _ _ _ _ _ _ sorted below refines walking marked
      have skipped : uncut (piece :: rest) = uncut rest := by simp [uncut,marked]
      rw [skipped]
      by_cases join : Joinable n limit (pieces.map fun piece => piece.pair.p) joined last piece
          (rest.map Piece.pair)
      · rw [if_pos join] at walked
        have ⟨_,continues,light⟩ := join
        have most := Store.heavyCount_le limit
        have behind := ih (walking.join marked) (ahead.join continues (by omega)) walked
        rw [behind]
        exact ⟨fun rest => ⟨fun _ => passes.mpr join,rest⟩,fun all => all.2⟩
      · rw [if_neg join] at walked
        obtain ⟨others,_,same⟩ := Checked.bind_success walked
        obtain rfl : piece.pair :: others = kept := Except.ok.inj same
        constructor
        · intro equal
          have member : piece.pair ∈ uncut rest := by simp [← equal]
          have less := (walking.order sorted).2 _ (mem_uncut.mp member)
          exact absurd less (Nat.lt_irrefl _)
        · exact fun all => absurd (passes.mp (all.1 rfl)) join

end Walk

/-- Joining gives the given pairs exactly if no cut is in the way of another. -/
theorem joinPieces_undoes (small : n < width.limit) (valid : Valid n (pieces.map Piece.pair))
    (refines : Refines n (uncut pieces) (pieces.map Piece.pair)) :
    joinPieces width n limit pieces = .ok (uncut pieces) ↔ Undoable n limit pieces := by
  have sorted := increasing_pieces.mp valid.sorted
  have below : ∀ piece ∈ pieces, piece.pair.p < n := fun piece member =>
    valid.below _ (List.mem_map_of_mem member)
  cases pieces with
  | nil => cases valid.first
  | cons first rest =>
    -- the first piece begins where the first pair does
    have plain : first.cut = false := by
      obtain ⟨v,member,low,_⟩ := refines.parts first.pair (by simp)
      have known := mem_uncut.mp member
      have least := sorted.head_le _ known
      have same := sorted.eq_of_key known (List.mem_cons_self ..) (Nat.le_antisymm low least)
      rw [← same]
    obtain ⟨first,_⟩ := first
    subst plain
    obtain ⟨a,few,ahead⟩ := @Valid.exists_ahead n first (rest.map Piece.pair) valid limit
    have starts : (first :: rest.map Piece.pair).map Pair.p =
        ((⟨first,false⟩ :: rest : List Piece).map fun piece => piece.pair.p) := by
      simp [Function.comp_def]
    rw [starts] at ahead
    obtain ⟨kept,_,walked,_⟩ := joinFrom_joins small few (List.pairwise_map.mpr sorted) ahead
    have walking : Walking (⟨first,false⟩ :: rest) [⟨first,false⟩] rest [] first :=
      ⟨rfl,by simp,by simp,by simp⟩
    have undoes := joinFrom_undoes sorted below refines small few walking ahead walked
    have own : uncut (⟨first,false⟩ :: rest) = first :: uncut rest := rfl
    rw [joinPieces,walked,Checked.ok_bind,Checked.pure_ok,own,Except.ok.injEq,List.cons.injEq,undoes,
      Undoable,List.forall_mem_cons]
    simp

theorem undoable_uncut {pairs : List Pair} : Undoable n limit (plainPieces pairs) := by
  intro cut member marked
  obtain ⟨v,_,rfl⟩ := List.mem_map.mp member
  cases marked

theorem joinPieces_plain {pairs : List Pair} (small : n < width.limit) (valid : Valid n pairs) :
    joinPieces width n limit (plainPieces pairs) = .ok pairs := by
  have own := map_pair_plain pairs
  have given : uncut (plainPieces pairs) = pairs := by
    rw [uncut,List.filter_eq_self.mpr (by simp [plainPieces]),own]
  have undoes := @joinPieces_undoes width n limit (plainPieces pairs) small
    (by rw [own]; exact valid) (by rw [own,given]; exact valid.refines)
  rw [given] at undoes
  exact undoes.mpr undoable_uncut

end BalancedMove
