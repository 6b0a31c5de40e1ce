import BalancedMove.Balance.Sweep
import BalancedMove.Proofs.Balance.Cascade

/-! The pass over the output intervals. Between two of its steps every interval in front of the one it
holds is light, and its tally has counted the starts of that interval up to the last start it has seen.
It passes over intervals without a start, and each step takes it to an interval further right. -/
namespace BalancedMove

open Sequence

namespace Store

variable {store : Store} {n start stop : Nat} {inputs outputs : List Record} {r interval : Record}

theorem seekInput_finds (holds : store.Holds inputs outputs) (sorted : Increasing Record.p inputs)
    {left right : List Record} (place : inputs = left ++ r :: right) {fuel : Nat}
    (enough : right.length < fuel) (position : Nat) :
    store.seekInput position fuel r.id = .ok none ∧ (∀ s ∈ inputs, s.p < position) ∨
      ∃ s ∈ inputs, store.seekInput position fuel r.id = .ok (some s.id) ∧ position ≤ s.p ∧
        (s = r ∨ ∀ t ∈ inputs, position ≤ t.p → s.p ≤ t.p) := by
  induction fuel generalizing r left right with
  | zero => omega
  | succ fuel ih =>
    subst place
    have here : store.p r.id = .ok r.p := holds.p (Or.inl (by simp))
    have step := holds.succ
    by_cases inFront : r.p < position
    · cases right with
      | nil =>
        refine Or.inl ⟨?_,fun s member => Nat.lt_of_le_of_lt (sorted.last_le s member) inFront⟩
        simp [seekInput,here,inFront,step]
      | cons next right =>
        have follow : store.seekInput position (fuel + 1) r.id =
            store.seekInput position fuel next.id := by
          simp [seekInput,here,inFront,step]
        have rest := @ih next (left ++ [r]) right (by simp) (by simp at enough; omega)
        rw [follow]
        rcases rest with none | ⟨s,member,found,reached,least⟩
        · exact Or.inl none
        · refine Or.inr ⟨s,member,found,reached,Or.inr ?_⟩
          rcases least with rfl | least
          · exact fun t present beyond => sorted.gap t present (by omega)
          · exact least
    · refine Or.inr ⟨r,by simp,?_,Nat.le_of_not_lt inFront,Or.inl rfl⟩
      simp [seekInput,here,inFront]

def Vacant (stop : Nat) (inputs outputs : List Record) (first limit : Nat) : Prop :=
  ∀ r ∈ outputs, first ≤ r.q → r.q < limit → startsIn stop inputs outputs r = 0

structure Occupied (stop : Nat) (inputs outputs : List Record) (interval first : Record) : Prop where
  shown : interval ∈ outputs
  listed : first ∈ inputs
  low : interval.q ≤ first.p
  high : first.p < endOf Record.q stop outputs interval
  least : ∀ s ∈ inputs, interval.q ≤ s.p → first.p ≤ s.p

theorem Vacant.cons {left right : List Record} {next : Record} {limit : Nat}
    (sorted : Increasing Record.q (left ++ interval :: next :: right))
    (own : startsIn stop inputs (left ++ interval :: next :: right) interval = 0)
    (rest : Vacant stop inputs (left ++ interval :: next :: right) next.q limit) :
    Vacant stop inputs (left ++ interval :: next :: right) interval.q limit := by
  intro r member above below
  by_cases same : r.q = interval.q
  · rw [sorted.eq_of_key member (by simp) same]
    exact own
  · exact rest r member (sorted.gap r member (by omega)) below

theorem seekOccupied_finds (holds : store.Holds inputs outputs)
    (sound : Sound n start store.stop inputs outputs) (listed : r ∈ inputs)
    {left right : List Record} (place : outputs = left ++ interval :: right) {fuel : Nat}
    (enough : right.length < fuel) (ahead : ∀ s ∈ inputs, interval.q ≤ s.p → r.p ≤ s.p) :
    store.seekOccupied fuel interval.id r.id = .ok none ∧
        Vacant store.stop inputs outputs interval.q store.stop ∨
      ∃ found first, store.seekOccupied fuel interval.id r.id = .ok (some (found.id,first.id)) ∧
        Occupied store.stop inputs outputs found first ∧ interval.q ≤ found.q ∧
        Vacant store.stop inputs outputs interval.q found.q := by
  -- along the intervals to the right; `ahead` says that no start has been passed over
  induction fuel generalizing r interval left right with
  | zero => omega
  | succ fuel ih =>
    have shown : interval ∈ outputs := by
      rw [place]
      simp
    have low : store.q interval.id = .ok interval.q := holds.q (Or.inr shown)
    have high := holds.outputEnd shown
    obtain ⟨before,after,listPlace⟩ := List.append_of_mem listed
    have short : after.length < store.arena.stepLimit := by
      have few := holds.list.length_le
      rw [listPlace] at few
      simp only [List.map_append,List.map_cons,List.length_append,List.length_cons,List.length_map]
        at few
      unfold Arena.stepLimit
      omega
    rcases seekInput_finds holds sound.inputSorted listPlace short interval.q with
      ⟨none,allFront⟩ | ⟨s,member,found,reached,least⟩
    · refine Or.inl ⟨by simp [seekOccupied,low,none],?_⟩
      intro t _ above _
      exact count_eq_zero.mpr fun s member lowest => absurd (allFront s member) (by omega)
    · have first : ∀ t ∈ inputs, interval.q ≤ t.p → s.p ≤ t.p := by
        rcases least with rfl | least
        · exact ahead
        · exact least
      have here : store.p s.id = .ok s.p := holds.p (Or.inl member)
      by_cases inside : s.p < endOf Record.q store.stop outputs interval
      · refine Or.inr ⟨interval,s,by simp [seekOccupied,low,found,here,high,inside],
          ⟨shown,member,reached,inside,first⟩,Nat.le_refl _,fun t _ above below => by omega⟩
      · have own : startsIn store.stop inputs outputs interval = 0 :=
          count_eq_zero.mpr fun t present lowest =>
            Nat.le_trans (Nat.le_of_not_lt inside) (first t present lowest)
        subst place
        have step := holds.outputNext
        cases right with
        | nil =>
          refine Or.inl ⟨by simp [seekOccupied,low,found,here,high,inside,step],?_⟩
          intro t present above _
          have last := sound.outputSorted.last_le t present
          rw [sound.outputSorted.eq_of_key present shown (Nat.le_antisymm last above)]
          exact own
        | cons next right =>
          have less := sound.outputSorted.behind next (by simp)
          have follow : store.seekOccupied (fuel + 1) interval.id r.id =
              store.seekOccupied fuel next.id s.id := by
            simp [seekOccupied,low,found,here,high,inside,step]
          have rest := @ih s next member (left ++ [interval]) right (by simp)
            (by simp at enough; omega) fun t present above => first t present (by omega)
          rw [follow]
          rcases rest with ⟨none,vacant⟩ | ⟨other,begins,answer,occupied,behind,vacant⟩
          · exact Or.inl ⟨none,vacant.cons sound.outputSorted own⟩
          · exact Or.inr ⟨other,begins,answer,occupied,by omega,
              vacant.cons sound.outputSorted own⟩

theorem Occupied.tally {found first : Record}
    (occupied : Occupied stop inputs outputs found first) :
    (⟨first.id,1⟩ : Tally) = tallyAt inputs found.q first := by
  have none : count Record.p inputs found.q first.p = 0 := count_eq_zero.mpr occupied.least
  rw [tallyAt,none]

theorem short_outputs (holds : store.Holds inputs outputs) {left right : List Record}
    (place : outputs = left ++ right) : right.length < store.arena.stepLimit := by
  have few := holds.tree.length_le
  rw [place] at few
  simp only [List.map_append,List.length_append,List.length_map] at few
  unfold Arena.stepLimit
  omega

theorem nextOccupied_finds (holds : store.Holds inputs outputs)
    (sound : Sound n start store.stop inputs outputs) (shown : interval ∈ outputs)
    (listed : r ∈ inputs) (high : r.p < endOf Record.q store.stop outputs interval) :
    store.nextOccupied interval.id r.id = .ok none ∧ (∀ t ∈ outputs, interval.q < t.q →
        t.q < store.stop → startsIn store.stop inputs outputs t = 0) ∨
      ∃ found first, store.nextOccupied interval.id r.id = .ok (some (found.id,first.id)) ∧
        Occupied store.stop inputs outputs found first ∧ interval.q < found.q ∧
        ∀ t ∈ outputs, interval.q < t.q → t.q < found.q →
          startsIn store.stop inputs outputs t = 0 := by
  obtain ⟨left,right,rfl⟩ := List.append_of_mem shown
  have absent : interval ∉ left := fun inside =>
    Nat.lt_irrefl _ (sound.outputSorted.before interval inside)
  have step := holds.outputNext
  rw [endOf_split absent] at high
  cases right with
  | nil =>
    refine Or.inl ⟨by simp [nextOccupied,step],fun t present behind _ => ?_⟩
    exact absurd (sound.outputSorted.last_le t present) (by omega)
  | cons next right =>
    have less := sound.outputSorted.behind next (by simp)
    have follow : store.nextOccupied interval.id r.id =
        store.seekOccupied store.arena.stepLimit next.id r.id := by
      simp [nextOccupied,step]
    have below : r.p < next.q := by simpa using high
    have search := @seekOccupied_finds _ _ _ _ _ _ next holds sound listed (left ++ [interval])
      right (by simp) _ (@short_outputs _ _ _ holds (left ++ [interval,next]) right (by simp))
      fun t _ above => by omega
    rw [follow]
    rcases search with ⟨none,vacant⟩ | ⟨found,first,answer,occupied,behind,vacant⟩
    · exact Or.inl ⟨none,fun t present above =>
        vacant t present (sound.outputSorted.gap t present above)⟩
    · exact Or.inr ⟨found,first,answer,occupied,by omega,fun t present above =>
        vacant t present (sound.outputSorted.gap t present above)⟩

theorem firstOccupied_finds (holds : store.Holds inputs outputs)
    (sound : Sound n start store.stop inputs outputs) :
    store.firstOccupied = .ok none ∧ (∀ t ∈ outputs, t.q < store.stop →
        startsIn store.stop inputs outputs t = 0) ∨
      ∃ found first, store.firstOccupied = .ok (some (found.id,first.id)) ∧
        Occupied store.stop inputs outputs found first ∧ ∀ t ∈ outputs, t.q < found.q →
          startsIn store.stop inputs outputs t = 0 := by
  obtain ⟨least,leastHead,_⟩ := Option.map_eq_some_iff.mp sound.outputFirst
  obtain ⟨head,inputHead,_⟩ := Option.map_eq_some_iff.mp sound.inputFirst
  have minimum := holds.tree.min?
  have front := holds.list.head
  cases outputs with
  | nil => cases leastHead
  | cons interval right =>
    cases inputs with
    | nil => cases inputHead
    | cons r rest =>
      have follow : store.firstOccupied =
          store.seekOccupied store.arena.stepLimit interval.id r.id := by
        simp [firstOccupied,minimum,front]
      have search := @seekOccupied_finds _ _ _ _ _ r interval holds sound (by simp) [] right rfl _
        (@short_outputs _ _ _ holds [interval] right (by simp))
        fun t present _ => sound.inputSorted.head_le t present
      rw [follow]
      rcases search with ⟨none,vacant⟩ | ⟨found,first,answer,occupied,_,vacant⟩
      · exact Or.inl ⟨none,fun t present =>
          vacant t present (sound.outputSorted.head_le t present)⟩
      · exact Or.inr ⟨found,first,answer,occupied,fun t present =>
          vacant t present (sound.outputSorted.head_le t present)⟩

end Store

namespace Balancer

open Store

variable {ρ : Type} [InputRouter ρ] {inv : ρ → List Record → List Record → Prop}
variable {setting : Setting} {balancer : Balancer ρ} {inputs outputs : List Record}
variable {interval last : Record}

theorem Steady.settle_eq (routes : Routes setting inv)
    (steady : Steady setting inv balancer inputs outputs) {swept counted : Nat}
    (inside : counted ≤ setting.stop) {split old : Record}
    (ready : Ready setting swept inputs outputs split old) (tally : Nat) :
    ∃ after number newInputs newOutputs new newTally,
      balancer.settle swept counted split.id old.id tally = .ok (after,new.id,newTally) ∧
      Steady setting inv after newInputs newOutputs ∧
      Progress setting number balancer after inputs outputs newInputs newOutputs ∧
      Clear setting swept newInputs newOutputs ∧
      Traced setting swept counted split old new tally newTally inputs outputs newInputs
        newOutputs := by
  have enough := steady.fuel_le
  exact @cascade_settles _ _ _ _ _ _ _ _ _ _ _ routes inside _ none tally steady ready (by omega)

/-- The rear half keeps all that the tally has counted but the `a` starts in front of the split point. -/
theorem Traced.remaining {split new : Record} {newTally : Nat} {newInputs newOutputs : List Record}
    (traced : Traced setting split.p last.p split interval new
      (count Record.p inputs interval.q last.p + 1) newTally inputs outputs newInputs newOutputs)
    (above : interval.q < split.p) (order : split.p ≤ last.p)
    (front : count Record.p inputs interval.q split.p = setting.a) :
    newTally = setting.a + (count Record.p newInputs new.q last.p + 1) := by
  have parts := count_split Record.p inputs (Nat.le_of_lt above) order
  have counts := traced.counts
  rw [traced.cut]
  omega

structure Passing (setting : Setting) (inputs outputs : List Record) (interval last : Record) :
    Prop where
  shown : interval ∈ outputs
  listed : last ∈ inputs
  low : interval.q ≤ last.p
  high : last.p < endOf Record.q setting.stop outputs interval
  passed : ∀ r ∈ outputs, r.q < interval.q →
    startsIn setting.stop inputs outputs r < 2 * setting.a

/-- Behind the last interval that holds a start everything is light. -/
theorem Passing.finish (passing : Passing setting inputs outputs interval last)
    (sound : Sound setting.n setting.start setting.stop inputs outputs)
    (light : startsIn setting.stop inputs outputs interval < heavyCount setting.a) {limit : Nat}
    (vacant : ∀ r ∈ outputs, interval.q < r.q → r.q < limit →
      startsIn setting.stop inputs outputs r = 0) :
    ∀ r ∈ outputs, r.q < limit → startsIn setting.stop inputs outputs r < 2 * setting.a := by
  intro r member below
  have enough := setting.enough
  have least := heavyCount_le setting.a
  rcases Nat.lt_trichotomy r.q interval.q with inFront | same | behind
  · exact passing.passed r member inFront
  · rw [sound.outputSorted.eq_of_key member passing.shown same]
    omega
  · rw [vacant r member behind below]
    omega

theorem Passing.ready (passing : Passing setting inputs outputs interval last)
    (sound : Sound setting.n setting.start setting.stop inputs outputs) {split : Record}
    (begins : split ∈ inputs) (below : split.p < endOf Record.q setting.stop outputs interval)
    (front : count Record.p inputs interval.q split.p = setting.a)
    (heavy : heavyCount setting.a ≤ startsIn setting.stop inputs outputs interval) :
    Ready setting split.p inputs outputs split interval := by
  have enough := setting.enough
  have above : interval.q < split.p := by
    by_contra under
    have none : count Record.p inputs interval.q split.p = 0 :=
      count_eq_zero.mpr fun s _ _ => by omega
    omega
  refine ⟨begins,passing.shown,above,below,front,heavy,?_,above,Or.inl rfl⟩
  intro r member inFront differ
  have ends := sound.outputIsEnd passing.shown
  have less : r.q < interval.q := by
    rcases Nat.lt_trichotomy r.q interval.q with less | same | behind
    · exact less
    · exact absurd (sound.outputSorted.eq_of_key member passing.shown same) differ
    · have far := ends.free r member behind
      omega
  have own := (sound.outputIsEnd member).free interval passing.shown less
  exact ⟨passing.passed r member less,by omega⟩

theorem Passing.begin (occupied : Occupied setting.stop inputs outputs interval last)
    (light : ∀ r ∈ outputs, r.q < interval.q →
      startsIn setting.stop inputs outputs r < 2 * setting.a) :
    Passing setting inputs outputs interval last :=
  ⟨occupied.shown,occupied.listed,occupied.low,occupied.high,light⟩

omit [InputRouter ρ] in
theorem Steady.clear (steady : Steady setting inv balancer inputs outputs)
    (light : ∀ r ∈ outputs, r.q < setting.stop →
      startsIn setting.stop inputs outputs r < 2 * setting.a) :
    Clear setting setting.stop inputs outputs :=
  fun r member below => ⟨light r member below,(steady.sound.outputIsEnd member).inside⟩

theorem sweepFrom_balances (routes : Routes setting inv) {fuel : Nat}
    (steady : Steady setting inv balancer inputs outputs)
    (passing : Passing setting inputs outputs interval last)
    (enough : setting.stop ≤ interval.q + fuel) :
    ∃ after number newInputs newOutputs,
      sweepFrom fuel balancer interval.id (tallyAt inputs interval.q last) = .ok after ∧
      Steady setting inv after newInputs newOutputs ∧
      Progress setting number balancer after inputs outputs newInputs newOutputs ∧
      Clear setting setting.stop newInputs newOutputs := by
  -- every turn goes on with an interval further right: the next one that holds a start, or what is
  -- left of the one just split
  induction fuel generalizing balancer inputs outputs interval last with
  | zero => exact absurd (steady.sound.outputRange interval passing.shown).2 (by omega)
  | succ fuel ih =>
    have sound := steady.sound
    have stop := steady.outputEnd passing.shown
    by_cases light : startsIn setting.stop inputs outputs interval < heavyCount setting.a
    · obtain ⟨seen,seenMember,point,_,seenInside,_⟩ := splitPoint_light steady.holds.lists
        sound.inputSorted passing.listed passing.low passing.high light
      have storeSound := steady.sound
      rw [← steady.stop] at storeSound seenInside
      have next := nextOccupied_finds steady.holds storeSound passing.shown seenMember seenInside
      rw [steady.stop] at next
      rcases next with ⟨none,vacant⟩ | ⟨found,first,answer,occupied,behind,vacant⟩
      · refine ⟨balancer,0,inputs,outputs,?_,steady,.refl _ _ _ _,
          steady.clear (passing.finish sound light vacant)⟩
        simp [sweepFrom,stop,steady.param,point,none]
      · have going : Passing setting inputs outputs found first :=
          .begin occupied (passing.finish sound light vacant)
        obtain ⟨after,number,newInputs,newOutputs,rest,facts⟩ := ih steady going (by omega)
        refine ⟨after,number,newInputs,newOutputs,?_,facts⟩
        rw [← occupied.tally] at rest
        simp [sweepFrom,stop,steady.param,point,answer,rest]
    · have heavy := Nat.le_of_not_lt light
      obtain ⟨split,begins,seen,seenMember,point,_,order,_,seenInside,front,number⟩ :=
        splitPoint_heavy steady.holds.lists sound.inputSorted passing.listed passing.low passing.high
          heavy (steady.splittable heavy)
      have ends := (sound.outputIsEnd passing.shown).inside
      have ready := passing.ready sound begins (by omega) front heavy
      have above := ready.above
      obtain ⟨middle,splits,midInputs,midOutputs,new,newTally,settled,stands,progress,clear,traced⟩ :=
        steady.settle_eq routes (show seen.p ≤ setting.stop by omega) ready
          (count Record.p inputs interval.q seen.p + 1)
      have swept : balancer.store.p split.id = .ok split.p := steady.holds.p (Or.inl begins)
      have counted : balancer.store.p seen.id = .ok seen.p := steady.holds.p (Or.inl seenMember)
      have difference : Checked.sub newTally middle.a =
          .ok (count Record.p midInputs new.q seen.p + 1) := by
        rw [stands.param,traced.remaining above order front,Checked.sub_of_le (Nat.le_add_right _ _),
          Nat.add_sub_cancel_left]
      have going : Passing setting midInputs midOutputs new seen := by
        refine ⟨traced.right,progress.run.inputs_sublist.subset seenMember,?_,?_,?_⟩
        · rw [traced.cut]
          exact order
        · rw [traced.rear rfl]
          exact seenInside
        · intro r member inFront
          exact (clear r member (by rw [← traced.cut]; exact inFront)).1
      obtain ⟨after,more,newInputs,newOutputs,rest,facts,restProgress,light⟩ := ih stands going
        (by rw [traced.cut]; omega)
      refine ⟨after,splits + more,newInputs,newOutputs,?_,facts,progress.trans restProgress,light⟩
      simp only [sweepFrom,stop,steady.param,point,Checked.ok_bind,swept,tallyAt_last,counted,
        tallyAt_count,settled,difference]
      exact rest

theorem sweep_balances (routes : Routes setting inv)
    (steady : Steady setting inv balancer inputs outputs) :
    ∃ after number newInputs newOutputs, balancer.sweep = .ok after ∧
      Steady setting inv after newInputs newOutputs ∧
      Progress setting number balancer after inputs outputs newInputs newOutputs ∧
      Clear setting setting.stop newInputs newOutputs := by
  have least := setting.enough
  have fuel := steady.fuel_le
  have storeSound := steady.sound
  rw [← steady.stop] at storeSound
  have first := firstOccupied_finds steady.holds storeSound
  rw [steady.stop] at first
  rcases first with ⟨none,vacant⟩ | ⟨found,first,answer,occupied,vacant⟩
  · refine ⟨balancer,0,inputs,outputs,by simp [sweep,none],steady,.refl _ _ _ _,steady.clear ?_⟩
    intro r member below
    rw [vacant r member below]
    omega
  · have going : Passing setting inputs outputs found first := .begin occupied fun r member below => by
      rw [vacant r member below]
      omega
    have range := (steady.sound.outputRange found occupied.shown).1
    have enough : setting.stop ≤ found.q + balancer.splitFuel := by omega
    obtain ⟨after,number,newInputs,newOutputs,ok,facts⟩ :=
      sweepFrom_balances routes steady going enough
    refine ⟨after,number,newInputs,newOutputs,?_,facts⟩
    rw [← occupied.tally] at ok
    simpa [sweep,answer] using ok

end Balancer

end BalancedMove
