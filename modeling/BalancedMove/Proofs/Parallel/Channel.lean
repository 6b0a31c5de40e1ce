import BalancedMove.Parallel.Worker
import BalancedMove.Proofs.Balance.Split
import BalancedMove.Proofs.Parallel.Ranges

/-! What one worker tells another. The two count the pairs they share, and a message names the pair
behind whose start the new one belongs by its number. In a fitting message no other shared start lies
between these two, and the sender owns the images of all positions from one to the other. -/
namespace BalancedMove

open Sequence Store

/-- A message of `sender` to `receiver`, who share the pairs `prior` so far. -/
structure Fits (layout : Layout) (sender receiver : Nat) (prior : List Pair) (message : Message) :
    Prop where
  capable : 2 * layout.a ≤ heavyCount layout.a
  lands : layout.Owns receiver message.pair.p
  leaves : layout.Owns sender message.pair.q
  moved : layout.image message.pair.p = message.pair.q
  follows : ∃ mark, prior[message.after]? = some mark ∧ mark.p < message.pair.p ∧
    (∀ x, mark.p ≤ x → x ≤ message.pair.p → layout.Owns sender (layout.image x)) ∧
    ∀ v ∈ prior, mark.p < v.p → message.pair.p < v.p

def FitsAll (layout : Layout) (sender receiver : Nat) : List Pair → List Message → Prop
  | _, [] => True
  | prior, message :: rest => Fits layout sender receiver prior message ∧
      FitsAll layout sender receiver (prior ++ [message.pair]) rest

theorem fitsAll_append {layout : Layout} {sender receiver : Nat} {prior : List Pair}
    {early late : List Message} : FitsAll layout sender receiver prior (early ++ late) ↔
      FitsAll layout sender receiver prior early ∧
        FitsAll layout sender receiver (prior ++ early.map Message.pair) late := by
  induction early generalizing prior with
  | nil => simp [FitsAll]
  | cons message early ih =>
    simp only [List.cons_append,FitsAll,ih,List.map_cons,List.append_assoc,List.nil_append]
    exact (and_assoc).symm

namespace Outgoing

variable (outgoing : Outgoing) {receiver number other : Nat} {message : Message}

def batch (receiver : Nat) : List Message := (outgoing.staged.getD receiver #[]).toList

def backlog : Nat := (outgoing.staged.toList.flatMap Array.toList).length

/-- The pairs shared with a receiver, `handed` being those it knows of. -/
def shared (handed : Nat → List Pair) (receiver : Nat) : List Pair :=
  handed receiver ++ (outgoing.batch receiver).map Message.pair

def add (receiver number : Nat) (message : Message) : Outgoing where
  bounds := outgoing.bounds
  nextNumber := outgoing.nextNumber.setIfInBounds receiver (number + 1)
  staged := outgoing.staged.modify receiver (·.push message)

variable {outgoing}

theorem batch_add (inside : receiver < outgoing.staged.size) :
    (outgoing.add receiver number message).batch other =
      outgoing.batch other ++ if other = receiver then [message] else [] := by
  unfold batch add
  simp only [Array.getD_eq_getD_getElem?,Array.getElem?_modify]
  by_cases same : receiver = other
  · subst other
    simp [Array.getElem?_eq_getElem inside]
  · simp [same,Ne.symm same]

theorem shared_add {handed : Nat → List Pair} (inside : receiver < outgoing.staged.size) :
    (outgoing.add receiver number message).shared handed other =
      outgoing.shared handed other ++ if other = receiver then [message.pair] else [] := by
  rw [shared,batch_add inside,List.map_append,← List.append_assoc]
  congr 1
  split <;> rfl

theorem length_push {items : List Batch} {i : Nat} (inside : i < items.length) :
    ((items.modify i (·.push message)).flatMap Array.toList).length =
      (items.flatMap Array.toList).length + 1 := by
  induction items generalizing i with
  | nil => exact absurd inside (Nat.not_lt_zero i)
  | cons batch rest ih =>
    cases i with
    | zero =>
      simp only [List.modify_zero_cons,List.flatMap_cons,List.length_append,Array.toList_push,
        List.length_singleton]
      omega
    | succ i =>
      have grown := ih (Nat.lt_of_succ_lt_succ inside)
      simp only [List.modify_succ_cons,List.flatMap_cons,List.length_append,grown]
      omega

theorem backlog_add (inside : receiver < outgoing.staged.size) :
    (outgoing.add receiver number message).backlog = outgoing.backlog + 1 := by
  unfold backlog add
  simp only [Array.toList_modify]
  exact length_push (by simpa using inside)

theorem batch_take (outgoing : Outgoing) (receiver other : Nat) :
    (outgoing.take receiver).2.batch other =
      if other = receiver then [] else outgoing.batch other := by
  unfold batch take
  simp only [Array.getD_eq_getD_getElem?,Array.getElem?_setIfInBounds]
  by_cases same : receiver = other
  · subst other
    by_cases inside : receiver < outgoing.staged.size <;> simp [inside]
  · simp [same,Ne.symm same]

theorem length_drain {items : List Batch} {i : Nat} {batch : Batch} (place : items[i]? = some batch) :
    ((items.set i #[]).flatMap Array.toList).length + batch.size =
      (items.flatMap Array.toList).length := by
  induction items generalizing i with
  | nil => simp at place
  | cons head rest ih =>
    cases i with
    | zero =>
      obtain rfl : head = batch := by simpa using place
      simp only [List.set_cons_zero,List.flatMap_cons,List.length_append,Array.length_toList,
        List.length_nil]
      omega
    | succ i =>
      have drained := ih (i := i) (by simpa using place)
      simp only [List.set_cons_succ,List.flatMap_cons,List.length_append]
      omega

theorem backlog_take (inside : receiver < outgoing.staged.size) :
    (outgoing.take receiver).2.backlog + (outgoing.batch receiver).length = outgoing.backlog := by
  have place : outgoing.staged.toList[receiver]? = some outgoing.staged[receiver] := by
    simp [inside]
  have drained := length_drain place
  unfold backlog batch take
  simpa [Array.getD_eq_getD_getElem?,inside] using drained

theorem stage_eq {store : Store} {new old : NodeId} {pair : Pair} {node : Node} {after : Nat}
    (read : store.pair new = .ok pair) (owner : rangeOf outgoing.bounds pair.p = .ok receiver)
    (record : store.node old = .ok node) (twin : node.twin = some after)
    (next : outgoing.nextNumber[receiver]? = some number) (inside : new < store.arena.size) :
    outgoing.stage store new old = .ok (outgoing.add receiver number ⟨pair,after⟩,
      store.withArena (store.arena.put new fun node => { node with twin := some number })) := by
  have changed : store.setTwin new (some number) = .ok (store.withArena
    (store.arena.put new fun node => { node with twin := some number })) := modify_ok inside _
  simp [stage,read,owner,record,twin,Checked.promised,next,Checked.found,changed,add]

end Outgoing

/-- The records of a tree move positions as the domain does, each of them into one range. -/
structure Moves (layout : Layout) (stop : Nat) (outputs : List Record) : Prop where
  image : ∀ r ∈ outputs, ∀ y, r.q ≤ y → y < endOf Record.q stop outputs r →
    layout.image (r.p + (y - r.q)) = y
  single : ∀ r ∈ outputs, ∃ dst < layout.workers, layout.bound dst ≤ r.p ∧
    r.p + endOf Record.q stop outputs r ≤ layout.bound (dst + 1) + r.q

section Moving

variable {layout : Layout} {n start stop : Nat} {inputs outputs : List Record} {old new r : Record}

theorem Moves.split (moves : Moves layout stop outputs) (sound : Sound n start stop inputs outputs)
    (off : Offshoot stop outputs old new) : Moves layout stop (putBehind old new outputs) := by
  have above := off.above
  have below := off.below
  have shifted := off.shifted
  constructor
  · intro r member y low high
    rw [off.endOf_eq sound member] at high
    split at high
    next same =>
      subst r
      exact moves.image old off.member y low (by omega)
    next isOld =>
      split at high
      next same =>
        subst r
        have own := moves.image old off.member y (by omega) high
        have place : new.p + (y - new.q) = old.p + (y - old.q) := by omega
        rw [place]
        exact own
      next isNew =>
        exact moves.image r (((mem_putBehind off.member).mp member).resolve_left isNew) y low high
  · intro r member
    rw [off.endOf_eq sound member]
    obtain ⟨dst,inside,low,high⟩ := moves.single old off.member
    split
    next same =>
      subst r
      exact ⟨dst,inside,low,by omega⟩
    next isOld =>
      split
      next same =>
        subst r
        exact ⟨dst,inside,by omega,by omega⟩
      next isNew =>
        exact moves.single r (((mem_putBehind off.member).mp member).resolve_left isNew)

theorem Moves.begins (moves : Moves layout stop outputs) (sound : Sound n start stop inputs outputs)
    (member : r ∈ outputs) : layout.image r.p = r.q := by
  have above := (sound.outputIsEnd member).above
  have own := moves.image r member r.q (Nat.le_refl _) above
  rwa [Nat.sub_self,Nat.add_zero] at own

theorem Moves.lands (moves : Moves layout stop outputs) (off : Offshoot stop outputs old new) :
    layout.image new.p = new.q := by
  have above := off.above
  have shifted := off.shifted
  have own := moves.image old off.member new.q (Nat.le_of_lt above) off.below
  have place : old.p + (new.q - old.q) = new.p := by omega
  rwa [place] at own

theorem Moves.owner (moves : Moves layout stop outputs) (off : Offshoot stop outputs old new)
    {dst : Nat} (inside : dst < layout.workers) (owns : layout.Owns dst old.p) :
    layout.Owns dst new.p := by
  have above := off.above
  have below := off.below
  have shifted := off.shifted
  obtain ⟨other,known,low,high⟩ := moves.single old off.member
  have same : other = dst := Layout.owns_unique known inside ⟨low,by omega⟩ owns
  subst other
  exact ⟨by omega,by omega⟩

/-- Nothing that the tree holds moves a start to a place between a record and its offshoot. -/
theorem Moves.apart (moves : Moves layout stop outputs) (sound : Sound n start stop inputs outputs)
    (off : Offshoot stop outputs old new) (member : r ∈ outputs) (behind : old.p < r.p) :
    new.p < r.p := by
  by_contra crossing
  have above := off.above
  have below := off.below
  have shifted := off.shifted
  have own := moves.image old off.member (old.q + (r.p - old.p)) (by omega) (by omega)
  have place : old.p + (old.q + (r.p - old.p) - old.q) = r.p := by omega
  rw [place,moves.begins sound member] at own
  have free := (sound.outputIsEnd off.member).free r member (by omega)
  omega

end Moving

/-- What a worker knows of its channels. `handed` are the pairs that the receivers know of, and `spent`
counts records that are accounted for, those of handed messages among them. -/
structure Channels (layout : Layout) (t : Nat) (handed : Nat → List Pair) (spent : Nat)
    (outgoing : Outgoing) (inputs outputs : List Record) : Prop where
  bounds : outgoing.bounds = layout.bounds
  size : outgoing.staged.size = layout.workers
  listed : ∀ r ∈ inputs, layout.image r.p = r.q
  moves : Moves layout (layout.bound (t + 1)) outputs
  own : ∀ r ∈ outputs, r ∈ inputs → r.twin = none
  numbered : ∀ r ∈ outputs, r ∉ inputs → ∃ dst < layout.workers, ∃ i, layout.Owns dst r.p ∧
    r.twin = some i ∧ (outgoing.shared handed dst)[i]? = some r.pair
  shown : ∀ dst < layout.workers, ∀ i v, (outgoing.shared handed dst)[i]? = some v →
    layout.Owns dst v.p ∧ ∃ r ∈ outputs, r ∉ inputs ∧ r.pair = v ∧ r.twin = some i
  next : ∀ dst < layout.workers,
    outgoing.nextNumber[dst]? = some (outgoing.shared handed dst).length
  fits : ∀ dst < layout.workers, FitsAll layout t dst (handed dst) (outgoing.batch dst)
  owed : outgoing.backlog + spent ≤ outputs.length

section Channels

variable {layout : Layout} {t spent : Nat} {inside : t < layout.workers} {handed : Nat → List Pair}
variable {outgoing : Outgoing} {inputs outputs : List Record} {old new : Record}

theorem Channels.length_le (channels : Channels layout t handed spent outgoing inputs outputs)
    {dst : Nat} (receiver : dst < layout.workers) :
    (outgoing.shared handed dst).length ≤ outputs.length := by
  have numbers : ((List.range (outgoing.shared handed dst).length).map some).Nodup :=
    List.nodup_range.map (Option.some_injective _)
  have twins : (List.range (outgoing.shared handed dst).length).map some ⊆
      outputs.map Record.twin := by
    intro twin member
    obtain ⟨i,below,rfl⟩ := List.mem_map.mp member
    obtain ⟨_,r,shown,_,_,same⟩ := channels.shown dst receiver i _
      (List.getElem?_eq_getElem (List.mem_range.mp below))
    exact List.mem_map.mpr ⟨r,shown,same⟩
  have length := (List.subperm_of_subset numbers twins).length_le
  rwa [List.length_map,List.length_map,List.length_range] at length

/-- A start that stays tells nobody. -/
theorem Channels.keep (channels : Channels layout t handed spent outgoing inputs outputs)
    (sound : Sound layout.n (layout.bound t) (layout.bound (t + 1)) inputs outputs)
    (off : Offshoot (layout.bound (t + 1)) outputs old new) (member : old ∈ inputs)
    (plain : new.twin = none) : Channels layout t handed spent outgoing (putBehind old new inputs)
      (putBehind old new outputs) := by
  have fresh := off.fresh sound
  refine ⟨channels.bounds,channels.size,?_,channels.moves.split sound off,?_,?_,?_,channels.next,
    channels.fits,?_⟩
  · intro r listed
    rcases (mem_putBehind member).mp listed with rfl | before
    · exact channels.moves.lands off
    · exact channels.listed r before
  · intro r shown listed
    by_cases isNew : r = new
    · exact isNew ▸ plain
    · exact channels.own r (((mem_putBehind off.member).mp shown).resolve_left isNew)
        (((mem_putBehind member).mp listed).resolve_left isNew)
  · intro r shown unlisted
    rw [mem_putBehind member,not_or] at unlisted
    exact channels.numbered r (((mem_putBehind off.member).mp shown).resolve_left unlisted.1)
      unlisted.2
  · intro dst known i v place
    obtain ⟨owns,r,shown,unlisted,pair,twin⟩ := channels.shown dst known i v place
    have isNew : r ≠ new := fun same => fresh (same ▸ shown)
    refine ⟨owns,r,(mem_putBehind off.member).mpr (Or.inr shown),?_,pair,twin⟩
    rw [mem_putBehind member,not_or]
    exact ⟨isNew,unlisted⟩
  · rw [length_putBehind off.member]
    have owed := channels.owed
    omega

theorem Channels.admit (channels : Channels layout t handed spent outgoing inputs outputs)
    (member : old ∈ inputs) (unknown : new ∉ outputs) (moved : layout.image new.p = new.q) :
    Channels layout t handed spent outgoing (putBehind old new inputs) outputs := by
  refine ⟨channels.bounds,channels.size,?_,channels.moves,?_,?_,?_,channels.next,channels.fits,
    channels.owed⟩
  · intro r listed
    rcases (mem_putBehind member).mp listed with rfl | before
    · exact moved
    · exact channels.listed r before
  · intro r shown listed
    have isNew : r ≠ new := fun same => unknown (same ▸ shown)
    exact channels.own r shown (((mem_putBehind member).mp listed).resolve_left isNew)
  · intro r shown unlisted
    rw [mem_putBehind member,not_or] at unlisted
    exact channels.numbered r shown unlisted.2
  · intro dst known i v place
    obtain ⟨owns,r,shown,unlisted,pair,twin⟩ := channels.shown dst known i v place
    have isNew : r ≠ new := fun same => unknown (same ▸ shown)
    refine ⟨owns,r,shown,?_,pair,twin⟩
    rw [mem_putBehind member,not_or]
    exact ⟨isNew,unlisted⟩

theorem Channels.hand (channels : Channels layout t handed spent outgoing inputs outputs)
    {dst : Nat} (known : dst < layout.workers) :
    Channels layout t (Function.update handed dst (outgoing.shared handed dst))
      (spent + (outgoing.batch dst).length) (outgoing.take dst).2 inputs outputs := by
  have size := channels.size
  have receiver : dst < outgoing.staged.size := by omega
  have same : ∀ other, (outgoing.take dst).2.shared
      (Function.update handed dst (outgoing.shared handed dst)) other =
      outgoing.shared handed other := by
    intro other
    rw [Outgoing.shared,Outgoing.batch_take]
    by_cases here : other = dst
    · subst other
      simp
    · rw [Function.update_of_ne here,if_neg here,Outgoing.shared]
  refine ⟨channels.bounds,?_,channels.listed,channels.moves,channels.own,?_,?_,?_,?_,?_⟩
  · simpa [Outgoing.take] using size
  · intro r shown unlisted
    obtain ⟨other,bounded,i,facts⟩ := channels.numbered r shown unlisted
    refine ⟨other,bounded,i,?_⟩
    rw [same]
    exact facts
  · intro other bounded i v place
    rw [same] at place
    exact channels.shown other bounded i v place
  · intro other bounded
    rw [same]
    exact channels.next other bounded
  · intro other bounded
    rw [Outgoing.batch_take]
    by_cases here : other = dst
    · rw [if_pos here]
      trivial
    · rw [Function.update_of_ne here,if_neg here]
      exact channels.fits other bounded
  · have owed := channels.owed
    have left := Outgoing.backlog_take receiver
    omega

theorem Channels.fits_next (channels : Channels layout t handed spent outgoing inputs outputs)
    (sound : Sound layout.n (layout.bound t) (layout.bound (t + 1)) inputs outputs)
    (capable : 2 * layout.a ≤ heavyCount layout.a)
    (off : Offshoot (layout.bound (t + 1)) outputs old new) {dst after : Nat}
    (known : dst < layout.workers) (owns : layout.Owns dst old.p)
    (mark : (outgoing.shared handed dst)[after]? = some old.pair) :
    Fits layout t dst (outgoing.shared handed dst) ⟨new.pair,after⟩ := by
  have above := off.above
  have below := off.below
  have shifted := off.shifted
  have leaves := off.outputRange sound new ((mem_putBehind off.member).mpr (Or.inl rfl))
  refine ⟨capable,channels.moves.owner off known owns,leaves,channels.moves.lands off,old.pair,mark,
    ?_,?_,?_⟩
  · change old.p < new.p
    omega
  · -- the positions up to the new start are images of positions of the old record
    intro x low high
    change old.p ≤ x at low
    change x ≤ new.p at high
    have start := sound.outputRange old off.member
    have ends := (sound.outputIsEnd off.member).inside
    have own := channels.moves.image old off.member (old.q + (x - old.p)) (by omega) (by omega)
    have place : old.p + (old.q + (x - old.p) - old.q) = x := by omega
    rw [place] at own
    rw [own]
    exact ⟨by omega,by omega⟩
  · intro v member behind
    obtain ⟨i,place⟩ := List.getElem?_of_mem member
    obtain ⟨_,r,shown,_,rfl,_⟩ := channels.shown dst known i v place
    exact channels.moves.apart sound off shown behind

/-- A start that leaves is numbered by both sides alike. -/
theorem Channels.tell (channels : Channels layout t handed spent outgoing inputs outputs)
    (sound : Sound layout.n (layout.bound t) (layout.bound (t + 1)) inputs outputs)
    (capable : 2 * layout.a ≤ heavyCount layout.a)
    (off : Offshoot (layout.bound (t + 1)) outputs old new) {dst after : Nat}
    (known : dst < layout.workers) (owns : layout.Owns dst old.p)
    (mark : (outgoing.shared handed dst)[after]? = some old.pair)
    (twin : new.twin = some (outgoing.shared handed dst).length) :
    Channels layout t handed spent
      (outgoing.add dst (outgoing.shared handed dst).length ⟨new.pair,after⟩) inputs
      (putBehind old new outputs) := by
  have unlisted := off.unlisted sound
  have size := channels.size
  have receiver : dst < outgoing.staged.size := by omega
  have lands := channels.moves.owner off known owns
  have grown := fun other => @Outgoing.shared_add outgoing dst (outgoing.shared handed dst).length
    other ⟨new.pair,after⟩ handed receiver
  -- only the channel to `dst` grows, by the pair of the new record
  refine ⟨channels.bounds,?_,channels.listed,channels.moves.split sound off,?_,?_,?_,?_,?_,?_⟩
  · simpa [Outgoing.add] using size
  · intro r shown listed
    have isNew : r ≠ new := fun same => unlisted (same ▸ listed)
    exact channels.own r (((mem_putBehind off.member).mp shown).resolve_left isNew) listed
  · intro r shown outside
    by_cases isNew : r = new
    · subst r
      refine ⟨dst,known,_,lands,twin,?_⟩
      rw [grown,if_pos rfl,List.getElem?_concat_length]
    · obtain ⟨other,bounded,i,owner,number,place⟩ :=
        channels.numbered r (((mem_putBehind off.member).mp shown).resolve_left isNew) outside
      refine ⟨other,bounded,i,owner,number,?_⟩
      rw [grown]
      exact List.getElem?_append_left (List.getElem?_eq_some_iff.mp place).1 ▸ place
  · intro other bounded i v place
    rw [grown] at place
    by_cases early : i < (outgoing.shared handed other).length
    · rw [List.getElem?_append_left early] at place
      obtain ⟨owner,r,shown,outside,pair,number⟩ := channels.shown other bounded i v place
      exact ⟨owner,r,(mem_putBehind off.member).mpr (Or.inr shown),outside,pair,number⟩
    · rw [List.getElem?_append_right (Nat.le_of_not_lt early)] at place
      split at place
      next same =>
        subst other
        obtain ⟨last,rfl⟩ : i - (outgoing.shared handed dst).length = 0 ∧ new.pair = v := by
          simpa [List.getElem?_singleton,eq_comm] using place
        refine ⟨lands,new,(mem_putBehind off.member).mpr (Or.inl rfl),unlisted,rfl,?_⟩
        rw [twin]
        congr 1
        omega
      next => simp at place
  · intro other bounded
    have before := channels.next other bounded
    rw [grown]
    by_cases same : other = dst
    · subst other
      have width := (Array.getElem?_eq_some_iff.mp before).1
      simp [Outgoing.add,width]
    · simpa [Outgoing.add,Array.getElem?_setIfInBounds,same,Ne.symm same] using before
  · intro other bounded
    rw [Outgoing.batch_add receiver]
    by_cases same : other = dst
    · subst other
      rw [if_pos rfl,fitsAll_append]
      exact ⟨channels.fits dst known,channels.fits_next sound capable off known owns mark,trivial⟩
    · rw [if_neg same,List.append_nil]
      exact channels.fits other bounded
  · rw [length_putBehind off.member,Outgoing.backlog_add receiver]
    have owed := channels.owed
    omega

theorem holds_numbered {store : Store} {inputs outputs : List Record} {old new : Record}
    (holds : store.Holds inputs (putBehind old new outputs)) (member : old ∈ outputs)
    (unused : ∀ r, r ∈ inputs ∨ r ∈ outputs → r.id ≠ new.id) (number : Nat) :
    let numbered := store.withArena (store.arena.put new.id fun node => { node with twin := some number })
    let placedNew : Record := { new with twin := some number }
    numbered.Holds inputs (putBehind old placedNew outputs) ∧
      (∀ id, id ≠ new.id → numbered.arena.labelOf id = store.arena.labelOf id) ∧
      (store.Tidy (putBehind old new outputs) → numbered.Tidy (putBehind old placedNew outputs)) := by
  intro numbered placedNew
  have mem_split : ∀ {r}, r ∈ outputs → r ∈ putBehind old new outputs := fun inside =>
    (mem_putBehind member).mpr (Or.inr inside)
  have labels := fun id => @Arena.labelOf_put store.arena new.id
    (fun node => { node with twin := some number }) (fun label => { label with twin := some number })
    (fun _ => rfl) id
  have apart : ∀ r ∈ outputs, r.id = old.id → r = old := fun r inside =>
    holds.eq_of_id (Or.inr (mem_split inside)) (Or.inr (mem_split member))
  have sameIds : (putBehind old placedNew outputs).map Record.id =
      (putBehind old new outputs).map Record.id := by
    rw [map_id_putBehind apart,map_id_putBehind apart]
  refine ⟨holds.relabel (fun _ => rfl) (fun _ => rfl) rfl sameIds fun r known => ?_,
    fun id other => (labels id).trans (if_neg other),
    fun tidy => tidy.relabel (fun _ => rfl) sameIds⟩
  by_cases same : r = placedNew
  · subst r
    rw [labels,if_pos rfl,holds.labelled new (Or.inr ((mem_putBehind member).mpr (Or.inl rfl)))]
    rfl
  · have before : r ∈ inputs ∨ r ∈ outputs := known.imp_right fun inside =>
      ((mem_putBehind member).mp inside).resolve_left same
    rw [labels,if_neg (unused r before)]
    exact holds.labelled r (before.imp_right mem_split)

theorem channels_routes (handed : Nat → List Pair) (spent : Nat) :
    Routes (layout.setting t inside) (Channels layout t handed spent) := by
  refine ⟨?_⟩
  intro router store inputs outputs old new start stop sound split capable channels holds unused plain
  have off := split.toOffshoot
  have shown : new ∈ putBehind old new outputs := (mem_putBehind off.member).mpr (Or.inl rfl)
  have landed : store.p new.id = .ok new.p := holds.p (Or.inr shown)
  -- what is split off a listed record stays in the range, all else goes to the owner of that record
  by_cases member : old ∈ inputs
  · have place : placed old new inputs = putBehind old new inputs := if_pos member
    have stays := off.stays sound member
    obtain ⟨after,inserted,afterHolds,keeps,links⟩ := holds.insertAfter member
      (fun r listed => unused r (Or.inl listed)) (holds.labelled new (Or.inr shown))
    refine ⟨router,after,new,?_,rfl,rfl,rfl,keeps,links.size,fun id _ => links.labels id,?_,
      fun tidy => tidy.of_links links,?_⟩
    · simp [InputRouter.place,landed,start,stop,stays,inserted,member]
    · rw [place]
      exact afterHolds
    · rw [place]
      exact channels.keep sound off member plain
  · obtain ⟨dst,known,after,owns,twin,mark⟩ := channels.numbered old off.member member
    have leaves := off.leaves sound member
    have lands := channels.moves.owner off known owns
    let number := (router.shared handed dst).length
    let placedNew : Record := { new with twin := some number }
    have place : placed old placedNew inputs = inputs := if_neg member
    have present : old ∈ putBehind old new outputs :=
      (mem_putBehind off.member).mpr (Or.inr off.member)
    obtain ⟨node,record,_,nodeTwin,_⟩ := holds.node (Or.inr present)
    have read : store.pair new.id = .ok new.pair := holds.pair (Or.inr shown)
    have owner : rangeOf router.bounds new.pair.p = .ok dst := by
      rw [channels.bounds]
      exact Layout.rangeOf_eq known lands
    have staged := Outgoing.stage_eq read owner record (nodeTwin.trans twin)
      (channels.next dst known) (holds.lt_size (Or.inr shown))
    obtain ⟨numbered,labels,tidies⟩ := holds_numbered holds off.member unused number
    refine ⟨router.add dst number ⟨new.pair,after⟩,_,placedNew,?_,rfl,rfl,rfl,store.keeps_withArena _,
      Arena.size_put _ _ _,labels,?_,tidies,?_⟩
    · simp only [InputRouter.place,landed,Checked.ok_bind,start,stop,if_neg leaves,staged,member]
      rfl
    · rw [place]
      exact numbered
    · rw [place]
      have offPlaced : Offshoot (layout.bound (t + 1)) outputs old placedNew :=
        ⟨off.member,off.above,off.below,off.shifted⟩
      exact channels.tell sound capable offPlaced known owns mark rfl

end Channels

end BalancedMove
