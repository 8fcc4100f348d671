import VoltDBX.PubSub

/-!
The two maps of a `ChannelRegistry` over every sequence of calls.
-/

set_option autoImplicit false

namespace VoltDBX
open KeyedList

namespace ChannelRegistry

section Lists
variable {α : Type} [DecidableEq α]

theorem mem_addOnce {x y : α} {l : List α} : y ∈ addOnce x l ↔ y = x ∨ y ∈ l := by
  unfold addOnce
  by_cases hx : x ∈ l
  · rw [if_pos hx]
    exact ⟨Or.inr,fun h => h.elim (fun he => he ▸ hx) id⟩
  · rw [if_neg hx,List.mem_append,List.mem_singleton,or_comm]

theorem nodup_addOnce {x : α} {l : List α} (h : l.Nodup) : (addOnce x l).Nodup := by
  unfold addOnce
  by_cases hx : x ∈ l
  · rwa [if_pos hx]
  · rw [if_neg hx,List.nodup_append]
    refine ⟨h,List.nodup_singleton x,fun a ha b hb => ?_⟩
    rw [List.mem_singleton] at hb
    exact fun he => hx (hb ▸ he ▸ ha)

theorem mem_without {x y : α} {l : List α} : y ∈ without x l ↔ y ∈ l ∧ y ≠ x := by
  simp [without]

theorem nodup_without {x : α} {l : List α} (h : l.Nodup) : (without x l).Nodup := h.filter _

theorem without_without (x : α) (l : List α) : without x (without x l) = without x l := by
  simp [without,List.filter_filter]

theorem without_of_notMem {x : α} {l : List α} (h : x ∉ l) : without x l = l := by
  rw [without,List.filter_eq_self]
  intro y hy
  have hne : y ≠ x := fun he => h (he ▸ hy)
  simpa using hne

theorem getD_map_without (x : α) (o : Option (List α)) :
    (o.map (without x)).getD [] = without x (o.getD []) := by
  cases o with
  | none => rfl
  | some l => rfl

end Lists

variable (r : ChannelRegistry) (channel : Bytes) (id : SubscriberId)

theorem subscribers_subscribe (c : Bytes) : (r.subscribe channel id).subscribers c =
    if c = channel then addOnce id (r.subscribers channel) else r.subscribers c := by
  simp only [subscribers,subscribe,find_assign]
  split
  · rfl
  · rfl

theorem channelsFor_subscribe (s : SubscriberId) : (r.subscribe channel id).channelsFor s =
    if s = id then addOnce channel (r.channelsFor id) else r.channelsFor s := by
  simp only [channelsFor,subscribe,find_assign]
  split
  · rfl
  · rfl

theorem subscribers_unsubscribe (c : Bytes) : (r.unsubscribe channel id).subscribers c =
    if c = channel then without id (r.subscribers c) else r.subscribers c := by
  simp only [subscribers,unsubscribe,find_adjust]
  split
  · rename_i hc
    rw [hc,getD_map_without]
  · rfl

theorem channelsFor_unsubscribe (s : SubscriberId) : (r.unsubscribe channel id).channelsFor s =
    if s = id then without channel (r.channelsFor s) else r.channelsFor s := by
  simp only [channelsFor,unsubscribe,find_adjust]
  split
  · rename_i hs
    rw [hs,getD_map_without]
  · rfl

theorem find_foldl_adjust (channels : List Bytes) (m : List (Bytes × List SubscriberId))
    (c : Bytes) : find c (channels.foldl (fun m channel => adjust channel (without id) m) m) =
      if c ∈ channels then (find c m).map (without id) else find c m := by
  induction channels generalizing m with
  | nil => simp
  | cons first channels ih =>
    rw [List.foldl_cons,ih,find_adjust]
    by_cases hfirst : c = first
    · subst hfirst
      by_cases hc : c ∈ channels
      · simp [hc,Function.comp_def,without_without]
      · simp [hc]
    · by_cases hc : c ∈ channels
      · simp [hc,hfirst]
      · simp [hc,hfirst]

theorem subscribers_unsubscribeAll (c : Bytes) : (r.unsubscribeAll id).subscribers c =
    if c ∈ r.channelsFor id then without id (r.subscribers c) else r.subscribers c := by
  unfold unsubscribeAll channelsFor
  cases h : find id r.subscriberMap with
  | none => simp
  | some channels =>
    simp only [subscribers,find_foldl_adjust,Option.getD_some]
    split
    · exact getD_map_without id _
    · rfl

theorem channelsFor_unsubscribeAll (s : SubscriberId) : (r.unsubscribeAll id).channelsFor s =
    if s = id then [] else r.channelsFor s := by
  unfold unsubscribeAll
  cases h : find id r.subscriberMap with
  | none =>
    by_cases hs : s = id
    · simp [hs,channelsFor,h]
    · simp [hs]
  | some channels =>
    simp only [channelsFor,find_discard]
    by_cases hs : s = id
    · simp [hs]
    · simp [hs]

inductive Call where
  | subscribe (channel : Bytes) (id : SubscriberId)
  | unsubscribe (channel : Bytes) (id : SubscriberId)
  | unsubscribeAll (id : SubscriberId)
  deriving DecidableEq, Repr

def step (r : ChannelRegistry) : Call → ChannelRegistry
  | .subscribe channel id => r.subscribe channel id
  | .unsubscribe channel id => r.unsubscribe channel id
  | .unsubscribeAll id => r.unsubscribeAll id

def after (calls : List Call) : ChannelRegistry := calls.foldl step create

theorem after_append (calls : List Call) (x : Call) :
    after (calls ++ [x]) = step (after calls) x := by
  rw [after,List.foldl_append]
  rfl

def Call.concerns (channel : Bytes) (id : SubscriberId) : Call → Bool
  | .subscribe c s => c = channel && s = id
  | .unsubscribe c s => c = channel && s = id
  | .unsubscribeAll s => s = id

/-- The last call that says so is a `subscribe`. -/
def Subscribed (calls : List Call) (channel : Bytes) (id : SubscriberId) : Prop :=
  (calls.filter (Call.concerns channel id)).getLast? = some (.subscribe channel id)

instance (calls : List Call) (channel : Bytes) (id : SubscriberId) :
    Decidable (Subscribed calls channel id) :=
  inferInstanceAs (Decidable (_ = _))

/-- The maps mirror each other and have no duplicates. -/
structure Consistent (r : ChannelRegistry) : Prop where
  mirrored : ∀ channel id, id ∈ r.subscribers channel ↔ channel ∈ r.channelsFor id
  nodupSubscribers : ∀ channel, (r.subscribers channel).Nodup
  nodupChannels : ∀ id, (r.channelsFor id).Nodup

variable {r channel id}

theorem Consistent.subscribers_unsubscribeAll (h : r.Consistent) (id : SubscriberId)
    (c : Bytes) : (r.unsubscribeAll id).subscribers c = without id (r.subscribers c) := by
  rw [ChannelRegistry.subscribers_unsubscribeAll]
  split
  · rfl
  · rename_i hc
    rw [without_of_notMem fun hmem => hc ((h.mirrored c id).mp hmem)]

theorem Consistent.mem_subscribers_step (h : r.Consistent) (x : Call) (c : Bytes)
    (s : SubscriberId) : s ∈ (r.step x).subscribers c ↔
      if x.concerns c s then x = .subscribe c s else s ∈ r.subscribers c := by
  cases x with
  | subscribe channel id =>
    simp only [step,subscribers_subscribe,Call.concerns]
    by_cases hc : c = channel
    · by_cases hs : s = id
      · simp [hc,hs,mem_addOnce]
      · simp [hc,hs,Ne.symm hs,mem_addOnce]
    · simp [hc,Ne.symm hc]
  | unsubscribe channel id =>
    simp only [step,subscribers_unsubscribe,Call.concerns]
    by_cases hc : c = channel
    · by_cases hs : s = id
      · simp [hc,hs,mem_without]
      · simp [hc,hs,Ne.symm hs,mem_without]
    · simp [hc,Ne.symm hc]
  | unsubscribeAll id =>
    simp only [step,h.subscribers_unsubscribeAll,Call.concerns]
    by_cases hs : s = id
    · simp [hs,mem_without]
    · simp [hs,Ne.symm hs,mem_without]

theorem mem_channelsFor_step (r : ChannelRegistry) (x : Call) (c : Bytes)
    (s : SubscriberId) : c ∈ (r.step x).channelsFor s ↔
      if x.concerns c s then x = .subscribe c s else c ∈ r.channelsFor s := by
  cases x with
  | subscribe channel id =>
    simp only [step,channelsFor_subscribe,Call.concerns]
    by_cases hs : s = id
    · by_cases hc : c = channel
      · simp [hc,hs,mem_addOnce]
      · simp [hc,hs,Ne.symm hc,mem_addOnce]
    · simp [hs,Ne.symm hs]
  | unsubscribe channel id =>
    simp only [step,channelsFor_unsubscribe,Call.concerns]
    by_cases hs : s = id
    · by_cases hc : c = channel
      · simp [hc,hs,mem_without]
      · simp [hc,hs,Ne.symm hc,mem_without]
    · simp [hs,Ne.symm hs]
  | unsubscribeAll id =>
    simp only [step,channelsFor_unsubscribeAll,Call.concerns]
    by_cases hs : s = id
    · simp [hs]
    · simp [hs,Ne.symm hs]

theorem Consistent.subscribers_step (h : r.Consistent) (x : Call) (c : Bytes) :
    ((r.step x).subscribers c).Sublist (r.subscribers c) ∨
    ∃ s, x = .subscribe c s ∧ s ∉ r.subscribers c ∧
      (r.step x).subscribers c = r.subscribers c ++ [s] := by
  cases x with
  | subscribe channel id =>
    simp only [step,subscribers_subscribe]
    by_cases hc : c = channel
    · subst hc
      by_cases hs : id ∈ r.subscribers c
      · exact Or.inl (by simp [addOnce,hs])
      · exact Or.inr ⟨id,rfl,hs,by simp [addOnce,hs]⟩
    · rw [if_neg hc]
      exact Or.inl (List.Sublist.refl _)
  | unsubscribe channel id =>
    simp only [step,subscribers_unsubscribe]
    refine Or.inl ?_
    split
    · exact List.filter_sublist
    · exact List.Sublist.refl _
  | unsubscribeAll id =>
    simp only [step,h.subscribers_unsubscribeAll]
    exact Or.inl List.filter_sublist

theorem Consistent.step (h : r.Consistent) (x : Call) : (r.step x).Consistent where
  mirrored c s := by
    rw [h.mem_subscribers_step,mem_channelsFor_step,h.mirrored]
  nodupSubscribers c := by
    rcases h.subscribers_step x c with hsub | ⟨s,-,hs,heq⟩
    · exact hsub.nodup (h.nodupSubscribers c)
    · rw [heq,← List.concat_eq_append]
      exact (h.nodupSubscribers c).concat hs
  nodupChannels s := by
    have hnodup := h.nodupChannels
    cases x with
    | subscribe channel id =>
      simp only [ChannelRegistry.step,channelsFor_subscribe]
      split
      · exact nodup_addOnce (hnodup _)
      · exact hnodup s
    | unsubscribe channel id =>
      simp only [ChannelRegistry.step,channelsFor_unsubscribe]
      split
      · exact nodup_without (hnodup s)
      · exact hnodup s
    | unsubscribeAll id =>
      simp only [ChannelRegistry.step,channelsFor_unsubscribeAll]
      split
      · exact List.nodup_nil
      · exact hnodup s

theorem consistent_create : create.Consistent where
  mirrored channel id := by simp [create,subscribers,channelsFor,find]
  nodupSubscribers channel := List.nodup_nil
  nodupChannels id := List.nodup_nil

theorem consistent_after (calls : List Call) : (after calls).Consistent := by
  induction calls using List.reverseRecOn with
  | nil => exact consistent_create
  | append_singleton calls x ih =>
    rw [after_append]
    exact ih.step x

theorem subscribed_append (calls : List Call) (x : Call) (c : Bytes) (s : SubscriberId) :
    Subscribed (calls ++ [x]) c s ↔
      if x.concerns c s then x = .subscribe c s else Subscribed calls c s := by
  simp only [Subscribed,List.filter_append]
  by_cases hx : x.concerns c s = true
  · simp [hx]
  · simp [hx]

theorem mem_after_iff (calls : List Call) (c : Bytes) (s : SubscriberId) :
    s ∈ (after calls).subscribers c ↔ Subscribed calls c s := by
  induction calls using List.reverseRecOn with
  | nil => simp [after,create,subscribers,find,Subscribed]
  | append_singleton calls x ih =>
    rw [after_append,(consistent_after calls).mem_subscribers_step,subscribed_append,ih]

/-- Call `i` subscribed `id` to the channel, `id` was not subscribed before it, and has been
after every call since. -/
def MadeMember (calls : List Call) (channel : Bytes) (id : SubscriberId) (i : Nat) : Prop :=
  calls[i]? = some (.subscribe channel id) ∧ ¬ Subscribed (calls.take i) channel id ∧
    ∀ j, i < j → j ≤ calls.length → Subscribed (calls.take j) channel id

theorem MadeMember.lt_length {calls : List Call} {c : Bytes} {s : SubscriberId} {i : Nat}
    (h : MadeMember calls c s i) : i < calls.length :=
  (List.getElem?_eq_some_iff.mp h.1).1

theorem MadeMember.unique {calls : List Call} {c : Bytes} {s : SubscriberId} {i j : Nat}
    (hi : MadeMember calls c s i) (hj : MadeMember calls c s j) : i = j := by
  rcases Nat.lt_trichotomy i j with hlt | heq | hlt
  · exact absurd (hi.2.2 j hlt (Nat.le_of_lt hj.lt_length)) hj.2.1
  · exact heq
  · exact absurd (hj.2.2 i hlt (Nat.le_of_lt hi.lt_length)) hi.2.1

theorem MadeMember.append {calls : List Call} {c : Bytes} {s : SubscriberId} {i : Nat}
    (h : MadeMember calls c s i) {x : Call} (hstill : Subscribed (calls ++ [x]) c s) :
    MadeMember (calls ++ [x]) c s i := by
  have hlt := h.lt_length
  refine ⟨?_,?_,fun j hij hj => ?_⟩
  · rw [List.getElem?_append_left hlt]
    exact h.1
  · rw [List.take_append_of_le_length (Nat.le_of_lt hlt)]
    exact h.2.1
  · by_cases hlast : j ≤ calls.length
    · rw [List.take_append_of_le_length hlast]
      exact h.2.2 j hij hlast
    · rw [List.take_of_length_le (by rw [List.length_append,List.length_singleton]; omega)]
      exact hstill

theorem madeMember_last {calls : List Call} {c : Bytes} {s : SubscriberId}
    (h : ¬ Subscribed calls c s) :
    MadeMember (calls ++ [.subscribe c s]) c s calls.length := by
  refine ⟨List.getElem?_concat_length,?_,fun j hij hj => ?_⟩
  · rw [List.take_left]
    exact h
  · rw [List.length_append,List.length_singleton] at hj
    rw [List.take_of_length_le (by rw [List.length_append,List.length_singleton]; omega),
      subscribed_append]
    simp [Call.concerns]

theorem exists_madeMember {calls : List Call} {c : Bytes} {s : SubscriberId}
    (h : Subscribed calls c s) : ∃ i, MadeMember calls c s i := by
  induction calls using List.reverseRecOn with
  | nil => simp [Subscribed] at h
  | append_singleton calls x ih =>
    by_cases hbefore : Subscribed calls c s
    · obtain ⟨i,hi⟩ := ih hbefore
      exact ⟨i,hi.append h⟩
    · have hx := (subscribed_append calls x c s).mp h
      split at hx
      · subst hx
        exact ⟨calls.length,madeMember_last hbefore⟩
      · exact absurd hx hbefore

def Earlier (calls : List Call) (channel : Bytes) (a b : SubscriberId) : Prop :=
  ∃ i j, MadeMember calls channel a i ∧ MadeMember calls channel b j ∧ i < j

theorem pairwise_earlier (calls : List Call) (c : Bytes) :
    ((after calls).subscribers c).Pairwise (Earlier calls c) := by
  induction calls using List.reverseRecOn with
  | nil => exact List.Pairwise.nil
  | append_singleton calls x ih =>
    -- whoever is still there keeps the call that made it a member
    have hkeep : ∀ {a b}, a ∈ (after (calls ++ [x])).subscribers c →
        b ∈ (after (calls ++ [x])).subscribers c → Earlier calls c a b →
        Earlier (calls ++ [x]) c a b := by
      intro a b ha hb h
      obtain ⟨i,j,hi,hj,hlt⟩ := h
      exact ⟨i,j,hi.append ((mem_after_iff _ _ _).mp ha),
        hj.append ((mem_after_iff _ _ _).mp hb),hlt⟩
    rcases (consistent_after calls).subscribers_step x c with hsub | ⟨s,hx,hs,heq⟩
    · rw [← after_append] at hsub
      exact (ih.sublist hsub).imp_of_mem hkeep
    · rw [← after_append] at heq
      have hnew : ∀ a ∈ (after calls).subscribers c, Earlier (calls ++ [x]) c a s := by
        intro a ha
        obtain ⟨i,hi⟩ := exists_madeMember ((mem_after_iff _ _ _).mp ha)
        have hstill : a ∈ (after (calls ++ [x])).subscribers c := by
          rw [heq]
          exact List.mem_append_left _ ha
        refine ⟨i,calls.length,hi.append ((mem_after_iff _ _ _).mp hstill),?_,hi.lt_length⟩
        rw [hx]
        exact madeMember_last fun h => hs ((mem_after_iff _ _ _).mpr h)
      have hold : ((after calls).subscribers c).Pairwise (Earlier (calls ++ [x]) c) := by
        refine ih.imp_of_mem fun ha hb => hkeep ?_ ?_
        · rw [heq]
          exact List.mem_append_left _ ha
        · rw [heq]
          exact List.mem_append_left _ hb
      rw [heq,List.pairwise_append]
      refine ⟨hold,List.pairwise_singleton _ _,fun a ha b hb => ?_⟩
      rw [List.mem_singleton] at hb
      exact hb ▸ hnew a ha

/-- After any sequence of calls the two maps agree with each other and with the last call
about each pair, without duplicates, and a channel lists its subscribers in the order in
which they joined. -/
theorem subscription_maps_agree (calls : List Call) :
    (∀ channel id, (id ∈ (after calls).subscribers channel ↔
        channel ∈ (after calls).channelsFor id) ∧
      (id ∈ (after calls).subscribers channel ↔ Subscribed calls channel id)) ∧
    (∀ channel, ((after calls).subscribers channel).Nodup) ∧
    (∀ id, ((after calls).channelsFor id).Nodup) ∧
    ∀ channel, (∀ id ∈ (after calls).subscribers channel, ∃ i, MadeMember calls channel id i) ∧
      ((after calls).subscribers channel).Pairwise fun a b =>
        ∀ i j, MadeMember calls channel a i → MadeMember calls channel b j → i < j := by
  have h := consistent_after calls
  refine ⟨fun c s => ⟨h.mirrored c s,mem_after_iff calls c s⟩,h.nodupSubscribers,
    h.nodupChannels,fun c => ⟨fun s hs => ?_,?_⟩⟩
  · exact exists_madeMember ((mem_after_iff calls c s).mp hs)
  · refine (pairwise_earlier calls c).imp fun hearlier i j hi hj => ?_
    obtain ⟨i',j',hi',hj',hlt⟩ := hearlier
    rwa [hi.unique hi',hj.unique hj']

end ChannelRegistry
end VoltDBX
