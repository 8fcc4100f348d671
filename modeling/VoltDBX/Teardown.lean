import VoltDBX.Delivery
import VoltDBX.Runs

/-!
Publishes that are under way while a subscriber is torn down. The registry's lock is held
while the targets are copied, and the mailbox's lock for one message at a time; between
them anything can happen.
-/

set_option autoImplicit false

namespace VoltDBX
open KeyedList ChannelRegistry

/-- A broker wired to a mailbox, with the publishes that have copied their targets: those
not served yet, and the message. -/
structure Publishing where
  registry : ChannelRegistry
  mailbox : SessionMailbox
  inFlight : List (List SubscriberId × Bytes)
  deriving DecidableEq, Repr

namespace Publishing

inductive Step where
  | registerSubscriber (id : SubscriberId) (channel : Bytes)
  | unsubscribe (channel : Bytes) (id : SubscriberId)
  | removeSubscriber (id : SubscriberId)
  | clear (id : SubscriberId)
  | tryDequeue (id : SubscriberId)
  | snapshot (channel message : Bytes)
  | enqueue (i : Nat)
  deriving DecidableEq, Repr

def start : Publishing := ⟨ChannelRegistry.create,⟨[]⟩,[]⟩

def step : Step → Publishing → Option Publishing
  | .registerSubscriber id channel, s => some ⟨s.registry.subscribe channel id,s.mailbox,s.inFlight⟩
  | .unsubscribe channel id, s => some ⟨s.registry.unsubscribe channel id,s.mailbox,s.inFlight⟩
  | .removeSubscriber id, s => some ⟨s.registry.unsubscribeAll id,s.mailbox,s.inFlight⟩
  | .clear id, s => some ⟨s.registry,s.mailbox.clear id,s.inFlight⟩
  | .tryDequeue id, s => some ⟨s.registry,(s.mailbox.tryDequeue id).1,s.inFlight⟩
  | .snapshot channel message, s =>
    some ⟨s.registry,s.mailbox,s.inFlight ++ [(s.registry.subscribers channel,message)]⟩
  | .enqueue i, s =>
    match s.inFlight[i]? with
    | some (id :: rest,message) =>
      some ⟨s.registry,s.mailbox.enqueue id message,s.inFlight.set i (rest,message)⟩
    | _ => none

theorem step_enqueue {s t : Publishing} {i : Nat} (h : step (.enqueue i) s = some t) :
    ∃ id rest message, s.inFlight[i]? = some (id :: rest,message) ∧
      t = ⟨s.registry,s.mailbox.enqueue id message,s.inFlight.set i (rest,message)⟩ := by
  simp only [step] at h
  split at h
  · rename_i id rest message hi
    rw [Option.some.injEq] at h
    exact ⟨id,rest,message,hi,h.symm⟩
  · cases h

theorem moves_serve {targets rest : List SubscriberId} {message : Bytes} {i : Nat}
    {s : Publishing} (h : s.inFlight[i]? = some (targets ++ rest,message)) :
    Runs.Moves step s (List.replicate targets.length (.enqueue i))
      ⟨s.registry,targets.foldl (fun m id => m.enqueue id message) s.mailbox,
        s.inFlight.set i (rest,message)⟩ := by
  induction targets generalizing s with
  | nil =>
    have hsame : s.inFlight.set i (rest,message) = s.inFlight := by
      obtain ⟨hlt,hget⟩ := List.getElem?_eq_some_iff.mp h
      rw [List.nil_append] at hget
      rw [← hget,List.set_getElem_self]
    rw [hsame]
    exact Runs.moves_nil.mpr rfl
  | cons id targets ih =>
    have hlt := (List.getElem?_eq_some_iff.mp h).1
    have hstep : step (.enqueue i) s = some ⟨s.registry,s.mailbox.enqueue id message,
        s.inFlight.set i (targets ++ rest,message)⟩ := by
      simp only [step,h,List.cons_append]
    have hserve := ih (s := ⟨s.registry,s.mailbox.enqueue id message,
      s.inFlight.set i (targets ++ rest,message)⟩) (List.getElem?_set_self hlt)
    rw [List.set_set] at hserve
    exact Runs.moves_cons.mpr ⟨_,hstep,hserve⟩

/-- Without other steps in between, the steps of a publish make what `publish` makes. -/
theorem moves_publish (s : Publishing) (channel message : Bytes) :
    ∃ t, Runs.Moves step s (.snapshot channel message :: List.replicate
        (PubSubBroker.publish ⟨s.registry,some s.mailbox⟩ channel message).2
        (.enqueue s.inFlight.length)) t ∧
      PubSubBroker.publish ⟨s.registry,some s.mailbox⟩ channel message =
        (⟨t.registry,some t.mailbox⟩,(s.registry.subscribers channel).length) := by
  have hlast : (s.inFlight ++ [(s.registry.subscribers channel,message)])[s.inFlight.length]? =
      some (s.registry.subscribers channel ++ [],message) := by
    rw [List.append_nil,List.getElem?_concat_length]
  have hserve := moves_serve (s := ⟨s.registry,s.mailbox,
    s.inFlight ++ [(s.registry.subscribers channel,message)]⟩) hlast
  refine ⟨_,Runs.moves_cons.mpr ⟨_,rfl,hserve⟩,?_⟩
  refine Prod.ext ?_ rfl
  have hdelivery := PubSubBroker.delivery_publish ⟨s.registry,some s.mailbox⟩ channel message
  exact congrArg (PubSubBroker.mk s.registry) hdelivery

def Step.call : Step → Option Call
  | .registerSubscriber id channel => some (.subscribe channel id)
  | .unsubscribe channel id => some (.unsubscribe channel id)
  | .removeSubscriber id => some (.unsubscribeAll id)
  | _ => none

theorem registry_step {i : Step} {s t : Publishing} (h : step i s = some t) :
    t.registry = (i.call.map s.registry.step).getD s.registry := by
  cases i with
  | enqueue i =>
    obtain ⟨id,rest,message,-,rfl⟩ := step_enqueue h
    rfl
  | registerSubscriber id channel => cases h; rfl
  | unsubscribe channel id => cases h; rfl
  | removeSubscriber id => cases h; rfl
  | clear id => cases h; rfl
  | tryDequeue id => cases h; rfl
  | snapshot channel message => cases h; rfl

theorem consistent_step {i : Step} {s t : Publishing} (hs : s.registry.Consistent)
    (h : step i s = some t) : t.registry.Consistent := by
  rw [registry_step h]
  cases i.call with
  | none => exact hs
  | some x => exact hs.step x

theorem consistent_moves {steps : List Step} {s : Publishing}
    (h : Runs.Moves step start steps s) : s.registry.Consistent :=
  Runs.moves_invariant (I := fun s => s.registry.Consistent)
    (fun _ _ _ _ hu hmove => consistent_step hu hmove) consistent_create h

structure Unregistered (id : SubscriberId) (s : Publishing) : Prop where
  consistent : s.registry.Consistent
  absent : ∀ channel, id ∉ s.registry.subscribers channel

theorem Unregistered.step {id : SubscriberId} {i : Step} {s t : Publishing}
    (hs : s.Unregistered id) (hi : ∀ channel, i ≠ .registerSubscriber id channel)
    (h : step i s = some t) : t.Unregistered id := by
  refine ⟨consistent_step hs.consistent h,fun channel => ?_⟩
  rw [registry_step h]
  cases hcall : i.call with
  | none => exact hs.absent channel
  | some x =>
    have hx : x ≠ .subscribe channel id := by
      intro heq
      subst heq
      cases i with
      | registerSubscriber s c =>
        rw [Step.call,Option.some.injEq,Call.subscribe.injEq] at hcall
        exact hi c (by rw [hcall.2])
      | unsubscribe c s => cases hcall
      | removeSubscriber s => cases hcall
      | clear s => cases hcall
      | tryDequeue s => cases hcall
      | snapshot c m => cases hcall
      | enqueue n => cases hcall
    rw [Option.map_some,Option.getD_some,hs.consistent.mem_subscribers_step]
    split
    · exact hx
    · exact hs.absent channel

structure TornDown (id : SubscriberId) (s : Publishing) : Prop where
  unregistered : s.Unregistered id
  unserved : ∀ p ∈ s.inFlight, id ∉ p.1
  empty : s.mailbox.queue id = []

theorem queue_tryDequeue_nil {m : SessionMailbox} {id : SubscriberId} (h : m.queue id = [])
    (x : SubscriberId) : (m.tryDequeue x).1.queue id = [] := by
  by_cases hx : id = x
  · subst hx
    have hspec := m.tryDequeue_spec id
    rw [h] at hspec
    exact (List.append_eq_nil_iff.mp hspec).2
  · rw [m.queue_tryDequeue_ne x hx,h]

theorem TornDown.step {id : SubscriberId} {i : Step} {s t : Publishing} (hs : s.TornDown id)
    (hi : ∀ channel, i ≠ .registerSubscriber id channel) (h : step i s = some t) :
    t.TornDown id := by
  have hunregistered := hs.unregistered.step hi h
  cases i with
  | registerSubscriber x channel =>
    cases h
    exact ⟨hunregistered,hs.unserved,hs.empty⟩
  | unsubscribe channel x =>
    cases h
    exact ⟨hunregistered,hs.unserved,hs.empty⟩
  | removeSubscriber x =>
    cases h
    exact ⟨hunregistered,hs.unserved,hs.empty⟩
  | clear x =>
    cases h
    refine ⟨hunregistered,hs.unserved,?_⟩
    rw [SessionMailbox.queue_clear,hs.empty,ite_self]
  | tryDequeue x =>
    cases h
    exact ⟨hunregistered,hs.unserved,queue_tryDequeue_nil hs.empty x⟩
  | snapshot channel message =>
    cases h
    refine ⟨hunregistered,fun p hp => ?_,hs.empty⟩
    rcases List.mem_append.mp hp with hp | hp
    · exact hs.unserved p hp
    · rw [List.mem_singleton] at hp
      subst hp
      exact hs.unregistered.absent channel
  | enqueue n =>
    obtain ⟨x,rest,message,hn,rfl⟩ := step_enqueue h
    have hout := hs.unserved _ (List.mem_of_getElem? hn)
    simp only [List.mem_cons,not_or] at hout
    refine ⟨hunregistered,fun p hp => ?_,?_⟩
    · rcases List.mem_or_eq_of_mem_set hp with hp | rfl
      · exact hs.unserved p hp
      · exact hout.2
    · rw [SessionMailbox.queue_enqueue,if_neg hout.1]
      exact hs.empty

theorem reaches_after_clear {id : SubscriberId} {s : Publishing} {p : List SubscriberId × Bytes}
    (hp : p ∈ s.inFlight) (hid : id ∈ p.1) :
    ∃ after t, (∀ channel, .registerSubscriber id channel ∉ after) ∧
      Runs.Moves step s (.clear id :: after) t ∧ t.mailbox.queue id ≠ [] := by
  obtain ⟨n,hn⟩ := List.mem_iff_getElem?.mp hp
  obtain ⟨earlier,later,hsplit⟩ := List.append_of_mem hid
  have hget : s.inFlight[n]? = some ((earlier ++ [id]) ++ later,p.2) := by
    rw [hn,List.append_assoc,List.singleton_append,← hsplit]
  have hserve := moves_serve (s := ⟨s.registry,s.mailbox.clear id,s.inFlight⟩) hget
  refine ⟨_,_,fun channel hmem => ?_,Runs.moves_cons.mpr ⟨_,rfl,hserve⟩,?_⟩
  · exact absurd (List.eq_of_mem_replicate hmem) (by simp)
  · rw [List.foldl_append,List.foldl_cons,List.foldl_nil,SessionMailbox.queue_enqueue,if_pos rfl]
    simp

/-- After `remove_subscriber` and then `clear` nothing is ever queued again for an id that
is not registered again, exactly where no publish under way at the `clear` still has the id
among its targets. -/
theorem teardown_leaves_nothing_iff {id : SubscriberId} {before between : List Step}
    {s : Publishing}
    (hrun : Runs.Moves step start (before ++ .removeSubscriber id :: between) s)
    (hbetween : ∀ channel, .registerSubscriber id channel ∉ between) :
    (∀ after t, (∀ channel, .registerSubscriber id channel ∉ after) →
      Runs.Moves step s (.clear id :: after) t → t.mailbox.queue id = []) ↔
    ∀ p ∈ s.inFlight, id ∉ p.1 := by
  obtain ⟨u,hbefore,hrest⟩ := Runs.moves_append.mp hrun
  obtain ⟨v,hremove,hmoves⟩ := Runs.moves_cons.mp hrest
  have hu := consistent_moves hbefore
  have hv : v.Unregistered id := by
    refine ⟨consistent_step hu hremove,fun channel => ?_⟩
    cases hremove
    simp only [hu.subscribers_unsubscribeAll,mem_without]
    exact fun hmem => hmem.2 rfl
  have hs : s.Unregistered id := by
    refine Runs.moves_invariant (I := Unregistered id) (fun i hi _ _ hw hmove => ?_) hv hmoves
    exact hw.step (fun channel heq => hbetween channel (heq ▸ hi)) hmove
  constructor
  · intro hempty p hp hid
    obtain ⟨after,t,hafter,hmove,hne⟩ := reaches_after_clear hp hid
    exact hne (hempty after t hafter hmove)
  · intro hunserved after t hafter hmove
    obtain ⟨w,hclear,hrest⟩ := Runs.moves_cons.mp hmove
    have hw : w.TornDown id := by
      cases hclear
      refine ⟨⟨hs.consistent,hs.absent⟩,hunserved,?_⟩
      rw [SessionMailbox.queue_clear,if_pos rfl]
    have ht : t.TornDown id := by
      refine Runs.moves_invariant (I := TornDown id) (fun i hi _ _ hw hmove => ?_) hw hrest
      exact hw.step (fun channel heq => hafter channel (heq ▸ hi)) hmove
    exact ht.empty

theorem teardown_leaves_nothing_iff_example :
    ∃ s, Runs.Moves step start ([.registerSubscriber 7 (bytes "c"),
        .snapshot (bytes "c") (bytes "m"),.enqueue 0] ++ [.removeSubscriber 7]) s ∧
      ∀ after t, (∀ channel, .registerSubscriber 7 channel ∉ after) →
        Runs.Moves step s (.clear 7 :: after) t → t.mailbox.queue 7 = [] := by
  have hrun : Runs.Moves step start ([.registerSubscriber 7 (bytes "c"),
      .snapshot (bytes "c") (bytes "m"),.enqueue 0] ++ [.removeSubscriber 7])
      ⟨⟨[(bytes "c",[])],[]⟩,⟨[(7,[bytes "m"])]⟩,[([],bytes "m")]⟩ :=
    Runs.moves_iff_foldlM.mpr rfl
  exact ⟨_,hrun,(teardown_leaves_nothing_iff hrun (by simp)).mpr (by simp)⟩

/-- The publish copies its targets before the teardown and serves them after it. -/
theorem message_after_teardown :
    ∃ s t, Runs.Moves step start ([.registerSubscriber 7 (bytes "c"),
        .snapshot (bytes "c") (bytes "m")] ++ [.removeSubscriber 7]) s ∧
      Runs.Moves step s (.clear 7 :: [.enqueue 0]) t ∧ t.mailbox.queue 7 = [bytes "m"] := by
  exact ⟨⟨⟨[(bytes "c",[])],[]⟩,⟨[]⟩,[([7],bytes "m")]⟩,
    ⟨⟨[(bytes "c",[])],[]⟩,⟨[(7,[bytes "m"])]⟩,[([],bytes "m")]⟩,
    Runs.moves_iff_foldlM.mpr rfl,Runs.moves_iff_foldlM.mpr rfl,rfl⟩

end Publishing
end VoltDBX
