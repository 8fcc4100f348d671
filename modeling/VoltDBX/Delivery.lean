import VoltDBX.Subscriptions

/-!
A broker wired to a mailbox: what reaches a subscriber, over every sequence of operations.
-/

set_option autoImplicit false

namespace VoltDBX
open KeyedList ChannelRegistry

namespace SessionMailbox

def queue (m : SessionMailbox) (id : SubscriberId) : List Bytes := (find id m.queues).getD []

def pending (m : SessionMailbox) : Nat := (m.queues.flatMap Prod.snd).length

variable (m : SessionMailbox) (id : SubscriberId)

theorem queue_enqueue (message : Bytes) (x : SubscriberId) :
    (m.enqueue id message).queue x = if x = id then m.queue x ++ [message] else m.queue x := by
  simp only [queue,enqueue,find_assign]
  split
  · rename_i hx
    rw [hx,Option.getD_some]
  · rfl

theorem pending_enqueue (message : Bytes) : (m.enqueue id message).pending = m.pending+1 := by
  have h := length_flatMap_assign id ((find id m.queues).getD [] ++ [message]) m.queues
  rw [List.length_append,List.length_singleton] at h
  simp only [pending,enqueue]
  omega

theorem queue_clear (x : SubscriberId) :
    (m.clear id).queue x = if x = id then [] else m.queue x := by
  simp only [queue,clear,find_discard]
  split
  · rfl
  · rfl

theorem tryDequeue_spec : (m.tryDequeue id).2.toList ++ (m.tryDequeue id).1.queue id = m.queue id := by
  unfold tryDequeue queue
  split
  · rename_i message rest h
    simp [find_assign,h]
  · simp

theorem queue_tryDequeue_ne {x : SubscriberId} (h : x ≠ id) :
    (m.tryDequeue id).1.queue x = m.queue x := by
  unfold tryDequeue queue
  split
  · simp [find_assign,h]
  · rfl

theorem queue_foldl_enqueue (message : Bytes) {targets : List SubscriberId}
    (h : targets.Nodup) (x : SubscriberId) :
    (targets.foldl (fun m id => m.enqueue id message) m).queue x =
      m.queue x ++ if x ∈ targets then [message] else [] := by
  induction targets generalizing m with
  | nil => simp
  | cons t ts ih =>
    rw [List.nodup_cons] at h
    rw [List.foldl_cons,ih _ h.2,queue_enqueue]
    by_cases hx : x = t
    · subst hx
      simp [h.1]
    · simp [hx]

theorem pending_foldl_enqueue (message : Bytes) (targets : List SubscriberId) :
    (targets.foldl (fun m id => m.enqueue id message) m).pending = m.pending+targets.length := by
  induction targets generalizing m with
  | nil => rfl
  | cons t ts ih =>
    rw [List.foldl_cons,ih,pending_enqueue,List.length_cons]
    omega

end SessionMailbox

namespace PubSubBroker

def mailbox (b : PubSubBroker) : SessionMailbox := b.delivery.getD ⟨[]⟩

inductive Op where
  | registerSubscriber (id : SubscriberId) (channel : Bytes)
  | removeSubscriber (id : SubscriberId)
  | unsubscribe (channel : Bytes) (id : SubscriberId)
  | publish (channel message : Bytes)
  | tryDequeue (id : SubscriberId)
  deriving DecidableEq, Repr

inductive Answer where
  | done
  | delivered (count : Nat)
  | dequeued (id : SubscriberId) (message : Option Bytes)
  deriving DecidableEq, Repr

def perform (b : PubSubBroker) : Op → PubSubBroker × Answer
  | .registerSubscriber id channel => (b.registerSubscriber id channel,.done)
  | .removeSubscriber id => (b.removeSubscriber id,.done)
  | .unsubscribe channel id => (⟨b.registry.unsubscribe channel id,b.delivery⟩,.done)
  | .publish channel message =>
    ((b.publish channel message).1,.delivered (b.publish channel message).2)
  | .tryDequeue id =>
    (⟨b.registry,b.delivery.map (fun m => (m.tryDequeue id).1)⟩,
      .dequeued id (b.mailbox.tryDequeue id).2)

def wired : PubSubBroker := wireBrokerDelivery (create ChannelRegistry.create) ⟨[]⟩

def performAll (ops : List Op) : PubSubBroker × List Answer :=
  ops.foldl (fun s op => ((s.1.perform op).1,s.2 ++ [(s.1.perform op).2])) (wired,[])

theorem performAll_append (ops : List Op) (op : Op) :
    performAll (ops ++ [op]) = (((performAll ops).1.perform op).1,
      (performAll ops).2 ++ [((performAll ops).1.perform op).2]) := by
  rw [performAll,List.foldl_append]
  rfl

def Op.calls : Op → List Call
  | .registerSubscriber id channel => [.subscribe channel id]
  | .removeSubscriber id => [.unsubscribeAll id]
  | .unsubscribe channel id => [.unsubscribe channel id]
  | .publish _ _ => []
  | .tryDequeue _ => []

/-- The message of a publish to a channel the id is subscribed to after `history`. -/
def dueAt (id : SubscriberId) (history : List Call) : Op → List Bytes
  | .publish channel message => if Subscribed history channel id then [message] else []
  | _ => []

/-- The messages published to channels the id was subscribed to at the time. -/
def due (id : SubscriberId) (history : List Call) : List Op → List Bytes
  | [] => []
  | op :: ops => dueAt id history op ++ due id (history ++ op.calls) ops

def Answer.taken (id : SubscriberId) : Answer → List Bytes
  | .dequeued x message => if x = id then message.toList else []
  | _ => []

def dequeued (id : SubscriberId) (answers : List Answer) : List Bytes :=
  answers.flatMap (Answer.taken id)

theorem due_append (id : SubscriberId) (history : List Call) (ops : List Op) (op : Op) :
    due id history (ops ++ [op]) =
      due id history ops ++ dueAt id (history ++ ops.flatMap Op.calls) op := by
  induction ops generalizing history with
  | nil => simp [due]
  | cons o ops ih => simp [due,ih]

theorem registry_perform (b : PubSubBroker) (op : Op) :
    (b.perform op).1.registry = op.calls.foldl ChannelRegistry.step b.registry := by
  cases op with
  | registerSubscriber id channel => rfl
  | removeSubscriber id => rfl
  | unsubscribe channel id => rfl
  | publish channel message => rfl
  | tryDequeue id => rfl

theorem registry_performAll (ops : List Op) :
    (performAll ops).1.registry = after (ops.flatMap Op.calls) := by
  induction ops using List.reverseRecOn with
  | nil => rfl
  | append_singleton ops op ih =>
    rw [performAll_append,registry_perform,ih,List.flatMap_append,List.flatMap_singleton,after,
      after,List.foldl_append]

theorem delivery_perform {b : PubSubBroker} (h : b.delivery.isSome = true) (op : Op) :
    (b.perform op).1.delivery.isSome = true := by
  obtain ⟨m,hm⟩ := Option.isSome_iff_exists.mp h
  cases op with
  | registerSubscriber id channel => exact h
  | removeSubscriber id => exact h
  | unsubscribe channel id => exact h
  | publish channel message =>
    rw [perform,delivery_publish,hm]
    rfl
  | tryDequeue id =>
    rw [perform,hm]
    rfl

theorem delivery_performAll (ops : List Op) : (performAll ops).1.delivery.isSome = true := by
  induction ops using List.reverseRecOn with
  | nil => rfl
  | append_singleton ops op ih =>
    rw [performAll_append]
    exact delivery_perform ih op

/-- What one operation does for one subscriber: what was queued and what is due are what
has been taken and what is queued now. -/
theorem perform_accounts {b : PubSubBroker} {calls : List Call} (hwired : b.delivery.isSome = true)
    (hcalls : b.registry = after calls) (op : Op) (id : SubscriberId) :
    (b.perform op).2.taken id ++ (b.perform op).1.mailbox.queue id =
      b.mailbox.queue id ++ dueAt id calls op := by
  obtain ⟨m,hm⟩ := Option.isSome_iff_exists.mp hwired
  cases op with
  | registerSubscriber x channel => simp [perform,registerSubscriber,Answer.taken,dueAt,mailbox]
  | removeSubscriber x => simp [perform,removeSubscriber,Answer.taken,dueAt,mailbox]
  | unsubscribe channel x => simp [perform,Answer.taken,dueAt,mailbox]
  | publish channel message =>
    have hnodup := (consistent_after calls).nodupSubscribers channel
    have hmem := mem_after_iff calls channel id
    simp only [perform,Answer.taken,List.nil_append,mailbox,delivery_publish,hm,Option.map_some,
      Option.getD_some,hcalls,dueAt]
    rw [SessionMailbox.queue_foldl_enqueue m message hnodup]
    simp only [hmem]
  | tryDequeue x =>
    simp only [perform,Answer.taken,mailbox,hm,Option.map_some,Option.getD_some,dueAt,
      List.append_nil]
    by_cases hx : x = id
    · subst hx
      rw [if_pos rfl]
      exact m.tryDequeue_spec x
    · rw [if_neg hx,List.nil_append]
      exact m.queue_tryDequeue_ne x (Ne.symm hx)

/-- For every subscriber, what it has dequeued and what is still queued for it are the
messages published to its channels, once each and in order; and a publish reports how many
messages it has queued. -/
theorem wired_delivery_exactly_once (ops : List Op) :
    (∀ id, dequeued id (performAll ops).2 ++ (performAll ops).1.mailbox.queue id =
      due id [] ops) ∧
    ∀ channel message,
      ((performAll ops).1.publish channel message).1.mailbox.pending =
        (performAll ops).1.mailbox.pending+((performAll ops).1.publish channel message).2 := by
  constructor
  · intro id
    induction ops using List.reverseRecOn with
    | nil => rfl
    | append_singleton ops op ih =>
      have hstep := perform_accounts (delivery_performAll ops) (registry_performAll ops) op id
      rw [due_append,List.nil_append,← ih,performAll_append]
      simp only [dequeued,List.flatMap_append,List.flatMap_singleton,List.append_assoc]
      rw [hstep]
  · intro channel message
    obtain ⟨m,hm⟩ := Option.isSome_iff_exists.mp (delivery_performAll ops)
    simp only [mailbox,delivery_publish,hm,Option.map_some,Option.getD_some]
    exact m.pending_foldl_enqueue message _

end PubSubBroker
end VoltDBX
