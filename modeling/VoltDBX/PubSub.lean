import VoltDBX.KeyedList
import VoltDBX.Text

/-!
Channels and their delivery: pubsub/channel_registry.cpp, pubsub/broker.cpp and
pubsub/session_mailbox.cpp. The unordered maps are keyed lists; no code walks them.
-/

set_option autoImplicit false

namespace VoltDBX
open KeyedList

abbrev SubscriberId := Nat

structure ChannelRegistry where
  channelMap : List (Bytes × List SubscriberId)
  subscriberMap : List (SubscriberId × List Bytes)
  deriving DecidableEq, Repr

def addOnce {α : Type} [DecidableEq α] (x : α) (l : List α) : List α :=
  if x ∈ l then l else l ++ [x]

namespace ChannelRegistry

def create : ChannelRegistry := ⟨[],[]⟩

def subscribers (r : ChannelRegistry) (channel : Bytes) : List SubscriberId :=
  (find channel r.channelMap).getD []

def channelsFor (r : ChannelRegistry) (subscriber : SubscriberId) : List Bytes :=
  (find subscriber r.subscriberMap).getD []

/-- `map[key]` creates the empty list it then appends to. -/
def subscribe (r : ChannelRegistry) (channel : Bytes) (subscriber : SubscriberId) :
    ChannelRegistry :=
  ⟨assign channel (addOnce subscriber (r.subscribers channel)) r.channelMap,
    assign subscriber (addOnce channel (r.channelsFor subscriber)) r.subscriberMap⟩

def without {α : Type} [DecidableEq α] (x : α) (l : List α) : List α := l.filter (fun y => y ≠ x)

/-- The lists stay in their maps when they get empty. -/
def unsubscribe (r : ChannelRegistry) (channel : Bytes) (subscriber : SubscriberId) :
    ChannelRegistry :=
  ⟨adjust channel (without subscriber) r.channelMap,
    adjust subscriber (without channel) r.subscriberMap⟩

def unsubscribeAll (r : ChannelRegistry) (subscriber : SubscriberId) : ChannelRegistry :=
  match find subscriber r.subscriberMap with
  | none => r
  | some channels =>
    ⟨channels.foldl (fun m channel => adjust channel (without subscriber) m) r.channelMap,
      discard subscriber r.subscriberMap⟩

end ChannelRegistry

structure SessionMailbox where
  queues : List (SubscriberId × List Bytes)
  deriving DecidableEq, Repr

namespace SessionMailbox

def enqueue (m : SessionMailbox) (id : SubscriberId) (message : Bytes) : SessionMailbox :=
  ⟨assign id ((find id m.queues).getD [] ++ [message]) m.queues⟩

def tryDequeue (m : SessionMailbox) (id : SubscriberId) : SessionMailbox × Option Bytes :=
  match find id m.queues with
  | some (message :: rest) => (⟨assign id rest m.queues⟩,some message)
  | _ => (m,none)

def clear (m : SessionMailbox) (id : SubscriberId) : SessionMailbox := ⟨discard id m.queues⟩

end SessionMailbox

/-- The delivery hook is unset or the one `wire_broker_delivery` installs, which
hands every message to a mailbox. -/
structure PubSubBroker where
  registry : ChannelRegistry
  delivery : Option SessionMailbox
  deriving DecidableEq, Repr

namespace PubSubBroker

def create (registry : ChannelRegistry) : PubSubBroker := ⟨registry,none⟩

def publish (b : PubSubBroker) (channel message : Bytes) : PubSubBroker × Nat :=
  (⟨b.registry,(b.registry.subscribers channel).foldl
      (fun d id => d.map (fun m => m.enqueue id message)) b.delivery⟩,
    (b.registry.subscribers channel).length)

/-- The calls `delivery_(id, message)` that a publish makes: none when the hook is unset. -/
def deliveries (b : PubSubBroker) (channel message : Bytes) : List (SubscriberId × Bytes) :=
  if b.delivery.isSome then (b.registry.subscribers channel).map (fun id => (id,message)) else []

theorem delivery_publish (b : PubSubBroker) (channel message : Bytes) :
    (b.publish channel message).1.delivery = b.delivery.map (fun m =>
      (b.registry.subscribers channel).foldl (fun m id => m.enqueue id message) m) := by
  have hfold : ∀ (targets : List SubscriberId) (d : Option SessionMailbox),
      targets.foldl (fun d id => d.map (fun m => m.enqueue id message)) d =
        d.map (fun m => targets.foldl (fun m id => m.enqueue id message) m) := by
    intro targets
    induction targets with
    | nil => simp
    | cons id targets ih => simp [ih,Function.comp_def]
  exact hfold _ _

theorem publish_deliveries (b : PubSubBroker) (channel message : Bytes) :
    (b.publish channel message).1.delivery = b.delivery.map (fun m =>
      (b.deliveries channel message).foldl (fun m call => m.enqueue call.1 call.2) m) := by
  rw [delivery_publish,deliveries]
  cases b.delivery with
  | none => rfl
  | some m => simp [List.foldl_map]

def registerSubscriber (b : PubSubBroker) (id : SubscriberId) (channel : Bytes) :
    PubSubBroker :=
  ⟨b.registry.subscribe channel id,b.delivery⟩

def removeSubscriber (b : PubSubBroker) (id : SubscriberId) : PubSubBroker :=
  ⟨b.registry.unsubscribeAll id,b.delivery⟩

end PubSubBroker

def wireBrokerDelivery (b : PubSubBroker) (mailbox : SessionMailbox) : PubSubBroker :=
  ⟨b.registry,some mailbox⟩

end VoltDBX
