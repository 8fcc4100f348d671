import VoltDBX.Dispatcher
import VoltDBX.Subscriptions

/-!
SUBSCRIBE and PUBLISH as several sessions send them through one dispatcher.
-/

set_option autoImplicit false

namespace VoltDBX
open KeyedList ChannelRegistry

namespace Server
variable {hash : Bytes → Nat} {κ : Type}

/-- A command and the session that sends it. The dispatcher is not told the session. -/
structure Sent (κ : Type) where
  session : κ
  env : Env
  cmd : ParsedCommand

def subscriberId (_ : κ) : SubscriberId := 1

def afterSent (s : Server hash) (sent : List (Sent κ)) : Server hash :=
  afterCommands s (sent.map (fun x => (x.env,x.cmd)))

theorem afterSent_append (s : Server hash) (sent : List (Sent κ)) (x : Sent κ) :
    afterSent s (sent ++ [x]) = stateOf ((dispatch x.env x.cmd).run (afterSent s sent)) := by
  rw [afterSent,List.map_append]
  exact afterCommands_append _ _ _

def Subscribes (channel : Bytes) (x : Sent κ) : Prop :=
  x.cmd.type = .subscribe ∧ x.cmd.args = [channel]

instance (channel : Bytes) (x : Sent κ) : Decidable (Subscribes channel x) :=
  inferInstanceAs (Decidable (_ ∧ _))

/-- The sessions that have sent SUBSCRIBE with the channel. -/
def subscribersOf [DecidableEq κ] (sent : List (Sent κ)) (channel : Bytes) : Finset κ :=
  ((sent.filter (fun x => decide (Subscribes channel x))).map Sent.session).toFinset

theorem handlePublish_broker (cmd : ParsedCommand) (b : PubSubBroker) (h : b.delivery = none) :
    (handlePublish cmd b).1.registry = b.registry ∧ (handlePublish cmd b).1.delivery = none := by
  unfold handlePublish
  split
  · refine ⟨rfl,?_⟩
    rw [PubSubBroker.publish_deliveries,PubSubBroker.deliveries,h]
    rfl
  · exact ⟨rfl,h⟩

theorem delivery_afterSent (config : ServerConfig) (sent : List (Sent κ)) :
    (afterSent (create hash config) sent).broker.delivery = none := by
  induction sent using List.reverseRecOn with
  | nil => rfl
  | append_singleton sent x ih =>
    rw [afterSent_append,(parts_dispatch _ _ _).1]
    split
    · unfold handleSubscribe
      split
      · exact ih
      · exact ih
    · split
      · exact (handlePublish_broker x.cmd _ ih).2
      · exact ih

theorem subscribers_afterSent (config : ServerConfig) (sent : List (Sent κ)) (channel : Bytes) :
    (afterSent (create hash config) sent).broker.registry.subscribers channel =
      if ∃ x ∈ sent, Subscribes channel x then [1] else [] := by
  induction sent using List.reverseRecOn with
  | nil => simp [afterSent,afterCommands,create,PubSubBroker.create,ChannelRegistry.create,
      subscribers,find]
  | append_singleton sent x ih =>
    have hor : (∃ y ∈ sent ++ [x], Subscribes channel y) ↔
        (∃ y ∈ sent, Subscribes channel y) ∨ Subscribes channel x := by
      simp [or_and_right,exists_or]
    have hkeep : ¬ Subscribes channel x →
        (if ∃ y ∈ sent ++ [x], Subscribes channel y then [1] else ([] : List SubscriberId)) =
          if ∃ y ∈ sent, Subscribes channel y then [1] else [] := by
      intro hx
      simp only [hor,hx,or_false]
    rw [afterSent_append,(parts_dispatch _ _ _).1]
    by_cases hsub : x.cmd.type = .subscribe
    · rw [if_pos hsub]
      by_cases hx : Subscribes channel x
      · have hall : ∃ y ∈ sent ++ [x], Subscribes channel y := hor.mpr (Or.inr hx)
        rw [if_pos hall,handleSubscribe,hx.2]
        simp only [PubSubBroker.registerSubscriber]
        rw [subscribers_subscribe,if_pos rfl,ih]
        split
        · rfl
        · rfl
      · rw [hkeep hx,← ih]
        unfold handleSubscribe
        split
        · rename_i other hargs
          have hne : channel ≠ other := fun heq => hx ⟨hsub,heq ▸ hargs⟩
          simp only [PubSubBroker.registerSubscriber]
          rw [subscribers_subscribe,if_neg hne]
        · rfl
    · have hx : ¬ Subscribes channel x := fun h => hsub h.1
      rw [if_neg hsub,hkeep hx,← ih]
      split
      · rw [(handlePublish_broker x.cmd _ (delivery_afterSent config sent)).1]
      · rfl

theorem integerResponse_natCast_inj {m n : Nat} :
    integerResponse m = integerResponse n ↔ m = n := by
  constructor
  · intro h
    exact Decimal.print_injective (List.append_cancel_left h)
  · intro h
    rw [h]

theorem reply_publish (env : Env) (name channel first : Bytes) (rest : List Bytes)
    (s : Server hash) : ∃ t, (dispatch env ⟨.publish,name,channel :: first :: rest⟩).run s =
      .ok (integerResponse (s.broker.registry.subscribers channel).length) t :=
  ⟨_,rfl⟩

section
variable [DecidableEq κ]

theorem mem_subscribersOf {sent : List (Sent κ)} {channel : Bytes} {k : κ} :
    k ∈ subscribersOf sent channel ↔ ∃ x ∈ sent, Subscribes channel x ∧ x.session = k := by
  simp [subscribersOf,and_assoc]

theorem subscribersOf_nonempty {sent : List (Sent κ)} {channel : Bytes} :
    (subscribersOf sent channel).Nonempty ↔ ∃ x ∈ sent, Subscribes channel x := by
  constructor
  · intro h
    obtain ⟨k,hk⟩ := h
    obtain ⟨x,hx,hsub,-⟩ := mem_subscribersOf.mp hk
    exact ⟨x,hx,hsub⟩
  · intro h
    obtain ⟨x,hx,hsub⟩ := h
    exact ⟨x.session,mem_subscribersOf.mpr ⟨x,hx,hsub,rfl⟩⟩

def CountsSessions (hash : Bytes → Nat) (config : ServerConfig) (sent : List (Sent κ)) (env : Env)
    (name channel first : Bytes) (rest : List Bytes) : Prop :=
  ∃ t, (dispatch env ⟨.publish,name,channel :: first :: rest⟩).run
      (afterSent (create hash config) sent) =
    .ok (integerResponse (subscribersOf sent channel).card) t

/-- The message is handed to the delivery of each of these sessions once, and to no other. -/
def ReachesSessions (hash : Bytes → Nat) (config : ServerConfig) (sent : List (Sent κ))
    (channel message : Bytes) : Prop :=
  ∀ k : κ, ((afterSent (create hash config) sent).broker.deliveries channel message).count
      (subscriberId k,message) = if k ∈ subscribersOf sent channel then 1 else 0

theorem countsSessions_iff (config : ServerConfig) (sent : List (Sent κ)) (env : Env)
    (name channel first : Bytes) (rest : List Bytes) :
    CountsSessions hash config sent env name channel first rest ↔
      (subscribersOf sent channel).card ≤ 1 := by
  obtain ⟨t,ht⟩ := reply_publish env name channel first rest (afterSent (create hash config) sent)
  have hcount : CountsSessions hash config sent env name channel first rest ↔
      ((afterSent (create hash config) sent).broker.registry.subscribers channel).length =
        (subscribersOf sent channel).card := by
    rw [CountsSessions,ht]
    constructor
    · intro h
      obtain ⟨u,hu⟩ := h
      rw [EStateM.Result.ok.injEq] at hu
      exact integerResponse_natCast_inj.mp hu.1
    · intro h
      rw [h]
      exact ⟨t,rfl⟩
  rw [hcount,subscribers_afterSent]
  by_cases hany : ∃ x ∈ sent, Subscribes channel x
  · have hpos := (subscribersOf_nonempty.mpr hany).card_pos
    rw [if_pos hany,List.length_singleton]
    omega
  · have hnone : (subscribersOf sent channel).card = 0 := by
      rw [Finset.card_eq_zero,← Finset.not_nonempty_iff_eq_empty,subscribersOf_nonempty]
      exact hany
    rw [if_neg hany,List.length_nil,hnone]
    simp

theorem reachesSessions_iff (config : ServerConfig) (sent : List (Sent κ))
    (channel message : Bytes) :
    ReachesSessions hash config sent channel message ↔ subscribersOf sent channel = ∅ := by
  rw [ReachesSessions,PubSubBroker.deliveries,delivery_afterSent]
  simp only [Option.isSome_none,Bool.false_eq_true,if_false,List.count_nil]
  constructor
  · intro h
    rw [Finset.eq_empty_iff_forall_notMem]
    intro k hk
    have hzero := h k
    rw [if_pos hk] at hzero
    exact absurd hzero (by decide)
  · intro h k
    simp [h]

/-- After any commands, a PUBLISH answers the number of subscribed sessions only while
there is at most one, and it reaches the subscribed sessions only while there is none. -/
theorem publish_reaches_sessions_iff (hash : Bytes → Nat) (config : ServerConfig)
    (sent : List (Sent κ)) (env : Env) (name channel first : Bytes) (rest : List Bytes) :
    (CountsSessions hash config sent env name channel first rest ↔
      (subscribersOf sent channel).card ≤ 1) ∧
    (CountsSessions hash config sent env name channel first rest ∧
        ReachesSessions hash config sent channel (joinArgs first rest) ↔
      ∀ x ∈ sent, ¬ Subscribes channel x) := by
  refine ⟨countsSessions_iff config sent env name channel first rest,?_⟩
  have hnone : (∀ x ∈ sent, ¬ Subscribes channel x) ↔ subscribersOf sent channel = ∅ := by
    rw [← Finset.not_nonempty_iff_eq_empty,subscribersOf_nonempty]
    simp
  rw [countsSessions_iff,reachesSessions_iff,hnone]
  constructor
  · intro h
    exact h.2
  · intro h
    exact ⟨by simp [h],h⟩

end

/-- Two sessions subscribe. PUBLISH answers 1 and hands the message to nobody. -/
theorem publish_misses_sessions :
    let env : Env := ⟨fun _ => 0,.success⟩
    let sent : List (Sent Bool) := [⟨false,env,⟨.subscribe,bytes "SUBSCRIBE",[bytes "c"]⟩⟩,
      ⟨true,env,⟨.subscribe,bytes "SUBSCRIBE",[bytes "c"]⟩⟩]
    ¬ CountsSessions (fun _ => 0) {} sent env (bytes "PUBLISH") (bytes "c") (bytes "m") [] ∧
      ¬ ReachesSessions (fun _ => 0) {} sent (bytes "c") (bytes "m") := by
  intro env sent
  have htwo : subscribersOf sent (bytes "c") = {false,true} := by decide
  constructor
  · rw [countsSessions_iff,htwo]
    decide
  · rw [reachesSessions_iff,htwo]
    decide

end Server
end VoltDBX
