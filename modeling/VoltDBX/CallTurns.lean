import VoltDBX.TableCalls

/-!
Sessions whose commands meet call by call. Between the calls of one command those of the
others run; where each client keeps to keys of its own, all of it is as if whole lines had
been dispatched one after the other.
-/

set_option autoImplicit false

namespace VoltDBX
open Runs Runs.Program SharedCall

namespace SharedCall
variable {hash : Bytes → Nat}

/-- The call works on a key in `K`, or on the counter of the commands. -/
def On (K : Bytes → Prop) : SharedCall → Prop
  | .find key => K key
  | .contains key => K key
  | .insert key _ => K key
  | .erase key => K key
  | .recordCommand => True
  | .handler _ _ => False

theorem local_exec {κ : Type} (owner : Bytes → κ) :
    Clients.Local (@exec hash) (fun c s s' => Server.SameOn (fun key => owner key = c) s s')
      (fun c => On fun key => owner key = c) where
  own c i s s' hi h := by
    cases i with
    | find key =>
      refine ⟨?_,h⟩
      simp only [exec,StorageEngine.find_eq]
      exact h key hi
    | contains key => exact ⟨StorageEngine.SameOn.existsKey h hi,h⟩
    | insert key entry => exact ⟨rfl,StorageEngine.SameOn.insert h key entry⟩
    | erase key =>
      refine ⟨?_,StorageEngine.SameOn.remove h key⟩
      simp only [exec,StorageEngine.remove_snd]
      exact decide_eq_decide.mpr (StorageEngine.SameOn.mem_iff h hi)
    | recordCommand => exact ⟨rfl,h⟩
    | handler env cmd => exact absurd hi not_false
  other c d i s s' hi hcd h := by
    cases i with
    | find key => exact h
    | contains key => exact h
    | insert key entry =>
      intro x hx
      have hne : x ≠ key := fun heq => hcd (hi.symm.trans (heq ▸ hx))
      rw [exec,StorageEngine.toMap_insert,Finmap.lookup_insert_of_ne _ hne,h x hx]
    | erase key =>
      intro x hx
      have hne : x ≠ key := fun heq => hcd (hi.symm.trans (heq ▸ hx))
      rw [exec,StorageEngine.toMap_remove,Finmap.lookup_erase_ne hne,h x hx]
    | recordCommand => exact h
    | handler env cmd => exact absurd hi not_false

end SharedCall

namespace Calls
variable {hash : Bytes → Nat} {K : Bytes → Prop}

theorem keeps_get {key : Bytes} (h : K key) (now : Int) : (get now key).Keeps (On K) := by
  have hfind : (find key).Keeps (On K) := keeps_perform h
  refine Keeps.bind (hfind.bind fun found => ?_) fun expired => ?_
  · cases found with
    | none => exact keeps_pure _
    | some entry =>
      dsimp only
      cases entry.expiresAt with
      | none => exact keeps_pure _
      | some d => exact keeps_pure _
  · cases expired with
    | true => exact keeps_pure _
    | false =>
      refine hfind.bind fun found => ?_
      cases found with
      | none => exact keeps_pure _
      | some entry => exact keeps_pure _

theorem keeps_set {key : Bytes} (h : K key) (value : Bytes) : (set key value).Keeps (On K) :=
  Keeps.bind (keeps_perform h) fun _ => keeps_pure _

theorem keeps_setTtl {key : Bytes} (h : K key) (now ttl : Int) :
    (setTtl now key ttl).Keeps (On K) := by
  refine Keeps.bind (keeps_perform h) fun found => ?_
  cases found with
  | none => exact keeps_pure _
  | some entry => exact Keeps.bind (keeps_perform h) fun _ => keeps_pure _

theorem keeps_increment {key : Bytes} (h : K key) (now delta : Int) :
    (increment now key delta).Keeps (On K) := by
  refine Keeps.bind (keeps_get h now) fun stored => Keeps.bind trivial fun current => ?_
  exact Keeps.bind (keeps_set h _) fun _ => keeps_pure _

theorem keeps_mget {keys : List Bytes} (h : ∀ key ∈ keys, K key) (clock : Nat → Int) (n : Nat) :
    (mget clock n keys).Keeps (On K) := by
  induction keys generalizing n with
  | nil => exact keeps_pure _
  | cons key keys ih =>
    refine Keeps.bind (keeps_get (h key (by simp)) _) fun value => ?_
    exact Keeps.bind (ih (fun k hk => h k (by simp [hk])) (n+1)) fun values => keeps_pure _

theorem keeps_mset {pairs : List (Bytes × Bytes)} (h : ∀ key ∈ KeyedList.keys pairs, K key)
    (written : Nat) : (mset pairs written).Keeps (On K) := by
  induction pairs generalizing written with
  | nil => exact keeps_pure _
  | cons p pairs ih =>
    have hrest := fun n => ih (fun key hkey => h key (by simp [KeyedList.keys] at hkey ⊢; simp [hkey])) n
    refine Keeps.bind (keeps_set (h p.1 (by simp [KeyedList.keys])) p.2) fun stored => ?_
    cases stored with
    | true => exact hrest _
    | false => exact hrest _

theorem keeps_countExisting {keys : List Bytes} (h : ∀ key ∈ keys, K key) (count : Int) :
    (countExisting keys count).Keeps (On K) := by
  induction keys generalizing count with
  | nil => exact keeps_pure _
  | cons key keys ih =>
    have hrest := fun n => ih (fun k hk => h k (by simp [hk])) n
    refine Keeps.bind (keeps_perform (h key (by simp))) fun there => ?_
    cases there with
    | true => exact hrest _
    | false => exact hrest _

section
variable {cmd : ParsedCommand}

theorem keeps_handleGet (hkeys : ∀ key ∈ cmd.args.take 1, K key) (now : Int) :
    (handleGet now cmd).Keeps (On K) := by
  unfold handleGet
  generalize cmd.args = args at hkeys ⊢
  obtain _ | ⟨key,_ | ⟨arg,rest⟩⟩ := args
  · exact keeps_pure _
  · exact Keeps.bind (keeps_get (hkeys key (by simp)) now) fun _ => keeps_pure _
  · exact keeps_pure _

theorem keeps_handleDelete (hkeys : ∀ key ∈ cmd.args.take 1, K key) :
    (handleDelete cmd).Keeps (On K) := by
  unfold handleDelete
  generalize cmd.args = args at hkeys ⊢
  obtain _ | ⟨key,_ | ⟨arg,rest⟩⟩ := args
  · exact keeps_pure _
  · exact Keeps.bind (keeps_perform (hkeys key (by simp))) fun _ => keeps_pure _
  · exact keeps_pure _

theorem keeps_handleExists (hkeys : ∀ key ∈ cmd.args, K key) :
    (handleExists cmd).Keeps (On K) := by
  unfold handleExists
  split
  · exact keeps_pure _
  · exact Keeps.bind (keeps_countExisting hkeys 0) fun _ => keeps_pure _

theorem keeps_handleSet (hkeys : ∀ key ∈ cmd.args.take 1, K key) :
    (handleSet cmd).Keeps (On K) := by
  unfold handleSet
  generalize cmd.args = args at hkeys ⊢
  obtain _ | ⟨key,_ | ⟨first,rest⟩⟩ := args
  · exact keeps_pure _
  · exact keeps_pure _
  · exact Keeps.bind (keeps_set (hkeys key (by simp)) _) fun _ => keeps_pure _

theorem keeps_handleExpire (hkeys : ∀ key ∈ cmd.args.take 1, K key) (now : Int) :
    (handleExpire now cmd).Keeps (On K) := by
  unfold handleExpire
  generalize cmd.args = args at hkeys ⊢
  obtain _ | ⟨key,_ | ⟨text,_ | ⟨arg,rest⟩⟩⟩ := args
  · exact keeps_pure _
  · exact keeps_pure _
  · refine Keeps.bind trivial fun seconds => ?_
    exact Keeps.bind (keeps_setTtl (hkeys key (by simp)) now seconds) fun _ => keeps_pure _
  · exact keeps_pure _

theorem keeps_handleMget (hkeys : ∀ key ∈ cmd.args, K key) (clock : Nat → Int) :
    (handleMget clock cmd).Keeps (On K) := by
  unfold handleMget
  split
  · exact keeps_pure _
  · exact Keeps.bind (keeps_mget hkeys clock 0) fun _ => keeps_pure _

theorem keeps_handleMset (hkeys : ∀ key ∈ KeyedList.keys (batchPairs cmd.args), K key) :
    (handleMset cmd).Keeps (On K) := by
  unfold handleMset
  split
  · exact keeps_pure _
  · exact Keeps.bind (keeps_mset hkeys 0) fun _ => keeps_pure _

theorem keeps_handleIncr (hkeys : ∀ key ∈ cmd.args.take 1, K key) (now : Int) :
    (handleIncr now cmd).Keeps (On K) := by
  unfold handleIncr
  generalize cmd.args = args at hkeys ⊢
  obtain _ | ⟨key,_ | ⟨arg,rest⟩⟩ := args
  · exact keeps_pure _
  · exact Keeps.bind (keeps_increment (hkeys key (by simp)) now _) fun _ => keeps_pure _
  · exact keeps_pure _

theorem keeps_handleDecr (hkeys : ∀ key ∈ cmd.args.take 1, K key) (now : Int) :
    (handleDecr now cmd).Keeps (On K) := by
  unfold handleDecr
  generalize cmd.args = args at hkeys ⊢
  obtain _ | ⟨key,_ | ⟨arg,rest⟩⟩ := args
  · exact keeps_pure _
  · exact Keeps.bind (keeps_increment (hkeys key (by simp)) now _) fun _ => keeps_pure _
  · exact keeps_pure _

theorem keeps_handleIncrby (hkeys : ∀ key ∈ cmd.args.take 1, K key) (now : Int) :
    (handleIncrby now cmd).Keeps (On K) := by
  unfold handleIncrby
  generalize cmd.args = args at hkeys ⊢
  obtain _ | ⟨key,_ | ⟨amount,_ | ⟨arg,rest⟩⟩⟩ := args
  · exact keeps_pure _
  · exact keeps_pure _
  · refine Keeps.bind trivial fun delta => ?_
    exact Keeps.bind (keeps_increment (hkeys key (by simp)) now _) fun _ => keeps_pure _
  · exact keeps_pure _

theorem keeps_dispatch {env : Env} (hkeyed : keyed cmd.type = true)
    (hkeys : ∀ key ∈ cmd.footprint, K key) : (dispatch env cmd).Keeps (On K) := by
  unfold dispatch handle
  cases ht : cmd.type <;> rw [ht] at hkeyed <;>
    simp only [ParsedCommand.footprint,ht] at hkeys
  case unknown => exact keeps_pure _
  case ping => exact Keeps.bind (keeps_perform trivial) fun _ => keeps_pure _
  case get => exact Keeps.bind (keeps_perform trivial) fun _ => keeps_handleGet hkeys _
  case set => exact Keeps.bind (keeps_perform trivial) fun _ => keeps_handleSet hkeys
  case delete => exact Keeps.bind (keeps_perform trivial) fun _ => keeps_handleDelete hkeys
  case exist => exact Keeps.bind (keeps_perform trivial) fun _ => keeps_handleExists hkeys
  case expire => exact Keeps.bind (keeps_perform trivial) fun _ => keeps_handleExpire hkeys _
  case mget => exact Keeps.bind (keeps_perform trivial) fun _ => keeps_handleMget hkeys _
  case mset => exact Keeps.bind (keeps_perform trivial) fun _ => keeps_handleMset hkeys
  case incr => exact Keeps.bind (keeps_perform trivial) fun _ => keeps_handleIncr hkeys _
  case decr => exact Keeps.bind (keeps_perform trivial) fun _ => keeps_handleDecr hkeys _
  case incrby => exact Keeps.bind (keeps_perform trivial) fun _ => keeps_handleIncrby hkeys _
  all_goals cases hkeyed

end

variable {κ : Type}

theorem keeps_session {owner : Bytes → κ} {c : κ} {turns : List (Server.Turn κ)}
    (hturns : ∀ i ∈ turns, i.client = c ∧ Server.KeepsTo owner i) :
    (session turns).Keeps (On fun key => owner key = c) := by
  induction turns with
  | nil => exact keeps_pure _
  | cons i turns ih =>
    obtain ⟨rfl,hi⟩ := hturns i (by simp)
    refine Keeps.bind ?_ fun reply => Keeps.bind (ih fun j hj => hturns j (by simp [hj])) fun _ =>
      keeps_pure _
    unfold handleLine
    split
    · exact keeps_pure _
    · cases hp : parseLine i.line with
      | none => exact keeps_pure _
      | some cmd =>
        obtain ⟨hkeyed,hkeys⟩ := hi cmd hp
        exact Keeps.bind (keeps_dispatch hkeyed hkeys) fun _ => keeps_pure _

theorem paired_turn {owner : Bytes → κ} {i : Server.Turn κ} (hi : Server.KeepsTo owner i)
    {s t : Server hash} (h : Same s t) :
    Runs.Paired Same Eq ((Server.turn i).run s) ((Server.turn i).run t) := by
  have hown : Server.KeepsTo (fun _ => i.client) i := fun cmd hcmd => ⟨(hi cmd hcmd).1,fun _ _ => rfl⟩
  have hview : Server.SameOn (fun _ => i.client = i.client) s t := fun key _ => by rw [h]
  refine ((Server.separate_turns fun _ => i.client).own i s t hown hview).mono
    (fun _ _ _ => trivial) (fun u v huv => ?_) fun _ _ heq => heq
  exact Finmap.ext_lookup fun key => huv key rfl

/-- A session run call by call, with nothing in between, is the session. -/
theorem paired_session {owner : Bytes → κ} {turns : List (Server.Turn κ)}
    (hturns : ∀ i ∈ turns, Server.KeepsTo owner i) {s t : Server hash} (h : Same s t) :
    Runs.Paired Same Eq ((session turns).run exec s) ((runAll Server.turn turns).run t) := by
  induction turns generalizing s t with
  | nil => exact ⟨rfl,h⟩
  | cons i turns ih =>
    have hline := agree_handleLine i.env i.line s
    have hsame := paired_turn (hturns i (by simp)) h
    rw [session,runAll,run_bind,EStateM.run_bind]
    cases hl : (handleLine i.env i.line).run exec s with
    | error x u =>
      cases hs : (Server.turn i).run s with
      | ok reply v =>
        rw [hl] at hline
        unfold Server.turn at hs
        rw [hs] at hline
        exact absurd hline not_false
      | error y v =>
        rw [hs] at hsame
        cases ht : (Server.turn i).run t with
        | ok reply w =>
          rw [ht] at hsame
          exact absurd hsame not_false
        | error z w => trivial
    | ok reply u =>
      obtain ⟨reply',v,hv,rfl,huv⟩ := hline.of_ok hl
      obtain ⟨reply'',w,hw,rfl,hvw⟩ := hsame.of_ok hv
      have hrest := ih (fun j hj => hturns j (by simp [hj])) (huv.trans hvw)
      rw [hw]
      dsimp only
      rw [run_bind,EStateM.run_bind]
      cases hr : (session turns).run exec u with
      | error x u' =>
        rw [hr] at hrest
        cases ht : (runAll Server.turn turns).run w with
        | ok replies w' =>
          rw [ht] at hrest
          exact absurd hrest not_false
        | error y w' => trivial
      | ok replies u' =>
        obtain ⟨replies',w',hw',rfl,hlast⟩ := hrest.of_ok hr
        rw [hw']
        exact ⟨rfl,hlast⟩

end Calls

section
variable {hash : Bytes → Nat} {κ : Type} [DecidableEq κ] {owner : Bytes → κ}
variable {turns : List (Server.Turn κ)} {s : Server hash} {calls : List κ}
variable {t : Clients Raised Reply (List (Option Bytes)) (Server hash) κ}

theorem Calls.keeps_inputs (hkeeps : ∀ i ∈ turns, Server.KeepsTo owner i) (c : κ) :
    ∀ i ∈ inputsOf Server.Turn.client c turns, i.client = c ∧ Server.KeepsTo owner i := by
  intro i hi
  obtain ⟨hmem,hclient⟩ := List.mem_filter.mp hi
  exact ⟨of_decide_eq_true hclient,hkeeps i hmem⟩

theorem Calls.exec_alone (hkeeps : ∀ i ∈ turns, Server.KeepsTo owner i)
    (hrun : Moves (Clients.turn exec)
      ⟨s,fun c => Calls.session (inputsOf Server.Turn.client c turns)⟩ calls t) (c : κ) :
    ∃ t', Server.SameOn (fun key => owner key = c) t.shared t' ∧
      (Calls.session (inputsOf Server.Turn.client c turns)).run exec s = (t.programs c).run exec t' :=
  (SharedCall.local_exec owner).alone (fun d => Calls.keeps_session (Calls.keeps_inputs hkeeps d)) hrun
    (fun _ _ => rfl : Server.SameOn (fun key => owner key = c) s s)

theorem Calls.paired_inputs (hkeeps : ∀ i ∈ turns, Server.KeepsTo owner i) (s : Server hash) (c : κ) :
    Runs.Paired Calls.Same Eq
      ((Calls.session (inputsOf Server.Turn.client c turns)).run exec s)
      ((runAll Server.turn (inputsOf Server.Turn.client c turns)).run s) :=
  Calls.paired_session (fun i hi => (Calls.keeps_inputs hkeeps c i hi).2) rfl

theorem Calls.serial_of_done (hkeeps : ∀ i ∈ turns, Server.KeepsTo owner i)
    (hrun : Moves (Clients.turn exec)
      ⟨s,fun c => Calls.session (inputsOf Server.Turn.client c turns)⟩ calls t) {c : κ}
    {replies : List (Option Bytes)} (hdone : t.programs c = .done (.ok replies)) :
    ∃ u, (runAll Server.turn (inputsOf Server.Turn.client c turns)).run s = .ok replies u ∧
      Server.SameOn (fun key => owner key = c) t.shared u := by
  obtain ⟨t',hview,hsession⟩ := Calls.exec_alone hkeeps hrun c
  rw [hdone] at hsession
  obtain ⟨replies',u,hu,rfl,hsame⟩ := (Calls.paired_inputs hkeeps s c).of_ok hsession
  exact ⟨u,hu,fun key hkey => by rw [hview key hkey,hsame]⟩

end

/-- Clients that keep to keys of their own, with their commands going on call by call, in any
interleaving: all can go on to the end, and then what they are sent and the entries they leave
are as if the lines had been dispatched one after the other, in any order that keeps that of
each client. -/
theorem Server.calls_in_any_order {hash : Bytes → Nat} {κ : Type} [DecidableEq κ] (owner : Bytes → κ)
    {turns : List (Turn κ)} (hkeeps : ∀ i ∈ turns, KeepsTo owner i) {s : Server hash}
    {calls : List κ} {t : Clients Raised Reply (List (Option Bytes)) (Server hash) κ}
    (hrun : Moves (Clients.turn exec) ⟨s,fun c => Calls.session (inputsOf Turn.client c turns)⟩ calls t) :
    (∃ more u, Moves (Clients.turn exec) t more u ∧ ∀ c, ∃ result, u.programs c = .done result) ∧
    (∀ replies : κ → List (Option Bytes), (∀ c, t.programs c = .done (.ok (replies c))) →
      ∃ all u, (runAll turn turns).run s = .ok all u ∧
        u.storage.toMap = t.shared.storage.toMap ∧
        ∀ c, outputsOf Turn.client c turns all = replies c) ∧
    ∀ c x, t.programs c = .done (.error x) → ∃ y u, (runAll turn turns).run s = .error y u := by
  refine ⟨?_,?_,?_⟩
  · refine @Clients.exists_all_ended _ _ _ _ _ _ _ exec t (turns.map Turn.client) fun c hc => ?_
    have hnone : inputsOf Turn.client c turns = [] := by
      refine List.filter_eq_nil_iff.mpr fun i hi hclient => hc ?_
      exact List.mem_map.mpr ⟨i,hi,of_decide_eq_true hclient⟩
    have hidle : Calls.session (inputsOf Turn.client c turns) = .done (.ok []) := by
      rw [hnone]
      rfl
    exact ⟨_,Clients.ended_moves hrun hidle⟩
  · intro replies hdone
    obtain ⟨all,u,hall⟩ := (separate_turns owner).together hkeeps fun c => by
      obtain ⟨v,hv,-⟩ := Calls.serial_of_done hkeeps hrun (hdone c)
      exact ⟨s,_,v,fun key _ => rfl,hv⟩
    have hview : ∀ c, outputsOf Turn.client c turns all = replies c ∧
        SameOn (fun key => owner key = c) t.shared u := by
      intro c
      obtain ⟨v,hv,hsame⟩ := Calls.serial_of_done hkeeps hrun (hdone c)
      obtain ⟨w,hw,huw⟩ := (separate_turns owner).alone hkeeps hall
        (fun key _ => rfl : SameOn (fun key => owner key = c) s s)
      rw [hv] at hw
      obtain ⟨hout,rfl⟩ := EStateM.Result.ok.inj hw
      exact ⟨hout.symm,fun key hkey => (hsame key hkey).trans (huw key hkey).symm⟩
    refine ⟨all,u,hall,?_,fun c => (hview c).1⟩
    exact Finmap.ext_lookup fun key => ((hview (owner key)).2 key rfl).symm
  · intro c x hraised
    obtain ⟨t',-,hsession⟩ := Calls.exec_alone hkeeps hrun c
    rw [hraised] at hsession
    cases hall : (runAll turn turns).run s with
    | error y u => exact ⟨y,u,rfl⟩
    | ok all u =>
      obtain ⟨w,hw,-⟩ := (separate_turns owner).alone hkeeps hall
        (fun key _ => rfl : SameOn (fun key => owner key = c) s s)
      have hpaired := Calls.paired_inputs hkeeps s c
      rw [hsession,hw] at hpaired
      exact absurd hpaired not_false

/-- A SET goes on between the two writes of an MSET. -/
theorem Server.calls_in_any_order_example :
    let env : Env := ⟨fun _ => 0,.success⟩
    let turns : List (Turn Bool) := [⟨true,env,bytes "SET a 1"⟩,⟨false,env,bytes "MSET b 2 c 3"⟩]
    let s : Server fun _ => 0 := create (fun _ => 0) {}
    ∃ t all u, Moves (Clients.turn exec)
        ⟨s,fun c => Calls.session (inputsOf Turn.client c turns)⟩ [true,false,false,true,false] t ∧
      (runAll turn turns).run s = .ok all u ∧ u.storage.toMap = t.shared.storage.toMap := by
  intro env turns s
  have hset : parseLine (bytes "SET a 1") = some ⟨.set,bytes "SET",[bytes "a",bytes "1"]⟩ := by
    decide
  have hmset : parseLine (bytes "MSET b 2 c 3") =
      some ⟨.mset,bytes "MSET",[bytes "b",bytes "2",bytes "c",bytes "3"]⟩ := by decide
  have hkeeps : ∀ i ∈ turns, KeepsTo (fun key => decide (key = bytes "a")) i := by
    intro i hi cmd hcmd
    rcases List.mem_pair.mp hi with rfl | rfl
    · cases hset.symm.trans hcmd
      exact ⟨rfl,by decide⟩
    · cases hmset.symm.trans hcmd
      exact ⟨rfl,by decide⟩
  generalize s = s
  have hrun : ∃ t, Moves (Clients.turn exec)
      ⟨s,fun c => Calls.session (inputsOf Turn.client c turns)⟩ [true,false,false,true,false] t ∧
      ∀ c, t.programs c = .done (.ok [some okResponse]) := by
    refine ⟨_,moves_cons.mpr ⟨_,rfl,moves_cons.mpr ⟨_,rfl,moves_cons.mpr ⟨_,rfl,moves_cons.mpr
      ⟨_,rfl,moves_cons.mpr ⟨_,rfl,moves_nil.mpr rfl⟩⟩⟩⟩⟩,fun c => ?_⟩
    cases c
    · rfl
    · rfl
  obtain ⟨t,ht,hdone⟩ := hrun
  obtain ⟨all,u,hall,hmap,-⟩ := (calls_in_any_order _ hkeeps ht).2.1 _ hdone
  exact ⟨t,all,u,ht,hall,hmap⟩

end VoltDBX
