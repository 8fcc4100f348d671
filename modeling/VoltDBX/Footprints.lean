import VoltDBX.Conversions
import VoltDBX.Expiry
import VoltDBX.Interleavings

/-!
The keys a command reads and writes. A command depends on the entries of these keys alone
and leaves every other entry as it is, so clients that keep to keys of their own do not
notice each other.
-/

set_option autoImplicit false

namespace VoltDBX

def ParsedCommand.footprint (cmd : ParsedCommand) : List Bytes :=
  match cmd.type with
  | .get | .set | .delete | .expire | .incr | .decr | .incrby => cmd.args.take 1
  | .exist | .mget => cmd.args
  | .mset => KeyedList.keys (batchPairs cmd.args)
  | _ => []

def keyed : CommandType → Bool
  | .get | .set | .delete | .exist | .expire | .mget | .mset | .incr | .decr | .incrby
  | .ping | .unknown => true
  | _ => false

def StorageEngine.SameOn {hash : Bytes → Nat} (K : Bytes → Prop) (e e' : StorageEngine hash) :
    Prop :=
  ∀ key, K key → e.toMap.lookup key = e'.toMap.lookup key

namespace StorageEngine
variable {hash : Bytes → Nat} {K : Bytes → Prop} {e e' : StorageEngine hash}

theorem SameOn.get (h : e.SameOn K e') {key : Bytes} (hkey : K key) (now : Int) :
    e.get now key = e'.get now key := by
  rw [get_eq,get_eq,Map.valueAt,Map.valueAt,h key hkey]

theorem SameOn.mem_iff (h : e.SameOn K e') {key : Bytes} (hkey : K key) :
    key ∈ e.toMap ↔ key ∈ e'.toMap := by
  rw [Finmap.mem_iff,Finmap.mem_iff,h key hkey]

theorem SameOn.existsKey (h : e.SameOn K e') {key : Bytes} (hkey : K key) :
    e.existsKey key = e'.existsKey key := by
  rw [existsKey_eq,existsKey_eq,Bool.eq_iff_iff,decide_eq_true_iff,decide_eq_true_iff]
  exact h.mem_iff hkey

theorem SameOn.set (h : e.SameOn K e') (key value : Bytes) :
    (e.set key value).1.SameOn K (e'.set key value).1 := by
  intro x hx
  rw [toMap_set,toMap_set]
  by_cases hkey : x = key
  · rw [hkey,Finmap.lookup_insert,Finmap.lookup_insert]
  · rw [Finmap.lookup_insert_of_ne _ hkey,Finmap.lookup_insert_of_ne _ hkey,h x hx]

theorem SameOn.insert (h : e.SameOn K e') (key : Bytes) (entry : StorageEntry) :
    (e.insert key entry).SameOn K (e'.insert key entry) := by
  intro x hx
  rw [toMap_insert,toMap_insert]
  by_cases hkey : x = key
  · rw [hkey,Finmap.lookup_insert,Finmap.lookup_insert]
  · rw [Finmap.lookup_insert_of_ne _ hkey,Finmap.lookup_insert_of_ne _ hkey,h x hx]

theorem SameOn.setAll (h : e.SameOn K e') (pairs : List (Bytes × Bytes)) :
    (e.setAll pairs).SameOn K (e'.setAll pairs) := by
  induction pairs generalizing e e' with
  | nil => exact h
  | cons p pairs ih => exact ih (h.set p.1 p.2)

theorem SameOn.remove (h : e.SameOn K e') (key : Bytes) :
    (e.remove key).1.SameOn K (e'.remove key).1 := by
  intro x hx
  rw [toMap_remove,toMap_remove]
  by_cases hkey : x = key
  · rw [hkey,Finmap.lookup_erase,Finmap.lookup_erase]
  · rw [Finmap.lookup_erase_ne hkey,Finmap.lookup_erase_ne hkey,h x hx]

theorem SameOn.setTtl (h : e.SameOn K e') (now : Int) (key : Bytes) (ttl : Int) :
    (e.setTtl now key ttl).1.SameOn K (e'.setTtl now key ttl).1 := by
  intro x hx
  rw [lookup_setTtl,lookup_setTtl,h x hx]

end StorageEngine

section
variable {hash : Bytes → Nat} {K : Bytes → Prop} {e e' : StorageEngine hash}
  {cmd : ParsedCommand}

/-- The action gives both stores the same reply and leaves them the same on the keys. -/
abbrev AlikeOn (K : Bytes → Prop) (a : Action (StorageEngine hash) Bytes)
    (e e' : StorageEngine hash) : Prop :=
  Runs.Paired (StorageEngine.SameOn K) Eq (a.run e) (a.run e')

theorem alike_handleGet (h : e.SameOn K e') (hkeys : ∀ key ∈ cmd.args.take 1, K key) (now : Int) :
    AlikeOn K (reading (handleGet now cmd)) e e' := by
  refine ⟨?_,h⟩
  unfold handleGet
  generalize cmd.args = args at hkeys ⊢
  obtain _ | ⟨key,_ | ⟨arg,rest⟩⟩ := args
  · rfl
  · dsimp only
    rw [h.get (hkeys key (by simp))]
  · rfl

theorem alike_handleSet (h : e.SameOn K e') : AlikeOn K (updating (handleSet cmd)) e e' := by
  rw [AlikeOn,run_updating,run_updating]
  unfold handleSet
  obtain _ | ⟨key,_ | ⟨first,rest⟩⟩ := cmd.args
  · exact ⟨rfl,h⟩
  · exact ⟨rfl,h⟩
  · exact ⟨rfl,h.set _ _⟩

theorem alike_handleDelete (h : e.SameOn K e') (hkeys : ∀ key ∈ cmd.args.take 1, K key) :
    AlikeOn K (updating (handleDelete cmd)) e e' := by
  rw [AlikeOn,run_updating,run_updating]
  unfold handleDelete
  generalize cmd.args = args at hkeys ⊢
  obtain _ | ⟨key,_ | ⟨arg,rest⟩⟩ := args
  · exact ⟨rfl,h⟩
  · refine ⟨?_,h.remove key⟩
    simp only [StorageEngine.remove_snd,h.mem_iff (hkeys key (by simp))]
  · exact ⟨rfl,h⟩

theorem alike_handleExists (h : e.SameOn K e') (hkeys : ∀ key ∈ cmd.args, K key) :
    AlikeOn K (reading (handleExists cmd)) e e' := by
  refine ⟨?_,h⟩
  have hcount : ∀ (args : List Bytes) (n : Int), (∀ key ∈ args, K key) →
      args.foldl (fun count key => if e.existsKey key then count+1 else count) n =
        args.foldl (fun count key => if e'.existsKey key then count+1 else count) n := by
    intro args
    induction args with
    | nil => exact fun _ _ => rfl
    | cons key args ih =>
      intro n hall
      rw [List.foldl_cons,List.foldl_cons,h.existsKey (hall key (by simp))]
      exact ih _ fun k hk => hall k (by simp [hk])
  unfold handleExists
  generalize cmd.args = args at hkeys ⊢
  cases args with
  | nil => rfl
  | cons key args =>
    dsimp only
    rw [hcount _ _ hkeys]

theorem alike_handleMget (h : e.SameOn K e') (hkeys : ∀ key ∈ cmd.args, K key)
    (clock : Nat → Int) : AlikeOn K (reading (handleMget clock cmd)) e e' := by
  refine ⟨?_,h⟩
  have hvalues : BatchOperations.mget e clock cmd.args = BatchOperations.mget e' clock cmd.args := by
    unfold BatchOperations.mget
    refine List.map_congr_left fun p hp => ?_
    exact h.get (hkeys p.1 (List.fst_mem_of_mem_zipIdx hp)) _
  unfold handleMget
  generalize cmd.args = args at hvalues ⊢
  cases args with
  | nil => rfl
  | cons key args =>
    dsimp only
    rw [hvalues]

theorem alike_handleMset (h : e.SameOn K e') : AlikeOn K (updating (handleMset cmd)) e e' := by
  rw [AlikeOn,run_updating,run_updating]
  unfold handleMset
  split
  · exact ⟨rfl,h⟩
  · refine ⟨rfl,?_⟩
    rw [BatchOperations.mset_eq_setAll,BatchOperations.mset_eq_setAll]
    exact h.setAll _

theorem alike_counted (h : e.SameOn K e') {key : Bytes} (hkey : K key) (now delta : Int) :
    Runs.Paired (StorageEngine.SameOn K) Eq (counted now key delta e) (counted now key delta e') := by
  unfold counted
  rw [h.get hkey]
  cases CounterStore.parseValue (e'.get now key) with
  | error x => trivial
  | ok current => exact ⟨rfl,h.set _ _⟩

theorem alike_handleIncr (h : e.SameOn K e') (hkeys : ∀ key ∈ cmd.args.take 1, K key)
    (now : Int) : AlikeOn K (handleIncr now cmd) e e' := by
  rw [AlikeOn,run_handleIncr,run_handleIncr]
  generalize cmd.args = args at hkeys ⊢
  obtain _ | ⟨key,_ | ⟨arg,rest⟩⟩ := args
  · exact ⟨rfl,h⟩
  · exact alike_counted h (hkeys key (by simp)) now 1
  · exact ⟨rfl,h⟩

theorem alike_handleDecr (h : e.SameOn K e') (hkeys : ∀ key ∈ cmd.args.take 1, K key)
    (now : Int) : AlikeOn K (handleDecr now cmd) e e' := by
  rw [AlikeOn,run_handleDecr,run_handleDecr]
  generalize cmd.args = args at hkeys ⊢
  obtain _ | ⟨key,_ | ⟨arg,rest⟩⟩ := args
  · exact ⟨rfl,h⟩
  · exact alike_counted h (hkeys key (by simp)) now (-1)
  · exact ⟨rfl,h⟩

theorem alike_handleIncrby (h : e.SameOn K e') (hkeys : ∀ key ∈ cmd.args.take 1, K key)
    (now : Int) : AlikeOn K (handleIncrby now cmd) e e' := by
  rw [AlikeOn,run_handleIncrby,run_handleIncrby]
  generalize cmd.args = args at hkeys ⊢
  obtain _ | ⟨key,_ | ⟨amount,_ | ⟨arg,rest⟩⟩⟩ := args
  · exact ⟨rfl,h⟩
  · exact ⟨rfl,h⟩
  · dsimp only
    cases stoll amount with
    | error x => trivial
    | ok delta => exact alike_counted h (hkeys key (by simp)) now delta
  · exact ⟨rfl,h⟩

theorem alike_handleExpire (h : e.SameOn K e') (hkeys : ∀ key ∈ cmd.args.take 1, K key)
    (now : Int) : AlikeOn K (handleExpire now cmd) e e' := by
  rw [AlikeOn,run_handleExpire,run_handleExpire]
  generalize cmd.args = args at hkeys ⊢
  obtain _ | ⟨key,_ | ⟨text,_ | ⟨arg,rest⟩⟩⟩ := args
  · exact ⟨rfl,h⟩
  · exact ⟨rfl,h⟩
  · dsimp only
    cases stoll text with
    | error x => trivial
    | ok ttl =>
      refine ⟨?_,h.setTtl now key ttl⟩
      simp only [(StorageEngine.setTtl_eq _ now key ttl).2,h.mem_iff (hkeys key (by simp))]
  · exact ⟨rfl,h⟩

end

namespace Server
variable {hash : Bytes → Nat} {K : Bytes → Prop} {s s' : Server hash}

abbrev SameOn (K : Bytes → Prop) (s s' : Server hash) : Prop := s.storage.SameOn K s'.storage

theorem alike_onStorage {a : Action (StorageEngine hash) Bytes}
    (h : AlikeOn K a s.storage s'.storage) :
    Runs.Paired (SameOn K) Eq ((onStorage a).run s) ((onStorage a).run s') := by
  unfold AlikeOn at h
  rw [onStorage,run_focus,run_focus]
  cases hr : a.run s.storage with
  | ok reply u =>
    obtain ⟨reply',u',hr',hreply,hu⟩ := h.of_ok hr
    rw [hr']
    exact ⟨hreply,hu⟩
  | error x u =>
    cases hr' : a.run s'.storage with
    | ok reply' u' =>
      rw [hr,hr'] at h
      exact absurd h not_false
    | error x' u' => trivial

theorem alike_dispatch {env : Env} {cmd : ParsedCommand} (h : SameOn K s s')
    (hkeyed : keyed cmd.type = true) (hkeys : ∀ key ∈ cmd.footprint, K key) :
    Runs.Paired (SameOn K) Eq ((dispatch env cmd).run s) ((dispatch env cmd).run s') := by
  rw [run_dispatch,run_dispatch]
  cases ht : cmd.type <;> rw [ht] at hkeyed <;>
    simp only [ParsedCommand.footprint,ht] at hkeys
  case unknown => exact ⟨rfl,h⟩
  case ping => exact ⟨rfl,h⟩
  case get => exact alike_onStorage (alike_handleGet h hkeys _)
  case set => exact alike_onStorage (alike_handleSet h)
  case delete => exact alike_onStorage (alike_handleDelete h hkeys)
  case exist => exact alike_onStorage (alike_handleExists h hkeys)
  case expire => exact alike_onStorage (alike_handleExpire h hkeys _)
  case mget => exact alike_onStorage (alike_handleMget h hkeys _)
  case mset => exact alike_onStorage (alike_handleMset h)
  case incr => exact alike_onStorage (alike_handleIncr h hkeys _)
  case decr => exact alike_onStorage (alike_handleDecr h hkeys _)
  case incrby => exact alike_onStorage (alike_handleIncrby h hkeys _)
  all_goals cases hkeyed

theorem dispatch_frame {env : Env} {cmd : ParsedCommand} {key : Bytes}
    (hkeyed : keyed cmd.type = true) (hkey : key ∉ cmd.footprint) (s : Server hash) :
    OnReturn (fun _ t => t.storage.toMap.lookup key = s.storage.toMap.lookup key)
      ((dispatch env cmd).run s) := by
  rw [run_dispatch]
  cases ht : cmd.type <;> rw [ht] at hkeyed <;>
    simp only [ParsedCommand.footprint,ht] at hkey
  case set => exact onReturn_focus (handleSet_lookup hkey)
  case mset => exact onReturn_focus (handleMset_lookup hkey)
  case delete => exact onReturn_focus (handleDelete_lookup hkey)
  case incr => exact onReturn_focus (handleIncr_lookup _ hkey)
  case decr => exact onReturn_focus (handleDecr_lookup _ hkey)
  case incrby => exact onReturn_focus (handleIncrby_lookup _ hkey)
  case expire => exact onReturn_focus (handleExpire_lookup _ hkey)
  case unknown => exact rfl
  case ping => exact rfl
  case get => exact rfl
  case exist => exact rfl
  case mget => exact rfl
  all_goals cases hkeyed

section
variable {κ : Type}

/-- A line of a client, with what its command meets outside the process. -/
structure Turn (κ : Type) where
  client : κ
  env : Env
  line : Bytes

def turn (i : Turn κ) : Action (Server hash) (Option Bytes) := handleLine i.env i.line

/-- The line has no command, or one that keeps to keys of its client. -/
def KeepsTo (owner : Bytes → κ) (i : Turn κ) : Prop :=
  ∀ cmd, parseLine i.line = some cmd →
    keyed cmd.type = true ∧ ∀ key ∈ cmd.footprint, owner key = i.client

theorem separate_turns (owner : Bytes → κ) :
    Runs.Separate (@turn hash κ) Turn.client
      (fun c s s' => SameOn (fun key => owner key = c) s s') (KeepsTo owner) where
  refl c s key _ := rfl
  own i s s' hi h := by
    unfold turn
    rw [run_handleLine,run_handleLine]
    cases hp : parseLine i.line with
    | none => exact ⟨rfl,h⟩
    | some cmd =>
      obtain ⟨hkeyed,hkeys⟩ := hi cmd hp
      have hpaired := @alike_dispatch hash _ s s' i.env cmd h hkeyed hkeys
      dsimp only
      cases hd : (dispatch i.env cmd).run s with
      | ok reply t =>
        obtain ⟨reply',t',hd',hreply,ht⟩ := hpaired.of_ok hd
        rw [hd']
        exact ⟨congrArg some hreply,ht⟩
      | error x t =>
        cases hd' : (dispatch i.env cmd).run s' with
        | ok reply' t' =>
          rw [hd,hd'] at hpaired
          exact absurd hpaired not_false
        | error x' t' => trivial
  other i c s t s' o hi hc hrun h key hkey := by
    unfold turn at hrun
    rw [run_handleLine] at hrun
    rw [← h key hkey]
    cases hp : parseLine i.line with
    | none =>
      rw [hp] at hrun
      cases hrun
      rfl
    | some cmd =>
      obtain ⟨hkeyed,hkeys⟩ := hi cmd hp
      have hout : key ∉ cmd.footprint := fun hmem => hc ((hkeys key hmem).symm.trans hkey)
      simp only [hp] at hrun
      cases hd : (dispatch i.env cmd).run s with
      | ok reply u =>
        rw [hd] at hrun
        cases hrun
        exact (dispatch_frame hkeyed hout s).of_ok hd
      | error x u =>
        rw [hd] at hrun
        cases hrun

/-- Clients that keep to keys of their own may take their turns in any order: every order
gets through, gives each client the same replies and leaves the same entries. -/
theorem turns_in_any_order [DecidableEq κ] (owner : Bytes → κ) {is js : List (Turn κ)} {s t : Server hash}
    {replies : List (Option Bytes)} (hkeeps : ∀ i ∈ is, KeepsTo owner i)
    (hsame : ∀ c, Runs.inputsOf Turn.client c is = Runs.inputsOf Turn.client c js)
    (hrun : (Runs.runAll turn is).run s = .ok replies t) :
    ∃ replies' u, (Runs.runAll turn js).run s = .ok replies' u ∧
      u.storage.toMap = t.storage.toMap ∧
      ∀ c, Runs.outputsOf Turn.client c is replies = Runs.outputsOf Turn.client c js replies' := by
  obtain ⟨replies',u,hu,hviews⟩ := (separate_turns owner).reorder hkeeps hsame hrun
  refine ⟨replies',u,hu,?_,fun c => (hviews c).1⟩
  refine Finmap.ext_lookup fun key => ?_
  obtain ⟨v,htv,huv⟩ := (hviews (owner key)).2
  rw [huv key rfl,htv key rfl]

theorem turns_in_any_order_example :
    let env : Env := ⟨fun _ => 0,.success⟩
    let is : List (Turn Bool) := [⟨true,env,bytes "SET a 1"⟩,⟨false,env,bytes "INCR b"⟩]
    let js : List (Turn Bool) := [⟨false,env,bytes "INCR b"⟩,⟨true,env,bytes "SET a 1"⟩]
    ∃ replies t replies' u, (Runs.runAll turn is).run (create (fun _ => 0) {}) = .ok replies t ∧
      (Runs.runAll turn js).run (create (fun _ => 0) {}) = .ok replies' u ∧
      u.storage.toMap = t.storage.toMap := by
  intro env is js
  have hset : parseLine (bytes "SET a 1") = some ⟨.set,bytes "SET",[bytes "a",bytes "1"]⟩ := by
    decide
  have hincr : parseLine (bytes "INCR b") = some ⟨.incr,bytes "INCR",[bytes "b"]⟩ := by decide
  have hkeeps : ∀ i ∈ is, KeepsTo (fun key => decide (key = bytes "a")) i := by
    intro i hi cmd hcmd
    rcases List.mem_pair.mp hi with rfl | rfl
    · cases hset.symm.trans hcmd
      exact ⟨rfl,by decide⟩
    · cases hincr.symm.trans hcmd
      exact ⟨rfl,by decide⟩
  have hsame : ∀ c, Runs.inputsOf Turn.client c is = Runs.inputsOf Turn.client c js := by
    intro c
    cases c <;> rfl
  obtain ⟨reply,s,hs⟩ : ∃ reply s, (turn ⟨true,env,bytes "SET a 1"⟩).run
      (create (fun _ => 0) {}) = .ok reply s ∧ s.storage.toMap.lookup (bytes "b") = none := by
    unfold turn
    rw [run_handleLine,hset]
    refine ⟨_,_,rfl,?_⟩
    change ((StorageEngine.create _).set (bytes "a") (bytes "1")).1.toMap.lookup (bytes "b") = none
    have hne : bytes "b" ≠ bytes "a" := by decide
    rw [StorageEngine.toMap_set,Finmap.lookup_insert_of_ne _ hne,StorageEngine.toMap_create]
    rfl
  obtain ⟨reply',t,ht⟩ : ∃ reply' t, (turn ⟨false,env,bytes "INCR b"⟩).run s = .ok reply' t := by
    have hget : s.storage.get 0 (bytes "b") = none := by
      rw [StorageEngine.get_eq,Map.valueAt,hs.2]
      rfl
    refine (handleLine_returns_iff s (env,bytes "INCR b")).mpr fun cmd hcmd => ?_
    cases hincr.symm.trans hcmd
    change CounterText (s.storage.get 0 (bytes "b"))
    rw [hget]
    trivial
  have hrun : (Runs.runAll turn is).run (create (fun _ => 0) {}) = .ok [reply,reply'] t :=
    Runs.runAll_cons.mpr ⟨_,s,_,hs.1,Runs.runAll_cons.mpr ⟨_,t,[],ht,rfl,rfl⟩,rfl⟩
  obtain ⟨replies',u,hu,hmap,-⟩ := turns_in_any_order _ hkeeps hsame hrun
  exact ⟨_,t,replies',u,hrun,hu,hmap⟩

end
end Server
end VoltDBX
