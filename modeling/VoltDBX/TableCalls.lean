import VoltDBX.Footprints
import VoltDBX.Programs

/-!
The commands as the calls they make on what the sessions share. Each call is one step; the
clock readings of a command are those of its `Env`. The copies that `set` makes through the
string pool return what they are given and are left out.
-/

set_option autoImplicit false

namespace VoltDBX
open Runs Runs.Program

/-- The calls on the table and on the counter of the commands. A handler that does not go
key by key is one call. -/
inductive SharedCall where
  | find (key : Bytes)
  | contains (key : Bytes)
  | insert (key : Bytes) (entry : StorageEntry)
  | erase (key : Bytes)
  | recordCommand
  | handler (env : Env) (cmd : ParsedCommand)

namespace SharedCall
variable {hash : Bytes → Nat}

def Reply : SharedCall → Type
  | .find _ => Option StorageEntry
  | .contains _ => Bool
  | .insert _ _ => Unit
  | .erase _ => Bool
  | .recordCommand => Unit
  | .handler _ _ => Except Raised Bytes

def ofResult {σ α : Type} : EStateM.Result Raised σ α → Except Raised α × σ
  | .ok a s => (.ok a,s)
  | .error x s => (.error x,s)

def exec : (i : SharedCall) → Server hash → Reply i × Server hash
  | .find key, s => (s.storage.table.find hash key,s)
  | .contains key, s => (s.storage.existsKey key,s)
  | .insert key entry, s => ((),{ s with storage := s.storage.insert key entry })
  | .erase key, s => ((s.storage.remove key).2,{ s with storage := (s.storage.remove key).1 })
  | .recordCommand, s => ((),s.recordCommand)
  | .handler env cmd, s =>
    match Server.handlers env cmd cmd.type with
    | none => (.ok (bytes "-ERR unknown command"),s)
    | some action => ofResult (action.run s)

end SharedCall

abbrev Calls (α : Type) := Program Raised SharedCall.Reply α

namespace Calls
open SharedCall

def find (key : Bytes) : Calls (Option StorageEntry) := perform (R := Reply) (.find key)

def contains (key : Bytes) : Calls Bool := perform (R := Reply) (.contains key)

def insert (key : Bytes) (entry : StorageEntry) : Calls Unit :=
  perform (R := Reply) (.insert key entry)

def erase (key : Bytes) : Calls Bool := perform (R := Reply) (.erase key)

def recordCommand : Calls Unit := perform (R := Reply) .recordCommand

def handler (env : Env) (cmd : ParsedCommand) : Calls Bytes := do
  let result : Except Raised Bytes ← perform (R := Reply) (.handler env cmd)
  .done result

def isExpired (now : Int) (key : Bytes) : Calls Bool := do
  match ← find key with
  | none => return false
  | some entry =>
    match entry.expiresAt with
    | none => return false
    | some d => return decide (d ≤ now)

def get (now : Int) (key : Bytes) : Calls (Option Bytes) := do
  if ← isExpired now key then return none
  else
    match ← find key with
    | none => return none
    | some entry => return some entry.value

def set (key value : Bytes) : Calls Bool := do
  insert key ⟨value,none⟩
  return true

def remove (key : Bytes) : Calls Bool := erase key

def existsKey (key : Bytes) : Calls Bool := contains key

def setTtl (now : Int) (key : Bytes) (ttl : Int) : Calls Bool := do
  match ← find key with
  | none => return false
  | some entry =>
    insert key ⟨entry.value,some (deadline now ttl)⟩
    return true

def increment (now : Int) (key : Bytes) (delta : Int) : Calls Int := do
  let current ← .done (CounterStore.parseValue (← get now key))
  let next := wrap64 (current+delta)
  let _ ← set key (CounterStore.formatValue next)
  return next

def decrement (now : Int) (key : Bytes) (delta : Int) : Calls Int :=
  increment now key (wrap64 (-delta))

def mget (clock : Nat → Int) : Nat → List Bytes → Calls (List (Option Bytes))
  | _, [] => return []
  | n, key :: keys => do
    let value ← get (clock n) key
    let values ← mget clock (n+1) keys
    return value :: values

def mset : List (Bytes × Bytes) → Nat → Calls Nat
  | [], written => return written
  | (key,value) :: pairs, written => do
    if ← set key value then mset pairs (written+1) else mset pairs written

def handleGet (now : Int) (cmd : ParsedCommand) : Calls Bytes :=
  match cmd.args with
  | [key] => do return optionalResponse (← get now key)
  | _ => return errResponse "wrong number of arguments for GET"

def handleDelete (cmd : ParsedCommand) : Calls Bytes :=
  match cmd.args with
  | [key] => do return integerResponse (if ← remove key then 1 else 0)
  | _ => return errResponse "wrong number of arguments for DELETE"

def countExisting : List Bytes → Int → Calls Int
  | [], count => return count
  | key :: keys, count => do
    if ← existsKey key then countExisting keys (count+1) else countExisting keys count

def handleExists (cmd : ParsedCommand) : Calls Bytes :=
  match cmd.args with
  | [] => return errResponse "wrong number of arguments for EXISTS"
  | args => do return integerResponse (← countExisting args 0)

def handleSet (cmd : ParsedCommand) : Calls Bytes :=
  match cmd.args with
  | key :: first :: rest => do
    let _ ← set key (joinArgs first rest)
    return okResponse
  | _ => return errResponse "wrong number of arguments for SET"

def handleExpire (now : Int) (cmd : ParsedCommand) : Calls Bytes :=
  match cmd.args with
  | [key,ttl] => do
    let seconds ← .done (stoll ttl)
    return integerResponse (if ← setTtl now key seconds then 1 else 0)
  | _ => return errResponse "wrong number of arguments for EXPIRE"

def handleMget (clock : Nat → Int) (cmd : ParsedCommand) : Calls Bytes :=
  match cmd.args with
  | [] => return errResponse "wrong number of arguments for MGET"
  | args => do
    let values ← mget clock 0 args
    return bytes "*" ++ Decimal.print values.length ++ crlf ++
      values.flatMap (fun value => optionalResponse value ++ crlf)

def handleMset (cmd : ParsedCommand) : Calls Bytes :=
  if cmd.args.length < 2 ∨ cmd.args.length % 2 ≠ 0 then
    return errResponse "wrong number of arguments for MSET"
  else do
    let _ ← mset (batchPairs cmd.args) 0
    return okResponse

def handleIncr (now : Int) (cmd : ParsedCommand) : Calls Bytes :=
  match cmd.args with
  | [key] => do return integerResponse (← increment now key 1)
  | _ => return errResponse "wrong number of arguments for INCR"

def handleDecr (now : Int) (cmd : ParsedCommand) : Calls Bytes :=
  match cmd.args with
  | [key] => do return integerResponse (← decrement now key 1)
  | _ => return errResponse "wrong number of arguments for DECR"

def handleIncrby (now : Int) (cmd : ParsedCommand) : Calls Bytes :=
  match cmd.args with
  | [key,amount] => do
    let delta ← .done (stoll amount)
    return integerResponse (← increment now key delta)
  | _ => return errResponse "wrong number of arguments for INCRBY"

def handle (env : Env) (cmd : ParsedCommand) : Calls Bytes :=
  match cmd.type with
  | .ping => return bytes "+PONG"
  | .get => handleGet (env.clock 0) cmd
  | .delete => handleDelete cmd
  | .exist => handleExists cmd
  | .expire => handleExpire (env.clock 0) cmd
  | .mget => handleMget env.clock cmd
  | .mset => handleMset cmd
  | .incr => handleIncr (env.clock 0) cmd
  | .decr => handleDecr (env.clock 0) cmd
  | .incrby => handleIncrby (env.clock 0) cmd
  | .set => handleSet cmd
  | _ => handler env cmd

def dispatch (env : Env) (cmd : ParsedCommand) : Calls Bytes :=
  match cmd.type with
  | .unknown => return bytes "-ERR unknown command"
  | _ => do
    recordCommand
    handle env cmd

def handleLine (env : Env) (line : Bytes) : Calls (Option Bytes) :=
  if line = [] then return none
  else match parseLine line with
    | none => return some (bytes "-ERR empty command")
    | some cmd => do return some (← dispatch env cmd)

def session {κ : Type} : List (Server.Turn κ) → Calls (List (Option Bytes))
  | [] => return []
  | i :: is => do
    let reply ← handleLine i.env i.line
    let replies ← session is
    return reply :: replies

variable {hash : Bytes → Nat}

@[simp] theorem run_find (key : Bytes) (s : Server hash) :
    (find key).run exec s = .ok (s.storage.table.find hash key) s := rfl

@[simp] theorem run_get (now : Int) (key : Bytes) (s : Server hash) :
    (get now key).run exec s = .ok (s.storage.get now key) s := by
  unfold get isExpired StorageEngine.get StorageEngine.isExpired
  rw [run_bind,run_bind,run_find]
  cases hfound : s.storage.table.find hash key with
  | none => simp [hfound]
  | some entry =>
    cases hd : entry.expiresAt with
    | none => simp [hfound,hd]
    | some d =>
      by_cases hle : d ≤ now
      · simp [hd,hle]
      · simp [hfound,hd,hle]

@[simp] theorem run_set (key value : Bytes) (s : Server hash) :
    (set key value).run exec s =
      .ok true { s with storage := s.storage.insert key ⟨value,none⟩ } := rfl

@[simp] theorem run_existsKey (key : Bytes) (s : Server hash) :
    (existsKey key).run exec s = .ok (s.storage.existsKey key) s := rfl

@[simp] theorem run_setTtl (now : Int) (key : Bytes) (ttl : Int) (s : Server hash) :
    (setTtl now key ttl).run exec s = .ok (s.storage.setTtl now key ttl).2
      { s with storage := (s.storage.setTtl now key ttl).1 } := by
  unfold setTtl StorageEngine.setTtl
  rw [run_bind,run_find]
  cases s.storage.table.find hash key with
  | none => rfl
  | some entry => rfl

theorem run_increment (now : Int) (key : Bytes) (delta : Int) (s : Server hash) :
    (increment now key delta).run exec s =
      match CounterStore.parseValue (s.storage.get now key) with
      | .error x => .error x s
      | .ok current => .ok (wrap64 (current+delta)) { s with
          storage := s.storage.insert key ⟨CounterStore.formatValue (wrap64 (current+delta)),none⟩ } := by
  unfold increment
  rw [run_bind,run_get]
  cases hv : CounterStore.parseValue (s.storage.get now key) with
  | error x => simp [hv]
  | ok current => simp [hv]

@[simp] theorem run_mget (clock : Nat → Int) (n : Nat) (keys : List Bytes) (s : Server hash) :
    (mget clock n keys).run exec s =
      .ok ((keys.zipIdx n).map fun k => s.storage.get (clock k.2) k.1) s := by
  induction keys generalizing n with
  | nil => rfl
  | cons key keys ih => simp [mget,ih]

@[simp] theorem run_countExisting (keys : List Bytes) (count : Int) (s : Server hash) :
    (countExisting keys count).run exec s = .ok (keys.foldl
      (fun count key => if s.storage.existsKey key then count+1 else count) count) s := by
  induction keys generalizing count with
  | nil => rfl
  | cons key keys ih =>
    rw [countExisting,run_bind,run_existsKey,List.foldl_cons]
    cases s.storage.existsKey key with
    | true => exact ih _
    | false => exact ih _

def Same (s t : Server hash) : Prop := s.storage.toMap = t.storage.toMap

abbrev Agree {α : Type} (r q : EStateM.Result Raised (Server hash) α) : Prop :=
  Runs.Coupled Same Same Eq r q

theorem agree_refl {α : Type} (r : EStateM.Result Raised (Server hash) α) : Agree r r := by
  cases r with
  | ok a s => exact ⟨rfl,rfl⟩
  | error x s => exact rfl

theorem run_mset (pairs : List (Bytes × Bytes)) (written : Nat) {s t : Server hash}
    (h : Same s t) : ∃ n u, (mset pairs written).run exec s = .ok n u ∧
      u.storage.toMap = (t.storage.setAll pairs).toMap := by
  induction pairs generalizing written s t with
  | nil => exact ⟨written,s,rfl,h⟩
  | cons p pairs ih =>
    have hnext : Same { s with storage := s.storage.insert p.1 ⟨p.2,none⟩ }
        { t with storage := (t.storage.set p.1 p.2).1 } := by
      simp only [Same,StorageEngine.toMap_insert,StorageEngine.toMap_set]
      rw [h]
    obtain ⟨n,u,hrun,hu⟩ := ih (written+1) hnext
    exact ⟨n,u,hrun,hu⟩

theorem agree_counted {now delta : Int} {key : Bytes} (s : Server hash) :
    Agree ((do return integerResponse (← increment now key delta) : Calls Bytes).run exec s)
      (mapState (fun e => { s with storage := e }) (counted now key delta s.storage)) := by
  rw [run_bind,run_increment,counted]
  cases CounterStore.parseValue (s.storage.get now key) with
  | error x => exact rfl
  | ok current =>
    refine ⟨rfl,?_⟩
    simp only [Same,StorageEngine.toMap_insert,StorageEngine.toMap_set]

theorem agree_handleSet (cmd : ParsedCommand) (s : Server hash) :
    Agree ((handleSet cmd).run exec s)
      ((Server.onStorage (updating (VoltDBX.handleSet cmd))).run s) := by
  rw [Server.onStorage,run_focus,run_updating]
  unfold handleSet VoltDBX.handleSet
  obtain _ | ⟨key,_ | ⟨first,rest⟩⟩ := cmd.args
  · exact ⟨rfl,rfl⟩
  · exact ⟨rfl,rfl⟩
  · refine ⟨rfl,?_⟩
    simp only [Same,StorageEngine.toMap_set]
    exact StorageEngine.toMap_insert s.storage key ⟨joinArgs first rest,none⟩

theorem agree_handleMset (cmd : ParsedCommand) (s : Server hash) :
    Agree ((handleMset cmd).run exec s)
      ((Server.onStorage (updating (VoltDBX.handleMset cmd))).run s) := by
  rw [Server.onStorage,run_focus,run_updating]
  unfold handleMset VoltDBX.handleMset
  split
  · exact ⟨rfl,rfl⟩
  · obtain ⟨n,u,hrun,hu⟩ := run_mset (batchPairs cmd.args) 0 (rfl : Same s s)
    rw [run_bind,hrun]
    refine ⟨rfl,?_⟩
    rw [Same,hu,← BatchOperations.mset_eq_setAll]

theorem agree_handleExpire (now : Int) (cmd : ParsedCommand) (s : Server hash) :
    Agree ((handleExpire now cmd).run exec s)
      ((Server.onStorage (VoltDBX.handleExpire now cmd)).run s) := by
  rw [Server.onStorage,run_focus,run_handleExpire]
  unfold handleExpire
  obtain _ | ⟨key,_ | ⟨text,_ | ⟨arg,rest⟩⟩⟩ := cmd.args
  · exact ⟨rfl,rfl⟩
  · exact ⟨rfl,rfl⟩
  · dsimp only
    rw [run_bind]
    cases stoll text with
    | error x => exact rfl
    | ok seconds =>
      simp only [run_ok,run_bind,run_setTtl,run_pure]
      exact agree_refl _
  · exact ⟨rfl,rfl⟩

theorem run_handleGet (now : Int) (cmd : ParsedCommand) (s : Server hash) :
    (handleGet now cmd).run exec s = .ok (VoltDBX.handleGet now cmd s.storage) s := by
  unfold handleGet VoltDBX.handleGet
  obtain _ | ⟨key,_ | ⟨arg,rest⟩⟩ := cmd.args
  · rfl
  · rw [run_bind,run_get]
    rfl
  · rfl

theorem run_handleExists (cmd : ParsedCommand) (s : Server hash) :
    (handleExists cmd).run exec s = .ok (VoltDBX.handleExists cmd s.storage) s := by
  unfold handleExists VoltDBX.handleExists
  obtain _ | ⟨key,rest⟩ := cmd.args
  · rfl
  · dsimp only
    rw [run_bind,run_countExisting]
    rfl

theorem run_handleMget (clock : Nat → Int) (cmd : ParsedCommand) (s : Server hash) :
    (handleMget clock cmd).run exec s = .ok (VoltDBX.handleMget clock cmd s.storage) s := by
  unfold handleMget VoltDBX.handleMget
  obtain _ | ⟨key,rest⟩ := cmd.args
  · rfl
  · dsimp only
    rw [run_bind,run_mget]
    rfl

theorem agree_handleDelete (cmd : ParsedCommand) (s : Server hash) :
    Agree ((handleDelete cmd).run exec s)
      ((Server.onStorage (updating (VoltDBX.handleDelete cmd))).run s) := by
  rw [Server.onStorage,run_focus,run_updating]
  unfold handleDelete VoltDBX.handleDelete
  obtain _ | ⟨key,_ | ⟨arg,rest⟩⟩ := cmd.args
  · exact ⟨rfl,rfl⟩
  · exact ⟨rfl,rfl⟩
  · exact ⟨rfl,rfl⟩

theorem agree_handleIncr (now : Int) (cmd : ParsedCommand) (s : Server hash) :
    Agree ((handleIncr now cmd).run exec s)
      ((Server.onStorage (VoltDBX.handleIncr now cmd)).run s) := by
  rw [Server.onStorage,run_focus,VoltDBX.run_handleIncr]
  unfold handleIncr
  obtain _ | ⟨key,_ | ⟨arg,rest⟩⟩ := cmd.args
  · exact ⟨rfl,rfl⟩
  · exact agree_counted s
  · exact ⟨rfl,rfl⟩

theorem agree_handleDecr (now : Int) (cmd : ParsedCommand) (s : Server hash) :
    Agree ((handleDecr now cmd).run exec s)
      ((Server.onStorage (VoltDBX.handleDecr now cmd)).run s) := by
  rw [Server.onStorage,run_focus,VoltDBX.run_handleDecr]
  unfold handleDecr
  obtain _ | ⟨key,_ | ⟨arg,rest⟩⟩ := cmd.args
  · exact ⟨rfl,rfl⟩
  · exact agree_counted s
  · exact ⟨rfl,rfl⟩

theorem agree_handleIncrby (now : Int) (cmd : ParsedCommand) (s : Server hash) :
    Agree ((handleIncrby now cmd).run exec s)
      ((Server.onStorage (VoltDBX.handleIncrby now cmd)).run s) := by
  rw [Server.onStorage,run_focus,VoltDBX.run_handleIncrby]
  unfold handleIncrby
  obtain _ | ⟨key,_ | ⟨amount,_ | ⟨arg,rest⟩⟩⟩ := cmd.args
  · exact ⟨rfl,rfl⟩
  · exact ⟨rfl,rfl⟩
  · dsimp only
    rw [run_bind]
    cases stoll amount with
    | error x => exact rfl
    | ok delta => exact agree_counted s
  · exact ⟨rfl,rfl⟩

/-- A command run call by call, with nothing in between, is its handler. -/
theorem agree_handle {env : Env} {cmd : ParsedCommand} {a : Action (Server hash) Bytes}
    (ha : Server.handlers env cmd cmd.type = some a) (s : Server hash) :
    Agree ((handle env cmd).run exec s) (a.run s) := by
  have hwhole : (handler env cmd).run exec s = a.run s := by
    have hexec : (handler env cmd).run exec s =
        (Program.done (exec (.handler env cmd) s).1 : Calls Bytes).run exec
          (exec (.handler env cmd) s).2 := rfl
    rw [hexec]
    simp only [exec,ha]
    cases a.run s with
    | ok reply t => rfl
    | error x t => rfl
  unfold handle
  cases ht : cmd.type <;> rw [ht] at ha <;>
    simp only [Server.handlers,Option.some.injEq,reduceCtorEq] at ha <;> subst ha
  case ping => exact ⟨rfl,rfl⟩
  case get =>
    rw [run_handleGet]
    exact ⟨rfl,rfl⟩
  case exist =>
    rw [run_handleExists]
    exact ⟨rfl,rfl⟩
  case mget =>
    rw [run_handleMget]
    exact ⟨rfl,rfl⟩
  case set => exact agree_handleSet cmd s
  case mset => exact agree_handleMset cmd s
  case delete => exact agree_handleDelete cmd s
  case expire => exact agree_handleExpire _ cmd s
  case incr => exact agree_handleIncr _ cmd s
  case decr => exact agree_handleDecr _ cmd s
  case incrby => exact agree_handleIncrby _ cmd s
  all_goals
    rw [hwhole]
    exact agree_refl _

theorem agree_dispatch (env : Env) (cmd : ParsedCommand) (s : Server hash) :
    Agree ((dispatch env cmd).run exec s) ((Server.dispatch env cmd).run s) := by
  rw [Server.run_dispatch]
  unfold dispatch
  cases ha : Server.handlers env cmd cmd.type with
  | none =>
    have hunknown : cmd.type = .unknown := by
      cases ht : cmd.type <;> rw [ht] at ha <;> cases ha
    rw [hunknown]
    exact ⟨rfl,rfl⟩
  | some a =>
    have hagree := agree_handle ha s.recordCommand
    split
    · rename_i ht
      rw [ht] at ha
      cases ha
    · exact hagree

/-- A line run call by call, with nothing in between, is one round of the session loop. -/
theorem agree_handleLine (env : Env) (line : Bytes) (s : Server hash) :
    Agree ((handleLine env line).run exec s) ((Server.handleLine env line).run s) := by
  unfold handleLine Server.handleLine
  split
  · exact ⟨rfl,rfl⟩
  · cases parseLine line with
    | none => exact ⟨rfl,rfl⟩
    | some cmd =>
      have hcmd := agree_dispatch env cmd s
      dsimp only
      rw [run_bind,EStateM.run_bind]
      cases hc : (dispatch env cmd).run exec s with
      | ok reply t =>
        obtain ⟨reply',u,hu,rfl,hsame⟩ := hcmd.of_ok hc
        rw [hu]
        exact ⟨rfl,hsame⟩
      | error x t =>
        cases hd : (Server.dispatch env cmd).run s with
        | ok reply' u =>
          rw [hc,hd] at hcmd
          exact absurd hcmd not_false
        | error y u =>
          rw [hc,hd] at hcmd
          exact hcmd

end Calls
end VoltDBX
