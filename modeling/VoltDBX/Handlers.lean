import VoltDBX.AofLog
import VoltDBX.Config
import VoltDBX.KeyScanner
import VoltDBX.Parser
import VoltDBX.PubSub

/-!
Replies, protocol/response.cpp, and the handlers behind the commands:
protocol/batch_handler.cpp, counter_handler.cpp, scan_handler.cpp, auth_handler.cpp,
config_handler.cpp, flush_handler.cpp, aof_handler.cpp and the lambdas of
dispatcher.cpp. A handler that only reads gives its reply, one that writes gives
the state it leaves as well, and one that converts numbers is an action.
-/

set_option autoImplicit false

namespace VoltDBX

def okResponse : Bytes := bytes "+OK"

def errResponse (message : String) : Bytes := bytes "-ERR " ++ bytes message

def integerResponse (v : Int) : Bytes := bytes ":" ++ Decimal.printInt v

def bulkStringResponse (value : Bytes) : Bytes :=
  bytes "$" ++ Decimal.print value.length ++ crlf ++ value

def nullBulkResponse : Bytes := bytes "$-1"

def optionalResponse : Option Bytes → Bytes
  | none => nullBulkResponse
  | some value => bulkStringResponse value

def joinArgs (first : Bytes) (rest : List Bytes) : Bytes :=
  rest.foldl (fun text arg => text ++ [space] ++ arg) first

section
variable {hash : Bytes → Nat}

def handleGet (now : Int) (cmd : ParsedCommand) (storage : StorageEngine hash) : Bytes :=
  match cmd.args with
  | [key] => optionalResponse (storage.get now key)
  | _ => errResponse "wrong number of arguments for GET"

def handleDelete (cmd : ParsedCommand) (storage : StorageEngine hash) :
    StorageEngine hash × Bytes :=
  match cmd.args with
  | [key] => ((storage.remove key).1,integerResponse (if (storage.remove key).2 then 1 else 0))
  | _ => (storage,errResponse "wrong number of arguments for DELETE")

def handleExists (cmd : ParsedCommand) (storage : StorageEngine hash) : Bytes :=
  match cmd.args with
  | [] => errResponse "wrong number of arguments for EXISTS"
  | args => integerResponse
      (args.foldl (fun count key => if storage.existsKey key then count+1 else count) 0)

def handleSet (cmd : ParsedCommand) (storage : StorageEngine hash) :
    StorageEngine hash × Bytes :=
  match cmd.args with
  | key :: first :: rest => ((storage.set key (joinArgs first rest)).1,okResponse)
  | _ => (storage,errResponse "wrong number of arguments for SET")

def handleExpire (now : Int) (cmd : ParsedCommand) : Action (StorageEngine hash) Bytes :=
  match cmd.args with
  | [key,ttl] => do
    let seconds ← convert (stoll ttl)
    let storage ← get
    set (storage.setTtl now key seconds).1
    return integerResponse (if (storage.setTtl now key seconds).2 then 1 else 0)
  | _ => pure (errResponse "wrong number of arguments for EXPIRE")

theorem run_handleExpire (now : Int) (cmd : ParsedCommand) (storage : StorageEngine hash) :
    (handleExpire now cmd).run storage =
      match cmd.args with
      | [key,ttl] =>
        match stoll ttl with
        | .error x => .error x storage
        | .ok seconds =>
          .ok (integerResponse (if (storage.setTtl now key seconds).2 then 1 else 0))
            (storage.setTtl now key seconds).1
      | _ => .ok (errResponse "wrong number of arguments for EXPIRE") storage := by
  unfold handleExpire
  split
  · rename_i key ttl _
    cases hc : stoll ttl with
    | error x => rfl
    | ok seconds => rfl
  · rfl

def handleMget (clock : Nat → Int) (cmd : ParsedCommand) (storage : StorageEngine hash) :
    Bytes :=
  match cmd.args with
  | [] => errResponse "wrong number of arguments for MGET"
  | args =>
    let values := BatchOperations.mget storage clock args
    bytes "*" ++ Decimal.print values.length ++ crlf ++
      values.flatMap (fun value => optionalResponse value ++ crlf)

def batchPairs : List Bytes → List (Bytes × Bytes)
  | key :: value :: rest => (key,value) :: batchPairs rest
  | _ => []

theorem batchPairs_flatMap (pairs : List (Bytes × Bytes)) :
    batchPairs (pairs.flatMap fun p => [p.1,p.2]) = pairs := by
  induction pairs with
  | nil => rfl
  | cons p pairs ih => exact congrArg ((p.1,p.2) :: ·) ih

theorem flatMap_batchPairs {args : List Bytes} (heven : args.length % 2 = 0) :
    ((batchPairs args).flatMap fun p => [p.1,p.2]) = args := by
  fun_induction batchPairs args with
  | case1 key value rest ih =>
    have hrest : rest.length % 2 = 0 := by
      simp only [List.length_cons] at heven
      omega
    exact congrArg (fun l => key :: value :: l) (ih hrest)
  | case2 args hshort =>
    match args, hshort with
    | [], _ => rfl
    | [arg], _ => simp at heven
    | key :: value :: rest, hshort => exact absurd rfl (hshort key value rest)

/-- The pairs of a full MSET are the one way to read its arguments as a key and a value, a key
and a value, and so on. -/
theorem batchPairs_eq_iff {args : List Bytes} (heven : args.length % 2 = 0)
    {pairs : List (Bytes × Bytes)} :
    batchPairs args = pairs ↔ args = pairs.flatMap fun p => [p.1,p.2] := by
  constructor
  · rintro rfl
    exact (flatMap_batchPairs heven).symm
  · rintro rfl
    exact batchPairs_flatMap pairs

def handleMset (cmd : ParsedCommand) (storage : StorageEngine hash) :
    StorageEngine hash × Bytes :=
  if cmd.args.length < 2 ∨ cmd.args.length % 2 ≠ 0 then
    (storage,errResponse "wrong number of arguments for MSET")
  else ((BatchOperations.mset storage (batchPairs cmd.args)).1,okResponse)

def handleIncr (now : Int) (cmd : ParsedCommand) : Action (StorageEngine hash) Bytes :=
  match cmd.args with
  | [key] => do return integerResponse (← CounterStore.increment now key 1)
  | _ => pure (errResponse "wrong number of arguments for INCR")

def handleDecr (now : Int) (cmd : ParsedCommand) : Action (StorageEngine hash) Bytes :=
  match cmd.args with
  | [key] => do return integerResponse (← CounterStore.decrement now key 1)
  | _ => pure (errResponse "wrong number of arguments for DECR")

def handleIncrby (now : Int) (cmd : ParsedCommand) : Action (StorageEngine hash) Bytes :=
  match cmd.args with
  | [key,amount] => do
    let delta ← convert (stoll amount)
    return integerResponse (← CounterStore.increment now key delta)
  | _ => pure (errResponse "wrong number of arguments for INCRBY")

/-- What the three counter commands come to: the stored text does not convert and
nothing happens, or the sum is stored and returned. -/
def counted (now : Int) (key : Bytes) (delta : Int) (storage : StorageEngine hash) :
    EStateM.Result Raised (StorageEngine hash) Bytes :=
  match CounterStore.parseValue (storage.get now key) with
  | .error x => .error x storage
  | .ok current => .ok (integerResponse (wrap64 (current+delta)))
      (storage.set key (CounterStore.formatValue (wrap64 (current+delta)))).1

theorem run_increment (now : Int) (key : Bytes) (delta : Int) (storage : StorageEngine hash) :
    (do return integerResponse (← CounterStore.increment now key delta) :
      Action (StorageEngine hash) Bytes).run storage = counted now key delta storage := by
  simp only [EStateM.run_bind,CounterStore.increment_run,counted]
  cases CounterStore.parseValue (storage.get now key) with
  | error x => rfl
  | ok current => rfl

theorem run_handleIncr (now : Int) (cmd : ParsedCommand) (storage : StorageEngine hash) :
    (handleIncr now cmd).run storage =
      match cmd.args with
      | [key] => counted now key 1 storage
      | _ => .ok (errResponse "wrong number of arguments for INCR") storage := by
  unfold handleIncr
  split
  · exact run_increment now _ 1 storage
  · rfl

theorem run_handleDecr (now : Int) (cmd : ParsedCommand) (storage : StorageEngine hash) :
    (handleDecr now cmd).run storage =
      match cmd.args with
      | [key] => counted now key (-1) storage
      | _ => .ok (errResponse "wrong number of arguments for DECR") storage := by
  have hneg : wrap64 (-1) = -1 := by decide
  unfold handleDecr
  split
  · simp only [CounterStore.decrement,hneg]
    exact run_increment now _ (-1) storage
  · rfl

theorem run_handleIncrby (now : Int) (cmd : ParsedCommand) (storage : StorageEngine hash) :
    (handleIncrby now cmd).run storage =
      match cmd.args with
      | [key,amount] =>
        match stoll amount with
        | .error x => .error x storage
        | .ok delta => counted now key delta storage
      | _ => .ok (errResponse "wrong number of arguments for INCRBY") storage := by
  unfold handleIncrby
  split
  · rename_i key amount _
    cases hc : stoll amount with
    | error x => rfl
    | ok delta => exact run_increment now key delta storage
  · rfl

abbrev colon : UInt8 := 58

def notColon (c : UInt8) : Bool := decide (c ≠ colon)

def decodeScanCursor (token : Bytes) : Except Raised ScanCursor :=
  if token = [] ∨ token = bytes "0" then .ok ⟨0,0⟩
  else match token.dropWhile notColon with
    | [] => do return ⟨← stoull token,0⟩
    | _ :: chain => do return ⟨← stoull (token.takeWhile notColon),← stoull chain⟩

def encodeScanCursor (cursor : ScanCursor) : Bytes :=
  if cursor.bucket = 0 ∧ cursor.chain = 0 then bytes "0"
  else Decimal.print cursor.bucket ++ bytes ":" ++ Decimal.print cursor.chain

/-- The loop over the options, with the count and the pattern found so far. -/
def scanOptions : List Bytes → Nat → Bytes → Except Raised (Nat × Bytes)
  | [], count, pattern => .ok (count,pattern)
  | [_], count, pattern => .ok (count,pattern)
  | option :: arg :: rest, count, pattern =>
    if option = bytes "COUNT" then do scanOptions rest (← stoull arg) pattern
    else if option = bytes "MATCH" then scanOptions rest count arg
    else scanOptions (arg :: rest) count pattern

def scanResponse (next : Bytes) (keys : List Bytes) : Bytes :=
  bytes "*2" ++ crlf ++ bulkStringResponse next ++ crlf ++ bytes "*" ++
    Decimal.print keys.length ++ crlf ++ keys.flatMap (fun key => bulkStringResponse key ++ crlf)

def scanToken (page : ScanPage) : Bytes :=
  if page.finished then bytes "0" else encodeScanCursor page.next

def handleScan (cmd : ParsedCommand) (storage : StorageEngine hash) : Except Raised Bytes :=
  match cmd.args with
  | [] => .ok (errResponse "wrong number of arguments for SCAN")
  | token :: options => do
    let cursor ← decodeScanCursor token
    let (count,pattern) ← scanOptions options 10 (bytes "*")
    let page := KeyScanner.scan storage.table cursor count pattern
    return scanResponse (scanToken page) page.keys

def handleFlushdb (storage : StorageEngine hash) : StorageEngine hash × Bytes :=
  (storage.clearAll,okResponse)

def handleDbsize (storage : StorageEngine hash) : Bytes := integerResponse storage.entryCount

def handleBgrewriteaof (outcome : RewriteOutcome) (aof : AofLog) (storage : StorageEngine hash) :
    AofLog × Bytes :=
  let result := aof.rewriteFrom outcome storage
  if result.2 then (result.1,bytes "+OK rewritten bytes_before=" ++
    Decimal.print aof.bytesOnDisk ++ bytes " bytes_after=" ++ Decimal.print result.1.bytesOnDisk)
  else (result.1,errResponse "aof rewrite failed")

end

def handleSubscribe (cmd : ParsedCommand) (broker : PubSubBroker) : PubSubBroker × Bytes :=
  match cmd.args with
  | [channel] => (broker.registerSubscriber 1 channel,
      okResponse ++ bytes " subscribed " ++ channel)
  | _ => (broker,errResponse "wrong number of arguments for SUBSCRIBE")

def handlePublish (cmd : ParsedCommand) (broker : PubSubBroker) : PubSubBroker × Bytes :=
  match cmd.args with
  | channel :: first :: rest => ((broker.publish channel (joinArgs first rest)).1,
      integerResponse (broker.publish channel (joinArgs first rest)).2)
  | _ => (broker,errResponse "wrong number of arguments for PUBLISH")

def handleAuth (cmd : ParsedCommand) (gate : AuthGate) : Bytes :=
  match cmd.args with
  | [password] =>
    if gate.authenticate password then okResponse else errResponse "invalid password"
  | _ => errResponse "wrong number of arguments for AUTH"

def handleConfig (cmd : ParsedCommand) (runtime : RuntimeConfig) : RuntimeConfig × Bytes :=
  match cmd.args with
  | [] => (runtime,bulkStringResponse runtime.dump)
  | [sub,key] =>
    if sub = bytes "GET" then
      match runtime.get key with
      | none => (runtime,errResponse "unknown config key")
      | some value => (runtime,bulkStringResponse value)
    else (runtime,errResponse "unsupported CONFIG subcommand")
  | [sub,key,value] =>
    if sub = bytes "SET" then
      if (runtime.set key value).2 then ((runtime.set key value).1,okResponse)
      else ((runtime.set key value).1,errResponse "unsupported config key")
    else (runtime,errResponse "unsupported CONFIG subcommand")
  | _ => (runtime,errResponse "unsupported CONFIG subcommand")

end VoltDBX
