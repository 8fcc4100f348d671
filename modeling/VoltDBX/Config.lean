import VoltDBX.KeyedList
import VoltDBX.Text

/-!
The small state of the server beside the store: the runtime configuration, the
password gate and the counters that INFO prints.
-/

set_option autoImplicit false

namespace VoltDBX
open KeyedList

structure ServerConfig where
  host : Bytes := bytes "127.0.0.1"
  port : Nat := 6379
  maxClients : Nat := 1024
  dataDir : Bytes := bytes "./data"
  snapshotIntervalSec : Nat := 300
  requirepass : Bytes := []
  deriving DecidableEq, Repr

structure RuntimeConfig where
  defaults : ServerConfig
  overrides : List (Bytes × Bytes)
  deriving DecidableEq, Repr

namespace RuntimeConfig

def create (defaults : ServerConfig) : RuntimeConfig := ⟨defaults,[]⟩

def default (r : RuntimeConfig) (key : Bytes) : Option Bytes :=
  if key = bytes "host" then some r.defaults.host
  else if key = bytes "port" then some (Decimal.print r.defaults.port)
  else if key = bytes "max_clients" then some (Decimal.print r.defaults.maxClients)
  else if key = bytes "data_dir" then some r.defaults.dataDir
  else if key = bytes "snapshot_interval_sec" then
    some (Decimal.print r.defaults.snapshotIntervalSec)
  else if key = bytes "requirepass" then some r.defaults.requirepass
  else none

def get (r : RuntimeConfig) (key : Bytes) : Option Bytes :=
  match find key r.overrides with
  | some value => some value
  | none => r.default key

def set (r : RuntimeConfig) (key value : Bytes) : RuntimeConfig × Bool :=
  if key = bytes "requirepass" ∨ key = bytes "data_dir" ∨ key = bytes "host" then
    (⟨r.defaults,assign key value r.overrides⟩,true)
  else if key = bytes "max_clients" ∨ key = bytes "port" ∨
      key = bytes "snapshot_interval_sec" then
    (⟨r.defaults,assign key value r.overrides⟩,true)
  else (r,false)

def dumpLine (r : RuntimeConfig) (key : String) : Bytes :=
  bytes key ++ bytes "=" ++ (r.get (bytes key)).getD [] ++ [lf]

/-- The keys printed all have a value, so no `*get(...)` is empty. -/
def dump (r : RuntimeConfig) : Bytes :=
  r.dumpLine "host" ++ r.dumpLine "port" ++ r.dumpLine "max_clients" ++
    r.dumpLine "data_dir" ++ r.dumpLine "snapshot_interval_sec" ++ r.dumpLine "requirepass"

end RuntimeConfig

structure AuthGate where
  password : Bytes
  deriving DecidableEq, Repr

namespace AuthGate

def enabled (g : AuthGate) : Bool := !g.password.isEmpty

def authenticate (g : AuthGate) (password : Bytes) : Bool :=
  if !g.enabled then true else decide (g.password = password)

end AuthGate

/-- `commands_per_sec_` is left out: only `tick_throughput` sets it, which has no
caller, so it prints as its initial 0. -/
structure MetricsCollector where
  commands : Nat
  windowCommands : Nat
  activeClients : Nat
  keysStored : Nat
  memoryBytes : Nat
  deriving DecidableEq, Repr

namespace MetricsCollector

def create : MetricsCollector := ⟨0,0,0,0,0⟩

def recordCommand (m : MetricsCollector) : MetricsCollector :=
  { m with commands := m.commands+1, windowCommands := m.windowCommands+1 }

def setKeysStored (m : MetricsCollector) (count : Nat) : MetricsCollector :=
  { m with keysStored := count }

def infoLine (name : String) (value : Nat) : Bytes :=
  bytes name ++ Decimal.print value ++ [lf]

def renderInfo (m : MetricsCollector) : Bytes :=
  bytes "+INFO voltdbx" ++ [lf] ++ infoLine "memory_bytes:" m.memoryBytes ++
    infoLine "active_clients:" m.activeClients ++
    infoLine "commands_processed:" m.commands ++
    infoLine "keys_stored:" m.keysStored ++ infoLine "commands_per_sec:" 0

end MetricsCollector
end VoltDBX
