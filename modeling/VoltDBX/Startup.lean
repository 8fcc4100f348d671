import VoltDBX.ServerProcess

/-!
From the environment and the command line to the running server: config.cpp and the loop of
main.cpp.
-/

set_option autoImplicit false

namespace VoltDBX

/-- `std::atoi`, which is undefined beyond the range of an `int`. -/
def atoi (text : Bytes) : Option Int :=
  let v := signed (numeral text).1 (Decimal.value (numeral text).2)
  if -2^31 ≤ v ∧ v < 2^31 then some v else none

def atol (text : Bytes) : Option Int :=
  let v := signed (numeral text).1 (Decimal.value (numeral text).2)
  if InInt64 v then some v else none

def castUnsigned (width : Nat) (v : Int) : Nat := (v % 2^width).toNat

namespace Startup

def envOr (getenv : Bytes → Option Bytes) (key fallback : Bytes) : Bytes :=
  match getenv key with
  | none => fallback
  | some v => if v = [] then fallback else v

def numberOr (convert : Bytes → Option Int) (width : Nat) (text : Option Bytes) (fallback : Nat) :
    Option Nat :=
  match text with
  | none => some fallback
  | some text => (convert text).map (castUnsigned width)

def loadConfigFromEnv (getenv : Bytes → Option Bytes) : Option ServerConfig := do
  let cfg : ServerConfig := {}
  let port ← numberOr atoi 16 (getenv (bytes "VOLTDBX_PORT")) cfg.port
  let maxClients ← numberOr atol 64 (getenv (bytes "VOLTDBX_MAX_CLIENTS")) cfg.maxClients
  let snap ←
    numberOr atoi 32 (getenv (bytes "VOLTDBX_SNAPSHOT_INTERVAL_SEC")) cfg.snapshotIntervalSec
  return {
    host := envOr getenv (bytes "VOLTDBX_HOST") cfg.host
    port := port
    maxClients := maxClients
    dataDir := envOr getenv (bytes "VOLTDBX_DATA_DIR") cfg.dataDir
    snapshotIntervalSec := snap
    requirepass := envOr getenv (bytes "VOLTDBX_REQUIREPASS") [] }

inductive Outcome where
  | health
  | help
  | run (config : ServerConfig)
  deriving DecidableEq, Repr

/-- The loop over `argv`. An option that is the last word has no value and is passed over, as
is any word that is no option. -/
def arguments : List Bytes → ServerConfig → Option Outcome
  | [], cfg => some (.run cfg)
  | [arg], cfg =>
    if arg = bytes "--health" then some .health
    else if arg = bytes "--help" then some .help
    else some (.run cfg)
  | arg :: value :: rest, cfg =>
    if arg = bytes "--health" then some .health
    else if arg = bytes "--help" then some .help
    else if arg = bytes "--host" then arguments rest { cfg with host := value }
    else if arg = bytes "--port" then
      (atoi value).bind fun v => arguments rest { cfg with port := castUnsigned 16 v }
    else if arg = bytes "--data-dir" then arguments rest { cfg with dataDir := value }
    else if arg = bytes "--max-clients" then
      (atol value).bind fun v => arguments rest { cfg with maxClients := castUnsigned 64 v }
    else arguments (value :: rest) cfg

/-- Nothing where a conversion is undefined. -/
def main (getenv : Bytes → Option Bytes) (argv : List Bytes) : Option Outcome :=
  (loadConfigFromEnv getenv).bind (arguments argv)

/-- An option with its value, or a word that is passed over. -/
inductive Item where
  | host (text : Bytes)
  | port (text : Bytes)
  | dataDir (text : Bytes)
  | maxClients (text : Bytes)
  | word (text : Bytes)
  deriving DecidableEq, Repr

def options : List Bytes :=
  [bytes "--host",bytes "--port",bytes "--data-dir",bytes "--max-clients"]

def flags : List Bytes := [bytes "--health",bytes "--help"]

namespace Item

def words : Item → List Bytes
  | host text => [bytes "--host",text]
  | port text => [bytes "--port",text]
  | dataDir text => [bytes "--data-dir",text]
  | maxClients text => [bytes "--max-clients",text]
  | word text => [text]

def Valid : Item → Prop
  | word text => text ∉ options ∧ text ∉ flags
  | _ => True

def Converts : Item → Prop
  | port text => (atoi text).isSome = true
  | maxClients text => (atol text).isSome = true
  | _ => True

instance : (i : Item) → Decidable i.Valid
  | word text => inferInstanceAs (Decidable (text ∉ options ∧ text ∉ flags))
  | host _ | port _ | dataDir _ | maxClients _ => .isTrue trivial

instance : (i : Item) → Decidable i.Converts
  | port text => inferInstanceAs (Decidable ((atoi text).isSome = true))
  | maxClients text => inferInstanceAs (Decidable ((atol text).isSome = true))
  | host _ | dataDir _ | word _ => .isTrue trivial

def apply (cfg : ServerConfig) : Item → Option ServerConfig
  | host text => some { cfg with host := text }
  | port text => (atoi text).map fun v => { cfg with port := castUnsigned 16 v }
  | dataDir text => some { cfg with dataDir := text }
  | maxClients text => (atol text).map fun v => { cfg with maxClients := castUnsigned 64 v }
  | word _ => some cfg

def sets : Item → Option (Bytes × Bytes)
  | host text => some (bytes "host",text)
  | port text => (atoi text).map fun v => (bytes "port",Decimal.print (castUnsigned 16 v))
  | dataDir text => some (bytes "data_dir",text)
  | maxClients text =>
    (atol text).map fun v => (bytes "max_clients",Decimal.print (castUnsigned 64 v))
  | word _ => none

/-- The texts by key, with that of the item in the place of an earlier one. -/
def overlay (shown : Bytes → Option Bytes) (i : Item) : Bytes → Option Bytes :=
  match i.sets with
  | none => shown
  | some p => Function.update shown p.1 (some p.2)

end Item

/-- What is left of a command line behind its items: nothing, an option without a value, or
one of the two words that end the program. -/
inductive Tail : List Bytes → Prop where
  | done : Tail []
  | dangling {option : Bytes} (h : option ∈ options) : Tail [option]
  | flag {word : Bytes} (h : word ∈ flags) (rest : List Bytes) : Tail (word :: rest)

theorem arguments_word {word : Bytes} (h : (Item.word word).Valid) (rest : List Bytes)
    (cfg : ServerConfig) : arguments (word :: rest) cfg = arguments rest cfg := by
  obtain ⟨hoption,hflag⟩ := h
  simp only [options,flags,List.mem_cons,List.not_mem_nil,or_false,not_or] at hoption hflag
  cases rest with
  | nil => simp only [arguments,if_neg hflag.1,if_neg hflag.2]
  | cons value rest =>
    rw [arguments,if_neg hflag.1,if_neg hflag.2,if_neg hoption.1,if_neg hoption.2.1,
      if_neg hoption.2.2.1,if_neg hoption.2.2.2]

theorem arguments_item {i : Item} (hvalid : i.Valid) (rest : List Bytes) (cfg : ServerConfig) :
    arguments (i.words ++ rest) cfg = (i.apply cfg).bind (arguments rest) := by
  cases i with
  | host text => rfl
  | port text =>
    change (atoi text).bind _ = ((atoi text).map _).bind _
    rw [Option.bind_map]
    rfl
  | dataDir text => rfl
  | maxClients text =>
    change (atol text).bind _ = ((atol text).map _).bind _
    rw [Option.bind_map]
    rfl
  | word text => exact arguments_word hvalid rest cfg

theorem arguments_items {items : List Item} (hvalid : ∀ i ∈ items, i.Valid) (tail : List Bytes)
    (cfg : ServerConfig) : arguments (items.flatMap Item.words ++ tail) cfg =
      (items.foldlM Item.apply cfg).bind (arguments tail) := by
  induction items generalizing cfg with
  | nil => rfl
  | cons i items ih =>
    rw [List.flatMap_cons,List.append_assoc,arguments_item (hvalid i (by simp)),List.foldlM_cons]
    cases i.apply cfg with
    | none => rfl
    | some next => exact ih (fun j hj => hvalid j (by simp [hj])) next

theorem exists_item {option : Bytes} (h : option ∈ options) (value : Bytes) :
    ∃ i : Item, i.words = [option,value] ∧ i.Valid := by
  simp only [options,List.mem_cons,List.not_mem_nil,or_false] at h
  rcases h with rfl | rfl | rfl | rfl
  · exact ⟨.host value,rfl,trivial⟩
  · exact ⟨.port value,rfl,trivial⟩
  · exact ⟨.dataDir value,rfl,trivial⟩
  · exact ⟨.maxClients value,rfl,trivial⟩

theorem exists_items : ∀ argv : List Bytes, ∃ (items : List Item) (tail : List Bytes),
    argv = items.flatMap Item.words ++ tail ∧ (∀ i ∈ items, i.Valid) ∧ Tail tail
  | [] => ⟨[],[],rfl,by simp,.done⟩
  | [arg] => by
    by_cases hflag : arg ∈ flags
    · exact ⟨[],[arg],rfl,by simp,.flag hflag []⟩
    · by_cases hoption : arg ∈ options
      · exact ⟨[],[arg],rfl,by simp,.dangling hoption⟩
      · refine ⟨[.word arg],[],rfl,fun i hi => ?_,.done⟩
        cases List.mem_singleton.mp hi
        exact ⟨hoption,hflag⟩
  | arg :: value :: rest => by
    by_cases hflag : arg ∈ flags
    · exact ⟨[],arg :: value :: rest,rfl,by simp,.flag hflag _⟩
    · by_cases hoption : arg ∈ options
      · obtain ⟨i,hwords,hi⟩ := exists_item hoption value
        obtain ⟨items,tail,hrest,hvalid,htail⟩ := exists_items rest
        refine ⟨i :: items,tail,?_,List.forall_mem_cons.mpr ⟨hi,hvalid⟩,htail⟩
        rw [List.flatMap_cons,hwords,hrest]
        rfl
      · obtain ⟨items,tail,hrest,hvalid,htail⟩ := exists_items (value :: rest)
        refine ⟨.word arg :: items,tail,?_,List.forall_mem_cons.mpr ⟨⟨hoption,hflag⟩,hvalid⟩,htail⟩
        rw [List.flatMap_cons,hrest]
        rfl

def shown (cfg : ServerConfig) : Bytes → Option Bytes := (RuntimeConfig.create cfg).get

theorem shown_eq (cfg : ServerConfig) (key : Bytes) :
    shown cfg key = (RuntimeConfig.create cfg).default key := rfl

theorem shown_apply {i : Item} {cfg next : ServerConfig} (h : i.apply cfg = some next) :
    shown next = i.overlay (shown cfg) := by
  have hport : bytes "port" ≠ bytes "host" := by decide
  have hmax : bytes "max_clients" ≠ bytes "host" ∧ bytes "max_clients" ≠ bytes "port" := by decide
  have hdir : bytes "data_dir" ≠ bytes "host" ∧ bytes "data_dir" ≠ bytes "port" ∧
      bytes "data_dir" ≠ bytes "max_clients" := by decide
  cases i with
  | word text =>
    cases h
    rfl
  | host text =>
    cases h
    funext key
    by_cases hkey : key = bytes "host"
    · simp [Item.overlay,Item.sets,shown_eq,RuntimeConfig.default,RuntimeConfig.create,hkey]
    · simp [Item.overlay,Item.sets,shown_eq,RuntimeConfig.default,RuntimeConfig.create,hkey]
  | port text =>
    obtain ⟨v,hv,rfl⟩ := Option.map_eq_some_iff.mp h
    funext key
    simp only [Item.overlay,Item.sets,hv,Option.map_some]
    by_cases hkey : key = bytes "port"
    · simp [shown_eq,RuntimeConfig.default,RuntimeConfig.create,hkey,hport]
    · simp [shown_eq,RuntimeConfig.default,RuntimeConfig.create,hkey]
  | dataDir text =>
    cases h
    funext key
    by_cases hkey : key = bytes "data_dir"
    · simp [Item.overlay,Item.sets,shown_eq,RuntimeConfig.default,RuntimeConfig.create,hkey,hdir]
    · simp [Item.overlay,Item.sets,shown_eq,RuntimeConfig.default,RuntimeConfig.create,hkey]
  | maxClients text =>
    obtain ⟨v,hv,rfl⟩ := Option.map_eq_some_iff.mp h
    funext key
    simp only [Item.overlay,Item.sets,hv,Option.map_some]
    by_cases hkey : key = bytes "max_clients"
    · simp [shown_eq,RuntimeConfig.default,RuntimeConfig.create,hkey,hmax]
    · simp [shown_eq,RuntimeConfig.default,RuntimeConfig.create,hkey]

theorem exists_applied {items : List Item} (hconverts : ∀ i ∈ items, i.Converts)
    (cfg : ServerConfig) : ∃ last, items.foldlM Item.apply cfg = some last ∧
      shown last = items.foldl Item.overlay (shown cfg) := by
  induction items generalizing cfg with
  | nil => exact ⟨cfg,rfl,rfl⟩
  | cons i items ih =>
    obtain ⟨next,hnext⟩ : ∃ next, i.apply cfg = some next := by
      have hi := hconverts i (by simp)
      cases i with
      | port text =>
        obtain ⟨v,hv⟩ := Option.isSome_iff_exists.mp hi
        exact ⟨_,Option.map_eq_some_iff.mpr ⟨v,hv,rfl⟩⟩
      | maxClients text =>
        obtain ⟨v,hv⟩ := Option.isSome_iff_exists.mp hi
        exact ⟨_,Option.map_eq_some_iff.mpr ⟨v,hv,rfl⟩⟩
      | host text => exact ⟨_,rfl⟩
      | dataDir text => exact ⟨_,rfl⟩
      | word text => exact ⟨_,rfl⟩
    obtain ⟨last,hlast,hshown⟩ := ih (fun j hj => hconverts j (by simp [hj])) next
    refine ⟨last,?_,?_⟩
    · rw [List.foldlM_cons,hnext]
      exact hlast
    · rw [List.foldl_cons,← shown_apply hnext,hshown]

theorem arguments_tail {tail : List Bytes} (h : Tail tail) (cfg : ServerConfig) :
    arguments tail cfg =
      if tail.head? = some (bytes "--health") then some .health
      else if tail.head? = some (bytes "--help") then some .help
      else some (.run cfg) := by
  cases h with
  | done => rfl
  | dangling hoption =>
    simp only [options,List.mem_cons,List.not_mem_nil,or_false] at hoption
    rcases hoption with rfl | rfl | rfl | rfl <;> rfl
  | flag hflag rest =>
    rcases List.mem_pair.mp hflag with rfl | rfl
    · cases rest with
      | nil => rfl
      | cons value rest => rfl
    · cases rest with
      | nil => rfl
      | cons value rest => rfl

def configReply : Option Bytes → Bytes
  | none => errResponse "unknown config key"
  | some value => bulkStringResponse value

theorem dispatch_configGet {hash : Bytes → Nat} (env : Env) (name key : Bytes) (s : Server hash) :
    ∃ t, (Server.dispatch env ⟨.config,name,[bytes "GET",key]⟩).run s =
      .ok (configReply (s.runtime.get key)) t := by
  have hreply : (handleConfig ⟨.config,name,[bytes "GET",key]⟩ s.runtime).2 =
      configReply (s.runtime.get key) := by
    simp only [handleConfig,if_true]
    cases s.runtime.get key with
    | none => rfl
    | some value => rfl
  rw [Server.run_dispatch,← hreply]
  exact ⟨_,rfl⟩

/-- Every command line is a list of options with their values and of words that are passed
over, up to its end, an option that has no value, or one of the two words that end the program.
Where its numbers are in the range of their conversion, the server that `main` starts shows for
each key what the last option for it said, and where there is none what the environment or the
default says; the client limit it shows is the number its connection pool is given. -/
theorem command_line_is_shown {getenv : Bytes → Option Bytes} {base : ServerConfig}
    (hbase : loadConfigFromEnv getenv = some base) (argv : List Bytes) :
    (∃ (items : List Item) (tail : List Bytes),
      argv = items.flatMap Item.words ++ tail ∧ (∀ i ∈ items, i.Valid) ∧ Tail tail) ∧
    ∀ (items : List Item) (tail : List Bytes), argv = items.flatMap Item.words ++ tail →
      (∀ i ∈ items, i.Valid ∧ i.Converts) → Tail tail →
      (tail.head? = some (bytes "--health") → main getenv argv = some .health) ∧
      (tail.head? = some (bytes "--help") → main getenv argv = some .help) ∧
      ((∀ word ∈ flags, tail.head? ≠ some word) → ∃ cfg, main getenv argv = some (.run cfg) ∧
        ∀ (hash : Bytes → Nat) (dir : DataDir),
          (∀ env name key, ∃ t, (Server.dispatch env ⟨.config,name,[bytes "GET",key]⟩).run
              (ServerProcess.boot hash cfg dir).server =
            .ok (configReply (items.foldl Item.overlay (shown base) key)) t) ∧
          items.foldl Item.overlay (shown base) (bytes "max_clients") =
            some (Decimal.print (ServerProcess.boot hash cfg dir).connections.maxConnections)) := by
  refine ⟨exists_items argv,fun items tail hargv hitems htail => ?_⟩
  obtain ⟨last,hlast,hshown⟩ := exists_applied (fun i hi => (hitems i hi).2) base
  have hmain : main getenv argv = arguments tail last := by
    rw [main,hbase,hargv]
    exact (arguments_items (fun i hi => (hitems i hi).1) tail base).trans (by rw [hlast]; rfl)
  rw [hmain,arguments_tail htail]
  refine ⟨fun hhealth => if_pos hhealth,fun hhelp => ?_,fun hnone => ?_⟩
  · rw [if_neg (by rw [hhelp]; decide),if_pos hhelp]
  · rw [if_neg (hnone _ (by simp [flags])),if_neg (hnone _ (by simp [flags]))]
    refine ⟨last,rfl,fun hash dir => ⟨fun env name key => ?_,?_⟩⟩
    · rw [← hshown]
      exact dispatch_configGet env name key (ServerProcess.boot hash last dir).server
    · rw [← hshown]
      rfl

/-- A port beyond 65535, a host that reads like a flag, a word that means nothing and an
option without a value. -/
theorem command_line_is_shown_example :
    ∃ cfg, main (fun _ => none) [bytes "--port",bytes "70000",bytes "--host",bytes "--health",
        bytes "now",bytes "--port"] = some (.run cfg) ∧
      ∀ env name, ∃ t, (Server.dispatch env ⟨.config,name,[bytes "GET",bytes "port"]⟩).run
          (ServerProcess.boot (fun _ => 0) cfg ⟨none,none⟩).server =
        .ok (bulkStringResponse (bytes "4464")) t := by
  have hbase : loadConfigFromEnv (fun _ => none) = some {} := rfl
  have hitems : ∀ i ∈ [Item.port (bytes "70000"),.host (bytes "--health"),.word (bytes "now")],
      i.Valid ∧ i.Converts := by decide
  have htail : Tail [bytes "--port"] := .dangling (by decide)
  obtain ⟨cfg,hcfg,hshows⟩ := ((command_line_is_shown hbase _).2 _ _ rfl hitems htail).2.2 (by decide)
  refine ⟨cfg,hcfg,fun env name => ?_⟩
  obtain ⟨t,ht⟩ := (hshows (fun _ => 0) ⟨none,none⟩).1 env name (bytes "port")
  exact ⟨t,ht⟩

end Startup
end VoltDBX
