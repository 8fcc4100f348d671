import VoltDBX.Dispatcher

/-!
What a session can reach without a password. `AuthGate` answers AUTH and nothing else
asks it, and no session ever has a `SessionAuth`, so only the lines that touch neither
data nor password are kept away from both.
-/

set_option autoImplicit false

namespace VoltDBX

section
variable {σ τ : Type}

/-- The state is left as it is and the outcome is the same in every state. -/
def Oblivious (a : Action σ Bytes) : Prop :=
  ∃ r : Except Raised Bytes, ∀ s, a.run s = (convert r).run s

theorem oblivious_reading {f : σ → Bytes} (reply : Bytes) (h : ∀ s, f s = reply) :
    Oblivious (reading f) := ⟨.ok reply,fun s => congrArg (EStateM.Result.ok · s) (h s)⟩

theorem oblivious_updating {f : σ → σ × Bytes} (reply : Bytes) (h : ∀ s, f s = (s,reply)) :
    Oblivious (updating f) := by
  refine ⟨.ok reply,fun s => ?_⟩
  rw [run_updating,h s]
  rfl

theorem oblivious_converting {f : σ → Except Raised Bytes} (r : Except Raised Bytes)
    (h : ∀ s, f s = r) : Oblivious (converting f) := by
  refine ⟨r,fun s => ?_⟩
  rw [run_converting,h s]

theorem Oblivious.focus {a : Action σ Bytes} (ha : Oblivious a) {field : τ → σ}
    {assign : τ → σ → τ} (hsame : ∀ s, assign s (field s) = s) :
    Oblivious (focus field assign a) := by
  obtain ⟨r,hr⟩ := ha
  refine ⟨r,fun s => ?_⟩
  rw [run_focus,hr]
  cases r with
  | ok reply => exact congrArg (EStateM.Result.ok reply) (hsame s)
  | error x => exact congrArg (EStateM.Result.error x) (hsame s)

end

section
variable {hash : Bytes → Nat} {cmd : ParsedCommand}

theorem oblivious_handleGet (now : Int) (h : cmd.args.length ≠ 1) :
    Oblivious (reading (@handleGet hash now cmd)) := by
  refine oblivious_reading (errResponse "wrong number of arguments for GET") fun storage => ?_
  unfold handleGet
  split
  · rename_i hargs
    simp [hargs] at h
  · rfl

theorem oblivious_handleDelete (h : cmd.args.length ≠ 1) :
    Oblivious (updating (@handleDelete hash cmd)) := by
  refine oblivious_updating (errResponse "wrong number of arguments for DELETE") fun storage => ?_
  unfold handleDelete
  split
  · rename_i hargs
    simp [hargs] at h
  · rfl

theorem oblivious_handleExists (h : cmd.args = []) :
    Oblivious (reading (@handleExists hash cmd)) := by
  refine oblivious_reading (errResponse "wrong number of arguments for EXISTS") fun storage => ?_
  simp only [handleExists,h]

theorem oblivious_handleMget (clock : Nat → Int) (h : cmd.args = []) :
    Oblivious (reading (@handleMget hash clock cmd)) := by
  refine oblivious_reading (errResponse "wrong number of arguments for MGET") fun storage => ?_
  simp only [handleMget,h]

theorem oblivious_handleSet (h : cmd.args.length < 2) :
    Oblivious (updating (@handleSet hash cmd)) := by
  refine oblivious_updating (errResponse "wrong number of arguments for SET") fun storage => ?_
  unfold handleSet
  split
  · rename_i hargs
    simp only [hargs,List.length_cons] at h
    omega
  · rfl

theorem oblivious_handleMset (h : cmd.args.length < 2 ∨ cmd.args.length % 2 ≠ 0) :
    Oblivious (updating (@handleMset hash cmd)) := by
  refine oblivious_updating (errResponse "wrong number of arguments for MSET") fun storage => ?_
  rw [handleMset,if_pos h]

theorem oblivious_handleIncr (now : Int) (h : cmd.args.length ≠ 1) :
    Oblivious (@handleIncr hash now cmd) := by
  refine ⟨.ok (errResponse "wrong number of arguments for INCR"),fun storage => ?_⟩
  rw [run_handleIncr]
  split
  · rename_i hargs
    simp [hargs] at h
  · rfl

theorem oblivious_handleDecr (now : Int) (h : cmd.args.length ≠ 1) :
    Oblivious (@handleDecr hash now cmd) := by
  refine ⟨.ok (errResponse "wrong number of arguments for DECR"),fun storage => ?_⟩
  rw [run_handleDecr]
  split
  · rename_i hargs
    simp [hargs] at h
  · rfl

theorem stoll_raises {number : Bytes} (h : ¬ AcceptsLong number) :
    ∃ x, stoll number = .error x := by
  cases hn : stoll number with
  | ok v => exact absurd ((stoll_ok_iff number).mp ⟨v,hn⟩) h
  | error x => exact ⟨x,rfl⟩

theorem oblivious_of_number {σ : Type} {a : Action σ Bytes} {args : List Bytes} (refusal : Bytes)
    (hwrong : (∀ key number, args ≠ [key,number]) → ∀ s, a.run s = .ok refusal s)
    (hraises : ∀ key number x, args = [key,number] → stoll number = .error x →
      ∀ s, a.run s = .error x s)
    (h : ∀ key number, args = [key,number] → ¬ AcceptsLong number) : Oblivious a := by
  by_cases hpair : ∃ key number, args = [key,number]
  · obtain ⟨key,number,hargs⟩ := hpair
    obtain ⟨x,hx⟩ := stoll_raises (h key number hargs)
    exact ⟨.error x,hraises key number x hargs hx⟩
  · exact ⟨.ok refusal,hwrong fun key number hargs => hpair ⟨key,number,hargs⟩⟩

theorem oblivious_handleIncrby (now : Int)
    (h : ∀ key number, cmd.args = [key,number] → ¬ AcceptsLong number) :
    Oblivious (@handleIncrby hash now cmd) := by
  refine oblivious_of_number (errResponse "wrong number of arguments for INCRBY")
    (fun hwrong storage => ?_) (fun key number x hargs hx storage => ?_) h
  · rw [run_handleIncrby]
    split
    · rename_i key number hargs
      exact absurd hargs (hwrong key number)
    · rfl
  · rw [run_handleIncrby,hargs]
    dsimp only
    rw [hx]

theorem oblivious_handleExpire (now : Int)
    (h : ∀ key number, cmd.args = [key,number] → ¬ AcceptsLong number) :
    Oblivious (@handleExpire hash now cmd) := by
  refine oblivious_of_number (errResponse "wrong number of arguments for EXPIRE")
    (fun hwrong storage => ?_) (fun key number x hargs hx storage => ?_) h
  · rw [run_handleExpire]
    split
    · rename_i key number hargs
      exact absurd hargs (hwrong key number)
    · rfl
  · rw [run_handleExpire,hargs]
    dsimp only
    rw [hx]

theorem oblivious_handleScan (h : ∀ token options cursor count pattern,
      cmd.args = token :: options → decodeScanCursor token = .ok cursor →
      scanOptions options 10 (bytes "*") = .ok (count,pattern) → count = 0) :
    Oblivious (converting (@handleScan hash cmd)) := by
  cases hargs : cmd.args with
  | nil =>
    refine oblivious_converting (.ok (errResponse "wrong number of arguments for SCAN"))
      fun storage => ?_
    simp only [handleScan,hargs]
  | cons token options =>
    cases hcursor : decodeScanCursor token with
    | error x =>
      refine oblivious_converting (.error x) fun storage => ?_
      simp only [handleScan,hargs,hcursor]
      rfl
    | ok cursor =>
      cases hoptions : scanOptions options 10 (bytes "*") with
      | error x =>
        refine oblivious_converting (.error x) fun storage => ?_
        simp only [handleScan,hargs,hcursor,hoptions]
        rfl
      | ok chosen =>
        obtain ⟨count,pattern⟩ := chosen
        have hzero : count = 0 := h token options cursor count pattern hargs hcursor hoptions
        refine oblivious_converting (.ok (scanResponse (bytes "0") [])) fun storage => ?_
        simp only [handleScan,hargs,hcursor,hoptions,hzero]
        rfl

end

def settable : List Bytes :=
  [bytes "requirepass",bytes "data_dir",bytes "host",bytes "max_clients",bytes "port",
    bytes "snapshot_interval_sec"]

theorem set_of_notMem {runtime : RuntimeConfig} {key value : Bytes} (h : key ∉ settable) :
    runtime.set key value = (runtime,false) := by
  simp only [settable,List.mem_cons,List.not_mem_nil,or_false,not_or] at h
  simp [RuntimeConfig.set,h]

/-- The command reads no password and sets nothing. -/
def KeepsSettings (args : List Bytes) : Prop :=
  args ≠ [] ∧ args ≠ [bytes "GET",bytes "requirepass"] ∧
    ∀ key value, args = [bytes "SET",key,value] → key ∉ settable

theorem handleConfig_fst {cmd : ParsedCommand} (h : KeepsSettings cmd.args)
    (runtime : RuntimeConfig) : (handleConfig cmd runtime).1 = runtime := by
  unfold handleConfig
  split
  · rfl
  · split
    · split <;> rfl
    · rfl
  · rename_i sub key value hargs
    by_cases hsub : sub = bytes "SET"
    · simp only [hsub,if_true,set_of_notMem (h.2.2 key value (by rw [hargs,hsub]))]
      rfl
    · simp only [hsub,if_false]
  · rfl

theorem handleConfig_snd {cmd : ParsedCommand} (h : KeepsSettings cmd.args)
    {runtime runtime' : RuntimeConfig}
    (hget : ∀ key, key ≠ bytes "requirepass" → runtime.get key = runtime'.get key) :
    (handleConfig cmd runtime).2 = (handleConfig cmd runtime').2 := by
  unfold handleConfig
  split
  · rename_i hargs
    exact absurd hargs h.1
  · rename_i sub key hargs
    by_cases hsub : sub = bytes "GET"
    · have hkey : key ≠ bytes "requirepass" := by
        intro hpass
        exact h.2.1 (by rw [hargs,hsub,hpass])
      rw [if_pos hsub,if_pos hsub,hget key hkey]
      cases runtime'.get key with
      | none => rfl
      | some value => rfl
    · rw [if_neg hsub,if_neg hsub]
  · rename_i sub key value hargs
    by_cases hsub : sub = bytes "SET"
    · simp only [hsub,if_true,set_of_notMem (h.2.2 key value (by rw [hargs,hsub])),
        Bool.false_eq_true,if_false]
    · simp only [hsub,if_false]
  · rfl

theorem handleBgrewriteaof_snd {hash : Bytes → Nat} {out : RewriteOutcome}
    (h : ¬ (out.opened = true ∧ out.renamed = true)) (aof : AofLog) (storage : StorageEngine hash) :
    (handleBgrewriteaof out aof storage).2 = errResponse "aof rewrite failed" := by
  have hfailed : (aof.rewriteFrom out storage).2 = false := by
    unfold AofLog.rewriteFrom
    cases hopen : out.opened with
    | false => rfl
    | true =>
      have hrename : out.renamed = false := by simpa [hopen] using h
      simp [hrename]
  unfold handleBgrewriteaof
  simp [hfailed]

namespace Server
variable {hash : Bytes → Nat}

/-- The command touches neither data nor password: it needs none of them, or it is
refused before it gets there. -/
def Harmless (env : Env) (cmd : ParsedCommand) : Prop :=
  match cmd.type with
  | .unknown | .ping | .subscribe | .publish | .auth => True
  | .get | .delete | .incr | .decr => cmd.args.length ≠ 1
  | .exist | .mget => cmd.args = []
  | .set => cmd.args.length < 2
  | .mset => cmd.args.length < 2 ∨ cmd.args.length % 2 ≠ 0
  | .expire | .incrby => ∀ key number, cmd.args = [key,number] → ¬ AcceptsLong number
  | .scan => ∀ token options cursor count pattern, cmd.args = token :: options →
      decodeScanCursor token = .ok cursor →
      scanOptions options 10 (bytes "*") = .ok (count,pattern) → count = 0
  | .config => KeepsSettings cmd.args
  | .bgrewriteaof => ¬ (env.rewrite.opened = true ∧ env.rewrite.renamed = true)
  | .info | .flushdb | .dbsize => False

/-- Two servers that differ at most in stored data, the log, the password and counters. -/
structure Alike (s s' : Server hash) : Prop where
  broker : s.broker = s'.broker
  settings : ∀ key, key ≠ bytes "requirepass" → s.runtime.get key = s'.runtime.get key

def Untouched (s t : Server hash) : Prop := t.storage = s.storage ∧ t.runtime = s.runtime

structure Outside (s s' t t' : Server hash) : Prop where
  left : Untouched s t
  right : Untouched s' t'
  alike : Alike t t'

theorem Outside.trans {s s' t t' u u' : Server hash} (h : Outside s s' t t')
    (h' : Outside t t' u u') : Outside s s' u u' where
  left := ⟨h'.left.1.trans h.left.1,h'.left.2.trans h.left.2⟩
  right := ⟨h'.right.1.trans h.right.1,h'.right.2.trans h.right.2⟩
  alike := h'.alike

theorem Alike.outside {s s' : Server hash} (h : Alike s s') : Outside s s' s s' :=
  ⟨⟨rfl,rfl⟩,⟨rfl,rfl⟩,h⟩

theorem Alike.recordCommand {s s' : Server hash} (h : Alike s s') :
    Outside s s' s.recordCommand s'.recordCommand :=
  ⟨⟨rfl,rfl⟩,⟨rfl,rfl⟩,h.broker,h.settings⟩

def SameUnlessAuth (cmd : ParsedCommand) (reply reply' : Bytes) : Prop :=
  cmd.type ≠ .auth → reply = reply'

abbrev Beside (s s' : Server hash) (cmd : ParsedCommand) :
    EStateM.Result Raised (Server hash) Bytes → EStateM.Result Raised (Server hash) Bytes → Prop :=
  Runs.Coupled (Outside s s') (Outside s s') (SameUnlessAuth cmd)

theorem beside_oblivious {s s' : Server hash} (h : Alike s s') (cmd : ParsedCommand)
    {a : Action (Server hash) Bytes} (ha : Oblivious a) :
    Beside s s' cmd (a.run s.recordCommand) (a.run s'.recordCommand) := by
  obtain ⟨r,hr⟩ := ha
  rw [hr,hr]
  cases r with
  | ok reply => exact ⟨fun _ => rfl,h.recordCommand⟩
  | error x => exact h.recordCommand

theorem beside_broker {s s' : Server hash} (h : Alike s s') (cmd : ParsedCommand)
    (f : PubSubBroker → PubSubBroker × Bytes) :
    Beside s s' cmd ((onBroker (updating f)).run s.recordCommand)
      ((onBroker (updating f)).run s'.recordCommand) := by
  have hbroker : s.recordCommand.broker = s'.recordCommand.broker := h.broker
  rw [onBroker,run_focus,run_focus,run_updating,run_updating,hbroker]
  exact ⟨fun _ => rfl,⟨rfl,rfl⟩,⟨rfl,rfl⟩,rfl,h.settings⟩

theorem beside_config {s s' : Server hash} (h : Alike s s') {cmd : ParsedCommand}
    (hkeeps : KeepsSettings cmd.args) :
    Beside s s' cmd ((onRuntime (updating (handleConfig cmd))).run s.recordCommand)
      ((onRuntime (updating (handleConfig cmd))).run s'.recordCommand) := by
  have hleft := handleConfig_fst hkeeps s.recordCommand.runtime
  have hright := handleConfig_fst hkeeps s'.recordCommand.runtime
  have hreply := handleConfig_snd hkeeps h.settings
  rw [onRuntime,run_focus,run_focus,run_updating,run_updating,hleft,hright]
  exact ⟨fun _ => hreply,h.recordCommand⟩

theorem beside_rewrite {s s' : Server hash} (h : Alike s s') (cmd : ParsedCommand) {env : Env}
    (hfails : ¬ (env.rewrite.opened = true ∧ env.rewrite.renamed = true)) :
    Beside s s' cmd ((updating (rewriteAof env)).run s.recordCommand)
      ((updating (rewriteAof env)).run s'.recordCommand) := by
  have hleft := handleBgrewriteaof_snd hfails s.aof s.storage
  have hright := handleBgrewriteaof_snd hfails s'.aof s'.storage
  exact ⟨fun _ => hleft.trans hright.symm,⟨rfl,rfl⟩,⟨rfl,rfl⟩,h.broker,h.settings⟩

theorem beside_dispatch {env : Env} {cmd : ParsedCommand} (hcmd : Harmless env cmd)
    {s s' : Server hash} (h : Alike s s') :
    Beside s s' cmd ((dispatch env cmd).run s) ((dispatch env cmd).run s') := by
  rw [run_dispatch,run_dispatch]
  cases ht : cmd.type <;> simp only [Harmless,ht] at hcmd
  case unknown => exact ⟨fun _ => rfl,h.outside⟩
  case ping => exact ⟨fun _ => rfl,h.recordCommand⟩
  case get => exact beside_oblivious h cmd ((oblivious_handleGet _ hcmd).focus fun _ => rfl)
  case delete => exact beside_oblivious h cmd ((oblivious_handleDelete hcmd).focus fun _ => rfl)
  case exist => exact beside_oblivious h cmd ((oblivious_handleExists hcmd).focus fun _ => rfl)
  case expire => exact beside_oblivious h cmd ((oblivious_handleExpire _ hcmd).focus fun _ => rfl)
  case subscribe => exact beside_broker h cmd (handleSubscribe cmd)
  case publish => exact beside_broker h cmd (handlePublish cmd)
  case mget => exact beside_oblivious h cmd ((oblivious_handleMget _ hcmd).focus fun _ => rfl)
  case mset => exact beside_oblivious h cmd ((oblivious_handleMset hcmd).focus fun _ => rfl)
  case incr => exact beside_oblivious h cmd ((oblivious_handleIncr _ hcmd).focus fun _ => rfl)
  case decr => exact beside_oblivious h cmd ((oblivious_handleDecr _ hcmd).focus fun _ => rfl)
  case incrby => exact beside_oblivious h cmd ((oblivious_handleIncrby _ hcmd).focus fun _ => rfl)
  case scan => exact beside_oblivious h cmd ((oblivious_handleScan hcmd).focus fun _ => rfl)
  case auth => exact ⟨fun hne => absurd ht hne,h.recordCommand⟩
  case config => exact beside_config h hcmd
  case bgrewriteaof => exact beside_rewrite h cmd hcmd
  case set => exact beside_oblivious h cmd ((oblivious_handleSet hcmd).focus fun _ => rfl)

def asksAuth (line : Bytes) : Bool := (parseLine line).any fun cmd => decide (cmd.type = .auth)

def told (input : Env × Bytes) : Action (Server hash) (Option (Option Bytes)) := do
  let reply ← handleLine input.1 input.2
  return if asksAuth input.2 then none else some reply

def HarmlessLine (input : Env × Bytes) : Prop :=
  ∀ cmd, parseLine input.2 = some cmd → Harmless input.1 cmd

/-- The session leaves data and configuration alone, and is told the same in both
servers. -/
def Confined (inputs : List (Env × Bytes)) (s s' : Server hash) : Prop :=
  Untouched s (stateOf ((Runs.runAll told inputs).run s)) ∧
    Runs.Paired (fun _ _ => True) Eq ((Runs.runAll told inputs).run s)
      ((Runs.runAll told inputs).run s')

theorem run_told (input : Env × Bytes) (s : Server hash) :
    (told input).run s =
      match parseLine input.2 with
      | none => .ok (some (if input.2 = [] then none else some (bytes "-ERR empty command"))) s
      | some cmd =>
        match (dispatch input.1 cmd).run s with
        | .ok reply t => .ok (if cmd.type = .auth then none else some (some reply)) t
        | .error x t => .error x t := by
  unfold told
  rw [EStateM.run_bind,run_handleLine]
  unfold asksAuth
  cases parseLine input.2 with
  | none => rfl
  | some cmd =>
    dsimp only
    cases (dispatch input.1 cmd).run s with
    | error x t => rfl
    | ok reply t =>
      by_cases hauth : cmd.type = .auth
      · simp [hauth]
      · simp [hauth]

theorem told_beside {input : Env × Bytes} (hline : HarmlessLine input) {s s' : Server hash}
    (h : Alike s s') :
    Runs.Coupled (Outside s s') (Outside s s') Eq ((told input).run s) ((told input).run s') := by
  rw [run_told,run_told]
  cases hp : parseLine input.2 with
  | none => exact ⟨rfl,h.outside⟩
  | some cmd =>
    have hcmd := beside_dispatch (hline cmd hp) h
    dsimp only
    cases hleft : (dispatch input.1 cmd).run s with
    | ok reply t =>
      obtain ⟨reply',t',hright,hsame,hout⟩ := hcmd.of_ok hleft
      rw [hright]
      by_cases hauth : cmd.type = .auth
      · simp only [hauth,if_true]
        exact ⟨rfl,hout⟩
      · simp only [hauth,if_false,hsame hauth]
        exact ⟨rfl,hout⟩
    | error x t =>
      rw [hleft] at hcmd
      cases hright : (dispatch input.1 cmd).run s' with
      | ok reply' t' =>
        rw [hright] at hcmd
        exact absurd hcmd not_false
      | error x' t' =>
        rw [hright] at hcmd
        exact hcmd

theorem session_beside {inputs : List (Env × Bytes)} (h : ∀ input ∈ inputs, HarmlessLine input)
    {s s' : Server hash} (halike : Alike s s') :
    Runs.Coupled (Outside s s') (Outside s s') (List.Forall₂ Eq)
      ((Runs.runAll told inputs).run s) ((Runs.runAll told inputs).run s') := by
  suffices hrun : ∀ u u', Outside s s' u u' → Runs.Coupled (Outside s s') (Outside s s')
      (List.Forall₂ Eq) ((Runs.runAll told inputs).run u) ((Runs.runAll told inputs).run u') from
    hrun s s' halike.outside
  induction inputs with
  | nil => exact fun u u' hu => ⟨.nil,hu⟩
  | cons input inputs ih =>
    intro u u' hu
    have hfirst := told_beside (h input (by simp)) hu.alike
    have hmoved : Runs.Coupled (Outside s s') (Outside s s') Eq ((told input).run u)
        ((told input).run u') := hfirst.mono (fun _ _ => hu.trans) (fun _ _ => hu.trans) (fun _ _ => id)
    exact hmoved.runAll_cons fun _ _ v v' _ _ hv => ih (fun i hi => h i (by simp [hi])) v v' hv

/-- Lines that touch neither data nor password need no AUTH to be kept from them. -/
theorem harmless_session_is_confined {inputs : List (Env × Bytes)}
    (h : ∀ input ∈ inputs, HarmlessLine input) {s s' : Server hash} (halike : Alike s s') :
    Confined inputs s s' := by
  have hsession := session_beside h halike
  refine ⟨(coupled_stateOf hsession).left,?_⟩
  refine hsession.mono (fun _ _ _ => trivial) (fun _ _ _ => trivial) fun replies replies' heq => ?_
  rwa [List.forall₂_eq_eq_eq] at heq

theorem harmlessLine_of_parse {env : Env} {line : Bytes} {cmd : ParsedCommand}
    (hparse : parseLine line = some cmd) (h : Harmless env cmd) : HarmlessLine (env,line) := by
  intro found hfound
  rw [hparse,Option.some.injEq] at hfound
  exact hfound ▸ h

def guarded (password : String) : Server (fun _ => 0) :=
  create (fun _ => 0) { requirepass := bytes password }

theorem alike_guarded (password password' : String) : Alike (guarded password) (guarded password') := by
  refine ⟨rfl,fun key hkey => ?_⟩
  simp [guarded,create,RuntimeConfig.get,RuntimeConfig.create,RuntimeConfig.default,hkey,
    KeyedList.find]

theorem harmless_session_is_confined_example :
    let env : Env := ⟨fun _ => 0,.success⟩
    let inputs := [(env,bytes "AUTH guess"),(env,bytes "CONFIG GET port"),(env,bytes "GET")]
    let s := guarded "secret"
    let s' := { guarded "other" with storage := ((guarded "other").storage.set (bytes "k") (bytes "v")).1 }
    Confined inputs s s' := by
  intro env inputs s s'
  refine harmless_session_is_confined (fun input hinput => ?_) ?_
  · simp only [inputs,List.mem_cons,List.not_mem_nil,or_false] at hinput
    rcases hinput with rfl | rfl | rfl
    · exact @harmlessLine_of_parse _ _ ⟨.auth,bytes "AUTH",[bytes "guess"]⟩ (by decide) trivial
    · exact @harmlessLine_of_parse _ _ ⟨.config,bytes "CONFIG",[bytes "GET",bytes "port"]⟩
        (by decide) ⟨by decide,by decide,by simp⟩
    · exact @harmlessLine_of_parse _ _ ⟨.get,bytes "GET",[]⟩ (by decide) Nat.zero_ne_one
  · exact ⟨rfl,(alike_guarded "secret" "other").settings⟩

theorem run_told_single {env : Env} {line : Bytes} {cmd : ParsedCommand} {s t : Server hash}
    {reply : Bytes} (hparse : parseLine line = some cmd) (hauth : cmd.type ≠ .auth)
    (hrun : (dispatch env cmd).run s = .ok reply t) :
    (Runs.runAll told [(env,line)]).run s = .ok [some (some reply)] t := by
  refine Runs.runAll_cons.mpr ⟨_,t,[],?_,rfl,rfl⟩
  rw [run_told,hparse]
  dsimp only
  rw [hrun]
  simp [hauth]

theorem run_told_set (env : Env) (s : Server hash) :
    (Runs.runAll told [(env,bytes "SET k v")]).run s = .ok [some (some okResponse)]
      { s.recordCommand with storage := (s.storage.set (bytes "k") (bytes "v")).1 } :=
  @run_told_single _ env _ ⟨.set,bytes "SET",[bytes "k",bytes "v"]⟩ s _ _ (by decide) (by decide) rfl

theorem run_told_password {env : Env} {s : Server hash} {password : Bytes}
    (h : s.runtime.get (bytes "requirepass") = some password) :
    (Runs.runAll told [(env,bytes "CONFIG GET requirepass")]).run s =
      .ok [some (some (bulkStringResponse password))] s.recordCommand := by
  have hget : s.recordCommand.runtime.get (bytes "requirepass") = some password := h
  have hreply : handleConfig ⟨.config,bytes "CONFIG",[bytes "GET",bytes "requirepass"]⟩
      s.recordCommand.runtime = (s.recordCommand.runtime,bulkStringResponse password) := by
    simp only [handleConfig,if_true,hget]
  refine @run_told_single _ env _ ⟨.config,bytes "CONFIG",[bytes "GET",bytes "requirepass"]⟩ s _ _
    (by decide) (by decide) ?_
  rw [run_dispatch]
  dsimp only [handlers]
  rw [onRuntime,run_focus,run_updating,hreply]
  rfl

theorem Confined.same_replies {inputs : List (Env × Bytes)} {s s' t t' : Server hash}
    {replies replies' : List (Option (Option Bytes))} (h : Confined inputs s s')
    (hrun : (Runs.runAll told inputs).run s = .ok replies t)
    (hrun' : (Runs.runAll told inputs).run s' = .ok replies' t') : replies = replies' := by
  have hpaired := h.2
  rw [hrun,hrun'] at hpaired
  exact hpaired.1

theorem not_confined_password {env : Env} {s s' : Server hash} {password password' : Bytes}
    (h : s.runtime.get (bytes "requirepass") = some password)
    (h' : s'.runtime.get (bytes "requirepass") = some password')
    (hne : bulkStringResponse password ≠ bulkStringResponse password') :
    ¬ Confined [(env,bytes "CONFIG GET requirepass")] s s' := by
  intro hconfined
  have htold := hconfined.same_replies (run_told_password h) (run_told_password h')
  simp only [List.cons.injEq,Option.some.injEq,and_true] at htold
  exact hne htold

/-- Nothing was said about a password, and a key is set and the password read. -/
theorem session_needs_no_password :
    let env : Env := ⟨fun _ => 0,.success⟩
    (guarded "secret").auth.enabled = true ∧ (guarded "other").auth.enabled = true ∧
      Alike (guarded "secret") (guarded "other") ∧
      ¬ Untouched (guarded "secret")
        (stateOf ((Runs.runAll told [(env,bytes "SET k v")]).run (guarded "secret"))) ∧
      ¬ Confined [(env,bytes "CONFIG GET requirepass")] (guarded "secret") (guarded "other") := by
  intro env
  refine ⟨by decide,by decide,alike_guarded _ _,fun h => ?_,fun h => ?_⟩
  · have hstorage : (guarded "secret").storage = .create (fun _ => 0) := rfl
    rw [run_told_set] at h
    have hlookup := congrArg (fun e => e.toMap.lookup (bytes "k")) h.1
    simp only [stateOf,StorageEngine.toMap_set,Finmap.lookup_insert,hstorage,
      StorageEngine.toMap_create,Finmap.lookup_empty,reduceCtorEq] at hlookup
  · have hsecret : (guarded "secret").runtime.get (bytes "requirepass") = some (bytes "secret") := by
      decide
    have hother : (guarded "other").runtime.get (bytes "requirepass") = some (bytes "other") := by
      decide
    exact not_confined_password hsecret hother (by decide) h

end Server
end VoltDBX
