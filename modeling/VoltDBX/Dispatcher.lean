import VoltDBX.Handlers
import VoltDBX.Runs

/-!
The command table of protocol/dispatcher.cpp and the body of the session loop of
server/command_handler.cpp, over the state the dispatcher refers to.
-/

set_option autoImplicit false

namespace VoltDBX

structure Server (hash : Bytes → Nat) where
  storage : StorageEngine hash
  broker : PubSubBroker
  metrics : MetricsCollector
  auth : AuthGate
  runtime : RuntimeConfig
  aof : AofLog

/-- What one command meets outside the process: `clock i` is its `i`-th reading
of the clock, `rewrite` what the file system does to a rewrite of the log. -/
structure Env where
  clock : Nat → Int
  rewrite : RewriteOutcome

section
variable {σ τ α : Type}

def reading (f : σ → α) : Action σ α := fun s => .ok (f s) s

def updating (f : σ → σ × α) : Action σ α := fun s => .ok (f s).2 (f s).1

def converting (f : σ → Except Raised α) : Action σ α := fun s => (convert (f s)).run s

def mapState (f : σ → τ) : EStateM.Result Raised σ α → EStateM.Result Raised τ α
  | .ok r s => .ok r (f s)
  | .error x s => .error x (f s)

def focus (field : τ → σ) (assign : τ → σ → τ) (a : Action σ α) : Action τ α := fun s =>
  mapState (assign s) (a.run (field s))

theorem run_updating (f : σ → σ × α) (s : σ) : (updating f).run s = .ok (f s).2 (f s).1 := rfl

theorem run_converting (f : σ → Except Raised α) (s : σ) :
    (converting f).run s = (convert (f s)).run s := rfl

theorem run_focus (field : τ → σ) (assign : τ → σ → τ) (a : Action σ α) (s : τ) :
    (focus field assign a).run s = mapState (assign s) (a.run (field s)) := rfl

end

namespace Server
variable {hash : Bytes → Nat}

def create (hash : Bytes → Nat) (config : ServerConfig) : Server hash :=
  ⟨.create hash,.create .create,.create,⟨config.requirepass⟩,.create config,.create none⟩

def onStorage (a : Action (StorageEngine hash) Bytes) : Action (Server hash) Bytes :=
  focus Server.storage (fun s x => { s with storage := x }) a

def onBroker (a : Action PubSubBroker Bytes) : Action (Server hash) Bytes :=
  focus Server.broker (fun s x => { s with broker := x }) a

def onRuntime (a : Action RuntimeConfig Bytes) : Action (Server hash) Bytes :=
  focus Server.runtime (fun s x => { s with runtime := x }) a

def handleInfo (s : Server hash) : Server hash × Bytes :=
  ({ s with metrics := s.metrics.setKeysStored s.storage.entryCount },
    (s.metrics.setKeysStored s.storage.entryCount).renderInfo)

def rewriteAof (env : Env) (s : Server hash) : Server hash × Bytes :=
  ({ s with aof := (handleBgrewriteaof env.rewrite s.aof s.storage).1 },
    (handleBgrewriteaof env.rewrite s.aof s.storage).2)

/-- `register_builtin_handlers`. -/
def handlers (env : Env) (cmd : ParsedCommand) : CommandType → Option (Action (Server hash) Bytes)
  | .unknown => none
  | .ping => some (pure (bytes "+PONG"))
  | .info => some (updating handleInfo)
  | .get => some (onStorage (reading (handleGet (env.clock 0) cmd)))
  | .delete => some (onStorage (updating (handleDelete cmd)))
  | .exist => some (onStorage (reading (handleExists cmd)))
  | .subscribe => some (onBroker (updating (handleSubscribe cmd)))
  | .publish => some (onBroker (updating (handlePublish cmd)))
  | .expire => some (onStorage (handleExpire (env.clock 0) cmd))
  | .mget => some (onStorage (reading (handleMget env.clock cmd)))
  | .mset => some (onStorage (updating (handleMset cmd)))
  | .incr => some (onStorage (handleIncr (env.clock 0) cmd))
  | .decr => some (onStorage (handleDecr (env.clock 0) cmd))
  | .incrby => some (onStorage (handleIncrby (env.clock 0) cmd))
  | .scan => some (onStorage (converting (handleScan cmd)))
  | .auth => some (reading (fun s => handleAuth cmd s.auth))
  | .config => some (onRuntime (updating (handleConfig cmd)))
  | .flushdb => some (onStorage (updating handleFlushdb))
  | .dbsize => some (onStorage (reading handleDbsize))
  | .bgrewriteaof => some (updating (rewriteAof env))
  | .set => some (onStorage (updating (handleSet cmd)))

def recordCommand (s : Server hash) : Server hash :=
  { s with metrics := s.metrics.recordCommand }

def dispatch (env : Env) (cmd : ParsedCommand) : Action (Server hash) Bytes :=
  match handlers env cmd cmd.type with
  | none => pure (bytes "-ERR unknown command")
  | some handler => do
    modify recordCommand
    handler

def plain (input : Env × ParsedCommand) : Action (Server hash) Bytes :=
  dispatch input.1 input.2

/-- One round of `handle_session`. An empty line gets no reply. -/
def handleLine (env : Env) (line : Bytes) : Action (Server hash) (Option Bytes) :=
  if line = [] then pure none
  else match parseLine line with
    | none => pure (some (bytes "-ERR empty command"))
    | some cmd => do return some (← dispatch env cmd)

/-- A session: the replies to its lines, up to the first that raises. -/
def serve (inputs : List (Env × Bytes)) : Action (Server hash) (List (Option Bytes)) :=
  Runs.runAll (fun input => handleLine input.1 input.2) inputs

theorem run_dispatch (env : Env) (cmd : ParsedCommand) (s : Server hash) :
    (dispatch env cmd).run s =
      match handlers env cmd cmd.type with
      | none => .ok (bytes "-ERR unknown command") s
      | some handler => handler.run s.recordCommand := by
  unfold dispatch
  cases handlers env cmd cmd.type with
  | none => rfl
  | some handler => rfl

theorem run_handleLine (env : Env) (line : Bytes) (s : Server hash) :
    (handleLine env line).run s =
      match parseLine line with
      | none => .ok (if line = [] then none else some (bytes "-ERR empty command")) s
      | some cmd =>
        match (dispatch env cmd).run s with
        | .ok reply t => .ok (some reply) t
        | .error x t => .error x t := by
  unfold handleLine
  by_cases hl : line = []
  · simp [hl,parseLine,trim]
  · simp only [hl,if_false]
    cases parseLine line with
    | none => rfl
    | some cmd =>
      simp only [EStateM.run_bind]
      cases (dispatch env cmd).run s with
      | ok reply t => rfl
      | error x t => rfl

end Server

section
variable {σ τ α : Type}

def OnReturn (Q : α → σ → Prop) : EStateM.Result Raised σ α → Prop
  | .ok a s => Q a s
  | .error _ _ => True

theorem OnReturn.of_ok {Q : α → σ → Prop} {r : EStateM.Result Raised σ α} (h : OnReturn Q r)
    {a : α} {s : σ} (hr : r = .ok a s) : Q a s := by
  subst hr
  exact h

theorem OnReturn.intro {Q : α → σ → Prop} {r : EStateM.Result Raised σ α}
    (h : ∀ a s, r = .ok a s → Q a s) : OnReturn Q r := by
  cases r with
  | ok a s => exact h a s rfl
  | error x s => trivial

theorem OnReturn.imp {Q R : α → σ → Prop} {r : EStateM.Result Raised σ α} (h : OnReturn Q r)
    (hqr : ∀ a s, Q a s → R a s) : OnReturn R r := by
  cases r with
  | ok a s => exact hqr a s h
  | error x s => trivial

theorem onReturn_focus {field : τ → σ} {assign : τ → σ → τ} {a : Action σ α} {s : τ}
    {Q : α → τ → Prop} (h : OnReturn (fun r x => Q r (assign s x)) (a.run (field s))) :
    OnReturn Q ((focus field assign a).run s) := by
  rw [run_focus]
  cases hr : a.run (field s) with
  | ok r x => exact h.of_ok hr
  | error e x => trivial

theorem onReturn_converting {f : σ → Except Raised α} {s : σ} {Q : α → σ → Prop}
    (h : ∀ a, Q a s) : OnReturn Q ((converting f).run s) := by
  rw [run_converting]
  cases f s with
  | ok a => exact h a
  | error x => trivial

end

section
variable {σ τ α : Type}

def stateOf : EStateM.Result Raised σ α → σ
  | .ok _ s => s
  | .error _ s => s

theorem coupled_stateOf {β : Type} {E : σ → τ → Prop} {R : α → β → Prop}
    {r : EStateM.Result Raised σ α} {q : EStateM.Result Raised τ β} (h : Runs.Coupled E E R r q) :
    E (stateOf r) (stateOf q) := by
  cases r with
  | ok a s =>
    obtain ⟨b,t,rfl,-,hstates⟩ := h.of_ok rfl
    exact hstates
  | error x s =>
    cases q with
    | ok b t => exact absurd h not_false
    | error y t => exact h

abbrev minus : UInt8 := 45

/-- The command raised, or its reply begins with a minus sign. -/
def Failed : EStateM.Result Raised σ Bytes → Prop
  | .ok reply _ => reply.head? = some minus
  | .error _ _ => True

/-- All checks come before the first change. -/
def Atomic (a : Action σ Bytes) : Prop := ∀ s, Failed (a.run s) → stateOf (a.run s) = s

theorem atomic_reading (f : σ → Bytes) : Atomic (reading f) := fun _ _ => rfl

theorem atomic_updating {f : σ → σ × Bytes}
    (h : ∀ s, (f s).2.head? = some minus → (f s).1 = s) : Atomic (updating f) :=
  fun s hs => h s hs

theorem atomic_converting (f : σ → Except Raised Bytes) : Atomic (converting f) := by
  intro s _
  rw [run_converting]
  cases f s with
  | ok reply => rfl
  | error x => rfl

theorem failed_mapState {f : σ → τ} {r : EStateM.Result Raised σ Bytes} :
    Failed (mapState f r) ↔ Failed r := by
  cases r with
  | ok reply s => exact Iff.rfl
  | error x s => exact Iff.rfl

theorem stateOf_mapState (f : σ → τ) (r : EStateM.Result Raised σ α) :
    stateOf (mapState f r) = f (stateOf r) := by
  cases r with
  | ok reply s => rfl
  | error x s => rfl

theorem Atomic.focus {a : Action σ Bytes} (ha : Atomic a) {field : τ → σ}
    {assign : τ → σ → τ} (hsame : ∀ s, assign s (field s) = s) :
    Atomic (focus field assign a) := by
  intro s hs
  rw [run_focus] at hs ⊢
  rw [stateOf_mapState,ha (field s) (failed_mapState.mp hs),hsame]

end

@[simp] theorem head_okResponse (rest : Bytes) : (okResponse ++ rest).head? ≠ some minus :=
  show some 43 ≠ some minus by decide

@[simp] theorem head_ok : okResponse.head? ≠ some minus := by decide

@[simp] theorem head_integerResponse (v : Int) : (integerResponse v).head? ≠ some minus :=
  show some 58 ≠ some minus by decide

section
variable {hash : Bytes → Nat}

theorem atomic_handleDelete (cmd : ParsedCommand) :
    Atomic (updating (@handleDelete hash cmd)) := by
  refine atomic_updating fun s hs => ?_
  unfold handleDelete at hs ⊢
  split at hs
  · simp at hs
  · rfl

theorem atomic_handleSet (cmd : ParsedCommand) : Atomic (updating (@handleSet hash cmd)) := by
  refine atomic_updating fun s hs => ?_
  unfold handleSet at hs ⊢
  split at hs
  · simp at hs
  · rfl

theorem atomic_handleMset (cmd : ParsedCommand) : Atomic (updating (@handleMset hash cmd)) := by
  refine atomic_updating fun s hs => ?_
  unfold handleMset at hs ⊢
  split
  · rfl
  · rename_i harity
    rw [if_neg harity] at hs
    exact absurd hs head_ok

theorem atomic_handleFlushdb : Atomic (updating (@handleFlushdb hash)) :=
  atomic_updating fun _ hs => absurd hs head_ok

theorem atomic_handleExpire (now : Int) (cmd : ParsedCommand) :
    Atomic (@handleExpire hash now cmd) := by
  intro s hs
  rw [run_handleExpire] at hs ⊢
  split at hs
  · split at hs
    · rfl
    · exact absurd hs (head_integerResponse _)
  · rfl

theorem counted_failed {now : Int} {key : Bytes} {delta : Int} {s : StorageEngine hash}
    (hs : Failed (counted now key delta s)) : stateOf (counted now key delta s) = s := by
  unfold counted at hs ⊢
  split at hs
  · rfl
  · exact absurd hs (head_integerResponse _)

theorem atomic_handleIncr (now : Int) (cmd : ParsedCommand) :
    Atomic (@handleIncr hash now cmd) := by
  intro s hs
  rw [run_handleIncr] at hs ⊢
  split at hs
  · exact counted_failed hs
  · rfl

theorem atomic_handleDecr (now : Int) (cmd : ParsedCommand) :
    Atomic (@handleDecr hash now cmd) := by
  intro s hs
  rw [run_handleDecr] at hs ⊢
  split at hs
  · exact counted_failed hs
  · rfl

theorem atomic_handleIncrby (now : Int) (cmd : ParsedCommand) :
    Atomic (@handleIncrby hash now cmd) := by
  intro s hs
  rw [run_handleIncrby] at hs ⊢
  split at hs
  · split at hs
    · rfl
    · exact counted_failed hs
  · rfl

end

theorem atomic_handleSubscribe (cmd : ParsedCommand) : Atomic (updating (handleSubscribe cmd)) := by
  refine atomic_updating fun b hs => ?_
  unfold handleSubscribe at hs ⊢
  split at hs
  · rw [List.append_assoc] at hs
    exact absurd hs (head_okResponse _)
  · rfl

theorem atomic_handlePublish (cmd : ParsedCommand) : Atomic (updating (handlePublish cmd)) := by
  refine atomic_updating fun b hs => ?_
  unfold handlePublish at hs ⊢
  split at hs
  · exact absurd hs (head_integerResponse _)
  · rfl

theorem RuntimeConfig.set_refused {r : RuntimeConfig} {key value : Bytes}
    (h : (r.set key value).2 = false) : (r.set key value).1 = r := by
  unfold RuntimeConfig.set at h ⊢
  split
  · simp_all
  · split
    · simp_all
    · rfl

theorem atomic_handleConfig (cmd : ParsedCommand) : Atomic (updating (handleConfig cmd)) := by
  refine atomic_updating fun r hs => ?_
  unfold handleConfig at hs ⊢
  split at hs
  · rfl
  · split
    · split <;> rfl
    · rfl
  · rename_i sub key value _
    by_cases hsub : sub = bytes "SET"
    · cases hset : (r.set key value).2 with
      | true => simp [hsub,hset] at hs
      | false => simpa [hsub,hset] using RuntimeConfig.set_refused hset
    · simp [hsub]
  · rfl

namespace Server
variable {hash : Bytes → Nat}

theorem head_handleInfo (s : Server hash) : (handleInfo s).2.head? ≠ some minus :=
  show some 43 ≠ some minus by decide

theorem atomic_handlers {env : Env} {cmd : ParsedCommand} {t : CommandType}
    {a : Action (Server hash) Bytes} (h : handlers env cmd t = some a)
    (ht : t ≠ .bgrewriteaof) : Atomic a := by
  cases t <;> simp only [handlers,Option.some.injEq,reduceCtorEq] at h <;> subst h
  case ping => exact fun _ _ => rfl
  case info => exact atomic_updating fun s hs => absurd hs (head_handleInfo s)
  case get => exact (atomic_reading _).focus fun _ => rfl
  case delete => exact (atomic_handleDelete cmd).focus fun _ => rfl
  case exist => exact (atomic_reading _).focus fun _ => rfl
  case subscribe => exact (atomic_handleSubscribe cmd).focus fun _ => rfl
  case publish => exact (atomic_handlePublish cmd).focus fun _ => rfl
  case expire => exact (atomic_handleExpire _ cmd).focus fun _ => rfl
  case mget => exact (atomic_reading _).focus fun _ => rfl
  case mset => exact (atomic_handleMset cmd).focus fun _ => rfl
  case incr => exact (atomic_handleIncr _ cmd).focus fun _ => rfl
  case decr => exact (atomic_handleDecr _ cmd).focus fun _ => rfl
  case incrby => exact (atomic_handleIncrby _ cmd).focus fun _ => rfl
  case scan => exact (atomic_converting _).focus fun _ => rfl
  case auth => exact atomic_reading _
  case config => exact (atomic_handleConfig cmd).focus fun _ => rfl
  case flushdb => exact atomic_handleFlushdb.focus fun _ => rfl
  case dbsize => exact (atomic_reading _).focus fun _ => rfl
  case bgrewriteaof => exact absurd rfl ht
  case set => exact (atomic_handleSet cmd).focus fun _ => rfl

theorem failed_state {env : Env} {cmd : ParsedCommand} {s : Server hash}
    (h : Failed ((dispatch env cmd).run s)) :
    stateOf ((dispatch env cmd).run s) = s ∨
      stateOf ((dispatch env cmd).run s) = s.recordCommand ∨
      cmd.type = .bgrewriteaof ∧
        ∃ aof, stateOf ((dispatch env cmd).run s) = { s.recordCommand with aof := aof } := by
  rw [run_dispatch] at h ⊢
  cases ha : handlers env cmd cmd.type with
  | none => exact Or.inl rfl
  | some handler =>
    rw [ha] at h
    by_cases ht : cmd.type = .bgrewriteaof
    · rw [ht] at ha
      cases ha
      exact Or.inr (Or.inr ⟨ht,_,rfl⟩)
    · exact Or.inr (Or.inl (atomic_handlers ha ht s.recordCommand h))

theorem failed_command_changes_nothing (env : Env) (cmd : ParsedCommand) (s : Server hash)
    (h : Failed ((dispatch env cmd).run s)) :
    (stateOf ((dispatch env cmd).run s)).storage = s.storage ∧
      (stateOf ((dispatch env cmd).run s)).broker = s.broker ∧
      (stateOf ((dispatch env cmd).run s)).runtime = s.runtime ∧
      (stateOf ((dispatch env cmd).run s)).auth = s.auth ∧
      ((stateOf ((dispatch env cmd).run s)).metrics = s.metrics ∨
        (stateOf ((dispatch env cmd).run s)).metrics = s.metrics.recordCommand) ∧
      (cmd.type ≠ .bgrewriteaof → (stateOf ((dispatch env cmd).run s)).aof = s.aof) := by
  rcases failed_state h with hs | hs | ⟨ht,aof,hs⟩ <;> rw [hs]
  · exact ⟨rfl,rfl,rfl,rfl,Or.inl rfl,fun _ => rfl⟩
  · exact ⟨rfl,rfl,rfl,rfl,Or.inr rfl,fun _ => rfl⟩
  · exact ⟨rfl,rfl,rfl,rfl,Or.inr rfl,fun hne => absurd ht hne⟩

theorem failed_storage {env : Env} {cmd : ParsedCommand} {s : Server hash}
    (h : Failed ((dispatch env cmd).run s)) :
    (stateOf ((dispatch env cmd).run s)).storage = s.storage := by
  rcases failed_state h with hs | hs | ⟨-,aof,hs⟩ <;> rw [hs] <;> rfl

/-- An EXPIRE whose time is not a number, of a key that has a deadline. -/
theorem failed_command_changes_nothing_example :
    let s : Server (fun _ => 0) := { create (fun _ => 0) {} with
      storage := (StorageEngine.create (fun _ => 0)).insert (bytes "a") ⟨bytes "v",some 5⟩ }
    let env : Env := ⟨fun _ => 0,.success⟩
    let cmd : ParsedCommand := ⟨.expire,bytes "EXPIRE",[bytes "a",bytes "b"]⟩
    Failed ((dispatch env cmd).run s) ∧
      (stateOf ((dispatch env cmd).run s)).storage.toMap.lookup (bytes "a") =
        some ⟨bytes "v",some 5⟩ := by
  intro s env cmd
  have hentry : s.storage.toMap.lookup (bytes "a") = some ⟨bytes "v",some 5⟩ := by
    rw [StorageEngine.toMap_insert,Finmap.lookup_insert]
  clear_value s
  have hfail : Failed ((dispatch env cmd).run s) := trivial
  refine ⟨hfail,?_⟩
  rw [(failed_command_changes_nothing env cmd s hfail).1]
  exact hentry

def Apart (s t : Server hash) : Prop :=
  t.broker = s.broker ∧ t.runtime = s.runtime ∧ t.auth = s.auth

theorem apart_onStorage (a : Action (StorageEngine hash) Bytes) (s : Server hash) :
    Apart s (stateOf ((onStorage a).run s)) := by
  rw [onStorage,run_focus,stateOf_mapState]
  exact ⟨rfl,rfl,rfl⟩

theorem apart_handlers {env : Env} {cmd : ParsedCommand} {t : CommandType}
    {a : Action (Server hash) Bytes} (h : handlers env cmd t = some a) (hsub : t ≠ .subscribe)
    (hpub : t ≠ .publish) (hconfig : t ≠ .config) (s : Server hash) :
    Apart s (stateOf (a.run s)) := by
  cases t <;> simp only [handlers,Option.some.injEq,reduceCtorEq] at h <;> subst h
  case ping => exact ⟨rfl,rfl,rfl⟩
  case info => exact ⟨rfl,rfl,rfl⟩
  case subscribe => exact absurd rfl hsub
  case publish => exact absurd rfl hpub
  case auth => exact ⟨rfl,rfl,rfl⟩
  case config => exact absurd rfl hconfig
  case bgrewriteaof => exact ⟨rfl,rfl,rfl⟩
  all_goals exact apart_onStorage _ s

theorem apart_dispatch (env : Env) {cmd : ParsedCommand} (hsub : cmd.type ≠ .subscribe)
    (hpub : cmd.type ≠ .publish) (hconfig : cmd.type ≠ .config) (s : Server hash) :
    Apart s (stateOf ((dispatch env cmd).run s)) := by
  rw [run_dispatch]
  cases ha : handlers env cmd cmd.type with
  | none => exact ⟨rfl,rfl,rfl⟩
  | some handler => exact apart_handlers ha hsub hpub hconfig s.recordCommand

/-- What a command leaves of them. None of the three that reach for them can raise, and
no command reaches the password gate. -/
theorem parts_dispatch (env : Env) (cmd : ParsedCommand) (s : Server hash) :
    (stateOf ((dispatch env cmd).run s)).broker =
        (if cmd.type = .subscribe then (handleSubscribe cmd s.broker).1
        else if cmd.type = .publish then (handlePublish cmd s.broker).1 else s.broker) ∧
      (stateOf ((dispatch env cmd).run s)).runtime =
        (if cmd.type = .config then (handleConfig cmd s.runtime).1 else s.runtime) ∧
      (stateOf ((dispatch env cmd).run s)).auth = s.auth := by
  by_cases hsub : cmd.type = .subscribe
  · rw [run_dispatch,hsub]
    exact ⟨rfl,rfl,rfl⟩
  · by_cases hpub : cmd.type = .publish
    · rw [run_dispatch,hpub]
      exact ⟨rfl,rfl,rfl⟩
    · by_cases hconfig : cmd.type = .config
      · rw [run_dispatch,hconfig]
        exact ⟨rfl,rfl,rfl⟩
      · rw [if_neg hsub,if_neg hpub,if_neg hconfig]
        exact apart_dispatch env hsub hpub hconfig s

def afterCommands (s : Server hash) (inputs : List (Env × ParsedCommand)) : Server hash :=
  inputs.foldl (fun s input => stateOf ((plain input).run s)) s

theorem afterCommands_append (s : Server hash) (inputs : List (Env × ParsedCommand))
    (input : Env × ParsedCommand) :
    afterCommands s (inputs ++ [input]) =
      stateOf ((dispatch input.1 input.2).run (afterCommands s inputs)) := by
  rw [afterCommands,List.foldl_append]
  rfl

end Server
end VoltDBX
