import VoltDBX.Admission
import VoltDBX.Lifetimes

/-!
`DatabaseServer::run` with its threads: the main thread, the four workers of the pool, the
snapshot scheduler and the sweeps, in any interleaving, from the recovery to the return.
-/

set_option autoImplicit false

namespace VoltDBX
open Reference

/-- What a call of `SnapshotWriter::write` is at: the file is open and empty, or the rest of
the text is still to be put. -/
inductive Writing where
  | opened
  | putting (left : Bytes)
  deriving DecidableEq, Repr

/-- The next piece of the write: the store is dumped, `cut` bytes reach the file, or, when
nothing is left, the call returns. File operations succeed. -/
def Writing.next {hash : Bytes → Nat} (storage : StorageEngine hash) (cut : Nat) :
    Writing → Option Bytes → Option Writing × Option Bytes
  | .opened, file => (some (.putting (Snapshot.write storage)),file)
  | .putting [], file => (none,file)
  | .putting left, file =>
    (some (.putting (left.drop cut)),some (file.getD [] ++ left.take cut))

/-- What a write has put into the file when its text is `text`; a write that has returned
has put all of it. -/
def Writing.Wrote (text : Bytes) : Option Writing → Option Bytes → Prop
  | some .opened, file => file = some []
  | some (.putting left), file => ∃ written, file = some written ∧ written ++ left = text
  | none, file => file = some text

theorem Writing.Wrote.next {hash : Bytes → Nat} {text : Bytes} {w : Writing} {file : Option Bytes}
    (h : Wrote text (some w) file) (storage : StorageEngine hash) (cut : Nat) :
    Wrote (if w = .opened then Snapshot.write storage else text) (w.next storage cut file).1
      (w.next storage cut file).2 := by
  cases w with
  | opened =>
    have hfile : file = some [] := h
    exact ⟨[],hfile,rfl⟩
  | putting left =>
    obtain ⟨written,rfl,htext⟩ := h
    rw [if_neg (by simp)]
    cases left with
    | nil => exact congrArg some (by rw [← htext,List.append_nil])
    | cons c left =>
      refine ⟨written ++ (c :: left).take cut,rfl,?_⟩
      rw [List.append_assoc,List.take_append_drop,htext]

theorem Writing.Wrote.begins {text : Bytes} {w : Option Writing} {file : Option Bytes}
    (h : Wrote text w file) : ∃ written, file = some written ∧ written <+: text := by
  match w, h with
  | some .opened, h => exact ⟨[],h, List.nil_prefix⟩
  | some (.putting left), ⟨written,hfile,htext⟩ => exact ⟨written,hfile,left,htext⟩
  | none, h => exact ⟨text,h,List.prefix_rfl⟩

/-- `SnapshotScheduler` and `ExpirationScheduler`: the flag `running_`, and what the thread
is at while it has not been joined. -/
structure Scheduler (ω : Type) where
  running : Bool
  worker : Option ω
  deriving DecidableEq, Repr

namespace Scheduler
variable {ω : Type}

def create : Scheduler ω := ⟨false,none⟩

def start (s : Scheduler ω) (top : ω) : Scheduler ω := if s.running then s else ⟨true,some top⟩

end Scheduler

inductive SnapshotLoop where
  | testing
  | writing (w : Writing)
  | pausing (i : Nat)
  | ended
  deriving DecidableEq, Repr

/-- The places of `ExpirationScheduler::loop`; `keys` are gathered and not erased yet. -/
inductive SweepLoop where
  | testing
  | erasing (keys : List Bytes)
  | sleeping
  | ended
  deriving DecidableEq, Repr

/-- What the main thread is at. The number is what `run` will return. -/
inductive Stage where
  | startingSnapshots
  | startingSweeps
  | binding
  | accepting
  | stoppingPool
  | joiningPool
  | stoppingSweeps (code : Nat)
  | joiningSweeps (code : Nat)
  | stoppingSnapshots (code : Nat)
  | joiningSnapshots (code : Nat)
  | opening
  | saving (w : Writing)
  | returned (code : Nat)
  | aborted
  deriving DecidableEq, Repr

def Stage.after (code : Nat) : Stage := if code = 0 then .opening else .returned code

def Stage.halted : Stage → Bool
  | .returned _ | .aborted => true
  | _ => false

def MetricsCollector.setActiveClients (m : MetricsCollector) (count : Nat) : MetricsCollector :=
  { m with activeClients := count }

def MetricsCollector.setMemoryBytes (m : MetricsCollector) (count : Nat) : MetricsCollector :=
  { m with memoryBytes := count }

structure Exchange where
  session : Nat
  line : Bytes
  reply : Option Bytes
  deriving DecidableEq, Repr

/-- `file` is snapshot.vdb. A session is the list of the lines that its `read_line` will
return; `served` is what has been executed, in order. -/
structure ServerProcess (hash : Bytes → Nat) where
  stage : Stage
  server : Server hash
  file : Option Bytes
  listening : Bool
  snapshots : Scheduler SnapshotLoop
  sweeps : Scheduler SweepLoop
  connections : ConnectionPool
  sessions : PoolRun (List Bytes)
  served : List Exchange

namespace ServerProcess
variable {hash : Bytes → Nat}

def boot (hash : Bytes → Nat) (config : ServerConfig) (dir : DataDir) : ServerProcess hash :=
  ⟨.startingSnapshots,Server.boot hash config dir,dir.snapshot,false,Scheduler.create,
    Scheduler.create,⟨config.maxClients,0,0⟩,PoolRun.start 4,[]⟩

/-- The next statement of `run`; `bound` is what `bind_and_listen` returns. -/
def main (bound : Bool) (cut : Nat) (p : ServerProcess hash) : Option (ServerProcess hash) :=
  match p.stage with
  | .startingSnapshots =>
    some { p with snapshots := p.snapshots.start .testing, stage := .startingSweeps }
  | .startingSweeps => some { p with sweeps := p.sweeps.start .testing, stage := .binding }
  | .binding =>
    some { p with listening := bound, stage := if bound then .accepting else .stoppingSweeps 1 }
  | .accepting => if p.listening then none else some { p with stage := .stoppingPool }
  | .stoppingPool =>
    some { p with
      sessions := { p.sessions with pool := p.sessions.pool.stop }
      stage := .joiningPool }
  | .joiningPool =>
    if ∀ w ∈ p.sessions.pool.workers, w = .exited then some { p with stage := .stoppingSweeps 0 }
    else none
  | .stoppingSweeps code =>
    some { p with
      sweeps := ⟨false,p.sweeps.worker⟩
      stage := if p.sweeps.running then .joiningSweeps code else .stoppingSnapshots code }
  | .joiningSweeps code =>
    if p.sweeps.worker = some .ended then
      some { p with sweeps := ⟨p.sweeps.running,none⟩, stage := .stoppingSnapshots code }
    else none
  | .stoppingSnapshots code =>
    some { p with
      snapshots := ⟨false,p.snapshots.worker⟩
      stage := if p.snapshots.running then .joiningSnapshots code else .after code }
  | .joiningSnapshots code =>
    if p.snapshots.worker = some .ended then
      some { p with snapshots := ⟨p.snapshots.running,none⟩, stage := .after code }
    else none
  | .opening => some { p with file := some [], stage := .saving .opened }
  | .saving w =>
    let r := w.next p.server.storage cut p.file
    some { p with
      file := r.2
      stage := match r.1 with
        | some w => .saving w
        | none => .returned 0 }
  | .returned _ | .aborted => none

def snapshotStep (cut : Nat) (p : ServerProcess hash) : Option (ServerProcess hash) :=
  match p.snapshots.worker with
  | some .testing =>
    if p.snapshots.running then
      some { p with
        file := some []
        snapshots := ⟨p.snapshots.running,some (.writing .opened)⟩ }
    else some { p with snapshots := ⟨p.snapshots.running,some .ended⟩ }
  | some (.writing w) =>
    let r := w.next p.server.storage cut p.file
    some { p with
      file := r.2
      snapshots := ⟨p.snapshots.running,some (match r.1 with
        | some w => .writing w
        | none => .pausing 0)⟩ }
  | some (.pausing i) =>
    if i < p.server.runtime.defaults.snapshotIntervalSec ∧ p.snapshots.running then
      some { p with snapshots := ⟨p.snapshots.running,some (.pausing (i+1))⟩ }
    else some { p with snapshots := ⟨p.snapshots.running,some .testing⟩ }
  | some .ended | none => none

/-- `ExpirationScheduler::loop`. The keys are erased by name, one after the other. -/
def sweepStep (clock : Nat → Int) (p : ServerProcess hash) : Option (ServerProcess hash) :=
  match p.sweeps.worker with
  | some .testing =>
    if p.sweeps.running then
      some { p with sweeps := ⟨p.sweeps.running,some (.erasing
        (p.server.storage.table.forEach (StorageEngine.gatherExpired clock) (0,[])).2)⟩ }
    else some { p with sweeps := ⟨p.sweeps.running,some .ended⟩ }
  | some (.erasing (key :: rest)) =>
    some { p with
      server := { p.server with storage := (p.server.storage.remove key).1 }
      sweeps := ⟨p.sweeps.running,some (.erasing rest)⟩ }
  | some (.erasing []) => some { p with sweeps := ⟨p.sweeps.running,some .sleeping⟩ }
  | some .sleeping => some { p with sweeps := ⟨p.sweeps.running,some .testing⟩ }
  | some .ended | none => none

def accept (session : List Bytes) (p : ServerProcess hash) : ServerProcess hash :=
  if p.connections.admitConnection.2 then
    let connections := p.connections.admitConnection.1.release
    { p with
      connections := connections
      sessions := { p.sessions with
        pool := p.sessions.pool.enqueue (p.sessions.accepted.length,session)
        accepted := if p.sessions.pool.stopping then p.sessions.accepted
          else p.sessions.accepted ++ [(p.sessions.accepted.length,session)] }
      server := { p.server with
        metrics := ((p.server.metrics.setActiveClients connections.active).setKeysStored
          p.server.storage.entryCount).setMemoryBytes (p.server.storage.entryCount*128) } }
  else { p with connections := p.connections.admitConnection.1 }

def position (p : ServerProcess hash) (k : Nat) : Nat :=
  (p.served.filter fun x => x.session = k).length

def next (p : ServerProcess hash) (w : Nat) : Option (Nat × Bytes) :=
  match p.sessions.pool.workers[w]? with
  | some (.running (k,session)) => session[p.position k]?.map fun line => (k,line)
  | _ => none

/-- Worker `w` executes a line, from the parsing to the reply, in one step: the calls it makes
on the table do not meet those of other workers, as they do in `CallProcess`. Nothing catches
an exception on its thread. -/
def line (w : Nat) (env : Env) (p : ServerProcess hash) : Option (ServerProcess hash) :=
  (p.next w).map fun x =>
    match (Server.handleLine env x.2).run p.server with
    | .ok reply server => { p with server := server, served := p.served ++ [⟨x.1,x.2,reply⟩] }
    | .error _ server => { p with server := server, stage := .aborted }

inductive Step where
  | main (bound : Bool) (cut : Nat)
  | accept (session : List Bytes)
  | signal
  | wake (w : Nat)
  | line (w : Nat) (env : Env)
  /-- The session of worker `w` is closed, read to its end or not. -/
  | finish (w : Nat)
  | snapshot (cut : Nat)
  | sweep (clock : Nat → Int)
  | kill

def step (i : Step) (p : ServerProcess hash) : Option (ServerProcess hash) :=
  if p.stage.halted then none
  else match i with
    | .main bound cut => p.main bound cut
    | .accept session => if p.listening then some (p.accept session) else none
    | .signal => some { p with listening := false }
    | .wake w => (PoolRun.step (.wake w) p.sessions).map fun s => { p with sessions := s }
    | .line w env => p.line w env
    | .finish w => (PoolRun.step (.finish w) p.sessions).map fun s => { p with sessions := s }
    | .snapshot cut => p.snapshotStep cut
    | .sweep clock => p.sweepStep clock
    | .kill => some { p with stage := .aborted }

end ServerProcess

inductive Phase where
  | absent
  | working
  | leaving
  deriving DecidableEq, Repr

def Scheduler.In {ω : Type} (s : Scheduler ω) : Phase → Prop
  | .absent => s = ⟨false,none⟩
  | .working => s.running = true ∧ s.worker ≠ none
  | .leaving => s.running = false ∧ s.worker ≠ none

namespace Stage

def sweepPhase : Stage → Option Phase
  | .binding | .accepting | .stoppingPool | .joiningPool | .stoppingSweeps _ => some .working
  | .joiningSweeps _ => some .leaving
  | .aborted => none
  | _ => some .absent

def snapshotPhase : Stage → Option Phase
  | .startingSnapshots | .opening | .saving _ | .returned _ => some .absent
  | .joiningSnapshots _ => some .leaving
  | .aborted => none
  | _ => some .working

def final : Stage → Bool
  | .saving _ | .returned 0 => true
  | _ => false

def code : Stage → Option Nat
  | .stoppingSweeps code | .joiningSweeps code | .stoppingSnapshots code
  | .joiningSnapshots code | .returned code => some code
  | .opening | .saving _ => some 0
  | _ => none

def unbound (s : Stage) : Prop :=
  s = .startingSnapshots ∨ s = .startingSweeps ∨ s = .binding ∨ ∃ n, s.code = some (n+1)

theorem sweepPhase_after (code : Nat) : (after code).sweepPhase = some .absent := by
  unfold after
  split <;> rfl

theorem snapshotPhase_after (code : Nat) : (after code).snapshotPhase = some .absent := by
  unfold after
  split <;> rfl

theorem code_after (code : Nat) : (after code).code = some code := by
  unfold after
  split
  · rename_i hzero
    rw [hzero]
    rfl
  · rfl

theorem final_facts {s : Stage} (h : s.final = true) :
    s.code = some 0 ∧ s.sweepPhase = some .absent ∧ s.snapshotPhase = some .absent ∧
      s ≠ .accepting ∧ s ≠ .aborted := by
  unfold final at h
  split at h
  · exact ⟨rfl,rfl,rfl,by simp,by simp⟩
  · exact ⟨rfl,rfl,rfl,by simp,by simp⟩
  · cases h

theorem not_unbound {s : Stage} (h : s.code = some 0) : ¬ s.unbound := by
  rintro (rfl | rfl | rfl | ⟨n,hn⟩)
  · cases h
  · cases h
  · cases h
  · rw [h] at hn
    cases hn

end Stage

theorem Scheduler.In.through {ω : Type} {s t : Scheduler ω} {top : ω} {before after : Option Phase}
    (h : ∀ phase, before = some phase → s.In phase)
    (hcases : (before = some .absent ∧ t = s.start top ∧ after = some .working) ∨
      (before = some .working ∧ t = ⟨false,s.worker⟩ ∧
        after = if s.running then some .leaving else some .absent) ∨
      (before = some .leaving ∧ t = ⟨s.running,none⟩ ∧ after = some .absent) ∨
      (t = s ∧ after = before)) {phase : Phase} (hphase : after = some phase) : t.In phase := by
  rcases hcases with ⟨hb,rfl,ha⟩ | ⟨hb,rfl,ha⟩ | ⟨hb,rfl,ha⟩ | ⟨rfl,ha⟩
  · have hs : s = ⟨false,none⟩ := h _ hb
    rw [ha,Option.some.injEq] at hphase
    subst hs hphase
    exact ⟨rfl,Option.some_ne_none top⟩
  · have hs := h _ hb
    rw [ha,hs.1,if_pos rfl,Option.some.injEq] at hphase
    subst hphase
    exact ⟨rfl,hs.2⟩
  · have hs := h _ hb
    rw [ha,Option.some.injEq] at hphase
    subst hphase
    rw [hs.1]
    rfl
  · exact h phase (ha ▸ hphase)

theorem Scheduler.In.move {ω : Type} {s : Scheduler ω} {phase : Phase} (h : s.In phase)
    (hworker : s.worker ≠ none) (place : ω) : (⟨s.running,some place⟩ : Scheduler ω).In phase := by
  cases phase with
  | absent =>
    have hs : s = ⟨false,none⟩ := h
    rw [hs] at hworker
    exact absurd rfl hworker
  | working => exact ⟨h.1,Option.some_ne_none place⟩
  | leaving => exact ⟨h.1,Option.some_ne_none place⟩

namespace ServerProcess
variable {hash : Bytes → Nat} {p q : ServerProcess hash}

/-- What holds of the threads in every state. -/
structure Manned (p : ServerProcess hash) : Prop where
  sessions : p.sessions.Accounted
  sweeps : ∀ phase, p.stage.sweepPhase = some phase → p.sweeps.In phase
  snapshots : ∀ phase, p.stage.snapshotPhase = some phase → p.snapshots.In phase
  workers : p.stage.code = some 0 → ∀ w ∈ p.sessions.pool.workers, w = .exited
  listening : p.listening = true → p.stage = .accepting ∨ p.stage = .aborted
  unbound : p.stage.unbound → p.sessions.accepted = []

theorem manned_boot (hash : Bytes → Nat) (config : ServerConfig) (dir : DataDir) :
    (boot hash config dir).Manned := by
  refine ⟨PoolRun.accounted_start 4,?_,?_,?_,?_,fun _ => rfl⟩
  · intro phase hphase
    cases hphase
    rfl
  · intro phase hphase
    cases hphase
    rfl
  · intro hcode
    cases hcode
  · intro hlistening
    cases hlistening

/-- The main thread starts the sweeps, tells them to stop, waits for them, or leaves them
as they are. -/
theorem main_sweeps {bound : Bool} {cut : Nat} (hstep : p.main bound cut = some q) :
    (p.stage.sweepPhase = some .absent ∧ q.sweeps = p.sweeps.start .testing ∧
      q.stage.sweepPhase = some .working) ∨
    (p.stage.sweepPhase = some .working ∧ q.sweeps = ⟨false,p.sweeps.worker⟩ ∧
      q.stage.sweepPhase = if p.sweeps.running then some .leaving else some .absent) ∨
    (p.stage.sweepPhase = some .leaving ∧ q.sweeps = ⟨p.sweeps.running,none⟩ ∧
      q.stage.sweepPhase = some .absent) ∨
    (q.sweeps = p.sweeps ∧ q.stage.sweepPhase = p.stage.sweepPhase) := by
  unfold main at hstep
  split at hstep
  all_goals rename_i hstage
  all_goals grind [Stage.sweepPhase,Stage.sweepPhase_after]

theorem main_snapshots {bound : Bool} {cut : Nat} (hstep : p.main bound cut = some q) :
    (p.stage.snapshotPhase = some .absent ∧ q.snapshots = p.snapshots.start .testing ∧
      q.stage.snapshotPhase = some .working) ∨
    (p.stage.snapshotPhase = some .working ∧ q.snapshots = ⟨false,p.snapshots.worker⟩ ∧
      q.stage.snapshotPhase = if p.snapshots.running then some .leaving else some .absent) ∨
    (p.stage.snapshotPhase = some .leaving ∧ q.snapshots = ⟨p.snapshots.running,none⟩ ∧
      q.stage.snapshotPhase = some .absent) ∨
    (q.snapshots = p.snapshots ∧ q.stage.snapshotPhase = p.stage.snapshotPhase) := by
  unfold main at hstep
  split at hstep
  all_goals rename_i hstage
  all_goals grind [Stage.snapshotPhase,Stage.snapshotPhase_after]

theorem main_code {bound : Bool} {cut : Nat} (hstep : p.main bound cut = some q) :
    (q.stage.code = p.stage.code ∧ (q.stage.unbound → p.stage.unbound)) ∨
    (p.stage = .binding ∧ q.stage.code = some 1) ∨
    (q.stage.code = some 0 ∧ q.sessions = p.sessions ∧
      ∀ w ∈ p.sessions.pool.workers, w = .exited) := by
  unfold main at hstep
  split at hstep
  all_goals rename_i hstage
  all_goals grind [Stage.code,Stage.unbound,Stage.code_after]

theorem main_listening {bound : Bool} {cut : Nat} (hstep : p.main bound cut = some q) :
    q.listening = p.listening ∧ (p.stage = .accepting → p.listening = false) ∨
      q.listening = bound ∧ (bound = true → q.stage = .accepting) := by
  unfold main at hstep
  split at hstep
  all_goals rename_i hstage
  all_goals grind

theorem main_sessions {bound : Bool} {cut : Nat} (hstep : p.main bound cut = some q) :
    q.sessions = p.sessions ∨
      q.sessions = ⟨p.sessions.pool.stop,p.sessions.accepted,p.sessions.started,
        p.sessions.finished⟩ := by
  unfold main at hstep
  split at hstep
  all_goals rename_i hstage
  all_goals grind

theorem main_halted {bound : Bool} {cut : Nat} (hstep : p.main bound cut = some q) :
    p.stage.halted = false := by
  unfold main at hstep
  split at hstep
  all_goals rename_i hstage
  all_goals grind [Stage.halted]

theorem Manned.main {bound : Bool} {cut : Nat} (h : p.Manned) (hstep : p.main bound cut = some q) :
    q.Manned := by
  have hworkers : q.sessions.pool.workers = p.sessions.pool.workers := by
    rcases main_sessions hstep with hsame | hstop
    · rw [hsame]
    · rw [hstop]
      rfl
  have haccepted : q.sessions.accepted = p.sessions.accepted := by
    rcases main_sessions hstep with hsame | hstop
    · rw [hsame]
    · rw [hstop]
  refine ⟨?_,fun phase => Scheduler.In.through h.sweeps (main_sweeps hstep),
    fun phase => Scheduler.In.through h.snapshots (main_snapshots hstep),?_,?_,?_⟩
  · rcases main_sessions hstep with hsame | hstop
    · rw [hsame]
      exact h.sessions
    · rw [hstop]
      exact h.sessions.step (i := .shutdown) rfl
  · intro hcode
    rw [hworkers]
    rcases main_code hstep with ⟨hsame,-⟩ | ⟨-,hone⟩ | ⟨-,-,hall⟩
    · exact h.workers (hsame ▸ hcode)
    · rw [hcode] at hone
      cases hone
    · exact hall
  · intro hlistening
    rcases main_listening hstep with ⟨hsame,hclosed⟩ | ⟨hbound,haccepting⟩
    · have hopen := hsame ▸ hlistening
      rcases h.listening hopen with hstage | hstage
      · rw [hclosed hstage] at hopen
        cases hopen
      · have hhalted := main_halted hstep
        rw [hstage] at hhalted
        cases hhalted
    · exact Or.inl (haccepting (hbound ▸ hlistening))
  · intro hunbound
    rw [haccepted]
    rcases main_code hstep with ⟨-,hback⟩ | ⟨hbinding,-⟩ | ⟨hzero,-⟩
    · exact h.unbound (hback hunbound)
    · exact h.unbound (Or.inr (Or.inr (Or.inl hbinding)))
    · exact absurd hunbound (Stage.not_unbound hzero)

theorem snapshotStep_cases {cut : Nat} (hstep : p.snapshotStep cut = some q) :
    ∃ place file, p.snapshots.worker ≠ none ∧
      q = { p with file := file, snapshots := ⟨p.snapshots.running,some place⟩ } := by
  unfold snapshotStep at hstep
  split at hstep
  all_goals rename_i hworker
  all_goals grind

theorem sweepStep_cases {clock : Nat → Int} (hstep : p.sweepStep clock = some q) :
    p.sweeps.worker ≠ none ∧
      ((∃ key rest, p.sweeps.worker = some (.erasing (key :: rest)) ∧ q = { p with
          server := { p.server with storage := (p.server.storage.remove key).1 }
          sweeps := ⟨p.sweeps.running,some (.erasing rest)⟩ }) ∨
        ∃ place, q = { p with sweeps := ⟨p.sweeps.running,some place⟩ } ∧
          ∀ keys, place = .erasing keys →
            keys = (p.server.storage.table.forEach (StorageEngine.gatherExpired clock) (0,[])).2) := by
  unfold sweepStep at hstep
  split at hstep
  all_goals rename_i hworker
  all_goals grind

theorem Manned.snapshotStep {cut : Nat} (h : p.Manned) (hstep : p.snapshotStep cut = some q) :
    q.Manned := by
  obtain ⟨place,file,hworker,rfl⟩ := snapshotStep_cases hstep
  exact ⟨h.sessions,h.sweeps,fun phase hphase => (h.snapshots phase hphase).move hworker place,
    h.workers,h.listening,h.unbound⟩

theorem Manned.sweepStep {clock : Nat → Int} (h : p.Manned) (hstep : p.sweepStep clock = some q) :
    q.Manned := by
  obtain ⟨hworker,⟨key,rest,-,rfl⟩ | ⟨place,rfl,-⟩⟩ := sweepStep_cases hstep
  · exact ⟨h.sessions,fun phase hphase => (h.sweeps phase hphase).move hworker _,h.snapshots,
      h.workers,h.listening,h.unbound⟩
  · exact ⟨h.sessions,fun phase hphase => (h.sweeps phase hphase).move hworker place,h.snapshots,
      h.workers,h.listening,h.unbound⟩

theorem Manned.aborted {server : Server hash} (h : p.Manned) :
    Manned { p with server := server, stage := .aborted } := by
  refine ⟨h.sessions,?_,?_,?_,fun _ => Or.inr rfl,?_⟩
  · intro phase hphase
    cases hphase
  · intro phase hphase
    cases hphase
  · intro hcode
    cases hcode
  · rintro (hstage | hstage | hstage | ⟨n,hn⟩)
    · cases hstage
    · cases hstage
    · cases hstage
    · cases hn

theorem line_cases {w : Nat} {env : Env} (hstep : p.line w env = some q) :
    ∃ k session line, p.sessions.pool.workers[w]? = some (.running (k,session)) ∧
      session[p.position k]? = some line ∧
      ((∃ reply server, (Server.handleLine env line).run p.server = .ok reply server ∧
          q = { p with server := server, served := p.served ++ [⟨k,line,reply⟩] }) ∨
        ∃ x server, (Server.handleLine env line).run p.server = .error x server ∧
          q = { p with server := server, stage := .aborted }) := by
  obtain ⟨⟨k,line⟩,hnext,hq⟩ := Option.map_eq_some_iff.mp hstep
  unfold next at hnext
  split at hnext
  · rename_i j session hworker
    obtain ⟨l,hl,hx⟩ := Option.map_eq_some_iff.mp hnext
    cases hx
    refine ⟨k,session,line,hworker,hl,?_⟩
    cases hrun : (Server.handleLine env line).run p.server with
    | ok reply server =>
      rw [hrun] at hq
      exact Or.inl ⟨reply,server,rfl,hq.symm⟩
    | error x server =>
      rw [hrun] at hq
      exact Or.inr ⟨x,server,rfl,hq.symm⟩
  · cases hnext

theorem Manned.executed (h : p.Manned) (server : Server hash) (served : List Exchange) :
    Manned { p with server := server, served := served } :=
  ⟨h.sessions,h.sweeps,h.snapshots,h.workers,h.listening,h.unbound⟩

theorem Manned.line {w : Nat} {env : Env} (h : p.Manned) (hstep : p.line w env = some q) :
    q.Manned := by
  obtain ⟨k,session,line,-,-,⟨reply,server,-,rfl⟩ | ⟨x,server,-,rfl⟩⟩ := line_cases hstep
  · exact h.executed server _
  · exact h.aborted

theorem accept_sessions (session : List Bytes) (p : ServerProcess hash) :
    (p.accept session).sessions = p.sessions ∨
      PoolRun.step (.enqueue session) p.sessions = some (p.accept session).sessions := by
  unfold accept
  split
  · exact Or.inr rfl
  · exact Or.inl rfl

theorem accept_rest (session : List Bytes) (p : ServerProcess hash) :
    p.accept session = { p with
      connections := (p.accept session).connections
      sessions := (p.accept session).sessions
      server := { p.server with metrics := (p.accept session).server.metrics } } := by
  unfold accept
  split <;> rfl

theorem Manned.accept (h : p.Manned) (hlistening : p.listening = true) (hrun : p.stage.halted = false)
    (session : List Bytes) : (p.accept session).Manned := by
  have hstage : p.stage = .accepting := by
    rcases h.listening hlistening with hstage | hstage
    · exact hstage
    · rw [hstage] at hrun
      cases hrun
  have hsessions : (p.accept session).sessions.Accounted := by
    rcases accept_sessions session p with hsame | hnew
    · rw [hsame]
      exact h.sessions
    · exact h.sessions.step hnew
  rw [accept_rest]
  refine ⟨hsessions,h.sweeps,h.snapshots,?_,h.listening,?_⟩
  · intro hcode
    simp only [hstage] at hcode
    cases hcode
  · intro hunbound
    simp only [hstage] at hunbound
    rcases hunbound with hs | hs | hs | ⟨n,hn⟩
    · cases hs
    · cases hs
    · cases hs
    · cases hn

theorem poolStep_cases {w : Nat} {s t : PoolRun (List Bytes)}
    (h : PoolRun.step (.wake w) s = some t ∨ PoolRun.step (.finish w) s = some t) :
    t.accepted = s.accepted ∧ ∃ x ∈ s.pool.workers, x ≠ .exited := by
  rcases h with h | h
  · obtain ⟨pool,hpool,rfl⟩ := Option.map_eq_some_iff.mp h
    refine ⟨rfl,.waiting,?_,by simp⟩
    rcases ThreadPool.wake_cases hpool with ⟨task,rest,hw,-,-⟩ | ⟨hw,-,-,-⟩
    · exact List.mem_of_getElem? hw
    · exact List.mem_of_getElem? hw
  · obtain ⟨pool,hpool,rfl⟩ := Option.map_eq_some_iff.mp h
    obtain ⟨task,hw,-⟩ := ThreadPool.finish_cases hpool
    exact ⟨rfl,.running task,List.mem_of_getElem? hw,by simp⟩

theorem Manned.poolStep {w : Nat} {t : PoolRun (List Bytes)} (h : p.Manned)
    (hstep : PoolRun.step (.wake w) p.sessions = some t ∨
      PoolRun.step (.finish w) p.sessions = some t) : Manned { p with sessions := t } := by
  obtain ⟨haccepted,x,hx,hworking⟩ := poolStep_cases hstep
  refine ⟨?_,h.sweeps,h.snapshots,?_,h.listening,fun hunbound => haccepted ▸ h.unbound hunbound⟩
  · rcases hstep with hstep | hstep
    · exact h.sessions.step hstep
    · exact h.sessions.step hstep
  · exact fun hcode => absurd (h.workers hcode x hx) hworking

theorem Manned.signal (h : p.Manned) : Manned { p with listening := false } := by
  refine ⟨h.sessions,h.sweeps,h.snapshots,h.workers,?_,h.unbound⟩
  intro hlistening
  cases hlistening

theorem step_some {i : Step} (hstep : step i p = some q) : p.stage.halted = false := by
  unfold step at hstep
  split at hstep
  · cases hstep
  · rename_i hrun
    exact Bool.eq_false_iff.mpr hrun

theorem step_live {i : Step} (hstep : step i p = some q) : p.stage ≠ .aborted := by
  intro hstage
  have hrun := step_some hstep
  rw [hstage] at hrun
  cases hrun

theorem Manned.step {i : Step} (h : p.Manned) (hstep : step i p = some q) : q.Manned := by
  have hrun := step_some hstep
  unfold ServerProcess.step at hstep
  rw [hrun,if_neg Bool.false_ne_true] at hstep
  cases i with
  | main bound cut => exact h.main hstep
  | accept session =>
    dsimp only at hstep
    split at hstep
    · rename_i hlistening
      cases hstep
      exact h.accept hlistening hrun session
    · cases hstep
  | signal =>
    cases hstep
    exact h.signal
  | wake w =>
    obtain ⟨t,ht,rfl⟩ := Option.map_eq_some_iff.mp hstep
    exact h.poolStep (Or.inl ht)
  | line w env => exact h.line hstep
  | finish w =>
    obtain ⟨t,ht,rfl⟩ := Option.map_eq_some_iff.mp hstep
    exact h.poolStep (Or.inr ht)
  | snapshot cut => exact h.snapshotStep hstep
  | sweep clock => exact h.sweepStep hstep
  | kill =>
    cases hstep
    exact h.aborted

theorem step_stage {i : Step} (hstep : ServerProcess.step i p = some q) :
    (∃ bound cut, p.main bound cut = some q) ∨ q.stage = p.stage ∨ q.stage = .aborted := by
  have hrun := step_some hstep
  unfold ServerProcess.step at hstep
  rw [hrun,if_neg Bool.false_ne_true] at hstep
  cases i with
  | main bound cut => exact Or.inl ⟨bound,cut,hstep⟩
  | accept session =>
    dsimp only at hstep
    split at hstep
    · cases hstep
      rw [accept_rest]
      exact Or.inr (Or.inl rfl)
    · cases hstep
  | signal =>
    cases hstep
    exact Or.inr (Or.inl rfl)
  | wake w =>
    obtain ⟨t,-,rfl⟩ := Option.map_eq_some_iff.mp hstep
    exact Or.inr (Or.inl rfl)
  | line w env =>
    obtain ⟨k,session,line,-,-,⟨reply,server,-,rfl⟩ | ⟨x,server,-,rfl⟩⟩ := line_cases hstep
    · exact Or.inr (Or.inl rfl)
    · exact Or.inr (Or.inr rfl)
  | finish w =>
    obtain ⟨t,-,rfl⟩ := Option.map_eq_some_iff.mp hstep
    exact Or.inr (Or.inl rfl)
  | snapshot cut =>
    obtain ⟨place,file,-,rfl⟩ := snapshotStep_cases hstep
    exact Or.inr (Or.inl rfl)
  | sweep clock =>
    obtain ⟨-,⟨key,rest,-,rfl⟩ | ⟨place,rfl,-⟩⟩ := sweepStep_cases hstep
    · exact Or.inr (Or.inl rfl)
    · exact Or.inr (Or.inl rfl)
  | kill =>
    cases hstep
    exact Or.inr (Or.inr rfl)

/-- What a step does to the sessions is a step of the pool, or nothing. -/
theorem step_sessions {i : Step} (hstep : step i p = some q) :
    q.sessions = p.sessions ∨ ∃ j, PoolRun.step j p.sessions = some q.sessions ∧
      ∀ w, j = .finish w → i = .finish w := by
  have hready := step_some hstep
  unfold step at hstep
  rw [hready,if_neg Bool.false_ne_true] at hstep
  cases i with
  | main bound cut =>
    rcases main_sessions hstep with hsame | hstop
    · exact Or.inl hsame
    · exact Or.inr ⟨.shutdown,by rw [hstop]; rfl,fun _ hj => nomatch hj⟩
  | accept session =>
    dsimp only at hstep
    split at hstep
    · cases hstep
      rcases accept_sessions session p with hsame | hnew
      · exact Or.inl hsame
      · exact Or.inr ⟨_,hnew,fun _ hj => nomatch hj⟩
    · cases hstep
  | signal =>
    cases hstep
    exact Or.inl rfl
  | wake w =>
    obtain ⟨t,ht,rfl⟩ := Option.map_eq_some_iff.mp hstep
    exact Or.inr ⟨_,ht,fun _ hj => nomatch hj⟩
  | line w env =>
    obtain ⟨k,session,line,-,-,⟨reply,server,-,rfl⟩ | ⟨x,server,-,rfl⟩⟩ := line_cases hstep
    · exact Or.inl rfl
    · exact Or.inl rfl
  | finish w =>
    obtain ⟨t,ht,rfl⟩ := Option.map_eq_some_iff.mp hstep
    refine Or.inr ⟨_,ht,fun v hj => ?_⟩
    cases hj
    rfl
  | snapshot cut =>
    obtain ⟨place,file,-,rfl⟩ := snapshotStep_cases hstep
    exact Or.inl rfl
  | sweep clock =>
    obtain ⟨-,⟨key,rest,-,rfl⟩ | ⟨place,rfl,-⟩⟩ := sweepStep_cases hstep
    · exact Or.inl rfl
    · exact Or.inl rfl
  | kill =>
    cases hstep
    exact Or.inl rfl

theorem step_running {i : Step} (hstep : step i p = some q) {w : Nat} (hi : i ≠ .finish w)
    {task : Nat × List Bytes} (hw : p.sessions.pool.workers[w]? = some (.running task)) :
    q.sessions.pool.workers[w]? = some (.running task) := by
  rcases step_sessions hstep with hsame | ⟨j,hj,hfinish⟩
  · rw [hsame]
    exact hw
  · exact PoolRun.step_running hj (fun heq => hi (hfinish w heq)) hw

theorem step_accepted {i : Step} (hstep : step i p = some q) :
    p.sessions.accepted <+: q.sessions.accepted := by
  rcases step_sessions hstep with hsame | ⟨j,hj,-⟩
  · rw [hsame]
  · exact PoolRun.step_accepted hj

theorem manned_moves {config : ServerConfig} {dir : DataDir} {steps : List Step}
    (h : Runs.Moves step (boot hash config dir) steps p) : p.Manned :=
  Runs.moves_invariant (fun _ _ _ _ hu hmove => hu.step hmove) (manned_boot hash config dir) h

end ServerProcess
end VoltDBX
