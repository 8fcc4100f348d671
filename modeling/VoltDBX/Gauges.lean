import VoltDBX.ServerProcess

/-!
The numbers of INFO (monitor/metrics.cpp) among the session handler of `DatabaseServer::run`,
the commands of other sessions and other INFOs: every lock of the collector and every look at
the size of the table is a step of its own.
-/

set_option autoImplicit false

namespace VoltDBX
open Runs

inductive HandlerStage where
  | idle
  | admitted
  | counted (active : Nat)
  | announced
  | dispatched
  | released
  | recounted (active : Nat)
  | measuring
  | measured (keys : Nat)
  | sizing
  | sized (keys : Nat)
  deriving DecidableEq, Repr

inductive InfoStage where
  | idle
  | counted
  | read (keys : Nat)
  | stored
  | replied (text : Bytes)
  deriving DecidableEq, Repr

structure Gauges (hash : Bytes → Nat) (κ : Type) where
  storage : StorageEngine hash
  metrics : MetricsCollector
  connections : ConnectionPool
  handler : HandlerStage
  infos : κ → InfoStage

namespace Gauges
variable {hash : Bytes → Nat} {κ : Type}

def start (e : StorageEngine hash) (maxClients : Nat) : Gauges hash κ :=
  ⟨e,.create,⟨maxClients,0,0⟩,.idle,fun _ => .idle⟩

/-- The statements of the session handler. What `dispatch` queues is served by others. -/
def handle (s : Gauges hash κ) : Option (Gauges hash κ) :=
  match s.handler with
  | .idle => none
  | .admitted => some { s with handler := .counted s.connections.active }
  | .counted n => some { s with
      metrics := s.metrics.setActiveClients (n+1)
      handler := .announced }
  | .announced => some { s with handler := .dispatched }
  | .dispatched => some { s with connections := s.connections.release, handler := .released }
  | .released => some { s with handler := .recounted s.connections.active }
  | .recounted n => some { s with
      metrics := s.metrics.setActiveClients n
      handler := .measuring }
  | .measuring => some { s with handler := .measured s.storage.entryCount }
  | .measured n => some { s with metrics := s.metrics.setKeysStored n, handler := .sizing }
  | .sizing => some { s with handler := .sized s.storage.entryCount }
  | .sized n => some { s with metrics := s.metrics.setMemoryBytes (n*128), handler := .idle }

variable [DecidableEq κ]

def info (c : κ) (s : Gauges hash κ) : Option (Gauges hash κ) :=
  match s.infos c with
  | .counted => some { s with infos := Function.update s.infos c (.read s.storage.entryCount) }
  | .read n => some { s with
      metrics := s.metrics.setKeysStored n
      infos := Function.update s.infos c .stored }
  | .stored => some { s with infos := Function.update s.infos c (.replied s.metrics.renderInfo) }
  | .idle | .replied _ => none

inductive Step (κ : Type) where
  | connect
  | handler
  | dispatch (c : κ)
  | command
  | info (c : κ)
  | insert (key : Bytes) (entry : StorageEntry)
  | erase (key : Bytes)
  | clear

def step : Step κ → Gauges hash κ → Option (Gauges hash κ)
  | .connect, s =>
    if s.handler = .idle then some { s with
      connections := s.connections.admitConnection.1
      handler := if s.connections.admitConnection.2 then .admitted else .idle }
    else none
  | .handler, s => s.handle
  | .dispatch c, s =>
    if s.infos c = .idle then some { s with
      metrics := s.metrics.recordCommand
      infos := Function.update s.infos c .counted }
    else none
  | .command, s => some { s with metrics := s.metrics.recordCommand }
  | .info c, s => s.info c
  | .insert key entry, s => some { s with storage := s.storage.insert key entry }
  | .erase key, s => some { s with storage := (s.storage.remove key).1 }
  | .clear, s => some { s with storage := s.storage.clearAll }

/-- The calls of an INFO are the INFO of the dispatcher. -/
theorem info_alone {c : κ} {s t : Gauges hash κ} {server : Server hash} {env : Env}
    {cmd : ParsedCommand} (hcmd : cmd.type = .info) (hstorage : server.storage = s.storage)
    (hmetrics : server.metrics = s.metrics)
    (hrun : Moves step s [.dispatch c,.info c,.info c,.info c] t) :
    ∃ text next, (Server.dispatch env cmd).run server = .ok text next ∧
      t.infos c = .replied text ∧ t.metrics = next.metrics := by
  have hdispatch : (Server.dispatch env cmd).run server =
      .ok (Server.handleInfo server.recordCommand).2 (Server.handleInfo server.recordCommand).1 := by
    rw [Server.run_dispatch,hcmd]
    rfl
  refine ⟨_,_,hdispatch,?_⟩
  obtain ⟨u,hu,hrun⟩ := moves_cons.mp hrun
  simp only [step] at hu
  split at hu
  · cases hu
    obtain ⟨v,hv,hrun⟩ := moves_cons.mp hrun
    simp only [step,info,Function.update_self,Option.some.injEq] at hv
    subst hv
    obtain ⟨w,hw,hrun⟩ := moves_cons.mp hrun
    simp only [step,info,Function.update_self,Option.some.injEq] at hw
    subst hw
    obtain ⟨x,hx,hrun⟩ := moves_cons.mp hrun
    simp only [step,info,Function.update_self,Option.some.injEq] at hx
    subst hx
    cases moves_nil.mp hrun
    simp only [Server.handleInfo,Server.recordCommand,hstorage,hmetrics,Function.update_self,
      and_self]
  · cases hu

/-- The statements of the handler are the accepting of a session. -/
theorem accept_alone {s t : Gauges hash κ} {p : ServerProcess hash} (session : List Bytes)
    (hidle : s.handler = .idle) (hstorage : p.server.storage = s.storage)
    (hmetrics : p.server.metrics = s.metrics) (hconnections : p.connections = s.connections)
    (hfree : s.connections.admitConnection.2 = true)
    (hrun : Moves step s (.connect :: List.replicate 10 .handler) t) :
    t.metrics = (p.accept session).server.metrics ∧
      t.connections = (p.accept session).connections ∧ t.handler = .idle := by
  have hend : List.foldlM (fun u i => step i u) s (.connect :: List.replicate 10 .handler) =
      some { s with
        connections := s.connections.admitConnection.1.release
        metrics := (((s.metrics.setActiveClients (s.connections.admitConnection.1.active+1)
          ).setActiveClients s.connections.admitConnection.1.release.active).setKeysStored
          s.storage.entryCount).setMemoryBytes (s.storage.entryCount*128)
        handler := .idle } := by
    simp only [List.foldlM_cons,step,hidle,hfree,if_true]
    rfl
  cases hrun.eq (moves_iff_foldlM.mpr hend)
  simp only [ServerProcess.accept,hconnections,hfree,if_true,hmetrics,hstorage]
  exact ⟨rfl,trivial,trivial⟩

end Gauges

namespace HandlerStage

def announcing : HandlerStage → Bool
  | .announced | .dispatched | .released | .recounted _ => true
  | _ => false

def holding : HandlerStage → Bool
  | .admitted | .counted _ | .announced | .dispatched => true
  | _ => false

end HandlerStage

namespace Gauges
variable {hash : Bytes → Nat} {κ : Type}

structure Counting (s : Gauges hash κ) : Prop where
  active : s.connections.active = if s.handler.holding then 1 else 0
  shown : s.metrics.activeClients = if s.handler.announcing then 2 else 0
  first : ∀ n, s.handler = .counted n → n = 1
  second : ∀ n, s.handler = .recounted n → n = 0

theorem Counting.of_eq {s t : Gauges hash κ} (h : s.Counting) (hconnections : t.connections = s.connections)
    (hshown : t.metrics.activeClients = s.metrics.activeClients) (hhandler : t.handler = s.handler) :
    t.Counting :=
  ⟨by rw [hconnections,hhandler]; exact h.active,by rw [hshown,hhandler]; exact h.shown,
    by rw [hhandler]; exact h.first,by rw [hhandler]; exact h.second⟩

theorem Counting.of_stage {s : Gauges hash κ}
    (hactive : s.connections.active = if s.handler.holding then 1 else 0)
    (hshown : s.metrics.activeClients = if s.handler.announcing then 2 else 0)
    (hcounted : ∀ n, s.handler ≠ .counted n) (hrecounted : ∀ n, s.handler ≠ .recounted n) :
    s.Counting :=
  ⟨hactive,hshown,fun n hn => absurd hn (hcounted n),fun n hn => absurd hn (hrecounted n)⟩

theorem Counting.handle {s t : Gauges hash κ} (h : s.Counting) (hstep : s.handle = some t) :
    t.Counting := by
  obtain ⟨hactive,hshown,hfirst,hsecond⟩ := h
  unfold Gauges.handle at hstep
  split at hstep <;> cases hstep <;> rename_i hstage <;>
    simp only [hstage,HandlerStage.holding,HandlerStage.announcing,if_true,if_false,
      Bool.false_eq_true] at hactive hshown
  · exact ⟨hactive,hshown,fun n hn => by cases hn; exact hactive,by simp⟩
  · rename_i n
    obtain rfl := hfirst n hstage
    exact .of_stage hactive rfl (by simp) (by simp)
  · exact .of_stage hactive hshown (by simp) (by simp)
  · refine .of_stage ?_ hshown (by simp) (by simp)
    simp [ConnectionPool.release,hactive,HandlerStage.holding]
  · exact ⟨hactive,hshown,by simp,fun n hn => by cases hn; exact hactive⟩
  · rename_i n
    obtain rfl := hsecond n hstage
    exact .of_stage hactive rfl (by simp) (by simp)
  · exact .of_stage hactive hshown (by simp) (by simp)
  · exact .of_stage hactive hshown (by simp) (by simp)
  · exact .of_stage hactive hshown (by simp) (by simp)
  · exact .of_stage hactive hshown (by simp) (by simp)

variable [DecidableEq κ]

theorem Counting.step {s t : Gauges hash κ} (h : s.Counting) {i : Step κ}
    (hstep : Gauges.step i s = some t) : t.Counting := by
  cases i with
  | connect =>
    simp only [Gauges.step] at hstep
    split at hstep
    · rename_i hidle
      cases hstep
      obtain ⟨hactive,hshown,-,-⟩ := h
      simp only [hidle,HandlerStage.holding,HandlerStage.announcing,if_false,
        Bool.false_eq_true] at hactive hshown
      by_cases hfull : s.connections.active ≥ s.connections.maxConnections
      · simp only [ConnectionPool.admitConnection,hfull,if_true,Bool.false_eq_true,if_false]
        exact .of_stage hactive hshown (by simp) (by simp)
      · simp only [ConnectionPool.admitConnection,hfull,if_false,if_true]
        refine .of_stage ?_ hshown (by simp) (by simp)
        simp [hactive,HandlerStage.holding]
    · cases hstep
  | handler => exact h.handle hstep
  | dispatch c =>
    simp only [Gauges.step] at hstep
    split at hstep
    · cases hstep
      exact h.of_eq rfl rfl rfl
    · cases hstep
  | command =>
    cases hstep
    exact h.of_eq rfl rfl rfl
  | info c =>
    simp only [Gauges.step,info] at hstep
    split at hstep <;> cases hstep <;> exact h.of_eq rfl rfl rfl
  | insert key entry =>
    cases hstep
    exact h.of_eq rfl rfl rfl
  | erase key =>
    cases hstep
    exact h.of_eq rfl rfl rfl
  | clear =>
    cases hstep
    exact h.of_eq rfl rfl rfl

theorem counting_moves {e : StorageEngine hash} {maxClients : Nat} {steps : List (Step κ)}
    {s : Gauges hash κ} (hrun : Moves step (start e maxClients) steps s) : s.Counting :=
  moves_invariant (fun _ _ _ _ hu hmove => hu.step hmove)
    ⟨rfl,rfl,fun _ h => (by cases h),fun _ h => (by cases h)⟩ hrun

/-- A number of keys that is read is that of the table; one that is stored has been read. -/
structure Passes (s t : Gauges hash κ) : Prop where
  measured : ∀ n, t.handler = .measured n → s.handler = .measured n ∨ t.storage.entryCount = n
  read : ∀ d n, t.infos d = .read n → s.infos d = .read n ∨ t.storage.entryCount = n
  keys : t.metrics.keysStored = s.metrics.keysStored ∨
    s.handler = .measured t.metrics.keysStored ∨ ∃ d, s.infos d = .read t.metrics.keysStored
  stored : ∀ d, t.infos d = .stored →
    s.infos d = .stored ∨ s.infos d = .read t.metrics.keysStored
  replied : ∀ d text, t.infos d = .replied text →
    s.infos d = .replied text ∨ s.infos d = .stored ∧ text = s.metrics.renderInfo
  sized : ∀ n, t.handler = .sized n → s.handler = .sized n ∨ t.storage.entryCount = n
  memory : t.metrics.memoryBytes = s.metrics.memoryBytes ∨
    ∃ n, s.handler = .sized n ∧ t.metrics.memoryBytes = n*128

omit [DecidableEq κ] in
theorem Passes.of_eq {s t : Gauges hash κ} (hhandler : t.handler = s.handler)
    (hinfos : t.infos = s.infos) (hkeys : t.metrics.keysStored = s.metrics.keysStored)
    (hmemory : t.metrics.memoryBytes = s.metrics.memoryBytes) : Passes s t :=
  ⟨fun _ hn => Or.inl (hhandler ▸ hn),fun _ _ hn => Or.inl (hinfos ▸ hn),Or.inl hkeys,
    fun _ hd => Or.inl (hinfos ▸ hd),fun _ _ hd => Or.inl (hinfos ▸ hd),
    fun _ hn => Or.inl (hhandler ▸ hn),Or.inl hmemory⟩

omit [DecidableEq κ] in
theorem Passes.of_quiet {s t : Gauges hash κ} (hmeasured : ∀ n, t.handler ≠ .measured n)
    (hsized : ∀ n, t.handler ≠ .sized n) (hinfos : t.infos = s.infos)
    (hkeys : t.metrics.keysStored = s.metrics.keysStored)
    (hmemory : t.metrics.memoryBytes = s.metrics.memoryBytes) : Passes s t :=
  ⟨fun n hn => absurd hn (hmeasured n),fun _ _ hn => Or.inl (hinfos ▸ hn),Or.inl hkeys,
    fun _ hd => Or.inl (hinfos ▸ hd),fun _ _ hd => Or.inl (hinfos ▸ hd),
    fun n hn => absurd hn (hsized n),Or.inl hmemory⟩

omit [DecidableEq κ] in
theorem passes_handle {s t : Gauges hash κ} (hstep : s.handle = some t) : Passes s t := by
  unfold Gauges.handle at hstep
  split at hstep <;> cases hstep <;> rename_i hstage
  · exact .of_quiet nofun nofun rfl rfl rfl
  · exact .of_quiet nofun nofun rfl rfl rfl
  · exact .of_quiet nofun nofun rfl rfl rfl
  · exact .of_quiet nofun nofun rfl rfl rfl
  · exact .of_quiet nofun nofun rfl rfl rfl
  · exact .of_quiet nofun nofun rfl rfl rfl
  · -- `measuring`
    refine ⟨fun n hn => ?_,fun _ _ hn => Or.inl hn,Or.inl rfl,fun _ hd => Or.inl hd,
      fun _ _ hd => Or.inl hd,nofun,Or.inl rfl⟩
    cases hn
    exact Or.inr rfl
  · exact ⟨nofun,fun _ _ hn => Or.inl hn,Or.inr (Or.inl hstage),fun _ hd => Or.inl hd,
      fun _ _ hd => Or.inl hd,nofun,Or.inl rfl⟩
  · -- `sizing`
    refine ⟨nofun,fun _ _ hn => Or.inl hn,Or.inl rfl,fun _ hd => Or.inl hd,
      fun _ _ hd => Or.inl hd,fun n hn => ?_,Or.inl rfl⟩
    cases hn
    exact Or.inr rfl
  · exact ⟨nofun,fun _ _ hn => Or.inl hn,Or.inl rfl,fun _ hd => Or.inl hd,
      fun _ _ hd => Or.inl hd,nofun,Or.inr ⟨_,hstage,rfl⟩⟩

theorem update_cases {infos : κ → InfoStage} {c d : κ} {new stage : InfoStage}
    (h : Function.update infos c new d = stage) : infos d = stage ∨ d = c ∧ new = stage := by
  by_cases hd : d = c
  · subst hd
    rw [Function.update_self] at h
    exact Or.inr ⟨rfl,h⟩
  · rw [Function.update_of_ne hd] at h
    exact Or.inl h

theorem update_other {infos : κ → InfoStage} {c d : κ} {new stage : InfoStage}
    (h : Function.update infos c new d = stage) (hne : new ≠ stage) : infos d = stage := by
  rcases update_cases h with hold | ⟨-,hnew⟩
  · exact hold
  · exact absurd hnew hne

theorem passes_info {c : κ} {s t : Gauges hash κ} (hstep : s.info c = some t) : Passes s t := by
  unfold Gauges.info at hstep
  split at hstep <;> cases hstep <;> rename_i hstage
  · refine ⟨fun _ hn => Or.inl hn,fun d n hn => ?_,Or.inl rfl,
      fun _ hd => Or.inl (update_other hd nofun),fun _ _ hd => Or.inl (update_other hd nofun),
      fun _ hn => Or.inl hn,Or.inl rfl⟩
    rcases update_cases hn with hold | ⟨-,hnew⟩
    · exact Or.inl hold
    · cases hnew
      exact Or.inr rfl
  · refine ⟨fun _ hn => Or.inl hn,fun _ _ hn => Or.inl (update_other hn nofun),
      Or.inr (Or.inr ⟨c,hstage⟩),fun d hd => ?_,fun _ _ hd => Or.inl (update_other hd nofun),
      fun _ hn => Or.inl hn,Or.inl rfl⟩
    rcases update_cases hd with hold | ⟨rfl,-⟩
    · exact Or.inl hold
    · exact Or.inr hstage
  · refine ⟨fun _ hn => Or.inl hn,fun _ _ hn => Or.inl (update_other hn nofun),Or.inl rfl,
      fun _ hd => Or.inl (update_other hd nofun),fun d text hd => ?_,fun _ hn => Or.inl hn,
      Or.inl rfl⟩
    rcases update_cases hd with hold | ⟨rfl,hnew⟩
    · exact Or.inl hold
    · cases hnew
      exact Or.inr ⟨hstage,rfl⟩

theorem passes_step {i : Step κ} {s t : Gauges hash κ} (hstep : step i s = some t) :
    Passes s t := by
  cases i with
  | connect =>
    simp only [step] at hstep
    split at hstep
    · cases hstep
      refine .of_quiet (fun n => ?_) (fun n => ?_) rfl rfl rfl
      · dsimp only
        split <;> exact nofun
      · dsimp only
        split <;> exact nofun
    · cases hstep
  | handler => exact passes_handle hstep
  | dispatch c =>
    simp only [step] at hstep
    split at hstep
    · cases hstep
      exact ⟨fun _ hn => Or.inl hn,fun _ _ hn => Or.inl (update_other hn nofun),Or.inl rfl,
        fun _ hd => Or.inl (update_other hd nofun),fun _ _ hd => Or.inl (update_other hd nofun),
        fun _ hn => Or.inl hn,Or.inl rfl⟩
    · cases hstep
  | command =>
    cases hstep
    exact .of_eq rfl rfl rfl rfl
  | info c => exact passes_info hstep
  | insert key entry =>
    cases hstep
    exact .of_eq rfl rfl rfl rfl
  | erase key =>
    cases hstep
    exact .of_eq rfl rfl rfl rfl
  | clear =>
    cases hstep
    exact .of_eq rfl rfl rfl rfl

def counts : Step κ → Bool
  | .dispatch _ | .command => true
  | _ => false

theorem commands_step {i : Step κ} {s t : Gauges hash κ} (hstep : step i s = some t) :
    t.metrics.commands = s.metrics.commands+[i].countP counts := by
  cases i with
  | connect =>
    simp only [step] at hstep
    split at hstep <;> cases hstep
    rfl
  | handler =>
    simp only [step,handle] at hstep
    split at hstep <;> cases hstep <;> rfl
  | dispatch c =>
    simp only [step] at hstep
    split at hstep <;> cases hstep
    rfl
  | command =>
    cases hstep
    rfl
  | info c =>
    simp only [step,info] at hstep
    split at hstep <;> cases hstep <;> rfl
  | insert key entry =>
    cases hstep
    rfl
  | erase key =>
    cases hstep
    rfl
  | clear =>
    cases hstep
    rfl

theorem commands_moves {steps : List (Step κ)} {s t : Gauges hash κ} (hrun : Moves step s steps t) :
    t.metrics.commands = s.metrics.commands+steps.countP counts := by
  refine moves_history (I := fun js u => u.metrics.commands = s.metrics.commands+js.countP counts)
    rfl (fun js i u v _ hu hstep => ?_) hrun
  rw [commands_step hstep,hu,List.countP_append,Nat.add_assoc]

def Had (s : Gauges hash κ) (steps : List (Step κ)) (n : Nat) : Prop :=
  Visits step (fun u => u.storage.entryCount = n) s steps

theorem memory_moves {e : StorageEngine hash} {maxClients : Nat} {steps : List (Step κ)}
    {s : Gauges hash κ} (hrun : Moves step (start e maxClients) steps s) :
    s.metrics.memoryBytes = 0 ∨
      ∃ n, Had (start e maxClients) steps n ∧ s.metrics.memoryBytes = n*128 := by
  refine (moves_history (I := fun js (u : Gauges hash κ) =>
    (∀ n, u.handler = .sized n → Had (start e maxClients) js n) ∧ (u.metrics.memoryBytes = 0 ∨
      ∃ n, Had (start e maxClients) js n ∧ u.metrics.memoryBytes = n*128))
    ⟨fun n hn => (by cases hn),Or.inl rfl⟩ (fun js i u v hu ⟨hsized,hmemory⟩ hstep => ?_) hrun).2
  have hrun' : Moves step (start e maxClients) (js ++ [i]) v :=
    moves_append.mpr ⟨u,hu,moves_cons.mpr ⟨v,hstep,moves_nil.mpr rfl⟩⟩
  have hpass := passes_step hstep
  refine ⟨fun n hn => ?_,?_⟩
  · rcases hpass.sized n hn with hold | hnow
    · exact (hsized n hold).append _
    · exact visits_end hrun' hnow
  · rcases hpass.memory with hsame | ⟨n,hn,hnew⟩
    · rw [hsame]
      rcases hmemory with hzero | ⟨n,hn,hold⟩
      · exact Or.inl hzero
      · exact Or.inr ⟨n,hn.append _,hold⟩
    · exact Or.inr ⟨n,(hsized n hn).append _,hnew⟩

/-- The table has had `n` keys since `s`, or the session handler or an INFO had read that
number before and had still to store it. -/
def Known (s : Gauges hash κ) (steps : List (Step κ)) (n : Nat) : Prop :=
  Had s steps n ∨ s.handler = .measured n ∨ ∃ d, s.infos d = .read n

theorem Known.append {s : Gauges hash κ} {steps : List (Step κ)} {n : Nat} (h : Known s steps n)
    (more : List (Step κ)) : Known s (steps ++ more) n := by
  rcases h with hhad | hread
  · exact Or.inl (hhad.append more)
  · exact Or.inr hread

structure Told (s : Gauges hash κ) (c : κ) (steps : List (Step κ)) (t : Gauges hash κ) : Prop where
  measured : ∀ n, t.handler = .measured n → Known s steps n
  read : ∀ d n, t.infos d = .read n → Known s steps n
  stored : t.infos c = .stored → Known s steps t.metrics.keysStored
  replied : ∀ text, t.infos c = .replied text → ∃ before after u, steps = before ++ after ∧
    Moves step s before u ∧ text = u.metrics.renderInfo ∧ Known s before u.metrics.keysStored

theorem Told.step {s u v : Gauges hash κ} {c : κ} {steps : List (Step κ)} {i : Step κ}
    (h : Told s c steps u) (hrun : Moves step s steps u) (hstep : Gauges.step i u = some v) :
    Told s c (steps ++ [i]) v := by
  have hrun' : Moves Gauges.step s (steps ++ [i]) v :=
    moves_append.mpr ⟨u,hrun,moves_cons.mpr ⟨v,hstep,moves_nil.mpr rfl⟩⟩
  have hpass := passes_step hstep
  refine ⟨fun n hn => ?_,fun d n hn => ?_,fun hc => ?_,fun text hc => ?_⟩
  · rcases hpass.measured n hn with hold | hnow
    · exact (h.measured n hold).append _
    · exact Or.inl (visits_end hrun' hnow)
  · rcases hpass.read d n hn with hold | hnow
    · exact (h.read d n hold).append _
    · exact Or.inl (visits_end hrun' hnow)
  · rcases hpass.stored c hc with hold | hread
    · -- another INFO or the handler may store its number over that of `c`
      rcases hpass.keys with hsame | hmeasured | ⟨d,hd⟩
      · rw [hsame]
        exact (h.stored hold).append _
      · exact (h.measured _ hmeasured).append _
      · exact (h.read d _ hd).append _
    · exact (h.read c _ hread).append _
  · rcases hpass.replied c text hc with hold | ⟨hstored,rfl⟩
    · obtain ⟨before,after,w,rfl,hw⟩ := h.replied text hold
      exact ⟨before,after ++ [i],w,List.append_assoc _ _ _,hw⟩
    · exact ⟨steps,[i],u,rfl,hrun,rfl,h.stored hstored⟩

/-- What an INFO shows, whatever goes on beside it. All its numbers are those of one moment: the
commands counted by then; 2 clients while the session handler of a new connection is between
its two settings, and else 0, however many there are; the memory of a number of keys that the
table has had; and a number of keys that it has had since the INFO was dispatched, unless one
that was read before is stored late. -/
theorem info_shows_one_moment {e : StorageEngine hash} {maxClients : Nat}
    {earlier steps : List (Step κ)} {s t : Gauges hash κ} {c : κ} {text : Bytes}
    (hearlier : Moves step (start e maxClients) earlier s) (hidle : s.infos c = .idle)
    (hrun : Moves step s steps t) (hdone : t.infos c = .replied text) :
    ∃ before after u, steps = before ++ after ∧ Moves step s before u ∧
      text = u.metrics.renderInfo ∧
      u.metrics.commands = (earlier ++ before).countP counts ∧
      u.metrics.activeClients = (if u.handler.announcing then 2 else 0) ∧
      (u.metrics.memoryBytes = 0 ∨ ∃ n, Had (start e maxClients) (earlier ++ before) n ∧
        u.metrics.memoryBytes = n*128) ∧
      (Had s before u.metrics.keysStored ∨ s.handler = .measured u.metrics.keysStored ∨
        ∃ d, s.infos d = .read u.metrics.keysStored) := by
  have hstart : Told s c [] s := by
    refine ⟨fun n hn => Or.inr (Or.inl hn),fun d n hn => Or.inr (Or.inr ⟨d,hn⟩),fun hc => ?_,
      fun text hc => ?_⟩
    · rw [hidle] at hc
      cases hc
    · rw [hidle] at hc
      cases hc
  have htold : Told s c steps t :=
    moves_history (I := fun js u => Told s c js u) hstart
      (fun _ _ _ _ hu h hstep => h.step hu hstep) hrun
  obtain ⟨before,after,u,rfl,hu,rfl,hkeys⟩ := htold.replied text hdone
  have hall : Moves step (start e maxClients) (earlier ++ before) u :=
    moves_append.mpr ⟨s,hearlier,hu⟩
  refine ⟨before,after,u,rfl,hu,rfl,?_,(counting_moves hall).shown,memory_moves hall,hkeys⟩
  rw [commands_moves hall]
  exact Nat.zero_add _

/-- An INFO of a session that is being admitted: it counts two clients. -/
theorem info_shows_one_moment_example :
    ∃ (e : StorageEngine fun _ => 0) (t : Gauges (fun _ => 0) Unit) (text : Bytes),
      Moves step (start e 10) ([Step.command,.connect,.handler,.handler,.handler] ++
        [Step.dispatch (),.info (),.info (),.info (),.handler]) t ∧
      t.infos () = .replied text ∧ ∃ u : Gauges (fun _ => 0) Unit,
        text = u.metrics.renderInfo ∧ u.metrics.activeClients = if u.handler.announcing then 2 else 0 := by
  refine ⟨StorageEngine.create _,?_⟩
  generalize StorageEngine.create (fun _ => 0) = e
  have hearlier : Moves step (start e 10 : Gauges (fun _ => 0) Unit)
      [.command,.connect,.handler,.handler,.handler] ⟨e,⟨1,1,2,0,0⟩,⟨10,1,0⟩,.dispatched,fun _ => .idle⟩ :=
    moves_iff_foldlM.mpr rfl
  have hmetrics : ∃ t, Moves step
      (⟨e,⟨1,1,2,0,0⟩,⟨10,1,0⟩,.dispatched,fun _ => .idle⟩ : Gauges (fun _ => 0) Unit)
      [.dispatch (),.info (),.info (),.info (),.handler] t ∧
      t.infos () = .replied (MetricsCollector.renderInfo ⟨2,2,2,e.entryCount,0⟩) := by
    refine ⟨_,moves_iff_foldlM.mpr rfl,?_⟩
    rfl
  obtain ⟨t,hrun,hdone⟩ := hmetrics
  obtain ⟨before,after,u,-,-,htext,-,hactive,-⟩ := info_shows_one_moment hearlier rfl hrun hdone
  exact ⟨t,_,moves_append.mpr ⟨_,hearlier,hrun⟩,hdone,u,htext,hactive⟩

end Gauges
end VoltDBX
