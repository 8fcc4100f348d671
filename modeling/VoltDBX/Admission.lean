import Mathlib.Data.List.Induction
import VoltDBX.ThreadPool

/-!
The client limit: net/connection_pool.cpp and the session handler of `DatabaseServer::run`,
over the pool that serves the sessions.
-/

set_option autoImplicit false

namespace VoltDBX

/-- The idle clock of the pool is left out; nothing here reads it. -/
structure ConnectionPool where
  maxConnections : Nat
  active : Nat
  rejected : Nat
  deriving DecidableEq, Repr

namespace ConnectionPool

def admitConnection (c : ConnectionPool) : ConnectionPool × Bool :=
  if c.active ≥ c.maxConnections then (⟨c.maxConnections,c.active,c.rejected+1⟩,false)
  else (⟨c.maxConnections,c.active+1,c.rejected⟩,true)

def release (c : ConnectionPool) : ConnectionPool :=
  if c.active > 0 then ⟨c.maxConnections,c.active-1,c.rejected⟩ else c

end ConnectionPool

/-- `refused` are the sessions that were told `max clients reached`. -/
structure Listener (κ : Type) where
  connections : ConnectionPool
  pool : ThreadPool κ
  refused : List κ
  deriving DecidableEq, Repr

namespace Listener
variable {κ : Type}

def start (maxClients : Nat) : Listener κ := ⟨⟨maxClients,0,0⟩,ThreadPool.create 4,[]⟩

/-- The session handler. The place is given back as soon as the session is queued. -/
def accept (s : Listener κ) (session : κ) : Listener κ :=
  if s.connections.admitConnection.2 then
    ⟨s.connections.admitConnection.1.release,s.pool.enqueue session,s.refused⟩
  else ⟨s.connections.admitConnection.1,s.pool,s.refused ++ [session]⟩

inductive Step (κ : Type) where
  | accept (session : κ)
  | begin (w : Nat)
  | finish (w : Nat)
  deriving DecidableEq, Repr

def step : Step κ → Listener κ → Option (Listener κ)
  | .accept session, s => some (s.accept session)
  | .begin w, s => (s.pool.wake w).map fun p => ⟨s.connections,p,s.refused⟩
  | .finish w, s => (s.pool.finish w).map fun p => ⟨s.connections,p,s.refused⟩

def live (s : Listener κ) : Nat := s.pool.tasks.length+s.pool.running.length

structure Open (maxClients : Nat) (s : Listener κ) : Prop where
  limit : s.connections.maxConnections = maxClients
  free : s.connections.active = 0
  running : s.pool.stopping = false

theorem open_start (maxClients : Nat) : (start maxClients : Listener κ).Open maxClients :=
  ⟨rfl,rfl,rfl⟩

theorem Open.accept_eq {maxClients : Nat} {s : Listener κ} (h : s.Open maxClients) (session : κ) :
    s.accept session = if maxClients = 0 then
        ⟨⟨0,0,s.connections.rejected+1⟩,s.pool,s.refused ++ [session]⟩
      else ⟨s.connections,⟨s.pool.tasks ++ [session],false,s.pool.workers⟩,s.refused⟩ := by
  obtain ⟨⟨limit,active,rejected⟩,pool,refused⟩ := s
  obtain ⟨rfl,rfl,hrunning⟩ := h
  have hopen : pool.stopping = false := hrunning
  by_cases hzero : limit = 0
  · subst hzero
    rfl
  · have hfull : ¬ 0 ≥ limit := by omega
    simp [accept,ConnectionPool.admitConnection,ConnectionPool.release,ThreadPool.enqueue,hfull,
      hzero,hopen]

theorem Open.step {maxClients : Nat} {i : Step κ} {s t : Listener κ} (h : s.Open maxClients)
    (hi : step i s = some t) : t.Open maxClients := by
  cases i with
  | accept session =>
    cases hi
    rw [h.accept_eq]
    by_cases hzero : maxClients = 0
    · rw [if_pos hzero,hzero]
      exact ⟨rfl,rfl,h.running⟩
    · rw [if_neg hzero]
      exact ⟨h.limit,h.free,rfl⟩
  | begin w =>
    obtain ⟨p,hp,rfl⟩ := Option.map_eq_some_iff.mp hi
    refine ⟨h.limit,h.free,?_⟩
    rcases ThreadPool.wake_cases hp with ⟨task,rest,-,-,rfl⟩ | ⟨-,-,hstop,-⟩
    · exact h.running
    · rw [h.running] at hstop
      cases hstop
  | finish w =>
    obtain ⟨p,hp,rfl⟩ := Option.map_eq_some_iff.mp hi
    obtain ⟨task,-,rfl⟩ := ThreadPool.finish_cases hp
    exact ⟨h.limit,h.free,h.running⟩

theorem open_moves {maxClients : Nat} {steps : List (Step κ)} {t : Listener κ}
    (h : Runs.Moves step (start maxClients) steps t) : t.Open maxClients :=
  Runs.moves_invariant (fun _ _ _ _ hu hmove => hu.step hmove) (open_start maxClients) h

theorem Open.live_accept {maxClients : Nat} {s : Listener κ} (h : s.Open maxClients)
    (session : κ) :
    (s.accept session).live = if maxClients = 0 then s.live else s.live+1 := by
  rw [h.accept_eq]
  split
  · rfl
  · simp only [live,List.length_append,List.length_singleton,ThreadPool.running]
    omega

theorem live_begin {s t : Listener κ} {w : Nat} (h : step (.begin w) s = some t) :
    t.live = s.live := by
  obtain ⟨p,hp,rfl⟩ := Option.map_eq_some_iff.mp h
  have hrunning := (ThreadPool.running_wake hp).length_eq
  rw [List.length_append,List.length_take] at hrunning
  simp only [live,ThreadPool.tasks_wake hp,List.length_drop]
  omega

theorem live_finish {s t : Listener κ} {w : Nat} (h : step (.finish w) s = some t) :
    t.live ≤ s.live := by
  obtain ⟨p,hp,rfl⟩ := Option.map_eq_some_iff.mp h
  have hrunning := (ThreadPool.running_finish hp).length_eq
  obtain ⟨task,-,rfl⟩ := ThreadPool.finish_cases hp
  rw [List.length_append] at hrunning
  simp only [live]
  omega

/-- The limit holds along a run exactly where it is 0, or where no connection arrives while
as many sessions as it allows are live. -/
theorem client_limit_holds_iff (maxClients : Nat) (steps : List (Step κ)) :
    (∀ before u, before <+: steps → Runs.Moves step (start maxClients) before u →
      u.live ≤ maxClients) ↔
    maxClients = 0 ∨ ∀ before session u, before ++ [.accept session] <+: steps →
      Runs.Moves step (start maxClients) before u → u.live < maxClients := by
  constructor
  · intro h
    by_cases hzero : maxClients = 0
    · exact Or.inl hzero
    · refine Or.inr fun before session u hp hu => ?_
      have hnext : Runs.Moves step (start maxClients) (before ++ [.accept session])
          (u.accept session) :=
        Runs.moves_append.mpr ⟨u,hu,Runs.moves_cons.mpr ⟨_,rfl,Runs.moves_nil.mpr rfl⟩⟩
      have hle := h _ _ hp hnext
      rw [(open_moves hu).live_accept,if_neg hzero] at hle
      omega
  · intro h before
    induction before using List.reverseRecOn with
    | nil =>
      intro u _ hu
      rw [← Runs.moves_nil.mp hu]
      exact Nat.zero_le _
    | append_singleton before i ih =>
      intro u hp hu
      obtain ⟨v,hv,hlast⟩ := Runs.moves_append.mp hu
      obtain ⟨w,hi,hnil⟩ := Runs.moves_cons.mp hlast
      rw [← Runs.moves_nil.mp hnil]
      have hle := ih v ((List.prefix_append before [i]).trans hp) hv
      cases i with
      | accept session =>
        cases hi
        rw [(open_moves hv).live_accept]
        rcases h with hzero | hroom
        · rw [if_pos hzero]
          exact hle
        · have hlt := hroom before session v hp hv
          split
          · exact hle
          · exact hlt
      | begin w => exact Nat.le_trans (Nat.le_of_eq (live_begin hi)) hle
      | finish w => exact Nat.le_trans (live_finish hi) hle

/-- A server for one client takes two. -/
theorem client_limit_exceeded :
    ∃ t : Listener Nat, Runs.Moves step (start 1) [.accept 1,.accept 2] t ∧ ¬ t.live ≤ 1 :=
  ⟨⟨⟨1,0,0⟩,⟨[1,2],false,[.waiting,.waiting,.waiting,.waiting]⟩,[]⟩,
    Runs.moves_iff_foldlM.mpr rfl,by decide⟩

end Listener
end VoltDBX
