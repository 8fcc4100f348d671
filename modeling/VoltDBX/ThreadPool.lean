import VoltDBX.Runs

/-!
The pool of concurrency/thread_pool.cpp. A step is a section under its mutex, or the end
of a task.
-/

set_option autoImplicit false

namespace VoltDBX

inductive Worker (τ : Type) where
  | waiting
  | running (task : τ)
  | exited
  deriving DecidableEq, Repr

structure ThreadPool (τ : Type) where
  tasks : List τ
  stopping : Bool
  workers : List (Worker τ)
  deriving DecidableEq, Repr

namespace ThreadPool
variable {τ : Type}

def create (workerCount : Nat) : ThreadPool τ :=
  ⟨[],false,List.replicate (if workerCount = 0 then 1 else workerCount) .waiting⟩

def enqueue (p : ThreadPool τ) (task : τ) : ThreadPool τ :=
  if p.stopping then p else ⟨p.tasks ++ [task],p.stopping,p.workers⟩

def stop (p : ThreadPool τ) : ThreadPool τ := ⟨p.tasks,true,p.workers⟩

/-- Worker `w` gets through its wait: it takes the first task, or it returns when the pool
is stopping and there is none. Otherwise it goes on waiting. -/
def wake (p : ThreadPool τ) (w : Nat) : Option (ThreadPool τ) :=
  match p.workers[w]?, p.tasks with
  | some .waiting, task :: rest => some ⟨rest,p.stopping,p.workers.set w (.running task)⟩
  | some .waiting, [] => if p.stopping then some ⟨[],true,p.workers.set w .exited⟩ else none
  | _, _ => none

def finish (p : ThreadPool τ) (w : Nat) : Option (ThreadPool τ) :=
  match p.workers[w]? with
  | some (.running _) => some ⟨p.tasks,p.stopping,p.workers.set w .waiting⟩
  | _ => none

def Worker.task : Worker τ → List τ
  | .running task => [task]
  | _ => []

def running (p : ThreadPool τ) : List τ := p.workers.flatMap Worker.task

def taskOf (p : ThreadPool τ) (w : Nat) : List τ := (p.workers[w]?.map Worker.task).getD []

theorem flatMap_set_perm {α β : Type} (f : α → List β) {l : List α} {i : Nat} {a : α}
    (h : l[i]? = some a) (b : α) :
    (f a ++ (l.set i b).flatMap f).Perm (f b ++ l.flatMap f) := by
  induction l generalizing i with
  | nil => simp at h
  | cons c l ih =>
    cases i with
    | zero =>
      rw [List.getElem?_cons_zero,Option.some.injEq] at h
      subst h
      simp only [List.set_cons_zero,List.flatMap_cons,← List.append_assoc]
      exact List.perm_append_comm.append_right _
    | succ i =>
      rw [List.getElem?_cons_succ] at h
      simp only [List.set_cons_succ,List.flatMap_cons]
      have hrest := (ih h).append_left (f c)
      refine List.Perm.trans ?_ (hrest.trans ?_)
      · rw [← List.append_assoc,← List.append_assoc]
        exact List.perm_append_comm.append_right _
      · rw [← List.append_assoc,← List.append_assoc]
        exact List.perm_append_comm.append_right _

theorem wake_cases {p q : ThreadPool τ} {w : Nat} (h : p.wake w = some q) :
    (∃ task rest, p.workers[w]? = some .waiting ∧ p.tasks = task :: rest ∧
      q = ⟨rest,p.stopping,p.workers.set w (.running task)⟩) ∨
    (p.workers[w]? = some .waiting ∧ p.tasks = [] ∧ p.stopping = true ∧
      q = ⟨[],true,p.workers.set w .exited⟩) := by
  unfold wake at h
  split at h
  · rename_i task rest hw htasks
    rw [Option.some.injEq] at h
    exact Or.inl ⟨task,rest,hw,htasks,h.symm⟩
  · rename_i hw htasks
    split at h
    · rename_i hstop
      rw [Option.some.injEq] at h
      exact Or.inr ⟨hw,htasks,hstop,h.symm⟩
    · cases h
  · cases h

theorem finish_cases {p q : ThreadPool τ} {w : Nat} (h : p.finish w = some q) :
    ∃ task, p.workers[w]? = some (.running task) ∧
      q = ⟨p.tasks,p.stopping,p.workers.set w .waiting⟩ := by
  unfold finish at h
  split at h
  · rename_i task hw
    rw [Option.some.injEq] at h
    exact ⟨task,hw,h.symm⟩
  · cases h

theorem running_wake {p q : ThreadPool τ} {w : Nat} (h : p.wake w = some q) :
    q.running.Perm (p.tasks.take 1 ++ p.running) := by
  rcases wake_cases h with ⟨task,rest,hw,htasks,rfl⟩ | ⟨hw,htasks,-,rfl⟩
  · rw [htasks]
    exact flatMap_set_perm Worker.task hw (.running task)
  · rw [htasks]
    exact flatMap_set_perm Worker.task hw .exited

theorem tasks_wake {p q : ThreadPool τ} {w : Nat} (h : p.wake w = some q) :
    q.tasks = p.tasks.drop 1 := by
  rcases wake_cases h with ⟨task,rest,-,htasks,rfl⟩ | ⟨-,htasks,-,rfl⟩
  · rw [htasks]
    rfl
  · rw [htasks]
    rfl

theorem running_finish {p q : ThreadPool τ} {w : Nat} (h : p.finish w = some q) :
    (p.taskOf w ++ q.running).Perm p.running := by
  obtain ⟨task,hw,rfl⟩ := finish_cases h
  rw [taskOf,hw]
  exact flatMap_set_perm Worker.task hw .waiting

end ThreadPool

structure PoolRun (α : Type) where
  pool : ThreadPool (Nat × α)
  accepted : List (Nat × α)
  started : List (Nat × α)
  finished : List (Nat × α)
  deriving DecidableEq, Repr

namespace PoolRun
variable {α : Type}

inductive Step (α : Type) where
  | enqueue (task : α)
  | shutdown
  | wake (w : Nat)
  | finish (w : Nat)
  deriving DecidableEq, Repr

def start (workerCount : Nat) : PoolRun α := ⟨ThreadPool.create workerCount,[],[],[]⟩

def step : Step α → PoolRun α → Option (PoolRun α)
  | .enqueue task, s =>
    some ⟨s.pool.enqueue (s.accepted.length,task),
      if s.pool.stopping then s.accepted else s.accepted ++ [(s.accepted.length,task)],
      s.started,s.finished⟩
  | .shutdown, s => some ⟨s.pool.stop,s.accepted,s.started,s.finished⟩
  | .wake w, s =>
    (s.pool.wake w).map fun p => ⟨p,s.accepted,s.started ++ s.pool.tasks.take 1,s.finished⟩
  | .finish w, s =>
    (s.pool.finish w).map fun p => ⟨p,s.accepted,s.started,s.finished ++ s.pool.taskOf w⟩

section
variable {i : Step α} {s t : PoolRun α}

theorem step_accepted (h : step i s = some t) : s.accepted <+: t.accepted := by
  cases i with
  | enqueue task =>
    cases h
    dsimp only
    split
    · exact List.prefix_rfl
    · exact List.prefix_append _ _
  | shutdown =>
    cases h
    exact List.prefix_rfl
  | wake w =>
    obtain ⟨p,-,rfl⟩ := Option.map_eq_some_iff.mp h
    exact List.prefix_rfl
  | finish w =>
    obtain ⟨p,-,rfl⟩ := Option.map_eq_some_iff.mp h
    exact List.prefix_rfl

theorem step_stopping (h : step i s = some t) (hstop : s.pool.stopping = true) :
    t.pool.stopping = true := by
  cases i with
  | enqueue task =>
    cases h
    simp only [ThreadPool.enqueue,hstop,if_true]
  | shutdown =>
    cases h
    rfl
  | wake w =>
    obtain ⟨p,hp,rfl⟩ := Option.map_eq_some_iff.mp h
    rcases ThreadPool.wake_cases hp with ⟨task,rest,-,-,rfl⟩ | ⟨-,-,-,rfl⟩
    · exact hstop
    · rfl
  | finish w =>
    obtain ⟨p,hp,rfl⟩ := Option.map_eq_some_iff.mp h
    obtain ⟨task,-,rfl⟩ := ThreadPool.finish_cases hp
    exact hstop

/-- A worker goes on with its task until that ends. -/
theorem step_running (h : step i s = some t) {w : Nat} (hi : i ≠ .finish w) {task : Nat × α}
    (hw : s.pool.workers[w]? = some (.running task)) :
    t.pool.workers[w]? = some (.running task) := by
  cases i with
  | enqueue new =>
    cases h
    unfold ThreadPool.enqueue
    split
    · exact hw
    · exact hw
  | shutdown =>
    cases h
    exact hw
  | wake v =>
    obtain ⟨p,hp,rfl⟩ := Option.map_eq_some_iff.mp h
    have hne : s.pool.workers[v]? = some .waiting → v ≠ w := by
      rintro hv rfl
      rw [hw] at hv
      cases hv
    rcases ThreadPool.wake_cases hp with ⟨new,rest,hv,-,rfl⟩ | ⟨hv,-,-,rfl⟩
    · exact (List.getElem?_set_ne (hne hv)).trans hw
    · exact (List.getElem?_set_ne (hne hv)).trans hw
  | finish v =>
    obtain ⟨p,hp,rfl⟩ := Option.map_eq_some_iff.mp h
    obtain ⟨ended,-,rfl⟩ := ThreadPool.finish_cases hp
    have hne : v ≠ w := by
      rintro rfl
      exact hi rfl
    exact (List.getElem?_set_ne hne).trans hw

end

structure Accounted (s : PoolRun α) : Prop where
  numbered : s.accepted.map Prod.fst = List.range s.accepted.length
  queued : s.started ++ s.pool.tasks = s.accepted
  served : (s.pool.running ++ s.finished).Perm s.started
  staffed : s.pool.workers ≠ []
  /-- A worker exits from an empty queue, and nothing is accepted after that. -/
  drained : .exited ∈ s.pool.workers → s.pool.stopping = true ∧ s.pool.tasks = []

theorem accounted_start (workerCount : Nat) : (start workerCount : PoolRun α).Accounted where
  numbered := rfl
  queued := rfl
  served := by
    have hidle : ∀ n : Nat, (List.replicate n (Worker.waiting (τ := Nat × α))).flatMap
        ThreadPool.Worker.task = [] := by
      intro n
      rw [List.flatMap_eq_nil_iff]
      intro w hw
      rw [List.eq_of_mem_replicate hw]
      rfl
    rw [start,ThreadPool.create,ThreadPool.running,hidle]
    exact List.Perm.refl []
  staffed := by
    simp only [start,ThreadPool.create,ne_eq,List.replicate_eq_nil_iff]
    split
    · exact Nat.one_ne_zero
    · assumption
  drained h := by
    rw [start,ThreadPool.create] at h
    exact absurd (List.eq_of_mem_replicate h) (by simp)

theorem Accounted.enqueue {s t : PoolRun α} {task : α} (hs : s.Accounted)
    (h : step (.enqueue task) s = some t) : t.Accounted := by
  cases h
  cases hstop : s.pool.stopping with
  | true =>
    have hsame : s.pool.enqueue (s.accepted.length,task) = s.pool := by
      simp [ThreadPool.enqueue,hstop]
    simpa [hsame] using hs
  | false =>
    have hnew : s.pool.enqueue (s.accepted.length,task) =
        ⟨s.pool.tasks ++ [(s.accepted.length,task)],false,s.pool.workers⟩ := by
      simp [ThreadPool.enqueue,hstop]
    have hopen : .exited ∉ s.pool.workers := fun hmem => by
      have hstopped := (hs.drained hmem).1
      rw [hstop] at hstopped
      cases hstopped
    simp only [hnew,Bool.false_eq_true,if_false]
    refine ⟨?_,?_,hs.served,hs.staffed,fun hmem => absurd hmem hopen⟩
    · rw [List.map_append,hs.numbered,List.length_append,List.length_singleton,List.range_succ]
      rfl
    · rw [← List.append_assoc,hs.queued]

theorem Accounted.wake {s t : PoolRun α} {w : Nat} (hs : s.Accounted)
    (h : step (.wake w) s = some t) : t.Accounted := by
  obtain ⟨p,hp,rfl⟩ := Option.map_eq_some_iff.mp h
  refine ⟨hs.numbered,?_,?_,?_,fun hmem => ?_⟩
  · rw [ThreadPool.tasks_wake hp,List.append_assoc,List.take_append_drop,hs.queued]
  · refine ((ThreadPool.running_wake hp).append_right s.finished).trans ?_
    rw [List.append_assoc]
    exact List.perm_append_comm.trans (hs.served.append_right _)
  · rcases ThreadPool.wake_cases hp with ⟨task,rest,-,-,rfl⟩ | ⟨-,-,-,rfl⟩
    · simpa using hs.staffed
    · simpa using hs.staffed
  · rcases ThreadPool.wake_cases hp with ⟨task,rest,-,htasks,rfl⟩ | ⟨-,-,-,rfl⟩
    · rcases List.mem_or_eq_of_mem_set hmem with hold | hnew
      · have hnone := (hs.drained hold).2
        rw [htasks] at hnone
        cases hnone
      · cases hnew
    · exact ⟨rfl,rfl⟩

theorem Accounted.finish {s t : PoolRun α} {w : Nat} (hs : s.Accounted)
    (h : step (.finish w) s = some t) : t.Accounted := by
  obtain ⟨p,hp,rfl⟩ := Option.map_eq_some_iff.mp h
  have hserved : (p.running ++ (s.finished ++ s.pool.taskOf w)).Perm s.started := by
    refine List.Perm.trans ?_ (((ThreadPool.running_finish hp).append_right s.finished).trans
      hs.served)
    rw [List.append_assoc (s.pool.taskOf w),← List.append_assoc p.running]
    exact List.perm_append_comm
  obtain ⟨task,hw,rfl⟩ := ThreadPool.finish_cases hp
  refine ⟨hs.numbered,hs.queued,hserved,?_,fun hmem => ?_⟩
  · simpa using hs.staffed
  · rcases List.mem_or_eq_of_mem_set hmem with hold | hnew
    · exact hs.drained hold
    · cases hnew

theorem Accounted.step {i : Step α} {s t : PoolRun α} (hs : s.Accounted)
    (h : step i s = some t) : t.Accounted := by
  cases i with
  | enqueue task => exact hs.enqueue h
  | shutdown =>
    cases h
    exact ⟨hs.numbered,hs.queued,hs.served,hs.staffed,fun hmem => ⟨rfl,(hs.drained hmem).2⟩⟩
  | wake w => exact hs.wake h
  | finish w => exact hs.finish h

theorem accounted_moves {workerCount : Nat} {steps : List (Step α)} {t : PoolRun α}
    (h : Runs.Moves step (start workerCount) steps t) : t.Accounted :=
  Runs.moves_invariant (fun _ _ _ _ hu hmove => hu.step hmove) (accounted_start workerCount) h

def copies (k : Nat) (tasks : List (Nat × α)) : Nat := tasks.countP (fun task => task.1 = k)

theorem Accounted.copies_accepted {s : PoolRun α} (hs : s.Accounted) (k : Nat) :
    copies k s.accepted = if k < s.accepted.length then 1 else 0 := by
  have hcount : copies k s.accepted = (s.accepted.map Prod.fst).count k := by
    rw [copies,List.count,List.countP_map]
    refine List.countP_congr fun task _ => ?_
    simp
  rw [hcount,hs.numbered,List.count_range]

theorem Accounted.copies_places {s : PoolRun α} (hs : s.Accounted) (k : Nat) :
    copies k s.pool.tasks+copies k s.pool.running+copies k s.finished =
      if k < s.accepted.length then 1 else 0 := by
  have hserved : copies k s.pool.running+copies k s.finished = copies k s.started := by
    rw [copies,copies,copies,← List.countP_append]
    exact hs.served.countP_eq _
  have hqueued : copies k s.started+copies k s.pool.tasks = copies k s.accepted := by
    rw [copies,copies,copies,← List.countP_append,hs.queued]
  rw [← hs.copies_accepted]
  omega

/-- Two workers never run the same task. -/
theorem Accounted.one_worker {α : Type} {s : PoolRun α} (hs : s.Accounted) {v w k : Nat} {a b : α}
    (hv : s.pool.workers[v]? = some (.running (k,a)))
    (hw : s.pool.workers[w]? = some (.running (k,b))) : v = w := by
  by_contra hne
  have hone := hs.copies_places k
  have hfirst : copies k s.pool.running =
      1+copies k ((s.pool.workers.set v .exited).flatMap ThreadPool.Worker.task) := by
    have hperm := (ThreadPool.flatMap_set_perm ThreadPool.Worker.task hv .exited).countP_eq
      fun task => decide (task.1 = k)
    simp only [ThreadPool.Worker.task,List.countP_append,List.countP_cons,List.countP_nil,
      decide_true,if_true] at hperm
    simp only [copies,ThreadPool.running]
    omega
  have hsecond : 0 < copies k ((s.pool.workers.set v .exited).flatMap ThreadPool.Worker.task) := by
    refine List.countP_pos_iff.mpr ⟨(k,b),?_,by simp⟩
    refine List.mem_flatMap.mpr ⟨.running (k,b),?_,List.mem_singleton_self _⟩
    exact List.mem_of_getElem? ((List.getElem?_set_ne hne).trans hw)
  split at hone <;> omega

theorem running_of_exited {p : ThreadPool (Nat × α)} (h : ∀ w ∈ p.workers, w = .exited) :
    p.running = [] := by
  rw [ThreadPool.running,List.flatMap_eq_nil_iff]
  intro w hw
  rw [h w hw]
  rfl

/-- In every state of every run an accepted task is queued, run by one worker or finished,
and in one of these places only; tasks are started in the order of their acceptance; and
when all workers have exited every accepted task has finished once. -/
theorem pool_runs_tasks_once {workerCount : Nat} {steps : List (Step α)} {t : PoolRun α}
    (hrun : Runs.Moves step (start workerCount) steps t) :
    (∀ k < t.accepted.length,
      copies k t.pool.tasks+copies k t.pool.running+copies k t.finished = 1) ∧
    t.accepted.map Prod.fst = List.range t.accepted.length ∧
    t.started <+: t.accepted ∧
    ((∀ w ∈ t.pool.workers, w = .exited) →
      t.pool.tasks = [] ∧ ∀ k < t.accepted.length, copies k t.finished = 1) := by
  have hs := accounted_moves hrun
  refine ⟨fun k hk => ?_,hs.numbered,⟨_,hs.queued⟩,fun hall => ?_⟩
  · rw [hs.copies_places,if_pos hk]
  · obtain ⟨w,hw⟩ := List.exists_mem_of_ne_nil _ hs.staffed
    have hempty := (hs.drained (hall w hw ▸ hw)).2
    refine ⟨hempty,fun k hk => ?_⟩
    have hone := hs.copies_places k
    rw [if_pos hk,hempty,running_of_exited hall] at hone
    simpa [copies] using hone

/-- Two workers run the two tasks that were accepted; the third comes after the flag. -/
theorem pool_runs_tasks_once_example :
    ∃ t : PoolRun Nat, Runs.Moves step (start 2) [.enqueue 10,.enqueue 20,.shutdown,.enqueue 30,
        .wake 1,.wake 0,.finish 1,.wake 1,.finish 0,.wake 0] t ∧
      t.accepted = [(0,10),(1,20)] ∧ t.pool.tasks = [] ∧
      ∀ k < t.accepted.length, copies k t.finished = 1 := by
  have hrun : Runs.Moves step (start 2) [.enqueue 10,.enqueue 20,.shutdown,.enqueue 30,
      .wake 1,.wake 0,.finish 1,.wake 1,.finish 0,.wake 0]
      ⟨⟨[],true,[.exited,.exited]⟩,[(0,10),(1,20)],[(0,10),(1,20)],[(0,10),(1,20)]⟩ :=
    Runs.moves_iff_foldlM.mpr rfl
  exact ⟨_,hrun,rfl,(pool_runs_tasks_once hrun).2.2.2 (by simp)⟩

end PoolRun
end VoltDBX
