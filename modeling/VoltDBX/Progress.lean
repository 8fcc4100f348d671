import VoltDBX.ServerProcess

/-!
`DatabaseServer::run` can always be brought to its return: no join of the shutdown waits for
a thread that waits for something else.
-/

set_option autoImplicit false

namespace VoltDBX

def Writing.work {hash : Bytes → Nat} (storage : StorageEngine hash) : Writing → Nat
  | .opened => (Snapshot.write storage).length+2
  | .putting left => left.length+1

def SnapshotLoop.work {hash : Bytes → Nat} (storage : StorageEngine hash) : SnapshotLoop → Nat
  | .testing => 1
  | .writing w => w.work storage+3
  | .pausing _ => 2
  | .ended => 0

def SweepLoop.work : SweepLoop → Nat
  | .testing => 1
  | .erasing keys => keys.length+3
  | .sleeping => 2
  | .ended => 0

def Worker.work {τ : Type} : Worker τ → Nat
  | .waiting => 1
  | .running _ => 2
  | .exited => 0

namespace ThreadPool
variable {τ : Type}

def work (p : ThreadPool τ) : Nat := 2*p.tasks.length+(p.workers.map Worker.work).sum

theorem sum_map_set {α : Type} (f : α → Nat) {l : List α} {i : Nat} {a : α} (h : l[i]? = some a)
    (b : α) : f a+((l.set i b).map f).sum = f b+(l.map f).sum := by
  induction l generalizing i with
  | nil => simp at h
  | cons c l ih =>
    cases i with
    | zero =>
      rw [List.getElem?_cons_zero,Option.some.injEq] at h
      subst h
      simp only [List.set_cons_zero,List.map_cons,List.sum_cons]
      omega
    | succ i =>
      rw [List.getElem?_cons_succ] at h
      have hrest := ih h
      simp only [List.set_cons_succ,List.map_cons,List.sum_cons]
      omega

/-- A pool that is stopping always has a worker that can go on, until all have exited. -/
theorem stopping_progress {p : ThreadPool τ} (hstop : p.stopping = true)
    (hleft : ¬ ∀ w ∈ p.workers, w = .exited) :
    ∃ w q, (p.wake w = some q ∨ p.finish w = some q) ∧ q.stopping = true ∧ q.work < p.work := by
  obtain ⟨x,hx⟩ := Classical.not_forall.mp hleft
  obtain ⟨hmem,hworking⟩ := Classical.not_imp.mp hx
  obtain ⟨w,hw⟩ := List.mem_iff_getElem?.mp hmem
  cases x with
  | waiting =>
    cases htasks : p.tasks with
    | nil =>
      refine ⟨w,⟨[],true,p.workers.set w .exited⟩,Or.inl ?_,rfl,?_⟩
      · simp only [wake,hw,htasks,hstop,if_true]
      · have hsum := sum_map_set Worker.work hw .exited
        simp only [work,htasks,List.length_nil]
        simp only [Worker.work] at hsum
        omega
    | cons task rest =>
      refine ⟨w,⟨rest,p.stopping,p.workers.set w (.running task)⟩,Or.inl ?_,hstop,?_⟩
      · simp only [wake,hw,htasks]
      · have hsum := sum_map_set Worker.work hw (.running task)
        simp only [work,htasks,List.length_cons]
        simp only [Worker.work] at hsum
        omega
  | running task =>
    refine ⟨w,⟨p.tasks,p.stopping,p.workers.set w .waiting⟩,Or.inr ?_,hstop,?_⟩
    · simp only [finish,hw]
    · have hsum := sum_map_set Worker.work hw .waiting
      simp only [work]
      simp only [Worker.work] at hsum
      omega
  | exited => exact absurd rfl hworking

end ThreadPool

theorem Writing.next_work {hash : Bytes → Nat} (storage : StorageEngine hash) (w : Writing)
    (file : Option Bytes) :
    (w.next storage 1 file).1 = none ∨
      ∃ u, (w.next storage 1 file).1 = some u ∧ u.work storage < w.work storage := by
  cases w with
  | opened => exact Or.inr ⟨_,rfl,Nat.lt_succ_self _⟩
  | putting left =>
    cases left with
    | nil => exact Or.inl rfl
    | cons c left =>
      refine Or.inr ⟨_,rfl,?_⟩
      simp [work]

namespace ServerProcess
variable {hash : Bytes → Nat} {p q : ServerProcess hash}

/-- The steps of the process itself and of the sessions that end; no connection arrives, no
line is read, and nothing kills the process. -/
def Step.closing : Step → Prop
  | .main _ _ | .signal | .wake _ | .finish _ | .snapshot _ | .sweep _ => True
  | _ => False

/-- How far the main thread is from its return, and, where it waits, how much is left of
what it waits for. -/
def rank (p : ServerProcess hash) : Nat × Nat :=
  match p.stage with
  | .startingSnapshots => (12,0)
  | .startingSweeps => (11,0)
  | .binding => (10,0)
  | .accepting => (9,if p.listening then 1 else 0)
  | .stoppingPool => (8,0)
  | .joiningPool => (7,p.sessions.pool.work)
  | .stoppingSweeps _ => (6,0)
  | .joiningSweeps _ => (5,(p.sweeps.worker.map SweepLoop.work).getD 0)
  | .stoppingSnapshots _ => (4,0)
  | .joiningSnapshots _ =>
    (3,(p.snapshots.worker.map (SnapshotLoop.work p.server.storage)).getD 0)
  | .opening => (2,0)
  | .saving w => (1,w.work p.server.storage)
  | .returned _ | .aborted => (0,0)

/-- What is needed to go on, and the number that the process will return. -/
structure Closing (code : Nat) (p : ServerProcess hash) : Prop where
  manned : p.Manned
  live : p.stage ≠ .aborted
  code : p.stage.code.getD 0 = code
  stopping : p.stage = .joiningPool → p.sessions.pool.stopping = true

abbrev Nearer : Nat × Nat → Nat × Nat → Prop := Prod.Lex (· < ·) (· < ·)

def Advances (code : Nat) (p : ServerProcess hash) : Prop :=
  ∃ i q, i.closing ∧ step i p = some q ∧ q.Closing code ∧ Nearer q.rank p.rank

theorem Closing.of_step {code : Nat} {i : Step} (h : p.Closing code) (hi : i.closing)
    (hstep : step i p = some q) (hlive : q.stage ≠ .aborted)
    (hcode : q.stage.code.getD 0 = p.stage.code.getD 0)
    (hstopping : q.stage = .joiningPool → q.sessions.pool.stopping = true)
    (hnearer : Nearer q.rank p.rank) : p.Advances code :=
  ⟨i,q,hi,hstep,⟨h.manned.step hstep,hlive,hcode.trans h.code,hstopping⟩,hnearer⟩

theorem step_main {bound : Bool} {cut : Nat} (hstep : p.main bound cut = some q) :
    step (.main bound cut) p = some q := by
  rw [step,main_halted hstep]
  exact hstep

theorem Closing.advance {code : Nat} (h : p.Closing code) {c : Nat}
    (hstep : p.main true c = some q) (hlater : q.rank.1 < p.rank.1) : p.Advances code := by
  have hfacts : q.stage ≠ .aborted ∧ q.stage.code.getD 0 = p.stage.code.getD 0 ∧
      (q.stage = .joiningPool → q.sessions.pool.stopping = true) := by
    unfold main at hstep
    split at hstep
    all_goals rename_i hstage
    all_goals grind [Stage.code,Stage.after,ThreadPool.stop]
  exact h.of_step (i := .main true c) trivial (step_main hstep) hfacts.1 hfacts.2.1 hfacts.2.2
    (Prod.Lex.left _ _ hlater)

theorem Closing.pool_advances {code : Nat} (h : p.Closing code) (hstage : p.stage = .joiningPool)
    (hleft : ¬ ∀ w ∈ p.sessions.pool.workers, w = .exited) : p.Advances code := by
  obtain ⟨w,pool,hpool,hstopping,hwork⟩ :=
    ThreadPool.stopping_progress (h.stopping hstage) hleft
  have hrun : p.stage.halted = false := by
    rw [hstage]
    rfl
  have hnearer : ∀ {t : PoolRun (List Bytes)}, t.pool = pool →
      Nearer (rank { p with sessions := t }) p.rank := by
    intro t ht
    simp only [rank,hstage,ht]
    exact Prod.Lex.right _ hwork
  rcases hpool with hwake | hfinish
  · refine h.of_step (i := .wake w) (q := { p with sessions := ⟨pool,p.sessions.accepted,
      p.sessions.started ++ p.sessions.pool.tasks.take 1,p.sessions.finished⟩ }) trivial ?_ h.live
      rfl (fun _ => hstopping) (hnearer rfl)
    simp only [step,hrun,PoolRun.step,hwake,Bool.false_eq_true,if_false,Option.map_some]
  · refine h.of_step (i := .finish w) (q := { p with sessions := ⟨pool,p.sessions.accepted,
      p.sessions.started,p.sessions.finished ++ p.sessions.pool.taskOf w⟩ }) trivial ?_ h.live
      rfl (fun _ => hstopping) (hnearer rfl)
    simp only [step,hrun,PoolRun.step,hfinish,Bool.false_eq_true,if_false,Option.map_some]

theorem sweepStep_leaving {place : SweepLoop} (hflag : p.sweeps.running = false)
    (hplace : p.sweeps.worker = some place) (hended : place ≠ .ended) :
    ∃ server next, p.sweepStep (fun _ => 0) =
        some { p with server := server, sweeps := ⟨p.sweeps.running,some next⟩ } ∧
      next.work < place.work := by
  unfold sweepStep
  rw [hplace]
  cases place with
  | testing =>
    refine ⟨p.server,.ended,?_,Nat.zero_lt_one⟩
    simp only [hflag,Bool.false_eq_true,if_false]
  | erasing keys =>
    cases keys with
    | nil => exact ⟨p.server,.sleeping,rfl,Nat.lt_succ_self _⟩
    | cons key rest =>
      exact ⟨{ p.server with storage := (p.server.storage.remove key).1 },.erasing rest,rfl,
        Nat.lt_succ_self _⟩
  | sleeping => exact ⟨p.server,.testing,rfl,Nat.lt_succ_self _⟩
  | ended => exact absurd rfl hended

theorem Closing.sweeps_advance {code n : Nat} (h : p.Closing code)
    (hstage : p.stage = .joiningSweeps n) : p.Advances code := by
  obtain ⟨hflag,hworker⟩ : p.sweeps.In .leaving := h.manned.sweeps .leaving (by rw [hstage]; rfl)
  obtain ⟨place,hplace⟩ := Option.ne_none_iff_exists'.mp hworker
  by_cases hended : place = .ended
  · refine h.advance (c := 0)
      (q := { p with sweeps := ⟨p.sweeps.running,none⟩, stage := .stoppingSnapshots n }) ?_ ?_
    · rw [main,hstage]
      exact if_pos (hplace.trans (congrArg some hended))
    · simp [rank,hstage]
  · obtain ⟨server,next,hnext,hless⟩ := sweepStep_leaving hflag hplace hended
    refine h.of_step (i := .sweep fun _ => 0)
      (q := { p with server := server, sweeps := ⟨p.sweeps.running,some next⟩ }) trivial ?_ h.live
      rfl h.stopping ?_
    · have hrun : p.stage.halted = false := by
        rw [hstage]
        rfl
      rw [step,hrun]
      exact hnext
    · simp only [rank,hstage,hplace,Option.map_some,Option.getD_some]
      exact Prod.Lex.right _ hless

theorem snapshotStep_leaving {place : SnapshotLoop} (hflag : p.snapshots.running = false)
    (hplace : p.snapshots.worker = some place) (hended : place ≠ .ended) :
    ∃ file next, p.snapshotStep 1 =
        some { p with file := file, snapshots := ⟨p.snapshots.running,some next⟩ } ∧
      next.work p.server.storage < place.work p.server.storage := by
  unfold snapshotStep
  rw [hplace]
  cases place with
  | testing =>
    refine ⟨p.file,.ended,?_,Nat.zero_lt_one⟩
    simp only [hflag,Bool.false_eq_true,if_false]
  | writing w =>
    refine ⟨_,_,rfl,?_⟩
    rcases w.next_work p.server.storage p.file with hdone | ⟨u,hu,hless⟩
    · simp only [hdone,SnapshotLoop.work]
      omega
    · simp only [hu,SnapshotLoop.work]
      omega
  | pausing i =>
    refine ⟨p.file,.testing,?_,Nat.lt_succ_self _⟩
    simp only [hflag,Bool.false_eq_true,and_false,if_false]
  | ended => exact absurd rfl hended

theorem Closing.snapshots_advance {code n : Nat} (h : p.Closing code)
    (hstage : p.stage = .joiningSnapshots n) : p.Advances code := by
  obtain ⟨hflag,hworker⟩ : p.snapshots.In .leaving :=
    h.manned.snapshots .leaving (by rw [hstage]; rfl)
  obtain ⟨place,hplace⟩ := Option.ne_none_iff_exists'.mp hworker
  by_cases hended : place = .ended
  · refine h.advance (c := 0)
      (q := { p with snapshots := ⟨p.snapshots.running,none⟩, stage := .after n }) ?_ ?_
    · rw [main,hstage]
      exact if_pos (hplace.trans (congrArg some hended))
    · by_cases hzero : n = 0 <;> simp [rank,hstage,Stage.after,hzero]
  · obtain ⟨file,next,hnext,hless⟩ := snapshotStep_leaving hflag hplace hended
    refine h.of_step (i := .snapshot 1)
      (q := { p with file := file, snapshots := ⟨p.snapshots.running,some next⟩ }) trivial ?_ h.live
      rfl h.stopping ?_
    · have hrun : p.stage.halted = false := by
        rw [hstage]
        rfl
      rw [step,hrun]
      exact hnext
    · simp only [rank,hstage,hplace,Option.map_some,Option.getD_some]
      exact Prod.Lex.right _ hless

theorem Closing.saving_advances {code : Nat} {w : Writing} (h : p.Closing code)
    (hstage : p.stage = .saving w) : p.Advances code := by
  rcases w.next_work p.server.storage p.file with hdone | ⟨u,hu,hless⟩
  · refine h.advance (c := 1) (q := { p with
      file := (w.next p.server.storage 1 p.file).2
      stage := .returned 0 }) ?_ ?_
    · simp only [main,hstage,hdone]
    · simp [rank,hstage]
  · refine h.of_step (i := .main true 1) (q := { p with
      file := (w.next p.server.storage 1 p.file).2
      stage := .saving u }) trivial (step_main ?_) ?_ ?_ ?_ ?_
    · simp only [main,hstage,hu]
    · simp
    · rw [hstage]
      rfl
    · simp
    · simp only [rank,hstage]
      exact Prod.Lex.right _ hless

theorem Closing.advances {code : Nat} (h : p.Closing code) :
    (∃ n, p.stage = .returned n) ∨ p.Advances code := by
  cases hstage : p.stage with
  | startingSnapshots => exact Or.inr (h.advance (c := 0) (by rw [main,hstage]) (by simp [rank,hstage]))
  | startingSweeps => exact Or.inr (h.advance (c := 0) (by rw [main,hstage]) (by simp [rank,hstage]))
  | binding => exact Or.inr (h.advance (c := 0) (by rw [main,hstage]) (by simp [rank,hstage]))
  | accepting =>
    refine Or.inr ?_
    cases hlistening : p.listening with
    | false =>
      exact h.advance (c := 0) (q := { p with stage := .stoppingPool })
        (by rw [main,hstage,hlistening]; rfl) (by simp [rank,hstage])
    | true =>
      refine h.of_step (i := .signal) (q := { p with listening := false }) trivial
        (by rw [step,hstage]; rfl) h.live rfl (fun hpool => h.stopping hpool) ?_
      simp only [rank,hstage,hlistening]
      exact Prod.Lex.right _ Nat.zero_lt_one
  | stoppingPool => exact Or.inr (h.advance (c := 0) (by rw [main,hstage]) (by simp [rank,hstage]))
  | joiningPool =>
    refine Or.inr ?_
    by_cases hleft : ∀ w ∈ p.sessions.pool.workers, w = .exited
    · exact h.advance (c := 0) (q := { p with stage := .stoppingSweeps 0 })
        (by rw [main,hstage]; exact if_pos hleft) (by simp [rank,hstage])
    · exact h.pool_advances hstage hleft
  | stoppingSweeps n =>
    refine Or.inr (h.advance (c := 0) (by rw [main,hstage]) ?_)
    by_cases hflag : p.sweeps.running <;> simp [rank,hstage,hflag]
  | joiningSweeps n => exact Or.inr (h.sweeps_advance hstage)
  | stoppingSnapshots n =>
    refine Or.inr (h.advance (c := 0) (by rw [main,hstage]) ?_)
    by_cases hflag : p.snapshots.running <;> by_cases hzero : n = 0 <;>
      simp [rank,hstage,hflag,Stage.after,hzero]
  | joiningSnapshots n => exact Or.inr (h.snapshots_advance hstage)
  | opening => exact Or.inr (h.advance (c := 0) (by rw [main,hstage]) (by simp [rank,hstage]))
  | saving w => exact Or.inr (h.saving_advances hstage)
  | returned n => exact Or.inl ⟨n,rfl⟩
  | aborted => exact absurd hstage h.live

theorem main_stopping {bound : Bool} {cut : Nat} (hstep : p.main bound cut = some q)
    (hstage : q.stage = .joiningPool) : q.sessions.pool.stopping = true := by
  unfold main at hstep
  split at hstep
  all_goals rename_i hp
  all_goals grind [Stage.after,ThreadPool.stop]

theorem step_stopping {i : Step} (hstep : step i p = some q)
    (hstop : p.sessions.pool.stopping = true) : q.sessions.pool.stopping = true := by
  rcases step_sessions hstep with hsame | ⟨j,hj,-⟩
  · rw [hsame]
    exact hstop
  · exact PoolRun.step_stopping hj hstop

theorem stopping_step {i : Step} (h : p.stage = .joiningPool → p.sessions.pool.stopping = true)
    (hstep : step i p = some q) (hstage : q.stage = .joiningPool) :
    q.sessions.pool.stopping = true := by
  rcases step_stage hstep with ⟨bound,cut,hmain⟩ | hsame | hgone
  · exact main_stopping hmain hstage
  · exact step_stopping hstep (h (hsame ▸ hstage))
  · rw [hstage] at hgone
    cases hgone

theorem stopping_moves {config : ServerConfig} {dir : DataDir} {steps : List Step}
    (h : Runs.Moves step (boot hash config dir) steps p) (hstage : p.stage = .joiningPool) :
    p.sessions.pool.stopping = true := by
  refine Runs.moves_invariant
    (I := fun u => u.stage = .joiningPool → u.sessions.pool.stopping = true)
    (fun _ _ _ _ hu hmove => stopping_step hu hmove) (fun hboot => ?_) h hstage
  cases hboot

theorem Closing.returns {code : Nat} (h : p.Closing code) :
    ∃ rest q, (∀ i ∈ rest, Step.closing i) ∧ Runs.Moves step p rest q ∧
      q.stage = .returned code := by
  have hwf : WellFounded Nearer := (Prod.lex Nat.lt_wfRel Nat.lt_wfRel).wf
  obtain ⟨rest,q,hrest,hmoves,hq,n,hn⟩ := Runs.exists_moves hwf rank
    (G := fun u => ∃ n, u.stage = .returned n) (fun u hu => hu.advances) h
  refine ⟨rest,q,hrest,hmoves,?_⟩
  have hcode := hq.code
  rw [hn] at hcode
  rw [hn,← hcode]
  rfl

/-- Whatever has happened so far, a process that has not ended can get to its return by steps
of its own, once the signal has come, while the sessions that run end. No join is waited for
in vain. It returns 1 only if the listener could not be bound. -/
theorem run_can_return (config : ServerConfig) (dir : DataDir) {steps : List Step}
    (hrun : Runs.Moves step (boot hash config dir) steps p) (hlive : p.stage ≠ .aborted) :
    ∃ rest q, (∀ i ∈ rest, Step.closing i) ∧ Runs.Moves step p rest q ∧
      q.stage = .returned (p.stage.code.getD 0) :=
  Closing.returns ⟨manned_moves hrun,hlive,rfl,stopping_moves hrun⟩

theorem run_can_return_example :
    ∃ p : ServerProcess (fun _ => 0), Runs.Moves step (boot (fun _ => 0) {} ⟨none,none⟩)
        [.main true 0,.main true 0,.main true 0,.accept [bytes "PING"],.wake 2] p ∧
      p.sessions.pool.running = [(0,[bytes "PING"])] ∧
      ∃ rest q, (∀ i ∈ rest, Step.closing i) ∧ Runs.Moves step p rest q ∧
        q.stage = .returned 0 := by
  obtain ⟨p,hp,hstage,hrunning⟩ : ∃ p : ServerProcess (fun _ => 0),
      Runs.Moves step (boot (fun _ => 0) {} ⟨none,none⟩)
        [.main true 0,.main true 0,.main true 0,.accept [bytes "PING"],.wake 2] p ∧
      p.stage = .accepting ∧ p.sessions.pool.running = [(0,[bytes "PING"])] :=
    ⟨_,Runs.moves_iff_foldlM.mpr rfl,rfl,rfl⟩
  have hreturn := run_can_return {} ⟨none,none⟩ hp (by rw [hstage]; simp)
  rw [hstage] at hreturn
  exact ⟨p,hp,hrunning,hreturn⟩

end ServerProcess
end VoltDBX
