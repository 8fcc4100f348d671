import VoltDBX.Progress

/-!
How `DatabaseServer::run` ends: what its threads leave in the snapshot file when it returns,
when it could not listen, and when the process is killed, whatever the interleaving was.
-/

set_option autoImplicit false

namespace VoltDBX
open Reference TextLines

namespace ServerProcess
variable {hash : Bytes → Nat} {p q : ServerProcess hash}

def writer (p : ServerProcess hash) : Option Writing :=
  match p.stage, p.snapshots.worker with
  | .saving w, _ => some w
  | _, some (.writing w) => some w
  | _, _ => none

theorem writer_of_saving {w : Writing} (h : p.stage = .saving w) : p.writer = some w := by
  simp [writer,h]

theorem main_file {bound : Bool} {cut : Nat} (h : p.Manned) (hstep : p.main bound cut = some q) :
    q.server = p.server ∧
    ((p.stage = .opening ∧ q.file = some [] ∧ q.stage = .saving .opened) ∨
      (∃ w, p.stage = .saving w ∧ q.file = (w.next p.server.storage cut p.file).2 ∧
        q.writer = (w.next p.server.storage cut p.file).1) ∨
      (q.file = p.file ∧ q.writer = p.writer ∧ q.stage.final = false)) := by
  have hsnapshots := h.snapshots
  unfold main at hstep
  split at hstep
  all_goals rename_i hstage
  all_goals grind [Stage.snapshotPhase,writer,Scheduler.start,Scheduler.In,Stage.after,Stage.final]

theorem snapshotStep_file {cut : Nat} (h : p.Manned) (hstep : p.snapshotStep cut = some q) :
    q.server = p.server ∧
    ((q.writer = some .opened ∧ q.file = some []) ∨
      (∃ w, p.writer = some w ∧ q.file = (w.next p.server.storage cut p.file).2 ∧
        q.writer = (w.next p.server.storage cut p.file).1) ∨
      (q.file = p.file ∧ q.writer = p.writer)) := by
  have hsnapshots := h.snapshots
  have hstage : ∀ w, p.stage ≠ .saving w := by
    intro w hw
    have hgone : p.snapshots = ⟨false,none⟩ := hsnapshots .absent (by rw [hw]; rfl)
    rw [snapshotStep,hgone] at hstep
    cases hstep
  unfold snapshotStep at hstep
  split at hstep
  all_goals rename_i hworker
  all_goals grind [writer]

/-- What the file holds, when `first` was found in its place and the stores that were dumped
had the property `Seen`. -/
structure Filed (Seen : StorageEngine hash → Prop) (first : Option Bytes)
    (p : ServerProcess hash) : Prop where
  torn : p.file = first ∨ ∃ e written, Seen e ∧ p.file = some written ∧ written <+: Snapshot.write e
  written : p.stage ≠ .aborted → (p.writer = none ∧ p.file = first) ∨
    ∃ e, Seen e ∧ Writing.Wrote (Snapshot.write e) p.writer p.file

variable {Seen : StorageEngine hash → Prop} {first : Option Bytes}

theorem Filed.of_written (h : (p.writer = none ∧ p.file = first) ∨
    ∃ e, Seen e ∧ Writing.Wrote (Snapshot.write e) p.writer p.file) : p.Filed Seen first := by
  refine ⟨?_,fun _ => h⟩
  rcases h with ⟨-,hfirst⟩ | ⟨e,he,hwrote⟩
  · exact Or.inl hfirst
  · obtain ⟨written,hfile,hbegins⟩ := hwrote.begins
    exact Or.inr ⟨e,written,he,hfile,hbegins⟩

theorem Filed.write {w : Writing} {cut : Nat} (h : p.Filed Seen first) (hrun : p.stage.halted = false)
    (hseen : Seen p.server.storage) (hw : p.writer = some w)
    (hfile : q.file = (w.next p.server.storage cut p.file).2)
    (hwriter : q.writer = (w.next p.server.storage cut p.file).1) : q.Filed Seen first := by
  have hstage : p.stage ≠ .aborted := by
    intro hstage
    rw [hstage] at hrun
    cases hrun
  rcases h.written hstage with ⟨hnone,-⟩ | ⟨e,he,hwrote⟩
  · rw [hw] at hnone
    cases hnone
  · rw [hw] at hwrote
    have hnext := hwrote.next p.server.storage cut
    rw [← hfile,← hwriter] at hnext
    refine Filed.of_written (Or.inr ?_)
    by_cases hopened : w = .opened
    · rw [if_pos hopened] at hnext
      exact ⟨p.server.storage,hseen,hnext⟩
    · rw [if_neg hopened] at hnext
      exact ⟨e,he,hnext⟩

theorem Filed.kept (h : p.Filed Seen first) (hfile : q.file = p.file)
    (hsnapshots : q.snapshots = p.snapshots) (hstage : q.stage = p.stage ∨ q.stage = .aborted) :
    q.Filed Seen first := by
  refine ⟨hfile ▸ h.torn,fun hrun => ?_⟩
  rcases hstage with hstage | hstage
  · have hwriter : q.writer = p.writer := by
      unfold writer
      rw [hstage,hsnapshots]
    rw [hwriter,hfile]
    exact h.written (hstage ▸ hrun)
  · exact absurd hstage hrun

theorem Filed.opened (hseen : Seen p.server.storage) (hwriter : q.writer = some .opened)
    (hfile : q.file = some []) : q.Filed Seen first := by
  refine Filed.of_written (Or.inr ⟨p.server.storage,hseen,?_⟩)
  rw [hwriter]
  exact hfile

theorem Filed.step {i : Step} (h : p.Filed Seen first) (hmanned : p.Manned)
    (hseen : Seen p.server.storage) (hstep : step i p = some q) : q.Filed Seen first := by
  have hrun := step_some hstep
  have hstage := step_live hstep
  unfold ServerProcess.step at hstep
  rw [hrun,if_neg Bool.false_ne_true] at hstep
  cases i with
  | main bound cut =>
    rcases (main_file hmanned hstep).2 with ⟨-,hfile,hstage⟩ | ⟨w,hw,hfile,hwriter⟩ |
      ⟨hfile,hwriter,-⟩
    · exact Filed.opened hseen (writer_of_saving hstage) hfile
    · exact h.write hrun hseen (writer_of_saving hw) hfile hwriter
    · refine Filed.of_written ?_
      rw [hfile,hwriter]
      exact h.written hstage
  | snapshot cut =>
    rcases (snapshotStep_file hmanned hstep).2 with ⟨hwriter,hfile⟩ | ⟨w,hw,hfile,hwriter⟩ |
      ⟨hfile,hwriter⟩
    · exact Filed.opened hseen hwriter hfile
    · exact h.write hrun hseen hw hfile hwriter
    · refine Filed.of_written ?_
      rw [hfile,hwriter]
      exact h.written hstage
  | accept session =>
    dsimp only at hstep
    split at hstep
    · cases hstep
      rw [accept_rest]
      exact h.kept rfl rfl (Or.inl rfl)
    · cases hstep
  | signal =>
    cases hstep
    exact h.kept rfl rfl (Or.inl rfl)
  | wake w =>
    obtain ⟨t,-,rfl⟩ := Option.map_eq_some_iff.mp hstep
    exact h.kept rfl rfl (Or.inl rfl)
  | line w env =>
    obtain ⟨k,session,line,-,-,⟨reply,server,-,rfl⟩ | ⟨x,server,-,rfl⟩⟩ := line_cases hstep
    · exact h.kept rfl rfl (Or.inl rfl)
    · exact h.kept rfl rfl (Or.inr rfl)
  | finish w =>
    obtain ⟨t,-,rfl⟩ := Option.map_eq_some_iff.mp hstep
    exact h.kept rfl rfl (Or.inl rfl)
  | sweep clock =>
    obtain ⟨-,⟨key,rest,-,rfl⟩ | ⟨place,rfl,-⟩⟩ := sweepStep_cases hstep
    · exact h.kept rfl rfl (Or.inl rfl)
    · exact h.kept rfl rfl (Or.inl rfl)
  | kill =>
    cases hstep
    exact h.kept rfl rfl (Or.inr rfl)

theorem Manned.alone {i : Step} (h : p.Manned) (hfinal : p.stage.final = true)
    (hstep : ServerProcess.step i p = some q) :
    (∃ bound cut, p.main bound cut = some q) ∨
      (q.file = p.file ∧ q.server = p.server ∧ q.snapshots = p.snapshots ∧
        (q.stage = p.stage ∨ q.stage = .aborted)) := by
  have hrun := step_some hstep
  obtain ⟨hcode,hsweepPhase,hsnapshotPhase,haccepting,haborted⟩ := Stage.final_facts hfinal
  have hsweeps : p.sweeps = ⟨false,none⟩ := h.sweeps .absent hsweepPhase
  have hsnapshots : p.snapshots = ⟨false,none⟩ := h.snapshots .absent hsnapshotPhase
  unfold ServerProcess.step at hstep
  rw [hrun,if_neg Bool.false_ne_true] at hstep
  cases i with
  | main bound cut => exact Or.inl ⟨bound,cut,hstep⟩
  | accept session =>
    have hclosed : p.listening = false := by
      refine Bool.eq_false_iff.mpr fun hopen => ?_
      rcases h.listening hopen with hstage | hstage
      · exact haccepting hstage
      · exact haborted hstage
    dsimp only at hstep
    rw [hclosed] at hstep
    cases hstep
  | signal =>
    cases hstep
    exact Or.inr ⟨rfl,rfl,rfl,Or.inl rfl⟩
  | wake w =>
    obtain ⟨t,ht,-⟩ := Option.map_eq_some_iff.mp hstep
    obtain ⟨-,x,hx,hworking⟩ := poolStep_cases (Or.inl ht)
    exact absurd (h.workers hcode x hx) hworking
  | line w env =>
    obtain ⟨k,session,line,hw,-⟩ := line_cases hstep
    cases h.workers hcode _ (List.mem_of_getElem? hw)
  | finish w =>
    obtain ⟨t,ht,-⟩ := Option.map_eq_some_iff.mp hstep
    obtain ⟨-,x,hx,hworking⟩ := poolStep_cases (Or.inr ht)
    exact absurd (h.workers hcode x hx) hworking
  | snapshot cut =>
    dsimp only at hstep
    rw [ServerProcess.snapshotStep,hsnapshots] at hstep
    cases hstep
  | sweep clock =>
    dsimp only at hstep
    rw [ServerProcess.sweepStep,hsweeps] at hstep
    cases hstep
  | kill =>
    cases hstep
    exact Or.inr ⟨rfl,rfl,rfl,Or.inr rfl⟩

/-- The last write is a write of the store as it is and stays. -/
def Saved (p : ServerProcess hash) : Prop :=
  p.stage.final = true → Writing.Wrote (Snapshot.write p.server.storage) p.writer p.file

theorem Saved.step {i : Step} (h : p.Saved) (hmanned : p.Manned)
    (hstep : ServerProcess.step i p = some q) : q.Saved := by
  intro hfinal
  have hmain : ∀ {bound cut}, p.main bound cut = some q →
      Writing.Wrote (Snapshot.write q.server.storage) q.writer q.file := by
    intro bound cut hmove
    obtain ⟨hserver,⟨-,hfile,hstage⟩ | ⟨w,hw,hfile,hwriter⟩ | ⟨-,-,hearly⟩⟩ :=
      main_file hmanned hmove
    · rw [writer_of_saving hstage]
      exact hfile
    · have hwrote := h (by rw [hw]; rfl)
      rw [writer_of_saving hw] at hwrote
      have hnext := hwrote.next p.server.storage cut
      rw [ite_self] at hnext
      rw [hserver,hfile,hwriter]
      exact hnext
    · rw [hfinal] at hearly
      cases hearly
  rcases step_stage hstep with ⟨bound,cut,hmove⟩ | hstage | hstage
  · exact hmain hmove
  · rw [hstage] at hfinal
    rcases hmanned.alone hfinal hstep with ⟨bound,cut,hmove⟩ | ⟨hfile,hserver,hsnapshots,-⟩
    · exact hmain hmove
    · have hwriter : q.writer = p.writer := by
        unfold writer
        rw [hstage,hsnapshots]
      rw [hfile,hserver,hwriter]
      exact h hfinal
  · rw [hstage] at hfinal
    cases hfinal

theorem saved_moves {config : ServerConfig} {dir : DataDir} {steps : List Step}
    (h : Runs.Moves step (boot hash config dir) steps p) : p.Saved := by
  have hboot : (boot hash config dir).Saved := by
    intro hfinal
    cases hfinal
  exact (Runs.moves_invariant (I := fun u => u.Manned ∧ u.Saved)
    (fun _ _ _ _ hu hmove => ⟨hu.1.step hmove,hu.2.step hu.1 hmove⟩)
    ⟨manned_boot hash config dir,hboot⟩ h).2

theorem Saved.file (h : p.Saved) (hmanned : p.Manned) (hstage : p.stage = .returned 0) :
    p.file = some (Snapshot.write p.server.storage) := by
  have hsnapshots : p.snapshots = ⟨false,none⟩ :=
    hmanned.snapshots .absent (by rw [hstage]; rfl)
  have hwriter : p.writer = none := by
    unfold writer
    rw [hstage,hsnapshots]
  have hwrote := h (by rw [hstage]; rfl)
  rw [hwriter] at hwrote
  exact hwrote

/-- What a step does to the store, and to the log. -/
theorem step_storage {i : Step} (hmanned : p.Manned) (hstep : step i p = some q)
    (hrun : q.stage ≠ .aborted) :
    (q.server.storage = p.server.storage ∧ q.served = p.served ∧
      q.server.aof = p.server.aof) ∨
    (∃ key rest, p.sweeps.worker = some (.erasing (key :: rest)) ∧ q.served = p.served ∧
      q.server.storage = (p.server.storage.remove key).1 ∧ q.server.aof = p.server.aof) ∨
    (∃ (w : Nat) (env : Env) (k : Nat) (session : List Bytes) (line : Bytes)
        (reply : Option Bytes), i = .line w env ∧
      p.sessions.pool.workers[w]? = some (.running (k,session)) ∧
      session[p.position k]? = some line ∧ q.sessions = p.sessions ∧
      q.served = p.served ++ [⟨k,line,reply⟩] ∧
      (Server.handleLine env line).run p.server = .ok reply q.server) := by
  have hready := step_some hstep
  unfold step at hstep
  rw [hready,if_neg Bool.false_ne_true] at hstep
  cases i with
  | main bound cut =>
    have hserver := (main_file hmanned hstep).1
    refine Or.inl ⟨by rw [hserver],?_,by rw [hserver]⟩
    unfold main at hstep
    split at hstep
    all_goals grind
  | accept session =>
    dsimp only at hstep
    split at hstep
    · cases hstep
      exact Or.inl ⟨by rw [accept_rest],by rw [accept_rest],by rw [accept_rest]⟩
    · cases hstep
  | signal =>
    cases hstep
    exact Or.inl ⟨rfl,rfl,rfl⟩
  | wake w =>
    obtain ⟨t,-,rfl⟩ := Option.map_eq_some_iff.mp hstep
    exact Or.inl ⟨rfl,rfl,rfl⟩
  | line w env =>
    obtain ⟨k,session,line,hw,hline,⟨reply,server,hok,rfl⟩ | ⟨x,server,-,rfl⟩⟩ := line_cases hstep
    · exact Or.inr (Or.inr ⟨w,env,k,session,line,reply,rfl,hw,hline,rfl,rfl,hok⟩)
    · exact absurd rfl hrun
  | finish w =>
    obtain ⟨t,-,rfl⟩ := Option.map_eq_some_iff.mp hstep
    exact Or.inl ⟨rfl,rfl,rfl⟩
  | snapshot cut =>
    obtain ⟨place,file,-,rfl⟩ := snapshotStep_cases hstep
    exact Or.inl ⟨rfl,rfl,rfl⟩
  | sweep clock =>
    obtain ⟨-,⟨key,rest,hkeys,rfl⟩ | ⟨place,rfl,-⟩⟩ := sweepStep_cases hstep
    · exact Or.inr (Or.inl ⟨key,rest,hkeys,rfl,rfl,rfl⟩)
    · exact Or.inl ⟨rfl,rfl,rfl⟩
  | kill =>
    cases hstep
    exact absurd rfl hrun

theorem step_served {i : Step} (hmanned : p.Manned) (hstep : step i p = some q)
    (hrun : q.stage ≠ .aborted) (hi : ∀ w env, i ≠ .line w env) : q.served = p.served := by
  rcases step_storage hmanned hstep hrun with ⟨-,hsame,-⟩ | ⟨-,-,-,hsame,-⟩ |
    ⟨w,env,-,-,-,-,hline,-⟩
  · exact hsame
  · exact hsame
  · exact absurd hline (hi w env)

theorem lineFree_moves {config : ServerConfig} {dir : DataDir} {steps : List Step}
    (h : Runs.Moves step (boot hash config dir) steps p) (hrun : p.stage ≠ .aborted) :
    Snapshot.LineFree p.server.storage.values := by
  refine (Runs.moves_invariant
    (I := fun u => u.Manned ∧ (u.stage ≠ .aborted → Snapshot.LineFree u.server.storage.values))
    (fun i _ u v hu hmove => ⟨hu.1.step hmove,fun hv => ?_⟩)
    ⟨manned_boot hash config dir,fun _ => Recovery.lineFree_recover hash dir⟩ h).2 hrun
  have hfree := hu.2 (step_live hmove)
  rcases step_storage hu.1 hmove hv with ⟨hsame,-⟩ | ⟨key,rest,-,-,hremoved,-⟩ |
    ⟨w,env,k,session,line,reply,-,-,-,-,-,hok⟩
  · rw [hsame]
    exact hfree
  · rw [hremoved,StorageEngine.values_remove]
    exact hfree.erase key
  · exact handleLine_all (fun key value hclean => hclean.2) hfree hok

theorem next_putting {text : Bytes} (h : text ≠ []) (storage : StorageEngine hash) (cut : Nat)
    (file : Option Bytes) : (Writing.putting text).next storage cut file =
      (some (.putting (text.drop cut)),some (file.getD [] ++ text.take cut)) := by
  cases text with
  | nil => exact absurd rfl h
  | cons c text => rfl

theorem write_ne_nil (e : StorageEngine hash) : Snapshot.write e ≠ [] := by
  simp [Snapshot.write,Snapshot.textLines,unlines]

theorem moves_snapshot (hrun : p.stage.halted = false)
    (hthread : p.snapshots = ⟨true,some .testing⟩) :
    Runs.Moves step p [.snapshot 0,.snapshot 0,
        .snapshot (Snapshot.write p.server.storage).length,.snapshot 0]
      { p with
        file := some (Snapshot.write p.server.storage)
        snapshots := ⟨true,some (.pausing 0)⟩ } := by
  have hput := next_putting (write_ne_nil p.server.storage) p.server.storage
    (Snapshot.write p.server.storage).length (some [])
  rw [List.drop_length,List.take_length] at hput
  refine Runs.moves_cons.mpr ⟨{ p with
    file := some [], snapshots := ⟨true,some (.writing .opened)⟩ },?_,?_⟩
  · simp only [step,hrun,snapshotStep,hthread,Bool.false_eq_true,if_false,if_true]
  refine Runs.moves_cons.mpr ⟨{ p with
    file := some [], snapshots := ⟨true,some (.writing (.putting (Snapshot.write p.server.storage)))⟩ },?_,?_⟩
  · simp only [step,hrun,snapshotStep,Writing.next,Bool.false_eq_true,if_false]
  refine Runs.moves_cons.mpr ⟨{ p with
    file := some (Snapshot.write p.server.storage)
    snapshots := ⟨true,some (.writing (.putting []))⟩ },?_,?_⟩
  · simp only [step,hrun,snapshotStep,hput,Bool.false_eq_true,if_false]
    rfl
  refine Runs.moves_cons.mpr ⟨_,?_,Runs.moves_nil.mpr rfl⟩
  simp only [step,hrun,snapshotStep,Writing.next,Bool.false_eq_true,if_false]

theorem moves_lastWrite (hstage : p.stage = .opening) :
    Runs.Moves step p [.main true 0,.main true 0,
        .main true (Snapshot.write p.server.storage).length,.main true 0]
      { p with file := some (Snapshot.write p.server.storage), stage := .returned 0 } := by
  have hput := next_putting (write_ne_nil p.server.storage) p.server.storage
    (Snapshot.write p.server.storage).length (some [])
  rw [List.drop_length,List.take_length] at hput
  refine Runs.moves_cons.mpr ⟨{ p with file := some [], stage := .saving .opened },?_,?_⟩
  · simp only [step,main,hstage,Stage.halted,Bool.false_eq_true,if_false]
  refine Runs.moves_cons.mpr ⟨{ p with
    file := some [], stage := .saving (.putting (Snapshot.write p.server.storage)) },?_,?_⟩
  · simp only [step,main,Stage.halted,Writing.next,Bool.false_eq_true,if_false]
  refine Runs.moves_cons.mpr ⟨{ p with
    file := some (Snapshot.write p.server.storage), stage := .saving (.putting []) },?_,?_⟩
  · simp only [step,main,Stage.halted,hput,Bool.false_eq_true,if_false]
    rfl
  refine Runs.moves_cons.mpr ⟨_,?_,Runs.moves_nil.mpr rfl⟩
  simp only [step,main,Stage.halted,Writing.next,Bool.false_eq_true,if_false]

theorem file_of_returned {config : ServerConfig} {dir : DataDir} {steps : List Step}
    (hrun : Runs.Moves step (boot hash config dir) steps p) (hstage : p.stage = .returned 0) :
    p.file = some (Snapshot.write p.server.storage) :=
  (saved_moves hrun).file (manned_moves hrun) hstage

theorem recovered_of_returned {config : ServerConfig} {dir : DataDir} {steps : List Step}
    (hrun : Runs.Moves step (boot hash config dir) steps p) (hstage : p.stage = .returned 0) :
    (recover hash ⟨p.file,p.server.aof.file⟩).values = p.server.storage.values := by
  have hlive : p.stage ≠ .aborted := by
    rw [hstage]
    simp
  rw [file_of_returned hrun hstage]
  exact (Snapshot.loadInto_write (lineFree_moves hrun hlive)).2

/-- When `run` returns 0, whatever its threads did and in whatever order: no thread is left,
every session that was accepted has been run by a worker once, and has ended, and the
snapshot file is the write of the store as it stands. The next process finds its values; the
deadlines are in no file. -/
theorem clean_stop (config : ServerConfig) (dir : DataDir) {steps : List Step}
    (hrun : Runs.Moves step (boot hash config dir) steps p) (hstage : p.stage = .returned 0) :
    p.snapshots.worker = none ∧ p.sweeps.worker = none ∧
      (∀ w ∈ p.sessions.pool.workers, w = .exited) ∧ p.listening = false ∧
      (∀ k < p.sessions.accepted.length, PoolRun.copies k p.sessions.finished = 1) ∧
      p.file = some (Snapshot.write p.server.storage) ∧
      (recover hash ⟨p.file,p.server.aof.file⟩).values = p.server.storage.values := by
  have hmanned := manned_moves hrun
  have hsweeps : p.sweeps = ⟨false,none⟩ := hmanned.sweeps .absent (by rw [hstage]; rfl)
  have hsnapshots : p.snapshots = ⟨false,none⟩ := hmanned.snapshots .absent (by rw [hstage]; rfl)
  have hworkers := hmanned.workers (by rw [hstage]; rfl)
  refine ⟨by rw [hsnapshots],by rw [hsweeps],hworkers,?_,?_,file_of_returned hrun hstage,
    recovered_of_returned hrun hstage⟩
  · refine Bool.eq_false_iff.mpr fun hopen => ?_
    rcases hmanned.listening hopen with hs | hs
    · rw [hstage] at hs
      cases hs
    · rw [hstage] at hs
      cases hs
  · intro k hk
    obtain ⟨w,hw⟩ := List.exists_mem_of_ne_nil _ hmanned.sessions.staffed
    have hempty := (hmanned.sessions.drained (hworkers w hw ▸ hw)).2
    have hone := hmanned.sessions.copies_places k
    rw [if_pos hk,hempty,PoolRun.running_of_exited hworkers] at hone
    simpa [PoolRun.copies] using hone

theorem exists_set_served :
    ∃ steps, ∃ u : ServerProcess (fun _ => 0),
      Runs.Moves step (boot (fun _ => 0) {} ⟨none,none⟩) steps u ∧ u.stage = .accepting ∧
      u.snapshots = ⟨true,some .testing⟩ ∧ u.served = [⟨0,bytes "SET a 1",some okResponse⟩] ∧
      u.server.storage = ((recover (fun _ => 0) ⟨none,none⟩).set (bytes "a") (bytes "1")).1 ∧
      ∃ more v, Runs.Moves step u more v ∧ v.stage = .opening ∧ v.server = u.server ∧
        v.served = u.served := by
  have hset : parseLine (bytes "SET a 1") = some ⟨.set,bytes "SET",[bytes "a",bytes "1"]⟩ := by
    decide
  obtain ⟨u,hu,hstage,hthread,hnext,hserved,hstore,hstopped⟩ : ∃ u : ServerProcess (fun _ => 0),
      Runs.Moves step (boot (fun _ => 0) {} ⟨none,none⟩)
        [.main true 0,.main true 0,.main true 0,.accept [bytes "SET a 1"],.wake 0] u ∧
      u.stage = .accepting ∧ u.snapshots = ⟨true,some .testing⟩ ∧
      u.next 0 = some (0,bytes "SET a 1") ∧ u.served = [] ∧
      u.server.storage = recover (fun _ => 0) ⟨none,none⟩ ∧
      ∀ server served, ∃ more v, Runs.Moves step { u with server := server, served := served }
        more v ∧ v.stage = .opening ∧ v.server = server ∧ v.served = served :=
    ⟨_,Runs.moves_iff_foldlM.mpr rfl,rfl,rfl,rfl,rfl,rfl,fun _ _ =>
      ⟨[Step.signal,.main true 0,.main true 0,.wake 1,.wake 2,.wake 3,.finish 0] ++
        [Step.wake 0,.main true 0,.main true 0,.sweep (fun _ => 0),.main true 0,.main true 0,
          .snapshot 0,.main true 0],_,Runs.moves_iff_foldlM.mpr rfl,rfl,rfl,rfl⟩⟩
  have hline : (Server.handleLine ⟨fun _ => 0,.success⟩ (bytes "SET a 1")).run u.server =
      .ok (some okResponse) { u.server.recordCommand with
        storage := (u.server.storage.set (bytes "a") (bytes "1")).1 } := by
    rw [Server.run_handleLine,hset]
    rfl
  have hstep : step (.line 0 ⟨fun _ => 0,.success⟩) u = some { u with
      server := { u.server.recordCommand with
        storage := (u.server.storage.set (bytes "a") (bytes "1")).1 }
      served := [⟨0,bytes "SET a 1",some okResponse⟩] } := by
    rw [step,hstage]
    simp only [Stage.halted,line,hnext,hline,hserved,Option.map_some,Bool.false_eq_true,if_false,
      List.nil_append,hstage]
  refine ⟨_,_,Runs.moves_append.mpr ⟨_,hu,Runs.moves_cons.mpr ⟨_,hstep,Runs.moves_nil.mpr rfl⟩⟩,
    hstage,hthread,rfl,?_,hstopped _ _⟩
  rw [← hstore]

theorem values_set_recovered :
    ((recover (fun _ => 0) ⟨none,none⟩).set (bytes "a") (bytes "1")).1.values =
      (∅ : Map Bytes).insert (bytes "a") (bytes "1") := by
  rw [StorageEngine.values_set,recover_of_log]
  rfl

theorem clean_stop_example :
    ∃ steps p, Runs.Moves step (boot (fun _ => 0) {} ⟨none,none⟩) steps p ∧
      p.stage = .returned 0 ∧ p.served = [⟨0,bytes "SET a 1",some okResponse⟩] ∧
      (∀ k < p.sessions.accepted.length, PoolRun.copies k p.sessions.finished = 1) ∧
      (recover (fun _ => 0) ⟨p.file,p.server.aof.file⟩).values =
        (∅ : Map Bytes).insert (bytes "a") (bytes "1") := by
  obtain ⟨steps,u,hu,-,-,hserved,hstore,more,v,hv,hopening,hserver,hlast⟩ := exists_set_served
  have hrun := Runs.moves_append.mpr ⟨_,hu,Runs.moves_append.mpr ⟨_,hv,moves_lastWrite hopening⟩⟩
  obtain ⟨-,-,-,-,honce,-,hvalues⟩ := clean_stop {} ⟨none,none⟩ hrun rfl
  refine ⟨_,_,hrun,rfl,hlast.trans hserved,honce,hvalues.trans ?_⟩
  rw [hserver,hstore]
  exact values_set_recovered

/-- A store that the server had at some point of the run. -/
def Had (config : ServerConfig) (dir : DataDir) (steps : List Step) (e : StorageEngine hash) :
    Prop :=
  ∃ before u, before <+: steps ∧ Runs.Moves step (boot hash config dir) before u ∧
    u.stage ≠ .aborted ∧ u.server.storage = e

theorem Filed.mono {Seen' : StorageEngine hash → Prop} (h : p.Filed Seen first)
    (hmono : ∀ e, Seen e → Seen' e) : p.Filed Seen' first := by
  refine ⟨?_,fun hrun => ?_⟩
  · rcases h.torn with hfirst | ⟨e,written,he,hfile⟩
    · exact Or.inl hfirst
    · exact Or.inr ⟨e,written,hmono e he,hfile⟩
  · rcases h.written hrun with hfirst | ⟨e,he,hwrote⟩
    · exact Or.inl hfirst
    · exact Or.inr ⟨e,hmono e he,hwrote⟩

theorem filed_boot (config : ServerConfig) (dir : DataDir) :
    (boot hash config dir).Filed Seen dir.snapshot :=
  Filed.of_written (Or.inl ⟨rfl,rfl⟩)

theorem filed_moves {config : ServerConfig} {dir : DataDir} {steps : List Step}
    (h : Runs.Moves step (boot hash config dir) steps p) :
    p.Filed (Had config dir steps) dir.snapshot := by
  induction steps using List.reverseRecOn generalizing p with
  | nil =>
    rw [← Runs.moves_nil.mp h]
    exact filed_boot config dir
  | append_singleton steps i ih =>
    obtain ⟨u,hu,hi⟩ := Runs.moves_append.mp h
    obtain ⟨v,hv,hnil⟩ := Runs.moves_cons.mp hi
    rw [← Runs.moves_nil.mp hnil]
    have hgrow : ∀ e : StorageEngine hash, Had config dir steps e → Had config dir (steps ++ [i]) e := by
      rintro e ⟨before,w,hbefore,hw⟩
      exact ⟨before,w,hbefore.trans (List.prefix_append steps [i]),hw⟩
    exact ((ih hu).mono hgrow).step (manned_moves hu)
      ⟨steps,u,List.prefix_append steps [i],hu,step_live hv,rfl⟩ hv

/-- However a process is stopped, the snapshot file is the one it found, or the beginning of
a write of a store that the server had. While no write is under way it is all of one, and
the next process would find the values of that store; the deadlines are in no file. -/
theorem snapshot_file_at_any_time (config : ServerConfig) (dir : DataDir) {steps : List Step}
    (hrun : Runs.Moves step (boot hash config dir) steps p) :
    (p.file = dir.snapshot ∨ ∃ (e : StorageEngine hash) (written : Bytes),
      Had config dir steps e ∧ p.file = some written ∧ written <+: Snapshot.write e) ∧
    (p.stage ≠ .aborted → p.writer = none → p.file = dir.snapshot ∨
      ∃ e : StorageEngine hash, Had config dir steps e ∧ p.file = some (Snapshot.write e) ∧
        ∀ aof, (recover hash ⟨p.file,aof⟩).values = e.values) := by
  have hfiled := filed_moves hrun
  refine ⟨hfiled.torn,fun hlive hwriter => ?_⟩
  rcases hfiled.written hlive with ⟨-,hfirst⟩ | ⟨e,he,hwrote⟩
  · exact Or.inl hfirst
  · rw [hwriter] at hwrote
    have hfile : p.file = some (Snapshot.write e) := hwrote
    obtain ⟨before,u,hbefore,hu,hulive,rfl⟩ := he
    refine Or.inr ⟨u.server.storage,⟨before,u,hbefore,hu,hulive,rfl⟩,hfile,fun aof => ?_⟩
    rw [hfile]
    exact (Snapshot.loadInto_write (lineFree_moves hu hulive)).2

/-- The process is killed when five bytes of the first snapshot have been put. And a snapshot
is whole after a key was set. -/
theorem snapshot_file_at_any_time_example :
    (∃ steps p, Runs.Moves step (boot (fun _ => 0) {} ⟨none,none⟩) steps p ∧
      p.file = some (bytes "VOLTD") ∧
      ∃ (e : StorageEngine (fun _ => 0)) (written : Bytes),
        p.file = some written ∧ written <+: Snapshot.write e) ∧
    ∃ steps p, Runs.Moves step (boot (fun _ => 0) {} ⟨none,none⟩) steps p ∧
      p.served = [⟨0,bytes "SET a 1",some okResponse⟩] ∧ p.writer = none ∧
      ∃ e : StorageEngine (fun _ => 0), Had {} ⟨none,none⟩ steps e ∧
        p.file = some (Snapshot.write e) ∧ ∀ aof, (recover (fun _ => 0) ⟨p.file,aof⟩).values =
          e.values := by
  constructor
  · have hend : (List.foldlM (fun u i => step i u) (boot (fun _ => 0) {} ⟨none,none⟩)
        [.main true 0,.snapshot 0,.snapshot 0,.main true 0,.snapshot 5,.kill]).map file =
        some (some (bytes "VOLTD")) := by decide +kernel
    obtain ⟨p,hp,hfile⟩ := Option.map_eq_some_iff.mp hend
    have hrun := Runs.moves_iff_foldlM.mpr hp
    rcases (snapshot_file_at_any_time {} ⟨none,none⟩ hrun).1 with hfirst | ⟨e,written,-,hput⟩
    · rw [hfile] at hfirst
      cases hfirst
    · exact ⟨_,p,hrun,hfile,e,written,hput⟩
  · obtain ⟨steps,u,hu,hstage,hthread,hserved,-⟩ := exists_set_served
    have hrun := Runs.moves_append.mpr ⟨_,hu,moves_snapshot (by rw [hstage]; rfl) hthread⟩
    have hwriter : writer { u with
        file := some (Snapshot.write u.server.storage)
        snapshots := ⟨true,some (.pausing 0)⟩ } = none := by
      simp only [writer,hstage]
    refine ⟨_,_,hrun,hserved,hwriter,?_⟩
    refine ((snapshot_file_at_any_time {} ⟨none,none⟩ hrun).2 ?_ hwriter).resolve_left ?_
    · rw [hstage]
      simp
    · simp

theorem Manned.running_accepted (h : p.Manned) {w : Nat} {task : Nat × List Bytes}
    (hw : p.sessions.pool.workers[w]? = some (.running task)) : task ∈ p.sessions.accepted := by
  have hrunning : task ∈ p.sessions.pool.running :=
    List.mem_flatMap.mpr ⟨_,List.mem_of_getElem? hw,List.mem_singleton_self task⟩
  have hstarted : task ∈ p.sessions.started :=
    h.sessions.served.subset (List.mem_append_left _ hrunning)
  rw [← h.sessions.queued]
  exact List.mem_append_left _ hstarted

structure Unused (dir : DataDir) (p : ServerProcess hash) : Prop where
  served : p.served = []
  store : p.server.storage.toMap = (recover hash dir).toMap
  log : p.server.aof.file = (AofLog.create dir.aof).file
  gathered : ∀ keys, p.sweeps.worker = some (.erasing keys) → keys = []

theorem gathered_nil {e : StorageEngine hash} (h : Recovery.Lasting e) (clock : Nat → Int) :
    (e.table.forEach (StorageEngine.gatherExpired clock) (0,[])).2 = [] := by
  refine List.eq_nil_iff_forall_not_mem.mpr fun key hkey => ?_
  obtain ⟨entry,i,hentry,hdead⟩ := e.mem_gathered hkey
  simp [StorageEntry.live,h key entry hentry] at hdead

theorem step_sweeps {i : Step} (hstep : step i p = some q) {keys : List Bytes}
    (hkeys : q.sweeps.worker = some (.erasing keys)) :
    (∃ clock, keys =
      (p.server.storage.table.forEach (StorageEngine.gatherExpired clock) (0,[])).2) ∨
    p.sweeps.worker = some (.erasing keys) ∨
    ∃ key, p.sweeps.worker = some (.erasing (key :: keys)) := by
  have hready := step_some hstep
  unfold step at hstep
  rw [hready,if_neg Bool.false_ne_true] at hstep
  cases i with
  | main bound cut =>
    rcases main_sweeps hstep with ⟨-,hsweeps,-⟩ | ⟨-,hsweeps,-⟩ | ⟨-,hsweeps,-⟩ | ⟨hsweeps,-⟩
    · rw [hsweeps,Scheduler.start] at hkeys
      split at hkeys
      · exact Or.inr (Or.inl hkeys)
      · cases hkeys
    · rw [hsweeps] at hkeys
      exact Or.inr (Or.inl hkeys)
    · rw [hsweeps] at hkeys
      cases hkeys
    · rw [hsweeps] at hkeys
      exact Or.inr (Or.inl hkeys)
  | accept session =>
    dsimp only at hstep
    split at hstep
    · cases hstep
      rw [accept_rest] at hkeys
      exact Or.inr (Or.inl hkeys)
    · cases hstep
  | signal =>
    cases hstep
    exact Or.inr (Or.inl hkeys)
  | wake w =>
    obtain ⟨t,-,rfl⟩ := Option.map_eq_some_iff.mp hstep
    exact Or.inr (Or.inl hkeys)
  | line w env =>
    obtain ⟨k,session,line,-,-,⟨reply,server,-,rfl⟩ | ⟨x,server,-,rfl⟩⟩ := line_cases hstep
    · exact Or.inr (Or.inl hkeys)
    · exact Or.inr (Or.inl hkeys)
  | finish w =>
    obtain ⟨t,-,rfl⟩ := Option.map_eq_some_iff.mp hstep
    exact Or.inr (Or.inl hkeys)
  | snapshot cut =>
    obtain ⟨place,file,-,rfl⟩ := snapshotStep_cases hstep
    exact Or.inr (Or.inl hkeys)
  | sweep clock =>
    obtain ⟨-,⟨key,rest,hold,rfl⟩ | ⟨place,rfl,hgathered⟩⟩ := sweepStep_cases hstep
    · cases hkeys
      exact Or.inr (Or.inr ⟨key,hold⟩)
    · cases hkeys
      exact Or.inl ⟨clock,hgathered keys rfl⟩
  | kill =>
    cases hstep
    exact Or.inr (Or.inl hkeys)

theorem Unused.step {i : Step} {dir : DataDir} (h : p.Unused dir) (hmanned : p.Manned)
    (hnone : p.sessions.accepted = []) (hstep : ServerProcess.step i p = some q)
    (hlive : q.stage ≠ .aborted) : q.Unused dir := by
  have hlasting : Recovery.Lasting p.server.storage := by
    rw [Recovery.Lasting,h.store]
    exact Recovery.lasting_recover hash dir
  have hgathered : ∀ keys, q.sweeps.worker = some (.erasing keys) → keys = [] := by
    intro keys hkeys
    rcases step_sweeps hstep hkeys with ⟨clock,hnew⟩ | hold | ⟨key,hold⟩
    · rw [hnew,gathered_nil hlasting clock]
    · exact h.gathered keys hold
    · cases h.gathered _ hold
  rcases step_storage hmanned hstep hlive with ⟨hstore,hserved,hlog⟩ | ⟨key,rest,hold,-⟩ |
    ⟨w,env,k,session,line,reply,-,hw,-⟩
  · exact ⟨by rw [hserved,h.served],by rw [hstore,h.store],by rw [hlog,h.log],hgathered⟩
  · cases h.gathered _ hold
  · have haccepted := hmanned.running_accepted hw
    rw [hnone] at haccepted
    cases haccepted

theorem unused_moves {config : ServerConfig} {dir : DataDir} {steps : List Step}
    (h : Runs.Moves step (boot hash config dir) steps p) (hlive : p.stage ≠ .aborted)
    (hnone : p.sessions.accepted = []) :
    p.Unused dir ∧ p.Filed (fun e => e.toMap = (recover hash dir).toMap) dir.snapshot := by
  have hboot : (boot hash config dir).Unused dir := by
    refine ⟨rfl,rfl,rfl,fun keys hkeys => ?_⟩
    cases hkeys
  refine (Runs.moves_invariant (I := fun u => u.Manned ∧ (u.stage ≠ .aborted →
      u.sessions.accepted = [] → u.Unused dir ∧
        u.Filed (fun e => e.toMap = (recover hash dir).toMap) dir.snapshot))
    (fun i _ u v hu hmove => ⟨hu.1.step hmove,fun hv hempty => ?_⟩)
    ⟨manned_boot hash config dir,fun _ _ => ⟨hboot,filed_boot config dir⟩⟩ h).2 hlive hnone
  have hbefore : u.sessions.accepted = [] := by
    have hbegins := step_accepted hmove
    rw [hempty] at hbegins
    exact List.prefix_nil.mp hbegins
  obtain ⟨hunused,hfiled⟩ := hu.2 (step_live hmove) hbefore
  exact ⟨hunused.step hu.1 hbefore hmove hv,hfiled.step hu.1 hunused.store hmove⟩

/-- When `run` could not listen and has returned 1, no session was accepted, and the
directory holds what it held: the next process finds the same values, whatever the schedulers
did before they were stopped. -/
theorem failed_bind (config : ServerConfig) (dir : DataDir) {steps : List Step} {n : Nat}
    (hrun : Runs.Moves step (boot hash config dir) steps p) (hstage : p.stage = .returned (n+1)) :
    p.sessions.accepted = [] ∧ p.served = [] ∧ p.snapshots.worker = none ∧
      p.sweeps.worker = none ∧
      (recover hash ⟨p.file,p.server.aof.file⟩).values = (recover hash dir).values := by
  have hmanned := manned_moves hrun
  have haccepted := hmanned.unbound (Or.inr (Or.inr (Or.inr ⟨n,by rw [hstage]; rfl⟩)))
  have hlive : p.stage ≠ .aborted := by
    rw [hstage]
    simp
  obtain ⟨hunused,hfiled⟩ := unused_moves hrun hlive haccepted
  have hsnapshots : p.snapshots = ⟨false,none⟩ := hmanned.snapshots .absent (by rw [hstage]; rfl)
  have hsweeps : p.sweeps = ⟨false,none⟩ := hmanned.sweeps .absent (by rw [hstage]; rfl)
  have hwriter : p.writer = none := by
    unfold writer
    rw [hstage,hsnapshots]
  refine ⟨haccepted,hunused.served,by rw [hsnapshots],by rw [hsweeps],?_⟩
  rcases hfiled.written hlive with ⟨-,hfirst⟩ | ⟨e,he,hwrote⟩
  · rw [hfirst,hunused.log]
    exact recover_reopened hash dir
  · have hvalues : e.values = (recover hash dir).values :=
      StorageEngine.values_of_toMap he _ fun key => (recover hash dir).lookup_values key
    rw [hwriter] at hwrote
    have hfile : p.file = some (Snapshot.write e) := hwrote
    rw [hfile,← hvalues]
    refine (Snapshot.loadInto_write ?_).2
    rw [hvalues]
    exact Recovery.lineFree_recover hash dir

/-- A key is in the log, and its snapshot is written before the port turns out to be taken. -/
theorem failed_bind_example :
    let dir : DataDir := ⟨none,some (bytes "SET a 1\n")⟩
    ∃ steps p, Runs.Moves step (boot (fun _ => 0) {} dir) steps p ∧
      p.stage = .returned 1 ∧ p.file = some (Snapshot.write (recover (fun _ => 0) dir)) ∧
      (recover (fun _ => 0) ⟨p.file,p.server.aof.file⟩).values =
        (∅ : Map Bytes).insert (bytes "a") (bytes "1") := by
  intro dir
  obtain ⟨u,hu,hrunning,hthread,hserver,hreturn⟩ : ∃ u : ServerProcess (fun _ => 0),
      Runs.Moves step (boot (fun _ => 0) {} dir) [.main true 0] u ∧ u.stage.halted = false ∧
      u.snapshots = ⟨true,some .testing⟩ ∧ u.server.storage = recover (fun _ => 0) dir ∧
      ∀ file, ∃ more v, Runs.Moves step
        { u with file := file, snapshots := ⟨true,some (.pausing 0)⟩ } more v ∧
        v.stage = .returned 1 ∧ v.file = file :=
    ⟨_,Runs.moves_iff_foldlM.mpr rfl,rfl,rfl,rfl,fun _ =>
      ⟨[.main true 0,.main false 0,.main true 0,.sweep (fun _ => 0),.main true 0,.main true 0,
        .snapshot 0,.snapshot 0,.main true 0],_,Runs.moves_iff_foldlM.mpr rfl,rfl,rfl⟩⟩
  obtain ⟨more,p,hp,hstage,hfile⟩ := hreturn (some (Snapshot.write u.server.storage))
  have hrun := Runs.moves_append.mpr ⟨_,hu,
    Runs.moves_append.mpr ⟨_,moves_snapshot hrunning hthread,hp⟩⟩
  obtain ⟨-,-,-,-,hvalues⟩ := failed_bind {} dir hrun hstage
  refine ⟨_,p,hrun,hstage,by rw [hfile,hserver],hvalues.trans ?_⟩
  rw [recover_of_log]
  rfl

end ServerProcess
end VoltDBX
