import VoltDBX.Durability
import VoltDBX.Restart
import VoltDBX.Wire

/-!
A data directory through the lives of the servers that run on it: processes that start, serve
lines, write snapshots, stop cleanly, crash, or end by an exception, and what the next of
them finds.
-/

set_option autoImplicit false

namespace VoltDBX
open Reference

/-- `DatabaseServer` on a data directory, when `run` has recovered the store. -/
def Server.boot (hash : Bytes → Nat) (config : ServerConfig) (dir : DataDir) : Server hash :=
  { Server.create hash config with storage := recover hash dir, aof := .create dir.aof }

def asksRewrite (raw : Bytes) : Bool :=
  (parseLine raw).any fun cmd => decide (cmd.type = .bgrewriteaof)

/-- A directory with the process on it, if one is running. `saved` records the values the
store had when the last snapshot was written, `logged` those at the last rewrite of the log. -/
structure Deployment (hash : Bytes → Nat) where
  process : Option (Server hash)
  disk : DataDir
  saved : Option (Map Bytes)
  logged : Map Bytes

namespace Deployment
variable {hash : Bytes → Nat}

inductive Event where
  | start (config : ServerConfig)
  | line (clock : Nat → Int) (raw : Bytes)
  | sweep (clock : Nat → Int)
  | snapshot
  | stop
  /-- The process ends between two operations. -/
  | crash

def onto (hash : Bytes → Nat) (dir : DataDir) : Deployment hash :=
  ⟨none,dir,dir.snapshot.map fun _ => (recover hash dir).values,AofLog.logMap (dir.aof.getD [])⟩

def save (s : Server hash) (d : Deployment hash) : Deployment hash :=
  { d with
    disk := ⟨some (Snapshot.write s.storage),d.disk.aof⟩
    saved := some s.storage.values }

/-- File operations succeed; an exception ends the process. -/
def step : Event → Deployment hash → Option (Deployment hash)
  | .start config, d =>
    match d.process with
    | some _ => none
    | none => some { d with
        process := some (Server.boot hash config d.disk)
        disk := ⟨d.disk.snapshot,(AofLog.create d.disk.aof).file⟩ }
  | .line clock raw, d => d.process.map fun s =>
    let r := (Server.handleLine ⟨clock,.success⟩ raw).run s
    { d with
      process := match r with
        | .ok _ t => some t
        | .error _ _ => none
      disk := ⟨d.disk.snapshot,(stateOf r).aof.file⟩
      logged := if asksRewrite raw then s.storage.values else d.logged }
  | .sweep clock, d => d.process.map fun s =>
    { d with process := some { s with storage := s.storage.purgeExpired clock } }
  | .snapshot, d => d.process.map fun s => save s d
  | .stop, d => d.process.map fun s => { save s d with process := none }
  | .crash, d => d.process.map fun _ => { d with process := none }

end Deployment

section
variable {hash : Bytes → Nat} {s : Server hash}

theorem IsToken.notMem_space {a : Bytes} (h : IsToken a) : space ∉ a := by
  intro hmem
  exact absurd (h.solid space hmem) (by decide)

theorem AofLog.rewriteFrom_success (log : AofLog) (storage : StorageEngine hash) :
    log.rewriteFrom .success storage = (⟨some (rewriteText storage.dumpEntries),true⟩,true) := rfl

theorem aof_handleLine (clock : Nat → Int) (raw : Bytes) (s : Server hash) :
    (stateOf ((Server.handleLine ⟨clock,.success⟩ raw).run s)).aof.file =
      if asksRewrite raw then some (AofLog.rewriteText s.storage.dumpEntries) else s.aof.file := by
  rw [Server.run_handleLine]
  cases hp : parseLine raw with
  | none => simp [asksRewrite,hp,stateOf]
  | some cmd =>
    dsimp only
    by_cases ht : cmd.type = .bgrewriteaof
    · have hrun : (Server.dispatch ⟨clock,.success⟩ cmd).run s =
          (updating (Server.rewriteAof ⟨clock,.success⟩)).run s.recordCommand := by
        rw [Server.run_dispatch,ht]
        rfl
      rw [hrun]
      simp [asksRewrite,hp,ht,run_updating,Server.rewriteAof,handleBgrewriteaof,
        AofLog.rewriteFrom_success,stateOf,Server.recordCommand]
    · have hask : asksRewrite raw = false := by simp [asksRewrite,hp,ht]
      rw [hask]
      cases hd : (Server.dispatch ⟨clock,.success⟩ cmd).run s with
      | ok reply t =>
        have haof := (Server.dispatch_aof ⟨clock,.success⟩ ht s).of_ok hd
        simp [stateOf,haof]
      | error x t =>
        have hfailed : Failed ((Server.dispatch ⟨clock,.success⟩ cmd).run s) := by
          rw [hd]
          trivial
        rcases Server.failed_state hfailed with hs | hs | ⟨hrewrite,-⟩
        · rw [hd] at hs
          simp only [stateOf] at hs ⊢
          simp [hs]
        · rw [hd] at hs
          simp only [stateOf] at hs ⊢
          simp [hs,Server.recordCommand]
        · exact absurd hrewrite ht

theorem Effect.all {Q : Bytes → Bytes → Prop} {e u : StorageEngine hash} {cmd : ParsedCommand}
    (h : Effect e cmd u) (hby : ∀ p, StoredBy cmd p → Q p.1 p.2) (hall : Map.All Q e.values) :
    Map.All Q u.values := by
  cases h with
  | kept => exact hall
  | stored pairs hne hst hpairs =>
    rw [StorageEngine.values_setAll]
    clear hne
    generalize e.values = m at hall
    induction pairs generalizing m with
    | nil => exact hall
    | cons p pairs ih =>
      exact ih (fun q hq => hpairs q (by simp [hq])) _ (hall.insert (hby p (hpairs p (by simp))))
  | removed key ht hk =>
    rw [StorageEngine.values_remove]
    exact hall.erase key
  | expires now key ttl ht =>
    rw [StorageEngine.values_setTtl]
    exact hall
  | cleared ht =>
    rw [StorageEngine.values_clearAll]
    exact Map.all_empty

theorem StoredBy.clean {cmd : ParsedCommand} {raw : Bytes} (hp : parseLine raw = some cmd)
    {p : Bytes × Bytes} (h : StoredBy cmd p) : AofLog.CleanPair p.1 p.2 := by
  have htokens := parseLine_args hp
  have hlines := h.lineFree fun a ha => (htokens a ha).notMem_lf
  exact ⟨(htokens p.1 h.1).notMem_space,hlines.1,hlines.2⟩

theorem purgeExpired_all {Q : Bytes → Bytes → Prop} {e : StorageEngine hash} (clock : Nat → Int)
    (h : Map.All Q e.values) : Map.All Q (e.purgeExpired clock).values := by
  intro key value hvalue
  refine h key value ?_
  rw [StorageEngine.lookup_values] at hvalue ⊢
  rcases e.lookup_purgeExpired clock key with hsame | ⟨hnone,-⟩
  · rw [← hsame]
    exact hvalue
  · rw [hnone] at hvalue
    cases hvalue

theorem handleLine_all {Q : Bytes → Bytes → Prop} {env : Env} {raw : Bytes} {t : Server hash}
    {reply : Option Bytes} (hclean : ∀ key value, AofLog.CleanPair key value → Q key value)
    (h : Map.All Q s.storage.values) (hrun : (Server.handleLine env raw).run s = .ok reply t) :
    Map.All Q t.storage.values := by
  rw [Server.run_handleLine] at hrun
  cases hp : parseLine raw with
  | none =>
    rw [hp] at hrun
    cases hrun
    exact h
  | some cmd =>
    simp only [hp] at hrun
    cases hd : (Server.dispatch env cmd).run s with
    | error x u =>
      rw [hd] at hrun
      cases hrun
    | ok r u =>
      rw [hd] at hrun
      cases hrun
      exact ((Server.dispatch_effect env cmd s).of_ok hd).all
        (fun p hby => hclean p.1 p.2 (hby.clean hp)) h

end

theorem recover_of_log (hash : Bytes → Nat) (aof : Option Bytes) :
    (recover hash ⟨none,aof⟩).values = AofLog.logMap (aof.getD []) :=
  @AofLog.values_replay hash (aof.getD []) true

theorem recover_reopened (hash : Bytes → Nat) (dir : DataDir) :
    (recover hash ⟨dir.snapshot,(AofLog.create dir.aof).file⟩).values =
      (recover hash dir).values := by
  obtain ⟨snapshot,aof⟩ := dir
  cases snapshot with
  | some content => rfl
  | none =>
    rw [recover_of_log,recover_of_log]
    rfl

namespace Deployment
variable {hash : Bytes → Nat} {d : Deployment hash}

/-- What holds in every state: a restart would rebuild the values of the last snapshot or,
while there is none, those of the last rewrite of the log. -/
structure Accounted (d : Deployment hash) : Prop where
  recovered : (recover hash d.disk).values = d.saved.getD d.logged
  recorded : d.saved = none ↔ d.disk.snapshot = none
  opened : ∀ s, d.process = some s → s.aof.file = d.disk.aof
  lineFree : ∀ s, d.process = some s → Snapshot.LineFree s.storage.values
  /-- While the log is what a restart reads, no key has a blank. -/
  clean : d.saved = none → ∀ s, d.process = some s → AofLog.Clean s.storage.values

theorem accounted_onto (hash : Bytes → Nat) (dir : DataDir) : (onto hash dir).Accounted := by
  obtain ⟨snapshot,aof⟩ := dir
  refine ⟨?_,?_,?_,?_,?_⟩
  · cases snapshot with
    | none => exact recover_of_log hash aof
    | some content => rfl
  · cases snapshot <;> simp [onto]
  · intro s hs
    cases hs
  · intro s hs
    cases hs
  · intro _ s hs
    cases hs

theorem Accounted.start (h : d.Accounted) (hnone : d.process = none) (config : ServerConfig) :
    Accounted { d with
      process := some (Server.boot hash config d.disk)
      disk := ⟨d.disk.snapshot,(AofLog.create d.disk.aof).file⟩ } := by
  refine ⟨?_,h.recorded,?_,?_,?_⟩
  · dsimp only
    rw [recover_reopened,h.recovered]
  · intro s hs
    cases hs
    rfl
  · intro s hs
    cases hs
    exact Recovery.lineFree_recover hash d.disk
  · intro hsaved s hs
    cases hs
    have hsnapshot := h.recorded.mp hsaved
    obtain ⟨process,⟨snapshot,aof⟩,saved,logged⟩ := d
    cases hsnapshot
    have hvalues : (Server.boot hash config ⟨none,aof⟩).storage.values =
        AofLog.logMap (aof.getD []) := recover_of_log hash aof
    exact hvalues ▸ AofLog.clean_logMap _

theorem Accounted.line (h : d.Accounted) {s : Server hash} (hs : d.process = some s)
    (clock : Nat → Int) (raw : Bytes) {next : Option (Server hash)}
    (hnext : ∀ t, next = some t → ∃ reply,
      (Server.handleLine ⟨clock,.success⟩ raw).run s = .ok reply t) :
    Accounted { d with
      process := next
      disk := ⟨d.disk.snapshot,
        (stateOf ((Server.handleLine ⟨clock,.success⟩ raw).run s)).aof.file⟩
      logged := if asksRewrite raw then s.storage.values else d.logged } := by
  have hrecorded := h.recorded
  refine ⟨?_,hrecorded,?_,?_,?_⟩
  · rw [aof_handleLine]
    have hrecovered := h.recovered
    have hopened := h.opened s hs
    have hclean := h.clean
    obtain ⟨process,⟨snapshot,aof⟩,saved,logged⟩ := d
    cases snapshot with
    | some content =>
      -- the snapshot is what counts, and it is not touched
      have hsome : saved ≠ none := fun hnone => nomatch hrecorded.mp hnone
      obtain ⟨m,hm⟩ := Option.ne_none_iff_exists'.mp hsome
      subst hm
      exact hrecovered
    | none =>
      cases hrecorded.mpr rfl
      cases hask : asksRewrite raw with
      | true =>
        rw [if_pos rfl,if_pos rfl,recover_of_log]
        exact AofLog.logMap_rewriteText (hclean rfl s hs)
      | false =>
        rw [if_neg Bool.false_ne_true,if_neg Bool.false_ne_true,hopened]
        exact hrecovered
  · intro t ht
    obtain ⟨reply,hrun⟩ := hnext t ht
    rw [hrun]
    rfl
  · intro t ht
    obtain ⟨reply,hrun⟩ := hnext t ht
    exact handleLine_all (fun _ _ hp => hp.2) (h.lineFree s hs) hrun
  · intro hsaved t ht
    obtain ⟨reply,hrun⟩ := hnext t ht
    exact handleLine_all (fun _ _ hp => hp) (h.clean hsaved s hs) hrun

theorem Accounted.save (h : d.Accounted) {s : Server hash} (hs : d.process = some s) :
    (save s d).Accounted := by
  refine ⟨?_,?_,h.opened,h.lineFree,?_⟩
  · exact (Snapshot.loadInto_write (h.lineFree s hs)).2
  · simp [Deployment.save]
  · intro hsaved
    cases hsaved

theorem Accounted.gone (h : d.Accounted) :
    Accounted (⟨none,d.disk,d.saved,d.logged⟩ : Deployment hash) :=
  ⟨h.recovered,h.recorded,by simp,by simp,by simp⟩

theorem Accounted.step {e : Event} {t : Deployment hash} (h : d.Accounted)
    (hstep : step e d = some t) : t.Accounted := by
  cases e with
  | start config =>
    cases hp : d.process with
    | some s => simp [Deployment.step,hp] at hstep
    | none =>
      simp only [Deployment.step,hp,Option.some.injEq] at hstep
      subst hstep
      exact h.start hp config
  | line clock raw =>
    obtain ⟨s,hs,rfl⟩ := Option.map_eq_some_iff.mp hstep
    refine h.line hs clock raw fun t ht => ?_
    cases hrun : (Server.handleLine ⟨clock,.success⟩ raw).run s with
    | ok reply u =>
      rw [hrun] at ht
      cases ht
      exact ⟨reply,rfl⟩
    | error x u =>
      rw [hrun] at ht
      cases ht
  | sweep clock =>
    obtain ⟨s,hs,rfl⟩ := Option.map_eq_some_iff.mp hstep
    refine ⟨h.recovered,h.recorded,?_,?_,?_⟩
    · intro t ht
      cases ht
      exact h.opened s hs
    · intro t ht
      cases ht
      exact purgeExpired_all clock (h.lineFree s hs)
    · intro hsaved t ht
      cases ht
      exact purgeExpired_all clock (h.clean hsaved s hs)
  | snapshot =>
    obtain ⟨s,hs,rfl⟩ := Option.map_eq_some_iff.mp hstep
    exact h.save hs
  | stop =>
    obtain ⟨s,hs,rfl⟩ := Option.map_eq_some_iff.mp hstep
    exact (h.save hs).gone
  | crash =>
    obtain ⟨s,hs,rfl⟩ := Option.map_eq_some_iff.mp hstep
    exact h.gone

/-- However many processes have lived on a directory and however they ended, the next one
starts from the values of the last snapshot or, while none has been written, of the last
rewrite of the log, and from no deadlines. -/
theorem restart_finds_checkpoint (hash : Bytes → Nat) (dir : DataDir) {events : List Event}
    {d : Deployment hash} (hrun : Runs.Moves step (onto hash dir) events d) :
    (recover hash d.disk).values = d.saved.getD d.logged ∧
      Recovery.Lasting (recover hash d.disk) := by
  have h : d.Accounted := Runs.moves_invariant (fun _ _ _ _ hu hmove => hu.step hmove)
    (accounted_onto hash dir) hrun
  exact ⟨h.recovered,Recovery.lasting_recover hash d.disk⟩

theorem step_set {s : Server hash} (hs : d.process = some s) (clock : Nat → Int)
    {raw name key value : Bytes} (hp : parseLine raw = some ⟨.set,name,[key,value]⟩) :
    ∃ t, t.storage.values = s.storage.values.insert key value ∧
      step (.line clock raw) d = some ⟨some t,⟨d.disk.snapshot,t.aof.file⟩,d.saved,d.logged⟩ := by
  have hrun : (Server.handleLine ⟨clock,.success⟩ raw).run s = .ok (some okResponse)
      { s.recordCommand with storage := (s.storage.set key value).1 } := by
    rw [Server.run_handleLine,hp]
    rfl
  refine ⟨{ s.recordCommand with storage := (s.storage.set key value).1 },
    StorageEngine.values_set s.storage key value,?_⟩
  rw [step,hs,Option.map_some,hrun,asksRewrite,hp]
  rfl

theorem restart_finds_checkpoint_example :
    ∃ d, Runs.Moves step (onto (fun _ => 0) ⟨none,none⟩)
        [.start {},.line (fun _ => 0) (bytes "SET a 1"),.snapshot,
          .line (fun _ => 0) (bytes "SET b 2"),.crash] d ∧
      (recover (fun _ => 0) d.disk).values =
        (∅ : Map Bytes).insert (bytes "a") (bytes "1") := by
  have ha : parseLine (bytes "SET a 1") = some ⟨.set,bytes "SET",[bytes "a",bytes "1"]⟩ := by
    decide
  have hb : parseLine (bytes "SET b 2") = some ⟨.set,bytes "SET",[bytes "b",bytes "2"]⟩ := by
    decide
  have hempty : (Server.boot (fun _ => 0) {} ⟨none,none⟩).storage.values = ∅ :=
    recover_of_log (fun _ => 0) none
  obtain ⟨s,hs,hfirst⟩ := @step_set (fun _ => 0)
    ⟨some (Server.boot (fun _ => 0) {} ⟨none,none⟩),⟨none,some []⟩,none,∅⟩ _ rfl (fun _ => 0) _ _ _
    _ ha
  obtain ⟨t,-,hsecond⟩ := @step_set (fun _ => 0)
    (save s ⟨some s,⟨none,s.aof.file⟩,none,∅⟩) s rfl (fun _ => 0) _ _ _ _ hb
  have hrun : Runs.Moves step (onto (fun _ => 0) ⟨none,none⟩)
      [.start {},.line (fun _ => 0) (bytes "SET a 1"),.snapshot,
        .line (fun _ => 0) (bytes "SET b 2"),.crash]
      ⟨none,⟨some (Snapshot.write s.storage),t.aof.file⟩,some s.storage.values,∅⟩ :=
    Runs.moves_cons.mpr ⟨_,rfl,Runs.moves_cons.mpr ⟨_,hfirst,Runs.moves_cons.mpr ⟨_,rfl,
      Runs.moves_cons.mpr ⟨_,hsecond,Runs.moves_cons.mpr ⟨_,rfl,Runs.moves_nil.mpr rfl⟩⟩⟩⟩⟩
  refine ⟨_,hrun,(restart_finds_checkpoint (fun _ => 0) ⟨none,none⟩ hrun).1.trans ?_⟩
  rw [Option.getD_some,hs,hempty]

end Deployment

theorem Recovery.Lasting.agrees {hash : Bytes → Nat} {e : StorageEngine hash}
    (h : Recovery.Lasting e) : e.Agrees e.values := by
  intro key
  rw [StorageEngine.lookup_values]
  cases hk : e.toMap.lookup key with
  | none => rfl
  | some entry =>
    obtain ⟨value,expiresAt⟩ := entry
    have hnone : expiresAt = none := h key _ hk
    rw [hnone]
    rfl

namespace Server
variable {hash : Bytes → Nat}

/-- A server for some clients, one after the other, that is stopped cleanly after them. -/
structure Life where
  config : ServerConfig
  streams : List Bytes
  deriving DecidableEq, Repr

/-- The directory after the lives, and what the clients of each were sent. -/
def lives (hash : Bytes → Nat) (envs : Nat → Nat → Nat → Env) : Nat → List Life → DataDir →
    Option (DataDir × List (List Bytes))
  | _, [], dir => some (dir,[])
  | n, life :: rest, dir =>
    (serveClients (envs n) 0 life.streams (boot hash life.config dir)).bind fun r =>
      (lives hash envs (n+1) rest ⟨some (Snapshot.write r.1.storage),r.1.aof.file⟩).map fun q =>
        (q.1,r.2 :: q.2)

theorem boot_agrees (config : ServerConfig) (dir : DataDir) :
    (boot hash config dir).storage.Agrees (recover hash dir).values :=
  (Recovery.lasting_recover hash dir).agrees

theorem lineFree_mapAfter {lines : List Bytes} {s : Server hash} {m : Map Bytes}
    (h : s.storage.Agrees m) (hserved : Served m lines) (hfree : Snapshot.LineFree m) :
    Snapshot.LineFree (mapAfter m lines) := by
  induction lines generalizing s m with
  | nil => exact hfree
  | cons line lines ih =>
    cases hline : parseLine line with
    | none =>
      have hmap : (interpretLine m line).1 = m := by simp [interpretLine,hline]
      have hrest := hserved.2
      rw [hmap] at hrest
      simpa only [mapAfter,List.foldl_cons,hmap] using ih h hrest hfree
    | some cmd =>
      obtain ⟨hcov,hadm⟩ := hserved.1 cmd hline
      obtain ⟨t,ht,hagree⟩ := @dispatch_answers hash s m cmd ⟨fun _ => 0,.success⟩ line h hline
        hcov hadm
      have hnext : Snapshot.LineFree t.storage.values := by
        refine ((dispatch_effect _ cmd s).of_ok ht).lineFree
          (fun a ha => (parseLine_args hline a ha).notMem_lf) ?_
        rw [h.values_eq]
        exact hfree
      rw [hagree.values_eq] at hnext
      exact ih hagree hserved.2 hnext

theorem expected_append (m : Map Bytes) (as bs : List Bytes) :
    expected m (as ++ bs) = expected m as ++ expected (mapAfter m (as.flatMap executed)) bs := by
  induction as generalizing m with
  | nil => rfl
  | cons stream as ih =>
    have hmap : mapAfter m ((stream :: as).flatMap executed) =
        mapAfter (mapAfter m (executed stream)) (as.flatMap executed) := by
      simp only [mapAfter,List.flatMap_cons,List.foldl_append]
    rw [hmap,List.cons_append,expected,expected,ih,List.cons_append]

theorem lives_expected {envs : Nat → Nat → Nat → Env} {ls : List Life} {n : Nat} {dir : DataDir}
    {m : Map Bytes} (hvalues : (recover hash dir).values = m) (hfree : Snapshot.LineFree m)
    (hserved : Served m ((ls.flatMap Life.streams).flatMap executed)) :
    ∃ last sent, lives hash envs n ls dir = some (last,sent) ∧
      sent.flatten = expected m (ls.flatMap Life.streams) ∧
      (recover hash last).values = mapAfter m ((ls.flatMap Life.streams).flatMap executed) := by
  induction ls generalizing n dir m with
  | nil => exact ⟨dir,[],rfl,rfl,hvalues⟩
  | cons life ls ih =>
    rw [List.flatMap_cons,List.flatMap_append] at hserved
    obtain ⟨hfirst,hrest⟩ := served_append.mp hserved
    have hboot : (boot hash life.config dir).storage.Agrees m := hvalues ▸ boot_agrees life.config dir
    obtain ⟨t,ht,hagree⟩ := @serveClients_answers hash (envs n) life.streams 0 _ m hboot hfirst
    have hkept := lineFree_mapAfter hboot hfirst hfree
    have hsaved : (recover hash ⟨some (Snapshot.write t.storage),t.aof.file⟩).values =
        mapAfter m (life.streams.flatMap executed) := by
      rw [← hagree.values_eq] at hkept ⊢
      exact (Snapshot.loadInto_write hkept).2
    obtain ⟨last,sent,hlives,hsent,hlast⟩ := @ih (n+1) _ _ hsaved hkept hrest
    refine ⟨last,expected m life.streams :: sent,?_,?_,?_⟩
    · rw [lives,ht,Option.bind_some,hlives]
      rfl
    · rw [List.flatten_cons,hsent,List.flatMap_cons,expected_append]
    · rw [hlast,List.flatMap_cons,List.flatMap_append]
      simp only [mapAfter,List.foldl_append]

/-- Clients of key-value commands cannot tell servers that are stopped and started again
from one that runs on: each is sent the same bytes, and the last directory holds the store
that the one server ends with. -/
theorem clean_restarts_are_invisible (hash : Bytes → Nat) (config : ServerConfig)
    (envs : Nat → Nat → Nat → Env) (envs' : Nat → Nat → Env) {ls : List Life}
    (hserved : Served ∅ ((ls.flatMap Life.streams).flatMap executed)) :
    ∃ (last : DataDir) (sent : List (List Bytes)) (t : Server hash),
      lives hash envs 0 ls ⟨none,none⟩ = some (last,sent) ∧
      serveClients envs' 0 (ls.flatMap Life.streams) (create hash config) =
        some (t,sent.flatten) ∧
      (recover hash last).values = t.storage.values := by
  obtain ⟨last,sent,hlives,hsent,hlast⟩ := @lives_expected hash envs ls 0 ⟨none,none⟩ ∅
    (recover_of_log hash none) Map.all_empty hserved
  obtain ⟨t,ht,hagree⟩ := @serveClients_answers hash envs' (ls.flatMap Life.streams) 0
    (create hash config) ∅ StorageEngine.agrees_create hserved
  exact ⟨last,sent,t,hlives,by rw [ht,hsent],by rw [hlast,hagree.values_eq]⟩

theorem clean_restarts_are_invisible_example :
    let ls : List Life := [⟨{},[bytes "SET a 1\n"]⟩,⟨{},[bytes "GET a\n"]⟩]
    ∃ last sent t, lives (fun _ => 0) (fun _ _ _ => ⟨fun _ => 0,.success⟩) 0 ls ⟨none,none⟩ =
        some (last,sent) ∧
      serveClients (fun _ _ => ⟨fun _ => 0,.success⟩) 0 (ls.flatMap Life.streams)
        (create (fun _ => 0) {}) = some (t,sent.flatten) := by
  intro ls
  have hset : parseLine (bytes "SET a 1") = some ⟨.set,bytes "SET",[bytes "a",bytes "1"]⟩ := by
    decide
  have hget : parseLine (bytes "GET a") = some ⟨.get,bytes "GET",[bytes "a"]⟩ := by decide
  have hlines : (ls.flatMap Life.streams).flatMap executed = [bytes "SET a 1",bytes "GET a"] := by
    decide
  have hserved : Served ∅ ((ls.flatMap Life.streams).flatMap executed) := by
    rw [hlines]
    refine ⟨fun cmd hcmd => ?_,fun cmd hcmd => ?_,trivial⟩
    · cases hset.symm.trans hcmd
      exact ⟨rfl,trivial⟩
    · cases hget.symm.trans hcmd
      exact ⟨rfl,trivial⟩
  obtain ⟨last,sent,t,hlives,ht,-⟩ := clean_restarts_are_invisible (fun _ => 0) {}
    (fun _ _ _ => ⟨fun _ => 0,.success⟩) (fun _ _ => ⟨fun _ => 0,.success⟩) hserved
  exact ⟨last,sent,t,hlives,ht⟩

end Server
end VoltDBX
