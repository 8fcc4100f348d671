import VoltDBX.AofLog

/-!
Snapshots, persistence/snapshot.cpp, and the recovery at the head of
`DatabaseServer::run`.
-/

set_option autoImplicit false

namespace VoltDBX
open KeyedList TextLines

namespace Snapshot
variable {hash : Bytes → Nat}

def header : Bytes := bytes "VOLTDBX_SNAPSHOT_V1"

def textLines (pairs : List (Bytes × Bytes)) : List Bytes :=
  header :: Decimal.print pairs.length :: pairs.flatMap (fun p => [p.1,p.2])

/-- What `SnapshotWriter::write` leaves in snapshot.vdb when no file operation fails. -/
def write (storage : StorageEngine hash) : Bytes := unlines lf (textLines storage.dumpEntries)

def loadPairs : List Bytes → Nat → StorageEngine hash → StorageEngine hash
  | key :: value :: rest, count+1, storage => loadPairs rest count (storage.set key value).1
  | _, _, storage => storage

/-- `file` is snapshot.vdb, `none` when there is no such file. A line that is not
there reads as empty. -/
def loadInto (file : Option Bytes) (storage : StorageEngine hash) : StorageEngine hash × Bool :=
  match file with
  | none => (storage,false)
  | some content =>
    if (lines lf content).headD [] ≠ header then (storage,false)
    else (loadPairs ((lines lf content).drop 2)
      (extractSize (((lines lf content).drop 1).headD [])) storage,true)

/-- Newlines are the only bytes the format cannot carry. -/
abbrev LineFree (m : Map Bytes) : Prop := Map.All (fun key value => lf ∉ key ∧ lf ∉ value) m

theorem values_loadPairs (pairs : List (Bytes × Bytes)) (storage : StorageEngine hash) :
    (loadPairs (pairs.flatMap (fun p => [p.1,p.2])) pairs.length storage).values =
      pairs.foldl (fun m p => m.insert p.1 p.2) storage.values := by
  induction pairs generalizing storage with
  | nil => rfl
  | cons p pairs ih =>
    have hnext := ih (storage.set p.1 p.2).1
    rw [StorageEngine.values_set] at hnext
    exact hnext

theorem lines_write {storage : StorageEngine hash} (h : LineFree storage.values) :
    lines lf (write storage) = textLines storage.dumpEntries := by
  have hfree : ∀ l ∈ textLines storage.dumpEntries, lf ∉ l := by
    intro l hl
    simp only [textLines,List.mem_cons,List.mem_flatMap,List.not_mem_nil,or_false] at hl
    rcases hl with rfl | rfl | ⟨p,hp,hl⟩
    · decide
    · intro hmem
      exact absurd (Decimal.print_isDigit hmem) (by decide)
    · have hpair := h p.1 p.2 (AofLog.mem_dumpEntries hp)
      rcases hl with rfl | rfl
      · exact hpair.1
      · exact hpair.2
  simpa [write] using lines_unlines hfree []

/-- A store without newlines comes back from its snapshot. -/
theorem loadInto_write {storage : StorageEngine hash} (h : LineFree storage.values) :
    (loadInto (some (write storage)) (StorageEngine.create hash)).2 = true ∧
      (loadInto (some (write storage)) (StorageEngine.create hash)).1.values =
        storage.values := by
  have hhead : ¬ (textLines storage.dumpEntries).headD [] ≠ header := fun hne => hne rfl
  have hcount : extractSize (((textLines storage.dumpEntries).drop 1).headD []) =
      storage.dumpEntries.length := extractSize_print _
  simp only [loadInto,lines_write h,hhead,if_false,hcount]
  refine ⟨trivial,?_⟩
  have hload := values_loadPairs storage.dumpEntries (StorageEngine.create hash)
  rw [StorageEngine.values_create,foldl_insert_eq_toMap storage.nodup_dumpEntries] at hload
  exact hload

theorem loadInto_write_count {storage : StorageEngine hash} (h : LineFree storage.values) :
    (loadInto (some (write storage)) (StorageEngine.create hash)).1.entryCount =
      storage.entryCount := by
  rw [← StorageEngine.card_values,← StorageEngine.card_values,(loadInto_write h).2]

theorem lineFree_of_clean {m : Map Bytes} (h : AofLog.Clean m) : LineFree m :=
  fun key value hk => (h key value hk).2

end Snapshot

structure DataDir where
  snapshot : Option Bytes
  aof : Option Bytes
  deriving DecidableEq, Repr

/-- The head of `DatabaseServer::run` on a new engine: the snapshot if there is
one, and the log only if there is none. -/
def recover (hash : Bytes → Nat) (dir : DataDir) : StorageEngine hash :=
  if dir.snapshot.isSome then (Snapshot.loadInto dir.snapshot (StorageEngine.create hash)).1
  else ((AofLog.create dir.aof).replay (StorageEngine.create hash)).1

namespace Recovery
variable {hash : Bytes → Nat}
open AofLog

structure Persisted (hash : Bytes → Nat) where
  hooks : StorageHooks hash
  snapshot : Option Bytes

def fresh (hash : Bytes → Nat) : Persisted hash :=
  ⟨⟨StorageEngine.create hash,AofLog.create none⟩,none⟩

def Persisted.dir (p : Persisted hash) : DataDir := ⟨p.snapshot,p.hooks.aof.file⟩

inductive Step where
  | set (key value : Bytes)
  | remove (key : Bytes)
  | snapshot
  deriving DecidableEq, Repr

def Step.Clean : Step → Prop
  | .set key value => CleanPair key value
  | .remove key => space ∉ key ∧ lf ∉ key
  | .snapshot => True

instance (s : Step) : Decidable s.Clean :=
  match s with
  | .set key value =>
    inferInstanceAs (Decidable (space ∉ key ∧ lf ∉ key ∧ lf ∉ value))
  | .remove key => inferInstanceAs (Decidable (space ∉ key ∧ lf ∉ key))
  | .snapshot => inferInstanceAs (Decidable True)

def Persisted.step (p : Persisted hash) : Step → Persisted hash
  | .set key value => ⟨(p.hooks.set key value).1,p.snapshot⟩
  | .remove key => ⟨(p.hooks.remove key).1,p.snapshot⟩
  | .snapshot => ⟨p.hooks,some (Snapshot.write p.hooks.storage)⟩

def run (p : Persisted hash) (steps : List Step) : Persisted hash :=
  steps.foldl Persisted.step p

theorem run_append (p : Persisted hash) (as bs : List Step) :
    run p (as ++ bs) = run (run p as) bs := List.foldl_append

theorem inStep_step {p : Persisted hash} (h : p.hooks.InStep) {s : Step} (hc : s.Clean) :
    (p.step s).hooks.InStep := by
  cases s with
  | set key value => exact h.step (s := .set key value) hc
  | remove key => exact h.step (s := .remove key) hc
  | snapshot => exact h

theorem inStep_run {p : Persisted hash} (h : p.hooks.InStep) {steps : List Step}
    (hc : ∀ s ∈ steps, s.Clean) : (run p steps).hooks.InStep := by
  induction steps generalizing p with
  | nil => exact h
  | cons s steps ih =>
    exact ih (inStep_step h (hc s (by simp))) (fun x hx => hc x (by simp [hx]))

theorem inStep_fresh : (fresh hash).hooks.InStep := by
  refine ⟨?_,[],rfl,Or.inl rfl,?_⟩
  · rw [fresh,StorageEngine.values_create]
    exact Map.all_empty
  · rw [fresh,StorageEngine.values_create]
    rfl

theorem snapshot_run {p : Persisted hash} {steps : List Step} (h : .snapshot ∉ steps) :
    (run p steps).snapshot = p.snapshot := by
  induction steps generalizing p with
  | nil => rfl
  | cons s steps ih =>
    simp only [List.mem_cons,not_or] at h
    have hstep : (p.step s).snapshot = p.snapshot := by
      cases s with
      | set key value => rfl
      | remove key => rfl
      | snapshot => exact absurd rfl h.1
    exact (ih h.2).trans hstep

theorem recover_without_snapshot {p : Persisted hash} (h : p.hooks.InStep)
    (hs : p.snapshot = none) : (recover hash p.dir).values = p.hooks.storage.values := by
  obtain ⟨content,hfile,-,hmap⟩ := h.log
  simp only [recover,Persisted.dir,hs,Option.isSome_none,Bool.false_eq_true,if_false,hfile]
  rw [← hmap]
  exact values_replay content true

theorem recover_with_snapshot {p q : Persisted hash} (h : q.hooks.InStep)
    (hs : p.snapshot = some (Snapshot.write q.hooks.storage)) :
    (recover hash p.dir).values = q.hooks.storage.values := by
  simp only [recover,Persisted.dir,hs,Option.isSome_some,if_true]
  exact (Snapshot.loadInto_write (Snapshot.lineFree_of_clean h.clean)).2

theorem recover_last_snapshot {before after : List Step} (hb : ∀ s ∈ before, s.Clean)
    (ha : .snapshot ∉ after) :
    (recover hash (run (fresh hash) (before ++ .snapshot :: after)).dir).values =
      (run (fresh hash) before).hooks.storage.values := by
  refine recover_with_snapshot (inStep_run inStep_fresh hb) ?_
  rw [run_append]
  exact snapshot_run ha

/-- What a restart rebuilds: the store at the last snapshot, or the final store
when no snapshot was written. -/
theorem recover_snapshot_or_log (hash : Bytes → Nat) {steps : List Step}
    (hclean : ∀ s ∈ steps, s.Clean) :
    (.snapshot ∉ steps → (recover hash (run (fresh hash) steps).dir).values =
      (run (fresh hash) steps).hooks.storage.values) ∧
    ∀ before after, steps = before ++ .snapshot :: after → .snapshot ∉ after →
      (recover hash (run (fresh hash) steps).dir).values =
        (run (fresh hash) before).hooks.storage.values := by
  constructor
  · intro hnone
    exact recover_without_snapshot (inStep_run inStep_fresh hclean) (snapshot_run hnone)
  · intro before after heq ha
    subst heq
    exact recover_last_snapshot (fun s hs => hclean s (by simp [hs])) ha

theorem recover_snapshot_or_log_example :
    (recover (fun _ => 0) (run (fresh (fun _ => 0))
        [.set (bytes "a") (bytes "1"),.snapshot,.remove (bytes "a")]).dir).values =
      (run (fresh (fun _ => 0)) [.set (bytes "a") (bytes "1")]).hooks.storage.values :=
  (recover_snapshot_or_log (fun _ => 0) (by decide)).2 [.set (bytes "a") (bytes "1")]
    [.remove (bytes "a")] rfl (by decide)

/-- A write after a snapshot is in the log and is lost by the restart. -/
theorem recover_loses_logged_write :
    (recover (fun _ => 0) (run (fresh (fun _ => 0)) [.set (bytes "a") (bytes "1"),.snapshot,
        .set (bytes "b") (bytes "2")]).dir).values ≠
      (run (fresh (fun _ => 0)) [.set (bytes "a") (bytes "1"),.snapshot,
        .set (bytes "b") (bytes "2")]).hooks.storage.values := by
  intro heq
  have hrec := @recover_last_snapshot (fun _ => 0) [.set (bytes "a") (bytes "1")]
    [.set (bytes "b") (bytes "2")] (by decide) (by decide)
  rw [List.singleton_append,heq] at hrec
  have hlook := congrArg (fun m => m.lookup (bytes "b")) hrec
  have hne : bytes "b" ≠ bytes "a" := by decide
  simp [run,Persisted.step,StorageHooks.set,fresh,Finmap.lookup_insert_of_ne _ hne] at hlook

abbrev Lasting (e : StorageEngine hash) : Prop :=
  Map.All (fun _ entry => entry.expiresAt = none) e.toMap

theorem lasting_create : Lasting (StorageEngine.create hash) := by
  rw [Lasting,StorageEngine.toMap_create]
  exact Map.all_empty

theorem Lasting.set {e : StorageEngine hash} (h : Lasting e) (key value : Bytes) :
    Lasting (e.set key value).1 := by
  rw [Lasting,StorageEngine.toMap_set]
  exact Map.All.insert h rfl

theorem Lasting.loadPairs {ls : List Bytes} {count : Nat} {e : StorageEngine hash}
    (h : Lasting e) : Lasting (Snapshot.loadPairs ls count e) := by
  fun_induction Snapshot.loadPairs ls count e with
  | case1 key value rest count e ih => exact ih (h.set key value)
  | case2 => exact h

theorem Lasting.loadInto {e : StorageEngine hash} (h : Lasting e) (file : Option Bytes) :
    Lasting (Snapshot.loadInto file e).1 := by
  cases file with
  | none => exact h
  | some content =>
    by_cases hhead : (lines lf content).headD [] ≠ Snapshot.header
    · simp only [Snapshot.loadInto]
      rw [if_pos hhead]
      exact h
    · simp only [Snapshot.loadInto]
      rw [if_neg hhead]
      exact h.loadPairs

theorem Lasting.replayLine {e : StorageEngine hash} (h : Lasting e) (line : Bytes) :
    Lasting (AofLog.replayLine e line) := by
  unfold AofLog.replayLine
  split
  · cases (line.drop 4).dropWhile notBlank with
    | nil => exact h
    | cons c value => exact h.set _ _
  · split
    · rw [Lasting,StorageEngine.toMap_remove]
      exact Map.All.erase h _
    · exact h

theorem Lasting.replay {e : StorageEngine hash} (h : Lasting e) (log : AofLog) :
    Lasting (log.replay e).1 := by
  unfold AofLog.replay
  cases log.file with
  | none => exact h
  | some content =>
    have hall : ∀ (ls : List Bytes) (e : StorageEngine hash), Lasting e →
        Lasting (ls.foldl AofLog.replayLine e) := by
      intro ls
      induction ls with
      | nil => exact fun e he => he
      | cons l ls ih => exact fun e he => ih _ (he.replayLine l)
    exact hall _ e h

theorem Lasting.get_eq {e : StorageEngine hash} (h : Lasting e) (now : Int) (key : Bytes) :
    e.get now key = e.values.lookup key := by
  rw [StorageEngine.get_eq,Map.valueAt,StorageEngine.lookup_values]
  cases hk : e.toMap.lookup key with
  | none => rfl
  | some entry => simp [StorageEntry.live,h key entry hk]

/-- What the loaded engine has at the time, the original has with the same value. -/
def LivesNoLonger (e loaded : StorageEngine hash) (now : Int) : Prop :=
  ∀ key value, loaded.get now key = some value → e.get now key = some value

/-- The loaded engine has values of the original only, and agrees with it at the time
on every key whose deadline, if it has one, is still to come. -/
structure Carried (e loaded : StorageEngine hash) (now : Int) : Prop where
  value : ∀ key value, loaded.get now key = some value → e.values.lookup key = some value
  unexpired : ∀ key, (∀ entry, e.toMap.lookup key = some entry → entry.live now = true) →
    loaded.get now key = e.get now key

theorem carried_of_values {e loaded : StorageEngine hash} (hlasting : Lasting loaded)
    (hvalues : loaded.values = e.values) (now : Int) : Carried e loaded now where
  value key value h := by
    rw [hlasting.get_eq,hvalues] at h
    exact h
  unexpired key h := by
    rw [hlasting.get_eq,hvalues,StorageEngine.lookup_values,StorageEngine.get_eq,Map.valueAt]
    cases hk : e.toMap.lookup key with
    | none => rfl
    | some entry => simp [h entry hk]

def reloaded (e : StorageEngine hash) : StorageEngine hash :=
  (Snapshot.loadInto (some (Snapshot.write e)) (StorageEngine.create hash)).1

def replayed (log : AofLog) (e : StorageEngine hash) : StorageEngine hash :=
  ((log.rewriteFrom .success e).1.replay (StorageEngine.create hash)).1

theorem values_replayed {e : StorageEngine hash} (h : Clean e.values) (log : AofLog) :
    (replayed log e).values = e.values :=
  (values_replay _ true).trans (logMap_rewriteText h)

/-- A snapshot and a rewritten log carry the values over, without the deadlines. -/
theorem persistence_carries_values (e : StorageEngine hash) (log : AofLog) (now : Int) :
    (Snapshot.LineFree e.values → Carried e (reloaded e) now) ∧
    (Clean e.values → Carried e (replayed log e) now) := by
  constructor
  · intro hfree
    exact carried_of_values (lasting_create.loadInto _) (Snapshot.loadInto_write hfree).2 now
  · intro hclean
    exact carried_of_values (lasting_create.replay _) (values_replayed hclean log) now

theorem persistence_carries_values_example :
    let e := (((StorageEngine.create (fun _ => 0)).set (bytes "k") (bytes "v")).1.setTtl 0
      (bytes "k") 1).1
    Carried e (reloaded e) 5 ∧ Carried e (replayed (AofLog.create none) e) 5 := by
  intro e
  have hclean : Clean e.values := by
    rw [StorageEngine.values_setTtl,StorageEngine.values_set,StorageEngine.values_create]
    exact Map.all_empty.insert ⟨by decide,by decide,by decide⟩
  exact ⟨(persistence_carries_values e (AofLog.create none) 5).1 (Snapshot.lineFree_of_clean hclean),
    (persistence_carries_values e (AofLog.create none) 5).2 hclean⟩

theorem dumpEntries_create_set (hash : Bytes → Nat) (key value : Bytes) :
    ((StorageEngine.create hash).set key value).1.dumpEntries = [(key,value)] := by
  have hvalues : ((StorageEngine.create hash).set key value).1.values =
      (∅ : Map Bytes).insert key value := by
    rw [StorageEngine.values_set,StorageEngine.values_create]
  have hcount : (((StorageEngine.create hash).set key value).1.values).keys.card =
      ((StorageEngine.create hash).set key value).1.dumpEntries.length := card_toMap _ _
  have hone : ((StorageEngine.create hash).set key value).1.dumpEntries.length = 1 := by
    rw [← hcount,hvalues]
    rfl
  obtain ⟨p,hp⟩ := List.length_eq_one_iff.mp hone
  have hlookup : ((∅ : Map Bytes).insert key value).lookup p.1 = some p.2 :=
    hvalues ▸ mem_dumpEntries (hp ▸ List.mem_singleton_self p)
  have hkey : p.1 = key := by
    by_cases hne : p.1 = key
    · exact hne
    · rw [Finmap.lookup_insert_of_ne _ hne,Finmap.lookup_empty] at hlookup
      cases hlookup
  rw [hkey,Finmap.lookup_insert,Option.some.injEq] at hlookup
  rw [hp,← hkey,hlookup]

/-- The key whose deadline has come is back from the snapshot and from the log; so is a
value cut off at its newline, and from the log a key cut off at its blank. -/
theorem persistence_extends_lives :
    let empty := StorageEngine.create (fun _ => 0)
    let expiring := ((empty.set (bytes "k") (bytes "v")).1.setTtl 0 (bytes "k") 1).1
    let newline := (empty.set (bytes "k") (bytes "v\nw")).1
    let blank := (empty.set (bytes "k l") (bytes "v")).1
    (¬ LivesNoLonger expiring (reloaded expiring) 1000000000 ∧
      ¬ LivesNoLonger expiring (replayed (AofLog.create none) expiring) 1000000000) ∧
    ¬ LivesNoLonger newline (reloaded newline) 0 ∧
    ¬ LivesNoLonger blank (replayed (AofLog.create none) blank) 0 := by
  intro empty expiring newline blank
  have hvalues : expiring.values = (∅ : Map Bytes).insert (bytes "k") (bytes "v") := by
    rw [StorageEngine.values_setTtl,StorageEngine.values_set,StorageEngine.values_create]
  have hclean : Clean expiring.values := by
    rw [hvalues]
    exact Map.all_empty.insert ⟨by decide,by decide,by decide⟩
  have hexpired : expiring.get 1000000000 (bytes "k") = none := by
    rw [StorageEngine.get_eq,(StorageEngine.setTtl_eq _ 0 (bytes "k") 1).1,StorageEngine.toMap_set]
    simp [Map.valueAt,Map.setDeadline,StorageEntry.live,show deadline 0 1 = 1000000000 by decide]
  -- what has the values and no deadlines has the expired key
  have hback : ∀ loaded : StorageEngine (fun _ => 0), Lasting loaded →
      loaded.values = expiring.values → ¬ LivesNoLonger expiring loaded 1000000000 := by
    intro loaded hlasting hsame h
    have hget : loaded.get 1000000000 (bytes "k") = some (bytes "v") := by
      rw [hlasting.get_eq,hsame,hvalues,Finmap.lookup_insert]
    have hlive := h (bytes "k") (bytes "v") hget
    rw [hexpired] at hlive
    cases hlive
  have hset : ∀ key value, (empty.set key value).1.get 0 key = some value := by
    intro key value
    rw [(lasting_create.set key value).get_eq,StorageEngine.values_set,Finmap.lookup_insert]
  have hnewline : reloaded newline = (empty.set (bytes "k") (bytes "v")).1 := by
    have htext : Snapshot.write newline = bytes "VOLTDBX_SNAPSHOT_V1\n1\nk\nv\nw\n" := by
      rw [Snapshot.write,dumpEntries_create_set]
      decide
    have hlines : lines lf (bytes "VOLTDBX_SNAPSHOT_V1\n1\nk\nv\nw\n") =
        [Snapshot.header,bytes "1",bytes "k",bytes "v",bytes "w"] := by decide
    have hcount : extractSize (bytes "1") = 1 := by decide
    have hhead : ¬ Snapshot.header ≠ Snapshot.header := fun hne => hne rfl
    simp only [reloaded,htext,Snapshot.loadInto,hlines,List.headD_cons,hhead,if_false,
      List.drop_succ_cons,List.drop_zero,hcount]
    rfl
  have hblank : replayed (AofLog.create none) blank = (empty.set (bytes "k") (bytes "l v")).1 := by
    have htext : rewriteText blank.dumpEntries = bytes "AOFREWRITE_V1\nSET k l v\n" := by
      rw [dumpEntries_create_set]
      decide
    have hlines : lines lf (bytes "AOFREWRITE_V1\nSET k l v\n") =
        [rewriteHeader,bytes "SET k l v"] := by decide
    simp only [replayed,rewriteFrom,RewriteOutcome.success,htext,AofLog.replay]
    simp only [Bool.not_true,Bool.false_eq_true,if_false,if_true,hlines]
    rfl
  refine ⟨⟨hback _ (lasting_create.loadInto _)
    (Snapshot.loadInto_write (Snapshot.lineFree_of_clean hclean)).2,
    hback _ (lasting_create.replay _) (values_replayed hclean _)⟩,fun h => ?_,fun h => ?_⟩
  · have hv := h (bytes "k") (bytes "v") (by rw [hnewline,hset])
    rw [hset,Option.some.injEq] at hv
    exact absurd hv (by decide)
  · have hv := h (bytes "k") (bytes "l v") (by rw [hblank,hset])
    have hne : bytes "k" ≠ bytes "k l" := by decide
    rw [(lasting_create.set _ _).get_eq,StorageEngine.values_set,StorageEngine.values_create,
      Finmap.lookup_insert_of_ne _ hne] at hv
    cases hv

end Recovery
end VoltDBX
