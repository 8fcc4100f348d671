import VoltDBX.Expiry
import VoltDBX.ScanIteration

/-!
What clients can see of the background sweep. A run with sweeps between its commands
is compared with the run of the same commands without any.
-/

set_option autoImplicit false

namespace VoltDBX
open KeyedList

namespace StorageEngine
variable {hash : Bytes → Nat}

def swept (clocks : List (Nat → Int)) (e : StorageEngine hash) : StorageEngine hash :=
  clocks.foldl (fun e clock => e.purgeExpired clock) e

def Fresh (e : StorageEngine hash) (now : Int) (key : Bytes) : Prop :=
  ∀ entry, e.toMap.lookup key = some entry → entry.live now = true

/-- The engine lacks at most keys of `p` that were dead at the time. -/
def SweptFrom (now : Int) (e p : StorageEngine hash) : Prop :=
  ∀ key, e.toMap.lookup key = p.toMap.lookup key ∨
    e.toMap.lookup key = none ∧ p.Dead now key

variable {e p : StorageEngine hash} {now : Int}

theorem SweptFrom.refl (now : Int) (e : StorageEngine hash) : SweptFrom now e e :=
  fun _ => Or.inl rfl

theorem SweptFrom.mono {later : Int} (h : SweptFrom now e p) (hle : now ≤ later) :
    SweptFrom later e p := by
  intro key
  rcases h key with hsame | ⟨hnone,hdead⟩
  · exact Or.inl hsame
  · exact Or.inr ⟨hnone,hdead.mono hle⟩

theorem SweptFrom.purgeExpired (h : SweptFrom now e p) {clock : Nat → Int}
    (hclock : ∀ i, clock i ≤ now) : SweptFrom now (e.purgeExpired clock) p := by
  intro key
  rcases e.lookup_purgeExpired clock key with hsame | ⟨hnone,entry,i,hentry,hdead⟩
  · rw [hsame]
    exact h key
  · rcases h key with heq | ⟨hgone,-⟩
    · refine Or.inr ⟨hnone,fun found hfound => ?_⟩
      rw [← heq,hentry,Option.some.injEq] at hfound
      exact hfound ▸ StorageEntry.dead_of_le (hclock i) hdead
    · rw [hgone] at hentry
      cases hentry

theorem SweptFrom.swept (h : SweptFrom now e p) {clocks : List (Nat → Int)}
    (hclocks : ∀ clock ∈ clocks, ∀ i, clock i ≤ now) : SweptFrom now (e.swept clocks) p := by
  unfold StorageEngine.swept
  induction clocks generalizing e with
  | nil => exact h
  | cons clock clocks ih =>
    exact ih (h.purgeExpired (hclocks clock (by simp))) fun c hc => hclocks c (by simp [hc])

theorem purgeExpired_of_fresh {clock : Nat → Int} (hclock : ∀ i, clock i ≤ now)
    (h : ∀ key, e.Fresh now key) : e.purgeExpired clock = e := by
  have hnone : (e.table.forEach (gatherExpired clock) (0,[])).2 = [] := by
    refine List.eq_nil_iff_forall_not_mem.mpr fun key hin => ?_
    obtain ⟨entry,i,hentry,hdead⟩ := e.mem_gathered hin
    rw [StorageEntry.live_of_le (hclock i) (h key entry hentry)] at hdead
    cases hdead
  rw [purgeExpired,hnone]
  rfl

theorem swept_of_fresh {clocks : List (Nat → Int)}
    (hclocks : ∀ clock ∈ clocks, ∀ i, clock i ≤ now) (h : ∀ key, e.Fresh now key) :
    e.swept clocks = e := by
  unfold StorageEngine.swept
  induction clocks with
  | nil => rfl
  | cons clock clocks ih =>
    rw [List.foldl_cons,purgeExpired_of_fresh (hclocks clock (by simp)) h]
    exact ih fun c hc => hclocks c (by simp [hc])

theorem SweptFrom.get (h : SweptFrom now e p) {reading : Int} (hle : now ≤ reading) (key : Bytes) :
    e.get reading key = p.get reading key := by
  rcases h key with hsame | ⟨hnone,hdead⟩
  · rw [get_eq,get_eq,Map.valueAt,Map.valueAt,hsame]
  · have he : e.get reading key = none := by
      rw [get_eq,Map.valueAt,hnone]
      rfl
    rw [he,(p.get_eq_none_iff reading key).mpr (hdead.mono hle)]

theorem SweptFrom.set (h : SweptFrom now e p) (key value : Bytes) :
    SweptFrom now (e.set key value).1 (p.set key value).1 := by
  intro x
  by_cases hx : x = key
  · subst hx
    left
    rw [toMap_set,toMap_set,Finmap.lookup_insert,Finmap.lookup_insert]
  · rw [Dead,toMap_set,toMap_set,Finmap.lookup_insert_of_ne _ hx,Finmap.lookup_insert_of_ne _ hx]
    exact h x

theorem SweptFrom.setAll (h : SweptFrom now e p) (pairs : List (Bytes × Bytes)) :
    SweptFrom now (e.setAll pairs) (p.setAll pairs) := by
  unfold StorageEngine.setAll
  induction pairs generalizing e p with
  | nil => exact h
  | cons q pairs ih => exact ih (h.set q.1 q.2)

theorem SweptFrom.remove (h : SweptFrom now e p) (key : Bytes) :
    SweptFrom now (e.remove key).1 (p.remove key).1 := by
  intro x
  by_cases hx : x = key
  · subst hx
    left
    rw [toMap_remove,toMap_remove,Finmap.lookup_erase,Finmap.lookup_erase]
  · rw [Dead,toMap_remove,toMap_remove,Finmap.lookup_erase_ne hx,Finmap.lookup_erase_ne hx]
    exact h x

theorem SweptFrom.lookup_eq (h : SweptFrom now e p) {reading : Int} (hle : now ≤ reading)
    {key : Bytes} (hfresh : p.Fresh reading key) : e.toMap.lookup key = p.toMap.lookup key := by
  rcases h key with hsame | ⟨hnone,hdead⟩
  · exact hsame
  · cases hp : p.toMap.lookup key with
    | none => exact hnone
    | some entry =>
      have hlive := StorageEntry.live_of_le hle (hfresh entry hp)
      rw [hdead entry hp] at hlive
      cases hlive

theorem SweptFrom.mem_iff (h : SweptFrom now e p) {reading : Int} (hle : now ≤ reading)
    {key : Bytes} (hfresh : p.Fresh reading key) : key ∈ e.toMap ↔ key ∈ p.toMap := by
  rw [← Finmap.lookup_isSome,← Finmap.lookup_isSome,h.lookup_eq hle hfresh]

theorem SweptFrom.toMap_eq (h : SweptFrom now e p) {reading : Int} (hle : now ≤ reading)
    (hfresh : ∀ key, p.Fresh reading key) : e.toMap = p.toMap :=
  Finmap.ext_lookup fun key => h.lookup_eq hle (hfresh key)

theorem SweptFrom.setTtl (h : SweptFrom now e p) {reading : Int} (hle : now ≤ reading) {key : Bytes}
    (hfresh : p.Fresh reading key) (ttl : Int) :
    SweptFrom now (e.setTtl reading key ttl).1 (p.setTtl reading key ttl).1 := by
  intro x
  by_cases hx : x = key
  · left
    rw [lookup_setTtl,lookup_setTtl,if_pos hx,if_pos hx,hx,h.lookup_eq hle hfresh]
  · rw [Dead,lookup_setTtl,lookup_setTtl,if_neg hx,if_neg hx]
    exact h x

theorem dumpEntries_perm (h : e.toMap = p.toMap) : e.dumpEntries.Perm p.dumpEntries := by
  have hmem : ∀ (u : StorageEngine hash) (q : Bytes × Bytes),
      q ∈ u.dumpEntries ↔ u.values.lookup q.1 = some q.2 := by
    intro u q
    refine ⟨AofLog.mem_dumpEntries,fun hq => ?_⟩
    rw [values,KeyedList.lookup_toMap] at hq
    exact mem_of_find hq
  have hvalues : e.values = p.values :=
    values_of_toMap h _ fun key => p.lookup_values key
  refine (List.perm_ext_iff_of_nodup e.nodup_dumpEntries.of_map p.nodup_dumpEntries.of_map).mpr
    fun q => ?_
  rw [hmem,hmem,hvalues]

end StorageEngine

theorem AofLog.length_rewriteText {l m : List (Bytes × Bytes)} (h : l.Perm m) :
    (rewriteText l).length = (rewriteText m).length := by
  rw [rewriteText,rewriteText]
  exact TextLines.length_unlines_perm lf ((h.map _).cons _)

theorem AofLog.rewriteFrom_size {hash : Bytes → Nat} {a b : AofLog} {e p : StorageEngine hash}
    {out : RewriteOutcome} (hsize : a.bytesOnDisk = b.bytesOnDisk)
    (hperm : out.opened = true → out.renamed = true → e.dumpEntries.Perm p.dumpEntries) :
    (a.rewriteFrom out e).2 = (b.rewriteFrom out p).2 ∧
      (a.rewriteFrom out e).1.bytesOnDisk = (b.rewriteFrom out p).1.bytesOnDisk := by
  unfold rewriteFrom
  cases hopened : out.opened with
  | false => exact ⟨rfl,hsize⟩
  | true =>
    cases hrenamed : out.renamed with
    | true =>
      have hlen := length_rewriteText (hperm hopened hrenamed)
      cases out.written with
      | none => exact ⟨rfl,hlen⟩
      | some n => exact ⟨rfl,by simp [bytesOnDisk,hlen]⟩
    | false =>
      cases out.removed with
      | true => exact ⟨rfl,rfl⟩
      | false => exact ⟨rfl,hsize⟩

/-- Equal replies, or two scan pages with the same keys in some order. -/
def SameReply (r q : Bytes) : Prop :=
  r = q ∨ ∃ token ks ls, r = scanResponse token ks ∧ q = scanResponse token ls ∧ ks.Perm ls

theorem SameReply.symm {r q : Bytes} (h : SameReply r q) : SameReply q r := by
  rcases h with heq | ⟨token,ks,ls,hr,hq,hperm⟩
  · exact Or.inl heq.symm
  · exact Or.inr ⟨token,ls,ks,hq,hr,hperm.symm⟩

theorem SameReply.trans {r q o : Bytes} (h : SameReply r q) (h' : SameReply q o) :
    SameReply r o := by
  rcases h with rfl | ⟨token,ks,ls,hr,hq,hperm⟩
  · exact h'
  · rcases h' with rfl | ⟨token',ks',ls',hq',ho,hperm'⟩
    · exact Or.inr ⟨token,ks,ls,hr,hq,hperm⟩
    · -- the page in the middle is read back in one way only
      have hread := congrArg readScanResponse (hq.symm.trans hq')
      rw [readScanResponse_scanResponse,readScanResponse_scanResponse,Option.some.injEq,
        Prod.mk.injEq] at hread
      obtain ⟨rfl,rfl⟩ := hread
      exact Or.inr ⟨token,ks,ls',hr,ho,hperm.trans hperm'⟩

theorem sameReplies_of_common {os ps ms : List Bytes} (hleft : List.Forall₂ SameReply os ms)
    (hright : List.Forall₂ SameReply ps ms) : List.Forall₂ SameReply os ps := by
  induction hleft generalizing ps with
  | nil =>
    rw [List.forall₂_nil_right_iff.mp hright]
    exact .nil
  | cons hr _ ih =>
    obtain ⟨p,ps,hp,hps,rfl⟩ := List.forall₂_cons_right_iff.mp hright
    exact .cons (hr.trans hp.symm) (ih hps)

section
variable {hash : Bytes → Nat} {e p : StorageEngine hash} {now : Int} {cmd : ParsedCommand}
open StorageEngine

abbrev Unseen (now : Int) (a : Action (StorageEngine hash) Bytes) (e p : StorageEngine hash) : Prop :=
  Runs.Paired (SweptFrom now) SameReply (a.run e) (a.run p)

theorem unseen_reading (h : SweptFrom now e p) {f : StorageEngine hash → Bytes} (hf : f e = f p) :
    Unseen now (reading f) e p := ⟨Or.inl hf,h⟩

theorem unseen_handleGet (h : SweptFrom now e p) {t : Int} (hle : now ≤ t) :
    Unseen now (reading (handleGet t cmd)) e p := by
  refine unseen_reading h ?_
  unfold handleGet
  rcases cmd.args with _ | ⟨key,_ | ⟨arg,rest⟩⟩
  · rfl
  · exact congrArg optionalResponse (h.get hle key)
  · rfl

theorem unseen_handleMget (h : SweptFrom now e p) {clock : Nat → Int} (hle : ∀ i, now ≤ clock i) :
    Unseen now (reading (handleMget clock cmd)) e p := by
  refine unseen_reading h ?_
  have hmget : ∀ args, BatchOperations.mget e clock args = BatchOperations.mget p clock args :=
    fun args => List.map_congr_left fun k _ => h.get (hle k.2) k.1
  unfold handleMget
  rcases cmd.args with _ | ⟨key,rest⟩
  · rfl
  · simp only [hmget]

theorem unseen_handleExists (h : SweptFrom now e p) {t : Int} (hle : now ≤ t)
    (hfresh : ∀ key ∈ cmd.args, p.Fresh t key) :
    Unseen now (reading (handleExists cmd)) e p := by
  refine unseen_reading h ?_
  have hcount : ∀ (args : List Bytes) (n : Int), (∀ key ∈ args, p.Fresh t key) →
      args.foldl (fun count key => if e.existsKey key then count+1 else count) n =
        args.foldl (fun count key => if p.existsKey key then count+1 else count) n := by
    intro args
    induction args with
    | nil => exact fun _ _ => rfl
    | cons key args ih =>
      intro n hargs
      have hkey : e.existsKey key = p.existsKey key := by
        rw [existsKey_eq,existsKey_eq,decide_eq_decide]
        exact h.mem_iff hle (hargs key (by simp))
      rw [List.foldl_cons,List.foldl_cons,hkey]
      exact ih _ fun k hk => hargs k (by simp [hk])
  unfold handleExists
  cases hargs : cmd.args with
  | nil => rfl
  | cons key rest => exact congrArg integerResponse (hcount _ 0 (hargs ▸ hfresh))

theorem unseen_handleDelete (h : SweptFrom now e p) {t : Int} (hle : now ≤ t)
    (hfresh : ∀ key, cmd.args = [key] → p.Fresh t key) :
    Unseen now (updating (handleDelete cmd)) e p := by
  rw [Unseen,run_updating,run_updating]
  unfold handleDelete
  rcases hargs : cmd.args with _ | ⟨key,_ | ⟨arg,rest⟩⟩
  · exact ⟨Or.inl rfl,h⟩
  · refine ⟨Or.inl ?_,h.remove key⟩
    simp only [remove_snd,decide_eq_true_eq,h.mem_iff hle (hfresh key hargs)]
  · exact ⟨Or.inl rfl,h⟩

theorem unseen_handleSet (h : SweptFrom now e p) : Unseen now (updating (handleSet cmd)) e p := by
  rw [Unseen,run_updating,run_updating]
  unfold handleSet
  rcases cmd.args with _ | ⟨key,_ | ⟨first,rest⟩⟩
  · exact ⟨Or.inl rfl,h⟩
  · exact ⟨Or.inl rfl,h⟩
  · exact ⟨Or.inl rfl,h.set key _⟩

theorem unseen_handleMset (h : SweptFrom now e p) : Unseen now (updating (handleMset cmd)) e p := by
  rw [Unseen,run_updating,run_updating]
  unfold handleMset
  split
  · exact ⟨Or.inl rfl,h⟩
  · rw [BatchOperations.mset_eq_setAll,BatchOperations.mset_eq_setAll]
    exact ⟨Or.inl rfl,h.setAll _⟩

theorem unseen_handleExpire (h : SweptFrom now e p) {t : Int} (hle : now ≤ t)
    (hfresh : ∀ key text ttl, cmd.args = [key,text] → stoll text = .ok ttl → p.Fresh t key) :
    Unseen now (handleExpire t cmd) e p := by
  rw [Unseen,run_handleExpire,run_handleExpire]
  rcases hargs : cmd.args with _ | ⟨key,_ | ⟨text,_ | ⟨arg,rest⟩⟩⟩
  · exact ⟨Or.inl rfl,h⟩
  · exact ⟨Or.inl rfl,h⟩
  · dsimp only
    cases httl : stoll text with
    | error x => trivial
    | ok ttl =>
      have hkey := hfresh key text ttl hargs httl
      refine ⟨Or.inl ?_,h.setTtl hle hkey ttl⟩
      simp only [(setTtl_eq _ t key ttl).2,decide_eq_true_eq,h.mem_iff hle hkey]
  · exact ⟨Or.inl rfl,h⟩

theorem paired_counted (h : SweptFrom now e p) {t : Int} (hle : now ≤ t) (key : Bytes) (delta : Int) :
    Runs.Paired (SweptFrom now) SameReply (counted t key delta e) (counted t key delta p) := by
  unfold counted
  rw [h.get hle key]
  cases CounterStore.parseValue (p.get t key) with
  | error x => trivial
  | ok current => exact ⟨Or.inl rfl,h.set key _⟩

theorem unseen_handleIncr (h : SweptFrom now e p) {t : Int} (hle : now ≤ t) :
    Unseen now (handleIncr t cmd) e p := by
  rw [Unseen,run_handleIncr,run_handleIncr]
  rcases cmd.args with _ | ⟨key,_ | ⟨arg,rest⟩⟩
  · exact ⟨Or.inl rfl,h⟩
  · exact paired_counted h hle key 1
  · exact ⟨Or.inl rfl,h⟩

theorem unseen_handleDecr (h : SweptFrom now e p) {t : Int} (hle : now ≤ t) :
    Unseen now (handleDecr t cmd) e p := by
  rw [Unseen,run_handleDecr,run_handleDecr]
  rcases cmd.args with _ | ⟨key,_ | ⟨arg,rest⟩⟩
  · exact ⟨Or.inl rfl,h⟩
  · exact paired_counted h hle key (-1)
  · exact ⟨Or.inl rfl,h⟩

theorem unseen_handleIncrby (h : SweptFrom now e p) {t : Int} (hle : now ≤ t) :
    Unseen now (handleIncrby t cmd) e p := by
  rw [Unseen,run_handleIncrby,run_handleIncrby]
  rcases cmd.args with _ | ⟨key,_ | ⟨amount,_ | ⟨arg,rest⟩⟩⟩
  · exact ⟨Or.inl rfl,h⟩
  · exact ⟨Or.inl rfl,h⟩
  · dsimp only
    cases stoll amount with
    | error x => trivial
    | ok delta => exact paired_counted h hle key delta
  · exact ⟨Or.inl rfl,h⟩

theorem unseen_handleFlushdb : Unseen now (updating handleFlushdb) e p := by
  refine ⟨Or.inl rfl,fun key => Or.inl ?_⟩
  show e.clearAll.toMap.lookup key = p.clearAll.toMap.lookup key
  rw [toMap_clearAll,toMap_clearAll]

theorem unseen_handleDbsize (h : SweptFrom now e p) {t : Int} (hle : now ≤ t)
    (hfresh : ∀ key, p.Fresh t key) : Unseen now (reading handleDbsize) e p := by
  refine unseen_reading h ?_
  rw [handleDbsize,handleDbsize,entryCount_eq,entryCount_eq,h.toMap_eq hle hfresh]

/-- The page asks for nothing, or begins at the start and has room for all matching keys,
none of them expired. -/
def WholePage (p : StorageEngine hash) (t : Int) (c : ScanCursor) (count : Nat) (pattern : Bytes) :
    Prop :=
  count = 0 ∨ c = ⟨0,0⟩ ∧ (KeyScanner.selected pattern (keys p.table.entries)).length < count ∧
    ∀ key, KeyScanner.keyMatches key pattern = true → p.Fresh t key

theorem scan_whole {t : HashTable} {count : Nat} {pattern : Bytes}
    (hroom : (KeyScanner.selected pattern (keys t.entries)).length < count) :
    scanToken (KeyScanner.scan t ⟨0,0⟩ count pattern) = bytes "0" ∧
      (KeyScanner.scan t ⟨0,0⟩ count pattern).keys = KeyScanner.selected pattern (keys t.entries) := by
  have hcases := KeyScanner.scan_cases t ⟨0,0⟩ (show 0 < count by omega) pattern rfl
  generalize KeyScanner.scan t ⟨0,0⟩ count pattern = page at hcases
  rw [KeyScanner.ahead_start] at hcases
  rcases hcases with ⟨hfin,hkeys⟩ | ⟨-,hlen,-,-,-,w,hw,hkeys⟩
  · exact ⟨by simp [scanToken,hfin],hkeys⟩
  · -- a full page would hold more than there is
    rw [hw,KeyScanner.selected,List.filter_append,List.length_append] at hroom
    rw [hkeys,KeyScanner.selected] at hlen
    omega

theorem selected_perm (h : SweptFrom now e p) {t : Int} (hle : now ≤ t) {pattern : Bytes}
    (hfresh : ∀ key, KeyScanner.keyMatches key pattern = true → p.Fresh t key) :
    (KeyScanner.selected pattern (keys e.table.entries)).Perm
      (KeyScanner.selected pattern (keys p.table.entries)) := by
  refine (List.perm_ext_iff_of_nodup (e.valid.nodup.filter _) (p.valid.nodup.filter _)).mpr
    fun key => ?_
  rw [List.mem_filter,List.mem_filter,← StorageEngine.mem_toMap,← StorageEngine.mem_toMap]
  constructor
  · intro ⟨hin,hmatch⟩
    exact ⟨(h.mem_iff hle (hfresh key hmatch)).mp hin,hmatch⟩
  · intro ⟨hin,hmatch⟩
    exact ⟨(h.mem_iff hle (hfresh key hmatch)).mpr hin,hmatch⟩

theorem sameReply_scan (h : SweptFrom now e p) {t : Int} (hle : now ≤ t) {c : ScanCursor}
    {count : Nat} {pattern : Bytes} (hpage : WholePage p t c count pattern) :
    SameReply
      (scanResponse (scanToken (KeyScanner.scan e.table c count pattern))
        (KeyScanner.scan e.table c count pattern).keys)
      (scanResponse (scanToken (KeyScanner.scan p.table c count pattern))
        (KeyScanner.scan p.table c count pattern).keys) := by
  rcases hpage with hzero | ⟨rfl,hroom,hfresh⟩
  · left
    simp only [KeyScanner.scan,hzero,if_true]
  · have hperm := selected_perm h hle hfresh
    have hroom' : (KeyScanner.selected pattern (keys e.table.entries)).length < count :=
      hperm.length_eq ▸ hroom
    rw [(scan_whole hroom).1,(scan_whole hroom).2,(scan_whole hroom').1,(scan_whole hroom').2]
    exact Or.inr ⟨_,_,_,rfl,rfl,hperm⟩

theorem handleScan_of_args {token : Bytes} {options : List Bytes} (hargs : cmd.args = token :: options)
    (u : StorageEngine hash) :
    handleScan cmd u =
      match decodeScanCursor token with
      | .error x => .error x
      | .ok c =>
        match scanOptions options 10 (bytes "*") with
        | .error x => .error x
        | .ok o => .ok (scanResponse (scanToken (KeyScanner.scan u.table c o.1 o.2))
            (KeyScanner.scan u.table c o.1 o.2).keys) := by
  simp only [handleScan,hargs,bind,Except.bind,pure,Except.pure]
  cases decodeScanCursor token with
  | error x => rfl
  | ok c =>
    dsimp only
    cases scanOptions options 10 (bytes "*") with
    | error x => rfl
    | ok o => rfl

theorem unseen_handleScan (h : SweptFrom now e p) {t : Int} (hle : now ≤ t)
    (hpage : ∀ token options c count pattern, cmd.args = token :: options →
      decodeScanCursor token = .ok c →
      scanOptions options 10 (bytes "*") = .ok (count,pattern) → WholePage p t c count pattern) :
    Unseen now (converting (handleScan cmd)) e p := by
  rw [Unseen,run_converting,run_converting]
  cases hargs : cmd.args with
  | nil =>
    have herr : ∀ u : StorageEngine hash,
        handleScan cmd u = .ok (errResponse "wrong number of arguments for SCAN") := by
      intro u
      rw [handleScan,hargs]
    rw [herr,herr,run_convert_ok,run_convert_ok]
    exact ⟨Or.inl rfl,h⟩
  | cons token options =>
    rw [handleScan_of_args hargs,handleScan_of_args hargs]
    cases hc : decodeScanCursor token with
    | error x =>
      rw [run_convert_error,run_convert_error]
      trivial
    | ok c =>
      cases ho : scanOptions options 10 (bytes "*") with
      | error x =>
        rw [run_convert_error,run_convert_error]
        trivial
      | ok o =>
        obtain ⟨count,pattern⟩ := o
        rw [run_convert_ok,run_convert_ok]
        exact ⟨sameReply_scan h hle (hpage token options c count pattern hargs hc ho),h⟩

end

namespace Server
variable {hash : Bytes → Nat}
open StorageEngine

/-- The server differs from `p` in what sweeps have removed, and in the text of a log
of the same size. -/
structure SweptBeside (now : Int) (s p : Server hash) : Prop where
  storage : SweptFrom now s.storage p.storage
  broker : s.broker = p.broker
  metrics : s.metrics = p.metrics
  auth : s.auth = p.auth
  runtime : s.runtime = p.runtime
  log : s.aof.bytesOnDisk = p.aof.bytesOnDisk

def Blind (p : Server hash) (input : Env × ParsedCommand) : Prop :=
  match input.2.type with
  | .exist => ∀ key ∈ input.2.args, p.storage.Fresh (input.1.clock 0) key
  | .delete => ∀ key, input.2.args = [key] → p.storage.Fresh (input.1.clock 0) key
  | .expire => ∀ key text ttl, input.2.args = [key,text] → stoll text = .ok ttl →
      p.storage.Fresh (input.1.clock 0) key
  | .dbsize | .info => ∀ key, p.storage.Fresh (input.1.clock 0) key
  | .bgrewriteaof => input.1.rewrite.opened = true → input.1.rewrite.renamed = true →
      ∀ key, p.storage.Fresh (input.1.clock 0) key
  | .scan => ∀ token options c count pattern, input.2.args = token :: options →
      decodeScanCursor token = .ok c →
      scanOptions options 10 (bytes "*") = .ok (count,pattern) →
      WholePage p.storage (input.1.clock 0) c count pattern
  | _ => True

variable {s p : Server hash} {now : Int}

theorem SweptBeside.recordCommand (h : SweptBeside now s p) :
    SweptBeside now s.recordCommand p.recordCommand :=
  ⟨h.storage,h.broker,by rw [Server.recordCommand,Server.recordCommand,h.metrics],h.auth,h.runtime,
    h.log⟩

theorem SweptBeside.onStorage (h : SweptBeside now s p) {a : Action (StorageEngine hash) Bytes}
    (ha : Unseen now a s.storage p.storage) :
    Runs.Paired (SweptBeside now) SameReply ((Server.onStorage a).run s)
      ((Server.onStorage a).run p) := by
  rw [Server.onStorage,run_focus,run_focus]
  cases hr : a.run s.storage with
  | ok reply e =>
    obtain ⟨reply',e',hq,hreply,he⟩ := ha.of_ok hr
    rw [hq]
    exact ⟨hreply,he,h.broker,h.metrics,h.auth,h.runtime,h.log⟩
  | error x e =>
    cases hq : a.run p.storage with
    | error y e' => trivial
    | ok reply e' =>
      rw [Unseen,hr,hq] at ha
      exact ha

theorem SweptBeside.rewriteAof (h : SweptBeside now s p) {env : Env} (hle : now ≤ env.clock 0)
    (hfresh : env.rewrite.opened = true → env.rewrite.renamed = true →
      ∀ key, p.storage.Fresh (env.clock 0) key) :
    Runs.Paired (SweptBeside now) SameReply ((updating (Server.rewriteAof env)).run s)
      ((updating (Server.rewriteAof env)).run p) := by
  have hperm : env.rewrite.opened = true → env.rewrite.renamed = true →
      s.storage.dumpEntries.Perm p.storage.dumpEntries := fun ho hr =>
    dumpEntries_perm (h.storage.toMap_eq hle (hfresh ho hr))
  obtain ⟨hresult,hsize⟩ := AofLog.rewriteFrom_size h.log hperm
  have hhandler : (handleBgrewriteaof env.rewrite s.aof s.storage).2 =
        (handleBgrewriteaof env.rewrite p.aof p.storage).2 ∧
      (handleBgrewriteaof env.rewrite s.aof s.storage).1.bytesOnDisk =
        (handleBgrewriteaof env.rewrite p.aof p.storage).1.bytesOnDisk := by
    unfold handleBgrewriteaof
    cases hq : (p.aof.rewriteFrom env.rewrite p.storage).2 with
    | true =>
      rw [hq] at hresult
      simp only [hresult,hq,if_true,h.log,hsize]
      trivial
    | false =>
      rw [hq] at hresult
      simp only [hresult,hq,Bool.false_eq_true,if_false,hsize]
      trivial
  exact ⟨Or.inl hhandler.1,h.storage,h.broker,h.metrics,h.auth,h.runtime,hhandler.2⟩

theorem SweptBeside.handleInfo (h : SweptBeside now s p)
    (hcount : s.storage.entryCount = p.storage.entryCount) :
    Runs.Paired (SweptBeside now) SameReply ((updating Server.handleInfo).run s)
      ((updating Server.handleInfo).run p) := by
  have hmetrics : s.metrics.setKeysStored s.storage.entryCount =
      p.metrics.setKeysStored p.storage.entryCount := by rw [h.metrics,hcount]
  exact ⟨Or.inl (congrArg MetricsCollector.renderInfo hmetrics),h.storage,h.broker,hmetrics,h.auth,
    h.runtime,h.log⟩

/-- A command that does not look at expired entries answers the same with and without
the sweeps before it. -/
theorem SweptBeside.dispatch (h : SweptBeside now s p) {input : Env × ParsedCommand}
    (htime : ∀ i, now ≤ input.1.clock i) (hblind : p.Blind input) :
    Runs.Paired (SweptBeside now) SameReply ((Server.dispatch input.1 input.2).run s)
      ((Server.dispatch input.1 input.2).run p) := by
  obtain ⟨env,cmd⟩ := input
  have hrec := h.recordCommand
  rw [run_dispatch,run_dispatch]
  cases ht : cmd.type <;> simp only [Blind,ht] at hblind
  case unknown => exact ⟨Or.inl rfl,h⟩
  case ping => exact ⟨Or.inl rfl,hrec⟩
  case get => exact hrec.onStorage (unseen_handleGet hrec.storage (htime 0))
  case set => exact hrec.onStorage (unseen_handleSet hrec.storage)
  case delete => exact hrec.onStorage (unseen_handleDelete hrec.storage (htime 0) hblind)
  case exist => exact hrec.onStorage (unseen_handleExists hrec.storage (htime 0) hblind)
  case expire => exact hrec.onStorage (unseen_handleExpire hrec.storage (htime 0) hblind)
  case mget => exact hrec.onStorage (unseen_handleMget hrec.storage htime)
  case mset => exact hrec.onStorage (unseen_handleMset hrec.storage)
  case incr => exact hrec.onStorage (unseen_handleIncr hrec.storage (htime 0))
  case decr => exact hrec.onStorage (unseen_handleDecr hrec.storage (htime 0))
  case incrby => exact hrec.onStorage (unseen_handleIncrby hrec.storage (htime 0))
  case scan => exact hrec.onStorage (unseen_handleScan hrec.storage (htime 0) hblind)
  case flushdb => exact hrec.onStorage unseen_handleFlushdb
  case dbsize => exact hrec.onStorage (unseen_handleDbsize hrec.storage (htime 0) hblind)
  case bgrewriteaof => exact hrec.rewriteAof (htime 0) hblind
  case info =>
    refine hrec.handleInfo ?_
    rw [entryCount_eq,entryCount_eq,hrec.storage.toMap_eq (htime 0) hblind]
  case auth =>
    have hauth : s.recordCommand.auth = p.recordCommand.auth := hrec.auth
    exact ⟨Or.inl (congrArg (handleAuth cmd) hauth),hrec⟩
  case config =>
    have hruntime : s.recordCommand.runtime = p.recordCommand.runtime := hrec.runtime
    exact ⟨Or.inl (congrArg (fun r => (handleConfig cmd r).2) hruntime),hrec.storage,hrec.broker,
      hrec.metrics,hrec.auth,congrArg (fun r => (handleConfig cmd r).1) hruntime,hrec.log⟩
  case subscribe =>
    have hbroker : s.recordCommand.broker = p.recordCommand.broker := hrec.broker
    exact ⟨Or.inl (congrArg (fun b => (handleSubscribe cmd b).2) hbroker),hrec.storage,
      congrArg (fun b => (handleSubscribe cmd b).1) hbroker,hrec.metrics,hrec.auth,hrec.runtime,hrec.log⟩
  case publish =>
    have hbroker : s.recordCommand.broker = p.recordCommand.broker := hrec.broker
    exact ⟨Or.inl (congrArg (fun b => (handlePublish cmd b).2) hbroker),hrec.storage,
      congrArg (fun b => (handlePublish cmd b).1) hbroker,hrec.metrics,hrec.auth,hrec.runtime,hrec.log⟩

structure Round where
  sweeps : List (Nat → Int)
  env : Env
  cmd : ParsedCommand

def Round.input (r : Round) : Env × ParsedCommand := (r.env,r.cmd)

def afterSweeps (clocks : List (Nat → Int)) (s : Server hash) : Server hash :=
  { s with storage := s.storage.swept clocks }

def round (r : Round) : Action (Server hash) Bytes := do
  modify (afterSweeps r.sweeps)
  dispatch r.env r.cmd

theorem run_round (r : Round) (s : Server hash) :
    (round r).run s = (dispatch r.env r.cmd).run (afterSweeps r.sweeps s) := rfl

def Ordered : Int → List Round → Prop
  | _, [] => True
  | t, r :: rs => ∃ v u, t ≤ v ∧ (∀ clock ∈ r.sweeps, ∀ i, clock i ≤ v) ∧
      (∀ i, v ≤ r.env.clock i ∧ r.env.clock i ≤ u) ∧ Ordered u rs

/-- While no stored entry has expired any command may come; from the first that has, all
commands are blind to expired entries. -/
def Unobserving (p : Server hash) : List (Env × ParsedCommand) → Prop
  | [] => True
  | input :: inputs => Runs.Along plain Blind p (input :: inputs) ∨
      (∀ key, p.storage.Fresh (input.1.clock 0) key) ∧
        ∀ reply q, (plain input).run p = .ok reply q → Unobserving q inputs

theorem SweptBeside.afterSweeps (h : SweptBeside now s p) {later : Int} (hle : now ≤ later)
    {clocks : List (Nat → Int)} (hclocks : ∀ clock ∈ clocks, ∀ i, clock i ≤ later) :
    SweptBeside later (Server.afterSweeps clocks s) p :=
  ⟨(h.storage.mono hle).swept hclocks,h.broker,h.metrics,h.auth,h.runtime,h.log⟩

theorem SweptBeside.refl (now : Int) (s : Server hash) : SweptBeside now s s :=
  ⟨.refl now s.storage,rfl,rfl,rfl,rfl,rfl⟩

theorem SweptBeside.rounds {rs : List Round} {t : Int} (h : SweptBeside t s p) (ht : Ordered t rs)
    (hblind : Runs.Along plain Blind p (rs.map Round.input)) :
    Runs.Paired (fun _ _ => True) (List.Forall₂ SameReply) ((Runs.runAll round rs).run s)
      ((Runs.runAll plain (rs.map Round.input)).run p) := by
  induction rs generalizing t s p with
  | nil => exact ⟨.nil,trivial⟩
  | cons r rs ih =>
    obtain ⟨v,u,htv,hsweeps,hclock,hrest⟩ := ht
    have hfirst := (h.afterSweeps htv hsweeps).dispatch (fun i => (hclock i).1) hblind.1
    refine Runs.Coupled.runAll_cons hfirst fun o q s' p' _ hq hbeside => ?_
    have hvu : v ≤ u := Int.le_trans (hclock 0).1 (hclock 0).2
    have hlater : SweptBeside u s' p' := ⟨hbeside.storage.mono hvu,hbeside.broker,hbeside.metrics,
      hbeside.auth,hbeside.runtime,hbeside.log⟩
    exact ih hlater hrest (hblind.2 q p' hq)

theorem rounds_follow_plain {rs : List Round} {t : Int} (ht : Ordered t rs)
    (hun : Unobserving p (rs.map Round.input)) :
    Runs.Paired (fun _ _ => True) (List.Forall₂ SameReply) ((Runs.runAll round rs).run p)
      ((Runs.runAll plain (rs.map Round.input)).run p) := by
  induction rs generalizing t p with
  | nil => exact ⟨.nil,trivial⟩
  | cons r rs ih =>
    rcases hun with hblind | ⟨hfresh,hnext⟩
    · exact (SweptBeside.refl t p).rounds ht hblind
    · obtain ⟨v,u,-,hsweeps,hclock,hrest⟩ := ht
      -- the sweeps have found nothing so far
      have hnone : Server.afterSweeps r.sweeps p = p := by
        rw [Server.afterSweeps,swept_of_fresh (fun c hc i => Int.le_trans (hsweeps c hc i)
          (hclock 0).1) hfresh]
      have hsame : (round r).run p = (plain r.input).run p := by
        rw [run_round,hnone]
        rfl
      refine Runs.Coupled.runAll_cons (S := fun a b => a = b) ?_ fun o q s' p' _ hq heq => ?_
      · rw [hsame]
        cases (plain r.input).run p with
        | ok reply q => exact ⟨Or.inl rfl,rfl⟩
        | error x q => trivial
      · subst heq
        exact ih hrest (hnext q s' hq)

/-- Two runs of the same commands with sweeps at different places answer the same, where
no command looks at an expired entry. -/
theorem sweeps_are_invisible {s u : Server hash} {rs rs' : List Round} {t : Int}
    (hsame : rs.map Round.input = rs'.map Round.input) (ht : Ordered t rs) (ht' : Ordered t rs')
    {replies : List Bytes} (hrun : (Runs.runAll round rs).run s = .ok replies u)
    (hun : Unobserving s (rs.map Round.input)) :
    ∃ replies' u', (Runs.runAll round rs').run s = .ok replies' u' ∧
      List.Forall₂ SameReply replies replies' := by
  obtain ⟨mid,v,hmid,hleft,-⟩ := (rounds_follow_plain ht hun).of_ok hrun
  have hright := rounds_follow_plain ht' (hsame ▸ hun)
  rw [hsame] at hmid
  rw [hmid] at hright
  cases hr : (Runs.runAll round rs').run s with
  | error x w =>
    rw [hr] at hright
    exact absurd hright not_false
  | ok replies' w =>
    rw [hr] at hright
    exact ⟨replies',w,rfl,sameReplies_of_common hleft hright.1⟩

def stale (s : Server hash) : Server hash :=
  { s with storage := ((s.storage.set (bytes "k") (bytes "v")).1.setTtl 0 (bytes "k") 1).1 }

theorem lookup_stale (s : Server hash) :
    (stale s).storage.toMap.lookup (bytes "k") = some ⟨bytes "v",some (deadline 0 1)⟩ := by
  rw [stale,lookup_setTtl,if_pos rfl,StorageEngine.toMap_set,Finmap.lookup_insert]
  rfl

def at2 (sweeps : List (Nat → Int)) (type : CommandType) (args : List Bytes) : Round :=
  ⟨sweeps,⟨fun _ => 2000000000,.success⟩,⟨type,[],args⟩⟩

theorem run_existsAt2 (sweeps : List (Nat → Int)) (s : Server hash) (key : Bytes) :
    (Runs.runAll round [at2 sweeps .exist [key]]).run s =
      .ok [integerResponse (if (s.storage.swept sweeps).existsKey key then 1 else 0)]
        (afterSweeps sweeps s).recordCommand := rfl

/-- GET hides the expired key, SET replaces it, and EXISTS then finds the new one. -/
theorem sweeps_are_invisible_example :
    let rest : List Round := [at2 [] .set [bytes "k",bytes "w"],at2 [] .exist [bytes "k"]]
    ∃ replies u, (Runs.runAll round (at2 [] .get [bytes "k"] :: rest)).run (stale (create (fun _ => 0) {})) = .ok replies u ∧
      ∃ replies' u',
        (Runs.runAll round (at2 [fun _ => 2000000000] .get [bytes "k"] :: rest)).run (stale (create (fun _ => 0) {})) =
          .ok replies' u' ∧ List.Forall₂ SameReply replies replies' := by
  intro rest
  generalize stale (create (fun _ => 0) {}) = s
  have hordered : ∀ sweeps : List (Nat → Int), (∀ clock ∈ sweeps, ∀ i, clock i ≤ 2000000000) →
      Ordered 2000000000 (at2 sweeps .get [bytes "k"] :: rest) := fun sweeps hsweeps =>
    have hnow : ∀ _ : Nat, (2000000000 : Int) ≤ 2000000000 ∧ (2000000000 : Int) ≤ 2000000000 :=
      fun _ => ⟨Int.le_refl _,Int.le_refl _⟩
    ⟨2000000000,2000000000,Int.le_refl _,hsweeps,hnow,2000000000,2000000000,Int.le_refl _,
      by simp [at2],hnow,2000000000,2000000000,Int.le_refl _,by simp [at2],hnow,trivial⟩
  have hset : ∀ (t t' : Server (fun _ => 0)) o,
      (plain (at2 [] .set [bytes "k",bytes "w"]).input).run t = .ok o t' →
      t'.storage.toMap.lookup (bytes "k") = some ⟨bytes "w",none⟩ := by
    intro t t' o ht
    have hrun : (plain (at2 [] .set [bytes "k",bytes "w"]).input).run t =
        .ok okResponse { t.recordCommand with
          storage := (t.storage.set (bytes "k") (bytes "w")).1 } := rfl
    rw [hrun,EStateM.Result.ok.injEq] at ht
    rw [← ht.2,StorageEngine.toMap_set,Finmap.lookup_insert]
  have hun : Unobserving s ((at2 [] .get [bytes "k"] :: rest).map Round.input) := by
    refine Or.inl ⟨trivial,fun o t _ => ⟨trivial,fun o' t' ht' => ⟨?_,fun _ _ _ => trivial⟩⟩⟩
    intro key hkey entry hentry
    have hk : key = bytes "k" := List.mem_singleton.mp hkey
    rw [hk,hset t t' o' ht',Option.some.injEq] at hentry
    rw [← hentry]
    rfl
  have hrun : ∃ replies u, (Runs.runAll round (at2 [] .get [bytes "k"] :: rest)).run s =
      .ok replies u := ⟨_,_,rfl⟩
  obtain ⟨replies,u,hrun⟩ := hrun
  exact ⟨replies,u,hrun,@sweeps_are_invisible _ s u (at2 [] .get [bytes "k"] :: rest)
    (at2 [fun _ => 2000000000] .get [bytes "k"] :: rest) 2000000000 rfl (hordered [] (by simp))
    (hordered [fun _ => 2000000000] (by simp)) replies hrun hun⟩

theorem existsKey_swept {s : Server hash}
    (hkey : s.storage.toMap.lookup (bytes "k") = some ⟨bytes "v",some (deadline 0 1)⟩) :
    (s.storage.swept []).existsKey (bytes "k") = true ∧
      (s.storage.swept [fun _ => 2000000000]).existsKey (bytes "k") = false := by
  constructor
  · rw [existsKey_eq,decide_eq_true_eq]
    exact Finmap.mem_iff.mpr ⟨_,hkey⟩
  · rw [existsKey_eq,decide_eq_false_iff_not,← Finmap.lookup_eq_none]
    show (s.storage.purgeExpired (fun _ => 2000000000)).toMap.lookup (bytes "k") = none
    rw [StorageEngine.purgeExpired,lookup_foldl_remove,if_pos]
    exact s.storage.gathered_of_expired hkey (fun _ => by decide)

theorem not_sameReply_exists : ¬ SameReply (integerResponse 1) (integerResponse 0) := by
  intro h
  rcases h with heq | ⟨token,ks,ls,hr,-,-⟩
  · exact absurd heq (by decide)
  · have hread := congrArg readScanResponse hr
    have hnone : readScanResponse (integerResponse 1) = none := by decide
    rw [readScanResponse_scanResponse,hnone] at hread
    cases hread

/-- EXISTS tells whether the sweep has been there. -/
theorem exists_sees_sweep :
    ∃ (rs rs' : List Round) (replies replies' : List Bytes) (u u' : Server (fun _ => 0)),
      rs.map Round.input = rs'.map Round.input ∧ Ordered 2000000000 rs ∧ Ordered 2000000000 rs' ∧
      (Runs.runAll round rs).run (stale (create (fun _ => 0) {})) = .ok replies u ∧
      (Runs.runAll round rs').run (stale (create (fun _ => 0) {})) = .ok replies' u' ∧
      ¬ List.Forall₂ SameReply replies replies' := by
  have hnow : ∀ _ : Nat, (2000000000 : Int) ≤ 2000000000 ∧ (2000000000 : Int) ≤ 2000000000 :=
    fun _ => ⟨Int.le_refl _,Int.le_refl _⟩
  have hkey := existsKey_swept (lookup_stale (create (fun _ => 0) {}))
  generalize stale (create (fun _ => 0) {}) = s at hkey
  have hplain := run_existsAt2 [] s (bytes "k")
  have hswept := run_existsAt2 [fun _ => 2000000000] s (bytes "k")
  rw [hkey.1] at hplain
  rw [hkey.2] at hswept
  exact ⟨[at2 [] .exist [bytes "k"]],[at2 [fun _ => 2000000000] .exist [bytes "k"]],_,_,_,_,rfl,
    ⟨2000000000,2000000000,Int.le_refl _,by simp [at2],hnow,trivial⟩,
    ⟨2000000000,2000000000,Int.le_refl _,by simp [at2],hnow,trivial⟩,hplain,hswept,
    fun h => not_sameReply_exists (List.forall₂_cons.mp h).1⟩

end Server
end VoltDBX
