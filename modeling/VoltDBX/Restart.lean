import VoltDBX.Snapshot

/-!
Restarts after a crash, and on a data directory in any state.
-/

set_option autoImplicit false

namespace VoltDBX
open KeyedList TextLines

namespace Snapshot
variable {hash : Bytes → Nat}

/-- The pairs that begin in the first `n` bytes of the body and have at least one byte of
their value line there. The value of the last one may be cut. -/
def held : List (Bytes × Bytes) → Nat → List (Bytes × Bytes)
  | [], _ => []
  | p :: ps, n =>
    if n ≤ p.1.length+1 then []
    else if n ≤ p.1.length+1+p.2.length then [(p.1,p.2.take (n-(p.1.length+1)))]
    else p :: held ps (n-(p.1.length+p.2.length+2))

def prologue (pairs : List (Bytes × Bytes)) : Nat :=
  header.length+1+((Decimal.print pairs.length).length+1)

def heldMap (pairs : List (Bytes × Bytes)) (n : Nat) : Map Bytes :=
  (held pairs (n-prologue pairs)).foldl (fun m p => m.insert p.1 p.2) ∅

@[simp] theorem held_zero (pairs : List (Bytes × Bytes)) : held pairs 0 = [] := by
  cases pairs with
  | nil => rfl
  | cons p ps => simp [held]

@[simp] theorem loadPairs_nil (count : Nat) (storage : StorageEngine hash) :
    loadPairs [] count storage = storage := by
  cases count with
  | zero => rfl
  | succ n => rfl

@[simp] theorem loadPairs_single (key : Bytes) (count : Nat) (storage : StorageEngine hash) :
    loadPairs [key] count storage = storage := by
  cases count with
  | zero => rfl
  | succ n => rfl

theorem values_loadPairs_cut (pairs : List (Bytes × Bytes)) (n : Nat)
    (storage : StorageEngine hash) :
    (loadPairs (cutLines (pairs.flatMap (fun p => [p.1,p.2])) n) pairs.length storage).values =
      (held pairs n).foldl (fun m p => m.insert p.1 p.2) storage.values := by
  induction pairs generalizing n storage with
  | nil => simp [cutLines,held]
  | cons p ps ih =>
    simp only [List.flatMap_cons,List.cons_append,List.nil_append,List.length_cons]
    by_cases hkey : n ≤ p.1.length
    · by_cases hzero : n = 0
      · simp [hzero]
      · have hheld : n ≤ p.1.length+1 := by omega
        simp [cutLines,hzero,hkey,held,hheld]
    · have hpos : n ≠ 0 := by omega
      simp only [cutLines,hpos,hkey,if_false,held]
      by_cases hnone : n ≤ p.1.length+1
      · have hrest : n-(p.1.length+1) = 0 := by omega
        simp [hnone,hrest]
      · have hrest : n-(p.1.length+1) ≠ 0 := by omega
        by_cases hvalue : n ≤ p.1.length+1+p.2.length
        · have hcut : n-(p.1.length+1) ≤ p.2.length := by omega
          simp [hnone,hvalue,hrest,hcut,loadPairs]
        · have hwhole : ¬ n-(p.1.length+1) ≤ p.2.length := by omega
          have hleft : n-(p.1.length+1)-(p.2.length+1) = n-(p.1.length+p.2.length+2) := by omega
          have hnext := ih (n-(p.1.length+p.2.length+2)) (storage.set p.1 p.2).1
          rw [StorageEngine.values_set] at hnext
          simp only [hnone,hvalue,hrest,hwhole,if_false,hleft,loadPairs,List.foldl_cons]
          exact hnext

theorem notMem_textLines {storage : StorageEngine hash} (h : LineFree storage.values) :
    ∀ l ∈ textLines storage.dumpEntries, lf ∉ l := by
  intro l hl
  rw [← lines_write h] at hl
  exact notMem_of_mem_lines hl

/-- A snapshot cut after `n` bytes loads as the pairs it still holds. A cut in the header
or in the count leaves none. -/
theorem values_loadInto_take {storage : StorageEngine hash} (h : LineFree storage.values)
    (n : Nat) :
    (loadInto (some ((write storage).take n)) (StorageEngine.create hash)).1.values =
      heldMap storage.dumpEntries n := by
  have hlines : lines lf ((write storage).take n) = cutLines (textLines storage.dumpEntries) n :=
    lines_take_unlines (notMem_textLines h) n
  generalize hpairs : storage.dumpEntries = pairs at hlines
  have hempty : n ≤ prologue pairs → heldMap pairs n = ∅ := by
    intro hle
    rw [heldMap,Nat.sub_eq_zero_of_le hle,held_zero]
    rfl
  -- without a line after the count nothing is set
  have hnothing : (lines lf ((write storage).take n)).drop 2 = [] →
      (loadInto (some ((write storage).take n)) (StorageEngine.create hash)).1.values = ∅ := by
    intro hdrop
    simp only [loadInto,hdrop,loadPairs_nil]
    split
    · exact StorageEngine.values_create
    · exact StorageEngine.values_create
  by_cases hzero : n = 0
  · rw [hnothing (by simp [hzero]),hempty (by omega)]
  · by_cases hhead : n ≤ header.length
    · rw [hnothing (by simp [hlines,textLines,cutLines,hzero,hhead]),
        hempty (by unfold prologue; omega)]
    · rw [textLines,cutLines,if_neg hzero,if_neg hhead,cutLines] at hlines
      by_cases hend : n-(header.length+1) = 0
      · rw [hnothing (by simp [hlines,hend]),hempty (by unfold prologue; omega)]
      · by_cases hcount : n-(header.length+1) ≤ (Decimal.print pairs.length).length
        · rw [hnothing (by simp [hlines,hend,hcount]),hempty (by unfold prologue; omega)]
        · rw [if_neg hend,if_neg hcount] at hlines
          have hsub : n-(header.length+1)-((Decimal.print pairs.length).length+1) =
              n-prologue pairs := by unfold prologue; omega
          have hload := values_loadPairs_cut pairs (n-prologue pairs) (StorageEngine.create hash)
          rw [StorageEngine.values_create] at hload
          have hne : ¬ header ≠ header := fun hne => hne rfl
          simp only [loadInto,hlines,List.headD_cons,List.drop_succ_cons,List.drop_zero,hsub,hne,
            if_false,extractSize_print]
          exact hload

theorem keys_held_sublist (pairs : List (Bytes × Bytes)) (n : Nat) :
    (keys (held pairs n)).Sublist (keys pairs) := by
  induction pairs generalizing n with
  | nil => exact List.Sublist.refl _
  | cons p ps ih =>
    simp only [held,keys_cons]
    split
    · exact List.nil_sublist _
    · split
      · exact (List.nil_sublist (keys ps)).cons_cons p.1
      · exact (ih _).cons_cons p.1

def body (pairs : List (Bytes × Bytes)) : Bytes :=
  unlines lf (pairs.flatMap (fun p => [p.1,p.2]))

theorem length_body_cons (p : Bytes × Bytes) (ps : List (Bytes × Bytes)) :
    (body (p :: ps)).length = p.1.length+p.2.length+2+(body ps).length := by
  simp only [body,List.flatMap_cons,List.cons_append,List.nil_append,unlines,List.length_append,
    List.length_cons]
  omega

/-- The cut is behind the body, or it takes the newline of the last value and nothing else.
An empty last value needs its newline to be a line. -/
def Reaches (pairs : List (Bytes × Bytes)) (n : Nat) : Prop :=
  (body pairs).length ≤ n ∨
    (body pairs).length = n+1 ∧ ∃ p, pairs.getLast? = some p ∧ p.2 ≠ []

theorem reaches_cons {p : Bytes × Bytes} {ps : List (Bytes × Bytes)} {n : Nat}
    (hn : p.1.length+p.2.length+2 ≤ n) :
    Reaches (p :: ps) n ↔ ps = [] ∨ Reaches ps (n-(p.1.length+p.2.length+2)) := by
  simp only [Reaches,length_body_cons]
  cases ps with
  | nil =>
    have hle : p.1.length+p.2.length+2+(body []).length ≤ n := hn
    simp [hle]
  | cons q qs =>
    have hlast : (p :: q :: qs).getLast? = (q :: qs).getLast? := by simp
    have hle : p.1.length+p.2.length+2+(body (q :: qs)).length ≤ n ↔
        (body (q :: qs)).length ≤ n-(p.1.length+p.2.length+2) := by omega
    have heq : p.1.length+p.2.length+2+(body (q :: qs)).length = n+1 ↔
        (body (q :: qs)).length = n-(p.1.length+p.2.length+2)+1 := by omega
    rw [hlast,hle,heq]
    simp

theorem reaches_cons_short {p : Bytes × Bytes} {ps : List (Bytes × Bytes)} {n : Nat}
    (hn : n < p.1.length+p.2.length+2) :
    Reaches (p :: ps) n ↔ ps = [] ∧ p.2 ≠ [] ∧ n = p.1.length+1+p.2.length := by
  simp only [Reaches,length_body_cons]
  constructor
  · intro h
    rcases h with h | ⟨hlen,q,hq,hne⟩
    · omega
    · cases ps with
      | nil =>
        rw [List.getLast?_singleton,Option.some.injEq] at hq
        exact ⟨rfl,hq ▸ hne,by omega⟩
      | cons r rs =>
        rw [length_body_cons] at hlen
        omega
  · intro h
    obtain ⟨rfl,hne,hn⟩ := h
    refine Or.inr ⟨?_,p,rfl,hne⟩
    simp only [body,List.flatMap_nil,unlines,List.length_nil]
    omega

theorem find_single_iff {p : Bytes × Bytes} {ps : List (Bytes × Bytes)} (hd : p.1 ∉ keys ps)
    (m : Nat) :
    (∀ key, find key [(p.1,p.2.take m)] = find key (p :: ps)) ↔ ps = [] ∧ p.2.length ≤ m := by
  constructor
  · intro h
    have hfirst := congrArg (Option.map List.length) (h p.1)
    simp only [find,if_true,Option.map_some,List.length_take,Option.some.injEq] at hfirst
    refine ⟨?_,by omega⟩
    cases ps with
    | nil => rfl
    | cons q qs =>
      have hne : p.1 ≠ q.1 := fun heq => hd (by simp [heq])
      have hsecond := h q.1
      simp [find,hne] at hsecond
  · intro h key
    obtain ⟨rfl,hm⟩ := h
    rw [List.take_of_length_le hm]

theorem find_held_iff {pairs : List (Bytes × Bytes)} (hd : (keys pairs).Nodup) (n : Nat) :
    (∀ key, find key (held pairs n) = find key pairs) ↔ pairs = [] ∨ Reaches pairs n := by
  induction pairs generalizing n with
  | nil => simp [held]
  | cons p ps ih =>
    simp only [keys_cons,List.nodup_cons] at hd
    have hnil : ¬ p :: ps = [] := by simp
    simp only [hnil,false_or]
    by_cases hnone : n ≤ p.1.length+1
    · rw [reaches_cons_short (by omega)]
      constructor
      · intro h
        have hfirst := h p.1
        simp [held,hnone,find] at hfirst
      · intro h
        obtain ⟨-,hne,hn⟩ := h
        have hpos := List.length_pos_of_ne_nil hne
        omega
    · by_cases hvalue : n ≤ p.1.length+1+p.2.length
      · rw [reaches_cons_short (by omega)]
        have hheld : held (p :: ps) n = [(p.1,p.2.take (n-(p.1.length+1)))] := by
          simp [held,hnone,hvalue]
        rw [hheld,find_single_iff hd.1]
        constructor
        · intro h
          refine ⟨h.1,fun hempty => ?_,by omega⟩
          rw [hempty,List.length_nil] at hvalue
          omega
        · intro h
          exact ⟨h.1,by omega⟩
      · have hheld : held (p :: ps) n = p :: held ps (n-(p.1.length+p.2.length+2)) := by
          simp [held,hnone,hvalue]
        rw [reaches_cons (by omega),← ih hd.2,hheld]
        constructor
        · intro h key
          by_cases hkey : p.1 = key
          · subst hkey
            rw [find_eq_none.mpr hd.1,
              find_eq_none.mpr fun hmem => hd.1 ((keys_held_sublist _ _).subset hmem)]
          · simpa [find,hkey] using h key
        · intro h key
          simp only [find,h key]

theorem heldMap_eq_values_iff (storage : StorageEngine hash) (n : Nat) :
    heldMap storage.dumpEntries n = storage.values ↔ storage.dumpEntries = [] ∨
      Reaches storage.dumpEntries (n-prologue storage.dumpEntries) := by
  have hnodup : (keys (held storage.dumpEntries (n-prologue storage.dumpEntries))).Nodup :=
    (keys_held_sublist _ _).nodup storage.nodup_dumpEntries
  rw [← find_held_iff storage.nodup_dumpEntries,heldMap,foldl_insert_eq_toMap hnodup]
  constructor
  · intro h key
    have hlookup := congrArg (fun m => m.lookup key) h
    simpa only [StorageEngine.values,lookup_toMap] using hlookup
  · intro h
    refine Finmap.ext_lookup fun key => ?_
    simpa only [StorageEngine.values,lookup_toMap] using h key

/-- All of the snapshot is there, or all but the newline of a last value that is not empty. -/
def NearlyWhole (storage : StorageEngine hash) (written : Bytes) : Prop :=
  written = write storage ∨ written ++ [lf] = write storage ∧
    ∃ p, storage.dumpEntries.getLast? = some p ∧ p.2 ≠ []

theorem length_write (storage : StorageEngine hash) :
    (write storage).length =
      prologue storage.dumpEntries+(body storage.dumpEntries).length := by
  simp only [write,textLines,unlines,prologue,body,List.length_append,List.length_cons]
  omega

theorem write_getLast (storage : StorageEngine hash) : (write storage).getLast? = some lf := by
  rcases terminated_unlines lf (textLines storage.dumpEntries) with hnil | hlast
  · simp [textLines,unlines] at hnil
  · exact hlast

theorem reaches_iff_nearlyWhole {storage : StorageEngine hash} {written : Bytes}
    (h : written <+: write storage) :
    (storage.dumpEntries = [] ∨
        Reaches storage.dumpEntries (written.length-prologue storage.dumpEntries)) ↔
      storage.dumpEntries = [] ∨ NearlyWhole storage written := by
  have hlen := length_write storage
  obtain ⟨rest,hrest⟩ := h
  have hsum : written.length+rest.length = (write storage).length := by
    rw [← hrest,List.length_append]
  refine or_congr_right' fun hne => ?_
  have hbody : 2 ≤ (body storage.dumpEntries).length := by
    cases hpairs : storage.dumpEntries with
    | nil => exact absurd hpairs hne
    | cons p ps =>
      rw [length_body_cons]
      omega
  have hwhole : (body storage.dumpEntries).length ≤ written.length-prologue storage.dumpEntries ↔
      written = write storage := by
    rw [← hrest,List.self_eq_append_right,← List.length_eq_zero_iff]
    omega
  have hnewline : (body storage.dumpEntries).length =
      written.length-prologue storage.dumpEntries+1 ↔ written ++ [lf] = write storage := by
    constructor
    · intro hcut
      obtain ⟨c,hc⟩ := List.length_eq_one_iff.mp (show rest.length = 1 by omega)
      have hlast := write_getLast storage
      rw [← hrest,hc,List.getLast?_concat,Option.some.injEq] at hlast
      rw [← hrest,hc,hlast]
    · intro heq
      have hone := congrArg List.length heq
      rw [List.length_append,List.length_singleton] at hone
      omega
  rw [Reaches,NearlyWhole,hwhole,hnewline]

end Snapshot

/-- The data directory after a crash in `SnapshotWriter::write`: opening the file has
emptied it, and `written` has reached it since. -/
def DataDir.torn (dir : DataDir) (written : Bytes) : DataDir := ⟨some written,dir.aof⟩

namespace Recovery
variable {hash : Bytes → Nat}

theorem recover_torn {storage : StorageEngine hash} (h : Snapshot.LineFree storage.values)
    {written : Bytes} (hp : written <+: Snapshot.write storage) (dir : DataDir) :
    (recover hash (dir.torn written)).values =
      Snapshot.heldMap storage.dumpEntries written.length := by
  rw [← Snapshot.values_loadInto_take h,← List.prefix_iff_eq_take.mp hp]
  rfl

/-- A crash while a snapshot of `b` is written over one of `a` leaves `a` or `b` to the
restart exactly where `b` is empty or on disk but for a last newline, or where `a` is what
the bytes on disk hold of `b`. -/
theorem torn_snapshot_recovers_iff (a : StorageEngine hash) {b : StorageEngine hash}
    (hfree : Snapshot.LineFree b.values) {written : Bytes}
    (hp : written <+: Snapshot.write b) (aof : Option Bytes) :
    ((recover hash (DataDir.torn ⟨some (Snapshot.write a),aof⟩ written)).values = a.values ∨
      (recover hash (DataDir.torn ⟨some (Snapshot.write a),aof⟩ written)).values = b.values) ↔
    b.dumpEntries = [] ∨ Snapshot.NearlyWhole b written ∨
      a.values = Snapshot.heldMap b.dumpEntries written.length := by
  rw [recover_torn hfree hp,Snapshot.heldMap_eq_values_iff,
    Snapshot.reaches_iff_nearlyWhole hp,eq_comm,or_comm,or_assoc]

theorem torn_snapshot_recovers_iff_example :
    let a := ((StorageEngine.create (fun _ => 0)).set (bytes "a") (bytes "1")).1
    let b := ((StorageEngine.create (fun _ => 0)).set (bytes "b") (bytes "2")).1
    let torn := DataDir.torn ⟨some (Snapshot.write a),none⟩ (bytes "VOLTDBX_SNAPSHOT_V1\n1\nb\n2")
    (recover (fun _ => 0) torn).values = a.values ∨
      (recover (fun _ => 0) torn).values = b.values := by
  intro a b torn
  have hfree : Snapshot.LineFree b.values := by
    rw [StorageEngine.values_set,StorageEngine.values_create]
    exact Map.all_empty.insert ⟨by decide,by decide⟩
  have hdump : b.dumpEntries = [(bytes "b",bytes "2")] := dumpEntries_create_set _ _ _
  have hwrite : bytes "VOLTDBX_SNAPSHOT_V1\n1\nb\n2" ++ [lf] = Snapshot.write b := by
    rw [Snapshot.write,hdump]
    decide
  refine (torn_snapshot_recovers_iff a hfree ⟨[lf],hwrite⟩ none).mpr (Or.inr (Or.inl ?_))
  exact Or.inr ⟨hwrite,_,by rw [hdump]; rfl,by decide⟩

/-- The crash comes before the first byte is written: both contents are lost. -/
theorem torn_snapshot_loses_both :
    let a := ((StorageEngine.create (fun _ => 0)).set (bytes "k") (bytes "1")).1
    let b := (a.set (bytes "k") (bytes "2")).1
    let torn := DataDir.torn ⟨some (Snapshot.write a),none⟩ []
    Snapshot.LineFree a.values ∧ Snapshot.LineFree b.values ∧ [] <+: Snapshot.write b ∧
      (recover (fun _ => 0) torn).values ≠ a.values ∧
      (recover (fun _ => 0) torn).values ≠ b.values := by
  intro a b torn
  have ha : a.values = (∅ : Map Bytes).insert (bytes "k") (bytes "1") := by
    rw [StorageEngine.values_set,StorageEngine.values_create]
  have hb : b.values = a.values.insert (bytes "k") (bytes "2") := StorageEngine.values_set _ _ _
  have hfree : Snapshot.LineFree a.values := by
    rw [ha]
    exact Map.all_empty.insert ⟨by decide,by decide⟩
  have hfree' : Snapshot.LineFree b.values := by
    rw [hb]
    exact hfree.insert ⟨by decide,by decide⟩
  have hempty : (recover (fun _ => 0) torn).values = ∅ := by
    rw [recover_torn hfree' List.nil_prefix,Snapshot.heldMap,List.length_nil,Nat.zero_sub,
      Snapshot.held_zero]
    rfl
  refine ⟨hfree,hfree',List.nil_prefix,fun heq => ?_,fun heq => ?_⟩
  · have hlookup := congrArg (fun m => m.lookup (bytes "k")) heq
    simp [hempty,ha] at hlookup
  · have hlookup := congrArg (fun m => m.lookup (bytes "k")) heq
    simp [hempty,hb] at hlookup

theorem lineFree_loadPairs {ls : List Bytes} (hls : ∀ l ∈ ls, lf ∉ l) {count : Nat}
    {e : StorageEngine hash} (h : Snapshot.LineFree e.values) :
    Snapshot.LineFree (Snapshot.loadPairs ls count e).values := by
  fun_induction Snapshot.loadPairs ls count e with
  | case1 key value rest count e ih =>
    refine ih (fun l hl => hls l (by simp [hl])) ?_
    rw [StorageEngine.values_set]
    exact h.insert ⟨hls key (by simp),hls value (by simp)⟩
  | case2 => exact h

theorem lineFree_recover (hash : Bytes → Nat) (dir : DataDir) :
    Snapshot.LineFree (recover hash dir).values := by
  have hempty : Snapshot.LineFree (StorageEngine.create hash).values := by
    rw [StorageEngine.values_create]
    exact Map.all_empty
  unfold recover
  split
  · cases hsnap : dir.snapshot with
    | none => exact hempty
    | some content =>
      simp only [Snapshot.loadInto]
      split
      · exact hempty
      · exact lineFree_loadPairs
          (fun l hl => notMem_of_mem_lines (List.mem_of_mem_drop hl)) hempty
  · refine Snapshot.lineFree_of_clean ?_
    have hvalues := @AofLog.values_replay hash (dir.aof.getD []) true
    exact hvalues ▸ AofLog.clean_logMap _

theorem lasting_recover (hash : Bytes → Nat) (dir : DataDir) : Lasting (recover hash dir) := by
  unfold recover
  split
  · exact lasting_create.loadInto _
  · exact lasting_create.replay _

theorem Lasting.toMap_purgeExpired {e : StorageEngine hash} (h : Lasting e) (clock : Nat → Int) :
    (e.purgeExpired clock).toMap = e.toMap := by
  refine Finmap.ext_lookup fun key => ?_
  rcases e.lookup_purgeExpired clock key with hsame | ⟨-,entry,i,hentry,hdead⟩
  · exact hsame
  · simp [StorageEntry.live,h key entry hentry] at hdead

def idle (hash : Bytes → Nat) (dir : DataDir) (clocks : List (Nat → Int)) : StorageEngine hash :=
  clocks.foldl (fun e clock => e.purgeExpired clock) (recover hash dir)

theorem toMap_idle (hash : Bytes → Nat) (dir : DataDir) (clocks : List (Nat → Int)) :
    (idle hash dir clocks).toMap = (recover hash dir).toMap := by
  have hsweeps : ∀ (clocks : List (Nat → Int)) (e : StorageEngine hash), Lasting e →
      (clocks.foldl (fun e clock => e.purgeExpired clock) e).toMap = e.toMap := by
    intro clocks
    induction clocks with
    | nil => exact fun e _ => rfl
    | cons clock clocks ih =>
      intro e he
      have hnext : Lasting (e.purgeExpired clock) := by
        rw [Lasting,he.toMap_purgeExpired]
        exact he
      rw [List.foldl_cons,ih _ hnext,he.toMap_purgeExpired]
  exact hsweeps clocks _ (lasting_recover hash dir)

def firstSnapshot (hash : Bytes → Nat) (dir : DataDir) (clocks : List (Nat → Int)) : DataDir :=
  ⟨some (Snapshot.write (idle hash dir clocks)),(AofLog.create dir.aof).file⟩

/-- A second restart finds what the first one made of the directory, whatever its files
held. -/
theorem restart_idempotent (hash : Bytes → Nat) (dir : DataDir) (clocks : List (Nat → Int)) :
    (recover hash (firstSnapshot hash dir clocks)).values = (recover hash dir).values := by
  have hvalues : (idle hash dir clocks).values = (recover hash dir).values :=
    StorageEngine.values_of_toMap (toMap_idle hash dir clocks) _
      (fun key => (recover hash dir).lookup_values key)
  have hfree : Snapshot.LineFree (idle hash dir clocks).values := by
    rw [hvalues]
    exact lineFree_recover hash dir
  rw [← hvalues]
  exact (Snapshot.loadInto_write hfree).2

end Recovery
end VoltDBX
