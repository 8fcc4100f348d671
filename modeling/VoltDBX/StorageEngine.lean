import VoltDBX.HashTableMap
import VoltDBX.Memory

/-!
The storage engine of storage/storage_engine.cpp, with the counters and the
batch operations that run on it. A time is a reading of `steady_clock` in
nanoseconds; an operation that reads the clock takes the reading as argument.
-/

set_option autoImplicit false

namespace VoltDBX
open KeyedList

/-- The arena of the source is left out: nothing is allocated from it. -/
structure StorageEngine (hash : Bytes → Nat) where
  table : HashTable
  stringPool : StringPool
  valid : table.Valid hash

def deadline (now ttl : Int) : Int := wrap64 (now+wrap64 (ttl*1000000000))

def StorageEntry.live (entry : StorageEntry) (now : Int) : Bool :=
  match entry.expiresAt with
  | none => true
  | some d => decide (now < d)

theorem StorageEntry.live_of_le {entry : StorageEntry} {now later : Int} (hle : now ≤ later)
    (h : entry.live later = true) : entry.live now = true := by
  cases hd : entry.expiresAt with
  | none => simp [StorageEntry.live,hd]
  | some d =>
    simp only [StorageEntry.live,hd,decide_eq_true_eq] at h ⊢
    omega

theorem StorageEntry.dead_of_le {entry : StorageEntry} {now later : Int} (hle : now ≤ later)
    (h : entry.live now = false) : entry.live later = false := by
  cases hl : entry.live later with
  | false => rfl
  | true => rw [live_of_le hle hl] at h; cases h

def Map.valueAt (m : Map StorageEntry) (now : Int) (key : Bytes) : Option Bytes :=
  ((m.lookup key).filter (fun entry => entry.live now)).map StorageEntry.value

def Map.setDeadline (m : Map StorageEntry) (key : Bytes) (d : Int) : Map StorageEntry :=
  match m.lookup key with
  | none => m
  | some entry => m.insert key ⟨entry.value,some d⟩

def Map.All {V : Type} (Q : Bytes → V → Prop) (m : Map V) : Prop :=
  ∀ key value, m.lookup key = some value → Q key value

section
variable {V : Type} {Q : Bytes → V → Prop} {m : Map V}

theorem Map.all_empty : Map.All Q ∅ := by
  intro key value h
  simp at h

theorem Map.All.insert (h : Map.All Q m) {key : Bytes} {value : V} (hp : Q key value) :
    Map.All Q (m.insert key value) := by
  intro k v hk
  by_cases he : k = key
  · subst he
    rw [Finmap.lookup_insert] at hk
    cases hk
    exact hp
  · rw [Finmap.lookup_insert_of_ne _ he] at hk
    exact h k v hk

theorem Map.All.erase (h : Map.All Q m) (key : Bytes) : Map.All Q (m.erase key) := by
  intro k v hk
  by_cases he : k = key
  · subst he
    rw [Finmap.lookup_erase] at hk
    cases hk
  · rw [Finmap.lookup_erase_ne he] at hk
    exact h k v hk

theorem Map.erase_of_notMem {key : Bytes} (h : key ∉ m) : m.erase key = m :=
  Finmap.ext_lookup fun x => by
    by_cases hx : x = key
    · subst hx
      rw [Finmap.lookup_erase,Finmap.lookup_eq_none.mpr h]
    · rw [Finmap.lookup_erase_ne hx]

end

namespace StorageEngine
variable {hash : Bytes → Nat}

def create (hash : Bytes → Nat) : StorageEngine hash :=
  ⟨.create 4096,.create (.create 512 256) (BufferPool.freeFits_create (by decide) (by decide)),
    HashTable.valid_create 4096⟩

def insert (e : StorageEngine hash) (key : Bytes) (entry : StorageEntry) :
    StorageEngine hash :=
  ⟨(e.table.insert e.valid key entry).1,e.stringPool,e.valid.insert_valid key entry⟩

def set (e : StorageEngine hash) (key value : Bytes) : StorageEngine hash × Bool :=
  let value' := e.stringPool.copy value
  let key' := value'.2.copy key
  (insert ⟨e.table,key'.2,e.valid⟩ key'.1 ⟨value'.1,none⟩,true)

def isExpired (e : StorageEngine hash) (now : Int) (key : Bytes) : Bool :=
  match e.table.find hash key with
  | none => false
  | some entry =>
    match entry.expiresAt with
    | none => false
    | some d => decide (d ≤ now)

def get (e : StorageEngine hash) (now : Int) (key : Bytes) : Option Bytes :=
  if e.isExpired now key then none
  else match e.table.find hash key with
    | none => none
    | some entry => some entry.value

def remove (e : StorageEngine hash) (key : Bytes) : StorageEngine hash × Bool :=
  (⟨(e.table.erase hash key).1,e.stringPool,(e.valid.erase_spec key).1⟩,
    (e.table.erase hash key).2)

def existsKey (e : StorageEngine hash) (key : Bytes) : Bool := e.table.contains hash key

def entryCount (e : StorageEngine hash) : Nat := e.table.size

def setTtl (e : StorageEngine hash) (now : Int) (key : Bytes) (ttl : Int) :
    StorageEngine hash × Bool :=
  match e.table.find hash key with
  | none => (e,false)
  | some entry => (e.insert key ⟨entry.value,some (deadline now ttl)⟩,true)

/-- The clock is read twice: for the time that remains, and to add it again. -/
def touch (e : StorageEngine hash) (now now' : Int) (key : Bytes) : StorageEngine hash :=
  match e.table.find hash key with
  | none => e
  | some entry =>
    match entry.expiresAt with
    | none => e
    | some d => e.insert key ⟨entry.value,some (wrap64 (now'+wrap64 (d-now)))⟩

/-- The traversal of `purge_expired`: the number of clock readings taken so far
and the keys gathered. `clock i` is the reading at the `i`-th deadline met. -/
def gatherExpired (clock : Nat → Int) (s : Nat × List Bytes) (key : Bytes)
    (entry : StorageEntry) : Nat × List Bytes :=
  match entry.expiresAt with
  | none => s
  | some d => (s.1+1,if d ≤ clock s.1 then s.2 ++ [key] else s.2)

def purgeExpired (e : StorageEngine hash) (clock : Nat → Int) : StorageEngine hash :=
  (e.table.forEach (gatherExpired clock) (0,[])).2.foldl (fun e key => (e.remove key).1) e

def setAll (e : StorageEngine hash) (pairs : List (Bytes × Bytes)) : StorageEngine hash :=
  pairs.foldl (fun e p => (e.set p.1 p.2).1) e

def clearAll (e : StorageEngine hash) : StorageEngine hash :=
  ⟨e.table.clear,e.stringPool,e.valid.clear_spec.1⟩

def dumpEntries (e : StorageEngine hash) : List (Bytes × Bytes) :=
  e.table.forEach (fun pairs key entry => pairs ++ [(key,entry.value)]) []

def toMap (e : StorageEngine hash) : Map StorageEntry := e.table.toMap e.valid

theorem find_eq (e : StorageEngine hash) (key : Bytes) :
    e.table.find hash key = e.toMap.lookup key := (e.valid.lookup_toMap key).symm

@[simp] theorem toMap_create : (create hash).toMap = ∅ :=
  Finmap.ext_lookup fun key => by
    rw [← find_eq,Finmap.lookup_empty]
    exact HashTable.find_create 4096 key

@[simp] theorem toMap_insert (e : StorageEngine hash) (key : Bytes) (entry : StorageEntry) :
    (e.insert key entry).toMap = e.toMap.insert key entry := by
  refine Finmap.ext_lookup fun x => ?_
  have hfind := (e.valid.inserted_spec key entry).2 x
  rw [← find_eq,insert]
  simp only [e.valid.insert_eq,hfind]
  by_cases hx : x = key
  · subst hx
    simp
  · simp [hx,Finmap.lookup_insert_of_ne,find_eq]

theorem mem_toMap (e : StorageEngine hash) {key : Bytes} :
    key ∈ e.toMap ↔ key ∈ keys e.table.entries := @KeyedList.mem_toMap _ _ _ _ e.valid.nodup key

theorem set_table (e : StorageEngine hash) (key value : Bytes) :
    (e.set key value).1.table = e.table.inserted hash key ⟨value,none⟩ := by
  simp only [set,insert,StringPool.copy_fst]
  rw [e.valid.insert_eq]

theorem bucketCount_set (e : StorageEngine hash) (key value : Bytes) :
    e.table.bucketCount ≤ (e.set key value).1.table.bucketCount ∧
      (e.set key value).1.table.bucketCount ≤ e.table.bucketCount*2 := by
  rw [set_table]
  rcases e.valid.inserted_cases key ⟨value,none⟩ with ⟨hcount,-⟩ | hcount <;> omega

@[simp] theorem toMap_set (e : StorageEngine hash) (key value : Bytes) :
    (e.set key value).1.toMap = e.toMap.insert key ⟨value,none⟩ := by
  simp only [set,toMap_insert,StringPool.copy_fst]
  rfl

@[simp] theorem set_snd (e : StorageEngine hash) (key value : Bytes) :
    (e.set key value).2 = true := rfl

@[simp] theorem toMap_remove (e : StorageEngine hash) (key : Bytes) :
    (e.remove key).1.toMap = e.toMap.erase key := by
  refine Finmap.ext_lookup fun x => ?_
  have hfind := (e.valid.erase_spec key).2.2 x
  rw [← find_eq,remove]
  simp only [hfind]
  by_cases hx : x = key
  · subst hx
    simp
  · simp [hx,Finmap.lookup_erase_ne,find_eq]

@[simp] theorem existsKey_eq (e : StorageEngine hash) (key : Bytes) :
    e.existsKey key = decide (key ∈ e.toMap) := by
  rw [Bool.eq_iff_iff,decide_eq_true_iff]
  exact e.valid.contains_toMap key

@[simp] theorem remove_snd (e : StorageEngine hash) (key : Bytes) :
    (e.remove key).2 = decide (key ∈ e.toMap) := by
  rw [← existsKey_eq]
  exact (e.valid.erase_spec key).2.1

@[simp] theorem entryCount_eq (e : StorageEngine hash) :
    e.entryCount = e.toMap.keys.card := e.valid.card_toMap.symm

@[simp] theorem toMap_clearAll (e : StorageEngine hash) : e.clearAll.toMap = ∅ :=
  Finmap.ext_lookup fun key => by
    rw [← find_eq,Finmap.lookup_empty]
    exact e.valid.clear_spec.2 key

theorem get_eq (e : StorageEngine hash) (now : Int) (key : Bytes) :
    e.get now key = e.toMap.valueAt now key := by
  unfold get isExpired Map.valueAt
  rw [find_eq]
  cases h : e.toMap.lookup key with
  | none => rfl
  | some entry =>
    cases hd : entry.expiresAt with
    | none => simp [hd,StorageEntry.live]
    | some d =>
      by_cases hle : d ≤ now
      · simp [hd,StorageEntry.live,hle]
      · simp [hd,StorageEntry.live,hle,Int.not_le.mp hle]

theorem setTtl_eq (e : StorageEngine hash) (now : Int) (key : Bytes) (ttl : Int) :
    (e.setTtl now key ttl).1.toMap = e.toMap.setDeadline key (deadline now ttl) ∧
      (e.setTtl now key ttl).2 = decide (key ∈ e.toMap) := by
  unfold setTtl Map.setDeadline
  rw [find_eq]
  cases h : e.toMap.lookup key with
  | none => simpa using Finmap.lookup_eq_none.mp h
  | some entry => simpa using Finmap.mem_iff.mpr ⟨entry,h⟩

def timed (l : List Node) : List (Bytes × Int) :=
  l.filterMap fun n => n.2.expiresAt.map fun d => (n.1,d)

def overdue (clock : Nat → Int) (ds : List (Bytes × Int)) (i : Nat) : List Bytes :=
  ((ds.zipIdx i).filter fun p => decide (p.1.2 ≤ clock p.2)).map fun p => p.1.1

theorem foldl_gatherExpired (clock : Nat → Int) (l : List Node) (s : Nat × List Bytes) :
    l.foldl (fun s n => gatherExpired clock s n.1 n.2) s =
      (s.1+(timed l).length,s.2 ++ overdue clock (timed l) s.1) := by
  induction l generalizing s with
  | nil => simp [timed,overdue]
  | cons n l ih =>
    rw [List.foldl_cons,ih]
    cases hd : n.2.expiresAt with
    | none => simp [gatherExpired,timed,hd]
    | some d =>
      have htimed : timed (n :: l) = (n.1,d) :: timed l := by simp [timed,hd]
      simp only [gatherExpired,hd,htimed,List.length_cons,overdue,List.zipIdx_cons,
        List.filter_cons]
      by_cases hle : d ≤ clock s.1
      · simp [hle,Nat.add_assoc,Nat.add_comm 1]
      · simp [hle,Nat.add_assoc,Nat.add_comm 1]

theorem gathered_eq (e : StorageEngine hash) (clock : Nat → Int) :
    (e.table.forEach (gatherExpired clock) (0,[])).2 = overdue clock (timed e.table.entries) 0 := by
  rw [HashTable.forEach_eq,foldl_gatherExpired,List.nil_append]

theorem mem_overdue {clock : Nat → Int} {ds : List (Bytes × Int)} {key : Bytes} :
    key ∈ overdue clock ds 0 ↔ ∃ i d, ds[i]? = some (key,d) ∧ d ≤ clock i := by
  simp only [overdue,List.mem_map,List.mem_filter,decide_eq_true_eq]
  constructor
  · intro h
    obtain ⟨p,⟨hp,hle⟩,rfl⟩ := h
    exact ⟨p.2,p.1.2,List.mem_zipIdx_iff_getElem?.mp hp,hle⟩
  · intro h
    obtain ⟨i,d,hi,hle⟩ := h
    exact ⟨((key,d),i),⟨List.mem_zipIdx_iff_getElem?.mpr hi,hle⟩,rfl⟩

theorem mem_timed (e : StorageEngine hash) {key : Bytes} {d : Int} :
    (key,d) ∈ timed e.table.entries ↔
      ∃ entry, e.toMap.lookup key = some entry ∧ entry.expiresAt = some d := by
  simp only [timed,List.mem_filterMap,Option.map_eq_some_iff,Prod.mk.injEq]
  constructor
  · intro h
    obtain ⟨n,hn,d',hd,rfl,rfl⟩ := h
    refine ⟨n.2,?_,hd⟩
    rw [← find_eq,e.valid.find_entries]
    exact find_of_mem e.valid.nodup hn
  · intro h
    obtain ⟨entry,hentry,hd⟩ := h
    rw [← find_eq,e.valid.find_entries] at hentry
    exact ⟨(key,entry),mem_of_find hentry,d,hd,rfl,rfl⟩

theorem mem_gathered (e : StorageEngine hash) {clock : Nat → Int} {key : Bytes}
    (h : key ∈ (e.table.forEach (gatherExpired clock) (0,[])).2) :
    ∃ entry i, e.toMap.lookup key = some entry ∧ entry.live (clock i) = false := by
  rw [gathered_eq,mem_overdue] at h
  obtain ⟨i,d,hi,hle⟩ := h
  obtain ⟨entry,hentry,hd⟩ := e.mem_timed.mp (List.mem_of_getElem? hi)
  exact ⟨entry,i,hentry,by simp [StorageEntry.live,hd,hle]⟩

theorem gathered_of_expired (e : StorageEngine hash) {clock : Nat → Int} {key : Bytes}
    {entry : StorageEntry} (hkey : e.toMap.lookup key = some entry)
    (hdead : ∀ n, entry.live (clock n) = false) :
    key ∈ (e.table.forEach (gatherExpired clock) (0,[])).2 := by
  rw [gathered_eq,mem_overdue]
  cases hd : entry.expiresAt with
  | none =>
    have hlive := hdead 0
    simp [StorageEntry.live,hd] at hlive
  | some d =>
    obtain ⟨i,hi⟩ := List.mem_iff_getElem?.mp (e.mem_timed.mpr ⟨entry,hkey,hd⟩)
    have hlive := hdead i
    exact ⟨i,d,hi,by simpa [StorageEntry.live,hd] using hlive⟩

theorem lookup_foldl_remove (gone : List Bytes) (e : StorageEngine hash) (key : Bytes) :
    (gone.foldl (fun e key => (e.remove key).1) e).toMap.lookup key =
      if key ∈ gone then none else e.toMap.lookup key := by
  induction gone generalizing e with
  | nil => simp
  | cons k gone ih =>
    rw [List.foldl_cons,ih,toMap_remove]
    by_cases hk : key = k
    · subst hk
      simp
    · simp [hk,Finmap.lookup_erase_ne hk]

theorem lookup_purgeExpired (e : StorageEngine hash) (clock : Nat → Int) (key : Bytes) :
    (e.purgeExpired clock).toMap.lookup key = e.toMap.lookup key ∨
      (e.purgeExpired clock).toMap.lookup key = none ∧
        ∃ entry i, e.toMap.lookup key = some entry ∧ entry.live (clock i) = false := by
  rw [purgeExpired,lookup_foldl_remove]
  by_cases hin : key ∈ (e.table.forEach (gatherExpired clock) (0,[])).2
  · exact Or.inr ⟨if_pos hin,e.mem_gathered hin⟩
  · exact Or.inl (if_neg hin)

theorem dumpEntries_eq (e : StorageEngine hash) :
    e.dumpEntries = e.table.entries.map (fun n => (n.1,n.2.value)) := by
  have hfold : ∀ (l : List Node) (acc : List (Bytes × Bytes)),
      l.foldl (fun s n => s ++ [(n.1,n.2.value)]) acc =
        acc ++ l.map (fun n => (n.1,n.2.value)) := by
    intro l
    induction l with
    | nil => simp
    | cons n l ih => intro acc; simp [ih]
  rw [dumpEntries,HashTable.forEach_eq,hfold,List.nil_append]

theorem keys_dumpEntries (e : StorageEngine hash) :
    keys e.dumpEntries = keys e.table.entries := by
  rw [dumpEntries_eq]
  simp [keys,Function.comp_def]

theorem nodup_dumpEntries (e : StorageEngine hash) : (keys e.dumpEntries).Nodup := by
  rw [keys_dumpEntries]
  exact e.valid.nodup

def values (e : StorageEngine hash) : Map Bytes :=
  KeyedList.toMap e.dumpEntries e.nodup_dumpEntries

theorem find_map_value (key : Bytes) (l : List Node) :
    KeyedList.find key (l.map (fun n => (n.1,n.2.value))) =
      (KeyedList.find key l).map StorageEntry.value := by
  induction l with
  | nil => rfl
  | cons n l ih =>
    obtain ⟨k,entry⟩ := n
    by_cases hk : k = key
    · simp [KeyedList.find,hk]
    · simp [KeyedList.find,hk,ih]

theorem lookup_values (e : StorageEngine hash) (key : Bytes) :
    e.values.lookup key = (e.toMap.lookup key).map StorageEntry.value := by
  rw [values,KeyedList.lookup_toMap,dumpEntries_eq,find_map_value,← find_eq,
    e.valid.find_entries]

theorem values_of_toMap {e : StorageEngine hash} {m : Map StorageEntry} (h : e.toMap = m)
    (v : Map Bytes) (hv : ∀ key, v.lookup key = (m.lookup key).map StorageEntry.value) :
    e.values = v :=
  Finmap.ext_lookup fun key => by rw [lookup_values,h,hv]

@[simp] theorem values_create : (create hash).values = ∅ :=
  values_of_toMap toMap_create _ fun key => by simp

@[simp] theorem values_set (e : StorageEngine hash) (key value : Bytes) :
    (e.set key value).1.values = e.values.insert key value :=
  values_of_toMap (toMap_set e key value) _ fun x => by
    by_cases hx : x = key
    · subst hx
      simp
    · simp [hx,Finmap.lookup_insert_of_ne,lookup_values]

@[simp] theorem values_remove (e : StorageEngine hash) (key : Bytes) :
    (e.remove key).1.values = e.values.erase key :=
  values_of_toMap (toMap_remove e key) _ fun x => by
    by_cases hx : x = key
    · subst hx
      simp
    · simp [hx,Finmap.lookup_erase_ne,lookup_values]

@[simp] theorem values_clearAll (e : StorageEngine hash) : e.clearAll.values = ∅ :=
  values_of_toMap (toMap_clearAll e) _ fun key => by simp

@[simp] theorem values_setTtl (e : StorageEngine hash) (now : Int) (key : Bytes) (ttl : Int) :
    (e.setTtl now key ttl).1.values = e.values :=
  values_of_toMap (setTtl_eq e now key ttl).1 _ fun x => by
    rw [lookup_values,Map.setDeadline]
    cases h : e.toMap.lookup key with
    | none => rfl
    | some entry =>
      by_cases hx : x = key
      · subst hx
        simp [h]
      · simp [Finmap.lookup_insert_of_ne _ hx]

theorem card_values (e : StorageEngine hash) : e.values.keys.card = e.entryCount := by
  rw [values,KeyedList.card_toMap,dumpEntries_eq,List.length_map]
  exact e.valid.counted.symm

theorem mem_values (e : StorageEngine hash) (key : Bytes) :
    key ∈ e.values ↔ key ∈ e.toMap := by
  rw [← Finmap.lookup_isSome,← Finmap.lookup_isSome,lookup_values,Option.isSome_map]

theorem values_setAll (e : StorageEngine hash) (pairs : List (Bytes × Bytes)) :
    (e.setAll pairs).values = pairs.foldl (fun m p => m.insert p.1 p.2) e.values := by
  unfold setAll
  induction pairs generalizing e with
  | nil => rfl
  | cons p pairs ih => simp only [List.foldl_cons,ih,values_set]

end StorageEngine

/-- Code that may raise on a number, run on a state that stays as it was left. -/
abbrev Action (σ α : Type) := EStateM Raised σ α

/-- A conversion inside an action: a raised exception leaves the state alone. -/
def convert {σ α : Type} (r : Except Raised α) : Action σ α := fun s =>
  match r with
  | .ok a => .ok a s
  | .error x => .error x s

@[simp] theorem run_convert_ok {σ α : Type} (a : α) (s : σ) :
    (convert (.ok a) : Action σ α).run s = .ok a s := rfl

@[simp] theorem run_convert_error {σ α : Type} (x : Raised) (s : σ) :
    (convert (.error x) : Action σ α).run s = .error x s := rfl

namespace CounterStore
variable {hash : Bytes → Nat}

def parseValue : Option Bytes → Except Raised Int
  | none => .ok 0
  | some raw => if raw = [] then .ok 0 else stoll raw

def formatValue (v : Int) : Bytes := Decimal.printInt v

def increment (now : Int) (key : Bytes) (delta : Int) : Action (StorageEngine hash) Int := do
  let storage ← get
  let current ← convert (parseValue (storage.get now key))
  let next := wrap64 (current+delta)
  set (storage.set key (formatValue next)).1
  return next

def decrement (now : Int) (key : Bytes) (delta : Int) : Action (StorageEngine hash) Int :=
  increment now key (wrap64 (-delta))

def read (storage : StorageEngine hash) (now : Int) (key : Bytes) :
    Except Raised (Option Int) :=
  match storage.get now key with
  | none => .ok none
  | some raw => (parseValue (some raw)).map some

theorem increment_run (storage : StorageEngine hash) (now : Int) (key : Bytes) (delta : Int) :
    (increment now key delta).run storage =
      match parseValue (storage.get now key) with
      | .error x => .error x storage
      | .ok current => .ok (wrap64 (current+delta))
          (storage.set key (formatValue (wrap64 (current+delta)))).1 := by
  unfold increment
  cases h : parseValue (storage.get now key) with
  | error x => simp only [EStateM.run_bind,EStateM.run_get,h,run_convert_error]
  | ok current =>
    simp only [EStateM.run_bind,EStateM.run_get,h,run_convert_ok,EStateM.run_set,
      EStateM.run_pure]

end CounterStore

namespace BatchOperations
variable {hash : Bytes → Nat}

def mget (storage : StorageEngine hash) (clock : Nat → Int) (keys : List Bytes) :
    List (Option Bytes) :=
  keys.zipIdx.map (fun k => storage.get (clock k.2) k.1)

def mset (storage : StorageEngine hash) (pairs : List (Bytes × Bytes)) :
    StorageEngine hash × Nat :=
  pairs.foldl (fun s p =>
    ((s.1.set p.1 p.2).1,if (s.1.set p.1 p.2).2 then s.2+1 else s.2)) (storage,0)

theorem mset_eq_setAll (storage : StorageEngine hash) (pairs : List (Bytes × Bytes)) :
    (mset storage pairs).1 = storage.setAll pairs := by
  unfold mset StorageEngine.setAll
  generalize 0 = written
  induction pairs generalizing storage written with
  | nil => rfl
  | cons p pairs ih => exact ih _ _

end BatchOperations
end VoltDBX
