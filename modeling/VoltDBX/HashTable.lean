import Mathlib.Data.List.GetD
import VoltDBX.KeyedList
import VoltDBX.Text

/-!
The chained hash table of storage/hash_table.cpp. `hash` stands for
`std::hash<std::string_view>`; only that it is a function of the key is used.
A chain is a list of nodes, the head of the chain first.
-/

set_option autoImplicit false

namespace VoltDBX
open KeyedList

structure StorageEntry where
  value : Bytes
  expiresAt : Option Int
  deriving DecidableEq, Repr

abbrev Node := Bytes × StorageEntry

structure HashTable where
  buckets : List (List Node)
  size : Nat
  deriving DecidableEq, Repr

namespace HashTable

def create (bucketCount : Nat) : HashTable :=
  ⟨List.replicate (if bucketCount < 16 then 16 else bucketCount) [],0⟩

def bucketCount (t : HashTable) : Nat := t.buckets.length

def chain (t : HashTable) (i : Nat) : List Node := t.buckets.getD i []

def entries (t : HashTable) : List Node := t.buckets.flatten

section
variable (hash : Bytes → Nat)

def bucketIndex (t : HashTable) (key : Bytes) : Nat := hash key % t.buckets.length

def find (t : HashTable) (key : Bytes) : Option StorageEntry :=
  KeyedList.find key (t.chain (t.bucketIndex hash key))

def contains (t : HashTable) (key : Bytes) : Bool := (t.find hash key).isSome

def erase (t : HashTable) (key : Bytes) : HashTable × Bool :=
  match remove key (t.chain (t.bucketIndex hash key)) with
  | some chain => (⟨t.buckets.set (t.bucketIndex hash key) chain,t.size-1⟩,true)
  | none => (t,false)

/-- The float quotient of `rehash_if_needed` is taken as the exact quotient. -/
def withinLoad (t : HashTable) : Bool := decide (4*t.size ≤ 3*t.buckets.length)

def push (t : HashTable) (n : Node) : HashTable :=
  ⟨t.buckets.set (t.bucketIndex hash n.1) (n :: t.chain (t.bucketIndex hash n.1)),t.size+1⟩

mutual
/-- `insert` calls `rehash_if_needed`, which inserts every old node again. The
first argument bounds the depth of these calls; `none` means it was too small. -/
def insertFuel : Nat → HashTable → Bytes → StorageEntry → Option (HashTable × Bool)
  | 0, _, _, _ => none
  | fuel+1, t, key, entry =>
    match replace key entry (t.chain (t.bucketIndex hash key)) with
    | some chain => some (⟨t.buckets.set (t.bucketIndex hash key) chain,t.size⟩,false)
    | none => (rehashFuel fuel (t.push hash (key,entry))).map (fun u => (u,true))

def rehashFuel : Nat → HashTable → Option HashTable
  | 0, _ => none
  | fuel+1, t =>
    if t.withinLoad then some t
    else t.entries.foldlM (fun u n => (insertFuel fuel u n.1 n.2).map Prod.fst)
      ⟨List.replicate (t.buckets.length*2) [],0⟩
end

end

def clear (t : HashTable) : HashTable := ⟨t.buckets.map (fun _ => []),0⟩

/-- `fn` runs on every node; `σ` is the state its captures refer to. -/
def forEach {σ : Type} (t : HashTable) (fn : σ → Bytes → StorageEntry → σ) (s : σ) : σ :=
  t.buckets.foldl (fun s chain => chain.foldl (fun s n => fn s n.1 n.2) s) s

def forEachBucket {σ : Type} (t : HashTable) (i : Nat) (fn : σ → Bytes → Nat → σ) (s : σ) : σ :=
  if t.buckets.length ≤ i then s
  else (t.chain i).zipIdx.foldl (fun s n => fn s n.1.1 n.2) s

theorem forEach_eq {σ : Type} (t : HashTable) (fn : σ → Bytes → StorageEntry → σ) (s : σ) :
    t.forEach fn s = t.entries.foldl (fun s n => fn s n.1 n.2) s := by
  rw [forEach,entries,List.foldl_flatten]

/-- Every node is in the chain its key hashes to, no key has two nodes, and the
size is the number of nodes. -/
structure Sound (hash : Bytes → Nat) (t : HashTable) : Prop where
  roomy : 16 ≤ t.buckets.length
  placed : Placed (fun k => hash k % t.buckets.length) 0 t.buckets
  distinct : ∀ b ∈ t.buckets, (keys b).Nodup
  counted : t.size = t.entries.length

/-- What every public call keeps. The load bound fails while an insert is under
way, so the calls inside a rehash rely on `Sound` and on room for the nodes. -/
structure Valid (hash : Bytes → Nat) (t : HashTable) : Prop extends Sound hash t where
  loaded : 4*t.size ≤ 3*t.buckets.length

section
variable {hash : Bytes → Nat} {t : HashTable}

theorem Sound.index_lt (h : t.Sound hash) (key : Bytes) :
    t.bucketIndex hash key < t.buckets.length :=
  Nat.mod_lt _ (by have := h.roomy; omega)

theorem Sound.nodup (h : t.Sound hash) : (keys t.entries).Nodup :=
  h.placed.nodup_keys h.distinct

theorem Sound.find_entries (h : t.Sound hash) (key : Bytes) :
    t.find hash key = KeyedList.find key t.entries := by
  rw [entries,h.placed.find_flatten (Nat.zero_le _)]
  simp [find,chain,bucketIndex]

theorem Sound.nodup_chain (h : t.Sound hash) (i : Nat) : (keys (t.chain i)).Nodup := by
  unfold chain
  by_cases hi : i < t.buckets.length
  · rw [List.getD_eq_getElem _ _ hi]
    exact h.distinct _ (List.getElem_mem hi)
  · rw [List.getD_eq_default _ _ (by omega)]
    simp

theorem Sound.mem_keys_chain (h : t.Sound hash) {key : Bytes} :
    key ∈ keys (t.chain (t.bucketIndex hash key)) ↔ key ∈ keys t.entries := by
  rw [← find_isSome,← find_isSome,← h.find_entries]
  rfl

theorem Sound.bucketIndex_of_mem (h : t.Sound hash) {i : Nat} {n : Node}
    (hn : n ∈ t.chain i) : t.bucketIndex hash n.1 = i := by
  simpa [bucketIndex] using h.placed i n hn

theorem Sound.of_mem_chain (h : t.Sound hash) {i : Nat} {key : Bytes}
    (hk : key ∈ keys (t.chain i)) : t.bucketIndex hash key = i ∧ key ∈ keys t.entries := by
  obtain ⟨n,hn,rfl⟩ := List.mem_map.mp hk
  have hidx := h.bucketIndex_of_mem hn
  exact ⟨hidx,h.mem_keys_chain.mp (by rwa [hidx])⟩

theorem chain_set {i : Nat} (hi : i < t.buckets.length) (c : List Node) (s j : Nat) :
    chain ⟨t.buckets.set i c,s⟩ j = if j = i then c else t.chain j := by
  unfold chain
  by_cases hj : j = i
  · subst hj
    simp [List.getD_eq_getElem?_getD,hi]
  · simp [List.getD_eq_getElem?_getD,hj,List.getElem?_set_ne (Ne.symm hj)]

theorem length_flatten_set {bs : List (List Node)} {i : Nat} (hi : i < bs.length)
    (c : List Node) :
    (bs.set i c).flatten.length+(bs.getD i []).length = bs.flatten.length+c.length := by
  induction bs generalizing i with
  | nil => simp at hi
  | cons b bs ih =>
    cases i with
    | zero => simp; omega
    | succ i =>
      have := ih (by simpa using hi)
      simp at this ⊢
      omega

theorem Sound.set_chain (h : t.Sound hash) {i : Nat} (hi : i < t.buckets.length)
    {c : List Node} {s : Nat} (hc : ∀ n ∈ c, t.bucketIndex hash n.1 = i)
    (hd : (keys c).Nodup) (hs : s+(t.chain i).length = t.size+c.length) :
    Sound hash ⟨t.buckets.set i c,s⟩ := by
  refine ⟨?_,?_,?_,?_⟩
  · simpa using h.roomy
  · intro j n hn
    have hn' : n ∈ chain ⟨t.buckets.set i c,s⟩ j := hn
    rw [chain_set hi] at hn'
    simp only [List.length_set,Nat.zero_add]
    split at hn'
    · rename_i hj
      rw [hj]
      exact hc n hn'
    · exact h.bucketIndex_of_mem hn'
  · intro b hb
    rcases List.mem_or_eq_of_mem_set hb with hb | rfl
    · exact h.distinct b hb
    · exact hd
  · have hlen := length_flatten_set hi c
    have hcount := h.counted
    simp only [entries,chain] at *
    omega

theorem find_set {i : Nat} (hi : i < t.buckets.length) (c : List Node)
    (s : Nat) (key : Bytes) :
    find hash ⟨t.buckets.set i c,s⟩ key =
      if t.bucketIndex hash key = i then KeyedList.find key c else t.find hash key := by
  have hidx : bucketIndex hash ⟨t.buckets.set i c,s⟩ key = t.bucketIndex hash key := by
    simp [bucketIndex]
  unfold find
  rw [hidx,chain_set hi]
  split <;> rfl

theorem Sound.sound_push (h : t.Sound hash) {n : Node} (hn : n.1 ∉ keys t.entries) :
    (t.push hash n).Sound hash := by
  refine h.set_chain (h.index_lt n.1) ?_ ?_ ?_
  · intro m hm
    rcases List.mem_cons.mp hm with rfl | hm
    · rfl
    · exact h.bucketIndex_of_mem hm
  · rw [keys_cons,List.nodup_cons]
    exact ⟨fun hmem => hn (h.mem_keys_chain.mp hmem),h.nodup_chain _⟩
  · simp
    omega

theorem Sound.find_push (h : t.Sound hash) (n : Node) (key : Bytes) :
    (t.push hash n).find hash key = if key = n.1 then some n.2 else t.find hash key := by
  unfold push
  rw [find_set (h.index_lt n.1)]
  by_cases hk : key = n.1
  · simp [hk,KeyedList.find]
  · by_cases hi : t.bucketIndex hash key = t.bucketIndex hash n.1
    · simp [hk,hi,KeyedList.find,Ne.symm hk,find]
    · simp [hk,hi]

theorem push_length (t : HashTable) (n : Node) :
    (t.push hash n).buckets.length = t.buckets.length := by
  simp [push]

theorem Sound.replace_none (h : t.Sound hash) {key : Bytes} (hk : key ∉ keys t.entries)
    (entry : StorageEntry) : replace key entry (t.chain (t.bucketIndex hash key)) = none :=
  replace_eq_none.mpr fun hmem => hk (h.mem_keys_chain.mp hmem)

theorem Sound.insertFuel_push (h : t.Sound hash) {n : Node} (hn : n.1 ∉ keys t.entries)
    (hroom : 4*(t.size+1) ≤ 3*t.buckets.length) (fuel : Nat) :
    insertFuel hash (fuel+2) t n.1 n.2 = some (t.push hash n,true) := by
  have hload : (t.push hash n).withinLoad = true := by
    simpa [withinLoad,push] using hroom
  rw [insertFuel,h.replace_none hn]
  simp [rehashFuel,hload]

theorem Sound.not_mem_push (h : t.Sound hash) {n : Node} {key : Bytes} (hne : key ≠ n.1)
    (hk : key ∉ keys t.entries) (hn : n.1 ∉ keys t.entries) :
    key ∉ keys (t.push hash n).entries := by
  rw [← find_eq_none,← (h.sound_push hn).find_entries,h.find_push]
  simp [hne,h.find_entries,find_eq_none.mpr hk]

theorem Sound.foldlM_push (fuel : Nat) {l : List Node} {t : HashTable} (h : t.Sound hash)
    (hd : (keys l).Nodup) (hfresh : ∀ k ∈ keys l, k ∉ keys t.entries)
    (hroom : 4*(t.size+l.length) ≤ 3*t.buckets.length) :
    l.foldlM (fun u n => (insertFuel hash (fuel+2) u n.1 n.2).map Prod.fst) t =
      some (l.foldl (push hash) t) := by
  induction l generalizing t with
  | nil => rfl
  | cons n l ih =>
    simp only [keys_cons,List.nodup_cons,List.length_cons] at hd hroom
    have hn : n.1 ∉ keys t.entries := hfresh n.1 (by simp)
    have hrest : ∀ k ∈ keys l, k ∉ keys (t.push hash n).entries := fun k hk =>
      h.not_mem_push (fun he => hd.1 (he ▸ hk)) (hfresh k (by simp [hk])) hn
    have hsize : (t.push hash n).size = t.size+1 := rfl
    have hnext := ih (h.sound_push hn) hd.2 hrest (by rw [hsize,push_length]; omega)
    rw [List.foldlM_cons,h.insertFuel_push hn (by omega)]
    simpa using hnext

theorem Sound.foldl_push {l : List Node} {t : HashTable} (h : t.Sound hash)
    (hd : (keys l).Nodup) (hfresh : ∀ k ∈ keys l, k ∉ keys t.entries) :
    (l.foldl (push hash) t).Sound hash ∧
      (l.foldl (push hash) t).buckets.length = t.buckets.length ∧
      (l.foldl (push hash) t).size = t.size+l.length ∧
      ∀ key, (l.foldl (push hash) t).find hash key =
        (KeyedList.find key l).or (t.find hash key) := by
  induction l generalizing t with
  | nil => exact ⟨h,rfl,rfl,fun key => by simp [KeyedList.find]⟩
  | cons n l ih =>
    simp only [keys_cons,List.nodup_cons] at hd
    have hn : n.1 ∉ keys t.entries := hfresh n.1 (by simp)
    have hrest : ∀ k ∈ keys l, k ∉ keys (t.push hash n).entries := fun k hk =>
      h.not_mem_push (fun he => hd.1 (he ▸ hk)) (hfresh k (by simp [hk])) hn
    obtain ⟨hsound,hlen,hsize,hfind⟩ := ih (h.sound_push hn) hd.2 hrest
    refine ⟨hsound,hlen.trans (push_length t n),?_,fun key => ?_⟩
    · have hone : (t.push hash n).size = t.size+1 := rfl
      rw [List.foldl_cons,hsize,hone,List.length_cons]
      omega
    · rw [List.foldl_cons,hfind,h.find_push]
      obtain ⟨a,e⟩ := n
      by_cases hk : key = a
      · subst hk
        simp [KeyedList.find,find_eq_none.mpr hd.1]
      · simp [KeyedList.find,hk,Ne.symm hk]

def rebuilt (hash : Bytes → Nat) (t : HashTable) : HashTable :=
  t.entries.foldl (push hash) ⟨List.replicate (t.buckets.length*2) [],0⟩

theorem sound_empty {n : Nat} (hn : 16 ≤ n) : Sound hash ⟨List.replicate n [],0⟩ := by
  refine ⟨by simpa using hn,?_,?_,by simp [entries]⟩
  · intro i p hp
    simp [List.getD_eq_getElem?_getD,List.getElem?_replicate] at hp
    split at hp <;> simp at hp
  · intro b hb
    obtain ⟨-,rfl⟩ := List.mem_replicate.mp hb
    simp

theorem entries_empty (n : Nat) : entries ⟨List.replicate n [],0⟩ = [] := by
  simp [entries]

theorem Sound.find_empty {n : Nat} (hn : 16 ≤ n) (key : Bytes) :
    find hash ⟨List.replicate n [],0⟩ key = none := by
  rw [(sound_empty hn).find_entries,entries_empty]
  rfl

theorem Sound.rebuilt_spec (h : t.Sound hash) :
    (t.rebuilt hash).Sound hash ∧ (t.rebuilt hash).buckets.length = t.buckets.length*2 ∧
      (t.rebuilt hash).size = t.size ∧
      ∀ key, (t.rebuilt hash).find hash key = t.find hash key := by
  have hroom : 16 ≤ t.buckets.length*2 := by have := h.roomy; omega
  obtain ⟨hsound,hlen,hsize,hfind⟩ :=
    (sound_empty hroom).foldl_push h.nodup (by simp [entries_empty])
  refine ⟨hsound,?_,?_,fun key => ?_⟩
  · simpa [rebuilt] using hlen
  · rw [rebuilt,hsize,h.counted]
    exact Nat.zero_add _
  · rw [rebuilt,hfind,Sound.find_empty hroom,Option.or_none,h.find_entries]

theorem Sound.rehashFuel_rebuilt (h : t.Sound hash) (hover : t.withinLoad = false)
    (hroom : 4*t.size ≤ 3*(t.buckets.length*2)) (fuel : Nat) :
    rehashFuel hash (fuel+3) t = some (t.rebuilt hash) := by
  have hr : 16 ≤ t.buckets.length*2 := by have := h.roomy; omega
  have hcount := h.counted
  rw [rehashFuel]
  simp only [hover,Bool.false_eq_true,if_false]
  refine (sound_empty hr).foldlM_push fuel h.nodup (by simp [entries_empty]) ?_
  simp only [List.length_replicate]
  omega

end
end HashTable
end VoltDBX
