import VoltDBX.HashTable

/-!
The hash table as a finite map. Every public call on a valid table gives a valid
table, and acts on the finite map of its entries as the map operation of the
same name.
-/

set_option autoImplicit false

namespace VoltDBX
open KeyedList

abbrev Map (V : Type) := Finmap (fun _ : Bytes => V)

namespace HashTable

section
variable {hash : Bytes → Nat} {t : HashTable}

theorem Sound.contains_iff (h : t.Sound hash) (key : Bytes) :
    t.contains hash key = true ↔ key ∈ keys t.entries := by
  rw [contains,h.find_entries,find_isSome]

def inserted (hash : Bytes → Nat) (t : HashTable) (key : Bytes) (entry : StorageEntry) :
    HashTable :=
  match replace key entry (t.chain (t.bucketIndex hash key)) with
  | some chain => ⟨t.buckets.set (t.bucketIndex hash key) chain,t.size⟩
  | none =>
    if (t.push hash (key,entry)).withinLoad then t.push hash (key,entry)
    else (t.push hash (key,entry)).rebuilt hash

/-- Four levels are enough: the insert, its rehash, the inserts inside that
rehash, and their look at the load. -/
theorem Valid.insertFuel_eq (h : t.Valid hash) (fuel : Nat) (key : Bytes)
    (entry : StorageEntry) :
    insertFuel hash (fuel+4) t key entry =
      some (t.inserted hash key entry,!t.contains hash key) := by
  unfold inserted
  rw [insertFuel]
  cases hr : replace key entry (t.chain (t.bucketIndex hash key)) with
  | some chain =>
    have hmem : key ∈ keys t.entries := by
      by_contra hk
      simp [h.replace_none hk] at hr
    simp [(h.contains_iff key).mpr hmem]
  | none =>
    have hfresh : key ∉ keys t.entries := fun hk =>
      replace_eq_none.mp hr (h.mem_keys_chain.mpr hk)
    have hcont : t.contains hash key = false := by
      simpa using fun hc => hfresh ((h.contains_iff key).mp hc)
    have hpush : (t.push hash (key,entry)).Sound hash := h.sound_push hfresh
    have hsize : (t.push hash (key,entry)).size = t.size+1 := rfl
    have hroomy := h.roomy
    have hloaded := h.loaded
    have hlen := @push_length hash t (key,entry)
    cases hload : (t.push hash (key,entry)).withinLoad with
    | true => simp [rehashFuel,hload,hcont]
    | false =>
      have hstep := hpush.rehashFuel_rebuilt hload (by omega) fuel
      simp [hstep,hcont]

theorem Sound.find_replaced (h : t.Sound hash) {key : Bytes} {entry : StorageEntry}
    {c : List Node} (hr : replace key entry (t.chain (t.bucketIndex hash key)) = some c)
    (x : Bytes) :
    find hash ⟨t.buckets.set (t.bucketIndex hash key) c,t.size⟩ x =
      if x = key then some entry else t.find hash x := by
  rw [find_set (h.index_lt key)]
  by_cases hx : x = key
  · simp [hx,find_replace hr]
  · by_cases hi : t.bucketIndex hash x = t.bucketIndex hash key
    · simp [hi,find_replace hr,hx,find]
    · simp [hi,hx]

theorem Sound.sound_replaced (h : t.Sound hash) {key : Bytes} {entry : StorageEntry}
    {c : List Node} (hr : replace key entry (t.chain (t.bucketIndex hash key)) = some c) :
    Sound hash ⟨t.buckets.set (t.bucketIndex hash key) c,t.size⟩ := by
  have hkeys := keys_replace hr
  have hlen : c.length = (t.chain (t.bucketIndex hash key)).length := by
    simpa using congrArg List.length hkeys
  refine h.set_chain (h.index_lt key) ?_ ?_ (by omega)
  · intro n hn
    have hmem : n.1 ∈ keys (t.chain (t.bucketIndex hash key)) :=
      hkeys ▸ List.mem_map.mpr ⟨n,hn,rfl⟩
    obtain ⟨m,hm,heq⟩ := List.mem_map.mp hmem
    rw [← heq]
    exact h.bucketIndex_of_mem hm
  · rw [hkeys]
    exact h.nodup_chain _

theorem Valid.inserted_spec (h : t.Valid hash) (key : Bytes) (entry : StorageEntry) :
    (t.inserted hash key entry).Valid hash ∧
      ∀ x, (t.inserted hash key entry).find hash x =
        if x = key then some entry else t.find hash x := by
  unfold inserted
  cases hr : replace key entry (t.chain (t.bucketIndex hash key)) with
  | some c =>
    refine ⟨⟨h.sound_replaced hr,?_⟩,h.find_replaced hr⟩
    simpa using h.loaded
  | none =>
    have hfresh : key ∉ keys t.entries := fun hk =>
      replace_eq_none.mp hr (h.mem_keys_chain.mpr hk)
    have hpush : (t.push hash (key,entry)).Sound hash := h.sound_push hfresh
    have hfind := h.find_push (key,entry)
    cases hload : (t.push hash (key,entry)).withinLoad with
    | true => exact ⟨⟨hpush,by simpa [withinLoad] using hload⟩,by simpa using hfind⟩
    | false =>
      obtain ⟨hsound,hlen,hsize,hsame⟩ := hpush.rebuilt_spec
      have hone : (t.push hash (key,entry)).size = t.size+1 := rfl
      have hpl := @push_length hash t (key,entry)
      have hroomy := h.roomy
      have hloaded := h.loaded
      refine ⟨⟨hsound,?_⟩,fun x => (hsame x).trans (hfind x)⟩
      simp only [Bool.false_eq_true,if_false]
      omega

theorem Valid.erase_spec (h : t.Valid hash) (key : Bytes) :
    (t.erase hash key).1.Valid hash ∧ (t.erase hash key).2 = t.contains hash key ∧
      ∀ x, (t.erase hash key).1.find hash x =
        if x = key then none else t.find hash x := by
  unfold erase
  cases hr : remove key (t.chain (t.bucketIndex hash key)) with
  | none =>
    have hfresh : key ∉ keys t.entries := fun hk =>
      remove_eq_none.mp hr (h.mem_keys_chain.mpr hk)
    have hnone : t.find hash key = none := by
      rw [h.find_entries]
      exact find_eq_none.mpr hfresh
    refine ⟨h,by simp [contains,hnone],fun x => ?_⟩
    by_cases hx : x = key
    · simp [hx,hnone]
    · simp [hx]
  | some c =>
    have hmem : key ∈ keys t.entries := by
      by_contra hk
      have := remove_eq_none.mpr (fun hm => hk (h.mem_keys_chain.mp hm))
      simp [hr] at this
    have hlen := length_remove hr
    have hcount := h.counted
    have hpos : 0 < t.size := by
      rw [hcount,← length_keys]
      exact List.length_pos_of_mem hmem
    have hnodup := h.nodup_chain (t.bucketIndex hash key)
    have hsub := remove_sublist hr
    have hloaded := h.loaded
    refine ⟨⟨?_,?_⟩,?_,fun x => ?_⟩
    · refine h.set_chain (h.index_lt key) ?_ ?_ (by omega)
      · intro n hn
        exact h.bucketIndex_of_mem (hsub.subset hn)
      · exact (hsub.map Prod.fst).nodup hnodup
    · simp only [List.length_set]
      omega
    · simp [(h.contains_iff key).mpr hmem]
    · rw [find_set (h.index_lt key)]
      by_cases hx : x = key
      · simp [hx,find_remove hnodup hr]
      · by_cases hi : t.bucketIndex hash x = t.bucketIndex hash key
        · simp [hi,find_remove hnodup hr,hx,find]
        · simp [hi,hx]

/-- An insert keeps the keys of every chain and may put its key in front, or it
doubles the number of buckets. -/
theorem Valid.inserted_cases (h : t.Valid hash) (key : Bytes) (entry : StorageEntry) :
    (t.inserted hash key entry).bucketCount = t.bucketCount ∧
        (∀ i, keys ((t.inserted hash key entry).chain i) = keys (t.chain i) ∨
          keys ((t.inserted hash key entry).chain i) = key :: keys (t.chain i)) ∨
      (t.inserted hash key entry).bucketCount = t.bucketCount*2 := by
  have hlt := h.index_lt key
  unfold inserted
  cases hr : replace key entry (t.chain (t.bucketIndex hash key)) with
  | some chain =>
    refine Or.inl ⟨by simp [bucketCount],fun i => Or.inl ?_⟩
    rw [chain_set hlt]
    split
    · rename_i hi
      rw [hi,keys_replace hr]
    · rfl
  | none =>
    have hfresh : key ∉ keys t.entries := fun hk =>
      replace_eq_none.mp hr (h.mem_keys_chain.mpr hk)
    cases hload : (t.push hash (key,entry)).withinLoad with
    | true =>
      simp only [if_true]
      refine Or.inl ⟨push_length t (key,entry),fun i => ?_⟩
      rw [push,chain_set hlt]
      split
      · rename_i hi
        rw [hi]
        exact Or.inr rfl
      · exact Or.inl rfl
    | false =>
      have hlen := (h.sound_push (n := (key,entry)) hfresh).rebuilt_spec.2.1
      have hpush := @push_length hash t (key,entry)
      simp only [Bool.false_eq_true,if_false,bucketCount]
      exact Or.inr (by rw [hlen,hpush])

theorem Sound.erase_cases (h : t.Sound hash) (key : Bytes) :
    (t.erase hash key).1.bucketCount = t.bucketCount ∧
      ∀ i, (t.erase hash key).1.chain i = t.chain i ∨
        remove key (t.chain i) = some ((t.erase hash key).1.chain i) := by
  unfold erase
  cases hr : remove key (t.chain (t.bucketIndex hash key)) with
  | none => exact ⟨rfl,fun i => Or.inl rfl⟩
  | some chain =>
    refine ⟨by simp [bucketCount],fun i => ?_⟩
    rw [chain_set (h.index_lt key)]
    split
    · rename_i hi
      rw [hi]
      exact Or.inr hr
    · exact Or.inl rfl

theorem clear_eq (t : HashTable) : t.clear = ⟨List.replicate t.buckets.length [],0⟩ := by
  simp [clear,List.map_const']

theorem Valid.clear_spec (h : t.Valid hash) :
    t.clear.Valid hash ∧ ∀ x, t.clear.find hash x = none := by
  rw [clear_eq]
  exact ⟨⟨sound_empty h.roomy,by simp⟩,Sound.find_empty h.roomy⟩

theorem Valid.rehashFuel_eq (h : t.Valid hash) (fuel : Nat) :
    rehashFuel hash (fuel+1) t = some t := by
  have hload : t.withinLoad = true := by simpa [withinLoad] using h.loaded
  simp [rehashFuel,hload]

theorem valid_create (b : Nat) : (create b).Valid hash := by
  refine ⟨sound_empty ?_,by simp [create]⟩
  split <;> omega

theorem bucketCount_create {b : Nat} (hb : 16 ≤ b) : (create b).bucketCount = b := by
  simp [create,bucketCount,Nat.not_lt.mpr hb]

theorem find_create (b : Nat) (key : Bytes) : (create b).find hash key = none :=
  Sound.find_empty (by split <;> omega) key

end

def insert {hash : Bytes → Nat} (t : HashTable) (h : t.Valid hash) (key : Bytes)
    (entry : StorageEntry) : HashTable × Bool :=
  (insertFuel hash 4 t key entry).get (by simp [h.insertFuel_eq 0])

theorem Valid.insert_eq {hash : Bytes → Nat} {t : HashTable} (h : t.Valid hash) (key : Bytes)
    (entry : StorageEntry) :
    t.insert h key entry = (t.inserted hash key entry,!t.contains hash key) := by
  simp [insert,h.insertFuel_eq 0]

theorem Valid.insert_valid {hash : Bytes → Nat} {t : HashTable} (h : t.Valid hash)
    (key : Bytes) (entry : StorageEntry) : (t.insert h key entry).1.Valid hash := by
  rw [h.insert_eq]
  exact (h.inserted_spec key entry).1

def toMap {hash : Bytes → Nat} (t : HashTable) (h : t.Valid hash) : Map StorageEntry :=
  KeyedList.toMap t.entries h.nodup

section
variable {hash : Bytes → Nat} {t : HashTable}

theorem Valid.lookup_toMap (h : t.Valid hash) (key : Bytes) :
    (t.toMap h).lookup key = t.find hash key := by
  rw [toMap,KeyedList.lookup_toMap,h.find_entries]

theorem Valid.card_toMap (h : t.Valid hash) : (t.toMap h).keys.card = t.size := by
  rw [toMap,KeyedList.card_toMap,h.counted]

theorem Valid.contains_toMap (h : t.Valid hash) (key : Bytes) :
    t.contains hash key = true ↔ key ∈ t.toMap h := by
  rw [← Finmap.lookup_isSome,h.lookup_toMap]
  rfl

end

def visits (t : HashTable) : List Node := t.forEach (fun l k e => l ++ [(k,e)]) []

theorem foldl_snoc (l acc : List Node) :
    l.foldl (fun s n => s ++ [(n.1,n.2)]) acc = acc ++ l := by
  induction l generalizing acc with
  | nil => simp
  | cons n l ih => simp [ih]

theorem visits_eq (t : HashTable) : t.visits = t.entries := by
  rw [visits,forEach_eq,foldl_snoc,List.nil_append]

inductive Op where
  | insert (key : Bytes) (entry : StorageEntry)
  | erase (key : Bytes)
  | clear
  | rehashIfNeeded
  deriving DecidableEq, Repr

def call (hash : Bytes → Nat) (fuel : Nat) (t : HashTable) :
    Op → Option (HashTable × Option Bool)
  | .insert key entry => (insertFuel hash fuel t key entry).map (fun r => (r.1,some r.2))
  | .erase key => some ((t.erase hash key).1,some (t.erase hash key).2)
  | .clear => some (t.clear,none)
  | .rehashIfNeeded => (rehashFuel hash fuel t).map (fun u => (u,none))

def calls (hash : Bytes → Nat) (fuel : Nat) :
    HashTable → List Op → Option (HashTable × List (Option Bool))
  | t, [] => some (t,[])
  | t, op :: ops => do
      let (u,r) ← call hash fuel t op
      let (v,rs) ← calls hash fuel u ops
      pure (v,r :: rs)

def mapCall (m : Map StorageEntry) : Op → Map StorageEntry × Option Bool
  | .insert key entry => (m.insert key entry,some (decide (key ∉ m)))
  | .erase key => (m.erase key,some (decide (key ∈ m)))
  | .clear => (∅,none)
  | .rehashIfNeeded => (m,none)

def mapCalls : Map StorageEntry → List Op → Map StorageEntry × List (Option Bool)
  | m, [] => (m,[])
  | m, op :: ops =>
    ((mapCalls (mapCall m op).1 ops).1,(mapCall m op).2 :: (mapCalls (mapCall m op).1 ops).2)

/-- The table is valid and finds what the map has. -/
structure Refines (hash : Bytes → Nat) (t : HashTable) (m : Map StorageEntry) : Prop where
  valid : t.Valid hash
  lookup : ∀ key, t.find hash key = m.lookup key

section
variable {hash : Bytes → Nat} {t : HashTable} {m : Map StorageEntry}

theorem Refines.toMap_eq (h : Refines hash t m) : t.toMap h.valid = m :=
  Finmap.ext_lookup fun key => (h.valid.lookup_toMap key).trans (h.lookup key)

theorem Refines.contains (h : Refines hash t m) (key : Bytes) :
    t.contains hash key = decide (key ∈ m) := by
  rw [Bool.eq_iff_iff,decide_eq_true_iff,h.valid.contains_toMap,h.toMap_eq]

theorem refines_create (b : Nat) : Refines hash (create b) ∅ :=
  ⟨valid_create b,fun key => by rw [find_create,Finmap.lookup_empty]⟩

theorem Refines.call (h : Refines hash t m) (fuel : Nat) (op : Op) :
    ∃ u, HashTable.call hash (fuel+4) t op = some (u,(mapCall m op).2) ∧
      Refines hash u (mapCall m op).1 := by
  cases op with
  | insert key entry =>
    obtain ⟨hvalid,hfind⟩ := h.valid.inserted_spec key entry
    refine ⟨t.inserted hash key entry,?_,hvalid,fun x => ?_⟩
    · simp [HashTable.call,mapCall,h.valid.insertFuel_eq,h.contains]
    · rw [hfind,mapCall]
      by_cases hx : x = key
      · subst hx
        simp
      · simp [hx,Finmap.lookup_insert_of_ne,h.lookup]
  | erase key =>
    obtain ⟨hvalid,hflag,hfind⟩ := h.valid.erase_spec key
    refine ⟨(t.erase hash key).1,?_,hvalid,fun x => ?_⟩
    · simp [HashTable.call,mapCall,hflag,h.contains]
    · rw [hfind,mapCall]
      by_cases hx : x = key
      · subst hx
        simp
      · simp [hx,Finmap.lookup_erase_ne,h.lookup]
  | clear =>
    obtain ⟨hvalid,hfind⟩ := h.valid.clear_spec
    exact ⟨t.clear,rfl,hvalid,fun x => by rw [hfind,mapCall,Finmap.lookup_empty]⟩
  | rehashIfNeeded =>
    exact ⟨t,by simp [HashTable.call,mapCall,h.valid.rehashFuel_eq],h⟩

theorem Refines.calls (h : Refines hash t m) (fuel : Nat) (ops : List Op) :
    ∃ u, HashTable.calls hash (fuel+4) t ops = some (u,(mapCalls m ops).2) ∧
      Refines hash u (mapCalls m ops).1 := by
  induction ops generalizing t m with
  | nil => exact ⟨t,rfl,h⟩
  | cons op ops ih =>
    obtain ⟨u,hu,hrel⟩ := h.call fuel op
    obtain ⟨v,hv,hfinal⟩ := ih hrel
    exact ⟨v,by simp [HashTable.calls,mapCalls,hu,hv],hfinal⟩

theorem Refines.visits (h : Refines hash t m) :
    (t.visits.map toSigma : Multiset (Sigma fun _ : Bytes => StorageEntry)) = m.entries := by
  rw [visits_eq,← h.toMap_eq]
  rfl

theorem Refines.overwrite (h : Refines hash t m) (fuel : Nat) {key : Bytes}
    (hk : key ∈ m) (entry : StorageEntry) :
    ∃ u, insertFuel hash (fuel+4) t key entry = some (u,false) ∧
      u.buckets.map keys = t.buckets.map keys := by
  have hmem : key ∈ keys t.entries := by
    rw [← h.valid.contains_iff,h.contains]
    simpa using hk
  refine ⟨t.inserted hash key entry,?_,?_⟩
  · rw [h.valid.insertFuel_eq,h.contains]
    simp [hk]
  · unfold inserted
    cases hr : replace key entry (t.chain (t.bucketIndex hash key)) with
    | none => exact absurd (h.valid.mem_keys_chain.mpr hmem) (replace_eq_none.mp hr)
    | some c =>
      have hi := h.valid.index_lt key
      have hkeys := keys_replace hr
      rw [chain,List.getD_eq_getElem _ _ hi] at hkeys
      simp only [List.map_set,hkeys]
      rw [← List.getElem_map keys (h := by simpa using hi),List.set_getElem_self]

end

/-- For every run of the public calls on a new table: it ends, every call returns
what the call on the finite map returns, and the final table is read as the final
map is. A later insert of a present key changes no chain but for the entry. -/
theorem calls_refine_finite_map (hash : Bytes → Nat) (bucketCount fuel : Nat) (ops : List Op) :
    ∃ t, calls hash (fuel+4) (create bucketCount) ops = some (t,(mapCalls ∅ ops).2) ∧
      (∀ key, t.find hash key = (mapCalls ∅ ops).1.lookup key) ∧
      (∀ key, t.contains hash key = decide (key ∈ (mapCalls ∅ ops).1)) ∧
      t.size = (mapCalls ∅ ops).1.keys.card ∧
      (t.visits.map toSigma : Multiset (Sigma fun _ : Bytes => StorageEntry)) =
        (mapCalls ∅ ops).1.entries ∧
      ∀ key ∈ (mapCalls ∅ ops).1, ∀ entry, ∃ u,
        insertFuel hash (fuel+4) t key entry = some (u,false) ∧
          u.buckets.map keys = t.buckets.map keys := by
  obtain ⟨t,hrun,hrel⟩ := (@refines_create hash bucketCount).calls fuel ops
  refine ⟨t,hrun,hrel.lookup,hrel.contains,?_,hrel.visits,
    fun key hk entry => hrel.overwrite fuel hk entry⟩
  rw [← hrel.toMap_eq,hrel.valid.card_toMap]

end HashTable
end VoltDBX
