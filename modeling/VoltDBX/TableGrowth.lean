import VoltDBX.HashTableMap

/-!
How the hash table grows. The bucket count only ever doubles, and a rehash finds room for
every node it inserts again, so no rehash runs inside another.
-/

set_option autoImplicit false

namespace VoltDBX
open KeyedList

namespace HashTable

section
variable {hash : Bytes → Nat} {t : HashTable}

theorem Sound.mem_chain_bucket (h : t.Sound hash) {key : Bytes} (hk : key ∈ keys t.entries)
    (j : Nat) : key ∈ keys (t.chain j) ↔ j = t.bucketIndex hash key := by
  constructor
  · intro hj
    exact (h.of_mem_chain hj).1.symm
  · intro hj
    rw [hj]
    exact h.mem_keys_chain.mpr hk

theorem mod_double (a n : Nat) : a%(n*2) = a%n ∨ a%(n*2) = a%n+n := by
  rw [Nat.mod_mul]
  rcases Nat.mod_two_eq_zero_or_one (a/n) with h | h
  · exact Or.inl (by simp [h])
  · exact Or.inr (by simp [h])

/-- A rehash of `u` that ends in `v`: twice the buckets, each key in its old bucket or that
many further, and every insert on the way fits into the new buckets. -/
structure Doubles (hash : Bytes → Nat) (u v : HashTable) : Prop where
  count : v.bucketCount = u.bucketCount*2
  moved : ∀ i key, key ∈ keys (u.chain i) →
    ∃ j, (j = i ∨ j = i+u.bucketCount) ∧ ∀ k, key ∈ keys (v.chain k) ↔ k = j
  steady : ∀ done n rest, u.entries = done ++ n :: rest → ∀ fuel, ∃ w x,
    done.foldlM (fun y m => (insertFuel hash (fuel+2) y m.1 m.2).map Prod.fst)
      ⟨List.replicate (u.buckets.length*2) [],0⟩ = some w ∧
    insertFuel hash (fuel+2) w n.1 n.2 = some (x,true) ∧
    w.bucketCount = u.bucketCount*2 ∧ x.bucketCount = w.bucketCount

theorem Sound.rebuilt_moved (h : t.Sound hash) {i : Nat} {key : Bytes}
    (hk : key ∈ keys (t.chain i)) :
    ∃ j, (j = i ∨ j = i+t.bucketCount) ∧
      ∀ k, key ∈ keys ((t.rebuilt hash).chain k) ↔ k = j := by
  obtain ⟨hsound,hlen,-,hfind⟩ := h.rebuilt_spec
  obtain ⟨hi,hmem⟩ := h.of_mem_chain hk
  have hnew : key ∈ keys (t.rebuilt hash).entries := by
    rw [← hsound.contains_iff,contains,hfind]
    exact (h.contains_iff key).mpr hmem
  refine ⟨(t.rebuilt hash).bucketIndex hash key,?_,hsound.mem_chain_bucket hnew⟩
  simp only [bucketIndex,bucketCount,hlen] at hi ⊢
  rw [← hi]
  exact mod_double (hash key) t.buckets.length

/-- While a table is rebuilt, the nodes done so far leave room for the next one. -/
theorem Sound.rebuild_steady (h : t.Sound hash) (hroom : 4*t.size ≤ 3*(t.buckets.length*2))
    {done rest : List Node} {n : Node} (hsplit : t.entries = done ++ n :: rest) (fuel : Nat) :
    ∃ w x, done.foldlM (fun y m => (insertFuel hash (fuel+2) y m.1 m.2).map Prod.fst)
        ⟨List.replicate (t.buckets.length*2) [],0⟩ = some w ∧
      insertFuel hash (fuel+2) w n.1 n.2 = some (x,true) ∧
      w.bucketCount = t.bucketCount*2 ∧ x.bucketCount = w.bucketCount := by
  have hlarge : 16 ≤ t.buckets.length*2 := by have := h.roomy; omega
  have hempty := @sound_empty hash _ hlarge
  have hnodup := h.nodup
  rw [hsplit,keys_append,keys_cons,List.nodup_append] at hnodup
  obtain ⟨hdone,-,hapart⟩ := hnodup
  have hcount := h.counted
  rw [hsplit,List.length_append,List.length_cons] at hcount
  obtain ⟨hsound,hlen,hsize,hfind⟩ := hempty.foldl_push hdone (by simp [entries_empty])
  simp only [List.length_replicate,Nat.zero_add] at hlen hsize
  have hfresh : n.1 ∉ keys (done.foldl (push hash)
      ⟨List.replicate (t.buckets.length*2) [],0⟩).entries := by
    rw [← find_eq_none,← hsound.find_entries,hfind,Sound.find_empty hlarge,Option.or_none,
      find_eq_none]
    intro hn
    exact hapart n.1 hn n.1 (by simp) rfl
  refine ⟨_,_,hempty.foldlM_push fuel hdone (by simp [entries_empty]) ?_,
    hsound.insertFuel_push hfresh ?_ fuel,hlen,push_length _ n⟩
  · simp only [List.length_replicate]
    omega
  · rw [hlen,hsize]
    omega

theorem Sound.rehash_doubles (h : t.Sound hash) (hover : t.withinLoad = false)
    (hroom : 4*t.size ≤ 3*(t.buckets.length*2)) (fuel : Nat) :
    ∃ v, rehashFuel hash (fuel+3) t = some v ∧ Doubles hash t v :=
  ⟨t.rebuilt hash,h.rehashFuel_rebuilt hover hroom fuel,h.rebuilt_spec.2.1,
    fun _ _ hk => h.rebuilt_moved hk,fun _ _ _ hsplit => h.rebuild_steady hroom hsplit⟩

theorem Valid.call_growth (h : t.Valid hash) (fuel : Nat) (op : Op) :
    ∃ u r, call hash (fuel+4) t op = some (u,r) ∧ u.Valid hash ∧
      (u.bucketCount = t.bucketCount ∨ u.bucketCount = t.bucketCount*2) := by
  cases op with
  | insert key entry =>
    refine ⟨t.inserted hash key entry,some (!t.contains hash key),by simp [call,h.insertFuel_eq],
      (h.inserted_spec key entry).1,?_⟩
    rcases h.inserted_cases key entry with ⟨hsame,-⟩ | hdouble
    · exact Or.inl hsame
    · exact Or.inr hdouble
  | erase key =>
    exact ⟨_,_,rfl,(h.erase_spec key).1,Or.inl (h.erase_cases key).1⟩
  | clear =>
    exact ⟨_,_,rfl,h.clear_spec.1,Or.inl (by simp [clear,bucketCount])⟩
  | rehashIfNeeded =>
    exact ⟨t,none,by simp [call,h.rehashFuel_eq],h,Or.inl rfl⟩

theorem Valid.calls_growth (h : t.Valid hash) (fuel : Nat) (ops : List Op) :
    ∃ u rs, calls hash (fuel+4) t ops = some (u,rs) ∧ u.Valid hash ∧
      ∃ k, u.bucketCount = t.bucketCount*2^k := by
  induction ops generalizing t with
  | nil => exact ⟨t,[],rfl,h,0,by simp⟩
  | cons op ops ih =>
    obtain ⟨u,r,hcall,hu,hgrow⟩ := h.call_growth fuel op
    obtain ⟨v,rs,hcalls,hv,k,hk⟩ := ih hu
    refine ⟨v,r :: rs,by simp [calls,hcall,hcalls],hv,?_⟩
    rcases hgrow with hsame | hdouble
    · exact ⟨k,by rw [hk,hsame]⟩
    · exact ⟨k+1,by rw [hk,hdouble,Nat.pow_succ',Nat.mul_assoc]⟩

theorem calls_append (fuel : Nat) (ops more : List Op) :
    calls hash fuel t (ops ++ more) = (calls hash fuel t ops).bind fun s =>
      (calls hash fuel s.1 more).map fun r => (r.1,s.2 ++ r.2) := by
  induction ops generalizing t with
  | nil => simp [calls]
  | cons op ops ih =>
    cases hcall : call hash fuel t op with
    | none => simp [calls,hcall]
    | some s =>
      simp only [List.cons_append,calls,hcall,Option.bind_eq_bind,Option.bind_some,ih]
      cases calls hash fuel s.1 ops with
      | none => simp
      | some v =>
        cases hmore : calls hash fuel v.1 more with
        | none => simp [hmore]
        | some w => simp [hmore]

end

theorem bucketCount_create_max (b : Nat) : (create b).bucketCount = max b 16 := by
  simp only [create,bucketCount,List.length_replicate]
  split <;> omega

/-- Every run of the public calls on a new table ends, with the load bounded and the bucket
count a doubling of the first one that later calls never lower. Where an insert overfills the
table, its rehash doubles the buckets, and none of the inserts in it rehashes again. -/
theorem growth_bounded (hash : Bytes → Nat) (b fuel : Nat) (ops : List Op) :
    ∃ t rs, calls hash (fuel+4) (create b) ops = some (t,rs) ∧
      4*t.size ≤ 3*t.bucketCount ∧
      (∃ k, t.bucketCount = max b 16*2^k) ∧
      (∀ more, ∃ u rs', calls hash (fuel+4) (create b) (ops ++ more) = some (u,rs') ∧
        t.bucketCount ≤ u.bucketCount) ∧
      rehashFuel hash 1 t = some t ∧
      ∀ key entry, t.contains hash key = false →
        (t.push hash (key,entry)).withinLoad = false →
        ∃ v, rehashFuel hash (fuel+3) (t.push hash (key,entry)) = some v ∧
          insertFuel hash (fuel+4) t key entry = some (v,true) ∧
          Doubles hash (t.push hash (key,entry)) v := by
  obtain ⟨t,rs,hcalls,ht,k,hk⟩ := (@valid_create hash b).calls_growth fuel ops
  rw [bucketCount_create_max] at hk
  refine ⟨t,rs,hcalls,ht.loaded,⟨k,hk⟩,?_,ht.rehashFuel_eq 0,?_⟩
  · intro more
    obtain ⟨u,rs',hmore,-,j,hj⟩ := ht.calls_growth fuel more
    refine ⟨u,rs ++ rs',by simp [calls_append,hcalls,hmore],?_⟩
    rw [hj]
    exact Nat.le_mul_of_pos_right _ (Nat.two_pow_pos j)
  · intro key entry habsent hover
    have hfresh : key ∉ keys t.entries := by
      rw [← ht.contains_iff,habsent]
      simp
    have hsize : (t.push hash (key,entry)).size = t.size+1 := rfl
    have hlen := @push_length hash t (key,entry)
    have hloaded := ht.loaded
    have hroomy := ht.roomy
    obtain ⟨v,hv,hdoubles⟩ := (ht.sound_push hfresh).rehash_doubles hover (by omega) fuel
    refine ⟨v,hv,?_,hdoubles⟩
    rw [insertFuel,ht.replace_none hfresh]
    simp [hv]

end HashTable
end VoltDBX
