import Mathlib.Data.Finmap

/-!
Lists of key-value pairs, searched from the front. A search stops at the first
pair with the key, so `replace` and `remove` change at most one pair. A list
with distinct keys denotes a finite map.
-/

set_option autoImplicit false

namespace KeyedList

variable {K V : Type}

def keys (l : List (K × V)) : List K := l.map Prod.fst

@[simp] theorem keys_nil : keys ([] : List (K × V)) = [] := rfl

@[simp] theorem keys_cons (p : K × V) (l : List (K × V)) :
    keys (p :: l) = p.1 :: keys l := rfl

@[simp] theorem keys_append (l m : List (K × V)) : keys (l ++ m) = keys l ++ keys m := by
  simp [keys]

@[simp] theorem length_keys (l : List (K × V)) : (keys l).length = l.length := by
  simp [keys]

/-- A new head moves no element to before a position it was at or behind. -/
theorem mem_drop_cons {k x : K} {ks : List K} {n : Nat} (h : x ∈ ks.drop n) :
    x ∈ (k :: ks).drop n := by
  cases n with
  | zero => simpa using Or.inr h
  | succ n =>
    rw [← List.drop_drop] at h
    simpa using List.mem_of_mem_drop h

def toSigma (p : K × V) : Sigma (fun _ : K => V) := ⟨p.1,p.2⟩

theorem nodupKeys_map {l : List (K × V)} (h : (keys l).Nodup) :
    (l.map toSigma).NodupKeys := by
  have hk : (l.map toSigma).keys = keys l := by simp [List.keys,keys,toSigma,Function.comp_def]
  rw [List.NodupKeys,hk]
  exact h

def toMap (l : List (K × V)) (h : (keys l).Nodup) : Finmap (fun _ : K => V) :=
  ⟨l.map toSigma,nodupKeys_map h⟩

theorem card_toMap (l : List (K × V)) (h : (keys l).Nodup) :
    (toMap l h).keys.card = l.length := by
  simp [toMap,Finmap.keys,Multiset.keys]

variable [DecidableEq K]

def find (k : K) : List (K × V) → Option V
  | [] => none
  | (a,v) :: l => if a = k then some v else find k l

def replace (k : K) (v : V) : List (K × V) → Option (List (K × V))
  | [] => none
  | (a,w) :: l => if a = k then some ((a,v) :: l) else (replace k v l).map ((a,w) :: ·)

/-- `map[k] = v`: overwrite, or add a pair for a new key. -/
def assign (k : K) (v : V) (l : List (K × V)) : List (K × V) :=
  match replace k v l with
  | some m => m
  | none => (k,v) :: l

def remove (k : K) : List (K × V) → Option (List (K × V))
  | [] => none
  | (a,w) :: l => if a = k then some l else (remove k l).map ((a,w) :: ·)

theorem find_eq_none {k : K} {l : List (K × V)} : find k l = none ↔ k ∉ keys l := by
  induction l with
  | nil => simp [find]
  | cons p l ih =>
    obtain ⟨a,v⟩ := p
    by_cases h : a = k
    · simp [find,h]
    · simp [find,h,ih,Ne.symm h]

theorem find_isSome {k : K} {l : List (K × V)} : (find k l).isSome = true ↔ k ∈ keys l := by
  rw [← not_iff_not,← find_eq_none]
  simp

theorem find_append (k : K) (l m : List (K × V)) :
    find k (l ++ m) = (find k l).or (find k m) := by
  induction l with
  | nil => simp [find]
  | cons p l ih =>
    obtain ⟨a,v⟩ := p
    by_cases h : a = k
    · simp [find,h]
    · simp [find,h,ih]

theorem find_append_of_notMem {k : K} {l m : List (K × V)} (h : k ∉ keys l) :
    find k (l ++ m) = find k m := by
  rw [find_append,find_eq_none.mpr h,Option.none_or]

theorem find_of_mem {k : K} {v : V} {l : List (K × V)} (hd : (keys l).Nodup)
    (h : (k,v) ∈ l) : find k l = some v := by
  induction l with
  | nil => simp at h
  | cons p l ih =>
    obtain ⟨a,w⟩ := p
    simp only [keys_cons,List.nodup_cons] at hd
    rcases List.mem_cons.mp h with heq | hmem
    · obtain ⟨rfl,rfl⟩ := Prod.mk.inj heq
      simp [find]
    · have hk : k ∈ keys l := List.mem_map.mpr ⟨(k,v),hmem,rfl⟩
      have ha : a ≠ k := fun he => hd.1 (he ▸ hk)
      simp [find,ha,ih hd.2 hmem]

theorem mem_of_find {k : K} {v : V} {l : List (K × V)} (h : find k l = some v) : (k,v) ∈ l := by
  induction l with
  | nil => simp [find] at h
  | cons p l ih =>
    by_cases hp : p.1 = k
    · simp only [find,hp,if_true,Option.some.injEq] at h
      subst h
      subst hp
      exact List.mem_cons_self
    · simp only [find,hp,if_false] at h
      exact List.mem_cons_of_mem _ (ih h)

theorem replace_eq_none {k : K} {v : V} {l : List (K × V)} :
    replace k v l = none ↔ k ∉ keys l := by
  induction l with
  | nil => simp [replace]
  | cons p l ih =>
    obtain ⟨a,w⟩ := p
    by_cases h : a = k
    · simp [replace,h]
    · simp [replace,h,ih,Ne.symm h]

theorem keys_replace {k : K} {v : V} {l m : List (K × V)} (h : replace k v l = some m) :
    keys m = keys l := by
  induction l generalizing m with
  | nil => simp [replace] at h
  | cons p l ih =>
    obtain ⟨a,w⟩ := p
    by_cases ha : a = k
    · simp [replace,ha] at h
      subst h
      simp [ha]
    · simp only [replace,ha,if_false,Option.map_eq_some_iff] at h
      obtain ⟨n,hn,rfl⟩ := h
      simp [ih hn]

theorem find_replace {k : K} {v : V} {l m : List (K × V)} (h : replace k v l = some m)
    (x : K) : find x m = if x = k then some v else find x l := by
  induction l generalizing m with
  | nil => simp [replace] at h
  | cons p l ih =>
    obtain ⟨a,w⟩ := p
    by_cases ha : a = k
    · simp [replace,ha] at h
      subst h
      by_cases hx : x = k
      · simp [find,hx]
      · simp [find,ha,hx,Ne.symm hx]
    · simp only [replace,ha,if_false,Option.map_eq_some_iff] at h
      obtain ⟨n,hn,rfl⟩ := h
      by_cases hx : a = x
      · have hxk : x ≠ k := hx ▸ ha
        simp [find,hx,hxk]
      · simp [find,hx,ih hn]

theorem find_assign (k : K) (v : V) (l : List (K × V)) (x : K) :
    find x (assign k v l) = if x = k then some v else find x l := by
  unfold assign
  cases h : replace k v l with
  | some m => exact find_replace h x
  | none =>
    by_cases hx : x = k
    · simp [find,hx]
    · simp [find,hx,Ne.symm hx]

theorem length_flatMap_replace {α : Type} {k : K} {v : List α} {l m : List (K × List α)}
    (h : replace k v l = some m) :
    (m.flatMap Prod.snd).length+((find k l).getD []).length =
      (l.flatMap Prod.snd).length+v.length := by
  induction l generalizing m with
  | nil => simp [replace] at h
  | cons p l ih =>
    obtain ⟨a,w⟩ := p
    by_cases ha : a = k
    · simp only [replace,ha,if_true,Option.some.injEq] at h
      subst h
      simp only [find,ha,if_true,Option.getD_some,List.flatMap_cons,List.length_append]
      omega
    · simp only [replace,ha,if_false,Option.map_eq_some_iff] at h
      obtain ⟨n,hn,rfl⟩ := h
      have hrest := ih hn
      simp only [find,ha,if_false,List.flatMap_cons,List.length_append]
      omega

theorem length_flatMap_assign {α : Type} (k : K) (v : List α) (l : List (K × List α)) :
    ((assign k v l).flatMap Prod.snd).length+((find k l).getD []).length =
      (l.flatMap Prod.snd).length+v.length := by
  unfold assign
  cases h : replace k v l with
  | some m => exact length_flatMap_replace h
  | none =>
    rw [find_eq_none.mpr (replace_eq_none.mp h)]
    simp only [Option.getD_none,List.length_nil,List.flatMap_cons,List.length_append]
    omega

def adjust (k : K) (f : V → V) (l : List (K × V)) : List (K × V) :=
  match find k l with
  | none => l
  | some v => assign k (f v) l

theorem find_adjust (k : K) (f : V → V) (l : List (K × V)) (x : K) :
    find x (adjust k f l) = if x = k then (find k l).map f else find x l := by
  unfold adjust
  cases h : find k l with
  | none =>
    by_cases hx : x = k
    · simp [hx,h]
    · simp [hx]
  | some v => rw [find_assign,Option.map_some]

def discard (k : K) (l : List (K × V)) : List (K × V) := l.filter (fun p => p.1 ≠ k)

theorem find_discard (k : K) (l : List (K × V)) (x : K) :
    find x (discard k l) = if x = k then none else find x l := by
  induction l with
  | nil => simp [discard,find]
  | cons p l ih =>
    obtain ⟨a,w⟩ := p
    by_cases ha : a = k
    · have hdrop : discard k ((a,w) :: l) = discard k l := by simp [discard,ha]
      rw [hdrop,ih]
      by_cases hx : x = k
      · rw [if_pos hx,if_pos hx]
      · have hax : ¬ a = x := fun he => hx (he ▸ ha)
        simp [find,hx,hax]
    · have hkeep : discard k ((a,w) :: l) = (a,w) :: discard k l := by simp [discard,ha]
      rw [hkeep,find,find,ih]
      by_cases hx : a = x
      · have hxk : x ≠ k := hx ▸ ha
        simp [hx,hxk]
      · simp [hx]

theorem remove_eq_none {k : K} {l : List (K × V)} : remove k l = none ↔ k ∉ keys l := by
  induction l with
  | nil => simp [remove]
  | cons p l ih =>
    obtain ⟨a,w⟩ := p
    by_cases h : a = k
    · simp [remove,h]
    · simp [remove,h,ih,Ne.symm h]

theorem keys_remove {k : K} {l m : List (K × V)} (h : remove k l = some m) :
    keys m = (keys l).erase k := by
  induction l generalizing m with
  | nil => simp [remove] at h
  | cons p l ih =>
    obtain ⟨a,w⟩ := p
    by_cases ha : a = k
    · simp [remove,ha] at h
      subst h
      simp [ha]
    · simp only [remove,ha,if_false,Option.map_eq_some_iff] at h
      obtain ⟨n,hn,rfl⟩ := h
      simp [ih hn,ha]

theorem mem_drop_remove {k x : K} {l m : List (K × V)} (h : remove k l = some m) {n : Nat}
    (hx : x ∈ (keys l).drop n) (hne : x ≠ k) (hk : k ∉ (keys l).take n) :
    x ∈ (keys m).drop n := by
  have hlen : ((keys l).take n).length = n := by
    have hpos : 0 < ((keys l).drop n).length := List.length_pos_of_mem hx
    rw [List.length_drop] at hpos
    rw [List.length_take]
    omega
  have hsplit : (keys l).erase k = (keys l).take n ++ ((keys l).drop n).erase k := by
    conv_lhs => rw [← List.take_append_drop n (keys l)]
    exact List.erase_append_right _ hk
  rw [keys_remove h,hsplit,List.drop_left' hlen]
  exact (List.mem_erase_of_ne hne).mpr hx

theorem length_remove {k : K} {l m : List (K × V)} (h : remove k l = some m) :
    m.length+1 = l.length := by
  induction l generalizing m with
  | nil => simp [remove] at h
  | cons p l ih =>
    obtain ⟨a,w⟩ := p
    by_cases ha : a = k
    · simp [remove,ha] at h
      subst h
      rfl
    · simp only [remove,ha,if_false,Option.map_eq_some_iff] at h
      obtain ⟨n,hn,rfl⟩ := h
      simp [ih hn]

theorem remove_sublist {k : K} {l m : List (K × V)} (h : remove k l = some m) :
    m.Sublist l := by
  induction l generalizing m with
  | nil => simp [remove] at h
  | cons p l ih =>
    obtain ⟨a,w⟩ := p
    by_cases ha : a = k
    · simp [remove,ha] at h
      subst h
      exact List.sublist_cons_self _ _
    · simp only [remove,ha,if_false,Option.map_eq_some_iff] at h
      obtain ⟨n,hn,rfl⟩ := h
      exact (ih hn).cons_cons _

theorem find_remove {k : K} {l m : List (K × V)} (hd : (keys l).Nodup)
    (h : remove k l = some m) (x : K) :
    find x m = if x = k then none else find x l := by
  induction l generalizing m with
  | nil => simp [remove] at h
  | cons p l ih =>
    obtain ⟨a,w⟩ := p
    simp only [keys_cons,List.nodup_cons] at hd
    by_cases ha : a = k
    · simp [remove,ha] at h
      subst h
      by_cases hx : x = k
      · subst hx
        simp [find_eq_none,← ha,hd.1]
      · simp [find,ha,hx,Ne.symm hx]
    · simp only [remove,ha,if_false,Option.map_eq_some_iff] at h
      obtain ⟨n,hn,rfl⟩ := h
      by_cases hx : a = x
      · have hxk : x ≠ k := hx ▸ ha
        simp [find,hx,hxk]
      · simp [find,hx,ih hd.2 hn]

theorem dlookup_map (k : K) (l : List (K × V)) :
    (l.map toSigma).dlookup k = find k l := by
  induction l with
  | nil => rfl
  | cons p l ih =>
    obtain ⟨a,v⟩ := p
    by_cases h : a = k
    · subst h
      simp [toSigma,find]
    · rw [List.map_cons,List.dlookup_cons_ne _ _ (Ne.symm h)]
      simp [find,h,ih]

@[simp] theorem lookup_toMap (l : List (K × V)) (h : (keys l).Nodup) (k : K) :
    (toMap l h).lookup k = find k l := dlookup_map k l

theorem mem_toMap {l : List (K × V)} {h : (keys l).Nodup} {k : K} :
    k ∈ toMap l h ↔ k ∈ keys l := by
  rw [← Finmap.lookup_isSome,lookup_toMap,find_isSome]

theorem lookup_foldl_insert {l : List (K × V)} (hd : (keys l).Nodup)
    (m : Finmap (fun _ : K => V)) (k : K) :
    (l.foldl (fun m p => m.insert p.1 p.2) m).lookup k = (find k l).or (m.lookup k) := by
  induction l generalizing m with
  | nil => rfl
  | cons p l ih =>
    obtain ⟨a,v⟩ := p
    simp only [keys_cons,List.nodup_cons] at hd
    rw [List.foldl_cons,ih hd.2]
    by_cases h : a = k
    · subst h
      simp [find,find_eq_none.mpr hd.1]
    · simp [find,h,Finmap.lookup_insert_of_ne _ (Ne.symm h)]

theorem foldl_insert_eq_toMap {l : List (K × V)} (hd : (keys l).Nodup) :
    l.foldl (fun m p => m.insert p.1 p.2) ∅ = toMap l hd :=
  Finmap.ext_lookup fun k => by
    rw [lookup_foldl_insert hd,Finmap.lookup_empty,Option.or_none,lookup_toMap]

/-- Bucket `i` of `bs` holds keys of class `j+i` only. -/
def Placed (cls : K → Nat) (j : Nat) (bs : List (List (K × V))) : Prop :=
  ∀ i, ∀ p ∈ bs.getD i [], cls p.1 = j+i

omit [DecidableEq K] in
theorem Placed.tail {cls : K → Nat} {j : Nat} {b : List (K × V)}
    {bs : List (List (K × V))} (h : Placed cls j (b :: bs)) : Placed cls (j+1) bs := by
  intro i p hp
  have := h (i+1) p (by simpa using hp)
  omega

omit [DecidableEq K] in
theorem Placed.class_le {cls : K → Nat} {j : Nat} {bs : List (List (K × V))}
    (h : Placed cls j bs) {k : K} (hk : k ∈ keys bs.flatten) : j ≤ cls k := by
  obtain ⟨p,hp,rfl⟩ := List.mem_map.mp hk
  obtain ⟨b,hb,hpb⟩ := List.mem_flatten.mp hp
  obtain ⟨i,hi,rfl⟩ := List.getElem_of_mem hb
  have := h i p (by simpa [hi] using hpb)
  omega

omit [DecidableEq K] in
theorem Placed.nodup_keys {cls : K → Nat} {j : Nat} {bs : List (List (K × V))}
    (h : Placed cls j bs) (hd : ∀ b ∈ bs, (keys b).Nodup) : (keys bs.flatten).Nodup := by
  induction bs generalizing j with
  | nil => simp
  | cons b bs ih =>
    have htail := ih h.tail (fun c hc => hd c (by simp [hc]))
    rw [List.flatten_cons,keys_append]
    refine List.Nodup.append (hd b (by simp)) htail ?_
    intro k hk hk'
    obtain ⟨p,hp,rfl⟩ := List.mem_map.mp hk
    have hhere := h 0 p (by simpa using hp)
    have hthere := h.tail.class_le hk'
    omega

theorem Placed.find_flatten {cls : K → Nat} {j : Nat} {bs : List (List (K × V))}
    (h : Placed cls j bs) {k : K} (hk : j ≤ cls k) :
    find k bs.flatten = find k (bs.getD (cls k-j) []) := by
  induction bs generalizing j with
  | nil => simp
  | cons b bs ih =>
    rw [List.flatten_cons]
    by_cases hc : cls k = j
    · have hnone : find k bs.flatten = none := by
        refine find_eq_none.mpr fun hmem => ?_
        have := h.tail.class_le hmem
        omega
      rw [find_append,hnone,Option.or_none]
      simp [hc]
    · have hb : k ∉ keys b := by
        intro hmem
        obtain ⟨p,hp,rfl⟩ := List.mem_map.mp hmem
        have := h 0 p (by simpa using hp)
        omega
      have hi : cls k-j = (cls k-(j+1))+1 := by omega
      rw [find_append_of_notMem hb,ih h.tail (by omega),hi]
      simp

end KeyedList
