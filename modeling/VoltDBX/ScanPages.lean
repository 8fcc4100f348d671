import VoltDBX.Glob
import VoltDBX.KeyScanner

/-!
One page of a scan: which keys its pattern selects, and the window of the table it covers.
-/

set_option autoImplicit false

namespace VoltDBX
open KeyedList

namespace KeyScanner

/-- No star but at the ends of the pattern. -/
def OuterStars (pattern : Bytes) : Prop :=
  ∀ i, pattern[i]? = some star → i = 0 ∨ i+1 = pattern.length

theorem OuterStars.notMem_inner {c d : UInt8} {l : Bytes} (h : OuterStars (c :: (l ++ [d]))) :
    star ∉ l := by
  intro hmem
  obtain ⟨i,hi,hget⟩ := List.mem_iff_getElem.mp hmem
  have hat : (c :: (l ++ [d]))[i+1]? = some star := by
    rw [List.getElem?_cons_succ,List.getElem?_append_left hi,List.getElem?_eq_getElem hi,hget]
  have hends := h (i+1) hat
  simp at hends
  omega

theorem OuterStars.cases {pattern : Bytes} (h : OuterStars pattern) (hne : pattern ≠ []) :
    star ∉ pattern ∨ pattern = [star] ∨
      (∃ l, l ≠ [] ∧ star ∉ l ∧ (pattern = star :: l ∨ pattern = l ++ [star])) ∨
      ∃ l, star ∉ l ∧ pattern = star :: (l ++ [star]) := by
  obtain ⟨c,p,rfl⟩ := List.exists_cons_of_ne_nil hne
  rcases List.eq_nil_or_concat p with rfl | ⟨l,d,rfl⟩
  · by_cases hc : c = star
    · exact Or.inr (Or.inl (by rw [hc]))
    · exact Or.inl (by simpa using Ne.symm hc)
  · rw [List.concat_eq_append] at h ⊢
    have hl := h.notMem_inner
    by_cases hc : c = star
    · by_cases hd : d = star
      · exact Or.inr (Or.inr (Or.inr ⟨l,hl,by rw [hc,hd]⟩))
      · exact Or.inr (Or.inr (Or.inl ⟨l ++ [d],by simp,by simp [hl,Ne.symm hd],Or.inl (by rw [hc])⟩))
    · by_cases hd : d = star
      · exact Or.inr (Or.inr (Or.inl ⟨c :: l,by simp,by simp [hl,Ne.symm hc],Or.inr (by simp [hd])⟩))
      · exact Or.inl (by simp [hl,Ne.symm hc,Ne.symm hd])

theorem occurs_iff (needle key : Bytes) : occurs needle key = true ↔ needle <:+: key := by
  simp only [occurs,List.any_eq_true,List.mem_tails,List.isPrefixOf_iff_prefix]
  constructor
  · intro h
    obtain ⟨tail,htail,hneedle⟩ := h
    exact hneedle.isInfix.trans htail.isInfix
  · intro h
    obtain ⟨u,v,rfl⟩ := h
    exact ⟨needle ++ v,⟨u,by simp⟩,⟨v,rfl⟩⟩

theorem ends_iff (l key : Bytes) :
    (if key.length < l.length then false else decide (key.drop (key.length-l.length) = l)) = true ↔
      l <:+ key := by
  rw [List.suffix_iff_eq_drop]
  split
  · rename_i hlt
    constructor
    · intro h; simp at h
    · intro h
      have := congrArg List.length h
      simp only [List.length_drop] at this
      omega
  · rw [decide_eq_true_iff,eq_comm]

theorem ne_last_of_notMem {l : Bytes} (hl : star ∉ l) : l.getLast? ≠ some star :=
  fun h => hl (List.mem_of_getLast? h)

theorem keyMatches_literal {pattern : Bytes} (hne : pattern ≠ []) (hl : star ∉ pattern)
    (key : Bytes) : keyMatches key pattern = true ↔ key = pattern := by
  have hone : pattern ≠ [star] := fun h => hl (by simp [h])
  have hhead : pattern.head? ≠ some star := fun h => hl (List.mem_of_mem_head? h)
  simp [keyMatches,hne,hone,hhead,ne_last_of_notMem hl]

theorem keyMatches_suffix {l : Bytes} (hne : l ≠ [])
    (hl : ¬ (l.getLast? = some star ∧ 2 < (star :: l).length)) (key : Bytes) :
    keyMatches key (star :: l) = true ↔ l <:+ key := by
  have hlast : (star :: l).getLast? = l.getLast? := by
    obtain ⟨c,l,rfl⟩ := List.exists_cons_of_ne_nil hne
    simp
  rw [← ends_iff]
  simp only [keyMatches,reduceCtorEq,List.cons.injEq,true_and,hne,or_self,if_false,hlast,
    List.head?_cons,hl,if_true,List.drop_one,List.tail_cons]

theorem keyMatches_begins {l : Bytes} (hne : l ≠ []) (hl : star ∉ l) (key : Bytes) :
    keyMatches key (l ++ [star]) = true ↔ l <+: key := by
  have hhead : (l ++ [star]).head? ≠ some star := by
    obtain ⟨c,l,rfl⟩ := List.exists_cons_of_ne_nil hne
    intro h
    exact hl (by simp_all)
  have hone : l ++ [star] ≠ [star] := by simpa using hne
  have hempty : l ++ [star] ≠ [] := by simp
  simp only [keyMatches,hhead,hone,hempty,or_self,false_and,if_false,List.getLast?_concat,if_true,
    List.length_append,List.length_singleton,Nat.add_sub_cancel,List.take_left',
    List.isPrefixOf_iff_prefix]

theorem keyMatches_within {l : Bytes} (hne : l ≠ []) (key : Bytes) :
    keyMatches key (star :: (l ++ [star])) = true ↔ l <:+: key := by
  have hlen : 0 < l.length := List.length_pos_iff.mpr hne
  have hlast : (star :: (l ++ [star])).getLast? = some star := by
    rw [← List.cons_append,List.getLast?_concat]
  rw [← occurs_iff]
  simp [keyMatches,hlast,hlen]

theorem keyMatches_stars (key : Bytes) :
    keyMatches key [star,star] = true ↔ key.getLast? = some star := by
  rw [keyMatches_suffix (by simp) (by simp)]
  constructor
  · intro h
    obtain ⟨u,rfl⟩ := h
    simp
  · intro h
    obtain ⟨u,rfl⟩ := List.getLast?_eq_some_iff.mp h
    exact ⟨u,rfl⟩

/-- The cascade of cases is glob matching, but for two stars, which it takes for a suffix. -/
theorem keyMatches_glob_iff (key pattern : Bytes) (hne : pattern ≠ []) (h : OuterStars pattern) :
    (keyMatches key pattern = true ↔ Glob.Matches star pattern key) ↔
      pattern ≠ bytes "**" ∨ key.getLast? = some star := by
  have hstars : bytes "**" = [star,star] := by decide
  have agrees : pattern ≠ [star,star] →
      (keyMatches key pattern = true ↔ Glob.Matches star pattern key) := by
    intro hpattern
    rcases h.cases hne with hl | rfl | ⟨l,hl0,hl,rfl | rfl⟩ | ⟨l,hl,rfl⟩
    · rw [keyMatches_literal hne hl,Glob.matches_literal hl]
    · simp [keyMatches,Glob.matches_wild]
    · rw [keyMatches_suffix hl0 fun hend => ne_last_of_notMem hl hend.1,Glob.matches_suffix hl]
    · rw [keyMatches_begins hl0 hl,Glob.matches_begins hl]
    · have hl0 : l ≠ [] := fun h0 => hpattern (by rw [h0]; rfl)
      rw [keyMatches_within hl0,Glob.matches_within hl]
  rw [hstars]
  by_cases hpattern : pattern = [star,star]
  · have hglob : Glob.Matches star [star,star] key := by
      rw [Glob.matches_wild_cons]
      exact ⟨[],key,rfl,Glob.matches_wild key⟩
    rw [hpattern,keyMatches_stars]
    simp [hglob]
  · simp [hpattern,agrees hpattern]

theorem keyMatches_glob_iff_middle :
    OuterStars (bytes "*m*") ∧
      ((keyMatches (bytes "km") (bytes "*m*") = true ↔
          Glob.Matches star (bytes "*m*") (bytes "km")) ↔
        bytes "*m*" ≠ bytes "**" ∨ (bytes "km").getLast? = some star) := by
  have houter : OuterStars (bytes "*m*") := by
    intro i hi
    have hlt : i < 3 := (List.getElem?_eq_some_iff.mp hi).1
    interval_cases i
    · decide
    · revert hi; decide
    · decide
  exact ⟨houter,keyMatches_glob_iff (bytes "km") (bytes "*m*") (by decide) houter⟩

/-- The key `a` does not match `**`. -/
theorem two_stars_miss_key :
    ¬ ∀ key pattern, pattern ≠ [] → OuterStars pattern →
      (keyMatches key pattern = true ↔ Glob.Matches star pattern key) := by
  intro h
  have houter : OuterStars (bytes "**") := by
    intro i hi
    have hlt : i < 2 := (List.getElem?_eq_some_iff.mp hi).1
    interval_cases i
    · decide
    · decide
  have hglob : Glob.Matches star (bytes "**") (bytes "a") := by
    have hstars : bytes "**" = [star,star] := by decide
    rw [hstars,Glob.matches_wild_cons]
    exact ⟨[],bytes "a",rfl,Glob.matches_wild _⟩
  have hmatch := (h (bytes "a") (bytes "**") (by decide) houter).mpr hglob
  exact absurd hmatch (by decide)

def Before (c d : ScanCursor) : Prop :=
  c.bucket < d.bucket ∨ c.bucket = d.bucket ∧ c.chain < d.chain

instance (c d : ScanCursor) : Decidable (Before c d) := inferInstanceAs (Decidable (_ ∨ _))

def chainPositions (b i : Nat) (chain : List Node) : List (ScanCursor × Bytes) :=
  (chain.zipIdx i).map fun n => (⟨b,n.2⟩,n.1.1)

def bucketPositions (b : Nat) (buckets : List (List Node)) : List (ScanCursor × Bytes) :=
  (buckets.zipIdx b).flatMap fun chain => chainPositions chain.2 0 chain.1

def positions (t : HashTable) : List (ScanCursor × Bytes) := bucketPositions 0 t.buckets

theorem chainPositions_cons (b i : Nat) (n : Node) (chain : List Node) :
    chainPositions b i (n :: chain) = (⟨b,i⟩,n.1) :: chainPositions b (i+1) chain := rfl

theorem bucketPositions_cons (b : Nat) (chain : List Node) (buckets : List (List Node)) :
    bucketPositions b (chain :: buckets) =
      chainPositions b 0 chain ++ bucketPositions (b+1) buckets := by
  simp [bucketPositions]

theorem mem_chainPositions {b i : Nat} {chain : List Node} {p : ScanCursor × Bytes}
    (h : p ∈ chainPositions b i chain) : p.1.bucket = b ∧ i ≤ p.1.chain := by
  obtain ⟨n,hn,rfl⟩ := List.mem_map.mp h
  exact ⟨rfl,(List.mem_zipIdx hn).1⟩

theorem mem_bucketPositions {b : Nat} {buckets : List (List Node)} {p : ScanCursor × Bytes}
    (h : p ∈ bucketPositions b buckets) :
    b ≤ p.1.bucket ∧ p.1.bucket < b+buckets.length := by
  obtain ⟨chain,hchain,hp⟩ := List.mem_flatMap.mp h
  have hb := (mem_chainPositions hp).1
  have hrange := List.mem_zipIdx hchain
  omega

theorem pairwise_chainPositions (b i : Nat) (chain : List Node) :
    (chainPositions b i chain).Pairwise fun p q => Before p.1 q.1 := by
  induction chain generalizing i with
  | nil => exact .nil
  | cons n chain ih =>
    rw [chainPositions_cons,List.pairwise_cons]
    refine ⟨?_,ih (i+1)⟩
    intro q hq
    have hrange := mem_chainPositions hq
    exact Or.inr ⟨hrange.1.symm,hrange.2⟩

theorem pairwise_bucketPositions (b : Nat) (buckets : List (List Node)) :
    (bucketPositions b buckets).Pairwise fun p q => Before p.1 q.1 := by
  induction buckets generalizing b with
  | nil => exact .nil
  | cons chain buckets ih =>
    rw [bucketPositions_cons,List.pairwise_append]
    refine ⟨pairwise_chainPositions b 0 chain,ih (b+1),?_⟩
    intro p hp q hq
    have hb := (mem_chainPositions hp).1
    have hrange := mem_bucketPositions hq
    exact Or.inl (by omega)

def keysFrom (c : ScanCursor) (ps : List (ScanCursor × Bytes)) : List Bytes :=
  (ps.filter fun p => !decide (Before p.1 c)).map Prod.snd

theorem keysFrom_append (c : ScanCursor) (ps qs : List (ScanCursor × Bytes)) :
    keysFrom c (ps ++ qs) = keysFrom c ps ++ keysFrom c qs := by
  simp [keysFrom]

theorem keysFrom_chain (c : ScanCursor) (b i : Nat) (chain : List Node) :
    keysFrom c (chainPositions b i chain) =
      if c.bucket < b then keys chain
      else if c.bucket = b then keys (chain.drop (c.chain-i)) else [] := by
  induction chain generalizing i with
  | nil => simp [keysFrom,chainPositions]
  | cons n chain ih =>
    have hcons : keysFrom c (chainPositions b i (n :: chain)) =
        (if Before ⟨b,i⟩ c then [] else [n.1]) ++ keysFrom c (chainPositions b (i+1) chain) := by
      rw [chainPositions_cons]
      by_cases hbefore : Before ⟨b,i⟩ c
      · simp [keysFrom,hbefore]
      · simp [keysFrom,hbefore]
    rw [hcons,ih (i+1)]
    rcases Nat.lt_trichotomy c.bucket b with hlt | heq | hgt
    · have hnot : ¬ Before ⟨b,i⟩ c := by simp only [Before]; omega
      simp [hlt,hnot]
    · by_cases hi : i < c.chain
      · have hbefore : Before ⟨b,i⟩ c := Or.inr ⟨heq.symm,hi⟩
        have hdrop : c.chain-i = (c.chain-(i+1))+1 := by omega
        simp [heq,hbefore,hdrop]
      · have hnot : ¬ Before ⟨b,i⟩ c := by simp only [Before]; omega
        have hzero : c.chain-i = 0 ∧ c.chain-(i+1) = 0 := by omega
        simp [heq,hnot,hzero]
    · have hbefore : Before ⟨b,i⟩ c := Or.inl hgt
      have hne : ¬ c.bucket < b ∧ ¬ c.bucket = b := by omega
      simp [hne,hbefore]

theorem keysFrom_buckets (c : ScanCursor) (b : Nat) (buckets : List (List Node)) :
    keysFrom c (bucketPositions b buckets) =
      if c.bucket < b then keys buckets.flatten
      else keys ((buckets.getD (c.bucket-b) []).drop c.chain) ++
        keys (buckets.drop (c.bucket-b+1)).flatten := by
  induction buckets generalizing b with
  | nil => simp [keysFrom,bucketPositions]
  | cons chain buckets ih =>
    rw [bucketPositions_cons,keysFrom_append,keysFrom_chain,ih (b+1)]
    rcases Nat.lt_trichotomy c.bucket b with hlt | heq | hgt
    · have hsucc : c.bucket < b+1 := by omega
      simp [hlt,hsucc]
    · have hsucc : c.bucket < b+1 := by omega
      simp [heq]
    · obtain ⟨d,hd⟩ : ∃ d, c.bucket = b+1+d := ⟨c.bucket-(b+1),by omega⟩
      have hshift : c.bucket-b = d+1 := by omega
      have hsub : c.bucket-(b+1) = d := by omega
      have hne : ¬ c.bucket < b ∧ ¬ c.bucket = b ∧ ¬ c.bucket < b+1 := by omega
      simp [hne,hshift,hsub]

theorem ahead_eq_keysFrom (t : HashTable) (c : ScanCursor) :
    ahead t c = keysFrom c (positions t) := by
  rw [positions,keysFrom_buckets]
  rfl

def keysBetween (c d : ScanCursor) (ps : List (ScanCursor × Bytes)) : List Bytes :=
  (ps.filter fun p => !decide (Before p.1 c) && decide (Before p.1 d)).map Prod.snd

theorem keysFrom_split {c d : ScanCursor} (hcd : ¬ Before d c) {ps : List (ScanCursor × Bytes)}
    (hps : ps.Pairwise fun p q => Before p.1 q.1) :
    keysFrom c ps = keysBetween c d ps ++ keysFrom d ps := by
  induction ps with
  | nil => rfl
  | cons p ps ih =>
    rw [List.pairwise_cons] at hps
    by_cases hd : Before p.1 d
    · by_cases hc : Before p.1 c
      · simpa [keysFrom,keysBetween,hc,hd] using ih hps.2
      · simpa [keysFrom,keysBetween,hc,hd] using ih hps.2
    · -- the order passes on that nothing behind `p` is before `d`, or before `c`
      have hall : ∀ q ∈ p :: ps, ¬ Before q.1 c ∧ ¬ Before q.1 d := by
        intro q hq
        have hpq : q = p ∨ Before p.1 q.1 := by
          rcases List.mem_cons.mp hq with heq | hq
          · exact Or.inl heq
          · exact Or.inr (hps.1 q hq)
        simp only [Before] at hcd hd hpq ⊢
        rcases hpq with rfl | hpq
        · omega
        · omega
      have hc : keysFrom c (p :: ps) = (p :: ps).map Prod.snd := by
        rw [keysFrom,List.filter_eq_self.mpr]
        intro q hq
        simp [(hall q hq).1]
      have hd : keysFrom d (p :: ps) = (p :: ps).map Prod.snd := by
        rw [keysFrom,List.filter_eq_self.mpr]
        intro q hq
        simp [(hall q hq).2]
      have hnone : keysBetween c d (p :: ps) = [] := by
        rw [keysBetween,List.filter_eq_nil_iff.mpr]
        · rfl
        · intro q hq
          simp [(hall q hq).2]
      rw [hc,hd,hnone,List.nil_append]

theorem keysBetween_eq_nil {c d : ScanCursor} (hdc : Before d c) (ps : List (ScanCursor × Bytes)) :
    keysBetween c d ps = [] := by
  rw [keysBetween,List.filter_eq_nil_iff.mpr]
  · rfl
  · intro p _ hp
    simp only [Bool.and_eq_true,Bool.not_eq_true',decide_eq_false_iff_not,
      decide_eq_true_eq] at hp
    obtain ⟨hpc,hpd⟩ := hp
    simp only [Before] at hdc hpc hpd
    omega

theorem eq_keysBetween {t : HashTable} {c d : ScanCursor} {w : List Bytes}
    (h : ahead t c = w ++ ahead t d) : w = keysBetween c d (positions t) := by
  have hsorted := pairwise_bucketPositions 0 t.buckets
  rw [ahead_eq_keysFrom,ahead_eq_keysFrom] at h
  by_cases hdc : Before d c
  · -- no key lies between the cursors, whichever of them comes first
    have hcd : ¬ Before c d := by simp only [Before] at hdc ⊢; omega
    have hsplit := keysFrom_split hcd hsorted
    change keysFrom d (positions t) = _ ++ keysFrom c (positions t) at hsplit
    have hlen := congrArg List.length h
    have hlen' := congrArg List.length hsplit
    simp only [List.length_append] at hlen hlen'
    rw [keysBetween_eq_nil hdc]
    exact List.length_eq_zero_iff.mp (by omega)
  · have hsplit := keysFrom_split hdc hsorted
    change keysFrom c (positions t) = _ ++ keysFrom d (positions t) at hsplit
    exact List.append_cancel_right (h.symm.trans hsplit)

theorem selected_keysBetween (pattern : Bytes) (c d : ScanCursor)
    (ps : List (ScanCursor × Bytes)) :
    selected pattern (keysBetween c d ps) =
      (ps.filter fun p => (!decide (Before p.1 c) && decide (Before p.1 d)) &&
        keyMatches p.2 pattern).map Prod.snd := by
  simp only [selected,keysBetween,List.filter_map,List.filter_filter,Function.comp_def,
    Bool.and_comm]

/-- A page holds the matching keys from its cursor up to the next one, in the order of the
table, no more than asked for. If any were asked for, a finished page has no key behind it;
if none were, the page is empty, stays where it is and counts as finished. -/
theorem scan_page_window (t : HashTable) (c : ScanCursor) (count : Nat) (pattern : Bytes) :
    let page := scan t c count pattern
    page.keys = ((positions t).filter fun p =>
        (!decide (Before p.1 c) && decide (Before p.1 page.next)) &&
          keyMatches p.2 pattern).map Prod.snd ∧
      page.keys.length ≤ count ∧
      (0 < count → page.finished = true → ∀ p ∈ positions t, Before p.1 page.next) ∧
      (count = 0 → page.next = c ∧ page.finished = true) := by
  intro page
  have hlength := scan_length t c count pattern
  rw [← selected_keysBetween]
  rcases Nat.eq_zero_or_pos count with hzero | hcount
  · have hpage : page = ⟨c,[],true⟩ := by simp [page,scan,hzero]
    have hnone : keysBetween c c (positions t) = [] := by simp [keysBetween]
    refine ⟨?_,hlength,fun h => by omega,fun _ => by simp [hpage]⟩
    rw [hpage,hnone]
    rfl
  · obtain ⟨⟨w,hw,hkeys⟩,-⟩ := scan_window t c hcount pattern
    refine ⟨?_,hlength,?_,fun h => by omega⟩
    · rw [← eq_keysBetween hw]
      exact hkeys
    · intro _ hfinished p hp
      rw [scan_finished t c hcount,decide_eq_true_eq] at hfinished
      have hbucket := (mem_bucketPositions hp).2
      have hbound : t.buckets.length ≤ page.next.bucket := hfinished
      exact Or.inl (by omega)

/-- Asked for no key, the scan of a table with one key says it is finished before that key. -/
theorem empty_page_is_finished :
    ¬ ∀ (t : HashTable) (c : ScanCursor) (count : Nat) (pattern : Bytes),
      (scan t c count pattern).finished = true →
        ∀ p ∈ positions t, Before p.1 (scan t c count pattern).next := by
  intro h
  have hbefore := h (((HashTable.create 16).push (fun _ => 0) (bytes "a",⟨bytes "1",none⟩)))
    ⟨0,0⟩ 0 (bytes "*") rfl (⟨0,0⟩,bytes "a") (by decide)
  exact absurd hbefore (by decide)

end KeyScanner

end VoltDBX
