import VoltDBX.HashTableMap

/-!
The paged key scan of storage/key_scanner.cpp. A cursor is a bucket with an
offset into its chain; the keys a cursor has still ahead of it are those at or
behind that position in the order of the buckets.
-/

set_option autoImplicit false

namespace VoltDBX
open KeyedList

structure ScanCursor where
  bucket : Nat
  chain : Nat
  deriving DecidableEq, Repr

structure ScanPage where
  next : ScanCursor
  keys : List Bytes
  finished : Bool
  deriving DecidableEq, Repr

abbrev star : UInt8 := 42

namespace KeyScanner

def occurs (needle key : Bytes) : Bool := key.tails.any (fun tail => needle.isPrefixOf tail)

/-- `matches` of the source, whose name is a keyword here. -/
def keyMatches (key pattern : Bytes) : Bool :=
  if pattern = [] ∨ pattern = [star] then true
  else if pattern.head? = some star ∧ pattern.getLast? = some star ∧ 2 < pattern.length then
    occurs ((pattern.drop 1).take (pattern.length-2)) key
  else if pattern.head? = some star then
    if key.length < (pattern.drop 1).length then false
    else decide (key.drop (key.length-(pattern.drop 1).length) = pattern.drop 1)
  else if pattern.getLast? = some star then (pattern.take (pattern.length-1)).isPrefixOf key
  else decide (key = pattern)

def visit (count : Nat) (pattern : Bytes) (bucket : Nat) (s : ScanPage × Nat) (key : Bytes)
    (index : Nat) : ScanPage × Nat :=
  if index < s.2 then s
  else if count ≤ s.1.keys.length then s
  else (⟨⟨bucket,index+1⟩,
      if keyMatches key pattern then s.1.keys ++ [key] else s.1.keys,s.1.finished⟩,index+1)

/-- The `while` loop. A round that does not fill the page moves on to the next
bucket, so as many rounds as there are buckets left are enough. -/
def scanLoop (t : HashTable) (count : Nat) (pattern : Bytes) :
    Nat → Nat → Nat → ScanPage → ScanPage
  | 0, _, _, page => page
  | rounds+1, bucket, chain, page =>
    if bucket < t.bucketCount ∧ page.keys.length < count then
      let s := t.forEachBucket bucket (visit count pattern bucket) (page,chain)
      if s.1.keys.length < count then
        scanLoop t count pattern rounds (bucket+1) 0 ⟨⟨bucket+1,0⟩,s.1.keys,s.1.finished⟩
      else scanLoop t count pattern rounds bucket s.2 s.1
    else page

def scan (t : HashTable) (cursor : ScanCursor) (count : Nat) (pattern : Bytes) : ScanPage :=
  if count = 0 then ⟨cursor,[],true⟩
  else
    let page := scanLoop t count pattern (t.bucketCount-cursor.bucket) cursor.bucket
      cursor.chain ⟨cursor,[],false⟩
    ⟨page.next,page.keys,decide (t.bucketCount ≤ page.next.bucket)⟩

def ahead (t : HashTable) (c : ScanCursor) : List Bytes :=
  keys ((t.chain c.bucket).drop c.chain) ++ keys (t.buckets.drop (c.bucket+1)).flatten

def selected (pattern : Bytes) (ks : List Bytes) : List Bytes :=
  ks.filter (fun k => keyMatches k pattern)

section
variable {count : Nat} {pattern : Bytes} {bucket : Nat}

theorem visit_full {s : ScanPage × Nat} (h : count ≤ s.1.keys.length) (l : List Node) (i : Nat) :
    (l.zipIdx i).foldl (fun s n => visit count pattern bucket s n.1.1 n.2) s = s := by
  induction l generalizing i with
  | nil => rfl
  | cons n l ih =>
    have hstep : visit count pattern bucket s n.1 i = s := by
      unfold visit
      split
      · rfl
      · rfl
    simp [hstep,ih]

theorem visit_skip {s : ScanPage × Nat} (l : List Node) (i : Nat) (h : i+l.length ≤ s.2) :
    (l.zipIdx i).foldl (fun s n => visit count pattern bucket s n.1.1 n.2) s = s := by
  induction l generalizing i with
  | nil => rfl
  | cons n l ih =>
    simp only [List.length_cons] at h
    have hstep : visit count pattern bucket s n.1 i = s := by
      have hlt : i < s.2 := by omega
      simp [visit,hlt]
    simp [hstep,ih (i+1) (by omega)]

theorem visit_walk {page : ScanPage} (hroom : page.keys.length < count) (l : List Node) (i : Nat)
    (hnext : page.next = ⟨bucket,i⟩) :
    ∃ j p, (l.zipIdx i).foldl (fun s n => visit count pattern bucket s n.1.1 n.2) (page,i) =
        (p,i+j) ∧ j ≤ l.length ∧ p.next = ⟨bucket,i+j⟩ ∧
      p.keys = page.keys ++ selected pattern (keys (l.take j)) ∧
      (p.keys.length < count ∧ j = l.length ∨ p.keys.length = count ∧ 0 < j) := by
  induction l generalizing i page with
  | nil => exact ⟨0,page,rfl,by simp,hnext,by simp [selected],Or.inl ⟨hroom,rfl⟩⟩
  | cons n l ih =>
    obtain ⟨q,hq,hqk⟩ : ∃ q : ScanPage,
        visit count pattern bucket (page,i) n.1 i = (q,i+1) ∧ q.next = ⟨bucket,i+1⟩ ∧
          q.keys = page.keys ++ selected pattern [n.1] := by
      refine ⟨⟨⟨bucket,i+1⟩,if keyMatches n.1 pattern then page.keys ++ [n.1] else page.keys,
        page.finished⟩,?_,rfl,?_⟩
      · simp only [visit,Nat.lt_irrefl,if_false,Nat.not_le.mpr hroom]
      · cases hm : keyMatches n.1 pattern <;> simp [selected,hm]
    obtain ⟨hqn,hqk⟩ := hqk
    have hone : (selected pattern [n.1]).length ≤ 1 := List.length_filter_le _ _
    rw [List.zipIdx_cons,List.foldl_cons,hq]
    by_cases hfull : q.keys.length < count
    · obtain ⟨j,p,hp,hj,hpn,hpk,hcase⟩ := ih hfull (i+1) hqn
      refine ⟨j+1,p,by rw [hp]; congr 1; omega,by simp; omega,by rw [hpn]; congr 1; omega,?_,?_⟩
      · rw [hpk,hqk]
        simp [selected,List.filter_cons]
        split <;> rfl
      · rcases hcase with ⟨hlt,hall⟩ | ⟨heq,hpos⟩
        · exact Or.inl ⟨hlt,by simp [hall]⟩
        · exact Or.inr ⟨heq,by omega⟩
    · have hcount : q.keys.length = count := by
        rw [hqk] at hfull ⊢
        simp only [List.length_append] at hfull ⊢
        omega
      refine ⟨1,q,visit_full (by simp [hcount]) l (i+1),by simp,hqn,?_,Or.inr ⟨hcount,by omega⟩⟩
      simpa using hqk

theorem visit_bucket (t : HashTable) (pattern : Bytes) {page : ScanPage} (hroom : page.keys.length < count)
    (hb : bucket < t.bucketCount) (chain : Nat) (hnext : page.next = ⟨bucket,chain⟩) :
    ∃ j p, t.forEachBucket bucket (visit count pattern bucket) (page,chain) = (p,chain+j) ∧
      j ≤ ((t.chain bucket).drop chain).length ∧ p.next = ⟨bucket,chain+j⟩ ∧
      p.keys = page.keys ++ selected pattern (keys (((t.chain bucket).drop chain).take j)) ∧
      (p.keys.length < count ∧ j = ((t.chain bucket).drop chain).length ∨
        p.keys.length = count ∧ 0 < j) := by
  have hin : ¬ t.buckets.length ≤ bucket := Nat.not_le.mpr hb
  simp only [HashTable.forEachBucket,hin,if_false]
  by_cases hle : chain ≤ (t.chain bucket).length
  · have hsplit : (t.chain bucket).zipIdx = ((t.chain bucket).take chain).zipIdx ++
        ((t.chain bucket).drop chain).zipIdx chain := by
      conv_lhs => rw [← List.take_append_drop chain (t.chain bucket)]
      rw [List.zipIdx_append]
      simp [hle]
    rw [hsplit,List.foldl_append,visit_skip _ 0 (by simp)]
    exact visit_walk hroom _ chain hnext
  · have hdrop : (t.chain bucket).drop chain = [] := List.drop_of_length_le (by omega)
    refine ⟨0,page,visit_skip _ 0 (by simp; omega),by simp,hnext,by simp [selected],
      Or.inl ⟨hroom,by simp [hdrop]⟩⟩

end

theorem ahead_of_le {t : HashTable} {c : ScanCursor} (h : t.bucketCount ≤ c.bucket) :
    ahead t c = [] := by
  have hb : t.buckets.length ≤ c.bucket := h
  have hchain : t.chain c.bucket = [] := List.getD_eq_default _ _ hb
  simp [ahead,hchain,List.drop_of_length_le (show t.buckets.length ≤ c.bucket+1 by omega)]

theorem ahead_next_bucket (t : HashTable) (b : Nat) :
    ahead t ⟨b+1,0⟩ = keys (t.buckets.drop (b+1)).flatten := by
  by_cases hlast : b+1 < t.buckets.length
  · rw [List.drop_eq_getElem_cons hlast,List.flatten_cons,keys_append,ahead,HashTable.chain,
      List.getD_eq_getElem _ _ hlast,List.drop_zero]
  · have hle : t.bucketCount ≤ (⟨b+1,0⟩ : ScanCursor).bucket := Nat.not_lt.mp hlast
    rw [ahead_of_le hle,List.drop_of_length_le (Nat.not_lt.mp hlast)]
    rfl

theorem ahead_start (t : HashTable) : ahead t ⟨0,0⟩ = keys t.entries := by
  cases h : t.buckets with
  | nil => simp [ahead,HashTable.chain,HashTable.entries,h]
  | cons b bs => simp [ahead,HashTable.chain,HashTable.entries,h]

theorem ahead_length_le (t : HashTable) (c : ScanCursor) :
    (ahead t c).length ≤ t.entries.length := by
  by_cases hb : c.bucket < t.buckets.length
  · have hsub : (t.buckets.drop c.bucket).flatten.Sublist t.entries :=
      (List.drop_sublist c.bucket t.buckets).flatten
    have hle := hsub.length_le
    rw [List.drop_eq_getElem_cons hb,List.flatten_cons,List.length_append] at hle
    simp only [ahead,HashTable.chain,List.getD_eq_getElem _ _ hb,List.length_append,length_keys,
      List.length_drop]
    omega
  · rw [ahead_of_le (Nat.not_lt.mp hb)]
    simp

/-- A page takes a run of the keys ahead of its cursor, selects from it, and
leaves its cursor before the keys that remain. -/
structure Window (t : HashTable) (c : ScanCursor) (count : Nat) (pattern : Bytes)
    (next : ScanCursor) (ks : List Bytes) : Prop where
  split : ∃ w, ahead t c = w ++ ahead t next ∧ ks = selected pattern w
  stop : t.bucketCount ≤ next.bucket ∨
    ks.length = count ∧ next.bucket < t.bucketCount ∧ 0 < next.chain ∧
      next.chain ≤ (t.chain next.bucket).length

theorem scanLoop_window (t : HashTable) (count : Nat) (pattern : Bytes) (rounds : Nat)
    (c : ScanCursor) (page p : ScanPage) (hrounds : rounds = t.bucketCount-c.bucket)
    (hnext : page.next = c) (hroom : page.keys.length < count)
    (hp : scanLoop t count pattern rounds c.bucket c.chain page = p) :
    ∃ w, ahead t c = w ++ ahead t p.next ∧ p.keys = page.keys ++ selected pattern w ∧
      (t.bucketCount ≤ p.next.bucket ∨ p.keys.length = count ∧ p.next.bucket < t.bucketCount ∧
        0 < p.next.chain ∧ p.next.chain ≤ (t.chain p.next.bucket).length) := by
  induction rounds generalizing c page with
  | zero =>
    have hle : t.bucketCount ≤ c.bucket := by omega
    simp only [scanLoop] at hp
    subst hp
    exact ⟨[],by simp [hnext],by simp [selected],Or.inl (by simpa [hnext] using hle)⟩
  | succ rounds ih =>
    have hb : c.bucket < t.bucketCount := by omega
    obtain ⟨j,q,hs,hj,hqn,hqk,hcase⟩ := visit_bucket t pattern hroom hb c.chain hnext
    have htake := List.take_append_drop j ((t.chain c.bucket).drop c.chain)
    rw [scanLoop] at hp
    simp only [hb,hroom,and_self,if_true,hs] at hp
    rcases hcase with ⟨hlt,hall⟩ | ⟨hfull,hpos⟩
    · -- the chain is used up: the rest of the scan starts at the next bucket
      simp only [hlt,if_true] at hp
      obtain ⟨w,hw,hk,hstop⟩ := ih ⟨c.bucket+1,0⟩ ⟨⟨c.bucket+1,0⟩,q.keys,q.finished⟩
        (by simp only; omega) rfl hlt hp
      refine ⟨keys ((t.chain c.bucket).drop c.chain) ++ w,?_,?_,hstop⟩
      · rw [List.append_assoc,← hw,ahead_next_bucket]
        rfl
      · rw [hk,hqk,hall,List.take_length]
        simp [selected]
    · -- the page is full: the loop condition fails
      have hnot : ¬ q.keys.length < count := by omega
      have hexit : ∀ r, scanLoop t count pattern r c.bucket (c.chain+j) q = q := by
        intro r
        cases r with
        | zero => rfl
        | succ r => simp [scanLoop,hnot]
      simp only [hnot,if_false,hexit] at hp
      subst hp
      simp only [List.length_drop] at hj
      refine ⟨keys (((t.chain c.bucket).drop c.chain).take j),?_,hqk,Or.inr ⟨hfull,?_⟩⟩
      · have hrest : keys ((t.chain c.bucket).drop c.chain) =
            keys (((t.chain c.bucket).drop c.chain).take j) ++
              keys ((t.chain c.bucket).drop (c.chain+j)) := by
          rw [← List.drop_drop,← keys_append,htake]
        simp only [hqn,ahead,hrest,List.append_assoc]
      · simp only [hqn]
        exact ⟨hb,by omega,by omega⟩

theorem scan_window (t : HashTable) (c : ScanCursor) {count : Nat} (hcount : 0 < count)
    (pattern : Bytes) :
    Window t c count pattern (scan t c count pattern).next (scan t c count pattern).keys := by
  have hne : ¬ count = 0 := by omega
  obtain ⟨w,hw,hk,hstop⟩ := scanLoop_window t count pattern (t.bucketCount-c.bucket) c
    ⟨c,[],false⟩ _ rfl rfl hcount rfl
  simp only [scan,hne,if_false]
  exact ⟨⟨w,hw,by simpa using hk⟩,hstop⟩

theorem scan_finished (t : HashTable) (c : ScanCursor) {count : Nat} (hcount : 0 < count)
    (pattern : Bytes) :
    (scan t c count pattern).finished =
      decide (t.bucketCount ≤ (scan t c count pattern).next.bucket) := by
  have hne : ¬ count = 0 := by omega
  simp only [scan,hne,if_false]

theorem visit_length {count : Nat} {pattern : Bytes} {bucket : Nat} {s : ScanPage × Nat}
    (h : s.1.keys.length ≤ count) (key : Bytes) (index : Nat) :
    (visit count pattern bucket s key index).1.keys.length ≤ count := by
  unfold visit
  split
  · exact h
  · split
    · exact h
    · rename_i hroom
      simp only
      split
      · rw [List.length_append,List.length_singleton]
        omega
      · exact h

theorem forEachBucket_length (t : HashTable) {count : Nat} (pattern : Bytes) (bucket : Nat)
    {s : ScanPage × Nat} (h : s.1.keys.length ≤ count) :
    (t.forEachBucket bucket (visit count pattern bucket) s).1.keys.length ≤ count := by
  unfold HashTable.forEachBucket
  split
  · exact h
  · generalize (t.chain bucket).zipIdx = nodes
    induction nodes generalizing s with
    | nil => exact h
    | cons n nodes ih => exact ih (visit_length h n.1.1 n.2)

theorem scanLoop_length (t : HashTable) (count : Nat) (pattern : Bytes) (rounds bucket chain : Nat)
    (page : ScanPage) (h : page.keys.length ≤ count) :
    (scanLoop t count pattern rounds bucket chain page).keys.length ≤ count := by
  induction rounds generalizing bucket chain page with
  | zero => exact h
  | succ rounds ih =>
    have hround := forEachBucket_length t pattern bucket (s := (page,chain)) h
    rw [scanLoop]
    split
    · simp only
      split
      · exact ih _ _ _ hround
      · exact ih _ _ _ hround
    · exact h

theorem scan_length (t : HashTable) (c : ScanCursor) (count : Nat) (pattern : Bytes) :
    (scan t c count pattern).keys.length ≤ count := by
  unfold scan
  split
  · simp
  · exact scanLoop_length t count pattern _ _ _ _ (by simp)

theorem scan_cases (t : HashTable) (c : ScanCursor) {count : Nat} (hcount : 0 < count)
    (pattern : Bytes) {page : ScanPage} (hpage : scan t c count pattern = page) :
    page.finished = true ∧ page.keys = selected pattern (ahead t c) ∨
      page.finished = false ∧ page.keys.length = count ∧ page.next.bucket < t.bucketCount ∧
        0 < page.next.chain ∧ page.next.chain ≤ (t.chain page.next.bucket).length ∧
        ∃ w, ahead t c = w ++ ahead t page.next ∧ page.keys = selected pattern w := by
  have hfin := scan_finished t c hcount pattern
  obtain ⟨⟨w,hw,hk⟩,hstop⟩ := scan_window t c hcount pattern
  rw [hpage] at hfin hw hk hstop
  rcases hstop with hle | ⟨hlen,hb,hpos,hchain⟩
  · rw [ahead_of_le hle,List.append_nil] at hw
    exact Or.inl ⟨by simpa [hle] using hfin,by rw [hw,hk]⟩
  · have hlt : ¬ t.bucketCount ≤ page.next.bucket := Nat.not_le.mpr hb
    exact Or.inr ⟨by simpa [hlt] using hfin,hlen,hb,hpos,hchain,w,hw,hk⟩

end KeyScanner
end VoltDBX
