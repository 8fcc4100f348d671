import VoltDBX.KeyScanner
import VoltDBX.Races

/-!
`KeyScanner::scan` while others write. It reads the number of buckets once and then walks them
one after the other; between two buckets keys come and go, and the table may be rehashed.
-/

set_option autoImplicit false

namespace VoltDBX
open KeyedList Runs

structure ScanCall where
  cursor : ScanCursor
  count : Nat
  pattern : Bytes
  deriving DecidableEq, Repr

/-- How far the call has come: `buckets` is what was read, `page` what has been found. -/
inductive ScanStage where
  | called
  | walking (buckets bucket chain : Nat) (page : ScanPage)
  | replied (page : ScanPage)
  deriving DecidableEq, Repr

structure ScanAmongWrites (hash : Bytes → Nat) where
  storage : StorageEngine hash
  stage : ScanStage

namespace ScanAmongWrites
variable {hash : Bytes → Nat}

inductive Step where
  | call
  | insert (key : Bytes) (entry : StorageEntry)
  | erase (key : Bytes)
  | clear

/-- The next statements of the call, up to its next look at the table. -/
def next (c : ScanCall) (t : HashTable) : ScanStage → Option ScanStage
  | .called =>
    if c.count = 0 then some (.replied ⟨c.cursor,[],true⟩)
    else some (.walking t.bucketCount c.cursor.bucket c.cursor.chain ⟨c.cursor,[],false⟩)
  | .walking buckets bucket chain page =>
    if bucket < buckets ∧ page.keys.length < c.count then
      let s := t.forEachBucket bucket (KeyScanner.visit c.count c.pattern bucket) (page,chain)
      if s.1.keys.length < c.count then
        some (.walking buckets (bucket+1) 0 ⟨⟨bucket+1,0⟩,s.1.keys,s.1.finished⟩)
      else some (.walking buckets bucket s.2 s.1)
    else some (.replied ⟨page.next,page.keys,decide (buckets ≤ page.next.bucket)⟩)
  | .replied _ => none

def step (c : ScanCall) : Step → ScanAmongWrites hash → Option (ScanAmongWrites hash)
  | .call, s => (next c s.storage.table s.stage).map fun stage => ⟨s.storage,stage⟩
  | .insert key entry, s => some ⟨s.storage.insert key entry,s.stage⟩
  | .erase key, s => some ⟨(s.storage.remove key).1,s.stage⟩
  | .clear, s => some ⟨s.storage.clearAll,s.stage⟩

/-- What the loop comes to from the stage of the call, on a table that stays as it is. -/
def Alone (c : ScanCall) (t : HashTable) (stage : ScanStage) : Prop :=
  match stage with
  | .called => True
  | .walking buckets bucket chain page => 0 < c.count ∧ buckets = t.bucketCount ∧
    KeyScanner.scanLoop t c.count c.pattern (t.bucketCount-bucket) bucket chain page =
      KeyScanner.scanLoop t c.count c.pattern (t.bucketCount-c.cursor.bucket) c.cursor.bucket
        c.cursor.chain ⟨c.cursor,[],false⟩
  | .replied page => page = KeyScanner.scan t c.cursor c.count c.pattern

theorem scanLoop_full (t : HashTable) {count : Nat} (pattern : Bytes) (rounds bucket chain : Nat)
    {page : ScanPage} (h : ¬ (bucket < t.bucketCount ∧ page.keys.length < count)) :
    KeyScanner.scanLoop t count pattern rounds bucket chain page = page := by
  cases rounds with
  | zero => rfl
  | succ rounds => rw [KeyScanner.scanLoop,if_neg h]

theorem Alone.next {c : ScanCall} {t : HashTable} {stage stage' : ScanStage} (h : Alone c t stage)
    (hnext : ScanAmongWrites.next c t stage = some stage') : Alone c t stage' := by
  unfold ScanAmongWrites.next at hnext
  split at hnext
  · split at hnext
    · rename_i hzero
      cases hnext
      simp only [Alone,KeyScanner.scan,hzero,if_true]
    · rename_i hzero
      cases hnext
      exact ⟨Nat.pos_of_ne_zero hzero,rfl,rfl⟩
  · rename_i buckets bucket chain page
    obtain ⟨hcount,rfl,hloop⟩ := h
    split at hnext
    · rename_i hgoes
      obtain ⟨rounds,hrounds⟩ : ∃ rounds, t.bucketCount-bucket = rounds+1 :=
        Nat.exists_eq_add_one.mpr (by omega)
      rw [hrounds,KeyScanner.scanLoop,if_pos hgoes] at hloop
      dsimp only at hnext hloop
      split at hnext
      · rename_i hroom
        cases hnext
        rw [if_pos hroom] at hloop
        refine ⟨hcount,rfl,?_⟩
        rw [← hloop]
        congr 1
        omega
      · rename_i hfull
        cases hnext
        rw [if_neg hfull] at hloop
        refine ⟨hcount,rfl,?_⟩
        rw [← hloop,scanLoop_full _ _ _ _ _ fun hand => hfull hand.2,
          scanLoop_full _ _ _ _ _ fun hand => hfull hand.2]
    · rename_i hends
      cases hnext
      rw [scanLoop_full _ _ _ _ _ hends] at hloop
      have hne : ¬ c.count = 0 := by omega
      simp only [Alone,KeyScanner.scan,hne,if_false,← hloop]
  · cases hnext

theorem moves_scan {c : ScanCall} {s t : ScanAmongWrites hash} {n : Nat} {page : ScanPage}
    (hstart : s.stage = .called) (hrun : Moves (step c) s (List.replicate n .call) t)
    (hdone : t.stage = .replied page) :
    page = KeyScanner.scan s.storage.table c.cursor c.count c.pattern := by
  have hs : s.storage = s.storage ∧ Alone c s.storage.table s.stage := by
    rw [hstart]
    exact ⟨rfl,trivial⟩
  have halone : t.storage = s.storage ∧ Alone c s.storage.table t.stage := by
    refine moves_invariant (I := fun u : ScanAmongWrites hash =>
      u.storage = s.storage ∧ Alone c s.storage.table u.stage) (fun i hi u v hu hmove => ?_) hs hrun
    rw [List.eq_of_mem_replicate hi] at hmove
    obtain ⟨stage,hstage,rfl⟩ := Option.map_eq_some_iff.mp hmove
    rw [hu.1] at hstage
    exact ⟨hu.1,hu.2.next hstage⟩
  rw [hdone] at halone
  exact halone.2

def index (s : ScanAmongWrites hash) (key : Bytes) : Nat := s.storage.table.bucketIndex hash key

def SameSize (s u : ScanAmongWrites hash) : Prop :=
  u.storage.table.buckets.length = s.storage.table.buckets.length

def Holds (key : Bytes) (u : ScanAmongWrites hash) : Prop := key ∈ u.storage.toMap

def ScanCall.Covers (c : ScanCall) (i : Nat) : Prop :=
  c.cursor.bucket < i ∨ c.cursor.bucket = i ∧ c.cursor.chain = 0

variable {c : ScanCall} {s u v : ScanAmongWrites hash} {steps : List Step}
variable {buckets bucket chain : Nat} {page : ScanPage}

structure Found (c : ScanCall) (s : ScanAmongWrites hash) (steps : List Step) (ks : List Bytes) :
    Prop where
  length : ks.length ≤ c.count
  found : ∀ key ∈ ks, KeyScanner.keyMatches key c.pattern = true ∧
    Visits (step c) (Holds key) s steps

/-- What is known while the table is not rehashed: the keys found come from the buckets that
have been walked, and none of these has been missed that was there all the time. -/
structure Steady (c : ScanCall) (s : ScanAmongWrites hash) (steps : List Step) (bucket : Nat)
    (ks : List Bytes) : Prop where
  nodup : ks.Nodup
  behind : ks.length < c.count → ∀ key ∈ ks, s.index key < bucket
  complete : ks.length < c.count → ∀ key, KeyScanner.keyMatches key c.pattern = true →
    ScanCall.Covers c (s.index key) → s.index key < bucket →
    Throughout (step c) (Holds key) s steps → key ∈ ks

structure Walked (c : ScanCall) (s : ScanAmongWrites hash) (steps : List Step)
    (buckets bucket chain : Nat) (page : ScanPage) : Prop where
  found : Found c s steps page.keys
  next : page.next = ⟨bucket,chain⟩
  inside : page.keys.length < c.count ∨ bucket < buckets
  offset : page.keys.length < c.count →
    bucket = c.cursor.bucket ∧ chain = c.cursor.chain ∨ c.cursor.bucket < bucket ∧ chain = 0
  steady : Throughout (step c) (SameSize s) s steps →
    buckets = s.storage.table.buckets.length ∧ Steady c s steps bucket page.keys

theorem Found.append {ks : List Bytes} (h : Found c s steps ks) (more : List Step) :
    Found c s (steps ++ more) ks :=
  ⟨h.length,fun key hkey => ⟨(h.found key hkey).1,(h.found key hkey).2.append more⟩⟩

theorem Steady.append {ks : List Bytes} (h : Steady c s steps bucket ks) (more : List Step) :
    Steady c s (steps ++ more) bucket ks :=
  ⟨h.nodup,h.behind,fun hroom key hmatch hcovers hlt hthere =>
    h.complete hroom key hmatch hcovers hlt hthere.of_append⟩

theorem Walked.append (h : Walked c s steps buckets bucket chain page) (more : List Step) :
    Walked c s (steps ++ more) buckets bucket chain page :=
  ⟨h.found.append more,h.next,h.inside,h.offset,fun hsize =>
    ⟨(h.steady hsize.of_append).1,(h.steady hsize.of_append).2.append more⟩⟩

theorem mem_added {t : HashTable} (h : t.Sound hash) {n m : Nat} {key : Bytes}
    (hkey : key ∈ KeyScanner.selected c.pattern (keys (((t.chain bucket).drop n).take m))) :
    KeyScanner.keyMatches key c.pattern = true ∧ t.bucketIndex hash key = bucket ∧
      key ∈ keys t.entries := by
  obtain ⟨hmem,hmatch⟩ := List.mem_filter.mp hkey
  obtain ⟨node,hnode,rfl⟩ := List.mem_map.mp hmem
  have hchain : node.1 ∈ keys (t.chain bucket) :=
    List.mem_map_of_mem (List.mem_of_mem_drop (List.mem_of_mem_take hnode))
  exact ⟨hmatch,h.of_mem_chain hchain⟩

theorem nodup_added {t : HashTable} (h : t.Sound hash) (pattern : Bytes) (b n m : Nat) :
    (KeyScanner.selected pattern (keys (((t.chain b).drop n).take m))).Nodup := by
  have hsub : (keys (((t.chain b).drop n).take m)).Sublist (keys (t.chain b)) :=
    ((List.take_sublist _ _).trans (List.drop_sublist _ _)).map _
  exact ((h.nodup_chain b).sublist hsub).filter _

def added (c : ScanCall) (u : ScanAmongWrites hash) (bucket chain j : Nat) : List Bytes :=
  KeyScanner.selected c.pattern (keys (((u.storage.table.chain bucket).drop chain).take j))

theorem Found.visit {ks : List Bytes} {j : Nat} (h : Found c s steps ks)
    (hrun : Moves (step c) s steps u)
    (hlen : (ks ++ added c u bucket chain j).length ≤ c.count) :
    Found c s steps (ks ++ added c u bucket chain j) := by
  refine ⟨hlen,fun key hkey => ?_⟩
  rcases List.mem_append.mp hkey with hold | hnew
  · exact h.found key hold
  · obtain ⟨hmatch,-,hmem⟩ := mem_added u.storage.valid.toSound hnew
    exact ⟨hmatch,visits_end hrun (u.storage.mem_toMap.mpr hmem)⟩

theorem Steady.nodup_visit {ks : List Bytes} {j : Nat} (h : Steady c s steps bucket ks)
    (hroom : ks.length < c.count) (hsize : SameSize s u) :
    (ks ++ added c u bucket chain j).Nodup := by
  refine List.Nodup.append h.nodup (nodup_added u.storage.valid.toSound _ _ _ _) ?_
  intro key hold hnew
  have hlt := h.behind hroom key hold
  have hindex := (mem_added u.storage.valid.toSound hnew).2.1
  unfold SameSize at hsize
  rw [index,HashTable.bucketIndex,← hsize] at hlt
  rw [HashTable.bucketIndex] at hindex
  omega

theorem Steady.visit {ks : List Bytes} (h : Steady c s steps bucket ks)
    (hroom : ks.length < c.count) (hrun : Moves (step c) s steps u) (hsize : SameSize s u)
    (hoffset : bucket = c.cursor.bucket ∧ chain = c.cursor.chain ∨
      c.cursor.bucket < bucket ∧ chain = 0)
    {j : Nat} (hj : j = ((u.storage.table.chain bucket).drop chain).length) :
    Steady c s steps (bucket+1) (ks ++ added c u bucket chain j) := by
  have hindex : ∀ key, s.index key = u.storage.table.bucketIndex hash key := by
    intro key
    unfold SameSize at hsize
    rw [index,HashTable.bucketIndex,HashTable.bucketIndex,hsize]
  refine ⟨h.nodup_visit hroom hsize,fun _ key hkey => ?_,
    fun _ key hmatch hcovers hlt hthere => ?_⟩
  · rcases List.mem_append.mp hkey with hold | hnew
    · exact Nat.lt_succ_of_lt (h.behind hroom key hold)
    · rw [hindex,(mem_added u.storage.valid.toSound hnew).2.1]
      exact Nat.lt_succ_self bucket
  · rcases Nat.lt_succ_iff_lt_or_eq.mp hlt with hbefore | hhere
    · exact List.mem_append_left _ (h.complete hroom key hmatch hcovers hbefore hthere)
    · have hzero : chain = 0 := by
        rcases hoffset with ⟨hb,hc⟩ | ⟨-,hc⟩
        · rcases hcovers with hahead | ⟨-,hstart⟩
          · omega
          · exact hc.trans hstart
        · exact hc
      have hmem : key ∈ keys (u.storage.table.chain bucket) := by
        have hentries := u.storage.mem_toMap.mp (hthere.end hrun)
        rw [← hhere,hindex]
        exact u.storage.valid.mem_keys_chain.mpr hentries
      refine List.mem_append_right _ (List.mem_filter.mpr ⟨?_,hmatch⟩)
      rw [hj,List.take_length,hzero,List.drop_zero]
      exact hmem

theorem Walked.round (h : Walked c s steps buckets bucket chain page)
    (hrun : Moves (step c) s steps u) (hgoes : bucket < buckets ∧ page.keys.length < c.count)
    {r : ScanPage × Nat} (hr : u.storage.table.forEachBucket bucket
      (KeyScanner.visit c.count c.pattern bucket) (page,chain) = r) :
    (r.1.keys.length < c.count →
      Walked c s steps buckets (bucket+1) 0 ⟨⟨bucket+1,0⟩,r.1.keys,r.1.finished⟩) ∧
    (¬ r.1.keys.length < c.count → Walked c s steps buckets bucket r.2 r.1) := by
  obtain ⟨hb,hroom⟩ := hgoes
  have hoffset := h.offset hroom
  have hpast : c.cursor.bucket < bucket+1 := by
    rcases hoffset with ⟨hsame,-⟩ | ⟨hlt,-⟩
    · omega
    · omega
  by_cases hin : bucket < u.storage.table.bucketCount
  · obtain ⟨j,p,hp,hj,hpn,hpk,hcase⟩ :=
      KeyScanner.visit_bucket u.storage.table c.pattern hroom hin chain h.next
    rw [hp] at hr
    subst hr
    have hks : p.keys = page.keys ++ added c u bucket chain j := hpk
    have hlen : (page.keys ++ added c u bucket chain j).length ≤ c.count := by
      rw [← hks]
      rcases hcase with ⟨hlt,-⟩ | ⟨heq,-⟩
      · exact Nat.le_of_lt hlt
      · exact Nat.le_of_eq heq
    have hfound := h.found.visit hrun hlen
    dsimp only
    constructor
    · intro hlt
      have hall : j = ((u.storage.table.chain bucket).drop chain).length := by
        rcases hcase with ⟨-,hall⟩ | ⟨heq,-⟩
        · exact hall
        · omega
      refine ⟨hks ▸ hfound,rfl,Or.inl hlt,fun _ => Or.inr ⟨hpast,rfl⟩,fun hsize => ?_⟩
      obtain ⟨hbuckets,hsteady⟩ := h.steady hsize
      dsimp only
      rw [hks]
      exact ⟨hbuckets,hsteady.visit hroom hrun (hsize.end hrun) hoffset hall⟩
    · intro hfull
      refine ⟨hks ▸ hfound,hpn,Or.inr hb,fun hlt => absurd hlt hfull,fun hsize => ?_⟩
      obtain ⟨hbuckets,hsteady⟩ := h.steady hsize
      refine ⟨hbuckets,?_,fun hlt => absurd hlt hfull,fun hlt => absurd hlt hfull⟩
      rw [hks]
      exact hsteady.nodup_visit hroom (hsize.end hrun)
  · -- the table has fewer buckets than were read: there is nothing to see
    have hle : u.storage.table.buckets.length ≤ bucket := Nat.not_lt.mp hin
    have hout : r = (page,chain) := by rw [← hr,HashTable.forEachBucket,if_pos hle]
    subst hout
    refine ⟨fun _ => ?_,fun hfull => absurd hroom hfull⟩
    refine ⟨h.found,rfl,Or.inl hroom,fun _ => Or.inr ⟨hpast,rfl⟩,fun hsize => ?_⟩
    have hsame : u.storage.table.buckets.length = s.storage.table.buckets.length := hsize.end hrun
    have hread := (h.steady hsize).1
    omega

def Told (c : ScanCall) (s : ScanAmongWrites hash) (steps : List Step) (t : ScanAmongWrites hash) :
    Prop :=
  match t.stage with
  | .called => True
  | .walking buckets bucket chain page => Walked c s steps buckets bucket chain page
  | .replied page => Found c s steps page.keys ∧ (Throughout (step c) (SameSize s) s steps →
      page.keys.Nodup ∧ (0 < c.count → page.finished = true →
        ∀ key, KeyScanner.keyMatches key c.pattern = true → ScanCall.Covers c (s.index key) →
          Throughout (step c) (Holds key) s steps → key ∈ page.keys))

theorem Told.append {t t' : ScanAmongWrites hash} (h : Told c s steps t) (hstage : t'.stage = t.stage)
    (more : List Step) : Told c s (steps ++ more) t' := by
  unfold Told at h ⊢
  rw [hstage]
  cases ht : t.stage with
  | called => trivial
  | walking buckets bucket chain page =>
    rw [ht] at h
    exact Walked.append h more
  | replied page =>
    rw [ht] at h
    refine ⟨h.1.append more,fun hsize => ?_⟩
    obtain ⟨hnodup,hcomplete⟩ := h.2 hsize.of_append
    exact ⟨hnodup,fun hcount hfinished key hmatch hcovers hthere =>
      hcomplete hcount hfinished key hmatch hcovers hthere.of_append⟩

theorem found_nil (c : ScanCall) (s : ScanAmongWrites hash) (steps : List Step) :
    Found c s steps [] := ⟨Nat.zero_le _,fun _ hkey => absurd hkey List.not_mem_nil⟩

theorem walked_start (hcount : 0 < c.count) (hrun : Moves (step c) s steps u) :
    Walked c s steps u.storage.table.bucketCount c.cursor.bucket c.cursor.chain ⟨c.cursor,[],false⟩ := by
  refine ⟨found_nil c s steps,rfl,Or.inl hcount,fun _ => Or.inl ⟨rfl,rfl⟩,fun hsize => ?_⟩
  refine ⟨hsize.end hrun,List.nodup_nil,fun _ _ hkey => absurd hkey List.not_mem_nil,
    fun _ key _ hcovers hlt => ?_⟩
  rcases hcovers with hahead | ⟨heq,-⟩
  · exact absurd hlt (Nat.not_lt.mpr (Nat.le_of_lt hahead))
  · omega

theorem Walked.reply (h : Walked c s steps buckets bucket chain page) :
    Found c s steps page.keys ∧ (Throughout (step c) (SameSize s) s steps →
      page.keys.Nodup ∧ (0 < c.count → decide (buckets ≤ page.next.bucket) = true →
        ∀ key, KeyScanner.keyMatches key c.pattern = true → ScanCall.Covers c (s.index key) →
          Throughout (step c) (Holds key) s steps → key ∈ page.keys)) := by
  refine ⟨h.found,fun hsize => ?_⟩
  obtain ⟨hbuckets,hsteady⟩ := h.steady hsize
  refine ⟨hsteady.nodup,fun hcount hfinished key hmatch hcovers hthere => ?_⟩
  have hle : buckets ≤ bucket := by
    rw [h.next] at hfinished
    exact of_decide_eq_true hfinished
  have hroom : page.keys.length < c.count := by
    rcases h.inside with hroom | hin
    · exact hroom
    · omega
  have hlt : s.index key < s.storage.table.buckets.length := s.storage.valid.index_lt key
  exact hsteady.complete hroom key hmatch hcovers (by omega) hthere

theorem Told.call (h : Told c s steps u) (hrun : Moves (step c) s steps u)
    (hstep : step c .call u = some v) : Told c s (steps ++ [.call]) v := by
  obtain ⟨stage,hnext,rfl⟩ := Option.map_eq_some_iff.mp hstep
  unfold next at hnext
  split at hnext
  · split at hnext
    · rename_i hzero
      cases hnext
      exact ⟨found_nil c s _,fun _ => ⟨List.nodup_nil,fun hcount => by omega⟩⟩
    · rename_i hzero
      cases hnext
      exact (walked_start (Nat.pos_of_ne_zero hzero) hrun).append _
  · rename_i buckets bucket chain page hstage
    have hwalked : Walked c s steps buckets bucket chain page := by
      unfold Told at h
      rw [hstage] at h
      exact h
    split at hnext
    · rename_i hgoes
      obtain ⟨hpast,hfull⟩ := hwalked.round hrun hgoes rfl
      dsimp only at hnext
      split at hnext
      · rename_i hroom
        cases hnext
        exact (hpast hroom).append _
      · rename_i hno
        cases hnext
        exact (hfull hno).append _
    · cases hnext
      have hreply : Told c s steps ⟨u.storage,.replied
          ⟨page.next,page.keys,decide (buckets ≤ page.next.bucket)⟩⟩ := hwalked.reply
      exact hreply.append rfl _
  · cases hnext

theorem Told.step {i : Step} (h : Told c s steps u) (hrun : Moves (ScanAmongWrites.step c) s steps u)
    (hstep : ScanAmongWrites.step c i u = some v) : Told c s (steps ++ [i]) v := by
  cases i with
  | call => exact h.call hrun hstep
  | insert key entry =>
    cases hstep
    exact h.append rfl _
  | erase key =>
    cases hstep
    exact h.append rfl _
  | clear =>
    cases hstep
    exact h.append rfl _

/-- A SCAN, among any changes of the table by others: its page has at most as many keys as asked
for, each of them matches and was in the table in a state between call and return. As long as
the table is not rehashed meanwhile no key is there twice, and a page that is the last one has
all matching keys that were there all the time, from the cursor's bucket on. -/
theorem scan_among_writes {t : ScanAmongWrites hash} (hstart : s.stage = .called)
    (hrun : Moves (step c) s steps t) (hdone : t.stage = .replied page) :
    page.keys.length ≤ c.count ∧
    (∀ key ∈ page.keys, KeyScanner.keyMatches key c.pattern = true ∧
      Visits (step c) (Holds key) s steps) ∧
    (Throughout (step c) (SameSize s) s steps →
      page.keys.Nodup ∧ (0 < c.count → page.finished = true →
        ∀ key, KeyScanner.keyMatches key c.pattern = true → ScanCall.Covers c (s.index key) →
          Throughout (step c) (Holds key) s steps → key ∈ page.keys)) := by
  have htold : Told c s steps t := by
    refine moves_history (I := fun js u => Told c s js u) ?_ (fun js i u v hu h hi => h.step hu hi) hrun
    unfold Told
    rw [hstart]
    trivial
  unfold Told at htold
  rw [hdone] at htold
  exact ⟨htold.1.length,htold.1.found,htold.2⟩

/-- A key set by another session between the reading of the number of buckets and the look at
its bucket. -/
theorem scan_among_writes_example :
    let e : StorageEngine fun _ => 15 :=
      ⟨.create 16,(StorageEngine.create fun _ => 15).stringPool,HashTable.valid_create 16⟩
    let c : ScanCall := ⟨⟨15,0⟩,10,[]⟩
    ∃ t, Moves (step c) ⟨e,.called⟩ [.call,.insert (bytes "k") ⟨bytes "v",none⟩,.call,.call] t ∧
      t.stage = .replied ⟨⟨16,0⟩,[bytes "k"],true⟩ ∧
      Visits (step c) (Holds (bytes "k")) ⟨e,.called⟩
        [.call,.insert (bytes "k") ⟨bytes "v",none⟩,.call,.call] := by
  intro e c
  have hrun : ∃ t, Moves (step c) ⟨e,.called⟩
      [.call,.insert (bytes "k") ⟨bytes "v",none⟩,.call,.call] t ∧
      t.stage = .replied ⟨⟨16,0⟩,[bytes "k"],true⟩ := by
    refine ⟨_,moves_iff_foldlM.mpr rfl,?_⟩
    decide +kernel
  obtain ⟨t,ht,hdone⟩ := hrun
  exact ⟨t,ht,hdone,((scan_among_writes rfl ht hdone).2.1 (bytes "k") (by simp)).2⟩

end ScanAmongWrites
end VoltDBX
