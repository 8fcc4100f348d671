import VoltDBX.Conversions
import VoltDBX.Effects
import VoltDBX.ScanIteration

/-!
Scans among writes. A cursor is a position, so what matters is which writes can
move a key from behind a position to before it: a removal in the part of the
chain the cursor has passed, and a rehash, each while the key is in that chain.
-/

set_option autoImplicit false

namespace VoltDBX
open KeyedList

section
variable {hash : Bytes → Nat} {t : HashTable} {key : Bytes} {c : ScanCursor}

theorem keys_drop (l : List Node) (n : Nat) : keys (l.drop n) = (keys l).drop n := List.map_drop

theorem mem_chain_iff (i : Nat) (n : Node) :
    n ∈ t.chain i ↔ ∃ h : i < t.buckets.length, n ∈ t.buckets.get ⟨i,h⟩ := by
  unfold HashTable.chain
  by_cases hi : i < t.buckets.length
  · simp [hi]
  · simp [hi]

theorem HashTable.Sound.mem_later (h : t.Sound hash) (b : Nat) :
    key ∈ keys (t.buckets.drop (b+1)).flatten ↔
      b < t.bucketIndex hash key ∧ key ∈ keys t.entries := by
  constructor
  · intro hk
    obtain ⟨n,hn,rfl⟩ := List.mem_map.mp hk
    obtain ⟨bucket,hb,hnb⟩ := List.mem_flatten.mp hn
    obtain ⟨i,hi,rfl⟩ := List.mem_iff_getElem.mp hb
    rw [List.length_drop] at hi
    rw [List.getElem_drop] at hnb
    have hchain : n ∈ t.chain (b+1+i) := (mem_chain_iff _ _).mpr ⟨by omega,hnb⟩
    have hindex := h.bucketIndex_of_mem hchain
    have hentry : n ∈ t.entries := List.mem_flatten.mpr ⟨_,List.getElem_mem (by omega),hnb⟩
    exact ⟨by omega,List.mem_map.mpr ⟨n,hentry,rfl⟩⟩
  · rintro ⟨hb,hk⟩
    obtain ⟨n,hn,rfl⟩ := List.mem_map.mp (h.mem_keys_chain.mpr hk)
    obtain ⟨hi,hget⟩ := (mem_chain_iff _ _).mp hn
    refine List.mem_map.mpr ⟨n,List.mem_flatten.mpr ⟨_,?_,hget⟩,rfl⟩
    refine List.mem_iff_getElem.mpr ⟨t.bucketIndex hash n.1-(b+1),?_,?_⟩
    · rw [List.length_drop]
      omega
    · rw [List.getElem_drop]
      simp only [List.get_eq_getElem]
      congr 1
      omega

theorem HashTable.Sound.mem_ahead (h : t.Sound hash) :
    key ∈ KeyScanner.ahead t c ↔ key ∈ (keys (t.chain c.bucket)).drop c.chain ∨
      c.bucket < t.bucketIndex hash key ∧ key ∈ keys t.entries := by
  rw [KeyScanner.ahead,List.mem_append,keys_drop,h.mem_later]

theorem mod_le_mod_double (x n : Nat) : x % n ≤ x % (n*2) := by
  rw [← Nat.mod_mod_of_dvd x (Nat.dvd_mul_right n 2)]
  exact Nat.mod_le _ _

theorem HashTable.Valid.inserted_later (h : t.Valid hash) {b : Nat} (k : Bytes)
    (entry : StorageEntry) (hb : b < t.bucketIndex hash key) (hk : key ∈ keys t.entries) :
    b < (t.inserted hash k entry).bucketIndex hash key ∧
      key ∈ keys (t.inserted hash k entry).entries := by
  obtain ⟨hvalid,hfind⟩ := h.inserted_spec k entry
  constructor
  · rcases h.inserted_cases k entry with ⟨hcount,-⟩ | hcount
    · have hlen : (t.inserted hash k entry).buckets.length = t.buckets.length := hcount
      rwa [HashTable.bucketIndex,hlen]
    · have hlen : (t.inserted hash k entry).buckets.length = t.buckets.length*2 := hcount
      rw [HashTable.bucketIndex,hlen]
      exact Nat.lt_of_lt_of_le hb (mod_le_mod_double _ _)
  · rw [← hvalid.contains_iff,HashTable.contains,hfind]
    rw [← h.contains_iff] at hk
    split
    · rfl
    · exact hk

theorem HashTable.Valid.inserted_within (h : t.Valid hash) (k : Bytes) (entry : StorageEntry)
    (hcount : (t.inserted hash k entry).bucketCount = t.bucketCount)
    (hk : key ∈ (keys (t.chain c.bucket)).drop c.chain) :
    key ∈ (keys ((t.inserted hash k entry).chain c.bucket)).drop c.chain := by
  rcases h.inserted_cases k entry with ⟨-,hchain⟩ | hdouble
  · rcases hchain c.bucket with hsame | hfront
    · rwa [hsame]
    · rw [hfront]
      exact mem_drop_cons hk
  · have hroomy : 16 ≤ t.bucketCount := h.roomy
    omega

theorem HashTable.Valid.erase_ahead (h : t.Valid hash) {k : Bytes} (hne : key ≠ k)
    (hk : key ∈ (keys (t.chain c.bucket)).drop c.chain →
      k ∉ (keys (t.chain c.bucket)).take c.chain) (hahead : key ∈ KeyScanner.ahead t c) :
    key ∈ KeyScanner.ahead (t.erase hash k).1 c := by
  obtain ⟨hvalid,-,hfind⟩ := h.erase_spec k
  obtain ⟨hcount,hchain⟩ := h.erase_cases k
  rw [hvalid.mem_ahead]
  rcases h.mem_ahead.mp hahead with hin | ⟨hb,hmem⟩
  · rcases hchain c.bucket with hsame | hremove
    · rw [hsame]
      exact Or.inl hin
    · exact Or.inl (mem_drop_remove hremove hin hne (hk hin))
  · have hlen : (t.erase hash k).1.buckets.length = t.buckets.length := hcount
    refine Or.inr ⟨by rwa [HashTable.bucketIndex,hlen],?_⟩
    rw [← hvalid.contains_iff,HashTable.contains,hfind]
    simpa [hne,HashTable.contains] using (h.contains_iff key).mpr hmem

end

namespace StorageEngine
variable {hash : Bytes → Nat} {e : StorageEngine hash} {key : Bytes} {c : ScanCursor}

theorem bucketCount_le_setAll (pairs : List (Bytes × Bytes)) (e : StorageEngine hash) :
    e.table.bucketCount ≤ (e.setAll pairs).table.bucketCount := by
  induction pairs generalizing e with
  | nil => exact Nat.le_refl _
  | cons p pairs ih => exact Nat.le_trans (bucketCount_set e p.1 p.2).1 (ih _)

theorem bucketCount_remove (e : StorageEngine hash) (k : Bytes) :
    (e.remove k).1.table.bucketCount = e.table.bucketCount := (e.valid.erase_cases k).1

theorem setAll_later (pairs : List (Bytes × Bytes)) {e : StorageEngine hash} {b : Nat}
    (hb : b < e.table.bucketIndex hash key) (hk : key ∈ keys e.table.entries) :
    b < (e.setAll pairs).table.bucketIndex hash key ∧
      key ∈ keys (e.setAll pairs).table.entries := by
  induction pairs generalizing e with
  | nil => exact ⟨hb,hk⟩
  | cons p pairs ih =>
    obtain ⟨hb',hk'⟩ := e.valid.inserted_later p.1 ⟨p.2,none⟩ hb hk
    rw [← set_table] at hb' hk'
    exact ih hb' hk'

theorem setAll_within (pairs : List (Bytes × Bytes)) {e : StorageEngine hash}
    (hcount : (e.setAll pairs).table.bucketCount = e.table.bucketCount)
    (hk : key ∈ (keys (e.table.chain c.bucket)).drop c.chain) :
    key ∈ (keys ((e.setAll pairs).table.chain c.bucket)).drop c.chain := by
  induction pairs generalizing e with
  | nil => exact hk
  | cons p pairs ih =>
    -- the count is the same at both ends, so it is the same in between
    have hone := (bucketCount_set e p.1 p.2).1
    have hrest := bucketCount_le_setAll pairs (e.set p.1 p.2).1
    have hnext : (e.setAll (p :: pairs)) = (e.set p.1 p.2).1.setAll pairs := rfl
    rw [hnext] at hcount ⊢
    have hstep : (e.set p.1 p.2).1.table.bucketCount = e.table.bucketCount := by omega
    refine ih (by omega) ?_
    rw [set_table] at hstep ⊢
    exact e.valid.inserted_within p.1 _ hstep hk

theorem setAll_ahead (pairs : List (Bytes × Bytes))
    (hgentle : key ∈ (keys (e.table.chain c.bucket)).drop c.chain →
      (e.setAll pairs).table.bucketCount = e.table.bucketCount)
    (hahead : key ∈ KeyScanner.ahead e.table c) :
    key ∈ KeyScanner.ahead (e.setAll pairs).table c := by
  rw [(e.setAll pairs).valid.mem_ahead]
  rcases e.valid.mem_ahead.mp hahead with hin | ⟨hb,hk⟩
  · exact Or.inl (setAll_within pairs (hgentle hin) hin)
  · exact Or.inr (setAll_later pairs hb hk)

end StorageEngine

namespace Server
variable {hash : Bytes → Nat}

/-- A write of another client after which `key` is still in the table. -/
def LeavesKey (key : Bytes) (s : Server hash) (write : Env × ParsedCommand) : Prop :=
  write.2.type ∈ [.set,.mset,.incr,.delete] ∧
    ∀ reply t, (dispatch write.1 write.2).run s = .ok reply t → key ∈ t.storage.toMap

/-- A full iteration from a token to the token `0`: pages with a count of at least 1,
and between two pages writes that leave `key` in the table. `Allowed` may restrict
the writes, given the token the client holds when they happen. -/
inductive Iteration (key pattern : Bytes)
    (Allowed : Bytes → Server hash → Env × ParsedCommand → Prop) :
    Server hash → Bytes → List (List Bytes) → Prop where
  | last {s t : Server hash} {env : Env} {token reply : Bytes} {options ks : List Bytes}
      {count : Nat} (hpresent : key ∈ s.storage.toMap)
      (hopt : scanOptions options 10 (bytes "*") = .ok (count,pattern)) (hcount : 1 ≤ count)
      (hrun : (dispatch env (scanCommand token options)).run s = .ok reply t)
      (hread : readScanResponse reply = some (bytes "0",ks)) :
      Iteration key pattern Allowed s token [ks]
  | more {s t u : Server hash} {env : Env} {token next reply : Bytes} {options ks : List Bytes}
      {count : Nat} {writes : List (Env × ParsedCommand)} {replies : List Bytes}
      {pages : List (List Bytes)} (hpresent : key ∈ s.storage.toMap)
      (hopt : scanOptions options 10 (bytes "*") = .ok (count,pattern)) (hcount : 1 ≤ count)
      (hrun : (dispatch env (scanCommand token options)).run s = .ok reply t)
      (hread : readScanResponse reply = some (next,ks)) (hnext : next ≠ bytes "0")
      (hwrites : Runs.Along (fun w => dispatch w.1 w.2)
        (fun s w => LeavesKey key s w ∧ Allowed next s w) t writes)
      (hdone : (Runs.runAll (fun w => dispatch w.1 w.2) writes).run t = .ok replies u)
      (hrest : Iteration key pattern Allowed u next pages) :
      Iteration key pattern Allowed s token (ks :: pages)

/-- A write that does not move `key` to before the position of a token: when the key is
in the chain of the position and not passed yet, the write deletes none of the keys
passed there and leaves the table its number of buckets. -/
def Gentle (key token : Bytes) (s : Server hash) (write : Env × ParsedCommand) : Prop :=
  ∀ c, decodeScanCursor token = .ok c →
    key ∈ (keys (s.storage.table.chain c.bucket)).drop c.chain →
    (∀ k, write.2.type = .delete → write.2.args = [k] →
      k ∉ (keys (s.storage.table.chain c.bucket)).take c.chain) ∧
    ∀ reply t, (dispatch write.1 write.2).run s = .ok reply t →
      t.storage.table.bucketCount = s.storage.table.bucketCount

theorem gentle_ahead {key token reply : Bytes} {s t : Server hash} {w : Env × ParsedCommand}
    {c : ScanCursor} (hc : decodeScanCursor token = .ok c) (hleaves : LeavesKey key s w)
    (hgentle : Gentle key token s w) (hrun : (dispatch w.1 w.2).run s = .ok reply t)
    (hahead : key ∈ KeyScanner.ahead s.storage.table c) :
    key ∈ KeyScanner.ahead t.storage.table c := by
  obtain ⟨htype,hstays⟩ := hleaves
  have hdelete := fun hin => (hgentle c hc hin).1
  have hcount := fun hin => (hgentle c hc hin).2 reply t hrun
  have hkey := hstays reply t hrun
  have heffect := (dispatch_effect w.1 w.2 s).of_ok hrun
  generalize t.storage = u at heffect hkey hcount ⊢
  cases heffect with
  | kept => exact hahead
  | stored pairs hne hst hby => exact StorageEngine.setAll_ahead pairs hcount hahead
  | removed k ht hargs =>
    have hne : key ≠ k := by
      rintro rfl
      rw [StorageEngine.toMap_remove] at hkey
      exact Finmap.notMem_erase_self hkey
    exact s.storage.valid.erase_ahead hne (fun hin => hdelete hin k ht hargs) hahead
  | expires now k ttl ht => simp [ht] at htype
  | cleared ht => simp [ht] at htype

theorem gentle_writes_ahead {key token : Bytes} {s t : Server hash} {c : ScanCursor}
    (hc : decodeScanCursor token = .ok c) {writes : List (Env × ParsedCommand)}
    {replies : List Bytes}
    (hwrites : Runs.Along (fun w => dispatch w.1 w.2)
      (fun s w => LeavesKey key s w ∧ Gentle key token s w) s writes)
    (hrun : (Runs.runAll (fun w => dispatch w.1 w.2) writes).run s = .ok replies t)
    (hahead : key ∈ KeyScanner.ahead s.storage.table c) :
    key ∈ KeyScanner.ahead t.storage.table c := by
  have hstep : ∀ (s : Server hash) (w : Env × ParsedCommand) o t,
      key ∈ KeyScanner.ahead s.storage.table c → LeavesKey key s w ∧ Gentle key token s w →
      (dispatch w.1 w.2).run s = .ok o t → key ∈ KeyScanner.ahead t.storage.table c :=
    fun s w o t h hw hr => gentle_ahead hc hw.1 hw.2 hr h
  exact @Runs.runAll_keeps Raised (Server hash) (Env × ParsedCommand) Bytes
    (fun w => dispatch w.1 w.2) (fun s w => LeavesKey key s w ∧ Gentle key token s w)
    (fun s => key ∈ KeyScanner.ahead s.storage.table c) hstep writes s t replies hahead hwrites hrun

theorem scan_returned {env : Env} {token reply : Bytes} {options : List Bytes}
    {s t : Server hash} (hrun : (dispatch env (scanCommand token options)).run s = .ok reply t) :
    ∃ c, decodeScanCursor token = .ok c := by
  have hconv := (dispatch_returns_iff env (scanCommand token options) s).mp ⟨reply,t,hrun⟩
  exact (decodeScanCursor_ok_iff token).mpr hconv.1

/-- What a page says: it was the last and took all that was ahead, or its token is
that of a later cursor and it took what lies between the two. -/
theorem page_cases {env : Env} {token reply next pattern : Bytes} {options ks : List Bytes}
    {count : Nat} {s t : Server hash} {c : ScanCursor} (hc : decodeScanCursor token = .ok c)
    (hopt : scanOptions options 10 (bytes "*") = .ok (count,pattern)) (hcount : 1 ≤ count)
    (hrun : (dispatch env (scanCommand token options)).run s = .ok reply t)
    (hread : readScanResponse reply = some (next,ks)) :
    t.storage = s.storage ∧
      (next = bytes "0" ∧
          ks = KeyScanner.selected pattern (KeyScanner.ahead s.storage.table c) ∨
        next ≠ bytes "0" ∧ ∃ c' w, 0 < c'.chain ∧ next = encodeScanCursor c' ∧
          KeyScanner.ahead s.storage.table c = w ++ KeyScanner.ahead s.storage.table c' ∧
          ks = KeyScanner.selected pattern w) := by
  have hscan := dispatch_scan env hc hopt s
  have hcases := KeyScanner.scan_cases s.storage.table c hcount pattern rfl
  generalize KeyScanner.scan s.storage.table c count pattern = page at hscan hcases
  rw [hscan] at hrun
  cases hrun
  rw [readScanResponse_scanResponse] at hread
  cases hread
  refine ⟨rfl,?_⟩
  rcases hcases with ⟨hfin,hkeys⟩ | ⟨hfin,-,-,hpos,-,w,hw,hkeys⟩
  · exact Or.inl ⟨by simp [scanToken,hfin],hkeys⟩
  · have htok : scanToken page = encodeScanCursor page.next := by simp [scanToken,hfin]
    exact Or.inr ⟨htok ▸ encodeScanCursor_ne_zero hpos,page.next,w,hpos,htok,hw,hkeys⟩

theorem Iteration.token_read {key pattern token : Bytes}
    {Allowed : Bytes → Server hash → Env × ParsedCommand → Prop} {s : Server hash}
    {pages : List (List Bytes)} (h : Iteration key pattern Allowed s token pages) :
    ∃ c, decodeScanCursor token = .ok c := by
  cases h with
  | last _ _ _ hrun _ => exact scan_returned hrun
  | more _ _ _ hrun _ _ _ _ _ => exact scan_returned hrun

theorem iteration_returns {key pattern token : Bytes} {s : Server hash}
    {pages : List (List Bytes)} (hmatch : KeyScanner.keyMatches key pattern = true)
    (h : Iteration key pattern (Gentle key) s token pages) {c : ScanCursor}
    (hc : decodeScanCursor token = .ok c)
    (hahead : key ∈ KeyScanner.ahead s.storage.table c) : key ∈ pages.flatten := by
  have hselect : ∀ ks, key ∈ ks → key ∈ KeyScanner.selected pattern ks := fun ks hk =>
    List.mem_filter.mpr ⟨hk,hmatch⟩
  induction h generalizing c with
  | last hpresent hopt hcount hrun hread =>
    obtain ⟨-,⟨-,hks⟩ | ⟨hne,-⟩⟩ := page_cases hc hopt hcount hrun hread
    · rw [hks]
      simpa using hselect _ hahead
    · exact absurd rfl hne
  | more hpresent hopt hcount hrun hread hnext hwrites hdone hrest ih =>
    obtain ⟨hsame,⟨hzero,-⟩ | ⟨-,c',w,hpos,hnext',hw,hks⟩⟩ := page_cases hc hopt hcount hrun hread
    · exact absurd hzero hnext
    · rw [List.flatten_cons,List.mem_append]
      rw [hw,List.mem_append] at hahead
      rcases hahead with hin | hlater
      · rw [hks]
        exact Or.inl (hselect w hin)
      · -- the rest of the iteration reads the token, so it denotes this cursor
        obtain ⟨d,hd⟩ := hrest.token_read
        have hdc : d = c' := decodeScanCursor_inj (hnext' ▸ hd)
        rw [hdc] at hd
        rw [← hsame] at hlater
        exact Or.inr (ih hd (gentle_writes_ahead hd hwrites hdone hlater))

def countOptions (count : Nat) : List Bytes := [bytes "COUNT",Decimal.print count]

theorem scanOptions_count {count : Nat} (h : count < 2^64) :
    scanOptions (countOptions count) 10 (bytes "*") = .ok (count,bytes "*") := by
  have hkey : scanOptions (countOptions count) 10 (bytes "*") =
      (stoull (Decimal.print count)).bind (fun n => .ok (n,bytes "*")) := rfl
  rw [hkey,stoull_print h]
  rfl

theorem keyMatches_star (key : Bytes) : KeyScanner.keyMatches key (bytes "*") = true := by
  have hstar : bytes "*" = [star] := by decide
  simp [KeyScanner.keyMatches,hstar]

theorem selected_star (ks : List Bytes) : KeyScanner.selected (bytes "*") ks = ks := by
  simp [KeyScanner.selected,keyMatches_star]

theorem last_page {s : Server hash} (env : Env) {token key : Bytes} {c : ScanCursor}
    (hc : decodeScanCursor token = .ok c) (hkey : key ∈ s.storage.toMap) {count : Nat}
    (hcount : (KeyScanner.ahead s.storage.table c).length < count) (hlt : count < 2^64)
    (Allowed : Bytes → Server hash → Env × ParsedCommand → Prop) :
    Iteration key (bytes "*") Allowed s token [KeyScanner.ahead s.storage.table c] := by
  have hopt := scanOptions_count hlt
  have hrun := dispatch_scan env hc hopt s
  have hcases := KeyScanner.scan_cases s.storage.table c (show 0 < count by omega) (bytes "*") rfl
  generalize KeyScanner.scan s.storage.table c count (bytes "*") = page at hrun hcases
  rcases hcases with ⟨hfin,hkeys⟩ | ⟨-,hlen,-,-,-,w,hw,hkeys⟩
  · refine .last hkey hopt (by omega) hrun ?_
    rw [readScanResponse_scanResponse,hkeys,selected_star]
    simp [scanToken,hfin]
  · have hshort := congrArg List.length hw
    rw [selected_star] at hkeys
    rw [hkeys] at hlen
    rw [List.length_append] at hshort
    omega

theorem first_page {s : Server hash} (env : Env) {p : Bytes} {rest : List Bytes}
    (hkeys : keys s.storage.table.entries = p :: rest) (hne : rest ≠ []) :
    ∃ c reply, (dispatch env (scanCommand (bytes "0") (countOptions 1))).run s =
        .ok reply s.recordCommand ∧
      readScanResponse reply = some (encodeScanCursor c,[p]) ∧ 0 < c.chain ∧
      c.bucket < s.storage.table.bucketCount ∧
      c.chain ≤ (s.storage.table.chain c.bucket).length ∧
      KeyScanner.ahead s.storage.table c = rest := by
  have hopt := scanOptions_count (show 1 < 2^64 by decide)
  have hrun := dispatch_scan env decodeScanCursor_zero hopt s
  have hcases := KeyScanner.scan_cases s.storage.table ⟨0,0⟩ Nat.zero_lt_one (bytes "*") rfl
  have hlength := KeyScanner.scan_length s.storage.table ⟨0,0⟩ 1 (bytes "*")
  generalize KeyScanner.scan s.storage.table ⟨0,0⟩ 1 (bytes "*") = page at hrun hcases hlength
  simp only [KeyScanner.ahead_start,hkeys,selected_star] at hcases
  rcases hcases with ⟨-,hall⟩ | ⟨hfin,hlen,hb,hpos,hle,w,hw,hpage⟩
  · rw [hall,List.length_cons] at hlength
    exact absurd (List.length_eq_zero_iff.mp (by omega)) hne
  · rw [hpage] at hlen
    obtain ⟨x,rfl⟩ := List.length_eq_one_iff.mp hlen
    rw [List.singleton_append,List.cons.injEq] at hw
    obtain ⟨rfl,hrest⟩ := hw
    refine ⟨page.next,_,hrun,?_,hpos,hb,hle,hrest.symm⟩
    rw [readScanResponse_scanResponse,hpage]
    simp [scanToken,hfin]

theorem Iteration.one_write {key token next reply r : Bytes} {ks : List Bytes} {env : Env}
    {cmd : ParsedCommand} {s t u : Server hash} {pages : List (List Bytes)}
    {Allowed : Bytes → Server hash → Env × ParsedCommand → Prop}
    (hpresent : key ∈ s.storage.toMap)
    (hrun : (dispatch env (scanCommand token (countOptions 1))).run s = .ok reply t)
    (hread : readScanResponse reply = some (next,ks)) (hnext : next ≠ bytes "0")
    (htype : cmd.type ∈ [.set,.mset,.incr,.delete])
    (hallowed : Allowed next t (env,cmd)) (hwrite : (dispatch env cmd).run t = .ok r u)
    (hstays : key ∈ u.storage.toMap) (hrest : Iteration key (bytes "*") Allowed u next pages) :
    Iteration key (bytes "*") Allowed s token (ks :: pages) := by
  have hleaves : LeavesKey key t (env,cmd) := by
    refine ⟨htype,fun reply v hv => ?_⟩
    rw [hwrite] at hv
    cases hv
    exact hstays
  have hwrites : Runs.Along (fun w : Env × ParsedCommand => dispatch w.1 w.2)
      (fun s w => LeavesKey key s w ∧ Allowed next s w) t [(env,cmd)] :=
    ⟨⟨hleaves,hallowed⟩,fun _ _ _ => trivial⟩
  exact .more hpresent (scanOptions_count (by decide)) (Nat.le_refl 1) hrun hread hnext hwrites
    (Runs.runAll_cons.mpr ⟨r,u,[],hwrite,rfl,rfl⟩) hrest

theorem two_pages {s u : Server hash} {env : Env} {cmd : ParsedCommand} {key p r : Bytes}
    {rest : List Bytes} {Allowed : Bytes → Server hash → Env × ParsedCommand → Prop}
    (haddr : Addressable s) (haddr' : Addressable u)
    (hkeys : keys s.storage.table.entries = p :: rest) (hne : rest ≠ [])
    (htype : cmd.type ∈ [.set,.mset,.incr,.delete])
    (hallowed : ∀ token, Allowed token s.recordCommand (env,cmd))
    (hwrite : (dispatch env cmd).run s.recordCommand = .ok r u)
    (hpresent : key ∈ s.storage.toMap) (hstays : key ∈ u.storage.toMap) :
    ∃ c : ScanCursor, 0 < c.chain ∧ c.chain ≤ (s.storage.table.chain c.bucket).length ∧
      Iteration key (bytes "*") Allowed s (bytes "0") [[p],KeyScanner.ahead u.storage.table c] := by
  obtain ⟨c,reply,hrun,hread,hpos,hb,hle,-⟩ := first_page env hkeys hne
  have hlt := haddr'.ahead_lt c
  have hlast := last_page env (haddr.decode hb hle) hstays (Nat.lt_succ_self _)
    (by omega) Allowed
  exact ⟨c,hpos,hle,.one_write hpresent hrun hread (encodeScanCursor_ne_zero hpos) htype
    (hallowed _) hwrite hstays hlast⟩

theorem run_delete (env : Env) (s : Server hash) (k : Bytes) :
    ∃ r, (dispatch env ⟨.delete,bytes "DEL",[k]⟩).run s =
      .ok r { s.recordCommand with storage := (s.storage.remove k).1 } := ⟨_,rfl⟩

theorem bucketCount_set_of_room {e : StorageEngine hash} (key value : Bytes)
    (hroom : 4*(e.table.entries.length+1) ≤ 3*e.table.bucketCount) :
    (e.set key value).1.table.bucketCount = e.table.bucketCount := by
  rw [StorageEngine.set_table,HashTable.inserted]
  cases hr : replace key ⟨value,none⟩ (e.table.chain (e.table.bucketIndex hash key)) with
  | some chain => simp [HashTable.bucketCount]
  | none =>
    have hload : (e.table.push hash (key,⟨value,none⟩)).withinLoad = true := by
      have hlen := @HashTable.push_length hash e.table (key,⟨value,none⟩)
      have hsize : (e.table.push hash (key,⟨value,none⟩)).size = e.table.size+1 := rfl
      rw [HashTable.withinLoad,hlen,hsize,e.valid.counted]
      exact decide_eq_true hroom
    simp only [hload,if_true]
    exact HashTable.push_length e.table _

theorem run_set (env : Env) (s : Server hash) (k v : Bytes) :
    ∃ r, (dispatch env ⟨.set,bytes "SET",[k,v]⟩).run s =
      .ok r { s.recordCommand with storage := (s.storage.set k v).1 } := ⟨_,rfl⟩

theorem length_le_one {l : List Bytes} (hd : l.Nodup) {q : Bytes} (h : ∀ x ∈ l, x = q) :
    l.length ≤ 1 := by
  rcases l with _ | ⟨a,_ | ⟨b,l⟩⟩
  · simp
  · simp
  · have hab : a = b := (h a (by simp)).trans (h b (by simp)).symm
    simp [hab] at hd

theorem ahead_lone {e : StorageEngine hash} {q : Bytes} (h : ∀ k, k ∈ e.toMap → k = q)
    {c : ScanCursor} (hb : e.table.bucketIndex hash q = c.bucket) (hpos : 0 < c.chain) :
    KeyScanner.ahead e.table c = [] := by
  rw [List.eq_nil_iff_forall_not_mem]
  intro k hk
  rcases e.valid.mem_ahead.mp hk with hin | ⟨hlater,hmem⟩
  · have hchain : ∀ x ∈ keys (e.table.chain c.bucket), x = q := by
      intro x hx
      exact h x (e.mem_toMap.mpr (e.valid.of_mem_chain hx).2)
    have hlen := length_le_one (e.valid.nodup_chain c.bucket) hchain
    rw [List.drop_of_length_le (by omega)] at hin
    simp at hin
  · rw [h k (e.mem_toMap.mpr hmem)] at hlater
    omega

theorem delete_hides {s : Server hash} (env : Env) (haddr : Addressable s) {p q : Bytes}
    (hkeys : keys s.storage.table.entries = [p,q])
    (hsame : s.storage.table.bucketIndex hash p = s.storage.table.bucketIndex hash q) :
    Iteration q (bytes "*") (fun _ _ _ => True) s (bytes "0") [[p],[]] := by
  have hmem : ∀ k, k ∈ s.storage.toMap ↔ k = p ∨ k = q := fun k => by
    rw [StorageEngine.mem_toMap,hkeys]
    simp
  have hne : q ≠ p := by
    have hd := s.storage.valid.nodup
    rw [hkeys] at hd
    simpa [eq_comm] using hd
  have hleft : ∀ k, k ∈ (s.storage.remove p).1.toMap ↔ k = q := fun k => by
    rw [StorageEngine.toMap_remove,Finmap.mem_erase,hmem]
    constructor
    · intro h
      exact h.2.resolve_left h.1
    · intro h
      exact ⟨h ▸ hne,Or.inr h⟩
  have hcount := s.storage.bucketCount_remove p
  obtain ⟨r,hdel⟩ := run_delete env s.recordCommand p
  obtain ⟨c,hpos,hle,h⟩ := @two_pages hash s _ env _ q p r [q] (fun _ _ _ => True) haddr
    (Nat.le_trans (Nat.le_of_eq hcount) haddr) hkeys (by simp) (by simp) (fun _ => trivial) hdel
    ((hmem q).mpr (Or.inr rfl)) ((hleft q).mpr rfl)
  -- the page ended in the chain of the two keys, and only `q` is left there, in front
  have hidx : s.storage.table.bucketIndex hash q = c.bucket := by
    obtain ⟨n,hn⟩ := List.exists_mem_of_length_pos (Nat.lt_of_lt_of_le hpos hle)
    obtain ⟨hi,hk⟩ := s.storage.valid.of_mem_chain (List.mem_map.mpr ⟨n,hn,rfl⟩)
    rcases (hmem n.1).mp (s.storage.mem_toMap.mpr hk) with heq | heq
    · rw [← hi,heq,hsame]
    · rw [← hi,heq]
  have hlone : KeyScanner.ahead (s.storage.remove p).1.table c = [] := by
    refine ahead_lone (fun k hk => (hleft k).mp hk) ?_ hpos
    have hlen : (s.storage.remove p).1.table.buckets.length = s.storage.table.buckets.length :=
      hcount
    rw [← hidx,HashTable.bucketIndex,hlen]
    rfl
  exact hlone ▸ h

theorem exists_collision (hash : Bytes → Nat) {n : Nat} (hn : 0 < n) :
    ∃ x y : Bytes, x ≠ y ∧ hash x % n = hash y % n := by
  obtain ⟨i,j,hne,heq⟩ := Fintype.exists_ne_map_eq_of_card_lt
    (fun i : Fin (n+1) => (⟨hash (Decimal.print i) % n,Nat.mod_lt _ hn⟩ : Fin n)) (by simp)
  refine ⟨Decimal.print i,Decimal.print j,fun h => hne ?_,congrArg Fin.val heq⟩
  exact Fin.ext (Decimal.print_injective h)

def holding (hash : Bytes → Nat) (x y : Bytes) : Server hash :=
  { create hash {} with
    storage := (StorageEngine.create hash).setAll [(x,bytes "1"),(y,bytes "2")] }

theorem holding_bucketCount (x y : Bytes) :
    (holding hash x y).storage.table.bucketCount ∣ 16384 := by
  have hset : ∀ (e : StorageEngine hash) (k v : Bytes) (m : Nat), e.table.bucketCount ∣ m →
      (e.set k v).1.table.bucketCount ∣ m*2 := by
    intro e k v m hm
    rw [StorageEngine.set_table]
    rcases e.valid.inserted_cases k ⟨v,none⟩ with ⟨hcount,-⟩ | hcount <;> rw [hcount]
    · exact Nat.dvd_trans hm (Nat.dvd_mul_right m 2)
    · exact Nat.mul_dvd_mul_right hm 2
  have hstart : (StorageEngine.create hash).table.bucketCount ∣ 4096 :=
    Dvd.intro 1 ((Nat.mul_one _).trans (HashTable.bucketCount_create (by decide)))
  exact hset _ y (bytes "2") 8192 (hset _ x (bytes "1") 4096 hstart)

theorem mem_holding (x y k : Bytes) :
    k ∈ (holding hash x y).storage.toMap ↔ k = x ∨ k = y := by
  have hmap : (holding hash x y).storage.toMap =
      ((∅ : Map StorageEntry).insert x ⟨bytes "1",none⟩).insert y ⟨bytes "2",none⟩ := by
    simp [holding,StorageEngine.setAll]
  rw [hmap,Finmap.mem_insert,Finmap.mem_insert]
  simp [Finmap.notMem_empty,or_comm]

theorem le_bucketCount_holding (x y : Bytes) :
    4096 ≤ (holding hash x y).storage.table.bucketCount :=
  calc 4096 = (StorageEngine.create hash).table.bucketCount :=
        (HashTable.bucketCount_create (by decide)).symm
    _ ≤ ((StorageEngine.create hash).set x (bytes "1")).1.table.bucketCount :=
        (StorageEngine.bucketCount_set _ _ _).1
    _ ≤ (holding hash x y).storage.table.bucketCount := (StorageEngine.bucketCount_set _ _ _).1

theorem addressable_holding (x y : Bytes) : Addressable (holding hash x y) :=
  Nat.le_trans (Nat.le_of_dvd (by decide) (holding_bucketCount x y)) (by decide)

theorem holding_entries {x y : Bytes} (hne : x ≠ y) :
    ∃ p q, keys (holding hash x y).storage.table.entries = [p,q] ∧
      ∀ k, k ∈ [p,q] ↔ k = x ∨ k = y := by
  have hmem : ∀ k, k ∈ keys (holding hash x y).storage.table.entries ↔ k ∈ [x,y] := fun k => by
    rw [← StorageEngine.mem_toMap,mem_holding]
    simp
  have hperm := (List.perm_ext_iff_of_nodup (holding hash x y).storage.valid.nodup
    (show [x,y].Nodup by simpa using hne)).mpr hmem
  obtain ⟨p,q,hpq⟩ := List.length_eq_two.mp hperm.length_eq
  refine ⟨p,q,hpq,fun k => ?_⟩
  rw [← hpq,hmem,List.mem_pair]

theorem exists_delete_miss (hash : Bytes → Nat) (env : Env) :
    ∃ (s : Server hash) (key : Bytes) (pages : List (List Bytes)),
      Iteration key (bytes "*") (fun _ _ _ => True) s (bytes "0") pages ∧
        KeyScanner.keyMatches key (bytes "*") = true ∧ key ∉ pages.flatten := by
  obtain ⟨x,y,hne,hhash⟩ := exists_collision hash (show 0 < 16384 by decide)
  have hdvd := @holding_bucketCount hash x y
  obtain ⟨p,q,hpq,hmem⟩ := @holding_entries hash x y hne
  have hindex : ∀ k, k ∈ [p,q] → (holding hash x y).storage.table.bucketIndex hash k =
      (hash x % 16384) % (holding hash x y).storage.table.bucketCount := by
    intro k hk
    rcases (hmem k).mp hk with rfl | rfl
    · exact (Nat.mod_mod_of_dvd _ hdvd).symm
    · rw [hhash]
      exact (Nat.mod_mod_of_dvd _ hdvd).symm
  refine ⟨_,q,_,delete_hides env (addressable_holding x y) hpq ?_,keyMatches_star q,?_⟩
  · rw [hindex p (by simp),hindex q (by simp)]
  · have hnodup := (holding hash x y).storage.valid.nodup
    rw [hpq] at hnodup
    simp at hnodup ⊢
    exact fun h => hnodup h.symm

end Server

section
variable {t : HashTable}

theorem HashTable.Sound.entries_zero (h : t.Sound (fun _ => 0)) : t.entries = t.chain 0 := by
  have hroomy := h.roomy
  have hplaced := h.placed
  unfold HashTable.entries HashTable.chain
  rcases hb : t.buckets with _ | ⟨b,bs⟩
  · simp
  · have hempty : bs.flatten = [] := by
      rw [List.eq_nil_iff_forall_not_mem]
      intro n hn
      rw [hb] at hplaced
      have hclass := hplaced.tail.class_le (List.mem_map.mpr ⟨n,hn,rfl⟩)
      simp at hclass
    simp [hempty]

theorem HashTable.Sound.push_zero (h : t.Sound (fun _ => 0)) {n : Node}
    (hn : n.1 ∉ keys t.entries) : (t.push (fun _ => 0) n).entries = n :: t.entries := by
  have hidx : t.bucketIndex (fun _ => 0) n.1 = 0 := Nat.zero_mod _
  rw [(h.sound_push hn).entries_zero,h.entries_zero,HashTable.push,
    HashTable.chain_set (h.index_lt n.1),hidx]
  simp

theorem HashTable.Sound.foldl_push_zero {l : List Node} {t : HashTable}
    (h : t.Sound (fun _ => 0)) (hd : (keys l).Nodup)
    (hfresh : ∀ k ∈ keys l, k ∉ keys t.entries) :
    (l.foldl (HashTable.push (fun _ => 0)) t).entries = l.reverse ++ t.entries := by
  induction l generalizing t with
  | nil => rfl
  | cons n l ih =>
    simp only [keys_cons,List.nodup_cons] at hd
    have hn : n.1 ∉ keys t.entries := hfresh n.1 (by simp)
    have hrest : ∀ k ∈ keys l, k ∉ keys (t.push (fun _ => 0) n).entries := fun k hk =>
      h.not_mem_push (fun he => hd.1 (he ▸ hk)) (hfresh k (by simp [hk])) hn
    rw [List.foldl_cons,ih (h.sound_push hn) hd.2 hrest,h.push_zero hn]
    simp

theorem HashTable.Sound.rebuilt_zero (h : t.Sound (fun _ => 0)) :
    (t.rebuilt (fun _ => 0)).entries = t.entries.reverse := by
  have hroom : 16 ≤ t.buckets.length*2 := by have := h.roomy; omega
  rw [HashTable.rebuilt,(HashTable.sound_empty hroom).foldl_push_zero h.nodup
    (by simp [HashTable.entries_empty]),HashTable.entries_empty,List.append_nil]

theorem HashTable.Valid.inserted_zero (h : t.Valid (fun _ => 0)) {key : Bytes}
    (hk : key ∉ keys t.entries) (entry : StorageEntry) :
    (4*(t.size+1) ≤ 3*t.bucketCount →
      keys (t.inserted (fun _ => 0) key entry).entries = key :: keys t.entries ∧
        (t.inserted (fun _ => 0) key entry).bucketCount = t.bucketCount) ∧
    (3*t.bucketCount < 4*(t.size+1) →
      keys (t.inserted (fun _ => 0) key entry).entries = (key :: keys t.entries).reverse) := by
  have hnone := h.replace_none hk entry
  have hpush := h.push_zero (n := (key,entry)) hk
  have hload : (t.push (fun _ => 0) (key,entry)).withinLoad =
      decide (4*(t.size+1) ≤ 3*t.bucketCount) := by
    rw [Bool.eq_iff_iff,decide_eq_true_iff]
    simp [HashTable.withinLoad,HashTable.push,HashTable.bucketCount]
  have hturn := (h.sound_push (n := (key,entry)) hk).rebuilt_zero
  simp only [HashTable.inserted,hnone,hload]
  constructor
  · intro hroom
    simp only [hroom,decide_true,if_true,hpush]
    exact ⟨rfl,HashTable.push_length t _⟩
  · intro hfull
    have hno : ¬ 4*(t.size+1) ≤ 3*t.bucketCount := by omega
    simp only [hno,decide_false,Bool.false_eq_true,if_false,hturn,hpush]
    simp [keys]

end

theorem StorageEngine.setAll_zero {pairs : List (Bytes × Bytes)}
    {e : StorageEngine (fun _ => 0)} (hd : (keys pairs).Nodup)
    (hfresh : ∀ k ∈ keys pairs, k ∉ keys e.table.entries)
    (hroom : 4*(e.table.size+pairs.length) ≤ 3*e.table.bucketCount) :
    keys (e.setAll pairs).table.entries = (keys pairs).reverse ++ keys e.table.entries ∧
      (e.setAll pairs).table.bucketCount = e.table.bucketCount := by
  induction pairs generalizing e with
  | nil => exact ⟨rfl,rfl⟩
  | cons p pairs ih =>
    simp only [keys_cons,List.nodup_cons,List.length_cons] at hd hroom
    obtain ⟨hkeys,hcount⟩ := (e.valid.inserted_zero (hfresh p.1 (by simp)) ⟨p.2,none⟩).1 (by omega)
    rw [← StorageEngine.set_table] at hkeys hcount
    have hsize : (e.set p.1 p.2).1.table.size = e.table.size+1 := by
      have hlen := congrArg List.length hkeys
      rw [length_keys,List.length_cons,length_keys] at hlen
      rw [(e.set p.1 p.2).1.valid.counted,e.valid.counted,hlen]
    have hrest : ∀ k ∈ keys pairs, k ∉ keys (e.set p.1 p.2).1.table.entries := by
      intro k hk
      rw [hkeys,List.mem_cons,not_or]
      exact ⟨fun he => hd.1 (he ▸ hk),hfresh k (by simp [hk])⟩
    obtain ⟨hall,hsame⟩ := ih hd.2 hrest (by omega)
    have hnext : e.setAll (p :: pairs) = (e.set p.1 p.2).1.setAll pairs := rfl
    rw [hnext]
    refine ⟨?_,hsame.trans hcount⟩
    rw [hall,hkeys]
    simp

namespace Server

def numerals (n : Nat) : Server (fun _ => 0) :=
  { create (fun _ => 0) {} with
    storage := (StorageEngine.create (fun _ => 0)).setAll
      ((List.range (n+1)).map (fun i => (Decimal.print i,bytes "1"))) }

theorem keys_numerals (n : Nat) :
    keys ((List.range (n+1)).map (fun i => (Decimal.print i,bytes "1"))) =
      (List.range (n+1)).map Decimal.print := by
  simp [keys,Function.comp_def]

theorem nodup_numerals (n : Nat) : ((List.range n).map Decimal.print).Nodup :=
  List.nodup_range.map fun _ _ h => Decimal.print_injective h

theorem numerals_entries {n : Nat} (hn : 4*(n+1) ≤ 3*4096) :
    keys (numerals n).storage.table.entries = ((List.range (n+1)).map Decimal.print).reverse ∧
      (numerals n).storage.table.bucketCount = 4096 := by
  have hempty : (StorageEngine.create (fun _ => 0)).table.entries = [] :=
    HashTable.entries_empty _
  have hcount : (StorageEngine.create (fun _ => 0)).table.bucketCount = 4096 :=
    HashTable.bucketCount_create (by decide)
  have hsize : (StorageEngine.create (fun _ => 0)).table.size = 0 := rfl
  have hall := @StorageEngine.setAll_zero
    ((List.range (n+1)).map (fun i => (Decimal.print i,bytes "1"))) (StorageEngine.create (fun _ => 0))
    (by rw [keys_numerals]; exact nodup_numerals (n+1)) (by simp [hempty])
    (by rw [hcount,hsize,List.length_map,List.length_range]; omega)
  rw [keys_numerals,hempty,hcount] at hall
  simpa [numerals] using hall

theorem numerals_turned {n : Nat} (hroom : 4*(n+1) ≤ 3*4096) (hfull : 3*4096 < 4*(n+2)) :
    keys ((numerals n).storage.set (Decimal.print (n+1)) (bytes "1")).1.table.entries =
      Decimal.print 0 :: (List.range (n+1)).map (fun i => Decimal.print (i+1)) := by
  obtain ⟨hentries,hcount⟩ := numerals_entries hroom
  have hfresh : Decimal.print (n+1) ∉ keys (numerals n).storage.table.entries := by
    rw [hentries,List.mem_reverse,List.mem_map]
    intro ⟨i,hi,heq⟩
    have hin := Decimal.print_injective heq
    rw [List.mem_range] at hi
    omega
  have hsize : (numerals n).storage.table.size = n+1 := by
    rw [(numerals n).storage.valid.counted,← length_keys,hentries]
    simp
  have hcase := ((numerals n).storage.valid.inserted_zero hfresh ⟨bytes "1",none⟩).2
    (by rw [hcount,hsize]; omega)
  rw [StorageEngine.set_table,hcase,hentries,List.reverse_cons,List.reverse_reverse,
    ← List.map_singleton,← List.map_append,← List.range_succ,List.range_succ_eq_map]
  simp [Function.comp_def]

theorem head_notMem_ahead {e : StorageEngine (fun _ => 0)} {q : Bytes} {rest : List Bytes}
    (h : keys e.table.entries = q :: rest) {c : ScanCursor} (hpos : 0 < c.chain) :
    q ∉ KeyScanner.ahead e.table c := by
  have hd := e.valid.nodup
  rw [h,List.nodup_cons] at hd
  rw [e.valid.mem_ahead]
  intro hahead
  rcases hahead with hin | ⟨hlater,-⟩
  · by_cases hb : c.bucket = 0
    · obtain ⟨o,ho⟩ := Nat.exists_eq_succ_of_ne_zero (Nat.ne_of_gt hpos)
      rw [hb,← e.valid.entries_zero,h,ho,List.drop_succ_cons] at hin
      exact hd.1 (List.mem_of_mem_drop hin)
    · have hidx := (e.valid.of_mem_chain (List.mem_of_mem_drop hin)).1
      rw [HashTable.bucketIndex,Nat.zero_mod] at hidx
      omega
  · rw [HashTable.bucketIndex,Nat.zero_mod] at hlater
    omega

theorem rehash_hides {n : Nat} (env : Env) (hpos : 0 < n) (hroom : 4*(n+1) ≤ 3*4096)
    (hfull : 3*4096 < 4*(n+2)) :
    ∃ pages, Iteration (Decimal.print 0) (bytes "*") (fun _ _ _ => True) (numerals n) (bytes "0")
        pages ∧ Decimal.print 0 ∉ pages.flatten := by
  obtain ⟨hentries,hcount⟩ := numerals_entries hroom
  have hkeys : keys (numerals n).storage.table.entries =
      Decimal.print n :: ((List.range n).map Decimal.print).reverse := by
    rw [hentries,List.range_succ]
    simp
  have hturned := numerals_turned hroom hfull
  have haddr : Addressable (numerals n) := by
    unfold Addressable
    rw [hcount]
    decide
  let u : Server (fun _ => 0) := { (numerals n).recordCommand.recordCommand with
    storage := ((numerals n).storage.set (Decimal.print (n+1)) (bytes "1")).1 }
  obtain ⟨r,hset⟩ : ∃ r, (dispatch env ⟨.set,bytes "SET",[Decimal.print (n+1),bytes "1"]⟩).run
      (numerals n).recordCommand = .ok r u := ⟨_,rfl⟩
  have haddr' : Addressable u := by
    have hle : u.storage.table.bucketCount ≤ _ := ((numerals n).storage.bucketCount_set _ _).2
    rw [hcount] at hle
    exact Nat.le_trans hle (by decide)
  have hstart : Decimal.print 0 ∈ (numerals n).storage.toMap := by
    rw [StorageEngine.mem_toMap,hentries,List.mem_reverse]
    exact List.mem_map.mpr ⟨0,by simp,rfl⟩
  have hstays : Decimal.print 0 ∈ u.storage.toMap := by
    rw [StorageEngine.mem_toMap,hturned]
    simp
  obtain ⟨c,hc,-,h⟩ := @two_pages _ (numerals n) u env _ (Decimal.print 0) _ r _
    (fun _ _ _ => True) haddr haddr' hkeys (by simp; omega) (by simp) (fun _ => trivial) hset
    hstart hstays
  refine ⟨_,h,?_⟩
  have hmissed := head_notMem_ahead hturned hc
  simp only [List.flatten_cons,List.flatten_nil,List.append_nil,List.mem_append,
    List.mem_singleton,not_or]
  exact ⟨fun heq => absurd (Decimal.print_injective heq) (by omega),hmissed⟩

/-- A key that stays in the table is returned, unless a write between the pages moves
it to before the position of the pending token. -/
theorem scan_returns_stable_keys {hash : Bytes → Nat} {key pattern : Bytes} {s : Server hash}
    {pages : List (List Bytes)} (hmatch : KeyScanner.keyMatches key pattern = true)
    (h : Iteration key pattern (Gentle key) s (bytes "0") pages) : key ∈ pages.flatten := by
  have hpresent : key ∈ s.storage.toMap := by
    cases h with
    | last hpresent _ _ _ _ => exact hpresent
    | more hpresent _ _ _ _ _ _ _ _ => exact hpresent
  refine iteration_returns hmatch h decodeScanCursor_zero ?_
  rw [KeyScanner.ahead_start]
  exact s.storage.mem_toMap.mp hpresent

/-- Two keys of one chain: after the page with the first of them a SET puts a third in front
of it. -/
theorem scan_returns_stable_keys_example :
    ∃ pages, Iteration (bytes "a") (bytes "*") (Gentle (bytes "a"))
      (holding (fun _ => 0) (bytes "a") (bytes "b")) (bytes "0") pages ∧
        bytes "a" ∈ pages.flatten := by
  obtain ⟨p,q,hpq,-⟩ := @holding_entries (fun _ => 0) (bytes "a") (bytes "b") (by decide)
  have hmem := @mem_holding (fun _ => 0) (bytes "a") (bytes "b")
  have haddr := @addressable_holding (fun _ => 0) (bytes "a") (bytes "b")
  have hroom := @le_bucketCount_holding (fun _ => 0) (bytes "a") (bytes "b")
  generalize holding (fun _ => 0) (bytes "a") (bytes "b") = s at hpq hmem haddr hroom ⊢
  have hlen : s.storage.table.entries.length = 2 := by
    have h := congrArg List.length hpq
    rwa [keys,List.length_map] at h
  have hcount := bucketCount_set_of_room (e := s.storage) (bytes "c") (bytes "3")
    (by rw [hlen]; omega)
  obtain ⟨r,hset⟩ := run_set ⟨fun _ => 0,.success⟩ s.recordCommand (bytes "c") (bytes "3")
  have hstays : bytes "a" ∈ (s.storage.set (bytes "c") (bytes "3")).1.toMap := by
    rw [StorageEngine.toMap_set,Finmap.mem_insert,hmem]
    exact Or.inr (Or.inl rfl)
  have hgentle : ∀ token, Gentle (bytes "a") token s.recordCommand
      (⟨fun _ => 0,.success⟩,⟨.set,bytes "SET",[bytes "c",bytes "3"]⟩) := by
    refine fun token c _ _ => ⟨fun k hdelete => (by cases hdelete),fun reply t ht => ?_⟩
    rw [hset] at ht
    cases ht
    exact hcount
  obtain ⟨c,-,-,h⟩ := @two_pages _ s _ _ _ (bytes "a") p r [q] (Gentle (bytes "a")) haddr
    (Nat.le_trans (Nat.le_of_eq hcount) haddr) hpq (by simp) (by simp) hgentle hset
    ((hmem (bytes "a")).mpr (Or.inl rfl)) hstays
  exact ⟨_,h,scan_returns_stable_keys (keyMatches_star _) h⟩

/-- A stable key can be missed: by a deletion whatever the hash is, and by a rehash. -/
theorem scan_misses_stable_key :
    (∀ hash : Bytes → Nat, ∃ (s : Server hash) (key : Bytes) (pages : List (List Bytes)),
      Iteration key (bytes "*") (fun _ _ _ => True) s (bytes "0") pages ∧
        KeyScanner.keyMatches key (bytes "*") = true ∧ key ∉ pages.flatten) ∧
    ∃ pages, Iteration (Decimal.print 0) (bytes "*") (fun _ _ _ => True) (numerals 3071)
      (bytes "0") pages ∧ Decimal.print 0 ∉ pages.flatten :=
  ⟨fun hash => exists_delete_miss hash ⟨fun _ => 0,.success⟩,
    rehash_hides ⟨fun _ => 0,.success⟩ (by decide) (by decide) (by decide)⟩

end Server
end VoltDBX
