import VoltDBX.Dispatcher
import VoltDBX.Tokens

/-!
The client's side of a scan: replies are read back, and the cursor token of one
page is the first argument of the next command.
-/

set_option autoImplicit false

namespace VoltDBX
open KeyedList

def readCount (mark : UInt8) (s : Bytes) : Option (Nat × Bytes) :=
  match s with
  | [] => none
  | c :: r =>
    if c ≠ mark then none
    else match r.dropWhile Decimal.isDigit with
      | 13 :: 10 :: rest => some (Decimal.value (r.takeWhile Decimal.isDigit),rest)
      | _ => none

def readBulk (s : Bytes) : Option (Bytes × Bytes) := do
  let (n,r) ← readCount 36 s
  match r.drop n with
  | 13 :: 10 :: rest => some (r.take n,rest)
  | _ => none

def readBulks : Nat → Bytes → Option (List Bytes × Bytes)
  | 0, s => some ([],s)
  | n+1, s => do
    let (value,r) ← readBulk s
    let (values,rest) ← readBulks n r
    some (value :: values,rest)

/-- The cursor token and the keys of a page. -/
def readScanResponse (s : Bytes) : Option (Bytes × List Bytes) := do
  let (_,r) ← readCount 42 s
  let (token,r) ← readBulk r
  let (n,r) ← readCount 42 r
  let (ks,_) ← readBulks n r
  some (token,ks)

theorem readCount_print (mark : UInt8) (n : Nat) (tail : Bytes) :
    readCount mark (mark :: (Decimal.print n ++ crlf ++ tail)) = some (n,tail) := by
  have hd : ∀ c ∈ Decimal.print n, Decimal.isDigit c = true := fun c hc =>
    Decimal.print_isDigit hc
  have htake : (Decimal.print n ++ (crlf ++ tail)).takeWhile Decimal.isDigit = Decimal.print n :=
    Decimal.takeWhile_digits hd (by simp [crlf]; decide)
  have hdrop : (Decimal.print n ++ (crlf ++ tail)).dropWhile Decimal.isDigit = crlf ++ tail := by
    rw [List.dropWhile_append_of_pos hd]
    rfl
  simp only [readCount,ne_eq,not_true,if_false,List.append_assoc,htake,hdrop,Decimal.value_print]
  rfl

theorem readBulk_bulkStringResponse (value tail : Bytes) :
    readBulk (bulkStringResponse value ++ crlf ++ tail) = some (value,tail) := by
  have htext : bulkStringResponse value ++ crlf ++ tail =
      36 :: (Decimal.print value.length ++ crlf ++ (value ++ crlf ++ tail)) := by
    have hdollar : bytes "$" = [36] := by decide
    simp [bulkStringResponse,hdollar]
  rw [readBulk,htext,readCount_print]
  simp [crlf]

theorem readBulks_flatMap (values : List Bytes) (tail : Bytes) :
    readBulks values.length (values.flatMap (fun v => bulkStringResponse v ++ crlf) ++ tail) =
      some (values,tail) := by
  induction values with
  | nil => rfl
  | cons value values ih =>
    have htext : (value :: values).flatMap (fun v => bulkStringResponse v ++ crlf) ++ tail =
        bulkStringResponse value ++ crlf ++
          (values.flatMap (fun v => bulkStringResponse v ++ crlf) ++ tail) := by simp
    rw [List.length_cons,readBulks,htext,readBulk_bulkStringResponse]
    simp [ih]

theorem readScanResponse_scanResponse (token : Bytes) (ks : List Bytes) :
    readScanResponse (scanResponse token ks) = some (token,ks) := by
  have htext : scanResponse token ks =
      42 :: (Decimal.print 2 ++ crlf ++ (bulkStringResponse token ++ crlf ++
        (42 :: (Decimal.print ks.length ++ crlf ++
          (ks.flatMap (fun k => bulkStringResponse k ++ crlf) ++ []))))) := by
    have htwo : bytes "*2" = 42 :: Decimal.print 2 := by decide
    have hstar : bytes "*" = [42] := by decide
    simp [scanResponse,htwo,hstar]
  rw [readScanResponse,htext]
  simp only [readCount_print,readBulk_bulkStringResponse,readBulks_flatMap,Option.bind_eq_bind,
    Option.bind_some]

theorem colon_notMem_print (n : Nat) : colon ∉ Decimal.print n := fun hmem =>
  absurd (Decimal.print_isDigit hmem) (by decide)

theorem encodeScanCursor_of_ne {c : ScanCursor} (h : c ≠ ⟨0,0⟩) :
    encodeScanCursor c = Decimal.print c.bucket ++ colon :: Decimal.print c.chain := by
  have hne : ¬ (c.bucket = 0 ∧ c.chain = 0) := by
    obtain ⟨bucket,chain⟩ := c
    rintro ⟨rfl,rfl⟩
    exact h rfl
  have hcolon : bytes ":" = [colon] := by decide
  simp [encodeScanCursor,hne,hcolon]

theorem encodeScanCursor_eq_zero_iff {c : ScanCursor} :
    encodeScanCursor c = bytes "0" ↔ c = ⟨0,0⟩ := by
  constructor
  · intro heq
    by_contra h
    have hmem : colon ∈ bytes "0" := by
      rw [← heq,encodeScanCursor_of_ne h]
      simp
    exact absurd hmem (by decide)
  · intro h
    rw [h]
    rfl

theorem encodeScanCursor_ne_zero {c : ScanCursor} (h : 0 < c.chain) :
    encodeScanCursor c ≠ bytes "0" := by
  intro heq
  rw [encodeScanCursor_eq_zero_iff.mp heq] at h
  exact absurd h (Nat.lt_irrefl 0)

theorem decodeScanCursor_encode {c : ScanCursor} (h : c ≠ ⟨0,0⟩) :
    decodeScanCursor (encodeScanCursor c) =
      do return ⟨← stoull (Decimal.print c.bucket),← stoull (Decimal.print c.chain)⟩ := by
  obtain ⟨htake,hdrop⟩ := split_first (p := notColon) (fun _ => rfl)
    (colon_notMem_print c.bucket) (Decimal.print c.chain)
  have hne : ¬ (encodeScanCursor c = [] ∨ encodeScanCursor c = bytes "0") := by
    rintro (hnil | hzero)
    · simp [encodeScanCursor_of_ne h] at hnil
    · exact h (encodeScanCursor_eq_zero_iff.mp hzero)
  rw [decodeScanCursor,if_neg hne,encodeScanCursor_of_ne h,hdrop,htake]

theorem decodeScanCursor_zero : decodeScanCursor (bytes "0") = .ok ⟨0,0⟩ := rfl

theorem decodeScanCursor_of_lt {c : ScanCursor} (hb : c.bucket < 2^64) (hc : c.chain < 2^64) :
    decodeScanCursor (encodeScanCursor c) = .ok c := by
  by_cases h : c = ⟨0,0⟩
  · rw [encodeScanCursor_eq_zero_iff.mpr h,h]
    exact decodeScanCursor_zero
  · rw [decodeScanCursor_encode h,stoull_print hb,stoull_print hc]
    rfl

theorem stoull_print_inj {n m : Nat} (h : stoull (Decimal.print n) = .ok m) : m = n := by
  by_cases hn : n < 2^64
  · rw [stoull_print hn] at h
    cases h
    rfl
  · simp only [stoull,numeral_print,Decimal.print_ne_nil,Decimal.value_print,hn,if_false] at h
    cases h

theorem decodeScanCursor_inj {c c' : ScanCursor}
    (hc : decodeScanCursor (encodeScanCursor c) = .ok c') : c' = c := by
  by_cases h : c = ⟨0,0⟩
  · rw [encodeScanCursor_eq_zero_iff.mpr h,decodeScanCursor_zero] at hc
    cases hc
    exact h.symm
  rw [decodeScanCursor_encode h] at hc
  cases hb : stoull (Decimal.print c.bucket) with
  | error x =>
    rw [hb] at hc
    cases hc
  | ok bucket =>
    cases ho : stoull (Decimal.print c.chain) with
    | error x =>
      rw [hb,ho] at hc
      cases hc
    | ok chain =>
      rw [hb,ho] at hc
      cases hc
      rw [stoull_print_inj hb,stoull_print_inj ho]

theorem encodeScanCursor_injective : Function.Injective encodeScanCursor := by
  intro c d h
  by_cases hc : c = ⟨0,0⟩
  · rw [encodeScanCursor_eq_zero_iff.mpr hc,eq_comm,encodeScanCursor_eq_zero_iff] at h
    rw [hc,h]
  · have hd : d ≠ ⟨0,0⟩ := by
      intro hzero
      rw [encodeScanCursor_eq_zero_iff.mpr hzero,encodeScanCursor_eq_zero_iff] at h
      exact hc h
    rw [encodeScanCursor_of_ne hc,encodeScanCursor_of_ne hd] at h
    -- the first colon is the one that was put between the numbers
    obtain ⟨htake,hdrop⟩ := split_first (p := notColon) (fun _ => rfl)
      (colon_notMem_print c.bucket) (Decimal.print c.chain)
    obtain ⟨htake',hdrop'⟩ := split_first (p := notColon) (fun _ => rfl)
      (colon_notMem_print d.bucket) (Decimal.print d.chain)
    rw [h,htake'] at htake
    rw [h,hdrop',List.cons.injEq] at hdrop
    have hbucket : d.bucket = c.bucket := Decimal.print_injective htake
    have hchain : d.chain = c.chain := Decimal.print_injective hdrop.2
    obtain ⟨bucket,chain⟩ := d
    dsimp only at hbucket hchain
    rw [hbucket,hchain]

theorem isToken_encodeScanCursor (c : ScanCursor) : IsToken (encodeScanCursor c) := by
  by_cases h : c = ⟨0,0⟩
  · have hzero : bytes "0" = [48] := by decide
    rw [encodeScanCursor_eq_zero_iff.mpr h,hzero]
    refine ⟨List.cons_ne_nil _ _,?_⟩
    intro b hb
    rw [List.mem_singleton.mp hb]
    decide
  · rw [encodeScanCursor_of_ne h]
    refine ⟨by simp,?_⟩
    intro b hb
    rcases List.mem_append.mp hb with hb | hb
    · exact isDigit_not_isspace (Decimal.print_isDigit hb)
    · rcases List.mem_cons.mp hb with rfl | hb
      · decide
      · exact isDigit_not_isspace (Decimal.print_isDigit hb)

open Words in
/-- The token of a cursor of two 64-bit numbers is read back as that cursor. Different cursors
have different tokens, only the first one has `0`, and each is an argument that stays whole
wherever it stands in a command line. -/
theorem cursor_tokens_round_trip :
    (∀ c : ScanCursor, c.bucket < 2^64 → c.chain < 2^64 →
      decodeScanCursor (encodeScanCursor c) = .ok c) ∧
    Function.Injective encodeScanCursor ∧
    (∀ c, encodeScanCursor c = bytes "0" ↔ c = ⟨0,0⟩) ∧
    (∀ c, IsToken (encodeScanCursor c)) ∧
    ∀ c lead name before sep after trail, IsBlank isspace lead → IsBlank isspace trail →
      IsToken name → (∀ p ∈ before ++ after, p.1 ≠ [] ∧ IsBlank isspace p.1 ∧ IsToken p.2) →
      sep ≠ [] → IsBlank isspace sep →
      parseLine (rendered lead name (before ++ (sep,encodeScanCursor c) :: after) trail) =
        some ⟨commandTypeFromName name,name,
          before.map Prod.snd ++ encodeScanCursor c :: after.map Prod.snd⟩ := by
  refine ⟨fun c hb hc => decodeScanCursor_of_lt hb hc,encodeScanCursor_injective,
    fun c => encodeScanCursor_eq_zero_iff,isToken_encodeScanCursor,?_⟩
  intro c lead name before sep after trail hlead htrail hname hrest hsep hblank
  have hall : ∀ p ∈ before ++ (sep,encodeScanCursor c) :: after,
      p.1 ≠ [] ∧ IsBlank isspace p.1 ∧ IsToken p.2 := by
    intro p hp
    rcases List.mem_append.mp hp with hp | hp
    · exact hrest p (List.mem_append_left _ hp)
    · rcases List.mem_cons.mp hp with rfl | hp
      · exact ⟨hsep,hblank,isToken_encodeScanCursor c⟩
      · exact hrest p (List.mem_append_right _ hp)
  have hlayout := layout_rendered _ lead name trail hlead htrail hname hall
  rw [List.map_append,List.map_cons] at hlayout
  exact parseLine_of_layout hlayout

namespace Server
variable {hash : Bytes → Nat}

def scanCommand (token : Bytes) (options : List Bytes) : ParsedCommand :=
  ⟨.scan,bytes "SCAN",token :: options⟩

theorem run_onStorage_converting {f : StorageEngine hash → Except Raised Bytes} {s : Server hash}
    {reply : Bytes} (h : f s.storage = .ok reply) :
    (onStorage (converting f)).run s = .ok reply s := by
  rw [onStorage,run_focus,run_converting,h,run_convert_ok]
  rfl

theorem handleScan_eq {token : Bytes} {options : List Bytes} {c : ScanCursor} {count : Nat}
    {pattern : Bytes} (hc : decodeScanCursor token = .ok c)
    (ho : scanOptions options 10 (bytes "*") = .ok (count,pattern)) (e : StorageEngine hash) :
    handleScan (scanCommand token options) e =
      .ok (scanResponse (scanToken (KeyScanner.scan e.table c count pattern))
        (KeyScanner.scan e.table c count pattern).keys) := by
  simp only [handleScan,scanCommand,hc,ho,bind,Except.bind,pure,Except.pure]

theorem dispatch_scan (env : Env) {token : Bytes} {options : List Bytes} {c : ScanCursor}
    {count : Nat} {pattern : Bytes} (hc : decodeScanCursor token = .ok c)
    (ho : scanOptions options 10 (bytes "*") = .ok (count,pattern)) (s : Server hash) :
    (dispatch env (scanCommand token options)).run s =
      .ok (scanResponse (scanToken (KeyScanner.scan s.storage.table c count pattern))
        (KeyScanner.scan s.storage.table c count pattern).keys) s.recordCommand := by
  have hhandler : handlers env (scanCommand token options) (scanCommand token options).type =
      some (onStorage (converting (@handleScan hash (scanCommand token options)))) := rfl
  rw [run_dispatch,hhandler]
  exact run_onStorage_converting (handleScan_eq hc ho _)

/-- The positions of the table fit the 64 bits of a cursor, as any table in memory does. -/
def Addressable (s : Server hash) : Prop := s.storage.table.bucketCount ≤ 2^64

theorem chain_length_le (t : HashTable) (i : Nat) : (t.chain i).length ≤ t.entries.length := by
  unfold HashTable.chain HashTable.entries
  by_cases hi : i < t.buckets.length
  · rw [List.getD_eq_getElem _ _ hi]
    exact (List.sublist_flatten_of_mem (List.getElem_mem hi)).length_le
  · rw [List.getD_eq_default _ _ (by omega)]
    simp

theorem Addressable.decode {s : Server hash} (h : Addressable s) {c : ScanCursor}
    (hb : c.bucket < s.storage.table.bucketCount)
    (hc : c.chain ≤ (s.storage.table.chain c.bucket).length) :
    decodeScanCursor (encodeScanCursor c) = .ok c := by
  have hlen := chain_length_le s.storage.table c.bucket
  have hcount := s.storage.valid.counted
  have hload := s.storage.valid.loaded
  have hbuckets : s.storage.table.buckets.length ≤ 2^64 := h
  exact decodeScanCursor_of_lt (by unfold Addressable at h; omega) (by omega)

theorem Addressable.ahead_lt {s : Server hash} (h : Addressable s) (c : ScanCursor) :
    (KeyScanner.ahead s.storage.table c).length < 2^64-1 := by
  have hle := KeyScanner.ahead_length_le s.storage.table c
  have hcount := s.storage.valid.counted
  have hload := s.storage.valid.loaded
  have hbuckets : s.storage.table.buckets.length ≤ 2^64 := h
  omega

/-- A client that feeds each cursor token into the next SCAN until it gets `0`. The
`i`-th command has the options `options i`; no more than `fuel` are sent. -/
def scanAll (env : Env) (options : Nat → List Bytes) :
    Nat → Nat → Bytes → Action (Server hash) (Option (List (List Bytes)))
  | 0, _, _ => pure none
  | fuel+1, i, token => do
    let reply ← dispatch env (scanCommand token (options i))
    match readScanResponse reply with
    | none => return none
    | some (next,ks) =>
      if next = bytes "0" then return some [ks]
      else
        let pages ← scanAll env options fuel (i+1) next
        return pages.map (fun pages => ks :: pages)

section
variable {env : Env} {options : Nat → List Bytes} {count : Nat → Nat} {pattern : Bytes}

/-- From any cursor, the pages together hold what the pattern selects of the keys ahead. -/
theorem scanAll_ahead {s : Server hash} (haddr : Addressable s)
    (hopt : ∀ i, scanOptions (options i) 10 (bytes "*") = .ok (count i,pattern))
    (hpos : ∀ i, 1 ≤ count i) (fuel i : Nat) {token : Bytes} {c : ScanCursor}
    (htoken : decodeScanCursor token = .ok c)
    (hfuel : (KeyScanner.ahead s.storage.table c).length < fuel) :
    ∃ pages t, (scanAll env options fuel i token).run s = .ok (some pages) t ∧
      t.storage = s.storage ∧
      pages.flatten = KeyScanner.selected pattern (KeyScanner.ahead s.storage.table c) := by
  induction fuel generalizing i token c s with
  | zero => omega
  | succ fuel ih =>
    have hrun := dispatch_scan env htoken (hopt i) s
    have hcases := KeyScanner.scan_cases s.storage.table c (hpos i) pattern rfl
    generalize KeyScanner.scan s.storage.table c (count i) pattern = page at hrun hcases
    simp only [scanAll,EStateM.run_bind,hrun,readScanResponse_scanResponse]
    rcases hcases with ⟨hfin,hkeys⟩ | ⟨hfin,hlen,hb,hchain,hle,w,hw,hkeys⟩
    · have htok : scanToken page = bytes "0" := by simp [scanToken,hfin]
      simp only [htok,if_true,EStateM.run_pure]
      exact ⟨[page.keys],s.recordCommand,rfl,rfl,by simpa using hkeys⟩
    · -- the page is full, so the keys ahead of the next cursor are fewer
      have htok : scanToken page = encodeScanCursor page.next := by simp [scanToken,hfin]
      have hne := encodeScanCursor_ne_zero hchain
      have hw' : 0 < w.length := by
        have hsel : page.keys.length ≤ w.length := by
          rw [hkeys]
          exact List.length_filter_le _ _
        have := hpos i
        omega
      have hshort := congrArg List.length hw
      rw [List.length_append] at hshort
      obtain ⟨pages,t,hrest,hsame,hflat⟩ := @ih s.recordCommand haddr (i+1) _ page.next
        (haddr.decode hb hle) (show (KeyScanner.ahead s.storage.table page.next).length < fuel by omega)
      simp only [htok,hne,if_false,EStateM.run_bind,hrest,EStateM.run_pure,Option.map_some]
      refine ⟨page.keys :: pages,t,rfl,hsame,?_⟩
      have hahead : KeyScanner.ahead s.recordCommand.storage.table page.next =
          KeyScanner.ahead s.storage.table page.next := rfl
      rw [List.flatten_cons,hflat,hahead,hkeys,hw]
      simp [KeyScanner.selected]

end

/-- A scan of an unchanged table ends, and returns every matching key exactly once. -/
theorem scan_returns_matches_once (s : Server hash) (haddr : Addressable s) (env : Env)
    {pattern : Bytes} {options : Nat → List Bytes} {count : Nat → Nat}
    (hopt : ∀ i, scanOptions (options i) 10 (bytes "*") = .ok (count i,pattern))
    (hpos : ∀ i, 1 ≤ count i) :
    ∃ fuel pages t, (scanAll env options fuel 0 (bytes "0")).run s = .ok (some pages) t ∧
      t.storage = s.storage ∧ pages.flatten.Nodup ∧
      ∀ key, key ∈ pages.flatten ↔
        key ∈ s.storage.toMap ∧ KeyScanner.keyMatches key pattern = true := by
  obtain ⟨pages,t,hrun,hsame,hflat⟩ := scanAll_ahead haddr hopt hpos
    ((KeyScanner.ahead s.storage.table ⟨0,0⟩).length+1) 0 decodeScanCursor_zero (Nat.lt_succ_self _)
  refine ⟨_,pages,t,hrun,hsame,?_,fun key => ?_⟩
  · rw [hflat,KeyScanner.ahead_start]
    exact s.storage.valid.nodup.filter _
  · rw [hflat,KeyScanner.ahead_start,KeyScanner.selected,List.mem_filter,
      StorageEngine.mem_toMap]

theorem scan_returns_matches_once_example :
    let s : Server (fun _ => 0) := { create (fun _ => 0) {} with
      storage := ((StorageEngine.create (fun _ => 0)).set (bytes "ab") (bytes "1")).1 }
    let options : List Bytes := [bytes "MATCH",bytes "a*",bytes "COUNT",bytes "1"]
    ∃ fuel pages t,
      (scanAll ⟨fun _ => 0,.success⟩ (fun _ => options) fuel 0 (bytes "0")).run s =
        .ok (some pages) t ∧ bytes "ab" ∈ pages.flatten := by
  intro s options
  have haddr : Addressable s := by
    have hstart : (StorageEngine.create (fun _ => 0)).table.bucketCount = 4096 :=
      HashTable.bucketCount_create (by decide)
    have hset : s.storage.table.bucketCount ≤ _ :=
      ((StorageEngine.create (fun _ => 0)).bucketCount_set (bytes "ab") (bytes "1")).2
    rw [hstart] at hset
    exact Nat.le_trans hset (by decide)
  have hopt : scanOptions options 10 (bytes "*") = .ok (1,bytes "a*") := rfl
  obtain ⟨fuel,pages,t,hrun,-,-,hkeys⟩ := scan_returns_matches_once s haddr
    ⟨fun _ => 0,.success⟩ (fun _ => hopt) (fun _ => Nat.le_refl 1)
  refine ⟨fuel,pages,t,hrun,(hkeys (bytes "ab")).mpr ⟨?_,by decide⟩⟩
  have hmap : s.storage.toMap = _ := StorageEngine.toMap_set _ (bytes "ab") (bytes "1")
  rw [hmap]
  exact Finmap.mem_insert.mpr (Or.inl rfl)

end Server
end VoltDBX
