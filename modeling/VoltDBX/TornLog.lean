import VoltDBX.AofLog

/-!
A log whose last record was cut by a crash, and what is appended behind it.
-/

set_option autoImplicit false

namespace VoltDBX
open KeyedList TextLines

namespace AofLog
variable {hash : Bytes → Nat}

inductive Record where
  | set (key value : Bytes)
  | del (key : Bytes)
  deriving DecidableEq, Repr

namespace Record

def line : Record → Bytes
  | .set key value => setLine key value
  | .del key => delLine key

def key : Record → Bytes
  | .set key _ => key
  | .del key => key

def Clean : Record → Prop
  | .set key value => CleanPair key value
  | .del key => space ∉ key ∧ lf ∉ key

instance (r : Record) : Decidable r.Clean :=
  match r with
  | .set key value =>
    inferInstanceAs (Decidable (space ∉ key ∧ lf ∉ key ∧ lf ∉ value))
  | .del key => inferInstanceAs (Decidable (space ∉ key ∧ lf ∉ key))

def append (log : AofLog) : Record → AofLog
  | .set key value => log.appendSet key value
  | .del key => log.appendDel key

def effect (m : Map Bytes) : Record → Map Bytes
  | .set key value => m.insert key value
  | .del key => m.erase key

theorem Clean.notMem_line {r : Record} (h : r.Clean) : lf ∉ r.line := by
  cases r with
  | set key value => exact notMem_setLine h
  | del key => exact notMem_delLine h.2

theorem Clean.applyLine {r : Record} (h : r.Clean) (m : Map Bytes) :
    AofLog.applyLine m r.line = r.effect m := by
  cases r with
  | set key value => exact applyLine_setLine h.1 value m
  | del key => exact applyLine_delLine key m

theorem foldl_applyLine {rs : List Record} (h : ∀ r ∈ rs, r.Clean) (m : Map Bytes) :
    (rs.map line).foldl AofLog.applyLine m = rs.foldl effect m := by
  induction rs generalizing m with
  | nil => rfl
  | cons r rs ih =>
    rw [List.map_cons,List.foldl_cons,List.foldl_cons,(h r (by simp)).applyLine]
    exact ih (fun x hx => h x (by simp [hx])) _

theorem lookup_effect (m : Map Bytes) (r : Record) (x : Bytes) :
    (r.effect m).lookup x = if r.key = x then (r.effect ∅).lookup x else m.lookup x := by
  cases r with
  | set key value =>
    by_cases hx : key = x
    · simp [effect,Record.key,hx]
    · simp [effect,Record.key,hx,Finmap.lookup_insert_of_ne _ (Ne.symm hx)]
  | del key =>
    by_cases hx : key = x
    · simp [effect,Record.key,hx]
    · simp [effect,Record.key,hx,Finmap.lookup_erase_ne (Ne.symm hx)]

theorem foldl_effect_eq_iff (rs : List Record) (m m' : Map Bytes) :
    rs.foldl effect m = rs.foldl effect m' ↔
      ∀ x, (∀ r ∈ rs, r.key ≠ x) → m.lookup x = m'.lookup x := by
  induction rs generalizing m m' with
  | nil =>
    constructor
    · intro h x _
      exact congrArg (fun m => m.lookup x) h
    · intro h
      exact Finmap.ext_lookup fun x => h x (by simp)
  | cons r rs ih =>
    rw [List.foldl_cons,List.foldl_cons,ih]
    constructor
    · intro h x hx
      have hnext := h x fun q hq => hx q (by simp [hq])
      rw [lookup_effect m,lookup_effect m',if_neg (hx r (by simp)),if_neg (hx r (by simp))] at hnext
      exact hnext
    · intro h x hx
      rw [lookup_effect m,lookup_effect m']
      by_cases hr : r.key = x
      · rw [if_pos hr,if_pos hr]
      · rw [if_neg hr,if_neg hr]
        refine h x fun q hq => ?_
        rcases List.mem_cons.mp hq with rfl | hq
        · exact hr
        · exact hx q hq

end Record

def text (rs : List Record) : Bytes := unlines lf (rs.map Record.line)

def appendAll (log : AofLog) (rs : List Record) : AofLog := rs.foldl Record.append log

theorem file_appendAll {log : AofLog} {content : Bytes} (h : log.file = some content)
    (rs : List Record) : (appendAll log rs).file = some (content ++ text rs) := by
  induction rs generalizing log content with
  | nil => simpa [appendAll,text,unlines] using h
  | cons r rs ih =>
    have hnext : (Record.append log r).file = some (content ++ (r.line ++ [lf])) := by
      cases r with
      | set key value => simp [Record.append,appendSet,writeLine,h,Record.line]
      | del key => simp [Record.append,appendDel,writeLine,h,Record.line]
    have hrest := ih hnext
    simpa [appendAll,text,unlines] using hrest

/-- The records that have their newline in the first `n` bytes, and the record that begins
there and does not, with the number of its bytes that are left. -/
def cut : List Record → Nat → List Record × Option (Record × Nat)
  | [], _ => ([],none)
  | r :: rs, n =>
    if n = 0 then ([],none)
    else if n ≤ r.line.length then ([],some (r,n))
    else (r :: (cut rs (n-(r.line.length+1))).1,(cut rs (n-(r.line.length+1))).2)

def leftover : Option (Record × Nat) → Bytes
  | none => []
  | some (r,n) => r.line.take n

theorem take_text (rs : List Record) (n : Nat) :
    (text rs).take n = text (cut rs n).1 ++ leftover (cut rs n).2 := by
  induction rs generalizing n with
  | nil => simp [text,unlines,cut,leftover]
  | cons r rs ih =>
    by_cases hzero : n = 0
    · simp [hzero,cut,text,unlines,leftover]
    · by_cases hcut : n ≤ r.line.length
      · simp only [cut,hzero,hcut,if_false,if_true,leftover,text,List.map_cons,List.map_nil,
          unlines,List.nil_append]
        exact List.take_append_of_le_length hcut
      · obtain ⟨m,rfl⟩ : ∃ m, n = r.line.length+1+m := ⟨n-(r.line.length+1),by omega⟩
        have hrest := ih m
        simp only [cut,hzero,hcut,if_false,Nat.add_sub_cancel_left,text,List.map_cons,unlines,
          List.append_assoc,List.cons_append]
        rw [Nat.add_assoc,List.take_length_add_append,Nat.add_comm 1 m,List.take_succ_cons]
        rw [← text,hrest,text]

theorem mem_of_mem_cut {rs : List Record} {n : Nat} {r : Record} (h : r ∈ (cut rs n).1) :
    r ∈ rs := by
  induction rs generalizing n with
  | nil => exact h
  | cons q rs ih =>
    unfold cut at h
    split at h
    · simp at h
    · split at h
      · simp at h
      · rcases List.mem_cons.mp h with rfl | h
        · simp
        · simp [ih h]

theorem cut_record {rs : List Record} {n k : Nat} {r : Record} (h : (cut rs n).2 = some (r,k)) :
    r ∈ rs ∧ 0 < k ∧ k ≤ r.line.length := by
  induction rs generalizing n with
  | nil => simp [cut] at h
  | cons q rs ih =>
    unfold cut at h
    split at h
    · simp at h
    · rename_i hzero
      split at h
      · rename_i hle
        simp only [Option.some.injEq,Prod.mk.injEq] at h
        obtain ⟨rfl,rfl⟩ := h
        exact ⟨by simp,Nat.pos_of_ne_zero hzero,hle⟩
      · obtain ⟨hmem,hpos,hle⟩ := ih h
        exact ⟨by simp [hmem],hpos,hle⟩

theorem leftover_ne_nil {rs : List Record} {n k : Nat} {r : Record}
    (h : (cut rs n).2 = some (r,k)) : leftover (some (r,k)) ≠ [] := by
  obtain ⟨-,hpos,hle⟩ := cut_record h
  rw [leftover,ne_eq,← List.length_eq_zero_iff,List.length_take]
  omega

/-- The write that the first `n` bytes of the record make together with the record appended
next, if there is one. In the key the next line goes on as key up to its first blank; in the
value, and behind `DEL `, all of it is swallowed. -/
def joined (r : Record) (n : Nat) (next : Option Record) : Option Record :=
  if n < 4 then none
  else match r with
    | .set key value =>
      if n ≤ 4+key.length then
        match next with
        | none => none
        | some (.set k v) => some (.set (key.take (n-4) ++ bytes "SET") (k ++ [space] ++ v))
        | some (.del k) => some (.set (key.take (n-4) ++ bytes "DEL") k)
      else some (.set key (value.take (n-(5+key.length)) ++ (next.map Record.line).getD []))
    | .del key => some (.del (key.take (n-4) ++ (next.map Record.line).getD []))

def firstWrite : Option (Record × Nat) → Option Record → Option Record
  | none, next => next
  | some (r,n), next => joined r n next

def effectOf (m : Map Bytes) : Option Record → Map Bytes
  | none => m
  | some r => r.effect m

theorem applyLine_short (r : Record) {n : Nat} (hpos : 0 < n) (hn : n < 4) (next : Option Record)
    (m : Map Bytes) :
    applyLine m (r.line.take n ++ (next.map Record.line).getD []) = m := by
  have hcases : n = 1 ∨ n = 2 ∨ n = 3 := by omega
  have hline : ∀ l : Bytes, (bytes "SET ").isPrefixOf l = false → (bytes "DEL ").isPrefixOf l = false →
      applyLine m l = m := by
    intro l hset hdel
    simp [applyLine,hset,hdel]
  refine hline _ ?_ ?_
  · cases r with
    | set key value =>
      rcases next with _ | ⟨k,v⟩ | k <;> rcases hcases with rfl | rfl | rfl <;> rfl
    | del key =>
      rcases next with _ | ⟨k,v⟩ | k <;> rcases hcases with rfl | rfl | rfl <;> rfl
  · cases r with
    | set key value =>
      rcases next with _ | ⟨k,v⟩ | k <;> rcases hcases with rfl | rfl | rfl <;> rfl
    | del key =>
      rcases next with _ | ⟨k,v⟩ | k <;> rcases hcases with rfl | rfl | rfl <;> rfl

theorem take_literal (s : String) {k n : Nat} (hk : (bytes s).length = k) (hn : k ≤ n)
    (rest : Bytes) : (bytes s ++ rest).take n = bytes s ++ rest.take (n-k) := by
  rw [List.take_append,hk,List.take_of_length_le (by omega)]

theorem applyLine_bare_key {key : Bytes} (hk : space ∉ key) (m : Map Bytes) :
    applyLine m (bytes "SET " ++ key) = m := by
  have hall : ∀ c ∈ key, notBlank c = true := by
    intro c hc
    have hne : c ≠ space := fun he => hk (he ▸ hc)
    simp [notBlank,hne]
  have hdrop : key.dropWhile notBlank = [] := by
    simpa using hall
  simp only [applyLine,isPrefixOf_literal,if_true,drop_literal "SET " 4 (by decide),hdrop]

theorem applyLine_key_set {key : Bytes} (hk : space ∉ key) (k v : Bytes) (m : Map Bytes) :
    applyLine m (bytes "SET " ++ key ++ setLine k v) =
      m.insert (key ++ bytes "SET") (k ++ [space] ++ v) := by
  have hjoin : bytes "SET " ++ key ++ setLine k v =
      setLine (key ++ bytes "SET") (k ++ [space] ++ v) := by
    have hword : bytes "SET " = bytes "SET" ++ [space] := by decide
    conv_lhs => rw [setLine]
    rw [setLine]
    nth_rewrite 2 [hword]
    simp
  have hname : space ∉ bytes "SET" := by decide
  rw [hjoin,applyLine_setLine (by simp [hk,hname])]

theorem applyLine_key_del {key : Bytes} (hk : space ∉ key) (k : Bytes) (m : Map Bytes) :
    applyLine m (bytes "SET " ++ key ++ delLine k) = m.insert (key ++ bytes "DEL") k := by
  have hjoin : bytes "SET " ++ key ++ delLine k = setLine (key ++ bytes "DEL") k := by
    have hword : bytes "DEL " = bytes "DEL" ++ [space] := by decide
    rw [delLine,setLine,hword]
    simp
  have hname : space ∉ bytes "DEL" := by decide
  rw [hjoin,applyLine_setLine (by simp [hk,hname])]

theorem applyLine_joined {r : Record} (hr : r.Clean) {n : Nat} (hpos : 0 < n)
    (next : Option Record) (m : Map Bytes) :
    applyLine m (r.line.take n ++ (next.map Record.line).getD []) =
      effectOf m (joined r n next) := by
  by_cases hshort : n < 4
  · rw [applyLine_short r hpos hshort,joined.eq_def,if_pos hshort]
    rfl
  · rw [joined.eq_def,if_neg hshort]
    cases r with
    | set key value =>
      have htake : (Record.set key value).line.take n =
          bytes "SET " ++ (key ++ space :: value).take (n-4) := by
        simp only [Record.line,setLine,List.append_assoc,List.singleton_append]
        exact take_literal "SET " (by decide) (by omega) _
      rw [htake]
      by_cases hkey : n ≤ 4+key.length
      · have hpiece : (key ++ space :: value).take (n-4) = key.take (n-4) :=
          List.take_append_of_le_length (by omega)
        have hblank : space ∉ key.take (n-4) := fun hmem => hr.1 (List.mem_of_mem_take hmem)
        rw [hpiece]
        simp only [hkey,if_true]
        cases next with
        | none => simpa [effectOf] using applyLine_bare_key hblank m
        | some q =>
          cases q with
          | set k v => exact applyLine_key_set hblank k v m
          | del k => exact applyLine_key_del hblank k m
      · have hpiece : (key ++ space :: value).take (n-4) =
            key ++ space :: value.take (n-(5+key.length)) := by
          obtain ⟨j,rfl⟩ : ∃ j, n = 4+(key.length+(j+1)) := ⟨n-(5+key.length),by omega⟩
          have hj : 4+(key.length+(j+1))-(5+key.length) = j := by omega
          rw [Nat.add_sub_cancel_left,List.take_length_add_append,List.take_succ_cons,hj]
        have hjoin : bytes "SET " ++ (key ++ space :: value.take (n-(5+key.length))) ++
              (next.map Record.line).getD [] =
            setLine key (value.take (n-(5+key.length)) ++ (next.map Record.line).getD []) := by
          simp [setLine]
        rw [hpiece,hjoin,applyLine_setLine hr.1]
        simp only [hkey,if_false]
        rfl
    | del key =>
      have htake : (Record.del key).line.take n = bytes "DEL " ++ key.take (n-4) :=
        take_literal "DEL " (by decide) (by omega) key
      have hjoin : bytes "DEL " ++ key.take (n-4) ++ (next.map Record.line).getD [] =
          delLine (key.take (n-4) ++ (next.map Record.line).getD []) := by
        simp [delLine]
      rw [htake,hjoin,applyLine_delLine]
      rfl

theorem leftover_notMem {rs : List Record} (h : ∀ r ∈ rs, r.Clean) (n : Nat) :
    lf ∉ leftover (cut rs n).2 := by
  cases hcut : (cut rs n).2 with
  | none => simp [leftover]
  | some torn =>
    have hr := (h torn.1 (cut_record hcut).1).notMem_line
    exact fun hmem => hr (List.mem_of_mem_take hmem)

theorem applyLine_leftover {rs : List Record} (h : ∀ r ∈ rs, r.Clean) (n : Nat)
    {next : Record} (hnext : next.Clean) (m : Map Bytes) :
    applyLine m (leftover (cut rs n).2 ++ next.line) =
      effectOf m (firstWrite (cut rs n).2 (some next)) := by
  cases hcut : (cut rs n).2 with
  | none => exact hnext.applyLine m
  | some torn =>
    obtain ⟨hmem,hpos,-⟩ := cut_record hcut
    exact applyLine_joined (h torn.1 hmem) hpos (some next) m

theorem foldl_leftover {rs : List Record} (h : ∀ r ∈ rs, r.Clean) (n : Nat) (m : Map Bytes) :
    (lines lf (leftover (cut rs n).2)).foldl applyLine m =
      effectOf m (firstWrite (cut rs n).2 none) := by
  rw [lines_of_notMem (leftover_notMem h n)]
  cases hcut : (cut rs n).2 with
  | none => rfl
  | some torn =>
    obtain ⟨r,k⟩ := torn
    obtain ⟨hmem,hpos,-⟩ := cut_record hcut
    have hjoined := applyLine_joined (h r hmem) hpos none m
    rw [Option.map_none,Option.getD_none,List.append_nil] at hjoined
    rw [if_neg (leftover_ne_nil hcut)]
    exact hjoined

theorem lines_text {rs : List Record} (h : ∀ r ∈ rs, r.Clean) (rest : Bytes) :
    lines lf (text rs ++ rest) = rs.map Record.line ++ lines lf rest := by
  refine lines_unlines (fun l hl => ?_) rest
  obtain ⟨r,hr,rfl⟩ := List.mem_map.mp hl
  exact (h r hr).notMem_line

theorem logMap_cut {rs more : List Record} (h : ∀ r ∈ rs, r.Clean) (hmore : ∀ q ∈ more, q.Clean)
    (n : Nat) :
    logMap ((text rs).take n ++ text more) =
      more.tail.foldl Record.effect (effectOf ((cut rs n).1.foldl Record.effect ∅)
        (firstWrite (cut rs n).2 more.head?)) := by
  have hdone : ∀ r ∈ (cut rs n).1, r.Clean := fun r hr => h r (mem_of_mem_cut hr)
  rw [logMap,take_text,List.append_assoc,lines_text hdone,List.foldl_append,
    Record.foldl_applyLine hdone]
  cases more with
  | nil => simpa [text,unlines] using foldl_leftover h n _
  | cons q qs =>
    have hq := hmore q (by simp)
    have hqs : ∀ r ∈ qs, r.Clean := fun r hr => hmore r (by simp [hr])
    have hfree : lf ∉ leftover (cut rs n).2 ++ q.line := by
      simp [leftover_notMem h n,hq.notMem_line]
    have hread : lines lf (leftover (cut rs n).2 ++ text (q :: qs)) =
        (leftover (cut rs n).2 ++ q.line) :: qs.map Record.line := by
      have hline := lines_line hfree (text qs)
      have hrest := lines_text hqs []
      rw [List.append_nil,lines_nil,List.append_nil] at hrest
      rw [hrest] at hline
      simpa [text,unlines] using hline
    rw [hread,List.foldl_cons,applyLine_leftover h n hq,Record.foldl_applyLine hqs]
    rfl

/-- The store that replays from the log of `records` cut to `torn`, with `more` appended
after it was opened again, is the one the complete records and `more` make. -/
def TornReplay (hash : Bytes → Nat) (records : List Record) (torn : Bytes) (more : List Record) :
    Prop :=
  ((appendAll (create (some torn)) more).replay (StorageEngine.create hash)).1.values =
    more.foldl Record.effect ((cut records torn.length).1.foldl Record.effect ∅)

/-- On the keys no later record writes, the cut record and the first appended one make
together what the first appended one would have made alone. -/
def Spared (records : List Record) (n : Nat) (more : List Record) : Prop :=
  ∀ x, (∀ q ∈ more.tail, q.key ≠ x) →
    (effectOf ((cut records n).1.foldl Record.effect ∅)
        (firstWrite (cut records n).2 more.head?)).lookup x =
      (effectOf ((cut records n).1.foldl Record.effect ∅) more.head?).lookup x

theorem file_log (records : List Record) :
    (appendAll (create none) records).file = some (text records) := by
  have hfile := @file_appendAll (create none) [] rfl records
  simpa using hfile

theorem tornReplay_iff {records : List Record} (h : ∀ r ∈ records, r.Clean) {torn : Bytes}
    (hp : torn <+: text records) {more : List Record} (hmore : ∀ q ∈ more, q.Clean) :
    TornReplay hash records torn more ↔ Spared records torn.length more := by
  have hfile := @file_appendAll (create (some torn)) torn rfl more
  have hvalues : ((appendAll (create (some torn)) more).replay
      (StorageEngine.create hash)).1.values = logMap (torn ++ text more) := by
    simp only [replay,hfile,values_foldl_replayLine,StorageEngine.values_create]
    rfl
  have hexpect : ∀ m : Map Bytes, more.foldl Record.effect m =
      more.tail.foldl Record.effect (effectOf m more.head?) := by
    intro m
    cases more with
    | nil => rfl
    | cons q qs => rfl
  have hcut := logMap_cut h hmore torn.length
  rw [← List.prefix_iff_eq_take.mp hp] at hcut
  rw [TornReplay,hvalues,hcut,hexpect,Record.foldl_effect_eq_iff]
  rfl

theorem cut_none_iff {records : List Record} (h : ∀ r ∈ records, r.Clean) {torn : Bytes}
    (hp : torn <+: text records) :
    (cut records torn.length).2 = none ↔ torn = [] ∨ torn.getLast? = some lf := by
  have htorn := take_text records torn.length
  rw [← List.prefix_iff_eq_take.mp hp] at htorn
  constructor
  · intro hnone
    rw [hnone,leftover,List.append_nil] at htorn
    rw [htorn]
    exact terminated_unlines lf _
  · intro hterm
    cases hcut : (cut records torn.length).2 with
    | none => rfl
    | some pair =>
      obtain ⟨r,k⟩ := pair
      have hfree := leftover_notMem h torn.length
      have hne := leftover_ne_nil hcut
      rw [hcut] at htorn hfree
      rcases hterm with hterm | hterm
      · rw [hterm] at htorn
        exact absurd (List.append_eq_nil_iff.mp htorn.symm).2 hne
      · rw [htorn,List.getLast?_append_of_ne_nil _ hne] at hterm
        exact absurd (List.mem_of_getLast? hterm) hfree

theorem lookup_joined {m : Map Bytes} {r : Record} {k : Nat} {key value : Bytes}
    (hkey : key ∉ m) (hlong : r.line.length+4 ≤ key.length) :
    (effectOf m (joined r k (some (.set key value)))).lookup key = none := by
  have hnone : m.lookup key = none := Finmap.lookup_eq_none.mpr hkey
  have hother : ∀ x v : Bytes, x.length < key.length → (m.insert x v).lookup key = none := by
    intro x v hx
    have hne : key ≠ x := fun heq => by
      rw [heq] at hx
      exact Nat.lt_irrefl _ hx
    rw [Finmap.lookup_insert_of_ne _ hne,hnone]
  rw [joined.eq_def]
  split
  · exact hnone
  · cases r with
    | set name old =>
      have hname : name.length+5 ≤ (Record.set name old).line.length := by
        simp only [Record.line,setLine,List.length_append,List.length_singleton]
        have hword : (bytes "SET ").length = 4 := by decide
        omega
      by_cases hcut : k ≤ 4+name.length
      · simp only [hcut,if_true]
        refine hother _ _ ?_
        have hword : (bytes "SET").length = 3 := by decide
        rw [List.length_append,List.length_take,hword]
        omega
      · simp only [hcut,if_false]
        exact hother _ _ (by omega)
    | del name =>
      simp only [effectOf,Record.effect]
      by_cases hsame : key = name.take (k-4) ++ ((some (Record.set key value)).map Record.line).getD []
      · rw [← hsame,Finmap.lookup_erase]
      · rw [Finmap.lookup_erase_ne hsame,hnone]

theorem exists_long_key (m : Map Bytes) (n : Nat) :
    ∃ key : Bytes, key ∉ m ∧ n ≤ key.length ∧ space ∉ key ∧ lf ∉ key := by
  refine ⟨List.replicate (n+m.keys.sup List.length+1) 120,fun hmem => ?_,?_,?_,?_⟩
  · have hle := Finset.le_sup (f := List.length) (Finmap.mem_keys.mpr hmem)
    rw [List.length_replicate] at hle
    omega
  · rw [List.length_replicate]
    omega
  · exact fun hmem => absurd (List.eq_of_mem_replicate hmem) (by decide)
  · exact fun hmem => absurd (List.eq_of_mem_replicate hmem) (by decide)

/-- Whether a cut log goes on well depends on how the bytes left of a cut record and the
first appended record read as one line. Whatever is appended, it does only where the cut
falls between two records. -/
theorem torn_log_replays_iff (hash : Bytes → Nat) {records : List Record}
    (hclean : ∀ r ∈ records, r.Clean) {content torn : Bytes}
    (hfile : (appendAll (create none) records).file = some content) (hp : torn <+: content) :
    (∀ more : List Record, (∀ q ∈ more, q.Clean) →
      (TornReplay hash records torn more ↔ Spared records torn.length more)) ∧
    ((∀ more : List Record, (∀ q ∈ more, q.Clean) → TornReplay hash records torn more) ↔
      torn = [] ∨ torn.getLast? = some lf) := by
  rw [file_log,Option.some.injEq] at hfile
  subst hfile
  refine ⟨fun more hmore => tornReplay_iff hclean hp hmore,?_⟩
  rw [← cut_none_iff hclean hp]
  constructor
  · intro hall
    cases hcut : (cut records torn.length).2 with
    | none => rfl
    | some pair =>
      obtain ⟨r,k⟩ := pair
      -- a SET of a new key is lost
      obtain ⟨key,hkey,hlong,hblank,hline⟩ := exists_long_key
        ((cut records torn.length).1.foldl Record.effect ∅) (r.line.length+4)
      have hset : ∀ q ∈ [Record.set key []], q.Clean := by
        intro q hq
        rw [List.mem_singleton] at hq
        subst hq
        exact ⟨hblank,hline,by simp⟩
      have hspared := (tornReplay_iff hclean hp hset).mp (hall _ hset) key (by simp)
      rw [hcut,List.head?_cons,firstWrite,lookup_joined hkey hlong,effectOf,Record.effect,
        Finmap.lookup_insert] at hspared
      cases hspared
  · intro hnone more hmore
    rw [tornReplay_iff hclean hp hmore]
    intro x _
    rw [hnone]
    rfl

theorem torn_log_replays_iff_example :
    let records := [Record.set (bytes "a") (bytes "1"),Record.set (bytes "b") (bytes "2")]
    TornReplay (fun _ => 0) records (bytes "SET a 1\n") [.del (bytes "a")] := by
  intro records
  have hclean : ∀ r ∈ records, r.Clean := by decide
  have hp : bytes "SET a 1\n" <+: text records := ⟨bytes "SET b 2\n",by decide⟩
  exact (torn_log_replays_iff (fun _ => 0) hclean (file_log records) hp).2.mpr (by decide) _
    (by decide)

/-- The crash cuts the key of a record. The SET acknowledged after the restart is read as
the rest of it: `SET kSET b 2`. -/
theorem torn_log_loses_next_record :
    let records := [Record.set (bytes "k") (bytes "1")]
    let more := [Record.set (bytes "b") (bytes "2")]
    (∀ r ∈ records, r.Clean) ∧ (∀ q ∈ more, q.Clean) ∧
      (appendAll (create none) records).file = some (bytes "SET k 1\n") ∧
      bytes "SET k" <+: bytes "SET k 1\n" ∧
      ¬ TornReplay (fun _ => 0) records (bytes "SET k") more := by
  intro records more
  have hclean : ∀ r ∈ records, r.Clean := by decide
  have hmore : ∀ q ∈ more, q.Clean := by decide
  have htext : text records = bytes "SET k 1\n" := by decide
  have hp : bytes "SET k" <+: bytes "SET k 1\n" := ⟨bytes " 1\n",by decide⟩
  refine ⟨hclean,hmore,htext ▸ file_log records,hp,fun h => ?_⟩
  rw [tornReplay_iff hclean (htext ▸ hp) hmore] at h
  have hcut : cut records (bytes "SET k").length = ([],some (.set (bytes "k") (bytes "1"),5)) := by
    decide
  have hjoined : joined (.set (bytes "k") (bytes "1")) 5 more.head? =
      some (.set (bytes "kSET") (bytes "b 2")) := by decide
  have hlost := h (bytes "b") (by simp [more])
  have hne : bytes "b" ≠ bytes "kSET" := by decide
  rw [hcut,firstWrite,hjoined,effectOf,Record.effect,Finmap.lookup_insert_of_ne _ hne] at hlost
  simp [more,effectOf,Record.effect] at hlost

end AofLog
end VoltDBX
