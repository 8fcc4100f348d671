import VoltDBX.AofLog
import VoltDBX.Runs

/-!
Rewrites of the log: what they leave behind when file operations fail, and what
becomes of the writes other clients make meanwhile.
-/

set_option autoImplicit false

namespace VoltDBX
open KeyedList TextLines

namespace AofLog
variable {hash : Bytes → Nat}

/-- A write that fails leaves the stream bad, so a beginning of the text is in the
temporary file; it is all of it when nothing was cut off. -/
def Complete (out : RewriteOutcome) (text : Bytes) : Prop :=
  match out.written with
  | none => True
  | some n => text.length ≤ n

/-- The log holds its old content or the rewritten one, and the result tells which. -/
structure AllOrNothing (log : AofLog) (out : RewriteOutcome) (storage : StorageEngine hash) :
    Prop where
  either : (log.rewriteFrom out storage).1.file = log.file ∨
    (log.rewriteFrom out storage).1.file = some (rewriteText storage.dumpEntries)
  failed : (log.rewriteFrom out storage).2 = false →
    (log.rewriteFrom out storage).1.file = log.file
  succeeded : (log.rewriteFrom out storage).2 = true →
    (log.rewriteFrom out storage).1.file = some (rewriteText storage.dumpEntries)

theorem allOrNothing_iff_result {log : AofLog} {out : RewriteOutcome}
    {storage : StorageEngine hash} :
    AllOrNothing log out storage ↔
      (log.rewriteFrom out storage).1.file =
        if (log.rewriteFrom out storage).2 then some (rewriteText storage.dumpEntries)
        else log.file := by
  cases hr : (log.rewriteFrom out storage).2 with
  | false => exact ⟨fun h => h.failed hr,fun h => ⟨.inl h,fun _ => h,fun ht => by simp [hr] at ht⟩⟩
  | true =>
    exact ⟨fun h => h.succeeded hr,fun h => ⟨.inr h,fun hf => by simp [hr] at hf,fun _ => h⟩⟩

/-- A rewrite is all or nothing exactly when the temporary file does not open, or it
is complete and takes the place of the log, or the log is not removed before a
rename that fails. -/
theorem rewrite_all_or_nothing_iff (log : AofLog) (out : RewriteOutcome)
    (storage : StorageEngine hash) :
    AllOrNothing log out storage ↔
      out.opened = false ∨
      (out.renamed = true ∧ Complete out (rewriteText storage.dumpEntries)) ∨
      (out.renamed = false ∧ (out.removed = false ∨ log.file = none)) := by
  rw [allOrNothing_iff_result]
  unfold rewriteFrom
  cases hopened : out.opened with
  | false => simp
  | true =>
    cases hrenamed : out.renamed with
    | true =>
      cases hwritten : out.written with
      | none => simp [Complete,hwritten]
      | some n => simp [Complete,hwritten,List.take_eq_self_iff]
    | false =>
      cases hremoved : out.removed with
      | false => simp
      | true => simp [eq_comm]

/-- A full disk: the new log is cut off and reported as written. A rename that fails
after the removal: no log is left. -/
theorem rewrite_can_lose_log :
    ¬ AllOrNothing (AofLog.create (some (bytes "SET a 1\n"))) ⟨true,some 5,true,true⟩
        (StorageEngine.create (fun _ => 0)) ∧
      ¬ AllOrNothing (AofLog.create (some (bytes "SET a 1\n"))) ⟨true,none,true,false⟩
        (StorageEngine.create (fun _ => 0)) := by
  rw [allOrNothing_iff_result,allOrNothing_iff_result]
  have hdump : (StorageEngine.create (fun _ => 0)).dumpEntries = [] := by
    rw [StorageEngine.dumpEntries_eq]
    have hnone : (StorageEngine.create (fun _ => 0)).table.entries = [] :=
      HashTable.entries_empty _
    rw [hnone,List.map_nil]
  simp only [rewriteFrom,hdump]
  decide

end AofLog

/-- What a client has changed in the table and has not logged yet; a removal has no
value. -/
structure Record where
  key : Bytes
  value : Option Bytes
  deriving DecidableEq, Repr

def Record.line (r : Record) : Bytes :=
  match r.value with
  | some value => AofLog.setLine r.key value
  | none => AofLog.delLine r.key

/-- How far `rewrite_from` has come. -/
inductive Rewrite where
  | idle
  | dumped (entries : List (Bytes × Bytes))
  | written (text : Bytes)
  deriving DecidableEq, Repr

/-- The hooks' store and log, what each client has under way, and the rewrite. -/
structure HookClients (hash : Bytes → Nat) where
  storage : StorageEngine hash
  aof : AofLog
  pending : Nat → Option Record
  rewrite : Rewrite

namespace HookClients
variable {hash : Bytes → Nat}
open AofLog

inductive Step where
  | set (client : Nat) (key value : Bytes)
  | remove (client : Nat) (key : Bytes)
  | append (client : Nat)
  | dump
  | writeTemp
  | swap
  deriving DecidableEq, Repr

/-- `StorageHooks::set` and `remove` are a change of the table and, if it was made,
an append; `rewrite_from` is a dump, the temporary file, and the swap of the log. -/
def step : Step → HookClients hash → Option (HookClients hash)
  | .set c key value, s =>
    match s.pending c with
    | some _ => none
    | none => some { s with
        storage := (s.storage.set key value).1
        pending := if (s.storage.set key value).2 then
            Function.update s.pending c (some ⟨key,some value⟩)
          else s.pending }
  | .remove c key, s =>
    match s.pending c with
    | some _ => none
    | none => some { s with
        storage := (s.storage.remove key).1
        pending := if (s.storage.remove key).2 then
            Function.update s.pending c (some ⟨key,none⟩)
          else s.pending }
  | .append c, s =>
    match s.pending c with
    | none => none
    | some r => some { s with
        aof := s.aof.writeLine r.line
        pending := Function.update s.pending c none }
  | .dump, s =>
    match s.rewrite with
    | .idle => some { s with rewrite := .dumped s.storage.dumpEntries }
    | _ => none
  | .writeTemp, s =>
    match s.rewrite with
    | .dumped entries => some { s with rewrite := .written (rewriteText entries) }
    | _ => none
  | .swap, s =>
    match s.rewrite with
    | .written text => some { s with aof := ⟨some text,true⟩, rewrite := .idle }
    | _ => none

def start (h : StorageHooks hash) : HookClients hash := ⟨h.storage,h.aof,fun _ => none,.idle⟩

theorem step_set {s t : HookClients hash} {c : Nat} {key value : Bytes}
    (h : step (.set c key value) s = some t) :
    s.pending c = none ∧ t = { s with
      storage := (s.storage.set key value).1
      pending := Function.update s.pending c (some ⟨key,some value⟩) } := by
  cases hc : s.pending c with
  | some r => simp [step,hc] at h
  | none =>
    simp only [step,hc,Option.some.injEq] at h
    exact ⟨rfl,h.symm⟩

theorem step_remove {s t : HookClients hash} {c : Nat} {key : Bytes}
    (h : step (.remove c key) s = some t) :
    s.pending c = none ∧ t = { s with
      storage := (s.storage.remove key).1
      pending := if (s.storage.remove key).2 then
          Function.update s.pending c (some ⟨key,none⟩)
        else s.pending } := by
  cases hc : s.pending c with
  | some r => simp [step,hc] at h
  | none =>
    simp only [step,hc,Option.some.injEq] at h
    exact ⟨rfl,h.symm⟩

theorem step_append {s t : HookClients hash} {c : Nat} (h : step (.append c) s = some t) :
    ∃ r, s.pending c = some r ∧ t = { s with
      aof := s.aof.writeLine r.line
      pending := Function.update s.pending c none } := by
  cases hc : s.pending c with
  | none => simp [step,hc] at h
  | some r =>
    simp only [step,hc,Option.some.injEq] at h
    exact ⟨r,rfl,h.symm⟩

theorem step_dump {s t : HookClients hash} (h : step .dump s = some t) :
    s.rewrite = .idle ∧ t = { s with rewrite := .dumped s.storage.dumpEntries } := by
  cases hr : s.rewrite with
  | idle =>
    simp only [step,hr,Option.some.injEq] at h
    exact ⟨rfl,h.symm⟩
  | dumped entries => simp [step,hr] at h
  | written text => simp [step,hr] at h

theorem step_writeTemp {s t : HookClients hash} (h : step .writeTemp s = some t) :
    ∃ entries, s.rewrite = .dumped entries ∧
      t = { s with rewrite := .written (rewriteText entries) } := by
  cases hr : s.rewrite with
  | idle => simp [step,hr] at h
  | dumped entries =>
    simp only [step,hr,Option.some.injEq] at h
    exact ⟨entries,rfl,h.symm⟩
  | written text => simp [step,hr] at h

theorem step_swap {s t : HookClients hash} (h : step .swap s = some t) :
    ∃ text, s.rewrite = .written text ∧ t = { s with aof := ⟨some text,true⟩, rewrite := .idle } := by
  cases hr : s.rewrite with
  | idle => simp [step,hr] at h
  | dumped entries => simp [step,hr] at h
  | written text =>
    simp only [step,hr,Option.some.injEq] at h
    exact ⟨text,rfl,h.symm⟩

theorem moves_set {s t : HookClients hash} {c : Nat} {key value : Bytes}
    (h : Runs.Moves step s [.set c key value,.append c] t) :
    t.storage = ((⟨s.storage,s.aof⟩ : StorageHooks hash).set key value).1.storage ∧
      t.aof = ((⟨s.storage,s.aof⟩ : StorageHooks hash).set key value).1.aof := by
  obtain ⟨u,hu,h⟩ := Runs.moves_cons.mp h
  obtain ⟨v,hv,h⟩ := Runs.moves_cons.mp h
  cases Runs.moves_nil.mp h
  obtain ⟨-,rfl⟩ := step_set hu
  obtain ⟨r,hr,rfl⟩ := step_append hv
  simp only [Function.update_self,Option.some.injEq] at hr
  subst hr
  exact ⟨rfl,rfl⟩

theorem moves_remove {s t : HookClients hash} {c : Nat} {key : Bytes}
    (h : Runs.Moves step s
      (if (s.storage.remove key).2 then [.remove c key,.append c] else [.remove c key]) t) :
    t.storage = ((⟨s.storage,s.aof⟩ : StorageHooks hash).remove key).1.storage ∧
      t.aof = ((⟨s.storage,s.aof⟩ : StorageHooks hash).remove key).1.aof := by
  cases hfound : (s.storage.remove key).2 with
  | true =>
    rw [hfound,if_pos rfl] at h
    obtain ⟨u,hu,h⟩ := Runs.moves_cons.mp h
    obtain ⟨v,hv,h⟩ := Runs.moves_cons.mp h
    cases Runs.moves_nil.mp h
    obtain ⟨-,rfl⟩ := step_remove hu
    obtain ⟨r,hr,rfl⟩ := step_append hv
    simp only [hfound,if_true,Function.update_self,Option.some.injEq] at hr
    subst hr
    simp only [StorageHooks.remove,hfound,if_true]
    exact ⟨trivial,rfl⟩
  | false =>
    rw [hfound,if_neg Bool.false_ne_true] at h
    obtain ⟨u,hu,h⟩ := Runs.moves_cons.mp h
    cases Runs.moves_nil.mp h
    obtain ⟨-,rfl⟩ := step_remove hu
    simp only [StorageHooks.remove,hfound,Bool.false_eq_true,if_false]
    exact ⟨trivial,trivial⟩

theorem moves_rewrite {s t : HookClients hash} (h : Runs.Moves step s [.dump,.writeTemp,.swap] t) :
    t.storage = s.storage ∧ t.aof = (s.aof.rewriteFrom .success s.storage).1 := by
  obtain ⟨u,hu,h⟩ := Runs.moves_cons.mp h
  obtain ⟨v,hv,h⟩ := Runs.moves_cons.mp h
  obtain ⟨w,hw,h⟩ := Runs.moves_cons.mp h
  cases Runs.moves_nil.mp h
  obtain ⟨-,rfl⟩ := step_dump hu
  obtain ⟨entries,hentries,rfl⟩ := step_writeTemp hv
  cases hentries
  obtain ⟨text,htext,rfl⟩ := step_swap hw
  cases htext
  exact ⟨rfl,rfl⟩

/-- The text of the log that a rewrite under way is about to put in place. -/
def newText (s : HookClients hash) : Option Bytes :=
  match s.rewrite with
  | .idle => none
  | .dumped entries => some (rewriteText entries)
  | .written text => some text

def Step.key : Step → Option Bytes
  | .set _ key _ => some key
  | .remove _ key => some key
  | _ => none

def Step.Clean : Step → Prop
  | .set _ key value => CleanPair key value
  | .remove _ key => space ∉ key ∧ lf ∉ key
  | _ => True

instance (i : Step) : Decidable i.Clean :=
  match i with
  | .set _ key value => inferInstanceAs (Decidable (space ∉ key ∧ lf ∉ key ∧ lf ∉ value))
  | .remove _ key => inferInstanceAs (Decidable (space ∉ key ∧ lf ∉ key))
  | .append _ | .dump | .writeTemp | .swap => inferInstanceAs (Decidable True)

/-- An append to a log that is about to be replaced finds its change in the new text. -/
def Covered (s : HookClients hash) (i : Step) : Prop :=
  ∀ c r text, i = .append c → s.pending c = some r → s.newText = some text →
    (logMap text).lookup r.key = r.value

def Quiet (s : HookClients hash) (key : Bytes) : Prop :=
  ∀ c r, s.pending c = some r → r.key ≠ key

/-- Away from the pending changes the text denotes the store. -/
structure Denotes (s : HookClients hash) (text : Bytes) : Prop where
  terminated : Terminated lf text
  quiet : ∀ key, s.Quiet key → (logMap text).lookup key = s.storage.values.lookup key

structure Consistent (s : HookClients hash) : Prop where
  clean : Clean s.storage.values
  log : ∃ content, s.aof.file = some content ∧ s.Denotes content
  rewriting : ∀ text, s.newText = some text → s.Denotes text
  pending : ∀ c r, s.pending c = some r → s.storage.values.lookup r.key = r.value
  apart : ∀ c d r q, s.pending c = some r → s.pending d = some q → r.key = q.key → c = d
  writable : ∀ c r, s.pending c = some r → space ∉ r.key ∧ lf ∉ r.key ∧ ∀ v ∈ r.value, lf ∉ v

theorem applyLine_line {r : Record} (hk : space ∉ r.key) (m : Map Bytes) (key : Bytes) :
    (applyLine m r.line).lookup key = if key = r.key then r.value else m.lookup key := by
  obtain ⟨k,v⟩ := r
  cases v with
  | none =>
    rw [Record.line,applyLine_delLine]
    by_cases hx : key = k
    · subst hx
      simp
    · simp [hx,Finmap.lookup_erase_ne]
  | some v =>
    rw [Record.line,applyLine_setLine hk]
    by_cases hx : key = k
    · subst hx
      simp
    · simp [hx,Finmap.lookup_insert_of_ne]

theorem notMem_line {r : Record} (hk : lf ∉ r.key) (hv : ∀ v ∈ r.value, lf ∉ v)
    (hs : space ∉ r.key) : lf ∉ r.line := by
  obtain ⟨k,v⟩ := r
  cases v with
  | none => exact notMem_delLine hk
  | some v => exact notMem_setLine ⟨hs,hk,hv v rfl⟩

theorem start_consistent {h : StorageHooks hash} (hs : h.InStep) : (start h).Consistent where
  clean := hs.clean
  log := by
    obtain ⟨content,hfile,hterm,hmap⟩ := hs.log
    exact ⟨content,hfile,hterm,fun key _ => by rw [hmap]; rfl⟩
  rewriting := by simp [start,newText]
  pending := by simp [start]
  apart := by simp [start]
  writable := by simp [start]

theorem Consistent.change {s t : HookClients hash} (hs : s.Consistent) {c : Nat} {r : Record}
    (hquiet : s.Quiet r.key)
    (hvalues : ∀ key, t.storage.values.lookup key =
      if key = r.key then r.value else s.storage.values.lookup key)
    (hpending : t.pending = Function.update s.pending c (some r))
    (hclean : Clean t.storage.values)
    (hwritable : space ∉ r.key ∧ lf ∉ r.key ∧ ∀ v ∈ r.value, lf ∉ v)
    (haof : t.aof = s.aof) (hrewrite : t.rewrite = s.rewrite) (hc : s.pending c = none) :
    t.Consistent := by
  have hcases : ∀ d q, t.pending d = some q → d = c ∧ q = r ∨ d ≠ c ∧ s.pending d = some q := by
    intro d q hd
    rw [hpending] at hd
    by_cases hdc : d = c
    · subst hdc
      rw [Function.update_self,Option.some.injEq] at hd
      exact Or.inl ⟨rfl,hd.symm⟩
    · rw [Function.update_of_ne hdc] at hd
      exact Or.inr ⟨hdc,hd⟩
  have hdenotes : ∀ text, s.Denotes text → t.Denotes text := by
    intro text h
    refine ⟨h.terminated,fun key hkey => ?_⟩
    have hne : key ≠ r.key := fun heq =>
      hkey c r (by rw [hpending,Function.update_self]) heq.symm
    have hold : s.Quiet key := by
      intro d q hd
      have hdc : d ≠ c := by
        intro heq
        rw [heq,hc] at hd
        cases hd
      exact hkey d q (by rw [hpending,Function.update_of_ne hdc,hd])
    rw [hvalues,if_neg hne,h.quiet key hold]
  have hnew : t.newText = s.newText := by rw [newText,newText,hrewrite]
  refine ⟨hclean,?_,fun text ht => hdenotes text (hs.rewriting text (hnew ▸ ht)),?_,?_,?_⟩
  · obtain ⟨content,hfile,h⟩ := hs.log
    exact ⟨content,by rw [haof,hfile],hdenotes content h⟩
  · intro d q hd
    rcases hcases d q hd with ⟨-,rfl⟩ | ⟨-,hold⟩
    · rw [hvalues,if_pos rfl]
    · rw [hvalues,if_neg (hquiet d q hold),hs.pending d q hold]
  · intro d e q p hd he hkey
    rcases hcases d q hd with ⟨rfl,rfl⟩ | ⟨-,hold⟩
    · rcases hcases e p he with ⟨rfl,-⟩ | ⟨-,hold'⟩
      · rfl
      · exact absurd hkey.symm (hquiet e p hold')
    · rcases hcases e p he with ⟨-,rfl⟩ | ⟨-,hold'⟩
      · exact absurd hkey (hquiet d q hold)
      · exact hs.apart d e q p hold hold' hkey
  · intro d q hd
    rcases hcases d q hd with ⟨-,rfl⟩ | ⟨-,hold⟩
    · exact hwritable
    · exact hs.writable d q hold

theorem Consistent.append {s : HookClients hash} (hs : s.Consistent) {c : Nat} {r : Record}
    (hc : s.pending c = some r)
    (hcovered : ∀ text, s.newText = some text → (logMap text).lookup r.key = r.value) :
    Consistent { s with aof := s.aof.writeLine r.line,
                        pending := Function.update s.pending c none } := by
  have hsub : ∀ d q, Function.update s.pending c none d = some q → s.pending d = some q := by
    intro d q hd
    by_cases hdc : d = c
    · rw [hdc,Function.update_self] at hd
      cases hd
    · rwa [Function.update_of_ne hdc] at hd
  -- the appended key is now quiet, the others are as they were
  have hquiet : ∀ key, key ≠ r.key →
      (∀ d q, Function.update s.pending c none d = some q → q.key ≠ key) → s.Quiet key := by
    intro key hne hkey d q hd
    by_cases hdc : d = c
    · rw [hdc,hc,Option.some.injEq] at hd
      exact fun heq => hne (hd ▸ heq.symm)
    · exact hkey d q (by rw [Function.update_of_ne hdc,hd])
  obtain ⟨hspace,hlf,hvalue⟩ := hs.writable c r hc
  refine ⟨hs.clean,?_,?_,fun d q hd => hs.pending d q (hsub d q hd),
    fun d e q p hd he => hs.apart d e q p (hsub d q hd) (hsub e p he),
    fun d q hd => hs.writable d q (hsub d q hd)⟩
  · obtain ⟨content,hfile,hcontent⟩ := hs.log
    refine ⟨content ++ (r.line ++ [lf]),by simp [writeLine,hfile],?_,fun key hkey => ?_⟩
    · rw [← List.append_assoc]
      exact terminated_line lf _
    · rw [logMap_append hcontent.terminated (notMem_line hlf hvalue hspace),applyLine_line hspace]
      by_cases hx : key = r.key
      · rw [if_pos hx,hx,hs.pending c r hc]
      · rw [if_neg hx]
        exact hcontent.quiet key (hquiet key hx hkey)
  · intro text htext
    have htext' : s.newText = some text := htext
    obtain ⟨hterm,htextq⟩ := hs.rewriting text htext'
    refine ⟨hterm,fun key hkey => ?_⟩
    by_cases hx : key = r.key
    · have hstore := hs.pending c r hc
      rw [hx,hcovered text htext']
      exact hstore.symm
    · exact htextq key (hquiet key hx hkey)

theorem Consistent.same {s t : HookClients hash} (hs : s.Consistent)
    (hvalues : t.storage.values = s.storage.values) (hpending : t.pending = s.pending)
    (hlog : ∃ content, t.aof.file = some content ∧ s.Denotes content)
    (hnew : ∀ text, t.newText = some text → s.Denotes text) : t.Consistent := by
  have hdenotes : ∀ text, s.Denotes text → t.Denotes text := by
    intro text h
    refine ⟨h.terminated,fun key hkey => ?_⟩
    rw [hvalues]
    exact h.quiet key fun c r hc => hkey c r (hpending ▸ hc)
  refine ⟨hvalues ▸ hs.clean,?_,fun text ht => hdenotes text (hnew text ht),?_,?_,?_⟩
  · obtain ⟨content,hfile,h⟩ := hlog
    exact ⟨content,hfile,hdenotes content h⟩
  · rw [hvalues,hpending]
    exact hs.pending
  · rw [hpending]
    exact hs.apart
  · rw [hpending]
    exact hs.writable

theorem Consistent.step {s t : HookClients hash} {i : Step} (hs : s.Consistent)
    (hclean : i.Clean) (hfresh : ∀ key, i.key = some key → s.Quiet key) (hcovered : s.Covered i)
    (h : HookClients.step i s = some t) : t.Consistent := by
  cases i with
  | set c key value =>
    obtain ⟨hc,rfl⟩ := step_set h
    refine hs.change (r := ⟨key,some value⟩) (hfresh key rfl) (fun x => ?_) rfl ?_
      ⟨hclean.1,hclean.2.1,by simpa using hclean.2.2⟩ rfl rfl hc
    · rw [StorageEngine.values_set]
      by_cases hx : x = key
      · subst hx
        simp
      · simp [hx,Finmap.lookup_insert_of_ne]
    · rw [StorageEngine.values_set]
      exact hs.clean.insert hclean
  | remove c key =>
    obtain ⟨hc,rfl⟩ := step_remove h
    by_cases hmem : key ∈ s.storage.toMap
    · refine hs.change (r := ⟨key,none⟩) (hfresh key rfl) (fun x => ?_) (by simp [hmem]) ?_
        ⟨hclean.1,hclean.2,by simp⟩ rfl rfl hc
      · rw [StorageEngine.values_remove]
        by_cases hx : x = key
        · subst hx
          simp
        · simp [hx,Finmap.lookup_erase_ne]
      · rw [StorageEngine.values_remove]
        exact hs.clean.erase key
    · -- nothing was removed, and nothing is logged
      have hsame : (s.storage.remove key).1.values = s.storage.values := by
        rw [StorageEngine.values_remove]
        exact Map.erase_of_notMem (fun hin => hmem ((s.storage.mem_values key).mp hin))
      have hno : (s.storage.remove key).2 = false := by simp [hmem]
      simp only [hno,Bool.false_eq_true,if_false]
      exact hs.same hsame rfl hs.log hs.rewriting
  | append c =>
    obtain ⟨r,hc,rfl⟩ := step_append h
    exact hs.append hc fun text ht => hcovered c r text rfl hc ht
  | dump =>
    obtain ⟨-,rfl⟩ := step_dump h
    refine hs.same rfl rfl hs.log fun text ht => ?_
    simp only [newText,Option.some.injEq] at ht
    subst ht
    exact ⟨terminated_unlines lf _,fun key _ => by rw [logMap_rewriteText hs.clean]⟩
  | writeTemp =>
    obtain ⟨entries,hr,rfl⟩ := step_writeTemp h
    refine hs.same rfl rfl hs.log fun text ht => hs.rewriting text ?_
    simpa only [newText,hr] using ht
  | swap =>
    obtain ⟨text,hr,rfl⟩ := step_swap h
    exact hs.same rfl rfl ⟨text,rfl,hs.rewriting text (by rw [newText,hr])⟩ (by simp [newText])

theorem pending_step {s t : HookClients hash} {i : Step} (h : HookClients.step i s = some t)
    {c : Nat} {r : Record} (hc : t.pending c = some r) :
    s.pending c = some r ∨ i.key = some r.key := by
  have hupdate : ∀ (d : Nat) (q : Option Record), Function.update s.pending d q c = some r →
      s.pending c = some r ∨ q = some r := by
    intro d q hq
    by_cases hcd : c = d
    · rw [hcd,Function.update_self] at hq
      exact Or.inr hq
    · rw [Function.update_of_ne hcd] at hq
      exact Or.inl hq
  cases i with
  | set d key value =>
    obtain ⟨-,rfl⟩ := step_set h
    rcases hupdate d (some ⟨key,some value⟩) hc with hold | heq
    · exact Or.inl hold
    · cases heq
      exact Or.inr rfl
  | remove d key =>
    obtain ⟨-,rfl⟩ := step_remove h
    by_cases hok : (s.storage.remove key).2 = true
    · simp only [hok,if_true] at hc
      rcases hupdate d (some ⟨key,none⟩) hc with hold | heq
      · exact Or.inl hold
      · cases heq
        exact Or.inr rfl
    · simp only [hok] at hc
      exact Or.inl hc
  | append d =>
    obtain ⟨q,-,rfl⟩ := step_append h
    rcases hupdate d none hc with hold | heq
    · exact Or.inl hold
    · cases heq
  | dump =>
    obtain ⟨-,rfl⟩ := step_dump h
    exact Or.inl hc
  | writeTemp =>
    obtain ⟨entries,-,rfl⟩ := step_writeTemp h
    exact Or.inl hc
  | swap =>
    obtain ⟨text,-,rfl⟩ := step_swap h
    exact Or.inl hc

theorem Consistent.moves {steps : List Step} {s t : HookClients hash} (hs : s.Consistent)
    (hkeys : (steps.filterMap Step.key).Nodup)
    (hfresh : ∀ key ∈ steps.filterMap Step.key, s.Quiet key) (hclean : ∀ i ∈ steps, i.Clean)
    (hcovered : Runs.AlongMoves HookClients.step Covered s steps)
    (hrun : Runs.Moves HookClients.step s steps t) : t.Consistent := by
  induction steps generalizing s with
  | nil => exact Runs.moves_nil.mp hrun ▸ hs
  | cons i steps ih =>
    obtain ⟨u,hi,hrest⟩ := Runs.moves_cons.mp hrun
    have hown : ∀ key, i.key = some key → s.Quiet key := fun key hk =>
      hfresh key (List.mem_filterMap.mpr ⟨i,by simp,hk⟩)
    have hsub : (steps.filterMap Step.key).Nodup ∧
        ∀ key, i.key = some key → key ∉ steps.filterMap Step.key := by
      cases hk : i.key with
      | none =>
        rw [List.filterMap_cons_none hk] at hkeys
        exact ⟨hkeys,by simp⟩
      | some key =>
        rw [List.filterMap_cons_some hk,List.nodup_cons] at hkeys
        refine ⟨hkeys.2,fun x hx => ?_⟩
        cases hx
        exact hkeys.1
    refine ih (hs.step (hclean i (by simp)) hown hcovered.head hi) hsub.1 ?_
      (fun j hj => hclean j (by simp [hj])) (hcovered.tail hi) hrest
    intro key hkey c r hc
    rcases pending_step hi hc with hold | hnew
    · obtain ⟨j,hj,hjk⟩ := List.mem_filterMap.mp hkey
      exact hfresh key (List.mem_filterMap.mpr ⟨j,by simp [hj],hjk⟩) c r hold
    · intro heq
      exact hsub.2 r.key hnew (heq ▸ hkey)

/-- Hooked writes on different keys beside rewrites: when all have finished, the log
replays to the live store, if no change falls with its append between the dump and
the swap of one rewrite. -/
theorem rewrite_keeps_concurrent_writes (hash : Bytes → Nat) {content : Bytes}
    (hterm : content = [] ∨ content.getLast? = some lf) {steps : List Step}
    (hkeys : (steps.filterMap Step.key).Nodup) (hclean : ∀ i ∈ steps, i.Clean)
    {s : HookClients hash}
    (hrun : Runs.Moves step (start (StorageHooks.recovered hash content)) steps s)
    (hdone : ∀ c, s.pending c = none)
    (hcovered : Runs.AlongMoves step Covered (start (StorageHooks.recovered hash content)) steps) :
    (s.aof.replay (StorageEngine.create hash)).1.values = s.storage.values := by
  have hstart : (start (StorageHooks.recovered hash content)).Consistent :=
    start_consistent (StorageHooks.inStep_recovered hterm)
  have hs := hstart.moves hkeys (fun key _ c r hc => by simp [start] at hc) hclean hcovered hrun
  obtain ⟨final,hfile,hfinal⟩ := hs.log
  have haof : s.aof = ⟨some final,s.aof.streamOpen⟩ := by rw [← hfile]
  rw [haof,values_replay]
  refine Finmap.ext_lookup fun key => hfinal.quiet key fun c r hc => ?_
  rw [hdone c] at hc
  cases hc

/-- One write is dumped before it is appended, the other is appended after the swap. -/
theorem rewrite_keeps_concurrent_writes_example :
    let steps : List Step := [.set 0 (bytes "a") (bytes "1"),.dump,.append 0,.writeTemp,
      .set 1 (bytes "b") (bytes "2"),.swap,.append 1]
    ∃ s, Runs.Moves step (start (StorageHooks.recovered (fun _ => 0) [])) steps s ∧
      (s.aof.replay (StorageEngine.create (fun _ => 0))).1.values = s.storage.values := by
  intro steps
  have hempty : Terminated lf ([] : Bytes) := Or.inl rfl
  have hin := @StorageHooks.inStep_recovered (fun _ => 0) [] hempty
  have hcovered : Runs.AlongMoves step Covered
      (start (StorageHooks.recovered (fun _ => 0) [])) steps := by
    generalize StorageHooks.recovered (fun _ => 0) [] = h at hin
    have hset : Clean (h.storage.set (bytes "a") (bytes "1")).1.values := by
      rw [StorageEngine.values_set]
      exact hin.clean.insert ⟨by decide,by decide,by decide⟩
    have hdumped : (logMap (rewriteText (h.storage.set (bytes "a") (bytes "1")).1.dumpEntries)).lookup
        (bytes "a") = some (bytes "1") := by
      rw [logMap_rewriteText hset,StorageEngine.values_set,Finmap.lookup_insert]
    refine Runs.alongMoves_cons rfl (by simp [Covered]) ?_
    refine Runs.alongMoves_cons rfl (by simp [Covered]) ?_
    refine Runs.alongMoves_cons rfl ?_ ?_
    · intro c r text hc hr ht
      cases hc
      cases hr
      cases ht
      exact hdumped
    refine Runs.alongMoves_cons rfl (by simp [Covered]) ?_
    refine Runs.alongMoves_cons rfl (by simp [Covered]) ?_
    refine Runs.alongMoves_cons rfl (by simp [Covered]) ?_
    refine Runs.alongMoves_cons rfl ?_ trivial
    intro c r text hc hr ht
    cases ht
  obtain ⟨s,hrun,hdone⟩ : ∃ s, Runs.Moves step (start (StorageHooks.recovered (fun _ => 0) []))
      steps s ∧ ∀ c, s.pending c = none := by
    generalize StorageHooks.recovered (fun _ => 0) [] = h
    refine ⟨_,Runs.moves_cons.mpr ⟨_,rfl,Runs.moves_cons.mpr ⟨_,rfl,Runs.moves_cons.mpr ⟨_,rfl,
      Runs.moves_cons.mpr ⟨_,rfl,Runs.moves_cons.mpr ⟨_,rfl,Runs.moves_cons.mpr ⟨_,rfl,
        Runs.moves_cons.mpr ⟨_,rfl,Runs.moves_nil.mpr rfl⟩⟩⟩⟩⟩⟩⟩,fun c => ?_⟩
    simp only [start,StorageEngine.set_snd,if_true,Function.update_apply]
    split <;> simp [*]
  exact ⟨s,hrun,rewrite_keeps_concurrent_writes (fun _ => 0) (Or.inl rfl) (by decide) (by decide)
    hrun hdone hcovered⟩

/-- A write that is made and logged between the dump and the swap is gone from the log. -/
theorem rewrite_loses_concurrent_write :
    ∃ s, Runs.Moves step (start (StorageHooks.recovered (fun _ => 0) []))
        [.dump,.set 0 (bytes "a") (bytes "1"),.append 0,.writeTemp,.swap] s ∧
      (∀ c, s.pending c = none) ∧
      (s.aof.replay (StorageEngine.create (fun _ => 0))).1.values ≠ s.storage.values := by
  have hempty : Terminated lf ([] : Bytes) := Or.inl rfl
  have hin := @StorageHooks.inStep_recovered (fun _ => 0) [] hempty
  have hnone : (StorageHooks.recovered (fun _ => 0) []).storage.values = ∅ := values_replay [] true
  generalize StorageHooks.recovered (fun _ => 0) [] = h at hin hnone
  refine ⟨_,Runs.moves_cons.mpr ⟨_,rfl,Runs.moves_cons.mpr ⟨_,rfl,Runs.moves_cons.mpr ⟨_,rfl,
    Runs.moves_cons.mpr ⟨_,rfl,Runs.moves_cons.mpr ⟨_,rfl,Runs.moves_nil.mpr rfl⟩⟩⟩⟩⟩,
    fun c => ?_,fun heq => ?_⟩
  · simp only [start,StorageEngine.set_snd,if_true,Function.update_apply]
    split <;> simp [*]
  · have hlog : logMap (rewriteText h.storage.dumpEntries) =
        (h.storage.set (bytes "a") (bytes "1")).1.values := (values_replay _ true).symm.trans heq
    rw [logMap_rewriteText hin.clean,hnone,StorageEngine.values_set,hnone] at hlog
    have hlook := congrArg (fun m => m.lookup (bytes "a")) hlog
    simp at hlook

end HookClients
end VoltDBX
