import VoltDBX.StorageEngine
import VoltDBX.TextLines

/-!
The append-only log of persistence/aof_log.cpp and the hooks that write to it,
storage/storage_hooks.cpp. A log file is its bytes.
-/

set_option autoImplicit false

namespace VoltDBX
open KeyedList TextLines

/-- `file` is the content of append.aof, `none` when there is no such file. -/
structure AofLog where
  file : Option Bytes
  streamOpen : Bool
  deriving DecidableEq, Repr

/-- How the file operations of a rewrite turn out: whether the temporary file
opens, how much of it is written (`none`: all of it), whether `remove` and
`rename` succeed. -/
structure RewriteOutcome where
  opened : Bool
  written : Option Nat
  removed : Bool
  renamed : Bool
  deriving DecidableEq, Repr

def RewriteOutcome.success : RewriteOutcome := ⟨true,none,true,true⟩

namespace AofLog
variable {hash : Bytes → Nat}

def create (existing : Option Bytes) : AofLog := ⟨some (existing.getD []),true⟩

def writeLine (log : AofLog) (line : Bytes) : AofLog :=
  ⟨some (log.file.getD [] ++ (line ++ [lf])),true⟩

def setLine (key value : Bytes) : Bytes := bytes "SET " ++ key ++ [space] ++ value

def delLine (key : Bytes) : Bytes := bytes "DEL " ++ key

def appendSet (log : AofLog) (key value : Bytes) : AofLog := log.writeLine (setLine key value)

def appendDel (log : AofLog) (key : Bytes) : AofLog := log.writeLine (delLine key)

def notBlank (c : UInt8) : Bool := decide (c ≠ space)

/-- The body of the replay loop. `line.find(' ', 4)` splits what follows `SET `. -/
def replayLine (storage : StorageEngine hash) (line : Bytes) : StorageEngine hash :=
  if (bytes "SET ").isPrefixOf line then
    match (line.drop 4).dropWhile notBlank with
    | [] => storage
    | _ :: value => (storage.set ((line.drop 4).takeWhile notBlank) value).1
  else if (bytes "DEL ").isPrefixOf line then (storage.remove (line.drop 4)).1
  else storage

def replay (log : AofLog) (storage : StorageEngine hash) : StorageEngine hash × Bool :=
  match log.file with
  | none => (storage,false)
  | some content => ((lines lf content).foldl replayLine storage,true)

def rewriteHeader : Bytes := bytes "AOFREWRITE_V1"

def rewriteText (entries : List (Bytes × Bytes)) : Bytes :=
  unlines lf (rewriteHeader :: entries.map (fun p => setLine p.1 p.2))

/-- The stream is closed before `remove` and opened again after a `rename`. The
state of the stream of the temporary file is never looked at. -/
def rewriteFrom (log : AofLog) (out : RewriteOutcome) (storage : StorageEngine hash) :
    AofLog × Bool :=
  if !out.opened then (log,false)
  else
    let text := rewriteText storage.dumpEntries
    let temp := match out.written with
      | none => text
      | some n => text.take n
    if out.renamed then (⟨some temp,true⟩,true)
    else (⟨if out.removed then none else log.file,false⟩,false)

def bytesOnDisk (log : AofLog) : Nat :=
  match log.file with
  | none => 0
  | some content => content.length

def applyLine (m : Map Bytes) (line : Bytes) : Map Bytes :=
  if (bytes "SET ").isPrefixOf line then
    match (line.drop 4).dropWhile notBlank with
    | [] => m
    | _ :: value => m.insert ((line.drop 4).takeWhile notBlank) value
  else if (bytes "DEL ").isPrefixOf line then m.erase (line.drop 4)
  else m

theorem values_replayLine (storage : StorageEngine hash) (line : Bytes) :
    (replayLine storage line).values = applyLine storage.values line := by
  unfold replayLine applyLine
  split
  · cases (line.drop 4).dropWhile notBlank with
    | nil => rfl
    | cons c value => simp
  · split
    · simp
    · rfl

theorem values_foldl_replayLine (ls : List Bytes) (storage : StorageEngine hash) :
    (ls.foldl replayLine storage).values = ls.foldl applyLine storage.values := by
  induction ls generalizing storage with
  | nil => rfl
  | cons l ls ih => simp only [List.foldl_cons,ih,values_replayLine]

theorem drop_literal (s : String) (n : Nat) (hn : (bytes s).length = n) (rest : Bytes) :
    (bytes s ++ rest).drop n = rest := by
  rw [← hn,List.drop_left]

theorem isPrefixOf_literal (s : String) (rest : Bytes) :
    (bytes s).isPrefixOf (bytes s ++ rest) = true := by
  rw [List.isPrefixOf_iff_prefix]
  exact List.prefix_append _ _

theorem applyLine_setLine {key : Bytes} (hk : space ∉ key) (value : Bytes) (m : Map Bytes) :
    applyLine m (setLine key value) = m.insert key value := by
  have hbody : setLine key value = bytes "SET " ++ (key ++ space :: value) := by
    simp [setLine]
  obtain ⟨htake,hdrop⟩ := split_first (p := notBlank) (fun _ => rfl) hk value
  simp only [applyLine,hbody,isPrefixOf_literal,if_true,drop_literal "SET " 4 (by decide),
    htake,hdrop]

theorem applyLine_delLine (key : Bytes) (m : Map Bytes) :
    applyLine m (delLine key) = m.erase key := by
  have hset : (bytes "SET ").isPrefixOf (delLine key) = false := rfl
  have hdel : (bytes "DEL ").isPrefixOf (delLine key) = true := isPrefixOf_literal "DEL " key
  have hdrop : (delLine key).drop 4 = key := drop_literal "DEL " 4 (by decide) key
  simp only [applyLine,hset,hdel,hdrop,Bool.false_eq_true,if_false,if_true]

theorem applyLine_header (m : Map Bytes) : applyLine m rewriteHeader = m := by
  have hset : (bytes "SET ").isPrefixOf rewriteHeader = false := by decide
  have hdel : (bytes "DEL ").isPrefixOf rewriteHeader = false := by decide
  simp [applyLine,hset,hdel]

/-- Keys without blank and newline, values without newline. -/
def CleanPair (key value : Bytes) : Prop := space ∉ key ∧ lf ∉ key ∧ lf ∉ value

abbrev Clean (m : Map Bytes) : Prop := Map.All CleanPair m

theorem clean_applyLine {m : Map Bytes} (h : Clean m) {line : Bytes} (hl : lf ∉ line) :
    Clean (applyLine m line) := by
  have hrest : lf ∉ line.drop 4 := fun hmem => hl (List.mem_of_mem_drop hmem)
  unfold AofLog.applyLine
  split
  · cases hd : (line.drop 4).dropWhile notBlank with
    | nil => exact h
    | cons c value =>
      refine h.insert ⟨?_,?_,?_⟩
      · exact notMem_takeWhile (fun _ => rfl) _
      · exact fun hmem => hrest ((List.takeWhile_sublist _).subset hmem)
      · intro hmem
        have hsub : value.Sublist (line.drop 4) :=
          (List.sublist_cons_self c value).trans (hd ▸ List.dropWhile_sublist _)
        exact hrest (hsub.subset hmem)
  · split
    · exact h.erase _
    · exact h

theorem clean_foldl_applyLine {ls : List Bytes} (hls : ∀ l ∈ ls, lf ∉ l) {m : Map Bytes}
    (h : Clean m) : Clean (ls.foldl AofLog.applyLine m) := by
  induction ls generalizing m with
  | nil => exact h
  | cons l ls ih =>
    exact ih (fun x hx => hls x (by simp [hx])) (clean_applyLine h (hls l (by simp)))

theorem notMem_setLine {key value : Bytes} (h : CleanPair key value) :
    lf ∉ setLine key value := by
  have hlit : lf ∉ bytes "SET " := by decide
  simp only [setLine,List.mem_append,List.mem_singleton,not_or]
  exact ⟨⟨⟨hlit,h.2.1⟩,by decide⟩,h.2.2⟩

theorem notMem_delLine {key : Bytes} (h : lf ∉ key) : lf ∉ delLine key := by
  have hlit : lf ∉ bytes "DEL " := by decide
  simp only [delLine,List.mem_append,not_or]
  exact ⟨hlit,h⟩

def logMap (content : Bytes) : Map Bytes := (lines lf content).foldl AofLog.applyLine ∅

theorem logMap_append {content line : Bytes} (h : Terminated lf content) (hl : lf ∉ line) :
    logMap (content ++ (line ++ [lf])) = AofLog.applyLine (logMap content) line := by
  have hline : lines lf (line ++ [lf]) = [line] := by
    simpa using lines_line hl []
  rw [logMap,lines_append h,hline,List.foldl_append]
  rfl

theorem clean_logMap (content : Bytes) : Clean (logMap content) :=
  clean_foldl_applyLine (fun _ hl => notMem_of_mem_lines hl) Map.all_empty

theorem foldl_setLines {l : List (Bytes × Bytes)} (h : ∀ p ∈ l, space ∉ p.1) (m : Map Bytes) :
    (l.map (fun p => setLine p.1 p.2)).foldl AofLog.applyLine m =
      l.foldl (fun m p => m.insert p.1 p.2) m := by
  induction l generalizing m with
  | nil => rfl
  | cons p l ih =>
    have hp := applyLine_setLine (h p (by simp)) p.2 m
    simp only [List.map_cons,List.foldl_cons,hp]
    exact ih (fun q hq => h q (by simp [hq])) _

theorem mem_dumpEntries {storage : StorageEngine hash} {p : Bytes × Bytes}
    (hp : p ∈ storage.dumpEntries) : storage.values.lookup p.1 = some p.2 := by
  rw [StorageEngine.values,lookup_toMap]
  exact find_of_mem storage.nodup_dumpEntries hp

theorem logMap_rewriteText {storage : StorageEngine hash} (h : Clean storage.values) :
    logMap (rewriteText storage.dumpEntries) = storage.values := by
  have hclean : ∀ p ∈ storage.dumpEntries, CleanPair p.1 p.2 := fun p hp =>
    h p.1 p.2 (mem_dumpEntries hp)
  have hlines : ∀ l ∈ rewriteHeader :: storage.dumpEntries.map (fun p => setLine p.1 p.2),
      lf ∉ l := by
    intro l hl
    rcases List.mem_cons.mp hl with rfl | hl
    · decide
    · obtain ⟨p,hp,rfl⟩ := List.mem_map.mp hl
      exact notMem_setLine (hclean p hp)
  have hread := lines_unlines hlines []
  rw [List.append_nil,lines_nil,List.append_nil] at hread
  rw [logMap,rewriteText,hread,List.foldl_cons,applyLine_header,
    foldl_setLines (fun p hp => (hclean p hp).1),foldl_insert_eq_toMap storage.nodup_dumpEntries]
  rfl

theorem values_replay (content : Bytes) (streamOpen : Bool) :
    (replay ⟨some content,streamOpen⟩ (StorageEngine.create hash)).1.values = logMap content := by
  simp only [replay,values_foldl_replayLine,StorageEngine.values_create]
  rfl

end AofLog

structure StorageHooks (hash : Bytes → Nat) where
  storage : StorageEngine hash
  aof : AofLog

namespace StorageHooks
variable {hash : Bytes → Nat}
open AofLog

def set (h : StorageHooks hash) (key value : Bytes) : StorageHooks hash × Bool :=
  (⟨(h.storage.set key value).1,
      if (h.storage.set key value).2 then h.aof.appendSet key value else h.aof⟩,
    (h.storage.set key value).2)

def remove (h : StorageHooks hash) (key : Bytes) : StorageHooks hash × Bool :=
  (⟨(h.storage.remove key).1,
      if (h.storage.remove key).2 then h.aof.appendDel key else h.aof⟩,
    (h.storage.remove key).2)

inductive Step where
  | set (key value : Bytes)
  | remove (key : Bytes)
  | rewrite
  deriving DecidableEq, Repr

def Step.Clean : Step → Prop
  | .set key value => CleanPair key value
  | .remove key => space ∉ key ∧ lf ∉ key
  | .rewrite => True

instance (s : Step) : Decidable s.Clean :=
  match s with
  | .set key value =>
    inferInstanceAs (Decidable (space ∉ key ∧ lf ∉ key ∧ lf ∉ value))
  | .remove key => inferInstanceAs (Decidable (space ∉ key ∧ lf ∉ key))
  | .rewrite => inferInstanceAs (Decidable True)

def step (h : StorageHooks hash) : Step → StorageHooks hash
  | .set key value => (h.set key value).1
  | .remove key => (h.remove key).1
  | .rewrite => ⟨h.storage,(h.aof.rewriteFrom .success h.storage).1⟩

/-- The log is a whole number of lines and denotes the live store. -/
structure InStep (h : StorageHooks hash) : Prop where
  clean : AofLog.Clean h.storage.values
  log : ∃ content, h.aof.file = some content ∧ Terminated lf content ∧
    logMap content = h.storage.values

theorem InStep.step {h : StorageHooks hash} (hs : InStep h) {s : Step} (hc : s.Clean) :
    InStep (h.step s) := by
  obtain ⟨content,hfile,hterm,hmap⟩ := hs.log
  cases s with
  | set key value =>
    refine ⟨?_,content ++ (setLine key value ++ [lf]),?_,?_,?_⟩
    · simpa [StorageHooks.step,StorageHooks.set] using hs.clean.insert hc
    · simp [StorageHooks.step,StorageHooks.set,appendSet,writeLine,hfile]
    · rw [← List.append_assoc]
      exact terminated_line lf _
    · rw [logMap_append hterm (notMem_setLine hc),applyLine_setLine hc.1,hmap]
      simp [StorageHooks.step,StorageHooks.set]
  | remove key =>
    by_cases hk : key ∈ h.storage.toMap
    · refine ⟨?_,content ++ (delLine key ++ [lf]),?_,?_,?_⟩
      · simpa [StorageHooks.step,StorageHooks.remove] using hs.clean.erase key
      · simp [StorageHooks.step,StorageHooks.remove,appendDel,writeLine,hfile,hk]
      · rw [← List.append_assoc]
        exact terminated_line lf _
      · rw [logMap_append hterm (notMem_delLine hc.2),applyLine_delLine,hmap]
        simp [StorageHooks.step,StorageHooks.remove]
    · have hsame : h.storage.values.erase key = h.storage.values :=
        Map.erase_of_notMem (fun hm => hk ((h.storage.mem_values key).mp hm))
      refine ⟨?_,content,?_,hterm,?_⟩
      · simpa [StorageHooks.step,StorageHooks.remove] using hs.clean.erase key
      · simp [StorageHooks.step,StorageHooks.remove,hk,hfile]
      · simp [StorageHooks.step,StorageHooks.remove,hsame,hmap]
  | rewrite =>
    exact ⟨hs.clean,_,rfl,terminated_unlines lf _,logMap_rewriteText hs.clean⟩

theorem InStep.run {h : StorageHooks hash} (hs : InStep h) {steps : List Step}
    (hc : ∀ s ∈ steps, s.Clean) : InStep (steps.foldl StorageHooks.step h) := by
  induction steps generalizing h with
  | nil => exact hs
  | cons s steps ih =>
    exact ih (hs.step (hc s (by simp))) (fun x hx => hc x (by simp [hx]))

def recovered (hash : Bytes → Nat) (content : Bytes) : StorageHooks hash :=
  ⟨((AofLog.create (some content)).replay (StorageEngine.create hash)).1,
    AofLog.create (some content)⟩

theorem inStep_recovered {content : Bytes} (h : Terminated lf content) :
    InStep (recovered hash content) := by
  have hv : (recovered hash content).storage.values = logMap content := values_replay content true
  exact ⟨hv ▸ clean_logMap content,content,rfl,h,hv.symm⟩

/-- Over every run of hooked writes, removes and rewrites the log replays to the
live store. -/
theorem log_reproduces_store (hash : Bytes → Nat) {content : Bytes}
    (hterm : content = [] ∨ content.getLast? = some lf) {steps : List Step}
    (hclean : ∀ s ∈ steps, s.Clean) :
    ((steps.foldl step (recovered hash content)).aof.replay (StorageEngine.create hash)).2 = true ∧
      ((steps.foldl step (recovered hash content)).aof.replay
          (StorageEngine.create hash)).1.values =
        (steps.foldl step (recovered hash content)).storage.values := by
  obtain ⟨final,hfile,-,hmap⟩ := ((inStep_recovered hterm).run hclean).log
  have haof : (steps.foldl step (recovered hash content)).aof =
      ⟨some final,(steps.foldl step (recovered hash content)).aof.streamOpen⟩ := by
    rw [← hfile]
  rw [haof]
  exact ⟨rfl,by rw [values_replay,hmap]⟩

/-- A log with a junk line, and values that are empty or look like a record. -/
theorem log_reproduces_store_example :
    let steps : List Step := [.set (bytes "k") (bytes "DEL k"),.set [] (bytes " v "),.rewrite,
      .remove (bytes "a"),.set (bytes "b") []]
    let h := steps.foldl step (recovered (fun _ => 0) (bytes "SET a 1\njunk\n"))
    (h.aof.replay (StorageEngine.create (fun _ => 0))).2 = true ∧
      (h.aof.replay (StorageEngine.create (fun _ => 0))).1.values = h.storage.values :=
  log_reproduces_store (fun _ => 0) (by decide) (by decide)

end StorageHooks
end VoltDBX
