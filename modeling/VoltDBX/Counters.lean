import VoltDBX.Conversions
import VoltDBX.Deadlines
import VoltDBX.Reference

/-!
Counters: what successive calls on one key add up to, and when the counter commands are
exact.
-/

set_option autoImplicit false

namespace VoltDBX

namespace CounterStore
variable {hash : Bytes → Nat}

/-- The key is absent and counts as 0, or it holds the decimal text of the number and has
no deadline. -/
def Holds (e : StorageEngine hash) (key : Bytes) (v : Int) : Prop :=
  e.toMap.lookup key = none ∧ v = 0 ∨
    ∃ raw, e.toMap.lookup key = some ⟨raw,none⟩ ∧ Reference.decimal raw = some v ∧ InInt64 v

theorem decimal_ne_nil {raw : Bytes} {v : Int} (h : Reference.decimal raw = some v) : raw ≠ [] := by
  intro hnil
  rw [hnil] at h
  simp [Reference.decimal,Reference.unsign] at h

theorem parseValue_decimal {raw : Bytes} {v : Int} (h : Reference.decimal raw = some v)
    (hv : InInt64 v) : parseValue (some raw) = .ok v := by
  rw [parseValue,if_neg (decimal_ne_nil h),Reference.stoll_decimal h hv]

theorem Holds.parseValue {e : StorageEngine hash} {key : Bytes} {v : Int} (h : Holds e key v)
    (now : Int) : CounterStore.parseValue (e.get now key) = .ok v := by
  rw [StorageEngine.get_eq,Map.valueAt]
  rcases h with ⟨hnone,rfl⟩ | ⟨raw,hraw,hv,hin⟩
  · rw [hnone]
    rfl
  · rw [hraw]
    exact parseValue_decimal hv hin

theorem holds_set (e : StorageEngine hash) (key : Bytes) {v : Int} (hv : InInt64 v) :
    Holds (e.set key (formatValue v)).1 key v :=
  Or.inr ⟨formatValue v,by simp,Reference.decimal_printInt v,hv⟩

inductive Write where
  | set (key value : Bytes)
  | remove (key : Bytes)
  | setTtl (now : Int) (key : Bytes) (ttl : Int)
  | touch (now now' : Int) (key : Bytes)

def Write.key : Write → Bytes
  | .set key _ => key
  | .remove key => key
  | .setTtl _ key _ => key
  | .touch _ _ key => key

def Write.apply (e : StorageEngine hash) : Write → StorageEngine hash
  | .set key value => (e.set key value).1
  | .remove key => (e.remove key).1
  | .setTtl now key ttl => (e.setTtl now key ttl).1
  | .touch now now' key => e.touch now now' key

theorem Write.lookup_apply (e : StorageEngine hash) {w : Write} {k : Bytes} (hk : k ≠ w.key) :
    (w.apply e).toMap.lookup k = e.toMap.lookup k := by
  cases w with
  | set key value =>
    have hne : k ≠ key := hk
    rw [Write.apply,StorageEngine.toMap_set,Finmap.lookup_insert_of_ne _ hne]
  | remove key =>
    have hne : k ≠ key := hk
    rw [Write.apply,StorageEngine.toMap_remove,Finmap.lookup_erase_ne hne]
  | setTtl now key ttl => exact (e.lookup_setTtl now key ttl k).trans (if_neg hk)
  | touch now now' key => exact Server.lookup_touch hk

theorem Write.apply_congr {e u : StorageEngine hash} {k : Bytes}
    (h : e.toMap.lookup k = u.toMap.lookup k) (w : Write) :
    (w.apply e).toMap.lookup k = (w.apply u).toMap.lookup k := by
  by_cases hk : k = w.key
  · cases w with
    | set key value =>
      cases hk
      simp [Write.apply,Write.key]
    | remove key =>
      cases hk
      simp [Write.apply,Write.key]
    | setTtl now key ttl =>
      simp only [Write.apply,StorageEngine.lookup_setTtl,h]
    | touch now now' key =>
      cases hk
      simp only [Write.apply,Write.key,StorageEngine.touch,StorageEngine.find_eq] at h ⊢
      rw [h]
      cases hu : u.toMap.lookup key with
      | none => exact h
      | some entry =>
        dsimp only
        cases entry.expiresAt with
        | none => exact h
        | some d => simp
  · rw [Write.lookup_apply e hk,Write.lookup_apply u hk,h]

theorem foldl_apply_congr {e u : StorageEngine hash} {k : Bytes}
    (h : e.toMap.lookup k = u.toMap.lookup k) (ws : List Write) :
    (ws.foldl Write.apply e).toMap.lookup k = (ws.foldl Write.apply u).toMap.lookup k := by
  induction ws generalizing e u with
  | nil => exact h
  | cons w ws ih => exact ih (Write.apply_congr h w)

inductive Call where
  | increment (now delta : Int)
  | decrement (now delta : Int)
  | elsewhere (w : Write)

/-- What the call adds to the counter; a write elsewhere adds nothing and is no such call. -/
def Call.delta : Call → Option Int
  | .increment _ delta => some delta
  | .decrement _ delta => some (-delta)
  | .elsewhere _ => none

def Call.write : Call → Option Write
  | .elsewhere w => some w
  | _ => none

def deltas (calls : List Call) : List Int := calls.filterMap Call.delta

def writes (calls : List Call) : List Write := calls.filterMap Call.write

def Call.Admitted (key : Bytes) : Call → Prop
  | .increment _ delta => InInt64 delta
  | .decrement _ delta => InInt64 delta ∧ delta ≠ -2^63
  | .elsewhere w => w.key ≠ key

def perform (key : Bytes) : Call → Action (StorageEngine hash) (Option Int)
  | .increment now delta => do return some (← increment now key delta)
  | .decrement now delta => do return some (← decrement now key delta)
  | .elsewhere w => updating fun e => (w.apply e,none)

def partials : Int → List Call → List (Option Int)
  | _, [] => []
  | v, .increment _ delta :: calls => some (v+delta) :: partials (v+delta) calls
  | v, .decrement _ delta :: calls => some (v-delta) :: partials (v-delta) calls
  | v, .elsewhere _ :: calls => none :: partials v calls

def total (v : Int) (ds : List Int) : Int := ds.foldl (· + ·) v

def PartialsFit (v : Int) (ds : List Int) : Prop := ∀ begun, begun <+: ds → InInt64 (total v begun)

theorem PartialsFit.cons {v d : Int} {ds : List Int} (h : PartialsFit v (d :: ds)) :
    InInt64 (v+d) ∧ PartialsFit (v+d) ds := by
  refine ⟨h [d] ⟨ds,rfl⟩,?_⟩
  intro begun hbegun
  exact h (d :: begun) ((List.prefix_cons_inj d).mpr hbegun)

theorem total_perm {ds es : List Int} (h : ds.Perm es) (v : Int) : total v ds = total v es :=
  h.foldl_eq' (fun x _ y _ z => Int.add_right_comm z x y) v

theorem run_increment_holds {e : StorageEngine hash} {key : Bytes} {v delta : Int}
    (h : Holds e key v) (hsum : InInt64 (v+delta)) (now : Int) :
    (increment now key delta).run e = .ok (v+delta) (e.set key (formatValue (v+delta))).1 := by
  rw [increment_run,h.parseValue]
  dsimp only
  rw [wrap64_of_inInt64 hsum]

theorem run_decrement_holds {e : StorageEngine hash} {key : Bytes} {v delta : Int}
    (h : Holds e key v) (hd : InInt64 delta ∧ delta ≠ -2^63) (hsum : InInt64 (v-delta))
    (now : Int) :
    (decrement now key delta).run e = .ok (v-delta) (e.set key (formatValue (v-delta))).1 := by
  have hneg : InInt64 (-delta) := by
    unfold InInt64 at hd ⊢
    omega
  rw [decrement,wrap64_of_inInt64 hneg,Int.sub_eq_add_neg]
  exact run_increment_holds h hsum now

/-- The calls return the partial sums; afterwards the key has the total, if any of them was
made on it, and every other key has what the writes made of it. -/
def Adds (key : Bytes) (v : Int) (calls : List Call) (e : StorageEngine hash) : Prop :=
  ∃ t, (Runs.runAll (perform key) calls).run e = .ok (partials v calls) t ∧
    t.toMap.lookup key = (if deltas calls = [] then e.toMap.lookup key
      else some ⟨formatValue (total v (deltas calls)),none⟩) ∧
    ∀ k ≠ key, t.toMap.lookup k = ((writes calls).foldl Write.apply e).toMap.lookup k

theorem Adds.count {key : Bytes} {v d : Int} {c : Call} {calls : List Call}
    {e : StorageEngine hash} (hdelta : c.delta = some d) (hwrite : c.write = none)
    (hpartials : partials v (c :: calls) = some (v+d) :: partials (v+d) calls)
    (hstep : (perform key c).run e = .ok (some (v+d)) (e.set key (formatValue (v+d))).1)
    (hrest : Adds key (v+d) calls (e.set key (formatValue (v+d))).1) :
    Adds key v (c :: calls) e := by
  obtain ⟨t,hrun,hkey,hothers⟩ := hrest
  have hdeltas : deltas (c :: calls) = d :: deltas calls := by simp [deltas,hdelta]
  have hwrites : writes (c :: calls) = writes calls := by simp [writes,hwrite]
  refine ⟨t,?_,?_,?_⟩
  · rw [hpartials]
    exact Runs.runAll_cons.mpr ⟨_,_,_,hstep,hrun,rfl⟩
  · have hne : d :: deltas calls ≠ [] := by simp
    rw [hkey,hdeltas,if_neg hne]
    by_cases hnil : deltas calls = []
    · simp [hnil,total]
    · rw [if_neg hnil]
      rfl
  · intro k hk
    rw [hothers k hk,hwrites]
    exact foldl_apply_congr (by rw [StorageEngine.toMap_set,Finmap.lookup_insert_of_ne _ hk]) _

theorem Adds.elsewhere {key : Bytes} {v : Int} {w : Write} {calls : List Call}
    {e : StorageEngine hash} (hw : key ≠ w.key) (hrest : Adds key v calls (w.apply e)) :
    Adds key v (.elsewhere w :: calls) e := by
  obtain ⟨t,hrun,hkey,hothers⟩ := hrest
  have hdeltas : deltas (.elsewhere w :: calls) = deltas calls := rfl
  have hwrites : writes (.elsewhere w :: calls) = w :: writes calls := rfl
  refine ⟨t,?_,?_,?_⟩
  · exact Runs.runAll_cons.mpr ⟨none,w.apply e,_,rfl,hrun,rfl⟩
  · rw [hkey,hdeltas,Write.lookup_apply e hw]
  · intro k hk
    rw [hothers k hk,hwrites,List.foldl_cons]

theorem adds_of_holds {key : Bytes} {calls : List Call} {v : Int} {e : StorageEngine hash}
    (h : Holds e key v) (hcalls : ∀ c ∈ calls, c.Admitted key)
    (hfit : PartialsFit v (deltas calls)) : Adds key v calls e := by
  induction calls generalizing v e with
  | nil => exact ⟨e,rfl,rfl,fun _ _ => rfl⟩
  | cons c calls ih =>
    have hc := hcalls c (by simp)
    have hrest : ∀ x ∈ calls, x.Admitted key := fun x hx => hcalls x (by simp [hx])
    cases c with
    | increment now delta =>
      obtain ⟨hsum,htail⟩ := PartialsFit.cons hfit
      refine Adds.count (d := delta) rfl rfl rfl ?_ (ih (holds_set e key hsum) hrest htail)
      simp only [perform,EStateM.run_bind,run_increment_holds h hsum now,EStateM.run_pure]
    | decrement now delta =>
      obtain ⟨hsum,htail⟩ := PartialsFit.cons hfit
      refine Adds.count (d := -delta) rfl rfl rfl ?_ (ih (holds_set e key hsum) hrest htail)
      simp only [perform,EStateM.run_bind,run_decrement_holds h hc hsum now,EStateM.run_pure]
      rfl
    | elsewhere w =>
      have hne : key ≠ w.key := Ne.symm hc
      refine Adds.elsewhere hne (ih ?_ hrest hfit)
      unfold Holds
      rw [Write.lookup_apply e hne]
      exact h

theorem read_formatValue {e : StorageEngine hash} {key : Bytes} {v : Int}
    (h : e.toMap.lookup key = some ⟨formatValue v,none⟩) (hv : InInt64 v) (now : Int) :
    read e now key = .ok (some v) := by
  have hget : e.get now key = some (formatValue v) := by
    rw [StorageEngine.get_eq,Map.valueAt,h]
    rfl
  have hparse : parseValue (some (formatValue v)) = .ok v :=
    parseValue_decimal (Reference.decimal_printInt v) hv
  rw [read,hget]
  dsimp only
  rw [hparse]
  rfl

theorem read_congr {e u : StorageEngine hash} {key : Bytes}
    (h : e.toMap.lookup key = u.toMap.lookup key) (now : Int) : read e now key = read u now key := by
  simp only [read,StorageEngine.get_eq,Map.valueAt,h]

/-- Successive calls add up: each returns the sum so far and the counter reads as the total,
or as at the start if there was no call on it; the order of the deltas does not matter. -/
theorem counter_calls_add_up {e : StorageEngine hash} {key : Bytes} {v : Int} (h : Holds e key v)
    {calls : List Call} (hcalls : ∀ c ∈ calls, c.Admitted key)
    (hfit : PartialsFit v (deltas calls)) :
    ∃ t, (Runs.runAll (perform key) calls).run e = .ok (partials v calls) t ∧
      (∀ now, read t now key = if deltas calls = [] then read e now key
        else .ok (some (total v (deltas calls)))) ∧
      ∀ others, (∀ c ∈ others, c.Admitted key) → PartialsFit v (deltas others) →
        (deltas others).Perm (deltas calls) → writes others = writes calls →
        ∃ u, (Runs.runAll (perform key) others).run e = .ok (partials v others) u ∧
          u.toMap = t.toMap := by
  obtain ⟨t,hrun,hkey,hothers⟩ := adds_of_holds h hcalls hfit
  refine ⟨t,hrun,?_,?_⟩
  · intro now
    by_cases hnil : deltas calls = []
    · rw [if_pos hnil] at hkey ⊢
      exact read_congr hkey now
    · rw [if_neg hnil] at hkey ⊢
      exact read_formatValue hkey (hfit _ (List.prefix_refl _)) now
  · intro others hadmitted hfit' hperm hwrites
    obtain ⟨u,hrun',hkey',hothers'⟩ := adds_of_holds h hadmitted hfit'
    refine ⟨u,hrun',Finmap.ext_lookup fun k => ?_⟩
    by_cases hk : k = key
    · rw [hk,hkey,hkey',total_perm hperm]
      by_cases hnil : deltas calls = []
      · rw [if_pos hnil,if_pos (by simpa [hnil] using hperm)]
      · rw [if_neg hnil,if_neg fun hnil' => hnil (by simpa [hnil'] using hperm.symm)]
    · rw [hothers k hk,hothers' k hk,hwrites]

theorem holds_create (key : Bytes) : Holds (StorageEngine.create hash) key 0 :=
  Or.inl ⟨by simp,rfl⟩

/-- Five more and seven less, with a write to another key in between. -/
theorem counter_calls_add_up_example :
    let calls := [Call.increment 0 5,.elsewhere (.set (bytes "x") (bytes "1")),.decrement 9 7]
    ∃ t : StorageEngine (fun _ => 0),
      (Runs.runAll (perform (bytes "n")) calls).run (StorageEngine.create _) =
        .ok [some 5,none,some (-2)] t ∧ read t 10 (bytes "n") = .ok (some (-2)) := by
  intro calls
  have hcalls : ∀ c ∈ calls, c.Admitted (bytes "n") := by
    intro c hc
    simp only [calls,List.mem_cons,List.not_mem_nil,or_false] at hc
    rcases hc with rfl | rfl | rfl
    · show InInt64 5
      decide
    · show bytes "x" ≠ bytes "n"
      decide
    · show InInt64 7 ∧ (7 : Int) ≠ -2^63
      decide
  have hfit : PartialsFit 0 (deltas calls) := by
    intro begun hbegun
    have hdeltas : deltas calls = [5,-7] := rfl
    rw [hdeltas,← List.mem_inits] at hbegun
    simp only [List.inits,List.map_cons,List.map_nil,List.mem_cons,List.not_mem_nil,or_false] at hbegun
    rcases hbegun with rfl | rfl | rfl
    · decide
    · decide
    · decide
  have hstart : Holds (StorageEngine.create (fun _ => 0)) (bytes "n") 0 := holds_create _
  obtain ⟨t,hrun,hread,-⟩ := counter_calls_add_up hstart hcalls hfit
  exact ⟨t,hrun,hread 10⟩

end CounterStore

inductive CounterCommand (key : Bytes) : Int → ParsedCommand → Prop where
  | incr (name : Bytes) : CounterCommand key 1 ⟨.incr,name,[key]⟩
  | decr (name : Bytes) : CounterCommand key (-1) ⟨.decr,name,[key]⟩
  | incrby (name amount : Bytes) (delta : Int) (h : stoll amount = .ok delta) :
      CounterCommand key delta ⟨.incrby,name,[key,amount]⟩

/-- The number a live value is as a whole; an absent or expired key counts as 0. -/
def wholeNumber : Option Bytes → Option Int
  | none => some 0
  | some raw => (Reference.decimal raw).filter fun v => decide (InInt64 v)

def exactSum (value : Option Bytes) (delta : Int) : Option Int :=
  ((wholeNumber value).map (· + delta)).filter fun v => decide (InInt64 v)

theorem wholeNumber_eq_some {raw : Bytes} {v : Int} :
    wholeNumber (some raw) = some v ↔ Reference.decimal raw = some v ∧ InInt64 v := by
  simp [wholeNumber,Option.filter_eq_some_iff]

theorem exactSum_of_number {value : Option Bytes} {v delta : Int}
    (h : wholeNumber value = some v) :
    exactSum value delta = if InInt64 (v+delta) then some (v+delta) else none := by
  rw [exactSum,h,Option.map_some,Option.filter_some]
  by_cases hsum : InInt64 (v+delta)
  · simp [hsum]
  · simp [hsum]

theorem exactSum_of_no_number {value : Option Bytes} (h : wholeNumber value = none)
    (delta : Int) : exactSum value delta = none := by
  rw [exactSum,h]
  rfl

namespace Server
variable {hash : Bytes → Nat}

/-- The command fails and the key keeps its value, or it stores and returns the exact sum,
leaves a live key's deadline as it is and every other key alone. -/
def ExactOrFails (s : Server hash) (now : Int) (key : Bytes) (delta : Int)
    (r : EStateM.Result Raised (Server hash) Bytes) : Prop :=
  match exactSum (s.storage.get now key) delta with
  | none => Failed r ∧ (stateOf r).storage.get now key = s.storage.get now key
  | some sum => ∃ t, r = .ok (integerResponse sum) t ∧
      t.storage.get now key = some (Decimal.printInt sum) ∧
      (∀ entry, s.storage.toMap.lookup key = some entry → entry.live now = true →
        (t.storage.toMap.lookup key).map StorageEntry.expiresAt = some entry.expiresAt) ∧
      ∀ k ≠ key, t.storage.toMap.lookup k = s.storage.toMap.lookup k

/-- A live value either makes the conversion raise, or is a whole number without a deadline
that has room for the sum. -/
def Countable (s : Server hash) (now : Int) (key : Bytes) (delta : Int) : Prop :=
  ∀ entry, s.storage.toMap.lookup key = some entry → entry.live now = true →
    entry.value ≠ [] ∧ ¬ AcceptsLong entry.value ∨
      ∃ v, Reference.decimal entry.value = some v ∧ InInt64 v ∧ InInt64 (v+delta) ∧
        entry.expiresAt = none

theorem dispatch_counter {key : Bytes} {delta : Int} {cmd : ParsedCommand}
    (hcmd : CounterCommand key delta cmd) (env : Env) (s : Server hash) :
    (dispatch env cmd).run s = mapState (fun e => { s.recordCommand with storage := e })
      (counted (env.clock 0) key delta s.storage) := by
  rw [run_dispatch]
  cases hcmd with
  | incr name =>
    change mapState _ ((handleIncr _ _).run s.storage) = _
    rw [run_handleIncr]
  | decr name =>
    change mapState _ ((handleDecr _ _).run s.storage) = _
    rw [run_handleDecr]
  | incrby name amount delta h =>
    change mapState _ ((handleIncrby _ _).run s.storage) = _
    rw [run_handleIncrby]
    dsimp only
    rw [h]

theorem CounterCommand.inInt64 {key : Bytes} {delta : Int} {cmd : ParsedCommand}
    (h : CounterCommand key delta cmd) : InInt64 delta := by
  cases h with
  | incr name => decide
  | decr name => decide
  | incrby name amount delta h => exact stoll_inInt64 h

theorem not_failed_integer {σ : Type} (v : Int) (s : σ) :
    ¬ Failed (.ok (integerResponse v) s) := by
  have hcolon : bytes ":" = [58] := by decide
  simp only [Failed,integerResponse,hcolon,List.cons_append,List.head?_cons,Option.some.injEq]
  decide

theorem exactOrFails_stored {s : Server hash} {now delta sum current : Int} {key : Bytes}
    (hsum : exactSum (s.storage.get now key) delta = some sum)
    (hparse : CounterStore.parseValue (s.storage.get now key) = .ok current)
    (hvalue : wrap64 (current+delta) = sum) :
    s.ExactOrFails now key delta (mapState (fun e => { s.recordCommand with storage := e })
        (counted now key delta s.storage)) ↔
      ∀ entry, s.storage.toMap.lookup key = some entry → entry.live now = true →
        entry.expiresAt = none := by
  have hcounted : counted now key delta s.storage = .ok (integerResponse sum)
      (s.storage.set key (CounterStore.formatValue sum)).1 := by
    rw [counted,hparse]
    dsimp only
    rw [hvalue]
  rw [ExactOrFails,hsum,hcounted]
  dsimp only [mapState]
  constructor
  · intro h entry hentry hlive
    obtain ⟨t,ht,-,hdeadline,-⟩ := h
    cases ht
    have hsame := hdeadline entry hentry hlive
    rw [StorageEngine.toMap_set,Finmap.lookup_insert,Option.map_some,Option.some.injEq] at hsame
    exact hsame.symm
  · intro h
    refine ⟨_,rfl,?_,?_,?_⟩
    · rw [StorageEngine.get_eq,StorageEngine.toMap_set,Map.valueAt,Finmap.lookup_insert]
      rfl
    · intro entry hentry hlive
      rw [StorageEngine.toMap_set,Finmap.lookup_insert,h entry hentry hlive]
      rfl
    · intro k hk
      rw [StorageEngine.toMap_set,Finmap.lookup_insert_of_ne _ hk]

theorem exactOrFails_refused {s : Server hash} {now delta : Int} {key : Bytes}
    (hsum : exactSum (s.storage.get now key) delta = none) :
    s.ExactOrFails now key delta (mapState (fun e => { s.recordCommand with storage := e })
        (counted now key delta s.storage)) ↔
      ∃ x, CounterStore.parseValue (s.storage.get now key) = .error x := by
  rw [ExactOrFails,hsum,counted]
  cases hparse : CounterStore.parseValue (s.storage.get now key) with
  | error x =>
    refine iff_of_true ⟨trivial,rfl⟩ ⟨x,rfl⟩
  | ok current =>
    refine iff_of_false ?_ (by simp)
    intro h
    exact not_failed_integer _ _ h.1

theorem exactOrFails_absent {s : Server hash} {now delta : Int} {key : Bytes}
    (hdelta : InInt64 delta) (hget : s.storage.get now key = none) :
    s.ExactOrFails now key delta (mapState (fun e => { s.recordCommand with storage := e })
      (counted now key delta s.storage)) := by
  have hexact : exactSum (s.storage.get now key) delta = some delta := by
    have hnumber : wholeNumber none = some 0 := rfl
    rw [hget,exactSum_of_number hnumber,Int.zero_add,if_pos hdelta]
  have hparse : CounterStore.parseValue (s.storage.get now key) = .ok 0 := by
    rw [hget]
    rfl
  rw [exactOrFails_stored hexact hparse (by rw [Int.zero_add,wrap64_of_inInt64 hdelta])]
  intro entry hentry hl
  rw [StorageEngine.get_eq_none_iff] at hget
  rw [hget entry hentry] at hl
  cases hl

theorem exactOrFails_number {s : Server hash} {now delta v : Int} {key : Bytes}
    {entry : StorageEntry} (hentry : s.storage.toMap.lookup key = some entry)
    (hl : entry.live now = true) (hget : s.storage.get now key = some entry.value)
    (hnumber : wholeNumber (some entry.value) = some v) :
    s.ExactOrFails now key delta (mapState (fun e => { s.recordCommand with storage := e })
        (counted now key delta s.storage)) ↔ InInt64 (v+delta) ∧ entry.expiresAt = none := by
  obtain ⟨hdecimal,hv⟩ := wholeNumber_eq_some.mp hnumber
  have hparse : CounterStore.parseValue (s.storage.get now key) = .ok v := by
    rw [hget]
    exact CounterStore.parseValue_decimal hdecimal hv
  by_cases hsum : InInt64 (v+delta)
  · have hexact : exactSum (s.storage.get now key) delta = some (v+delta) := by
      rw [hget,exactSum_of_number hnumber,if_pos hsum]
    rw [exactOrFails_stored hexact hparse (wrap64_of_inInt64 hsum)]
    simp [hentry,hl,hsum]
  · have hexact : exactSum (s.storage.get now key) delta = none := by
      rw [hget,exactSum_of_number hnumber,if_neg hsum]
    rw [exactOrFails_refused hexact,hparse]
    simp [hsum]

theorem exactOrFails_no_number {s : Server hash} {now delta : Int} {key raw : Bytes}
    (hget : s.storage.get now key = some raw) (hnumber : wholeNumber (some raw) = none) :
    s.ExactOrFails now key delta (mapState (fun e => { s.recordCommand with storage := e })
        (counted now key delta s.storage)) ↔ raw ≠ [] ∧ ¬ AcceptsLong raw := by
  have hexact : exactSum (s.storage.get now key) delta = none := by
    rw [hget]
    exact exactSum_of_no_number hnumber delta
  have hraises := parseValue_ok_iff (some raw)
  simp only [CounterText] at hraises
  rw [exactOrFails_refused hexact,hget,← not_or,← hraises]
  cases CounterStore.parseValue (some raw) with
  | error x => simp
  | ok v => simp

theorem exactOrFails_counted {s : Server hash} {now delta : Int} {key : Bytes}
    (hdelta : InInt64 delta) :
    s.ExactOrFails now key delta (mapState (fun e => { s.recordCommand with storage := e })
        (counted now key delta s.storage)) ↔ s.Countable now key delta := by
  by_cases hlive : ∃ entry, s.storage.toMap.lookup key = some entry ∧ entry.live now = true
  · obtain ⟨entry,hentry,hl⟩ := hlive
    have hget : s.storage.get now key = some entry.value := by
      rw [StorageEngine.get_eq,Map.valueAt,hentry]
      simp [hl]
    have hall : s.Countable now key delta ↔ entry.value ≠ [] ∧ ¬ AcceptsLong entry.value ∨
        ∃ v, Reference.decimal entry.value = some v ∧ InInt64 v ∧ InInt64 (v+delta) ∧
          entry.expiresAt = none := by
      simp [Countable,hentry,hl]
    rw [hall]
    cases hnumber : wholeNumber (some entry.value) with
    | some v =>
      obtain ⟨hdecimal,hv⟩ := wholeNumber_eq_some.mp hnumber
      have haccepts : AcceptsLong entry.value :=
        (stoll_ok_iff _).mp ⟨v,Reference.stoll_decimal hdecimal hv⟩
      rw [exactOrFails_number hentry hl hget hnumber]
      simp [hdecimal,hv,haccepts]
    | none =>
      have hnot : ¬ ∃ v, Reference.decimal entry.value = some v ∧ InInt64 v ∧
          InInt64 (v+delta) ∧ entry.expiresAt = none := by
        intro h
        obtain ⟨v,hdecimal,hv,-,-⟩ := h
        rw [wholeNumber_eq_some.mpr ⟨hdecimal,hv⟩] at hnumber
        cases hnumber
      rw [exactOrFails_no_number hget hnumber,or_iff_left hnot]
  · have hget : s.storage.get now key = none := by
      rw [StorageEngine.get_eq_none_iff]
      intro entry hentry
      cases hl : entry.live now with
      | false => rfl
      | true => exact absurd ⟨entry,hentry,hl⟩ hlive
    refine iff_of_true (exactOrFails_absent hdelta hget) ?_
    intro entry hentry hl
    exact absurd ⟨entry,hentry,hl⟩ hlive

/-- A counter command is exact or fails just when the live value, if there is one, makes the
conversion raise or is a whole number without a deadline and with room for the sum. -/
theorem counter_exact_iff {key : Bytes} {delta : Int} {cmd : ParsedCommand}
    (hcmd : CounterCommand key delta cmd) (env : Env) (s : Server hash) :
    s.ExactOrFails (env.clock 0) key delta ((dispatch env cmd).run s) ↔
      s.Countable (env.clock 0) key delta := by
  rw [dispatch_counter hcmd]
  exact exactOrFails_counted (CounterCommand.inInt64 hcmd)

def keeping (s : Server hash) (entry : StorageEntry) : Server hash :=
  { s with storage := s.storage.insert (bytes "n") entry }

theorem lookup_keeping (s : Server hash) (entry : StorageEntry) :
    (keeping s entry).storage.toMap.lookup (bytes "n") = some entry := by
  simp [keeping]

theorem counter_exact_iff_seven :
    (keeping (create (fun _ => 0) {}) ⟨bytes "7",none⟩).ExactOrFails 0 (bytes "n") 1
      ((dispatch ⟨fun _ => 0,.success⟩ ⟨.incr,bytes "INCR",[bytes "n"]⟩).run
        (keeping (create (fun _ => 0) {}) ⟨bytes "7",none⟩)) := by
  generalize create (fun _ => 0) {} = server
  refine (counter_exact_iff (.incr (bytes "INCR")) ⟨fun _ => 0,.success⟩
    (keeping server ⟨bytes "7",none⟩)).mpr ?_
  intro entry hentry _
  rw [lookup_keeping,Option.some.injEq] at hentry
  rw [← hentry]
  exact Or.inr ⟨7,by decide,by decide,by decide,rfl⟩

def IncrExact (entry : StorageEntry) : Prop :=
  (keeping (create (fun _ => 0) {}) entry).ExactOrFails 0 (bytes "n") 1
    ((dispatch ⟨fun _ => 0,.success⟩ ⟨.incr,bytes "INCR",[bytes "n"]⟩).run
      (keeping (create (fun _ => 0) {}) entry))

theorem not_incrExact {entry : StorageEntry} {number : Int} (hlive : entry.live 0 = true)
    (hstoll : stoll entry.value = .ok number)
    (hno : ∀ v, Reference.decimal entry.value = some v → InInt64 (v+1) →
      entry.expiresAt = none → False) : ¬ IncrExact entry := by
  unfold IncrExact
  rw [dispatch_counter (.incr (bytes "INCR")),exactOrFails_counted (by decide)]
  intro h
  rcases h entry (lookup_keeping _ entry) hlive with ⟨-,hraises⟩ | ⟨v,hv,-,hsum,hnone⟩
  · exact hraises ((stoll_ok_iff _).mp ⟨number,hstoll⟩)
  · exact hno v hv hsum hnone

/-- A sum out of range, a number with words behind it, and a counter that is to expire. -/
theorem counters_are_not_exact :
    ¬ IncrExact ⟨bytes "9223372036854775807",none⟩ ∧ ¬ IncrExact ⟨bytes "12 apples",none⟩ ∧
      ¬ IncrExact ⟨bytes "5",some 1000000000⟩ := by
  refine ⟨?_,?_,?_⟩
  · have hstoll : stoll (bytes "9223372036854775807") = .ok 9223372036854775807 := by rfl
    refine not_incrExact rfl hstoll ?_
    intro v hv hsum _
    have hdecimal : Reference.decimal (bytes "9223372036854775807") =
        some 9223372036854775807 := by decide
    rw [hdecimal,Option.some.injEq] at hv
    rw [← hv] at hsum
    exact absurd hsum (by decide)
  · have hstoll : stoll (bytes "12 apples") = .ok 12 := by rfl
    refine not_incrExact rfl hstoll ?_
    intro v hv _ _
    have hdecimal : Reference.decimal (bytes "12 apples") = none := by decide
    rw [hdecimal] at hv
    cases hv
  · have hstoll : stoll (bytes "5") = .ok 5 := by rfl
    refine not_incrExact rfl hstoll ?_
    intro v _ _ hnone
    cases hnone

end Server

end VoltDBX
