import VoltDBX.Handlers
import VoltDBX.Runs

/-!
Commands that take more than one call on the shared table, when other clients and
the sweep run between the calls: the counters, which read and then write, and
`set_ttl` and `purge_expired`, which look and then change.
-/

set_option autoImplicit false

namespace VoltDBX
open KeyedList

structure Reading where
  value : Int
  delta : Int
  deriving DecidableEq, Repr

/-- Clients that count on one key; `reads` has those between their `get` and their `set`. -/
structure CounterClients (hash : Bytes → Nat) where
  storage : StorageEngine hash
  reads : List (Nat × Reading)

namespace CounterClients
variable {hash : Bytes → Nat}

inductive Step where
  | get (client : Nat) (now delta : Int)
  | set (client : Nat)
  deriving DecidableEq, Repr

/-- `CounterStore::increment` in two steps. A text that does not convert raises, so
that step is not taken. -/
def step (key : Bytes) : Step → CounterClients hash → Option (CounterClients hash)
  | .get c now delta, s =>
    match find c s.reads, CounterStore.parseValue (s.storage.get now key) with
    | none, .ok value => some { s with reads := (c,⟨value,delta⟩) :: s.reads }
    | _, _ => none
  | .set c, s =>
    match find c s.reads, remove c s.reads with
    | some r, some rest => some
        ⟨(s.storage.set key (CounterStore.formatValue (wrap64 (r.value+r.delta)))).1,rest⟩
    | _, _ => none

theorem step_get {key : Bytes} {s t : CounterClients hash} {c : Nat} {now delta : Int}
    (h : step key (.get c now delta) s = some t) :
    ∃ value, CounterStore.parseValue (s.storage.get now key) = .ok value ∧
      t = { s with reads := (c,⟨value,delta⟩) :: s.reads } := by
  cases hc : find c s.reads with
  | some r => simp [step,hc] at h
  | none =>
    cases hv : CounterStore.parseValue (s.storage.get now key) with
    | error x => simp [step,hc,hv] at h
    | ok value =>
      simp only [step,hc,hv,Option.some.injEq] at h
      exact ⟨value,rfl,h.symm⟩

theorem step_set {key : Bytes} {s t : CounterClients hash} {c : Nat}
    (h : step key (.set c) s = some t) :
    ∃ r rest, find c s.reads = some r ∧ remove c s.reads = some rest ∧
      t = ⟨(s.storage.set key (CounterStore.formatValue (wrap64 (r.value+r.delta)))).1,rest⟩ := by
  cases hc : find c s.reads with
  | none => simp [step,hc] at h
  | some r =>
    cases hr : remove c s.reads with
    | none => simp [step,hc,hr] at h
    | some rest =>
      simp only [step,hc,hr,Option.some.injEq] at h
      exact ⟨r,rest,rfl,rfl,h.symm⟩

/-- The two steps without interruption are the call. -/
theorem moves_increment {key : Bytes} {s t : CounterClients hash} {c : Nat} {now delta : Int}
    (h : Runs.Moves (step key) s [.get c now delta,.set c] t) :
    ∃ next, (CounterStore.increment now key delta).run s.storage = .ok next t.storage ∧
      t.reads = s.reads := by
  obtain ⟨u,hu,h⟩ := Runs.moves_cons.mp h
  obtain ⟨v,hv,h⟩ := Runs.moves_cons.mp h
  cases Runs.moves_nil.mp h
  obtain ⟨value,hvalue,rfl⟩ := step_get hu
  obtain ⟨r,rest,hr,hrest,rfl⟩ := step_set hv
  simp only [find,remove,if_true,Option.some.injEq] at hr hrest
  subst hr
  subst hrest
  exact ⟨wrap64 (value+delta),by rw [CounterStore.increment_run,hvalue],rfl⟩

/-- At every time the key reads as the number: it has it and no deadline, or it is
absent and the number is 0. -/
def Counts (storage : StorageEngine hash) (key : Bytes) (v : Int) : Prop :=
  ∀ now, CounterStore.parseValue (storage.get now key) = .ok v

theorem counts_set (storage : StorageEngine hash) (key : Bytes) {v : Int} (hv : InInt64 v) :
    Counts (storage.set key (CounterStore.formatValue v)).1 key v := by
  intro now
  have hget : (storage.set key (CounterStore.formatValue v)).1.get now key =
      some (Decimal.printInt v) := by
    simp [StorageEngine.get_eq,Map.valueAt,StorageEntry.live,CounterStore.formatValue]
  have hne : Decimal.printInt v ≠ [] := by
    intro hnil
    have hraise := stoll_printInt hv
    rw [hnil] at hraise
    cases hraise
  rw [hget,CounterStore.parseValue,if_neg hne,stoll_printInt hv]

theorem Counts.unique {storage : StorageEngine hash} {key : Bytes} {v w : Int}
    (hv : Counts storage key v) (hw : Counts storage key w) : v = w := by
  have heq := (hv 0).symm.trans (hw 0)
  cases heq
  rfl

def Step.delta : Step → Int
  | .get _ _ delta => delta
  | .set _ => 0

def InRange (s : CounterClients hash) (i : Step) : Prop :=
  ∀ c r, i = .set c → find c s.reads = some r → InInt64 (r.value+r.delta)

/-- A client that is about to write has read what the key still holds. -/
def Current (key : Bytes) (s : CounterClients hash) (i : Step) : Prop :=
  ∀ c r, i = .set c → find c s.reads = some r → Counts s.storage key r.value

def outstanding (reads : List (Nat × Reading)) : Int := (reads.map (fun r => r.2.delta)).sum

theorem outstanding_remove {c : Nat} {reads rest : List (Nat × Reading)} {r : Reading}
    (hfind : find c reads = some r) (hremove : remove c reads = some rest) :
    outstanding reads = r.delta+outstanding rest := by
  induction reads generalizing rest with
  | nil => simp [find] at hfind
  | cons p reads ih =>
    by_cases hp : p.1 = c
    · simp only [find,remove,hp,if_true,Option.some.injEq] at hfind hremove
      subst hfind
      subst hremove
      simp [outstanding]
    · simp only [find,remove,hp,if_false,Option.map_eq_some_iff] at hfind hremove
      obtain ⟨rest',hrest',rfl⟩ := hremove
      have hrec := ih hfind hrest'
      simp only [outstanding,List.map_cons,List.sum_cons] at hrec ⊢
      omega

/-- One step: the stored number and what is outstanding grow by the step's delta. -/
theorem counts_step {key : Bytes} {s t : CounterClients hash} {i : Step} {v : Int}
    (hv : Counts s.storage key v) (hrange : InRange s i) (hcurrent : Current key s i)
    (h : step key i s = some t) :
    Counts t.storage key (v+outstanding s.reads+i.delta-outstanding t.reads) := by
  cases i with
  | get c now delta =>
    obtain ⟨value,-,rfl⟩ := step_get h
    have hsum : v+outstanding s.reads+Step.delta (.get c now delta)-
        outstanding ((c,⟨value,delta⟩) :: s.reads) = v := by
      simp only [outstanding,Step.delta,List.map_cons,List.sum_cons]
      omega
    rw [hsum]
    exact hv
  | set c =>
    obtain ⟨r,rest,hr,hrest,rfl⟩ := step_set h
    have hread : v = r.value := hv.unique (hcurrent c r rfl hr)
    have hsum : v+outstanding s.reads+Step.delta (.set c)-outstanding rest = r.value+r.delta := by
      have hout := outstanding_remove hr hrest
      simp only [Step.delta]
      omega
    rw [hsum,wrap64_of_inInt64 (hrange c r rfl hr)]
    exact counts_set s.storage key (hrange c r rfl hr)

theorem counts_moves {key : Bytes} {steps : List Step} {s t : CounterClients hash} {v : Int}
    (hv : Counts s.storage key v) (hrange : Runs.AlongMoves (step key) InRange s steps)
    (hcurrent : Runs.AlongMoves (step key) (Current key) s steps)
    (hrun : Runs.Moves (step key) s steps t) :
    Counts t.storage key
      (v+outstanding s.reads+(steps.map Step.delta).sum-outstanding t.reads) := by
  induction steps generalizing s v with
  | nil =>
    cases Runs.moves_nil.mp hrun
    have hsum : v+outstanding t.reads+(([] : List Step).map Step.delta).sum-
        outstanding t.reads = v := by
      simp only [List.map_nil,List.sum_nil]
      omega
    rw [hsum]
    exact hv
  | cons i steps ih =>
    obtain ⟨u,hi,hrest⟩ := Runs.moves_cons.mp hrun
    have hfinal := ih (counts_step hv hrange.head hcurrent.head hi) (hrange.tail hi)
      (hcurrent.tail hi) hrest
    have hsum : v+outstanding s.reads+i.delta-outstanding u.reads+outstanding u.reads+
        (steps.map Step.delta).sum-outstanding t.reads =
        v+outstanding s.reads+((i :: steps).map Step.delta).sum-outstanding t.reads := by
      simp only [List.map_cons,List.sum_cons]
      omega
    rw [← hsum]
    exact hfinal

/-- No increment is lost in an interleaving where no client writes on top of a value
it has not read. -/
theorem increments_add_up {hash : Bytes → Nat} {key : Bytes} {storage : StorageEngine hash}
    {v : Int} (hv : Counts storage key v) {steps : List Step} {t : CounterClients hash}
    (hrun : Runs.Moves (step key) ⟨storage,[]⟩ steps t) (hdone : t.reads = [])
    (hrange : Runs.AlongMoves (step key) InRange ⟨storage,[]⟩ steps)
    (hcurrent : Runs.AlongMoves (step key) (Current key) ⟨storage,[]⟩ steps) :
    Counts t.storage key (v+(steps.map Step.delta).sum) := by
  have hfinal := counts_moves hv hrange hcurrent hrun
  rw [hdone] at hfinal
  simpa [outstanding] using hfinal

theorem counts_create (key : Bytes) : Counts (StorageEngine.create hash) key 0 := by
  intro now
  rw [StorageEngine.get_eq,StorageEngine.toMap_create,Map.valueAt,Finmap.lookup_empty]
  rfl

theorem step_get_counts {key : Bytes} {s : CounterClients hash} {c : Nat} {v : Int}
    (hv : Counts s.storage key v) (hc : find c s.reads = none) (now delta : Int) :
    step key (.get c now delta) s = some ⟨s.storage,(c,⟨v,delta⟩) :: s.reads⟩ := by
  simp only [step,hc,hv now]

/-- Two clients that have both read the key before either writes it; the first to write adds
nothing. -/
theorem increments_add_up_example :
    ∃ t : CounterClients (fun _ => 0),
      Runs.Moves (step (bytes "n")) ⟨StorageEngine.create _,[]⟩
        [.get 0 10 1,.get 1 20 0,.set 1,.set 0] t ∧ t.reads = [] ∧
      Counts t.storage (bytes "n") 1 := by
  have h0 := @counts_create (fun _ => 0) (bytes "n")
  generalize StorageEngine.create (fun _ => 0) = e at h0
  have h1 := counts_set e (bytes "n") (v := 0) (by decide)
  have hget0 : step (bytes "n") (.get 0 10 1) ⟨e,[]⟩ = some ⟨e,[(0,⟨0,1⟩)]⟩ :=
    step_get_counts h0 rfl 10 1
  have hget1 : step (bytes "n") (.get 1 20 0) ⟨e,[(0,⟨0,1⟩)]⟩ =
      some ⟨e,[(1,⟨0,0⟩),(0,⟨0,1⟩)]⟩ := step_get_counts h0 rfl 20 0
  have hset1 : step (bytes "n") (.set 1) ⟨e,[(1,⟨0,0⟩),(0,⟨0,1⟩)]⟩ =
      some ⟨(e.set (bytes "n") (CounterStore.formatValue 0)).1,[(0,⟨0,1⟩)]⟩ := rfl
  have hset0 : ∀ e' : StorageEngine (fun _ => 0), step (bytes "n") (.set 0) ⟨e',[(0,⟨0,1⟩)]⟩ =
      some ⟨(e'.set (bytes "n") (CounterStore.formatValue 1)).1,[]⟩ := fun _ => rfl
  have hrun := Runs.moves_cons.mpr ⟨_,hget0,Runs.moves_cons.mpr ⟨_,hget1,
    Runs.moves_cons.mpr ⟨_,hset1,Runs.moves_cons.mpr ⟨_,hset0 _,Runs.moves_nil.mpr rfl⟩⟩⟩⟩
  have hfirst : ∀ c r, Step.set 1 = .set c →
      find c [(1,(⟨0,0⟩ : Reading)),(0,⟨0,1⟩)] = some r → r = ⟨0,0⟩ := by
    intro c r hc hr
    cases hc
    exact (Option.some.inj hr).symm
  have hlast : ∀ c r, Step.set 0 = .set c → find c [(0,(⟨0,1⟩ : Reading))] = some r →
      r = ⟨0,1⟩ := by
    intro c r hc hr
    cases hc
    exact (Option.some.inj hr).symm
  refine ⟨_,hrun,rfl,increments_add_up h0 hrun rfl ?_ ?_⟩
  · refine Runs.alongMoves_cons hget0 (by simp [InRange]) ?_
    refine Runs.alongMoves_cons hget1 (by simp [InRange]) ?_
    refine Runs.alongMoves_cons hset1 (fun c r hc hr => by rw [hfirst c r hc hr]; decide) ?_
    exact Runs.alongMoves_cons (hset0 _) (fun c r hc hr => by rw [hlast c r hc hr]; decide) trivial
  · refine Runs.alongMoves_cons hget0 (by simp [Current]) ?_
    refine Runs.alongMoves_cons hget1 (by simp [Current]) ?_
    refine Runs.alongMoves_cons hset1 (fun c r hc hr => by rw [hfirst c r hc hr]; exact h0) ?_
    exact Runs.alongMoves_cons (hset0 _) (fun c r hc hr => by rw [hlast c r hc hr]; exact h1) trivial

/-- Two increments that read before either writes: one is lost. -/
theorem increment_is_lost :
    ∃ t : CounterClients (fun _ => 0),
      Runs.Moves (step (bytes "n")) ⟨StorageEngine.create _,[]⟩
        [.get 0 10 1,.get 1 20 1,.set 0,.set 1] t ∧ t.reads = [] ∧
      Counts (StorageEngine.create (fun _ => 0)) (bytes "n") 0 ∧
      ¬ Counts t.storage (bytes "n") 2 := by
  have h0 := @counts_create (fun _ => 0) (bytes "n")
  generalize StorageEngine.create (fun _ => 0) = e at h0
  have hget0 : step (bytes "n") (.get 0 10 1) ⟨e,[]⟩ = some ⟨e,[(0,⟨0,1⟩)]⟩ :=
    step_get_counts h0 rfl 10 1
  have hget1 : step (bytes "n") (.get 1 20 1) ⟨e,[(0,⟨0,1⟩)]⟩ =
      some ⟨e,[(1,⟨0,1⟩),(0,⟨0,1⟩)]⟩ := step_get_counts h0 rfl 20 1
  have hset0 : step (bytes "n") (.set 0) ⟨e,[(1,⟨0,1⟩),(0,⟨0,1⟩)]⟩ =
      some ⟨(e.set (bytes "n") (CounterStore.formatValue 1)).1,[(1,⟨0,1⟩)]⟩ := rfl
  have hset1 : ∀ e' : StorageEngine (fun _ => 0), step (bytes "n") (.set 1) ⟨e',[(1,⟨0,1⟩)]⟩ =
      some ⟨(e'.set (bytes "n") (CounterStore.formatValue 1)).1,[]⟩ := fun _ => rfl
  refine ⟨_,Runs.moves_cons.mpr ⟨_,hget0,Runs.moves_cons.mpr ⟨_,hget1,
    Runs.moves_cons.mpr ⟨_,hset0,Runs.moves_cons.mpr ⟨_,hset1 _,Runs.moves_nil.mpr rfl⟩⟩⟩⟩,
    rfl,h0,fun h2 => ?_⟩
  have heq := (counts_set _ (bytes "n") (v := 1) (by decide)).unique h2
  cases heq

end CounterClients

/-- An EXPIRE between its `find` and its `insert`. -/
structure Expiring where
  key : Bytes
  entry : StorageEntry
  ttl : Int
  deriving DecidableEq, Repr

/-- The store, the EXPIRE each client has under way, and what each sweep has gathered
and not erased yet. -/
structure ExpiryClients (hash : Bytes → Nat) where
  storage : StorageEngine hash
  expiring : Nat → Option Expiring
  sweeping : Nat → List Bytes

namespace ExpiryClients
variable {hash : Bytes → Nat}

inductive Step where
  | set (key value : Bytes)
  | delete (key : Bytes)
  | find (client : Nat) (key : Bytes) (ttl : Int)
  | insert (client : Nat) (now : Int)
  | gather (sweep : Nat) (clock : Nat → Int)
  | erase (sweep : Nat)

/-- `set` and `remove` make one call on the table. `set_ttl` looks the key up and, when
it is there, inserts the copy; `purge_expired` gathers keys and erases them by name. -/
def step : Step → ExpiryClients hash → Option (ExpiryClients hash)
  | .set key value, s => some { s with storage := (s.storage.set key value).1 }
  | .delete key, s => some { s with storage := (s.storage.remove key).1 }
  | .find c key ttl, s =>
    match s.expiring c with
    | some _ => none
    | none =>
      let found := (s.storage.table.find hash key).map fun entry => ⟨key,entry,ttl⟩
      some { s with expiring := Function.update s.expiring c found }
  | .insert c now, s =>
    match s.expiring c with
    | none => none
    | some x => some { s with
        storage := s.storage.insert x.key ⟨x.entry.value,some (deadline now x.ttl)⟩
        expiring := Function.update s.expiring c none }
  | .gather w clock, s =>
    match s.sweeping w with
    | _ :: _ => none
    | [] =>
      let expired := (s.storage.table.forEach (StorageEngine.gatherExpired clock) (0,[])).2
      some { s with sweeping := Function.update s.sweeping w expired }
  | .erase w, s =>
    match s.sweeping w with
    | [] => none
    | key :: rest => some { s with
        storage := (s.storage.remove key).1
        sweeping := Function.update s.sweeping w rest }

theorem step_find {s t : ExpiryClients hash} {c : Nat} {key : Bytes} {ttl : Int}
    (h : step (.find c key ttl) s = some t) :
    t = ⟨s.storage,Function.update s.expiring c
      ((s.storage.table.find hash key).map fun entry => ⟨key,entry,ttl⟩),s.sweeping⟩ := by
  cases hc : s.expiring c with
  | some x => simp [step,hc] at h
  | none =>
    simp only [step,hc,Option.some.injEq] at h
    exact h.symm

theorem step_insert {s t : ExpiryClients hash} {c : Nat} {now : Int}
    (h : step (.insert c now) s = some t) :
    ∃ x, s.expiring c = some x ∧ t = { s with
      storage := s.storage.insert x.key ⟨x.entry.value,some (deadline now x.ttl)⟩
      expiring := Function.update s.expiring c none } := by
  cases hc : s.expiring c with
  | none => simp [step,hc] at h
  | some x =>
    simp only [step,hc,Option.some.injEq] at h
    exact ⟨x,rfl,h.symm⟩

theorem step_gather {s t : ExpiryClients hash} {w : Nat} {clock : Nat → Int}
    (h : step (.gather w clock) s = some t) :
    t = ⟨s.storage,s.expiring,Function.update s.sweeping w
      (s.storage.table.forEach (StorageEngine.gatherExpired clock) (0,[])).2⟩ := by
  cases hw : s.sweeping w with
  | cons key rest => simp [step,hw] at h
  | nil =>
    simp only [step,hw,Option.some.injEq] at h
    exact h.symm

theorem step_erase {s t : ExpiryClients hash} {w : Nat} (h : step (.erase w) s = some t) :
    ∃ key rest, s.sweeping w = key :: rest ∧ t = { s with
      storage := (s.storage.remove key).1
      sweeping := Function.update s.sweeping w rest } := by
  cases hw : s.sweeping w with
  | nil => simp [step,hw] at h
  | cons key rest =>
    simp only [step,hw,Option.some.injEq] at h
    exact ⟨key,rest,rfl,h.symm⟩

theorem moves_setTtl {s t : ExpiryClients hash} {c : Nat} {key : Bytes} {ttl now : Int}
    (h : Runs.Moves step s [.find c key ttl,.insert c now] t) :
    (t.storage,true) = s.storage.setTtl now key ttl := by
  obtain ⟨u,hu,h⟩ := Runs.moves_cons.mp h
  obtain ⟨v,hv,h⟩ := Runs.moves_cons.mp h
  cases Runs.moves_nil.mp h
  rw [step_find hu] at hv
  obtain ⟨x,hx,rfl⟩ := step_insert hv
  simp only [Function.update_self] at hx
  obtain ⟨entry,hfind,rfl⟩ := Option.map_eq_some_iff.mp hx
  simp only [StorageEngine.setTtl,hfind]

theorem moves_erases {w : Nat} {s t : ExpiryClients hash} {n : Nat}
    (h : Runs.Moves step s (List.replicate n (.erase w)) t) (hn : (s.sweeping w).length = n) :
    t.storage = (s.sweeping w).foldl (fun e key => (e.remove key).1) s.storage := by
  induction n generalizing s with
  | zero =>
    cases Runs.moves_nil.mp h
    rw [List.eq_nil_of_length_eq_zero hn]
    rfl
  | succ n ih =>
    obtain ⟨u,hu,h⟩ := Runs.moves_cons.mp h
    obtain ⟨key,rest,hs,rfl⟩ := step_erase hu
    rw [ih h (by simpa [hs] using hn),hs]
    simp

theorem moves_purgeExpired {w : Nat} {clock : Nat → Int} {s t : ExpiryClients hash}
    (h : Runs.Moves step s (.gather w clock :: List.replicate
      (s.storage.table.forEach (StorageEngine.gatherExpired clock) (0,[])).2.length (.erase w)) t) :
    t.storage = s.storage.purgeExpired clock := by
  obtain ⟨u,hu,h⟩ := Runs.moves_cons.mp h
  rw [step_gather hu] at h
  rw [moves_erases h (by simp)]
  simp [StorageEngine.purgeExpired]

/-- A write of a key meets no EXPIRE of it between its two steps, unless that one
carries the value written, and a SET no sweep that has gathered the key. -/
def Undisturbed (s : ExpiryClients hash) : Step → Prop
  | .set key value => (∀ c x, s.expiring c = some x → x.key = key → x.entry.value = value) ∧
      ∀ w, key ∉ s.sweeping w
  | .delete key => ∀ c x, s.expiring c = some x → x.key ≠ key
  | _ => True

/-- The sweep reads the clock no later than `now`, and a deadline the key is given is
still to come then. -/
def Unexpired (key : Bytes) (now : Int) (s : ExpiryClients hash) : Step → Prop
  | .gather _ clock => ∀ n, clock n ≤ now
  | .insert c reading => ∀ x, s.expiring c = some x → x.key = key → now < deadline reading x.ttl
  | _ => True

structure Gone (key : Bytes) (s : ExpiryClients hash) : Prop where
  absent : s.storage.toMap.lookup key = none
  idle : ∀ c x, s.expiring c = some x → x.key ≠ key

/-- The key has the value at `now`, and neither an EXPIRE nor a sweep is about to
change that. -/
structure Kept (key value : Bytes) (now : Int) (s : ExpiryClients hash) : Prop where
  entry : ∃ entry, s.storage.toMap.lookup key = some entry ∧ entry.value = value ∧
    entry.live now = true
  same : ∀ c x, s.expiring c = some x → x.key = key → x.entry.value = value
  unswept : ∀ w, key ∉ s.sweeping w

theorem expiring_update {f : Nat → Option Expiring} {c d : Nat} {x : Expiring}
    {found : Option Expiring} (h : Function.update f d found c = some x) :
    f c = some x ∨ found = some x := by
  by_cases hc : c = d
  · rw [hc,Function.update_self] at h
    exact Or.inr h
  · rw [Function.update_of_ne hc] at h
    exact Or.inl h

theorem lookup_remove_of_absent {e : StorageEngine hash} {key : Bytes} (k : Bytes)
    (h : e.toMap.lookup key = none) : (e.remove k).1.toMap.lookup key = none := by
  rw [StorageEngine.toMap_remove]
  by_cases hk : key = k
  · rw [hk,Finmap.lookup_erase]
  · rw [Finmap.lookup_erase_ne hk,h]

theorem Gone.step {key : Bytes} {s t : ExpiryClients hash} {i : Step} (hs : s.Gone key)
    (hset : ∀ value, i ≠ .set key value) (h : ExpiryClients.step i s = some t) :
    t.Gone key := by
  cases i with
  | set k value =>
    cases h
    have hk : key ≠ k := fun heq => hset value (heq ▸ rfl)
    refine ⟨?_,hs.idle⟩
    rw [StorageEngine.toMap_set,Finmap.lookup_insert_of_ne _ hk,hs.absent]
  | delete k =>
    cases h
    exact ⟨lookup_remove_of_absent k hs.absent,hs.idle⟩
  | find c k ttl =>
    obtain rfl := step_find h
    refine ⟨hs.absent,fun d x hx => ?_⟩
    rcases expiring_update hx with hold | hfound
    · exact hs.idle d x hold
    · -- only a key that is there is remembered
      obtain ⟨entry,hentry,rfl⟩ := Option.map_eq_some_iff.mp hfound
      intro heq
      have hkey : k = key := heq
      rw [StorageEngine.find_eq,hkey,hs.absent] at hentry
      cases hentry
  | insert c now =>
    obtain ⟨x,hc,rfl⟩ := step_insert h
    refine ⟨?_,fun d y hy => ?_⟩
    · have hk : key ≠ x.key := (hs.idle c x hc).symm
      rw [StorageEngine.toMap_insert,Finmap.lookup_insert_of_ne _ hk,hs.absent]
    · rcases expiring_update hy with hold | hnone
      · exact hs.idle d y hold
      · cases hnone
  | gather w clock =>
    obtain rfl := step_gather h
    exact ⟨hs.absent,hs.idle⟩
  | erase w =>
    obtain ⟨k,rest,-,rfl⟩ := step_erase h
    exact ⟨lookup_remove_of_absent k hs.absent,hs.idle⟩

theorem sweeping_update {f : Nat → List Bytes} {w v : Nat} {rest : List Bytes} {key : Bytes}
    (hold : ∀ w, key ∉ f w) (hnew : key ∉ rest) : key ∉ Function.update f v rest w := by
  by_cases hw : w = v
  · rw [hw,Function.update_self]
    exact hnew
  · rw [Function.update_of_ne hw]
    exact hold w

theorem Kept.step {key value : Bytes} {now : Int} {s t : ExpiryClients hash} {i : Step}
    (hs : s.Kept key value now) (hset : ∀ v, i ≠ .set key v) (hdelete : i ≠ .delete key)
    (htime : s.Unexpired key now i) (h : ExpiryClients.step i s = some t) :
    t.Kept key value now := by
  obtain ⟨entry,hentry,hvalue,hlive⟩ := hs.entry
  cases i with
  | set k v =>
    cases h
    have hk : key ≠ k := fun heq => hset v (heq ▸ rfl)
    refine ⟨⟨entry,?_,hvalue,hlive⟩,hs.same,hs.unswept⟩
    rw [StorageEngine.toMap_set,Finmap.lookup_insert_of_ne _ hk,hentry]
  | delete k =>
    cases h
    have hk : key ≠ k := fun heq => hdelete (heq ▸ rfl)
    refine ⟨⟨entry,?_,hvalue,hlive⟩,hs.same,hs.unswept⟩
    rw [StorageEngine.toMap_remove,Finmap.lookup_erase_ne hk,hentry]
  | find c k ttl =>
    obtain rfl := step_find h
    refine ⟨hs.entry,fun d x hx hkey => ?_,hs.unswept⟩
    rcases expiring_update hx with hold | hfound
    · exact hs.same d x hold hkey
    · obtain ⟨found,hfind,rfl⟩ := Option.map_eq_some_iff.mp hfound
      have hkey' : k = key := hkey
      rw [StorageEngine.find_eq,hkey',hentry] at hfind
      cases hfind
      exact hvalue
  | insert c reading =>
    obtain ⟨x,hc,rfl⟩ := step_insert h
    refine ⟨?_,fun d y hy hkey => ?_,hs.unswept⟩
    · by_cases hk : key = x.key
      · refine ⟨⟨x.entry.value,some (deadline reading x.ttl)⟩,?_,hs.same c x hc hk.symm,?_⟩
        · rw [StorageEngine.toMap_insert,hk,Finmap.lookup_insert]
        · simpa [StorageEntry.live] using htime x hc hk.symm
      · refine ⟨entry,?_,hvalue,hlive⟩
        rw [StorageEngine.toMap_insert,Finmap.lookup_insert_of_ne _ hk,hentry]
    · rcases expiring_update hy with hold | hnone
      · exact hs.same d y hold hkey
      · cases hnone
  | gather w clock =>
    obtain rfl := step_gather h
    refine ⟨hs.entry,hs.same,fun v => sweeping_update hs.unswept fun hin => ?_⟩
    obtain ⟨found,n,hfound,hdead⟩ := s.storage.mem_gathered hin
    rw [hentry] at hfound
    cases hfound
    rw [StorageEntry.live_of_le (htime n) hlive] at hdead
    cases hdead
  | erase w =>
    obtain ⟨k,rest,hw,rfl⟩ := step_erase h
    have hnot := hs.unswept w
    rw [hw,List.mem_cons,not_or] at hnot
    refine ⟨⟨entry,?_,hvalue,hlive⟩,hs.same,fun v => sweeping_update hs.unswept hnot.2⟩
    rw [StorageEngine.toMap_remove,Finmap.lookup_erase_ne hnot.1,hentry]

theorem Gone.moves {key : Bytes} {steps : List Step} {s t : ExpiryClients hash}
    (hs : s.Gone key) (hset : ∀ value, .set key value ∉ steps)
    (hrun : Runs.Moves ExpiryClients.step s steps t) : t.Gone key := by
  refine Runs.moves_invariant (fun i hi u v hu hmove => ?_) hs hrun
  have hnot : ∀ value, i ≠ .set key value := fun value heq => hset value (heq ▸ hi)
  exact hu.step hnot hmove

theorem Kept.moves {key value : Bytes} {now : Int} {steps : List Step} {s t : ExpiryClients hash}
    (hs : s.Kept key value now) (hset : ∀ v, .set key v ∉ steps) (hdelete : .delete key ∉ steps)
    (htime : Runs.AlongMoves ExpiryClients.step (Unexpired key now) s steps)
    (hrun : Runs.Moves ExpiryClients.step s steps t) : t.Kept key value now := by
  refine Runs.moves_keeps (fun i hi u v hu htimely hmove => ?_) hs htime hrun
  have hnot : ∀ v, i ≠ .set key v := fun v heq => hset v (heq ▸ hi)
  have hkeep : i ≠ .delete key := fun heq => hdelete (heq ▸ hi)
  exact hu.step hnot hkeep htimely hmove

/-- A key stays deleted until the next SET of it, and keeps what it was set to until
the next SET or DELETE of it or a deadline it was given since, where that write falls
neither between the steps of an EXPIRE of the key nor between those of a sweep. -/
theorem expiry_undoes_no_write {hash : Bytes → Nat} {s t : ExpiryClients hash} {key : Bytes}
    {i : Step} {steps : List Step} (hrun : Runs.Moves step s (i :: steps) t)
    (hset : ∀ value, .set key value ∉ steps) (hclear : Undisturbed s i) :
    (i = .delete key → t.storage.toMap.lookup key = none) ∧
    ∀ value now, i = .set key value → .delete key ∉ steps →
      Runs.AlongMoves step (Unexpired key now) s (i :: steps) →
      t.storage.get now key = some value := by
  obtain ⟨u,hi,hrest⟩ := Runs.moves_cons.mp hrun
  refine ⟨fun hdel => ?_,fun value now hput hdelete htime => ?_⟩
  · subst hdel
    have hidle : ∀ c x, s.expiring c = some x → x.key ≠ key := hclear
    have hu : u.Gone key := by
      cases hi
      exact ⟨by rw [StorageEngine.toMap_remove,Finmap.lookup_erase],hidle⟩
    exact (hu.moves hset hrest).absent
  · subst hput
    have hhead : (∀ c x, s.expiring c = some x → x.key = key → x.entry.value = value) ∧
        ∀ w, key ∉ s.sweeping w := hclear
    have hu : u.Kept key value now := by
      cases hi
      exact ⟨⟨⟨value,none⟩,by rw [StorageEngine.toMap_set,Finmap.lookup_insert],rfl,rfl⟩,
        hhead.1,hhead.2⟩
    obtain ⟨entry,hentry,hvalue,hlive⟩ := (hu.moves hset hdelete (htime.tail hi) hrest).entry
    rw [StorageEngine.get_eq,Map.valueAt,hentry]
    simp [hvalue,hlive]

/-- A key set with nothing under way, given a deadline, and looked at by a sweep before
the deadline. -/
theorem expiry_undoes_no_write_example :
    ∃ t : ExpiryClients (fun _ => 0),
      Runs.Moves step ⟨StorageEngine.create _,fun _ => none,fun _ => []⟩
        [.set (bytes "k") (bytes "v"),.find 0 (bytes "k") 1,.insert 0 0,.gather 0 (fun _ => 5)]
        t ∧ t.storage.get 5 (bytes "k") = some (bytes "v") := by
  generalize StorageEngine.create (fun _ => 0) = e
  have hfound : (e.set (bytes "k") (bytes "v")).1.table.find (fun _ => 0) (bytes "k") =
      some ⟨bytes "v",none⟩ := by
    rw [StorageEngine.find_eq,StorageEngine.toMap_set,Finmap.lookup_insert]
  generalize he : (e.set (bytes "k") (bytes "v")).1 = e1 at hfound
  let s0 : ExpiryClients (fun _ => 0) := ⟨e,fun _ => none,fun _ => []⟩
  let s1 : ExpiryClients (fun _ => 0) := ⟨e1,fun _ => none,fun _ => []⟩
  let s2 : ExpiryClients (fun _ => 0) :=
    ⟨e1,Function.update (fun _ => none) 0 (some ⟨bytes "k",⟨bytes "v",none⟩,1⟩),fun _ => []⟩
  let s3 : ExpiryClients (fun _ => 0) :=
    ⟨e1.insert (bytes "k") ⟨bytes "v",some (deadline 0 1)⟩,
      Function.update s2.expiring 0 none,fun _ => []⟩
  have h1 : step (.set (bytes "k") (bytes "v")) s0 = some s1 := by simp only [step,s0,s1,he]
  have h2 : step (.find 0 (bytes "k") 1) s1 = some s2 := by
    simp only [step,s1,s2,hfound,Option.map_some]
  have h3 : step (.insert 0 0) s2 = some s3 := rfl
  have h4 : ∃ s4, step (.gather 0 (fun _ => 5)) s3 = some s4 := ⟨_,rfl⟩
  obtain ⟨s4,h4⟩ := h4
  have hrun := Runs.moves_cons.mpr ⟨_,h1,Runs.moves_cons.mpr ⟨_,h2,
    Runs.moves_cons.mpr ⟨_,h3,Runs.moves_cons.mpr ⟨_,h4,Runs.moves_nil.mpr rfl⟩⟩⟩⟩
  refine ⟨s4,hrun,(@expiry_undoes_no_write _ s0 s4 (bytes "k") _ _ hrun (by simp) ?_).2
    (bytes "v") 5 rfl (by simp) ?_⟩
  · exact ⟨by simp [s0],by simp [s0]⟩
  · refine Runs.alongMoves_cons h1 trivial (Runs.alongMoves_cons h2 trivial ?_)
    refine Runs.alongMoves_cons h3 (fun x hx _ => ?_) ?_
    · simp only [s2,Function.update_self,Option.some.injEq] at hx
      subst hx
      decide
    · exact Runs.alongMoves_cons h4 (fun _ => Int.le_refl 5) trivial

theorem moves_set_find (e : StorageEngine hash) (key value : Bytes) (ttl : Int) :
    Runs.Moves step ⟨e,fun _ => none,fun _ => []⟩ [.set key value,.find 0 key ttl]
      ⟨(e.set key value).1,Function.update (fun _ => none) 0 (some ⟨key,⟨value,none⟩,ttl⟩),
        fun _ => []⟩ := by
  have hfound : (e.set key value).1.table.find hash key = some ⟨value,none⟩ := by
    rw [StorageEngine.find_eq,StorageEngine.toMap_set,Finmap.lookup_insert]
  refine Runs.moves_cons.mpr ⟨_,rfl,Runs.moves_cons.mpr ⟨_,?_,Runs.moves_nil.mpr rfl⟩⟩
  simp only [step,hfound,Option.map_some]

/-- A DELETE between the steps of an EXPIRE is undone by it, and a SET between those of
a sweep is erased by it. -/
theorem expiry_undoes_writes :
    (∃ (s : ExpiryClients (fun _ => 0)) (t : ExpiryClients (fun _ => 0)),
      Runs.Moves step ⟨StorageEngine.create _,fun _ => none,fun _ => []⟩
        [.set (bytes "k") (bytes "v"),.find 0 (bytes "k") 1] s ∧
      Runs.Moves step s [.delete (bytes "k"),.insert 0 0] t ∧
      t.storage.toMap.lookup (bytes "k") ≠ none) ∧
    ∃ (s : ExpiryClients (fun _ => 0)) (t : ExpiryClients (fun _ => 0)),
      Runs.Moves step ⟨StorageEngine.create _,fun _ => none,fun _ => []⟩
        [.set (bytes "k") (bytes "v"),.find 0 (bytes "k") 0,.insert 0 0,.gather 0 (fun _ => 0)] s ∧
      Runs.Moves step s [.set (bytes "k") (bytes "w"),.erase 0] t ∧
      t.storage.get 0 (bytes "k") ≠ some (bytes "w") := by
  have hempty := @StorageEngine.toMap_create (fun _ => 0)
  generalize StorageEngine.create (fun _ => 0) = e at hempty
  constructor
  · refine ⟨_,_,moves_set_find e (bytes "k") (bytes "v") 1,Runs.moves_cons.mpr ⟨_,rfl,
      Runs.moves_cons.mpr ⟨_,rfl,Runs.moves_nil.mpr rfl⟩⟩,?_⟩
    rw [StorageEngine.toMap_insert,Finmap.lookup_insert]
    simp
  · obtain ⟨e1,he1⟩ : ∃ e1, e1 = (e.set (bytes "k") (bytes "v")).1.insert (bytes "k")
        ⟨bytes "v",some (deadline 0 0)⟩ := ⟨_,rfl⟩
    have hmap : e1.toMap = (e.toMap.insert (bytes "k") ⟨bytes "v",none⟩).insert (bytes "k")
        ⟨bytes "v",some (deadline 0 0)⟩ := by
      rw [he1,StorageEngine.toMap_insert,StorageEngine.toMap_set]
    -- the sweep gathers the one key there is
    have hgathered : ∃ rest, (e1.table.forEach (StorageEngine.gatherExpired (fun _ => 0)) (0,[])).2 =
        bytes "k" :: rest := by
      have hin : bytes "k" ∈ (e1.table.forEach (StorageEngine.gatherExpired (fun _ => 0)) (0,[])).2 :=
        e1.gathered_of_expired (by rw [hmap,Finmap.lookup_insert]) (fun _ => by decide)
      have hall := fun key => @StorageEngine.mem_gathered _ e1 (fun _ => 0) key
      generalize (e1.table.forEach (StorageEngine.gatherExpired (fun _ => 0)) (0,[])).2 = l at hin hall
      cases l with
      | nil => simp at hin
      | cons key rest =>
        obtain ⟨entry,_,hentry,-⟩ := hall key (by simp)
        by_cases hkey : key = bytes "k"
        · exact ⟨rest,by rw [hkey]⟩
        · rw [hmap,hempty,Finmap.lookup_insert_of_ne _ hkey,Finmap.lookup_insert_of_ne _ hkey,
            Finmap.lookup_empty] at hentry
          cases hentry
    obtain ⟨rest,hgathered⟩ := hgathered
    obtain ⟨s,hs,hsweeping⟩ : ∃ s, Runs.Moves step ⟨e,fun _ => none,fun _ => []⟩
        ([.set (bytes "k") (bytes "v"),.find 0 (bytes "k") 0] ++
          [.insert 0 0,.gather 0 (fun _ => 0)]) s ∧ s.sweeping 0 = bytes "k" :: rest :=
      ⟨_,Runs.moves_append.mpr ⟨_,moves_set_find e (bytes "k") (bytes "v") 0,Runs.moves_cons.mpr
        ⟨_,rfl,Runs.moves_cons.mpr ⟨_,rfl,Runs.moves_nil.mpr rfl⟩⟩⟩,he1 ▸ hgathered⟩
    have hset : step (.set (bytes "k") (bytes "w")) s =
        some { s with storage := (s.storage.set (bytes "k") (bytes "w")).1 } := rfl
    have herase : ∃ t, step (.erase 0) { s with storage := (s.storage.set (bytes "k") (bytes "w")).1 } =
        some t ∧ t.storage.toMap.lookup (bytes "k") = none := by
      simp only [step,hsweeping]
      exact ⟨_,rfl,by rw [StorageEngine.toMap_remove,Finmap.lookup_erase]⟩
    obtain ⟨t,ht,hgone⟩ := herase
    refine ⟨s,t,hs,Runs.moves_cons.mpr ⟨_,hset,Runs.moves_cons.mpr ⟨t,ht,Runs.moves_nil.mpr rfl⟩⟩,?_⟩
    rw [StorageEngine.get_eq,Map.valueAt,hgone]
    simp

end ExpiryClients
end VoltDBX
