import VoltDBX.Expiry

/-!
When a deadline takes effect: the sweep against the readings it takes, and EXPIRE against
the exact time it was asked for.
-/

set_option autoImplicit false

namespace VoltDBX

namespace StorageEngine
variable {hash : Bytes → Nat}

/-- The keys with a deadline, in the order in which `purge_expired` meets them: the `i`-th of
them is compared with the `i`-th reading. -/
def deadlines (e : StorageEngine hash) : List (Bytes × Int) := timed e.table.visits

theorem purgeExpired_lookup (e : StorageEngine hash) (clock : Nat → Int) (key : Bytes) :
    (e.purgeExpired clock).toMap.lookup key =
      if key ∈ overdue clock e.deadlines 0 then none else e.toMap.lookup key := by
  rw [purgeExpired,lookup_foldl_remove,gathered_eq,deadlines,HashTable.visits_eq]

theorem mem_purgeExpired (e : StorageEngine hash) (clock : Nat → Int) (key : Bytes) :
    key ∈ (e.purgeExpired clock).toMap ↔ key ∈ e.toMap ∧ key ∉ overdue clock e.deadlines 0 := by
  rw [← Finmap.lookup_isSome,← Finmap.lookup_isSome,purgeExpired_lookup]
  by_cases hgone : key ∈ overdue clock e.deadlines 0
  · simp [hgone]
  · simp [hgone]

theorem overdue_entry {e : StorageEngine hash} {clock : Nat → Int} {key : Bytes}
    (h : key ∈ overdue clock e.deadlines 0) :
    ∃ i d entry, i < e.deadlines.length ∧ e.toMap.lookup key = some entry ∧
      entry.expiresAt = some d ∧ d ≤ clock i := by
  obtain ⟨i,d,hi,hle⟩ := mem_overdue.mp h
  have hmem := List.mem_of_getElem? hi
  rw [deadlines,HashTable.visits_eq] at hmem
  obtain ⟨entry,hentry,hd⟩ := e.mem_timed.mp hmem
  exact ⟨i,d,entry,(List.getElem?_eq_some_iff.mp hi).1,hentry,hd,hle⟩

theorem get_purgeExpired (e : StorageEngine hash) {clock : Nat → Int} {t : Int}
    (ht : ∀ i, i < e.deadlines.length → clock i ≤ t) (key : Bytes) :
    (e.purgeExpired clock).get t key = e.get t key := by
  rw [get_eq,get_eq,Map.valueAt,Map.valueAt,purgeExpired_lookup]
  by_cases hgone : key ∈ overdue clock e.deadlines 0
  · obtain ⟨i,d,entry,hi,hentry,hd,hle⟩ := overdue_entry hgone
    have hdead : entry.live t = false := by
      have := ht i hi
      simp only [StorageEntry.live,hd,decide_eq_false_iff_not]
      omega
    simp [hgone,hentry,hdead]
  · rw [if_neg hgone]

/-- A sweep removes the keys whose deadline is not after the reading taken when they were met
and leaves every other entry as it is; at no time from the last reading on is that seen. -/
theorem purgeExpired_removes_expired (e : StorageEngine hash) (clock : Nat → Int) :
    (∀ key, key ∈ e.toMap ∧ key ∉ (e.purgeExpired clock).toMap ↔
      ∃ i d, e.deadlines[i]? = some (key,d) ∧ d ≤ clock i) ∧
    (∀ key ∈ (e.purgeExpired clock).toMap,
      (e.purgeExpired clock).toMap.lookup key = e.toMap.lookup key) ∧
    (e.purgeExpired clock).entryCount+(e.toMap.keys \ (e.purgeExpired clock).toMap.keys).card =
      e.entryCount ∧
    (e.purgeExpired clock).table.Valid hash ∧
    ((∀ i j, i ≤ j → j < e.deadlines.length → clock i ≤ clock j) →
      ∀ t, (∀ i, i+1 = e.deadlines.length → clock i ≤ t) →
        ∀ key, (e.purgeExpired clock).get t key = e.get t key) := by
  have hmem := e.mem_purgeExpired clock
  refine ⟨?_,?_,?_,(e.purgeExpired clock).valid,?_⟩
  · intro key
    rw [← mem_overdue,hmem]
    constructor
    · intro h
      by_contra hkept
      exact h.2 ⟨h.1,hkept⟩
    · intro h
      obtain ⟨-,-,entry,-,hentry,-⟩ := overdue_entry h
      exact ⟨Finmap.mem_iff.mpr ⟨entry,hentry⟩,fun hin => hin.2 h⟩
  · intro key hkey
    rw [purgeExpired_lookup,if_neg ((hmem key).mp hkey).2]
  · have hsub : (e.purgeExpired clock).toMap.keys ⊆ e.toMap.keys := by
      intro key hkey
      rw [Finmap.mem_keys] at hkey ⊢
      exact ((hmem key).mp hkey).1
    rw [entryCount_eq,entryCount_eq,Nat.add_comm]
    exact Finset.card_sdiff_add_card_eq_card hsub
  · intro hmono t hlast key
    refine e.get_purgeExpired ?_ key
    intro i hi
    exact Int.le_trans (hmono i _ (by omega) (by omega)) (hlast (e.deadlines.length-1) (by omega))

end StorageEngine

/-- The keys whose entry the command may write, remove or give a deadline; FLUSHDB, which
names none and removes all, is kept apart. -/
def ParsedCommand.changed (cmd : ParsedCommand) : List Bytes :=
  match cmd.type with
  | .delete | .expire => cmd.args.take 1
  | _ => cmd.written

namespace Server
variable {hash : Bytes → Nat}

theorem dispatch_lookup (env : Env) {cmd : ParsedCommand} {key : Bytes}
    (h : key ∉ cmd.changed) (hflush : cmd.type ≠ .flushdb) (s : Server hash) :
    OnReturn (fun _ t => t.storage.toMap.lookup key = s.storage.toMap.lookup key)
      ((dispatch env cmd).run s) := by
  rw [run_dispatch]
  cases ht : cmd.type <;> simp only [ParsedCommand.changed,ParsedCommand.written,ht] at h
  case set => exact onReturn_focus (handleSet_lookup h)
  case mset => exact onReturn_focus (handleMset_lookup h)
  case delete => exact onReturn_focus (handleDelete_lookup h)
  case incr => exact onReturn_focus (handleIncr_lookup _ h)
  case decr => exact onReturn_focus (handleDecr_lookup _ h)
  case incrby => exact onReturn_focus (handleIncrby_lookup _ h)
  case expire => exact onReturn_focus (handleExpire_lookup _ h)
  case flushdb => exact absurd ht hflush
  case scan => exact onReturn_focus (onReturn_converting fun _ => rfl)
  all_goals exact rfl

theorem Moment.Between.le {m : Moment} {t u : Int} (h : m.Between t u) : t ≤ u := by
  cases m with
  | command env cmd => exact Int.le_trans (h 0).1 (h 0).2
  | sweep clock => exact Int.le_trans (h 0).1 (h 0).2
  | touch now now' key => exact Int.le_trans h.1 (Int.le_trans h.2.1 h.2.2)
  | expireAfter now key ttl => exact Int.le_trans h.1 h.2

theorem Timed.le {ms : List Moment} {t u : Int} (h : Timed t ms u) : t ≤ u := by
  induction ms generalizing t with
  | nil => exact h
  | cons m ms ih =>
    obtain ⟨v,hm,hrest⟩ := h
    exact Int.le_trans hm.le (ih hrest)

def Moment.Leaves (key : Bytes) : Moment → Prop
  | .command _ cmd => key ∉ cmd.changed ∧ cmd.type ≠ .flushdb
  | .sweep _ => True
  | .touch _ _ k => key ≠ k
  | .expireAfter _ k _ => key ≠ k

/-- The key has this value and deadline, or it is gone and the deadline is over. -/
def Expiring (s : Server hash) (key value : Bytes) (d now : Int) : Prop :=
  s.storage.toMap.lookup key = some ⟨value,some d⟩ ∨
    s.storage.toMap.lookup key = none ∧ d ≤ now

theorem Expiring.mono {s : Server hash} {key value : Bytes} {d now later : Int}
    (h : s.Expiring key value d now) (hle : now ≤ later) : s.Expiring key value d later := by
  rcases h with h | ⟨h,hd⟩
  · exact Or.inl h
  · exact Or.inr ⟨h,Int.le_trans hd hle⟩

theorem Expiring.of_lookup {s t : Server hash} {key value : Bytes} {d now : Int}
    (h : s.Expiring key value d now)
    (hsame : t.storage.toMap.lookup key = s.storage.toMap.lookup key) :
    t.Expiring key value d now := by
  unfold Expiring
  rw [hsame]
  exact h

theorem Expiring.get_iff {s : Server hash} {key value : Bytes} {d now t : Int}
    (h : s.Expiring key value d now) (ht : now ≤ t) :
    s.storage.get t key = some value ↔ t < d := by
  rw [StorageEngine.get_eq,Map.valueAt]
  rcases h with h | ⟨h,hd⟩
  · rw [h]
    by_cases hlt : t < d
    · simp [StorageEntry.live,hlt]
    · simp [StorageEntry.live,hlt]
  · rw [h]
    have hlt : ¬ t < d := by omega
    simp [hlt]

theorem lookup_touch {e : StorageEngine hash} {now now' : Int} {key k : Bytes} (hk : key ≠ k) :
    (e.touch now now' k).toMap.lookup key = e.toMap.lookup key := by
  unfold StorageEngine.touch
  split
  · rfl
  · split
    · rfl
    · rw [StorageEngine.toMap_insert,Finmap.lookup_insert_of_ne _ hk]

theorem lookup_expireAfter {e : StorageEngine hash} {now ttl : Int} {key k : Bytes}
    (hk : key ≠ k) : (e.expireAfter now k ttl).1.toMap.lookup key = e.toMap.lookup key := by
  unfold StorageEngine.expireAfter
  split
  · rw [StorageEngine.lookup_setTtl,if_neg hk]
  · rfl

theorem Expiring.step {m : Moment} {key value : Bytes} {d t u : Int} {s s' : Server hash}
    {o : Option Bytes} (h : s.Expiring key value d t) (hm : m.Between t u)
    (hleaves : m.Leaves key) (hrun : (moment m).run s = .ok o s') :
    s'.Expiring key value d u := by
  cases m with
  | command env cmd =>
    obtain ⟨reply,-,hd⟩ := run_command hrun
    have hkey := (dispatch_lookup env hleaves.1 hleaves.2 s).of_ok hd
    exact (h.of_lookup hkey).mono hm.le
  | sweep clock =>
    cases hrun
    rcases s.storage.lookup_purgeExpired clock key with hsame | ⟨hnone,entry,i,hentry,hdead⟩
    · refine Expiring.mono (h.of_lookup ?_) hm.le
      exact hsame
    · refine Or.inr ⟨hnone,?_⟩
      rcases h with h | ⟨h,-⟩
      · rw [h,Option.some.injEq] at hentry
        rw [← hentry] at hdead
        have hpast : d ≤ clock i := by simpa [StorageEntry.live] using hdead
        exact Int.le_trans hpast (hm i).2
      · rw [h] at hentry
        cases hentry
  | touch now now' k =>
    cases hrun
    refine Expiring.mono (h.of_lookup ?_) hm.le
    exact lookup_touch hleaves
  | expireAfter now k ttl =>
    cases hrun
    refine Expiring.mono (h.of_lookup ?_) hm.le
    exact lookup_expireAfter hleaves

theorem Expiring.run {ms : List Moment} {key value : Bytes} {d t u : Int}
    {s s' : Server hash} {replies : List (Option Bytes)} (h : s.Expiring key value d t)
    (htimed : Timed t ms u) (hleaves : ∀ m ∈ ms, m.Leaves key)
    (hrun : (Runs.runAll moment ms).run s = .ok replies s') : s'.Expiring key value d u := by
  induction ms generalizing s t replies with
  | nil =>
    cases hrun
    exact h.mono htimed
  | cons m ms ih =>
    obtain ⟨v,hm,hrest⟩ := htimed
    obtain ⟨o,mid,rest,hhead,htail,-⟩ := Runs.runAll_cons.mp hrun
    exact ih (h.step hm (hleaves m (by simp)) hhead) hrest
      (fun x hx => hleaves x (by simp [hx])) htail

/-- From now on, whatever happens but a command on the key, GET returns the value exactly
before the time `d`. -/
def ReturnsUntil (s : Server hash) (key value : Bytes) (now d : Int) : Prop :=
  ∀ ms u replies s' t, Timed now ms u → (∀ m ∈ ms, m.Leaves key) →
    (Runs.runAll moment ms).run s = .ok replies s' → u ≤ t → InInt64 t →
    (s'.storage.get t key = some value ↔ t < d)

theorem inInt64_wrap64 (v : Int) : InInt64 (wrap64 v) := by
  have hlow := @Int.le_bmod v (2^64) (by decide)
  have hhigh := @Int.bmod_lt v (2^64) (by decide)
  unfold wrap64 InInt64
  norm_num at hlow hhigh ⊢
  omega

theorem deadline_eq (now ttl : Int) : deadline now ttl = wrap64 (now+ttl*1000000000) :=
  Int.add_bmod_bmod

theorem wrapped_agrees_iff {now d : Int} (hnow : InInt64 now) :
    (∀ t, now ≤ t → InInt64 t → (t < wrap64 d ↔ t < d)) ↔
      InInt64 d ∨ d < -2^63 ∧ wrap64 d ≤ now := by
  have hwrap := inInt64_wrap64 d
  constructor
  · intro h
    by_cases hd : InInt64 d
    · exact Or.inl hd
    · have hfirst := h now (Int.le_refl now) hnow
      have hlast := h (2^63-1) (by unfold InInt64 at hnow; omega) (by decide)
      unfold InInt64 at hd hnow hwrap
      exact Or.inr (by omega)
  · intro h t ht _
    rcases h with h | ⟨hlow,hpast⟩
    · rw [wrap64_of_inInt64 h]
    · unfold InInt64 at hnow
      omega

theorem returnsUntil_iff {s : Server hash} {key value : Bytes} {ttl now : Int}
    (hnow : InInt64 now)
    (h : s.storage.toMap.lookup key = some ⟨value,some (deadline now ttl)⟩) :
    s.ReturnsUntil key value now (now+ttl*1000000000) ↔
      InInt64 (now+ttl*1000000000) ∨
        now+ttl*1000000000 < -2^63 ∧ wrap64 (now+ttl*1000000000) ≤ now := by
  have hstart : s.Expiring key value (deadline now ttl) now := Or.inl h
  rw [← wrapped_agrees_iff hnow,← deadline_eq]
  constructor
  · intro hreturns t ht hlast
    rw [← hstart.get_iff ht]
    exact hreturns [] now [] s t (Int.le_refl now) (by simp) rfl ht hlast
  · intro hagree ms u replies s' t htimed hleaves hrun hut ht
    rw [(hstart.run htimed hleaves hrun).get_iff hut]
    exact hagree t (Int.le_trans htimed.le hut) ht

theorem dispatch_expire {s t : Server hash} {env : Env} {cmd : ParsedCommand}
    {key text value reply : Bytes} {ttl : Int} (ht : cmd.type = .expire)
    (hargs : cmd.args = [key,text]) (httl : stoll text = .ok ttl)
    (hlive : s.storage.get (env.clock 0) key = some value)
    (hrun : (dispatch env cmd).run s = .ok reply t) :
    t.storage.toMap.lookup key = some ⟨value,some (deadline (env.clock 0) ttl)⟩ := by
  obtain ⟨entry,hentry,hvalue⟩ : ∃ entry, s.storage.toMap.lookup key = some entry ∧
      entry.value = value := by
    rw [StorageEngine.get_eq,Map.valueAt] at hlive
    obtain ⟨entry,hfilter,hvalue⟩ := Option.map_eq_some_iff.mp hlive
    exact ⟨entry,(Option.filter_eq_some_iff.mp hfilter).1,hvalue⟩
  have hstorage : t.storage = (s.storage.setTtl (env.clock 0) key ttl).1 := by
    have hhandler := run_handleExpire (env.clock 0) cmd s.storage
    simp only [hargs,httl] at hhandler
    rw [run_dispatch,ht] at hrun
    change mapState _ ((handleExpire (env.clock 0) cmd).run s.storage) = _ at hrun
    rw [hhandler] at hrun
    cases hrun
    rfl
  rw [hstorage,StorageEngine.lookup_setTtl,if_pos rfl,hentry,Option.map_some,hvalue]

/-- EXPIRE keeps its word exactly when the time asked for fits into 64 bits, or lies so far
back that it is below them and what it wraps to is over as well. -/
theorem expire_deadline_iff {s t : Server hash} {env : Env} {cmd : ParsedCommand}
    {key text value : Bytes} {n : Int} (hnow : 0 ≤ env.clock 0 ∧ InInt64 (env.clock 0))
    (ht : cmd.type = .expire) (hargs : cmd.args = [key,text]) (hn : stoll text = .ok n)
    (hlive : s.storage.get (env.clock 0) key = some value)
    (hrun : (dispatch env cmd).run s = .ok (integerResponse 1) t) :
    t.ReturnsUntil key value (env.clock 0) (env.clock 0+n*1000000000) ↔
      InInt64 (env.clock 0+n*1000000000) ∨
        env.clock 0+n*1000000000 < -2^63 ∧
          Int.bmod (env.clock 0+n*1000000000) (2^64) ≤ env.clock 0 :=
  returnsUntil_iff hnow.2 (dispatch_expire ht hargs hn hlive hrun)

def storing (s : Server hash) : Server hash :=
  { s with storage := (s.storage.set (bytes "k") (bytes "v")).1 }

theorem get_storing (s : Server hash) (now : Int) :
    (storing s).storage.get now (bytes "k") = some (bytes "v") := by
  rw [StorageEngine.get_eq,Map.valueAt,storing]
  simp [StorageEntry.live]

theorem run_expire_storing (s : Server hash) {text : Bytes} {n : Int} (hn : stoll text = .ok n) :
    ∃ t, (dispatch ⟨fun _ => 0,.success⟩ ⟨.expire,bytes "EXPIRE",[bytes "k",text]⟩).run
      (storing s) = .ok (integerResponse 1) t := by
  have hmem : bytes "k" ∈ (storing s).storage.toMap := by simp [storing]
  have hreply : ((storing s).storage.setTtl 0 (bytes "k") n).2 = true := by
    rw [(StorageEngine.setTtl_eq _ _ _ _).2,decide_eq_true hmem]
  have hhandler := run_handleExpire 0 ⟨.expire,bytes "EXPIRE",[bytes "k",text]⟩ (storing s).storage
  simp only [hn,hreply,if_true] at hhandler
  rw [run_dispatch]
  change ∃ t, mapState _ ((handleExpire 0 _).run (storing s).storage) = _
  rw [hhandler]
  exact ⟨_,rfl⟩

theorem expire_deadline_iff_minute :
    ∃ t : Server (fun _ => 0), (dispatch ⟨fun _ => 0,.success⟩
        ⟨.expire,bytes "EXPIRE",[bytes "k",bytes "60"]⟩).run (storing (create _ {})) =
        .ok (integerResponse 1) t ∧
      (t.ReturnsUntil (bytes "k") (bytes "v") 0 (0+60*1000000000) ↔
        InInt64 (0+60*1000000000) ∨ (0+60*1000000000 : Int) < -2^63 ∧
          Int.bmod (0+60*1000000000) (2^64) ≤ 0) := by
  generalize create (fun _ => 0) {} = server
  have hn : stoll (bytes "60") = .ok 60 := by rfl
  obtain ⟨t,ht⟩ := run_expire_storing server hn
  exact ⟨t,ht,expire_deadline_iff (by decide) rfl rfl hn (get_storing _ 0) ht⟩

/-- The largest number of seconds that is accepted ends the life of the key at once. -/
theorem expire_wraps_deadline :
    ∃ t : Server (fun _ => 0), (dispatch ⟨fun _ => 0,.success⟩
        ⟨.expire,bytes "EXPIRE",[bytes "k",bytes "9223372036854775807"]⟩).run
        (storing (create _ {})) = .ok (integerResponse 1) t ∧
      t.storage.get 0 (bytes "k") = none ∧
      ¬ t.ReturnsUntil (bytes "k") (bytes "v") 0 (0+9223372036854775807*1000000000) := by
  generalize create (fun _ => 0) {} = server
  have hn : stoll (bytes "9223372036854775807") = .ok 9223372036854775807 := by rfl
  obtain ⟨t,ht⟩ := run_expire_storing server hn
  have hkey := dispatch_expire rfl rfl hn (get_storing _ 0) ht
  refine ⟨t,ht,?_,?_⟩
  · rw [StorageEngine.get_eq,Map.valueAt,hkey]
    decide
  · rw [returnsUntil_iff (by decide) hkey]
    decide

end Server

end VoltDBX
