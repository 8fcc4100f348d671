import VoltDBX.Dispatcher

/-!
Deadlines over whole runs: commands, sweeps and the expiration service of
ttl/expiration.cpp, with clock readings that never go back.
-/

set_option autoImplicit false

namespace VoltDBX

namespace StorageEngine
variable {hash : Bytes → Nat}

def expireAfter (e : StorageEngine hash) (now : Int) (key : Bytes) (ttl : Int) :
    StorageEngine hash × Bool :=
  if e.existsKey key then e.setTtl now key ttl else (e,false)

/-- The key is absent or its deadline has passed. -/
def Dead (e : StorageEngine hash) (now : Int) (key : Bytes) : Prop :=
  ∀ entry, e.toMap.lookup key = some entry → entry.live now = false

theorem get_eq_none_iff (e : StorageEngine hash) (now : Int) (key : Bytes) :
    e.get now key = none ↔ e.Dead now key := by
  rw [get_eq,Map.valueAt,Dead]
  cases h : e.toMap.lookup key with
  | none => simp
  | some entry => cases hl : entry.live now <;> simp [hl]

theorem Dead.mono {e : StorageEngine hash} {now later : Int} {key : Bytes} (h : e.Dead now key)
    (hle : now ≤ later) : e.Dead later key := fun entry hentry =>
  StorageEntry.dead_of_le hle (h entry hentry)

theorem Dead.of_lookup {e u : StorageEngine hash} {now : Int} {key : Bytes} (h : e.Dead now key)
    (hu : u.toMap.lookup key = e.toMap.lookup key ∨ u.toMap.lookup key = none) :
    u.Dead now key := by
  intro entry hentry
  rcases hu with hsame | hnone
  · exact h entry (hsame ▸ hentry)
  · rw [hnone] at hentry
    cases hentry

theorem Dead.isExpired {e : StorageEngine hash} {now : Int} {key : Bytes} {entry : StorageEntry}
    (h : e.Dead now key) (hentry : e.toMap.lookup key = some entry) :
    e.isExpired now key = true := by
  have hdead := h entry hentry
  rw [StorageEngine.isExpired,find_eq,hentry]
  cases hd : entry.expiresAt with
  | none => simp [StorageEntry.live,hd] at hdead
  | some d => simpa [StorageEntry.live,hd] using hdead

theorem lookup_setTtl (e : StorageEngine hash) (now : Int) (key : Bytes) (ttl : Int) (x : Bytes) :
    (e.setTtl now key ttl).1.toMap.lookup x = if x = key then
      (e.toMap.lookup x).map (fun entry => ⟨entry.value,some (deadline now ttl)⟩)
    else e.toMap.lookup x := by
  rw [(setTtl_eq e now key ttl).1,Map.setDeadline]
  by_cases hx : x = key
  · subst hx
    cases h : e.toMap.lookup x with
    | none => simp [h]
    | some entry => simp
  · cases h : e.toMap.lookup key with
    | none => simp [hx]
    | some entry => simp [hx,Finmap.lookup_insert_of_ne]

theorem Dead.setTtl {e : StorageEngine hash} {now : Int} {key : Bytes} {k : Bytes} {ttl : Int}
    (h : e.Dead now key)
    (hpast : k = key → e.isExpired now key = true → deadline now ttl ≤ now) :
    (e.setTtl now k ttl).1.Dead now key := by
  intro entry hentry
  rw [lookup_setTtl] at hentry
  by_cases hk : key = k
  · rw [if_pos hk] at hentry
    obtain ⟨old,hold,rfl⟩ := Option.map_eq_some_iff.mp hentry
    simpa [StorageEntry.live] using hpast hk.symm (h.isExpired hold)
  · rw [if_neg hk] at hentry
    exact h entry hentry

/-- The later reading of a `touch` and the deadline of its key are what a time point holds:
numbers of 64 bits. -/
def TouchInRange (e : StorageEngine hash) (now' : Int) (key : Bytes) : Prop :=
  InInt64 now' ∧ ∀ entry d, e.toMap.lookup key = some entry → entry.expiresAt = some d → InInt64 d

/-- When the subtraction of `touch` wraps around, its addition wraps back. -/
theorem wrap64_touch {now now' d : Int} (hpast : d ≤ now) (hle : now ≤ now')
    (hnow' : InInt64 now') (hd : InInt64 d) : wrap64 (now'+wrap64 (d-now)) = now'+(d-now) := by
  have hsum : InInt64 (now'+(d-now)) := by
    unfold InInt64 at *
    omega
  calc wrap64 (now'+wrap64 (d-now)) = wrap64 (now'+(d-now)) := Int.add_bmod_bmod
    _ = now'+(d-now) := wrap64_of_inInt64 hsum

theorem Dead.touch {e : StorageEngine hash} {now now' : Int} {key k : Bytes}
    (h : e.Dead now key) (hle : now ≤ now') (hrange : k = key → e.TouchInRange now' key) :
    (e.touch now now' k).Dead now' key := by
  unfold StorageEngine.touch
  rw [find_eq]
  cases hk : e.toMap.lookup k with
  | none => exact h.mono hle
  | some found =>
    dsimp only
    cases hd : found.expiresAt with
    | none => exact h.mono hle
    | some d =>
      intro entry hentry
      rw [toMap_insert] at hentry
      by_cases hkey : key = k
      · subst hkey
        rw [Finmap.lookup_insert,Option.some.injEq] at hentry
        obtain ⟨hnow',hdeadline⟩ := hrange rfl
        have hpast := h found hk
        rw [← hentry]
        simp only [StorageEntry.live,hd,decide_eq_false_iff_not,not_lt] at hpast ⊢
        rw [wrap64_touch hpast hle hnow' (hdeadline found d hk hd)]
        omega
      · rw [Finmap.lookup_insert_of_ne _ hkey] at hentry
        exact h.mono hle entry hentry

theorem Dead.expireAfter {e : StorageEngine hash} {now : Int} {key k : Bytes} {ttl : Int}
    (h : e.Dead now key)
    (hpast : k = key → e.isExpired now key = true → deadline now ttl ≤ now) :
    (e.expireAfter now k ttl).1.Dead now key := by
  unfold StorageEngine.expireAfter
  split
  · exact h.setTtl hpast
  · exact h

theorem Dead.purgeExpired {e : StorageEngine hash} {now : Int} {key : Bytes}
    (h : e.Dead now key) (clock : Nat → Int) : (e.purgeExpired clock).Dead now key := by
  refine h.of_lookup ?_
  rcases e.lookup_purgeExpired clock key with hsame | ⟨hnone,-⟩
  · exact Or.inl hsame
  · exact Or.inr hnone

theorem lookup_setAll_of_notMem {pairs : List (Bytes × Bytes)} {key : Bytes}
    (h : key ∉ KeyedList.keys pairs) (e : StorageEngine hash) :
    (e.setAll pairs).toMap.lookup key = e.toMap.lookup key := by
  unfold setAll
  induction pairs generalizing e with
  | nil => rfl
  | cons p pairs ih =>
    rw [KeyedList.keys_cons,List.mem_cons,not_or] at h
    rw [List.foldl_cons,ih h.2,toMap_set,Finmap.lookup_insert_of_ne _ h.1]

end StorageEngine

def ParsedCommand.written (cmd : ParsedCommand) : List Bytes :=
  match cmd.type with
  | .set | .incr | .decr | .incrby => cmd.args.take 1
  | .mset => KeyedList.keys (batchPairs cmd.args)
  | _ => []

/-- What becomes of a key the command does not write: nothing, or it is removed, or the
command is an EXPIRE of it. -/
inductive Unwritten (now : Int) (cmd : ParsedCommand) (key : Bytes) (before : Option StorageEntry) :
    Option StorageEntry → Prop where
  | same : Unwritten now cmd key before before
  | gone : Unwritten now cmd key before none
  | expires (text : Bytes) (ttl : Int) (ht : cmd.type = .expire) (hargs : cmd.args = [key,text])
      (httl : stoll text = .ok ttl) : Unwritten now cmd key before
        (before.map (fun entry => ⟨entry.value,some (deadline now ttl)⟩))

section
variable {hash : Bytes → Nat} {e : StorageEngine hash} {cmd : ParsedCommand} {key : Bytes}

theorem Unwritten.of_eq {now : Int} {before after : Option StorageEntry} (h : after = before) :
    Unwritten now cmd key before after := h ▸ .same

theorem handleSet_lookup (h : key ∉ cmd.args.take 1) :
    (handleSet cmd e).1.toMap.lookup key = e.toMap.lookup key := by
  unfold handleSet
  rcases hargs : cmd.args with _ | ⟨k,_ | ⟨first,rest⟩⟩
  · rfl
  · rfl
  · have hk : key ≠ k := by simpa [hargs] using h
    dsimp only
    rw [StorageEngine.toMap_set,Finmap.lookup_insert_of_ne _ hk]

theorem handleMset_lookup (h : key ∉ KeyedList.keys (batchPairs cmd.args)) :
    (handleMset cmd e).1.toMap.lookup key = e.toMap.lookup key := by
  unfold handleMset
  split
  · rfl
  · rw [BatchOperations.mset_eq_setAll]
    exact StorageEngine.lookup_setAll_of_notMem h e

theorem handleDelete_lookup (h : key ∉ cmd.args.take 1) :
    (handleDelete cmd e).1.toMap.lookup key = e.toMap.lookup key := by
  unfold handleDelete
  rcases hargs : cmd.args with _ | ⟨k,_ | ⟨arg,rest⟩⟩
  · rfl
  · have hk : key ≠ k := by simpa [hargs] using h
    dsimp only
    rw [StorageEngine.toMap_remove,Finmap.lookup_erase_ne hk]
  · rfl

theorem counted_lookup {k : Bytes} (hk : key ≠ k) (now delta : Int) :
    OnReturn (fun _ u => u.toMap.lookup key = e.toMap.lookup key) (counted now k delta e) := by
  unfold counted
  cases CounterStore.parseValue (e.get now k) with
  | error x => trivial
  | ok current =>
    refine (congrArg (Finmap.lookup key) (StorageEngine.toMap_set e k _)).trans ?_
    rw [Finmap.lookup_insert_of_ne _ hk]

theorem handleIncr_lookup (now : Int) (h : key ∉ cmd.args.take 1) :
    OnReturn (fun _ u => u.toMap.lookup key = e.toMap.lookup key)
      ((handleIncr now cmd).run e) := by
  rw [run_handleIncr]
  rcases hargs : cmd.args with _ | ⟨k,_ | ⟨arg,rest⟩⟩
  · exact rfl
  · exact counted_lookup (by simpa [hargs] using h) now 1
  · exact rfl

theorem handleDecr_lookup (now : Int) (h : key ∉ cmd.args.take 1) :
    OnReturn (fun _ u => u.toMap.lookup key = e.toMap.lookup key)
      ((handleDecr now cmd).run e) := by
  rw [run_handleDecr]
  rcases hargs : cmd.args with _ | ⟨k,_ | ⟨arg,rest⟩⟩
  · exact rfl
  · exact counted_lookup (by simpa [hargs] using h) now (-1)
  · exact rfl

theorem handleIncrby_lookup (now : Int) (h : key ∉ cmd.args.take 1) :
    OnReturn (fun _ u => u.toMap.lookup key = e.toMap.lookup key)
      ((handleIncrby now cmd).run e) := by
  rw [run_handleIncrby]
  rcases hargs : cmd.args with _ | ⟨k,_ | ⟨amount,_ | ⟨arg,rest⟩⟩⟩
  · exact rfl
  · exact rfl
  · dsimp only
    cases stoll amount with
    | error x => trivial
    | ok delta => exact counted_lookup (by simpa [hargs] using h) now delta
  · exact rfl

theorem handleExpire_lookup (now : Int) (h : key ∉ cmd.args.take 1) :
    OnReturn (fun _ u => u.toMap.lookup key = e.toMap.lookup key)
      ((handleExpire now cmd).run e) := by
  rw [run_handleExpire]
  rcases hargs : cmd.args with _ | ⟨k,_ | ⟨text,_ | ⟨arg,rest⟩⟩⟩
  · exact rfl
  · exact rfl
  · have hk : key ≠ k := by simpa [hargs] using h
    dsimp only
    cases stoll text with
    | error x => trivial
    | ok ttl =>
      refine (e.lookup_setTtl now k ttl key).trans ?_
      rw [if_neg hk]
  · exact rfl

theorem handleDelete_unwritten (now : Int) :
    Unwritten now cmd key (e.toMap.lookup key) ((handleDelete cmd e).1.toMap.lookup key) := by
  unfold handleDelete
  rcases cmd.args with _ | ⟨k,_ | ⟨arg,rest⟩⟩
  · exact .same
  · dsimp only
    rw [StorageEngine.toMap_remove]
    by_cases hk : key = k
    · rw [hk,Finmap.lookup_erase]
      exact .gone
    · rw [Finmap.lookup_erase_ne hk]
      exact .same
  · exact .same

theorem handleExpire_unwritten (now : Int) (ht : cmd.type = .expire) :
    OnReturn (fun _ u => Unwritten now cmd key (e.toMap.lookup key) (u.toMap.lookup key))
      ((handleExpire now cmd).run e) := by
  rw [run_handleExpire]
  rcases hargs : cmd.args with _ | ⟨k,_ | ⟨text,_ | ⟨arg,rest⟩⟩⟩
  · exact .same
  · exact .same
  · dsimp only
    cases httl : stoll text with
    | error x => trivial
    | ok ttl =>
      show Unwritten now cmd key _ _
      rw [StorageEngine.lookup_setTtl]
      by_cases hk : key = k
      · rw [if_pos hk]
        exact .expires text ttl ht (hk ▸ hargs) httl
      · rw [if_neg hk]
        exact .same
  · exact .same

end

namespace Server
variable {hash : Bytes → Nat}

theorem dispatch_unwritten (env : Env) {cmd : ParsedCommand} {key : Bytes}
    (h : key ∉ cmd.written) (s : Server hash) :
    OnReturn (fun _ t => Unwritten (env.clock 0) cmd key (s.storage.toMap.lookup key)
      (t.storage.toMap.lookup key)) ((dispatch env cmd).run s) := by
  rw [run_dispatch]
  cases ht : cmd.type <;> simp only [ParsedCommand.written,ht] at h
  case set => exact onReturn_focus (Unwritten.of_eq (handleSet_lookup h))
  case mset => exact onReturn_focus (Unwritten.of_eq (handleMset_lookup h))
  case delete => exact onReturn_focus (handleDelete_unwritten _)
  case incr => exact onReturn_focus ((handleIncr_lookup _ h).imp fun _ _ => .of_eq)
  case decr => exact onReturn_focus ((handleDecr_lookup _ h).imp fun _ _ => .of_eq)
  case incrby => exact onReturn_focus ((handleIncrby_lookup _ h).imp fun _ _ => .of_eq)
  case expire => exact onReturn_focus (handleExpire_unwritten _ ht)
  case flushdb =>
    refine onReturn_focus (?_ : Unwritten _ _ _ _ (s.storage.clearAll.toMap.lookup key))
    rw [StorageEngine.toMap_clearAll,Finmap.lookup_empty]
    exact .gone
  case scan => exact onReturn_focus (onReturn_converting fun _ => .same)
  all_goals exact .same

inductive Moment where
  | command (env : Env) (cmd : ParsedCommand)
  | sweep (clock : Nat → Int)
  | touch (now now' : Int) (key : Bytes)
  | expireAfter (now : Int) (key : Bytes) (ttl : Int)

def moment : Moment → Action (Server hash) (Option Bytes)
  | .command env cmd => do return some (← dispatch env cmd)
  | .sweep clock => updating fun s => ({ s with storage := s.storage.purgeExpired clock },none)
  | .touch now now' key => updating fun s => ({ s with storage := s.storage.touch now now' key },none)
  | .expireAfter now key ttl =>
    updating fun s => ({ s with storage := (s.storage.expireAfter now key ttl).1 },none)

def Moment.Between (t u : Int) : Moment → Prop
  | .command env _ => ∀ i, t ≤ env.clock i ∧ env.clock i ≤ u
  | .sweep clock => ∀ i, t ≤ clock i ∧ clock i ≤ u
  | .touch now now' _ => t ≤ now ∧ now ≤ now' ∧ now' ≤ u
  | .expireAfter now _ _ => t ≤ now ∧ now ≤ u

/-- The clock does not go back from one moment to the next. -/
def Timed : Int → List Moment → Int → Prop
  | t, [], u => t ≤ u
  | t, m :: ms, u => ∃ v, m.Between t v ∧ Timed v ms u

def Moment.Spares (key : Bytes) : Moment → Prop
  | .command _ cmd => key ∉ cmd.written
  | _ => True

/-- Whatever gives the key a deadline when it has already expired gives it one that is
not in the future. -/
def Unrevived (key : Bytes) (s : Server hash) : Moment → Prop
  | .command env cmd => ∀ text ttl, cmd.type = .expire → cmd.args = [key,text] →
      stoll text = .ok ttl → s.storage.isExpired (env.clock 0) key = true →
      deadline (env.clock 0) ttl ≤ env.clock 0
  | .expireAfter now k ttl => k = key → s.storage.isExpired now key = true → deadline now ttl ≤ now
  | .touch _ now' k => k = key → s.storage.TouchInRange now' key
  | .sweep _ => True

theorem run_command {env : Env} {cmd : ParsedCommand} {s t : Server hash} {o : Option Bytes}
    (h : (moment (.command env cmd)).run s = .ok o t) :
    ∃ reply, o = some reply ∧ (dispatch env cmd).run s = .ok reply t := by
  simp only [moment,EStateM.run_bind] at h
  cases hd : (dispatch env cmd).run s with
  | error x u => simp [hd] at h
  | ok reply u =>
    simp only [hd,EStateM.run_pure,EStateM.Result.ok.injEq] at h
    exact ⟨reply,h.1.symm,by rw [h.2]⟩

theorem dead_moment {key : Bytes} {m : Moment} {t u : Int} {s s' : Server hash} {o : Option Bytes}
    (hdead : s.storage.Dead t key) (hm : m.Between t u) (hspares : m.Spares key)
    (hpast : s.Unrevived key m) (hrun : (moment m).run s = .ok o s') :
    s'.storage.Dead u key := by
  cases m with
  | command env cmd =>
    obtain ⟨reply,-,hd⟩ := run_command hrun
    have hnow := hdead.mono (hm 0).1
    refine StorageEngine.Dead.mono ?_ (hm 0).2
    have hkey := (dispatch_unwritten env hspares s).of_ok hd
    intro entry hentry
    generalize s'.storage.toMap.lookup key = after at hkey hentry
    cases hkey with
    | same => exact hnow entry hentry
    | gone => cases hentry
    | expires text ttl ht hargs httl =>
      obtain ⟨old,hold,rfl⟩ := Option.map_eq_some_iff.mp hentry
      have hle := hpast text ttl ht hargs httl (hnow.isExpired hold)
      simpa [StorageEntry.live] using hle
  | sweep clock =>
    cases hrun
    have hle : t ≤ u := Int.le_trans (hm 0).1 (hm 0).2
    exact (hdead.purgeExpired clock).mono hle
  | touch now now' k =>
    cases hrun
    exact ((hdead.mono hm.1).touch hm.2.1 hpast).mono hm.2.2
  | expireAfter now k ttl =>
    cases hrun
    exact ((hdead.mono hm.1).expireAfter hpast).mono hm.2

/-- A key that GET does not see stays unseen until a write names it, where no expired
entry of it is given a deadline in the future. -/
theorem expired_key_stays_gone {s s' : Server hash} {key : Bytes} {t u : Int}
    (hgone : s.storage.get t key = none) {ms : List Moment} (htimed : Timed t ms u)
    (hspares : ∀ m ∈ ms, m.Spares key) {replies : List (Option Bytes)}
    (hrun : (Runs.runAll moment ms).run s = .ok replies s')
    (hpast : Runs.Along moment (Unrevived key) s ms) {now : Int} (hnow : u ≤ now) :
    s'.storage.get now key = none := by
  rw [StorageEngine.get_eq_none_iff] at hgone ⊢
  induction ms generalizing s t replies with
  | nil =>
    cases hrun
    exact hgone.mono (Int.le_trans htimed hnow)
  | cons m ms ih =>
    obtain ⟨v,hm,hrest⟩ := htimed
    obtain ⟨o,mid,rest,hhead,htail,-⟩ := Runs.runAll_cons.mp hrun
    exact ih (dead_moment hgone hm (hspares m (by simp)) hpast.1 hhead) hrest
      (fun x hx => hspares x (by simp [hx])) htail (hpast.2 o mid hhead)

def setAt (now : Int) (key value : Bytes) : Moment :=
  .command ⟨fun _ => now,.success⟩ ⟨.set,bytes "SET",[key,value]⟩

def expireAt (now : Int) (key text : Bytes) : Moment :=
  .command ⟨fun _ => now,.success⟩ ⟨.expire,bytes "EXPIRE",[key,text]⟩

theorem run_setAt (now : Int) (key value : Bytes) (s : Server hash) :
    ∃ o s', (moment (setAt now key value)).run s = .ok o s' ∧
      s'.storage = (s.storage.set key value).1 := ⟨_,_,rfl,rfl⟩

theorem run_expireAt (now : Int) (key : Bytes) {text : Bytes} {ttl : Int}
    (h : stoll text = .ok ttl) (s : Server hash) :
    ∃ o s', (moment (expireAt now key text)).run s = .ok o s' ∧
      s'.storage = (s.storage.setTtl now key ttl).1 := by
  have hhandler : (handleExpire now ⟨.expire,bytes "EXPIRE",[key,text]⟩).run s.storage =
      .ok (integerResponse (if (s.storage.setTtl now key ttl).2 then 1 else 0))
        (s.storage.setTtl now key ttl).1 := by
    rw [run_handleExpire]
    simp only [h]
  have hdispatch : (dispatch ⟨fun _ => now,.success⟩ ⟨.expire,bytes "EXPIRE",[key,text]⟩).run s =
      .ok (integerResponse (if (s.storage.setTtl now key ttl).2 then 1 else 0))
        { s.recordCommand with storage := (s.storage.setTtl now key ttl).1 } := by
    rw [run_dispatch]
    show mapState _ ((handleExpire now _).run s.storage) = _
    rw [hhandler]
    rfl
  simp only [moment,expireAt,EStateM.run_bind,hdispatch]
  exact ⟨_,_,rfl,rfl⟩

theorem exists_expiring (now : Int) (s : Server hash) (key value : Bytes) :
    ∃ replies s', (Runs.runAll moment [setAt now key value,expireAt now key (bytes "1")]).run s =
        .ok replies s' ∧ s'.storage.toMap.lookup key = some ⟨value,some (deadline now 1)⟩ := by
  obtain ⟨o,s1,h1,hs1⟩ := run_setAt now key value s
  obtain ⟨o',s2,h2,hs2⟩ := run_expireAt now key (show stoll (bytes "1") = .ok 1 by rfl) s1
  refine ⟨[o,o'],s2,Runs.runAll_cons.mpr ⟨o,s1,[o'],h1,Runs.runAll_cons.mpr ⟨o',s2,[],h2,rfl,rfl⟩,rfl⟩,?_⟩
  rw [hs2,StorageEngine.lookup_setTtl,if_pos rfl,hs1,StorageEngine.toMap_set,Finmap.lookup_insert]
  rfl

/-- Long after its second the key is given no more time, and a sweep runs. -/
theorem expired_key_stays_gone_example :
    ∃ (s s' : Server (fun _ => 0)) (replies replies' : List (Option Bytes)),
      (Runs.runAll moment [setAt 0 (bytes "k") (bytes "v"),expireAt 0 (bytes "k") (bytes "1")]).run
        (create _ {}) = .ok replies s ∧ s.storage.get 2000000000 (bytes "k") = none ∧
      (Runs.runAll moment [expireAt 2000000000 (bytes "k") (bytes "0"),.sweep (fun _ => 3000000000)]).run
        s = .ok replies' s' ∧ s'.storage.get 4000000000 (bytes "k") = none := by
  obtain ⟨replies,s,hs,hkey⟩ := exists_expiring 0 (create (fun _ => 0) {}) (bytes "k") (bytes "v")
  have hgone : s.storage.get 2000000000 (bytes "k") = none := by
    rw [StorageEngine.get_eq,Map.valueAt,hkey]
    decide
  obtain ⟨o,s1,h1,-⟩ := run_expireAt 2000000000 (bytes "k")
    (show stoll (bytes "0") = .ok 0 by rfl) s
  have hrun : (Runs.runAll moment [expireAt 2000000000 (bytes "k") (bytes "0"),
      .sweep (fun _ => 3000000000)]).run s = .ok [o,none]
        { s1 with storage := s1.storage.purgeExpired (fun _ => 3000000000) } :=
    Runs.runAll_cons.mpr ⟨o,s1,[none],h1,rfl,rfl⟩
  refine ⟨s,_,replies,_,hs,hgone,hrun,?_⟩
  have htimed : Timed 2000000000 [expireAt 2000000000 (bytes "k") (bytes "0"),
      .sweep (fun _ => 3000000000)] 3000000000 :=
    ⟨2000000000,fun _ => ⟨Int.le_refl _,Int.le_refl _⟩,3000000000,fun _ => ⟨by simp,by simp⟩,
      Int.le_refl _⟩
  refine expired_key_stays_gone hgone htimed ?_ hrun
    ⟨?_,fun _ _ _ => ⟨trivial,fun _ _ _ => trivial⟩⟩ (by decide)
  · intro m hm
    rcases List.mem_cons.mp hm with rfl | hm
    · simp [expireAt,Moment.Spares,ParsedCommand.written]
    · rw [List.mem_singleton] at hm
      subst hm
      trivial
  · intro text ttl _ hargs httl _
    have htext : text = bytes "0" := by
      have heq : [bytes "k",bytes "0"] = [bytes "k",text] := hargs
      simpa [eq_comm] using heq
    subst htext
    cases httl
    decide

/-- A second EXPIRE long after the first has passed brings the value back. -/
theorem expire_revives_expired_key :
    ∃ (s s' : Server (fun _ => 0)) (replies replies' : List (Option Bytes)),
      (Runs.runAll moment [setAt 0 (bytes "k") (bytes "v"),expireAt 0 (bytes "k") (bytes "1")]).run
        (create _ {}) = .ok replies s ∧ s.storage.get 2000000000 (bytes "k") = none ∧
      (Runs.runAll moment [expireAt 2000000000 (bytes "k") (bytes "100")]).run s = .ok replies' s' ∧
      s'.storage.get 3000000000 (bytes "k") = some (bytes "v") := by
  obtain ⟨replies,s,hs,hkey⟩ := exists_expiring 0 (create (fun _ => 0) {}) (bytes "k") (bytes "v")
  obtain ⟨o,s1,h1,hs1⟩ := run_expireAt 2000000000 (bytes "k")
    (show stoll (bytes "100") = .ok 100 by rfl) s
  refine ⟨s,s1,replies,[o],hs,?_,Runs.runAll_cons.mpr ⟨o,s1,[],h1,rfl,rfl⟩,?_⟩
  · rw [StorageEngine.get_eq,Map.valueAt,hkey]
    decide
  · rw [StorageEngine.get_eq,Map.valueAt,hs1,StorageEngine.lookup_setTtl,if_pos rfl,hkey]
    decide

end Server
end VoltDBX
