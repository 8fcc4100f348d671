import VoltDBX.Effects
import VoltDBX.Snapshot

/-!
What of a store that commands have built survives a restart: all of it through a
snapshot, nothing of it through the log, since no handler writes to the log.
-/

set_option autoImplicit false

namespace VoltDBX

section
variable {hash : Bytes → Nat} {e u : StorageEngine hash} {cmd : ParsedCommand}

theorem notMem_joinArgs {first : Bytes} {rest : List Bytes} (h : ∀ a ∈ first :: rest, lf ∉ a) :
    lf ∉ joinArgs first rest := by
  induction rest generalizing first with
  | nil => exact h first (by simp)
  | cons arg rest ih =>
    refine @ih (first ++ [space] ++ arg) fun a ha => ?_
    rcases List.mem_cons.mp ha with rfl | ha
    · have hfirst := h first (by simp)
      have harg := h arg (by simp)
      simp only [List.mem_append,List.mem_singleton,not_or]
      exact ⟨⟨hfirst,by decide⟩,harg⟩
    · exact h a (by simp [ha])

theorem notMem_printInt (v : Int) : lf ∉ Decimal.printInt v := by
  have hdigit : ∀ n, lf ∉ Decimal.print n := fun n hmem =>
    absurd (Decimal.print_isDigit hmem) (by decide)
  cases v with
  | ofNat n => exact hdigit n
  | negSucc n =>
    simp only [Decimal.printInt,List.mem_cons,not_or]
    exact ⟨by decide,hdigit (n+1)⟩

theorem StoredBy.lineFree {p : Bytes × Bytes} (h : StoredBy cmd p)
    (hargs : ∀ a ∈ cmd.args, lf ∉ a) : lf ∉ p.1 ∧ lf ∉ p.2 := by
  obtain ⟨hkey,hvalue⟩ := h
  refine ⟨hargs _ hkey,?_⟩
  rcases hvalue with harg | ⟨first,rest,hsub,heq⟩ | ⟨v,heq⟩
  · exact hargs _ harg
  · rw [heq]
    exact notMem_joinArgs fun a ha => hargs a (hsub a ha)
  · rw [heq]
    exact notMem_printInt v

theorem lineFree_foldl_insert {pairs : List (Bytes × Bytes)}
    (hp : ∀ p ∈ pairs, lf ∉ p.1 ∧ lf ∉ p.2) {m : Map Bytes} (h : Snapshot.LineFree m) :
    Snapshot.LineFree (pairs.foldl (fun m p => m.insert p.1 p.2) m) := by
  induction pairs generalizing m with
  | nil => exact h
  | cons p pairs ih =>
    exact ih (fun q hq => hp q (by simp [hq])) (h.insert (hp p (by simp)))

theorem Effect.lineFree (h : Effect e cmd u) (hargs : ∀ a ∈ cmd.args, lf ∉ a)
    (hfree : Snapshot.LineFree e.values) : Snapshot.LineFree u.values := by
  cases h with
  | kept => exact hfree
  | stored pairs hne hst hby =>
    rw [StorageEngine.values_setAll]
    exact lineFree_foldl_insert (fun p hp => (hby p hp).lineFree hargs) hfree
  | removed key ht hk =>
    rw [StorageEngine.values_remove]
    exact hfree.erase key
  | expires now key ttl ht =>
    rw [StorageEngine.values_setTtl]
    exact hfree
  | cleared ht =>
    rw [StorageEngine.values_clearAll]
    exact Map.all_empty

theorem lineFree_purgeExpired (clock : Nat → Int) (hfree : Snapshot.LineFree e.values) :
    Snapshot.LineFree (e.purgeExpired clock).values := by
  unfold StorageEngine.purgeExpired
  generalize (e.table.forEach (StorageEngine.gatherExpired clock) (0,[])).2 = expired
  induction expired generalizing e with
  | nil => exact hfree
  | cons key expired ih =>
    refine ih ?_
    rw [StorageEngine.values_remove]
    exact hfree.erase key

end

namespace Server
variable {hash : Bytes → Nat}

inductive Event where
  | line (env : Env) (raw : Bytes)
  | purge (clock : Nat → Int)

def event : Event → Action (Server hash) (Option Bytes)
  | .line env raw => handleLine env raw
  | .purge clock => updating (fun s => ({ s with storage := s.storage.purgeExpired clock },none))

theorem event_lineFree {s t : Server hash} {i : Event} {reply : Option Bytes}
    (hfree : Snapshot.LineFree s.storage.values) (hrun : (event i).run s = .ok reply t) :
    Snapshot.LineFree t.storage.values := by
  cases i with
  | purge clock =>
    cases hrun
    exact lineFree_purgeExpired clock hfree
  | line env raw =>
    have hline := run_handleLine env raw s
    have hrun' : (handleLine env raw).run s = .ok reply t := hrun
    rw [hline] at hrun'
    cases hp : parseLine raw with
    | none =>
      rw [hp] at hrun'
      cases hrun'
      exact hfree
    | some cmd =>
      simp only [hp] at hrun'
      cases hd : (dispatch env cmd).run s with
      | error x v =>
        rw [hd] at hrun'
        cases hrun'
      | ok r v =>
        rw [hd] at hrun'
        cases hrun'
        exact ((dispatch_effect env cmd s).of_ok hd).lineFree
          (fun a ha => (parseLine_args hp a ha).notMem_lf) hfree

/-- Every store that lines and sweeps can build comes back from its snapshot. -/
theorem wire_store_survives_snapshot (hash : Bytes → Nat) (config : ServerConfig)
    {events : List Event} {replies : List (Option Bytes)} {s : Server hash}
    (hrun : (Runs.runAll event events).run (create hash config) = .ok replies s) :
    (Snapshot.loadInto (some (Snapshot.write s.storage)) (StorageEngine.create hash)).2 = true ∧
      (Snapshot.loadInto (some (Snapshot.write s.storage)) (StorageEngine.create hash)).1.values =
        s.storage.values ∧
      (Snapshot.loadInto (some (Snapshot.write s.storage))
          (StorageEngine.create hash)).1.entryCount = s.storage.entryCount := by
  have hstep : ∀ (s : Server hash) (i : Event) o t, Snapshot.LineFree s.storage.values → True →
      (event i).run s = .ok o t → Snapshot.LineFree t.storage.values :=
    fun s i o t h _ hr => event_lineFree h hr
  have hstart : Snapshot.LineFree (create hash config).storage.values := by
    rw [create,StorageEngine.values_create]
    exact Map.all_empty
  have hfree : Snapshot.LineFree s.storage.values :=
    @Runs.runAll_keeps Raised (Server hash) Event (Option Bytes) event (fun _ _ => True)
      (fun s => Snapshot.LineFree s.storage.values) hstep events (create hash config) s replies
      hstart (Runs.along_of_forall (fun _ _ _ => trivial) _) hrun
  exact ⟨(Snapshot.loadInto_write hfree).1,(Snapshot.loadInto_write hfree).2,
    Snapshot.loadInto_write_count hfree⟩

theorem wire_store_survives_snapshot_example :
    let events : List Event := [.line ⟨fun _ => 0,.success⟩ (bytes "SET a b  c"),.purge (fun _ => 0)]
    ∃ replies s, (Runs.runAll event events).run (create (fun _ => 0) {}) = .ok replies s ∧
      (Snapshot.loadInto (some (Snapshot.write s.storage))
        (StorageEngine.create (fun _ => 0))).1.values = s.storage.values := by
  intro events
  have hset : parseLine (bytes "SET a b  c") =
      some ⟨.set,bytes "SET",[bytes "a",bytes "b",bytes "c"]⟩ := by decide
  obtain ⟨o,t,ht⟩ : ∃ o t, (handleLine ⟨fun _ => 0,.success⟩ (bytes "SET a b  c")).run
      (create (fun _ => 0) {}) = .ok o t := by
    rw [run_handleLine,hset]
    exact ⟨_,_,rfl⟩
  have hrun : (Runs.runAll event events).run (create (fun _ => 0) {}) =
      .ok [o,none] { t with storage := t.storage.purgeExpired (fun _ => 0) } :=
    Runs.runAll_cons.mpr ⟨o,t,[none],ht,rfl,rfl⟩
  exact ⟨_,_,hrun,(wire_store_survives_snapshot _ _ hrun).2.1⟩

def IsWrite (t : CommandType) : Prop :=
  t ∈ [.set,.mset,.delete,.incr,.decr,.incrby,.flushdb]

instance (t : CommandType) : Decidable (IsWrite t) := inferInstanceAs (Decidable (t ∈ _))

/-- A replay of the log on an empty engine gives what the server holds. -/
def Durable (s : Server hash) : Prop :=
  (s.aof.replay (StorageEngine.create hash)).1.values = s.storage.values

/-- If the command is acknowledged, the log has it. -/
def DurablyDone (s : Server hash) (input : Env × ParsedCommand) : Prop :=
  ∀ reply t, (dispatch input.1 input.2).run s = .ok reply t → reply.head? ≠ some minus → Durable t

theorem onReturn_of_forall {σ α : Type} {Q : α → σ → Prop} (h : ∀ a s, Q a s)
    (r : EStateM.Result Raised σ α) : OnReturn Q r := by
  cases r with
  | ok a s => exact h a s
  | error x s => trivial

theorem dispatch_aof (env : Env) {cmd : ParsedCommand} (ht : cmd.type ≠ .bgrewriteaof)
    (s : Server hash) : OnReturn (fun _ t => t.aof = s.aof) ((dispatch env cmd).run s) := by
  rw [run_dispatch]
  cases hc : cmd.type
  case bgrewriteaof => exact absurd hc ht
  case unknown => rfl
  case ping => rfl
  case info => rfl
  case auth => rfl
  all_goals exact onReturn_focus (onReturn_of_forall (fun _ _ => rfl) _)

structure Blank (s : Server hash) : Prop where
  log : s.aof.file = some []
  store : s.storage.values = ∅

theorem blank_create (config : ServerConfig) : Blank (create hash config) :=
  ⟨rfl,by rw [create,StorageEngine.values_create]⟩

theorem durable_iff_empty {s : Server hash} (h : s.aof.file = some []) :
    Durable s ↔ s.storage.values = ∅ := by
  have hreplay : (s.aof.replay (StorageEngine.create hash)).1.values = ∅ := by
    have haof : s.aof = ⟨some [],s.aof.streamOpen⟩ := by rw [← h]
    rw [haof,AofLog.values_replay]
    rfl
  rw [Durable,hreplay,eq_comm]

theorem values_setAll_ne {e : StorageEngine hash} {pairs : List (Bytes × Bytes)}
    (hne : pairs ≠ []) : (e.setAll pairs).values ≠ ∅ := by
  intro hempty
  obtain hnil | ⟨init,p,hp⟩ := List.eq_nil_or_concat pairs
  · exact hne hnil
  · rw [StorageEngine.values_setAll,hp,List.concat_eq_append,List.foldl_append] at hempty
    have hlook := congrArg (fun m => m.lookup p.1) hempty
    simp at hlook

theorem effect_empty_iff {e u : StorageEngine hash} {cmd : ParsedCommand} (h : Effect e cmd u)
    (he : e.values = ∅) : u.values = ∅ ↔ ¬ Storing cmd := by
  cases h with
  | kept hst => simp [he,hst]
  | stored pairs hne hst hby => simp [hst,values_setAll_ne hne]
  | removed key ht hargs =>
    have herase : (∅ : Map Bytes).erase key = ∅ := Map.erase_of_notMem Finmap.notMem_empty
    simp [he,herase,Storing,ht]
  | expires now key ttl ht => simp [he,Storing,ht]
  | cleared ht => simp [Storing,ht]

theorem isWrite_ne {t : CommandType} (h : IsWrite t) : t ≠ .bgrewriteaof := by
  rintro rfl
  simp [IsWrite] at h

theorem Blank.dispatch {env : Env} {cmd : ParsedCommand} {s t : Server hash} {reply : Bytes}
    (hb : Blank s) (hw : IsWrite cmd.type) (hrun : (dispatch env cmd).run s = .ok reply t) :
    t.aof.file = some [] ∧ (t.storage.values = ∅ ↔ ¬ Storing cmd) ∧
      (Storing cmd → reply.head? ≠ some minus) := by
  have hempty := effect_empty_iff ((dispatch_effect env cmd s).of_ok hrun) hb.store
  have haof : t.aof = s.aof := (dispatch_aof env (isWrite_ne hw) s).of_ok hrun
  refine ⟨by rw [haof,hb.log],hempty,fun hst hminus => ?_⟩
  have hfail : Failed ((Server.dispatch env cmd).run s) := by
    rw [hrun]
    exact hminus
  have hsame := failed_storage hfail
  rw [hrun] at hsame
  have hstore : t.storage.values = s.storage.values := congrArg StorageEngine.values hsame
  exact hempty.mp (hstore.trans hb.store) hst

/-- The log follows a run of writes exactly as long as none of them stores anything. -/
theorem durable_along_iff {cmds : List (Env × ParsedCommand)} {s t : Server hash}
    {replies : List Bytes} (hb : Blank s) (hw : ∀ c ∈ cmds, IsWrite c.2.type)
    (hrun : (Runs.runAll (fun c => dispatch c.1 c.2) cmds).run s = .ok replies t) :
    Runs.Along (fun c => dispatch c.1 c.2) DurablyDone s cmds ↔ ∀ c ∈ cmds, ¬ Storing c.2 := by
  induction cmds generalizing s replies with
  | nil => simp [Runs.Along]
  | cons c cmds ih =>
    obtain ⟨o,u,rest,hc,hrest,-⟩ := Runs.runAll_cons.mp hrun
    obtain ⟨hlog,hempty,hack⟩ := hb.dispatch (hw c (by simp)) hc
    have hcmds : ∀ d ∈ cmds, IsWrite d.2.type := fun d hd => hw d (by simp [hd])
    rw [List.forall_mem_cons]
    constructor
    · rintro ⟨hdone,hnext⟩
      have hst : ¬ Storing c.2 := fun hst =>
        hempty.mp ((durable_iff_empty hlog).mp (hdone o u hc (hack hst))) hst
      exact ⟨hst,(ih ⟨hlog,hempty.mpr hst⟩ hcmds hrest).mp (hnext o u hc)⟩
    · rintro ⟨hst,hall⟩
      have hblank : Blank u := ⟨hlog,hempty.mpr hst⟩
      refine ⟨fun reply v hv _ => ?_,fun reply v hv => ?_⟩ <;> rw [hc] at hv <;> cases hv
      · exact (durable_iff_empty hlog).mpr hblank.store
      · exact (ih hblank hcmds hrest).mpr hall

/-- From an empty data directory: acknowledged writes are in the log exactly when no
write of the run had the arity to store anything. -/
theorem acknowledged_writes_durable_iff (hash : Bytes → Nat) (config : ServerConfig)
    {cmds : List (Env × ParsedCommand)} (hw : ∀ c ∈ cmds, IsWrite c.2.type)
    {replies : List Bytes} {s : Server hash}
    (hrun : (Runs.runAll (fun c => dispatch c.1 c.2) cmds).run (create hash config) =
      .ok replies s) :
    Runs.Along (fun c => dispatch c.1 c.2) DurablyDone (create hash config) cmds ↔
      ∀ c ∈ cmds, ¬ Storing c.2 :=
  durable_along_iff (blank_create config) hw hrun

theorem acknowledged_writes_durable_iff_example :
    let cmds : List (Env × ParsedCommand) :=
      [(⟨fun _ => 0,.success⟩,⟨.delete,bytes "DEL",[bytes "a"]⟩),
        (⟨fun _ => 0,.success⟩,⟨.set,bytes "SET",[bytes "a",bytes "b"]⟩)]
    ¬ Runs.Along (fun c => dispatch c.1 c.2) DurablyDone (create (fun _ => 0) {}) cmds := by
  intro cmds halong
  have hrun : ∃ replies s, (Runs.runAll (fun c => dispatch c.1 c.2) cmds).run
      (create (fun _ => 0) {}) = .ok replies s := ⟨_,_,rfl⟩
  obtain ⟨replies,s,hrun⟩ := hrun
  have hnone := (acknowledged_writes_durable_iff (fun _ => 0) {} (by decide) hrun).mp halong
  exact hnone (cmds.get ⟨1,by decide⟩) (by simp [cmds]) (Nat.le_refl 2)

/-- SET is acknowledged, and the log stays empty. -/
theorem set_is_not_logged :
    ∃ t, (dispatch ⟨fun _ => 0,.success⟩ ⟨.set,bytes "SET",[bytes "a",bytes "b"]⟩).run
        (create (fun _ => 0) {}) = .ok okResponse t ∧
      (t.aof.replay (StorageEngine.create (fun _ => 0))).1.values ≠ t.storage.values := by
  obtain ⟨t,ht⟩ : ∃ t, (dispatch ⟨fun _ => 0,.success⟩
      ⟨.set,bytes "SET",[bytes "a",bytes "b"]⟩).run (create (fun _ => 0) {}) =
        .ok okResponse t := ⟨_,rfl⟩
  obtain ⟨hlog,hempty,-⟩ := (blank_create {}).dispatch (by decide) ht
  refine ⟨t,ht,fun hdur => ?_⟩
  exact hempty.mp ((durable_iff_empty hlog).mp hdur) (Nat.le_refl 2)

end Server
end VoltDBX
