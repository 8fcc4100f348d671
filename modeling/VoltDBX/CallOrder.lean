import VoltDBX.CallProcess

/-!
Lines that meet call by call in a server process and touch the table at one moment come out
as if they had not met: one order of them accounts for the replies and for what is left after
a clean stop, and no line waits for another one.
-/

set_option autoImplicit false

namespace VoltDBX
open Runs Runs.Program Reference

namespace CallProcess
variable {hash : Bytes → Nat} {c d : CallProcess hash}

/-- Each line of the log is answered as by the interpreter after the lines before it. -/
def Answered (m : Map Bytes) (log : List Exchange) : Prop :=
  ∀ before x after, log = before ++ x :: after →
    x.reply = (respond x.line (mapAfter m (before.map Exchange.line))).1

theorem Answered.snoc {m : Map Bytes} {log : List Exchange} (h : Answered m log) {x : Exchange}
    (hx : x.reply = (respond x.line (mapAfter m (log.map Exchange.line))).1) :
    Answered m (log ++ [x]) := split_snoc h hx

theorem mapAfter_snoc (m : Map Bytes) (log : List Exchange) (x : Exchange) :
    mapAfter m ((log ++ [x]).map Exchange.line) =
      (respond x.line (mapAfter m (log.map Exchange.line))).2 := by
  rw [List.map_append,mapAfter,List.foldl_append]
  rfl

/-- A line under way has not taken effect yet, or it is the last of its session in the log,
with the reply that it is going to get. -/
def Placed (log : List Exchange) (c : CallProcess hash) (u : Underway) : Prop :=
  u.rest.Pending (@SharedCall.exec hash) Calls.respondTo Calls.Holds u.turn ∧
      ofSession u.turn.client log = c.process.exchanges u.turn.client ∨
    ∃ reply, u.rest.Settled (@SharedCall.exec hash) Calls.Holds reply ∧
      ofSession u.turn.client log =
        c.process.exchanges u.turn.client ++ [⟨u.turn.client,u.turn.line,reply⟩]

/-- `log` is the order in which the lines have taken effect. -/
structure Ordered (m : Map Bytes) (log : List Exchange) (c : CallProcess hash) : Prop where
  store : c.process.server.storage.Agrees (mapAfter m (log.map Exchange.line))
  replies : Answered m log
  idle : ∀ k, (∀ w u, c.underway w = some u → u.turn.client ≠ k) →
    ofSession k log = c.process.exchanges k
  busy : ∀ w u, c.underway w = some u → c.Placed log u
  gathered : ∀ keys, c.process.sweeps.worker = some (.erasing keys) → keys = []

section
variable {m : Map Bytes} {log new : List Exchange}

theorem Ordered.other {i : ServerProcess.Step} (h : c.Ordered m log) (hmanned : c.process.Manned)
    (hstep : step (.other i) c = some d) (hlive : d.process.stage ≠ .aborted) :
    d.Ordered m log := by
  obtain ⟨hapart,p,hp,rfl⟩ := step_other hstep
  obtain ⟨hstore,hserved⟩ : p.server.storage = c.process.server.storage ∧
      p.served = c.process.served := by
    rcases ServerProcess.step_storage hmanned hp hlive with ⟨hstore,hserved,-⟩ |
      ⟨key,rest,hold,-⟩ | ⟨w,env,-,-,-,-,hline,-⟩
    · exact ⟨hstore,hserved⟩
    · cases h.gathered _ hold
    · exact absurd hline (apart_ne_line hapart w env)
  have hexchanges : p.exchanges = c.process.exchanges := by
    funext k
    rw [ServerProcess.exchanges,hserved]
    rfl
  refine ⟨?_,h.replies,?_,?_,fun keys hkeys => ?_⟩
  · rw [hstore]
    exact h.store
  · intro k hk
    rw [hexchanges]
    exact h.idle k hk
  · intro w u hw
    have hplaced := h.busy w u hw
    unfold Placed at hplaced ⊢
    rw [hexchanges]
    exact hplaced
  · rcases ServerProcess.step_sweeps hp hkeys with ⟨clock,hnew⟩ | hold | ⟨key,hold⟩
    · rw [hnew,ServerProcess.gathered_nil (ServerProcess.lasting_of_agrees h.store) clock]
    · exact h.gathered keys hold
    · cases h.gathered _ hold

/-- A worker has gone on with its line, and no other session sees it in its own part of the
log. -/
theorem Ordered.go {w : Nat} {u : Underway} (h : c.Ordered m log) {server : Server hash}
    (hstaffed : Staffed ⟨{ c.process with server := server },
      Function.update c.underway w (some u)⟩)
    (hold : ∀ x, c.underway w = some x → x.turn.client = u.turn.client)
    (hstore : server.storage.Agrees (mapAfter m ((log ++ new).map Exchange.line)))
    (hreplies : Answered m (log ++ new)) (hnew : ∀ x ∈ new, x.session = u.turn.client)
    (hplaced : c.Placed (log ++ new) u) :
    Ordered m (log ++ new) ⟨{ c.process with server := server },
      Function.update c.underway w (some u)⟩ := by
  have hw : Function.update c.underway w (some u) w = some u := Function.update_self ..
  refine ⟨hstore,hreplies,fun k hk => ?_,fun v x hx => ?_,h.gathered⟩
  · rw [ofSession_append hnew,if_neg (hk w u hw),List.append_nil]
    refine h.idle k fun v x hx => ?_
    by_cases hv : v = w
    · subst hv
      rw [hold x hx]
      exact hk v u hw
    · exact hk v x ((Function.update_of_ne hv ..).trans hx)
  · rcases underway_update hx with ⟨rfl,hu⟩ | ⟨hv,hx'⟩
    · obtain rfl := Option.some.inj hu
      exact hplaced
    · have hother : u.turn.client ≠ x.turn.client := fun hsame =>
        hv (hstaffed.one_worker hx hw hsame.symm)
      have hx'' := h.busy v x hx'
      unfold Placed at hx'' ⊢
      rw [ofSession_append hnew,if_neg hother,List.append_nil]
      exact hx''

section
variable {w : Nat} {turn : Server.Turn Nat} {rest : Calls (Option Bytes)} {server : Server hash}
variable (h : c.Ordered m log)
variable (hstaffed : Staffed ⟨{ c.process with server := server },
  Function.update c.underway w (some ⟨turn,rest⟩)⟩)
variable (hold : ∀ x, c.underway w = some x → x.turn.client = turn.client)
include h hstaffed hold

theorem Ordered.stay (hstore : Calls.Holds server (mapAfter m (log.map Exchange.line)))
    (hplaced : c.Placed log ⟨turn,rest⟩) :
    Ordered m log ⟨{ c.process with server := server },
      Function.update c.underway w (some ⟨turn,rest⟩)⟩ := by
  have hgo := @Ordered.go _ _ _ log [] _ _ h _ hstaffed hold
  rw [List.append_nil] at hgo
  exact hgo hstore h.replies (fun _ hx => nomatch hx) hplaced

theorem Ordered.effect (hbehind : ofSession turn.client log = c.process.exchanges turn.client)
    (hstore : Calls.Holds server
      (Calls.respondTo turn (mapAfter m (log.map Exchange.line))).2)
    (hsettled : rest.Settled (@SharedCall.exec hash) Calls.Holds
      (Calls.respondTo turn (mapAfter m (log.map Exchange.line))).1) :
    ∃ x : Exchange, Ordered m (log ++ [x]) ⟨{ c.process with server := server },
      Function.update c.underway w (some ⟨turn,rest⟩)⟩ := by
  let x : Exchange := ⟨turn.client,turn.line,
    (Calls.respondTo turn (mapAfter m (log.map Exchange.line))).1⟩
  have hnew : ∀ y ∈ [x], y.session = turn.client := by
    intro y hy
    rw [List.mem_singleton.mp hy]
  refine ⟨x,h.go hstaffed hold ?_ (h.replies.snoc rfl) hnew (Or.inr ⟨_,hsettled,?_⟩)⟩
  · rw [mapAfter_snoc]
    exact hstore
  · rw [ofSession_append hnew,if_pos rfl,hbehind]

end

theorem Ordered.read {w : Nat} {env : Env} (h : c.Ordered m log) (hs : c.Staffed)
    (hd : d.Staffed) (hstep : step (.read w env) c = some d)
    (hline : ∀ u, d.underway w = some u → ∀ cmd, parseLine u.turn.line = some cmd →
      indivisible cmd = true) : ∃ new, d.Ordered m (log ++ new) := by
  obtain ⟨k,session,line,hfree,hworker,-,rfl⟩ := step_read hstep
  have hatomic := @Calls.atomic_lineOf hash _ (⟨k,env,line⟩ : Server.Turn Nat)
    (hline _ (Function.update_self ..))
  have hidle : ofSession k log = c.process.exchanges k := by
    refine h.idle k fun v x hx hk => ?_
    obtain ⟨session',hworker',-⟩ := hs.reading v x hx
    rw [hk] at hworker'
    obtain rfl := hs.manned.sessions.one_worker hworker' hworker
    rw [hfree] at hx
    cases hx
  have hold : ∀ x, c.underway w = some x → x.turn.client = k := by
    intro x hx
    rw [hfree] at hx
    cases hx
  rcases hatomic with hpending | hnow
  · refine ⟨[],?_⟩
    rw [List.append_nil]
    exact h.stay hd hold h.store (Or.inl ⟨hpending,hidle⟩)
  · obtain ⟨hstore,hsettled⟩ := hnow c.process.server _ h.store
    obtain ⟨x,hx⟩ := h.effect hd hold hidle hstore hsettled
    exact ⟨[x],hx⟩

theorem Ordered.call {w : Nat} (h : c.Ordered m log) (hd : d.Staffed)
    (hstep : step (.call w) c = some d) : ∃ new, d.Ordered m (log ++ new) := by
  obtain ⟨turn,i,next,hw,rfl⟩ := step_call hstep
  have hold : ∀ x, c.underway w = some x → x.turn.client = turn.client := by
    intro x hx
    rw [hw] at hx
    cases hx
    rfl
  rcases h.busy w _ hw with ⟨hpending,hbehind⟩ | ⟨reply,hsettled,hahead⟩
  · rcases hpending c.process.server _ h.store with ⟨hstore,hlater⟩ | ⟨hstore,hsettled⟩
    · refine ⟨[],?_⟩
      rw [List.append_nil]
      exact h.stay hd hold hstore (Or.inl ⟨hlater,hbehind⟩)
    · obtain ⟨x,hx⟩ := h.effect hd hold hbehind hstore hsettled
      exact ⟨[x],hx⟩
  · obtain ⟨hstore,hlater⟩ := hsettled c.process.server _ h.store
    refine ⟨[],?_⟩
    rw [List.append_nil]
    exact h.stay hd hold hstore (Or.inr ⟨reply,hlater,hahead⟩)

theorem Ordered.answer {w : Nat} (h : c.Ordered m log) (hs : c.Staffed)
    (hstep : step (.answer w) c = some d) : d.Ordered m log := by
  obtain ⟨turn,result,hw,hunderway,hcases⟩ := step_answer hstep
  obtain ⟨reply,rfl,hahead⟩ : ∃ reply, result = .ok reply ∧ ofSession turn.client log =
      c.process.exchanges turn.client ++ [⟨turn.client,turn.line,reply⟩] := by
    rcases h.busy w _ hw with ⟨hpending,-⟩ | ⟨reply,hsettled,hahead⟩
    · exact absurd hpending not_false
    · exact ⟨reply,hsettled,hahead⟩
  have hprocess : d.process = { c.process with
      served := c.process.served ++ [⟨turn.client,turn.line,reply⟩] } := by
    rcases hcases with ⟨reply',hreply,hdone⟩ | ⟨x,hx,-⟩
    · rw [hdone,Except.ok.inj hreply]
    · cases hx
  have hserved : d.process.served =
      c.process.served ++ [⟨turn.client,turn.line,reply⟩] := by rw [hprocess]
  have hexchanges := ServerProcess.exchanges_snoc hserved
  refine ⟨?_,h.replies,fun k hk => ?_,fun v x hx => ?_,?_⟩
  · rw [hprocess]
    exact h.store
  · rw [hexchanges]
    by_cases hclient : turn.client = k
    · rw [if_pos hclient,← hclient]
      exact hahead
    · rw [if_neg hclient,List.append_nil]
      refine h.idle k fun v x hx => ?_
      by_cases hv : v = w
      · subst hv
        rw [hw] at hx
        cases hx
        exact hclient
      · exact hk v x (by rw [hunderway,Function.update_of_ne hv]; exact hx)
  · rw [hunderway] at hx
    obtain ⟨hv,hx'⟩ := (underway_update hx).resolve_left fun hnone => by cases hnone.2
    have hother : turn.client ≠ x.turn.client := fun hsame =>
      hv (hs.one_worker hw hx' hsame).symm
    have hplaced := h.busy v x hx'
    unfold Placed at hplaced ⊢
    rw [hexchanges,if_neg hother,List.append_nil]
    exact hplaced
  · rw [hprocess]
    exact h.gathered

/-- Every step leaves the log as it is, or one line takes effect. -/
theorem Ordered.step {i : Step} (h : c.Ordered m log) (hs : c.Staffed)
    (hstep : CallProcess.step i c = some d) (hlive : d.process.stage ≠ .aborted)
    (hlines : ∀ w u, d.underway w = some u → ∀ cmd, parseLine u.turn.line = some cmd →
      indivisible cmd = true) : ∃ new, d.Ordered m (log ++ new) := by
  have hd := hs.step hstep hlive
  cases i with
  | other i =>
    refine ⟨[],?_⟩
    rw [List.append_nil]
    exact h.other hs.manned hstep hlive
  | read w env => exact h.read hs hd hstep (hlines w)
  | call w => exact h.call hd hstep
  | answer w =>
    refine ⟨[],?_⟩
    rw [List.append_nil]
    exact h.answer hs hstep

theorem Ordered.boot (config : ServerConfig) (dir : DataDir) :
    (boot hash config dir).Ordered (recover hash dir).values [] := by
  refine ⟨Server.boot_agrees config dir,?_,fun _ _ => rfl,?_,?_⟩
  · intro before x after hsplit
    cases before <;> cases hsplit
  · intro w u hw
    cases hw
  · intro keys hkeys
    cases hkeys

/-- The log has what has been answered, and at most the lines under way besides. -/
def UpTo (log : List Exchange) (c : CallProcess hash) : Prop :=
  ∀ k, ofSession k log = c.process.exchanges k ∨
    ∃ w u reply, c.underway w = some u ∧ u.turn.client = k ∧
      ofSession k log = c.process.exchanges k ++ [⟨k,u.turn.line,reply⟩]

theorem Ordered.upTo (h : c.Ordered m log) : c.UpTo log := by
  intro k
  by_cases hk : ∀ w u, c.underway w = some u → u.turn.client ≠ k
  · exact Or.inl (h.idle k hk)
  · push Not at hk
    obtain ⟨w,u,hw,rfl⟩ := hk
    rcases h.busy w u hw with ⟨-,hbehind⟩ | ⟨reply,-,hahead⟩
    · exact Or.inl hbehind
    · exact Or.inr ⟨w,u,reply,hw,rfl,hahead⟩

end

/-- While a process runs lines that take effect at one moment, there is an order of these
moments, and the order of each earlier state is a beginning of it. -/
theorem exists_ordered {config : ServerConfig} {dir : DataDir} {steps : List Step}
    (hrun : Moves step (boot hash config dir) steps c) (hlive : c.process.stage ≠ .aborted)
    (hlines : ∀ line, c.Begun line → ∀ cmd, parseLine line = some cmd → indivisible cmd = true) :
    ∃ log, c.Ordered (recover hash dir).values log ∧
      ∀ before after v, steps = before ++ after → Moves step (boot hash config dir) before v →
        ∃ early late, log = early ++ late ∧ v.UpTo early := by
  refine moves_history (I := fun events u => u.process.stage ≠ .aborted →
      (∀ line, u.Begun line → ∀ cmd, parseLine line = some cmd → indivisible cmd = true) →
      ∃ log, u.Ordered (recover hash dir).values log ∧
        ∀ before after v, events = before ++ after → Moves step (boot hash config dir) before v →
          ∃ early late, log = early ++ late ∧ v.UpTo early) ?_ ?_ hrun hlive hlines
  · refine fun _ _ => ⟨[],Ordered.boot config dir,?_⟩
    intro before after v hsplit hv
    obtain ⟨rfl,-⟩ := List.append_eq_nil_iff.mp hsplit.symm
    cases moves_nil.mp hv
    exact ⟨[],[],rfl,(Ordered.boot config dir).upTo⟩
  · intro events i u v hu ih hstep hv hall
    have hs := (Staffed.boot config dir).moves hu (step_live hstep)
    obtain ⟨log,hlog,htimely⟩ := ih (step_live hstep)
      fun line hline => hall line (hline.step hs hstep hv)
    obtain ⟨new,hnew⟩ := hlog.step hs hstep hv
      fun w x hx => hall x.turn.line (Or.inr ⟨w,x,hx,rfl⟩)
    refine ⟨log ++ new,hnew,fun before after t hsplit ht => ?_⟩
    rcases List.eq_nil_or_concat after with rfl | ⟨after',j,rfl⟩
    · rw [List.append_nil] at hsplit
      subst hsplit
      have hlast := moves_append.mpr ⟨u,hu,moves_cons.mpr ⟨v,hstep,moves_nil.mpr rfl⟩⟩
      cases hlast.eq ht
      exact ⟨log ++ new,[],(List.append_nil _).symm,hnew.upTo⟩
    · rw [List.concat_eq_append,← List.append_assoc] at hsplit
      obtain ⟨early,late,rfl,hupTo⟩ := htimely before after' t (List.append_inj' hsplit rfl).1 ht
      exact ⟨early,late ++ new,List.append_assoc ..,hupTo⟩

/-- Sessions of commands that touch the table at one moment, their lines meeting call by call
on the same keys or not, with the sweeps, the snapshots and the shutdown among them. When `run`
has returned 0 there is one order of all lines that were served: each session's lines are in
their own order in it, a line stands before all that were read after it was answered, each is
answered as by one client sending them in this order, and the next process finds the values
that this client would have made. -/
theorem one_order_survives_clean_stop (config : ServerConfig) (dir : DataDir)
    {steps : List Step} (hrun : Moves step (boot hash config dir) steps c)
    (hstage : c.process.stage = .returned 0)
    (hlines : ∀ x ∈ c.process.served, ∀ cmd, parseLine x.line = some cmd →
      indivisible cmd = true) :
    (∀ k session, (k,session) ∈ c.process.sessions.accepted →
      (c.process.exchanges k).map Exchange.line <+: session) ∧
    ∃ log : List Exchange, (∀ k, ofSession k log = c.process.exchanges k) ∧
      Answered (recover hash dir).values log ∧
      (∀ before after v, steps = before ++ after → Moves step (boot hash config dir) before v →
        ∃ early late, log = early ++ late ∧ v.UpTo early) ∧
      (recover hash ⟨c.process.file,c.process.server.aof.file⟩).values =
        mapAfter (recover hash dir).values (log.map Exchange.line) := by
  have hlive : c.process.stage ≠ .aborted := by
    rw [hstage]
    simp
  have hs := (Staffed.boot config dir).moves hrun hlive
  have hfree : ∀ w u, c.underway w ≠ some u := fun w u hw => (hs.not_over hw 0).2 hstage
  obtain ⟨log,hlog,htimely⟩ := exists_ordered hrun hlive fun line hline => by
    rcases hline with ⟨x,hx,rfl⟩ | ⟨w,u,hw,-⟩
    · exact hlines x hx
    · exact absurd hw (hfree w u)
  have hparts : ∀ k, ofSession k log = c.process.exchanges k :=
    fun k => hlog.idle k fun w u hw => absurd hw (hfree w u)
  refine ⟨hs.fed.read,log,hparts,hlog.replies,htimely,?_⟩
  have hvalues := hlog.store.values_eq
  have hserved : Served (recover hash dir).values (log.map Exchange.line) := by
    refine served_of_indivisible fun line hline => ?_
    obtain ⟨x,hx,rfl⟩ := List.mem_map.mp hline
    have hpart : x ∈ c.process.exchanges x.session := by
      rw [← hparts]
      exact List.mem_filter.mpr ⟨hx,decide_eq_true rfl⟩
    exact hlines x (List.mem_filter.mp hpart).1
  rw [hs.saved.file hs.manned hstage,← hvalues]
  refine (Snapshot.loadInto_write ?_).2
  rw [hvalues]
  exact Server.lineFree_mapAfter (Server.boot_agrees config dir) hserved
    (Recovery.lineFree_recover hash dir)

/-- Two sessions set one key; the second has stored its value first, and is answered last. -/
theorem one_order_survives_clean_stop_example :
    ∃ steps, ∃ c : CallProcess (fun _ => 0),
      Moves step (boot (fun _ => 0) {} ⟨none,none⟩) steps c ∧ c.process.stage = .returned 0 ∧
      c.process.served =
        [⟨0,bytes "SET a 1",some okResponse⟩,⟨1,bytes "SET a 2",some okResponse⟩] ∧
      ∃ log, (∀ k, ofSession k log = c.process.exchanges k) ∧
        (recover (fun _ => 0) ⟨c.process.file,c.process.server.aof.file⟩).values =
          mapAfter ∅ (log.map Exchange.line) := by
  let env : Env := ⟨fun _ => 0,.success⟩
  have hone : parseLine (bytes "SET a 1") = some ⟨.set,bytes "SET",[bytes "a",bytes "1"]⟩ := by
    decide
  have htwo : parseLine (bytes "SET a 2") = some ⟨.set,bytes "SET",[bytes "a",bytes "2"]⟩ := by
    decide
  obtain ⟨u,hu,hmeet⟩ : ∃ u : ServerProcess (fun _ => 0),
      Moves ServerProcess.step (ServerProcess.boot (fun _ => 0) {} ⟨none,none⟩)
        [.main true 0,.main true 0,.main true 0,.accept [bytes "SET a 1"],
          .accept [bytes "SET a 2"],.wake 0,.wake 1] u ∧
      ∀ server : Server fun _ => 0, ∃ more v, Moves step
        ⟨{ u with server := server },fun _ => none⟩ more v ∧ v.process.stage = .opening ∧
        v.process.served =
          [⟨0,bytes "SET a 1",some okResponse⟩,⟨1,bytes "SET a 2",some okResponse⟩] :=
    ⟨_,Runs.moves_iff_foldlM.mpr rfl,fun server =>
      ⟨[Step.read 0 env,.read 1 env,.call 0,.call 1,.call 1,.call 0,.answer 0,.answer 1] ++
        [ServerProcess.Step.signal,.main true 0,.main true 0,.finish 0,.finish 1,.wake 0].map
          Step.other ++
        [ServerProcess.Step.wake 1,.wake 2,.wake 3,.main true 0,.main true 0,
          .sweep (fun _ => 0),.main true 0,.main true 0,.snapshot 0,.main true 0].map Step.other,
        _,Runs.moves_iff_foldlM.mpr rfl,rfl,rfl⟩⟩
  obtain ⟨more,v,hv,hopening,hserved⟩ := hmeet u.server
  have hfirst := moves_other (fun _ => none) hu (by simp [apart])
  have hlast := moves_other v.underway (ServerProcess.moves_lastWrite hopening)
    (by simp [apart])
  have hrun := moves_append.mpr ⟨_,hfirst,moves_append.mpr ⟨_,hv,hlast⟩⟩
  have hempty : (recover (fun _ => 0) ⟨none,none⟩).values = ∅ := recover_of_log (fun _ => 0) none
  have hlines : ∀ x ∈ v.process.served, ∀ cmd, parseLine x.line = some cmd →
      indivisible cmd = true := by
    intro x hx cmd hcmd
    rw [hserved] at hx
    rcases List.mem_pair.mp hx with rfl | rfl
    · cases hone.symm.trans hcmd
      rfl
    · cases htwo.symm.trans hcmd
      rfl
  obtain ⟨-,log,hparts,-,-,hvalues⟩ :=
    one_order_survives_clean_stop {} ⟨none,none⟩ hrun rfl hlines
  rw [hempty] at hvalues
  exact ⟨_,_,hrun,rfl,hserved,log,hparts,hvalues⟩

/-- No line is read, no connection arrives, and nothing kills the process. -/
def Step.closing : Step → Prop
  | .other i => i.closing
  | .read _ _ => False
  | .call _ | .answer _ => True

/-- The lines under way can be answered on the store as it is. -/
structure Answerable (c : CallProcess hash) : Prop where
  store : ∃ m, c.process.server.storage.Agrees m
  lines : ∀ w u, c.underway w = some u →
    u.rest.Pending (@SharedCall.exec hash) Calls.respondTo Calls.Holds u.turn ∨
      ∃ reply, u.rest.Settled (@SharedCall.exec hash) Calls.Holds reply

theorem Answerable.answer {w : Nat} {u : Underway} (h : c.Answerable) (hs : c.Staffed)
    (hlive : c.process.stage ≠ .aborted) (hw : c.underway w = some u) :
    ∃ n d, Moves step c (List.replicate n (.call w) ++ [.answer w]) d ∧ d.Answerable ∧
      d.underway = Function.update c.underway w none ∧
      d.process.stage = c.process.stage := by
  have hrun : c.process.stage.halted = false := by
    have hover := fun n => (hs.not_over hw n).2
    cases hstage : c.process.stage
    case returned n => exact absurd hstage (hover n)
    case aborted => exact absurd hstage hlive
    all_goals rfl
  obtain ⟨m,hm⟩ := h.store
  obtain ⟨reply,server,hreturns,m',hm'⟩ : ∃ reply server,
      u.rest.run SharedCall.exec c.process.server = .ok reply server ∧
        ∃ m', server.storage.Agrees m' := by
    rcases h.lines w u hw with hpending | ⟨reply,hsettled⟩
    · obtain ⟨server,hreturns,hm'⟩ := hpending.returns hm
      exact ⟨_,server,hreturns,_,hm'⟩
    · obtain ⟨server,hreturns,hm'⟩ := hsettled.returns hm
      exact ⟨reply,server,hreturns,m,hm'⟩
  obtain ⟨n,hn⟩ := moves_calls (w := w) u.turn hrun c.underway hreturns
  have hsame : Function.update c.underway w (some ⟨u.turn,u.rest⟩) = c.underway := by
    rw [← hw,Function.update_eq_self]
  rw [hsame] at hn
  refine ⟨n,⟨{ c.process with
      server := server
      served := c.process.served ++ [⟨u.turn.client,u.turn.line,reply⟩] },
    Function.update c.underway w none⟩,moves_append.mpr ⟨_,hn,moves_cons.mpr
      ⟨_,?_,moves_nil.mpr rfl⟩⟩,⟨⟨m',hm'⟩,fun v x hx => ?_⟩,rfl,rfl⟩
  · simp only [step,hrun,CallProcess.answer,Function.update_self,Function.update_idem,
      Bool.false_eq_true,if_false]
  · exact h.lines v x ((underway_update hx).resolve_left fun hnone => by cases hnone.2).2

theorem Answerable.answer_all {n : Nat} (h : c.Answerable) (hs : c.Staffed)
    (hlive : c.process.stage ≠ .aborted) (hbound : ∀ w, n ≤ w → c.underway w = none) :
    ∃ more d, (∀ i ∈ more, Step.closing i) ∧ Moves step c more d ∧
      d.underway = (fun _ => none) ∧ d.process.stage = c.process.stage := by
  induction n generalizing c with
  | zero =>
    exact ⟨[],c,fun i hi => absurd hi List.not_mem_nil,moves_nil.mpr rfl,
      funext fun w => hbound w (Nat.zero_le w),rfl⟩
  | succ n ih =>
    cases hn : c.underway n with
    | none =>
      refine ih h hs hlive fun w hw => ?_
      rcases Nat.eq_or_lt_of_le hw with rfl | hlt
      · exact hn
      · exact hbound w hlt
    | some u =>
      obtain ⟨k,d,hd,hanswerable,hunderway,hstage⟩ := h.answer hs hlive hn
      have hlive' : d.process.stage ≠ .aborted := hstage ▸ hlive
      have hleft : ∀ w, n ≤ w → d.underway w = none := by
        intro w hw
        rw [hunderway]
        rcases Nat.eq_or_lt_of_le hw with rfl | hlt
        · exact Function.update_self ..
        · exact (Function.update_of_ne (Nat.ne_of_gt hlt) ..).trans (hbound w hlt)
      obtain ⟨more,e,hmore,he,hnone,hend⟩ := ih hanswerable (hs.moves hd hlive') hlive' hleft
      refine ⟨_,e,fun i hi => ?_,moves_append.mpr ⟨d,hd,he⟩,hnone,hend.trans hstage⟩
      rcases List.mem_append.mp hi with hi | hi
      · rcases List.mem_append.mp hi with hi | hi
        · rw [List.eq_of_mem_replicate hi]
          trivial
        · rw [List.mem_singleton.mp hi]
          trivial
      · exact hmore i hi

/-- Whatever has happened so far, with lines under way in any number of workers: they can all
be answered, and the process can then get to its return without a further line being read. No
line waits for another one. -/
theorem can_answer_and_return (config : ServerConfig) (dir : DataDir) {steps : List Step}
    (hrun : Moves step (boot hash config dir) steps c) (hlive : c.process.stage ≠ .aborted)
    (hlines : ∀ line, c.Begun line → ∀ cmd, parseLine line = some cmd → indivisible cmd = true) :
    ∃ more d, (∀ i ∈ more, Step.closing i) ∧ Moves step c more d ∧
      d.process.stage = .returned (c.process.stage.code.getD 0) ∧
      ∀ line, c.Begun line → ∃ x ∈ d.process.served, x.line = line := by
  have hs := (Staffed.boot config dir).moves hrun hlive
  obtain ⟨log,hlog,-⟩ := exists_ordered hrun hlive hlines
  have hanswerable : c.Answerable := by
    refine ⟨⟨_,hlog.store⟩,fun w u hw => ?_⟩
    rcases hlog.busy w u hw with ⟨hpending,-⟩ | ⟨reply,hsettled,-⟩
    · exact Or.inl hpending
    · exact Or.inr ⟨reply,hsettled⟩
  have hbound : ∀ w, c.process.sessions.pool.workers.length ≤ w → c.underway w = none := by
    refine fun w hw => Option.eq_none_iff_forall_ne_some.mpr fun u hu => ?_
    obtain ⟨session,hworker,-⟩ := hs.reading w u hu
    rw [List.getElem?_eq_none hw] at hworker
    cases hworker
  obtain ⟨first,e,hfirst,he,hnone,hstage⟩ := hanswerable.answer_all hs hlive hbound
  have hlive' : e.process.stage ≠ .aborted := hstage ▸ hlive
  have hs' := hs.moves he hlive'
  obtain ⟨rest,q,hrest,hq,hreturned⟩ := ServerProcess.Closing.returns
    ⟨hs'.manned,hlive',rfl,hs'.stopping⟩
  have hapart : ∀ i ∈ rest, apart ⟨e.process,e.underway⟩ i = true := by
    intro i hi
    have hclosing := hrest i hi
    cases i
    case line => cases hclosing
    case finish => simp only [apart,hnone,Option.isNone_none]
    all_goals rfl
  have hlast := moves_other e.underway hq hapart
  have hall := moves_append.mpr ⟨e,he,hlast⟩
  have hover : q.stage ≠ .aborted := by
    rw [hreturned]
    simp
  refine ⟨_,_,fun i hi => ?_,hall,by rw [hreturned,hstage],fun line hline => ?_⟩
  · rcases List.mem_append.mp hi with hi | hi
    · exact hfirst i hi
    · obtain ⟨j,hj,rfl⟩ := List.mem_map.mp hi
      exact hrest j hj
  · rcases hline.moves hs hall hover with hserved | ⟨w,u,hw,-⟩
    · exact hserved
    · rw [hnone] at hw
      cases hw

theorem can_answer_and_return_example :
    ∃ steps, ∃ c : CallProcess (fun _ => 0),
      Moves step (boot (fun _ => 0) {} ⟨none,none⟩) steps c ∧
      (c.underway 0).isSome = true ∧ (c.underway 1).isSome = true ∧
      ∃ more d, Moves step c more d ∧ d.process.stage = .returned 0 := by
  let env : Env := ⟨fun _ => 0,.success⟩
  obtain ⟨c,hc,hzero,hone,hstage,hserved,hunderway⟩ : ∃ c : CallProcess (fun _ => 0),
      Moves step (boot (fun _ => 0) {} ⟨none,none⟩)
        ([ServerProcess.Step.main true 0,.main true 0,.main true 0,.accept [bytes "SET a 1"],
          .accept [bytes "DELETE a"],.wake 0,.wake 1].map Step.other ++
          [Step.read 0 env,.read 1 env,.call 0]) c ∧
      (c.underway 0).isSome = true ∧ (c.underway 1).isSome = true ∧
      c.process.stage = .accepting ∧ c.process.served = [] ∧
      ∀ w u, c.underway w = some u →
        u.turn.line = bytes "SET a 1" ∨ u.turn.line = bytes "DELETE a" := by
    refine ⟨_,Runs.moves_iff_foldlM.mpr rfl,rfl,rfl,rfl,rfl,fun w u hw => ?_⟩
    rcases underway_update hw with ⟨-,hu⟩ | ⟨-,hw⟩
    · cases hu
      exact Or.inl rfl
    rcases underway_update hw with ⟨-,hu⟩ | ⟨-,hw⟩
    · cases hu
      exact Or.inr rfl
    rcases underway_update hw with ⟨-,hu⟩ | ⟨-,hw⟩
    · cases hu
      exact Or.inl rfl
    · cases hw
  have hset : parseLine (bytes "SET a 1") = some ⟨.set,bytes "SET",[bytes "a",bytes "1"]⟩ := by
    decide
  have hdelete : parseLine (bytes "DELETE a") = some ⟨.delete,bytes "DELETE",[bytes "a"]⟩ := by
    decide
  obtain ⟨more,d,-,hd,hreturned,-⟩ := can_answer_and_return {} ⟨none,none⟩ hc
    (by rw [hstage]; simp) fun line hline cmd hcmd => by
      rcases hline with ⟨x,hx,-⟩ | ⟨w,u,hw,rfl⟩
      · rw [hserved] at hx
        cases hx
      · rcases hunderway w u hw with hline | hline
        · rw [hline,hset] at hcmd
          cases hcmd
          rfl
        · rw [hline,hdelete] at hcmd
          cases hcmd
          rfl
  rw [hstage] at hreturned
  exact ⟨_,c,hc,hzero,hone,more,d,hd,hreturned⟩

end CallProcess
end VoltDBX
