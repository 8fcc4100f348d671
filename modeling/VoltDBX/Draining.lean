import VoltDBX.Shutdown

/-!
What the sessions of a server process were served, and what is left of it after a clean stop.
-/

set_option autoImplicit false

namespace VoltDBX
open Reference

/-- The part of a log that is of session `k`. -/
def ofSession (k : Nat) (log : List Exchange) : List Exchange := log.filter fun x => x.session = k

theorem ofSession_append {new : List Exchange} {j : Nat} (hnew : ∀ x ∈ new, x.session = j)
    (k : Nat) (log : List Exchange) :
    ofSession k (log ++ new) = ofSession k log ++ if j = k then new else [] := by
  rw [ofSession,List.filter_append,ofSession]
  congr 1
  split
  · rename_i hjk
    exact List.filter_eq_self.mpr fun x hx => decide_eq_true ((hnew x hx).trans hjk)
  · rename_i hjk
    refine List.filter_eq_nil_iff.mpr fun x hx hk => hjk ?_
    exact (hnew x hx).symm.trans (of_decide_eq_true hk)

theorem split_snoc {α : Type} {P : List α → α → Prop} {l : List α} {x : α}
    (h : ∀ before y after, l = before ++ y :: after → P before y) (hx : P l x) :
    ∀ before y after, l ++ [x] = before ++ y :: after → P before y := by
  intro before y after hsplit
  rcases List.eq_nil_or_concat after with rfl | ⟨after',z,rfl⟩
  · obtain ⟨rfl,hlast⟩ := List.append_inj' hsplit rfl
    cases hlast
    exact hx
  · rw [List.concat_eq_append,← List.cons_append,← List.append_assoc] at hsplit
    exact h before y after' (List.append_inj' hsplit rfl).1

namespace ServerProcess
variable {hash : Bytes → Nat} {p q : ServerProcess hash}

def exchanges (p : ServerProcess hash) (k : Nat) : List Exchange :=
  p.served.filter fun x => x.session = k

theorem accepted_number {s : PoolRun (List Bytes)} (h : s.Accounted) {k : Nat}
    {session : List Bytes} (hmem : (k,session) ∈ s.accepted) :
    s.accepted[k]? = some (k,session) := by
  obtain ⟨i,hi⟩ := List.mem_iff_getElem?.mp hmem
  have hlt : i < s.accepted.length := (List.getElem?_eq_some_iff.mp hi).1
  have hnumber : (s.accepted.map Prod.fst)[i]? = some k := by
    rw [List.getElem?_map,hi]
    rfl
  rw [h.numbered,List.getElem?_range hlt,Option.some.injEq] at hnumber
  subst hnumber
  exact hi

structure Fed (p : ServerProcess hash) : Prop where
  read : ∀ k session, (k,session) ∈ p.sessions.accepted →
    (p.exchanges k).map Exchange.line <+: session
  known : ∀ x ∈ p.served, x.session < p.sessions.accepted.length

theorem prefix_extend {α : Type} {l s : List α} {x : α} (h : l <+: s) (hx : s[l.length]? = some x) :
    l ++ [x] <+: s := by
  obtain ⟨rest,rfl⟩ := h
  rw [List.getElem?_append_right (Nat.le_refl _),Nat.sub_self] at hx
  cases rest with
  | nil => cases hx
  | cons y rest =>
    cases hx
    exact ⟨rest,by simp⟩

theorem Fed.exchanges_nil (h : p.Fed) {k : Nat} (hk : p.sessions.accepted.length ≤ k) :
    p.exchanges k = [] := by
  refine List.filter_eq_nil_iff.mpr fun x hx heq => ?_
  have hlt := h.known x hx
  have hxk : x.session = k := of_decide_eq_true heq
  omega

theorem Fed.read_accepted (h : p.Fed) {new : List (Nat × List Bytes)}
    (hnew : p.sessions.accepted ++ new = q.sessions.accepted) (hnumbered : q.sessions.Accounted)
    {k : Nat} {session : List Bytes} (hmem : (k,session) ∈ q.sessions.accepted) :
    (p.exchanges k).map Exchange.line <+: session := by
  rcases Nat.lt_or_ge k p.sessions.accepted.length with hlt | hge
  · have hk := accepted_number hnumbered hmem
    rw [← hnew,List.getElem?_append_left hlt] at hk
    exact h.read k session (List.mem_of_getElem? hk)
  · rw [h.exchanges_nil hge]
    exact List.nil_prefix

theorem exchanges_snoc {x : Exchange} (hserved : q.served = p.served ++ [x]) (k : Nat) :
    q.exchanges k = p.exchanges k ++ if x.session = k then [x] else [] := by
  rw [exchanges,hserved]
  exact ofSession_append (fun y hy => by rw [List.mem_singleton.mp hy]) k p.served

theorem Fed.serve (h : p.Fed) (hmanned : p.Manned) {k : Nat} {session : List Bytes} {line : Bytes}
    {reply : Option Bytes} (hmem : (k,session) ∈ p.sessions.accepted)
    (hline : session[p.position k]? = some line) (hsessions : q.sessions = p.sessions)
    (hserved : q.served = p.served ++ [⟨k,line,reply⟩]) : q.Fed := by
  refine ⟨fun j session' hmem' => ?_,fun x hx => ?_⟩
  · rw [hsessions] at hmem'
    have hread := h.read j session' hmem'
    rw [exchanges_snoc hserved]
    by_cases hj : k = j
    · subst hj
      obtain rfl : session = session' := by
        have hone := accepted_number hmanned.sessions hmem
        rw [accepted_number hmanned.sessions hmem'] at hone
        cases hone
        rfl
      rw [if_pos rfl,List.map_append]
      refine prefix_extend hread ?_
      rw [List.length_map]
      exact hline
    · rw [if_neg hj,List.append_nil]
      exact hread
  · rw [hsessions]
    rw [hserved] at hx
    rcases List.mem_append.mp hx with hx | hx
    · exact h.known x hx
    · rw [List.mem_singleton.mp hx]
      exact (List.getElem?_eq_some_iff.mp (accepted_number hmanned.sessions hmem)).1

theorem Fed.step {i : Step} (h : p.Fed) (hmanned : p.Manned)
    (hstep : ServerProcess.step i p = some q) (hlive : q.stage ≠ .aborted) : q.Fed := by
  obtain ⟨new,hnew⟩ := step_accepted hstep
  have hsame : q.served = p.served → q.Fed := by
    intro hserved
    refine ⟨?_,fun x hx => ?_⟩
    · rw [show q.exchanges = p.exchanges by funext k; rw [exchanges,hserved]; rfl]
      exact fun _ _ => h.read_accepted hnew (hmanned.step hstep).sessions
    · rw [hserved] at hx
      rw [← hnew,List.length_append]
      exact Nat.lt_of_lt_of_le (h.known x hx) (Nat.le_add_right _ _)
  rcases step_storage hmanned hstep hlive with ⟨-,hserved,-⟩ | ⟨key,rest,-,hserved,-⟩ |
    ⟨w,env,k,session,line,reply,-,hw,hline,hsessions,hserved,-⟩
  · exact hsame hserved
  · exact hsame hserved
  · exact h.serve hmanned (hmanned.running_accepted hw) hline hsessions hserved

theorem fed_moves {config : ServerConfig} {dir : DataDir} {steps : List Step}
    (h : Runs.Moves step (boot hash config dir) steps p) (hlive : p.stage ≠ .aborted) : p.Fed := by
  have hboot : (boot hash config dir).Fed := by
    refine ⟨?_,?_⟩
    · intro k session hmem
      cases hmem
    · intro x hx
      cases hx
  exact (Runs.moves_invariant (I := fun u => u.Manned ∧ (u.stage ≠ .aborted → u.Fed))
    (fun _ _ u v hu hmove => ⟨hu.1.step hmove,
      fun hv => (hu.2 (step_live hmove)).step hu.1 hmove hv⟩)
    ⟨manned_boot hash config dir,fun _ => hboot⟩ h).2 hlive

/-- The replies and the store are those of one client that sends the lines in the order in
which they were served. -/
structure Serial (m : Map Bytes) (p : ServerProcess hash) : Prop where
  store : p.server.storage.Agrees (mapAfter m (p.served.map Exchange.line))
  replies : ∀ before x after, p.served = before ++ x :: after → x.line ≠ [] →
    x.reply = some (answer (mapAfter m (before.map Exchange.line)) x.line)
  gathered : ∀ keys, p.sweeps.worker = some (.erasing keys) → keys = []

theorem lasting_of_agrees {e : StorageEngine hash} {m : Map Bytes} (h : e.Agrees m) :
    Recovery.Lasting e := by
  intro key entry hentry
  rw [h key] at hentry
  obtain ⟨value,-,rfl⟩ := Option.map_eq_some_iff.mp hentry
  rfl

theorem handleLine_answers {s t : Server hash} {m : Map Bytes} {env : Env} {line : Bytes}
    {reply : Option Bytes} (h : s.storage.Agrees m) (hserved : Served m [line])
    (hrun : (Server.handleLine env line).run s = .ok reply t) :
    t.storage.Agrees (interpretLine m line).1 ∧ (line ≠ [] → reply = some (answer m line)) := by
  rw [Server.run_handleLine] at hrun
  cases hp : parseLine line with
  | none =>
    rw [hp] at hrun
    cases hrun
    refine ⟨by simpa only [interpretLine,hp] using h,fun hline => ?_⟩
    rw [if_neg hline,answer,hp]
  | some cmd =>
    obtain ⟨hcov,hadm⟩ := hserved.1 cmd hp
    obtain ⟨u,hu,hagree⟩ := @Server.dispatch_answers hash s m cmd env line h hp hcov hadm
    simp only [hp,hu] at hrun
    cases hrun
    exact ⟨hagree,fun _ => rfl⟩

theorem Serial.step {i : Step} {m : Map Bytes} (h : p.Serial m) (hmanned : p.Manned)
    (hstep : ServerProcess.step i p = some q) (hlive : q.stage ≠ .aborted)
    (hserved : Served m (q.served.map Exchange.line)) : q.Serial m := by
  have hgathered : ∀ keys, q.sweeps.worker = some (.erasing keys) → keys = [] := by
    intro keys hkeys
    rcases step_sweeps hstep hkeys with ⟨clock,hnew⟩ | hold | ⟨key,hold⟩
    · rw [hnew,gathered_nil (lasting_of_agrees h.store) clock]
    · exact h.gathered keys hold
    · cases h.gathered _ hold
  rcases step_storage hmanned hstep hlive with ⟨hstore,hsame,-⟩ | ⟨key,rest,hold,-⟩ |
    ⟨w,env,j,session,line,reply,-,-,-,-,hnew,hrun⟩
  · refine ⟨?_,?_,hgathered⟩
    · rw [hstore,hsame]
      exact h.store
    · rw [hsame]
      exact h.replies
  · cases h.gathered _ hold
  · rw [hnew,List.map_append] at hserved
    obtain ⟨hagree,hreply⟩ := handleLine_answers h.store (served_append.mp hserved).2 hrun
    refine ⟨?_,?_,hgathered⟩
    · rw [hnew]
      simp only [mapAfter,List.map_append,List.foldl_append]
      exact hagree
    · rw [hnew]
      exact split_snoc h.replies hreply

theorem serial_moves {config : ServerConfig} {dir : DataDir} {steps : List Step}
    (h : Runs.Moves step (boot hash config dir) steps p) (hlive : p.stage ≠ .aborted)
    (hserved : Served (recover hash dir).values (p.served.map Exchange.line)) :
    p.Serial (recover hash dir).values := by
  have hboot : (boot hash config dir).Serial (recover hash dir).values := by
    refine ⟨(Recovery.lasting_recover hash dir).agrees,?_,?_⟩
    · intro before x after hsplit
      cases before <;> cases hsplit
    · intro keys hkeys
      cases hkeys
  refine (Runs.moves_invariant (I := fun u => u.Manned ∧ (u.stage ≠ .aborted →
      Served (recover hash dir).values (u.served.map Exchange.line) →
        u.Serial (recover hash dir).values))
    (fun i _ u v hu hmove => ⟨hu.1.step hmove,fun hv hall => ?_⟩)
    ⟨manned_boot hash config dir,fun _ _ => hboot⟩ h).2 hlive hserved
  have hbefore : Served (recover hash dir).values (u.served.map Exchange.line) := by
    rcases step_storage hu.1 hmove hv with ⟨-,hsame,-⟩ | ⟨key,rest,-,hsame,-⟩ |
      ⟨w,env,j,session,line,reply,-,-,-,-,hnew,-⟩
    · exact hsame ▸ hall
    · exact hsame ▸ hall
    · rw [hnew,List.map_append] at hall
      exact (served_append.mp hall).1
  exact (hu.2 (step_live hmove) hbefore).step hu.1 hmove hv hall

/-- Whatever the interleaving of the workers with each other, with the sweeps and with the
snapshots, a line being a single step of it: the lines are served as if one client had sent
them in the order of service, each session's in its own order, and after a clean stop the next
process finds the values they made of those that this one had found. Where two lines meet
between their calls on the table this need not hold: counters are then lost. -/
theorem updates_survive_clean_stop (config : ServerConfig) (dir : DataDir) {steps : List Step}
    (hrun : Runs.Moves step (boot hash config dir) steps p) (hstage : p.stage = .returned 0)
    (hserved : Served (recover hash dir).values (p.served.map Exchange.line)) :
    (∀ before x after, p.served = before ++ x :: after → x.line ≠ [] →
      x.reply = some (answer (mapAfter (recover hash dir).values (before.map Exchange.line))
        x.line)) ∧
    (∀ k session, (k,session) ∈ p.sessions.accepted →
      (p.exchanges k).map Exchange.line <+: session) ∧
    (recover hash ⟨p.file,p.server.aof.file⟩).values =
      mapAfter (recover hash dir).values (p.served.map Exchange.line) := by
  have hlive : p.stage ≠ .aborted := by
    rw [hstage]
    simp
  have hserial := serial_moves hrun hlive hserved
  refine ⟨hserial.replies,(fed_moves hrun hlive).read,?_⟩
  rw [recovered_of_returned hrun hstage]
  exact hserial.store.values_eq

theorem updates_survive_clean_stop_example :
    ∃ steps, ∃ p : ServerProcess (fun _ => 0),
      Runs.Moves step (boot (fun _ => 0) {} ⟨none,none⟩) steps p ∧ p.stage = .returned 0 ∧
      (recover (fun _ => 0) ⟨p.file,p.server.aof.file⟩).values =
        (∅ : Map Bytes).insert (bytes "a") (bytes "1") := by
  have hset : parseLine (bytes "SET a 1") = some ⟨.set,bytes "SET",[bytes "a",bytes "1"]⟩ := by
    decide
  have hempty : (recover (fun _ => 0) ⟨none,none⟩).values = ∅ := recover_of_log (fun _ => 0) none
  obtain ⟨steps,u,hu,-,-,hserved,-,more,v,hv,hopening,-,hlast⟩ := exists_set_served
  have hrun := Runs.moves_append.mpr ⟨_,hu,Runs.moves_append.mpr ⟨_,hv,moves_lastWrite hopening⟩⟩
  have hall := hlast.trans hserved
  have hadmitted : Served (recover (fun _ => 0) ⟨none,none⟩).values
      (v.served.map Exchange.line) := by
    rw [hall]
    refine ⟨fun cmd hcmd => ?_,trivial⟩
    cases hset.symm.trans hcmd
    exact ⟨rfl,trivial⟩
  refine ⟨_,_,hrun,rfl,(updates_survive_clean_stop {} ⟨none,none⟩ hrun rfl hadmitted).2.2.trans ?_⟩
  rw [hall,hempty]
  simp only [mapAfter,List.map_cons,List.map_nil,List.foldl_cons,List.foldl_nil,interpretLine,hset,
    interpret]
  rfl

end ServerProcess
end VoltDBX
