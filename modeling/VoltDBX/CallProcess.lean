import VoltDBX.Draining
import VoltDBX.Indivisible

/-!
The server process with the lines of its sessions taken apart: a worker reads a line, makes
its calls on the table one by one, and answers it, and between any two of these all other
threads go on. What `ServerProcess` leaves out, that lines meet, is here.
-/

set_option autoImplicit false

namespace VoltDBX
open Runs Runs.Program Reference

/-- A line that a worker has read and not answered: what is left of its command. -/
structure Underway where
  turn : Server.Turn Nat
  rest : Calls (Option Bytes)

/-- `underway` gives the workers the lines that they are executing. -/
structure CallProcess (hash : Bytes → Nat) where
  process : ServerProcess hash
  underway : Nat → Option Underway

namespace CallProcess
variable {hash : Bytes → Nat}

def boot (hash : Bytes → Nat) (config : ServerConfig) (dir : DataDir) : CallProcess hash :=
  ⟨ServerProcess.boot hash config dir,fun _ => none⟩

def read (w : Nat) (env : Env) (c : CallProcess hash) : Option (CallProcess hash) :=
  match c.underway w with
  | some _ => none
  | none => (c.process.next w).map fun x =>
    ⟨c.process,Function.update c.underway w (some ⟨⟨x.1,env,x.2⟩,Calls.handleLine env x.2⟩)⟩

def call (w : Nat) (c : CallProcess hash) : Option (CallProcess hash) :=
  match c.underway w with
  | some ⟨turn,.call i next⟩ => some
    ⟨{ c.process with server := (SharedCall.exec i c.process.server).2 },
      Function.update c.underway w (some ⟨turn,next (SharedCall.exec i c.process.server).1⟩)⟩
  | _ => none

/-- The reply is written, and the loop goes back to `read_line`; nothing catches an exception
of the handler. -/
def answer (w : Nat) (c : CallProcess hash) : Option (CallProcess hash) :=
  match c.underway w with
  | some ⟨turn,.done (.ok reply)⟩ => some
    ⟨{ c.process with served := c.process.served ++ [⟨turn.client,turn.line,reply⟩] },
      Function.update c.underway w none⟩
  | some ⟨_,.done (.error _)⟩ => some
    ⟨{ c.process with stage := .aborted },Function.update c.underway w none⟩
  | _ => none

inductive Step where
  | other (i : ServerProcess.Step)
  | read (w : Nat) (env : Env)
  | call (w : Nat)
  | answer (w : Nat)

/-- The steps of the process that are not about a line under way. -/
def apart (c : CallProcess hash) : ServerProcess.Step → Bool
  | .line _ _ => false
  | .finish w => (c.underway w).isNone
  | _ => true

def step (i : Step) (c : CallProcess hash) : Option (CallProcess hash) :=
  if c.process.stage.halted then none
  else match i with
    | .other i =>
      if c.apart i then (ServerProcess.step i c.process).map fun p => ⟨p,c.underway⟩ else none
    | .read w env => c.read w env
    | .call w => c.call w
    | .answer w => c.answer w

theorem underway_update {f : Nat → Option Underway} {v w : Nat} {u : Option Underway} {x : Underway}
    (h : Function.update f w u v = some x) : v = w ∧ u = some x ∨ v ≠ w ∧ f v = some x := by
  by_cases hv : v = w
  · subst hv
    exact Or.inl ⟨rfl,(Function.update_self v u f).symm.trans h⟩
  · exact Or.inr ⟨hv,(Function.update_of_ne hv u f).symm.trans h⟩

variable {c d : CallProcess hash}

theorem step_some {i : Step} (h : step i c = some d) : c.process.stage.halted = false := by
  unfold step at h
  split at h
  · cases h
  · rename_i hrun
    exact Bool.eq_false_iff.mpr hrun

theorem step_other {i : ServerProcess.Step} (h : step (.other i) c = some d) :
    c.apart i = true ∧ ∃ p, ServerProcess.step i c.process = some p ∧ d = ⟨p,c.underway⟩ := by
  have hrun := step_some h
  unfold step at h
  rw [hrun,if_neg Bool.false_ne_true] at h
  dsimp only at h
  split at h
  · rename_i hapart
    obtain ⟨p,hp,rfl⟩ := Option.map_eq_some_iff.mp h
    exact ⟨hapart,p,hp,rfl⟩
  · cases h

theorem apart_ne_line {i : ServerProcess.Step} (h : c.apart i = true) (w : Nat) (env : Env) :
    i ≠ .line w env := by
  rintro rfl
  cases h

theorem step_read {w : Nat} {env : Env} (h : step (.read w env) c = some d) :
    ∃ k session line, c.underway w = none ∧
      c.process.sessions.pool.workers[w]? = some (.running (k,session)) ∧
      session[c.process.position k]? = some line ∧
      d = ⟨c.process,Function.update c.underway w
        (some ⟨⟨k,env,line⟩,Calls.lineOf (⟨k,env,line⟩ : Server.Turn Nat)⟩)⟩ := by
  have hrun := step_some h
  unfold step at h
  rw [hrun,if_neg Bool.false_ne_true] at h
  simp only [read] at h
  split at h
  · cases h
  · rename_i hfree
    obtain ⟨⟨k,line⟩,hnext,rfl⟩ := Option.map_eq_some_iff.mp h
    unfold ServerProcess.next at hnext
    split at hnext
    · rename_i j session hworker
      obtain ⟨l,hl,hx⟩ := Option.map_eq_some_iff.mp hnext
      cases hx
      exact ⟨k,session,line,hfree,hworker,hl,rfl⟩
    · cases hnext

theorem step_call {w : Nat} (h : step (.call w) c = some d) :
    ∃ turn i next, c.underway w = some ⟨turn,.call i next⟩ ∧
      d = ⟨{ c.process with server := (SharedCall.exec i c.process.server).2 },
        Function.update c.underway w
          (some ⟨turn,next (SharedCall.exec i c.process.server).1⟩)⟩ := by
  have hrun := step_some h
  unfold step at h
  rw [hrun,if_neg Bool.false_ne_true] at h
  simp only [call] at h
  split at h
  · rename_i turn i next hw
    exact ⟨turn,i,next,hw,(Option.some.inj h).symm⟩
  · cases h

theorem step_answer {w : Nat} (h : step (.answer w) c = some d) :
    ∃ turn result, c.underway w = some ⟨turn,.done result⟩ ∧
      d.underway = Function.update c.underway w none ∧
      ((∃ reply, result = .ok reply ∧ d.process = { c.process with
          served := c.process.served ++ [⟨turn.client,turn.line,reply⟩] }) ∨
        ∃ x, result = .error x ∧ d.process = { c.process with stage := .aborted }) := by
  have hrun := step_some h
  unfold step at h
  rw [hrun,if_neg Bool.false_ne_true] at h
  simp only [answer] at h
  split at h
  · rename_i turn reply hw
    cases h
    exact ⟨turn,_,hw,rfl,Or.inl ⟨reply,rfl,rfl⟩⟩
  · rename_i turn x hw
    cases h
    exact ⟨turn,_,hw,rfl,Or.inr ⟨x,rfl,rfl⟩⟩
  · cases h

theorem moves_calls {w : Nat} (turn : Server.Turn Nat) {rest : Calls (Option Bytes)}
    {p : ServerProcess hash} (hrun : p.stage.halted = false) (under : Nat → Option Underway)
    {reply : Option Bytes} {server : Server hash}
    (h : rest.run SharedCall.exec p.server = .ok reply server) :
    ∃ n, Moves step ⟨p,Function.update under w (some ⟨turn,rest⟩)⟩ (List.replicate n (.call w))
      ⟨{ p with server := server },
        Function.update under w (some ⟨turn,.done (.ok reply)⟩)⟩ := by
  induction rest generalizing p with
  | done result =>
    cases result with
    | error x => cases h
    | ok a =>
      cases h
      exact ⟨0,moves_nil.mpr rfl⟩
  | call i next ih =>
    obtain ⟨n,hn⟩ := ih (SharedCall.exec i p.server).1
      (p := { p with server := (SharedCall.exec i p.server).2 }) hrun h
    refine ⟨n+1,?_⟩
    rw [List.replicate_succ]
    refine moves_cons.mpr ⟨_,?_,hn⟩
    simp only [step,hrun,call,Function.update_self,Function.update_idem,Bool.false_eq_true,
      if_false]

/-- A line that meets no other one is the single step of `ServerProcess`. -/
theorem moves_line {w : Nat} {env : Env} {p q : ServerProcess hash} {under : Nat → Option Underway}
    (hfree : under w = none) (hstep : ServerProcess.step (.line w env) p = some q)
    (hlive : q.stage ≠ .aborted) :
    ∃ n server, Calls.Same server q.server ∧
      Moves step ⟨p,under⟩ (.read w env :: (List.replicate n (.call w) ++ [.answer w]))
        ⟨{ q with server := server },under⟩ := by
  have hrun := ServerProcess.step_some hstep
  unfold ServerProcess.step at hstep
  rw [hrun,if_neg Bool.false_ne_true] at hstep
  obtain ⟨k,session,line,hw,hline,⟨reply,server,hok,rfl⟩ | ⟨x,server,-,rfl⟩⟩ :=
    ServerProcess.line_cases hstep
  · obtain ⟨reply',server',hcalls,rfl,hsame⟩ :
        ∃ reply' server', (Calls.handleLine env line).run SharedCall.exec p.server =
          .ok reply' server' ∧ reply' = reply ∧ Calls.Same server' server := by
      have hagree := Calls.agree_handleLine env line p.server
      rw [hok] at hagree
      cases hc : (Calls.handleLine env line).run SharedCall.exec p.server with
      | ok reply' server' =>
        rw [hc] at hagree
        exact ⟨reply',server',rfl,hagree⟩
      | error x t =>
        rw [hc] at hagree
        exact absurd hagree not_false
    obtain ⟨n,hn⟩ := moves_calls (w := w) ⟨k,env,line⟩ hrun under hcalls
    refine ⟨n,server',hsame,moves_cons.mpr ⟨_,?_,moves_append.mpr ⟨_,hn,moves_cons.mpr
      ⟨_,?_,moves_nil.mpr rfl⟩⟩⟩⟩
    · have hnext : p.next w = some (k,line) := by
        simp only [ServerProcess.next,hw,hline,Option.map_some]
      simp only [step,hrun,read,hfree,hnext,Option.map_some,Bool.false_eq_true,if_false]
    · have hback : Function.update under w none = under := by
        rw [← hfree,Function.update_eq_self]
      simp only [step,hrun,answer,Function.update_self,Function.update_idem,Bool.false_eq_true,
        if_false,hback]
  · exact absurd rfl hlive

theorem moves_other {is : List ServerProcess.Step} {p q : ServerProcess hash}
    (under : Nat → Option Underway) (h : Moves ServerProcess.step p is q)
    (hapart : ∀ i ∈ is, apart ⟨p,under⟩ i = true) :
    Moves step ⟨p,under⟩ (is.map .other) ⟨q,under⟩ := by
  induction is generalizing p with
  | nil =>
    cases moves_nil.mp h
    exact moves_nil.mpr rfl
  | cons i is ih =>
    obtain ⟨r,hr,hrest⟩ := moves_cons.mp h
    refine moves_cons.mpr ⟨⟨r,under⟩,?_,ih hrest fun j hj => hapart j (List.mem_cons_of_mem _ hj)⟩
    have hi := hapart i List.mem_cons_self
    simp only [step,ServerProcess.step_some hr,hi,hr,Option.map_some,Bool.false_eq_true,if_false,
      if_true]

/-- What holds of the threads: each worker with a line under way runs the session it is of,
and it is the first line of it that has not been answered. -/
structure Staffed (c : CallProcess hash) : Prop where
  manned : c.process.Manned
  saved : c.process.Saved
  fed : c.process.Fed
  reading : ∀ w u, c.underway w = some u → ∃ session,
    c.process.sessions.pool.workers[w]? = some (.running (u.turn.client,session)) ∧
      session[c.process.position u.turn.client]? = some u.turn.line
  stopping : c.process.stage = .joiningPool → c.process.sessions.pool.stopping = true

theorem Staffed.one_worker (h : c.Staffed) {v w : Nat} {x y : Underway}
    (hv : c.underway v = some x) (hw : c.underway w = some y)
    (hclient : x.turn.client = y.turn.client) : v = w := by
  obtain ⟨a,ha,-⟩ := h.reading v x hv
  obtain ⟨b,hb,-⟩ := h.reading w y hw
  rw [hclient] at ha
  exact h.manned.sessions.one_worker ha hb

theorem Staffed.not_over (h : c.Staffed) {w : Nat} {u : Underway} (hw : c.underway w = some u)
    (n : Nat) : c.process.stage.code ≠ some 0 ∧ c.process.stage ≠ .returned n := by
  obtain ⟨session,hworker,-⟩ := h.reading w u hw
  have hcode : c.process.stage.code ≠ some 0 := by
    intro hcode
    have hexited := h.manned.workers hcode _ (List.mem_of_getElem? hworker)
    cases hexited
  refine ⟨hcode,fun hreturned => ?_⟩
  cases n with
  | zero => exact hcode (by rw [hreturned]; rfl)
  | succ n =>
    have hnone := h.manned.unbound (Or.inr (Or.inr (Or.inr ⟨n,by rw [hreturned]; rfl⟩)))
    have hmem := h.manned.running_accepted hworker
    rw [hnone] at hmem
    cases hmem

theorem Staffed.not_final (h : c.Staffed) {w : Nat} {u : Underway} (hw : c.underway w = some u) :
    c.process.stage.final = false :=
  Bool.eq_false_iff.mpr fun hfinal => (h.not_over hw 0).1 (Stage.final_facts hfinal).1

/-- The worker that moves may change what is left of its line. -/
theorem Staffed.move (h : c.Staffed) {w : Nat} {turn : Server.Turn Nat}
    {rest rest' : Calls (Option Bytes)} (hw : c.underway w = some ⟨turn,rest⟩)
    (server : Server hash) : Staffed ⟨{ c.process with server := server },
      Function.update c.underway w (some ⟨turn,rest'⟩)⟩ := by
  have hopen := h.not_final hw
  refine ⟨h.manned.executed server _,fun hfinal => ?_,⟨h.fed.read,h.fed.known⟩,fun v x hx => ?_,
    h.stopping⟩
  · rw [hopen] at hfinal
    cases hfinal
  · rcases underway_update hx with ⟨rfl,hu⟩ | ⟨-,hold⟩
    · have hread := h.reading v _ hw
      obtain rfl := Option.some.inj hu
      exact hread
    · exact h.reading v x hold

theorem Staffed.other {i : ServerProcess.Step} (h : c.Staffed) (hstep : step (.other i) c = some d)
    (hlive : d.process.stage ≠ .aborted) : d.Staffed := by
  obtain ⟨hapart,p,hp,rfl⟩ := step_other hstep
  refine ⟨h.manned.step hp,h.saved.step h.manned hp,h.fed.step h.manned hp hlive,fun w u hw => ?_,
    ServerProcess.stopping_step h.stopping hp⟩
  obtain ⟨session,hworker,hline⟩ := h.reading w u hw
  have hgoes : i ≠ .finish w := by
    rintro rfl
    simp only [apart,show c.underway w = some u from hw,Option.isNone_some] at hapart
    cases hapart
  refine ⟨session,ServerProcess.step_running hp hgoes hworker,?_⟩
  rw [ServerProcess.position,
    ServerProcess.step_served h.manned hp hlive (apart_ne_line hapart)]
  exact hline

theorem Staffed.step {i : Step} (h : c.Staffed) (hstep : CallProcess.step i c = some d)
    (hlive : d.process.stage ≠ .aborted) : d.Staffed := by
  cases i with
  | other i => exact h.other hstep hlive
  | read w env =>
    obtain ⟨k,session,line,hfree,hworker,hline,rfl⟩ := step_read hstep
    refine ⟨h.manned,h.saved,h.fed,fun v x hx => ?_,h.stopping⟩
    rcases underway_update hx with ⟨rfl,hu⟩ | ⟨-,hold⟩
    · obtain rfl := Option.some.inj hu
      exact ⟨session,hworker,hline⟩
    · exact h.reading v x hold
  | call w =>
    obtain ⟨turn,i,next,hw,rfl⟩ := step_call hstep
    exact h.move hw _
  | answer w =>
    obtain ⟨turn,result,hw,hunderway,⟨reply,-,hprocess⟩ | ⟨x,-,hprocess⟩⟩ := step_answer hstep
    · obtain ⟨p,underway⟩ := d
      obtain rfl : underway = _ := hunderway
      obtain rfl : p = _ := hprocess
      obtain ⟨session,hworker,hline⟩ := h.reading w _ hw
      have hopen := h.not_final hw
      refine ⟨h.manned.executed _ _,fun hfinal => ?_,
        h.fed.serve h.manned (h.manned.running_accepted hworker) hline rfl rfl,fun v x hx => ?_,
        h.stopping⟩
      · rw [hopen] at hfinal
        cases hfinal
      · obtain ⟨hv,hold⟩ := (underway_update hx).resolve_left fun hnone => by cases hnone.2
        have hother : turn.client ≠ x.turn.client := fun hsame =>
          hv (h.one_worker hw hold hsame).symm
        obtain ⟨session',hworker',hline'⟩ := h.reading v x hold
        refine ⟨session',hworker',?_⟩
        have hplace : ServerProcess.position { c.process with
            served := c.process.served ++ [⟨turn.client,turn.line,reply⟩] } x.turn.client =
            c.process.position x.turn.client := by
          refine congrArg List.length ((ServerProcess.exchanges_snoc rfl _).trans ?_)
          rw [if_neg hother,List.append_nil]
          rfl
        rw [hplace]
        exact hline'
    · rw [hprocess] at hlive
      exact absurd rfl hlive

theorem Staffed.boot (config : ServerConfig) (dir : DataDir) : (boot hash config dir).Staffed := by
  refine ⟨ServerProcess.manned_boot hash config dir,?_,⟨?_,?_⟩,?_,fun hboot => nomatch hboot⟩
  · intro hfinal
    cases hfinal
  · intro k session hmem
    cases hmem
  · intro x hx
    cases hx
  · intro w u hw
    cases hw

theorem step_live {i : Step} (h : step i c = some d) : c.process.stage ≠ .aborted := by
  intro hstage
  have hrun := step_some h
  rw [hstage] at hrun
  cases hrun

theorem Staffed.moves {steps : List Step} (h : c.Staffed) (hrun : Moves CallProcess.step c steps d)
    (hlive : d.process.stage ≠ .aborted) : d.Staffed :=
  moves_invariant (I := fun u => u.process.stage ≠ .aborted → u.Staffed)
    (fun _ _ _ _ hu hmove hv => (hu (step_live hmove)).step hmove hv) (fun _ => h) hrun hlive

def Begun (c : CallProcess hash) (line : Bytes) : Prop :=
  (∃ x ∈ c.process.served, x.line = line) ∨ ∃ w u, c.underway w = some u ∧ u.turn.line = line

theorem Begun.step {i : Step} {line : Bytes} (h : c.Begun line) (hs : c.Staffed)
    (hstep : step i c = some d) (hlive : d.process.stage ≠ .aborted) : d.Begun line := by
  cases i with
  | other i =>
    obtain ⟨hapart,p,hp,rfl⟩ := step_other hstep
    have hserved := ServerProcess.step_served hs.manned hp hlive (apart_ne_line hapart)
    rcases h with ⟨x,hx,hline⟩ | hunder
    · exact Or.inl ⟨x,hserved ▸ hx,hline⟩
    · exact Or.inr hunder
  | read w env =>
    obtain ⟨k,session,new,hfree,-,-,rfl⟩ := step_read hstep
    rcases h with hserved | ⟨v,u,hv,hline⟩
    · exact Or.inl hserved
    · have hne : v ≠ w := by
        rintro rfl
        rw [hfree] at hv
        cases hv
      exact Or.inr ⟨v,u,(Function.update_of_ne hne ..).trans hv,hline⟩
  | call w =>
    obtain ⟨turn,i,next,hw,rfl⟩ := step_call hstep
    rcases h with hserved | ⟨v,u,hv,hline⟩
    · exact Or.inl hserved
    · by_cases hne : v = w
      · subst hne
        rw [hw] at hv
        cases hv
        exact Or.inr ⟨v,_,Function.update_self ..,hline⟩
      · exact Or.inr ⟨v,u,(Function.update_of_ne hne ..).trans hv,hline⟩
  | answer w =>
    obtain ⟨turn,result,hw,hunderway,⟨reply,-,hprocess⟩ | ⟨x,-,hprocess⟩⟩ := step_answer hstep
    · have hserved : d.process.served =
          c.process.served ++ [⟨turn.client,turn.line,reply⟩] := by rw [hprocess]
      rcases h with ⟨x,hx,hline⟩ | ⟨v,u,hv,hline⟩
      · exact Or.inl ⟨x,hserved ▸ List.mem_append_left _ hx,hline⟩
      · by_cases hne : v = w
        · subst hne
          rw [hw] at hv
          cases hv
          exact Or.inl ⟨_,hserved ▸ List.mem_append_right _ (List.mem_singleton_self _),hline⟩
        · refine Or.inr ⟨v,u,?_,hline⟩
          rw [hunderway,Function.update_of_ne hne]
          exact hv
    · rw [hprocess] at hlive
      exact absurd rfl hlive

theorem Begun.moves {steps : List Step} {line : Bytes} (h : c.Begun line) (hs : c.Staffed)
    (hrun : Moves CallProcess.step c steps d) (hlive : d.process.stage ≠ .aborted) :
    d.Begun line :=
  (moves_invariant (I := fun u => u.process.stage ≠ .aborted → u.Staffed ∧ u.Begun line)
    (fun _ _ _ _ hu hmove hv => ⟨(hu (step_live hmove)).1.step hmove hv,
      (hu (step_live hmove)).2.step (hu (step_live hmove)).1 hmove hv⟩)
    (fun _ => ⟨hs,h⟩) hrun hlive).2

end CallProcess
end VoltDBX
