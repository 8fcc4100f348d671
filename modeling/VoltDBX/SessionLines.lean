import VoltDBX.Session

/-!
A whole session on a socket that yields byte after byte and takes every write: what it
executes, what it answers, and how it ends.
-/

set_option autoImplicit false

namespace VoltDBX
open TextLines

namespace Connection
variable {hash : Bytes → Nat}

/-- The acts for the lines of a session, the first of them preceded by `n` acts: one reply
for each line, and before it the dispatch of its command if it has one. -/
def conversation (envs : Nat → Env) : Nat → Server hash → List Bytes →
    Option (Server hash × List Act)
  | _, server, [] => some (server,[])
  | n, server, line :: lines =>
    match parseLine line with
    | none => (conversation envs (n+1) server lines).map fun r =>
        (r.1,.wrote (bytes "-ERR empty command") :: r.2)
    | some cmd =>
      match (Server.dispatch (envs (n+1)) cmd).run server with
      | .ok reply t => (conversation envs (n+2) t lines).map fun r =>
          (r.1,.dispatched cmd :: .wrote reply :: r.2)
      | .error _ _ => none

def commandsOf (acts : List Act) : List ParsedCommand :=
  acts.filterMap fun
    | .dispatched cmd => some cmd
    | .wrote _ => none

def repliesOf (acts : List Act) : List Bytes :=
  acts.filterMap fun
    | .dispatched _ => none
    | .wrote reply => some reply

section
variable {envs : Nat → Env}

theorem conversation_blank {n : Nat} {server : Server hash} {line : Bytes} {lines : List Bytes}
    {r : Server hash × List Act} (hline : parseLine line = none)
    (h : conversation envs n server (line :: lines) = some r) :
    ∃ acts, conversation envs (n+1) server lines = some (r.1,acts) ∧
      r.2 = .wrote (bytes "-ERR empty command") :: acts := by
  simp only [conversation,hline] at h
  obtain ⟨q,hq,rfl⟩ := Option.map_eq_some_iff.mp h
  exact ⟨q.2,hq,rfl⟩

theorem conversation_command {n : Nat} {server : Server hash} {line : Bytes} {lines : List Bytes}
    {cmd : ParsedCommand} {r : Server hash × List Act} (hline : parseLine line = some cmd)
    (h : conversation envs n server (line :: lines) = some r) :
    ∃ reply t acts, (Server.dispatch (envs (n+1)) cmd).run server = .ok reply t ∧
      conversation envs (n+2) t lines = some (r.1,acts) ∧
      r.2 = .dispatched cmd :: .wrote reply :: acts := by
  simp only [conversation,hline] at h
  cases hd : (Server.dispatch (envs (n+1)) cmd).run server with
  | error x t => simp [hd] at h
  | ok reply t =>
    rw [hd] at h
    obtain ⟨q,hq,rfl⟩ := Option.map_eq_some_iff.mp h
    exact ⟨reply,t,q.2,rfl,hq,rfl⟩

theorem conversation_acts {lines : List Bytes} {n : Nat} {server t : Server hash}
    {acts : List Act} (h : conversation envs n server lines = some (t,acts)) :
    commandsOf acts = lines.filterMap parseLine ∧ (repliesOf acts).length = lines.length := by
  induction lines generalizing n server acts with
  | nil =>
    cases h
    exact ⟨rfl,rfl⟩
  | cons line lines ih =>
    cases hline : parseLine line with
    | none =>
      obtain ⟨more,hmore,rfl⟩ := conversation_blank hline h
      obtain ⟨hcommands,hreplies⟩ := ih hmore
      exact ⟨by simpa [commandsOf,hline] using hcommands,by simpa [repliesOf] using hreplies⟩
    | some cmd =>
      obtain ⟨reply,u,more,-,hmore,rfl⟩ := conversation_command hline h
      obtain ⟨hcommands,hreplies⟩ := ih hmore
      exact ⟨by simpa [commandsOf,hline] using hcommands,by simpa [repliesOf] using hreplies⟩

def Open (k : Connection hash) : Prop := k.client.alive = true ∧ k.client.outcomes = []

theorem Open.write {k : Connection hash} (h : Open k) (reply : Bytes) :
    (k.write reply).server = k.server ∧ (k.write reply).acts = k.acts ++ [.wrote reply] ∧
      (k.write reply).client.sent = k.client.sent ++ ClientSession.payload reply ∧
      Open (k.write reply) := by
  obtain ⟨halive,houtcomes⟩ := h
  simp [Connection.write,ClientSession.writeLine,Open,halive,houtcomes]

theorem run_serveLines_conversation {lines : List Bytes} {k : Connection hash} (hk : Open k)
    {t : Server hash} {acts : List Act}
    (h : conversation envs k.acts.length k.server lines = some (t,acts)) :
    ∃ j, (serveLines envs lines).run k = .ok () j ∧ j.server = t ∧ j.acts = k.acts ++ acts ∧
      j.client.sent = k.client.sent ++ (repliesOf acts).flatMap ClientSession.payload := by
  induction lines generalizing k acts with
  | nil =>
    cases h
    exact ⟨k,rfl,rfl,by simp,by simp [repliesOf]⟩
  | cons line lines ih =>
    rw [run_serveLines_cons,if_pos hk.1,EStateM.run_bind,run_exchange]
    cases hline : parseLine line with
    | none =>
      obtain ⟨more,hmore,rfl⟩ := conversation_blank hline h
      obtain ⟨hserver,hacts,hsent,hopen⟩ := hk.write (bytes "-ERR empty command")
      obtain ⟨j,hj,ht,hall,hout⟩ := ih hopen (by rw [hserver,hacts]; simpa using hmore)
      refine ⟨j,hj,ht,?_,?_⟩
      · rw [hall,hacts]
        simp
      · rw [hout,hsent]
        simp [repliesOf]
    | some cmd =>
      obtain ⟨reply,u,more,hd,hmore,rfl⟩ := conversation_command hline h
      have hsend : Open { k.send cmd with server := u } := hk
      obtain ⟨hserver,hacts,hsent,hopen⟩ := hsend.write reply
      dsimp only
      rw [hd]
      obtain ⟨j,hj,ht,hall,hout⟩ := ih hopen (by rw [hserver,hacts]; simpa [send] using hmore)
      refine ⟨j,hj,ht,?_,?_⟩
      · rw [hall,hacts]
        simp [send]
      · rw [hout,hsent]
        simp [repliesOf,send]

theorem incoming_exchange {line : Bytes} {k j : Connection hash} {o : Unit}
    (h : (exchange envs line).run k = .ok o j) : j.client.incoming = k.client.incoming := by
  rw [run_exchange] at h
  cases hline : parseLine line with
  | none =>
    rw [hline] at h
    cases h
    exact incoming_write k _
  | some cmd =>
    rw [hline] at h
    dsimp only at h
    cases hd : (Server.dispatch (envs (k.acts.length+1)) cmd).run k.server with
    | error x t =>
      rw [hd] at h
      cases h
    | ok reply t =>
      rw [hd] at h
      cases h
      exact incoming_write { k.send cmd with server := t } reply

theorem handleSession_closed (fuel : Nat) {k j : Connection hash} {o : Unit}
    (hfuel : k.client.incoming.length < fuel)
    (h : (handleSession envs fuel).run k = .ok o j) : j.client.alive = false := by
  induction fuel generalizing k with
  | zero => omega
  | succ fuel ih =>
    rw [run_handleSession_succ] at h
    cases halive : k.client.alive with
    | false =>
      rw [halive] at h
      cases h
      exact halive
    | true =>
      rw [halive,if_pos rfl,ClientSession.readLine,halive,if_pos rfl] at h
      dsimp only at h
      rcases readLoop_spec k.client.incoming [] (by simp) with
        ⟨l,ls,rest,-,-,hloop,-,hlt⟩ | ⟨-,line,rest,hloop⟩
      · rw [hloop,if_pos rfl] at h
        dsimp only at h
        by_cases hempty : chomp l = []
        · rw [if_pos hempty] at h
          exact ih (by dsimp only; omega) h
        · rw [if_neg hempty,EStateM.run_bind] at h
          cases hx : (exchange envs (chomp l)).run
              { k with client := { k.client with incoming := rest, alive := true } } with
          | error x i =>
            rw [hx] at h
            cases h
          | ok u i =>
            rw [hx] at h
            refine ih ?_ h
            rw [incoming_exchange hx]
            dsimp only
            omega
      · rw [hloop] at h
        cases h
        rfl

end

/-- The session is the conversation over the complete lines of the stream: those before the
first that is too long, without their `\r`, the empty ones left out. It ends closed, with
nothing else dispatched or written. -/
theorem session_executes_lines (envs : Nat → Env) (server : Server hash) (stream : Bytes)
    {t : Server hash} {acts : List Act}
    (h : conversation envs 0 server (taken (completeFrom lf [] stream)) = some (t,acts))
    {fuel : Nat} (hfuel : stream.length < fuel) :
    (∃ tail, stream = unlines lf (completeFrom lf [] stream) ++ tail ∧ lf ∉ tail ∧
      ∀ l ∈ completeFrom lf [] stream, lf ∉ l) ∧
    ∃ j, (handleSession envs fuel).run ((opened server).arriving (stream.map .byte)) = .ok () j ∧
      j.server = t ∧ j.acts = acts ∧
      commandsOf acts = (taken (completeFrom lf [] stream)).filterMap parseLine ∧
      (repliesOf acts).length = (taken (completeFrom lf [] stream)).length ∧
      j.client.sent = (repliesOf acts).flatMap ClientSession.payload ∧
      j.client.alive = false := by
  have hdelivered : delivered (stream.map .byte) = stream := by
    clear h hfuel
    induction stream with
    | nil => rfl
    | cons c stream ih => simp [delivered,ih]
  have hlevel : Level ((opened server).arriving (stream.map .byte)) (opened server) :=
    ⟨⟨rfl,rfl,rfl,rfl⟩,rfl⟩
  have hlen : ((opened server).arriving (stream.map .byte)).client.incoming.length < fuel := by
    simpa [arriving] using hfuel
  have hseen := @session_follows_lines _ envs fuel _ _ hlevel hlen
  have hincoming : ((opened server).arriving (stream.map .byte)).client.incoming =
      stream.map .byte := rfl
  obtain ⟨i,hi,hserver,hacts,hsent⟩ :=
    @run_serveLines_conversation _ envs _ (opened server) ⟨rfl,rfl⟩ _ _ h
  rw [hincoming,hdelivered,executed,hi] at hseen
  refine ⟨?_,?_⟩
  · obtain ⟨tail,htext,htail,hlines⟩ := @unlines_completeFrom _ _ lf stream [] (by simp)
    exact ⟨tail,by simpa using htext,htail,hlines⟩
  · cases hrun : (handleSession envs fuel).run ((opened server).arriving (stream.map .byte)) with
    | error x j =>
      rw [hrun] at hseen
      exact absurd hseen not_false
    | ok o j =>
      rw [hrun] at hseen
      obtain ⟨-,hj⟩ := hseen
      obtain ⟨hcommands,hreplies⟩ := conversation_acts h
      refine ⟨j,rfl,hj.server.trans hserver,?_,hcommands,hreplies,?_,
        handleSession_closed fuel hlen hrun⟩
      · rw [hj.acts,hacts]
        exact List.nil_append _
      · rw [hj.sent,hsent]
        exact List.nil_append _

theorem session_executes_lines_example :
    let stream := bytes "PING\r\n\n  \nPI"
    let envs : Nat → Env := fun _ => ⟨fun _ => 0,.success⟩
    ∃ j : Connection (fun _ => 0), (handleSession envs 20).run
        ((opened (Server.create (fun _ => 0) {})).arriving (stream.map .byte)) = .ok () j ∧
      j.acts = [.dispatched ⟨.ping,bytes "PING",[]⟩,.wrote (bytes "+PONG"),
        .wrote (bytes "-ERR empty command")] ∧
      j.client.alive = false := by
  intro stream envs
  generalize Server.create (fun _ => 0) {} = server
  have hlines : taken (completeFrom lf [] stream) = [bytes "PING",bytes "  "] := by decide
  have hping : parseLine (bytes "PING") = some ⟨.ping,bytes "PING",[]⟩ := by decide
  have hblank : parseLine (bytes "  ") = none := by decide
  have hconversation : conversation envs 0 server (taken (completeFrom lf [] stream)) =
      some (server.recordCommand,[.dispatched ⟨.ping,bytes "PING",[]⟩,.wrote (bytes "+PONG"),
        .wrote (bytes "-ERR empty command")]) := by
    rw [hlines]
    simp only [conversation,hping,hblank]
    rfl
  obtain ⟨j,hj,-,hacts,-,-,-,halive⟩ :=
    (@session_executes_lines _ envs server stream _ _ hconversation 20 (by decide)).2
  exact ⟨j,hj,hacts,halive⟩

end Connection
end VoltDBX
