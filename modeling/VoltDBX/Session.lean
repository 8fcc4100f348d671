import VoltDBX.Dispatcher

/-!
One connection: net/client_session.cpp and the loop of server/command_handler.cpp.
The socket is non-blocking, so a read yields a byte, nothing yet, or the end of the
stream; a write takes a beginning of its buffer or fails.
-/

set_option autoImplicit false

namespace VoltDBX
open TextLines

/-- What one `read` call yields; when nothing is left it yields the end of the stream. -/
inductive Arrival where
  | byte (c : UInt8)
  | wouldBlock
  deriving DecidableEq, Repr

/-- `incoming` is what the coming reads yield and `outcomes` what the coming writes
return, `none` for a failure; a write beyond them takes the whole buffer. -/
structure ClientSession where
  incoming : List Arrival
  outcomes : List (Option Nat)
  alive : Bool
  sent : Bytes
  deriving DecidableEq, Repr

def chomp (line : Bytes) : Bytes := if line.getLast? = some cr then line.dropLast else line

namespace ClientSession

/-- The loop of `read_line`: what is returned, what is left, and whether the session
is still alive. -/
def readLoop : List Arrival → Bytes → Bytes × List Arrival × Bool
  | [], buffer => (buffer,[],false)
  | .wouldBlock :: rest, buffer => (buffer,rest,false)
  | .byte c :: rest, buffer =>
    if c = lf then (chomp buffer,rest,true)
    else if 65536 < (buffer ++ [c]).length then (buffer ++ [c],rest,false)
    else readLoop rest (buffer ++ [c])

def readLine (s : ClientSession) : Bytes × ClientSession :=
  if s.alive then
    let r := readLoop s.incoming []
    (r.1,{ s with incoming := r.2.1, alive := r.2.2 })
  else ([],s)

def payload (line : Bytes) : Bytes :=
  if line = [] ∨ line.getLast? ≠ some lf then line ++ [lf] else line

def writeLine (s : ClientSession) (line : Bytes) : ClientSession × Bool :=
  if s.alive then
    match s.outcomes with
    | [] => ({ s with sent := s.sent ++ payload line },true)
    | some n :: rest =>
      ({ s with outcomes := rest, sent := s.sent ++ (payload line).take n },true)
    | none :: rest => ({ s with outcomes := rest, alive := false },false)
  else (s,false)

end ClientSession

inductive Act where
  | dispatched (cmd : ParsedCommand)
  | wrote (reply : Bytes)
  deriving DecidableEq, Repr

structure Connection (hash : Bytes → Nat) where
  server : Server hash
  client : ClientSession
  acts : List Act

namespace Connection
variable {hash : Bytes → Nat}

def write (reply : Bytes) (k : Connection hash) : Connection hash :=
  { k with client := (k.client.writeLine reply).1, acts := k.acts ++ [.wrote reply] }

def send (cmd : ParsedCommand) (k : Connection hash) : Connection hash :=
  { k with acts := k.acts ++ [.dispatched cmd] }

/-- The body of the loop for a line that is not empty. What a command meets outside
the process depends on how many acts came before it. -/
def exchange (envs : Nat → Env) (line : Bytes) : Action (Connection hash) Unit :=
  match parseLine line with
  | none => modify (write (bytes "-ERR empty command"))
  | some cmd => do
    modify (send cmd)
    let k ← get
    let reply ← focus Connection.server (fun k s => { k with server := s })
      (Server.dispatch (envs k.acts.length) cmd)
    modify (write reply)

def handleSession (envs : Nat → Env) : Nat → Action (Connection hash) Unit
  | 0 => pure ()
  | fuel+1 => do
    let k ← get
    if k.client.alive then
      let r := k.client.readLine
      set { k with client := r.2 }
      if r.2.alive then
        if r.1 = [] then handleSession envs fuel
        else do
          exchange envs r.1
          handleSession envs fuel
      else pure ()
    else pure ()

def serveLines (envs : Nat → Env) : List Bytes → Action (Connection hash) Unit
  | [] => pure ()
  | line :: lines => do
    let k ← get
    if k.client.alive then do
      exchange envs line
      serveLines envs lines
    else pure ()

end Connection

def streamOf (arrivals : List Arrival) : Bytes :=
  arrivals.filterMap fun
    | .byte c => some c
    | .wouldBlock => none

/-- The bytes before the first read that would block. -/
def delivered : List Arrival → Bytes
  | .byte c :: rest => c :: delivered rest
  | _ => []

/-- The lines the session takes from a text: the complete ones up to the first that is
too long, without their `\r`, and not the empty ones. -/
def taken (lines : List Bytes) : List Bytes :=
  ((lines.takeWhile (fun l => decide (l.length ≤ 65536))).map chomp).filter (fun l => decide (l ≠ []))

def executed (text : Bytes) : List Bytes := taken (completeFrom lf [] text)

theorem delivered_begins (arrivals : List Arrival) : delivered arrivals <+: streamOf arrivals := by
  induction arrivals with
  | nil => exact List.nil_prefix
  | cons a rest ih =>
    cases a with
    | byte c => exact (List.prefix_cons_inj c).mpr ih
    | wouldBlock => exact List.nil_prefix

theorem taken_begins {ls ms : List Bytes} (h : ls <+: ms) : taken ls <+: taken ms := by
  obtain ⟨rest,rfl⟩ := h
  have htake : ls.takeWhile (fun l => decide (l.length ≤ 65536)) <+:
      (ls ++ rest).takeWhile (fun l => decide (l.length ≤ 65536)) := by
    induction ls with
    | nil => exact List.nil_prefix
    | cons l ls ih =>
      by_cases hl : l.length ≤ 65536
      · simpa only [List.cons_append,List.takeWhile_cons,hl,decide_true,if_true] using
          (List.prefix_cons_inj l).mpr ih
      · simp [hl]
  exact (htake.map chomp).filter _

/-- One call of `read_line` takes the first complete line that is not too long, or
closes the session. -/
theorem readLoop_spec (arrivals : List Arrival) (buffer : Bytes) (hbuf : buffer.length ≤ 65536) :
    (∃ l ls rest, completeFrom lf buffer (delivered arrivals) = l :: ls ∧ l.length ≤ 65536 ∧
      ClientSession.readLoop arrivals buffer = (chomp l,rest,true) ∧
      completeFrom lf [] (delivered rest) = ls ∧ rest.length < arrivals.length) ∨
    (taken (completeFrom lf buffer (delivered arrivals)) = [] ∧
      ∃ line rest, ClientSession.readLoop arrivals buffer = (line,rest,false)) := by
  induction arrivals generalizing buffer with
  | nil => exact Or.inr ⟨rfl,_,_,rfl⟩
  | cons a rest ih =>
    cases a with
    | wouldBlock => exact Or.inr ⟨rfl,_,_,rfl⟩
    | byte c =>
      by_cases hc : c = lf
      · refine Or.inl ⟨buffer,completeFrom lf [] (delivered rest),rest,?_,hbuf,?_,rfl,by simp⟩
        · simp only [delivered,completeFrom,hc,if_true]
        · simp only [ClientSession.readLoop,hc,if_true]
      · have hnext : completeFrom lf buffer (delivered (.byte c :: rest)) =
            completeFrom lf (buffer ++ [c]) (delivered rest) := by
          simp only [delivered,completeFrom,hc,if_false]
        rw [hnext]
        by_cases hlong : 65536 < (buffer ++ [c]).length
        · refine Or.inr ⟨?_,buffer ++ [c],rest,?_⟩
          · -- whatever completes this line, it is too long
            cases hl : completeFrom lf (buffer ++ [c]) (delivered rest) with
            | nil => rfl
            | cons l ls =>
              have hle := length_le_completeFrom hl
              have hover : ¬ l.length ≤ 65536 := by omega
              simp [taken,hover]
          · simp only [ClientSession.readLoop,hc,hlong,if_true,if_false]
        · have hread : ClientSession.readLoop (.byte c :: rest) buffer =
              ClientSession.readLoop rest (buffer ++ [c]) := by
            simp only [ClientSession.readLoop,hc,hlong,if_false]
          rw [hread]
          rcases ih (buffer ++ [c]) (by omega) with ⟨l,ls,left,hl,hle,hr,hrest,hlt⟩ | hclosed
          · exact Or.inl ⟨l,ls,left,hl,hle,hr,hrest,by simp only [List.length_cons]; omega⟩
          · exact Or.inr hclosed

namespace Connection
variable {hash : Bytes → Nat} {envs : Nat → Env}

theorem run_exchange (line : Bytes) (k : Connection hash) :
    (exchange envs line).run k =
      match parseLine line with
      | none => .ok () (k.write (bytes "-ERR empty command"))
      | some cmd =>
        match (Server.dispatch (envs (k.acts.length+1)) cmd).run k.server with
        | .ok reply s => .ok () (write reply { k.send cmd with server := s })
        | .error x s => .error x { k.send cmd with server := s } := by
  unfold exchange
  cases parseLine line with
  | none => rfl
  | some cmd =>
    have hacts : (k.send cmd).acts.length = k.acts.length+1 := by simp [send]
    have hserver : (k.send cmd).server = k.server := rfl
    simp only [EStateM.run_bind,EStateM.run_modify,EStateM.run_get,run_focus,hacts,hserver]
    cases (Server.dispatch (envs (k.acts.length+1)) cmd).run k.server with
    | ok reply s => rfl
    | error x s => rfl

/-- The two connections have done the same so far, and their writes will go the same way. -/
structure Seen (k k' : Connection hash) : Prop where
  server : k.server = k'.server
  acts : k.acts = k'.acts
  outcomes : k.client.outcomes = k'.client.outcomes
  sent : k.client.sent = k'.client.sent

def Level (k k' : Connection hash) : Prop := Seen k k' ∧ k.client.alive = k'.client.alive

theorem Level.write {k k' : Connection hash} (h : Level k k') (reply : Bytes) :
    Level (k.write reply) (k'.write reply) := by
  obtain ⟨server,⟨incoming,outcomes,alive,sent⟩,acts⟩ := k
  obtain ⟨server',⟨incoming',outcomes',alive',sent'⟩,acts'⟩ := k'
  obtain ⟨⟨hserver,hacts,houtcomes,hsent⟩,halive⟩ := h
  dsimp only at hserver hacts houtcomes hsent halive
  subst hserver hacts houtcomes hsent halive
  cases alive with
  | false => exact ⟨⟨rfl,rfl,rfl,rfl⟩,rfl⟩
  | true =>
    rcases outcomes with _ | ⟨_ | n,rest⟩
    · exact ⟨⟨rfl,rfl,rfl,rfl⟩,rfl⟩
    · exact ⟨⟨rfl,rfl,rfl,rfl⟩,rfl⟩
    · exact ⟨⟨rfl,rfl,rfl,rfl⟩,rfl⟩

theorem incoming_write (k : Connection hash) (reply : Bytes) :
    (k.write reply).client.incoming = k.client.incoming := by
  unfold Connection.write ClientSession.writeLine
  split
  · split <;> rfl
  · rfl

theorem Level.exchange {k k' : Connection hash} (h : Level k k') (line : Bytes) :
    Runs.Coupled Seen (fun j j' => Level j j' ∧ j.client.incoming = k.client.incoming)
      (fun _ _ => True)
      ((Connection.exchange envs line).run k) ((Connection.exchange envs line).run k') := by
  rw [run_exchange,run_exchange]
  cases parseLine line with
  | none => exact ⟨trivial,h.write _,incoming_write k _⟩
  | some cmd =>
    dsimp only
    rw [h.1.server,h.1.acts]
    have hsent : ∀ s : Server hash,
        Level { k.send cmd with server := s } { k'.send cmd with server := s } := fun s =>
      ⟨⟨rfl,by simp [Connection.send,h.1.acts],h.1.outcomes,h.1.sent⟩,h.2⟩
    cases (Server.dispatch (envs (k'.acts.length+1)) cmd).run k'.server with
    | error x s => exact (hsent s).1
    | ok reply s => exact ⟨trivial,(hsent s).write reply,incoming_write _ reply⟩

theorem taken_cons {l : Bytes} {ls : List Bytes} (hl : l.length ≤ 65536) :
    taken (l :: ls) = if chomp l = [] then taken ls else chomp l :: taken ls := by
  by_cases hc : chomp l = []
  · simp [taken,hl,hc]
  · simp [taken,hl,hc]

theorem run_serveLines_cons (line : Bytes) (lines : List Bytes) (k : Connection hash) :
    (serveLines envs (line :: lines)).run k =
      if k.client.alive then (exchange envs line >>= fun _ => serveLines envs lines).run k
      else .ok () k := by
  simp only [serveLines]
  rw [EStateM.run_bind,EStateM.run_get]
  dsimp only
  cases k.client.alive with
  | true => rfl
  | false => rfl

theorem run_handleSession_succ (fuel : Nat) (k : Connection hash) :
    (handleSession envs (fuel+1)).run k =
      if k.client.alive then
        if k.client.readLine.2.alive then
          if k.client.readLine.1 = [] then
            (handleSession envs fuel).run { k with client := k.client.readLine.2 }
          else
            (exchange envs k.client.readLine.1 >>= fun _ => handleSession envs fuel).run
              { k with client := k.client.readLine.2 }
        else .ok () { k with client := k.client.readLine.2 }
      else .ok () k := by
  simp only [handleSession]
  rw [EStateM.run_bind,EStateM.run_get]
  dsimp only
  cases k.client.alive with
  | false => rfl
  | true =>
    rw [if_pos rfl,if_pos rfl,EStateM.run_bind,EStateM.run_set]
    dsimp only
    cases k.client.readLine.2.alive with
    | false => rfl
    | true =>
      by_cases hline : k.client.readLine.1 = []
      · rw [if_pos rfl,if_pos hline,if_pos rfl,if_pos hline]
      · rw [if_pos rfl,if_neg hline,if_pos rfl,if_neg hline]

/-- The session does what it does for the complete lines that arrive before the first
read that would block. -/
theorem session_follows_lines (fuel : Nat) (k k' : Connection hash) (h : Level k k')
    (hfuel : k.client.incoming.length < fuel) :
    Runs.Coupled Seen Seen (fun _ _ => True) ((handleSession envs fuel).run k)
      ((serveLines envs (executed (delivered k.client.incoming))).run k') := by
  induction fuel generalizing k k' with
  | zero => omega
  | succ fuel ih =>
    rw [run_handleSession_succ]
    cases halive : k.client.alive with
    | false =>
      have halive' : k'.client.alive = false := h.2 ▸ halive
      cases executed (delivered k.client.incoming) with
      | nil => exact ⟨trivial,h.1⟩
      | cons line lines =>
        rw [run_serveLines_cons,halive']
        exact ⟨trivial,h.1⟩
    | true =>
      have halive' : k'.client.alive = true := h.2 ▸ halive
      have hread : k.client.readLine = ((ClientSession.readLoop k.client.incoming []).1,
          { k.client with incoming := (ClientSession.readLoop k.client.incoming []).2.1,
                          alive := (ClientSession.readLoop k.client.incoming []).2.2 }) := by
        rw [ClientSession.readLine,halive]
        rfl
      rw [hread]
      rcases readLoop_spec k.client.incoming [] (by simp) with
        ⟨l,ls,rest,hl,hle,hloop,hrest,hlt⟩ | ⟨hnone,line,rest,hloop⟩
      · rw [hloop]
        have hnext : executed (delivered k.client.incoming) =
            if chomp l = [] then executed (delivered rest)
            else chomp l :: executed (delivered rest) := by
          rw [executed,hl,taken_cons hle,executed,hrest]
        have hlevel : Level { k with client := { k.client with incoming := rest, alive := true } } k' :=
          ⟨⟨h.1.server,h.1.acts,h.1.outcomes,h.1.sent⟩,halive'.symm⟩
        rw [hnext]
        dsimp only
        by_cases hempty : chomp l = []
        · rw [if_pos rfl,if_pos rfl,if_pos hempty,if_pos hempty]
          exact ih _ k' hlevel (by dsimp only; omega)
        · rw [if_pos rfl,if_pos rfl,if_neg hempty,if_neg hempty,run_serveLines_cons,halive',
            if_pos rfl]
          refine (@Level.exchange _ envs _ _ hlevel (chomp l)).bind fun _ _ j j' _ _ _ hj => ?_
          have hsame : rest = j.client.incoming := hj.2.symm
          rw [hsame]
          exact ih j j' hj.1 (by rw [← hsame]; omega)
      · rw [hloop,executed,hnone]
        exact ⟨trivial,h.1.server,h.1.acts,h.1.outcomes,h.1.sent⟩

theorem run_serveLines_dead {k : Connection hash} (h : k.client.alive = false) (lines : List Bytes) :
    (serveLines envs lines).run k = .ok () k := by
  cases lines with
  | nil => rfl
  | cons line lines =>
    rw [run_serveLines_cons,h]
    rfl

theorem run_serveLines_append (lines more : List Bytes) (k : Connection hash) :
    (serveLines envs (lines ++ more)).run k =
      (serveLines envs lines >>= fun _ => serveLines envs more).run k := by
  induction lines generalizing k with
  | nil => rfl
  | cons line lines ih =>
    rw [List.cons_append,run_serveLines_cons,EStateM.run_bind (serveLines envs (line :: lines)),
      run_serveLines_cons]
    cases halive : k.client.alive with
    | false =>
      rw [if_neg Bool.false_ne_true,if_neg Bool.false_ne_true]
      exact (run_serveLines_dead halive more).symm
    | true =>
      rw [if_pos rfl,if_pos rfl,EStateM.run_bind,EStateM.run_bind]
      cases (exchange envs line).run k with
      | error x j => rfl
      | ok o j =>
        dsimp only
        rw [ih j,EStateM.run_bind]

theorem acts_exchange (line : Bytes) (k : Connection hash) :
    k.acts.length < (stateOf ((exchange envs line).run k)).acts.length := by
  rw [run_exchange]
  cases parseLine line with
  | none => simp [stateOf,Connection.write]
  | some cmd =>
    dsimp only
    cases (Server.dispatch (envs (k.acts.length+1)) cmd).run k.server with
    | error x s => simp [stateOf,send]
    | ok reply s =>
      simp only [stateOf,Connection.write,send,List.length_append,List.length_cons,List.length_nil]
      omega

theorem acts_serveLines (lines : List Bytes) (k : Connection hash) :
    k.acts.length ≤ (stateOf ((serveLines envs lines).run k)).acts.length := by
  induction lines generalizing k with
  | nil => exact Nat.le_refl _
  | cons line lines ih =>
    rw [run_serveLines_cons]
    cases k.client.alive with
    | false => exact Nat.le_refl _
    | true =>
      rw [if_pos rfl,EStateM.run_bind]
      have hline := @acts_exchange _ envs line k
      cases hx : (exchange envs line).run k with
      | error x j =>
        rw [hx] at hline
        exact Nat.le_of_lt hline
      | ok o j =>
        rw [hx] at hline
        exact Nat.le_trans (Nat.le_of_lt hline) (ih j)

theorem acts_serveLines_cons {k : Connection hash} (h : k.client.alive = true) (line : Bytes)
    (lines : List Bytes) :
    k.acts.length < (stateOf ((serveLines envs (line :: lines)).run k)).acts.length := by
  rw [run_serveLines_cons,h,if_pos rfl,EStateM.run_bind]
  have hline := @acts_exchange _ envs line k
  cases hx : (exchange envs line).run k with
  | error x j =>
    rw [hx] at hline
    exact hline
  | ok o j =>
    rw [hx] at hline
    exact Nat.lt_of_lt_of_le hline (acts_serveLines lines j)

def Closed (envs : Nat → Env) (k : Connection hash) (lines : List Bytes) : Prop :=
  ∀ j, (serveLines envs lines).run k = .ok () j → j.client.alive = false

theorem acts_serveLines_append (lines : List Bytes) (line : Bytes) (more : List Bytes)
    (k : Connection hash) :
    (stateOf ((serveLines envs (lines ++ line :: more)).run k)).acts =
      (stateOf ((serveLines envs lines).run k)).acts ↔ Closed envs k lines := by
  rw [run_serveLines_append,EStateM.run_bind]
  unfold Closed
  cases (serveLines envs lines).run k with
  | error x j => simp [stateOf]
  | ok o j =>
    simp only [EStateM.Result.ok.injEq,true_and,forall_eq']
    cases halive : j.client.alive with
    | false =>
      rw [run_serveLines_dead halive]
      simp [stateOf]
    | true =>
      have hlt := @acts_serveLines_cons _ envs j halive line more
      refine iff_of_false (fun heq => ?_) (by simp)
      rw [heq] at hlt
      exact Nat.lt_irrefl _ hlt

theorem Closed.append {k : Connection hash} {lines : List Bytes} (h : Closed envs k lines)
    (more : List Bytes) : Closed envs k (lines ++ more) := by
  intro j hj
  rw [run_serveLines_append,EStateM.run_bind] at hj
  cases hr : (serveLines envs lines).run k with
  | error x i =>
    rw [hr] at hj
    cases hj
  | ok o i =>
    rw [hr] at hj
    dsimp only at hj
    have halive := h i hr
    rw [run_serveLines_dead halive,EStateM.Result.ok.injEq] at hj
    exact hj.2 ▸ halive

theorem acts_eq_of_begins {lines lines' : List Bytes} (h : lines <+: lines') (k : Connection hash) :
    (stateOf ((serveLines envs lines').run k)).acts =
        (stateOf ((serveLines envs lines).run k)).acts ↔
      lines = lines' ∨ Closed envs k lines ∧ Closed envs k lines' := by
  obtain ⟨more,rfl⟩ := h
  cases more with
  | nil => simp
  | cons line more =>
    rw [acts_serveLines_append]
    constructor
    · intro hclosed
      exact Or.inr ⟨hclosed,hclosed.append _⟩
    · intro hcase
      rcases hcase with heq | hclosed
      · simp at heq
      · exact hclosed.1

def arriving (k : Connection hash) (arrivals : List Arrival) : Connection hash :=
  { k with client := { k.client with incoming := arrivals } }

/-- What the session has done when its loop ends. -/
def transcript (envs : Nat → Env) (k : Connection hash) (arrivals : List Arrival) : List Act :=
  (stateOf ((handleSession envs (arrivals.length+1)).run (k.arriving arrivals))).acts

theorem transcript_eq (k : Connection hash) (arrivals : List Arrival) :
    transcript envs k arrivals =
      (stateOf ((serveLines envs (executed (delivered arrivals))).run k)).acts := by
  have hlevel : Level (k.arriving arrivals) k := ⟨⟨rfl,rfl,rfl,rfl⟩,rfl⟩
  have hseen := @session_follows_lines _ envs (arrivals.length+1) _ k hlevel (Nat.lt_succ_self _)
  exact (coupled_stateOf hseen).acts

theorem executed_begins (arrivals : List Arrival) :
    executed (delivered arrivals) <+: executed (streamOf arrivals) := by
  obtain ⟨rest,hrest⟩ := delivered_begins arrivals
  rw [← hrest]
  exact taken_begins (completeFrom_append lf _ rest [])

/-- Two schedules of one stream show the same exactly when they deliver the same lines
before the first read that would block, or the session is over earlier in both. -/
theorem schedules_agree_iff (envs : Nat → Env) (k : Connection hash) (a b : List Arrival)
    (hstream : streamOf a = streamOf b) :
    transcript envs k a = transcript envs k b ↔
      executed (delivered a) = executed (delivered b) ∨
        Closed envs k (executed (delivered a)) ∧ Closed envs k (executed (delivered b)) := by
  rw [transcript_eq,transcript_eq]
  have hb : executed (delivered b) <+: executed (streamOf a) := hstream ▸ executed_begins b
  rcases List.prefix_or_prefix_of_prefix (executed_begins a) hb with hab | hba
  · rw [eq_comm,acts_eq_of_begins hab]
  · rw [acts_eq_of_begins hba,eq_comm,and_comm]

def opened (server : Server hash) : Connection hash := ⟨server,⟨[],[],true,[]⟩,[]⟩

theorem transcript_ping {arrivals : List Arrival}
    (h : executed (delivered arrivals) = [bytes "PING"]) (server : Server hash) :
    transcript envs (opened server) arrivals =
      [.dispatched ⟨.ping,bytes "PING",[]⟩,.wrote (bytes "+PONG")] := by
  have hparse : parseLine (bytes "PING") = some ⟨.ping,bytes "PING",[]⟩ := by decide
  have hrun : (exchange envs (bytes "PING")).run (opened server) =
      .ok () (write (bytes "+PONG")
        { (opened server).send ⟨.ping,bytes "PING",[]⟩ with server := server.recordCommand }) := by
    rw [run_exchange,hparse]
    rfl
  rw [transcript_eq,h,run_serveLines_cons,show (opened server).client.alive = true from rfl,
    if_pos rfl,EStateM.run_bind,hrun]
  rfl

theorem schedules_agree_iff_example :
    let line := (bytes "PING\n").map Arrival.byte
    let server := Server.create (fun _ => 0) {}
    let envs : Nat → Env := fun _ => ⟨fun _ => 0,.success⟩
    streamOf line = streamOf (line ++ [.wouldBlock]) ∧
      transcript envs (opened server) line = transcript envs (opened server) (line ++ [.wouldBlock]) ∧
      transcript envs (opened server) line ≠ [] := by
  intro line server envs
  have hstream : streamOf line = streamOf (line ++ [.wouldBlock]) := by decide
  refine ⟨hstream,(schedules_agree_iff envs (opened server) _ _ hstream).mpr (Or.inl (by decide)),?_⟩
  rw [transcript_ping (by decide) server]
  exact List.cons_ne_nil _ _

/-- The same line with a pause inside it is lost. -/
theorem pause_loses_line :
    let line := (bytes "PING\n").map Arrival.byte
    let paused := Arrival.byte 80 :: .wouldBlock :: (bytes "ING\n").map Arrival.byte
    let server := Server.create (fun _ => 0) {}
    let envs : Nat → Env := fun _ => ⟨fun _ => 0,.success⟩
    streamOf line = streamOf paused ∧
      transcript envs (opened server) line =
        [.dispatched ⟨.ping,bytes "PING",[]⟩,.wrote (bytes "+PONG")] ∧
      transcript envs (opened server) paused = [] := by
  intro line paused server envs
  refine ⟨by decide,transcript_ping (by decide) server,?_⟩
  have hnone : executed (delivered paused) = [] := by decide
  rw [transcript_eq,hnone]
  rfl

end Connection
end VoltDBX
