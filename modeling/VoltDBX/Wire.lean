import VoltDBX.Conversions
import VoltDBX.Reference
import VoltDBX.SessionLines

/-!
From the bytes a client sends to the bytes it gets back: a session of key-value commands on
its socket, against the interpreter of the commands.
-/

set_option autoImplicit false

namespace VoltDBX
open TextLines

namespace Reference

/-- The commands whose replies depend on keys and values alone, or on nothing. -/
def covered : CommandType → Bool
  | .set | .get | .delete | .exist | .mget | .mset | .incr | .decr | .incrby | .dbsize
  | .flushdb | .ping | .unknown => true
  | _ => false

def answer (m : Map Bytes) (line : Bytes) : Bytes :=
  match parseLine line with
  | none => bytes "-ERR empty command"
  | some cmd =>
    match cmd.type with
    | .ping => bytes "+PONG"
    | .unknown => bytes "-ERR unknown command"
    | _ => (interpret m cmd).2.getD []

def answers : Map Bytes → List Bytes → List Bytes
  | _, [] => []
  | m, line :: lines => answer m line :: answers (interpretLine m line).1 lines

def mapAfter (m : Map Bytes) (lines : List Bytes) : Map Bytes :=
  lines.foldl (fun m line => (interpretLine m line).1) m

/-- Each line is blank or has a covered command that the interpreter admits where it stands. -/
def Served : Map Bytes → List Bytes → Prop
  | _, [] => True
  | m, line :: lines =>
    (∀ cmd, parseLine line = some cmd → covered cmd.type = true ∧ Admissible m cmd) ∧
      Served (interpretLine m line).1 lines

theorem served_append {m : Map Bytes} {as bs : List Bytes} :
    Served m (as ++ bs) ↔ Served m as ∧ Served (mapAfter m as) bs := by
  induction as generalizing m with
  | nil => simp [Served,mapAfter]
  | cons line as ih => simp [Served,mapAfter,ih,and_assoc]

end Reference

open Reference

namespace Server
variable {hash : Bytes → Nat} {s : Server hash} {m : Map Bytes} {cmd : ParsedCommand}

theorem convertible_of_admissible (h : s.storage.Agrees m) (hcov : covered cmd.type = true)
    (hadm : Admissible m cmd) (env : Env) : Convertible env s cmd := by
  have hcounter : ∀ {key : Bytes} {delta : Int}, InInt64 delta → CounterFits m key delta →
      CounterText (s.storage.get (env.clock 0) key) := by
    intro key delta hd hfit
    exact returns_counted.mp ⟨_,_,counted_eq h (env.clock 0) hd hfit⟩
  unfold Convertible
  cases ht : cmd.type
  case expire => simp [covered,ht] at hcov
  case scan => simp [covered,ht] at hcov
  case incr =>
    simp only [Admissible,ht] at hadm
    generalize cmd.args = args at hadm ⊢
    obtain _ | ⟨key,_ | ⟨arg,rest⟩⟩ := args
    · trivial
    · exact hcounter (by decide) hadm
    · trivial
  case decr =>
    simp only [Admissible,ht] at hadm
    generalize cmd.args = args at hadm ⊢
    obtain _ | ⟨key,_ | ⟨arg,rest⟩⟩ := args
    · trivial
    · exact hcounter (by decide) hadm
    · trivial
  case incrby =>
    simp only [Admissible,ht] at hadm
    generalize cmd.args = args at hadm ⊢
    obtain _ | ⟨key,_ | ⟨amount,_ | ⟨arg,rest⟩⟩⟩ := args
    · trivial
    · trivial
    · obtain ⟨delta,hdec,hd,hfit⟩ := hadm
      exact ⟨(stoll_ok_iff amount).mp ⟨delta,stoll_decimal hdec hd⟩,hcounter hd hfit⟩
    · trivial
  all_goals trivial

theorem interpret_replies (m : Map Bytes) (hcov : covered cmd.type = true)
    (hping : cmd.type ≠ .ping) (hunknown : cmd.type ≠ .unknown) :
    ∃ reply, (interpret m cmd).2 = some reply := by
  unfold interpret add
  cases ht : cmd.type <;> rw [ht] at hcov hping hunknown <;> dsimp only
  case ping => exact absurd rfl hping
  case unknown => exact absurd rfl hunknown
  case dbsize => exact ⟨_,rfl⟩
  case flushdb => exact ⟨_,rfl⟩
  all_goals first | (cases hcov; done) | (split <;> exact ⟨_,rfl⟩)

/-- A covered command returns the answer and leaves the interpreter's map. -/
theorem dispatch_answers {env : Env} {line : Bytes} (h : s.storage.Agrees m)
    (hline : parseLine line = some cmd) (hcov : covered cmd.type = true)
    (hadm : Admissible m cmd) :
    ∃ t, (dispatch env cmd).run s = .ok (answer m line) t ∧
      t.storage.Agrees (interpretLine m line).1 := by
  obtain ⟨reply,t,hrun⟩ :=
    (dispatch_returns_iff env cmd s).mpr (convertible_of_admissible h hcov hadm env)
  obtain ⟨hagree,hreply⟩ := (dispatch_follows h hadm).of_ok hrun
  have hanswer : reply = answer m line := by
    simp only [answer,hline]
    by_cases hping : cmd.type = .ping
    · rw [run_dispatch,hping] at hrun
      cases hrun
      rw [hping]
    · by_cases hunknown : cmd.type = .unknown
      · rw [run_dispatch,hunknown] at hrun
        cases hrun
        rw [hunknown]
      · obtain ⟨r,hr⟩ := interpret_replies m hcov hping hunknown
        rw [hreply r hr,hr]
        cases ht : cmd.type <;> first | rfl | contradiction
  refine ⟨t,by rw [hrun,hanswer],?_⟩
  simp only [interpretLine,hline]
  exact hagree

end Server

namespace Connection
variable {hash : Bytes → Nat} {envs : Nat → Env}

theorem delivered_bytes (stream : Bytes) : delivered (stream.map .byte) = stream := by
  induction stream with
  | nil => rfl
  | cons c stream ih => simp [delivered,ih]

theorem conversation_answers {lines : List Bytes} {n : Nat} {server : Server hash}
    {m : Map Bytes} (h : server.storage.Agrees m) (hserved : Served m lines) :
    ∃ t acts, conversation envs n server lines = some (t,acts) ∧
      repliesOf acts = answers m lines ∧ t.storage.Agrees (mapAfter m lines) := by
  induction lines generalizing n server m with
  | nil => exact ⟨server,[],rfl,rfl,h⟩
  | cons line lines ih =>
    cases hline : parseLine line with
    | none =>
      have hmap : (interpretLine m line).1 = m := by simp [interpretLine,hline]
      have hanswer : answer m line = bytes "-ERR empty command" := by simp [answer,hline]
      have hrest := hserved.2
      rw [hmap] at hrest
      obtain ⟨t,acts,hacts,hreplies,ht⟩ := @ih (n+1) server m h hrest
      refine ⟨t,.wrote (bytes "-ERR empty command") :: acts,?_,?_,?_⟩
      · simp only [conversation,hline,hacts]
        rfl
      · simp only [answers,hanswer,hmap,← hreplies]
        rfl
      · simpa only [mapAfter,List.foldl_cons,hmap] using ht
    | some cmd =>
      obtain ⟨hcov,hadm⟩ := hserved.1 cmd hline
      obtain ⟨u,hu,hagree⟩ := @Server.dispatch_answers hash server m cmd (envs (n+1)) line h hline
        hcov hadm
      obtain ⟨t,acts,hacts,hreplies,ht⟩ := @ih (n+2) u _ hagree hserved.2
      refine ⟨t,.dispatched cmd :: .wrote (answer m line) :: acts,?_,?_,ht⟩
      · simp only [conversation,hline,hu,hacts]
        rfl
      · simp only [answers,← hreplies]
        rfl

def sessionTask (envs : Nat → Env) (fuel : Nat) : Action (Connection hash) Unit := do
  modify (write (bytes "+OK voltdbx ready"))
  handleSession envs fuel

/-- On a socket that yields the stream and takes every write, the client gets the greeting
and the answers to its complete lines. -/
theorem sessionTask_answers {server : Server hash} {m : Map Bytes} (h : server.storage.Agrees m)
    {stream : Bytes} (hserved : Served m (executed stream)) {fuel : Nat}
    (hfuel : stream.length < fuel) :
    ∃ j, (sessionTask envs fuel).run ((opened server).arriving (stream.map .byte)) = .ok () j ∧
      j.client.sent = ClientSession.payload (bytes "+OK voltdbx ready") ++
        (answers m (executed stream)).flatMap ClientSession.payload ∧
      j.server.storage.Agrees (mapAfter m (executed stream)) ∧ j.client.alive = false := by
  have hopen : Open (opened server) := ⟨rfl,rfl⟩
  obtain ⟨hserver,hacts,hsent,hgreeted⟩ := hopen.write (bytes "+OK voltdbx ready")
  have hlevel : Level ((opened server).arriving (stream.map .byte)) (opened server) :=
    ⟨⟨rfl,rfl,rfl,rfl⟩,rfl⟩
  have hincoming : (((opened server).arriving (stream.map .byte)).write
      (bytes "+OK voltdbx ready")).client.incoming = stream.map .byte := by
    rw [incoming_write]
    rfl
  have hlen : (((opened server).arriving (stream.map .byte)).write
      (bytes "+OK voltdbx ready")).client.incoming.length < fuel := by
    rw [hincoming]
    simpa using hfuel
  have hagree : ((opened server).write (bytes "+OK voltdbx ready")).server.storage.Agrees m := by
    rw [hserver]
    exact h
  obtain ⟨t,acts,hconversation,hreplies,ht⟩ := @conversation_answers _ envs _
    ((opened server).write (bytes "+OK voltdbx ready")).acts.length _ m hagree hserved
  obtain ⟨i,hi,hiserver,-,hisent⟩ := run_serveLines_conversation hgreeted hconversation
  have hseen := @session_follows_lines _ envs fuel _ _
    (hlevel.write (bytes "+OK voltdbx ready")) hlen
  rw [hincoming,delivered_bytes,hi] at hseen
  have htask : (sessionTask envs fuel).run ((opened server).arriving (stream.map .byte)) =
      (handleSession envs fuel).run (((opened server).arriving (stream.map .byte)).write
        (bytes "+OK voltdbx ready")) := rfl
  rw [htask]
  cases hrun : (handleSession envs fuel).run (((opened server).arriving (stream.map .byte)).write
      (bytes "+OK voltdbx ready")) with
  | error x j =>
    rw [hrun] at hseen
    exact absurd hseen not_false
  | ok o j =>
    rw [hrun] at hseen
    obtain ⟨-,hj⟩ := hseen
    refine ⟨j,rfl,?_,?_,handleSession_closed fuel hlen hrun⟩
    · rw [hj.sent,hisent,hsent,hreplies]
      rfl
    · rw [hj.server,hiserver]
      exact ht

end Connection

namespace Server
variable {hash : Bytes → Nat}

/-- Clients that a worker serves one after the other: the server after them, and what each
was sent. `envs i` is what client `i` meets outside the process. -/
def serveClients (envs : Nat → Nat → Env) : Nat → List Bytes → Server hash →
    Option (Server hash × List Bytes)
  | _, [], server => some (server,[])
  | i, stream :: streams, server =>
    match (Connection.sessionTask (envs i) (stream.length+1)).run
        ((Connection.opened server).arriving (stream.map .byte)) with
    | .ok _ k => (serveClients envs (i+1) streams k.server).map fun r =>
        (r.1,k.client.sent :: r.2)
    | .error _ _ => none

/-- What the clients should get: each a greeting and the answers to its lines, on the map
that the clients before it left. -/
def expected : Map Bytes → List Bytes → List Bytes
  | _, [] => []
  | m, stream :: streams =>
    (ClientSession.payload (bytes "+OK voltdbx ready") ++
      (answers m (executed stream)).flatMap ClientSession.payload) ::
        expected (mapAfter m (executed stream)) streams

theorem serveClients_answers {envs : Nat → Nat → Env} {streams : List Bytes} {i : Nat}
    {server : Server hash} {m : Map Bytes} (h : server.storage.Agrees m)
    (hserved : Served m (streams.flatMap executed)) :
    ∃ t, serveClients envs i streams server = some (t,expected m streams) ∧
      t.storage.Agrees (mapAfter m (streams.flatMap executed)) := by
  induction streams generalizing i server m with
  | nil => exact ⟨server,rfl,h⟩
  | cons stream streams ih =>
    rw [List.flatMap_cons] at hserved ⊢
    obtain ⟨hfirst,hrest⟩ := served_append.mp hserved
    obtain ⟨j,hj,hsent,hagree,-⟩ := @Connection.sessionTask_answers hash (envs i) server m h stream
      hfirst (stream.length+1) (Nat.lt_succ_self _)
    obtain ⟨t,ht,hlast⟩ := @ih (i+1) j.server _ hagree hrest
    refine ⟨t,?_,?_⟩
    · simp only [serveClients,hj,ht,expected,hsent,Option.map_some]
    · simpa only [mapAfter,List.foldl_append] using hlast

/-- Whatever bytes clients send one after the other, as long as their complete lines are
key-value commands that the interpreter admits, no session raises, every client is sent
exactly the interpreter's answers, and the store is the interpreter's map. -/
theorem clients_get_answers (hash : Bytes → Nat) (config : ServerConfig)
    (envs : Nat → Nat → Env) {streams : List Bytes}
    (hserved : Served ∅ (streams.flatMap executed)) :
    ∃ t : Server hash, serveClients envs 0 streams (create hash config) =
        some (t,expected ∅ streams) ∧
      t.storage.values = mapAfter ∅ (streams.flatMap executed) := by
  obtain ⟨t,ht,hagree⟩ := @serveClients_answers hash envs streams 0 (create hash config) ∅
    StorageEngine.agrees_create hserved
  exact ⟨t,ht,hagree.values_eq⟩

/-- The second client reads what the first has written, and is not answered for the line it
does not finish. -/
theorem clients_get_answers_example :
    let streams := [bytes "SET a 1\r\n\n",bytes "INCR a\nGET"]
    ∃ t : Server (fun _ => 0), serveClients (fun _ _ => ⟨fun _ => 0,.success⟩) 0 streams
        (create (fun _ => 0) {}) =
      some (t,[bytes "+OK voltdbx ready\n+OK\n",bytes "+OK voltdbx ready\n:2\n"]) := by
  intro streams
  have hset : parseLine (bytes "SET a 1") = some ⟨.set,bytes "SET",[bytes "a",bytes "1"]⟩ := by
    decide
  have hincr : parseLine (bytes "INCR a") = some ⟨.incr,bytes "INCR",[bytes "a"]⟩ := by decide
  have hfirst : executed (bytes "SET a 1\r\n\n") = [bytes "SET a 1"] := by decide
  have hsecond : executed (bytes "INCR a\nGET") = [bytes "INCR a"] := by decide
  have hone : bytes "1" = Decimal.printInt 1 := by decide
  have hdecimal : decimal (bytes "1") = some 1 := by decide
  have hserved : Served ∅ (streams.flatMap executed) := by
    have hlines : streams.flatMap executed = [bytes "SET a 1",bytes "INCR a"] := by
      simp [streams,hfirst,hsecond]
    rw [hlines]
    refine ⟨fun cmd hcmd => ?_,fun cmd hcmd => ?_,trivial⟩
    · cases hset.symm.trans hcmd
      exact ⟨rfl,trivial⟩
    · cases hincr.symm.trans hcmd
      refine ⟨rfl,?_⟩
      simp only [interpretLine,hset,interpret,Admissible,CounterFits,Finmap.lookup_insert]
      exact ⟨1,by decide,by decide,by decide⟩
  obtain ⟨t,ht,-⟩ := clients_get_answers (fun _ => 0) {} (fun _ _ => ⟨fun _ => 0,.success⟩)
    hserved
  refine ⟨t,ht.trans ?_⟩
  have hexpected : expected ∅ streams =
      [bytes "+OK voltdbx ready\n+OK\n",bytes "+OK voltdbx ready\n:2\n"] := by
    simp only [streams,expected,hfirst,hsecond,answers,answer,hset,hincr,mapAfter,List.foldl_cons,
      List.foldl_nil,interpretLine,interpret,add,counter,Finmap.lookup_insert]
    decide
  rw [hexpected]

end Server
end VoltDBX
