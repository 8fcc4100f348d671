import VoltDBX.Linearization
import VoltDBX.TableCalls
import VoltDBX.Wire

/-!
The commands that touch the table at one moment: GET, SET, DELETE, PING, DBSIZE, FLUSHDB, and
EXISTS, MGET and MSET on one key. With no deadlines about, sessions of such commands that meet
call by call on the same keys are like one client that sends their lines in some order.
-/

set_option autoImplicit false

namespace VoltDBX
open Runs Runs.Program SharedCall Reference

namespace Reference

/-- What a line is answered, if at all, and the map after it. -/
def respond (line : Bytes) (m : Map Bytes) : Option Bytes × Map Bytes :=
  (if line = [] then none else some (answer m line),(interpretLine m line).1)

def indivisible (cmd : ParsedCommand) : Bool :=
  match cmd.type with
  | .ping | .get | .set | .delete | .dbsize | .flushdb | .unknown => true
  | .exist | .mget => decide (cmd.args.length ≤ 1)
  | .mset => decide (cmd.args.length ≤ 2)
  | _ => false

theorem parseLine_nil : parseLine [] = none := by decide

variable {line : Bytes} {cmd : ParsedCommand}

theorem respond_no_command (h : parseLine line = none) (m : Map Bytes) :
    respond line m =
      (if line = [] then none else some (bytes "-ERR empty command"),m) := by
  simp only [respond,answer,interpretLine,h]

theorem line_ne_nil (h : parseLine line = some cmd) : line ≠ [] := by
  rintro rfl
  rw [parseLine_nil] at h
  cases h

theorem respond_ping (h : parseLine line = some cmd) (ht : cmd.type = .ping) (m : Map Bytes) :
    respond line m = (some (bytes "+PONG"),m) := by
  simp only [respond,answer,interpretLine,interpret,h,ht,if_neg (line_ne_nil h)]

theorem respond_unknown (h : parseLine line = some cmd) (ht : cmd.type = .unknown) (m : Map Bytes) :
    respond line m = (some (bytes "-ERR unknown command"),m) := by
  simp only [respond,answer,interpretLine,interpret,h,ht,if_neg (line_ne_nil h)]

theorem respond_interpret (h : parseLine line = some cmd) (hp : cmd.type ≠ .ping)
    (hu : cmd.type ≠ .unknown) {m m' : Map Bytes} {reply : Bytes}
    (hi : interpret m cmd = (m',some reply)) : respond line m = (some reply,m') := by
  simp only [respond,answer,interpretLine,h,hi,if_neg (line_ne_nil h),Option.getD_some]

theorem served_of_indivisible {m : Map Bytes} {lines : List Bytes}
    (h : ∀ line ∈ lines, ∀ cmd, parseLine line = some cmd → indivisible cmd = true) :
    Served m lines := by
  induction lines generalizing m with
  | nil => trivial
  | cons line lines ih =>
    refine ⟨fun cmd hcmd => ?_,ih fun l hl => h l (List.mem_cons_of_mem _ hl)⟩
    have hone := h line List.mem_cons_self cmd hcmd
    unfold indivisible at hone
    unfold Admissible
    cases ht : cmd.type <;> rw [ht] at hone <;> first | exact ⟨rfl,trivial⟩ | cases hone

end Reference

namespace Calls
variable {hash : Bytes → Nat} {κ : Type}

def lineOf (i : Server.Turn κ) : Calls (Option Bytes) := handleLine i.env i.line

/-- The entries of the server are those of the map, without deadlines. -/
abbrev Holds (s : Server hash) (m : Map Bytes) : Prop := s.storage.Agrees m

abbrev respondTo (i : Server.Turn κ) (m : Map Bytes) : Option Bytes × Map Bytes :=
  respond i.line m

variable {i : Server.Turn κ} {p : Calls (Option Bytes)}

theorem agrees_insert {e : StorageEngine hash} {m : Map Bytes} (h : e.Agrees m)
    (key value : Bytes) : (e.insert key ⟨value,none⟩).Agrees (m.insert key value) := by
  intro k
  rw [StorageEngine.toMap_insert,← StorageEngine.toMap_set]
  exact h.set key value k

theorem atomic_done {reply : Option Bytes} (h : ∀ m, respondTo i m = (reply,m)) :
    (Program.done (.ok reply) : Calls (Option Bytes)).Atomic (@exec hash) respondTo Holds i := by
  refine Or.inr fun s m hs => ?_
  rw [h]
  exact ⟨hs,rfl⟩

theorem pending_recordCommand (h : p.Atomic (@exec hash) respondTo Holds i) :
    (Program.call .recordCommand fun _ => p : Calls (Option Bytes)).Pending (@exec hash)
      respondTo Holds i := by
  intro s m hs
  rcases h with hpending | hnow
  · exact Or.inl ⟨hs,hpending⟩
  · exact Or.inr (hnow s.recordCommand m hs)

theorem pending_get (now : Int) (key : Bytes) {next : Option Bytes → Calls (Option Bytes)}
    (hm : ∀ m, (respondTo i m).2 = m)
    (hnext : ∀ m, next (m.lookup key) = .done (.ok (respondTo i m).1)) :
    (get now key >>= next).Pending (@exec hash) respondTo Holds i := by
  have hfind : ∀ (s : Server hash) (m : Map Bytes), Holds s m →
      (exec (.find key) s).1 = (m.lookup key).map (fun value => (⟨value,none⟩ : StorageEntry)) := by
    intro s m hs
    simp only [exec,StorageEngine.find_eq]
    exact hs key
  have hsecond : ∀ (rest : Option StorageEntry → Calls (Option Bytes)),
      (∀ found, rest found = next (found.map StorageEntry.value)) →
      (Program.call (.find key) rest : Calls (Option Bytes)).Pending (@exec hash)
        respondTo Holds i := by
    intro rest hrest s m hs
    refine Or.inr ⟨?_,?_⟩
    · rw [hm]
      exact hs
    · have hvalue := hrest (exec (.find key) s).1
      rw [hvalue,hfind s m hs,Option.map_map]
      have hsame : (StorageEntry.value ∘ fun value => (⟨value,none⟩ : StorageEntry)) = id := rfl
      rw [hsame,Option.map_id,id,hnext]
      exact rfl
  intro s m hs
  refine Or.inl ⟨hs,?_⟩
  rw [hfind s m hs]
  cases m.lookup key with
  | none => exact hsecond _ fun found => by cases found <;> rfl
  | some value => exact hsecond _ fun found => by cases found <;> rfl

def replying (p : Calls Bytes) : Calls (Option Bytes) := p >>= fun reply => .done (.ok (some reply))

section
variable {cmd : ParsedCommand} {env : Env}
variable (hline : parseLine i.line = some cmd) (hp : cmd.type ≠ .ping) (hu : cmd.type ≠ .unknown)
include hline hp hu

theorem atomic_reply {reply : Bytes} (h : ∀ m, interpret m cmd = (m,some reply)) :
    (replying (.done (.ok reply))).Atomic (@exec hash) respondTo Holds i :=
  atomic_done fun m => respond_interpret hline hp hu (h m)

theorem pending_reading (now : Int) (key : Bytes) {f : Option Bytes → Calls Bytes}
    {reply : Option Bytes → Bytes} (hf : ∀ value, f value = .done (.ok (reply value)))
    (h : ∀ m, interpret m cmd = (m,some (reply (m.lookup key)))) :
    (replying (get now key >>= f)).Pending (@exec hash) respondTo Holds i := by
  have hrespond : ∀ m, respondTo i m = (some (reply (m.lookup key)),m) :=
    fun m => respond_interpret hline hp hu (h m)
  rw [replying,Program.bind_assoc]
  refine pending_get now key (fun m => by rw [hrespond]) fun m => ?_
  rw [hrespond,hf]
  rfl

theorem pending_call {c : SharedCall} {f : SharedCall.Reply c → Calls Bytes}
    (h : ∀ (s : Server hash) m, Holds s m → ∃ reply, f (exec c s).1 = .done (.ok reply) ∧
      ∃ m', interpret m cmd = (m',some reply) ∧ Holds (exec c s).2 m') :
    (replying (.call c f)).Pending (@exec hash) respondTo Holds i := by
  intro s m hs
  obtain ⟨reply,hreply,m',hi,hm'⟩ := h s m hs
  have hrespond : respondTo i m = (some reply,m') := respond_interpret hline hp hu hi
  refine Or.inr ⟨?_,?_⟩
  · rw [hrespond]
    exact hm'
  · rw [hrespond]
    show Program.Settled exec Holds (some reply) (replying (f (exec c s).1))
    rw [hreply]
    exact rfl

theorem atomic_handleGet (now : Int) (ht : cmd.type = .get) :
    (replying (handleGet now cmd)).Atomic (@exec hash) respondTo Holds i := by
  unfold handleGet
  rcases hargs : cmd.args with _ | ⟨key,_ | ⟨arg,rest⟩⟩
  · exact atomic_reply hline hp hu fun m => by simp only [interpret,ht,hargs]
  · exact Or.inl (pending_reading hline hp hu now key (fun _ => rfl) fun m => by
      simp only [interpret,ht,hargs])
  · exact atomic_reply hline hp hu fun m => by simp only [interpret,ht,hargs]

theorem atomic_handleDelete (ht : cmd.type = .delete) :
    (replying (handleDelete cmd)).Atomic (@exec hash) respondTo Holds i := by
  unfold handleDelete
  rcases hargs : cmd.args with _ | ⟨key,_ | ⟨arg,rest⟩⟩
  · exact atomic_reply hline hp hu fun m => by simp only [interpret,ht,hargs]
  · refine Or.inl (pending_call hline hp hu fun s m hs => ?_)
    refine ⟨_,rfl,m.erase key,?_,hs.remove key⟩
    simp only [interpret,ht,hargs,exec,StorageEngine.remove_snd,decide_eq_true_eq,hs.mem_iff key]
  · exact atomic_reply hline hp hu fun m => by simp only [interpret,ht,hargs]

theorem atomic_handleExists (ht : cmd.type = .exist) (hone : cmd.args.length ≤ 1) :
    (replying (handleExists cmd)).Atomic (@exec hash) respondTo Holds i := by
  unfold handleExists
  rcases hargs : cmd.args with _ | ⟨key,_ | ⟨arg,rest⟩⟩
  · exact atomic_reply hline hp hu fun m => by simp only [interpret,ht,hargs,if_true]
  · refine Or.inl (pending_call hline hp hu fun s m hs => ?_)
    have hexists : (exec (.contains key) s).1 = decide (key ∈ m) := by
      simp only [exec,StorageEngine.existsKey_eq]
      exact decide_eq_decide.mpr (hs.mem_iff key)
    refine ⟨integerResponse (if key ∈ m then 1 else 0),?_,m,?_,hs⟩
    · rw [hexists]
      by_cases hmem : key ∈ m
      · simp only [hmem,decide_true,if_true]
        rfl
      · simp only [hmem,decide_false,if_false]
        rfl
    · simp only [interpret,ht,hargs,reduceCtorEq,if_false,List.countP_cons,List.countP_nil]
      by_cases hmem : key ∈ m <;> simp [hmem]
  · rw [hargs] at hone
    simp at hone

theorem atomic_handleSet (ht : cmd.type = .set) :
    (replying (handleSet cmd)).Atomic (@exec hash) respondTo Holds i := by
  unfold handleSet
  rcases hargs : cmd.args with _ | ⟨key,_ | ⟨first,rest⟩⟩
  · exact atomic_reply hline hp hu fun m => by simp only [interpret,ht,hargs]
  · exact atomic_reply hline hp hu fun m => by simp only [interpret,ht,hargs]
  · refine Or.inl (pending_call hline hp hu fun s m hs => ?_)
    refine ⟨_,rfl,m.insert key (joinArgs first rest),?_,agrees_insert hs key _⟩
    simp only [interpret,ht,hargs,joinArgs_eq]

theorem atomic_handleMget (clock : Nat → Int) (ht : cmd.type = .mget)
    (hone : cmd.args.length ≤ 1) :
    (replying (handleMget clock cmd)).Atomic (@exec hash) respondTo Holds i := by
  unfold handleMget
  rcases hargs : cmd.args with _ | ⟨key,_ | ⟨arg,rest⟩⟩
  · exact atomic_reply hline hp hu fun m => by simp only [interpret,ht,hargs,if_true]
  · let reply (value : Option Bytes) : Bytes :=
      bytes "*" ++ Decimal.print 1 ++ crlf ++ (optionalResponse value ++ crlf)
    have hreading : ∀ m, interpret m cmd = (m,some (reply (m.lookup key))) := by
      intro m
      simp only [interpret,ht,hargs,reduceCtorEq,if_false,List.length_singleton,
        List.flatMap_cons,List.flatMap_nil,List.append_nil,reply]
    refine Or.inl ?_
    dsimp only
    rw [mget,Program.bind_assoc]
    refine pending_reading hline hp hu _ key (fun value => ?_) hreading
    exact congrArg (fun x => Program.done (.ok (bytes "*" ++ Decimal.print 1 ++ crlf ++ x)))
      (List.append_nil _)
  · rw [hargs] at hone
    simp at hone

theorem atomic_handleMset (ht : cmd.type = .mset) (hone : cmd.args.length ≤ 2) :
    (replying (handleMset cmd)).Atomic (@exec hash) respondTo Holds i := by
  unfold handleMset
  split
  · rename_i harity
    exact atomic_reply hline hp hu fun m => by simp only [interpret,ht,harity,if_true]
  · rename_i harity
    obtain ⟨key,value,hargs⟩ : ∃ key value, cmd.args = [key,value] := by
      rcases hargs : cmd.args with _ | ⟨key,_ | ⟨value,_ | ⟨arg,rest⟩⟩⟩ <;>
        rw [hargs] at hone harity <;> simp at hone harity ⊢
    refine Or.inl ?_
    rw [hargs]
    refine pending_call hline hp hu fun s m hs => ?_
    refine ⟨_,rfl,m.insert key value,?_,agrees_insert hs key value⟩
    simp only [interpret,ht,harity,if_false]
    rw [hargs]
    rfl

theorem atomic_handler {env : Env} (h : ∀ (s : Server hash) m, Holds s m → ∃ a reply s' m',
    Server.handlers env cmd cmd.type = some a ∧ a.run s = .ok reply s' ∧
      interpret m cmd = (m',some reply) ∧ Holds s' m') :
    (replying (handler env cmd)).Atomic (@exec hash) respondTo Holds i := by
  refine Or.inl (pending_call hline hp hu fun s m hs => ?_)
  obtain ⟨a,reply,s',m',ha,hrun,hi,hm'⟩ := h s m hs
  have hexec : exec (.handler env cmd) s = (.ok reply,s') := by
    simp only [exec,ha,hrun]
    rfl
  rw [hexec]
  exact ⟨reply,rfl,m',hi,hm'⟩

theorem atomic_handle (env : Env) (hcmd : indivisible cmd = true) :
    (replying (handle env cmd)).Atomic (@exec hash) respondTo Holds i := by
  unfold indivisible at hcmd
  unfold handle
  cases ht : cmd.type <;> rw [ht] at hcmd
  case ping => exact absurd ht hp
  case unknown => exact absurd ht hu
  case get => exact atomic_handleGet hline hp hu _ ht
  case set => exact atomic_handleSet hline hp hu ht
  case delete => exact atomic_handleDelete hline hp hu ht
  case exist => exact atomic_handleExists hline hp hu ht (of_decide_eq_true hcmd)
  case mget => exact atomic_handleMget hline hp hu _ ht (of_decide_eq_true hcmd)
  case mset => exact atomic_handleMset hline hp hu ht (of_decide_eq_true hcmd)
  case dbsize =>
    refine atomic_handler hline hp hu fun s m hs => ?_
    refine ⟨Server.onStorage (reading handleDbsize),_,s,m,by rw [ht]; rfl,rfl,?_,hs⟩
    simp only [interpret,ht,← hs.card_eq]
    rfl
  case flushdb =>
    refine atomic_handler hline hp hu fun s m hs => ?_
    refine ⟨Server.onStorage (updating handleFlushdb),_,_,∅,by rw [ht]; rfl,rfl,?_,
      StorageEngine.Agrees.clearAll s.storage⟩
    simp only [interpret,ht]
    rfl
  all_goals cases hcmd

end

theorem atomic_lineOf (h : ∀ cmd, parseLine i.line = some cmd → indivisible cmd = true) :
    (lineOf i).Atomic (@exec hash) respondTo Holds i := by
  unfold lineOf handleLine
  cases hline : parseLine i.line with
  | none =>
    by_cases hnil : i.line = []
    · rw [if_pos hnil]
      exact atomic_done fun m => by rw [respondTo,respond_no_command hline,if_pos hnil]
    · rw [if_neg hnil]
      exact atomic_done fun m => by rw [respondTo,respond_no_command hline,if_neg hnil]
  | some cmd =>
    rw [if_neg (line_ne_nil hline)]
    dsimp only
    unfold dispatch
    split
    · rename_i ht
      exact atomic_done (respond_unknown hline ht)
    · rename_i hu
      refine Or.inl (@pending_recordCommand _ _ _ (replying (handle i.env cmd)) ?_)
      by_cases ht : cmd.type = .ping
      · have hping : handle i.env cmd = .done (.ok (bytes "+PONG")) := by
          unfold handle
          rw [ht]
          rfl
        rw [hping]
        exact atomic_done (respond_ping hline ht)
      · exact atomic_handle hline ht hu i.env (h cmd hline)

end Calls

namespace Server
variable {hash : Bytes → Nat} {κ : Type}

theorem serial_respond (log : List (Turn κ)) (m : Map Bytes) :
    (serial Calls.respondTo log m).2 = mapAfter m (log.map Turn.line) := by
  induction log generalizing m with
  | nil => rfl
  | cons i log ih => exact ih _

/-- Sessions of commands that touch the table at one moment, meeting call by call, on the same
keys or not: in every state there is one order of the lines that have taken effect, each
session's in its own order and a line before all those that were sent after it was answered,
such that one client sending them in this order to the finite map gets the same replies and
leaves the same entries. No session ever waits for another one. -/
theorem lines_take_effect_in_order [DecidableEq κ] {turns : List (Turn κ)}
    (hturns : ∀ i ∈ turns, ∀ cmd, parseLine i.line = some cmd → indivisible cmd = true)
    {s : Server hash} {m : Map Bytes} (hs : s.storage.Agrees m)
    {events : List (Callers.Event κ)} {u : Callers (Turn κ) Raised Reply (Option Bytes) (Server hash) κ}
    (hrun : Moves (Callers.step Calls.lineOf exec)
      ⟨s,fun c => .fresh (inputsOf Turn.client c turns)⟩ events u) :
    (∃ log : List (Turn κ),
      u.shared.storage.Agrees (mapAfter m (log.map Turn.line)) ∧
      (∀ c, inputsOf Turn.client c log <+: inputsOf Turn.client c turns ∧
        (u.callers c).answers <+: outputsOf Turn.client c log (serial Calls.respondTo log m).1 ∧
        ((u.callers c).current = none →
          (u.callers c).answers = outputsOf Turn.client c log (serial Calls.respondTo log m).1 ∧
          inputsOf Turn.client c log ++ (u.callers c).rest = inputsOf Turn.client c turns)) ∧
      ∀ before after v, events = before ++ after →
        Moves (Callers.step Calls.lineOf exec)
          ⟨s,fun c => .fresh (inputsOf Turn.client c turns)⟩ before v →
        ∃ early late, log = early ++ late ∧ ∀ c,
          (v.callers c).answers.length ≤ (inputsOf Turn.client c early).length ∧
          (inputsOf Turn.client c early).length+(v.callers c).rest.length ≤
            (inputsOf Turn.client c turns).length) ∧
    ∃ more v, Moves (Callers.step Calls.lineOf exec) u more v ∧
      ∀ c, (v.callers c).current = none ∧ (v.callers c).rest = [] := by
  have hatomic : ∀ c, ∀ i ∈ inputsOf Turn.client c turns, i.client = c ∧
      (Calls.lineOf i).Atomic (@exec hash) Calls.respondTo Calls.Holds i := by
    intro c i hi
    obtain ⟨hmem,hclient⟩ := List.mem_filter.mp hi
    exact ⟨of_decide_eq_true hclient,Calls.atomic_lineOf (hturns i hmem)⟩
  obtain ⟨log,h⟩ := exists_linearized hatomic hs (fun c => rfl) hrun
  refine ⟨⟨log,?_,fun c => (h.placed c).beginnings,h.timely⟩,?_⟩
  · rw [← serial_respond]
    exact h.related
  · refine @exists_all_answered _ _ _ _ _ _ _ _ _ _ _ _ _ _ _ (turns.map Turn.client) h.related
      (h.ready hatomic) fun c hc => ?_
    have hnone : inputsOf Turn.client c turns = [] := by
      refine List.filter_eq_nil_iff.mpr fun i hi hclient => hc ?_
      exact List.mem_map.mpr ⟨i,hi,of_decide_eq_true hclient⟩
    have hplaced := h.placed c
    rw [hnone] at hplaced
    exact hplaced.idle (length_outputsOf (length_serial _ _ _))

theorem lines_take_effect_in_order_example :
    let env : Env := ⟨fun _ => 0,.success⟩
    let turns : List (Turn Bool) := [⟨true,env,bytes "SET a 1"⟩,⟨false,env,bytes "DELETE a"⟩]
    ∃ (s : Server fun _ => 0) (u : Callers (Turn Bool) Raised Reply (Option Bytes) (Server _) Bool)
      (log : List (Turn Bool)),
      Moves (Callers.step Calls.lineOf exec)
        ⟨s,fun c => .fresh (inputsOf Turn.client c turns)⟩
        [.invoke true,.call true,.invoke false,.call false,.call false,.call true,.answer true,
          .answer false] u ∧
      u.shared.storage.Agrees (mapAfter ∅ (log.map Turn.line)) := by
  intro env turns
  have hset : parseLine (bytes "SET a 1") = some ⟨.set,bytes "SET",[bytes "a",bytes "1"]⟩ := by
    decide
  have hdelete : parseLine (bytes "DELETE a") = some ⟨.delete,bytes "DELETE",[bytes "a"]⟩ := by
    decide
  have hturns : ∀ i ∈ turns, ∀ cmd, parseLine i.line = some cmd → indivisible cmd = true := by
    intro i hi cmd hcmd
    rcases List.mem_pair.mp hi with rfl | rfl
    · cases hset.symm.trans hcmd
      rfl
    · cases hdelete.symm.trans hcmd
      rfl
  have hs : (create (fun _ => 0) {}).storage.Agrees ∅ := StorageEngine.agrees_create
  generalize create (fun _ => 0) {} = s at hs
  have hrun : ∃ u, Moves (Callers.step Calls.lineOf exec)
      ⟨s,fun c => .fresh (inputsOf Turn.client c turns)⟩
      [.invoke true,.call true,.invoke false,.call false,.call false,.call true,.answer true,
        .answer false] u :=
    ⟨_,moves_cons.mpr ⟨_,rfl,moves_cons.mpr ⟨_,rfl,moves_cons.mpr ⟨_,rfl,moves_cons.mpr ⟨_,rfl,
      moves_cons.mpr ⟨_,rfl,moves_cons.mpr ⟨_,rfl,moves_cons.mpr ⟨_,rfl,moves_cons.mpr ⟨_,rfl,
        moves_nil.mpr rfl⟩⟩⟩⟩⟩⟩⟩⟩⟩
  obtain ⟨u,hu⟩ := hrun
  obtain ⟨⟨log,hlog,-⟩,-⟩ := lines_take_effect_in_order hturns hs hu
  exact ⟨s,u,log,hu,hlog⟩

end Server
end VoltDBX
