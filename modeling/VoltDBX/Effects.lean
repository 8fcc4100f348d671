import VoltDBX.Dispatcher

/-!
What a command can do to the store. Every invariant of the store over runs of
commands is read off these cases.
-/

set_option autoImplicit false

namespace VoltDBX

def Storing (cmd : ParsedCommand) : Prop :=
  match cmd.type with
  | .set => 2 ≤ cmd.args.length
  | .mset => 2 ≤ cmd.args.length ∧ cmd.args.length % 2 = 0
  | .incr | .decr => cmd.args.length = 1
  | .incrby => cmd.args.length = 2
  | _ => False

/-- The key is an argument; the value is one, or joins several, or prints a number. -/
def StoredBy (cmd : ParsedCommand) (p : Bytes × Bytes) : Prop :=
  p.1 ∈ cmd.args ∧ (p.2 ∈ cmd.args ∨
    (∃ first rest, (∀ a ∈ first :: rest, a ∈ cmd.args) ∧ p.2 = joinArgs first rest) ∨
    ∃ v, p.2 = Decimal.printInt v)

section
variable {hash : Bytes → Nat}

inductive Effect (e : StorageEngine hash) (cmd : ParsedCommand) : StorageEngine hash → Prop where
  | kept (h : ¬ Storing cmd) : Effect e cmd e
  | stored (pairs : List (Bytes × Bytes)) (hne : pairs ≠ []) (h : Storing cmd)
      (hby : ∀ p ∈ pairs, StoredBy cmd p) : Effect e cmd (e.setAll pairs)
  | removed (key : Bytes) (ht : cmd.type = .delete) (hargs : cmd.args = [key]) :
      Effect e cmd (e.remove key).1
  | expires (now : Int) (key : Bytes) (ttl : Int) (ht : cmd.type = .expire) :
      Effect e cmd (e.setTtl now key ttl).1
  | cleared (ht : cmd.type = .flushdb) : Effect e cmd e.clearAll

variable {e : StorageEngine hash} {cmd : ParsedCommand}

theorem handleSet_effect (ht : cmd.type = .set) : Effect e cmd (handleSet cmd e).1 := by
  unfold handleSet
  split
  · rename_i key first rest hargs
    refine .stored [(key,joinArgs first rest)] (by simp) (by simp [Storing,ht,hargs]) ?_
    intro p hp
    rw [List.mem_singleton] at hp
    subst hp
    exact ⟨by simp [hargs],Or.inr (Or.inl ⟨first,rest,fun a ha => by simp_all,rfl⟩)⟩
  · rename_i hno
    refine .kept fun hst => ?_
    simp only [Storing,ht] at hst
    rcases hargs : cmd.args with _ | ⟨key,_ | ⟨first,rest⟩⟩
    · simp [hargs] at hst
    · simp [hargs] at hst
    · exact hno key first rest hargs

theorem mem_batchPairs {args : List Bytes} {p : Bytes × Bytes} (h : p ∈ batchPairs args) :
    p.1 ∈ args ∧ p.2 ∈ args := by
  fun_induction batchPairs args with
  | case1 key value rest ih =>
    rcases List.mem_cons.mp h with rfl | h
    · simp
    · simp [ih h]
  | case2 => simp at h

theorem handleMset_effect (ht : cmd.type = .mset) : Effect e cmd (handleMset cmd e).1 := by
  unfold handleMset
  split
  · rename_i harity
    refine .kept fun hst => ?_
    simp only [Storing,ht] at hst
    omega
  · rename_i harity
    have hlen : 2 ≤ cmd.args.length ∧ cmd.args.length % 2 = 0 := by omega
    simp only [BatchOperations.mset_eq_setAll]
    refine .stored _ ?_ (by simpa [Storing,ht] using hlen) fun p hp =>
      ⟨(mem_batchPairs hp).1,Or.inl (mem_batchPairs hp).2⟩
    rcases hargs : cmd.args with _ | ⟨key,_ | ⟨value,rest⟩⟩
    · simp [hargs] at hlen
    · simp [hargs] at hlen
    · simp [batchPairs]

theorem handleDelete_effect (ht : cmd.type = .delete) : Effect e cmd (handleDelete cmd e).1 := by
  unfold handleDelete
  split
  · rename_i key hargs
    exact .removed key ht hargs
  · exact .kept (by simp [Storing,ht])

theorem counted_effect (hst : Storing cmd) {key : Bytes} (hkey : key ∈ cmd.args) (now delta : Int) :
    OnReturn (fun _ u => Effect e cmd u) (counted now key delta e) := by
  unfold counted
  split
  · trivial
  · refine .stored [(key,_)] (by simp) hst ?_
    intro p hp
    rw [List.mem_singleton] at hp
    subst hp
    exact ⟨hkey,Or.inr (Or.inr ⟨_,rfl⟩)⟩

theorem handleIncr_effect (ht : cmd.type = .incr) (now : Int) :
    OnReturn (fun _ u => Effect e cmd u) ((handleIncr now cmd).run e) := by
  rw [run_handleIncr]
  rcases hargs : cmd.args with _ | ⟨key,_ | ⟨arg,rest⟩⟩
  · exact .kept (by simp [Storing,ht,hargs])
  · exact counted_effect (by simp [Storing,ht,hargs]) (by simp [hargs]) now 1
  · exact .kept (by simp [Storing,ht,hargs])

theorem handleDecr_effect (ht : cmd.type = .decr) (now : Int) :
    OnReturn (fun _ u => Effect e cmd u) ((handleDecr now cmd).run e) := by
  rw [run_handleDecr]
  rcases hargs : cmd.args with _ | ⟨key,_ | ⟨arg,rest⟩⟩
  · exact .kept (by simp [Storing,ht,hargs])
  · exact counted_effect (by simp [Storing,ht,hargs]) (by simp [hargs]) now (-1)
  · exact .kept (by simp [Storing,ht,hargs])

theorem handleIncrby_effect (ht : cmd.type = .incrby) (now : Int) :
    OnReturn (fun _ u => Effect e cmd u) ((handleIncrby now cmd).run e) := by
  rw [run_handleIncrby]
  rcases hargs : cmd.args with _ | ⟨key,_ | ⟨amount,_ | ⟨arg,rest⟩⟩⟩
  · exact .kept (by simp [Storing,ht,hargs])
  · exact .kept (by simp [Storing,ht,hargs])
  · dsimp only
    cases stoll amount with
    | error x => trivial
    | ok delta => exact counted_effect (by simp [Storing,ht,hargs]) (by simp [hargs]) now delta
  · exact .kept (by simp [Storing,ht,hargs])

theorem handleExpire_effect (ht : cmd.type = .expire) (now : Int) :
    OnReturn (fun _ u => Effect e cmd u) ((handleExpire now cmd).run e) := by
  rw [run_handleExpire]
  rcases cmd.args with _ | ⟨key,_ | ⟨ttl,_ | ⟨arg,rest⟩⟩⟩
  · exact .kept (by simp [Storing,ht])
  · exact .kept (by simp [Storing,ht])
  · dsimp only
    cases stoll ttl with
    | error x => trivial
    | ok seconds => exact .expires now key seconds ht
  · exact .kept (by simp [Storing,ht])

end

namespace Server
variable {hash : Bytes → Nat}

/-- Every command that returns, case by case. -/
theorem dispatch_effect (env : Env) (cmd : ParsedCommand) (s : Server hash) :
    OnReturn (fun _ t => Effect s.storage cmd t.storage) ((dispatch env cmd).run s) := by
  rw [run_dispatch]
  cases ht : cmd.type
  case set => exact onReturn_focus (handleSet_effect ht)
  case mset => exact onReturn_focus (handleMset_effect ht)
  case delete => exact onReturn_focus (handleDelete_effect ht)
  case incr => exact onReturn_focus (handleIncr_effect ht _)
  case decr => exact onReturn_focus (handleDecr_effect ht _)
  case incrby => exact onReturn_focus (handleIncrby_effect ht _)
  case expire => exact onReturn_focus (handleExpire_effect ht _)
  case flushdb => exact onReturn_focus (.cleared ht : Effect s.storage cmd s.storage.clearAll)
  case scan =>
    exact onReturn_focus (onReturn_converting fun _ => .kept (by simp [Storing,ht]))
  all_goals exact .kept (by simp [Storing,ht])

end Server
end VoltDBX
