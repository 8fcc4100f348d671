import VoltDBX.Dispatcher

/-!
Which commands raise. The conversions sit in EXPIRE, INCR, DECR, INCRBY and SCAN;
a command returns exactly when every text it converts begins with a number in range.
-/

set_option autoImplicit false

namespace VoltDBX

section
variable {σ τ α β : Type}

def Returns (r : EStateM.Result Raised σ α) : Prop := ∃ a s, r = .ok a s

@[simp] theorem returns_ok (a : α) (s : σ) : Returns (.ok a s : EStateM.Result Raised σ α) :=
  ⟨a,s,rfl⟩

@[simp] theorem not_returns_error (x : Raised) (s : σ) :
    ¬ Returns (.error x s : EStateM.Result Raised σ α) := by
  rintro ⟨a,t,h⟩
  cases h

theorem returns_mapState {f : σ → τ} {r : EStateM.Result Raised σ α} :
    Returns (mapState f r) ↔ Returns r := by
  cases r with
  | ok a s => simp [mapState]
  | error x s => simp [mapState]

theorem returns_focus {field : τ → σ} {assign : τ → σ → τ} {a : Action σ α} {s : τ} :
    Returns ((focus field assign a).run s) ↔ Returns (a.run (field s)) :=
  returns_mapState (f := assign s)

theorem returns_converting {f : σ → Except Raised α} {s : σ} :
    Returns ((converting f).run s) ↔ ∃ a, f s = .ok a := by
  rw [run_converting]
  cases f s with
  | ok a => simp
  | error x => simp

theorem bind_ok_iff {x : Except Raised α} {f : α → Except Raised β} :
    (∃ b, (x >>= f) = .ok b) ↔ ∃ a, x = .ok a ∧ ∃ b, f a = .ok b := by
  cases x with
  | ok a =>
    constructor
    · intro h
      exact ⟨a,rfl,h⟩
    · rintro ⟨a',ha,h⟩
      cases ha
      exact h
  | error e =>
    constructor
    · rintro ⟨b,h⟩
      cases h
    · rintro ⟨a,h,-⟩
      cases h

end

def CounterText : Option Bytes → Prop
  | none => True
  | some raw => raw = [] ∨ AcceptsLong raw

def CursorText (token : Bytes) : Prop :=
  token = [] ∨ token = bytes "0" ∨ (colon ∉ token ∧ AcceptsUnsigned token) ∨
    ∃ bucket chain, token = bucket ++ colon :: chain ∧ colon ∉ bucket ∧
      AcceptsUnsigned bucket ∧ AcceptsUnsigned chain

def countArgs : List Bytes → List Bytes
  | [] => []
  | [_] => []
  | option :: arg :: rest =>
    if option = bytes "COUNT" then arg :: countArgs rest
    else if option = bytes "MATCH" then countArgs rest
    else countArgs (arg :: rest)

theorem parseValue_ok_iff (raw : Option Bytes) :
    (∃ v, CounterStore.parseValue raw = .ok v) ↔ CounterText raw := by
  cases raw with
  | none => simp [CounterStore.parseValue,CounterText]
  | some raw =>
    by_cases h : raw = []
    · simp [CounterStore.parseValue,CounterText,h]
    · simp [CounterStore.parseValue,CounterText,h,stoll_ok_iff]

theorem decodeScanCursor_ok_iff (token : Bytes) :
    (∃ c, decodeScanCursor token = .ok c) ↔ CursorText token := by
  unfold decodeScanCursor CursorText
  by_cases hzero : token = [] ∨ token = bytes "0"
  · rw [if_pos hzero]
    exact ⟨fun _ => hzero.elim Or.inl (fun h => Or.inr (Or.inl h)),fun _ => ⟨_,rfl⟩⟩
  · rw [if_neg hzero]
    obtain ⟨hempty,hnot⟩ := not_or.mp hzero
    simp only [hempty,hnot,false_or]
    have hparts : token.takeWhile notColon ++ token.dropWhile notColon = token :=
      List.takeWhile_append_dropWhile
    cases hd : token.dropWhile notColon with
    | nil =>
      have hfree : colon ∉ token := by
        rw [← hparts,hd,List.append_nil]
        exact notMem_takeWhile (fun _ => rfl) token
      rw [bind_ok_iff]
      constructor
      · rintro ⟨n,hn,-⟩
        exact Or.inl ⟨hfree,(stoull_ok_iff token).mp ⟨n,hn⟩⟩
      · rintro (⟨-,hacc⟩ | ⟨a,b,rfl,-⟩)
        · obtain ⟨n,hn⟩ := (stoull_ok_iff token).mpr hacc
          exact ⟨n,hn,_,rfl⟩
        · simp at hfree
    | cons c chain =>
      have hc : c = colon := head_dropWhile (fun _ => rfl) hd
      subst hc
      have htoken : token = token.takeWhile notColon ++ colon :: chain := by
        rw [← hd,hparts]
      have hfree : colon ∉ token.takeWhile notColon := notMem_takeWhile (fun _ => rfl) token
      simp only [bind_ok_iff]
      constructor
      · rintro ⟨n,hn,m,hm,-⟩
        exact Or.inr ⟨_,chain,htoken,hfree,(stoull_ok_iff _).mp ⟨n,hn⟩,(stoull_ok_iff _).mp ⟨m,hm⟩⟩
      · rintro (⟨hnone,-⟩ | ⟨a,b,heq,ha,hacc,hbcc⟩)
        · exact absurd (by rw [htoken]; simp) hnone
        · obtain ⟨htake,hdrop⟩ := split_first (p := notColon) (fun _ => rfl) ha b
          rw [← heq] at htake hdrop
          rw [hd,List.cons.injEq] at hdrop
          obtain ⟨n,hn⟩ := (stoull_ok_iff a).mpr hacc
          obtain ⟨m,hm⟩ := (stoull_ok_iff b).mpr hbcc
          exact ⟨n,htake ▸ hn,m,hdrop.2 ▸ hm,_,rfl⟩

theorem scanOptions_ok_iff (options : List Bytes) (count : Nat) (pattern : Bytes) :
    (∃ r, scanOptions options count pattern = .ok r) ↔
      ∀ a ∈ countArgs options, AcceptsUnsigned a := by
  fun_induction scanOptions options count pattern with
  | case1 => simp [countArgs]
  | case2 => simp [countArgs]
  | case3 arg rest count pattern ih =>
    rw [bind_ok_iff]
    simp only [countArgs,if_true,List.forall_mem_cons,← stoull_ok_iff arg]
    constructor
    · rintro ⟨n,hn,h⟩
      exact ⟨⟨n,hn⟩,(ih n).mp h⟩
    · rintro ⟨⟨n,hn⟩,h⟩
      exact ⟨n,hn,(ih n).mpr h⟩
  | case4 arg rest count pattern hne ih => simpa [countArgs,hne] using ih
  | case5 option arg rest count pattern hcount hmatch ih =>
    simpa [countArgs,hcount,hmatch] using ih

namespace Server
variable {hash : Bytes → Nat}

/-- Every text the command converts is a number its conversion takes. -/
def Convertible (env : Env) (s : Server hash) (cmd : ParsedCommand) : Prop :=
  match cmd.type with
  | .expire =>
    match cmd.args with
    | [_,ttl] => AcceptsLong ttl
    | _ => True
  | .incr | .decr =>
    match cmd.args with
    | [key] => CounterText (s.storage.get (env.clock 0) key)
    | _ => True
  | .incrby =>
    match cmd.args with
    | [key,amount] => AcceptsLong amount ∧ CounterText (s.storage.get (env.clock 0) key)
    | _ => True
  | .scan =>
    match cmd.args with
    | token :: options => CursorText token ∧ ∀ a ∈ countArgs options, AcceptsUnsigned a
    | _ => True
  | _ => True

theorem returns_handleExpire (now : Int) (cmd : ParsedCommand) (storage : StorageEngine hash) :
    Returns ((handleExpire now cmd).run storage) ↔
      match cmd.args with
      | [_,ttl] => AcceptsLong ttl
      | _ => True := by
  rw [run_handleExpire]
  rcases cmd.args with _ | ⟨key,_ | ⟨ttl,_ | ⟨_,_⟩⟩⟩
  · simp
  · simp
  · simp only [← stoll_ok_iff]
    cases stoll ttl with
    | error x => simp
    | ok seconds => simp
  · simp

theorem returns_counted {now : Int} {key : Bytes} {delta : Int} {storage : StorageEngine hash} :
    Returns (counted now key delta storage) ↔ CounterText (storage.get now key) := by
  rw [← parseValue_ok_iff]
  unfold counted
  cases CounterStore.parseValue (storage.get now key) with
  | error x => simp
  | ok v => simp

theorem returns_handleIncr (now : Int) (cmd : ParsedCommand) (storage : StorageEngine hash) :
    Returns ((handleIncr now cmd).run storage) ↔
      match cmd.args with
      | [key] => CounterText (storage.get now key)
      | _ => True := by
  rw [run_handleIncr]
  rcases cmd.args with _ | ⟨key,_ | ⟨_,_⟩⟩
  · simp
  · exact returns_counted
  · simp

theorem returns_handleDecr (now : Int) (cmd : ParsedCommand) (storage : StorageEngine hash) :
    Returns ((handleDecr now cmd).run storage) ↔
      match cmd.args with
      | [key] => CounterText (storage.get now key)
      | _ => True := by
  rw [run_handleDecr]
  rcases cmd.args with _ | ⟨key,_ | ⟨_,_⟩⟩
  · simp
  · exact returns_counted
  · simp

theorem returns_handleIncrby (now : Int) (cmd : ParsedCommand) (storage : StorageEngine hash) :
    Returns ((handleIncrby now cmd).run storage) ↔
      match cmd.args with
      | [key,amount] => AcceptsLong amount ∧ CounterText (storage.get now key)
      | _ => True := by
  rw [run_handleIncrby]
  rcases cmd.args with _ | ⟨key,_ | ⟨amount,_ | ⟨_,_⟩⟩⟩
  · simp
  · simp
  · simp only [← stoll_ok_iff]
    cases stoll amount with
    | error x => simp
    | ok delta => simp [returns_counted]
  · simp

theorem handleScan_ok_iff (cmd : ParsedCommand) (storage : StorageEngine hash) :
    (∃ reply, handleScan cmd storage = .ok reply) ↔
      match cmd.args with
      | token :: options => CursorText token ∧ ∀ a ∈ countArgs options, AcceptsUnsigned a
      | _ => True := by
  unfold handleScan
  cases cmd.args with
  | nil => simp
  | cons token options =>
    simp only
    rw [bind_ok_iff,← decodeScanCursor_ok_iff,← scanOptions_ok_iff options 10 (bytes "*")]
    constructor
    · rintro ⟨c,hc,h⟩
      obtain ⟨r,hr,-⟩ := bind_ok_iff.mp h
      exact ⟨⟨c,hc⟩,r,hr⟩
    · rintro ⟨⟨c,hc⟩,r,hr⟩
      exact ⟨c,hc,bind_ok_iff.mpr ⟨r,hr,_,rfl⟩⟩

theorem dispatch_returns_iff (env : Env) (cmd : ParsedCommand) (s : Server hash) :
    Returns ((dispatch env cmd).run s) ↔ Convertible env s cmd := by
  rw [run_dispatch]
  unfold Convertible
  cases cmd.type
  case expire => exact returns_focus.trans (returns_handleExpire _ cmd s.storage)
  case incr => exact returns_focus.trans (returns_handleIncr _ cmd s.storage)
  case decr => exact returns_focus.trans (returns_handleDecr _ cmd s.storage)
  case incrby => exact returns_focus.trans (returns_handleIncrby _ cmd s.storage)
  case scan =>
    exact returns_focus.trans (returns_converting.trans (handleScan_ok_iff cmd s.storage))
  all_goals exact ⟨fun _ => trivial,fun _ => ⟨_,_,rfl⟩⟩

def Readable (s : Server hash) (input : Env × Bytes) : Prop :=
  ∀ cmd, parseLine input.2 = some cmd → Convertible input.1 s cmd

theorem handleLine_returns_iff (s : Server hash) (input : Env × Bytes) :
    (∃ reply t, (handleLine input.1 input.2).run s = .ok reply t) ↔ Readable s input := by
  obtain ⟨env,line⟩ := input
  rw [run_handleLine]
  unfold Readable
  cases hp : parseLine line with
  | none => simp
  | some cmd =>
    have hcmd := dispatch_returns_iff env cmd s
    unfold Returns at hcmd
    simp only [Option.some.injEq,forall_eq',← hcmd]
    cases (dispatch env cmd).run s with
    | ok reply t => simp
    | error x t => simp

/-- A session runs to its end exactly when every line is readable where it stands. -/
theorem serve_returns_iff (inputs : List (Env × Bytes)) (s : Server hash) :
    (∃ replies t, (serve inputs).run s = .ok replies t) ↔
      Runs.Along (fun input => handleLine input.1 input.2) Readable s inputs :=
  Runs.runAll_returns_iff handleLine_returns_iff inputs s

/-- The time of this EXPIRE is not a number, and the line parses. -/
theorem expire_line_raises :
    ∃ cmd, parseLine (bytes "EXPIRE a b") = some cmd ∧
      (dispatch ⟨fun _ => 0,.success⟩ cmd).run (create (fun _ => 0) {}) =
        .error .invalidArgument (create (fun _ => 0) {}).recordCommand :=
  ⟨⟨.expire,bytes "EXPIRE",[bytes "a",bytes "b"]⟩,by decide,rfl⟩

end Server
end VoltDBX
