import VoltDBX.Dispatcher

/-!
What the key-value commands are for: an interpreter over a finite map from keys
to texts, and the server's agreement with it as long as no deadline is set and
the counters stay decimal numbers in range.
-/

set_option autoImplicit false

namespace VoltDBX

namespace Reference

def unsign : Bytes → Bool × Bytes
  | 45 :: ds => (true,ds)
  | 43 :: ds => (false,ds)
  | ds => (false,ds)

/-- An optional sign and at least one digit, and nothing else. -/
def decimal (s : Bytes) : Option Int :=
  if (unsign s).2 = [] then none
  else if (unsign s).2.all Decimal.isDigit then
    some (signed (unsign s).1 (Decimal.value (unsign s).2))
  else none

theorem unsign_split (s : Bytes) :
    ∃ sign, SignText (unsign s).1 sign ∧ s = sign ++ (unsign s).2 := by
  unfold unsign
  split
  · exact ⟨[45],.minus,rfl⟩
  · exact ⟨[43],.plus,rfl⟩
  · exact ⟨[],.none,rfl⟩

theorem stoll_decimal {s : Bytes} {v : Int} (h : decimal s = some v) (hv : InInt64 v) :
    stoll s = .ok v := by
  unfold decimal at h
  split at h
  · cases h
  · rename_i hne
    split at h
    · rename_i hall
      cases h
      obtain ⟨sign,hsign,hs⟩ := unsign_split s
      have hnum : numeral s = ((unsign s).1,(unsign s).2) := by
        conv_lhs => rw [hs]
        have hsplit := @numeral_of_split [] sign (unsign s).2 [] (unsign s).1 (by simp) hsign
          (List.all_eq_true.mp hall) hne (by simp)
        simpa using hsplit
      simp only [stoll,hnum,hne,hv,if_true,if_false]
    · cases h

theorem unsign_digits {ds : Bytes} (hd : ∀ c ∈ ds, Decimal.isDigit c = true) :
    unsign ds = (false,ds) := by
  unfold unsign
  split
  · exact absurd (hd 45 (by simp)) (by decide)
  · exact absurd (hd 43 (by simp)) (by decide)
  · rfl

theorem decimal_of_unsign {s : Bytes} {neg : Bool} {n : Nat}
    (h : unsign s = (neg,Decimal.print n)) : decimal s = some (signed neg n) := by
  have hall : (Decimal.print n).all Decimal.isDigit = true :=
    List.all_eq_true.mpr fun c hc => Decimal.print_isDigit hc
  rw [decimal,h,if_neg (Decimal.print_ne_nil n),if_pos hall,Decimal.value_print]

theorem decimal_printInt (v : Int) : decimal (Decimal.printInt v) = some v := by
  cases v with
  | ofNat n => exact decimal_of_unsign (unsign_digits fun c hc => Decimal.print_isDigit hc)
  | negSucc n =>
    have h : decimal (45 :: Decimal.print (n+1)) = some (signed true (n+1 : Nat)) :=
      decimal_of_unsign rfl
    exact h

def counter (m : Map Bytes) (key : Bytes) : Int :=
  match m.lookup key with
  | none => 0
  | some raw => (decimal raw).getD 0

def add (m : Map Bytes) (key : Bytes) (delta : Int) : Map Bytes × Option Bytes :=
  (m.insert key (Decimal.printInt (counter m key+delta)),
    some (integerResponse (counter m key+delta)))

/-- The new map, and the reply for the commands on keys and values. -/
def interpret (m : Map Bytes) (cmd : ParsedCommand) : Map Bytes × Option Bytes :=
  match cmd.type with
  | .set =>
    match cmd.args with
    | key :: first :: rest =>
      (m.insert key ([space].intercalate (first :: rest)),some okResponse)
    | _ => (m,some (errResponse "wrong number of arguments for SET"))
  | .get =>
    match cmd.args with
    | [key] => (m,some (optionalResponse (m.lookup key)))
    | _ => (m,some (errResponse "wrong number of arguments for GET"))
  | .delete =>
    match cmd.args with
    | [key] => (m.erase key,some (integerResponse (if key ∈ m then 1 else 0)))
    | _ => (m,some (errResponse "wrong number of arguments for DELETE"))
  | .exist =>
    if cmd.args = [] then (m,some (errResponse "wrong number of arguments for EXISTS"))
    else (m,some (integerResponse (cmd.args.countP (fun key => decide (key ∈ m)))))
  | .mget =>
    if cmd.args = [] then (m,some (errResponse "wrong number of arguments for MGET"))
    else (m,some (bytes "*" ++ Decimal.print cmd.args.length ++ crlf ++
      cmd.args.flatMap (fun key => optionalResponse (m.lookup key) ++ crlf)))
  | .mset =>
    if cmd.args.length < 2 ∨ cmd.args.length % 2 ≠ 0 then
      (m,some (errResponse "wrong number of arguments for MSET"))
    else ((batchPairs cmd.args).foldl (fun m p => m.insert p.1 p.2) m,some okResponse)
  | .incr =>
    match cmd.args with
    | [key] => add m key 1
    | _ => (m,some (errResponse "wrong number of arguments for INCR"))
  | .decr =>
    match cmd.args with
    | [key] => add m key (-1)
    | _ => (m,some (errResponse "wrong number of arguments for DECR"))
  | .incrby =>
    match cmd.args with
    | [key,amount] => add m key ((decimal amount).getD 0)
    | _ => (m,some (errResponse "wrong number of arguments for INCRBY"))
  | .dbsize => (m,some (integerResponse m.keys.card))
  | .flushdb => (∅,some okResponse)
  | _ => (m,none)

def interpretLine (m : Map Bytes) (line : Bytes) : Map Bytes × Option Bytes :=
  match parseLine line with
  | none => (m,none)
  | some cmd => interpret m cmd

/-- A counter that is absent or holds a printed number, with room for the sum. -/
def CounterFits (m : Map Bytes) (key : Bytes) (delta : Int) : Prop :=
  match m.lookup key with
  | none => True
  | some raw => ∃ v, raw = Decimal.printInt v ∧ InInt64 v ∧ InInt64 (v+delta)

/-- No EXPIRE, and every counter command of the right arity stays in range. -/
def Admissible (m : Map Bytes) (cmd : ParsedCommand) : Prop :=
  match cmd.type with
  | .expire => False
  | .incr =>
    match cmd.args with
    | [key] => CounterFits m key 1
    | _ => True
  | .decr =>
    match cmd.args with
    | [key] => CounterFits m key (-1)
    | _ => True
  | .incrby =>
    match cmd.args with
    | [key,amount] => ∃ delta, decimal amount = some delta ∧ InInt64 delta ∧
        CounterFits m key delta
    | _ => True
  | _ => True

end Reference

open Reference

/-- The store holds the entries of `m`, none of them with a deadline. -/
def StorageEngine.Agrees {hash : Bytes → Nat} (e : StorageEngine hash) (m : Map Bytes) : Prop :=
  ∀ key, e.toMap.lookup key = (m.lookup key).map (fun value => ⟨value,none⟩)

namespace StorageEngine
variable {hash : Bytes → Nat} {e : StorageEngine hash} {m : Map Bytes}

theorem agrees_create : (create hash).Agrees ∅ := by
  intro key
  simp

theorem Agrees.values_eq (h : e.Agrees m) : e.values = m :=
  Finmap.ext_lookup fun key => by
    rw [lookup_values,h key]
    cases m.lookup key with
    | none => rfl
    | some value => rfl

theorem Agrees.get_eq (h : e.Agrees m) (now : Int) (key : Bytes) :
    e.get now key = m.lookup key := by
  rw [StorageEngine.get_eq,Map.valueAt,h key]
  cases m.lookup key with
  | none => rfl
  | some value => rfl

theorem Agrees.mem_iff (h : e.Agrees m) (key : Bytes) : key ∈ e.toMap ↔ key ∈ m := by
  rw [← mem_values,h.values_eq]

theorem Agrees.card_eq (h : e.Agrees m) : e.entryCount = m.keys.card := by
  rw [← card_values,h.values_eq]

theorem Agrees.set (h : e.Agrees m) (key value : Bytes) :
    (e.set key value).1.Agrees (m.insert key value) := by
  intro x
  rw [toMap_set]
  by_cases hx : x = key
  · subst hx
    simp
  · simp [Finmap.lookup_insert_of_ne _ hx,h x]

theorem Agrees.remove (h : e.Agrees m) (key : Bytes) :
    (e.remove key).1.Agrees (m.erase key) := by
  intro x
  rw [toMap_remove]
  by_cases hx : x = key
  · subst hx
    simp
  · simp [Finmap.lookup_erase_ne hx,h x]

theorem Agrees.clearAll (e : StorageEngine hash) : e.clearAll.Agrees ∅ := by
  intro key
  simp

theorem Agrees.mset (h : e.Agrees m) (pairs : List (Bytes × Bytes)) :
    (BatchOperations.mset e pairs).1.Agrees (pairs.foldl (fun m p => m.insert p.1 p.2) m) := by
  rw [BatchOperations.mset_eq_setAll]
  induction pairs generalizing e m with
  | nil => exact h
  | cons p pairs ih => exact ih (h.set p.1 p.2)

end StorageEngine

theorem joinArgs_eq (first : Bytes) (rest : List Bytes) :
    joinArgs first rest = [space].intercalate (first :: rest) := by
  induction rest generalizing first with
  | nil => simp [joinArgs]
  | cons arg rest ih =>
    have hnext : joinArgs first (arg :: rest) = joinArgs (first ++ [space] ++ arg) rest := rfl
    rw [hnext,ih]
    cases rest with
    | nil => simp
    | cons a rest => simp [List.intercalate]

section
variable {hash : Bytes → Nat} {e : StorageEngine hash} {m : Map Bytes}

theorem foldl_exists (h : e.Agrees m) (ks : List Bytes) (n : Int) :
    ks.foldl (fun count key => if e.existsKey key then count+1 else count) n =
      n+(ks.countP (fun key => decide (key ∈ m)) : Nat) := by
  induction ks generalizing n with
  | nil => simp
  | cons key ks ih =>
    have hk : e.existsKey key = decide (key ∈ m) := by simp [h.mem_iff]
    rw [List.foldl_cons,ih,hk,List.countP_cons]
    by_cases hmem : key ∈ m
    · simp [hmem]
      omega
    · simp [hmem]

theorem mget_eq (h : e.Agrees m) (clock : Nat → Int) (ks : List Bytes) :
    BatchOperations.mget e clock ks = ks.map (fun key => m.lookup key) := by
  have hkeys : ks.zipIdx.map (fun k => m.lookup k.1) =
      (ks.zipIdx.map Prod.fst).map (fun key => m.lookup key) := by
    rw [List.map_map]
    rfl
  unfold BatchOperations.mget
  simp only [h.get_eq,hkeys]
  simp

theorem counted_eq (h : e.Agrees m) (now : Int) {key : Bytes} {delta : Int}
    (hd : InInt64 delta) (hfit : CounterFits m key delta) :
    counted now key delta e = .ok (integerResponse (counter m key+delta))
      (e.set key (Decimal.printInt (counter m key+delta))).1 := by
  have hvalue : CounterStore.parseValue (e.get now key) = .ok (counter m key) ∧
      InInt64 (counter m key+delta) := by
    rw [h.get_eq]
    unfold CounterFits at hfit
    unfold counter
    cases hl : m.lookup key with
    | none => simpa [CounterStore.parseValue] using hd
    | some raw =>
      rw [hl] at hfit
      obtain ⟨v,rfl,hv,hsum⟩ := hfit
      have hne : Decimal.printInt v ≠ [] := by
        intro hnil
        have := decimal_printInt v
        simp [hnil,decimal,unsign] at this
      simp [CounterStore.parseValue,hne,decimal_printInt,stoll_printInt hv,hsum]
  rw [counted,hvalue.1]
  simp only [wrap64_of_inInt64 hvalue.2,CounterStore.formatValue]

def Follows (e : StorageEngine hash) (reply : Bytes) (out : Map Bytes × Option Bytes) : Prop :=
  e.Agrees out.1 ∧ ∀ r, out.2 = some r → reply = r

theorem follows_some {reply : Bytes} (h : e.Agrees m) : Follows e reply (m,some reply) :=
  ⟨h,fun _ hr => Option.some.inj hr⟩

theorem follows_none {reply : Bytes} (h : e.Agrees m) : Follows e reply (m,none) :=
  ⟨h,fun _ hr => nomatch hr⟩

variable {cmd : ParsedCommand}

theorem handleSet_follows (h : e.Agrees m) (ht : cmd.type = .set) :
    Follows (handleSet cmd e).1 (handleSet cmd e).2 (interpret m cmd) := by
  simp only [interpret,ht,handleSet]
  obtain _ | ⟨key,_ | ⟨first,rest⟩⟩ := cmd.args
  · exact follows_some h
  · exact follows_some h
  · simp only [joinArgs_eq]
    exact follows_some (h.set _ _)

theorem handleGet_follows (h : e.Agrees m) (ht : cmd.type = .get) (now : Int) :
    Follows e (handleGet now cmd e) (interpret m cmd) := by
  simp only [interpret,ht,handleGet]
  obtain _ | ⟨key,_ | ⟨arg,rest⟩⟩ := cmd.args
  · exact follows_some h
  · simp only [h.get_eq]
    exact follows_some h
  · exact follows_some h

theorem handleDelete_follows (h : e.Agrees m) (ht : cmd.type = .delete) :
    Follows (handleDelete cmd e).1 (handleDelete cmd e).2 (interpret m cmd) := by
  simp only [interpret,ht,handleDelete]
  obtain _ | ⟨key,_ | ⟨arg,rest⟩⟩ := cmd.args
  · exact follows_some h
  · simp only [StorageEngine.remove_snd,h.mem_iff,decide_eq_true_eq]
    exact follows_some (h.remove _)
  · exact follows_some h

theorem handleExists_follows (h : e.Agrees m) (ht : cmd.type = .exist) :
    Follows e (handleExists cmd e) (interpret m cmd) := by
  simp only [interpret,ht,handleExists]
  cases cmd.args with
  | nil => exact follows_some h
  | cons key ks =>
    simp only [foldl_exists h,Int.zero_add]
    exact follows_some h

theorem handleMget_follows (h : e.Agrees m) (ht : cmd.type = .mget) (clock : Nat → Int) :
    Follows e (handleMget clock cmd e) (interpret m cmd) := by
  simp only [interpret,ht,handleMget]
  cases cmd.args with
  | nil => exact follows_some h
  | cons key ks =>
    simp only [mget_eq h,List.length_map,List.flatMap_map]
    exact follows_some h

theorem handleMset_follows (h : e.Agrees m) (ht : cmd.type = .mset) :
    Follows (handleMset cmd e).1 (handleMset cmd e).2 (interpret m cmd) := by
  simp only [interpret,ht,handleMset]
  split
  · exact follows_some h
  · exact follows_some (h.mset _)

theorem counted_follows (h : e.Agrees m) (now : Int) {key : Bytes} {delta : Int}
    (hd : InInt64 delta) (hfit : CounterFits m key delta) :
    OnReturn (fun reply u => Follows u reply (add m key delta)) (counted now key delta e) := by
  rw [counted_eq h now hd hfit]
  exact follows_some (h.set _ _)

theorem handleIncr_follows (h : e.Agrees m) (ht : cmd.type = .incr) (hadm : Admissible m cmd)
    (now : Int) :
    OnReturn (fun reply u => Follows u reply (interpret m cmd)) ((handleIncr now cmd).run e) := by
  simp only [Admissible,ht] at hadm
  simp only [interpret,ht,run_handleIncr]
  generalize cmd.args = args at hadm ⊢
  obtain _ | ⟨key,_ | ⟨arg,rest⟩⟩ := args
  · exact follows_some h
  · exact counted_follows h now (by decide) hadm
  · exact follows_some h

theorem handleDecr_follows (h : e.Agrees m) (ht : cmd.type = .decr) (hadm : Admissible m cmd)
    (now : Int) :
    OnReturn (fun reply u => Follows u reply (interpret m cmd)) ((handleDecr now cmd).run e) := by
  simp only [Admissible,ht] at hadm
  simp only [interpret,ht,run_handleDecr]
  generalize cmd.args = args at hadm ⊢
  obtain _ | ⟨key,_ | ⟨arg,rest⟩⟩ := args
  · exact follows_some h
  · exact counted_follows h now (by decide) hadm
  · exact follows_some h

theorem handleIncrby_follows (h : e.Agrees m) (ht : cmd.type = .incrby)
    (hadm : Admissible m cmd) (now : Int) :
    OnReturn (fun reply u => Follows u reply (interpret m cmd)) ((handleIncrby now cmd).run e) := by
  simp only [Admissible,ht] at hadm
  simp only [interpret,ht,run_handleIncrby]
  generalize cmd.args = args at hadm ⊢
  obtain _ | ⟨key,_ | ⟨amount,_ | ⟨arg,rest⟩⟩⟩ := args
  · exact follows_some h
  · exact follows_some h
  · obtain ⟨delta,hdec,hd,hfit⟩ := hadm
    simp only [stoll_decimal hdec hd,hdec,Option.getD_some]
    exact counted_follows h now hd hfit
  · exact follows_some h

end

namespace Server
variable {hash : Bytes → Nat}

theorem dispatch_follows {env : Env} {cmd : ParsedCommand} {s : Server hash} {m : Map Bytes}
    (h : s.storage.Agrees m) (hadm : Admissible m cmd) :
    OnReturn (fun reply t => Follows t.storage reply (interpret m cmd))
      ((dispatch env cmd).run s) := by
  rw [run_dispatch]
  have hother : interpret m cmd = (m,none) → ∀ reply, Follows s.storage reply (interpret m cmd) := by
    intro hnone reply
    rw [hnone]
    exact follows_none h
  cases ht : cmd.type
  case set => exact onReturn_focus (handleSet_follows h ht)
  case get => exact onReturn_focus (handleGet_follows h ht _)
  case delete => exact onReturn_focus (handleDelete_follows h ht)
  case exist => exact onReturn_focus (handleExists_follows h ht)
  case mget => exact onReturn_focus (handleMget_follows h ht _)
  case mset => exact onReturn_focus (handleMset_follows h ht)
  case incr => exact onReturn_focus (handleIncr_follows h ht hadm _)
  case decr => exact onReturn_focus (handleDecr_follows h ht hadm _)
  case incrby => exact onReturn_focus (handleIncrby_follows h ht hadm _)
  case dbsize =>
    refine onReturn_focus (?_ : Follows s.storage (handleDbsize s.storage) _)
    simp only [interpret,ht,handleDbsize,h.card_eq]
    exact follows_some h
  case flushdb =>
    refine onReturn_focus (?_ : Follows s.storage.clearAll okResponse _)
    simp only [interpret,ht]
    exact follows_some (StorageEngine.Agrees.clearAll _)
  case expire => simp [Admissible,ht] at hadm
  case scan =>
    exact onReturn_focus (onReturn_converting fun reply => hother (by simp [interpret,ht]) reply)
  all_goals exact hother (by simp [interpret,ht]) _

end Server
end VoltDBX
