import Mathlib.Data.List.TakeWhile
import VoltDBX.Text

/-!
Command lines: protocol/parser.cpp and protocol/command.cpp.
-/

set_option autoImplicit false

namespace VoltDBX

inductive CommandType where
  | unknown
  | ping
  | get
  | set
  | delete
  | exist
  | expire
  | subscribe
  | publish
  | info
  | mget
  | mset
  | incr
  | decr
  | incrby
  | scan
  | auth
  | config
  | flushdb
  | dbsize
  | bgrewriteaof
  deriving DecidableEq, Repr

structure ParsedCommand where
  type : CommandType
  name : Bytes
  args : List Bytes
  deriving DecidableEq, Repr

def upper (s : Bytes) : Bytes := s.map toupper

def commandTypeFromName (name : Bytes) : CommandType :=
  let key := upper name
  if key = bytes "PING" then .ping
  else if key = bytes "GET" then .get
  else if key = bytes "SET" then .set
  else if key = bytes "DEL" ∨ key = bytes "DELETE" then .delete
  else if key = bytes "EXISTS" then .exist
  else if key = bytes "EXPIRE" then .expire
  else if key = bytes "SUBSCRIBE" then .subscribe
  else if key = bytes "PUBLISH" then .publish
  else if key = bytes "INFO" then .info
  else if key = bytes "MGET" then .mget
  else if key = bytes "MSET" then .mset
  else if key = bytes "INCR" then .incr
  else if key = bytes "DECR" then .decr
  else if key = bytes "INCRBY" then .incrby
  else if key = bytes "SCAN" then .scan
  else if key = bytes "AUTH" then .auth
  else if key = bytes "CONFIG" then .config
  else if key = bytes "FLUSHDB" then .flushdb
  else if key = bytes "DBSIZE" then .dbsize
  else if key = bytes "BGREWRITEAOF" then .bgrewriteaof
  else .unknown

def notSpace (c : UInt8) : Bool := !isspace c

/-- Both index loops: blanks at the start, then blanks at the end of what is left. -/
def trim (s : Bytes) : Bytes :=
  ((s.dropWhile isspace).reverse.dropWhile isspace).reverse

def extractToken (s : Bytes) : Option (Bytes × Bytes) :=
  match s.dropWhile isspace with
  | [] => none
  | c :: cs => some ((c :: cs).takeWhile notSpace,(c :: cs).dropWhile notSpace)

/-- Every extraction takes at least one byte, so the length bounds their number. -/
def extractTokens : Nat → Bytes → List Bytes
  | 0, _ => []
  | fuel+1, s =>
    match extractToken s with
    | none => []
    | some (token,rest) => token :: extractTokens fuel rest

def tokenize (line : Bytes) : List Bytes := extractTokens line.length line

def parseLine (raw : Bytes) : Option ParsedCommand :=
  if trim raw = [] then none
  else match tokenize (trim raw) with
    | [] => none
    | name :: args => some ⟨commandTypeFromName name,name,args⟩

/-- What the tokeniser can produce: at least one byte, none of them blank. -/
structure IsToken (s : Bytes) : Prop where
  nonempty : s ≠ []
  solid : ∀ c ∈ s, isspace c = false

theorem extractToken_isToken {s token rest : Bytes}
    (h : extractToken s = some (token,rest)) : IsToken token := by
  unfold extractToken at h
  split at h
  · simp at h
  · rename_i c cs heq
    simp only [Option.some.injEq,Prod.mk.injEq] at h
    obtain ⟨rfl,-⟩ := h
    have hc : isspace c = false := by
      have hne : s.dropWhile isspace ≠ [] := by simp [heq]
      simpa [heq] using List.head_dropWhile_not isspace hne
    constructor
    · simp [notSpace,hc]
    · intro d hd
      simpa [notSpace] using List.mem_takeWhile_imp hd

theorem extractTokens_isToken (fuel : Nat) {s token : Bytes}
    (h : token ∈ extractTokens fuel s) : IsToken token := by
  induction fuel generalizing s with
  | zero => simp [extractTokens] at h
  | succ fuel ih =>
    cases he : extractToken s with
    | none => simp [extractTokens,he] at h
    | some result =>
      obtain ⟨tok,rest⟩ := result
      simp only [extractTokens,he,List.mem_cons] at h
      rcases h with rfl | h
      · exact extractToken_isToken he
      · exact ih h

theorem parseLine_args {raw : Bytes} {cmd : ParsedCommand} (h : parseLine raw = some cmd) :
    ∀ a ∈ cmd.args, IsToken a := by
  unfold parseLine at h
  split at h
  · simp at h
  · split at h
    · simp at h
    · rename_i name args heq
      simp only [Option.some.injEq] at h
      subst h
      intro a ha
      exact extractTokens_isToken _ (show a ∈ tokenize (trim raw) by simp [heq,ha])

theorem IsToken.notMem_lf {s : Bytes} (h : IsToken s) : lf ∉ s := by
  intro hmem
  exact absurd (h.solid lf hmem) (by decide)

end VoltDBX
