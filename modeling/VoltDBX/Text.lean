import Mathlib.Data.List.TakeWhile
import VoltDBX.Decimal

/-!
Byte strings and the C++ library conversions the server applies to them:
`std::isspace` and `std::toupper` in the C locale, `std::to_string`,
`std::stoll`, `std::stoull` and `operator>>` into a `std::size_t`.
-/

set_option autoImplicit false

namespace VoltDBX

abbrev Bytes := List UInt8

def bytes (s : String) : Bytes := s.toList.map Char.toUInt8

abbrev lf : UInt8 := 10
abbrev cr : UInt8 := 13
abbrev space : UInt8 := 32

def crlf : Bytes := [cr,lf]

def isspace (c : UInt8) : Bool :=
  decide (c.toNat = 32) || decide (9 ≤ c.toNat) && decide (c.toNat ≤ 13)

def toupper (c : UInt8) : UInt8 :=
  if 97 ≤ c.toNat ∧ c.toNat ≤ 122 then c-32 else c

inductive Raised where
  | invalidArgument
  | outOfRange
  deriving DecidableEq, Repr

def InInt64 (v : Int) : Prop := -2^63 ≤ v ∧ v < 2^63

instance (v : Int) : Decidable (InInt64 v) := inferInstanceAs (Decidable (_ ∧ _))

/-- Two's complement wrap-around of 64-bit signed arithmetic. -/
def wrap64 (v : Int) : Int := Int.bmod v (2^64)

theorem wrap64_of_inInt64 {v : Int} (h : InInt64 v) : wrap64 v = v := by
  unfold InInt64 at h
  unfold wrap64
  rw [Int.bmod_def]
  norm_num at *
  split <;> omega

/-- The sign and the digits `strtoll` and `strtoull` see: blanks are skipped,
one sign is taken, and the digits end at the first other byte. -/
def numeral (s : Bytes) : Bool × Bytes :=
  match s.dropWhile isspace with
  | 45 :: r => (true,r.takeWhile Decimal.isDigit)
  | 43 :: r => (false,r.takeWhile Decimal.isDigit)
  | r => (false,r.takeWhile Decimal.isDigit)

def signed (neg : Bool) (n : Nat) : Int := if neg then -(n : Int) else n

def stoll (s : Bytes) : Except Raised Int :=
  if (numeral s).2 = [] then .error .invalidArgument
  else if InInt64 (signed (numeral s).1 (Decimal.value (numeral s).2)) then
    .ok (signed (numeral s).1 (Decimal.value (numeral s).2))
  else .error .outOfRange

/-- The range check is on the magnitude; a minus sign then negates modulo `2^64`. -/
def stoull (s : Bytes) : Except Raised Nat :=
  if (numeral s).2 = [] then .error .invalidArgument
  else if Decimal.value (numeral s).2 < 2^64 then
    .ok (if (numeral s).1 then (2^64-Decimal.value (numeral s).2) % 2^64
      else Decimal.value (numeral s).2)
  else .error .outOfRange

/-- `stream >> count`: text without digits leaves the zero the variable held.
A magnitude past `2^64` saturates in the stream, with either sign. Without a minus it is
kept as it is here; both bounds are larger than the number of lines of any file. -/
def extractSize (s : Bytes) : Nat :=
  if (numeral s).1 then
    if 2^64 ≤ Decimal.value (numeral s).2 then 2^64-1
    else (2^64-Decimal.value (numeral s).2) % 2^64
  else Decimal.value (numeral s).2

theorem split_first {sep : UInt8} {p : UInt8 → Bool} (hp : ∀ c, p c = decide (c ≠ sep))
    {a : Bytes} (ha : sep ∉ a) (b : Bytes) :
    (a ++ sep :: b).takeWhile p = a ∧ (a ++ sep :: b).dropWhile p = sep :: b := by
  have hall : ∀ c ∈ a, p c = true := by
    intro c hc
    have hne : c ≠ sep := fun he => ha (he ▸ hc)
    simp [hp,hne]
  rw [List.takeWhile_append_of_pos hall,List.dropWhile_append_of_pos hall]
  simp [hp]

theorem notMem_takeWhile {sep : UInt8} {p : UInt8 → Bool} (hp : ∀ c, p c = decide (c ≠ sep))
    (s : Bytes) : sep ∉ s.takeWhile p := by
  intro hmem
  have hsep := List.mem_takeWhile_imp hmem
  simp [hp] at hsep

theorem head_dropWhile {sep : UInt8} {p : UInt8 → Bool} (hp : ∀ c, p c = decide (c ≠ sep))
    {s : Bytes} {c : UInt8} {b : Bytes} (h : s.dropWhile p = c :: b) : c = sep := by
  have hne : s.dropWhile p ≠ [] := by simp [h]
  have hhead := List.head_dropWhile_not p hne
  simpa [h,hp] using hhead

inductive SignText : Bool → Bytes → Prop where
  | none : SignText false []
  | plus : SignText false [43]
  | minus : SignText true [45]

/-- `s` is blanks, a sign, the digits `ds` and a tail that does not go on with
a digit. -/
structure Numeral (s : Bytes) (neg : Bool) (ds : Bytes) : Prop where
  digits : ∀ c ∈ ds, Decimal.isDigit c = true
  nonempty : ds ≠ []
  split : ∃ ws sign rest, s = ws ++ sign ++ ds ++ rest ∧ (∀ c ∈ ws, isspace c = true) ∧
    SignText neg sign ∧ ∀ c ∈ rest.head?, Decimal.isDigit c = false

def AcceptsLong (s : Bytes) : Prop :=
  ∃ neg ds, Numeral s neg ds ∧ InInt64 (signed neg (Decimal.value ds))

def AcceptsUnsigned (s : Bytes) : Prop :=
  ∃ neg ds, Numeral s neg ds ∧ Decimal.value ds < 2^64

theorem isDigit_not_isspace {c : UInt8} (h : Decimal.isDigit c = true) : isspace c = false := by
  simp only [Decimal.isDigit,Bool.and_eq_true,decide_eq_true_eq] at h
  simp only [isspace,Bool.or_eq_false_iff,Bool.and_eq_false_iff,decide_eq_false_iff_not]
  omega

theorem isDigit_ne_sign {c : UInt8} (h : Decimal.isDigit c = true) : c ≠ 45 ∧ c ≠ 43 := by
  constructor <;> rintro rfl <;> simp [Decimal.isDigit] at h

theorem numeral_of_split {ws sign ds rest : Bytes} {neg : Bool}
    (hw : ∀ c ∈ ws, isspace c = true) (hs : SignText neg sign)
    (hd : ∀ c ∈ ds, Decimal.isDigit c = true) (hne : ds ≠ [])
    (hr : ∀ c ∈ rest.head?, Decimal.isDigit c = false) :
    numeral (ws ++ sign ++ ds ++ rest) = (neg,ds) := by
  obtain ⟨d,ds,rfl⟩ := List.exists_cons_of_ne_nil hne
  have hdd : Decimal.isDigit d = true := hd d (by simp)
  have hblank := isDigit_not_isspace hdd
  have htake := Decimal.takeWhile_digits hd hr
  have hdrop : (ws ++ sign ++ d :: ds ++ rest).dropWhile isspace =
      sign ++ d :: ds ++ rest := by
    rw [List.append_assoc,List.append_assoc,List.dropWhile_append_of_pos hw]
    cases hs with
    | none => simp [hblank]
    | plus => simp [isspace]
    | minus => simp [isspace]
  unfold numeral
  rw [hdrop]
  cases hs with
  | none =>
    have hsign := isDigit_ne_sign hdd
    simp only [List.nil_append,List.cons_append] at htake ⊢
    split
    · rename_i heq; exact absurd (List.cons.inj heq).1 hsign.1
    · rename_i heq; exact absurd (List.cons.inj heq).1 hsign.2
    · rw [htake]
  | plus => simp only [List.cons_append,List.nil_append] at htake ⊢; simp [htake]
  | minus => simp only [List.cons_append,List.nil_append] at htake ⊢; simp [htake]

theorem head_dropWhile_digits (r : Bytes) :
    ∀ c ∈ (r.dropWhile Decimal.isDigit).head?, Decimal.isDigit c = false := by
  induction r with
  | nil => simp
  | cons c r ih =>
    by_cases h : Decimal.isDigit c = true
    · simpa [List.dropWhile_cons,h] using ih
    · simp [h]

theorem split_of_numeral (s : Bytes) :
    ∃ ws sign rest, s = ws ++ sign ++ (numeral s).2 ++ rest ∧
      (∀ c ∈ ws, isspace c = true) ∧ SignText (numeral s).1 sign ∧
      ∀ c ∈ rest.head?, Decimal.isDigit c = false := by
  have hs : s = s.takeWhile isspace ++ s.dropWhile isspace :=
    (List.takeWhile_append_dropWhile (p := isspace)).symm
  have hw : ∀ c ∈ s.takeWhile isspace, isspace c = true := fun c hc =>
    List.mem_takeWhile_imp hc
  have hbody : ∀ r : Bytes, r.takeWhile Decimal.isDigit ++ r.dropWhile Decimal.isDigit = r :=
    fun r => List.takeWhile_append_dropWhile
  unfold numeral
  split
  · rename_i r heq
    refine ⟨_,[45],r.dropWhile Decimal.isDigit,?_,hw,.minus,head_dropWhile_digits r⟩
    rw [List.append_assoc,hbody]
    simpa [heq] using hs
  · rename_i r heq
    refine ⟨_,[43],r.dropWhile Decimal.isDigit,?_,hw,.plus,head_dropWhile_digits r⟩
    rw [List.append_assoc,hbody]
    simpa [heq] using hs
  · refine ⟨_,[],(s.dropWhile isspace).dropWhile Decimal.isDigit,?_,hw,.none,
      head_dropWhile_digits _⟩
    rw [List.append_assoc,hbody]
    simp

theorem numeral_digits (s : Bytes) : ∀ c ∈ (numeral s).2, Decimal.isDigit c = true := by
  intro c hc
  unfold numeral at hc
  split at hc <;> exact List.mem_takeWhile_imp hc

/-- The grammar determines the sign and the digits, and `numeral` finds them. -/
theorem numeral_iff (s : Bytes) (neg : Bool) (ds : Bytes) :
    Numeral s neg ds ↔ numeral s = (neg,ds) ∧ ds ≠ [] := by
  constructor
  · rintro ⟨hd,hne,ws,sign,rest,rfl,hw,hs,hr⟩
    exact ⟨numeral_of_split hw hs hd hne hr,hne⟩
  · rintro ⟨heq,hne⟩
    have hsplit := split_of_numeral s
    have hdig := numeral_digits s
    rw [heq] at hsplit hdig
    exact ⟨hdig,hne,hsplit⟩

theorem stoll_ok_iff (s : Bytes) : (∃ v, stoll s = .ok v) ↔ AcceptsLong s := by
  unfold AcceptsLong stoll
  constructor
  · rintro ⟨v,hv⟩
    by_cases hne : (numeral s).2 = []
    · simp [hne] at hv
    · by_cases hin : InInt64 (signed (numeral s).1 (Decimal.value (numeral s).2))
      · exact ⟨_,_,(numeral_iff s _ _).mpr ⟨rfl,hne⟩,hin⟩
      · simp [hne,hin] at hv
  · rintro ⟨neg,ds,hn,hin⟩
    obtain ⟨heq,hne⟩ := (numeral_iff s neg ds).mp hn
    exact ⟨signed neg (Decimal.value ds),by simp [heq,hne,hin]⟩

theorem stoull_ok_iff (s : Bytes) : (∃ v, stoull s = .ok v) ↔ AcceptsUnsigned s := by
  unfold AcceptsUnsigned stoull
  constructor
  · rintro ⟨v,hv⟩
    by_cases hne : (numeral s).2 = []
    · simp [hne] at hv
    · by_cases hin : Decimal.value (numeral s).2 < 2^64
      · exact ⟨_,_,(numeral_iff s _ _).mpr ⟨rfl,hne⟩,hin⟩
      · simp only [hne,hin,if_false] at hv
        cases hv
  · rintro ⟨neg,ds,hn,hin⟩
    obtain ⟨heq,hne⟩ := (numeral_iff s neg ds).mp hn
    rw [heq]
    simp only [hne,hin,if_true,if_false]
    exact ⟨_,rfl⟩

theorem numeral_print (n : Nat) : numeral (Decimal.print n) = (false,Decimal.print n) := by
  have h : numeral ([] ++ [] ++ Decimal.print n ++ []) = (false,Decimal.print n) :=
    numeral_of_split (by simp) .none (fun c hc => Decimal.print_isDigit hc)
      (Decimal.print_ne_nil n) (by simp)
  simpa using h

theorem numeral_minus_print (n : Nat) :
    numeral (45 :: Decimal.print n) = (true,Decimal.print n) := by
  have h : numeral ([] ++ [45] ++ Decimal.print n ++ []) = (true,Decimal.print n) :=
    numeral_of_split (by simp) .minus (fun c hc => Decimal.print_isDigit hc)
      (Decimal.print_ne_nil n) (by simp)
  simpa using h

theorem stoll_inInt64 {s : Bytes} {v : Int} (h : stoll s = .ok v) : InInt64 v := by
  unfold stoll at h
  split at h
  · cases h
  · split at h
    · rename_i hin
      cases h
      exact hin
    · cases h

theorem stoll_printInt {v : Int} (h : InInt64 v) : stoll (Decimal.printInt v) = .ok v := by
  cases v with
  | ofNat n =>
    have hn : InInt64 (n : Int) := h
    simp [stoll,Decimal.printInt,numeral_print,Decimal.print_ne_nil,Decimal.value_print,
      signed,hn]
  | negSucc n =>
    have hv : -((n+1 : Nat) : Int) = Int.negSucc n := by omega
    simp only [stoll,Decimal.printInt,numeral_minus_print,Decimal.print_ne_nil,
      Decimal.value_print,signed,if_true,if_false,hv,h]

theorem stoull_print {n : Nat} (h : n < 2^64) : stoull (Decimal.print n) = .ok n := by
  simp only [stoull,numeral_print,Decimal.print_ne_nil,Decimal.value_print,h,if_true,if_false]
  rfl

@[simp] theorem extractSize_print (n : Nat) : extractSize (Decimal.print n) = n := by
  simp [extractSize,numeral_print,Decimal.value_print]

end VoltDBX
