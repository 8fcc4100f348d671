import Mathlib.Data.Nat.Digits.Lemmas

/-!
Unsigned and signed decimal numerals as ASCII bytes: a printer, the value of a
digit string, and the fact that reading back the printed digits of a number
gives the number, whatever follows them.
-/

set_option autoImplicit false

namespace Decimal

def isDigit (c : UInt8) : Bool := decide (48 ≤ c.toNat) && decide (c.toNat ≤ 57)

def digitValue (c : UInt8) : Nat := c.toNat-48

def value (ds : List UInt8) : Nat := ds.foldl (fun n c => 10*n+digitValue c) 0

def digitByte (d : Nat) : UInt8 := UInt8.ofNat (48+d)

def print (n : Nat) : List UInt8 :=
  if n = 0 then [48] else (Nat.digits 10 n).reverse.map digitByte

def printInt : Int → List UInt8
  | .ofNat n => print n
  | .negSucc n => 45 :: print (n+1)

theorem digitByte_toNat {d : Nat} (h : d < 10) : (digitByte d).toNat = 48+d := by
  simp only [digitByte,UInt8.toNat_ofNat']
  omega

theorem isDigit_digitByte {d : Nat} (h : d < 10) : isDigit (digitByte d) = true := by
  simp only [isDigit,digitByte_toNat h,Bool.and_eq_true,decide_eq_true_eq]
  omega

theorem digitValue_digitByte {d : Nat} (h : d < 10) : digitValue (digitByte d) = d := by
  rw [digitValue,digitByte_toNat h]
  omega

theorem print_ne_nil (n : Nat) : print n ≠ [] := by
  unfold print
  split
  · simp
  · rename_i h
    simpa [Nat.digits_eq_nil_iff_eq_zero] using h

theorem print_isDigit {n : Nat} {c : UInt8} (h : c ∈ print n) : isDigit c = true := by
  unfold print at h
  split at h
  · simp only [List.mem_singleton] at h
    subst h
    rfl
  · obtain ⟨d,hd,rfl⟩ := List.mem_map.mp h
    have hlt : d < 10 := Nat.digits_lt_base (by decide) (List.mem_reverse.mp hd)
    exact isDigit_digitByte hlt

theorem foldl_digits {ds : List Nat} (h : ∀ d ∈ ds, d < 10) :
    (ds.reverse.map digitByte).foldl (fun n c => 10*n+digitValue c) 0 =
      Nat.ofDigits 10 ds := by
  induction ds with
  | nil => rfl
  | cons d ds ih =>
    have hd : d < 10 := h d (by simp)
    have ht := ih (fun x hx => h x (by simp [hx]))
    simp only [List.reverse_cons,List.map_append,List.foldl_append,ht,List.map_cons,
      List.map_nil,List.foldl_cons,List.foldl_nil,digitValue_digitByte hd,Nat.ofDigits_cons]
    omega

theorem value_print (n : Nat) : value (print n) = n := by
  unfold print
  split
  · rename_i h
    subst h
    rfl
  · rw [value,foldl_digits (fun d hd => Nat.digits_lt_base (by decide) hd)]
    exact Nat.ofDigits_digits 10 n

theorem print_injective {m n : Nat} (h : print m = print n) : m = n := by
  rw [← value_print m,h,value_print]

theorem takeWhile_digits {ds rest : List UInt8} (hd : ∀ c ∈ ds, isDigit c = true)
    (hr : ∀ c ∈ rest.head?, isDigit c = false) :
    (ds ++ rest).takeWhile isDigit = ds := by
  rw [List.takeWhile_append_of_pos hd]
  cases rest with
  | nil => simp
  | cons c rest =>
    have hc : isDigit c = false := hr c (by simp)
    simp [hc]

end Decimal
