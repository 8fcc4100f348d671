import Mathlib.Data.Nat.Bitwise

/-!
Regions of numbered spaces, and offsets rounded up to an alignment.
-/

set_option autoImplicit false

namespace Regions

structure Region (ι : Type) where
  space : ι
  start : Nat
  size : Nat
  deriving DecidableEq, Repr

variable {ι : Type}

def Apart (r s : Region ι) : Prop :=
  r.space ≠ s.space ∨ r.start+r.size ≤ s.start ∨ s.start+s.size ≤ r.start

theorem Apart.symm {r s : Region ι} (h : Apart r s) : Apart s r := by
  rcases h with h | h | h
  · exact Or.inl h.symm
  · exact Or.inr (Or.inr h)
  · exact Or.inr (Or.inl h)

theorem Apart.shrink {r s t : Region ι} (h : Apart r t) (hspace : s.space = r.space)
    (hstart : s.start = r.start) (hsize : s.size ≤ r.size) : Apart s t := by
  unfold Apart at h ⊢
  rw [hspace,hstart]
  rcases h with h | h | h
  · exact Or.inl h
  · exact Or.inr (Or.inl (by omega))
  · exact Or.inr (Or.inr h)

theorem Apart.within {r s t : Region ι} (h : Apart r t) (hspace : s.space = r.space)
    (hstart : r.start ≤ s.start) (hend : s.start+s.size ≤ r.start+r.size) : Apart s t := by
  unfold Apart at h ⊢
  rw [hspace]
  rcases h with h | h | h
  · exact Or.inl h
  · exact Or.inr (Or.inl (by omega))
  · exact Or.inr (Or.inr (by omega))

def alignUp (n a : Nat) : Nat := (n+a-1)/a*a

theorem dvd_alignUp (n a : Nat) : a ∣ alignUp n a := Nat.dvd_mul_left _ _

theorem le_alignUp (n : Nat) {a : Nat} (ha : 0 < a) : n ≤ alignUp n a := by
  have hmod := Nat.mod_lt (n+a-1) ha
  have hdiv := Nat.div_add_mod' (n+a-1) a
  unfold alignUp
  omega

theorem alignUp_lt (n : Nat) {a : Nat} (ha : 0 < a) : alignUp n a < n+a := by
  have hdiv := Nat.div_mul_le_self (n+a-1) a
  unfold alignUp
  omega

@[simp] theorem alignUp_zero (a : Nat) : alignUp 0 a = 0 := by
  unfold alignUp
  rcases Nat.eq_zero_or_pos a with rfl | ha
  · rfl
  · rw [Nat.div_eq_of_lt (by omega),Nat.zero_mul]

def extent : Nat → List (Nat × Nat) → Nat
  | o, [] => o
  | o, (size,a) :: rs => extent (alignUp o a+size) rs

theorem extent_append (o : Nat) (rs qs : List (Nat × Nat)) :
    extent o (rs ++ qs) = extent (extent o rs) qs := by
  induction rs generalizing o with
  | nil => rfl
  | cons r rs ih => exact ih _

theorem le_extent {rs : List (Nat × Nat)} (h : ∀ r ∈ rs, 0 < r.2) (o : Nat) :
    o ≤ extent o rs := by
  induction rs generalizing o with
  | nil => exact le_rfl
  | cons r rs ih =>
    have hstart := le_alignUp o (h r (by simp))
    have hrest := ih (fun q hq => h q (by simp [hq])) (alignUp o r.2+r.1)
    rw [extent]
    omega

theorem extent_le_size {rs qs : List (Nat × Nat)} {size a : Nat} (ha : 0 < a)
    (hqs : ∀ q ∈ qs, 0 < q.2) (h : extent 0 (rs ++ (size,a) :: qs) ≤ size) :
    extent 0 rs = 0 ∧ extent size qs ≤ size := by
  rw [extent_append,extent] at h
  have hend := le_extent hqs (alignUp (extent 0 rs) a+size)
  have hstart := le_alignUp (extent 0 rs) ha
  have hzero : alignUp (extent 0 rs) a = 0 := by omega
  rw [hzero,Nat.zero_add] at h
  exact ⟨by omega,h⟩

theorem and_high_mask {x k w : Nat} (hx : x < 2^w) (hk : k ≤ w) :
    x &&& (2^w-1-(2^k-1)) = x/2^k*2^k := by
  have hlow : 2^k-1 < 2^w := by
    have hle : 2^k ≤ 2^w := Nat.pow_le_pow_right (by decide) hk
    have hpos := Nat.two_pow_pos k
    omega
  have hmask : 2^w-1-(2^k-1) = 2^w-((2^k-1)+1) := by omega
  apply Nat.eq_of_testBit_eq
  intro i
  rw [hmask,Nat.testBit_and,Nat.testBit_two_pow_sub_succ hlow,Nat.testBit_two_pow_sub_one,
    Nat.testBit_mul_two_pow,Nat.testBit_div_two_pow]
  by_cases hi : k ≤ i
  · by_cases hw : i < w
    · simp [hi,hw]
    · have hhigh : x.testBit i = false :=
        Nat.testBit_lt_two_pow (Nat.lt_of_lt_of_le hx (Nat.pow_le_pow_right (by decide) (by omega)))
      simp [hi,hw,hhigh]
  · have hlt : i < k := by omega
    simp [hi,hlt]

theorem toNat_align {x a : UInt64} {k : Nat} (ha : a.toNat = 2^k) (h : x.toNat+a.toNat < 2^64) :
    ((x+a-1) &&& ~~~(a-1)).toNat = alignUp x.toNat a.toNat := by
  have hpos : 0 < a.toNat := ha ▸ Nat.two_pow_pos k
  have hone : (1 : UInt64).toNat = 1 := rfl
  have hsum : (x+a).toNat = x.toNat+a.toNat := by
    rw [UInt64.toNat_add,Nat.mod_eq_of_lt h]
  have hlast : (x+a-1).toNat = x.toNat+a.toNat-1 := by
    rw [UInt64.toNat_sub_of_le _ _ (by rw [UInt64.le_iff_toNat_le,hsum,hone]; omega),hsum,hone]
  have hlow : (a-1).toNat = 2^k-1 := by
    rw [UInt64.toNat_sub_of_le _ _ (by rw [UInt64.le_iff_toNat_le,hone]; omega),ha,hone]
  have hk : k ≤ 64 := by
    have hlt : 2^k < 2^64 := by omega
    exact Nat.le_of_lt ((Nat.pow_lt_pow_iff_right (by decide)).mp hlt)
  rw [UInt64.toNat_and,UInt64.toNat_not,hlast,hlow,show UInt64.size = 2^64 from rfl,
    and_high_mask (by omega) hk,alignUp,ha]

end Regions
