import Mathlib

/-!
# Bit scans (`ffs`, `fls`)

The kernel's `ffs(x)` is the 1-based position of the lowest set bit of `x` and `fls(x)` that of
the highest, both `0` for `0`. Over `Nat` they are `padicValNat 2 x + 1` and `Nat.size x`.

The lemmas are those a power-of-two splitting loop needs: `ffs (x ||| 2 ^ k)` is at most
`k + 1` (a set bit at `k` caps the alignment), `ffs 0 = 0`, and both scans of `2 ^ k` are
`k + 1`.
-/

namespace Lib.Bits

/-- `ffs`: the 1-based position of the lowest set bit, `0` for `0`. -/
def ffs (x : Nat) : Nat := if x = 0 then 0 else padicValNat 2 x + 1

/-- `fls`: the 1-based position of the highest set bit, `0` for `0`. -/
def fls (x : Nat) : Nat := x.size

@[simp] theorem ffs_zero : ffs 0 = 0 := rfl

theorem ffs_pos {x : Nat} (hx : x ≠ 0) : 1 ≤ ffs x := by
  simp [ffs, hx]

@[simp] theorem ffs_two_pow (k : Nat) : ffs (2 ^ k) = k + 1 := by
  rw [ffs, if_neg (Nat.two_pow_pos k).ne', padicValNat.prime_pow]

@[simp] theorem fls_two_pow (k : Nat) : fls (2 ^ k) = k + 1 := Nat.size_pow

theorem fls_pos {x : Nat} (hx : 0 < x) : 1 ≤ fls x := Nat.size_pos.mpr hx

/-- The chunk `2 ^ (fls x - 1)` fits in `x`. -/
theorem two_pow_fls_sub_one_le {x : Nat} (hx : 0 < x) : 2 ^ (fls x - 1) ≤ x :=
  Nat.lt_size.mp (by have := fls_pos hx; unfold fls at this ⊢; omega)

/-- A set bit at position `k` caps the lowest set bit at `k`. -/
theorem ffs_or_two_pow_le (x k : Nat) : 1 ≤ ffs (x ||| 2 ^ k) ∧ ffs (x ||| 2 ^ k) ≤ k + 1 := by
  have hbit : (x ||| 2 ^ k).testBit k = true := by
    rw [Nat.testBit_or, Nat.testBit_two_pow_self, Bool.or_true]
  have hne : x ||| 2 ^ k ≠ 0 := by
    intro h
    rw [h, Nat.zero_testBit] at hbit
    exact Bool.false_ne_true hbit
  refine ⟨ffs_pos hne, ?_⟩
  rw [ffs, if_neg hne, Nat.add_le_add_iff_right]
  by_contra hlt
  -- `2 ^ (k + 1)` would divide it, clearing bit `k`
  have hdvd : 2 ^ (k + 1) ∣ x ||| 2 ^ k :=
    (padicValNat_dvd_iff_le hne).mpr (by omega)
  have hclear : (x ||| 2 ^ k).testBit k = false := by
    have hlow := Nat.testBit_mod_two_pow (x ||| 2 ^ k) (k + 1) k
    rw [Nat.mod_eq_zero_of_dvd hdvd, Nat.zero_testBit] at hlow
    simp only [Nat.lt_add_one, decide_true, Bool.true_and] at hlow
    exact hlow.symm
  rw [hclear] at hbit
  exact Bool.false_ne_true hbit

end Lib.Bits
