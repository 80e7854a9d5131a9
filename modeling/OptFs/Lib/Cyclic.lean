import Mathlib

/-!
# Positions on a circular log

A circular log occupies the positions `[first, last)`; a cursor that reaches `last`
wraps to `first`. This module gives the forward step (`next`), the one-shot wrap used
by readers that add a count to a cursor (`wrap`), and the forward distance between two
positions (`dist`), with the rules the bookkeeping proofs use:

* a distance is below the ring size (`dist_lt`), and zero only on equal positions;
* stepping the target forward adds one to the distance (`dist_next`);
* distances add along the ring (`dist_add`), and moving the origin forward keeps their
  order (`dist_le_dist_of_origin`);
* `dist` is the difference of positions modulo the ring size (`dist_eq_emod`).
-/

namespace Lib.Cyclic

/-- A position of the ring `[first, last)`. -/
def Mem (first last x : Nat) : Prop := first ≤ x ∧ x < last

instance (first last x : Nat) : Decidable (Mem first last x) :=
  inferInstanceAs (Decidable (_ ∧ _))

/-- One step forward: `x++`, and back to `first` on reaching `last`. -/
def next (first last x : Nat) : Nat := if x + 1 = last then first else x + 1

/-- Bring a cursor that ran past `last` back by one turn of the ring. -/
def wrap (first last x : Nat) : Nat := if x ≥ last then x - (last - first) else x

/-- Forward distance from `a` to `b`: how many steps of `next` lead from `a` to `b`. -/
def dist (first last a b : Nat) : Nat := if a ≤ b then b - a else b + (last - first) - a

section

variable {first last : Nat}

theorem next_mem {x : Nat} (h : Mem first last x) : Mem first last (next first last x) := by
  unfold next Mem at *
  split <;> omega

@[simp] theorem dist_self (a : Nat) : dist first last a a = 0 := by
  simp [dist]

theorem dist_lt {a b : Nat} (ha : Mem first last a) (hb : Mem first last b) :
    dist first last a b < last - first := by
  unfold dist Mem at *
  split <;> omega

/-- Moving the target one step forward adds one to the distance, unless that would close
the full circle. -/
theorem dist_next {a b : Nat} (ha : Mem first last a) (hb : Mem first last b)
    (hroom : dist first last a b + 1 < last - first) :
    dist first last a (next first last b) = dist first last a b + 1 := by
  unfold dist next Mem at *
  by_cases hab : a ≤ b <;> by_cases hl : b + 1 = last <;>
    simp only [hab, hl, if_true, if_false] at hroom ⊢ <;> split_ifs <;> omega

/-- Distances add along the ring: `b` lies on the way from `a` to `c`. -/
theorem dist_add {a b c : Nat} (ha : Mem first last a) (hb : Mem first last b)
    (hc : Mem first last c) (hbc : dist first last a b ≤ dist first last a c) :
    dist first last a b + dist first last b c = dist first last a c := by
  unfold dist Mem at *
  by_cases hab : a ≤ b <;> by_cases hbc' : b ≤ c <;> by_cases hac : a ≤ c <;>
    simp only [hab, hbc', hac, if_true, if_false] at hbc ⊢ <;> omega

/-- Moving the origin forward to `p` keeps the order of the positions that lie at or after
`p`: what the tail of a log sees in order, a later tail sees in the same order. -/
theorem dist_le_dist_of_origin {a p x y : Nat} (ha : Mem first last a) (hp : Mem first last p)
    (hx : Mem first last x) (hy : Mem first last y) (hpx : dist first last a p ≤ dist first last a x)
    (hxy : dist first last a x ≤ dist first last a y) :
    dist first last p x ≤ dist first last p y := by
  have hx' := dist_add ha hp hx hpx
  have hy' := dist_add ha hp hy (le_trans hpx hxy)
  omega

/-- The forward distance is the difference of the positions modulo the ring size. -/
theorem dist_eq_emod {a b : Nat} (ha : Mem first last a) (hb : Mem first last b) :
    (dist first last a b : Int) = ((b : Int) - a) % ((last - first : Nat) : Int) := by
  unfold dist Mem at *
  split
  · rw [Int.emod_eq_of_lt (by omega) (by omega)]
    omega
  · -- `b` lies behind `a`: one turn of the ring brings the difference into range
    rw [Int.emod_eq_add_self_emod, Int.emod_eq_of_lt (by omega) (by omega)]
    omega

theorem wrap_of_lt {x : Nat} (h : x < last) : wrap first last x = x := by
  unfold wrap
  rw [if_neg (by omega)]

theorem wrap_succ_eq_next {x : Nat} (h : Mem first last x) :
    wrap first last (x + 1) = next first last x := by
  unfold wrap next Mem at *
  split_ifs <;> omega

end

end Lib.Cyclic
