import Mathlib
import OptFs.Lib.RbTree

/-!
# Keys covered by a list of ranges

A value `x` of the list stands for the `count x` consecutive keys from `start x`, and the
list covers a key when one of its values holds it. Trees of ranges (zones, freed extents)
are read through their in-order list, and an operation on such a tree changes the covered
keys only in the ways these lemmas follow: a range put in among the others
(`covered_cons`, `covered_append`), or two neighbours replaced by one range holding the keys
of both (`covered_merge`), which is what joining two ranges of which one ends where the
other starts gives (`holds_merged`). On a red-black tree of ranges read by in-order index,
that replacement is a write to one neighbour and an erase of the other
(`covered_eraseAt_setAt_succ`, `covered_eraseAt_succ_setAt`).
-/

namespace Lib.Cover

variable {α : Type} (start count : α → Nat)

/-- `x` holds key `k`. -/
def Holds (x : α) (k : Nat) : Prop := start x ≤ k ∧ k < start x + count x

instance (x : α) (k : Nat) : Decidable (Holds start count x k) :=
  inferInstanceAs (Decidable (_ ∧ _))

/-- Some value of the list holds key `k`. -/
def Covered (xs : List α) (k : Nat) : Prop := ∃ x ∈ xs, Holds start count x k

instance (xs : List α) (k : Nat) : Decidable (Covered start count xs k) :=
  inferInstanceAs (Decidable (∃ x ∈ xs, Holds start count x k))

variable {start count}

@[simp] theorem covered_nil (k : Nat) : ¬ Covered start count [] k := by
  simp [Covered]

@[simp] theorem covered_cons (x : α) (xs : List α) (k : Nat) :
    Covered start count (x :: xs) k ↔ Holds start count x k ∨ Covered start count xs k := by
  simp [Covered]

@[simp] theorem covered_append (xs ys : List α) (k : Nat) :
    Covered start count (xs ++ ys) k ↔ Covered start count xs k ∨ Covered start count ys k := by
  simp [Covered, or_and_right, exists_or]

/-- Replacing two neighbours by one value that holds the keys of both keeps the covered
keys. -/
theorem covered_merge {pre post : List α} {a b m : α}
    (hm : ∀ k, Holds start count m k ↔ Holds start count a k ∨ Holds start count b k) (k : Nat) :
    Covered start count (pre ++ m :: post) k ↔ Covered start count (pre ++ a :: b :: post) k := by
  simp only [covered_append, covered_cons, hm, or_assoc]

/-- A range from the start of `a` as long as `a` and `b` together, where `b` starts as `a`
ends, holds exactly their keys. -/
theorem holds_merged {a b m : α} (hab : start a + count a = start b) (hs : start m = start a)
    (hc : count m = count a + count b) (k : Nat) :
    Holds start count m k ↔ Holds start count a k ∨ Holds start count b k := by
  unfold Holds
  omega

section Tree

open Lib.RbTree

/-- Writing a value that holds the keys of two neighbours over the second and erasing the
first keeps the keys the tree covers. -/
theorem covered_eraseAt_setAt_succ {t : RbNode α} {k : Nat} {a b m : α}
    (ha : getAt t k = some a) (hb : getAt t (k + 1) = some b)
    (hm : ∀ k, Holds start count m k ↔ Holds start count a k ∨ Holds start count b k) (i : Nat) :
    Covered start count (eraseAt (setAt t (k + 1) m) k).inorder i ↔
      Covered start count t.inorder i := by
  obtain ⟨pre, post, hsplit, rfl⟩ := inorder_split_of_getAt ha hb
  rw [inorder_eraseAt_setAt_succ hsplit, hsplit]
  exact covered_merge hm i

/-- Writing a value that holds the keys of two neighbours over the first and erasing the
second keeps the keys the tree covers. -/
theorem covered_eraseAt_succ_setAt {t : RbNode α} {k : Nat} {a b m : α}
    (ha : getAt t k = some a) (hb : getAt t (k + 1) = some b)
    (hm : ∀ k, Holds start count m k ↔ Holds start count a k ∨ Holds start count b k) (i : Nat) :
    Covered start count (eraseAt (setAt t k m) (k + 1)).inorder i ↔
      Covered start count t.inorder i := by
  obtain ⟨pre, post, hsplit, rfl⟩ := inorder_split_of_getAt ha hb
  rw [inorder_eraseAt_succ_setAt hsplit, hsplit]
  exact covered_merge hm i

end Tree

end Lib.Cover
