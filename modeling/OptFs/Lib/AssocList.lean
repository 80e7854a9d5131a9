import Mathlib

/-!
# Association lists with distinct keys

A list of key-value pairs read as a map through `List.lookup`, which takes the first pair with
the key. A key no pair has reads as nothing (`lookup_eq_none`), and a pair whose key no other
pair has is read wherever it stands in the list (`lookup_middle`): so inserting it among the
others, replacing the value of a pair in place and erasing a pair change the map at that one
key only.
-/

namespace Lib.AssocList

variable {α β : Type} [BEq α] [LawfulBEq α] {k k' : α} {v : β} {l A B : List (α × β)}

theorem lookup_eq_none (h : k ∉ l.map Prod.fst) : l.lookup k = none := by
  rw [List.lookup_eq_none_iff]
  intro p hp
  rw [bne_iff_ne]
  rintro rfl
  exact h (List.mem_map_of_mem hp)

variable [DecidableEq α]

/-- A pair whose key no other pair has is read wherever it stands. -/
theorem lookup_middle (h : k' ∉ (A ++ B).map Prod.fst) :
    (A ++ (k', v) :: B).lookup k = if k = k' then some v else (A ++ B).lookup k := by
  rw [List.lookup_append, List.lookup_cons, List.lookup_append]
  by_cases hk : k = k'
  · -- the key is not in `A`, so the pair is the first with it
    subst hk
    have hA : A.lookup k = none := lookup_eq_none fun hm => h (by simp_all)
    rw [hA, beq_self_eq_true, if_pos rfl, Option.none_or]
  · rw [beq_false_of_ne hk, if_neg hk]

end Lib.AssocList
