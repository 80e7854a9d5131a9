import Mathlib

/-!
# Exchange sorts of an array by a key

The two phases of a comb sort as the kernel runs them: gap passes, which compare the
elements a gap apart from the top of the array down and swap a pair when its upper element
has the smaller key; then bubble passes of adjacent comparisons, from the top down, until a
pass swaps nothing. A loop that runs from the top of the array down is written as a
recursion whose recursive call passes over the part above the current index first.

Every pass permutes the array. A bubble pass leaves a least element in front, and on an
array that starts with a least element it passes over the rest only; so `length + 1` bubble
passes sort any array, the last of them swapping nothing (`bubbleLoop_sorts`).
-/

namespace OptFs.Lib.CombSort

variable {α β : Type} [LinearOrder β] (key : α → β)

/-- `swap(*p, *q)` on the array. -/
def swapAt (l : List α) (i j : Nat) : List α := (l.toArray.swapIfInBounds i j).toList

omit [LinearOrder β] in
theorem swapAt_perm (l : List α) (i j : Nat) : (swapAt l i j).Perm l := by
  unfold swapAt
  rw [Array.swapIfInBounds_def]
  split_ifs with hi hj
  · exact Array.perm_iff_toList_perm.mp (Array.swap_perm hi hj)
  · exact List.Perm.refl _
  · exact List.Perm.refl _

/-- A gap pass over the pairs `(q, q + gap)` for `q` from `i - 1` down to `0`: a pair is
swapped when its upper element has the smaller key. -/
def gapPass (gap : Nat) : Nat → List α → List α
  | 0, l => l
  | i + 1, l =>
    let l := match l[i]?, l[i + gap]? with
      | some a, some b => if key b < key a then swapAt l i (i + gap) else l
      | _, _ => l
    gapPass gap i l

theorem gapPass_perm (gap i : Nat) (l : List α) : (gapPass key gap i l).Perm l := by
  induction i generalizing l with
  | zero => exact List.Perm.refl l
  | succ i ih =>
    -- one comparison, then the pairs below it
    have hstep : (match l[i]?, l[i + gap]? with
        | some a, some b => if key b < key a then swapAt l i (i + gap) else l
        | _, _ => l).Perm l := by
      split
      · split
        · exact swapAt_perm l i (i + gap)
        · exact List.Perm.refl l
      · exact List.Perm.refl l
    exact (ih _).trans hstep

/-- One bubble pass: `q` runs from the top down to the bottom and `q[0]` and `q[1]` are
swapped when `q[1]` has the smaller key; the part above `q` has been passed over first. The
flag says whether the pass swapped anything. -/
def bubblePass : List α → List α × Bool
  | [] => ([], false)
  | a :: l =>
    match bubblePass l with
    | (b :: l', more) => if key b < key a then (b :: a :: l', true) else (a :: b :: l', more)
    | ([], more) => ([a], more)

/-- The bubble passes, `do { … } while (more)`, for at most `fuel` passes. -/
def bubbleLoop : Nat → List α → Option (List α)
  | 0, _ => none
  | fuel + 1, l =>
    let p := bubblePass key l
    if p.2 then bubbleLoop fuel p.1 else some p.1

/-- Sorted by the key, as adjacent elements in order. -/
def KeySorted (l : List α) : Prop := l.IsChain (fun a b => key a ≤ key b)

theorem bubblePass_perm (l : List α) : (bubblePass key l).1.Perm l := by
  induction l with
  | nil => exact List.Perm.refl []
  | cons a l ih =>
    rw [bubblePass.eq_2]
    split
    · rename_i b l' more hpass
      rw [hpass] at ih
      split
      · exact (List.Perm.swap a b l').trans (ih.cons a)
      · exact ih.cons a
    · rename_i more hpass
      rw [hpass] at ih
      exact ih.cons a

/-- A bubble pass leaves a least element in front. -/
theorem bubblePass_head_le {l : List α} {a : α} {l' : List α} (h : (bubblePass key l).1 = a :: l') :
    ∀ b ∈ l', key a ≤ key b := by
  induction l generalizing a l' with
  | nil => simp [bubblePass] at h
  | cons c l ih =>
    rw [bubblePass.eq_2] at h
    split at h
    · rename_i b l'' more hpass
      have hmin := ih (by rw [hpass])
      split at h
      · -- `b` moved below `c`: it is below `c` and below the rest
        rename_i hlt
        simp only [List.cons.injEq] at h
        obtain ⟨rfl, rfl⟩ := h
        intro x hx
        rcases List.mem_cons.mp hx with rfl | hx
        · exact le_of_lt hlt
        · exact hmin x hx
      · rename_i hnlt
        simp only [List.cons.injEq] at h
        obtain ⟨rfl, rfl⟩ := h
        intro x hx
        rcases List.mem_cons.mp hx with rfl | hx
        · exact le_of_not_gt hnlt
        · exact le_trans (le_of_not_gt hnlt) (hmin x hx)
    · simp only [List.cons.injEq] at h
      obtain ⟨rfl, rfl⟩ := h
      simp

/-- On an array that starts with a least element, a bubble pass passes over the rest. -/
theorem bubblePass_cons_of_le {a : α} {l : List α} (ha : ∀ b ∈ l, key a ≤ key b) :
    bubblePass key (a :: l) = (a :: (bubblePass key l).1, (bubblePass key l).2) := by
  have hperm := bubblePass_perm key l
  rw [bubblePass.eq_2]
  split
  · rename_i b l' more hpass
    rw [hpass] at hperm ⊢
    have hb : key a ≤ key b := ha b (hperm.subset List.mem_cons_self)
    rw [if_neg (not_lt_of_ge hb)]
  · rename_i more hpass
    rw [hpass]

/-- A pass that swaps nothing leaves a sorted array as it was. -/
theorem bubblePass_eq_of_false {l : List α} (h : (bubblePass key l).2 = false) :
    (bubblePass key l).1 = l ∧ KeySorted key l := by
  induction l with
  | nil => exact ⟨rfl, List.IsChain.nil⟩
  | cons a l ih =>
    rw [bubblePass.eq_2] at h ⊢
    split at h
    · rename_i b l' more hpass
      rw [hpass] at ih
      by_cases hlt : key b < key a
      · simp [hlt] at h
      · rw [if_neg hlt] at h ⊢
        obtain ⟨hl, hsorted⟩ := ih h
        subst hl
        exact ⟨rfl, List.IsChain.cons_cons (le_of_not_gt hlt) hsorted⟩
    · rename_i more hpass
      rw [hpass] at ih
      obtain ⟨hl, -⟩ := ih h
      subst hl
      exact ⟨rfl, List.isChain_singleton a⟩

/-- Behind a least element the bubble loop runs on the rest. -/
theorem bubbleLoop_cons_of_le (fuel : Nat) {a : α} {l : List α} (ha : ∀ b ∈ l, key a ≤ key b) :
    bubbleLoop key fuel (a :: l) = (bubbleLoop key fuel l).map (a :: ·) := by
  induction fuel generalizing l with
  | zero => rfl
  | succ fuel ih =>
    have hperm := bubblePass_perm key l
    have ha' : ∀ b ∈ (bubblePass key l).1, key a ≤ key b := fun b hb => ha b (hperm.subset hb)
    simp only [bubbleLoop, bubblePass_cons_of_le key ha]
    split
    · exact ih ha'
    · rfl

/-- `length + 1` bubble passes sort any array. -/
theorem bubbleLoop_sorts (l : List α) :
    ∃ l', bubbleLoop key (l.length + 1) l = some l' ∧ l'.Perm l ∧ KeySorted key l' := by
  -- induction on the length: the first pass puts a least element in front, the later passes
  -- sort the rest behind it
  induction h : l.length generalizing l with
  | zero =>
    rw [List.length_eq_zero_iff] at h
    subst h
    exact ⟨[], rfl, List.Perm.refl [], List.IsChain.nil⟩
  | succ n ih =>
    cases hmore : (bubblePass key l).2 with
    | false =>
      obtain ⟨hsame, hsorted⟩ := bubblePass_eq_of_false key hmore
      refine ⟨l, ?_, List.Perm.refl l, hsorted⟩
      simp only [bubbleLoop, hmore, Bool.false_eq_true, if_false, hsame]
    | true =>
      have hperm := bubblePass_perm key l
      obtain ⟨m, hm⟩ : ∃ m, (bubblePass key l).1 = m := ⟨_, rfl⟩
      cases m with
      | nil =>
        rw [hm, List.nil_perm] at hperm
        subst hperm
        simp at h
      | cons a l' =>
        have hmin := bubblePass_head_le key hm
        have hlen : l'.length = n := by
          have := hperm.length_eq
          rw [hm, List.length_cons, h] at this
          omega
        obtain ⟨s, hs, hsperm, hssorted⟩ := ih l' hlen
        refine ⟨a :: s, ?_, ?_, ?_⟩
        · show (if (bubblePass key l).2 then bubbleLoop key (n + 1) (bubblePass key l).1
              else some (bubblePass key l).1) = _
          rw [hmore, if_pos rfl, hm, bubbleLoop_cons_of_le key (n + 1) hmin, hs]
          rfl
        · exact (hsperm.cons a).trans (hm ▸ hperm)
        · cases s with
          | nil => exact List.isChain_singleton a
          | cons b s =>
            exact List.IsChain.cons_cons (hmin b (hsperm.subset List.mem_cons_self)) hssorted

/-- A sorted list is in order pairwise, not only between neighbours. -/
theorem KeySorted.pairwise {l : List α} (hl : KeySorted key l) :
    l.Pairwise (fun a b => key a ≤ key b) := by
  have hmap : (l.map key).IsChain (· ≤ ·) := (List.isChain_map key).mpr hl
  exact List.pairwise_map.mp hmap.pairwise

/-- In a sorted list the keys grow with the index. -/
theorem KeySorted.key_le {l : List α} (hl : KeySorted key l) {i j : Nat} (hi : i < l.length)
    (hj : j < l.length) (hij : i ≤ j) : key l[i] ≤ key l[j] := by
  rcases Nat.lt_or_eq_of_le hij with hlt | rfl
  · exact List.pairwise_iff_getElem.mp (hl.pairwise key) i j hi hj hlt
  · exact le_refl _

end OptFs.Lib.CombSort
