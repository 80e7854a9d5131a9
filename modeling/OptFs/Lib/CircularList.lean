import Mathlib

/-!
# Circular doubly linked lists

A list threaded through a `next` and a `prev` field of its elements and entered at `head`
(`NULL` when it is empty), as the kernel's transaction lists are through `b_tnext` and
`b_tprev`. The links represent a list of distinct elements when the head is its first
element and the links close it into a ring: each element's `next` is the element after it,
the last one's is the first, and `prev` goes the other way.

The ring is invariant under rotation, and every fact about one element is read off the
rotation that starts at it. Unlinking an element (`Links.del`, the pointer updates of
`__blist_del_buffer`) represents `List.erase` (`Links.Represents.del`).
-/

namespace OptFs.Lib.CircularList

/-- The links of a circular list: its entry point and the two pointer fields. -/
structure Links (α : Type) where
  head : Option α
  next : α → α
  prev : α → α

variable {α : Type}

/-- `y` follows `x`: `x`'s `next` is `y` and `y`'s `prev` is `x`. -/
def Links.Adjacent (c : Links α) (x y : α) : Prop := c.next x = y ∧ c.prev y = x

/-- The links close `l` into a ring: the chain of adjacent elements runs along `l` and back to
its first element. -/
def Links.Ring (c : Links α) (l : List α) : Prop := (l ++ l.take 1).IsChain c.Adjacent

/-- The links, with their head, represent the list `l`. -/
structure Links.Represents (c : Links α) (l : List α) : Prop where
  nodup : l.Nodup
  head : c.head = l.head?
  ring : c.Ring l

namespace Links

variable {c : Links α}

@[simp] theorem ring_nil : c.Ring [] := List.IsChain.nil

theorem ring_cons {x : α} {r : List α} : c.Ring (x :: r) ↔ (x :: r ++ [x]).IsChain c.Adjacent :=
  Iff.rfl

/-- One step of rotation: the ring read from the second element. -/
theorem Ring.rotate_cons {x : α} {r : List α} (h : c.Ring (x :: r)) : c.Ring (r ++ [x]) := by
  cases r with
  | nil => exact h
  | cons y r =>
    rw [ring_cons, List.cons_append, List.cons_append, List.isChain_cons_cons] at h
    show ((y :: r ++ [x]) ++ [y]).IsChain c.Adjacent
    rw [List.isChain_append]
    refine ⟨h.2, List.isChain_singleton y, ?_⟩
    intro a ha b hb
    simp only [List.getLast?_concat, Option.mem_def, Option.some.injEq, List.head?_cons] at ha hb
    subst ha hb
    exact h.1

/-- The ring read from any element. -/
theorem Ring.rotate {l₁ l₂ : List α} (h : c.Ring (l₁ ++ l₂)) : c.Ring (l₂ ++ l₁) := by
  induction l₁ generalizing l₂ with
  | nil => simpa using h
  | cons x l₁ ih =>
    have hrot := Ring.rotate_cons (c := c) (x := x) (r := l₁ ++ l₂) h
    rw [List.append_assoc] at hrot
    simpa using ih hrot

/-- An element is followed by the next element of the ring read from it. -/
theorem Ring.adjacent_cons {x : α} {r : List α} (h : c.Ring (x :: r)) :
    c.Adjacent x ((r ++ [x]).head (by simp)) := by
  cases r with
  | nil =>
    rw [ring_cons] at h
    exact List.isChain_pair.mp h
  | cons y r =>
    rw [ring_cons, List.cons_append, List.cons_append, List.isChain_cons_cons] at h
    exact h.1

/-- A chain survives a change of the links at the elements it does not use: the `next` of its
last element and the `prev` of its first. -/
theorem isChain_adjacent_of_agree {c' : Links α} {l : List α} (h : l.IsChain c.Adjacent)
    (hn : ∀ x ∈ l.dropLast, c'.next x = c.next x) (hp : ∀ y ∈ l.tail, c'.prev y = c.prev y) :
    l.IsChain c'.Adjacent := by
  induction l with
  | nil => exact List.IsChain.nil
  | cons x l ih =>
    cases l with
    | nil => exact List.isChain_singleton x
    | cons y l =>
      rw [List.isChain_cons_cons] at h ⊢
      obtain ⟨⟨hxy, hyx⟩, hrest⟩ := h
      refine ⟨⟨?_, ?_⟩, ih hrest ?_ ?_⟩
      · rw [hn x (by simp)]
        exact hxy
      · rw [hp y (by simp)]
        exact hyx
      · intro z hz
        exact hn z (by rw [List.dropLast_cons_cons]; exact List.mem_cons_of_mem x hz)
      · intro z hz
        exact hp z (List.mem_of_mem_tail hz)

/-- The links read at an element: its `next` is the element after it in the ring. -/
theorem Represents.next_of_cons_cons {A B : List α} {x y : α} (h : c.Represents (A ++ x :: y :: B)) :
    c.next x = y :=
  (Ring.adjacent_cons (Ring.rotate h.ring : c.Ring ((x :: y :: B) ++ A))).1

/-- The last element's `next` is the head. -/
theorem Represents.next_of_last {A : List α} {x : α} (h : c.Represents (A ++ [x])) :
    some (c.next x) = c.head := by
  have hrot : c.Ring (x :: A) := by simpa using (Ring.rotate h.ring : c.Ring ([x] ++ A))
  rw [(Ring.adjacent_cons hrot).1, h.head, List.head?_eq_some_head]

/-- The head's `prev` is the last element. -/
theorem Represents.prev_of_head {A : List α} {x a : α} (h : c.Represents (A ++ [x]))
    (ha : c.head = some a) : c.prev a = x := by
  have hrot : c.Ring (x :: A) := by simpa using (Ring.rotate h.ring : c.Ring ([x] ++ A))
  have hadj := Ring.adjacent_cons hrot
  rw [h.head, List.head?_eq_some_head (by simp), Option.some.injEq] at ha
  rw [← ha]
  exact hadj.2

/-- Only the last element's `next` is the head. -/
theorem Represents.next_ne_head {A B : List α} {x y : α} (h : c.Represents (A ++ x :: y :: B)) :
    some (c.next x) ≠ c.head := by
  rw [h.next_of_cons_cons, h.head]
  have hnd := h.nodup
  cases A with
  | nil =>
    simp only [List.nil_append, List.head?_cons, ne_eq, Option.some.injEq]
    rintro rfl
    simp at hnd
  | cons a A =>
    simp only [List.cons_append, List.head?_cons, ne_eq, Option.some.injEq]
    rintro rfl
    simp at hnd

variable [DecidableEq α]

/-- `__blist_add_buffer(list, jh)`: the first element links to itself; a later one goes in
after the last (`first->b_tprev`), before the first. -/
def add (c : Links α) (x : α) : Links α :=
  match c.head with
  | none => ⟨some x, Function.update c.next x x, Function.update c.prev x x⟩
  | some first =>
    let last := c.prev first
    let prev := Function.update c.prev x last
    let next := Function.update c.next x first
    ⟨some first, Function.update next last x, Function.update prev first x⟩

/-- `__blist_add_buffer` represents appending. -/
theorem Represents.add {l : List α} {x : α} (h : c.Represents l) (hx : x ∉ l) :
    (c.add x).Represents (l ++ [x]) := by
  have hnd : (l ++ [x]).Nodup := List.nodup_append.mpr
    ⟨h.nodup, List.nodup_singleton x, fun a ha b hb hab => hx (by simp_all)⟩
  cases l with
  | nil =>
    have hhead : c.head = none := h.head
    refine ⟨hnd, by simp [Links.add, hhead], ?_⟩
    show [x, x].IsChain (c.add x).Adjacent
    simp [Links.add, hhead, Links.Adjacent]
  | cons f r =>
    -- the list is `f, …, z`; `x` goes in between `z` and `f`
    have hhead : c.head = some f := h.head
    have hne : f :: r ≠ [] := List.cons_ne_nil f r
    set z := (f :: r).getLast hne with hz
    have hsplit : f :: r = (f :: r).dropLast ++ [z] := (List.dropLast_append_getLast hne).symm
    have hlast : c.prev f = z := (hsplit ▸ h : c.Represents ((f :: r).dropLast ++ [z])).prev_of_head hhead
    have hxf : x ≠ f := fun hxf => hx (hxf ▸ List.mem_cons_self)
    have hxz : x ≠ z := fun hxz => hx (hxz ▸ List.getLast_mem hne)
    have hnext : (c.add x).next = Function.update (Function.update c.next x f) z x := by
      simp only [Links.add, hhead, hlast]
    have hprev : (c.add x).prev = Function.update (Function.update c.prev x z) f x := by
      simp only [Links.add, hhead, hlast]
    have hzdrop : z ∉ (f :: r).dropLast := by
      have := hsplit ▸ h.nodup
      exact fun hm => (List.nodup_append.mp this).2.2 z hm z (List.mem_singleton_self z) rfl
    have hftail : f ∉ r := (List.nodup_cons.mp h.nodup).1
    have hchain : (f :: r).IsChain c.Adjacent := by
      have hring := h.ring
      rw [Links.Ring, List.isChain_append] at hring
      exact hring.1
    refine ⟨hnd, by simp [Links.add, hhead], ?_⟩
    show ((f :: r ++ [x]) ++ [f]).IsChain (c.add x).Adjacent
    rw [List.isChain_append, List.isChain_append]
    refine ⟨⟨?_, List.isChain_singleton x, ?_⟩, List.isChain_singleton f, ?_⟩
    · refine isChain_adjacent_of_agree hchain ?_ ?_
      · intro u hu
        have huz : u ≠ z := by rintro rfl; exact hzdrop hu
        have hux : u ≠ x := by rintro rfl; exact hx (List.dropLast_subset _ hu)
        rw [hnext, Function.update_of_ne huz, Function.update_of_ne hux]
      · intro u hu
        have huf : u ≠ f := by rintro rfl; exact hftail hu
        have hux : u ≠ x := by rintro rfl; exact hx (List.mem_cons_of_mem f hu)
        rw [hprev, Function.update_of_ne huf, Function.update_of_ne hux]
    · -- `z` is followed by `x`
      intro a ha b hb
      rw [List.getLast?_eq_some_getLast hne, ← hz] at ha
      simp only [Option.mem_def, Option.some.injEq, List.head?_cons] at ha hb
      subst ha hb
      refine ⟨by rw [hnext, Function.update_self], ?_⟩
      rw [hprev, Function.update_of_ne hxf, Function.update_self]
    · -- `x` is followed by `f`
      intro a ha b hb
      simp only [List.getLast?_concat, Option.mem_def, Option.some.injEq] at ha
      simp only [List.head?_cons, Option.mem_def, Option.some.injEq] at hb
      subst ha hb
      refine ⟨?_, by rw [hprev, Function.update_self]⟩
      rw [hnext, Function.update_of_ne hxz, Function.update_self]

/-- `__blist_del_buffer(list, jh)`: the head moves on when `jh` is the head, and the list
empties when `jh` was alone; then `jh->b_tprev->b_tnext = jh->b_tnext` and
`jh->b_tnext->b_tprev = jh->b_tprev`, in that order. -/
def del (c : Links α) (x : α) : Links α :=
  let head := if c.head = some x then (if c.next x = x then none else some (c.next x)) else c.head
  let next := Function.update c.next (c.prev x) (c.next x)
  let prev := Function.update c.prev (next x) (c.prev x)
  ⟨head, next, prev⟩

/-- Unlinking the first element of a ring leaves the ring of the others. -/
theorem Ring.del_cons {x : α} {r : List α} (hnd : (x :: r).Nodup) (h : c.Ring (x :: r)) :
    (c.del x).Ring r := by
  cases r with
  | nil => exact ring_nil
  | cons y r =>
    -- the ring is `x, y, …, z` and back to `x`
    have hne : y :: r ≠ [] := List.cons_ne_nil y r
    set z := (y :: r).getLast hne with hz
    have hsplit : y :: r = (y :: r).dropLast ++ [z] := (List.dropLast_append_getLast hne).symm
    have hring := h
    rw [ring_cons, List.cons_append, List.cons_append, List.isChain_cons_cons] at hring
    obtain ⟨⟨hnx, hpy⟩, hchain⟩ := hring
    have hback : c.Adjacent z x := by
      have hz' : c.Ring ((x :: (y :: r).dropLast) ++ [z]) := by
        rw [List.cons_append, ← hsplit]
        exact h
      have := Ring.adjacent_cons (Ring.rotate hz' : c.Ring ([z] ++ x :: (y :: r).dropLast))
      simpa using this
    have hxz : x ≠ z := fun hxz => (List.nodup_cons.mp hnd).1 (hxz ▸ List.getLast_mem hne)
    have hnd' : (y :: r).Nodup := (List.nodup_cons.mp hnd).2
    have hzdrop : z ∉ (y :: r).dropLast := by
      have := hsplit ▸ hnd'
      exact fun hm => (List.nodup_append.mp this).2.2 z hm z (List.mem_singleton_self z) rfl
    have hytail : y ∉ r := (List.nodup_cons.mp hnd').1
    -- the new links: `z`'s `next` is `y` and `y`'s `prev` is `z`, all others unchanged
    have hnext : (c.del x).next = Function.update c.next z y := by
      simp only [del, ← hback.2, hnx]
    have hnextx : (c.del x).next x = y := by
      rw [hnext, Function.update_of_ne hxz, hnx]
    have hprev : (c.del x).prev = Function.update c.prev y z := by
      show Function.update c.prev ((c.del x).next x) (c.prev x) = _
      rw [hnextx, hback.2]
    have hchain' : ((y :: r) ++ []).IsChain (c.del x).Adjacent := by
      rw [List.append_nil]
      rw [← List.cons_append, List.isChain_append] at hchain
      refine isChain_adjacent_of_agree hchain.1 ?_ ?_
      · intro u hu
        rw [hnext, Function.update_of_ne (by rintro rfl; exact hzdrop hu)]
      · intro u hu
        rw [hprev, Function.update_of_ne (by rintro rfl; exact hytail hu)]
    show ((y :: r) ++ [y]).IsChain (c.del x).Adjacent
    rw [List.isChain_append]
    refine ⟨by simpa using hchain', List.isChain_singleton y, ?_⟩
    intro a ha b hb
    rw [List.getLast?_eq_some_getLast hne, ← hz] at ha
    simp only [Option.mem_def, Option.some.injEq, List.head?_cons] at ha hb
    subst ha hb
    exact ⟨by rw [hnext, Function.update_self], by rw [hprev, Function.update_self]⟩

/-- `__blist_del_buffer` represents `List.erase`. -/
theorem Represents.del {l : List α} {x : α} (h : c.Represents l) (hx : x ∈ l) :
    (c.del x).Represents (l.erase x) := by
  obtain ⟨A, B, rfl⟩ := List.append_of_mem hx
  have hxA : x ∉ A := fun hm => (List.nodup_append.mp h.nodup).2.2 x hm x (by simp) rfl
  have herase : (A ++ x :: B).erase x = A ++ B := by
    rw [List.erase_append_right _ hxA, List.erase_cons_head]
  have hrot : c.Ring (x :: (B ++ A)) := by
    simpa using (Ring.rotate h.ring : c.Ring ((x :: B) ++ A))
  have hnd : (x :: (B ++ A)).Nodup :=
    h.nodup.perm (by simpa using (List.perm_append_comm : (A ++ x :: B).Perm ((x :: B) ++ A)))
  rw [herase]
  refine ⟨?_, ?_, ?_⟩
  · rw [← herase]
    exact h.nodup.erase x
  · -- the head moves on exactly when `x` is the first element, that is when `A` is empty
    have hnext := (Ring.adjacent_cons hrot).1
    cases A with
    | nil =>
      have hhead : c.head = some x := by rw [h.head]; rfl
      cases B with
      | nil =>
        simp only [List.nil_append, List.append_nil] at hnext
        simp [Links.del, hhead, hnext]
      | cons b B =>
        have hbx : b ≠ x := fun hb => (List.nodup_cons.mp hnd).1 (by simp [hb])
        simp only [List.append_nil, List.cons_append, List.head_cons] at hnext
        simp [Links.del, hhead, hnext, hbx]
    | cons a A =>
      have hax : c.head ≠ some x := by
        rw [h.head]
        simp only [List.cons_append, List.head?_cons, ne_eq, Option.some.injEq]
        exact fun hax => hxA (hax ▸ List.mem_cons_self)
      show (if c.head = some x then _ else c.head) = _
      rw [if_neg hax, h.head]
      rfl
  · exact Ring.rotate (Ring.del_cons hnd hrot)

end Links

end OptFs.Lib.CircularList
