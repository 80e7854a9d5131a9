import Mathlib

/-!
# Runs of consecutive keys

A run maps `len` consecutive keys from `start` to consecutive values from `base`, all with
one tag. A list of runs is a finite partial map, read at a key from the first run that
holds it (`lookup`). The runs are ordered when each one stops at or before every later one
starts.

Two operations keep both the map and the order: inserting a run that overlaps no other
between the runs that start before it and those that start after it (`Ordered.insert`,
`lookup_insert`), and joining a run with the one that continues it (`Ordered.join`,
`lookup_join_cons`).
-/

namespace OptFs.Lib.RunMap

/-- `len` keys from `start`, mapped to the values from `base`, with a tag. -/
structure Run (τ : Type) where
  start : Nat
  len : Nat
  base : Nat
  tag : τ
deriving DecidableEq, Repr

namespace Run

variable {τ : Type} {a b r : Run τ} {k : Nat}

/-- The first key after the run. -/
def stop (r : Run τ) : Nat := r.start + r.len

/-- The run holds key `k`. -/
def Holds (r : Run τ) (k : Nat) : Prop := r.start ≤ k ∧ k < r.stop

instance (r : Run τ) (k : Nat) : Decidable (r.Holds k) :=
  inferInstanceAs (Decidable (_ ∧ _))

/-- The value and tag the run gives key `k`. -/
def lookup (r : Run τ) (k : Nat) : Option (Nat × τ) :=
  if r.Holds k then some (r.base + (k - r.start), r.tag) else none

/-- `b` continues `a`: it starts where `a` stops, its values continue `a`'s, and it has
`a`'s tag. -/
def Continues (a b : Run τ) : Prop := a.stop = b.start ∧ a.base + a.len = b.base ∧ a.tag = b.tag

/-- `a` followed by `b` as one run. -/
def join (a b : Run τ) : Run τ := ⟨a.start, a.len + b.len, a.base, a.tag⟩

/-- No key is in both runs. -/
def Disjoint (a b : Run τ) : Prop := a.stop ≤ b.start ∨ b.stop ≤ a.start

instance (a b : Run τ) : Decidable (a.Disjoint b) :=
  inferInstanceAs (Decidable (_ ∨ _))

@[simp] theorem join_start : (a.join b).start = a.start := rfl

@[simp] theorem join_len : (a.join b).len = a.len + b.len := rfl

theorem Continues.join_stop (h : a.Continues b) : (a.join b).stop = b.stop := by
  have hstop := h.1
  unfold stop at *
  simp only [join_start, join_len]
  omega

theorem lookup_eq_none (h : ¬ r.Holds k) : r.lookup k = none := if_neg h

theorem Disjoint.symm (h : a.Disjoint b) : b.Disjoint a := Or.symm h

/-- At most one of two disjoint runs holds a key. -/
theorem Disjoint.lookup_eq_none (h : a.Disjoint b) (ha : a.Holds k) : b.lookup k = none := by
  apply Run.lookup_eq_none
  unfold Disjoint Holds stop at *
  omega

/-- Disjoint non-empty runs start at different keys. -/
theorem Disjoint.start_ne (h : a.Disjoint b) (ha : 0 < a.len) (hb : 0 < b.len) :
    a.start ≠ b.start := by
  unfold Disjoint stop at h
  omega

/-- A non-empty run that starts at or after `a` and overlaps it nowhere starts after `a`
stops. -/
theorem Disjoint.stop_le_of_start_le (h : a.Disjoint r) (hr : 0 < r.len)
    (hs : a.start ≤ r.start) : a.stop ≤ r.start := by
  unfold Disjoint stop at *
  omega

/-- A run that starts before `a` and overlaps it nowhere stops before `a` starts. -/
theorem Disjoint.stop_le_of_start_lt (h : r.Disjoint a) (hs : r.start < a.start) :
    r.stop ≤ a.start := by
  unfold Disjoint stop at *
  omega

/-- The join reads a key from `a`, or else from `b`. -/
theorem lookup_join (h : a.Continues b) : (a.join b).lookup k = (a.lookup k).or (b.lookup k) := by
  obtain ⟨hstop, hbase, htag⟩ := h
  have hjoin : (a.join b).Holds k ↔ a.Holds k ∨ b.Holds k := by
    unfold Holds stop at *
    simp only [join_start, join_len]
    omega
  unfold lookup
  by_cases ha : a.Holds k
  · rw [if_pos (hjoin.mpr (.inl ha)), if_pos ha, Option.some_or]
    rfl
  · rw [if_neg ha, Option.none_or]
    by_cases hb : b.Holds k
    · -- past `a`, the join's values are `b`'s
      rw [if_pos (hjoin.mpr (.inr hb)), if_pos hb]
      unfold Holds at ha hb
      unfold stop at ha hb hstop
      simp only [join, htag, Option.some.injEq, Prod.mk.injEq, and_true]
      omega
    · rw [if_neg (fun hj => (hjoin.mp hj).elim ha hb), if_neg hb]

end Run

variable {τ : Type} {xs ys rs : List (Run τ)} {a b r : Run τ} {k : Nat}

/-- The value and tag of key `k`, from the first run holding it. -/
def lookup (rs : List (Run τ)) (k : Nat) : Option (Nat × τ) := rs.findSome? (·.lookup k)

/-- Each run stops at or before every later run starts. -/
def Ordered (rs : List (Run τ)) : Prop := rs.Pairwise (fun a b => a.stop ≤ b.start)

@[simp] theorem lookup_nil : lookup ([] : List (Run τ)) k = none := rfl

@[simp] theorem lookup_cons : lookup (r :: rs) k = (r.lookup k).or (lookup rs k) := by
  unfold lookup
  rw [List.findSome?_cons]
  cases r.lookup k <;> rfl

@[simp] theorem lookup_append : lookup (xs ++ ys) k = (lookup xs k).or (lookup ys k) :=
  List.findSome?_append

/-- A run overlapping none of `xs` can be read first: inserting it anywhere among them gives
the same map. -/
theorem lookup_insert (h : ∀ x ∈ xs, x.Disjoint r) :
    lookup (xs ++ r :: ys) k = lookup (r :: (xs ++ ys)) k := by
  simp only [lookup_append, lookup_cons]
  by_cases hr : r.Holds k
  · -- only `r` holds the key
    have hxs : lookup xs k = none := List.findSome?_eq_none_iff.mpr fun x hx =>
      (h x hx).symm.lookup_eq_none hr
    rw [hxs, Option.none_or, Run.lookup, if_pos hr, Option.some_or, Option.some_or]
  · rw [Run.lookup_eq_none hr, Option.none_or, Option.none_or]

/-- Joining a run with the one that continues it leaves the map as it was. -/
theorem lookup_join_cons (h : a.Continues b) :
    lookup (a.join b :: rs) k = lookup (a :: b :: rs) k := by
  simp only [lookup_cons, Run.lookup_join h, Option.or_assoc]

theorem Ordered.insert (h : Ordered (xs ++ ys)) (hx : ∀ x ∈ xs, x.stop ≤ r.start)
    (hy : ∀ y ∈ ys, r.stop ≤ y.start) : Ordered (xs ++ r :: ys) := by
  unfold Ordered at *
  rw [List.pairwise_append] at h ⊢
  obtain ⟨hxs, hys, hxy⟩ := h
  refine ⟨hxs, List.pairwise_cons.mpr ⟨hy, hys⟩, fun x hx' y hy' => ?_⟩
  rcases List.mem_cons.mp hy' with rfl | hy'
  · exact hx x hx'
  · exact hxy x hx' y hy'

theorem Ordered.join (h : Ordered (xs ++ a :: b :: ys)) (hab : a.Continues b) :
    Ordered (xs ++ a.join b :: ys) := by
  unfold Ordered at *
  rw [List.pairwise_append, List.pairwise_cons, List.pairwise_cons] at h
  obtain ⟨hxs, ⟨ha, hb, hys⟩, hxy⟩ := h
  rw [List.pairwise_append, List.pairwise_cons]
  refine ⟨hxs, ⟨fun y hy => ?_, hys⟩, fun x hx y hy => ?_⟩
  · -- the join stops where `b` did
    rw [hab.join_stop]
    exact hb y hy
  · rcases List.mem_cons.mp hy with rfl | hy
    · exact hxy x hx a List.mem_cons_self
    · exact hxy x hx y (List.mem_cons_of_mem _ (List.mem_cons_of_mem _ hy))

/-- Ordered runs of positive length start in strictly increasing order. -/
theorem Ordered.start_lt (h : Ordered rs) (hpos : ∀ r ∈ rs, 0 < r.len) :
    rs.Pairwise (fun a b => a.start < b.start) :=
  List.Pairwise.imp_of_mem (fun ha _ hab => by have := hpos _ ha; unfold Run.stop at hab; omega) h

end OptFs.Lib.RunMap
