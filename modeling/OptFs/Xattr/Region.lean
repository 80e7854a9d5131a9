import OptFs.Xattr.SetEntry
import OptFs.Lib.AssocList

/-!
# Well-formed attribute regions and what they hold

A region is well formed (`XattrRegion.WellFormed`) when its table and the terminating word end
inside it, no entry's first word is zero (`IS_LAST_ENTRY` would end the table there), every
name is as long as its `e_name_len`, every value is in the region
(`e_value_block` zero), every value in it lies, padded, between the end of the table and
`s->end`, no two values overlap, and no two entries have one name index and name. Offsets are
16-bit, so `s->end` is at most `2^16` bytes from `s->base`.

The region holds the map `XattrRegion.lookup` from name index and name to the bytes of the
value. A table is sorted (`XattrRegion.Sorted`) when its keys increase in the order
`ext4bf_xattr_find_entry` compares them in: by name index, then name length, then the name
byte by byte (`entryCmp_neg_iff`, `entryCmp_pos_iff`).

`xattrFind_found` and `xattrFind_notFound` say where the search leaves `s->here`: at the entry
with the name, or at a slot where inserting the name keeps the keys distinct and, with a sorted
search of a sorted table, in order.
-/

namespace OptFs.Xattr

open Lib.ByteImage

/-! ## Sizes -/

theorem le_ext4XattrSize (n : Nat) : n ≤ ext4XattrSize n := by
  unfold ext4XattrSize ext4XattrRound ext4XattrPad
  omega

@[simp] theorem ext4XattrSize_zero : ext4XattrSize 0 = 0 := rfl

/-- A non-empty value takes at least the pad. -/
theorem pad_le_ext4XattrSize {n : Nat} (h : 0 < n) : ext4XattrPad ≤ ext4XattrSize n := by
  unfold ext4XattrSize ext4XattrRound ext4XattrPad
  omega

theorem ext4XattrSize_pos_iff {n : Nat} : 0 < ext4XattrSize n ↔ 0 < n := by
  unfold ext4XattrSize ext4XattrRound ext4XattrPad
  omega

/-! ## Entries and their values -/

/-- The end of the padded value. -/
def XattrEntry.valueEnd (e : XattrEntry) : Nat := e.eValueOffs.toNat + ext4XattrSize e.eValueSize.toNat

/-- An entry a well-formed table can hold, with its value, if it has one, between `lo` and
`hi`. -/
structure XattrEntry.Fits (lo hi : Nat) (e : XattrEntry) : Prop where
  not_last : e.isLastEntry = false
  name_len : e.eName.length = e.eNameLen.toNat
  value_block : e.eValueBlock = 0
  value_lo : e.inRegion → lo ≤ e.eValueOffs.toNat
  value_hi : e.inRegion → e.valueEnd ≤ hi

instance (lo hi : Nat) (e : XattrEntry) : Decidable (e.Fits lo hi) :=
  decidable_of_iff (_ ∧ _ ∧ _ ∧ _ ∧ _)
    ⟨fun ⟨a, b, c, d, f⟩ => ⟨a, b, c, d, f⟩, fun ⟨a, b, c, d, f⟩ => ⟨a, b, c, d, f⟩⟩

/-- The padded values of two entries do not overlap. -/
def XattrEntry.Apart (a b : XattrEntry) : Prop :=
  a.inRegion → b.inRegion → a.valueEnd ≤ b.eValueOffs.toNat ∨ b.valueEnd ≤ a.eValueOffs.toNat

instance (a b : XattrEntry) : Decidable (a.Apart b) := inferInstanceAs (Decidable (_ → _))

/-- The values of a table: each entry fits between `lo` and `hi`, no two values overlap. -/
structure Layout (lo hi : Nat) (entries : List XattrEntry) : Prop where
  fits : ∀ e ∈ entries, e.Fits lo hi
  apart : entries.Pairwise XattrEntry.Apart

instance (lo hi : Nat) (entries : List XattrEntry) : Decidable (Layout lo hi entries) :=
  decidable_of_iff (_ ∧ _) ⟨fun ⟨a, b⟩ => ⟨a, b⟩, fun ⟨a, b⟩ => ⟨a, b⟩⟩

/-- The first byte past the terminating word of the table. -/
def XattrRegion.tableEnd (r : XattrRegion) : Nat := r.first + entriesLen r.entries + 4

/-- A well-formed region. -/
structure XattrRegion.WellFormed (r : XattrRegion) : Prop where
  end_le : r.endOffs ≤ 65536
  table_le : r.tableEnd ≤ r.endOffs
  keys_nodup : (r.entries.map XattrEntry.key).Nodup
  layout : Layout r.tableEnd r.endOffs r.entries

instance (r : XattrRegion) : Decidable r.WellFormed :=
  decidable_of_iff (_ ∧ _ ∧ _ ∧ _)
    ⟨fun ⟨a, b, c, d⟩ => ⟨a, b, c, d⟩, fun ⟨a, b, c, d⟩ => ⟨a, b, c, d⟩⟩

/-- The value of an entry: its `e_value_size` bytes from `e_value_offs`. -/
def valueOf (img : Image) (e : XattrEntry) : List UInt8 :=
  readBytes img e.eValueOffs.toNat e.eValueSize.toNat

/-- The attributes of a table, in table order. -/
def attrsOf (img : Image) (entries : List XattrEntry) :
    List ((UInt8 × List UInt8) × List UInt8) :=
  entries.map fun e => (e.key, valueOf img e)

/-- The value the region holds for a name index and a name. -/
def XattrRegion.lookup (r : XattrRegion) (nameIndex : UInt8) (name : List UInt8) :
    Option (List UInt8) :=
  (attrsOf r.img r.entries).lookup (nameIndex, name)

/-- Keys in the order of `ext4bf_xattr_find_entry`: name index, name length, name bytes. -/
def keyOrder (k : UInt8 × List UInt8) : Lex (ℕ × Lex (ℕ × List ℕ)) :=
  toLex (k.1.toNat, toLex (k.2.length, k.2.map UInt8.toNat))

/-- The keys of the table increase. -/
def XattrRegion.Sorted (r : XattrRegion) : Prop :=
  (r.entries.map XattrEntry.key).Pairwise fun a b => keyOrder a < keyOrder b

variable {lo hi lo' : Nat} {a b e x : XattrEntry} {A B es : List XattrEntry} {img img' : Image}

theorem XattrEntry.Fits.mono (h : e.Fits lo hi) (hlo : lo' ≤ lo) : e.Fits lo' hi :=
  ⟨h.not_last, h.name_len, h.value_block, fun hr => hlo.trans (h.value_lo hr), h.value_hi⟩

/-- An entry with a value offset does not end the table. -/
theorem XattrEntry.isLastEntry_eq_false_of_offs (h : e.eValueOffs.toNat ≠ 0) :
    e.isLastEntry = false := by
  have hne : e.eValueOffs ≠ 0 := fun h0 => h (by rw [h0]; rfl)
  simp [XattrEntry.isLastEntry, hne]

/-- Nor does one with a name index or a name, whatever its value offset. -/
theorem XattrEntry.isLastEntry_eq_false_of_key (hlen : e.eName.length = e.eNameLen.toNat)
    (hk : e.key ≠ (0, [])) : e.isLastEntry = false := by
  cases hl : e.isLastEntry
  · rfl
  · simp only [XattrEntry.isLastEntry, Bool.and_eq_true, beq_iff_eq] at hl
    obtain ⟨⟨hn, hi⟩, -⟩ := hl
    have hname : e.eName = [] := List.eq_nil_of_length_eq_zero (by rw [hlen, hn]; rfl)
    exact absurd (by simp [XattrEntry.key, hi, hname]) hk

/-- With its value in the region, an entry is in the region exactly when its value is not
empty. -/
theorem XattrEntry.Fits.inRegion_iff (h : e.Fits lo hi) : e.inRegion ↔ e.eValueSize ≠ 0 := by
  simp [XattrEntry.inRegion, h.value_block]

theorem XattrEntry.Apart.symm (h : a.Apart b) : b.Apart a := fun hb ha => (h ha hb).symm

theorem Layout.mono (h : Layout lo hi es) (hlo : lo' ≤ lo) : Layout lo' hi es :=
  ⟨fun e he => (h.fits e he).mono hlo, h.apart⟩

theorem Layout.sublist (h : Layout lo hi es) (hs : A.Sublist es) : Layout lo hi A :=
  ⟨fun e he => h.fits e (hs.subset he), h.apart.sublist hs⟩

/-- An entry that fits and overlaps none of the others joins the layout anywhere. -/
theorem Layout.middle (h : Layout lo hi (A ++ B)) (hx : x.Fits lo hi)
    (hapart : ∀ y ∈ A ++ B, x.Apart y) : Layout lo hi (A ++ x :: B) := by
  refine ⟨fun e he => ?_, ?_⟩
  · rcases List.mem_append.mp he with he | he
    · exact h.fits e (List.mem_append_left _ he)
    · rcases List.mem_cons.mp he with rfl | he
      · exact hx
      · exact h.fits e (List.mem_append_right _ he)
  · rw [List.pairwise_middle XattrEntry.Apart.symm]
    exact List.pairwise_cons.mpr ⟨hapart, h.apart⟩

theorem Layout.of_middle (h : Layout lo hi (A ++ x :: B)) :
    Layout lo hi (A ++ B) ∧ x.Fits lo hi ∧ ∀ y ∈ A ++ B, x.Apart y := by
  have hp := h.apart
  rw [List.pairwise_middle XattrEntry.Apart.symm, List.pairwise_cons] at hp
  refine ⟨⟨fun e he => h.fits e ?_, hp.2⟩, h.fits x (by simp), hp.1⟩
  rcases List.mem_append.mp he with he | he <;> simp [he]

@[simp] theorem entriesLen_append : entriesLen (A ++ B) = entriesLen A + entriesLen B := by
  simp [entriesLen]

@[simp] theorem entriesLen_cons : entriesLen (e :: es) = ext4XattrLen e.eNameLen.toNat + entriesLen es := by
  simp [entriesLen]

@[simp] theorem attrsOf_append : attrsOf img (A ++ B) = attrsOf img A ++ attrsOf img B :=
  List.map_append

@[simp] theorem attrsOf_cons : attrsOf img (e :: es) = (e.key, valueOf img e) :: attrsOf img es :=
  rfl

theorem map_fst_attrsOf : (attrsOf img es).map Prod.fst = es.map XattrEntry.key := by
  simp [attrsOf]

/-- The attributes of a table only depend on the bytes of its values. -/
theorem attrsOf_congr (h : ∀ e ∈ es, valueOf img' e = valueOf img e) :
    attrsOf img' es = attrsOf img es :=
  List.map_congr_left fun e he => by rw [h e he]

/-- An entry with no value in the region has the empty value. -/
theorem valueOf_of_not_inRegion (he : e.Fits lo hi) (hr : e.inRegion = false) :
    valueOf img e = [] := by
  have hsize : e.eValueSize = 0 := by
    by_contra hne
    exact absurd (he.inRegion_iff.mpr hne) (by simp [hr])
  simp [valueOf, hsize, readBytes]

/-- Writes outside the value of an entry leave its value alone. -/
theorem valueOf_of_writesWithin {wlo whi : Nat} (hw : WritesWithin img img' wlo whi)
    (he : e.Fits lo hi) (hd : e.inRegion → e.valueEnd ≤ wlo ∨ whi ≤ e.eValueOffs.toNat) :
    valueOf img' e = valueOf img e := by
  cases hr : e.inRegion
  · rw [valueOf_of_not_inRegion he hr, valueOf_of_not_inRegion he hr]
  · have hsize := le_ext4XattrSize e.eValueSize.toNat
    have hd := hd hr
    unfold XattrEntry.valueEnd at hd
    exact hw.readBytes_eq (by omega)

/-! ## The lowest value -/

theorem minOffsOf_cons (m : Nat) :
    minOffsOf (e :: es) m =
      minOffsOf es (if e.inRegion ∧ e.eValueOffs.toNat < m then e.eValueOffs.toNat else m) :=
  rfl

/-- `min_offs` is at most where it started and at most every value's offset. -/
theorem minOffsOf_le (es : List XattrEntry) (m : Nat) :
    minOffsOf es m ≤ m ∧ ∀ e ∈ es, e.inRegion → minOffsOf es m ≤ e.eValueOffs.toNat := by
  induction es generalizing m with
  | nil => exact ⟨le_rfl, by simp⟩
  | cons e es ih =>
    rw [minOffsOf_cons]
    obtain ⟨hm, hes⟩ := ih _
    have hstep : (if e.inRegion ∧ e.eValueOffs.toNat < m then e.eValueOffs.toNat else m) ≤ m ∧
        (e.inRegion → (if e.inRegion ∧ e.eValueOffs.toNat < m then e.eValueOffs.toNat else m) ≤
          e.eValueOffs.toNat) := by
      by_cases hc : e.inRegion ∧ e.eValueOffs.toNat < m
      · rw [if_pos hc]
        exact ⟨hc.2.le, fun _ => le_rfl⟩
      · rw [if_neg hc]
        exact ⟨le_rfl, fun hr => not_lt.mp fun hlt => hc ⟨hr, hlt⟩⟩
    refine ⟨hm.trans hstep.1, fun e' he' hr => ?_⟩
    rcases List.mem_cons.mp he' with rfl | he'
    · exact hm.trans (hstep.2 hr)
    · exact hes e' he' hr

/-- A bound below the start and every value is below `min_offs`. -/
theorem le_minOffsOf {m : Nat} (hm : lo ≤ m) (hes : ∀ e ∈ es, e.inRegion → lo ≤ e.eValueOffs.toNat) :
    lo ≤ minOffsOf es m := by
  induction es generalizing m with
  | nil => exact hm
  | cons e es ih =>
    rw [minOffsOf_cons]
    apply ih _ fun e' he' => hes e' (List.mem_cons_of_mem _ he')
    split_ifs with hc
    · exact hes e List.mem_cons_self hc.1
    · exact hm

/-- In a layout between `lo` and `hi`, `min_offs` from `hi` is between them, and every value is
above it. -/
theorem Layout.minOffsOf (h : Layout lo hi es) (hlo : lo ≤ hi) :
    lo ≤ minOffsOf es hi ∧ minOffsOf es hi ≤ hi ∧ Layout (minOffsOf es hi) hi es := by
  obtain ⟨hle, hoffs⟩ := minOffsOf_le es hi
  refine ⟨le_minOffsOf hlo fun e he => (h.fits e he).value_lo, hle, fun e he => ?_, h.apart⟩
  exact ⟨(h.fits e he).not_last, (h.fits e he).name_len, (h.fits e he).value_block, hoffs e he,
    (h.fits e he).value_hi⟩

/-! ## Comparing names -/

theorem memcmp_swap (a b : List UInt8) (n : Nat) : memcmp b a n = -memcmp a b n := by
  induction n generalizing a b with
  | zero => rfl
  | succ n ih =>
    simp only [memcmp]
    by_cases h : a.headD 0 = b.headD 0
    · rw [if_pos h.symm, if_pos h, ih]
    · rw [if_neg (Ne.symm h), if_neg h]
      omega

theorem memcmp_cons (x y : UInt8) (a b : List UInt8) (n : Nat) :
    memcmp (x :: a) (y :: b) (n + 1) =
      if x = y then memcmp a b n else (x.toNat : Int) - y.toNat := rfl

/-- On names of its length, `memcmp` is negative exactly when the first name comes first in
the lexicographic order of bytes. -/
theorem memcmp_neg_iff {a b : List UInt8} {n : Nat} (ha : a.length = n) (hb : b.length = n) :
    memcmp a b n < 0 ↔ a.map UInt8.toNat < b.map UInt8.toNat := by
  induction n generalizing a b with
  | zero =>
    rw [List.length_eq_zero_iff] at ha hb
    subst ha hb
    simp [memcmp]
  | succ n ih =>
    obtain ⟨x, a, rfl⟩ := List.exists_cons_of_length_eq_add_one ha
    obtain ⟨y, b, rfl⟩ := List.exists_cons_of_length_eq_add_one hb
    rw [memcmp_cons, List.map_cons, List.map_cons, List.cons_lt_cons_iff]
    by_cases h : x = y
    · subst h
      rw [if_pos rfl, ih (by simpa using ha) (by simpa using hb)]
      simp
    · -- the first differing bytes decide
      have hne : x.toNat ≠ y.toNat := fun e => h (UInt8.toNat_inj.mp e)
      rw [if_neg h]
      simp only [hne, false_and, or_false]
      omega

theorem memcmp_pos_iff {a b : List UInt8} {n : Nat} (ha : a.length = n) (hb : b.length = n) :
    0 < memcmp a b n ↔ b.map UInt8.toNat < a.map UInt8.toNat := by
  rw [← memcmp_neg_iff hb ha, memcmp_swap]
  omega

theorem memcmp_eq_zero_iff {a b : List UInt8} {n : Nat} (ha : a.length = n) (hb : b.length = n) :
    memcmp a b n = 0 ↔ a = b := by
  constructor
  · intro h
    have hlt := mt (memcmp_neg_iff ha hb).mpr (by omega)
    have hgt := mt (memcmp_pos_iff ha hb).mpr (by omega)
    exact List.map_injective_iff.mpr (fun _ _ => UInt8.toNat_inj.mp)
      (le_antisymm (not_lt.mp hgt) (not_lt.mp hlt))
  · rintro rfl
    have := memcmp_swap a a n
    omega

/-- `cmp` of `ext4bf_xattr_find_entry` is negative exactly when the requested key comes before
the entry's. -/
theorem entryCmp_neg_iff {nameIndex : UInt8} {name : List UInt8}
    (he : e.eName.length = e.eNameLen.toNat) :
    entryCmp nameIndex name e < 0 ↔ keyOrder (nameIndex, name) < keyOrder e.key := by
  simp only [entryCmp, keyOrder, XattrEntry.key, Prod.Lex.toLex_lt_toLex, he]
  by_cases hi : nameIndex.toNat = e.eNameIndex.toNat
  · by_cases hl : name.length = e.eNameLen.toNat
    · -- same index and length: the names decide
      rw [if_neg (by omega), if_neg (by omega), memcmp_neg_iff rfl (he.trans hl.symm)]
      simp [hi, hl]
    · rw [if_neg (by omega), if_pos (by omega)]
      simp only [hi, lt_irrefl, hl, false_and, or_false, false_or, true_and]
      omega
  · rw [if_pos (by omega)]
    simp only [hi, false_and, or_false]
    omega

/-- `cmp` is zero exactly on the entry's own key. -/
theorem entryCmp_eq_zero_iff {nameIndex : UInt8} {name : List UInt8}
    (he : e.eName.length = e.eNameLen.toNat) :
    entryCmp nameIndex name e = 0 ↔ e.key = (nameIndex, name) := by
  simp only [entryCmp, XattrEntry.key, Prod.mk.injEq]
  by_cases hi : nameIndex.toNat = e.eNameIndex.toNat
  · have hi' : e.eNameIndex = nameIndex := UInt8.toNat_inj.mp hi.symm
    by_cases hl : name.length = e.eNameLen.toNat
    · rw [if_neg (by omega), if_neg (by omega), memcmp_eq_zero_iff rfl (he.trans hl.symm)]
      simp [hi', eq_comm]
    · rw [if_neg (by omega), if_pos (by omega)]
      have : e.eName ≠ name := fun h => hl (by rw [← h, he])
      simp only [this, and_false, iff_false]
      omega
  · have hi' : e.eNameIndex ≠ nameIndex := fun h => hi (by rw [h])
    rw [if_pos (by omega)]
    simp only [hi', false_and, iff_false]
    omega

theorem keyOrder_injective : Function.Injective keyOrder := by
  intro k k' h
  obtain ⟨hidx, hname⟩ := Prod.mk.inj (toLex.injective h)
  have hbytes := (Prod.mk.inj (toLex.injective hname)).2
  exact Prod.ext (UInt8.toNat_inj.mp hidx)
    (List.map_injective_iff.mpr (fun _ _ => UInt8.toNat_inj.mp) hbytes)

/-- Keys apart in the order are distinct. -/
theorem keyOrder_ne {k k' : UInt8 × List UInt8} (h : keyOrder k < keyOrder k') : k ≠ k' :=
  fun heq => lt_irrefl _ (heq ▸ h)

/-- `cmp` is positive exactly when the entry's key comes before the requested one: it is
neither negative nor zero, and the order is linear. -/
theorem entryCmp_pos_iff {nameIndex : UInt8} {name : List UInt8}
    (he : e.eName.length = e.eNameLen.toNat) :
    0 < entryCmp nameIndex name e ↔ keyOrder e.key < keyOrder (nameIndex, name) := by
  have hneg : entryCmp nameIndex name e < 0 ↔ keyOrder (nameIndex, name) < keyOrder e.key :=
    entryCmp_neg_iff he
  have hzero : entryCmp nameIndex name e = 0 ↔ e.key = (nameIndex, name) :=
    entryCmp_eq_zero_iff he
  constructor
  · intro hpos
    rcases lt_trichotomy (keyOrder e.key) (keyOrder (nameIndex, name)) with hlt | heq | hgt
    · exact hlt
    · exact absurd (hzero.mpr (keyOrder_injective heq)) (by omega)
    · exact absurd (hneg.mpr hgt) (by omega)
  · intro hlt
    have hnot : ¬ entryCmp nameIndex name e < 0 := fun h => lt_asymm hlt (hneg.mp h)
    have hne : entryCmp nameIndex name e ≠ 0 := fun h => keyOrder_ne hlt (hzero.mp h)
    omega

/-! ## Where the search stops -/

/-- The loop of `ext4bf_xattr_find_entry` stops at the entry. -/
def FindStops (nameIndex : UInt8) (name : List UInt8) (sorted : Bool) (e : XattrEntry) : Prop :=
  entryCmp nameIndex name e ≤ 0 ∧ (sorted = true ∨ entryCmp nameIndex name e = 0)

/-- The loop passes the entries before the slot it stops at; at the end of the table its last
`cmp` is not zero, else it stopped at an entry and `cmp` is that entry's. -/
theorem findEntryLoop_spec (nameIndex : UInt8) (name : List UInt8) (sorted : Bool)
    (es : List XattrEntry) (k : Nat) {c : Int} (hc : c ≠ 0) :
    ∃ j ≤ es.length, (findEntryLoop nameIndex name sorted es k c).1 = k + j ∧
      (∀ e ∈ es.take j, ¬ FindStops nameIndex name sorted e) ∧
      ((es.drop j = [] ∧ (findEntryLoop nameIndex name sorted es k c).2 ≠ 0) ∨
        ∃ e rest, es.drop j = e :: rest ∧ FindStops nameIndex name sorted e ∧
          (findEntryLoop nameIndex name sorted es k c).2 = entryCmp nameIndex name e) := by
  induction es generalizing k c with
  | nil => exact ⟨0, le_rfl, rfl, by simp, .inl ⟨rfl, hc⟩⟩
  | cons e es ih =>
    by_cases hstop : entryCmp nameIndex name e ≤ 0 ∧
        (sorted = true ∨ entryCmp nameIndex name e = 0)
    · have hrun : findEntryLoop nameIndex name sorted (e :: es) k c =
          (k, entryCmp nameIndex name e) := by
        simp only [findEntryLoop, if_pos hstop]
      rw [hrun]
      exact ⟨0, Nat.zero_le _, rfl, by simp, .inr ⟨e, es, rfl, hstop, rfl⟩⟩
    · have hrun : findEntryLoop nameIndex name sorted (e :: es) k c =
          findEntryLoop nameIndex name sorted es (k + 1) (entryCmp nameIndex name e) := by
        simp only [findEntryLoop, if_neg hstop]
      -- an entry passed over has a nonzero `cmp`
      have hc' : entryCmp nameIndex name e ≠ 0 := fun h0 => hstop ⟨h0.le, .inr h0⟩
      obtain ⟨j, hj, hk, htake, hdrop⟩ := ih (k + 1) hc'
      refine ⟨j + 1, by simpa using hj, by rw [hrun, hk]; omega, fun e' he' => ?_, ?_⟩
      · rw [List.take_succ_cons, List.mem_cons] at he'
        rcases he' with rfl | he'
        · exact hstop
        · exact htake e' he'
      · rw [hrun, List.drop_succ_cons]
        exact hdrop

variable {r : XattrRegion} {i : XattrInfo} {sorted : Bool} {s : XattrSearch}

/-- What `xattrFind` leaves: the region, and `s->here` past the entries the loop passed, at
the entry with the name, or at a slot where the loop stopped with a nonzero `cmp` or at the end
of the table. -/
theorem xattrFind_spec (h : xattrFind r i sorted = some s) :
    s.toXattrRegion = r ∧ s.here ≤ r.entries.length ∧
      (∀ e ∈ r.entries.take s.here, ¬ FindStops i.nameIndex i.name sorted e) ∧
      (s.notFound = false → ∃ e rest, r.entries.drop s.here = e :: rest ∧
        entryCmp i.nameIndex i.name e = 0) ∧
      (s.notFound = true → ∀ e rest, r.entries.drop s.here = e :: rest →
        FindStops i.nameIndex i.name sorted e ∧ entryCmp i.nameIndex i.name e ≠ 0) := by
  obtain ⟨j, hj, hk, htake, hdrop⟩ :=
    findEntryLoop_spec i.nameIndex i.name sorted r.entries 0 one_ne_zero
  unfold xattrFind ext4bfXattrFindEntry at h
  generalize findEntryLoop i.nameIndex i.name sorted r.entries 0 1 = res at h hk hdrop
  obtain ⟨here, cmp⟩ := res
  dsimp only at h hk hdrop
  rw [Nat.zero_add] at hk
  subst hk
  by_cases hc : cmp = 0 ∧ ext4bfXattrCheckEntry (r.entries.getD here default) r.endOffs = true
  · -- `-EIO` for a found entry whose value is outside the region
    rw [if_pos hc] at h
    simp [eio, enodata] at h
  · rw [if_neg hc] at h
    by_cases hz : cmp = 0
    · rw [if_neg (not_not.mpr hz)] at h
      simp at h
      subst h
      refine ⟨rfl, hj, htake, fun _ => ?_, fun hnf => by simp at hnf⟩
      rcases hdrop with ⟨-, hne⟩ | ⟨e, rest, hd, -, hce⟩
      · exact absurd hz hne
      · exact ⟨e, rest, hd, hce ▸ hz⟩
    · rw [if_pos hz] at h
      simp [enodata] at h
      subst h
      refine ⟨rfl, hj, htake, fun hnf => by simp at hnf, fun _ e rest hd => ?_⟩
      rcases hdrop with ⟨hd', -⟩ | ⟨e', rest', hd', hstop, hce⟩
      · rw [hd'] at hd
        cases hd
      · rw [hd'] at hd
        cases hd
        exact ⟨hstop, hce ▸ hz⟩

theorem xattrFind_entries (h : xattrFind r i sorted = some s) : s.entries = r.entries := by
  rw [(xattrFind_spec h).1]

/-- A found entry: the table is cut at `s->here` around the entry with the requested key. -/
theorem xattrFind_found (hwf : r.WellFormed) (h : xattrFind r i sorted = some s)
    (hf : s.notFound = false) :
    ∃ A e B, s.entries = A ++ e :: B ∧ s.here = A.length ∧ e.key = (i.nameIndex, i.name) := by
  obtain ⟨-, hle, -, hfound, -⟩ := xattrFind_spec h
  obtain ⟨e, rest, hd, hz⟩ := hfound hf
  have hsplit : r.entries = r.entries.take s.here ++ e :: rest := by
    rw [← hd, List.take_append_drop]
  have he : e ∈ r.entries := by
    rw [hsplit]
    exact List.mem_append_right _ List.mem_cons_self
  refine ⟨r.entries.take s.here, e, rest, (xattrFind_entries h).trans hsplit, ?_,
    (entryCmp_eq_zero_iff (hwf.layout.fits e he).name_len).mp hz⟩
  rw [List.length_take, Nat.min_eq_left hle]

/-- A sorted search of a sorted table that does not find the key passes the smaller keys and
stops at a larger one or at the end of the table. -/
theorem xattrFind_notFound_sorted (hwf : r.WellFormed) (hsrt : r.Sorted)
    (h : xattrFind r i true = some s) (hf : s.notFound = true) :
    (∀ e ∈ r.entries.take s.here, keyOrder e.key < keyOrder (i.nameIndex, i.name)) ∧
      ∀ e ∈ r.entries.drop s.here, keyOrder (i.nameIndex, i.name) < keyOrder e.key := by
  obtain ⟨-, -, htake, -, hstop⟩ := xattrFind_spec h
  have hname : ∀ e ∈ r.entries, e.eName.length = e.eNameLen.toNat := fun e he =>
    (hwf.layout.fits e he).name_len
  refine ⟨fun e he => ?_, fun e he => ?_⟩
  · -- passed over: `cmp` was positive
    have hpos : 0 < entryCmp i.nameIndex i.name e := by
      have hpass := htake e he
      unfold FindStops at hpass
      simp only [true_or, and_true, not_le] at hpass
      exact hpass
    exact (entryCmp_pos_iff (hname e (List.mem_of_mem_take he))).mp hpos
  · -- stopped at: `cmp` was negative, and the later keys of a sorted table are larger still
    obtain ⟨e₀, rest, hd⟩ := List.exists_cons_of_ne_nil (List.ne_nil_of_mem he)
    obtain ⟨⟨hle0, -⟩, hne⟩ := hstop hf e₀ rest hd
    have hmem : e₀ ∈ r.entries.drop s.here := by
      rw [hd]
      exact List.mem_cons_self
    have he₀ : e₀ ∈ r.entries := List.mem_of_mem_drop hmem
    have hlt₀ : keyOrder (i.nameIndex, i.name) < keyOrder e₀.key :=
      (entryCmp_neg_iff (hname e₀ he₀)).mp (lt_of_le_of_ne hle0 hne)
    rw [hd, List.mem_cons] at he
    rcases he with rfl | he
    · exact hlt₀
    · unfold XattrRegion.Sorted at hsrt
      rw [← List.take_append_drop s.here r.entries, hd, List.map_append, List.map_cons,
        List.pairwise_append, List.pairwise_cons] at hsrt
      exact hlt₀.trans (hsrt.2.1.1 e.key (List.mem_map_of_mem he))

/-- An unsorted search that does not find the key passes every entry, none with the key. -/
theorem xattrFind_notFound_unsorted (hwf : r.WellFormed) (h : xattrFind r i false = some s)
    (hf : s.notFound = true) :
    r.entries.drop s.here = [] ∧ ∀ e ∈ r.entries.take s.here, e.key ≠ (i.nameIndex, i.name) := by
  obtain ⟨-, -, htake, -, hstop⟩ := xattrFind_spec h
  refine ⟨?_, fun e he hkey => ?_⟩
  · -- the unsorted loop stops only at the key, which would be found
    cases hd : r.entries.drop s.here with
    | nil => rfl
    | cons e₀ rest =>
      obtain ⟨⟨-, hz⟩, hne⟩ := hstop hf e₀ rest hd
      simp only [Bool.false_eq_true, false_or] at hz
      exact absurd hz hne
  · have hz := (entryCmp_eq_zero_iff
      (hwf.layout.fits e (List.mem_of_mem_take he)).name_len).mpr hkey
    exact htake e he ⟨hz.le, .inr hz⟩

/-- A name not found: the table is cut at `s->here` where the key is not among the entries, and
with a sorted search of a sorted table the keys before the cut are smaller and those after
larger. -/
theorem xattrFind_notFound (hwf : r.WellFormed) (hsorted : sorted = true → r.Sorted)
    (h : xattrFind r i sorted = some s) (hf : s.notFound = true) :
    ∃ A B, s.entries = A ++ B ∧ s.here = A.length ∧
      (i.nameIndex, i.name) ∉ (A ++ B).map XattrEntry.key ∧
      (sorted = true → (∀ e ∈ A, keyOrder e.key < keyOrder (i.nameIndex, i.name)) ∧
        ∀ e ∈ B, keyOrder (i.nameIndex, i.name) < keyOrder e.key) := by
  obtain ⟨-, hle, -, -, -⟩ := xattrFind_spec h
  have hfresh : (i.nameIndex, i.name) ∉
      (r.entries.take s.here ++ r.entries.drop s.here).map XattrEntry.key := by
    rw [List.mem_map]
    rintro ⟨e, he, hkey⟩
    cases sorted
    · obtain ⟨hB, hA⟩ := xattrFind_notFound_unsorted hwf h hf
      rw [hB, List.append_nil] at he
      exact hA e he hkey
    · obtain ⟨hA, hB⟩ := xattrFind_notFound_sorted hwf (hsorted rfl) h hf
      rcases List.mem_append.mp he with he | he
      · exact keyOrder_ne (hA e he) hkey
      · exact keyOrder_ne (hB e he) hkey.symm
  refine ⟨_, _, by rw [xattrFind_entries h, List.take_append_drop],
    by rw [List.length_take, Nat.min_eq_left hle], hfresh, fun hs => ?_⟩
  subst hs
  exact xattrFind_notFound_sorted hwf (hsorted rfl) h hf

end OptFs.Xattr