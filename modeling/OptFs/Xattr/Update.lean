import OptFs.Xattr.Region

/-!
# `ext4bf_xattr_set_entry` keeps the region and sets the one attribute

Each step of `ext4bf_xattr_set_entry` gets one specification, on the table cut at `s->here`
into the entries before it, the entry there (if any) and the entries after it:

* "Insert the new name" puts the new entry in the cut (`insertName_entries`);
* "Insert the new value" writes the value just below `min_offs`, above the table, and leaves
  every other value's bytes alone (`insertValue_spec`);
* "Just replace" writes the new value over the old one of the same padded size
  (`replaceValue_spec`);
* "Remove the old value" moves the values below it up over it and patches their offsets; each
  keeps its bytes (`adjustValueOffs_spec`, `removeValue_spec`);
* "Remove the old name" takes the entry out of the cut (`removeName_entries`).

The five paths through the function are assembled from these (`insertName_sets` and the
lemmas after it), each ending in `SetsAttr`: a well-formed region whose attributes, read as a map
(`XattrRegion.lookup`), are the old ones with the requested key set or removed, sorted when the
search was. The free-space test is what makes the new name and value fit: the table grows into
the free bytes from below and the value from above. `ext4bfXattrSetEntry_update` puts the paths
together over the search `xattrFind` leaves.
-/

namespace OptFs.Xattr

open Lib.ByteImage

variable {lo hi m : Nat} {e x : XattrEntry} {A B : List XattrEntry} {s : XattrSearch}
  {i : XattrInfo} {v : List UInt8}

/-! ## The table cut at `s->here` -/

theorem hereEntry_eq (hs : s.entries = A ++ x :: B) (hh : s.here = A.length) :
    s.hereEntry = x := by
  simp [XattrSearch.hereEntry, hs, hh]

@[simp] theorem XattrInfo.newEntry_key : i.newEntry.key = (i.nameIndex, i.name) := rfl

theorem XattrInfo.newEntry_eNameLen (h : i.name.length ≤ 255) :
    i.newEntry.eNameLen.toNat = i.name.length := by
  simp [XattrInfo.newEntry]
  omega

@[simp] theorem XattrInfo.newEntry_inRegion : i.newEntry.inRegion = false := rfl

theorem XattrInfo.newEntry_fits (h : i.name.length ≤ 255) (hk : (i.nameIndex, i.name) ≠ (0, [])) :
    i.newEntry.Fits lo hi where
  not_last := XattrEntry.isLastEntry_eq_false_of_key (XattrInfo.newEntry_eNameLen h).symm hk
  name_len := (XattrInfo.newEntry_eNameLen h).symm
  value_block := rfl
  value_lo hr := absurd hr (by simp)
  value_hi hr := absurd hr (by simp)

theorem insertName_entries (hs : s.entries = A ++ B) (hh : s.here = A.length) :
    (insertName i s).entries = A ++ i.newEntry :: B := by
  simp [insertName, hs, hh]

@[simp] theorem insertName_here : (insertName i s).here = s.here := rfl
@[simp] theorem insertName_img : (insertName i s).img = s.img := rfl
@[simp] theorem insertName_first : (insertName i s).first = s.first := rfl
@[simp] theorem insertName_endOffs : (insertName i s).endOffs = s.endOffs := rfl

@[simp] theorem insertValue_first : (insertValue v s m).first = s.first := by
  unfold insertValue
  split <;> rfl

@[simp] theorem insertValue_endOffs : (insertValue v s m).endOffs = s.endOffs := by
  unfold insertValue
  split <;> rfl

/-- "Insert the new value" at the cut: the entry there gets the value, written just below
`min_offs`, above `lo` and below every other value; the other values keep their bytes. -/
theorem insertValue_spec (hs : s.entries = A ++ x :: B) (hh : s.here = A.length)
    (hx : x.Fits lo hi) (hlay : Layout m hi (A ++ B)) (hlo : 0 < lo)
    (hm : lo + ext4XattrSize v.length ≤ m) (hmhi : m ≤ hi) (hhi : hi ≤ 65536) :
    ∃ x', (insertValue v s m).entries = A ++ x' :: B ∧ x'.key = x.key ∧
      x'.eNameLen = x.eNameLen ∧ Layout lo hi (A ++ x' :: B) ∧
      attrsOf (insertValue v s m).img (A ++ x' :: B) =
        attrsOf s.img A ++ (x.key, v) :: attrsOf s.img B := by
  have hsize := le_ext4XattrSize v.length
  have hothers : Layout lo hi (A ++ B) := hlay.mono (by omega)
  by_cases hv : v.length ≠ 0
  · -- the value goes just below `min_offs`
    have hpad := pad_le_ext4XattrSize (Nat.pos_of_ne_zero hv)
    let x' : XattrEntry := { x with
      eValueSize := v.length.toUInt32, eValueOffs := (m - ext4XattrSize v.length).toUInt16 }
    have hoffs : x'.eValueOffs.toNat = m - ext4XattrSize v.length := by
      simp only [x', Nat.toUInt16, UInt16.toNat_ofNat']
      omega
    have hsz : x'.eValueSize.toNat = v.length := by
      simp only [x', Nat.toUInt32, UInt32.toNat_ofNat']
      omega
    have hent : (insertValue v s m).entries = A ++ x' :: B := by
      simp [insertValue, hv, XattrSearch.hereEntry, hs, hh, x']
    have hw : WritesWithin s.img (insertValue v s m).img (m - ext4XattrSize v.length) m := by
      have himg : (insertValue v s m).img =
          place (fill s.img (m - ext4XattrSize v.length + ext4XattrSize v.length - ext4XattrPad)
            ext4XattrPad 0) (m - ext4XattrSize v.length) (ofList v) v.length := by
        simp [insertValue, hv]
      rw [himg]
      exact ((writesWithin_fill _ _ _ _).mono (by omega) (by omega)).trans
        ((writesWithin_place _ _ _ _).mono le_rfl (by omega))
    -- below `min_offs` and above the table, the offset is not zero
    have hx' : x'.Fits lo hi :=
      ⟨XattrEntry.isLastEntry_eq_false_of_offs (by omega), hx.name_len, hx.value_block,
        fun _ => by omega, fun _ => by unfold XattrEntry.valueEnd; rw [hoffs, hsz]; omega⟩
    refine ⟨x', hent, rfl, rfl, hothers.middle hx' fun y hy _ hyr => .inl ?_, ?_⟩
    · have := (hlay.fits y hy).value_lo hyr
      unfold XattrEntry.valueEnd
      rw [hoffs, hsz]
      omega
    · -- the others lie above `min_offs`, out of reach of the writes
      have hkeep : ∀ y ∈ A ++ B, valueOf (insertValue v s m).img y = valueOf s.img y :=
        fun y hy => valueOf_of_writesWithin hw (hlay.fits y hy) fun hyr =>
          .inr ((hlay.fits y hy).value_lo hyr)
      have hval : valueOf (insertValue v s m).img x' = v := by
        simp only [valueOf, hoffs, hsz]
        simp only [insertValue, hv, ne_eq, not_false_eq_true, if_true]
        exact readBytes_place_ofList _ _ v
      rw [attrsOf_append, attrsOf_cons, hval,
        attrsOf_congr fun y hy => hkeep y (List.mem_append_left _ hy),
        attrsOf_congr fun y hy => hkeep y (List.mem_append_right _ hy)]
      rfl
  · -- an empty value: only its size is written
    obtain rfl : v = [] := List.eq_nil_of_length_eq_zero (not_not.mp hv)
    let x' : XattrEntry := { x with eValueSize := 0 }
    have hent : (insertValue [] s m).entries = A ++ x' :: B := by
      simp [insertValue, XattrSearch.hereEntry, hs, hh, x']
    have hnot : x'.inRegion = false := by simp [XattrEntry.inRegion, x']
    have hx' : x'.Fits lo hi :=
      ⟨hx.not_last, hx.name_len, hx.value_block, fun h => absurd h (by simp [hnot]),
        fun h => absurd h (by simp [hnot])⟩
    have himg : (insertValue [] s m).img = s.img := by simp [insertValue]
    refine ⟨x', hent, rfl, rfl,
      hothers.middle hx' fun y _ h => absurd h (by simp [hnot]), ?_⟩
    rw [himg, attrsOf_append, attrsOf_cons, valueOf_of_not_inRegion hx' hnot]
    rfl

/-! ## Replacing a value of the same size -/

@[simp] theorem replaceValue_first : (replaceValue v s).first = s.first := rfl
@[simp] theorem replaceValue_endOffs : (replaceValue v s).endOffs = s.endOffs := rfl

theorem toNat_pos_of_inRegion (he : e.Fits lo hi) (hr : e.inRegion) : 0 < e.eValueSize.toNat := by
  have hne := he.inRegion_iff.mp hr
  rw [Nat.pos_iff_ne_zero]
  intro h0
  exact hne (UInt32.toNat_inj.mp (by simpa using h0))

/-- "The old and the new value have the same size. Just replace.": the bytes of the old value
take the new one, nothing else changes. -/
theorem replaceValue_spec (hs : s.entries = A ++ e :: B) (hh : s.here = A.length)
    (hlay : Layout lo hi (A ++ e :: B)) (hr : e.inRegion)
    (hsize : ext4XattrSize e.eValueSize.toNat = ext4XattrSize v.length) (hhi : hi ≤ 65536) :
    ∃ e', (replaceValue v s).entries = A ++ e' :: B ∧ e'.key = e.key ∧
      e'.eNameLen = e.eNameLen ∧ Layout lo hi (A ++ e' :: B) ∧
      attrsOf (replaceValue v s).img (A ++ e' :: B) =
        attrsOf s.img A ++ (e.key, v) :: attrsOf s.img B := by
  obtain ⟨hothers, he, hapart⟩ := hlay.of_middle
  have hend := he.value_hi hr
  unfold XattrEntry.valueEnd at hend
  have hvpos : 0 < v.length :=
    ext4XattrSize_pos_iff.mp (hsize ▸ ext4XattrSize_pos_iff.mpr (toNat_pos_of_inRegion he hr))
  have hpad := pad_le_ext4XattrSize hvpos
  have hvlen := le_ext4XattrSize v.length
  let e' : XattrEntry := { e with eValueSize := v.length.toUInt32 }
  have hsz : e'.eValueSize.toNat = v.length := by
    simp only [e', Nat.toUInt32, UInt32.toNat_ofNat']
    omega
  have hend' : e'.valueEnd = e.valueEnd := by
    unfold XattrEntry.valueEnd
    rw [hsz, hsize]
  have hreg : e'.inRegion := by
    have : e'.eValueSize ≠ 0 := fun h0 => by rw [h0] at hsz; simp at hsz; omega
    simp [XattrEntry.inRegion, e', he.value_block, this]
  have hent : (replaceValue v s).entries = A ++ e' :: B := by
    simp [replaceValue, XattrSearch.hereEntry, hs, hh, e']
  have himg : (replaceValue v s).img =
      place (fill s.img (e.eValueOffs.toNat + ext4XattrSize e.eValueSize.toNat - ext4XattrPad)
        ext4XattrPad 0) e.eValueOffs.toNat (ofList v) v.length := by
    simp [replaceValue, hereEntry_eq hs hh]
  have hw : WritesWithin s.img (replaceValue v s).img e.eValueOffs.toNat e.valueEnd := by
    rw [himg]
    unfold XattrEntry.valueEnd
    exact ((writesWithin_fill _ _ _ _).mono (by omega) (by omega)).trans
      ((writesWithin_place _ _ _ _).mono le_rfl (by omega))
  have he' : e'.Fits lo hi :=
    ⟨he.not_last, he.name_len, he.value_block, fun _ => he.value_lo hr,
      fun _ => hend' ▸ he.value_hi hr⟩
  refine ⟨e', hent, rfl, rfl,
    hothers.middle he' fun y hy _ hyr => hend' ▸ hapart y hy hr hyr, ?_⟩
  -- the other values are apart from the old one, so the writes miss them
  have hkeep : ∀ y ∈ A ++ B, valueOf (replaceValue v s).img y = valueOf s.img y :=
    fun y hy => valueOf_of_writesWithin hw (hothers.fits y hy) fun hyr =>
      (hapart y hy hr hyr).symm
  have hval : valueOf (replaceValue v s).img e' = v := by
    simp only [valueOf, hsz, himg]
    exact readBytes_place_ofList _ _ v
  rw [attrsOf_append, attrsOf_cons, hval,
    attrsOf_congr fun y hy => hkeep y (List.mem_append_left _ hy),
    attrsOf_congr fun y hy => hkeep y (List.mem_append_right _ hy)]
  rfl

/-! ## Removing a value -/

section adjust

variable {offs size : Nat} {y : XattrEntry}

@[simp] theorem adjustValueOffs_key : (adjustValueOffs offs size y).key = y.key := by
  unfold adjustValueOffs
  split <;> rfl

@[simp] theorem adjustValueOffs_eNameLen :
    (adjustValueOffs offs size y).eNameLen = y.eNameLen := by
  unfold adjustValueOffs
  split <;> rfl

@[simp] theorem adjustValueOffs_inRegion :
    (adjustValueOffs offs size y).inRegion = y.inRegion := by
  unfold adjustValueOffs
  split <;> rfl

@[simp] theorem adjustValueOffs_eValueSize :
    (adjustValueOffs offs size y).eValueSize = y.eValueSize := by
  unfold adjustValueOffs
  split <;> rfl

theorem adjustValueOffs_of_not_lt (h : ¬ (y.inRegion ∧ y.eValueOffs.toNat < offs)) :
    adjustValueOffs offs size y = y := if_neg h

/-- What "Remove the old value" does to another entry, with the removed value of `size` bytes at
`offs` above `m`: a value below the removed one moves up by `size` and keeps its bytes, a value
above it stays. -/
theorem adjustValueOffs_spec (img : Image) (hy : y.Fits m hi) (hmo : m ≤ offs)
    (hend : offs + size ≤ hi) (hhi : hi ≤ 65536) (hsize : 0 < size)
    (hapart : y.inRegion → y.valueEnd ≤ offs ∨ offs + size ≤ y.eValueOffs.toNat) :
    (adjustValueOffs offs size y).Fits (m + size) hi ∧
      valueOf (fill (move img (m + size) m (offs - m)) m size 0) (adjustValueOffs offs size y) =
        valueOf img y ∧
      (y.inRegion →
        ((adjustValueOffs offs size y).eValueOffs.toNat = y.eValueOffs.toNat + size ∧
            y.valueEnd ≤ offs) ∨
          ((adjustValueOffs offs size y).eValueOffs.toNat = y.eValueOffs.toNat ∧
            offs + size ≤ y.eValueOffs.toNat)) := by
  cases hr : y.inRegion
  · -- no value in the region: nothing moves
    rw [adjustValueOffs_of_not_lt (by simp [hr])]
    refine ⟨⟨hy.not_last, hy.name_len, hy.value_block, by simp [hr], by simp [hr]⟩, ?_, by simp⟩
    rw [valueOf_of_not_inRegion hy hr, valueOf_of_not_inRegion hy hr]
  · have hlo := hy.value_lo hr
    have hyend := hy.value_hi hr
    have hypos := toNat_pos_of_inRegion hy hr
    have hysz := le_ext4XattrSize y.eValueSize.toNat
    have hypad := ext4XattrSize_pos_iff.mpr hypos
    unfold XattrEntry.valueEnd at hyend hapart ⊢
    rcases hapart hr with hlow | hhigh
    · -- below the removed value: moved up over it
      have hlt : y.eValueOffs.toNat < offs := by omega
      let y' : XattrEntry := { y with eValueOffs := (y.eValueOffs.toNat + size).toUInt16 }
      have hadj : adjustValueOffs offs size y = y' := if_pos ⟨hr, hlt⟩
      have hoffs : y'.eValueOffs.toNat = y.eValueOffs.toNat + size := by
        simp only [y', Nat.toUInt16, UInt16.toNat_ofNat']
        omega
      have hysize : y'.eValueSize = y.eValueSize := rfl
      rw [hadj]
      refine ⟨⟨XattrEntry.isLastEntry_eq_false_of_offs (by rw [hoffs]; omega), hy.name_len,
        hy.value_block, fun _ => by rw [hoffs]; omega,
        fun _ => by unfold XattrEntry.valueEnd; rw [hoffs, hysize]; omega⟩, ?_,
        fun _ => .inl ⟨hoffs, hlow⟩⟩
      have hshift : y.eValueOffs.toNat + size = m + size + (y.eValueOffs.toNat - m) := by omega
      simp only [valueOf]
      rw [hoffs, hysize, (writesWithin_fill _ _ _ _).readBytes_eq (.inr (by omega)), hshift,
        readBytes_move (by omega), Nat.add_sub_cancel' hlo]
    · -- above the removed value: not moved, not written
      rw [adjustValueOffs_of_not_lt (fun h => by have := h.2; omega)]
      refine ⟨⟨hy.not_last, hy.name_len, hy.value_block, fun _ => by omega, hy.value_hi⟩, ?_,
        fun _ => .inr ⟨rfl, hhigh⟩⟩
      have hw : WritesWithin img (fill (move img (m + size) m (offs - m)) m size 0) m
          (offs + size) :=
        ((writesWithin_move _ _ _ _).mono (by omega) (by omega)).trans
          ((writesWithin_fill _ _ _ _).mono le_rfl (by omega))
      exact hw.readBytes_eq (.inr hhigh)

end adjust

theorem attrsOf_map {img img' : Image} {f : XattrEntry → XattrEntry} {X : List XattrEntry}
    (h : ∀ y ∈ X, (f y).key = y.key ∧ valueOf img' (f y) = valueOf img y) :
    attrsOf img' (X.map f) = attrsOf img X := by
  unfold attrsOf
  rw [List.map_map]
  exact List.map_congr_left fun y hy => by simp [(h y hy).1, (h y hy).2]

theorem entriesLen_map {f : XattrEntry → XattrEntry} {X : List XattrEntry}
    (h : ∀ y, (f y).eNameLen = y.eNameLen) : entriesLen (X.map f) = entriesLen X := by
  unfold entriesLen
  rw [List.map_map]
  exact congrArg List.sum (List.map_congr_left fun y _ => by simp [h y])

@[simp] theorem removeValue_here : (removeValue s m).1.here = s.here := rfl
@[simp] theorem removeValue_first : (removeValue s m).1.first = s.first := rfl
@[simp] theorem removeValue_endOffs : (removeValue s m).1.endOffs = s.endOffs := rfl

theorem removeValue_snd : (removeValue s m).2 = m + ext4XattrSize s.hereEntry.eValueSize.toNat :=
  rfl

/-- The entry with its value cleared, `e_value_size` and `e_value_offs` zero, has no value in
the region; with a name index or a name its first word is still not zero. -/
theorem XattrEntry.Fits.clearValue (he : e.Fits lo hi) (hk : e.key ≠ (0, [])) {lo' hi' : Nat} :
    ({ e with eValueSize := 0, eValueOffs := 0 } : XattrEntry).Fits lo' hi' :=
  ⟨XattrEntry.isLastEntry_eq_false_of_key he.name_len hk, he.name_len, he.value_block,
    fun h => absurd h (by simp [XattrEntry.inRegion]),
    fun h => absurd h (by simp [XattrEntry.inRegion])⟩

/-- "Remove the old value" at the cut: the entry there loses its value, the values below it
move up by its padded size and the others stay, each keeping its bytes, and every value is
above the new `min_offs`. -/
theorem removeValue_spec (hs : s.entries = A ++ e :: B) (hh : s.here = A.length)
    (hlay : Layout m hi (A ++ e :: B)) (hr : e.inRegion) (hhi : hi ≤ 65536) :
    ∃ A' B', (removeValue s m).1.entries =
        A' ++ { e with eValueSize := 0, eValueOffs := 0 } :: B' ∧
      A'.length = A.length ∧ entriesLen A' = entriesLen A ∧ entriesLen B' = entriesLen B ∧
      attrsOf (removeValue s m).1.img A' = attrsOf s.img A ∧
      attrsOf (removeValue s m).1.img B' = attrsOf s.img B ∧
      Layout (removeValue s m).2 hi (A' ++ B') ∧ (removeValue s m).2 ≤ hi := by
  obtain ⟨hothers, he, hapart⟩ := hlay.of_middle
  have hlo := he.value_lo hr
  have hend := he.value_hi hr
  unfold XattrEntry.valueEnd at hend
  have hsize := ext4XattrSize_pos_iff.mpr (toNat_pos_of_inRegion he hr)
  have hent : (removeValue s m).1.entries =
      A.map (adjustValueOffs e.eValueOffs.toNat (ext4XattrSize e.eValueSize.toNat)) ++
        { e with eValueSize := 0, eValueOffs := 0 } ::
          B.map (adjustValueOffs e.eValueOffs.toNat (ext4XattrSize e.eValueSize.toNat)) := by
    simp only [removeValue, hereEntry_eq hs hh, hs, hh]
    rw [List.set_append_right _ _ le_rfl, Nat.sub_self, List.set_cons_zero, List.map_append,
      List.map_cons, adjustValueOffs_of_not_lt (by simp [XattrEntry.inRegion])]
  have himg : (removeValue s m).1.img =
      fill (move s.img (m + ext4XattrSize e.eValueSize.toNat) m (e.eValueOffs.toNat - m)) m
        (ext4XattrSize e.eValueSize.toNat) 0 := by
    simp [removeValue, hereEntry_eq hs hh]
  have hmin : (removeValue s m).2 = m + ext4XattrSize e.eValueSize.toNat := by
    simp [removeValue, hereEntry_eq hs hh]
  -- every other entry, by where its value lies against the removed one
  have hspec := fun y (hy : y ∈ A ++ B) =>
    adjustValueOffs_spec s.img (hothers.fits y hy) hlo hend hhi hsize fun hyr =>
      (hapart y hy hr hyr).symm
  have hkeep : ∀ X, (∀ y ∈ X, y ∈ A ++ B) →
      attrsOf (removeValue s m).1.img
          (X.map (adjustValueOffs e.eValueOffs.toNat (ext4XattrSize e.eValueSize.toNat))) =
        attrsOf s.img X := fun X hX =>
    attrsOf_map fun y hy => ⟨adjustValueOffs_key, himg ▸ (hspec y (hX y hy)).2.1⟩
  refine ⟨_, _, hent, List.length_map _, entriesLen_map fun _ => adjustValueOffs_eNameLen,
    entriesLen_map fun _ => adjustValueOffs_eNameLen,
    hkeep A fun y hy => List.mem_append_left _ hy, hkeep B fun y hy => List.mem_append_right _ hy,
    ?_, by omega⟩
  rw [← List.map_append, hmin]
  refine ⟨fun y' hy' => ?_, ?_⟩
  · obtain ⟨y, hy, rfl⟩ := List.mem_map.mp hy'
    exact (hspec y hy).1
  · -- moved values move together, and the moved ones stay below the others
    rw [List.pairwise_map]
    refine hothers.apart.imp_of_mem fun {y₁ y₂} hy₁ hy₂ h12 hr₁ hr₂ => ?_
    simp only [adjustValueOffs_inRegion] at hr₁ hr₂
    have h12 := h12 hr₁ hr₂
    have hs₁ := (hspec y₁ hy₁).2.2 hr₁
    have hs₂ := (hspec y₂ hy₂).2.2 hr₂
    unfold XattrEntry.valueEnd at h12 hs₁ hs₂ ⊢
    simp only [adjustValueOffs_eValueSize]
    omega


/-! ## Removing a name -/

theorem removeName_entries (hs : s.entries = A ++ e :: B) (hh : s.here = A.length) :
    (removeName s).entries = A ++ B := by
  simp only [removeName, hs, hh]
  rw [List.eraseIdx_append_of_length_le le_rfl, Nat.sub_self, List.eraseIdx_cons_zero]

@[simp] theorem removeName_img : (removeName s).img = s.img := rfl
@[simp] theorem removeName_first : (removeName s).first = s.first := rfl
@[simp] theorem removeName_endOffs : (removeName s).endOffs = s.endOffs := rfl

/-! ## What an update leaves -/

/-- What an update of the key `k` to `v` (`none`: removed) must leave in `r'`, from `r`: a
well-formed region holding `r`'s attributes with that one key changed, and a sorted table if the
search was sorted. -/
def SetsAttr (r r' : XattrRegion) (k : UInt8 × List UInt8) (v : Option (List UInt8))
    (sorted : Bool) : Prop :=
  r'.WellFormed ∧
    (∀ nameIndex name, r'.lookup nameIndex name =
      if (nameIndex, name) = k then v else r.lookup nameIndex name) ∧
    (sorted = true → r'.Sorted)

/-- The table of `r` cut into `A` and `B` around the key `k`: `k` is in neither part, the keys
are distinct, the other keys read as from the two parts, and for a sorted search `k` sits in
order between them. -/
structure CutAt (r : XattrRegion) (A B : List XattrEntry) (k : UInt8 × List UInt8)
    (sorted : Bool) : Prop where
  fresh : k ∉ (A ++ B).map XattrEntry.key
  nodup : ((A ++ B).map XattrEntry.key).Nodup
  others : ∀ q, q ≠ k → (attrsOf r.img r.entries).lookup q = (attrsOf r.img (A ++ B)).lookup q
  ordered : sorted = true →
    (A.map XattrEntry.key ++ k :: B.map XattrEntry.key).Pairwise fun a b => keyOrder a < keyOrder b

section outcome

variable {r r' : XattrRegion} {k : UInt8 × List UInt8} {sorted : Bool}

/-- The cut at a found entry. -/
theorem cutAt_found (hwf : r.WellFormed) (hsorted : sorted = true → r.Sorted)
    (hent : r.entries = A ++ e :: B) (hkey : e.key = k) : CutAt r A B k sorted := by
  have hkeys : r.entries.map XattrEntry.key =
      A.map XattrEntry.key ++ k :: B.map XattrEntry.key := by
    simp [hent, hkey]
  have hnd := hwf.keys_nodup
  rw [hkeys, List.nodup_middle, List.nodup_cons, ← List.map_append] at hnd
  refine ⟨hnd.1, hnd.2, fun q hq => ?_, fun hs => ?_⟩
  · rw [hent, attrsOf_append, attrsOf_cons, hkey, Lib.AssocList.lookup_middle, if_neg hq,
      attrsOf_append]
    rw [← attrsOf_append, map_fst_attrsOf]
    exact hnd.1
  · have hsrt := hsorted hs
    unfold XattrRegion.Sorted at hsrt
    rwa [hkeys] at hsrt

/-- The cut at a key not in the table, in order for a sorted search of a sorted table. -/
theorem cutAt_notFound (hwf : r.WellFormed) (hsorted : sorted = true → r.Sorted)
    (hent : r.entries = A ++ B) (hfresh : k ∉ (A ++ B).map XattrEntry.key)
    (hord : sorted = true → (∀ e ∈ A, keyOrder e.key < keyOrder k) ∧
      ∀ e ∈ B, keyOrder k < keyOrder e.key) : CutAt r A B k sorted := by
  refine ⟨hfresh, hent ▸ hwf.keys_nodup, fun q _ => by rw [hent], fun hs => ?_⟩
  have hsrt := hsorted hs
  unfold XattrRegion.Sorted at hsrt
  rw [hent, List.map_append, List.pairwise_append] at hsrt
  obtain ⟨hA, hB⟩ := hord hs
  rw [List.pairwise_append, List.pairwise_cons]
  refine ⟨hsrt.1, ⟨?_, hsrt.2.1⟩, fun a ha b hb => ?_⟩
  · intro b hb
    obtain ⟨e', he', rfl⟩ := List.mem_map.mp hb
    exact hB e' he'
  · obtain ⟨e', he', rfl⟩ := List.mem_map.mp ha
    rcases List.mem_cons.mp hb with rfl | hb
    · exact hA e' he'
    · exact hsrt.2.2 _ ha b hb

/-- An update that sets `k`: the new region's attributes are the two parts with `(k, v)`
between them. -/
theorem setsAttr_of_set {v : List UInt8} (hcut : CutAt r A B k sorted)
    (hend : r'.endOffs ≤ 65536) (htab : r'.tableEnd ≤ r'.endOffs)
    (hlay : Layout r'.tableEnd r'.endOffs r'.entries)
    (hattrs : attrsOf r'.img r'.entries = attrsOf r.img A ++ (k, v) :: attrsOf r.img B) :
    SetsAttr r r' k (some v) sorted := by
  have hkeys : r'.entries.map XattrEntry.key =
      A.map XattrEntry.key ++ k :: B.map XattrEntry.key := by
    have := congrArg (List.map Prod.fst) hattrs
    simpa [map_fst_attrsOf] using this
  have hfresh : k ∉ (attrsOf r.img A ++ attrsOf r.img B).map Prod.fst := by
    rw [← attrsOf_append, map_fst_attrsOf]
    exact hcut.fresh
  refine ⟨⟨hend, htab, ?_, hlay⟩, fun nameIndex name => ?_, fun hs => ?_⟩
  · rw [hkeys, List.nodup_middle, List.nodup_cons, ← List.map_append]
    exact ⟨hcut.fresh, hcut.nodup⟩
  · unfold XattrRegion.lookup
    rw [hattrs, Lib.AssocList.lookup_middle hfresh]
    split_ifs with hq
    · rfl
    · rw [hcut.others _ hq, attrsOf_append]
  · unfold XattrRegion.Sorted
    rw [hkeys]
    exact hcut.ordered hs

/-- An update that removes `k`: the new region's attributes are the two parts. -/
theorem setsAttr_of_erase (hcut : CutAt r A B k sorted)
    (hend : r'.endOffs ≤ 65536) (htab : r'.tableEnd ≤ r'.endOffs)
    (hlay : Layout r'.tableEnd r'.endOffs r'.entries)
    (hattrs : attrsOf r'.img r'.entries = attrsOf r.img A ++ attrsOf r.img B) :
    SetsAttr r r' k none sorted := by
  have hkeys : r'.entries.map XattrEntry.key = (A ++ B).map XattrEntry.key := by
    have := congrArg (List.map Prod.fst) hattrs
    simpa [map_fst_attrsOf] using this
  refine ⟨⟨hend, htab, hkeys ▸ hcut.nodup, hlay⟩, fun nameIndex name => ?_, fun hs => ?_⟩
  · unfold XattrRegion.lookup
    rw [hattrs, ← attrsOf_append]
    split_ifs with hq
    · rw [hq]
      exact Lib.AssocList.lookup_eq_none (by rw [map_fst_attrsOf]; exact hcut.fresh)
    · rw [hcut.others _ hq]
  · -- the keys left are those of the sorted keys around `k`
    unfold XattrRegion.Sorted
    rw [hkeys, List.map_append]
    exact (hcut.ordered hs).sublist ((List.Sublist.refl _).append (List.sublist_cons_self _ _))

end outcome

/-! ## The paths of `ext4bf_xattr_set_entry` -/

theorem setEntryFree_notFound {m : Nat} (h : s.notFound = true) :
    setEntryFree i s m = m - (s.first + entriesLen s.entries) - 4 := by
  simp [setEntryFree, h]

theorem setEntryFree_found {m : Nat} (h : s.notFound = false) :
    setEntryFree i s m = m - (s.first + entriesLen s.entries) - 4 +
      (if s.hereEntry.inRegion then ext4XattrSize s.hereEntry.eValueSize.toNat else 0) +
        ext4XattrLen i.name.length := by
  simp [setEntryFree, h]

/-- The name of a found entry is as long as its `e_name_len`. -/
theorem nameLen_of_key (he : e.Fits lo hi) (hkey : e.key = (i.nameIndex, i.name)) :
    i.name.length = e.eNameLen.toNat := by
  have hname : e.eName = i.name := congrArg Prod.snd hkey
  rw [← hname, he.name_len]

section paths

variable {sorted : Bool} (hwf : s.toXattrRegion.WellFormed)
include hwf

/-- The end of the three paths that insert a value: the table of `s₁` is cut at `s->here`
around an entry `x` for the key, its two parts holding the attributes of `s`'s, and the value
fits between the table and `m`, above which the other values lie. -/
theorem insertValue_sets {s₁ : XattrSearch} {A₁ B₁ : List XattrEntry} {m : Nat}
    {k : UInt8 × List UInt8} (hcut : CutAt s.toXattrRegion A B k sorted)
    (hs₁ : s₁.entries = A₁ ++ x :: B₁) (hh₁ : s₁.here = A₁.length) (hkey : x.key = k)
    (hx : x.Fits (s.first + entriesLen A + entriesLen B + ext4XattrLen x.eNameLen.toNat + 4)
      s.endOffs)
    (hfirst : s₁.first = s.first) (hend : s₁.endOffs = s.endOffs)
    (heA : entriesLen A₁ = entriesLen A) (heB : entriesLen B₁ = entriesLen B)
    (hattA : attrsOf s₁.img A₁ = attrsOf s.img A) (hattB : attrsOf s₁.img B₁ = attrsOf s.img B)
    (hlay : Layout m s.endOffs (A₁ ++ B₁))
    (hfit : s.first + entriesLen A + entriesLen B + ext4XattrLen x.eNameLen.toNat + 4 +
      ext4XattrSize v.length ≤ m) (hm : m ≤ s.endOffs) :
    SetsAttr s.toXattrRegion (insertValue v s₁ m).toXattrRegion k (some v) sorted := by
  obtain ⟨x', hent, hkey', hlen, hlay', hattrs⟩ :=
    insertValue_spec hs₁ hh₁ hx hlay (by omega) hfit hm hwf.end_le
  -- the table keeps its length: the entry at the cut keeps its name
  have htab : (insertValue v s₁ m).toXattrRegion.tableEnd =
      s.first + entriesLen A + entriesLen B + ext4XattrLen x.eNameLen.toNat + 4 := by
    unfold XattrRegion.tableEnd
    simp only [hent, insertValue_first, hfirst, entriesLen_append, entriesLen_cons, hlen, heA,
      heB]
    omega
  refine setsAttr_of_set hcut (by rw [insertValue_endOffs, hend]; exact hwf.end_le) ?_ ?_ ?_
  · rw [htab, insertValue_endOffs, hend]
    omega
  · rw [htab, hent, insertValue_endOffs, hend]
    exact hlay'
  · rw [hent, hattrs, hattA, hattB, hkey]

/-- "Insert the new name" and then the value, for a name not found. -/
theorem insertName_sets (hname : i.name.length ≤ 255) (hk : (i.nameIndex, i.name) ≠ (0, []))
    (hcut : CutAt s.toXattrRegion A B (i.nameIndex, i.name) sorted)
    (hs : s.entries = A ++ B) (hh : s.here = A.length) (hnf : s.notFound = true)
    (hspace : ¬ (setEntryFree i s (minOffsOf s.entries s.endOffs) < ext4XattrSize v.length ∨
      setEntryFree i s (minOffsOf s.entries s.endOffs) <
        ext4XattrLen i.name.length + ext4XattrSize v.length)) :
    SetsAttr s.toXattrRegion
      (insertValue v (insertName i s) (minOffsOf s.entries s.endOffs)).toXattrRegion
      (i.nameIndex, i.name) (some v) sorted := by
  obtain ⟨hlo, hmhi, hmlay⟩ := hwf.layout.minOffsOf hwf.table_le
  rw [setEntryFree_notFound hnf] at hspace
  set m := minOffsOf s.entries s.endOffs
  unfold XattrRegion.tableEnd at hlo
  rw [hs] at hmlay hlo hspace
  simp only [entriesLen_append] at hlo hspace
  -- the new entry grows the table into the free bytes, the value fills them from above
  have hfit : s.first + entriesLen A + entriesLen B +
      ext4XattrLen i.newEntry.eNameLen.toNat + 4 + ext4XattrSize v.length ≤ m := by
    rw [XattrInfo.newEntry_eNameLen hname]
    omega
  exact insertValue_sets hwf hcut (insertName_entries hs hh) (by rw [insertName_here, hh]) rfl
    (XattrInfo.newEntry_fits hname hk) rfl rfl rfl rfl rfl rfl hmlay hfit hmhi

/-- A found entry without a value in the region gets the value below `min_offs`. -/
theorem insertValue_found_sets (hcut : CutAt s.toXattrRegion A B (i.nameIndex, i.name) sorted)
    (hs : s.entries = A ++ e :: B) (hh : s.here = A.length) (hkey : e.key = (i.nameIndex, i.name))
    (hnf : s.notFound = false) (hr : e.inRegion = false)
    (hspace : ¬ (setEntryFree i s (minOffsOf s.entries s.endOffs) < ext4XattrSize v.length ∨
      setEntryFree i s (minOffsOf s.entries s.endOffs) <
        ext4XattrLen i.name.length + ext4XattrSize v.length)) :
    SetsAttr s.toXattrRegion (insertValue v s (minOffsOf s.entries s.endOffs)).toXattrRegion
      (i.nameIndex, i.name) (some v) sorted := by
  obtain ⟨hlo, hmhi, hmlay⟩ := hwf.layout.minOffsOf hwf.table_le
  rw [setEntryFree_found hnf, hereEntry_eq hs hh, hr, if_neg Bool.false_ne_true] at hspace
  set m := minOffsOf s.entries s.endOffs
  unfold XattrRegion.tableEnd at hlo
  rw [hs] at hmlay hlo hspace
  simp only [entriesLen_append, entriesLen_cons] at hlo hspace
  obtain ⟨hothers, he, -⟩ := hmlay.of_middle
  -- the entry's own name counts as free: the value alone must fit
  rw [nameLen_of_key he hkey] at hspace
  exact insertValue_sets hwf hcut hs hh hkey (he.mono (by omega)) rfl rfl rfl rfl rfl rfl hothers
    (by omega) hmhi

/-- A found value replaced by one of another size: the old value removed, the new one below
the new `min_offs`. -/
theorem removeValue_insertValue_sets (hk : (i.nameIndex, i.name) ≠ (0, []))
    (hcut : CutAt s.toXattrRegion A B (i.nameIndex, i.name) sorted)
    (hs : s.entries = A ++ e :: B) (hh : s.here = A.length) (hkey : e.key = (i.nameIndex, i.name))
    (hnf : s.notFound = false) (hr : e.inRegion = true)
    (hspace : ¬ (setEntryFree i s (minOffsOf s.entries s.endOffs) < ext4XattrSize v.length ∨
      setEntryFree i s (minOffsOf s.entries s.endOffs) <
        ext4XattrLen i.name.length + ext4XattrSize v.length)) :
    SetsAttr s.toXattrRegion
      (insertValue v (removeValue s (minOffsOf s.entries s.endOffs)).1
        (removeValue s (minOffsOf s.entries s.endOffs)).2).toXattrRegion
      (i.nameIndex, i.name) (some v) sorted := by
  obtain ⟨hlo, hmhi, hmlay⟩ := hwf.layout.minOffsOf hwf.table_le
  rw [setEntryFree_found hnf, hereEntry_eq hs hh, hr, if_pos rfl] at hspace
  set m := minOffsOf s.entries s.endOffs
  unfold XattrRegion.tableEnd at hlo
  rw [hs] at hmlay hlo hspace
  simp only [entriesLen_append, entriesLen_cons] at hlo hspace
  have he := (hmlay.of_middle).2.1
  rw [nameLen_of_key he hkey] at hspace
  obtain ⟨A', B', hent₁, hlenA, heA, heB, hattA, hattB, hlay₁, hm₁⟩ :=
    removeValue_spec hs hh hmlay hr hwf.end_le
  -- the freed value counts as free space: the new one fits below the new `min_offs`
  have hfit : s.first + entriesLen A + entriesLen B + ext4XattrLen e.eNameLen.toNat + 4 +
      ext4XattrSize v.length ≤ (removeValue s m).2 := by
    rw [removeValue_snd, hereEntry_eq hs hh]
    omega
  -- the entry keeps its key, so clearing its value offset leaves its first word nonzero
  exact insertValue_sets hwf hcut hent₁ (by rw [removeValue_here, hh, hlenA]) hkey
    (he.clearValue (hkey ▸ hk)) rfl rfl heA heB hattA hattB hlay₁ hfit hm₁

/-- A found value replaced in place by one of the same padded size. -/
theorem replaceValue_sets (hcut : CutAt s.toXattrRegion A B (i.nameIndex, i.name) sorted)
    (hs : s.entries = A ++ e :: B) (hh : s.here = A.length) (hkey : e.key = (i.nameIndex, i.name))
    (hr : e.inRegion = true)
    (hsize : ext4XattrSize e.eValueSize.toNat = ext4XattrSize v.length) :
    SetsAttr s.toXattrRegion (replaceValue v s).toXattrRegion (i.nameIndex, i.name) (some v)
      sorted := by
  have hlay₀ := hwf.layout
  have htab₀ := hwf.table_le
  unfold XattrRegion.tableEnd at hlay₀ htab₀
  rw [hs] at hlay₀ htab₀
  obtain ⟨e', hent, hkey', hlen, hlay, hattrs⟩ :=
    replaceValue_spec hs hh hlay₀ hr hsize hwf.end_le
  have htab : (replaceValue v s).toXattrRegion.tableEnd =
      s.first + entriesLen (A ++ e :: B) + 4 := by
    unfold XattrRegion.tableEnd
    simp only [hent, replaceValue_first, entriesLen_append, entriesLen_cons, hlen]
  refine setsAttr_of_set hcut (by simpa using hwf.end_le) ?_ ?_ ?_
  · rw [htab, replaceValue_endOffs]
    exact htab₀
  · rw [htab, hent, replaceValue_endOffs]
    exact hlay
  · rw [hent, hattrs, hkey]

/-- A found attribute removed: its value, if in the region, then its name. -/
theorem removeName_sets (hcut : CutAt s.toXattrRegion A B (i.nameIndex, i.name) sorted)
    (hs : s.entries = A ++ e :: B) (hh : s.here = A.length) :
    SetsAttr s.toXattrRegion
      (removeName (if s.hereEntry.inRegion then (removeValue s (minOffsOf s.entries s.endOffs)).1
        else s)).toXattrRegion (i.nameIndex, i.name) none sorted := by
  obtain ⟨hlo, -, hmlay⟩ := hwf.layout.minOffsOf hwf.table_le
  have htab₀ := hwf.table_le
  set m := minOffsOf s.entries s.endOffs
  unfold XattrRegion.tableEnd at hlo htab₀
  rw [hs] at hmlay hlo htab₀
  simp only [entriesLen_append, entriesLen_cons] at hlo htab₀
  rw [hereEntry_eq hs hh]
  cases hr : e.inRegion
  · -- no value to remove: the table closes over the entry
    rw [if_neg Bool.false_ne_true]
    have hent := removeName_entries hs hh
    refine setsAttr_of_erase hcut (by simpa using hwf.end_le) ?_ ?_ ?_
    · unfold XattrRegion.tableEnd
      simp only [hent, removeName_first, removeName_endOffs, entriesLen_append]
      omega
    · unfold XattrRegion.tableEnd
      rw [hent, removeName_first, removeName_endOffs]
      exact (hmlay.of_middle).1.mono (by simp only [entriesLen_append]; omega)
    · rw [hent, removeName_img, attrsOf_append]
  · rw [if_pos rfl]
    obtain ⟨A', B', hent₁, hlenA, heA, heB, hattA, hattB, hlay₁, -⟩ :=
      removeValue_spec hs hh hmlay hr hwf.end_le
    have hent := removeName_entries hent₁ (by rw [removeValue_here, hh, hlenA])
    have hmin : m ≤ (removeValue s m).2 := by
      rw [removeValue_snd]
      omega
    refine setsAttr_of_erase hcut (by simpa using hwf.end_le) ?_ ?_ ?_
    · unfold XattrRegion.tableEnd
      simp only [hent, removeName_first, removeName_endOffs, removeValue_first,
        removeValue_endOffs, entriesLen_append, heA, heB]
      omega
    · unfold XattrRegion.tableEnd
      rw [hent, removeName_first, removeName_endOffs, removeValue_first, removeValue_endOffs]
      exact hlay₁.mono (by simp only [entriesLen_append, heA, heB]; omega)
    · rw [hent, removeName_img, attrsOf_append, hattA, hattB]

end paths

/-! ## The update -/

/-- `ext4bf_xattr_set_entry` on a search `xattrFind` set up over a well-formed region, for a
name of at most 255 bytes (`ext4bf_xattr_set_handle` returns `-ERANGE` for a longer one), a key
other than name index 0 with the empty name (the handlers' indexes are 1 to 6), whose entry
would begin with a zero word and end the table, and a removal only of a name found
(`ext4bf_xattr_set_handle` calls it so): either `-ENOSPC` with the
region unchanged, or a well-formed region holding the old attributes with the requested one
inserted, replaced or removed, and a sorted table after a sorted search of a sorted one. -/
theorem ext4bfXattrSetEntry_update {r : XattrRegion} (hwf : r.WellFormed) {i : XattrInfo}
    (hname : i.name.length ≤ 255) (hnamed : (i.nameIndex, i.name) ≠ (0, [])) {sorted : Bool}
    (hsorted : sorted = true → r.Sorted)
    {s : XattrSearch} (hfind : xattrFind r i sorted = some s)
    (hreq : i.value = none → s.notFound = false) :
    ((ext4bfXattrSetEntry i s).1 = -enospc ∧ (ext4bfXattrSetEntry i s).2.toXattrRegion = r) ∨
      ((ext4bfXattrSetEntry i s).1 = 0 ∧ (ext4bfXattrSetEntry i s).2.toXattrRegion.WellFormed ∧
        (∀ nameIndex name, (ext4bfXattrSetEntry i s).2.toXattrRegion.lookup nameIndex name =
          if (nameIndex, name) = (i.nameIndex, i.name) then i.value
          else r.lookup nameIndex name) ∧
        (sorted = true → (ext4bfXattrSetEntry i s).2.toXattrRegion.Sorted)) := by
  -- where the search left `s->here`: at the entry with the name, or at a cut without it
  have hfound : s.notFound = false → ∃ A e B, s.entries = A ++ e :: B ∧ s.here = A.length ∧
      e.key = (i.nameIndex, i.name) ∧ CutAt r A B (i.nameIndex, i.name) sorted := by
    intro hnf
    obtain ⟨A, e, B, hs, hh, hkey⟩ := xattrFind_found hwf hfind hnf
    exact ⟨A, e, B, hs, hh, hkey,
      cutAt_found hwf hsorted ((xattrFind_entries hfind).symm.trans hs) hkey⟩
  have hnew : s.notFound = true → ∃ A B, s.entries = A ++ B ∧ s.here = A.length ∧
      CutAt r A B (i.nameIndex, i.name) sorted := by
    intro hnf
    obtain ⟨A, B, hs, hh, hfresh, hord⟩ := xattrFind_notFound hwf hsorted hfind hnf
    exact ⟨A, B, hs, hh,
      cutAt_notFound hwf hsorted ((xattrFind_entries hfind).symm.trans hs) hfresh hord⟩
  obtain rfl := (xattrFind_spec hfind).1
  unfold ext4bfXattrSetEntry
  cases hv : i.value with
  | none =>
    obtain ⟨A, e, B, hs, hh, -, hcut⟩ := hfound (hreq hv)
    exact .inr ⟨rfl, removeName_sets hwf hcut hs hh⟩
  | some v =>
    dsimp only
    split_ifs with hspace hnf hreg hsize
    · exact .inl ⟨rfl, rfl⟩
    · obtain ⟨A, B, hs, hh, hcut⟩ := hnew hnf
      exact .inr ⟨rfl, insertName_sets hwf hname hnamed hcut hs hh hnf hspace⟩
    · obtain ⟨A, e, B, hs, hh, hkey, hcut⟩ := hfound (by simpa using hnf)
      rw [hereEntry_eq hs hh] at hreg hsize
      exact .inr ⟨rfl, replaceValue_sets hwf hcut hs hh hkey hreg hsize⟩
    · obtain ⟨A, e, B, hs, hh, hkey, hcut⟩ := hfound (by simpa using hnf)
      rw [hereEntry_eq hs hh] at hreg
      exact .inr ⟨rfl, removeValue_insertValue_sets hwf hnamed hcut hs hh hkey (by simpa using hnf) hreg
        hspace⟩
    · obtain ⟨A, e, B, hs, hh, hkey, hcut⟩ := hfound (by simpa using hnf)
      rw [hereEntry_eq hs hh] at hreg
      exact .inr ⟨rfl, insertValue_found_sets hwf hcut hs hh hkey (by simpa using hnf)
        (by simpa using hreg) hspace⟩

/-- A region of one attribute, name index 1, name "a", value of two bytes at offset 60 of a
64-byte body. -/
def oneAttrRegion : XattrRegion :=
  ⟨0, 64, [⟨1, 1, 60, 0, 2, 0, [97]⟩], ofList (List.replicate 60 0 ++ [120, 121, 0, 0])⟩

/-- Setting name "b" of index 1 to one byte. -/
def setB : XattrInfo := ⟨1, [98], some [7]⟩

/-- The sorted search for "b" passes "a" and stops at the end of the table; setting it there
inserts it after "a", with "a" kept. -/
theorem oneAttrRegion_setB_update :
    oneAttrRegion.WellFormed ∧ oneAttrRegion.Sorted ∧
      xattrFind oneAttrRegion setB true = some { oneAttrRegion with here := 1, notFound := true } ∧
      (ext4bfXattrSetEntry setB
        { oneAttrRegion with here := 1, notFound := true }).2.toXattrRegion.WellFormed ∧
      (ext4bfXattrSetEntry setB
        { oneAttrRegion with here := 1, notFound := true }).2.toXattrRegion.lookup 1 [98] =
        some [7] ∧
      (ext4bfXattrSetEntry setB
        { oneAttrRegion with here := 1, notFound := true }).2.toXattrRegion.lookup 1 [97] =
        some [120, 121] := by
  have hwf : oneAttrRegion.WellFormed := by decide
  have hsorted : oneAttrRegion.Sorted := by
    unfold XattrRegion.Sorted
    decide
  have hfind : xattrFind oneAttrRegion setB true =
      some { oneAttrRegion with here := 1, notFound := true } := rfl
  rcases ext4bfXattrSetEntry_update hwf (by decide : setB.name.length ≤ 255)
    (by decide : (setB.nameIndex, setB.name) ≠ (0, [])) (fun _ => hsorted) hfind (fun h => absurd h (by decide)) with ⟨henospc, -⟩ | ⟨-, hwf', hlookup, -⟩
  · exact absurd henospc (by decide)
  · refine ⟨hwf, hsorted, hfind, hwf', ?_, ?_⟩
    · rw [hlookup]
      rfl
    · rw [hlookup]
      rfl

end OptFs.Xattr
