import OptFs.Namei.DoSplit

/-!
# The two blocks of `do_split` (`namei.c`)

What `do_split` makes of a valid leaf, one whose entries pass `__ext4bf_check_dir_entry` and
whose chain ends at the end of the block (`leafChecks`), when it returns:

* every live entry of the leaf lies in exactly one of the two blocks, with its inode, name
  and type (`doSplit_partition`); the new block holds only entries hashed at least `hash2`,
  and an entry left in the old block is hashed below `hash2`, or at `hash2` with the
  continuation bit set, which is what the index entry `hash2 + continued` records;
* both blocks are valid leaves again (`doSplit_leafChecks`).

The map is tied to the leaf by the record `dx_make_map` writes for each live entry
(`dxMakeMap_eq`). Cut anywhere, the sorted map names each live entry once (`MapSplit`), and
`dx_move_dirents` copies the entries of the records after the cut and leaves the others
(`MapSplit.liveContents_dxMoveDirents`).
-/

namespace OptFs.Namei

open Lib.CombSort

/-- The checks of `__ext4bf_check_dir_entry` that do not depend on where the entry lies. -/
def EntryFits (inodesCount : Nat) (de : DirEntry) : Prop :=
  ext4DirRecLen 1 ≤ de.recLen ∧ de.recLen % 4 = 0 ∧ ext4DirRecLen de.nameLen ≤ de.recLen ∧
    de.inode ≤ inodesCount

instance (inodesCount : Nat) (de : DirEntry) : Decidable (EntryFits inodesCount de) := by
  unfold EntryFits
  infer_instance

/-- What an entry holds apart from its `rec_len`: the inode, the name and its type. -/
def DirEntry.content (de : DirEntry) : Nat × Nat × Nat × List UInt8 :=
  (de.inode, de.nameLen, de.fileType, de.name)

/-- The hash `dx_make_map` computes for an entry. -/
def DirEntry.nameHash (dirhash : List UInt8 → UInt32) (de : DirEntry) : UInt32 :=
  dirhash (de.name.take de.nameLen)

/-- The live entries of a chain, without their `rec_len`s. -/
def liveContents (des : List DirEntry) : List (Nat × Nat × Nat × List UInt8) :=
  (des.filter DirEntry.live).map DirEntry.content

/-- The record `dx_make_map` writes for the entry at an offset. -/
def dxMapRecord (dirhash : List UInt8 → UInt32) (p : Nat × DirEntry) : DxMapEntry :=
  ⟨p.2.nameHash dirhash, p.1 / 4, p.2.recLen⟩

/-- The entry a record names, which `dx_move_dirents` finds at `from + (map->offs << 2)`. -/
def entryAt (entries : List (Nat × DirEntry)) (e : DxMapEntry) : Option (Nat × DirEntry) :=
  entries.find? (·.1 == e.offs * 4)

/-! ## The checks of a leaf -/

theorem ext4bfCheckDirEntry_eq_none_iff {blocksize inodesCount offset : Nat} {de : DirEntry} :
    ext4bfCheckDirEntry blocksize inodesCount de offset = none ↔
      EntryFits inodesCount de ∧ offset + de.recLen ≤ blocksize := by
  unfold ext4bfCheckDirEntry EntryFits
  dsimp only
  split_ifs <;> simp only [false_iff, true_iff, not_and, not_le] <;> omega

/-- A chain passes the checks when each entry fits and the chain ends at the end of the block. -/
theorem leafChecks_iff {blocksize inodesCount : Nat} (offset : Nat) (des : List DirEntry) :
    leafChecks blocksize inodesCount offset des = true ↔
      (∀ de ∈ des, EntryFits inodesCount de) ∧
        offset + (des.map DirEntry.recLen).sum = blocksize := by
  induction des generalizing offset with
  | nil => simp [leafChecks]
  | cons de des ih =>
    rw [leafChecks, Bool.and_eq_true, Option.isNone_iff_eq_none, ext4bfCheckDirEntry_eq_none_iff,
      ih (offset + de.recLen)]
    simp only [List.forall_mem_cons, List.map_cons, List.sum_cons]
    constructor
    · rintro ⟨⟨hde, -⟩, hdes, hsum⟩
      exact ⟨⟨hde, hdes⟩, by omega⟩
    · rintro ⟨⟨hde, hdes⟩, hsum⟩
      exact ⟨⟨hde, by omega⟩, hdes, by omega⟩

/-- Each entry of a valid leaf takes at least 12 bytes. -/
theorem leafChecks_length {blocksize inodesCount : Nat} {leaf : List DirEntry}
    (hleaf : leafChecks blocksize inodesCount 0 leaf = true) : 12 * leaf.length ≤ blocksize := by
  obtain ⟨hfits, hsum⟩ := (leafChecks_iff 0 leaf).mp hleaf
  have hge : ∀ x ∈ leaf.map DirEntry.recLen, 12 ≤ x := by
    intro x hx
    obtain ⟨de, hde, rfl⟩ := List.mem_map.mp hx
    exact (hfits de hde).1
  have hcard := List.card_nsmul_le_sum _ _ hge
  rw [List.length_map, smul_eq_mul] at hcard
  omega

/-! ## Offsets -/

@[simp] theorem withOffsets_map_snd (offset : Nat) (des : List DirEntry) :
    (withOffsets offset des).map Prod.snd = des := by
  induction des generalizing offset with
  | nil => rfl
  | cons de des ih => rw [withOffsets, List.map_cons, ih]

/-- Entries of positive length lie at increasing offsets. -/
theorem withOffsets_pairwise {offset : Nat} {des : List DirEntry}
    (hpos : ∀ de ∈ des, 0 < de.recLen) :
    (withOffsets offset des).Pairwise (fun p q => p.1 < q.1) := by
  induction des generalizing offset with
  | nil => exact List.Pairwise.nil
  | cons de des ih =>
    rw [List.forall_mem_cons] at hpos
    rw [withOffsets]
    refine List.Pairwise.cons (fun q hq => ?_) (ih hpos.2)
    have := le_of_mem_withOffsets hq
    show offset < q.1
    omega

/-- Entries whose lengths are multiples of 4 lie at multiples of 4. -/
theorem withOffsets_aligned {offset : Nat} {des : List DirEntry}
    (h4 : ∀ de ∈ des, de.recLen % 4 = 0) (ho : offset % 4 = 0) :
    ∀ p ∈ withOffsets offset des, p.1 % 4 = 0 := by
  induction des generalizing offset with
  | nil => simp [withOffsets]
  | cons de des ih =>
    rw [List.forall_mem_cons] at h4
    intro p hp
    rcases List.mem_cons.mp hp with rfl | hp
    · exact ho
    · exact ih h4.2 (by omega) p hp

theorem liveContents_eq_withOffsets (offset : Nat) (des : List DirEntry) :
    liveContents des =
      ((withOffsets offset des).filter (·.2.live)).map (DirEntry.content ∘ Prod.snd) := by
  conv_lhs => rw [← withOffsets_map_snd offset des]
  rw [liveContents, List.filter_map, List.map_map]
  rfl

/-! ## The map -/

theorem dxMakeMap_eq (dirhash : List UInt8 → UInt32) (offset : Nat) (des : List DirEntry)
    (mapTail : List DxMapEntry) :
    dxMakeMap dirhash offset des mapTail =
      ((withOffsets offset des).filter (·.2.live)).reverse.map (dxMapRecord dirhash) ++ mapTail := by
  induction des generalizing offset mapTail with
  | nil => rfl
  | cons de des ih =>
    rw [dxMakeMap, ih, withOffsets]
    cases hlive : de.live <;> simp [hlive, dxMapRecord, DirEntry.nameHash]

/-- At distinct offsets, the record of an offset names the entry there. -/
theorem entryAt_of_offset {entries : List (Nat × DirEntry)} (hnodup : (entries.map Prod.fst).Nodup)
    {p : Nat × DirEntry} (hp : p ∈ entries) {e : DxMapEntry} (he : e.offs * 4 = p.1) :
    entryAt entries e = some p := by
  unfold entryAt
  rw [he]
  obtain ⟨q, hq⟩ : ∃ q, entries.find? (·.1 == p.1) = some q :=
    Option.isSome_iff_exists.mp (List.find?_isSome.mpr ⟨p, hp, beq_self_eq_true _⟩)
  have hqp : q.1 = p.1 := by simpa using List.find?_some hq
  rw [hq, List.inj_on_of_nodup_map hnodup (List.mem_of_find?_eq_some hq) hp hqp]

theorem mem_of_entryAt {entries : List (Nat × DirEntry)} {e : DxMapEntry} {p : Nat × DirEntry}
    (h : entryAt entries e = some p) : p ∈ entries ∧ p.1 = e.offs * 4 :=
  ⟨List.mem_of_find?_eq_some h, by simpa using List.find?_some h⟩

theorem dxMapRecord_offs (dirhash : List UInt8 → UInt32) {p : Nat × DirEntry} (h4 : p.1 % 4 = 0) :
    (dxMapRecord dirhash p).offs * 4 = p.1 :=
  Nat.div_mul_cancel (Nat.dvd_of_mod_eq_zero h4)

theorem snd_mem_of_mem_withOffsets {offset : Nat} {des : List DirEntry} {p : Nat × DirEntry}
    (hp : p ∈ withOffsets offset des) : p.2 ∈ des := by
  rw [← withOffsets_map_snd offset des]
  exact List.mem_map.mpr ⟨p, hp, rfl⟩

theorem filterMap_entryAt_map (dirhash : List UInt8 → UInt32) {entries : List (Nat × DirEntry)}
    (hnodup : (entries.map Prod.fst).Nodup) (haligned : ∀ p ∈ entries, p.1 % 4 = 0)
    (ps : List (Nat × DirEntry)) (hps : ∀ p ∈ ps, p ∈ entries) :
    (ps.map (dxMapRecord dirhash)).filterMap (entryAt entries) = ps := by
  induction ps with
  | nil => rfl
  | cons p ps ih =>
    rw [List.forall_mem_cons] at hps
    have hoffs := dxMapRecord_offs dirhash (haligned p hps.1)
    rw [List.map_cons, List.filterMap_cons_some (entryAt_of_offset hnodup hps.1 hoffs), ih hps.2]

/-! ## Moving the records of a cut of the map -/

/-- The sorted map of a leaf cut into the records that stay and those that move: between them
one record for each live entry, at distinct offsets that are multiples of 4. -/
structure MapSplit (dirhash : List UInt8 → UInt32) (leaf : List DirEntry)
    (stay move : List DxMapEntry) : Prop where
  nodup : ((withOffsets 0 leaf).map Prod.fst).Nodup
  aligned : ∀ p ∈ withOffsets 0 leaf, p.1 % 4 = 0
  perm : (stay ++ move).Perm (((withOffsets 0 leaf).filter (·.2.live)).map (dxMapRecord dirhash))

theorem dxMoveDirents_fst (leaf : List DirEntry) (records : List DxMapEntry) :
    (dxMoveDirents leaf records).1 = (records.filterMap (entryAt (withOffsets 0 leaf))).map
      fun p => { p.2 with recLen := ext4DirRecLen p.2.nameLen } := by
  rw [List.map_filterMap]
  rfl

theorem dxMoveDirents_snd (leaf : List DirEntry) (records : List DxMapEntry) :
    (dxMoveDirents leaf records).2 = (withOffsets 0 leaf).map
      fun p => if records.any (·.offs * 4 == p.1) then { p.2 with inode := 0 } else p.2 :=
  rfl

namespace MapSplit

variable {dirhash : List UInt8 → UInt32} {leaf : List DirEntry} {stay move : List DxMapEntry}

/-- A record of the map was made from a live entry, and names it. -/
theorem exists_record (h : MapSplit dirhash leaf stay move) {e : DxMapEntry}
    (he : e ∈ stay ++ move) :
    ∃ p ∈ withOffsets 0 leaf, p.2.live = true ∧ e = dxMapRecord dirhash p ∧
      entryAt (withOffsets 0 leaf) e = some p := by
  obtain ⟨p, hp, rfl⟩ := List.mem_map.mp (h.perm.mem_iff.mp he)
  have hpmem := List.mem_filter.mp hp
  have hoffs := dxMapRecord_offs dirhash (h.aligned p hpmem.1)
  exact ⟨p, hpmem.1, hpmem.2, rfl, entryAt_of_offset h.nodup hpmem.1 hoffs⟩

theorem live_of_entryAt (h : MapSplit dirhash leaf stay move) {e : DxMapEntry}
    (he : e ∈ stay ++ move) {p : Nat × DirEntry} (hp : entryAt (withOffsets 0 leaf) e = some p) :
    p.2.live = true ∧ e = dxMapRecord dirhash p := by
  obtain ⟨q, -, hlive, rfl, hq⟩ := h.exists_record he
  rw [hq] at hp
  cases hp
  exact ⟨hlive, rfl⟩

/-- The entries the records name are the live entries, once each. -/
theorem pairs_perm (h : MapSplit dirhash leaf stay move) :
    ((stay ++ move).filterMap (entryAt (withOffsets 0 leaf))).Perm
      ((withOffsets 0 leaf).filter (·.2.live)) := by
  have hrec := filterMap_entryAt_map dirhash h.nodup h.aligned
    ((withOffsets 0 leaf).filter (·.2.live)) fun p hp => (List.mem_filter.mp hp).1
  exact hrec ▸ h.perm.filterMap _

theorem pairs_nodup (h : MapSplit dirhash leaf stay move) :
    ((stay ++ move).filterMap (entryAt (withOffsets 0 leaf))).Nodup :=
  h.pairs_perm.nodup_iff.mpr ((List.Nodup.of_map Prod.fst h.nodup).filter _)

theorem any_of_moved {p : Nat × DirEntry} (hp : p ∈ move.filterMap (entryAt (withOffsets 0 leaf))) :
    move.any (·.offs * 4 == p.1) = true := by
  obtain ⟨e, he, hep⟩ := List.mem_filterMap.mp hp
  exact List.any_eq_true.mpr ⟨e, he, beq_iff_eq.mpr (mem_of_entryAt hep).2.symm⟩

/-- No record that moves names an entry that a record that stays names. -/
theorem not_any_of_stays (h : MapSplit dirhash leaf stay move) {p : Nat × DirEntry}
    (hp : p ∈ stay.filterMap (entryAt (withOffsets 0 leaf))) :
    move.any (·.offs * 4 == p.1) = false := by
  rw [← Bool.not_eq_true, List.any_eq_true]
  rintro ⟨e, he, heq⟩
  obtain ⟨e', -, he'⟩ := List.mem_filterMap.mp hp
  have hmoved : p ∈ move.filterMap (entryAt (withOffsets 0 leaf)) :=
    List.mem_filterMap.mpr ⟨e, he,
      entryAt_of_offset h.nodup (mem_of_entryAt he').1 (beq_iff_eq.mp heq)⟩
  have hnodup := h.pairs_nodup
  rw [List.filterMap_append, List.nodup_append] at hnodup
  exact hnodup.2.2 p hp p hmoved rfl

theorem live_kept (c : Bool) (de : DirEntry) :
    (if c then { de with inode := 0 } else de).live = (!c && de.live) := by
  cases c <;> simp [DirEntry.live]

/-- The live entries left in the old block are those the records that stay name. -/
theorem liveContents_kept (h : MapSplit dirhash leaf stay move) :
    (liveContents (dxMoveDirents leaf move).2).Perm
      ((stay.filterMap (entryAt (withOffsets 0 leaf))).map (DirEntry.content ∘ Prod.snd)) := by
  let notMoved : Nat × DirEntry → Bool := fun p => !move.any (·.offs * 4 == p.1)
  -- an entry is live in the old block when it was live and no record that moves names it
  have hkept : liveContents (dxMoveDirents leaf move).2 =
      (((withOffsets 0 leaf).filter (·.2.live)).filter notMoved).map
        (DirEntry.content ∘ Prod.snd) := by
    rw [dxMoveDirents_snd, liveContents, List.filter_map, List.map_map, List.filter_filter,
      List.filter_congr fun p _ => live_kept _ p.2]
    refine List.map_congr_left fun p hp => ?_
    have hnot : move.any (·.offs * 4 == p.1) = false := by
      have := (List.mem_filter.mp hp).2
      simp only [Bool.and_eq_true, Bool.not_eq_true'] at this
      exact this.1
    simp only [Function.comp_apply, hnot, Bool.false_eq_true, if_false]
  have hsplit : ((stay ++ move).filterMap (entryAt (withOffsets 0 leaf))).filter notMoved =
      stay.filterMap (entryAt (withOffsets 0 leaf)) := by
    rw [List.filterMap_append, List.filter_append,
      List.filter_eq_self.mpr fun p hp => by simp [notMoved, h.not_any_of_stays hp],
      List.filter_eq_nil_iff.mpr fun p hp => by simp [notMoved, any_of_moved hp], List.append_nil]
  rw [hkept, ← hsplit]
  exact ((h.pairs_perm.symm.filter notMoved).map _)

/-- Every entry copied to the new block is live: the one a record that moves names. -/
theorem liveContents_moved (h : MapSplit dirhash leaf stay move) :
    liveContents (dxMoveDirents leaf move).1 =
      (move.filterMap (entryAt (withOffsets 0 leaf))).map (DirEntry.content ∘ Prod.snd) := by
  have hlive : ∀ p ∈ move.filterMap (entryAt (withOffsets 0 leaf)), p.2.live = true := by
    intro p hp
    obtain ⟨e, he, hep⟩ := List.mem_filterMap.mp hp
    exact (h.live_of_entryAt (List.mem_append_right stay he) hep).1
  rw [dxMoveDirents_fst, liveContents, List.filter_map, List.map_map, List.filter_eq_self.mpr ?_]
  · rfl
  · exact hlive

/-- `dx_move_dirents` keeps every live entry once, in one block or the other. -/
theorem liveContents_dxMoveDirents (h : MapSplit dirhash leaf stay move) :
    (liveContents (dxMoveDirents leaf move).2 ++ liveContents (dxMoveDirents leaf move).1).Perm
      (liveContents leaf) := by
  rw [h.liveContents_moved, liveContents_eq_withOffsets 0 leaf]
  refine (h.liveContents_kept.append (List.Perm.refl _)).trans ?_
  rw [← List.map_append, ← List.filterMap_append]
  exact h.pairs_perm.map _

/-- An entry of the new block is live, with the hash of a record that moves. -/
theorem nameHash_moved (h : MapSplit dirhash leaf stay move) {de : DirEntry}
    (hde : de ∈ (dxMoveDirents leaf move).1) :
    de.live = true ∧ ∃ e ∈ move, de.nameHash dirhash = e.hash := by
  rw [dxMoveDirents_fst] at hde
  obtain ⟨p, hp, rfl⟩ := List.mem_map.mp hde
  obtain ⟨e, he, hep⟩ := List.mem_filterMap.mp hp
  obtain ⟨hlive, rfl⟩ := h.live_of_entryAt (List.mem_append_right stay he) hep
  exact ⟨hlive, _, he, rfl⟩

/-- A live entry left in the old block has the hash of a record that stays. -/
theorem nameHash_kept (h : MapSplit dirhash leaf stay move) {de : DirEntry}
    (hde : de ∈ (dxMoveDirents leaf move).2) (hlive : de.live = true) :
    ∃ e ∈ stay, de.nameHash dirhash = e.hash := by
  rw [dxMoveDirents_snd] at hde
  obtain ⟨p, hp, rfl⟩ := List.mem_map.mp hde
  rw [live_kept, Bool.and_eq_true, Bool.not_eq_true'] at hlive
  obtain ⟨hnot, hplive⟩ := hlive
  simp only [hnot, Bool.false_eq_true, if_false]
  have hpair := h.pairs_perm.mem_iff.mpr (List.mem_filter.mpr ⟨hp, hplive⟩)
  rw [List.filterMap_append, List.mem_append] at hpair
  rcases hpair with hstay | hmove
  · obtain ⟨e, he, hep⟩ := List.mem_filterMap.mp hstay
    obtain ⟨-, rfl⟩ := h.live_of_entryAt (List.mem_append_left move he) hep
    exact ⟨_, he, rfl⟩
  · exact absurd (any_of_moved hmove) (by rw [hnot]; exact Bool.false_ne_true)

end MapSplit

/-! ## Packing and stretching -/

/-- Setting the `rec_len`s changes nothing an entry holds. -/
theorem liveContents_setRecLen (f : DirEntry → Nat) (des : List DirEntry) :
    liveContents (des.map fun de => { de with recLen := f de }) = liveContents des := by
  rw [liveContents, List.filter_map, List.map_map]
  rfl

theorem liveContents_filter_live (des : List DirEntry) :
    liveContents (des.filter DirEntry.live) = liveContents des := by
  rw [liveContents, liveContents, List.filter_filter]
  simp only [Bool.and_self]

theorem liveContents_append (des des' : List DirEntry) :
    liveContents (des ++ des') = liveContents des ++ liveContents des' := by
  rw [liveContents, List.filter_append, List.map_append]
  rfl

theorem liveContents_stretchLast (blocksize : Nat) (des : List DirEntry) :
    liveContents (stretchLast blocksize des) = liveContents des := by
  unfold stretchLast
  split
  · rfl
  · rename_i last hlast
    conv_rhs => rw [← List.dropLast_append_getLast? last hlast]
    rw [liveContents_append, liveContents_append, ← liveContents_setRecLen (fun _ => _) [last]]
    rfl

theorem mem_stretchLast {blocksize : Nat} {des : List DirEntry} {de : DirEntry}
    (hde : de ∈ stretchLast blocksize des) : ∃ d ∈ des, ∃ n, de = { d with recLen := n } := by
  unfold stretchLast at hde
  split at hde
  · exact ⟨de, hde, de.recLen, rfl⟩
  · rename_i last hlast
    rcases List.mem_append.mp hde with hde | hde
    · exact ⟨de, List.dropLast_subset des hde, de.recLen, rfl⟩
    · exact ⟨last, List.mem_of_getLast? hlast, _, List.mem_singleton.mp hde⟩

theorem liveContents_dxPackDirents (des : List DirEntry) :
    liveContents (dxPackDirents des) = liveContents des := by
  unfold dxPackDirents
  split
  · rename_i hnil
    -- no entry is live, nor the one kept at the start of the block
    rw [List.map_eq_nil_iff] at hnil
    have hdead : (des.take 1).filter DirEntry.live = [] :=
      List.filter_eq_nil_iff.mpr fun de hde =>
        List.filter_eq_nil_iff.mp hnil de (List.mem_of_mem_take hde)
    rw [liveContents, liveContents, hdead, hnil]
  · rw [liveContents_setRecLen, liveContents_filter_live]

theorem mem_dxPackDirents {des : List DirEntry} {de : DirEntry} (hde : de ∈ dxPackDirents des) :
    ∃ d ∈ des, ∃ n, de = { d with recLen := n } := by
  unfold dxPackDirents at hde
  split at hde
  · exact ⟨de, List.mem_of_mem_take hde, de.recLen, rfl⟩
  · obtain ⟨d, hd, rfl⟩ := List.mem_map.mp hde
    exact ⟨d, (List.mem_filter.mp hd).1, _, rfl⟩

/-! ## The split -/

/-- What `do_split` returns when it returns: the two blocks made from the sorted map cut at
`split`, the hash of `map[split]`, and the continuation bit from the record read before it. -/
theorem doSplit_eq_ok {dirhash : List UInt8 → UInt32} {blocksize : Nat} {hinfoHash : UInt32}
    {frame : DxFrame} {newblock : Nat} {leaf : List DirEntry} {res : DoSplitResult}
    (h : doSplit dirhash blocksize hinfoHash frame newblock leaf = .ok res) :
    ∃ sorted, dxSortMap (dxMakeMap dirhash 0 leaf []) = some sorted ∧ ∃ split e2 e1,
      sorted[split]? = some e2 ∧ sorted[(split + 2 ^ 32 - 1) % 2 ^ 32]? = some e1 ∧
      res.hash2 = e2.hash ∧ res.continued = (if e2.hash = e1.hash then 1 else 0) ∧
      res.block1 =
        stretchLast blocksize (dxPackDirents (dxMoveDirents leaf (sorted.drop split)).2) ∧
      res.block2 = stretchLast blocksize (dxMoveDirents leaf (sorted.drop split)).1 := by
  obtain ⟨sorted, hsort, -, -⟩ := dxSortMap_spec (dxMakeMap dirhash 0 leaf [])
  refine ⟨sorted, hsort, sorted.length - splitMove blocksize 0 0 sorted.reverse, ?_⟩
  unfold doSplit at h
  rw [hsort] at h
  simp only [bind, Except.bind, pure, Except.pure] at h
  unfold readMap at h
  generalize sorted.length - splitMove blocksize 0 0 sorted.reverse = split at h ⊢
  -- the two reads of the map, then `dx_insert_block`, each an error or a value
  cases h2 : sorted[split]? with
  | none => simp only [h2, reduceCtorEq] at h
  | some e2 =>
    cases h1 : sorted[(split + 2 ^ 32 - 1) % 2 ^ 32]? with
    | none => simp only [h1, h2, reduceCtorEq] at h
    | some e1 =>
      simp only [h2, h1] at h
      split at h
      · cases h
      · cases h
        exact ⟨e2, e1, rfl, rfl, rfl, rfl, rfl, rfl⟩

/-- The sorted map of a valid leaf, cut anywhere. -/
theorem MapSplit.of_leafChecks {dirhash : List UInt8 → UInt32} {blocksize inodesCount : Nat}
    {leaf : List DirEntry} (hleaf : leafChecks blocksize inodesCount 0 leaf = true)
    {sorted : List DxMapEntry} (hperm : sorted.Perm (dxMakeMap dirhash 0 leaf [])) (split : Nat) :
    MapSplit dirhash leaf (sorted.take split) (sorted.drop split) := by
  have hfits := ((leafChecks_iff 0 leaf).mp hleaf).1
  have hpos : ∀ de ∈ leaf, 0 < de.recLen := fun de hde => Nat.lt_of_lt_of_le (by decide) (hfits de hde).1
  refine ⟨?_, withOffsets_aligned (fun de hde => (hfits de hde).2.1) rfl, ?_⟩
  · exact (List.pairwise_map.mpr (withOffsets_pairwise hpos)).nodup
  · rw [List.take_append_drop]
    refine hperm.trans ?_
    rw [dxMakeMap_eq, List.append_nil]
    exact (List.reverse_perm _).map _

/-- A valid leaf has fewer live entries than the `unsigned` wrap of the map index. -/
theorem dxSortMap_length_lt {dirhash : List UInt8 → UInt32} {blocksize inodesCount : Nat}
    {leaf : List DirEntry} (hleaf : leafChecks blocksize inodesCount 0 leaf = true)
    (hbs : blocksize ≤ 65536) {sorted : List DxMapEntry}
    (hperm : sorted.Perm (dxMakeMap dirhash 0 leaf [])) : sorted.length < 2 ^ 32 := by
  have hlen : sorted.length = (leaf.filter DirEntry.live).length := by
    rw [hperm.length_eq, dxMakeMap_length, List.length_nil, Nat.add_zero]
  have hfilter := List.length_filter_le DirEntry.live leaf
  have h12 := leafChecks_length hleaf
  omega

/-- A stand-in for `ext4bffs_dirhash` in the examples: the first byte of the name. -/
def firstByteHash (name : List UInt8) : UInt32 := (name.headD 0).toUInt32

/-- A 1 KiB leaf of three live entries of 400, 400 and 224 bytes, hashed 1, 2 and 3. -/
def threeEntryLeaf : List DirEntry :=
  [⟨11, 400, 1, 1, [1]⟩, ⟨12, 400, 1, 1, [2]⟩, ⟨13, 224, 1, 1, [3]⟩]

/-- Its split: the last two entries move, at hash 2 with no continuation. -/
def threeEntrySplit : DoSplitResult :=
  ⟨[⟨11, 1024, 1, 1, [1]⟩], [⟨12, 12, 1, 1, [2]⟩, ⟨13, 1012, 1, 1, [3]⟩], 2, 0,
    ⟨[⟨0, 1⟩, ⟨2, 2⟩], 2, 0⟩, false⟩

theorem doSplit_threeEntryLeaf :
    doSplit firstByteHash 1024 0 ⟨[⟨0, 1⟩], 2, 0⟩ 2 threeEntryLeaf = .ok threeEntrySplit := by
  have hmap : dxMakeMap firstByteHash 0 threeEntryLeaf [] =
      [⟨3, 200, 224⟩, ⟨2, 100, 400⟩, ⟨1, 0, 400⟩] := by decide
  -- the comb phase makes one pass, of gap 2, which sorts the three records
  have hsort : dxSortMap (dxMakeMap firstByteHash 0 threeEntryLeaf []) =
      some [⟨1, 0, 400⟩, ⟨2, 100, 400⟩, ⟨3, 200, 224⟩] := by
    rw [hmap, dxSortMap, dxCombLoop, if_pos (by decide), dxCombLoop, if_neg (by decide)]
    decide
  unfold doSplit
  rw [hsort]
  rfl

/-- `do_split` on a valid leaf keeps every live entry once, in one of the two blocks. The new
block holds only entries hashed at least `hash2`. An entry left in the old block is hashed at
most `hash2`, and exactly `hash2` only when the continuation bit is set. -/
theorem doSplit_partition (dirhash : List UInt8 → UInt32) {blocksize inodesCount : Nat}
    {hinfoHash : UInt32} {frame : DxFrame} {newblock : Nat} {leaf : List DirEntry}
    {res : DoSplitResult} (hleaf : leafChecks blocksize inodesCount 0 leaf = true)
    (hbs : blocksize ≤ 65536)
    (hsplit : doSplit dirhash blocksize hinfoHash frame newblock leaf = .ok res) :
    (liveContents res.block1 ++ liveContents res.block2).Perm (liveContents leaf) ∧
      (∀ de ∈ res.block2, de.live = true ∧ res.hash2.toNat ≤ (de.nameHash dirhash).toNat) ∧
      ∀ de ∈ res.block1, de.live = true →
        (de.nameHash dirhash).toNat < res.hash2.toNat + res.continued.toNat := by
  obtain ⟨sorted, hsort, split, e2, e1, he2, he1, hhash2, hcont, hb1, hb2⟩ := doSplit_eq_ok hsplit
  obtain ⟨sorted', hsort', hperm, hkeys⟩ := dxSortMap_spec (dxMakeMap dirhash 0 leaf [])
  obtain rfl : sorted = sorted' := Option.some_injective _ (hsort.symm.trans hsort')
  have hms := MapSplit.of_leafChecks hleaf hperm split
  obtain ⟨hs, rfl⟩ := List.getElem?_eq_some_iff.mp he2
  refine ⟨?_, ?_, ?_⟩
  · rw [hb1, hb2, liveContents_stretchLast, liveContents_stretchLast, liveContents_dxPackDirents]
    exact hms.liveContents_dxMoveDirents
  · -- an entry of the new block comes from a record at or after `split`
    intro de hde
    rw [hb2] at hde
    obtain ⟨d, hd, n, rfl⟩ := mem_stretchLast hde
    obtain ⟨hlive, e, he, hhash⟩ := hms.nameHash_moved hd
    obtain ⟨j, hj, rfl⟩ := List.mem_drop_iff_getElem.mp he
    refine ⟨hlive, ?_⟩
    rw [hhash2]
    show sorted[split].hash.toNat ≤ (d.nameHash dirhash).toNat
    rw [hhash]
    exact hkeys.key_le DxMapEntry.key hs _ (Nat.le_add_right split j)
  · -- a live entry of the old block comes from a record before `split`, which is not 0
    intro de hde hlive
    rw [hb1] at hde
    obtain ⟨d, hd, n, rfl⟩ := mem_stretchLast hde
    obtain ⟨d', hd', n', rfl⟩ := mem_dxPackDirents hd
    obtain ⟨e, he, hhash⟩ := hms.nameHash_kept hd' hlive
    obtain ⟨i, hi, rfl⟩ := List.mem_take_iff_getElem.mp he
    have hcount := dxSortMap_length_lt hleaf hbs hperm
    have hidx : (split + 2 ^ 32 - 1) % 2 ^ 32 = split - 1 := by omega
    rw [hidx] at he1
    obtain ⟨hs1, rfl⟩ := List.getElem?_eq_some_iff.mp he1
    have hle1 : sorted[i].key ≤ sorted[split - 1].key := hkeys.key_le DxMapEntry.key _ hs1 (by omega)
    have hle2 : sorted[split - 1].key ≤ sorted[split].key := hkeys.key_le DxMapEntry.key hs1 hs (by omega)
    rw [hhash2, hcont]
    show (d'.nameHash dirhash).toNat < _
    rw [hhash]
    by_cases heq : sorted[split].hash = sorted[split - 1].hash
    · rw [if_pos heq]
      show sorted[i].key < sorted[split].key + 1
      omega
    · rw [if_neg heq]
      have hlt : sorted[split - 1].key < sorted[split].key :=
        lt_of_le_of_ne hle2 fun hkey => heq (UInt32.toNat_inj.mp hkey).symm
      show sorted[i].key < sorted[split].key + 0
      omega

theorem doSplit_partition_threeEntryLeaf :
    leafChecks 1024 16 0 threeEntryLeaf = true ∧ 1024 ≤ 65536 ∧
      doSplit firstByteHash 1024 0 ⟨[⟨0, 1⟩], 2, 0⟩ 2 threeEntryLeaf = .ok threeEntrySplit ∧
      (liveContents threeEntrySplit.block1 ++ liveContents threeEntrySplit.block2).Perm
        (liveContents threeEntryLeaf) ∧
      (∀ de ∈ threeEntrySplit.block2, de.live = true ∧
        threeEntrySplit.hash2.toNat ≤ (de.nameHash firstByteHash).toNat) ∧
      ∀ de ∈ threeEntrySplit.block1, de.live = true →
        (de.nameHash firstByteHash).toNat <
          threeEntrySplit.hash2.toNat + threeEntrySplit.continued.toNat :=
  have hleaf : leafChecks 1024 16 0 threeEntryLeaf = true := by decide
  ⟨hleaf, by decide, doSplit_threeEntryLeaf,
    doSplit_partition firstByteHash hleaf (by decide) doSplit_threeEntryLeaf⟩

/-! ## Two valid leaves -/

theorem dvd_sum_recLen {inodesCount : Nat} {des : List DirEntry}
    (hfits : ∀ de ∈ des, EntryFits inodesCount de) : 4 ∣ (des.map DirEntry.recLen).sum :=
  List.dvd_sum fun x hx => by
    obtain ⟨de, hde, rfl⟩ := List.mem_map.mp hx
    exact Nat.dvd_of_mod_eq_zero (hfits de hde).2.1

theorem leafChecks_blocksize_mod {blocksize inodesCount : Nat} {leaf : List DirEntry}
    (hleaf : leafChecks blocksize inodesCount 0 leaf = true) : blocksize % 4 = 0 := by
  obtain ⟨hfits, hsum⟩ := (leafChecks_iff 0 leaf).mp hleaf
  have := dvd_sum_recLen hfits
  omega

/-- An entry still fits with a longer `rec_len`, a multiple of 4. -/
theorem EntryFits.stretch {inodesCount : Nat} {de : DirEntry} (hfits : EntryFits inodesCount de)
    {n : Nat} (hle : de.recLen ≤ n) (h4 : n % 4 = 0) :
    EntryFits inodesCount { de with recLen := n } :=
  ⟨Nat.le_trans hfits.1 hle, h4, Nat.le_trans hfits.2.2.1 hle, hfits.2.2.2⟩

/-- A live entry fits at its least `rec_len`, as `dx_move_dirents` and `dx_pack_dirents` set it. -/
theorem EntryFits.least {inodesCount : Nat} {de : DirEntry} (hfits : EntryFits inodesCount de)
    (hlive : de.live = true) : EntryFits inodesCount { de with recLen := ext4DirRecLen de.nameLen } := by
  have hname : de.nameLen ≠ 0 := by
    simp only [DirEntry.live, Bool.and_eq_true, bne_iff_ne] at hlive
    exact hlive.1
  refine ⟨?_, ?_, Nat.le_refl _, hfits.2.2.2⟩
  · show ext4DirRecLen 1 ≤ ext4DirRecLen de.nameLen
    unfold ext4DirRecLen
    omega
  · show ext4DirRecLen de.nameLen % 4 = 0
    unfold ext4DirRecLen
    omega

/-- Stretching the last entry of a chain of entries that fit within the block gives a valid
leaf. -/
theorem leafChecks_stretchLast {blocksize inodesCount : Nat} {des : List DirEntry} (hne : des ≠ [])
    (hfits : ∀ de ∈ des, EntryFits inodesCount de)
    (hsum : (des.map DirEntry.recLen).sum ≤ blocksize) (h4 : blocksize % 4 = 0) :
    leafChecks blocksize inodesCount 0 (stretchLast blocksize des) = true := by
  obtain ⟨last, hlast⟩ := Option.isSome_iff_exists.mp (List.getLast?_isSome.mpr hne)
  have hdes := List.dropLast_append_getLast? last hlast
  have hlastfits := hfits last (List.mem_of_getLast? hlast)
  have hfront : ∀ de ∈ des.dropLast, EntryFits inodesCount de :=
    fun de hde => hfits de (List.dropLast_subset des hde)
  have hdvd := dvd_sum_recLen hfront
  rw [← hdes, List.map_append, List.sum_append, List.map_singleton, List.sum_singleton] at hsum
  unfold stretchLast
  rw [hlast]
  refine (leafChecks_iff 0 _).mpr ⟨fun de hde => ?_, ?_⟩
  · rcases List.mem_append.mp hde with hde | hde
    · exact hfront de hde
    · rw [List.mem_singleton.mp hde]
      exact hlastfits.stretch (by omega) (by omega)
  · rw [List.map_append, List.sum_append, List.map_singleton, List.sum_singleton]
    show 0 + ((des.dropLast.map DirEntry.recLen).sum +
      (blocksize - (des.dropLast.map DirEntry.recLen).sum)) = blocksize
    omega

theorem dxPackDirents_ne_nil {des : List DirEntry} (hne : des ≠ []) : dxPackDirents des ≠ [] := by
  unfold dxPackDirents
  split
  · obtain ⟨de, des', rfl⟩ := List.exists_cons_of_ne_nil hne
    exact List.cons_ne_nil _ _
  · rename_i hpacked
    exact hpacked

/-- `dx_pack_dirents` keeps entries that fit, and takes at most the room of the old chain. -/
theorem dxPackDirents_fits {inodesCount : Nat} {des : List DirEntry}
    (hfits : ∀ de ∈ des, EntryFits inodesCount de) :
    (∀ de ∈ dxPackDirents des, EntryFits inodesCount de) ∧
      ((dxPackDirents des).map DirEntry.recLen).sum ≤ (des.map DirEntry.recLen).sum := by
  unfold dxPackDirents
  split
  · exact ⟨fun de hde => hfits de (List.mem_of_mem_take hde),
      ((List.take_sublist 1 des).map _).sum_le_sum fun _ _ => Nat.zero_le _⟩
  · constructor
    · intro de hde
      obtain ⟨d, hd, rfl⟩ := List.mem_map.mp hde
      have hd' := List.mem_filter.mp hd
      exact (hfits d hd'.1).least hd'.2
    · rw [List.map_map]
      calc _ ≤ ((des.filter DirEntry.live).map DirEntry.recLen).sum :=
            List.sum_le_sum fun d hd => (hfits d (List.mem_filter.mp hd).1).2.2.1
        _ ≤ _ := (List.filter_sublist.map _).sum_le_sum fun _ _ => Nat.zero_le _

theorem dxMoveDirents_snd_recLen (leaf : List DirEntry) (records : List DxMapEntry) :
    (dxMoveDirents leaf records).2.map DirEntry.recLen = leaf.map DirEntry.recLen := by
  rw [dxMoveDirents_snd, List.map_map]
  conv_rhs => rw [← withOffsets_map_snd 0 leaf, List.map_map]
  refine List.map_congr_left fun p _ => ?_
  simp only [Function.comp_apply]
  split <;> rfl

theorem dxMoveDirents_snd_fits {inodesCount : Nat} {leaf : List DirEntry} (records : List DxMapEntry)
    (hfits : ∀ de ∈ leaf, EntryFits inodesCount de) :
    ∀ de ∈ (dxMoveDirents leaf records).2, EntryFits inodesCount de := by
  intro de hde
  rw [dxMoveDirents_snd] at hde
  obtain ⟨p, hp, rfl⟩ := List.mem_map.mp hde
  have hpfits := hfits p.2 (snd_mem_of_mem_withOffsets hp)
  split
  · exact ⟨hpfits.1, hpfits.2.1, hpfits.2.2.1, Nat.zero_le _⟩
  · exact hpfits

namespace MapSplit

variable {dirhash : List UInt8 → UInt32} {leaf : List DirEntry} {stay move : List DxMapEntry}

theorem moved_ne_nil (h : MapSplit dirhash leaf stay move) (hne : move ≠ []) :
    (dxMoveDirents leaf move).1 ≠ [] := by
  obtain ⟨e, es, rfl⟩ := List.exists_cons_of_ne_nil hne
  obtain ⟨p, -, -, -, hp⟩ := h.exists_record (List.mem_append_right stay List.mem_cons_self)
  rw [dxMoveDirents_fst, List.filterMap_cons_some hp, List.map_cons]
  exact List.cons_ne_nil _ _

theorem moved_fits (h : MapSplit dirhash leaf stay move) {inodesCount : Nat}
    (hfits : ∀ de ∈ leaf, EntryFits inodesCount de) :
    ∀ de ∈ (dxMoveDirents leaf move).1, EntryFits inodesCount de := by
  intro de hde
  rw [dxMoveDirents_fst] at hde
  obtain ⟨p, hp, rfl⟩ := List.mem_map.mp hde
  obtain ⟨e, he, hep⟩ := List.mem_filterMap.mp hp
  exact (hfits p.2 (snd_mem_of_mem_withOffsets (mem_of_entryAt hep).1)).least
    (h.live_of_entryAt (List.mem_append_right stay he) hep).1

/-- The entries copied to the new block take at most the room of the old one. -/
theorem moved_sum_le (h : MapSplit dirhash leaf stay move) {inodesCount : Nat}
    (hfits : ∀ de ∈ leaf, EntryFits inodesCount de) :
    ((dxMoveDirents leaf move).1.map DirEntry.recLen).sum ≤ (leaf.map DirEntry.recLen).sum := by
  rw [dxMoveDirents_fst, List.map_map]
  calc _ ≤ ((move.filterMap (entryAt (withOffsets 0 leaf))).map
          (DirEntry.recLen ∘ Prod.snd)).sum :=
        List.sum_le_sum fun p hp => by
          obtain ⟨e, -, hep⟩ := List.mem_filterMap.mp hp
          exact (hfits p.2 (snd_mem_of_mem_withOffsets (mem_of_entryAt hep).1)).2.2.1
    _ ≤ (((stay ++ move).filterMap (entryAt (withOffsets 0 leaf))).map
          (DirEntry.recLen ∘ Prod.snd)).sum :=
        (((List.sublist_append_right stay move).filterMap _).map _).sum_le_sum
          fun _ _ => Nat.zero_le _
    _ = (((withOffsets 0 leaf).filter (·.2.live)).map (DirEntry.recLen ∘ Prod.snd)).sum :=
        (h.pairs_perm.map _).sum_eq
    _ ≤ ((withOffsets 0 leaf).map (DirEntry.recLen ∘ Prod.snd)).sum :=
        (List.filter_sublist.map _).sum_le_sum fun _ _ => Nat.zero_le _
    _ = (leaf.map DirEntry.recLen).sum := by rw [← List.map_map, withOffsets_map_snd]

end MapSplit

/-- `do_split` turns a valid leaf into two valid leaves: every entry of each block passes
`__ext4bf_check_dir_entry`, and each chain ends at the end of its block. -/
theorem doSplit_leafChecks (dirhash : List UInt8 → UInt32) {blocksize inodesCount : Nat}
    {hinfoHash : UInt32} {frame : DxFrame} {newblock : Nat} {leaf : List DirEntry}
    {res : DoSplitResult} (hleaf : leafChecks blocksize inodesCount 0 leaf = true)
    (hsplit : doSplit dirhash blocksize hinfoHash frame newblock leaf = .ok res) :
    leafChecks blocksize inodesCount 0 res.block1 = true ∧
      leafChecks blocksize inodesCount 0 res.block2 = true := by
  obtain ⟨sorted, hsort, split, e2, e1, he2, -, -, -, hb1, hb2⟩ := doSplit_eq_ok hsplit
  obtain ⟨sorted', hsort', hperm, -⟩ := dxSortMap_spec (dxMakeMap dirhash 0 leaf [])
  obtain rfl : sorted = sorted' := Option.some_injective _ (hsort.symm.trans hsort')
  have hms := MapSplit.of_leafChecks hleaf hperm split
  have hs : split < sorted.length := (List.getElem?_eq_some_iff.mp he2).1
  obtain ⟨hfits, hsum⟩ := (leafChecks_iff 0 leaf).mp hleaf
  have h4 := leafChecks_blocksize_mod hleaf
  constructor
  · -- the old block: what `dx_pack_dirents` leaves of a chain as long as the leaf
    have hkept := dxMoveDirents_snd_fits (sorted.drop split) hfits
    have hpack := dxPackDirents_fits hkept
    have hlen := congrArg List.length (dxMoveDirents_snd_recLen leaf (sorted.drop split))
    rw [List.length_map, List.length_map] at hlen
    have hne : leaf ≠ [] := by
      rintro rfl
      rw [dxMakeMap, List.perm_nil] at hperm
      rw [hperm, List.length_nil] at hs
      exact Nat.not_lt_zero _ hs
    rw [hb1]
    refine leafChecks_stretchLast (dxPackDirents_ne_nil ?_) hpack.1 ?_ h4
    · exact List.ne_nil_of_length_pos (hlen ▸ List.length_pos_iff_ne_nil.mpr hne)
    · rw [dxMoveDirents_snd_recLen] at hpack
      omega
  · -- the new block: the entries of the records from `split` on
    rw [hb2]
    refine leafChecks_stretchLast (hms.moved_ne_nil ?_) (hms.moved_fits hfits) ?_ h4
    · exact List.ne_nil_of_length_pos (by rw [List.length_drop]; omega)
    · have := hms.moved_sum_le hfits
      omega

theorem doSplit_leafChecks_threeEntryLeaf :
    leafChecks 1024 16 0 threeEntryLeaf = true ∧
      doSplit firstByteHash 1024 0 ⟨[⟨0, 1⟩], 2, 0⟩ 2 threeEntryLeaf = .ok threeEntrySplit ∧
      leafChecks 1024 16 0 threeEntrySplit.block1 = true ∧
      leafChecks 1024 16 0 threeEntrySplit.block2 = true :=
  have hleaf : leafChecks 1024 16 0 threeEntryLeaf = true := by decide
  ⟨hleaf, doSplit_threeEntryLeaf, doSplit_leafChecks firstByteHash hleaf doSplit_threeEntryLeaf⟩

end OptFs.Namei
