import OptFs.Jbd.Format

/-!
# Descriptor blocks: the tag writer of commit and the tag walk of recovery

The commit code (`jbdbf_journal_commit_transaction`, `commit.c`) fills a descriptor block
through four loop variables: `tagp` (where the next tag goes), `space_left`, `first_tag`
and `tag` (the last tag stored). After a new descriptor it stores the newly-appended data
tags of `t_data_tag_list`, each behind the test `space_left >= tag_bytes + 16`; then one
tag for the metadata buffer being logged, with no test; then, when the block is full or
the buffers are done, it sets `JBD2_FLAG_LAST_TAG` on `tag` and submits the block.

The three recovery parsers (`count_tags`, `read_and_verify_checksums` and the
`PASS_REPLAY` loop of `do_one_pass`, `recovery.c`) walk a descriptor the same way: from
the end of the header, while the next tag ends within the block, stepping over the UUID
after a tag without `JBD2_FLAG_SAME_UUID`, and stopping after a tag with
`JBD2_FLAG_LAST_TAG`. `tagWalk` is that shared walk.

The results:

* the writer keeps its tags laid out as a chain that the walk follows (`Descriptor.Wf`,
  preserved by `Descriptor.putTag` and `putDataTags`);
* a block whose tags all lie within its size is read back tag for tag, with the last
  flagged (`tagWalk_chain_last`), and `count_tags` counts its tags that have a log block;
* a walk stops at the first tag that would cross the end of the block
  (`tagWalk_chain_overflow`), which is what happens to the unchecked metadata tag.
-/

namespace OptFs.Jbd

open Lib.ByteImage

/-- A block tag: what the commit stores and recovery reads back. -/
structure Tag where
  blocknr : Nat
  flags : UInt32
  checksum : UInt32
  blocktype : UInt32
deriving DecidableEq, Repr

/-- An entry of `t_data_tag_list` (`struct jbdbf_data_tag`): a newly appended data block
and the checksum of its contents taken at `write_end` time. -/
structure DataTag where
  bBlocknr : Nat
  crc32DataSum : UInt32
deriving DecidableEq, Repr

/-- The descriptor being filled: its buffer and the loop variables `tagp`, `space_left`,
`first_tag` and `tag`, the last two pointers read as offsets into the buffer. `logged`
lists the tags in the order they were stored with their offsets; the source keeps no such
list, it is the record the specification compares the parsers against. -/
structure Descriptor where
  img : Image
  tagp : Nat
  spaceLeft : Int
  firstTag : Bool
  tag : Nat
  logged : List (Nat × Tag)

/-- The `if (!descriptor)` block: a zeroed buffer from
`jbdbf_journal_get_descriptor_buffer` with a descriptor header for `tid`, `tagp` just
after the header and `space_left = b_size - sizeof(journal_bf_header_t)`. -/
def Descriptor.start (bSize : Nat) (tid : UInt32) : Descriptor where
  img := writeHeader zero jbd2DescriptorBlock tid
  tagp := sizeofJournalBfHeader
  spaceLeft := (bSize : Int) - sizeofJournalBfHeader
  firstTag := true
  tag := 0
  logged := []

/-- The `tag_flag` computed before each tag: `JBD2_FLAG_ESCAPE` when bit 0 of `flags` is
set (`escape`), `JBD2_FLAG_SAME_UUID` on every tag but the first of the block. -/
def tagFlag (escape firstTag : Bool) : UInt32 :=
  (if escape then jbd2FlagEscape else 0) ||| (if !firstTag then jbd2FlagSameUuid else 0)

/-- Store one tag at `tagp` (`write_tag_block`, then `t_flags`), point `tag` at it, move
`tagp` and `space_left` by `tag_bytes`, and after the first tag of the block copy the
16-byte journal UUID. -/
def Descriptor.putTag (uuid : Image) (d : Descriptor) (block : Nat)
    (checksum blocktype flag : UInt32) : Descriptor :=
  let img := write32 (writeTagBlock journalTagBytes d.img d.tagp block checksum blocktype)
    (d.tagp + 4) flag
  let logged := d.logged ++ [(d.tagp, ⟨block, flag, checksum, blocktype⟩)]
  let tagp := d.tagp + journalTagBytes
  let spaceLeft := d.spaceLeft - journalTagBytes
  if d.firstTag then
    { img := place img tagp uuid uuidBytes, tagp := tagp + uuidBytes,
      spaceLeft := spaceLeft - uuidBytes, firstTag := false, tag := d.tagp, logged }
  else
    { img, tagp, spaceLeft, firstTag := false, tag := d.tagp, logged }

/-- The `list_for_each_safe` loop over `t_data_tag_list` after a new descriptor: an entry
that finds `space_left >= tag_bytes + 16` is stored as a
`T_BLOCKTYPE_NEWLYAPPENDEDDATA` tag and leaves the list; the first entry that does not
sends the loop to `done_with_tags`. `escape` is bit 0 of the loop's `flags` variable,
which still holds the value of the previous metadata buffer. Returns the descriptor, the
entries left on the list and whether the jump was taken. -/
def putDataTags (uuid : Image) (escape : Bool) :
    Descriptor → List DataTag → Descriptor × List DataTag × Bool
  | d, [] => (d, [], false)
  | d, e :: rest =>
    if d.spaceLeft < journalTagBytes + 16 then (d, e :: rest, true)
    else
      putDataTags uuid escape
        (d.putTag uuid e.bBlocknr e.crc32DataSum tBlocktypeNewlyappendeddata
          (tagFlag escape d.firstTag)) rest

/-- A tag with `JBD2_FLAG_LAST_TAG` added. -/
def Tag.withLast (t : Tag) : Tag := { t with flags := t.flags ||| jbd2FlagLastTag }

/-- The record of the tags with the last one flagged. -/
def markLastEntry : List (Nat × Tag) → List (Nat × Tag)
  | [] => []
  | [e] => [(e.1, e.2.withLast)]
  | e :: rest => e :: markLastEntry rest

/-- `tag->t_flags |= cpu_to_be32(JBD2_FLAG_LAST_TAG)`, done just before the block is
submitted. -/
def Descriptor.markLast (d : Descriptor) : Descriptor :=
  { d with img := write32 d.img (d.tag + 4) (read32 d.img (d.tag + 4) ||| jbd2FlagLastTag),
           logged := markLastEntry d.logged }

/-! ## The recovery walk -/

/-- Where the walk goes after a tag at `o` with flags `f`. -/
def nextTag (o : Nat) (f : UInt32) : Nat :=
  o + journalTagBytes + if f &&& jbd2FlagSameUuid = 0 then uuidBytes else 0

/-- The offsets of the tags the recovery parsers visit, from `tagp` on, in a descriptor of
`size` bytes: a tag is read while it ends within the block, and the walk stops after a
tag flagged `JBD2_FLAG_LAST_TAG`. Each step moves at least `tag_bytes`, so `size` steps
of fuel always suffice (`descriptorTags`). -/
def tagWalk (img : Image) (size : Nat) : Nat → Nat → List Nat
  | 0, _ => []
  | fuel + 1, tagp =>
    if tagp + journalTagBytes ≤ size then
      if readTagFlags img tagp &&& jbd2FlagLastTag ≠ 0 then [tagp]
      else tagp :: tagWalk img size fuel (nextTag tagp (readTagFlags img tagp))
    else []

/-- The tags recovery visits in a descriptor block of `size` bytes. -/
def descriptorTags (img : Image) (size : Nat) : List Nat :=
  tagWalk img size size sizeofJournalBfHeader

/-- The tag at offset `o`, as recovery reads it. -/
def readTag (img : Image) (o : Nat) : Tag :=
  ⟨readTagBlock journalTagBytes img o, readTagFlags img o, readTagChecksum img o,
    readTagType img o⟩

/-- `count_tags`: how many visited tags have a block in the log, that is all but the
newly-appended data tags. -/
def countTags (img : Image) (size : Nat) : Nat :=
  ((descriptorTags img size).filter
    (fun o => readTagType img o != tBlocktypeNewlyappendeddata)).length

/-! ## Flag words -/

theorem tagFlag_and_sameUuid_eq_zero (escape first : Bool) :
    tagFlag escape first &&& jbd2FlagSameUuid = 0 ↔ first = true := by
  cases escape <;> cases first <;> decide

@[simp] theorem tagFlag_and_last (escape first : Bool) :
    tagFlag escape first &&& jbd2FlagLastTag = 0 := by
  cases escape <;> cases first <;> decide

@[simp] theorem or_last_and_last (f : UInt32) :
    (f ||| jbd2FlagLastTag) &&& jbd2FlagLastTag = jbd2FlagLastTag := by
  apply UInt32.toBitVec_inj.mp
  simp only [jbd2FlagLastTag, UInt32.toBitVec_and, UInt32.toBitVec_or,
    BitVec.and_or_distrib_right, BitVec.and_self]
  ext i hi
  simp

/-- Where the tag after a writer's tag starts: `tag_bytes` on, and the UUID after the
first tag of the block. -/
theorem nextTag_tagFlag (o : Nat) (escape first : Bool) :
    nextTag o (tagFlag escape first) =
      o + journalTagBytes + if first then uuidBytes else 0 := by
  unfold nextTag
  cases first
  · have h : ¬ (tagFlag escape false &&& jbd2FlagSameUuid = 0) := by
      rw [tagFlag_and_sameUuid_eq_zero]
      decide
    simp [h]
  · have h : tagFlag escape true &&& jbd2FlagSameUuid = 0 :=
      (tagFlag_and_sameUuid_eq_zero escape true).mpr rfl
    simp [h]

/-! ## Reading a tag back -/

/-- A tag is read from its own `tag_bytes` bytes only. -/
theorem readTag_congr {img img' : Image} {o : Nat}
    (h : ∀ i, o ≤ i → i < o + journalTagBytes → img i = img' i) :
    readTag img o = readTag img' o := by
  have hw : ∀ k, k + 4 ≤ journalTagBytes → read32 img (o + k) = read32 img' (o + k) :=
    fun k hk => read32_congr fun i hi hi' => h i (by omega) (by omega)
  unfold readTag readTagBlock readTagFlags readTagChecksum readTagType
  have h0 := hw 0 (by decide)
  simp only [Nat.add_zero] at h0
  rw [h0, hw 4 (by decide), hw 8 (by decide), hw 16 (by decide), hw 48 (by decide)]

/-- The tag `putTag` stores reads back as the record it logs. -/
theorem readTag_putTag_self (uuid : Image) (d : Descriptor) (block : Nat)
    (checksum blocktype flag : UInt32) (hb : block < 2 ^ 64) :
    readTag (d.putTag uuid block checksum blocktype flag).img d.tagp =
      ⟨block, flag, checksum, blocktype⟩ := by
  -- the UUID lands after the tag, so the tag's bytes are those of the two stores
  have hplace : readTag (d.putTag uuid block checksum blocktype flag).img d.tagp =
      readTag (write32 (writeTagBlock journalTagBytes d.img d.tagp block checksum blocktype)
        (d.tagp + 4) flag) d.tagp := by
    unfold Descriptor.putTag
    cases d.firstTag
    · rfl
    · exact readTag_congr fun i _ hi => place_apply_of_not_mem _ _ _ _ (by omega)
  rw [hplace]
  unfold readTag
  have hblock : readTagBlock journalTagBytes (write32 (writeTagBlock journalTagBytes d.img
      d.tagp block checksum blocktype) (d.tagp + 4) flag) d.tagp = block := by
    unfold readTagBlock
    rw [read32_write32_of_disjoint _ _ (by omega), read32_write32_of_disjoint _ _ (by omega)]
    exact readTagBlock_writeTagBlock d.img d.tagp block checksum blocktype hb
  have hsum : readTagChecksum (write32 (writeTagBlock journalTagBytes d.img d.tagp block
      checksum blocktype) (d.tagp + 4) flag) d.tagp = checksum := by
    unfold readTagChecksum
    rw [read32_write32_of_disjoint _ _ (by omega)]
    exact readTagChecksum_writeTagBlock d.img d.tagp block checksum blocktype
  have htype : readTagType (write32 (writeTagBlock journalTagBytes d.img d.tagp block
      checksum blocktype) (d.tagp + 4) flag) d.tagp = blocktype := by
    unfold readTagType
    rw [read32_write32_of_disjoint _ _ (by omega)]
    exact readTagType_writeTagBlock d.img d.tagp block checksum blocktype
  rw [hblock, hsum, htype]
  simp [readTagFlags]

/-- `putTag` leaves every byte below `tagp` alone. -/
theorem putTag_img_of_lt (uuid : Image) (d : Descriptor) (block : Nat)
    (checksum blocktype flag : UInt32) {i : Nat} (hi : i < d.tagp) :
    (d.putTag uuid block checksum blocktype flag).img i = d.img i := by
  have hstore : write32 (writeTagBlock journalTagBytes d.img d.tagp block checksum blocktype)
      (d.tagp + 4) flag i = d.img i := by
    rw [write32_apply_of_not_mem _ _ _ (by omega)]
    exact writeTagBlock_apply_of_not_mem _ _ _ _ (by omega)
  unfold Descriptor.putTag
  cases d.firstTag
  · exact hstore
  · simp only [if_true]
    rw [place_apply_of_not_mem _ _ _ _ (by unfold journalTagBytes at *; omega)]
    exact hstore

/-! ## The walk, one tag at a time -/

section Walk

variable (img : Image) (size : Nat)

theorem tagWalk_of_gt {fuel o : Nat} (h : size < o + journalTagBytes) :
    tagWalk img size fuel o = [] := by
  cases fuel with
  | zero => rfl
  | succ fuel =>
    unfold tagWalk
    rw [if_neg (by omega)]

theorem tagWalk_of_last {fuel o : Nat} (h : o + journalTagBytes ≤ size)
    (hl : readTagFlags img o &&& jbd2FlagLastTag ≠ 0) :
    tagWalk img size (fuel + 1) o = [o] := by
  unfold tagWalk
  rw [if_pos h, if_pos hl]

theorem tagWalk_of_not_last {fuel o : Nat} (h : o + journalTagBytes ≤ size)
    (hl : readTagFlags img o &&& jbd2FlagLastTag = 0) :
    tagWalk img size (fuel + 1) o =
      o :: tagWalk img size fuel (nextTag o (readTagFlags img o)) := by
  rw [tagWalk.eq_2, if_pos h, if_neg (by simpa using hl)]

end Walk

/-! ## Tags laid out as a chain -/

/-- `Chain o es e`: the records `es` sit one after another from offset `o`, each at the
offset the previous tag's flags lead the walk to, and the walk goes on at `e`. -/
inductive Chain : Nat → List (Nat × Tag) → Nat → Prop
  | nil (o : Nat) : Chain o [] o
  | cons {o e : Nat} {t : Tag} {rest : List (Nat × Tag)} :
      Chain (nextTag o t.flags) rest e → Chain o ((o, t) :: rest) e

theorem Chain.snoc {o e : Nat} {es : List (Nat × Tag)} (h : Chain o es e) (t : Tag) :
    Chain o (es ++ [(e, t)]) (nextTag e t.flags) := by
  induction h with
  | nil o => exact Chain.cons (Chain.nil _)
  | cons _ ih => exact Chain.cons ih

/-- Every tag of a chain lies between its start and its end. -/
theorem Chain.bounds {o e : Nat} {es : List (Nat × Tag)} (h : Chain o es e) :
    o ≤ e ∧ ∀ p ∈ es, o ≤ p.1 ∧ p.1 + journalTagBytes ≤ e := by
  induction h with
  | nil o => exact ⟨le_rfl, by simp⟩
  | @cons o e t rest _ ih =>
    obtain ⟨hle, hmem⟩ := ih
    have hstep : o + journalTagBytes ≤ nextTag o t.flags := by
      unfold nextTag
      split <;> omega
    refine ⟨by omega, ?_⟩
    intro p hp
    rcases List.mem_cons.mp hp with rfl | hp
    · exact ⟨le_rfl, by omega⟩
    · have := hmem p hp
      exact ⟨by omega, this.2⟩

/-- The walk follows a chain of tags that it reads back, none flagged last, all within
the block, and then goes on where the chain ends. -/
theorem tagWalk_chain {img : Image} {size : Nat} :
    ∀ {o e : Nat} {es : List (Nat × Tag)} {fuel : Nat}, Chain o es e →
      (∀ p ∈ es, readTagFlags img p.1 = p.2.flags) →
      (∀ p ∈ es, p.2.flags &&& jbd2FlagLastTag = 0) →
      (∀ p ∈ es, p.1 + journalTagBytes ≤ size) →
      es.length ≤ fuel →
      tagWalk img size fuel o = es.map Prod.fst ++ tagWalk img size (fuel - es.length) e := by
  intro o e es fuel hc
  induction hc generalizing fuel with
  | nil o => intros; simp
  | @cons o e t rest hrest ih =>
    intro hflags hlast hsize hfuel
    obtain ⟨fuel', rfl⟩ : ∃ f, fuel = f + 1 := ⟨fuel - 1, by simp at hfuel; omega⟩
    have hf : readTagFlags img o = t.flags := hflags (o, t) List.mem_cons_self
    have hl : readTagFlags img o &&& jbd2FlagLastTag = 0 := by
      rw [hf]
      exact hlast (o, t) List.mem_cons_self
    rw [tagWalk_of_not_last img size (hsize (o, t) List.mem_cons_self) hl, hf]
    have hrest' := @ih fuel'
      (fun p hp => hflags p (List.mem_cons_of_mem _ hp))
      (fun p hp => hlast p (List.mem_cons_of_mem _ hp))
      (fun p hp => hsize p (List.mem_cons_of_mem _ hp))
      (by simp at hfuel; omega)
    rw [hrest']
    simp

/-- A chain that ends in a given record: the records before it form a chain up to it, and
the walk goes on after it. -/
theorem Chain.of_snoc {x : Nat} {t : Tag} :
    ∀ {o e : Nat} {es : List (Nat × Tag)}, Chain o (es ++ [(x, t)]) e →
      Chain o es x ∧ e = nextTag x t.flags := by
  intro o e es
  induction es generalizing o with
  | nil =>
    intro h
    cases h with
    | cons hrest =>
      cases hrest
      exact ⟨Chain.nil _, rfl⟩
  | cons p rest ih =>
    intro h
    cases h with
    | cons hrest =>
      obtain ⟨hc, he⟩ := ih hrest
      exact ⟨Chain.cons hc, he⟩

/-- A chain whose tags all end within `size` bytes has at most `(size - o) / tag_bytes`
tags, so `size` steps of fuel cover the walk. -/
theorem Chain.length_le_of_fit {o e size : Nat} {es : List (Nat × Tag)} (h : Chain o es e)
    (hfit : ∀ p ∈ es, p.1 + journalTagBytes ≤ size) :
    es.length * journalTagBytes ≤ size - o := by
  induction h with
  | nil o => simp
  | @cons o e t rest hrest ih =>
    have hstep : o + journalTagBytes ≤ nextTag o t.flags := by
      unfold nextTag
      split <;> omega
    have hhead : o + journalTagBytes ≤ size := hfit (o, t) List.mem_cons_self
    have hrest' := ih fun p hp => hfit p (List.mem_cons_of_mem _ hp)
    simp only [List.length_cons, Nat.succ_mul]
    -- either the rest is empty or its first tag, at the next offset, also fits
    omega

/-- The walk reads only the bytes below `size`. -/
theorem tagWalk_congr {img img' : Image} {size : Nat}
    (h : ∀ i, i < size → img i = img' i) :
    ∀ fuel o, tagWalk img size fuel o = tagWalk img' size fuel o := by
  intro fuel
  induction fuel with
  | zero => intro o; rfl
  | succ fuel ih =>
    intro o
    by_cases hfit : o + journalTagBytes ≤ size
    · have hf : readTagFlags img o = readTagFlags img' o :=
        read32_congr fun i _ hi => h i (by unfold journalTagBytes at hfit; omega)
      rw [tagWalk.eq_2, tagWalk.eq_2, if_pos hfit, if_pos hfit, hf, ih]
    · rw [tagWalk_of_gt img size (by omega), tagWalk_of_gt img' size (by omega)]

/-- Every tag the walk visits ends within the block. -/
theorem tagWalk_fit {img : Image} {size : Nat} :
    ∀ fuel o, ∀ o' ∈ tagWalk img size fuel o, o' + journalTagBytes ≤ size := by
  intro fuel
  induction fuel with
  | zero => intro o o' h; cases h
  | succ fuel ih =>
    intro o o' h
    rw [tagWalk.eq_2] at h
    split at h
    · rename_i hfit
      split at h
      · rw [List.mem_singleton.mp h]
        exact hfit
      · rcases List.mem_cons.mp h with rfl | h
        · exact hfit
        · exact ih _ o' h
    · cases h

/-- Recovery reads the block as it is on disk, its first `size` bytes: `count_tags` sees
nothing of what a tag wrote past them. -/
theorem countTags_truncate (img : Image) (size : Nat) :
    countTags (truncate size img) size = countTags img size := by
  have hwalk : descriptorTags (truncate size img) size = descriptorTags img size :=
    tagWalk_congr (fun i hi => truncate_apply_of_lt img hi) _ _
  have htype : ∀ o ∈ descriptorTags img size,
      readTagType (truncate size img) o = readTagType img o := by
    intro o ho
    have hfit := tagWalk_fit _ _ o ho
    unfold journalTagBytes at hfit
    exact read32_congr fun i _ hi => truncate_apply_of_lt img (by omega)
  unfold countTags
  rw [hwalk, List.filter_congr fun o ho => by rw [htype o ho]]

/-! ## The writer's invariant -/

section Writer

variable (uuid : Image) (d : Descriptor) (block : Nat) (checksum blocktype flag : UInt32)

@[simp] theorem putTag_logged : (d.putTag uuid block checksum blocktype flag).logged =
    d.logged ++ [(d.tagp, ⟨block, flag, checksum, blocktype⟩)] := by
  unfold Descriptor.putTag
  split <;> rfl

@[simp] theorem putTag_tagp : (d.putTag uuid block checksum blocktype flag).tagp =
    d.tagp + journalTagBytes + if d.firstTag then uuidBytes else 0 := by
  unfold Descriptor.putTag
  split <;> simp_all

@[simp] theorem putTag_spaceLeft : (d.putTag uuid block checksum blocktype flag).spaceLeft =
    d.spaceLeft - journalTagBytes - if d.firstTag then (uuidBytes : Int) else 0 := by
  unfold Descriptor.putTag
  split <;> simp_all

@[simp] theorem putTag_firstTag :
    (d.putTag uuid block checksum blocktype flag).firstTag = false := by
  unfold Descriptor.putTag
  split <;> rfl

@[simp] theorem putTag_tag : (d.putTag uuid block checksum blocktype flag).tag = d.tagp := by
  unfold Descriptor.putTag
  split <;> rfl

end Writer

/-- What the tag writer keeps true of the descriptor it fills for transaction `tid` in
blocks of `bSize` bytes: the header is in place, the stored tags form a chain from the end
of the header to `tagp` and read back as stored, none is flagged last yet, `space_left`
is what remains of the block after `tagp`, `first_tag` says whether a tag was stored, and
`tag` points at the last one. -/
structure Descriptor.Wf (bSize : Nat) (tid : UInt32) (d : Descriptor) : Prop where
  header : ∀ i, i < sizeofJournalBfHeader → d.img i = writeHeader zero jbd2DescriptorBlock tid i
  chain : Chain sizeofJournalBfHeader d.logged d.tagp
  reads : ∀ p ∈ d.logged, readTag d.img p.1 = p.2
  notLast : ∀ p ∈ d.logged, p.2.flags &&& jbd2FlagLastTag = 0
  spaceLeft : d.spaceLeft = (bSize : Int) - d.tagp
  firstTag : d.firstTag = true ↔ d.logged = []
  tag : ∀ p, d.logged.getLast? = some p → p.1 = d.tag

theorem Descriptor.wf_start (bSize : Nat) (tid : UInt32) :
    (Descriptor.start bSize tid).Wf bSize tid where
  header _ _ := rfl
  chain := Chain.nil _
  reads := by simp [Descriptor.start]
  notLast := by simp [Descriptor.start]
  spaceLeft := rfl
  firstTag := by simp [Descriptor.start]
  tag := by simp [Descriptor.start]

section Wf

variable {bSize : Nat} {tid : UInt32} {d : Descriptor}

theorem Descriptor.Wf.header_le_tagp (hd : d.Wf bSize tid) : sizeofJournalBfHeader ≤ d.tagp :=
  (Chain.bounds hd.chain).1

/-- The header fields that every recovery pass checks first. -/
theorem Descriptor.Wf.read32_header (hd : d.Wf bSize tid) {o : Nat}
    (ho : o + 4 ≤ sizeofJournalBfHeader) :
    read32 d.img o = read32 (writeHeader zero jbd2DescriptorBlock tid) o :=
  read32_congr fun i _ hi => hd.header i (by omega)

/-- `putTag` keeps `space_left` equal to what remains of the block after `tagp`. -/
theorem putTag_spaceLeft_eq (uuid : Image) (block : Nat) (checksum blocktype flag : UInt32)
    (h : d.spaceLeft = (bSize : Int) - d.tagp) :
    (d.putTag uuid block checksum blocktype flag).spaceLeft =
      (bSize : Int) - (d.putTag uuid block checksum blocktype flag).tagp := by
  rw [putTag_spaceLeft, putTag_tagp, h]
  split <;> push_cast <;> ring

/-- Storing a tag with the writer's flag word keeps the invariant. -/
theorem Descriptor.Wf.putTag (hd : d.Wf bSize tid) (uuid : Image) (escape : Bool)
    {block : Nat} (checksum blocktype : UInt32) (hb : block < 2 ^ 64) :
    (d.putTag uuid block checksum blocktype (tagFlag escape d.firstTag)).Wf bSize tid := by
  have hlow := hd.header_le_tagp
  have hkeep : ∀ i, i < d.tagp →
      (d.putTag uuid block checksum blocktype (tagFlag escape d.firstTag)).img i = d.img i :=
    fun i hi => putTag_img_of_lt uuid d block checksum blocktype _ hi
  constructor
  · intro i hi
    rw [hkeep i (by omega)]
    exact hd.header i hi
  · -- the new tag extends the chain by the step its own flags give
    rw [putTag_logged, putTag_tagp, ← nextTag_tagFlag d.tagp escape]
    exact hd.chain.snoc _
  · intro p hp
    rw [putTag_logged] at hp
    rcases List.mem_append.mp hp with hp | hp
    · have hend := ((Chain.bounds hd.chain).2 p hp).2
      rw [readTag_congr fun i _ hi => hkeep i (by omega)]
      exact hd.reads p hp
    · rw [List.mem_singleton.mp hp]
      exact readTag_putTag_self uuid d block checksum blocktype _ hb
  · intro p hp
    rw [putTag_logged] at hp
    rcases List.mem_append.mp hp with hp | hp
    · exact hd.notLast p hp
    · rw [List.mem_singleton.mp hp]
      exact tagFlag_and_last escape d.firstTag
  · exact putTag_spaceLeft_eq _ _ _ _ _ hd.spaceLeft
  · simp
  · intro p hp
    simp only [putTag_logged, List.getLast?_append, List.getLast?_singleton,
      Option.some_or, Option.some.injEq] at hp
    rw [← hp, putTag_tag]

/-- The data-tag loop keeps the invariant. -/
theorem Descriptor.Wf.putDataTags (uuid : Image) (escape : Bool) :
    ∀ {d : Descriptor} (es : List DataTag), d.Wf bSize tid →
      (∀ e ∈ es, e.bBlocknr < 2 ^ 64) → (putDataTags uuid escape d es).1.Wf bSize tid := by
  intro d es
  induction es generalizing d with
  | nil => intro hd _; exact hd
  | cons e rest ih =>
    intro hd hb
    unfold OptFs.Jbd.putDataTags
    split
    · exact hd
    · exact ih (hd.putTag uuid escape _ _ (hb e List.mem_cons_self))
        fun e' he' => hb e' (List.mem_cons_of_mem _ he')

/-- Every data tag the loop stores ends at least 16 bytes before the end of the block: the
loop's own test keeps room for one more tag. -/
theorem putDataTags_fit (uuid : Image) (escape : Bool) :
    ∀ {d : Descriptor} (es : List DataTag), d.spaceLeft = (bSize : Int) - d.tagp →
      (∀ p ∈ d.logged, p.1 + journalTagBytes + 16 ≤ bSize) →
      ∀ p ∈ (putDataTags uuid escape d es).1.logged, p.1 + journalTagBytes + 16 ≤ bSize := by
  intro d es
  induction es generalizing d with
  | nil => intro _ hfit; exact hfit
  | cons e rest ih =>
    intro hs hfit
    unfold OptFs.Jbd.putDataTags
    split
    · exact hfit
    · rename_i hspace
      refine ih (putTag_spaceLeft_eq _ _ _ _ _ hs) ?_
      intro p hp
      rw [putTag_logged] at hp
      rcases List.mem_append.mp hp with hp | hp
      · exact hfit p hp
      · -- the new tag sits at the old tagp, which the test left room after
        rw [List.mem_singleton.mp hp]
        unfold journalTagBytes at *
        simp only
        omega

/-- With room for all of them, the data-tag loop stores every entry and does not jump:
the first tag after a fresh descriptor costs a tag and the UUID, every other one a tag. -/
theorem putDataTags_of_room (uuid : Image) (escape : Bool) :
    ∀ {d : Descriptor} (es : List DataTag),
      (journalTagBytes * es.length + 16 + (if d.firstTag then 16 else 0) : Int) ≤ d.spaceLeft →
      (putDataTags uuid escape d es).2 = ([], false) ∧
      (putDataTags uuid escape d es).1.spaceLeft =
        d.spaceLeft - journalTagBytes * es.length - (if d.firstTag ∧ es ≠ [] then 16 else 0) := by
  intro d es
  induction es generalizing d with
  | nil => intro _; simp [OptFs.Jbd.putDataTags]
  | cons e rest ih =>
    intro hroom
    simp only [List.length_cons, Nat.cast_add, Nat.cast_one] at hroom
    have hfits : ¬ d.spaceLeft < journalTagBytes + 16 := by
      unfold journalTagBytes at *
      split at hroom <;> push_cast at hroom ⊢ <;> omega
    unfold OptFs.Jbd.putDataTags
    rw [if_neg hfits]
    -- after the first tag no UUID is due any more
    have hnext := @ih (d.putTag uuid e.bBlocknr e.crc32DataSum tBlocktypeNewlyappendeddata
      (tagFlag escape d.firstTag))
    rw [putTag_firstTag, putTag_spaceLeft] at hnext
    have hroom' : (journalTagBytes * rest.length + 16 + (if false = true then 16 else 0) : Int) ≤
        d.spaceLeft - journalTagBytes - if d.firstTag then (uuidBytes : Int) else 0 := by
      unfold journalTagBytes uuidBytes at *
      split at hroom <;> simp only [Bool.false_eq_true, if_false, if_true, *] <;> push_cast <;>
        omega
    obtain ⟨hleft, hspace⟩ := hnext hroom'
    refine ⟨hleft, ?_⟩
    rw [hspace]
    unfold uuidBytes
    simp only [Bool.false_eq_true, false_and, if_false, List.length_cons, ne_eq,
      reduceCtorEq, not_false_eq_true, and_true]
    split <;> push_cast <;> ring

/-- The data-tag loop stores newly-appended data tags only. -/
theorem putDataTags_logged (uuid : Image) (escape : Bool) :
    ∀ {d : Descriptor} (es : List DataTag), ∀ p ∈ (putDataTags uuid escape d es).1.logged,
      p ∈ d.logged ∨ p.2.blocktype = tBlocktypeNewlyappendeddata := by
  intro d es
  induction es generalizing d with
  | nil => intro p hp; exact Or.inl hp
  | cons e rest ih =>
    intro p hp
    unfold OptFs.Jbd.putDataTags at hp
    split at hp
    · exact Or.inl hp
    · rcases ih p hp with hp | hp
      · rw [putTag_logged] at hp
        rcases List.mem_append.mp hp with hp | hp
        · exact Or.inl hp
        · rw [List.mem_singleton.mp hp]
          exact Or.inr rfl
      · exact Or.inr hp

/-! ## The finished block read back -/

/-- Storing a flags word changes the tag's flags only. -/
theorem readTag_write32_flags (img : Image) (o : Nat) (v : UInt32) :
    readTag (write32 img (o + 4) v) o = { readTag img o with flags := v } := by
  unfold readTag readTagBlock readTagFlags readTagChecksum readTagType
  rw [read32_write32_of_disjoint _ _ (by omega), read32_write32_of_disjoint _ _ (by omega),
    read32_write32_same, read32_write32_of_disjoint _ _ (by omega),
    read32_write32_of_disjoint _ _ (by omega)]

theorem markLastEntry_append (es : List (Nat × Tag)) (x : Nat × Tag) :
    markLastEntry (es ++ [x]) = es ++ [(x.1, x.2.withLast)] := by
  induction es with
  | nil => rfl
  | cons e rest ih =>
    obtain ⟨y, ys, hys⟩ : ∃ y ys, rest ++ [x] = y :: ys := by
      cases rest with
      | nil => exact ⟨x, [], rfl⟩
      | cons r rs => exact ⟨r, rs ++ [x], rfl⟩
    rw [List.cons_append, hys]
    show e :: markLastEntry (y :: ys) = _
    rw [← hys, ih, List.cons_append]

/-- The tags before the last one lie below it, so setting the last flag leaves them. -/
theorem Descriptor.Wf.readTag_markLast (hd : d.Wf bSize tid) :
    ∀ p ∈ markLastEntry d.logged, readTag d.markLast.img p.1 = p.2 := by
  intro p hp
  rcases List.eq_nil_or_concat' d.logged with hnil | ⟨init, last, hlog⟩
  · rw [hnil] at hp
    cases hp
  · have htag : last.1 = d.tag := hd.tag last (by rw [hlog]; simp)
    have hchain := (Chain.of_snoc (hlog ▸ hd.chain)).1
    rw [hlog, markLastEntry_append] at hp
    unfold Descriptor.markLast
    rcases List.mem_append.mp hp with hp | hp
    · -- an earlier tag ends at or before the last one begins
      have hend := ((Chain.bounds hchain).2 p hp).2
      rw [readTag_congr fun i _ hi => write32_apply_of_not_mem _ _ _ (by omega)]
      exact hd.reads p (by rw [hlog]; exact List.mem_append_left _ hp)
    · rw [List.mem_singleton.mp hp]
      have hlast : readTag d.img last.1 = last.2 :=
        hd.reads last (by rw [hlog]; exact List.mem_append_right _ List.mem_cons_self)
      simp only
      rw [← htag, readTag_write32_flags, hlast]
      have hf : read32 d.img (last.1 + 4) = last.2.flags := by
        have := congrArg Tag.flags hlast
        exact this
      rw [hf]
      rfl

/-- The walk over a finished block goes through the tags before the last one and then
reads the block at the last tag's offset. -/
theorem Descriptor.Wf.descriptorTags_markLast_eq (hd : d.Wf bSize tid)
    {init : List (Nat × Tag)} {last : Nat × Tag} (hlog : d.logged = init ++ [last])
    {size : Nat} (hfit : ∀ p ∈ init, p.1 + journalTagBytes ≤ size) :
    descriptorTags d.markLast.img size =
      init.map Prod.fst ++ tagWalk d.markLast.img size (size - init.length) last.1 := by
  have hchain := (Chain.of_snoc (hlog ▸ hd.chain)).1
  have hreads := hd.readTag_markLast
  rw [hlog, markLastEntry_append] at hreads
  have hlen := Chain.length_le_of_fit hchain hfit
  unfold descriptorTags
  apply tagWalk_chain hchain
  · intro p hp
    have := hreads p (List.mem_append_left _ hp)
    exact congrArg Tag.flags this
  · intro p hp
    exact hd.notLast p (by rw [hlog]; exact List.mem_append_left _ hp)
  · exact hfit
  · unfold journalTagBytes at hlen
    omega

/-- A finished block whose tags all end within `size` bytes is walked tag for tag, up to
the last one, which carries `JBD2_FLAG_LAST_TAG`. -/
theorem Descriptor.Wf.descriptorTags_markLast (hd : d.Wf bSize tid) (hne : d.logged ≠ [])
    {size : Nat} (hfit : ∀ p ∈ d.logged, p.1 + journalTagBytes ≤ size) :
    descriptorTags d.markLast.img size = d.logged.map Prod.fst := by
  obtain ⟨init, last, hlog⟩ := List.eq_nil_or_concat' d.logged |>.resolve_left hne
  have hfitInit : ∀ p ∈ init, p.1 + journalTagBytes ≤ size :=
    fun p hp => hfit p (by rw [hlog]; exact List.mem_append_left _ hp)
  have hfitLast : last.1 + journalTagBytes ≤ size :=
    hfit last (by rw [hlog]; exact List.mem_append_right _ List.mem_cons_self)
  have hlen := Chain.length_le_of_fit (hlog ▸ hd.chain) (hlog ▸ hfit)
  simp only [List.length_append, List.length_singleton] at hlen
  have hflags : readTagFlags d.markLast.img last.1 = last.2.flags ||| jbd2FlagLastTag := by
    have := hd.readTag_markLast (last.1, last.2.withLast)
      (by rw [hlog, markLastEntry_append]; exact List.mem_append_right _ List.mem_cons_self)
    exact congrArg Tag.flags this
  rw [hd.descriptorTags_markLast_eq hlog hfitInit]
  obtain ⟨fuel, hfuel⟩ : ∃ fuel, size - init.length = fuel + 1 :=
    ⟨size - init.length - 1, by unfold journalTagBytes at hlen; omega⟩
  rw [hfuel, tagWalk_of_last _ _ hfitLast (by rw [hflags, or_last_and_last]; decide), hlog]
  rw [List.map_append, List.map_singleton]

/-- A walk stops at the first tag that would cross the end of the block: a finished block
whose last tag does not fit is read only up to the tag before it. -/
theorem Descriptor.Wf.descriptorTags_markLast_overflow (hd : d.Wf bSize tid)
    {init : List (Nat × Tag)} {last : Nat × Tag} (hlog : d.logged = init ++ [last])
    {size : Nat} (hfit : ∀ p ∈ init, p.1 + journalTagBytes ≤ size)
    (hover : size < last.1 + journalTagBytes) :
    descriptorTags d.markLast.img size = init.map Prod.fst := by
  rw [hd.descriptorTags_markLast_eq hlog hfit, tagWalk_of_gt _ _ hover, List.append_nil]

/-- Setting the last flag leaves every stored tag's type as stored. -/
theorem Descriptor.Wf.readTagType_markLast (hd : d.Wf bSize tid) :
    ∀ p ∈ d.logged, readTagType d.markLast.img p.1 = p.2.blocktype := by
  intro p hp
  have hreads := hd.readTag_markLast
  rcases List.eq_nil_or_concat' d.logged with hnil | ⟨init, last, hlog⟩
  · rw [hnil] at hp
    cases hp
  · rw [hlog, markLastEntry_append] at hreads
    rw [hlog] at hp
    rcases List.mem_append.mp hp with hp | hp
    · exact congrArg Tag.blocktype (hreads p (List.mem_append_left _ hp))
    · rw [List.mem_singleton.mp hp]
      exact congrArg Tag.blocktype
        (hreads (last.1, last.2.withLast) (List.mem_append_right _ List.mem_cons_self))

/-- Setting the last flag leaves every stored tag's block number, checksum and type. -/
theorem Descriptor.Wf.readTag_markLast_of_mem (hd : d.Wf bSize tid) {p : Nat × Tag}
    (hp : p ∈ d.logged) :
    readTagBlock journalTagBytes d.markLast.img p.1 = p.2.blocknr ∧
      readTagChecksum d.markLast.img p.1 = p.2.checksum ∧
      readTagType d.markLast.img p.1 = p.2.blocktype := by
  have hreads := hd.readTag_markLast
  obtain ⟨init, last, hlog⟩ := List.eq_nil_or_concat' d.logged |>.resolve_left
    (List.ne_nil_of_mem hp)
  rw [hlog, markLastEntry_append] at hreads
  rw [hlog] at hp
  -- the last tag reads back with its flags changed, the others as stored
  have hread : readTag d.markLast.img p.1 = p.2 ∨ readTag d.markLast.img p.1 = p.2.withLast := by
    rcases List.mem_append.mp hp with hp | hp
    · exact .inl (hreads p (List.mem_append_left _ hp))
    · rw [List.mem_singleton.mp hp]
      exact .inr (hreads (last.1, last.2.withLast) (List.mem_append_right _ List.mem_cons_self))
  rcases hread with h | h
  · exact ⟨congrArg Tag.blocknr h, congrArg Tag.checksum h, congrArg Tag.blocktype h⟩
  · exact ⟨congrArg Tag.blocknr h, congrArg Tag.checksum h, congrArg Tag.blocktype h⟩

/-- `count_tags` of a finished block whose tags fit: its tags that have a log block. -/
theorem Descriptor.Wf.countTags_markLast (hd : d.Wf bSize tid) (hne : d.logged ≠ [])
    {size : Nat} (hfit : ∀ p ∈ d.logged, p.1 + journalTagBytes ≤ size) :
    countTags d.markLast.img size =
      (d.logged.filter fun p => p.2.blocktype != tBlocktypeNewlyappendeddata).length := by
  unfold countTags
  rw [hd.descriptorTags_markLast hne hfit, List.filter_map, List.length_map]
  congr 1
  apply List.filter_congr
  intro p hp
  rw [Function.comp_apply, hd.readTagType_markLast p hp]

/-- `count_tags` of a finished block whose last tag crosses its end: the tags before it
that have a log block. -/
theorem Descriptor.Wf.countTags_markLast_overflow (hd : d.Wf bSize tid)
    {init : List (Nat × Tag)} {last : Nat × Tag} (hlog : d.logged = init ++ [last])
    {size : Nat} (hfit : ∀ p ∈ init, p.1 + journalTagBytes ≤ size)
    (hover : size < last.1 + journalTagBytes) :
    countTags d.markLast.img size =
      (init.filter fun p => p.2.blocktype != tBlocktypeNewlyappendeddata).length := by
  unfold countTags
  rw [hd.descriptorTags_markLast_overflow hlog hfit hover, List.filter_map, List.length_map]
  congr 1
  apply List.filter_congr
  intro p hp
  have hp' : p ∈ d.logged := by
    rw [hlog]
    exact List.mem_append_left _ hp
  rw [Function.comp_apply, hd.readTagType_markLast p hp']

/-- Once a tag is stored, `tag` points past the header. -/
theorem Descriptor.Wf.header_le_tag (hd : d.Wf bSize tid) (hne : d.logged ≠ []) :
    sizeofJournalBfHeader ≤ d.tag := by
  obtain ⟨init, last, hlog⟩ := List.eq_nil_or_concat' d.logged |>.resolve_left hne
  have htag : last.1 = d.tag := hd.tag last (by rw [hlog]; simp)
  have hmem : last ∈ d.logged := by
    rw [hlog]
    exact List.mem_append_right _ List.mem_cons_self
  rw [← htag]
  exact ((Chain.bounds hd.chain).2 last hmem).1

/-- Flagging the last tag leaves the header as `Descriptor.start` wrote it. -/
theorem Descriptor.Wf.read32_markLast_header (hd : d.Wf bSize tid) (hne : d.logged ≠ [])
    {o : Nat} (ho : o + 4 ≤ sizeofJournalBfHeader) :
    read32 d.markLast.img o = read32 (writeHeader zero jbd2DescriptorBlock tid) o := by
  have htag := hd.header_le_tag hne
  unfold Descriptor.markLast
  rw [read32_write32_of_disjoint _ _ (by omega)]
  exact hd.read32_header ho

/-- What the data-tag loop leaves in a fresh descriptor: the writer's invariant, tags that
end at least 16 bytes before the end of the block, and newly-appended data tags only. -/
theorem putDataTags_start (uuid : Image) (escape : Bool) (es : List DataTag)
    (hb : ∀ e ∈ es, e.bBlocknr < 2 ^ 64) :
    (putDataTags uuid escape (Descriptor.start bSize tid) es).1.Wf bSize tid ∧
    (∀ p ∈ (putDataTags uuid escape (Descriptor.start bSize tid) es).1.logged,
      p.1 + journalTagBytes + 16 ≤ bSize) ∧
    (∀ p ∈ (putDataTags uuid escape (Descriptor.start bSize tid) es).1.logged,
      p.2.blocktype = tBlocktypeNewlyappendeddata) := by
  refine ⟨(Descriptor.wf_start bSize tid).putDataTags uuid escape es hb,
    putDataTags_fit uuid escape es (Descriptor.wf_start bSize tid).spaceLeft
      (by simp [Descriptor.start]), ?_⟩
  intro p hp
  have hnewly := putDataTags_logged uuid escape es p hp
  simpa [Descriptor.start] using hnewly

/-- A tag stored after newly-appended data tags that leave less than a tag's room crosses
the end of the block: `count_tags` of the finished block on disk is 0, though the last tag
may have a log block. -/
theorem Descriptor.Wf.countTags_tag_past_end (hd : d.Wf bSize tid)
    (hfit : ∀ p ∈ d.logged, p.1 + journalTagBytes ≤ bSize)
    (hnewly : ∀ p ∈ d.logged, p.2.blocktype = tBlocktypeNewlyappendeddata)
    (hroom : d.spaceLeft < journalTagBytes) (uuid : Image) {block : Nat} (hb : block < 2 ^ 64)
    (checksum blocktype : UInt32) (escape : Bool) :
    countTags (truncate bSize
      (d.putTag uuid block checksum blocktype (tagFlag escape d.firstTag)).markLast.img) bSize =
      0 := by
  have hd' := hd.putTag uuid escape checksum blocktype hb
  have hover : bSize < d.tagp + journalTagBytes := by
    have := hd.spaceLeft
    omega
  rw [countTags_truncate, hd'.countTags_markLast_overflow (putTag_logged _ _ _ _ _ _) hfit hover,
    List.length_eq_zero_iff, List.filter_eq_nil_iff]
  intro p hp
  simp [hnewly p hp]

end Wf

end OptFs.Jbd
