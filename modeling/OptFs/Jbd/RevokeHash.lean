import OptFs.Jbd.Recovery

/-!
# The revoke hash table during recovery (`revoke.c`)

`PASS_REVOKE` records every revoked block in `journal->j_revoke`, a table of `hash_size`
buckets, each a list of `struct jbdbf_revoke_record_s`. `jbdbf_journal_set_revoke` finds
the block's record in its bucket (`find_revoke_record`) and raises its sequence number to the
new one when `tid_gt` says it is later, or adds a record at the head of the bucket
(`insert_revoke_hash`). `jbdbf_journal_test_revoke` reports a block revoked in a transaction
when its record's sequence is not before it, and `jbdbf_journal_clear_revoke` empties every
bucket after recovery.

The bucket of a block is `hash(journal, block)`. For the recovery table `hash_shift` is 8,
and the shift by `hash_shift - 12` is then by a negative amount, which C leaves undefined;
the bucket function is therefore a parameter here, and every result holds for each one.

* The table read block by block (`toRevokeTable`) is the map the recovery passes use, and
  setting and testing act on it as `Recovery` models them (`toRevokeTable_setRevoke`,
  `jbdbfJournalTestRevoke_eq`), over whole runs of calls (`toRevokeTable_setRevokes`).
* A table built by `set_revoke` keeps every record in its block's bucket and at most one
  record per block (`HashTable.Wf`).
* When the sequence numbers set for a block and the tested one all lie within `2 ^ 31` of a
  common base, the test answers whether some call set the block at or after the tested
  sequence (`revoke_table_semantics`); with the tested one outside that window it need not
  (`jbdbfJournalTestRevoke_outside_window`).

Allocation failure in `insert_revoke_hash` is not modelled (recovery sets
`journal_oom_retry`, which retries until the allocation succeeds).
-/

namespace OptFs.Jbd.RevokeHash

/-- `struct jbdbf_revoke_record_s` as recovery uses it. -/
structure RevokeRecord where
  blocknr : Nat
  sequence : UInt32
deriving DecidableEq, Repr

/-- `struct jbdbf_revoke_table_s`: `hash_size` buckets, each a list of records from its
head. -/
structure HashTable (hashSize : Nat) where
  hashTable : Fin hashSize → List RevokeRecord

variable {hashSize : Nat}

/-- A table with every bucket empty, as `jbdbf_journal_init_revoke_table` leaves it. -/
def HashTable.empty : HashTable hashSize := ⟨fun _ => []⟩

/-- `record->sequence = sequence` on the record `find_revoke_record` returned: the first of
the bucket for that block. -/
def setFirst (blocknr : Nat) (sequence : UInt32) : List RevokeRecord → List RevokeRecord
  | [] => []
  | r :: rest =>
    if r.blocknr = blocknr then { r with sequence } :: rest else r :: setFirst blocknr sequence rest

section Table

variable (hash : Nat → Fin hashSize)

/-- `find_revoke_record`: the first record of the block's bucket for that block. -/
def findRevokeRecord (t : HashTable hashSize) (blocknr : Nat) : Option RevokeRecord :=
  (t.hashTable (hash blocknr)).find? (·.blocknr = blocknr)

/-- `insert_revoke_hash`: a new record at the head of the block's bucket (`list_add`). -/
def insertRevokeHash (t : HashTable hashSize) (blocknr : Nat) (seq : UInt32) :
    HashTable hashSize :=
  ⟨Function.update t.hashTable (hash blocknr) (⟨blocknr, seq⟩ :: t.hashTable (hash blocknr))⟩

/-- `jbdbf_journal_set_revoke`: keep the later sequence in the block's record, or add one. -/
def jbdbfJournalSetRevoke (t : HashTable hashSize) (blocknr : Nat) (sequence : UInt32) :
    HashTable hashSize :=
  match findRevokeRecord hash t blocknr with
  | some record =>
    if tidGt sequence record.sequence then
      ⟨Function.update t.hashTable (hash blocknr)
        (setFirst blocknr sequence (t.hashTable (hash blocknr)))⟩
    else t
  | none => insertRevokeHash hash t blocknr sequence

/-- `jbdbf_journal_test_revoke`. -/
def jbdbfJournalTestRevoke (t : HashTable hashSize) (blocknr : Nat) (sequence : UInt32) : Bool :=
  match findRevokeRecord hash t blocknr with
  | none => false
  | some record => !tidGt sequence record.sequence

/-- A run of `jbdbf_journal_set_revoke` calls, each a block and a sequence. -/
def setRevokes (t : HashTable hashSize) (calls : List (Nat × UInt32)) : HashTable hashSize :=
  calls.foldl (fun t c => jbdbfJournalSetRevoke hash t c.1 c.2) t

/-- The table read block by block: the sequence of the record `find_revoke_record` finds. -/
def toRevokeTable (t : HashTable hashSize) : RevokeTable :=
  fun blocknr => (findRevokeRecord hash t blocknr).map (·.sequence)

end Table

/-- The loop of `jbdbf_journal_clear_revoke` from bucket `i` on: each bucket loses its records
one by one until it is empty. -/
def clearRevokeFrom (t : HashTable hashSize) (i : Nat) : HashTable hashSize :=
  if h : i < hashSize then clearRevokeFrom ⟨Function.update t.hashTable ⟨i, h⟩ []⟩ (i + 1) else t
termination_by hashSize - i

/-- `jbdbf_journal_clear_revoke`. -/
def jbdbfJournalClearRevoke (t : HashTable hashSize) : HashTable hashSize := clearRevokeFrom t 0

/-! ## The table refines the map recovery reads -/

section Refinement

variable (hash : Nat → Fin hashSize)

/-- Raising the first record of a block leaves the records found for other blocks, and the
found record of that block gets the new sequence. -/
theorem find?_setFirst (blocknr b : Nat) (sequence : UInt32) (l : List RevokeRecord) :
    (setFirst blocknr sequence l).find? (·.blocknr = b) =
      if b = blocknr then (l.find? (·.blocknr = b)).map ({ · with sequence })
      else l.find? (·.blocknr = b) := by
  induction l with
  | nil => simp [setFirst]
  | cons r rest ih =>
    by_cases hr : r.blocknr = blocknr
    · by_cases hb : b = blocknr
      · subst hb
        simp [setFirst, hr]
      · simp [setFirst, hr, Ne.symm hb, hb]
    · rw [setFirst, if_neg hr, List.find?_cons, List.find?_cons, ih]
      by_cases hrb : r.blocknr = b
      · have hb : b ≠ blocknr := fun h => hr (hrb.trans h)
        simp [hrb, hb]
      · simp [hrb]

/-- A record at the head of a bucket is found for its block, and hides nothing for others. -/
theorem findRevokeRecord_insert (t : HashTable hashSize) (blocknr b : Nat) (seq : UInt32) :
    findRevokeRecord hash (insertRevokeHash hash t blocknr seq) b =
      if b = blocknr then some ⟨blocknr, seq⟩ else findRevokeRecord hash t b := by
  unfold findRevokeRecord insertRevokeHash
  by_cases hb : b = blocknr
  · subst hb
    simp
  · rw [if_neg hb]
    by_cases hh : hash b = hash blocknr
    · simp only [hh, Function.update_self, List.find?_cons]
      simp [Ne.symm hb]
    · simp [Function.update_of_ne hh]

/-- `set_revoke` acts on the table read block by block as recovery's `jbdbf_journal_set_revoke`
acts on its map. -/
theorem toRevokeTable_setRevoke (t : HashTable hashSize) (blocknr : Nat) (sequence : UInt32) :
    toRevokeTable hash (jbdbfJournalSetRevoke hash t blocknr sequence) =
      OptFs.Jbd.jbdbfJournalSetRevoke (toRevokeTable hash t) blocknr sequence := by
  funext b
  unfold jbdbfJournalSetRevoke OptFs.Jbd.jbdbfJournalSetRevoke
  cases hfind : findRevokeRecord hash t blocknr with
  | none =>
    -- a new record at the head of the bucket
    simp only [toRevokeTable, hfind, Option.map_none, findRevokeRecord_insert]
    by_cases hb : b = blocknr
    · subst hb
      simp
    · simp [hb, toRevokeTable]
  | some record =>
    simp only [toRevokeTable, hfind, Option.map_some]
    split
    · -- the found record takes the later sequence
      by_cases hb : b = blocknr
      · subst hb
        simp only [findRevokeRecord, Function.update_self, find?_setFirst, if_true]
        simp [findRevokeRecord] at hfind
        simp [hfind]
      · rw [Function.update_of_ne hb]
        simp only [findRevokeRecord, toRevokeTable]
        by_cases hh : hash b = hash blocknr
        · simp [hh, find?_setFirst, hb]
        · simp [Function.update_of_ne hh]
    · rfl

theorem jbdbfJournalTestRevoke_eq (t : HashTable hashSize) (blocknr : Nat) (sequence : UInt32) :
    jbdbfJournalTestRevoke hash t blocknr sequence =
      OptFs.Jbd.jbdbfJournalTestRevoke (toRevokeTable hash t) blocknr sequence := by
  unfold jbdbfJournalTestRevoke OptFs.Jbd.jbdbfJournalTestRevoke toRevokeTable
  cases findRevokeRecord hash t blocknr <;> rfl

/-- Over a run of calls, the table read block by block is recovery's map after the same
calls. -/
theorem toRevokeTable_setRevokes (t : HashTable hashSize) (calls : List (Nat × UInt32)) :
    toRevokeTable hash (setRevokes hash t calls) =
      calls.foldl (fun m c => OptFs.Jbd.jbdbfJournalSetRevoke m c.1 c.2) (toRevokeTable hash t) := by
  induction calls generalizing t with
  | nil => rfl
  | cons c calls ih =>
    simp only [setRevokes, List.foldl_cons] at ih ⊢
    rw [ih, toRevokeTable_setRevoke]

theorem toRevokeTable_empty : toRevokeTable hash (HashTable.empty : HashTable hashSize) = fun _ => none := by
  funext b
  rfl

end Refinement

/-! ## One record per block -/

section Wf

variable (hash : Nat → Fin hashSize)

/-- Every record sits in its block's bucket, and no bucket holds two records of one block. -/
structure HashTable.Wf (t : HashTable hashSize) : Prop where
  bucket : ∀ i, ∀ r ∈ t.hashTable i, hash r.blocknr = i
  nodup : ∀ i, ((t.hashTable i).map (·.blocknr)).Nodup

theorem HashTable.wf_empty : (HashTable.empty : HashTable hashSize).Wf hash :=
  ⟨fun _ _ hr => absurd hr List.not_mem_nil, fun _ => List.nodup_nil⟩

theorem map_blocknr_setFirst (blocknr : Nat) (sequence : UInt32) (l : List RevokeRecord) :
    (setFirst blocknr sequence l).map (·.blocknr) = l.map (·.blocknr) := by
  induction l with
  | nil => rfl
  | cons r rest ih =>
    rw [setFirst]
    split
    · rfl
    · rw [List.map_cons, ih, List.map_cons]

/-- Two records of one block in a well-formed table are one record in one bucket. -/
theorem HashTable.Wf.unique {t : HashTable hashSize} (h : t.Wf hash) {i j : Fin hashSize}
    {r r' : RevokeRecord} (hr : r ∈ t.hashTable i) (hr' : r' ∈ t.hashTable j)
    (hblock : r.blocknr = r'.blocknr) : i = j ∧ r = r' := by
  have hij : i = j := by
    rw [← h.bucket i r hr, ← h.bucket j r' hr', hblock]
  subst hij
  exact ⟨rfl, List.inj_on_of_nodup_map (h.nodup i) hr hr' hblock⟩

/-- `set_revoke` keeps the table well formed: a raised record keeps its block, and a new
record goes in only when its block has none. -/
theorem HashTable.Wf.setRevoke {t : HashTable hashSize} (h : t.Wf hash) (blocknr : Nat)
    (sequence : UInt32) : (jbdbfJournalSetRevoke hash t blocknr sequence).Wf hash := by
  unfold jbdbfJournalSetRevoke
  cases hfind : findRevokeRecord hash t blocknr with
  | none =>
    have hnone : ∀ x ∈ t.hashTable (hash blocknr), x.blocknr ≠ blocknr := by
      intro x hx hxb
      have := List.find?_eq_none.mp hfind x hx
      simp [hxb] at this
    constructor
    · intro i r hr
      by_cases hi : i = hash blocknr
      · subst hi
        simp only [insertRevokeHash, Function.update_self, List.mem_cons] at hr
        rcases hr with rfl | hr
        · rfl
        · exact h.bucket _ r hr
      · simp only [insertRevokeHash, Function.update_of_ne hi] at hr
        exact h.bucket i r hr
    · intro i
      by_cases hi : i = hash blocknr
      · subst hi
        simp only [insertRevokeHash, Function.update_self, List.map_cons, List.nodup_cons,
          List.mem_map, not_exists, not_and]
        exact ⟨fun x hx hxb => hnone x hx hxb, h.nodup _⟩
      · simp only [insertRevokeHash, Function.update_of_ne hi]
        exact h.nodup i
  | some record =>
    dsimp only
    split
    · constructor
      · intro i r hr
        by_cases hi : i = hash blocknr
        · subst hi
          simp only [Function.update_self] at hr
          -- the raised record keeps the block of a record of the bucket
          have hmem : r.blocknr ∈ (t.hashTable (hash blocknr)).map (·.blocknr) := by
            rw [← map_blocknr_setFirst blocknr sequence]
            exact List.mem_map_of_mem hr
          obtain ⟨r₀, hr₀, hblock⟩ := List.mem_map.mp hmem
          rw [← hblock]
          exact h.bucket _ r₀ hr₀
        · simp only [Function.update_of_ne hi] at hr
          exact h.bucket i r hr
      · intro i
        by_cases hi : i = hash blocknr
        · subst hi
          simp only [Function.update_self, map_blocknr_setFirst]
          exact h.nodup _
        · simp only [Function.update_of_ne hi]
          exact h.nodup i
    · exact h

theorem HashTable.Wf.setRevokes {t : HashTable hashSize} (h : t.Wf hash)
    (calls : List (Nat × UInt32)) : (setRevokes hash t calls).Wf hash := by
  induction calls generalizing t with
  | nil => exact h
  | cons c calls ih => exact ih (h.setRevoke hash c.1 c.2)

end Wf

/-! ## What a test answers -/

/-- The sequences of the calls on `blocknr`, in call order. -/
def seqsOf (blocknr : Nat) (calls : List (Nat × UInt32)) : List UInt32 :=
  (calls.filter (·.1 = blocknr)).map (·.2)

/-- The sequence numbers lie less than `2 ^ 31` past `base`. -/
def InTidWindow (base : UInt32) (seqs : List UInt32) : Prop :=
  ∀ s ∈ seqs, (s - base).toNat < 2 ^ 31

instance (base : UInt32) (seqs : List UInt32) : Decidable (InTidWindow base seqs) :=
  inferInstanceAs (Decidable (∀ s ∈ seqs, _))

theorem seqsOf_append_single (blocknr : Nat) (calls : List (Nat × UInt32)) (c : Nat × UInt32) :
    seqsOf blocknr (calls ++ [c]) =
      seqsOf blocknr calls ++ if c.1 = blocknr then [c.2] else [] := by
  unfold seqsOf
  by_cases hc : c.1 = blocknr <;> simp [List.filter_append, hc]

/-- Recovery's map after a run of calls holds, for a block, the latest of the sequences set
for it, when they lie in one window: by induction on the calls, one `set_revoke` at a
time. -/
theorem setRevokes_latest (blocknr : Nat) (base : UInt32) (calls : List (Nat × UInt32))
    (hwin : InTidWindow base (seqsOf blocknr calls)) :
    (calls.foldl (fun m c => OptFs.Jbd.jbdbfJournalSetRevoke m c.1 c.2) (fun _ => none) blocknr = none ∧
        seqsOf blocknr calls = []) ∨
      ∃ m, calls.foldl (fun m c => OptFs.Jbd.jbdbfJournalSetRevoke m c.1 c.2) (fun _ => none) blocknr = some m ∧
        m ∈ seqsOf blocknr calls ∧ ∀ s ∈ seqsOf blocknr calls, (s - base).toNat ≤ (m - base).toNat := by
  induction calls using List.reverseRecOn with
  | nil => exact Or.inl ⟨rfl, rfl⟩
  | append_singleton calls c ih =>
    rw [seqsOf_append_single] at hwin ⊢
    have hwin' : InTidWindow base (seqsOf blocknr calls) := fun s hs => hwin s (List.mem_append_left _ hs)
    rw [List.foldl_append, List.foldl_cons, List.foldl_nil]
    by_cases hc : c.1 = blocknr
    · -- a call on the block: the record is created, or keeps the later sequence
      have hs : (c.2 - base).toNat < 2 ^ 31 := hwin c.2 (by simp [hc])
      rw [if_pos hc, ← hc, jbdbfJournalSetRevoke_apply_self, hc]
      rcases ih hwin' with ⟨hnone, hempty⟩ | ⟨m, hm, hmem, hmax⟩
      · rw [hnone, hempty]
        exact Or.inr ⟨c.2, rfl, by simp, by simp⟩
      · rw [hm]
        dsimp only
        have hmwin : (m - base).toNat < 2 ^ 31 := hwin' m hmem
        by_cases hgt : tidGt c.2 m = true
        · have hlt := (tidGt_iff_of_window hs hmwin).mp hgt
          rw [if_pos hgt]
          refine Or.inr ⟨c.2, rfl, by simp, fun s hs' => ?_⟩
          rcases List.mem_append.mp hs' with hs' | hs'
          · exact le_trans (hmax s hs') hlt.le
          · simp at hs'
            rw [hs']
        · have hle : (c.2 - base).toNat ≤ (m - base).toNat :=
            not_lt.mp fun hlt => hgt ((tidGt_iff_of_window hs hmwin).mpr hlt)
          rw [if_neg hgt]
          refine Or.inr ⟨m, rfl, List.mem_append_left _ hmem, fun s hs' => ?_⟩
          rcases List.mem_append.mp hs' with hs' | hs'
          · exact hmax s hs'
          · simp at hs'
            rw [hs']
            exact hle
    · -- a call on another block leaves this one
      rw [if_neg hc, List.append_nil, jbdbfJournalSetRevoke_apply_of_ne _ _ (Ne.symm hc)]
      exact ih hwin'

/-- The loop of `jbdbf_journal_clear_revoke` leaves every bucket empty: the buckets before
`i` are empty, and each turn empties one more. -/
theorem clearRevokeFrom_empty (t : HashTable hashSize) (i : Nat)
    (hbefore : ∀ k : Fin hashSize, (k : Nat) < i → t.hashTable k = []) (k : Fin hashSize) :
    (clearRevokeFrom t i).hashTable k = [] := by
  induction t, i using clearRevokeFrom.induct with
  | case1 t i h ih =>
    rw [clearRevokeFrom, dif_pos h]
    apply ih
    intro k' hk'
    show Function.update t.hashTable ⟨i, h⟩ [] k' = []
    by_cases hk : k' = ⟨i, h⟩
    · subst hk
      exact Function.update_self _ _ _
    · rw [Function.update_of_ne hk]
      exact hbefore k' (by
        have : (k' : Nat) ≠ i := fun heq => hk (Fin.ext heq)
        omega)
  | case2 t i h =>
    rw [clearRevokeFrom, dif_neg h]
    exact hbefore k (by omega)

/-- After a run of `set_revoke` calls from an empty table, the table holds at most one record
per block; when the sequences set for a block and the tested sequence lie within `2 ^ 31` of a
common base, `test_revoke` answers whether some call set the block at a sequence at or after
the tested one; and `clear_revoke` leaves every bucket empty. -/
theorem revoke_table_semantics (hash : Nat → Fin hashSize) (calls : List (Nat × UInt32))
    (blocknr : Nat) (sequence base : UInt32)
    (hwin : InTidWindow base (sequence :: seqsOf blocknr calls)) :
    (∀ i j r r', r ∈ (setRevokes hash .empty calls).hashTable i →
        r' ∈ (setRevokes hash .empty calls).hashTable j → r.blocknr = r'.blocknr → i = j ∧ r = r') ∧
      (jbdbfJournalTestRevoke hash (setRevokes hash .empty calls) blocknr sequence = true ↔
        ∃ s ∈ seqsOf blocknr calls, tidGeq s sequence = true) ∧
      ∀ i, (jbdbfJournalClearRevoke (setRevokes hash .empty calls)).hashTable i = [] := by
  have hwf := (HashTable.wf_empty hash).setRevokes hash calls
  have hseq : (sequence - base).toNat < 2 ^ 31 := hwin sequence List.mem_cons_self
  have hwin' : InTidWindow base (seqsOf blocknr calls) :=
    fun s hs => hwin s (List.mem_cons_of_mem _ hs)
  refine ⟨fun i j r r' hr hr' hblock => hwf.unique hash hr hr' hblock, ?_,
    fun i => clearRevokeFrom_empty _ 0 (fun _ hk => absurd hk (Nat.not_lt_zero _)) i⟩
  rw [jbdbfJournalTestRevoke_eq, toRevokeTable_setRevokes, toRevokeTable_empty,
    OptFs.Jbd.jbdbfJournalTestRevoke]
  rcases setRevokes_latest blocknr base calls hwin' with ⟨hnone, hempty⟩ | ⟨m, hm, hmem, hmax⟩
  · rw [hnone, hempty]
    simp
  · -- the record holds the latest sequence `m`; the test asks whether `m` is not before it
    rw [hm]
    have hmwin : (m - base).toNat < 2 ^ 31 := hwin' m hmem
    simp only [Bool.not_eq_eq_eq_not, Bool.not_true]
    constructor
    · intro hngt
      have hle : (sequence - base).toNat ≤ (m - base).toNat :=
        not_lt.mp fun hlt => by rw [(tidGt_iff_of_window hseq hmwin).mpr hlt] at hngt; cases hngt
      exact ⟨m, hmem, (tidGeq_iff_of_window hmwin hseq).mpr hle⟩
    · rintro ⟨s, hs, hgeq⟩
      have hle := (tidGeq_iff_of_window (hwin' s hs) hseq).mp hgeq
      cases hgt : tidGt sequence m
      · rfl
      · have := (tidGt_iff_of_window hseq hmwin).mp hgt
        have := hmax s hs
        omega

/-- One bucket for every block. -/
def oneBucket : Nat → Fin 1 := fun _ => 0

theorem revoke_table_semantics_oneBucket :
    InTidWindow 0 (8 :: seqsOf 7 [(7, 5), (3, 6), (7, 9)]) ∧
      ((∀ i j r r', r ∈ (setRevokes oneBucket .empty [(7, 5), (3, 6), (7, 9)]).hashTable i →
          r' ∈ (setRevokes oneBucket .empty [(7, 5), (3, 6), (7, 9)]).hashTable j →
          r.blocknr = r'.blocknr → i = j ∧ r = r') ∧
        (jbdbfJournalTestRevoke oneBucket (setRevokes oneBucket .empty [(7, 5), (3, 6), (7, 9)]) 7 8 =
            true ↔ ∃ s ∈ seqsOf 7 [(7, 5), (3, 6), (7, 9)], tidGeq s 8 = true) ∧
        ∀ i, (jbdbfJournalClearRevoke
          (setRevokes oneBucket .empty [(7, 5), (3, 6), (7, 9)])).hashTable i = []) :=
  have hwin : InTidWindow 0 (8 :: seqsOf 7 [(7, 5), (3, 6), (7, 9)]) := by
    simp [InTidWindow, seqsOf]
  ⟨hwin, revoke_table_semantics oneBucket [(7, 5), (3, 6), (7, 9)] 7 8 0 hwin⟩

/-- Two revokes of one block at sequences 0 and `0x60000000`, which lie in one window; the
test at `0xC0000000`, outside it, finds the record at `0x60000000` before it and answers 0,
though `tid_geq(0, 0xC0000000)` holds. -/
theorem jbdbfJournalTestRevoke_outside_window (hash : Nat → Fin hashSize) (blocknr : Nat) :
    InTidWindow 0 (seqsOf blocknr [(blocknr, 0), (blocknr, 0x60000000)]) ∧
      tidGeq 0 0xC0000000 = true ∧
      jbdbfJournalTestRevoke hash (setRevokes hash .empty [(blocknr, 0), (blocknr, 0x60000000)])
        blocknr 0xC0000000 = false := by
  have hseqs : seqsOf blocknr [(blocknr, 0), (blocknr, 0x60000000)] = [0, 0x60000000] := by
    simp [seqsOf]
  refine ⟨by simp [hseqs, InTidWindow], by decide, ?_⟩
  -- the record ends with the later of the two sequences, `0x60000000`
  have hrecord : (List.foldl (fun m c => OptFs.Jbd.jbdbfJournalSetRevoke m c.1 c.2) (fun _ => none)
      [(blocknr, 0), (blocknr, 0x60000000)]) blocknr = some 0x60000000 := by
    simp only [List.foldl_cons, List.foldl_nil, jbdbfJournalSetRevoke_apply_self]
    decide
  rw [jbdbfJournalTestRevoke_eq, toRevokeTable_setRevokes, toRevokeTable_empty,
    OptFs.Jbd.jbdbfJournalTestRevoke, hrecord]
  decide

theorem jbdbfJournalTestRevoke_outside_window_oneBucket :
    InTidWindow 0 (seqsOf 7 [(7, 0), (7, 0x60000000)]) ∧ tidGeq 0 0xC0000000 = true ∧
      jbdbfJournalTestRevoke oneBucket (setRevokes oneBucket .empty [(7, 0), (7, 0x60000000)])
        7 0xC0000000 = false :=
  jbdbfJournalTestRevoke_outside_window oneBucket 7

end OptFs.Jbd.RevokeHash
