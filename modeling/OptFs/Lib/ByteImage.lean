import Mathlib

/-!
# Byte images

A buffer is modelled as a total map from byte offsets to bytes. Stores and loads of
32- and 64-bit words are big-endian, as on-disk formats that go through `cpu_to_be32`
and `be32_to_cpu` lay them out. A store writes exactly the bytes of its word and
leaves every other offset alone, so a buffer can be written past any nominal size:
how many of its bytes reach a device is decided by the reader (`truncate`).

The lemmas are the read-after-write rules used by every codec built on top:

* a load of the word just stored returns it (`read32_write32_same`);
* stores and loads at disjoint ranges commute (`read32_write32_of_disjoint`);
* a load depends only on its own four bytes (`read32_congr`).
-/

namespace Lib.ByteImage

/-- A byte-addressed buffer. -/
abbrev Image := Nat → UInt8

/-- The all-zero buffer, as left by `memset(buf, 0, size)`. -/
def zero : Image := fun _ => 0

/-- The first `size` bytes of a buffer; the bytes from `size` on read as zero. -/
def truncate (size : Nat) (img : Image) : Image := fun i => if i < size then img i else 0

/-- Store one byte. -/
def write8 (img : Image) (o : Nat) (v : UInt8) : Image :=
  fun i => if i = o then v else img i

/-- Store a 32-bit word big-endian at offset `o`. -/
def write32 (img : Image) (o : Nat) (v : UInt32) : Image :=
  fun i => if o ≤ i ∧ i < o + 4 then UInt8.ofNat (v.toNat / 256 ^ (3 - (i - o))) else img i

/-- Load a big-endian 32-bit word from offset `o`. -/
def read32 (img : Image) (o : Nat) : UInt32 :=
  UInt32.ofNat ((img o).toNat * 256 ^ 3 + (img (o + 1)).toNat * 256 ^ 2 +
    (img (o + 2)).toNat * 256 + (img (o + 3)).toNat)

/-- Store a 64-bit word big-endian at offset `o`. -/
def write64 (img : Image) (o : Nat) (v : UInt64) : Image :=
  fun i => if o ≤ i ∧ i < o + 8 then UInt8.ofNat (v.toNat / 256 ^ (7 - (i - o))) else img i

/-- Load a big-endian 64-bit word from offset `o`. -/
def read64 (img : Image) (o : Nat) : UInt64 :=
  UInt64.ofNat ((read32 img o).toNat * 2 ^ 32 + (read32 img (o + 4)).toNat)

/-- Copy `len` bytes of `src` into `dst` at the same offsets (`memcpy`). -/
def copy (dst src : Image) (len : Nat) : Image :=
  fun i => if i < len then src i else dst i

/-- Copy the first `len` bytes of `src` to offset `o` of `dst` (`memcpy(dst + o, src, len)`). -/
def place (dst : Image) (o : Nat) (src : Image) (len : Nat) : Image :=
  fun i => if o ≤ i ∧ i < o + len then src (i - o) else dst i

/-! ## Byte-level rules -/

@[simp] theorem zero_apply (i : Nat) : zero i = 0 := rfl

theorem write8_apply (img : Image) (o : Nat) (v : UInt8) (i : Nat) :
    write8 img o v i = if i = o then v else img i := rfl

theorem write32_apply_of_not_mem (img : Image) (o : Nat) (v : UInt32) {i : Nat}
    (hi : i < o ∨ o + 4 ≤ i) : write32 img o v i = img i := by
  unfold write32
  rw [if_neg]
  omega

theorem write64_apply_of_not_mem (img : Image) (o : Nat) (v : UInt64) {i : Nat}
    (hi : i < o ∨ o + 8 ≤ i) : write64 img o v i = img i := by
  unfold write64
  rw [if_neg]
  omega

theorem place_apply_of_not_mem (dst : Image) (o : Nat) (src : Image) (len : Nat) {i : Nat}
    (hi : i < o ∨ o + len ≤ i) : place dst o src len i = dst i := by
  unfold place
  rw [if_neg]
  omega

theorem truncate_apply_of_lt {size i : Nat} (img : Image) (hi : i < size) :
    truncate size img i = img i := if_pos hi

/-! ## Word-level rules -/

/-- A load reads only its own four bytes. -/
theorem read32_congr {img img' : Image} {o : Nat}
    (h : ∀ i, o ≤ i → i < o + 4 → img i = img' i) : read32 img o = read32 img' o := by
  unfold read32
  rw [h o (by omega) (by omega), h (o + 1) (by omega) (by omega),
    h (o + 2) (by omega) (by omega), h (o + 3) (by omega) (by omega)]

/-- Loading the word just stored gives it back. -/
@[simp] theorem read32_write32_same (img : Image) (o : Nat) (v : UInt32) :
    read32 (write32 img o v) o = v := by
  have hv := v.toNat_lt
  apply UInt32.toNat_inj.mp
  simp only [read32, write32]
  simp
  omega

/-- A store outside a load's four bytes is invisible to it. -/
theorem read32_write32_of_disjoint (img : Image) {o o' : Nat} (v : UInt32)
    (h : o' + 4 ≤ o ∨ o + 4 ≤ o') : read32 (write32 img o v) o' = read32 img o' :=
  read32_congr fun i hi hi' => write32_apply_of_not_mem img o v (by omega)

theorem read32_write8_of_disjoint (img : Image) {o o' : Nat} (v : UInt8)
    (h : o < o' ∨ o' + 4 ≤ o) : read32 (write8 img o v) o' = read32 img o' :=
  read32_congr fun i hi hi' => by
    rw [write8_apply, if_neg (by omega)]

@[simp] theorem read32_zero (o : Nat) : read32 zero o = 0 := by
  simp [read32]

theorem read32_truncate {size o : Nat} (img : Image) (h : o + 4 ≤ size) :
    read32 (truncate size img) o = read32 img o :=
  read32_congr fun i _ hi => truncate_apply_of_lt img (by omega)

/-- Loading the 64-bit word just stored gives it back. -/
@[simp] theorem read64_write64_same (img : Image) (o : Nat) (v : UInt64) :
    read64 (write64 img o v) o = v := by
  have hv := v.toNat_lt
  apply UInt64.toNat_inj.mp
  simp only [read64, read32, write64, Nat.add_assoc]
  simp
  omega

theorem read64_congr {img img' : Image} {o : Nat}
    (h : ∀ i, o ≤ i → i < o + 8 → img i = img' i) : read64 img o = read64 img' o := by
  unfold read64
  rw [read32_congr (fun i hi hi' => h i (by omega) (by omega)),
    @read32_congr _ _ (o + 4) (fun i hi hi' => h i (by omega) (by omega))]

/-! ## Block devices -/

/-- A block device after a list of block writes, applied in order. -/
def applyWrites (disk : Nat → Image) (ws : List (Nat × Image)) : Nat → Image :=
  ws.foldl (fun d w => Function.update d w.1 w.2) disk

theorem applyWrites_append (disk : Nat → Image) (ws ws' : List (Nat × Image)) :
    applyWrites disk (ws ++ ws') = applyWrites (applyWrites disk ws) ws' := by
  simp [applyWrites, List.foldl_append]

/-- A block no write touches keeps its contents. -/
theorem applyWrites_apply_of_not_mem (disk : Nat → Image) {ws : List (Nat × Image)} {b : Nat}
    (h : ∀ w ∈ ws, w.1 ≠ b) : applyWrites disk ws b = disk b := by
  induction ws generalizing disk with
  | nil => rfl
  | cons w rest ih =>
    have hw : w.1 ≠ b := h w List.mem_cons_self
    unfold applyWrites at ih ⊢
    rw [List.foldl_cons, ih _ fun w' hw' => h w' (List.mem_cons_of_mem _ hw'),
      Function.update_of_ne hw.symm]

theorem applyWrites_cons (disk : Nat → Image) (w : Nat × Image) (ws : List (Nat × Image)) :
    applyWrites disk (w :: ws) = applyWrites (Function.update disk w.1 w.2) ws := rfl

/-- A block holds what the last write to it stored. -/
theorem applyWrites_apply_of_last (disk : Nat → Image) (ws ws' : List (Nat × Image))
    {b : Nat} (img : Image) (h : ∀ w ∈ ws', w.1 ≠ b) :
    applyWrites disk (ws ++ (b, img) :: ws') b = img := by
  rw [applyWrites_append, applyWrites_cons, applyWrites_apply_of_not_mem _ h]
  exact Function.update_self b img (applyWrites disk ws)

end Lib.ByteImage
