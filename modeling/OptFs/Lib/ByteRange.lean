import OptFs.Lib.ByteImage

/-!
# Byte ranges of an image

`memmove`, `memset` and `memcpy` of a byte string on a byte image, and the byte string a range
holds. `move` reads every byte from the image before the move, so it is `memmove` for
overlapping ranges too.

A range is read back from what was written into it (`readBytes_place_ofList`), or from where a
move took it (`readBytes_move`). `WritesWithin img img' lo hi` frames a sequence of writes: every
byte outside `[lo, hi)` is as before, so a range outside it reads as before
(`WritesWithin.readBytes_eq`).
-/

namespace Lib.ByteImage

/-- `memmove(img + dst, img + src, len)`. -/
def move (img : Image) (dst src len : Nat) : Image :=
  fun i => if dst ≤ i ∧ i < dst + len then img (src + (i - dst)) else img i

/-- `memset(img + o, v, len)`. -/
def fill (img : Image) (o len : Nat) (v : UInt8) : Image :=
  fun i => if o ≤ i ∧ i < o + len then v else img i

/-- A byte string as an image from offset 0, the source of a `memcpy`. -/
def ofList (bytes : List UInt8) : Image := fun i => bytes.getD i 0

/-- The `len` bytes from offset `o`. -/
def readBytes (img : Image) (o len : Nat) : List UInt8 := (List.range len).map fun k => img (o + k)

variable {img img' : Image} {o len : Nat}

theorem move_apply_of_not_mem (img : Image) {dst src len i : Nat} (hi : i < dst ∨ dst + len ≤ i) :
    move img dst src len i = img i := by
  unfold move
  rw [if_neg]
  omega

theorem move_apply_of_mem (img : Image) {dst src len i : Nat} (hi : dst ≤ i ∧ i < dst + len) :
    move img dst src len i = img (src + (i - dst)) := if_pos hi

theorem fill_apply_of_not_mem (img : Image) {o len i : Nat} (v : UInt8) (hi : i < o ∨ o + len ≤ i) :
    fill img o len v i = img i := by
  unfold fill
  rw [if_neg]
  omega

@[simp] theorem length_readBytes : (readBytes img o len).length = len := by
  simp [readBytes]

/-- A range reads only its own bytes. -/
theorem readBytes_congr (h : ∀ k, k < len → img (o + k) = img' (o + k)) :
    readBytes img o len = readBytes img' o len := by
  unfold readBytes
  exact List.map_congr_left fun k hk => h k (List.mem_range.mp hk)

/-- A byte string copied in reads back. -/
theorem readBytes_place_ofList (dst : Image) (o : Nat) (bytes : List UInt8) :
    readBytes (place dst o (ofList bytes) bytes.length) o bytes.length = bytes := by
  apply List.ext_getElem (by simp)
  intro k hk _
  simp only [length_readBytes] at hk
  simp only [readBytes, List.getElem_map, List.getElem_range, place, ofList]
  rw [if_pos (by omega), Nat.add_sub_cancel_left, List.getD_eq_getElem _ _ hk]

/-- A range inside the destination of a move reads what its source held. -/
theorem readBytes_move {dst src n j : Nat} (h : j + len ≤ n) :
    readBytes (move img dst src n) (dst + j) len = readBytes img (src + j) len := by
  unfold readBytes
  apply List.map_congr_left
  intro k hk
  have hk' := List.mem_range.mp hk
  rw [move_apply_of_mem img (by omega)]
  congr 1
  omega

/-- `img'` differs from `img` only in `[lo, hi)`. -/
def WritesWithin (img img' : Image) (lo hi : Nat) : Prop := ∀ i, i < lo ∨ hi ≤ i → img' i = img i

theorem writesWithin_move (img : Image) (dst src len : Nat) :
    WritesWithin img (move img dst src len) dst (dst + len) := fun _ hi =>
  move_apply_of_not_mem img hi

theorem writesWithin_fill (img : Image) (o len : Nat) (v : UInt8) :
    WritesWithin img (fill img o len v) o (o + len) := fun _ hi =>
  fill_apply_of_not_mem img v hi

theorem writesWithin_place (img : Image) (o : Nat) (src : Image) (len : Nat) :
    WritesWithin img (place img o src len) o (o + len) := fun _ hi =>
  place_apply_of_not_mem img o src len hi

theorem WritesWithin.mono {img img' : Image} {lo hi lo' hi' : Nat} (h : WritesWithin img img' lo hi)
    (hlo : lo' ≤ lo) (hhi : hi ≤ hi') : WritesWithin img img' lo' hi' := fun i hi =>
  h i (by omega)

theorem WritesWithin.trans {img₁ img₂ img₃ : Image} {lo hi : Nat} (h₁ : WritesWithin img₁ img₂ lo hi)
    (h₂ : WritesWithin img₂ img₃ lo hi) : WritesWithin img₁ img₃ lo hi := fun i hi =>
  (h₂ i hi).trans (h₁ i hi)

/-- A range outside the writes reads as before. -/
theorem WritesWithin.readBytes_eq {lo hi : Nat} (h : WritesWithin img img' lo hi)
    (hd : o + len ≤ lo ∨ hi ≤ o) : readBytes img' o len = readBytes img o len :=
  readBytes_congr fun _ _ => h _ (by omega)

end Lib.ByteImage
