import WaylandTest.Server.AlphaBlending
import WaylandTest.Server.CopyOverflow

/-!
# Rows that are not next to each other

A `wl_shm` buffer has a stride, and its row `j` starts `j` strides behind its data. The copy never
reads the stride: it takes the rows to be next to each other. `strides_read_iff` says for which
strides it still reads the right bytes, and no others, wherever the buffer lies in the display.
-/

set_option autoImplicit false

namespace WaylandTest

open Lib Exec

/-- The buffer as the copy takes it, its rows next to each other. -/
def ShmBuffer.pitched (b : ShmBuffer) : ShmBuffer := { b with stride := 4 * b.width }

/-- The copy does not read the stride. -/
theorem copy_pitched (int32 : IntRule) (blend : Blend) (displayWidth displayHeight : Int)
    (display : Memory UInt8) (b : ShmBuffer) (posY posX : Int) :
    copyShmBufferToDisplay int32 blend displayWidth displayHeight display b.pitched posY posX =
      copyShmBufferToDisplay int32 blend displayWidth displayHeight display b posY posX := rfl

/-- The buffer lies in the display. -/
structure Within (displayWidth displayHeight w h posY posX : Int) : Prop where
  width : 0 < w
  height : 0 < h
  left : 0 ≤ posX
  right : posX + w ≤ displayWidth
  top : 0 ≤ posY
  bottom : posY + h ≤ displayHeight

namespace Within

variable {blend : Blend} {displayWidth displayHeight : Int} {display display' : Memory UInt8}
  {b : ShmBuffer} {posY posX : Int}

theorem pixels {w h : Int} (hin : Within displayWidth displayHeight w h posY posX) :
    0 ≤ 4 * displayWidth * displayHeight := by
  obtain ⟨hw, hh, hl, hr, ht, hb⟩ := hin
  exact Int.mul_nonneg (by omega) (by omega)

/-- The offset behind the last row bounds the expressions of the copy. -/
theorem fits (hin : Within displayWidth displayHeight b.width b.height posY posX)
    (hoffset : 4 * ((posY + b.height) * displayWidth + posX) < 2 ^ 31) :
    RangeFits displayWidth b.width b.height posY posX ∧
      RowsFit displayWidth displayHeight b.width b.height posY posX ∧
        4 * displayWidth < 2 ^ 31 := by
  obtain ⟨hw, hh, hl, hr, ht, hb⟩ := hin
  have hwidth : 1 * displayWidth ≤ (posY + b.height) * displayWidth :=
    Int.mul_le_mul_of_nonneg_right (by omega) (by omega)
  have hrows : (posY + b.height) * 1 ≤ (posY + b.height) * displayWidth :=
    Int.mul_le_mul_of_nonneg_left (by omega) (by omega)
  have htop : posY * displayWidth ≤ (posY + b.height) * displayWidth :=
    Int.mul_le_mul_of_nonneg_right (by omega) (by omega)
  have hsrc : b.height * b.width ≤ b.height * displayWidth :=
    Int.mul_le_mul_of_nonneg_left (by omega) (by omega)
  have hdst : b.height * displayWidth ≤ (posY + b.height) * displayWidth :=
    Int.mul_le_mul_of_nonneg_right (by omega) (by omega)
  have hnonneg : 0 ≤ posY * displayWidth := Int.mul_nonneg ht (by omega)
  have hend : min (posY + b.height) displayHeight = posY + b.height := by omega
  have hlines : posY + b.height - posY = b.height := by omega
  refine ⟨?_, ⟨?_, ?_⟩, by omega⟩
  · refine ⟨?_, ?_, ?_, fun hneg => absurd hneg (by omega), ?_, ?_, ?_⟩ <;> unfold FitsInt32 <;>
      omega
  · rw [hend]
    omega
  · rw [hend, hlines]
    omega

/-- A copy of the buffer whose offsets fit, and whose rows are there, completes. -/
theorem returns (hin : Within displayWidth displayHeight b.width b.height posY posX)
    (hoffset : 4 * ((posY + b.height) * displayWidth + posX) < 2 ^ 31)
    (hbytes : 4 * (b.height * b.width) ≤ b.data.length)
    (hsize : display.length = 4 * displayWidth * displayHeight) :
    ∃ d, (copyShmBufferToDisplay checked blend displayWidth displayHeight display b posY
      posX).result = .ok d := by
  obtain ⟨hfits, hrows, hw⟩ := hin.fits hoffset
  obtain ⟨hw₀, hh, hl, hr, ht, hb⟩ := hin
  have hinside : Inside displayWidth displayHeight b.pitched posY posX :=
    .inr (.inr (.inr ⟨ht, by show -b.width < posX; omega, by omega⟩))
  rw [← copy_pitched]
  refine Faults.returns
    (hinside.fits hbytes (by omega) hw hw₀ ?_ (by omega) hfits fun _ => hrows)
  show 4 * b.width < 2 ^ 31
  omega

/-- A copy of the buffer that completes blends each of its pixels, with the rows next to each
other. -/
theorem pixel (hin : Within displayWidth displayHeight b.width b.height posY posX)
    (hsize : display.length = 4 * displayWidth * displayHeight)
    (h : (copyShmBufferToDisplay checked blend displayWidth displayHeight display b posY
      posX).result = .ok display') {i j k : Int} (hi : 0 ≤ i ∧ i < b.width)
    (hj : 0 ≤ j ∧ j < b.height) (hk : 0 ≤ k ∧ k < 3) :
    Memory.read display' (4 * ((posY + j) * displayWidth + (posX + i)) + k) =
      (Memory.read display (4 * ((posY + j) * displayWidth + (posX + i)) + k)).map fun old =>
        blend old (b.pitched.byte i j k) (b.pitched.byte i j 3) := by
  obtain ⟨hw₀, hh, hl, hr, ht, hb⟩ := hin
  have hchanged :
      Memory.Changed (paintedAt blend displayWidth b.pitched posY posX) display display' :=
    copyShmBufferToDisplay_ok rfl (by omega) hsize
      (by show min b.width _ < _ → _; omega) h
  obtain ⟨hpx, hpy, hpk⟩ := pixel_offset (y := posY + j)
    (show 0 ≤ posX + i ∧ posX + i < displayWidth by omega) (show 0 ≤ k ∧ k < 4 by omega)
  have hcolumn : posX + i - posX = i := by omega
  have hrow : posY + j - posY = j := by omega
  have hcovers : b.pitched.Covers posY posX (posX + i) (posY + j) ∧ k ≠ 3 := by
    unfold ShmBuffer.Covers
    rw [hcolumn, hrow]
    exact ⟨⟨hi, hj⟩, by omega⟩
  rw [hchanged]
  unfold paintedAt ShmBuffer.painted
  rw [hpx, hpy, hpk]
  simp only [if_pos hcovers, hcolumn, hrow]

/-- What a copy of the buffer that completes says of the buffer: the offset behind its last row
fits, and it has the bytes of its pixels. -/
theorem of_copy (hin : Within displayWidth displayHeight b.width b.height posY posX)
    (h : (copyShmBufferToDisplay checked blend displayWidth displayHeight display b posY
      posX).result = .ok display') :
    4 * ((posY + b.height) * displayWidth + posX) < 2 ^ 31 ∧
      4 * (b.height * b.width) ≤ b.data.length := by
  obtain ⟨hw₀, hh, hl, hr, ht, hb⟩ := hin
  have hpitched : (copyShmBufferToDisplay checked blend displayWidth displayHeight display b.pitched
      posY posX).result = .ok display' := h
  obtain ⟨-, s, hs, hstop, -⟩ := copyShmBufferToDisplay_rows rfl (by omega)
    (by show min b.width _ < _ → _; omega) hpitched
  have hlast := hs.last
  have hend : s.y = posY + b.height := by
    change ¬ s.y < min (posY + b.height) displayHeight at hstop
    change s.y ≤ max posY (min (posY + b.height) displayHeight) at hlast
    omega
  have hfits := (hs.fits (by omega)).1
  have hread := hs.readable (by omega) (by show 0 < min b.width _ - _; omega)
  have hsrc := hs.offsetSrc
  rw [hs.offsetDst, hend] at hfits
  have hlines : posY + b.height - posY = b.height := by omega
  rw [hend, hlines] at hsrc
  change _ - 4 * b.width + 4 * (min b.width _ - _) ≤ (b.data.length : Int) at hread
  change s.offsetSrc = 4 * (b.height * b.width + _) at hsrc
  unfold FitsInt32 at hfits
  have hx : max 0 posX = posX := by omega
  rw [hx] at hfits
  exact ⟨hfits.2, by omega⟩

end Within

/-- A byte that is there is blended. -/
theorem blended_eq {blend : Blend} {data : Memory UInt8} {src alpha : Int} {old : UInt8}
    (hsrc : 0 ≤ src ∧ src < data.length) (halpha : 0 ≤ alpha ∧ alpha < data.length) :
    blended blend data src alpha old =
      blend old ((Memory.read data src).getD 0) ((Memory.read data alpha).getD 0) := by
  obtain ⟨f, hf⟩ := Memory.exists_read hsrc.1 hsrc.2
  obtain ⟨a, ha⟩ := Memory.exists_read halpha.1 halpha.2
  unfold blended
  rw [hf, ha]
  rfl

/-- Whatever the buffer and the display hold, the copy completes, and blends into each pixel the
bytes that the stride puts there. -/
def StrideRead (blend : Blend) (displayWidth displayHeight w h stride posY posX : Int)
    (format : ShmFormat) : Prop :=
  ∀ data display : Memory UInt8, data.length = stride * h →
    display.length = 4 * displayWidth * displayHeight →
    ∃ display', (copyShmBufferToDisplay checked blend displayWidth displayHeight display
        ⟨w, h, stride, format, data⟩ posY posX).result = .ok display' ∧
      ∀ i j k, 0 ≤ i ∧ i < w → 0 ≤ j ∧ j < h → 0 ≤ k ∧ k < 3 →
        Memory.read display' (4 * ((posY + j) * displayWidth + (posX + i)) + k) =
          (Memory.read display (4 * ((posY + j) * displayWidth + (posX + i)) + k)).map
            (blended blend data (j * stride + 4 * i + k) (j * stride + 4 * i + 3))

namespace StrideRead

variable {blend : Blend} {displayWidth displayHeight w h stride posY posX : Int}
  {format : ShmFormat}

/-- A display of zeros. -/
def blank (displayWidth displayHeight : Int) : Memory UInt8 :=
  List.replicate (4 * displayWidth * displayHeight).toNat 0

theorem length_blank (hin : Within displayWidth displayHeight w h posY posX) :
    ((blank displayWidth displayHeight).length : Int) = 4 * displayWidth * displayHeight := by
  have hpixels := hin.pixels
  unfold blank
  rw [List.length_replicate]
  omega

/-- The bytes of a pixel on a display of zeros. -/
theorem read_blank (hin : Within displayWidth displayHeight w h posY posX) {i j k : Int}
    (hi : 0 ≤ i ∧ i < w) (hj : 0 ≤ j ∧ j < h) (hk : 0 ≤ k ∧ k < 4) :
    Memory.read (blank displayWidth displayHeight)
      (4 * ((posY + j) * displayWidth + (posX + i)) + k) = some 0 := by
  obtain ⟨hw, hh, hl, hr, ht, hb⟩ := hin
  have hrow : (posY + j + 1) * displayWidth ≤ displayHeight * displayWidth :=
    Int.mul_le_mul_of_nonneg_right (by omega) (by omega)
  have hnonneg : 0 ≤ (posY + j) * displayWidth := Int.mul_nonneg (by omega) (by omega)
  rw [Int.add_mul (posY + j), Int.one_mul] at hrow
  have hpixels : 4 * displayWidth * displayHeight = 4 * (displayHeight * displayWidth) := by
    rw [Int.mul_assoc, Int.mul_comm displayWidth]
  unfold blank
  exact Memory.read_replicate (by omega) (by omega)

/-- What a copy that completes needs: the offset behind the last row fits, and a row has room for
its pixels. -/
theorem fits (hin : Within displayWidth displayHeight w h posY posX) (hs : w ≤ stride)
    (hall : StrideRead blend displayWidth displayHeight w h stride posY posX format) :
    4 * ((posY + h) * displayWidth + posX) < 2 ^ 31 ∧ 4 * w ≤ stride := by
  have hw₀ := hin.width
  have hh₀ := hin.height
  have hbytes : 0 ≤ stride * h := Int.mul_nonneg (by omega) (by omega)
  have hlen : ((List.replicate (stride * h).toNat (0 : UInt8)).length : Int) = stride * h := by
    rw [List.length_replicate]
    omega
  obtain ⟨d, hd, -⟩ := hall _ _ hlen (length_blank hin)
  obtain ⟨hoffset, hfull⟩ := hin.of_copy (b := ⟨w, h, stride, format, _⟩) hd
  refine ⟨hoffset, ?_⟩
  by_contra hlt
  have hless : stride * h < 4 * w * h := Int.mul_lt_mul_of_pos_right (by omega) hh₀
  have hfull' : 4 * (h * w) ≤ stride * h := hlen ▸ hfull
  rw [Int.mul_assoc, Int.mul_comm w] at hless
  omega

/-- With longer rows and more than one of them, the byte behind the first row is taken for the first
one of the second. -/
theorem next_to_each_other (covers : ∀ bg fg, blend bg fg 255 = fg)
    (hin : Within displayWidth displayHeight w h posY posX) (hpitch : 4 * w ≤ stride)
    (hall : StrideRead blend displayWidth displayHeight w h stride posY posX format) :
    stride = 4 * w ∨ h = 1 := by
  have hw₀ := hin.width
  have hh₀ := hin.height
  by_contra hneither
  have hrows : 2 ≤ h := by omega
  have htwo : stride * 2 ≤ stride * h := Int.mul_le_mul_of_nonneg_left hrows (by omega)
  obtain ⟨data, hdata⟩ : ∃ data : Memory UInt8,
      data = Memory.tabulate (stride * h).toNat fun i => if i = 4 * w then 0 else 255 := ⟨_, rfl⟩
  have hlen : (data.length : Int) = stride * h := by
    rw [hdata, Memory.length_tabulate]
    omega
  have hread : ∀ i, 0 ≤ i → i < stride * h →
      Memory.read data i = some (if i = 4 * w then 0 else 255) := by
    intro i hi hi'
    rw [hdata, Memory.read_tabulate, if_pos (by omega)]
  obtain ⟨d, hd, hpixel⟩ := hall data _ hlen (length_blank hin)
  have hgot := hin.pixel (b := ⟨w, h, stride, format, data⟩) (length_blank hin) hd (i := 0) (j := 1)
    (k := 0) ⟨Int.le_refl 0, hw₀⟩ ⟨by omega, show 1 < h by omega⟩ ⟨Int.le_refl 0, by omega⟩
  have hwant := hpixel 0 1 0 ⟨Int.le_refl 0, hw₀⟩ ⟨by omega, by omega⟩ ⟨Int.le_refl 0, by omega⟩
  have hfirst : (ShmBuffer.pitched ⟨w, h, stride, format, data⟩).byte 0 1 0 = 0 := by
    show (Memory.read data (1 * (4 * w) + 4 * 0 + 0)).getD 0 = 0
    rw [hread _ (by omega) (by omega), if_pos (by omega), Option.getD_some]
  have halpha : (ShmBuffer.pitched ⟨w, h, stride, format, data⟩).byte 0 1 3 = 255 := by
    show (Memory.read data (1 * (4 * w) + 4 * 0 + 3)).getD 0 = 255
    rw [hread _ (by omega) (by omega), if_neg (by omega), Option.getD_some]
  rw [hgot, read_blank hin ⟨Int.le_refl 0, hw₀⟩ ⟨by omega, by omega⟩ ⟨Int.le_refl 0, by omega⟩,
    hfirst,
    halpha, Option.map_some, Option.map_some, Option.some.injEq, blended_eq (by omega) (by omega),
    hread _ (by omega) (by omega), hread _ (by omega) (by omega), if_neg (by omega),
    if_neg (by omega), Option.getD_some, covers, covers] at hwant
  exact absurd hwant (by decide)

/-- Rows that are next to each other, or one row of enough bytes, are read where they are. -/
theorem of_fits (hin : Within displayWidth displayHeight w h posY posX)
    (hoffset : 4 * ((posY + h) * displayWidth + posX) < 2 ^ 31)
    (hstride : stride = 4 * w ∨ h = 1 ∧ 4 * w ≤ stride) :
    StrideRead blend displayWidth displayHeight w h stride posY posX format := by
  intro data display hdata hsize
  have hw₀ := hin.width
  have hbytes : 4 * (h * w) ≤ data.length := by
    rw [hdata]
    rcases hstride with rfl | ⟨rfl, hle⟩
    · have hpixels : 4 * w * h = 4 * (h * w) := by rw [Int.mul_assoc, Int.mul_comm w]
      omega
    · omega
  obtain ⟨d, hd⟩ : ∃ d, (copyShmBufferToDisplay checked blend displayWidth displayHeight display
      ⟨w, h, stride, format, data⟩ posY posX).result = .ok d :=
    hin.returns (b := ⟨w, h, stride, format, data⟩) hoffset hbytes hsize
  refine ⟨d, hd, fun i j k hi hj hk => ?_⟩
  have hpitch : j * stride = 4 * (j * w) := by
    rcases hstride with rfl | ⟨rfl, -⟩
    · exact Int.mul_left_comm j 4 w
    · obtain rfl : j = 0 := by omega
      rw [Int.zero_mul, Int.zero_mul, Int.mul_zero]
  have hrow : (j + 1) * w ≤ h * w := Int.mul_le_mul_of_nonneg_right (by omega) (by omega)
  have hnonneg : 0 ≤ j * w := Int.mul_nonneg hj.1 (by omega)
  rw [Int.add_mul, Int.one_mul] at hrow
  rw [hin.pixel (b := ⟨w, h, stride, format, data⟩) hsize hd hi hj hk, hpitch]
  congr 1
  funext old
  rw [blended_eq (by omega) (by omega), ← Int.mul_left_comm j 4 w]
  rfl

end StrideRead

/-- **Which strides are read correctly.** With a blend that an opaque foreground covers, for a
buffer of any stride that lies in the display: whatever it and the display hold, the copy completes
and blends into each pixel the bytes that the stride puts there, if and only if the offset behind
the last row fits, and the rows are next to each other or there is one row of enough bytes. -/
theorem strides_read_iff (blend : Blend) (covers : ∀ bg fg, blend bg fg 255 = fg)
    (displayWidth displayHeight w h stride posY posX : Int) (format : ShmFormat) (hs : w ≤ stride)
    (hin : Within displayWidth displayHeight w h posY posX) :
    (∀ data display : Memory UInt8, data.length = stride * h →
        display.length = 4 * displayWidth * displayHeight →
        ∃ display', (copyShmBufferToDisplay checked blend displayWidth displayHeight display
            ⟨w, h, stride, format, data⟩ posY posX).result = .ok display' ∧
          ∀ i j k, 0 ≤ i ∧ i < w → 0 ≤ j ∧ j < h → 0 ≤ k ∧ k < 3 →
            Memory.read display' (4 * ((posY + j) * displayWidth + (posX + i)) + k) =
              (Memory.read display (4 * ((posY + j) * displayWidth + (posX + i)) + k)).map
                (blended blend data (j * stride + 4 * i + k) (j * stride + 4 * i + 3))) ↔
      4 * ((posY + h) * displayWidth + posX) < 2 ^ 31 ∧
        (stride = 4 * w ∨ h = 1 ∧ 4 * w ≤ stride) := by
  constructor
  · intro hall
    obtain ⟨hoffset, hpitch⟩ := StrideRead.fits hin hs hall
    refine ⟨hoffset, ?_⟩
    rcases StrideRead.next_to_each_other covers hin hpitch hall with hnext | hone
    · exact .inl hnext
    · exact .inr ⟨hone, hpitch⟩
  · rintro ⟨hoffset, hstride⟩
    exact StrideRead.of_fits hin hoffset hstride

theorem strides_read_iff_packed :
    (∀ data display : Memory UInt8, data.length = (8 : Int) * 2 →
        display.length = (4 : Int) * 3 * 2 →
        ∃ display', (copyShmBufferToDisplay checked floatBlend 3 2 display
            ⟨2, 2, 8, .argb8888, data⟩ 0 1).result = .ok display' ∧
          ∀ i j k, 0 ≤ i ∧ i < 2 → 0 ≤ j ∧ j < 2 → 0 ≤ k ∧ k < 3 →
            Memory.read display' (4 * ((0 + j) * 3 + (1 + i)) + k) =
              (Memory.read display (4 * ((0 + j) * 3 + (1 + i)) + k)).map
                (blended floatBlend data (j * 8 + 4 * i + k) (j * 8 + 4 * i + 3))) ↔
      4 * ((0 + 2) * 3 + 1) < (2 : Int) ^ 31 ∧
        ((8 : Int) = 4 * 2 ∨ (2 : Int) = 1 ∧ 4 * 2 ≤ (8 : Int)) :=
  strides_read_iff floatBlend floatBlend_covers 3 2 2 2 8 0 1 .argb8888 (by decide)
    ⟨by decide, by decide, by decide, by decide, by decide, by decide⟩

/-- A buffer of one column and two rows, with room for two columns: the second pixel shown is what
is behind the first row. -/
theorem second_row_misread :
    ¬ ∀ (displayWidth displayHeight w h stride posY posX : Int) (format : ShmFormat), w ≤ stride →
      Within displayWidth displayHeight w h posY posX →
      ∀ data display : Memory UInt8, data.length = stride * h →
        display.length = 4 * displayWidth * displayHeight →
        ∃ display', (copyShmBufferToDisplay checked integerBlend displayWidth displayHeight display
            ⟨w, h, stride, format, data⟩ posY posX).result = .ok display' ∧
          ∀ i j k, 0 ≤ i ∧ i < w → 0 ≤ j ∧ j < h → 0 ≤ k ∧ k < 3 →
            Memory.read display' (4 * ((posY + j) * displayWidth + (posX + i)) + k) =
              (Memory.read display (4 * ((posY + j) * displayWidth + (posX + i)) + k)).map
                (blended integerBlend data (j * stride + 4 * i + k) (j * stride + 4 * i + 3)) := by
  intro h
  obtain ⟨d, hd, hpixel⟩ := h 1 2 1 2 8 0 0 .argb8888 (by decide)
    ⟨by decide, by decide, by decide, by decide, by decide, by decide⟩
    [1, 2, 3, 255, 9, 9, 9, 255, 5, 6, 7, 255, 9, 9, 9, 255] [0, 0, 0, 0, 0, 0, 0, 0] rfl rfl
  have hshown : Except.ok d = Except.ok (ε := Fault) [1, 2, 3, 0, 9, 9, 9, 0] := hd.symm
  have hwant := hpixel 0 1 0 (by decide) (by decide) (by decide)
  rw [Except.ok.inj hshown] at hwant
  exact absurd hwant (by decide)

end WaylandTest
