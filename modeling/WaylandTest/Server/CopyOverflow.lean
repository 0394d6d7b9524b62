import WaylandTest.Lib.Returns
import WaylandTest.Server.Clipping

/-!
# When a copy overflows

The `int32_t` expressions of `copyShmBufferToDisplay` are of two kinds: those before its loop, which
are evaluated wherever the buffer is (`RangeFits`), and the offsets, which go one row further than
the last row that is drawn (`RowsFit`). What a line does to the memory has no part in them: the
source checks no index, and computes the next offsets whatever the line wrote. `copy_overflow_iff`
says when one of the expressions does not fit, in a copy whose lines, over whatever memory, all come
to an end.
-/

set_option autoImplicit false

namespace WaylandTest

open Lib Exec

/-- The offsets behind the last row that is drawn fit. -/
structure RowsFit (displayWidth displayHeight w h posY posX : Int) : Prop where
  dst : 4 * (min (posY + h) displayHeight * displayWidth + max 0 posX) < 2 ^ 31
  src : 4 * ((min (posY + h) displayHeight - posY) * w + max 0 (-posX)) < 2 ^ 31

/-! ## Over any memory -/

section Offsets

variable {σ : Type} {E : Fault → Prop} {line : Line σ}
  {displayWidth displayHeight w h posY posX : Int} {display display' : σ} {s : BlitState σ}

theorem checked_fits {z : Int} (hz : FitsInt32 z) : Faults E (checked z) := by
  unfold checked FitsInt32 at *
  rw [if_pos hz]
  exact faults_pure z

theorem blitRange_fits (hfits : RangeFits displayWidth w h posY posX) :
    Faults E (blitRange checked displayWidth displayHeight w h posY posX) := by
  intro e he
  rw [blitRange_result.mpr ⟨rfl, hfits⟩] at he
  cases he

/-- A row whose line ends well, and whose next offsets fit. -/
theorem RowsFit.row {lineSize : Int} (hrows : RowsFit displayWidth displayHeight w h posY posX)
    (hw : 0 < displayWidth) (hw' : 4 * displayWidth < 2 ^ 31) (hwidth : 0 < w)
    (hwidth' : 4 * w < 2 ^ 31) (hfits : RangeFits displayWidth w h posY posX)
    (hs : RowsCounted displayWidth displayHeight w h posY posX s)
    (hy : s.y < min (posY + h) displayHeight)
    (hline : Faults E (line s.display s.offsetDst s.offsetSrc (UInt32.ofInt lineSize))) :
    Faults E (blitRowBy checked line displayWidth w lineSize s) := by
  have hfirst := hs.first
  have hoffset := hfits.offset
  have hbottom := hfits.bottom
  obtain ⟨hdst, hsrc⟩ := hrows
  unfold FitsInt32 at hoffset hbottom
  have hdstHi : (s.y + 1) * displayWidth ≤ min (posY + h) displayHeight * displayWidth :=
    Int.mul_le_mul_of_nonneg_right (by omega) (by omega)
  have hdstLo : posY * displayWidth ≤ s.y * displayWidth :=
    Int.mul_le_mul_of_nonneg_right (by omega) (by omega)
  have hsrcHi : (s.y + 1 - posY) * w ≤ (min (posY + h) displayHeight - posY) * w :=
    Int.mul_le_mul_of_nonneg_right (by omega) (by omega)
  have hsrcLo : 0 ≤ (s.y - posY) * w := Int.mul_nonneg (by omega) (by omega)
  have hshift : s.y + 1 - posY = s.y - posY + 1 := by omega
  rw [Int.add_mul, Int.one_mul] at hdstHi
  rw [hshift, Int.add_mul, Int.one_mul] at hsrcHi
  unfold blitRowBy bytesPerPixel
  refine hline.bind fun _ _ => ?_
  refine (checked_fits ?_).bind fun rowDst hrow => ?_
  · unfold FitsInt32
    omega
  obtain ⟨rfl, -⟩ := checked_result.mp hrow
  refine (checked_fits ?_).bind fun _ _ => ?_
  · unfold FitsInt32
    rw [hs.offsetDst]
    omega
  refine (checked_fits ?_).bind fun rowSrc hrow => ?_
  · unfold FitsInt32
    omega
  obtain ⟨rfl, -⟩ := checked_result.mp hrow
  refine (checked_fits ?_).bind fun _ _ => ?_
  · unfold FitsInt32
    rw [hs.offsetSrc]
    omega
  refine (checked_fits ?_).bind fun _ _ => faults_pure _
  have hstart := hfits.position hw
  unfold FitsInt32
  omega

/-- A copy whose expressions fit, and whose lines end well, ends well. -/
theorem copyBy_fits {I : BlitState σ → Prop} (hw : 0 < displayWidth)
    (hw' : 4 * displayWidth < 2 ^ 31) (hwidth : 0 < w) (hwidth' : 4 * w < 2 ^ 31)
    (hfits : RangeFits displayWidth w h posY posX)
    (hrows : posY < min (posY + h) displayHeight →
      RowsFit displayWidth displayHeight w h posY posX)
    (keep : ∀ s t, I s → (blitRowBy checked line displayWidth w
      (clippedRange displayWidth displayHeight w h posY posX).lineSize s).result = .ok t → I t)
    (hI : I (firstRow displayWidth display posY posX))
    (hline : ∀ s, RowsCounted displayWidth displayHeight w h posY posX s → I s →
      s.y < min (posY + h) displayHeight →
      Faults E (line s.display s.offsetDst s.offsetSrc (UInt32.ofInt
        (clippedRange displayWidth displayHeight w h posY posX).lineSize))) :
    Faults E (copyBy checked line displayWidth displayHeight w h display posY posX) := by
  refine faults_copy hw keep hI (blitRange_fits hfits) fun s _ hs hkept hy => ?_
  have hfirst := hs.first
  exact (hrows (by omega)).row hw hw' hwidth hwidth' hfits hs hy (hline s hs hkept hy)

/-- The expressions of a copy that completes fit. -/
theorem fits_of_copyBy
    (hcopy : (copyBy checked line displayWidth displayHeight w h display posY posX).result =
      .ok display') :
    RangeFits displayWidth w h posY posX ∧
      (posY < min (posY + h) displayHeight →
        RowsFit displayWidth displayHeight w h posY posX) := by
  obtain ⟨hfits, s, hs, -, hstop, -⟩ :=
    copyBy_rows (I := fun _ => True) (fun _ _ _ _ _ _ _ => trivial) trivial hcopy
  refine ⟨hfits, fun hrows => ?_⟩
  have hlast := hs.last
  have hend : s.y = min (posY + h) displayHeight := by omega
  obtain ⟨hdst, hsrc⟩ := hs.fits (by omega)
  rw [hs.offsetDst, hend] at hdst
  rw [hs.offsetSrc, hend] at hsrc
  exact ⟨hdst.2, hsrc.2⟩

/-- A copy whose lines come to an end can only overflow. -/
theorem faults_copyBy_total (hw : 0 < displayWidth)
    (hline : ∀ d dst src size, Faults (fun _ => False) (line d dst src size)) :
    Faults (· = .signedOverflow)
      (copyBy checked line displayWidth displayHeight w h display posY posX) :=
  faults_copy (I := fun _ => True) hw (fun _ _ _ _ => trivial) trivial faults_blitRange
    fun _ _ _ _ _ => (faults_blitRowBy (hline _ _ _ _)).mono fun _ he => he.resolve_left id

/-- **When a copy overflows.** In a copy whose lines come to an end no expression overflows, so that
the copy completes, if and only if those before its loop fit, and, where the copy has rows, the
offsets behind its last row fit. -/
theorem copy_overflow_iff (hw : 0 < displayWidth) (hw' : 4 * displayWidth < 2 ^ 31)
    (hwidth : 0 < w) (hwidth' : 4 * w < 2 ^ 31)
    (hline : ∀ d dst src size, Faults (fun _ => False) (line d dst src size)) :
    (copyBy checked line displayWidth displayHeight w h display posY posX).Returns ↔
      RangeFits displayWidth w h posY posX ∧
        (posY < min (posY + h) displayHeight →
          RowsFit displayWidth displayHeight w h posY posX) := by
  constructor
  · rintro ⟨d, hd⟩
    exact fits_of_copyBy hd
  · rintro ⟨hfits, hrows⟩
    refine Faults.returns (copyBy_fits (I := fun _ => True) hw hw' hwidth hwidth' hfits hrows
      (fun _ _ _ _ => trivial) trivial fun _ _ _ _ => hline _ _ _ _)

end Offsets

/-! ## Over the display -/

section Copies

variable {E : Fault → Prop} {blend : Blend} {displayWidth displayHeight : Int}
  {display : Memory UInt8} {b : ShmBuffer} {posY posX : Int}

/-- A copy whose expressions fit, and whose lines stay inside, ends well. -/
theorem Inside.fits (hin : Inside displayWidth displayHeight b posY posX)
    (hbytes : 4 * (b.height * b.width) ≤ b.data.length) (hw : 0 < displayWidth)
    (hw' : 4 * displayWidth < 2 ^ 31) (hwidth : 0 < b.width) (hwidth' : 4 * b.width < 2 ^ 31)
    (hsize : display.length = 4 * displayWidth * displayHeight)
    (hfits : RangeFits displayWidth b.width b.height posY posX)
    (hrows : posY < min (posY + b.height) displayHeight →
      RowsFit displayWidth displayHeight b.width b.height posY posX) :
    Faults E
      (copyShmBufferToDisplay checked blend displayWidth displayHeight display b posY posX) :=
  copyBy_fits (I := fun s => s.display.length = display.length) hw hw' hwidth hwidth' hfits hrows
    (fun _ _ hs ht => length_blitRow hs ht) rfl
    fun _ hs hlength hy => hin.line hwidth hbytes hw hsize hfits hs hlength hy

end Copies

/-- The bytes of a row of a small display are numbered by an `int`. -/
theorem row_small {displayWidth displayHeight : Int} (hw : 0 < displayWidth)
    (hh : 0 < displayHeight) (small : 4 * displayWidth * displayHeight < 2 ^ 31) :
    4 * displayWidth < 2 ^ 31 := by
  have hle : displayWidth * 1 ≤ displayWidth * displayHeight :=
    Int.mul_le_mul_of_nonneg_left (by omega) (by omega)
  rw [Int.mul_assoc] at small
  omega

end WaylandTest
