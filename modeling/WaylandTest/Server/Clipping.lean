import WaylandTest.Lib.Outcome
import WaylandTest.Server.Blit

/-!
# What the clipping of a copy misses

`copyShmBufferToDisplay` clips a buffer at the left, the right and the bottom edge of the display,
and not at the top; and a buffer that is wholly beside the display leaves it a negative line length.
`copy_inside_iff` says for which positions the copy stays inside the display and the buffer, and
`copy_exact` that a copy which completes has painted exactly the part of the buffer that is over the
display.
-/

set_option autoImplicit false

namespace WaylandTest

open Lib Exec

/-- A packed buffer has the bytes of its pixels. -/
theorem ShmBuffer.Packed.bytes_le {b : ShmBuffer} (hb : b.Packed) :
    4 * (b.height * b.width) ≤ b.data.length := by
  have hbytes := hb.bytes
  rw [hb.stride, Int.mul_assoc, Int.mul_comm b.width] at hbytes
  omega

/-! ## What each part can end in -/

section Parts

variable {E : Fault → Prop} {blend : Blend} {data display : Memory UInt8} {bg fg dst src : Int}
  {alpha : UInt8} {size : UInt32}

theorem faults_checked (z : Int) : Faults (· = .signedOverflow) (checked z) := by
  unfold checked
  split
  · exact faults_pure z
  · exact faults_fail rfl

theorem faults_loadByte (m : Memory UInt8) (i : Int) :
    Faults (· = .outOfRange) (loadByte m i) := by
  refine faults_ofOption ?_ _
  rfl

theorem faults_storeByte (m : Memory UInt8) (i : Int) (v : UInt8) :
    Faults (· = .outOfRange) (storeByte m i v) := by
  refine faults_ofOption ?_ _
  rfl

theorem faults_blendByte : Faults (· = .outOfRange) (blendByte blend data alpha display bg fg) :=
  (faults_loadByte _ _).bind fun _ _ => (faults_loadByte _ _).bind fun _ _ => faults_storeByte _ _ _

theorem faults_alphaBlending : Faults (· = .outOfRange) (alphaBlending blend data display bg fg) :=
  (faults_loadByte _ _).bind fun _ _ => faults_blendByte.bind fun _ _ =>
    faults_blendByte.bind fun _ _ => faults_blendByte

/-- A byte is blended inside the display and the buffer. -/
theorem blendByte_inside (hbg : 0 ≤ bg ∧ bg < display.length) (hfg : 0 ≤ fg ∧ fg < data.length) :
    Faults E (blendByte blend data alpha display bg fg) := by
  obtain ⟨b, hb⟩ := Memory.exists_read hbg.1 hbg.2
  obtain ⟨f, hf⟩ := Memory.exists_read hfg.1 hfg.2
  obtain ⟨d, hd⟩ := Memory.exists_write hbg.1 hbg.2 (blend b f alpha)
  refine (faults_some hb).bind fun b' hb' => (faults_some hf).bind fun f' hf' => ?_
  obtain rfl := Option.some.inj (hb.symm.trans (ofOption_result_ok.mp hb'))
  obtain rfl := Option.some.inj (hf.symm.trans (ofOption_result_ok.mp hf'))
  exact faults_some hd

/-- A pixel is blended inside the display and the buffer. -/
theorem alphaBlending_inside (hbg : 0 ≤ bg ∧ bg + 2 < display.length)
    (hfg : 0 ≤ fg ∧ fg + 3 < data.length) :
    Faults E (alphaBlending blend data display bg fg) := by
  obtain ⟨a, ha⟩ := Memory.exists_read (m := data) (i := fg + 3) (by omega) hfg.2
  refine (faults_some ha).bind fun a _ => ?_
  refine (blendByte_inside (by omega) (by omega)).bind fun d₀ h₀ => ?_
  obtain ⟨-, _, -, hc₀⟩ := blendByte_ok h₀
  have hlen₀ := hc₀.length
  refine (blendByte_inside (by omega) (by omega)).bind fun d₁ h₁ => ?_
  obtain ⟨-, _, -, hc₁⟩ := blendByte_ok h₁
  have hlen₁ := hc₁.length
  exact blendByte_inside (by omega) (by omega)

/-- A line of whole pixels ends in no other fault than its pixels: its counter does not wrap. -/
theorem faults_blitLine (hsize : size.toNat % 4 = 0)
    (h : ∀ (d : Memory UInt8) (i : Nat), d.length = display.length → i % 4 = 0 → i < size.toNat →
      Faults E (alphaBlending blend data d (dst + i) (src + i))) :
    Faults E (blitLine blend data display dst src size) := by
  refine Faults.bind ?_ fun _ _ => faults_pure _
  refine Faults.loop (I := fun s => s.1.toNat % 4 = 0 ∧ s.2.length = display.length)
    (μ := fun s => size.toNat - s.1.toNat) ?_ ?_ ⟨rfl, rfl⟩ ?_
  · intro s t hs hlt hbody
    obtain ⟨d, hblend, ht⟩ := result_bind_ok.mp hbody
    cases ht
    obtain ⟨-, -, hc⟩ := alphaBlending_ok hblend
    have hsmall := size.toNat_lt
    have hless : s.1.toNat < size.toNat := UInt32.lt_iff_toNat_lt.mp (of_decide_eq_true hlt)
    have hnext : (s.1 + 4).toNat = s.1.toNat + 4 := by
      have h4 : (4 : UInt32).toNat = 4 := rfl
      rw [UInt32.toNat_add, h4]
      omega
    refine ⟨⟨?_, hc.length.trans hs.2⟩, ?_⟩
    · show (s.1 + 4).toNat % 4 = 0
      omega
    · show size.toNat - (s.1 + 4).toNat < size.toNat - s.1.toNat
      omega
  · intro s hs hlt
    have hless : s.1.toNat < size.toNat := UInt32.lt_iff_toNat_lt.mp (of_decide_eq_true hlt)
    exact (h s.2 s.1.toNat hs.2 hs.1 hless).bind fun _ _ => faults_pure _
  · have hsmall := size.toNat_lt
    unfold loopFuel
    show size.toNat - 0 < _
    omega

/-- A line of the clipped length, which may be negative, only ends badly outside the buffers. -/
theorem faults_clippedLine (n : Int) :
    Faults (· = .outOfRange) (blitLine blend data display dst src (UInt32.ofInt (4 * n))) :=
  faults_blitLine (toNat_ofInt_pixels n) fun _ _ _ _ _ => faults_alphaBlending

/-- A line inside the display and the buffer. -/
theorem clippedLine_inside {n : Int} (hn : 0 ≤ n) (hsmall : 4 * n < 2 ^ 31)
    (hdst : 0 < n → 0 ≤ dst ∧ dst + 4 * n ≤ display.length)
    (hsrc : 0 < n → 0 ≤ src ∧ src + 4 * n ≤ data.length) :
    Faults E (blitLine blend data display dst src (UInt32.ofInt (4 * n))) := by
  have hsize : (UInt32.ofInt (4 * n)).toNat = 4 * n := by
    rw [toNat_ofInt]
    omega
  refine faults_blitLine (toNat_ofInt_pixels n) fun d i hlen hi hlt => ?_
  have hd := hdst (by omega)
  have hs := hsrc (by omega)
  exact alphaBlending_inside (by omega) (by omega)

end Parts

/-! ## The loop over the rows -/

section Rows

variable {σ : Type} {E : Fault → Prop} {line : Line σ}
  {displayWidth displayHeight w h posY posX lineSize : Int} {display : σ} {s : BlitState σ}

/-- A row ends in no other fault than its line, or in an overflow. -/
theorem faults_blitRowBy (h : Faults E
    (line s.display s.offsetDst s.offsetSrc (UInt32.ofInt lineSize))) :
    Faults (fun e => E e ∨ e = .signedOverflow)
      (blitRowBy checked line displayWidth w lineSize s) := by
  have hchecked : ∀ z, Faults (fun e => E e ∨ e = .signedOverflow) (checked z) :=
    fun z => (faults_checked z).mono fun _ => Or.inr
  refine (h.mono fun _ => Or.inl).bind fun _ _ => ?_
  refine (hchecked _).bind fun _ _ => (hchecked _).bind fun _ _ => (hchecked _).bind fun _ _ => ?_
  exact (hchecked _).bind fun _ _ => (hchecked _).bind fun _ _ => faults_pure _

theorem faults_clipLeft (z : Int) : Faults (· = .signedOverflow) (clipLeft checked z posX) := by
  unfold clipLeft
  split
  · exact (faults_checked _).bind fun _ _ => (faults_checked _).bind fun _ _ =>
      (faults_checked _).bind fun _ _ => faults_pure _
  · exact faults_pure _

theorem faults_blitRange :
    Faults (· = .signedOverflow) (blitRange checked displayWidth displayHeight w h posY posX) :=
  (faults_checked _).bind fun _ _ => (faults_checked _).bind fun _ _ =>
    (faults_checked _).bind fun _ _ => (faults_clipLeft _).bind fun _ _ =>
      (faults_checked _).bind fun _ _ => (faults_checked _).bind fun _ _ =>
        (faults_checked _).bind fun _ _ => faults_pure _

/-- A position whose range fits is one. -/
theorem RangeFits.position (hw : 0 < displayWidth)
    (hfits : RangeFits displayWidth w h posY posX) : -2 ^ 31 ≤ posY := by
  have hrow := hfits.row.1
  by_cases hneg : posY < 0
  · have hle : posY * displayWidth ≤ posY * 1 :=
      Int.mul_le_mul_of_nonpos_left (by omega) (by omega)
    omega
  · omega

/-- The rows of a buffer whose range fits are fewer than the loop has fuel for. -/
theorem rows_lt_loopFuel (hw : 0 < displayWidth)
    (hfits : RangeFits displayWidth w h posY posX) :
    (min (posY + h) displayHeight - posY).toNat < loopFuel := by
  have hbottom := hfits.bottom.2
  have hposY := hfits.position hw
  unfold loopFuel
  omega

/-- **The faults of a copy over any memory** are those of its range and of its rows. -/
theorem faults_copy {I : BlitState σ → Prop} (hw : 0 < displayWidth)
    (keep : ∀ s t, I s → (blitRowBy checked line displayWidth w
      (clippedRange displayWidth displayHeight w h posY posX).lineSize s).result = .ok t → I t)
    (hI : I (firstRow displayWidth display posY posX))
    (hrange : Faults E (blitRange checked displayWidth displayHeight w h posY posX))
    (hrow : ∀ s, RangeFits displayWidth w h posY posX →
      RowsCounted displayWidth displayHeight w h posY posX s → I s →
      s.y < min (posY + h) displayHeight →
      Faults E (blitRowBy checked line displayWidth w
        (clippedRange displayWidth displayHeight w h posY posX).lineSize s)) :
    Faults E (copyBy checked line displayWidth displayHeight w h display posY posX) := by
  refine hrange.bind fun r hr => ?_
  obtain ⟨rfl, hfits⟩ := blitRange_result.mp hr
  refine Faults.bind ?_ fun _ _ => faults_pure _
  refine Faults.loop
    (I := fun s => RowsCounted displayWidth displayHeight w h posY posX s ∧ I s)
    (μ := fun s => (min (posY + h) displayHeight - s.y).toNat) ?_ ?_ ⟨rowsCounted_start, hI⟩
    (rows_lt_loopFuel hw hfits)
  · intro s t hs hy ht
    have hlt : s.y < min (posY + h) displayHeight := of_decide_eq_true hy
    have hnext := (blitRowBy_ok ht).2.1
    refine ⟨⟨hs.1.row hlt ht, keep s t hs.2 ht⟩, ?_⟩
    show (min _ _ - t.y).toNat < (min _ _ - s.y).toNat
    omega
  · exact fun s hs hy => hrow s hfits hs.1 hs.2 (of_decide_eq_true hy)

end Rows

/-! ## Inside both buffers -/

/-- The positions at which a copy stays inside: it draws no row, or nothing in each row, or the
buffer is not above the display and reaches into it. -/
def Inside (displayWidth displayHeight : Int) (b : ShmBuffer) (posY posX : Int) : Prop :=
  displayHeight ≤ posY ∨ posX = -b.width ∨ posX = displayWidth ∨
    0 ≤ posY ∧ -b.width < posX ∧ posX < displayWidth

instance (displayWidth displayHeight : Int) (b : ShmBuffer) (posY posX : Int) :
    Decidable (Inside displayWidth displayHeight b posY posX) :=
  inferInstanceAs (Decidable (_ ∨ _ ∨ _ ∨ _))

section Copies

variable {E : Fault → Prop} {blend : Blend} {displayWidth displayHeight : Int}
  {display display' : Memory UInt8} {b : ShmBuffer} {posY posX : Int}

/-- The lines of a copy at such a position end without a fault. -/
theorem Inside.line {s : BlitState (Memory UInt8)}
    (hin : Inside displayWidth displayHeight b posY posX)
    (hwidth : 0 < b.width) (hbytes : 4 * (b.height * b.width) ≤ b.data.length)
    (hw : 0 < displayWidth) (hsize : display.length = 4 * displayWidth * displayHeight)
    (hfits : RangeFits displayWidth b.width b.height posY posX)
    (hs : RowsCounted displayWidth displayHeight b.width b.height posY posX s)
    (hlength : s.display.length = display.length)
    (hy : s.y < min (posY + b.height) displayHeight) :
    Faults E (blitLine blend b.data s.display s.offsetDst s.offsetSrc
      (UInt32.ofInt (4 * (min b.width (displayWidth - posX) - max 0 (-posX))))) := by
  have hfirst := hs.first
  have hline :
      FitsInt32 (clippedRange displayWidth displayHeight b.width b.height posY posX).lineSize :=
    hfits.lineSize
  have hlen : (s.display.length : Int) = 4 * (displayHeight * displayWidth) := by
    rw [hlength, hsize, Int.mul_assoc, Int.mul_comm displayWidth]
  refine clippedLine_inside ?_ hline.2 (fun hn => ?_) fun hn => ?_
  · rcases hin with hbelow | hleft | hright | ⟨-, hlo, hhi⟩ <;> omega
  · have hposY : 0 ≤ posY := by
      rcases hin with hbelow | hleft | hright | ⟨htop, -⟩ <;> omega
    have hrow : (s.y + 1) * displayWidth ≤ displayHeight * displayWidth :=
      Int.mul_le_mul_of_nonneg_right (by omega) (by omega)
    have hnonneg : 0 ≤ s.y * displayWidth := Int.mul_nonneg (by omega) (by omega)
    rw [Int.add_mul, Int.one_mul] at hrow
    rw [hs.offsetDst]
    omega
  · have hrow : (s.y - posY + 1) * b.width ≤ b.height * b.width :=
      Int.mul_le_mul_of_nonneg_right (by omega) (by omega)
    have hnonneg : 0 ≤ (s.y - posY) * b.width := Int.mul_nonneg (by omega) (by omega)
    rw [Int.add_mul, Int.one_mul] at hrow
    rw [hs.offsetSrc]
    omega

/-- The first row leads outside at every other position. -/
theorem inside_of_line (hwidth : 0 < b.width) (hw : 0 < displayWidth)
    (hlen : (display.length : Int) + 1 < 2 ^ 31)
    (hfits : RangeFits displayWidth b.width b.height posY posX)
    (h : (blitLine blend b.data display (4 * (posY * displayWidth + max 0 posX))
      (4 * max 0 (-posX)) (UInt32.ofInt (4 * (min b.width (displayWidth - posX) -
        max 0 (-posX))))).result = .ok display') :
    Inside displayWidth displayHeight b posY posX := by
  have hline :
      FitsInt32 (clippedRange displayWidth displayHeight b.width b.height posY posX).lineSize :=
    hfits.lineSize
  obtain ⟨hn, hdst, -⟩ := clippedLine_ok (fun _ => hlen) hline h
  have hleft : -b.width ≤ posX := by omega
  have hright : posX ≤ displayWidth := by omega
  by_cases hcut : posX = -b.width ∨ posX = displayWidth
  · exact .inr (hcut.imp id .inl)
  · have htop : 0 ≤ posY := by
      by_contra hneg
      have hn' : 0 < min b.width (displayWidth - posX) - max 0 (-posX) := by omega
      have hstart := (hdst hn').1
      have hrow : posY * displayWidth ≤ -1 * displayWidth :=
        Int.mul_le_mul_of_nonneg_right (by omega) (by omega)
      omega
    exact .inr (.inr (.inr (by omega)))

/-- A copy that completes stayed inside. -/
theorem inside_of_copy (hb : b.Packed) (hw : 0 < displayWidth)
    (hlen : (display.length : Int) + 1 < 2 ^ 31)
    (h : (copyShmBufferToDisplay checked blend displayWidth displayHeight display b posY
      posX).result = .ok display') : Inside displayWidth displayHeight b posY posX := by
  have hheight := hb.height
  obtain ⟨r, hr, h⟩ := result_bind_ok.mp h
  obtain ⟨rfl, hfits⟩ := blitRange_result.mp hr
  obtain ⟨s, hloop, -⟩ := result_bind_ok.mp h
  by_cases hrows : posY < displayHeight
  · have hcond : posY < min (posY + b.height) displayHeight := by omega
    obtain ⟨t, hrow⟩ := loop_first hloop (decide_eq_true hcond)
    obtain ⟨d, hblit, -⟩ := result_bind_ok.mp hrow
    exact inside_of_line hb.width hw hlen hfits hblit
  · exact .inl (by omega)

/-- A row stays in the display. -/
theorem length_blitRow {lineSize : Int} {s t : BlitState (Memory UInt8)}
    (hs : s.display.length = display.length)
    (h : (blitRow checked blend displayWidth b lineSize s).result = .ok t) :
    t.display.length = display.length :=
  (length_blitLine (blitRowBy_ok h).1).trans hs

/-- A copy ends in no other fault than the two. -/
theorem faults_copy_any (hw : 0 < displayWidth) :
    Faults (fun e => e = .outOfRange ∨ e = .signedOverflow)
      (copyShmBufferToDisplay checked blend displayWidth displayHeight display b posY posX) :=
  faults_copy (I := fun s => s.display.length = display.length) hw
    (fun _ _ hs ht => length_blitRow hs ht) rfl (faults_blitRange.mono fun _ => Or.inr)
    fun _ _ _ _ _ => faults_blitRowBy (faults_clippedLine _)

/-- A copy that stays inside can only overflow. -/
theorem Inside.copy (hin : Inside displayWidth displayHeight b posY posX) (hb : b.Packed)
    (hw : 0 < displayWidth) (hsize : display.length = 4 * displayWidth * displayHeight) :
    Faults (· = .signedOverflow)
      (copyShmBufferToDisplay checked blend displayWidth displayHeight display b posY posX) :=
  faults_copy (I := fun s => s.display.length = display.length) hw
    (fun _ _ hs ht => length_blitRow hs ht) rfl faults_blitRange fun _ hfits hs hlength hy =>
      (faults_blitRowBy (E := fun _ => False)
        (hin.line hb.width hb.bytes_le hw hsize hfits hs hlength hy)).mono
          fun _ he => he.resolve_left id

end Copies

/-- The bytes of a small display, and one more, are numbered by an `int`. -/
theorem display_length {displayWidth displayHeight : Int} {display : Memory UInt8}
    (small : 4 * displayWidth * displayHeight < 2 ^ 31)
    (hsize : display.length = 4 * displayWidth * displayHeight) :
    (display.length : Int) + 1 < 2 ^ 31 := by
  rw [Int.mul_assoc] at hsize small
  omega

/-- **A copy stays inside the display and the buffer**, exactly at the positions `Inside`. For every
display, packed buffer and position at which no expression overflows: no byte outside either is read
or written if and only if the buffer is below the display, or ends at its left edge or begins at its
right edge, or is not above the display and reaches into it. -/
theorem copy_inside_iff (blend : Blend) (displayWidth displayHeight : Int) (display : Memory UInt8)
    (b : ShmBuffer) (posY posX : Int) (hw : 0 < displayWidth)
    (small : 4 * displayWidth * displayHeight < 2 ^ 31)
    (hsize : display.length = 4 * displayWidth * displayHeight) (hb : b.Packed)
    (hover : (copyShmBufferToDisplay checked blend displayWidth displayHeight display b posY
      posX).result ≠ .error .signedOverflow) :
    (copyShmBufferToDisplay checked blend displayWidth displayHeight display b posY posX).result ≠
        .error .outOfRange ↔
      Inside displayWidth displayHeight b posY posX := by
  have hlen := display_length small hsize
  constructor
  · intro hrange
    cases hres : (copyShmBufferToDisplay checked blend displayWidth displayHeight display b posY
        posX).result with
    | error e =>
      rcases faults_copy_any hw e hres with rfl | rfl
      · exact absurd hres hrange
      · exact absurd hres hover
    | ok display' => exact inside_of_copy hb hw hlen hres
  · intro hin hres
    cases hin.copy hb hw hsize _ hres

/-- A display of two pixels, and a buffer of two pixels, both in one row. -/
def twoPixels : Memory UInt8 := [9, 9, 9, 9, 9, 9, 9, 9]

def twoPixelBuffer : ShmBuffer := ⟨2, 1, 8, .argb8888, [1, 2, 3, 4, 5, 6, 7, 8]⟩

theorem copy_inside_iff_cut :
    (copyShmBufferToDisplay checked (fun bg fg _ => bg + fg) 2 1 twoPixels twoPixelBuffer 0
        (-1)).result ≠ .error .outOfRange ↔ Inside 2 1 twoPixelBuffer 0 (-1) :=
  copy_inside_iff _ 2 1 twoPixels twoPixelBuffer 0 (-1) (by decide) (by decide) rfl (by decide)
    (fun h => by cases h)

/-- A buffer wholly to the right of the display: the length of its lines is negative, and converted
to one that leads outside. -/
theorem copy_outside :
    ¬ ∀ (blend : Blend) (displayWidth displayHeight : Int) (display : Memory UInt8) (b : ShmBuffer)
        (posY posX : Int), 0 < displayWidth → 0 < displayHeight →
      4 * displayWidth * displayHeight < 2 ^ 31 →
      display.length = 4 * displayWidth * displayHeight → b.Packed →
      (copyShmBufferToDisplay checked blend displayWidth displayHeight display b posY posX).result ≠
        .error .signedOverflow →
      (copyShmBufferToDisplay checked blend displayWidth displayHeight display b posY posX).result ≠
        .error .outOfRange := by
  intro h
  exact h (fun bg _ _ => bg) 2 1 twoPixels twoPixelBuffer 0 3 (by decide) (by decide) (by decide)
    rfl
    (by decide) (fun hover => by cases hover) rfl

/-- **Clipping is pixel-exact.** A copy that completes blends every display pixel that is under the
buffer with the pixel above it, once, and changes no other byte; the fourth byte of a pixel
stays. -/
theorem copy_exact (blend : Blend) (displayWidth displayHeight : Int)
    (display display' : Memory UInt8) (b : ShmBuffer) (posY posX : Int) (hw : 0 < displayWidth)
    (small : 4 * displayWidth * displayHeight < 2 ^ 31)
    (hsize : display.length = 4 * displayWidth * displayHeight) (hb : b.Packed)
    (h : (copyShmBufferToDisplay checked blend displayWidth displayHeight display b posY
      posX).result = .ok display') :
    display'.length = display.length ∧
      ∀ x y k, 0 ≤ x ∧ x < displayWidth → 0 ≤ y ∧ y < displayHeight → 0 ≤ k ∧ k < 4 →
        Memory.read display' (4 * (y * displayWidth + x) + k) =
          (Memory.read display (4 * (y * displayWidth + x) + k)).map fun old =>
            if ((0 ≤ x - posX ∧ x - posX < b.width) ∧ 0 ≤ y - posY ∧ y - posY < b.height) ∧ k ≠ 3
            then blend old (b.byte (x - posX) (y - posY) k) (b.byte (x - posX) (y - posY) 3)
            else old := by
  have hchanged := copyShmBufferToDisplay_ok hb.stride hw hsize (fun _ => small) h
  refine ⟨hchanged.length, fun x y k hx _ hk => ?_⟩
  obtain ⟨hpx, hpy, hpk⟩ := pixel_offset (y := y) hx hk
  rw [hchanged]
  unfold paintedAt
  rw [hpx, hpy, hpk]
  rfl

theorem copy_exact_cut :
    List.length [14, 15, 16, 9, 9, 9, 9, 9] = twoPixels.length ∧
      ∀ x y k, 0 ≤ x ∧ x < 2 → 0 ≤ y ∧ y < 1 → 0 ≤ k ∧ k < 4 →
        Memory.read ([14, 15, 16, 9, 9, 9, 9, 9] : Memory UInt8) (4 * (y * 2 + x) + k) =
          (Memory.read twoPixels (4 * (y * 2 + x) + k)).map fun old =>
            if ((0 ≤ x - -1 ∧ x - -1 < twoPixelBuffer.width) ∧
              0 ≤ y - 0 ∧ y - 0 < twoPixelBuffer.height) ∧ k ≠ 3
            then (fun bg fg _ => bg + fg) old (twoPixelBuffer.byte (x - -1) (y - 0) k)
              (twoPixelBuffer.byte (x - -1) (y - 0) 3)
            else old :=
  copy_exact (fun bg fg _ => bg + fg) 2 1 twoPixels _ twoPixelBuffer 0 (-1) (by decide) (by decide)
    rfl (by decide) rfl

end WaylandTest
