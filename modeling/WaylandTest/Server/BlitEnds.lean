import WaylandTest.Lib.Outcome
import WaylandTest.Server.Blit
import WaylandTest.Server.Clipping

/-!
# The loops of a copy end

Where `int32_t` and `uint32_t` wrap around, the line length of a copy may become negative, and the
conversion to `uint32_t` makes it a number near 2^32. The counter of `blitLine` goes in steps of 4
and would step over such a number, if that were no multiple of 4. `blits_end` says that it always is
one, that the counter stops at it, and how often each of the two loops goes round.

The two loops are written over any memory (`blitLineBy`, `copyBy`). Over a tally of the counters
they tell how a copy goes with the memory left aside; over the display they are the copy itself.
-/

set_option autoImplicit false

namespace WaylandTest

open Lib Exec

/-- The `int32_t` that is `z` modulo 2^32. -/
def wrap (z : Int) : Int := (Int32.ofInt z).toInt

/-- An `int32_t` expression wraps around. -/
def wrapped : IntRule := fun z => pure (wrap z)

/-! ## Wrapped expressions -/

theorem fitsInt32_toInt (x : Int32) : FitsInt32 x.toInt := ⟨x.le_toInt, x.toInt_lt⟩

theorem wrap_of_fits {z : Int} (h : FitsInt32 z) : wrap z = z := by
  unfold wrap
  rw [Int32.toInt_ofInt]
  exact Int.bmod_eq_of_le h.1 h.2

/-- Whole pixels stay whole. -/
theorem exists_wrap_pixels (n : Int) : ∃ m, wrap (4 * n) = 4 * m := by
  have hwrap := Int.bmod_add_bdiv (4 * n) Int32.size
  have hsize : (Int32.size : Int) = 4 * 2 ^ 30 := rfl
  rw [← Int32.toInt_ofInt, hsize, Int.mul_assoc] at hwrap
  refine ⟨n - 2 ^ 30 * Int.bdiv (4 * n) Int32.size, ?_⟩
  unfold wrap
  omega

theorem clipLeft_wrapped (n posX : Int) :
    ∃ offsetSrc m x, clipLeft wrapped (4 * n) posX = ⟨[], .ok (offsetSrc, 4 * m, x)⟩ := by
  unfold clipLeft
  split
  · obtain ⟨left, hleft⟩ := exists_wrap_pixels posX
    obtain ⟨src, hsrc⟩ := exists_wrap_pixels (-left)
    obtain ⟨m, hm⟩ := exists_wrap_pixels (n - src)
    rw [Int.mul_neg] at hsrc
    rw [Int.mul_sub] at hm
    refine ⟨4 * src, m, 0, ?_⟩
    simp [wrapped, bytesPerPixel, Int.mul_comm posX, hleft, hsrc, hm]
  · exact ⟨0, n, posX, rfl⟩

/-- **The range of a copy** is always computed: its lines have whole pixels, and the row to stop at
is an `int32_t`. -/
theorem blitRange_wrapped (displayWidth w h posY posX : Int) {displayHeight : Int}
    (hheight : FitsInt32 displayHeight) :
    ∃ r m, blitRange wrapped displayWidth displayHeight w h posY posX = ⟨[], .ok r⟩ ∧
      r.lineSize = 4 * m ∧ FitsInt32 r.nrOfLines := by
  have hline : ∃ n, wrap (if w < wrap (displayWidth - posX) then w * bytesPerPixel
      else wrap (displayWidth - posX) * bytesPerPixel) = 4 * n := by
    unfold bytesPerPixel
    rw [← apply_ite (· * (4 : Int)), Int.mul_comm]
    exact exists_wrap_pixels _
  have hlines : FitsInt32 (if wrap (posY + h) < displayHeight then wrap (posY + h)
      else displayHeight) := by
    split
    · exact fitsInt32_toInt _
    · exact hheight
  obtain ⟨n, hn⟩ := hline
  obtain ⟨offsetSrc, m, x, hclip⟩ := clipLeft_wrapped n posX
  have hrange : blitRange wrapped displayWidth displayHeight w h posY posX =
      ⟨[], .ok ⟨4 * m, if wrap (posY + h) < displayHeight then wrap (posY + h) else displayHeight,
        offsetSrc, wrap (wrap (wrap (posY * displayWidth) + x) * bytesPerPixel)⟩⟩ := by
    simp [blitRange, wrapped, hn, hclip]
  exact ⟨_, m, hrange, rfl, hlines⟩

/-! ## The counter of a line -/

/-- What one run of `blitLine` does, memory left aside: the size, the values of the counter at which
it blends, and the value at which it stops. -/
structure LineTally where
  size : UInt32
  counters : List UInt32
  last : UInt32
deriving DecidableEq, Repr

/-- `blitLine`, for a tally of the lines. -/
def tallyLine (tally : List LineTally) (_dst _src : Int) (size : UInt32) :
    Exec Call Fault (List LineTally) := do
  let (last, counters) ← blitLineBy (fun counters i => pure (counters ++ [i])) size []
  pure (tally ++ [{ size, counters, last }])

/-- A line of whole pixels: the counter blends at 0, 4, and so on, and stops at the size. -/
def wholeLine (size : UInt32) : LineTally where
  size
  counters := (List.range (size.toNat / 4)).map fun k => UInt32.ofNat (4 * k)
  last := size

/-- **The counter of a line** does not step over a size of whole pixels. -/
theorem tallyLine_eq {size : UInt32} (hsize : size.toNat % 4 = 0) (tally : List LineTally)
    (dst src : Int) : tallyLine tally dst src size = ⟨[], .ok (tally ++ [wholeLine size])⟩ := by
  have hbound := size.toNat_lt
  have hloop : ∃ s : UInt32 × List UInt32,
      blitLineBy (fun counters i => pure (counters ++ [i])) size [] = ⟨[], .ok s⟩ ∧
      s.1.toNat = 4 * (size.toNat / 4) ∧
      s.2 = (List.range (size.toNat / 4)).map fun k => UInt32.ofNat (4 * k) := by
    unfold blitLineBy
    refine Exec.loop_count (I := fun k (s : UInt32 × List UInt32) => s.1.toNat = 4 * k ∧
      s.2 = (List.range k).map fun k => UInt32.ofNat (4 * k)) ?_ ?_ ⟨rfl, rfl⟩ ?_
    · intro k s hk hs
      obtain ⟨i, counters⟩ := s
      have hi : i.toNat = 4 * k := hs.1
      have hcounters : counters = (List.range k).map fun k => UInt32.ofNat (4 * k) := hs.2
      have hi' : i = UInt32.ofNat (4 * k) := by rw [← hi, UInt32.ofNat_toNat]
      refine ⟨?_, _, rfl, ?_, ?_⟩
      · rw [decide_eq_true_iff, UInt32.lt_iff_toNat_lt]
        show i.toNat < size.toNat
        omega
      · show (i + 4).toNat = 4 * (k + 1)
        have h4 : (4 : UInt32).toNat = 4 := rfl
        rw [UInt32.toNat_add, h4]
        omega
      · simp [List.range_succ, hi', hcounters]
    · intro s hs
      rw [decide_eq_false_iff_not, UInt32.lt_iff_toNat_lt]
      omega
    · unfold loopFuel
      omega
  obtain ⟨⟨last, counters⟩, hrun, hlast, rfl⟩ := hloop
  have hstop : last = size := by
    apply UInt32.toNat.inj
    simp only at hlast
    omega
  unfold tallyLine
  rw [hrun, hstop]
  rfl

/-! ## The rows -/

section Rows

variable {σ : Type} (line : Line σ) (displayWidth w : Int)

/-- One round of the loop over the rows, at a row that is not the last `int32_t`. -/
theorem blitRowBy_wrapped (lineSize : Int) {s : BlitState σ} (hy : FitsInt32 (s.y + 1)) :
    ∃ offsetDst offsetSrc, blitRowBy wrapped line displayWidth w lineSize s =
      line s.display s.offsetDst s.offsetSrc (UInt32.ofInt lineSize) >>= fun memory =>
        pure ⟨s.y + 1, offsetDst, offsetSrc, memory⟩ := by
  refine ⟨wrap (s.offsetDst + wrap (displayWidth * bytesPerPixel)),
    wrap (s.offsetSrc + wrap (w * bytesPerPixel)), ?_⟩
  unfold blitRowBy
  congr 1
  funext memory
  simp [wrapped, wrap_of_fits hy]

/-- **The rows of a tally**: as many as there are from `posY` to the row to stop at, all alike. -/
theorem copyBy_tallyLine {displayHeight posY : Int} (h posX : Int)
    (hheight : FitsInt32 displayHeight)
    (hposY : FitsInt32 posY) :
    ∃ r, blitRange wrapped displayWidth displayHeight w h posY posX = ⟨[], .ok r⟩ ∧
      (UInt32.ofInt r.lineSize).toNat % 4 = 0 ∧
      copyBy wrapped tallyLine displayWidth displayHeight w h [] posY posX =
        ⟨[], .ok (List.replicate (r.nrOfLines - posY).toNat
          (wholeLine (UInt32.ofInt r.lineSize)))⟩ := by
  obtain ⟨r, m, hrange, hline, hlines⟩ := blitRange_wrapped displayWidth w h posY posX hheight
  have hsize : (UInt32.ofInt r.lineSize).toNat % 4 = 0 := by
    rw [hline]
    exact toNat_ofInt_pixels m
  obtain ⟨hlow, hhigh⟩ := hlines
  obtain ⟨hlow', hhigh'⟩ := hposY
  have hloop : ∃ s : BlitState (List LineTally),
      Exec.loop Fault.divergence (fun s => decide (s.y < r.nrOfLines))
        (blitRowBy wrapped tallyLine displayWidth w r.lineSize) loopFuel
        ⟨posY, r.offsetDst, r.offsetSrc, []⟩ = ⟨[], .ok s⟩ ∧
      s.y = posY + (r.nrOfLines - posY).toNat ∧
      s.display = List.replicate (r.nrOfLines - posY).toNat
        (wholeLine (UInt32.ofInt r.lineSize)) := by
    refine Exec.loop_count (I := fun k (s : BlitState (List LineTally)) => s.y = posY + k ∧
      s.display = List.replicate k (wholeLine (UInt32.ofInt r.lineSize))) ?_ ?_ ⟨by simp, rfl⟩ ?_
    · intro k s hk hs
      obtain ⟨hy, hdisplay⟩ := hs
      obtain ⟨dst, src, hrow⟩ := blitRowBy_wrapped tallyLine displayWidth w r.lineSize (s := s)
        ⟨by omega, by omega⟩
      refine ⟨decide_eq_true (by omega),
        ⟨s.y + 1, dst, src, s.display ++ [wholeLine (UInt32.ofInt r.lineSize)]⟩, ?_, ?_, ?_⟩
      · rw [hrow, tallyLine_eq hsize]
        rfl
      · show s.y + 1 = posY + (k + 1 : Nat)
        omega
      · show s.display ++ _ = _
        rw [hdisplay, List.replicate_succ']
    · intro s hs
      exact decide_eq_false (by omega)
    · unfold loopFuel
      omega
  obtain ⟨s, hrun, -, hdisplay⟩ := hloop
  refine ⟨r, hrange, hsize, ?_⟩
  unfold copyBy
  rw [hrange, ok_bind, hrun, ok_bind, hdisplay]
  rfl

/-- **A copy over any memory** ends in no other faults than its lines. -/
theorem faults_copyBy {E : Fault → Prop} {displayHeight h posY posX : Int} {memory : σ}
    (hheight : FitsInt32 displayHeight) (hposY : FitsInt32 posY)
    (hline : ∀ memory dst src n, Faults E (line memory dst src (UInt32.ofInt (4 * n)))) :
    Faults E (copyBy wrapped line displayWidth displayHeight w h memory posY posX) := by
  obtain ⟨r, m, hrange, hm, hlines⟩ := blitRange_wrapped displayWidth w h posY posX hheight
  have hfirst : ∀ s : BlitState σ, FitsInt32 s.y → s.y < r.nrOfLines → FitsInt32 (s.y + 1) :=
    fun s hs hy => ⟨Int.le_trans hs.1 (by omega), Int.lt_of_le_of_lt hy hlines.2⟩
  unfold copyBy
  rw [hrange]
  refine Faults.bind (faults_pure r) fun _ h => ?_
  cases h
  refine Faults.bind ?_ fun _ _ => faults_pure _
  refine Faults.loop (I := fun s => FitsInt32 s.y) (μ := fun s => (r.nrOfLines - s.y).toNat)
    ?_ ?_ hposY ?_
  · intro s t hs hy ht
    have hlt := of_decide_eq_true hy
    obtain ⟨dst, src, hrow⟩ := blitRowBy_wrapped line displayWidth w r.lineSize (hfirst s hs hlt)
    rw [hrow] at ht
    obtain ⟨_, -, ht⟩ := Exec.result_bind_ok.mp ht
    cases ht
    refine ⟨hfirst s hs hlt, ?_⟩
    show (r.nrOfLines - (s.y + 1)).toNat < (r.nrOfLines - s.y).toNat
    omega
  · intro s hs hy
    have hlt := of_decide_eq_true hy
    obtain ⟨dst, src, hrow⟩ := blitRowBy_wrapped line displayWidth w r.lineSize (hfirst s hs hlt)
    rw [hrow, hm]
    exact (hline _ _ _ _).bind fun _ _ => faults_pure _
  · obtain ⟨hlow, hhigh⟩ := hlines
    obtain ⟨hlow', hhigh'⟩ := hposY
    show (r.nrOfLines - posY).toNat < loopFuel
    unfold loopFuel
    omega

end Rows

/-- **The blit loops end.** Whatever the width and height of the display and of the buffer and the
position are, where expressions wrap around: the size that a copy passes to `blitLine` is one of
whole pixels, a copy with the memory left aside blits as many lines as there are from `posY` to the
row to stop at, and in each of them the counter goes from 0 in steps of 4 to the size and stops
there. With the memory, a copy may leave the display or the buffer, but it does not go on for
ever. -/
theorem blits_end (displayWidth displayHeight w h posY posX : Int32) :
    ∃ r, blitRange wrapped displayWidth.toInt displayHeight.toInt w.toInt h.toInt posY.toInt
        posX.toInt = ⟨[], .ok r⟩ ∧
      (UInt32.ofInt r.lineSize).toNat % 4 = 0 ∧
      copyBy wrapped tallyLine displayWidth.toInt displayHeight.toInt w.toInt h.toInt [] posY.toInt
          posX.toInt =
        ⟨[], .ok (List.replicate (r.nrOfLines - posY.toInt).toNat
          (wholeLine (UInt32.ofInt r.lineSize)))⟩ ∧
      ∀ (blend : Blend) (display : Memory UInt8) (b : ShmBuffer),
        (copyShmBufferToDisplay wrapped blend displayWidth.toInt displayHeight.toInt display
          { b with width := w.toInt, height := h.toInt } posY.toInt posX.toInt).result ≠
            .error .divergence := by
  obtain ⟨r, hrange, hsize, htally⟩ := copyBy_tallyLine displayWidth.toInt w.toInt h.toInt
    posX.toInt (fitsInt32_toInt displayHeight) (fitsInt32_toInt posY)
  refine ⟨r, hrange, hsize, htally, fun blend display b hdiverges => ?_⟩
  have hfaults : Faults (· = .outOfRange) (copyShmBufferToDisplay wrapped blend
      displayWidth.toInt displayHeight.toInt display
      { b with width := w.toInt, height := h.toInt } posY.toInt posX.toInt) :=
    faults_copyBy _ _ _ (fitsInt32_toInt displayHeight) (fitsInt32_toInt posY)
      fun _ _ _ n => faults_clippedLine n
  exact absurd (hfaults .divergence hdiverges) (by decide)

end WaylandTest
