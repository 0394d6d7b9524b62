import Mathlib.Algebra.Group.Nat.Defs
import Mathlib.Algebra.Ring.Int.Defs
import WaylandTest.Lib.Exec
import WaylandTest.Lib.Memory
import WaylandTest.Wayland

/-!
# Blitting a buffer to the display

`Compositor::copyShmBufferToDisplay` with `blitLine` and `alphaBlending`. The `int32_t` expressions
go through `int32`, which says what an expression outside the range does: `checked` makes it a
fault. `blend` is the blend of one byte, of background, foreground and alpha, a parameter here: the
source's, in `float`, is `floatBlend` of `AlphaBlending.lean`.

The two loops are written over any memory: `blitLineBy` and `copyBy` take what is done at each
offset, and to each line, as a parameter. `blitLine` and `copyShmBufferToDisplay` are these over the
display.

`copyShmBufferToDisplay_ok` says what a copy that completes did: every display pixel under the
buffer was blended once with the pixel above it, and nothing else changed. A copy whose position
leads outside the display does not complete, unless it draws nothing.
-/

set_option autoImplicit false

namespace WaylandTest

open Lib

/-- What an `int` expression with the mathematical value `z` evaluates to. -/
abbrev IntRule := Int → Exec Call Fault Int

/-- Signed overflow is a fault. -/
def checked : IntRule := fun z =>
  if -2 ^ 31 ≤ z ∧ z < 2 ^ 31 then pure z else Exec.fail .signedOverflow

/-- The blend of a background byte with a foreground byte under an alpha. -/
abbrev Blend := UInt8 → UInt8 → UInt8 → UInt8

/-- A blend in integers, for runs on fixed inputs. It is the source's where the alpha is 0 or
255. -/
def integerBlend : Blend := fun bg fg alpha =>
  UInt8.ofNat ((bg.toNat * (255 - alpha.toNat) + fg.toNat * alpha.toNat) / 255)

/-- `Compositor::BYTES_PER_PIXEL`. -/
def bytesPerPixel : Int := 4

/-- A counter of 32 bits takes at most so many values: a loop over one that has not ended by then
does not end. -/
def loopFuel : Nat := 2 ^ 32

def loadByte (m : Memory UInt8) (i : Int) : Exec Call Fault UInt8 :=
  .ofOption .outOfRange (m.read i)

def storeByte (m : Memory UInt8) (i : Int) (v : UInt8) : Exec Call Fault (Memory UInt8) :=
  .ofOption .outOfRange (m.write i v)

/-- One round of the loop of `alphaBlending`. -/
def blendByte (blend : Blend) (data : Memory UInt8) (alpha : UInt8) (display : Memory UInt8)
    (bg fg : Int) : Exec Call Fault (Memory UInt8) := do
  let b ← loadByte display bg
  let f ← loadByte data fg
  storeByte display bg (blend b f alpha)

/-- `Compositor::alphaBlending`: `bg` is an offset into the display, `fg` one into the buffer. -/
def alphaBlending (blend : Blend) (data display : Memory UInt8) (bg fg : Int) :
    Exec Call Fault (Memory UInt8) := do
  let alpha ← loadByte data (fg + 3)
  let display ← blendByte blend data alpha display (bg + 0) (fg + 0)
  let display ← blendByte blend data alpha display (bg + 1) (fg + 1)
  blendByte blend data alpha display (bg + 2) (fg + 2)

/-- `Compositor::blitLine`, over `pixel` for the blending at an offset. The last value of the
counter is kept. -/
def blitLineBy {σ : Type} (pixel : σ → UInt32 → Exec Call Fault σ) (size : UInt32) (display : σ) :
    Exec Call Fault (UInt32 × σ) :=
  Exec.loop .divergence (fun s => s.1 < size)
    (fun (i, display) => do
      let display ← pixel display i
      pure (i + 4, display))
    loopFuel ((0 : UInt32), display)

/-- `Compositor::blitLine`. -/
def blitLine (blend : Blend) (data display : Memory UInt8) (dst src : Int) (size : UInt32) :
    Exec Call Fault (Memory UInt8) := do
  let (_, display) ← blitLineBy
    (fun display i => alphaBlending blend data display (dst + i.toNat) (src + i.toNat)) size display
  pure display

/-- The local variables of `copyShmBufferToDisplay` that its loop reads. -/
structure BlitRange where
  lineSize : Int
  nrOfLines : Int
  offsetSrc : Int
  offsetDst : Int
deriving DecidableEq, Repr

/-- The clipping of `copyShmBufferToDisplay` at the left edge: the new `offsetSrc`, `lineSize` and
`posX`. -/
def clipLeft (int32 : IntRule) (lineSize posX : Int) : Exec Call Fault (Int × Int × Int) :=
  if posX < 0 then do
    let left ← int32 (posX * bytesPerPixel)
    let offsetSrc ← int32 (0 - left)
    let lineSize ← int32 (lineSize - offsetSrc)
    pure (offsetSrc, lineSize, 0)
  else
    pure (0, lineSize, posX)

/-- `Compositor::copyShmBufferToDisplay` before its loop. -/
def blitRange (int32 : IntRule) (displayWidth displayHeight w h posY posX : Int) :
    Exec Call Fault BlitRange := do
  let lineSize ← int32 (displayWidth - posX)
  let lineSize ← int32 (if w < lineSize then w * bytesPerPixel else lineSize * bytesPerPixel)
  let bottom ← int32 (posY + h)
  let nrOfLines := if bottom < displayHeight then bottom else displayHeight
  let (offsetSrc, lineSize, posX) ← clipLeft int32 lineSize posX
  let row ← int32 (posY * displayWidth)
  let pixel ← int32 (row + posX)
  let offsetDst ← int32 (pixel * bytesPerPixel)
  pure { lineSize, nrOfLines, offsetSrc, offsetDst }

/-- The variables the loop of `copyShmBufferToDisplay` changes, with the display. -/
structure BlitState (σ : Type) where
  y : Int
  offsetDst : Int
  offsetSrc : Int
  display : σ
deriving DecidableEq, Repr

/-- What stands for `blitLine` over a memory: of the two offsets and the size. -/
abbrev Line (σ : Type) : Type := σ → Int → Int → UInt32 → Exec Call Fault σ

section By

variable {σ : Type} (int32 : IntRule) (line : Line σ)

/-- One round of the loop of `copyShmBufferToDisplay`, over `line` for `blitLine`. -/
def blitRowBy (displayWidth w lineSize : Int) (s : BlitState σ) :
    Exec Call Fault (BlitState σ) := do
  let display ← line s.display s.offsetDst s.offsetSrc (UInt32.ofInt lineSize)
  let rowDst ← int32 (displayWidth * bytesPerPixel)
  let offsetDst ← int32 (s.offsetDst + rowDst)
  let rowSrc ← int32 (w * bytesPerPixel)
  let offsetSrc ← int32 (s.offsetSrc + rowSrc)
  let y ← int32 (s.y + 1)
  pure { y, offsetDst, offsetSrc, display }

/-- `Compositor::copyShmBufferToDisplay`, over `line` for `blitLine`. -/
def copyBy (displayWidth displayHeight w h : Int) (display : σ) (posY posX : Int) :
    Exec Call Fault σ := do
  let r ← blitRange int32 displayWidth displayHeight w h posY posX
  let s ← Exec.loop .divergence (fun s => s.y < r.nrOfLines)
    (blitRowBy int32 line displayWidth w r.lineSize) loopFuel
    { y := posY, offsetDst := r.offsetDst, offsetSrc := r.offsetSrc, display }
  pure s.display

end By

/-- One round of the loop of `copyShmBufferToDisplay`. -/
def blitRow (int32 : IntRule) (blend : Blend) (displayWidth : Int) (b : ShmBuffer)
    (lineSize : Int) (s : BlitState (Memory UInt8)) : Exec Call Fault (BlitState (Memory UInt8)) :=
  blitRowBy int32 (blitLine blend b.data) displayWidth b.width lineSize s

/-- `Compositor::copyShmBufferToDisplay`. -/
def copyShmBufferToDisplay (int32 : IntRule) (blend : Blend) (displayWidth displayHeight : Int)
    (display : Memory UInt8) (b : ShmBuffer) (posY posX : Int) : Exec Call Fault (Memory UInt8) :=
  copyBy int32 (blitLine blend b.data) displayWidth displayHeight b.width b.height display posY posX

theorem integerBlend_covers (bg fg : UInt8) : integerBlend bg fg 255 = fg := by
  have hopaque : (255 : UInt8).toNat = 255 := rfl
  rw [integerBlend, hopaque, Nat.sub_self, Nat.mul_zero, Nat.zero_add,
    Nat.mul_div_cancel _ (by decide), UInt8.ofNat_toNat]

theorem integerBlend_keeps (bg fg : UInt8) : integerBlend bg fg 0 = bg := by
  have hclear : (0 : UInt8).toNat = 0 := rfl
  rw [integerBlend, hclear, Nat.sub_zero, Nat.mul_zero, Nat.add_zero,
    Nat.mul_div_cancel _ (by decide), UInt8.ofNat_toNat]

theorem checked_result {z v : Int} :
    (checked z).result = .ok v ↔ v = z ∧ -2 ^ 31 ≤ z ∧ z < 2 ^ 31 := by
  unfold checked
  split
  · next h =>
    constructor
    · intro hv
      cases hv
      exact ⟨rfl, h⟩
    · rintro ⟨rfl, -⟩
      rfl
  · next h =>
    constructor
    · intro hf
      cases hf
    · exact fun hv => absurd hv.2 h

/-! ## Blitting makes no calls -/

theorem silent_checked (z : Int) : Exec.Silent (checked z) := by
  unfold checked
  split <;> rfl

theorem silent_blendByte (blend : Blend) (data : Memory UInt8) (alpha : UInt8)
    (display : Memory UInt8) (bg fg : Int) :
    Exec.Silent (blendByte blend data alpha display bg fg) :=
  (Exec.silent_ofOption _ _).bind fun _ => (Exec.silent_ofOption _ _).bind fun _ =>
    Exec.silent_ofOption _ _

theorem silent_alphaBlending (blend : Blend) (data display : Memory UInt8) (bg fg : Int) :
    Exec.Silent (alphaBlending blend data display bg fg) :=
  (Exec.silent_ofOption _ _).bind fun _ => (silent_blendByte _ _ _ _ _ _).bind fun _ =>
    (silent_blendByte _ _ _ _ _ _).bind fun _ => silent_blendByte _ _ _ _ _ _

theorem silent_blitLine (blend : Blend) (data display : Memory UInt8) (dst src : Int)
    (size : UInt32) : Exec.Silent (blitLine blend data display dst src size) := by
  refine Exec.Silent.bind (Exec.Silent.loop (fun s => ?_) _ _) fun _ => Exec.silent_pure _
  exact (silent_alphaBlending _ _ _ _ _).bind fun _ => Exec.silent_pure _

theorem silent_clipLeft (lineSize posX : Int) : Exec.Silent (clipLeft checked lineSize posX) := by
  unfold clipLeft
  split
  · exact (silent_checked _).bind fun _ => (silent_checked _).bind fun _ =>
      (silent_checked _).bind fun _ => Exec.silent_pure _
  · exact Exec.silent_pure _

theorem silent_blitRange (displayWidth displayHeight w h posY posX : Int) :
    Exec.Silent (blitRange checked displayWidth displayHeight w h posY posX) :=
  (silent_checked _).bind fun _ => (silent_checked _).bind fun _ => (silent_checked _).bind fun _ =>
    (silent_clipLeft _ _).bind fun _ => (silent_checked _).bind fun _ =>
      (silent_checked _).bind fun _ => (silent_checked _).bind fun _ => Exec.silent_pure _

theorem silent_blitRow (blend : Blend) (displayWidth : Int) (b : ShmBuffer) (lineSize : Int)
    (s : BlitState (Memory UInt8)) :
    Exec.Silent (blitRow checked blend displayWidth b lineSize s) :=
  (silent_blitLine _ _ _ _ _ _).bind fun _ => (silent_checked _).bind fun _ =>
    (silent_checked _).bind fun _ => (silent_checked _).bind fun _ =>
      (silent_checked _).bind fun _ => (silent_checked _).bind fun _ => Exec.silent_pure _

theorem silent_copyShmBufferToDisplay (blend : Blend) (displayWidth displayHeight : Int)
    (display : Memory UInt8) (b : ShmBuffer) (posY posX : Int) :
    Exec.Silent
      (copyShmBufferToDisplay checked blend displayWidth displayHeight display b posY posX) :=
  (silent_blitRange _ _ _ _ _ _).bind fun _ =>
    (Exec.Silent.loop (silent_blitRow _ _ _ _) _ _).bind fun _ => Exec.silent_pure _

/-! ## One pixel -/

/-- A display byte under the buffer bytes at `src` and, for the alpha, at `alpha`. -/
def blended (blend : Blend) (data : Memory UInt8) (src alpha : Int) (old : UInt8) : UInt8 :=
  match data.read src, data.read alpha with
  | some f, some a => blend old f a
  | _, _ => old

section Pixel

variable {blend : Blend} {data display display' : Memory UInt8} {bg fg : Int} {alpha : UInt8}

theorem blendByte_ok
    (h : (blendByte blend data alpha display bg fg).result = .ok display') :
    (0 ≤ bg ∧ bg < display.length) ∧ ∃ f, data.read fg = some f ∧
      Memory.Changed (fun j old => if j = bg then blend old f alpha else old) display display' := by
  obtain ⟨b, hb, h⟩ := Exec.result_bind_ok.mp h
  obtain ⟨f, hf, h⟩ := Exec.result_bind_ok.mp h
  have hread := Exec.ofOption_result_ok.mp hb
  refine ⟨Memory.read_some_range hread, f, Exec.ofOption_result_ok.mp hf, ?_⟩
  refine (Memory.changed_write (Exec.ofOption_result_ok.mp h)).congr fun j old hold => ?_
  by_cases hj : j = bg
  · rw [hj, hread] at hold
    rw [if_pos hj, if_pos hj, Option.some.inj hold]
  · rw [if_neg hj, if_neg hj]

/-- What `alphaBlending` does to the display: its pixel's first three bytes are blended. -/
theorem alphaBlending_ok
    (h : (alphaBlending blend data display bg fg).result = .ok display') :
    (0 ≤ bg ∧ bg + 2 < display.length) ∧ (0 ≤ fg ∧ fg + 3 < data.length) ∧
      Memory.Changed (fun j old => if bg ≤ j ∧ j < bg + 3 then
        blended blend data (fg + (j - bg)) (fg + 3) old else old) display display' := by
  obtain ⟨alpha, halpha, h⟩ := Exec.result_bind_ok.mp h
  obtain ⟨d₀, h₀, h⟩ := Exec.result_bind_ok.mp h
  obtain ⟨d₁, h₁, h₂⟩ := Exec.result_bind_ok.mp h
  obtain ⟨hr₀, f₀, hf₀, hc₀⟩ := blendByte_ok h₀
  obtain ⟨hr₁, f₁, hf₁, hc₁⟩ := blendByte_ok h₁
  obtain ⟨hr₂, f₂, hf₂, hc₂⟩ := blendByte_ok h₂
  have hlen₁ := hc₁.length
  have hlen₀ := hc₀.length
  have ha := Exec.ofOption_result_ok.mp halpha
  have hsrc₀ := Memory.read_some_range hf₀
  have hsrc := Memory.read_some_range ha
  refine ⟨by omega, by omega, ((hc₀.trans hc₁).trans hc₂).congr fun j old _ => ?_⟩
  by_cases hj : bg ≤ j ∧ j < bg + 3
  · rw [if_pos hj]
    have hcases : j = bg + 0 ∨ j = bg + 1 ∨ j = bg + 2 := by omega
    rcases hcases with hj | hj | hj
    · have hsrc : fg + (j - bg) = fg + 0 := by omega
      rw [if_neg (by omega), if_neg (by omega), if_pos hj]
      simp only [blended, ha, hsrc, hf₀]
    · have hsrc : fg + (j - bg) = fg + 1 := by omega
      rw [if_neg (by omega), if_pos hj, if_neg (by omega)]
      simp only [blended, ha, hsrc, hf₁]
    · have hsrc : fg + (j - bg) = fg + 2 := by omega
      rw [if_pos hj, if_neg (by omega), if_neg (by omega)]
      simp only [blended, ha, hsrc, hf₂]
  · rw [if_neg hj, if_neg (by omega), if_neg (by omega), if_neg (by omega)]

end Pixel

/-! ## One line -/

section Line

variable {blend : Blend} {data display display' : Memory UInt8} {dst src : Int} {size : UInt32}

/-- What blitting the first `n` pixels of a line does to the display byte at `j`. -/
def blendedLine (blend : Blend) (data : Memory UInt8) (dst src n j : Int) (old : UInt8) : UInt8 :=
  if dst ≤ j ∧ j < dst + 4 * n ∧ (j - dst) % 4 ≠ 3 then
    blended blend data (src + (j - dst)) (src + 4 * ((j - dst) / 4) + 3) old
  else old

theorem blendedLine_zero {j : Int} {old : UInt8} :
    blendedLine blend data dst src 0 j old = old := by
  unfold blendedLine
  exact if_neg (by omega)

/-- The pixel `n` of a line, after the first `n`. -/
theorem blendedLine_succ {n j : Int} {old : UInt8} (hn : 0 ≤ n) :
    blendedLine blend data dst src (n + 1) j old =
      if dst + 4 * n ≤ j ∧ j < dst + 4 * n + 3 then
        blended blend data (src + 4 * n + (j - (dst + 4 * n))) (src + 4 * n + 3)
          (blendedLine blend data dst src n j old)
      else blendedLine blend data dst src n j old := by
  unfold blendedLine
  by_cases hj : dst + 4 * n ≤ j ∧ j < dst + 4 * n + 3
  · have hsrc : src + 4 * n + (j - (dst + 4 * n)) = src + (j - dst) := by omega
    have halpha : src + 4 * ((j - dst) / 4) + 3 = src + 4 * n + 3 := by omega
    rw [if_pos hj, if_pos (by omega), if_neg (by omega), hsrc, halpha]
  · rw [if_neg hj]
    by_cases hold : dst ≤ j ∧ j < dst + 4 * n ∧ (j - dst) % 4 ≠ 3
    · rw [if_pos hold, if_pos (by omega)]
    · rw [if_neg hold, if_neg (by omega)]

/-- Between two rounds of `blitLine`: `n` pixels are blended, all of them inside the display and the
buffer. -/
structure LineDone (blend : Blend) (data display : Memory UInt8) (dst src : Int) (size : UInt32)
    (s : UInt32 × Memory UInt8) (n : Nat) : Prop where
  counter : s.1.toNat = 4 * n
  inside : 0 < n → 0 ≤ dst ∧ dst + 4 * n ≤ display.length + 1
  readable : 0 < n → 0 ≤ src ∧ src + 4 * n ≤ data.length
  needed : 0 < n → 4 * n < size.toNat + 4
  changed : Memory.Changed (blendedLine blend data dst src n) display s.2

theorem lineDone_start : LineDone blend data display dst src size (0, display) 0 := by
  refine ⟨rfl, by omega, by omega, by omega, (Memory.Changed.refl display).congr fun j old _ => ?_⟩
  exact blendedLine_zero.symm

/-- One round of `blitLine`. The counter does not wrap: the size is one of whole pixels. -/
theorem LineDone.round {s t : UInt32 × Memory UInt8} {n : Nat} (hsize : size.toNat % 4 = 0)
    (hn : LineDone blend data display dst src size s n) (hlt : s.1 < size)
    (h : (alphaBlending blend data s.2 (dst + s.1.toNat) (src + s.1.toNat)).result = .ok t.2)
    (ht : t.1 = s.1 + 4) : LineDone blend data display dst src size t (n + 1) := by
  obtain ⟨hin, hread, hc⟩ := alphaBlending_ok h
  have hcounter := hn.counter
  have hinside := hn.inside
  have hreadable := hn.readable
  have hlen := hn.changed.length
  have hbound := size.toNat_lt
  rw [UInt32.lt_iff_toNat_lt] at hlt
  refine ⟨?_, by omega, by omega, by omega, ?_⟩
  · have h4 : (4 : UInt32).toNat = 4 := rfl
    rw [ht, UInt32.toNat_add]
    omega
  · rw [hcounter] at hc
    refine (hn.changed.trans hc).congr fun j old _ => ?_
    push_cast
    rw [blendedLine_succ (by omega)]

/-- **A line that is blitted to its end** blended its pixels, each once. -/
theorem blitLine_ok (hsize : size.toNat % 4 = 0)
    (h : (blitLine blend data display dst src size).result = .ok display') :
    ∃ n : Nat, size.toNat ≤ 4 * n ∧ (0 < n → 4 * n < size.toNat + 4) ∧
      (0 < n → 0 ≤ dst ∧ dst + 4 * n ≤ display.length + 1) ∧
      (0 < n → 0 ≤ src ∧ src + 4 * n ≤ data.length) ∧
      Memory.Changed (blendedLine blend data dst src n) display display' := by
  obtain ⟨s, hloop, hs⟩ := Exec.result_bind_ok.mp h
  cases hs
  have hround : ∀ s t, (∃ n, LineDone blend data display dst src size s n) →
      decide (s.1 < size) = true →
      ((alphaBlending blend data s.2 (dst + s.1.toNat) (src + s.1.toNat) >>= fun d =>
        pure (s.1 + 4, d) : Exec Call Fault (UInt32 × Memory UInt8))).result = .ok t →
      ∃ n, LineDone blend data display dst src size t n := by
    rintro s t ⟨n, hn⟩ hlt hbody
    obtain ⟨d, hblend, ht⟩ := Exec.result_bind_ok.mp hbody
    cases ht
    exact ⟨n + 1, hn.round hsize (of_decide_eq_true hlt) hblend rfl⟩
  obtain ⟨⟨n, hn⟩, hend⟩ := Exec.loop_induct hround ⟨0, lineDone_start⟩ hloop
  have hge : ¬ s.1 < size := of_decide_eq_false hend
  rw [UInt32.lt_iff_toNat_lt, hn.counter] at hge
  exact ⟨n, by omega, hn.needed, hn.inside, hn.readable, hn.changed⟩

/-- A line, of whatever size, stays in the display. -/
theorem length_blitLine (h : (blitLine blend data display dst src size).result = .ok display') :
    display'.length = display.length := by
  obtain ⟨s, hloop, hs⟩ := Exec.result_bind_ok.mp h
  cases hs
  refine (Exec.loop_induct (I := fun s => s.2.length = display.length) ?_ rfl hloop).1
  intro s t hs _ hbody
  obtain ⟨d, hblend, ht⟩ := Exec.result_bind_ok.mp hbody
  cases ht
  exact (alphaBlending_ok hblend).2.2.length.trans hs

end Line

/-! ## The clipping -/

/-- The range of a buffer at a position, without overflow: the columns it shares with the display,
and the rows from its first to the last one it shares with the display. -/
def clippedRange (displayWidth displayHeight w h posY posX : Int) : BlitRange where
  lineSize := 4 * (min w (displayWidth - posX) - max 0 (-posX))
  nrOfLines := min (posY + h) displayHeight
  offsetSrc := 4 * max 0 (-posX)
  offsetDst := 4 * (posY * displayWidth + max 0 posX)

/-- The value fits an `int32_t`. -/
def FitsInt32 (z : Int) : Prop := -2 ^ 31 ≤ z ∧ z < 2 ^ 31

theorem clipLeft_result {lineSize posX : Int} {c : Int × Int × Int} :
    (clipLeft checked lineSize posX).result = .ok c ↔
      c = (4 * max 0 (-posX), lineSize - 4 * max 0 (-posX), max 0 posX) ∧
        (posX < 0 → FitsInt32 (4 * posX) ∧ FitsInt32 (-(4 * posX)) ∧
          FitsInt32 (lineSize + 4 * posX)) := by
  unfold clipLeft bytesPerPixel FitsInt32
  by_cases hpos : posX < 0
  · have hl : 4 * max 0 (-posX) = 0 - posX * 4 := by omega
    have hr : max 0 posX = 0 := by omega
    rw [if_pos hpos, hl, hr]
    simp only [Exec.result_bind_ok, checked_result]
    constructor
    · rintro ⟨_, ⟨rfl, hleft⟩, _, ⟨rfl, hsrc⟩, _, ⟨rfl, hsize⟩, hret⟩
      cases hret
      exact ⟨rfl, fun _ => by omega⟩
    · rintro ⟨rfl, h⟩
      have hfits := h hpos
      exact ⟨_, ⟨rfl, by omega⟩, _, ⟨rfl, by omega⟩, _, ⟨rfl, by omega⟩, rfl⟩
  · have hl : max 0 (-posX) = 0 := by omega
    have hr : max 0 posX = posX := by omega
    rw [if_neg hpos, hl, hr]
    simp only [hpos, false_implies, and_true, Int.mul_zero, Int.sub_zero, Exec.pure_def,
      Except.ok.injEq, eq_comm]

/-- The `int32_t` expressions of `copyShmBufferToDisplay` before its loop fit. -/
structure RangeFits (displayWidth w h posY posX : Int) : Prop where
  space : FitsInt32 (displayWidth - posX)
  line : FitsInt32 (4 * min w (displayWidth - posX))
  bottom : FitsInt32 (posY + h)
  left : posX < 0 → FitsInt32 (4 * posX) ∧ FitsInt32 (-(4 * posX)) ∧
    FitsInt32 (4 * min w (displayWidth - posX) + 4 * posX)
  row : FitsInt32 (posY * displayWidth)
  pixel : FitsInt32 (posY * displayWidth + max 0 posX)
  offset : FitsInt32 (4 * (posY * displayWidth + max 0 posX))

/-- **The clipping** ends in `clippedRange`, if its expressions fit. -/
theorem blitRange_result {displayWidth displayHeight w h posY posX : Int} {r : BlitRange} :
    (blitRange checked displayWidth displayHeight w h posY posX).result = .ok r ↔
      r = clippedRange displayWidth displayHeight w h posY posX ∧
        RangeFits displayWidth w h posY posX := by
  have hmin : (if w < displayWidth - posX then w * bytesPerPixel
      else (displayWidth - posX) * bytesPerPixel) = 4 * min w (displayWidth - posX) := by
    unfold bytesPerPixel
    split <;> omega
  have hbot : (if posY + h < displayHeight then posY + h else displayHeight) =
      min (posY + h) displayHeight := by
    split <;> omega
  have hdst : (posY * displayWidth + max 0 posX) * bytesPerPixel =
      4 * (posY * displayWidth + max 0 posX) := Int.mul_comm _ _
  unfold blitRange clippedRange
  simp only [Exec.result_bind_ok, checked_result, clipLeft_result]
  constructor
  · rintro ⟨_, ⟨rfl, hspace⟩, _, ⟨rfl, hline⟩, _, ⟨rfl, hbottom⟩, _, ⟨rfl, hleft⟩, _, ⟨rfl, hrow⟩,
      _, ⟨rfl, hpixel⟩, _, ⟨rfl, hoffset⟩, hret⟩
    cases hret
    rw [hmin] at hline hleft ⊢
    rw [hdst] at hoffset ⊢
    rw [hbot, Int.mul_sub]
    exact ⟨rfl, hspace, hline, hbottom, hleft, hrow, hpixel, hoffset⟩
  · rintro ⟨rfl, hspace, hline, hbottom, hleft, hrow, hpixel, hoffset⟩
    refine ⟨_, ⟨rfl, hspace⟩, _, ⟨rfl, ?_⟩, _, ⟨rfl, hbottom⟩, _, ⟨rfl, ?_⟩, _, ⟨rfl, hrow⟩, _,
      ⟨rfl, hpixel⟩, _, ⟨rfl, ?_⟩, ?_⟩
    · rw [hmin]
      exact hline
    · rw [hmin]
      exact hleft
    · rw [hdst]
      exact hoffset
    · rw [hmin, hbot, hdst, Int.mul_sub]
      rfl

/-- The line length fits, before it is converted. -/
theorem RangeFits.lineSize {displayWidth displayHeight w h posY posX : Int}
    (hr : RangeFits displayWidth w h posY posX) :
    FitsInt32 (clippedRange displayWidth displayHeight w h posY posX).lineSize := by
  have hline := hr.line
  have hleft := hr.left
  unfold clippedRange FitsInt32 at *
  by_cases hpos : posX < 0
  · have hfits := (hleft hpos).2.2
    simp only
    omega
  · simp only
    omega

/-! ## The rows -/

section Rows

variable {σ : Type} {line : Line σ}
  {displayWidth displayHeight w h posY posX lineSize : Int} {s t : BlitState σ}

/-- What a row that completes did: its line, and the next offsets, which fit. -/
theorem blitRowBy_ok (ht : (blitRowBy checked line displayWidth w lineSize s).result = .ok t) :
    (line s.display s.offsetDst s.offsetSrc (UInt32.ofInt lineSize)).result = .ok t.display ∧
      t.y = s.y + 1 ∧
      (t.offsetDst = s.offsetDst + 4 * displayWidth ∧ FitsInt32 t.offsetDst) ∧
      t.offsetSrc = s.offsetSrc + 4 * w ∧ FitsInt32 t.offsetSrc := by
  obtain ⟨d, hline, ht⟩ := Exec.result_bind_ok.mp ht
  obtain ⟨_, hrow, ht⟩ := Exec.result_bind_ok.mp ht
  obtain ⟨rfl, -⟩ := checked_result.mp hrow
  obtain ⟨_, hdst, ht⟩ := Exec.result_bind_ok.mp ht
  obtain ⟨rfl, hfitsDst⟩ := checked_result.mp hdst
  obtain ⟨_, hrow, ht⟩ := Exec.result_bind_ok.mp ht
  obtain ⟨rfl, -⟩ := checked_result.mp hrow
  obtain ⟨_, hsrc, ht⟩ := Exec.result_bind_ok.mp ht
  obtain ⟨rfl, hfitsSrc⟩ := checked_result.mp hsrc
  obtain ⟨_, hnext, ht⟩ := Exec.result_bind_ok.mp ht
  obtain ⟨rfl, -⟩ := checked_result.mp hnext
  cases ht
  unfold bytesPerPixel at *
  rw [Int.mul_comm 4, Int.mul_comm 4]
  exact ⟨hline, rfl, ⟨rfl, hfitsDst⟩, rfl, hfitsSrc⟩

/-- What each line keeps of the memory, a copy keeps, whatever its expressions do. -/
theorem copyBy_keeps {int32 : IntRule} {J : σ → Prop} {display display' : σ}
    (hline : ∀ d dst src size d', J d → (line d dst src size).result = .ok d' → J d')
    (hJ : J display)
    (hcopy : (copyBy int32 line displayWidth displayHeight w h display posY posX).result =
      .ok display') : J display' := by
  obtain ⟨r, -, hcopy⟩ := Exec.result_bind_ok.mp hcopy
  obtain ⟨s, hloop, hs⟩ := Exec.result_bind_ok.mp hcopy
  cases hs
  refine (Exec.loop_induct (I := fun s => J s.display) ?_ hJ hloop).1
  intro s t hs _ hrow
  obtain ⟨d, hd, hrow⟩ := Exec.result_bind_ok.mp hrow
  obtain ⟨_, -, hrow⟩ := Exec.result_bind_ok.mp hrow
  obtain ⟨_, -, hrow⟩ := Exec.result_bind_ok.mp hrow
  obtain ⟨_, -, hrow⟩ := Exec.result_bind_ok.mp hrow
  obtain ⟨_, -, hrow⟩ := Exec.result_bind_ok.mp hrow
  obtain ⟨_, -, hrow⟩ := Exec.result_bind_ok.mp hrow
  cases hrow
  exact hline _ _ _ _ _ hs hd

/-- The state of the loop before its first row. -/
def firstRow (displayWidth : Int) (display : σ) (posY posX : Int) : BlitState σ where
  y := posY
  offsetDst := 4 * (posY * displayWidth + max 0 posX)
  offsetSrc := 4 * max 0 (-posX)
  display := display

/-- Between two rows of a copy over any memory: the offsets are those of the row `s.y`, and they fit
after each row. -/
structure RowsCounted (displayWidth displayHeight w h posY posX : Int) (s : BlitState σ) :
    Prop where
  first : posY ≤ s.y
  last : s.y ≤ max posY (min (posY + h) displayHeight)
  offsetDst : s.offsetDst = 4 * (s.y * displayWidth + max 0 posX)
  offsetSrc : s.offsetSrc = 4 * ((s.y - posY) * w + max 0 (-posX))
  fits : posY < s.y → FitsInt32 s.offsetDst ∧ FitsInt32 s.offsetSrc

theorem rowsCounted_start {display : σ} :
    RowsCounted displayWidth displayHeight w h posY posX
      (firstRow displayWidth display posY posX) := by
  refine ⟨Int.le_refl _, Int.le_max_left _ _, rfl, ?_, fun h => absurd h (Int.lt_irrefl _)⟩
  show 4 * max 0 (-posX) = 4 * ((posY - posY) * w + max 0 (-posX))
  rw [Int.sub_self, Int.zero_mul, Int.zero_add]

/-- One row more. -/
theorem RowsCounted.row (hs : RowsCounted displayWidth displayHeight w h posY posX s)
    (hy : s.y < min (posY + h) displayHeight)
    (ht : (blitRowBy checked line displayWidth w lineSize s).result = .ok t) :
    RowsCounted displayWidth displayHeight w h posY posX t := by
  obtain ⟨-, hnext, ⟨hdst, hfitsDst⟩, hsrc, hfitsSrc⟩ := blitRowBy_ok ht
  have hfirst := hs.first
  refine ⟨by omega, by omega, ?_, ?_, fun _ => ⟨hfitsDst, hfitsSrc⟩⟩
  · rw [hdst, hnext, hs.offsetDst, Int.add_mul]
    omega
  · have hshift : s.y + 1 - posY = s.y - posY + 1 := by omega
    rw [hsrc, hnext, hs.offsetSrc, hshift, Int.add_mul]
    omega

/-- **The rows of a copy over any memory that completes** are all counted, from expressions that
fit, and keep what each of them keeps. -/
theorem copyBy_rows {I : BlitState σ → Prop} {display display' : σ}
    (keep : ∀ s t, FitsInt32 (clippedRange displayWidth displayHeight w h posY posX).lineSize →
      RowsCounted displayWidth displayHeight w h posY posX s → I s →
      s.y < min (posY + h) displayHeight →
      (blitRowBy checked line displayWidth w
        (clippedRange displayWidth displayHeight w h posY posX).lineSize s).result = .ok t → I t)
    (hI : I (firstRow displayWidth display posY posX))
    (hcopy : (copyBy checked line displayWidth displayHeight w h display posY posX).result =
      .ok display') :
    RangeFits displayWidth w h posY posX ∧
      ∃ s : BlitState σ, RowsCounted displayWidth displayHeight w h posY posX s ∧ I s ∧
        ¬ s.y < min (posY + h) displayHeight ∧ s.display = display' := by
  obtain ⟨r, hr, hcopy⟩ := Exec.result_bind_ok.mp hcopy
  obtain ⟨rfl, hfits⟩ := blitRange_result.mp hr
  obtain ⟨s, hloop, hs⟩ := Exec.result_bind_ok.mp hcopy
  cases hs
  obtain ⟨⟨hdone, hkept⟩, hend⟩ := Exec.loop_induct
    (I := fun s => RowsCounted displayWidth displayHeight w h posY posX s ∧ I s)
    (fun s t hs hy ht => ⟨hs.1.row (of_decide_eq_true hy) ht,
      keep s t hfits.lineSize hs.1 hs.2 (of_decide_eq_true hy) ht⟩)
    ⟨rowsCounted_start, hI⟩ hloop
  exact ⟨hfits, s, hdone, hkept, of_decide_eq_false hend, rfl⟩

end Rows

/-! ## The copy -/

/-- A buffer of four bytes a pixel, its rows next to each other. -/
structure ShmBuffer.Packed (b : ShmBuffer) : Prop where
  width : 0 < b.width
  height : 0 < b.height
  stride : b.stride = 4 * b.width
  bytes : b.data.length = b.stride * b.height

instance (b : ShmBuffer) : Decidable b.Packed :=
  decidable_of_iff (0 < b.width ∧ 0 < b.height ∧ b.stride = 4 * b.width ∧
      b.data.length = b.stride * b.height)
    ⟨fun ⟨h₁, h₂, h₃, h₄⟩ => ⟨h₁, h₂, h₃, h₄⟩, fun h => ⟨h.width, h.height, h.stride, h.bytes⟩⟩

/-- Byte `k` of the pixel in column `i` and row `j` of a buffer. -/
def ShmBuffer.byte (b : ShmBuffer) (i j k : Int) : UInt8 :=
  (Memory.read b.data (j * b.stride + 4 * i + k)).getD 0

/-- The pixel `(x, y)` of the display is under a buffer at `(posX, posY)`. -/
def ShmBuffer.Covers (b : ShmBuffer) (posY posX x y : Int) : Prop :=
  (0 ≤ x - posX ∧ x - posX < b.width) ∧ 0 ≤ y - posY ∧ y - posY < b.height

instance (b : ShmBuffer) (posY posX x y : Int) : Decidable (b.Covers posY posX x y) :=
  inferInstanceAs (Decidable (_ ∧ _))

/-- Byte `k` of the display pixel `(x, y)` with a buffer over it: its first three bytes are blended
with the pixel above. -/
def ShmBuffer.painted (blend : Blend) (b : ShmBuffer) (posY posX x y k : Int) (old : UInt8) :
    UInt8 :=
  if b.Covers posY posX x y ∧ k ≠ 3 then
    blend old (b.byte (x - posX) (y - posY) k) (b.byte (x - posX) (y - posY) 3)
  else old

/-- The column, the row and the byte of an offset into the display. -/
theorem pixel_offset {width x y k : Int} (hx : 0 ≤ x ∧ x < width) (hk : 0 ≤ k ∧ k < 4) :
    (4 * (y * width + x) + k) / 4 % width = x ∧ (4 * (y * width + x) + k) / 4 / width = y ∧
      (4 * (y * width + x) + k) % 4 = k := by
  have hpixel : (4 * (y * width + x) + k) / 4 = y * width + x := by omega
  have hpos : width ≠ 0 := by omega
  rw [hpixel]
  refine ⟨?_, ?_, by omega⟩
  · rw [Int.add_comm, Int.add_mul_emod_self_right, Int.emod_eq_of_lt hx.1 hx.2]
  · rw [Int.add_comm, Int.add_mul_ediv_right _ _ hpos, Int.ediv_eq_zero_of_lt hx.1 hx.2,
      Int.zero_add]

section Copy

variable {blend : Blend} {displayWidth displayHeight : Int} {display display' : Memory UInt8}
  {b : ShmBuffer} {posY posX : Int}

/-- `ShmBuffer.painted` at the pixel and the byte that the offset `j` into the display is. -/
def paintedAt (blend : Blend) (displayWidth : Int) (b : ShmBuffer) (posY posX j : Int) :
    UInt8 → UInt8 :=
  b.painted blend posY posX (j / 4 % displayWidth) (j / 4 / displayWidth) (j % 4)

/-- With the rows next to each other, a byte is where its row and column put it. -/
theorem ShmBuffer.read_byte (hstride : b.stride = 4 * b.width) {i j k : Int}
    (hlo : 0 ≤ 4 * (j * b.width + i) + k) (hhi : 4 * (j * b.width + i) + k < b.data.length) :
    Memory.read b.data (4 * (j * b.width + i) + k) = some (b.byte i j k) := by
  have hoffset : j * b.stride + 4 * i + k = 4 * (j * b.width + i) + k := by
    rw [hstride, Int.mul_left_comm]
    omega
  obtain ⟨v, hv⟩ := Memory.exists_read hlo hhi
  unfold ShmBuffer.byte
  rw [hoffset, hv, Option.getD_some]

/-- **One row of the buffer**: its line, cut at both edges of the display, paints the display's row
`y` and nothing else. -/
theorem blendedLine_row (hstride : b.stride = 4 * b.width) {y j : Int} {old : UInt8}
    (hw : 0 < displayWidth) (hy : posY ≤ y ∧ y < posY + b.height)
    (hread : 0 < min b.width (displayWidth - posX) - max 0 (-posX) →
      0 ≤ 4 * ((y - posY) * b.width + max 0 (-posX)) ∧
        4 * ((y - posY) * b.width + max 0 (-posX)) +
          4 * (min b.width (displayWidth - posX) - max 0 (-posX)) ≤ b.data.length) :
    blendedLine blend b.data (4 * (y * displayWidth + max 0 posX))
        (4 * ((y - posY) * b.width + max 0 (-posX)))
        (min b.width (displayWidth - posX) - max 0 (-posX)) j old =
      if j / 4 / displayWidth = y then paintedAt blend displayWidth b posY posX j old
      else old := by
  have hsplit : j / 4 = displayWidth * (j / 4 / displayWidth) + j / 4 % displayWidth :=
    (Int.mul_ediv_add_emod _ _).symm
  have hx : 0 ≤ j / 4 % displayWidth ∧ j / 4 % displayWidth < displayWidth :=
    ⟨Int.emod_nonneg _ (by omega), Int.emod_lt_of_pos _ hw⟩
  unfold blendedLine
  by_cases hrow : j / 4 / displayWidth = y
  · rw [if_pos hrow]
    unfold paintedAt ShmBuffer.painted ShmBuffer.Covers
    rw [hrow] at hsplit ⊢
    rw [Int.mul_comm] at hsplit
    generalize j / 4 % displayWidth = x at hsplit hx ⊢
    by_cases hc : ((0 ≤ x - posX ∧ x - posX < b.width) ∧ 0 ≤ y - posY ∧ y - posY < b.height) ∧
        j % 4 ≠ 3
    · rw [if_pos hc, if_pos (by omega)]
      have hsrc : 4 * ((y - posY) * b.width + max 0 (-posX)) +
          (j - 4 * (y * displayWidth + max 0 posX)) =
            4 * ((y - posY) * b.width + (x - posX)) + j % 4 := by omega
      have halpha : 4 * ((y - posY) * b.width + max 0 (-posX)) +
          4 * ((j - 4 * (y * displayWidth + max 0 posX)) / 4) + 3 =
            4 * ((y - posY) * b.width + (x - posX)) + 3 := by omega
      have hin := hread (by omega)
      unfold blended
      rw [hsrc, halpha, ShmBuffer.read_byte hstride (by omega) (by omega),
        ShmBuffer.read_byte hstride (by omega) (by omega)]
    · rw [if_neg hc, if_neg (by omega)]
  · rw [if_neg hrow, if_neg]
    rintro ⟨hlo, hhi, -⟩
    refine hrow ?_
    have hle : y ≤ j / 4 / displayWidth := (Int.le_ediv_iff_mul_le hw).mpr (by omega)
    have hlt : j / 4 / displayWidth < y + 1 := by
      rw [Int.ediv_lt_iff_lt_mul hw, Int.add_mul]
      omega
    omega

/-- Between two rows: the rows above `s.y` are painted, and what the last row read was there. -/
structure RowsDone (blend : Blend) (displayWidth displayHeight : Int) (display : Memory UInt8)
    (b : ShmBuffer) (posY posX : Int) (s : BlitState (Memory UInt8)) : Prop
    extends RowsCounted displayWidth displayHeight b.width b.height posY posX s where
  readable : posY < s.y → 0 < min b.width (displayWidth - posX) - max 0 (-posX) →
    s.offsetSrc - 4 * b.width + 4 * (min b.width (displayWidth - posX) - max 0 (-posX)) ≤
      b.data.length
  changed : Memory.Changed (fun j old => if j / 4 / displayWidth < s.y then
    paintedAt blend displayWidth b posY posX j old else old) display s.display

/-- A byte above the buffer is not painted. -/
theorem paintedAt_above {j : Int} {old : UInt8} (hj : j / 4 / displayWidth < posY) :
    paintedAt blend displayWidth b posY posX j old = old := by
  unfold paintedAt ShmBuffer.painted ShmBuffer.Covers
  exact if_neg (by omega)

/-- A byte below the buffer is not painted. -/
theorem paintedAt_below {j : Int} {old : UInt8} (hj : posY + b.height ≤ j / 4 / displayWidth) :
    paintedAt blend displayWidth b posY posX j old = old := by
  unfold paintedAt ShmBuffer.painted ShmBuffer.Covers
  exact if_neg (by omega)

theorem rowsDone_start : RowsDone blend displayWidth displayHeight display b posY posX
    (firstRow displayWidth display posY posX) := by
  refine ⟨rowsCounted_start, fun h => absurd h (Int.lt_irrefl _),
    (Memory.Changed.refl display).congr fun j old _ => ?_⟩
  show old = if j / 4 / displayWidth < posY then _ else _
  split
  · next hj => exact (paintedAt_above hj).symm
  · rfl

/-- The conversion of an `int32_t` to a `uint32_t`. -/
theorem toNat_ofInt (z : Int) : (UInt32.ofInt z).toNat = (z % 2 ^ 32).toNat := by
  unfold UInt32.ofInt
  rw [UInt32.toNat_ofNat']
  omega

/-- The conversion of a line length keeps whole pixels. -/
theorem toNat_ofInt_pixels (n : Int) : (UInt32.ofInt (4 * n)).toNat % 4 = 0 := by
  rw [toNat_ofInt]
  omega

/-- A line that comes to its end has as many pixels as the clipping left, all inside both. A
negative length is converted to one that leads outside the display, where the display is small. -/
theorem clippedLine_ok {dst src n : Int} (small : n < 0 → (display.length : Int) + 1 < 2 ^ 31)
    (hn : FitsInt32 (4 * n))
    (h : (blitLine blend b.data display dst src (UInt32.ofInt (4 * n))).result = .ok display') :
    0 ≤ n ∧ (0 < n → 0 ≤ dst ∧ dst + 4 * n ≤ display.length + 1) ∧
      (0 < n → 0 ≤ src ∧ src + 4 * n ≤ b.data.length) ∧
      Memory.Changed (blendedLine blend b.data dst src n) display display' := by
  obtain ⟨k, hk, hk', hin, hread, hc⟩ := blitLine_ok (toNat_ofInt_pixels n) h
  rw [toNat_ofInt] at hk hk'
  unfold FitsInt32 at hn
  by_cases hneg : n < 0
  · have hlen := small hneg
    omega
  · have hkn : (k : Int) = n := by omega
    rw [← hkn]
    exact ⟨by omega, fun hpos => hin (by omega), fun hpos => hread (by omega), hc⟩

/-- One row of `copyShmBufferToDisplay`. -/
theorem RowsDone.row (hstride : b.stride = 4 * b.width) (hw : 0 < displayWidth) {lineSize : Int}
    {s t : BlitState (Memory UInt8)}
    (small : lineSize < 0 → (display.length : Int) + 1 < 2 ^ 31)
    (hline : lineSize = 4 * (min b.width (displayWidth - posX) - max 0 (-posX)))
    (hrange : FitsInt32 lineSize)
    (hs : RowsDone blend displayWidth displayHeight display b posY posX s)
    (hy : s.y < min (posY + b.height) displayHeight)
    (h : (blitRow checked blend displayWidth b lineSize s).result = .ok t) :
    RowsDone blend displayWidth displayHeight display b posY posX t := by
  obtain ⟨hblit, hnext, -, hsrc, -⟩ := blitRowBy_ok h
  subst hline
  have hlen := hs.changed.length
  have hfirst := hs.first
  obtain ⟨-, -, hread, hc⟩ :=
    clippedLine_ok (fun hn => by rw [hlen]; exact small (by omega)) hrange hblit
  have hread' := hread
  rw [hs.offsetSrc] at hread'
  rw [hs.offsetDst, hs.offsetSrc] at hc
  refine ⟨hs.toRowsCounted.row hy h, fun _ hn => ?_, (hs.changed.trans hc).congr fun j old _ => ?_⟩
  · have hlast := (hread hn).2
    omega
  · rw [blendedLine_row hstride hw ⟨hs.first, by omega⟩ hread', hnext]
    by_cases hlt : j / 4 / displayWidth < s.y
    · rw [if_neg (by omega), if_pos hlt, if_pos (by omega)]
    · rw [if_neg hlt]
      by_cases heq : j / 4 / displayWidth = s.y
      · rw [if_pos heq, if_pos (by omega)]
      · rw [if_neg heq, if_neg (by omega)]

/-- **The rows of a copy that completes** are all done, from expressions that fit. -/
theorem copyShmBufferToDisplay_rows (hstride : b.stride = 4 * b.width) (hw : 0 < displayWidth)
    (small : min b.width (displayWidth - posX) < max 0 (-posX) →
      (display.length : Int) + 1 < 2 ^ 31)
    (h : (copyShmBufferToDisplay checked blend displayWidth displayHeight display b posY
      posX).result = .ok display') :
    RangeFits displayWidth b.width b.height posY posX ∧
      ∃ s, RowsDone blend displayWidth displayHeight display b posY posX s ∧
        ¬ s.y < min (posY + b.height) displayHeight ∧ s.display = display' := by
  obtain ⟨hfits, s, -, hdone, hend⟩ := copyBy_rows
    (I := RowsDone blend displayWidth displayHeight display b posY posX)
    (fun s t hrange _ hs hy ht => hs.row hstride hw (fun hneg => small (by omega)) rfl hrange hy ht)
    rowsDone_start h
  exact ⟨hfits, s, hdone, hend⟩

/-- **A copy that completes** painted the pixels of the display that are under the buffer, each
once, and nothing else. -/
theorem copyShmBufferToDisplay_ok (hstride : b.stride = 4 * b.width) (hw : 0 < displayWidth)
    (hsize : display.length = 4 * displayWidth * displayHeight)
    (small : min b.width (displayWidth - posX) < max 0 (-posX) →
      4 * displayWidth * displayHeight < 2 ^ 31)
    (h : (copyShmBufferToDisplay checked blend displayWidth displayHeight display b posY
      posX).result = .ok display') :
    Memory.Changed (paintedAt blend displayWidth b posY posX) display display' := by
  rw [Int.mul_assoc] at hsize small
  obtain ⟨-, s, hdone, hstop, rfl⟩ := copyShmBufferToDisplay_rows hstride hw
    (fun hneg => by have hsmall := small hneg; omega) h
  refine hdone.changed.congr fun j old hold => ?_
  have hj := Memory.read_some_range hold
  have hbottom : j / 4 / displayWidth < displayHeight := by
    rw [Int.ediv_lt_iff_lt_mul hw, Int.mul_comm]
    omega
  by_cases hlt : j / 4 / displayWidth < s.y
  · rw [if_pos hlt]
  · rw [if_neg hlt]
    exact (paintedAt_below (by omega)).symm

end Copy

end WaylandTest
