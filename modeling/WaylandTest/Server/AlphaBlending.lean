import WaylandTest.Lib.Rounding
import WaylandTest.Server.Blit

/-!
# The arithmetic of a blend

`Compositor::alphaBlending` computes in `float`. `floatBlend` is that computation: every operation
is rounded to binary32, in the order of the source, and the result is truncated to a byte. The rest
of the development has the blend as a parameter; here the parameter gets its value.

`floatBlend_toNat` says how far the blend is off: it is the exact blend rounded down, or one less
where the exact blend is an integer. So white over white may come out darker, but never brighter.
-/

set_option autoImplicit false

namespace WaylandTest

open Lib

/-- The type `float`. -/
def binary32 : FloatFormat where
  precision := 24
  emin := -149

/-- `static_cast<u_int8_t>` of a `float`: truncation, which is undefined where a byte does not hold
the result. -/
def byteOfFloat (v : ℚ) : Option UInt8 :=
  if -1 < v ∧ v < 256 then some (UInt8.ofNat ⌊v⌋.toNat) else none

/-- `alphaBg`: `(255 - *(fg + 3)) / 255.f`. -/
def alphaBg (alpha : UInt8) : ℚ := binary32.round ((255 - alpha.toNat) / 255)

/-- `alphaFg`: `1.f - alphaBg`. -/
def alphaFg (alpha : UInt8) : ℚ := binary32.round (1 - alphaBg alpha)

/-- `bg[i] * alphaBg + fg[i] * alphaFg`. -/
def weightedSum (bg fg alpha : UInt8) : ℚ :=
  binary32.round (binary32.round (bg.toNat * alphaBg alpha) +
    binary32.round (fg.toNat * alphaFg alpha))

/-- What `alphaBlending` stores in a byte, if that is defined. -/
def floatBlend? (bg fg alpha : UInt8) : Option UInt8 := byteOfFloat (weightedSum bg fg alpha)

/-- The blend of the source. By `floatBlend?_eq` the default is never taken. -/
def floatBlend : Blend := fun bg fg alpha => (floatBlend? bg fg alpha).getD 0

/-! ## The weights -/

theorem round_byte {n : ℤ} (h0 : 0 ≤ n) (hn : n < 256) : binary32.round n = n := by
  refine FloatFormat.round_intCast (by decide) (by decide) ?_
  rw [abs_of_nonneg h0]
  exact hn.trans (by decide)

/-- An operation with a result below 2 is off by `2 ^ -24` at most. -/
theorem abs_round_weight {x : ℚ} (h0 : 0 ≤ x) (hx : x < 2) :
    |binary32.round x - x| ≤ 1 / 2 ^ 24 := by
  have h := FloatFormat.abs_round_sub_le (F := binary32) (k := 1) (x := x) (by decide)
    (by rwa [abs_of_nonneg h0, zpow_one]) (by decide)
  refine h.trans (le_of_eq ?_)
  norm_num [binary32]

/-- An operation with a result below 512 is off by `2 ^ -16` at most. -/
theorem abs_round_sum {x : ℚ} (h0 : 0 ≤ x) (hx : x < 512) :
    |binary32.round x - x| ≤ 1 / 2 ^ 16 := by
  have h := FloatFormat.abs_round_sub_le (F := binary32) (k := 9) (x := x) (by decide)
    (by rw [abs_of_nonneg h0]; norm_num; exact hx) (by decide)
  refine h.trans (le_of_eq ?_)
  norm_num [binary32]

section Weights

variable (alpha : UInt8)

theorem alpha_le : (alpha.toNat : ℚ) ≤ 255 := by
  have h := alpha.toNat_lt
  exact_mod_cast Nat.le_of_lt_succ h

theorem alphaBg_clear : alphaBg 0 = 1 := by
  have h := round_byte (n := 1) (by decide) (by decide)
  rw [alphaBg, UInt8.toNat_zero, Nat.cast_zero, sub_zero, div_self (by norm_num)]
  exact_mod_cast h

theorem alphaBg_error : |alphaBg alpha - (255 - alpha.toNat) / 255| ≤ 1 / 2 ^ 24 := by
  have h := alpha_le alpha
  refine abs_round_weight (div_nonneg (by linarith) (by norm_num)) ?_
  rw [div_lt_iff₀ (by norm_num)]
  have h0 := alpha.toNat.cast_nonneg (α := ℚ)
  linarith

theorem alphaBg_nonneg : 0 ≤ alphaBg alpha := by
  have h := alpha_le alpha
  exact FloatFormat.round_nonneg (div_nonneg (by linarith) (by norm_num))

/-- The background's weight is 1 for a clear foreground and clearly less for any other. -/
theorem alphaBg_le_one : alphaBg alpha ≤ 1 := by
  rcases Nat.eq_zero_or_pos alpha.toNat with h | h
  · rw [show alpha = 0 from UInt8.toNat_inj.mp h, alphaBg_clear]
  · have hone : (1 : ℚ) ≤ alpha.toNat := by exact_mod_cast h
    have herr := (abs_le.mp (alphaBg_error alpha)).2
    have hweight : ((255 : ℚ) - alpha.toNat) / 255 ≤ 254 / 255 :=
      div_le_div_of_nonneg_right (by linarith) (by norm_num)
    norm_num at herr hweight ⊢
    linarith

theorem alphaFg_error : |alphaFg alpha - alpha.toNat / 255| ≤ 1 / 2 ^ 23 := by
  have hround : |alphaFg alpha - (1 - alphaBg alpha)| ≤ 1 / 2 ^ 24 :=
    abs_round_weight (sub_nonneg.mpr (alphaBg_le_one alpha)) (by
      have h := alphaBg_nonneg alpha
      linarith)
  have hbg := abs_le.mp (alphaBg_error alpha)
  have hfg := abs_le.mp hround
  have hsplit : ((255 : ℚ) - alpha.toNat) / 255 = 1 - alpha.toNat / 255 := by
    rw [sub_div, div_self (by norm_num)]
  rw [hsplit] at hbg
  rw [abs_le]
  constructor <;> norm_num at hbg hfg ⊢ <;> linarith

theorem alphaFg_nonneg : 0 ≤ alphaFg alpha :=
  FloatFormat.round_nonneg (sub_nonneg.mpr (alphaBg_le_one alpha))

end Weights

/-! ## The sum -/

/-- A product of a byte and a weight, rounded. -/
theorem term_error (byte : UInt8) {w w' e : ℚ} (he : e ≤ 1 / 2 ^ 10) (hw : 0 ≤ w) (hw' : w' ≤ 1)
    (herr : |w - w'| ≤ e) :
    |binary32.round (byte.toNat * w) - byte.toNat * w'| ≤ 1 / 2 ^ 16 + 255 * e := by
  have hbyte := alpha_le byte
  have h0 := byte.toNat.cast_nonneg (α := ℚ)
  have hround := abs_round_sum (x := byte.toNat * w) (mul_nonneg h0 hw) (by
    have hupper := (abs_le.mp herr).2
    have hle : w ≤ 1 + 1 / 2 ^ 10 := by linarith
    have hprod := mul_le_mul hbyte hle hw (by norm_num)
    norm_num at hprod ⊢
    linarith)
  have hscaled : |byte.toNat * w - byte.toNat * w'| ≤ 255 * e := by
    rw [← mul_sub, abs_mul, abs_of_nonneg h0]
    exact mul_le_mul hbyte herr (abs_nonneg _) (by norm_num)
  calc |binary32.round (byte.toNat * w) - byte.toNat * w'|
      ≤ |binary32.round (byte.toNat * w) - byte.toNat * w| +
        |byte.toNat * w - byte.toNat * w'| := abs_sub_le _ _ _
    _ ≤ 1 / 2 ^ 16 + 255 * e := add_le_add hround hscaled

/-- 255 times the exact blend. -/
def blendSum (bg fg alpha : UInt8) : ℕ :=
  bg.toNat * (255 - alpha.toNat) + fg.toNat * alpha.toNat

theorem blendSum_cast (bg fg alpha : UInt8) :
    (blendSum bg fg alpha : ℚ) / 255 =
      bg.toNat * ((255 - alpha.toNat) / 255) + fg.toNat * (alpha.toNat / 255) := by
  have h : alpha.toNat ≤ 255 := Nat.le_of_lt_succ alpha.toNat_lt
  unfold blendSum
  push_cast [Nat.cast_sub h]
  ring

theorem blendSum_le (bg fg alpha : UInt8) : blendSum bg fg alpha ≤ 255 * 255 := by
  have hbg : bg.toNat ≤ 255 := Nat.le_of_lt_succ bg.toNat_lt
  have hfg : fg.toNat ≤ 255 := Nat.le_of_lt_succ fg.toNat_lt
  have ha : alpha.toNat ≤ 255 := Nat.le_of_lt_succ alpha.toNat_lt
  calc blendSum bg fg alpha
      ≤ 255 * (255 - alpha.toNat) + 255 * alpha.toNat :=
        Nat.add_le_add (Nat.mul_le_mul_right _ hbg) (Nat.mul_le_mul_right _ hfg)
    _ = 255 * 255 := by rw [← Nat.mul_add, Nat.sub_add_cancel ha]

theorem weightedSum_nonneg (bg fg alpha : UInt8) : 0 ≤ weightedSum bg fg alpha := by
  have hterm : ∀ (byte : UInt8) {w : ℚ}, 0 ≤ w → 0 ≤ binary32.round (byte.toNat * w) :=
    fun byte _ hw => FloatFormat.round_nonneg (mul_nonneg byte.toNat.cast_nonneg hw)
  exact FloatFormat.round_nonneg
    (add_nonneg (hterm bg (alphaBg_nonneg alpha)) (hterm fg (alphaFg_nonneg alpha)))

/-- The sum is closer to the exact blend than the exact blend is to an integer that it is not. -/
theorem weightedSum_error (bg fg alpha : UInt8) :
    |weightedSum bg fg alpha - blendSum bg fg alpha / 255| < 1 / 255 := by
  have ha := alpha_le alpha
  have ha0 := alpha.toNat.cast_nonneg (α := ℚ)
  have hbg := term_error bg (by norm_num) (alphaBg_nonneg alpha)
    ((div_le_one (by norm_num)).mpr (by linarith)) (alphaBg_error alpha)
  have hfg := term_error fg (by norm_num) (alphaFg_nonneg alpha)
    ((div_le_one (by norm_num)).mpr ha) (alphaFg_error alpha)
  have hexact := blendSum_cast bg fg alpha
  have hbound : (blendSum bg fg alpha : ℚ) / 255 ≤ 255 := by
    rw [div_le_iff₀ (by norm_num)]
    exact_mod_cast blendSum_le bg fg alpha
  have hsum := abs_round_sum (x := binary32.round (bg.toNat * alphaBg alpha) +
      binary32.round (fg.toNat * alphaFg alpha))
    (add_nonneg
      (FloatFormat.round_nonneg (mul_nonneg bg.toNat.cast_nonneg (alphaBg_nonneg alpha)))
      (FloatFormat.round_nonneg (mul_nonneg fg.toNat.cast_nonneg (alphaFg_nonneg alpha)))) (by
    have hbg' := (abs_le.mp hbg).2
    have hfg' := (abs_le.mp hfg).2
    norm_num at hbg' hfg'
    linarith)
  have hbg' := abs_le.mp hbg
  have hfg' := abs_le.mp hfg
  have hsum' := abs_le.mp hsum
  unfold weightedSum
  rw [abs_lt]
  constructor <;> norm_num at hbg' hfg' hsum' ⊢ <;> linarith

/-! ## The byte -/

/-- The conversion is always defined. -/
theorem floatBlend?_eq (bg fg alpha : UInt8) :
    floatBlend? bg fg alpha = some (UInt8.ofNat ⌊weightedSum bg fg alpha⌋.toNat) := by
  have h0 := weightedSum_nonneg bg fg alpha
  have herr := (abs_lt.mp (weightedSum_error bg fg alpha)).2
  have hbound : (blendSum bg fg alpha : ℚ) / 255 ≤ 255 := by
    rw [div_le_iff₀ (by norm_num)]
    exact_mod_cast blendSum_le bg fg alpha
  refine if_pos ⟨by linarith, ?_⟩
  norm_num at herr hbound
  linarith

/-- **How exact a blend is.** It is the exact blend rounded down; where that is an integer, it may
be one less. -/
theorem floatBlend_toNat (bg fg alpha : UInt8) :
    (floatBlend bg fg alpha).toNat = blendSum bg fg alpha / 255 ∨
      255 ∣ blendSum bg fg alpha ∧
        (floatBlend bg fg alpha).toNat + 1 = blendSum bg fg alpha / 255 := by
  have hle := blendSum_le bg fg alpha
  have hnonneg := Int.floor_nonneg.mpr (weightedSum_nonneg bg fg alpha)
  have hbyte : (floatBlend bg fg alpha).toNat = ⌊weightedSum bg fg alpha⌋.toNat % 256 := by
    unfold floatBlend
    rw [floatBlend?_eq, Option.getD_some, UInt8.toNat_ofNat']
  rcases floor_near (n := blendSum bg fg alpha) (d := 255) (by decide)
    (weightedSum_error bg fg alpha) with h | ⟨hdvd, h⟩
  · left
    omega
  · right
    exact ⟨hdvd, by omega⟩

/-! ## Opaque and clear foregrounds -/

theorem alphaBg_full : alphaBg 255 = 0 := by
  have h := round_byte (n := 0) (by decide) (by decide)
  have hopaque : (255 : UInt8).toNat = 255 := rfl
  rw [alphaBg, hopaque, Nat.cast_ofNat, sub_self, zero_div]
  exact_mod_cast h

theorem alphaFg_full : alphaFg 255 = 1 := by
  have h := round_byte (n := 1) (by decide) (by decide)
  rw [alphaFg, alphaBg_full, sub_zero]
  exact_mod_cast h

theorem alphaFg_clear : alphaFg 0 = 0 := by
  have h := round_byte (n := 0) (by decide) (by decide)
  rw [alphaFg, alphaBg_clear, sub_self]
  exact_mod_cast h

theorem round_toNat (byte : UInt8) : binary32.round byte.toNat = byte.toNat := by
  have h := round_byte (n := byte.toNat) (Int.natCast_nonneg _) (by exact_mod_cast byte.toNat_lt)
  exact_mod_cast h

theorem floatBlend_of_sum {bg fg alpha v : UInt8} (h : weightedSum bg fg alpha = v.toNat) :
    floatBlend bg fg alpha = v := by
  unfold floatBlend
  rw [floatBlend?_eq, h, Int.floor_natCast, Option.getD_some, Int.toNat_natCast, UInt8.ofNat_toNat]

/-- An opaque foreground covers. -/
theorem floatBlend_covers (bg fg : UInt8) : floatBlend bg fg 255 = fg := by
  have hzero := round_toNat 0
  rw [UInt8.toNat_zero, Nat.cast_zero] at hzero
  refine floatBlend_of_sum ?_
  unfold weightedSum
  rw [alphaBg_full, alphaFg_full, mul_zero, mul_one, hzero, round_toNat, zero_add, round_toNat]

/-- A clear foreground keeps the background. -/
theorem floatBlend_keeps (bg fg : UInt8) : floatBlend bg fg 0 = bg := by
  have hzero := round_toNat 0
  rw [UInt8.toNat_zero, Nat.cast_zero] at hzero
  refine floatBlend_of_sum ?_
  unfold weightedSum
  rw [alphaBg_clear, alphaFg_clear, mul_zero, mul_one, hzero, round_toNat, add_zero, round_toNat]

/-- **The blend of the source.** The conversion to a byte is defined for all bytes. The result is
the exact blend rounded down, or one less where the exact blend is an integer, and it is exact for
an opaque and for a clear foreground. -/
theorem floatBlend_nearly_exact (bg fg alpha : UInt8) :
    floatBlend? bg fg alpha = some (floatBlend bg fg alpha) ∧
      ((floatBlend bg fg alpha).toNat = blendSum bg fg alpha / 255 ∨
        255 ∣ blendSum bg fg alpha ∧
          (floatBlend bg fg alpha).toNat + 1 = blendSum bg fg alpha / 255) ∧
      (alpha = 255 → floatBlend bg fg alpha = fg) ∧
      (alpha = 0 → floatBlend bg fg alpha = bg) := by
  refine ⟨?_, floatBlend_toNat bg fg alpha, ?_, ?_⟩
  · unfold floatBlend
    rw [floatBlend?_eq, Option.getD_some]
  · rintro rfl
    exact floatBlend_covers bg fg
  · rintro rfl
    exact floatBlend_keeps bg fg

/-- White over white, darker. -/
example : floatBlend 255 255 130 = 254 := by decide +kernel

end WaylandTest
