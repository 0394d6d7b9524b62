import WaylandTest.Server.AlphaBlending
import WaylandTest.Server.SameShape

/-!
# What is seen of a stack of surfaces

A byte of the display is made by drawing layers over it, one byte and one alpha for each surface;
a surface that is not over the pixel is a clear layer. With the blend of the source this says what
a frame shows: the uppermost surface that is opaque at a pixel, if only clear ones are above it
(`repaint_shows_top`), and how far the frame is from the one that exact arithmetic would give: one
for each translucent layer at most (`repaint_nearly_exact`).

A layer has the byte and the alpha of the pixel that the surface has there. That these are the ones
a repaint takes is so for buffers with their rows next to each other, and for others it is not
(`Strides.lean`).
-/

set_option autoImplicit false

namespace WaylandTest

open Lib

/-- A byte of a surface over a byte of the display, with its alpha. -/
structure Layer where
  byte : UInt8
  alpha : UInt8
deriving DecidableEq, Repr

/-- Neither clear nor opaque. -/
def Layer.translucent (l : Layer) : Bool := l.alpha != 0 && l.alpha != 255

/-- A byte of the display with layers drawn over it, the first one first. -/
def drawLayers (blend : Blend) (old : UInt8) (ls : List Layer) : UInt8 :=
  ls.foldl (fun old l => blend old l.byte l.alpha) old

section Stacks

variable {blend : Blend} {old : UInt8} {ls : List Layer}

theorem drawLayers_clear (keeps : ∀ bg fg, blend bg fg 0 = bg) (h : ∀ l ∈ ls, l.alpha = 0) :
    drawLayers blend old ls = old := by
  induction ls with
  | nil => rfl
  | cons l ls ih =>
    have hl : blend old l.byte l.alpha = old := by rw [h l List.mem_cons_self, keeps]
    show drawLayers blend (blend old l.byte l.alpha) ls = old
    rw [hl]
    exact ih fun m hm => h m (List.mem_cons_of_mem l hm)

/-- An opaque layer with only clear ones above it is what is seen. -/
theorem drawLayers_top (covers : ∀ bg fg, blend bg fg 255 = fg)
    (keeps : ∀ bg fg, blend bg fg 0 = bg) {below above : List Layer} {l : Layer}
    (hl : l.alpha = 255) (habove : ∀ m ∈ above, m.alpha = 0) :
    drawLayers blend old (below ++ l :: above) = l.byte := by
  unfold drawLayers
  rw [List.foldl_append, List.foldl_cons, hl, covers]
  exact drawLayers_clear keeps habove

end Stacks

/-! ## Exact and rounded blends -/

theorem integerBlend_toNat (bg fg alpha : UInt8) :
    (integerBlend bg fg alpha).toNat = blendSum bg fg alpha / 255 := by
  have hle := blendSum_le bg fg alpha
  have hdef : (integerBlend bg fg alpha).toNat = blendSum bg fg alpha / 255 % 256 :=
    UInt8.toNat_ofNat'
  omega

/-- Backgrounds that are `n` apart have blends that are `n` apart at most. -/
theorem blendSum_background {bg bg' : UInt8} {n : Nat} (h : bg'.toNat ≤ bg.toNat + n)
    (fg alpha : UInt8) : blendSum bg' fg alpha ≤ blendSum bg fg alpha + 255 * n := by
  have hbg : bg'.toNat * (255 - alpha.toNat) ≤ (bg.toNat + n) * (255 - alpha.toNat) :=
    Nat.mul_le_mul_right _ h
  have hn : n * (255 - alpha.toNat) ≤ n * 255 := Nat.mul_le_mul_left n (Nat.sub_le _ _)
  rw [Nat.add_mul] at hbg
  unfold blendSum
  omega

/-- One layer, drawn in floating point and exactly. -/
theorem layer_error {v w : UInt8} {n : Nat} (hle : v.toNat ≤ w.toNat) (hn : w.toNat ≤ v.toNat + n)
    (l : Layer) :
    (floatBlend v l.byte l.alpha).toNat ≤ (integerBlend w l.byte l.alpha).toNat ∧
      (integerBlend w l.byte l.alpha).toNat ≤
        (floatBlend v l.byte l.alpha).toNat + n + if l.translucent then 1 else 0 := by
  have hupper : blendSum v l.byte l.alpha ≤ blendSum w l.byte l.alpha := by
    have h := blendSum_background (n := 0) hle l.byte l.alpha
    omega
  have hlower := blendSum_background hn l.byte l.alpha
  have hfloat := floatBlend_toNat v l.byte l.alpha
  rw [integerBlend_toNat]
  by_cases htrans : l.translucent = true
  · rw [if_pos htrans]
    omega
  · rw [if_neg htrans]
    -- an opaque and a clear layer are drawn exactly
    have hexact : (floatBlend v l.byte l.alpha).toNat = blendSum v l.byte l.alpha / 255 := by
      rw [← integerBlend_toNat]
      unfold Layer.translucent at htrans
      simp only [bne_iff_ne, Bool.and_eq_true, ne_eq, not_and, not_not] at htrans
      by_cases hclear : l.alpha = 0
      · rw [hclear, floatBlend_keeps, integerBlend_keeps]
      · rw [htrans hclear, floatBlend_covers, integerBlend_covers]
    omega

/-- A stack of layers: the errors of the translucent ones add up, and are not multiplied. -/
theorem drawLayers_error {v w : UInt8} {n : Nat} (hle : v.toNat ≤ w.toNat)
    (hn : w.toNat ≤ v.toNat + n) (ls : List Layer) :
    (drawLayers floatBlend v ls).toNat ≤ (drawLayers integerBlend w ls).toNat ∧
      (drawLayers integerBlend w ls).toNat ≤
        (drawLayers floatBlend v ls).toNat + n + ls.countP Layer.translucent := by
  induction ls generalizing v w n with
  | nil => exact ⟨hle, hn⟩
  | cons l ls ih =>
    obtain ⟨hle', hn'⟩ := layer_error hle hn l
    have hrest := ih hle' (hn'.trans_eq (Nat.add_assoc _ _ _))
    rw [List.countP_cons]
    refine ⟨hrest.1, hrest.2.trans_eq ?_⟩
    show _ = (drawLayers floatBlend (floatBlend v l.byte l.alpha) ls).toNat + n + _
    omega

/-! ## Surfaces as layers -/

/-- Byte `k` that the surface shows at the display pixel `(x, y)`: the one of its buffer's pixel
there, or clear if the buffer is not over it. -/
def Surface.layer (shm : ShmTable) (x y k : Int) (s : Surface) : Layer :=
  match (s.lockBuffer shm).1 with
  | none => ⟨0, 0⟩
  | some b =>
    if b.Covers s.y s.x x y then ⟨b.byte (x - s.x) (y - s.y) k, b.byte (x - s.x) (y - s.y) 3⟩
    else ⟨0, 0⟩

namespace Compositor

variable {blend : Blend} {shm : ShmTable} {c c' : Compositor} {cs : List Call} {ss : List Surface}
  {x y k : Int}

theorem drawnOver_layer (keeps : ∀ bg fg, blend bg fg 0 = bg) (hk : k ≠ 3) (s : Surface)
    (old : UInt8) :
    s.drawnOver blend shm x y k old =
      blend old (s.layer shm x y k).byte (s.layer shm x y k).alpha := by
  unfold Surface.layer Surface.drawnOver
  cases (s.lockBuffer shm).1 with
  | none => exact (keeps old 0).symm
  | some b =>
    show b.painted blend s.y s.x x y k old = _
    unfold ShmBuffer.painted
    by_cases hcovers : b.Covers s.y s.x x y
    · simp only [hcovers, hk, ne_eq, not_false_eq_true, and_self, if_true]
    · simp only [hcovers, false_and, if_false, keeps]

theorem composition_layers (keeps : ∀ bg fg, blend bg fg 0 = bg) (hk : k ≠ 3)
    (ss : List Surface) (old : UInt8) :
    composition blend shm x y k old (ss.map some) =
      drawLayers blend old (ss.map (·.layer shm x y k)) := by
  unfold composition drawLayers
  rw [List.foldl_map, List.foldl_map]
  simp only [Option.elim_some, drawnOver_layer keeps hk]

/-- A byte of the display after a repaint: the layers of the surfaces over zero. -/
theorem repaint_layers (keeps : ∀ bg fg, blend bg fg 0 = bg) (hc : c.Sized)
    (hlist : c.mSurfacesList = ss.map some)
    (hstride : ∀ s ∈ ss, ∀ b, (s.lockBuffer shm).1 = some b → b.stride = 4 * b.width)
    (h : c.repaint blend shm = ⟨cs, .ok c'⟩)
    (hx : 0 ≤ x ∧ x < c.mDisplayWidth) (hy : 0 ≤ y ∧ y < c.mDisplayHeight) (hk : 0 ≤ k ∧ k < 3) :
    Memory.read c'.mDisplayBuffer (4 * (y * c.mDisplayWidth + x) + k) =
      some (drawLayers blend 0 ((relaid c.mDisplayHeight ss).map (·.layer shm x y k))) := by
  obtain ⟨ss', cleared, bytes, _, _, hlist', hcleared, hloop, -, rfl⟩ := repaint_cases h
  obtain rfl := map_some_inj (hlist.symm.trans hlist')
  have hchanged := repaint_changed hc hstride hcleared hloop
  rw [← composition_layers keeps (by omega)]
  exact hc.byte (f := fun x y k old => composition blend _ x y k old _) hchanged hx hy
    ⟨hk.1, by omega⟩

end Compositor

open Compositor

/-- **What a frame shows.** After a repaint with the blend of the source, of buffers with their rows
next to each other, a byte of a pixel is the one of the uppermost surface that is opaque there, if
the surfaces above it are clear there; and it is zero if all surfaces are. A surface that is not
ready, or not over the pixel, is clear. -/
theorem repaint_shows_top {shm : ShmTable} {c c' : Compositor} {cs : List Call}
    (ss : List Surface) (hc : c.Sized) (hlist : c.mSurfacesList = ss.map some)
    (hstride : ∀ s ∈ ss, ∀ b, (s.lockBuffer shm).1 = some b → b.stride = 4 * b.width)
    (h : c.repaint floatBlend shm = ⟨cs, .ok c'⟩) {x y k : Int}
    (hx : 0 ≤ x ∧ x < c.mDisplayWidth) (hy : 0 ≤ y ∧ y < c.mDisplayHeight) (hk : 0 ≤ k ∧ k < 3) :
    (∀ below s above, relaid c.mDisplayHeight ss = below ++ s :: above →
        (s.layer shm x y k).alpha = 255 → (∀ t ∈ above, (t.layer shm x y k).alpha = 0) →
        Memory.read c'.mDisplayBuffer (4 * (y * c.mDisplayWidth + x) + k) =
          some (s.layer shm x y k).byte) ∧
      ((∀ t ∈ relaid c.mDisplayHeight ss, (t.layer shm x y k).alpha = 0) →
        Memory.read c'.mDisplayBuffer (4 * (y * c.mDisplayWidth + x) + k) = some 0) := by
  have hread := repaint_layers floatBlend_keeps hc hlist hstride h hx hy hk
  constructor
  · intro below s above hsplit hopaque habove
    rw [hread, hsplit, List.map_append, List.map_cons]
    rw [drawLayers_top floatBlend_covers floatBlend_keeps hopaque]
    intro l hl
    obtain ⟨t, ht, rfl⟩ := List.mem_map.mp hl
    exact habove t ht
  · intro hall
    rw [hread, drawLayers_clear floatBlend_keeps]
    intro l hl
    obtain ⟨t, ht, rfl⟩ := List.mem_map.mp hl
    exact hall t ht

/-- White pixels, one opaque, one translucent and one clear. -/
def whiteTable : ShmTable := fun r =>
  some ⟨1, 1, 4, .argb8888, [255, 255, 255, if r = 7 then 255 else if r = 8 then 130 else 0]⟩

/-- Their rows are next to each other. -/
theorem stride_whiteTable {ss : List Surface} :
    ∀ s ∈ ss, ∀ b, (s.lockBuffer whiteTable).1 = some b → b.stride = 4 * b.width := by
  intro s _ b hb
  obtain ⟨r, hr, -⟩ := Surface.lockBuffer_shm hb
  cases hr
  rfl

/-- A surface that shows one of them. -/
def showing (r : WlResource) : Surface :=
  { Surface.construct r r 2 none with mFront := { buffer := some r, isReady := true } }

/-- A display of one pixel under surfaces that show the buffers `rs`. -/
def whiteScreen (rs : List WlResource) : Compositor where
  mSurfacesList := rs.map fun r => some (showing r)
  mDisplayWidth := 1
  mDisplayHeight := 1
  mDisplayBuffer := [0, 0, 0, 0]

theorem repaint_whiteScreen (rs : List WlResource) (v : UInt8)
    (h : ((whiteScreen rs).repaint floatBlend whiteTable).result =
      .ok { whiteScreen rs with mDisplayBuffer := [v, v, v, 0] }) :
    (whiteScreen rs).repaint floatBlend whiteTable =
      ⟨((whiteScreen rs).repaint floatBlend whiteTable).calls,
        .ok { whiteScreen rs with mDisplayBuffer := [v, v, v, 0] }⟩ := by
  rw [← h]

theorem repaint_shows_top_white :
    ((showing 7).layer whiteTable 0 0 0).alpha = 255 ∧
      Memory.read [255, 255, 255, (0 : UInt8)] (4 * (0 * 1 + 0) + 0) =
        some ((showing 7).layer whiteTable 0 0 0).byte :=
  ⟨by decide, (repaint_shows_top [showing 8, showing 7, showing 9]
    ⟨by decide, by decide, by decide, rfl⟩ rfl stride_whiteTable
    (repaint_whiteScreen [8, 7, 9] 255 (by decide +kernel)) (x := 0) (y := 0) (k := 0)
    (by decide) (by decide) (by decide)).1 [showing 8] (showing 7) [showing 9] rfl (by decide)
    (by decide)⟩

/-- **How exact a frame is.** Where a repaint with the blend of the source completes, of buffers
with their rows next to each other, one with the exact blend, rounded down, completes too. No byte
of the first frame is above the one of the second, and it is below it by the number of translucent
surfaces over the pixel at most. -/
theorem repaint_nearly_exact {shm : ShmTable} {c c' : Compositor} {cs : List Call}
    (ss : List Surface) (hc : c.Sized) (hlist : c.mSurfacesList = ss.map some)
    (hstride : ∀ s ∈ ss, ∀ b, (s.lockBuffer shm).1 = some b → b.stride = 4 * b.width)
    (h : c.repaint floatBlend shm = ⟨cs, .ok c'⟩) :
    ∃ ds d, c.repaint integerBlend shm = ⟨ds, .ok d⟩ ∧
      ∀ x y k, 0 ≤ x ∧ x < c.mDisplayWidth → 0 ≤ y ∧ y < c.mDisplayHeight → 0 ≤ k ∧ k < 3 →
        ∃ v w, Memory.read c'.mDisplayBuffer (4 * (y * c.mDisplayWidth + x) + k) = some v ∧
          Memory.read d.mDisplayBuffer (4 * (y * c.mDisplayWidth + x) + k) = some w ∧
          v.toNat ≤ w.toNat ∧
          w.toNat ≤ v.toNat + (relaid c.mDisplayHeight ss).countP
            fun s => (s.layer shm x y k).translucent := by
  have hsame : shm.SameShape shm := fun r => by
    cases shm r with
    | none => exact .none
    | some b => exact .some ⟨rfl, rfl, rfl, rfl, rfl⟩
  obtain ⟨d, hd, -⟩ :=
    (repaint_alike_blends floatBlend integerBlend hsame c).ok (congrArg Exec.result h)
  have hexact : c.repaint integerBlend shm = ⟨(c.repaint integerBlend shm).calls, .ok d⟩ := by
    rw [← hd]
  refine ⟨_, d, hexact, fun x y k hx hy hk => ⟨_, _,
    repaint_layers floatBlend_keeps hc hlist hstride h hx hy hk,
    repaint_layers integerBlend_keeps hc hlist hstride hexact hx hy hk, ?_⟩⟩
  have herr := drawLayers_error (v := 0) (w := 0) (n := 0) (le_refl _) (le_refl _)
    ((relaid c.mDisplayHeight ss).map (·.layer shm x y k))
  rwa [Nat.add_zero, List.countP_map] at herr

/-- White over white is darker in floating point. -/
theorem repaint_nearly_exact_white :
    ∃ ds d, (whiteScreen [7, 8]).repaint integerBlend whiteTable = ⟨ds, .ok d⟩ ∧
      ∀ x y k, 0 ≤ x ∧ x < 1 → 0 ≤ y ∧ y < 1 → 0 ≤ k ∧ k < 3 →
        ∃ v w : UInt8, Memory.read [254, 254, 254, 0] (4 * (y * 1 + x) + k) = some v ∧
          Memory.read d.mDisplayBuffer (4 * (y * 1 + x) + k) = some w ∧ v.toNat ≤ w.toNat ∧
          w.toNat ≤ v.toNat + (relaid 1 [showing 7, showing 8]).countP
            fun s => (s.layer whiteTable x y k).translucent :=
  repaint_nearly_exact [showing 7, showing 8] ⟨by decide, by decide, by decide, rfl⟩ rfl
    stride_whiteTable (repaint_whiteScreen [7, 8] 254 (by decide +kernel))

end WaylandTest
