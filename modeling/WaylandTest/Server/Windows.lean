import WaylandTest.Lib.Paired
import WaylandTest.Server.Layout
import WaylandTest.Server.Layers

/-!
# Windows share the display

The layout gives each shell surface a band of the display, and the drawing puts what a surface shows
where the surface is. Where each window's buffer fits its band the two together show the windows one
under the other: a window is drawn in its band as it would be at the top of a black display,
whatever the other windows show (`repaint_shows_windows`).

A byte is made by all surfaces of the list. `drawLayers_only` reduces it to the one layer that is
not clear; that there is one at most is the disjointness of the bands.
-/

set_option autoImplicit false

namespace WaylandTest

open Lib

/-- Over a stack in which one layer at most is not clear, that one is drawn alone. -/
theorem drawLayers_only {blend : Blend} (keeps : ∀ bg fg, blend bg fg 0 = bg) (old : UInt8)
    {below above : List Layer} (l : Layer) (hbelow : ∀ m ∈ below, m.alpha = 0)
    (habove : ∀ m ∈ above, m.alpha = 0) :
    drawLayers blend old (below ++ l :: above) = blend old l.byte l.alpha := by
  have hstart : drawLayers blend old below = old := drawLayers_clear keeps hbelow
  unfold drawLayers at hstart ⊢
  rw [List.foldl_append, hstart, List.foldl_cons]
  exact drawLayers_clear keeps habove

namespace Surface

variable {shm : ShmTable} {s : Surface} {height x y k : Int}

/-- What the surface shows, and where its attach puts it, fits a band of that height. -/
def FitsBand (shm : ShmTable) (height : Int) (s : Surface) : Prop :=
  ∀ b, (s.lockBuffer shm).1 = some b → 0 ≤ s.mBack.y ∧ s.mBack.y + b.height ≤ height

theorem FitsBand.setY (h : s.FitsBand shm height) (y : Int) : (s.setY y).FitsBand shm height := h

/-- Outside its band a window that fits is clear. -/
theorem FitsBand.clear (h : s.FitsBand shm height) (hrow : ¬ InBand height s.mY y) :
    (s.layer shm x y k).alpha = 0 := by
  unfold Surface.layer
  cases hlock : (s.lockBuffer shm).1 with
  | none => rfl
  | some b =>
    have hfit := h b hlock
    have hcovers : ¬ b.Covers s.y s.x x y := by
      intro hcovers
      unfold ShmBuffer.Covers Surface.y at hcovers
      unfold InBand at hrow
      omega
    simp only [if_neg hcovers]

/-- A surface that is moved down shows the same, as much further down. -/
theorem layer_setY (top row : Int) :
    (s.setY top).layer shm x (top + row) k = (s.setY 0).layer shm x row k := by
  have hrow : top + row - (s.setY top).y = row - (s.setY 0).y := by
    show top + row - (top + s.mBack.y) = row - (0 + s.mBack.y)
    omega
  have hlock : ∀ y, (s.setY y).lockBuffer shm = s.lockBuffer shm := fun _ => rfl
  have hx : ∀ y, (s.setY y).x = s.x := fun _ => rfl
  unfold Surface.layer ShmBuffer.Covers
  simp only [hlock, hx, hrow]

end Surface

namespace Compositor

variable {shm : ShmTable} {c c' : Compositor} {cs : List Call} {ss ts : List Surface}
  {height x y k : Int}

theorem isShellSurface_samePlaced {s t : Surface} (h : s.SamePlaced t) :
    t.isShellSurface = s.isShellSurface := by
  rw [Surface.SamePlaced] at h
  rw [h]
  split <;> simp

/-- The layout puts the `i`-th window in the `i`-th band. -/
theorem window_of_band {displayHeight : Int} (hheight : 0 ≤ displayHeight) {i : Nat} {s : Surface}
    (hs : (ss.filter Surface.isShellSurface)[i]? = some s) :
    ((relaid displayHeight ss).filter Surface.isShellSurface)[i]? =
      some (s.setY (i * (displayHeight / ss.countP Surface.isShellSurface))) := by
  have hplaced := samePlaced_relaid displayHeight ss
  have hwindows : List.Forall₂ Surface.SamePlaced (ss.filter Surface.isShellSurface)
      ((relaid displayHeight ss).filter Surface.isShellSurface) :=
    filter_paired hplaced fun _ _ h => (isShellSurface_samePlaced h).symm
  obtain ⟨hi, hget⟩ := List.getElem?_eq_some_iff.mp hs
  have hi' := hwindows.length_eq ▸ hi
  have hst := hwindows.get hi hi'
  have hpos : 0 < ss.countP Surface.isShellSurface := by
    rw [List.countP_eq_length_filter]
    omega
  have htiled := tiled_relaid hheight hpos
  have ht := List.getElem?_eq_getElem hi'
  have hplace := htiled.place i _ ht
  rw [← hwindows.length_eq, ← List.countP_eq_length_filter] at hplace
  rw [ht]
  simp only [List.get_eq_getElem, hget] at hst
  have hshell : s.isShellSurface = true := (List.mem_filter.mp (hget ▸ List.getElem_mem hi)).2
  rw [Surface.SamePlaced, if_pos hshell, hplace] at hst
  rw [hst]

/-- A window fits its band wherever the layout puts it. -/
theorem fitsBand_relaid (displayHeight : Int)
    (hfit : ∀ s ∈ ss, s.isShellSurface = true → s.FitsBand shm height) :
    ∀ t ∈ relaid displayHeight ss, t.isShellSurface = true → t.FitsBand shm height := by
  refine forall_paired (samePlaced_relaid displayHeight ss) hfit fun s t hs hst ht => ?_
  have hshell := isShellSurface_samePlaced hst ▸ ht
  rw [Surface.SamePlaced, if_pos hshell] at hst
  rw [hst]
  exact (hs hshell).setY _

/-- The layout leaves what is no window where it is. -/
theorem clear_relaid (displayHeight : Int)
    (hfree : ∀ s ∈ ss, s.isShellSurface = false → (s.layer shm x y k).alpha = 0) :
    ∀ t ∈ relaid displayHeight ss, t.isShellSurface = false →
      (t.layer shm x y k).alpha = 0 := by
  refine forall_paired (samePlaced_relaid displayHeight ss) hfree fun s t hs hst ht => ?_
  have hshell := isShellSurface_samePlaced hst ▸ ht
  rw [Surface.SamePlaced, if_neg (by simp [hshell])] at hst
  rw [hst]
  exact hs hshell

theorem length_windows {displayHeight : Int} :
    ((relaid displayHeight ss).filter Surface.isShellSurface).length =
      ss.countP Surface.isShellSurface := by
  rw [← List.countP_eq_length_filter, countP_samePlaced (samePlaced_relaid displayHeight ss)]

/-- At a row of a window's band all other surfaces are clear, if those without a band are. -/
theorem only_window (hfit : ∀ t ∈ ts, t.isShellSurface = true → t.FitsBand shm height)
    (hbands : (ts.filter Surface.isShellSurface).Pairwise fun s t =>
      ∀ row, ¬ (InBand height s.mY row ∧ InBand height t.mY row))
    (hfree : ∀ t ∈ ts, t.isShellSurface = false → (t.layer shm x y k).alpha = 0)
    {s : Surface} (hs : s ∈ ts.filter Surface.isShellSurface) (hrow : InBand height s.mY y) :
    ∃ below above, ts = below ++ s :: above ∧
      ∀ t ∈ below ++ above, (t.layer shm x y k).alpha = 0 := by
  obtain ⟨hmem, hshell⟩ := List.mem_filter.mp hs
  obtain ⟨below, above, rfl⟩ := List.append_of_mem hmem
  refine ⟨below, above, rfl, fun t ht => ?_⟩
  rw [List.filter_append, List.filter_cons_of_pos hshell, List.pairwise_append,
    List.pairwise_cons] at hbands
  obtain ⟨-, ⟨habove, -⟩, hbelow⟩ := hbands
  have htmem : t ∈ below ++ s :: above := by
    rcases List.mem_append.mp ht with ht | ht
    · exact List.mem_append_left _ ht
    · exact List.mem_append_right _ (List.mem_cons_of_mem s ht)
  by_cases hwindow : t.isShellSurface = true
  · refine (hfit t htmem hwindow).clear fun hrow' => ?_
    rcases List.mem_append.mp ht with ht | ht
    · exact hbelow t (List.mem_filter.mpr ⟨ht, hwindow⟩) s List.mem_cons_self y ⟨hrow', hrow⟩
    · exact habove t (List.mem_filter.mpr ⟨ht, hwindow⟩) y ⟨hrow, hrow'⟩
  · exact hfree t htmem (by simpa using hwindow)

end Compositor

open Compositor

/-- **Windows do not overlap.** After a repaint with the blend of the source, of buffers with their
rows next to each other, where every shell surface fits its band: at the pixels of the `i`-th band
the display shows what the `i`-th of them shows at the top of a black display, and below the bands
it is black, if the surfaces that are no shell surface are clear there. -/
theorem repaint_shows_windows {shm : ShmTable} {c c' : Compositor} {cs : List Call}
    (ss : List Surface) (hc : c.Sized) (hlist : c.mSurfacesList = ss.map some)
    (hstride : ∀ s ∈ ss, ∀ b, (s.lockBuffer shm).1 = some b → b.stride = 4 * b.width)
    (h : c.repaint floatBlend shm = ⟨cs, .ok c'⟩) {height : Int}
    (hheight : height = c.mDisplayHeight / ss.countP Surface.isShellSurface)
    (hfit : ∀ s ∈ ss, s.isShellSurface = true → s.FitsBand shm height)
    {x y k : Int} (hx : 0 ≤ x ∧ x < c.mDisplayWidth) (hy : 0 ≤ y ∧ y < c.mDisplayHeight)
    (hk : 0 ≤ k ∧ k < 3)
    (hfree : ∀ s ∈ ss, s.isShellSurface = false → (s.layer shm x y k).alpha = 0) :
    (∀ (i : Nat) s, (ss.filter Surface.isShellSurface)[i]? = some s →
        ∀ row, y = i * height + row → 0 ≤ row ∧ row < height →
        Memory.read c'.mDisplayBuffer (4 * (y * c.mDisplayWidth + x) + k) =
          some (floatBlend 0 ((s.setY 0).layer shm x row k).byte
            ((s.setY 0).layer shm x row k).alpha)) ∧
      (ss.countP Surface.isShellSurface * height ≤ y →
        Memory.read c'.mDisplayBuffer (4 * (y * c.mDisplayWidth + x) + k) = some 0) := by
  subst hheight
  have hread := repaint_layers floatBlend_keeps hc hlist hstride h hx hy hk
  have hfit' := fitsBand_relaid c.mDisplayHeight hfit
  have hfree' := clear_relaid c.mDisplayHeight hfree
  constructor
  · rintro i s hs row rfl hrow
    have hwindow := window_of_band (Int.le_of_lt hc.height) hs
    have hpos : 0 < ss.countP Surface.isShellSurface := by
      rw [List.countP_eq_length_filter]
      exact List.length_pos_of_mem (List.mem_of_getElem? hs)
    have htiled := tiled_relaid (Int.le_of_lt hc.height) hpos
    have hbands := htiled.disjoint
    rw [length_windows] at hbands
    have hin : InBand (c.mDisplayHeight / ss.countP Surface.isShellSurface)
        (s.setY (i * (c.mDisplayHeight / ss.countP Surface.isShellSurface))).mY
        (i * (c.mDisplayHeight / ss.countP Surface.isShellSurface) + row) :=
      ⟨Int.le_add_of_nonneg_right hrow.1, Int.add_lt_add_left hrow.2 _⟩
    obtain ⟨below, above, hsplit, hclear⟩ :=
      only_window hfit' hbands hfree' (List.mem_of_getElem? hwindow) hin
    rw [hread, hsplit, List.map_append, List.map_cons]
    rw [drawLayers_only floatBlend_keeps]
    · rw [Surface.layer_setY]
    · intro l hl
      obtain ⟨t, ht, rfl⟩ := List.mem_map.mp hl
      exact hclear t (List.mem_append_left _ ht)
    · intro l hl
      obtain ⟨t, ht, rfl⟩ := List.mem_map.mp hl
      exact hclear t (List.mem_append_right _ ht)
  · intro hbelow
    rw [hread, drawLayers_clear floatBlend_keeps]
    intro l hl
    obtain ⟨t, ht, rfl⟩ := List.mem_map.mp hl
    by_cases hshell : t.isShellSurface = true
    · have hmem := List.mem_filter.mpr ⟨ht, hshell⟩
      have hpos : 0 < ss.countP Surface.isShellSurface := by
        rw [← length_windows]
        exact List.length_pos_of_mem hmem
      have hcovered := (tiled_relaid (Int.le_of_lt hc.height) hpos).covered y
      rw [length_windows] at hcovered
      exact (hfit' t ht hshell).clear fun hin => by
        have hrow := (hcovered.mp ⟨t, hmem, hin⟩).2
        omega
    · exact hfree' t ht (by simpa using hshell)

/-- A window that shows a white pixel. -/
def whiteWindow (r : WlResource) : Surface := { showing r with mShellSurface := some ⟨r, r⟩ }

/-- Two windows on a display of two rows, which shows `bytes`. -/
def twoWindows (bytes : List UInt8) : Compositor where
  mSurfacesList := [some (whiteWindow 7), some ((whiteWindow 8).setY 1)]
  mDisplayWidth := 1
  mDisplayHeight := 2
  mDisplayBuffer := bytes

/-- The display before the repaint. -/
def blackWindows : Compositor := twoWindows [0, 0, 0, 0, 0, 0, 0, 0]

theorem repaint_blackWindows :
    blackWindows.repaint floatBlend whiteTable =
      ⟨(blackWindows.repaint floatBlend whiteTable).calls,
        .ok (twoWindows [255, 255, 255, 0, 129, 129, 129, 0])⟩ := by
  have hresult : (blackWindows.repaint floatBlend whiteTable).result =
      .ok (twoWindows [255, 255, 255, 0, 129, 129, 129, 0]) := by decide +kernel
  rw [← hresult]

theorem fitsBand_whiteWindow (r : WlResource) : (whiteWindow r).FitsBand whiteTable 1 := by
  rintro b ⟨⟩
  exact ⟨Int.le_refl 0, Int.le_refl 1⟩

theorem repaint_shows_windows_two :
    Memory.read [255, 255, 255, 0, 129, 129, 129, (0 : UInt8)] (4 * (1 * 1 + 0) + 0) =
      some (floatBlend 0 (((whiteWindow 8).setY 0).layer whiteTable 0 0 0).byte
        (((whiteWindow 8).setY 0).layer whiteTable 0 0 0).alpha) :=
  (repaint_shows_windows [whiteWindow 7, (whiteWindow 8).setY 1]
    ⟨by decide, by decide, by decide, rfl⟩ rfl stride_whiteTable
    repaint_blackWindows rfl
    (List.forall_mem_cons.mpr ⟨fun _ => fitsBand_whiteWindow 7,
      List.forall_mem_singleton.mpr fun _ => (fitsBand_whiteWindow 8).setY 1⟩)
    (x := 0) (y := 1) (k := 0) (by decide) (by decide) (by decide)
    (by decide)).1 1 ((whiteWindow 8).setY 1) rfl 0 (by decide) (by decide)

end WaylandTest
