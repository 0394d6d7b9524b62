import WaylandTest.Server.Cursors

/-!
# The cursor under the pointer

A motion puts each cursor where the pointer is: `Pointer::move` subtracts the pointer's hotspot from
the coordinates and positions the surface. `Pointer::setCursor` changes the surface and the hotspot,
and positions nothing, so until the next motion the new cursor is wherever its surface was.

The runs here are of motions and of `set_cursor`, over pointers that exist from the start.
`cursors_follow_iff` says which of them keep every cursor under the pointer, and
`reaches_of_cursorMachine` that they are runs of the server.
-/

set_option autoImplicit false

namespace WaylandTest

open Lib

/-- What happens to the pointers and their cursors. -/
inductive CursorAction
  | move (x y : Int)
  | setCursor (pointer : WlResource) (surface : Option WlResource) (hotspotX hotspotY : Int)
deriving DecidableEq, Repr

/-- The same action of the server. -/
def CursorAction.serve : CursorAction → ServeAction
  | .move x y => .move x y
  | .setCursor pointer surface x y => .request (.setCursor pointer surface x y)

/-- The coordinates of the last motion. -/
def lastMove (as : List CursorAction) : Option (Int × Int) :=
  (as.filterMap fun
    | .move x y => some (x, y)
    | .setCursor _ _ _ _ => none).getLast?

@[simp] theorem lastMove_move (as : List CursorAction) (x y : Int) :
    lastMove (as ++ [.move x y]) = some (x, y) := by
  simp [lastMove]

@[simp] theorem lastMove_setCursor (as : List CursorAction) (pointer : WlResource)
    (surface : Option WlResource) (x y : Int) :
    lastMove (as ++ [.setCursor pointer surface x y]) = lastMove as := by
  simp [lastMove]

namespace Server

/-- `Pointer::move`. A pointer in `skips` happens to have null for an unset `mSurface`, and the
motion skips it. -/
def movePointerOr (skips : Address → Bool) (s : Server) (p : Pointer) (x y : Int) :
    Exec Call Fault Server :=
  if p.mSurface = none ∧ skips p.this then pure s else s.movePointer p x y

/-- `Seat::move`, likewise. -/
def moveOr (skips : Address → Bool) (s : Server) (x y : Int) : Exec Call Fault Server :=
  s.mPointerList.foldlM (fun s p => s.movePointerOr skips p x y) s

def cursorStep (skips : Address → Bool) (s : Server) : CursorAction → Exec Call Fault Server
  | .move x y => s.moveOr skips x y
  | .setCursor pointer surface hotspotX hotspotY => s.setCursor pointer surface hotspotX hotspotY

end Server

/-- The pointers of the server `s` move, and clients set their cursors. -/
def cursorMachine (skips : Address → Bool) (s : Server) :
    Machine Call Fault Server CursorAction where
  init := s
  step := Server.cursorStep skips

namespace Server

variable {s t : Server} {p q : Pointer} {a b : Address} {x y : Int} {cs ds : List Call}
  {skips : Address → Bool}

/-! ## A run of the server -/

/-- A null pointer is skipped; the model's `Seat::move` counts on no unset one to be null. -/
theorem moveOr_false (s : Server) (x y : Int) : s.moveOr (fun _ => false) x y = s.move x y := by
  simp only [moveOr, move, movePointerOr, Bool.false_eq_true, and_false, if_false]

/-- **Runs of the cursors are runs of the server.** -/
theorem reaches_of_cursorMachine {blend : Blend} {width height : Int} {before : List ServeAction}
    {as : List CursorAction} (hs : (requestMachine blend width height).Reaches before cs s)
    (ht : (cursorMachine (fun _ => false) s).Reaches as ds t) :
    (requestMachine blend width height).Reaches (before ++ as.map CursorAction.serve)
      (cs ++ ds) t := by
  refine ht.induct (P := fun as ds t =>
    (requestMachine blend width height).Reaches (before ++ as.map CursorAction.serve)
      (cs ++ ds) t) ?_ ?_
  · rw [List.map_nil, List.append_nil, List.append_nil]
    exact hs
  · intro as ds u act es v _ hu hstep
    rw [List.map_append, ← List.append_assoc, ← List.append_assoc]
    apply hu.snoc
    cases act with
    | move x y => exact (moveOr_false u x y).symm.trans hstep
    | setCursor pointer surface x y => exact hstep

/-! ## Positions -/

/-- The cursor of the pointer, if it has one, is where the hotspot is at the coordinates. -/
def Placed (x y : Int) (p : Pointer) (s : Server) : Prop :=
  ∀ a, p.mSurface = some a →
    ∃ z, s.surface? a = some z ∧ z.mX + p.mHotspotX = x ∧ z.mY + p.mHotspotY = y

/-- Every cursor is under the pointer. -/
def Under (s : Server) (x y : Int) : Prop := ∀ p ∈ s.mPointerList, Placed x y p s

/-- Pointers that share no cursor. -/
def Apart (p q : Pointer) : Prop := p.mSurface ≠ none → p.mSurface ≠ q.mSurface

instance (p q : Pointer) : Decidable (Apart p q) :=
  inferInstanceAs (Decidable (_ → _))

/-- Distinct pointers have distinct cursors. -/
def DistinctCursors (s : Server) : Prop := s.mPointerList.Pairwise Apart

instance (s : Server) : Decidable s.DistinctCursors :=
  inferInstanceAs (Decidable (List.Pairwise _ _))

theorem surface?_updateSurface {f : Surface → Surface} (hf : ∀ z, (f z).this = z.this) :
    (s.updateSurface a f).surface? b =
      (s.surface? b).map fun z => if z.this = a then f z else z := by
  have htest : (fun z : Surface => decide (z.this = b)) ∘ (fun z => if z.this = a then f z else z) =
      fun z => decide (z.this = b) := by
    funext z
    by_cases hz : z.this = a
    · simp [hz, hf]
    · simp [hz]
  unfold surface?
  rw [surfaces_updateSurface, List.find?_map, htest]

theorem movePointerOr_ok (h : s.movePointerOr skips p x y = ⟨ds, .ok t⟩) :
    (p.mSurface = none ∧ t = s) ∨ ∃ a z, p.mSurface = some a ∧ s.surface? a = some z ∧
      t = s.updateSurface a fun w => (w.setX (x - p.mHotspotX)).setY (y - p.mHotspotY) := by
  unfold movePointerOr at h
  split at h
  · next hskip =>
    cases h
    exact .inl ⟨hskip.1, rfl⟩
  · exact .inr (movePointer_ok h)

/-- A motion places the cursor of a pointer. -/
theorem placed_movePointerOr (h : s.movePointerOr skips p x y = ⟨ds, .ok t⟩) : Placed x y p t := by
  intro a ha
  rcases movePointerOr_ok h with ⟨hnone, -⟩ | ⟨a', z, ha', hz, rfl⟩
  · rw [hnone] at ha
    cases ha
  · obtain rfl : a' = a := Option.some.inj (ha'.symm.trans ha)
    rw [surface?_updateSurface fun _ => by rfl, hz, Option.map_some, if_pos (surface?_this hz)]
    exact ⟨_, rfl, Int.sub_add_cancel _ _, Int.sub_add_cancel _ _⟩

/-- A motion leaves the cursors of other pointers where they are. -/
theorem Placed.movePointerOr {x' y' : Int} (hp : Placed x y p s) (hapart : Apart p q)
    (h : s.movePointerOr skips q x' y' = ⟨ds, .ok t⟩) : Placed x y p t := by
  intro a ha
  rcases movePointerOr_ok h with ⟨-, rfl⟩ | ⟨b, _, hb, -, rfl⟩
  · exact hp a ha
  · obtain ⟨z, hz, hx, hy⟩ := hp a ha
    have hne : z.this ≠ b := by
      rw [surface?_this hz]
      rintro rfl
      exact hapart (by rw [ha]; exact Option.some_ne_none a) (ha.trans hb.symm)
    rw [surface?_updateSurface fun _ => by rfl, hz, Option.map_some, if_neg hne]
    exact ⟨z, rfl, hx, hy⟩

theorem moveOr_pointers (h : s.moveOr skips x y = ⟨ds, .ok t⟩) :
    t.mPointerList = s.mPointerList := by
  refine Exec.foldlM_induct (I := fun _ u => u.mPointerList = s.mPointerList) ?_ [] rfl h
  intro _ u p _ v hu hp
  rcases movePointerOr_ok hp with ⟨-, rfl⟩ | ⟨_, _, -, -, rfl⟩
  · exact hu
  · exact hu

/-- **A motion** puts every cursor under the pointer. -/
theorem under_move (hd : s.DistinctCursors) (h : s.moveOr skips x y = ⟨ds, .ok t⟩) :
    t.Under x y := by
  unfold Under
  rw [moveOr_pointers h]
  refine Exec.foldlM_each (Q := Placed x y) (R := Apart) ?_ ?_ hd h
  · intro _ _ _ _ hp
    exact placed_movePointerOr hp
  · intro _ _ _ _ _ hapart hplaced hq
    exact hplaced.movePointerOr hapart hq

/-! ## Cursors that are set -/

/-- The action leaves the cursors under the pointer, which is at the coordinates: a surface that
becomes a cursor is already where the new hotspot puts it. -/
def KeepsUnder (x y : Int) (s : Server) : CursorAction → Prop
  | .move _ _ => True
  | .setCursor pointer surface hotspotX hotspotY =>
    ∀ p ∈ s.mPointerList, ∀ a,
      s.GivesCursor (.setCursor pointer surface hotspotX hotspotY) p.this a →
        ∃ z, s.surface? a = some z ∧ z.mX + hotspotX = x ∧ z.mY + hotspotY = y

/-- A request that gives a pointer its cursor. -/
theorem GivesCursor.setCursor_eq {pointer : WlResource} {surface : Option WlResource}
    (h : s.GivesCursor (.setCursor pointer surface x y) p.this a) (hp : p ∈ s.mPointerList) :
    s.setCursor pointer surface x y = ⟨[], .ok (s.withCursor p.this a x y)⟩ := by
  obtain ⟨r, c, rfl, hpointer, hsurface⟩ := givesCursor_setCursor.mp h
  have hfound : p.this ∈ s.mPointerList.map (·.this) := List.mem_map_of_mem hp
  unfold setCursor
  rw [hpointer]
  simp only [hsurface, if_true]
  rw [Exec.guard, if_pos hfound]
  rfl

/-- **A cursor that is set** is under the pointer exactly if its surface was there. -/
theorem under_setCursor {pointer : WlResource} {surface : Option WlResource}
    {hotspotX hotspotY : Int} (hs : s.Under x y)
    (h : s.setCursor pointer surface hotspotX hotspotY = ⟨ds, .ok t⟩) :
    t.Under x y ↔ KeepsUnder x y s (.setCursor pointer surface hotspotX hotspotY) := by
  constructor
  · intro ht p hp a hg
    cases (hg.setCursor_eq hp).symm.trans h
    have hmem := List.mem_map_of_mem (f := fun z =>
      if z.this = p.this then
        { z with mSurface := some a, mHotspotX := hotspotX, mHotspotY := hotspotY }
      else z) hp
    have hplaced := ht _ hmem a
    rw [if_pos rfl] at hplaced
    exact hplaced rfl
  · intro hkeeps
    rcases setCursor_ok h with ⟨rfl, -⟩ | ⟨p, a, hg, rfl⟩
    · exact hs
    · intro z hz b hb
      obtain ⟨w, hw, rfl⟩ := List.mem_map.mp hz
      by_cases hthis : w.this = p
      · rw [if_pos hthis] at hb ⊢
        obtain rfl : a = b := Option.some.inj hb
        exact hkeeps w hw a (hthis ▸ hg)
      · rw [if_neg hthis] at hb ⊢
        exact hs w hw b hb

/-! ## Runs -/

/-- In every state after the first motion, every cursor is under the pointer. -/
def CursorsFollow (skips : Address → Bool) (s : Server) (as : List CursorAction) : Prop :=
  ∀ bs, bs <+: as → ∀ cs t x y, (cursorMachine skips s).Reaches bs cs t →
    lastMove bs = some (x, y) → t.Under x y

/-- **When the cursors follow the pointer.** A run keeps them under it exactly if every surface that
becomes a cursor after a motion is already where its hotspot is at the pointer. -/
theorem cursors_follow_iff (skips : Address → Bool) (s : Server) (as : List CursorAction)
    (distinct : (cursorMachine skips s).Always (fun _ t => t.DistinctCursors) as) :
    CursorsFollow skips s as ↔
      ∀ bs act, bs ++ [act] <+: as → ∀ cs t x y, (cursorMachine skips s).Reaches bs cs t →
        lastMove bs = some (x, y) → KeepsUnder x y t act := by
  constructor
  · intro h bs act hprefix cs t x y ht hlast
    have hunder : t.Under x y :=
      h bs ((List.prefix_append bs [act]).trans hprefix) cs t x y ht hlast
    cases act with
    | move x' y' => trivial
    | setCursor pointer surface hotspotX hotspotY =>
      rcases hstep : t.setCursor pointer surface hotspotX hotspotY with ⟨ds, e | u⟩
      · intro p hp a hg
        cases (hg.setCursor_eq hp).symm.trans hstep
      · have hu := h _ hprefix (cs ++ ds) u x y (ht.snoc hstep)
        rw [lastMove_setCursor] at hu
        exact (under_setCursor hunder hstep).mp (hu hlast)
  · intro h bs hprefix
    induction bs using List.reverseRecOn with
    | nil =>
      intro _ _ x y _ hlast
      cases hlast
    | append_singleton bs act ih =>
      have hbefore : bs <+: as := (List.prefix_append bs [act]).trans hprefix
      intro _ u x y hu hlast
      obtain ⟨cs, t, ds, ht, hstep, rfl⟩ := Machine.reaches_snoc.mp hu
      cases act with
      | move x' y' =>
        rw [lastMove_move] at hlast
        cases hlast
        exact under_move (distinct bs hbefore cs t ht) hstep
      | setCursor pointer surface hotspotX hotspotY =>
        rw [lastMove_setCursor] at hlast
        have hunder : t.Under x y := ih hbefore cs t x y ht hlast
        exact (under_setCursor hunder hstep).mpr (h bs _ hprefix cs t x y ht hlast)

/-- A server whose client has two surfaces, at 0 and 1, and two pointers, at 2 and 3. -/
def twoPointers : Server :=
  { start 1 1 with
    resources :=
      [{ client := 0, userData := .global .compositor, destructor := some .hookClientDisconects },
        { client := 0, userData := .global .seat, destructor := some .hookClientDisconects },
        { client := 0, userData := .wrapper ⟨.surface, 0⟩, destructor := some .hookDestroy },
        { client := 0, userData := .wrapper ⟨.surface, 1⟩, destructor := some .hookDestroy },
        { client := 0, userData := .wrapper ⟨.pointer, 2⟩, destructor := some .hookDestroy },
        { client := 0, userData := .wrapper ⟨.pointer, 3⟩, destructor := some .hookDestroy }]
    clients := [0]
    nextClient := 1
    nextAddress := 4
    mPointerList := [{ this := 2, mResource := 4 }, { this := 3, mResource := 5 }] }.setSurfaces
    [some (.construct 0 2 0 (some .compositor)), some (.construct 1 3 0 (some .compositor))]

theorem reaches_twoPointers (blend : Blend) :
    (requestMachine blend 1 1).Reaches
      [.connect, .request (.bind 0 .compositor), .request (.bind 0 .seat),
        .request (.createSurface 0), .request (.createSurface 0), .request (.getPointer 1),
        .request (.getPointer 1)]
      [.new ⟨.surface, 0⟩ 0, .new ⟨.surface, 1⟩ 0, .new ⟨.pointer, 2⟩ 0, .new ⟨.pointer, 3⟩ 0]
      twoPointers := rfl

/-- Each pointer gets its cursor, they move, and the first one gets its cursor again. -/
def twoCursors (hotspotX hotspotY : Int) : List CursorAction :=
  [.setCursor 4 (some 2) 1 1, .setCursor 5 (some 3) 2 0, .move 10 20,
    .setCursor 4 (some 2) hotspotX hotspotY]

theorem distinct_twoCursors (hotspotX hotspotY : Int) :
    (cursorMachine (fun _ => false) twoPointers).Always (fun _ t => t.DistinctCursors)
      (twoCursors hotspotX hotspotY) := by
  intro bs hprefix cs t ht
  simp only [twoCursors, List.prefix_cons_iff, List.prefix_nil] at hprefix
  rcases hprefix with rfl | ⟨_, rfl, rfl | ⟨_, rfl, rfl | ⟨_, rfl, rfl | ⟨_, rfl, rfl⟩⟩⟩⟩
  all_goals
    cases ht
    exact of_decide_eq_true rfl

/-- With the hotspot it had, the cursor stays under the pointer. -/
theorem cursors_follow_twoCursors :
    CursorsFollow (fun _ => false) twoPointers (twoCursors 1 1) := by
  refine (cursors_follow_iff _ _ _ (distinct_twoCursors 1 1)).mpr ?_
  rintro bs act ⟨rest, hrest⟩ cs t x y ht hlast
  rcases bs with _ | ⟨_, _ | ⟨_, _ | ⟨_, _ | ⟨_, bs⟩⟩⟩⟩
  · cases hlast
  · cases hrest
    cases hlast
  · cases hrest
    cases hlast
  · cases hrest
    cases ht
    cases hlast
    rintro p - a ⟨c, -, hsurface⟩
    cases hsurface
    exact ⟨_, rfl, rfl, rfl⟩
  · cases bs <;> cases hrest

/-- With another hotspot, the cursor stays where it was. -/
theorem twoCursors_hotspot :
    ¬ ∀ blend width height before cs s, (requestMachine blend width height).Reaches before cs s →
      ∀ skips as, (cursorMachine skips s).Always (fun _ t => t.DistinctCursors) as →
        CursorsFollow skips s as := by
  intro h
  have hunder := h (fun bg _ _ => bg) 1 1 _ _ _ (reaches_twoPointers _) _ _
    (distinct_twoCursors 0 0) _ List.prefix_rfl _ _ 10 20 rfl rfl _ List.mem_cons_self 0 rfl
  obtain ⟨z, hz, hx, -⟩ := hunder
  cases hz
  exact absurd hx (by decide)

end Server

end WaylandTest
