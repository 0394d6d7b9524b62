import WaylandTest.Server.Sessions

/-!
# The cursors of the pointers

`Pointer::setCursor` keeps the address of a surface, which `Pointer::move` reads at every motion.
The compositor owns the surface, and knows of no pointer when it deletes it; and a new pointer has
no address to keep, but is not given null either. `cursors_live_iff` says at which motions of a run
every pointer has a surface to move: where each was given one, and the last one it was given was not
deleted.

What a pointer was given last is a matter of the run (`Lib.Machine.Last`). `Tracked` connects it to
what the pointer keeps, and the log of deletions to the surfaces that exist.
-/

set_option autoImplicit false

namespace WaylandTest

open Lib

/-- What `mSurface` points at, where null is `none`. An unset one is what the memory of the pointer
held. -/
def Pointer.points (held : Address → Option Address) (p : Pointer) : Option Address :=
  p.mSurface.or (held p.this)

namespace Server

variable {s t : Server} {q : ClientRequest} {p a : Address} {cs ds : List Call} {blend : Blend}

/-- The request makes the surface at `a` the cursor of the pointer at `p`. -/
def GivesCursor (s : Server) (q : ClientRequest) (p a : Address) : Prop :=
  match q with
  | .setCursor pointer (some surface) _ _ =>
    ∃ c, s.wrapperAt .pointer pointer = some (p, c) ∧ s.wrapperAt .surface surface = some (a, c)
  | _ => False

theorem GivesCursor.det {p' a' : Address} (h : s.GivesCursor q p a) (h' : s.GivesCursor q p' a') :
    p = p' ∧ a = a' := by
  unfold GivesCursor at h h'
  split at h
  · obtain ⟨c, hp, ha⟩ := h
    obtain ⟨c', hp', ha'⟩ := h'
    rw [hp] at hp'
    rw [ha] at ha'
    exact ⟨(Prod.mk.inj (Option.some.inj hp')).1, (Prod.mk.inj (Option.some.inj ha')).1⟩
  · exact h.elim

/-- The handles of the request stand for the pointer and the surface. -/
theorem GivesCursor.wraps (h : s.GivesCursor q p a) :
    (∃ r, s.wraps r = some ⟨.pointer, p⟩) ∧ ∃ r, s.wraps r = some ⟨.surface, a⟩ := by
  unfold GivesCursor at h
  split at h
  · next pointer surface _ _ =>
    obtain ⟨c, hp, ha⟩ := h
    exact ⟨⟨pointer, wraps_of_wrapperAt hp⟩, surface, wraps_of_wrapperAt ha⟩
  · exact h.elim

/-- The server whose pointer at `p` has the cursor and the hotspot. -/
def withCursor (s : Server) (p a : Address) (hotspotX hotspotY : Int) : Server :=
  { s with
    mPointerList := s.mPointerList.map fun z =>
      if z.this = p then
        { z with mSurface := some a, mHotspotX := hotspotX, mHotspotY := hotspotY }
      else z }

theorem givesCursor_setCursor {pointer : WlResource} {surface : Option WlResource} {x y : Int} :
    s.GivesCursor (.setCursor pointer surface x y) p a ↔
      ∃ r c, surface = some r ∧ s.wrapperAt .pointer pointer = some (p, c) ∧
        s.wrapperAt .surface r = some (a, c) := by
  cases surface with
  | none => simp [GivesCursor]
  | some r => simp [GivesCursor]

/-- **What `setCursor` does**: nothing, or it gives one pointer its cursor. -/
theorem setCursor_ok {pointer : WlResource} {surface : Option WlResource} {x y : Int}
    (h : s.setCursor pointer surface x y = ⟨ds, .ok t⟩) :
    (t = s ∧ ∀ p a, ¬ s.GivesCursor (.setCursor pointer surface x y) p a) ∨
      ∃ p a, s.GivesCursor (.setCursor pointer surface x y) p a ∧ t = s.withCursor p a x y := by
  unfold setCursor at h
  cases hp : s.wrapperAt .pointer pointer with
  | none =>
    rw [hp] at h
    cases h
    exact .inl ⟨rfl, by simp [givesCursor_setCursor, hp]⟩
  | some pc =>
    obtain ⟨p, c⟩ := pc
    cases surface with
    | none =>
      rw [hp] at h
      cases h
    | some r =>
      cases hr : s.wrapperAt .surface r with
      | none =>
        simp only [hp, hr] at h
        cases h
        exact .inl ⟨rfl, by simp [givesCursor_setCursor, hr]⟩
      | some ac =>
        obtain ⟨a, c'⟩ := ac
        simp only [hp, hr] at h
        by_cases hc : c' = c
        · rw [if_pos hc] at h
          obtain ⟨_, -, hret⟩ := (Exec.silent_guard _ _).bind_eq_ok.mp h
          cases hret
          exact .inr ⟨p, a, givesCursor_setCursor.mpr ⟨r, c, rfl, hp, hc ▸ hr⟩, rfl⟩
        · rw [if_neg hc] at h
          cases h
          -- The surface is another client's.
          refine .inl ⟨rfl, fun p' a' hg => ?_⟩
          obtain ⟨_, c'', hsome, hp', hr'⟩ := givesCursor_setCursor.mp hg
          cases hsome
          cases hp.symm.trans hp'
          cases hr.symm.trans hr'
          exact hc rfl

/-! ## What an action does to the pointers -/

/-- The action makes the surface at `a` the cursor of the pointer at `p`. -/
def SetsCursor (p : Address) (s : Server) (act : LifetimeAction) (a : Address) : Prop :=
  s.running = true ∧ ∃ q, act = .serve (.request q) ∧ s.GivesCursor q p a

theorem SetsCursor.det {p' a' : Address} {act : LifetimeAction} (h : SetsCursor p s act a)
    (h' : SetsCursor p' s act a') : p = p' ∧ a = a' := by
  obtain ⟨-, q, rfl, hg⟩ := h
  obtain ⟨-, q', hq', hg'⟩ := h'
  cases hq'
  exact hg.det hg'

/-- The pointers of `t` are ones of `s`, or one that is new and was given no cursor. -/
def KeepsPointers (s t : Server) : Prop :=
  ∀ z ∈ t.mPointerList, z ∈ s.mPointerList ∨ z.mSurface = none ∧ z.this = s.nextAddress

theorem keepsPointers_of_eq (h : t.mPointerList = s.mPointerList) : s.KeepsPointers t :=
  fun _ hz => .inl (h ▸ hz)

/-- **A served action** leaves every cursor, or it sets one. -/
theorem pointers_serve {act : ServeAction} (hstep : s.serve blend act = ⟨ds, .ok t⟩) :
    (s.KeepsPointers t ∧ ∀ q, act = .request q → ∀ p a, ¬ s.GivesCursor q p a) ∨
      ∃ q p a x y, act = .request q ∧ s.GivesCursor q p a ∧ t = s.withCursor p a x y := by
  cases act with
  | connect =>
    cases hstep
    refine .inl ⟨keepsPointers_of_eq rfl, fun q hq => ?_⟩
    cases hq
  | repaint =>
    obtain ⟨_, c, _, -, hret, -⟩ := Exec.bind_eq_ok.mp hstep
    cases hret
    refine .inl ⟨keepsPointers_of_eq rfl, fun q hq => ?_⟩
    cases hq
  | move x y =>
    refine .inl ⟨keepsPointers_of_eq ?_, fun q hq => ?_⟩
    · exact move_induct (I := fun u => u.mPointerList = s.mPointerList)
        (fun _ _ _ _ hu => hu) rfl hstep
    · cases hq
  | request q =>
    by_cases hset : ∃ pointer surface x y, q = .setCursor pointer surface x y
    · obtain ⟨pointer, surface, x, y, rfl⟩ := hset
      rcases setCursor_ok hstep with ⟨rfl, hnone⟩ | ⟨p, a, hg, rfl⟩
      · refine .inl ⟨keepsPointers_of_eq rfl, fun q hq => ?_⟩
        cases hq
        exact hnone
      · exact .inr ⟨_, p, a, x, y, rfl, hg, rfl⟩
    · refine .inl ⟨?_, fun q' hq' p a hg => ?_⟩
      · have hq : Handled s q ⟨ds, .ok t⟩ := .eq hstep
        cases hq with
        | pointerCreated hr =>
          intro z hz
          rcases List.mem_append.mp hz with hz | hz
          · exact .inl hz
          · cases List.mem_singleton.mp hz
            exact .inr ⟨rfl, rfl⟩
        | cursorSet hps => exact absurd ⟨_, _, _, _, rfl⟩ hset
        | _ => exact keepsPointers_of_eq rfl
      · cases hq'
        unfold GivesCursor at hg
        split at hg
        · exact hset ⟨_, _, _, _, rfl⟩
        · exact hg

/-- **An action** leaves every cursor, or it sets one. -/
theorem Owned.pointers_lifetime (h : Owned cs s) {act : LifetimeAction}
    (hstep : s.lifetime blend act = ⟨ds, .ok t⟩) :
    (s.KeepsPointers t ∧ ∀ p a, ¬ SetsCursor p s act a) ∨
      ∃ p a x y, SetsCursor p s act a ∧ t = s.withCursor p a x y := by
  have hnone : ∀ {act}, (∀ q, act ≠ .serve (.request q)) → ∀ p a, ¬ SetsCursor p s act a := by
    intro act hact p a hset
    obtain ⟨-, q, hq, -⟩ := hset
    exact hact q hq
  unfold Server.lifetime at hstep
  by_cases hrun : s.running = true
  · rw [if_pos hrun] at hstep
    cases act with
    | serve act =>
      rcases pointers_serve hstep with ⟨hk, hgives⟩ | ⟨q, p, a, x, y, rfl, hg, rfl⟩
      · refine .inl ⟨hk, fun p a hset => ?_⟩
        obtain ⟨-, q, hq, hg⟩ := hset
        exact hgives q (LifetimeAction.serve.inj hq) p a hg
      · exact .inr ⟨p, a, x, y, ⟨hrun, q, rfl, hg⟩, rfl⟩
    | destroyResource r =>
      refine .inl ⟨?_, hnone fun q hq => by cases hq⟩
      rcases destroyResource_ok hstep with ⟨-, -, rfl⟩ | ⟨ps, ws, rfl, -, -, -⟩
      · exact keepsPointers_of_eq rfl
      · exact keepsPointers_of_eq rfl
    | forget c =>
      refine .inl ⟨?_, hnone fun q hq => by cases hq⟩
      cases hstep
      unfold forget
      split
      · exact keepsPointers_of_eq rfl
      · exact keepsPointers_of_eq rfl
    | teardown =>
      refine .inl ⟨?_, hnone fun q hq => by cases hq⟩
      obtain ⟨_, hret, -⟩ := Exec.log_bind_eq_ok.mp hstep
      cases hret
      intro z hz
      cases hz
  · rw [if_neg hrun] at hstep
    cases hstep
    exact .inl ⟨keepsPointers_of_eq rfl, fun p a hset => hrun hset.1⟩

/-! ## What a run gave the pointers -/

/-- **What handles stand for**, in the terms of `Moved`: an action makes a wrapper and deletes some,
and no handle loses what it stood for. -/
theorem Owned.wraps_lifetime (h : Owned cs s) {act : LifetimeAction}
    (hstep : s.lifetime blend act = ⟨ds, .ok t⟩) :
    ∃ gone born, (s.newborn born ++ s.wrappers).Perm (gone ++ t.wrappers) ∧
      deleted ds = gone.map (·.1.address) ∧ ∀ r, t.wraps r = (s.bear born).wraps r := by
  rcases h.lifetime_cases hstep with ⟨gone, born, hm⟩ | ⟨u, gone, r, hm, rfl, -⟩
  · exact ⟨gone, born, hm.wrappers, hm.calls.deleted, hm.wraps⟩
  · exact ⟨gone, none, hm.wrappers, hm.calls.deleted, fun r' => wraps_bury.trans (hm.wraps r')⟩

/-- The wrapper a handle stands for exists, or it was deleted. -/
def Accounted (cs : List Call) (s : Server) : Prop :=
  ∀ r w, s.wraps r = some w → (w, r) ∈ s.wrappers ∨ w.address ∈ deleted cs

theorem Owned.accounted_lifetime (h : Owned cs s) (hacc : Accounted cs s) {act : LifetimeAction}
    (hstep : s.lifetime blend act = ⟨ds, .ok t⟩) : Accounted (cs ++ ds) t := by
  obtain ⟨gone, born, hperm, hgone, hwraps⟩ := h.wraps_lifetime hstep
  intro r w hw
  have hall : (w, r) ∈ s.newborn born ++ s.wrappers → (w, r) ∈ t.wrappers ∨
      w.address ∈ deleted (cs ++ ds) := by
    intro hmem
    rw [deleted_append, hgone]
    rcases List.mem_append.mp (hperm.mem_iff.mp hmem) with hmem | hmem
    · exact .inr (List.mem_append_right _ (List.mem_map_of_mem hmem))
    · exact .inl hmem
  rw [hwraps] at hw
  rcases wraps_bear hw with hnew | hold
  · exact hall (List.mem_append_left _ hnew)
  · rcases hacc r w hold with hmem | hdel
    · exact hall (List.mem_append_right _ hmem)
    · apply Or.inr
      rw [deleted_append]
      exact List.mem_append_left _ hdel

/-- What a handle stands for was made before. -/
theorem Owned.address_lt (h : Owned cs s) (hacc : Accounted cs s) {r : WlResource} {w : Wrapper}
    (hw : s.wraps r = some w) : w.address < s.nextAddress := by
  apply h.ledger.numbered
  rcases hacc r w hw with hmem | hdel
  · exact List.mem_append_right _ (List.mem_map_of_mem hmem)
  · exact List.mem_append_left _ hdel

/-- **A surface that a handle stands for** exists exactly if it was not deleted. -/
theorem Owned.surface_iff (h : Owned cs s) (hacc : Accounted cs s) {r : WlResource}
    (hr : s.wraps r = some ⟨.surface, a⟩) :
    a ∈ s.surfaces.map (·.this) ↔ a ∉ deleted cs := by
  constructor
  · intro ha
    obtain ⟨x, hx, rfl⟩ := List.mem_map.mp ha
    have hw : (⟨.surface, x.this⟩, x.mResource) ∈ s.wrappers := wrapper_of_surface hx
    exact h.ledger.not_gone (List.mem_map.mpr ⟨_, hw, rfl⟩)
  · intro hlive
    have hw : (⟨.surface, a⟩, r) ∈ s.wrappers := (hacc r _ hr).resolve_right hlive
    obtain ⟨x, hx, hthis, -⟩ := surface_of_wrapper hw rfl
    exact List.mem_map.mpr ⟨x, hx, hthis⟩

section Runs

variable {width height : Int} {as : List LifetimeAction}

/-- What a run knows of its pointers: each keeps the surface the run made its cursor last, and both
are ones that handles stand for. -/
structure Tracked (blend : Blend) (width height : Int) (as : List LifetimeAction) (cs : List Call)
    (s : Server) : Prop where
  owned : Owned cs s
  accounted : Accounted cs s
  named : ∀ p a, (lifetimeMachine blend width height).Last (SetsCursor p) as a →
    (∃ r, s.wraps r = some ⟨.pointer, p⟩) ∧ ∃ r, s.wraps r = some ⟨.surface, a⟩
  cursors : ∀ z ∈ s.mPointerList, ∀ a,
    z.mSurface = some a ↔ (lifetimeMachine blend width height).Last (SetsCursor z.this) as a

theorem tracked_start (blend : Blend) (width height : Int) :
    Tracked blend width height [] [] (start width height) where
  owned := owned_start width height
  accounted _ _ hw := nomatch hw
  named _ _ hlast := absurd hlast Machine.not_last_nil
  cursors _ hz := nomatch hz

/-- Nothing was given to the pointer that comes next. -/
theorem Tracked.not_last (h : Tracked blend width height as cs s) :
    ¬ (lifetimeMachine blend width height).Last (SetsCursor s.nextAddress) as a := by
  intro hlast
  obtain ⟨⟨r, hr⟩, -⟩ := h.named _ a hlast
  exact Nat.lt_irrefl _ (h.owned.address_lt h.accounted hr)

theorem Tracked.lifetime (h : Tracked blend width height as cs s) {act : LifetimeAction}
    (hs : (lifetimeMachine blend width height).Reaches as cs s)
    (hstep : s.lifetime blend act = ⟨ds, .ok t⟩) :
    Tracked blend width height (as ++ [act]) (cs ++ ds) t where
  owned := h.owned.lifetime hstep
  accounted := h.owned.accounted_lifetime h.accounted hstep
  named p a hlast := by
    obtain ⟨gone, born, -, -, hwraps⟩ := h.owned.wraps_lifetime hstep
    have hnamed : (∃ r, s.wraps r = some ⟨.pointer, p⟩) ∧ ∃ r, s.wraps r = some ⟨.surface, a⟩ := by
      rcases (Machine.last_snoc hs).mp hlast with ⟨-, _, -, hg⟩ | ⟨hold, -⟩
      · exact hg.wraps
      · exact h.named p a hold
    obtain ⟨⟨r, hr⟩, r', hr'⟩ := hnamed
    exact ⟨⟨r, (hwraps r).trans (wraps_bear_of hr)⟩, r', (hwraps r').trans (wraps_bear_of hr')⟩
  cursors z hz b := by
    rcases h.owned.pointers_lifetime hstep with ⟨hkeeps, hnone⟩ | ⟨p, a, x, y, hset, rfl⟩
    · rw [Machine.last_kept hs (hnone z.this)]
      rcases hkeeps z hz with hold | ⟨hunset, hthis⟩
      · exact h.cursors z hold b
      · rw [hunset, hthis]
        exact ⟨fun hb => (by cases hb), fun hb => absurd hb h.not_last⟩
    · obtain ⟨y, hy, rfl⟩ := List.mem_map.mp hz
      by_cases hthis : y.this = p
      · simp only [if_pos hthis]
        rw [hthis, Machine.last_set hs hset fun b hb => (hset.det hb).2]
        exact Option.some_inj
      · simp only [if_neg hthis]
        rw [Machine.last_kept hs fun b hb => hthis (hset.det hb).1.symm]
        exact h.cursors y hy b

theorem reaches_tracked (h : (lifetimeMachine blend width height).Reaches as cs s) :
    Tracked blend width height as cs s :=
  h.induct (P := Tracked blend width height) (tracked_start blend width height)
    fun _ _ _ _ _ _ hs ht hstep => ht.lifetime hs hstep

/-- A move finds, at each pointer, null or a surface that exists, if `held` is what the memory of
the pointers held. -/
def MovesLive (held : Address → Option Address) (s : Server) : LifetimeAction → Prop
  | .serve (.move _ _) =>
    ∀ p ∈ s.mPointerList, ∀ a, p.points held = some a → a ∈ s.surfaces.map (·.this)
  | _ => True

/-- No memory makes up for a cursor that is unset: it may hold an address where no surface is. -/
theorem Owned.points_live_iff (h : Owned cs s) (z : Pointer) :
    (∀ held a, z.points held = some a → a ∈ s.surfaces.map (·.this)) ↔
      ∃ a, z.mSurface = some a ∧ a ∈ s.surfaces.map (·.this) := by
  unfold Pointer.points
  cases hz : z.mSurface with
  | none =>
    constructor
    · intro hlive
      obtain ⟨x, hx, hthis⟩ := List.mem_map.mp (hlive (fun _ => some s.nextAddress) _ rfl)
      have hw : (⟨.surface, x.this⟩, x.mResource) ∈ s.wrappers := wrapper_of_surface hx
      have hlt : x.this < s.nextAddress :=
        h.ledger.numbered _ (List.mem_append_right _ (List.mem_map.mpr ⟨_, hw, rfl⟩))
      exact absurd hthis (Nat.ne_of_lt hlt)
    · rintro ⟨_, hsome, -⟩
      cases hsome
  | some b =>
    constructor
    · intro hlive
      exact ⟨b, rfl, hlive (fun _ => none) b rfl⟩
    · rintro ⟨_, hsome, hb⟩ held a ha
      cases hsome
      cases ha
      exact hb

/-- **When `Seat::move` only touches surfaces that exist.** It does so in a run, whatever the memory
of the pointers held, exactly if at each move every pointer was given a cursor by some `set_cursor`
of the run, and the surface of the last one was not deleted since. -/
theorem cursors_live_iff (blend : Blend) (width height : Int) (as : List LifetimeAction) :
    (∀ held, (lifetimeMachine blend width height).Along (MovesLive held) as) ↔
      ∀ bs x y, bs ++ [.serve (.move x y)] <+: as →
        ∀ cs s, (lifetimeMachine blend width height).Reaches bs cs s → ∀ p ∈ s.mPointerList,
          ∃ a, (lifetimeMachine blend width height).Last (SetsCursor p.this) bs a ∧
            a ∉ deleted cs := by
  have hpointer : ∀ {bs cs s}, (lifetimeMachine blend width height).Reaches bs cs s →
      ∀ p ∈ s.mPointerList, ∀ a, (p.mSurface = some a ∧ a ∈ s.surfaces.map (·.this)) ↔
        (lifetimeMachine blend width height).Last (SetsCursor p.this) bs a ∧ a ∉ deleted cs := by
    intro bs cs s hs p hp a
    have ht := reaches_tracked hs
    rw [ht.cursors p hp a]
    apply and_congr_right
    intro hlast
    obtain ⟨-, r, hr⟩ := ht.named _ a hlast
    exact ht.owned.surface_iff ht.accounted hr
  constructor
  · intro h bs x y hprefix cs s hs p hp
    obtain ⟨a, ha⟩ := ((reaches_tracked hs).owned.points_live_iff p).mp fun held =>
      h held bs _ hprefix cs s hs p hp
    exact ⟨a, (hpointer hs p hp a).mp ha⟩
  · intro h held bs act hprefix cs s hs
    unfold MovesLive
    split
    · next x y =>
      intro p hp
      obtain ⟨a, ha⟩ := h bs x y hprefix cs s hs p hp
      exact ((reaches_tracked hs).owned.points_live_iff p).mpr ⟨a, (hpointer hs p hp a).mpr ha⟩ held
    · trivial

/-- A client makes a surface the cursor of its pointer and destroys it. -/
def destroyedCursor : List LifetimeAction :=
  [.serve .connect, .serve (.request (.bind 0 .compositor)), .serve (.request (.bind 0 .seat)),
    .serve (.request (.createSurface 0)), .serve (.request (.getPointer 1)),
    .serve (.request (.setCursor 3 (some 2) 0 0)), .destroyResource 2]

/-- The pointer then moves a surface that was deleted. -/
theorem destroyedCursor_move :
    ¬ ∀ blend width height as held,
        (lifetimeMachine blend width height).Along (MovesLive held) as := by
  intro h
  have hlive := h (fun bg _ _ => bg) 1 1 (destroyedCursor ++ [.serve (.move 0 0)]) (fun _ => none)
    destroyedCursor (.serve (.move 0 0)) List.prefix_rfl _ _ rfl _ (List.mem_singleton_self _) 0 rfl
  exact absurd hlive (by decide)

end Runs

end Server

end WaylandTest
