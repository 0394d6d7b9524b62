import WaylandTest.Server.Handlers

/-!
# What an action does to the wrappers

Every claim about the lifetime of wrappers rests on four things of a server: which wrappers exist
and with which handles (`wrappers`), which wrapper the destructor of a handle would be run on
(`hook`), which handles are live, and the address of the next wrapper. `Moved` says what an action
did to them: it made at most one wrapper, deleted some that existed, and set the destructor of just
these to null. The module has one lemma of this form for each action.

Most actions leave all four alone (`Frame`). For those on surfaces that is because a request, the
layout and a repaint leave the `identity` of a surface alone.
-/

set_option autoImplicit false

namespace WaylandTest

open Lib

/-! ## The identity of a surface -/

/-- What a surface keeps from its construction on, its shell surface apart, with that. -/
def Surface.identity (s : Surface) :
    Address × WlResource × WlClient × Option ShellSurface × Option DestroyListener :=
  (s.this, s.mResource, s.mClient, s.mShellSurface, s.mDestroyListener)

namespace Surface

variable {s t : Surface} {shm : ShmTable}

theorem this_of_identity (h : s.identity = t.identity) : s.this = t.this :=
  congrArg (fun i => i.1) h

theorem mResource_of_identity (h : s.identity = t.identity) : s.mResource = t.mResource :=
  congrArg (fun i => i.2.1) h

theorem mClient_of_identity (h : s.identity = t.identity) : s.mClient = t.mClient :=
  congrArg (fun i => i.2.2.1) h

theorem mShellSurface_of_identity (h : s.identity = t.identity) :
    s.mShellSurface = t.mShellSurface := congrArg (fun i => i.2.2.2.1) h

theorem wrappers_of_identity (h : s.identity = t.identity) : s.wrappers = t.wrappers := by
  unfold wrappers
  rw [this_of_identity h, mResource_of_identity h, mShellSurface_of_identity h]

theorem identity_surfaceCommit : s.surfaceCommit.1.identity = s.identity := by
  unfold surfaceCommit
  split
  · rfl
  · have hfill : s.fillBack.1.identity = s.identity := by
      unfold fillBack
      simp only
      split <;> rfl
    have hrelease : ∀ u : Surface, u.releaseBack.1.identity = u.identity := by
      intro u
      unfold releaseBack
      split <;> rfl
    exact (hrelease _).trans hfill

theorem identity_unlockBuffer : s.unlockBuffer.1.identity = s.identity := by
  unfold unlockBuffer
  split <;> rfl

/-- Every operation of a surface by itself keeps its identity. -/
theorem identity_perform (op : SurfaceOp) : (s.perform shm op).1.identity = s.identity := by
  cases op with
  | attach b x y =>
    show (s.surfaceAttach shm b x y).1.identity = _
    unfold surfaceAttach
    split <;> rfl
  | frame cb => rfl
  | commit => exact identity_surfaceCommit
  | lockBuffer => rfl
  | unlockBuffer => exact identity_unlockBuffer
  | setX x => rfl
  | setY y => rfl

theorem identity_repainted : (s.repainted shm).1.identity = s.identity := by
  unfold repainted
  split
  · exact identity_unlockBuffer
  · rfl

end Surface

/-- Two lists of the compositor with the same entries, up to what requests change. -/
def SameSurfaces (ps qs : List (Option Surface)) : Prop :=
  ps.map (Option.map Surface.identity) = qs.map (Option.map Surface.identity)

theorem contents_map {α β : Type} (f : α → β) (ps : List (Option α)) :
    contents (ps.map (Option.map f)) = (contents ps).map f := by
  induction ps with
  | nil => rfl
  | cons p ps ih => cases p <;> simp [ih]

theorem SameSurfaces.contents {ps qs : List (Option Surface)} (h : SameSurfaces ps qs) :
    (contents ps).map Surface.identity = (contents qs).map Surface.identity := by
  rw [← contents_map, ← contents_map]
  exact congrArg _ h

theorem SameSurfaces.trans {ps qs rs : List (Option Surface)} (h : SameSurfaces ps qs)
    (h' : SameSurfaces qs rs) : SameSurfaces ps rs := Eq.trans h h'

theorem SameSurfaces.map {f : Surface → Surface} (hf : ∀ s, (f s).identity = s.identity)
    (ps : List (Option Surface)) : SameSurfaces (ps.map (Option.map f)) ps := by
  unfold SameSurfaces
  rw [List.map_map]
  refine List.map_congr_left fun p _ => ?_
  cases p with
  | none => rfl
  | some s => exact congrArg some (hf s)

/-- What is read off the identity is the same of surfaces with the same identities. -/
theorem map_of_identity {β : Type} {f : Surface → β}
    (hf : ∀ s t : Surface, s.identity = t.identity → f s = f t) {ss ts : List Surface}
    (h : ss.map Surface.identity = ts.map Surface.identity) : ss.map f = ts.map f := by
  induction ss generalizing ts with
  | nil =>
    cases ts with
    | nil => rfl
    | cons t ts => cases h
  | cons s ss ih =>
    cases ts with
    | nil => cases h
    | cons t ts =>
      rw [List.map_cons, List.map_cons] at h
      obtain ⟨hs, hss⟩ := List.cons.inj h
      rw [List.map_cons, List.map_cons, hf s t hs, ih hss]

theorem flatMap_wrappers_of_identity {ss ts : List Surface}
    (h : ss.map Surface.identity = ts.map Surface.identity) :
    ss.flatMap Surface.wrappers = ts.flatMap Surface.wrappers := by
  rw [List.flatMap_def, List.flatMap_def,
    map_of_identity (fun _ _ => Surface.wrappers_of_identity) h]

namespace Compositor

/-- The layout changes no more than the position. -/
theorem map_relaid {β : Type} {f : Surface → β} (hf : ∀ s y, f (s.setY y) = f s)
    (displayHeight : Int) (ss : List Surface) : (relaid displayHeight ss).map f = ss.map f := by
  have hplaced : ∀ height y (ts : List Surface), (placed height y ts).map f = ts.map f := by
    intro height y ts
    induction ts generalizing y with
    | nil => rfl
    | cons t ts ih =>
      unfold placed
      split
      · rw [List.map_cons, List.map_cons, ih, hf]
      · rw [List.map_cons, List.map_cons, ih]
  unfold relaid
  split
  · rfl
  · exact hplaced _ _ ss

theorem identity_relaid (displayHeight : Int) (ss : List Surface) :
    (relaid displayHeight ss).map Surface.identity = ss.map Surface.identity :=
  map_relaid (fun _ _ => rfl) displayHeight ss

theorem sameSurfaces_relaid (displayHeight : Int) (ss : List Surface) :
    SameSurfaces ((relaid displayHeight ss).map some) (ss.map some) := by
  have h := congrArg (List.map some) (identity_relaid displayHeight ss)
  unfold SameSurfaces
  rw [List.map_map, List.map_map] at h ⊢
  exact h

/-- A repaint changes no identity, and no region. -/
theorem repaint_sameSurfaces {blend : Blend} {shm : ShmTable} {c c' : Compositor} {cs : List Call}
    (h : c.repaint blend shm = ⟨cs, .ok c'⟩) :
    SameSurfaces c'.mSurfacesList c.mSurfacesList ∧ c'.mRegions = c.mRegions := by
  obtain ⟨ss, _, _, _, _, hlist, -, -, -, rfl⟩ := repaint_cases h
  rw [hlist]
  exact ⟨(SameSurfaces.map (fun _ => Surface.identity_repainted) _).trans
    (sameSurfaces_relaid _ ss), rfl⟩

end Compositor

namespace Server

variable {s t u : Server} {r r' : WlResource} {ws gone : List (Wrapper × WlResource)} {x : Resource}

/-! ## What an action does -/

/-- The addresses of the wrappers the calls delete. -/
def deleted (cs : List Call) : List Address :=
  cs.filterMap fun
    | .delete w => some w.address
    | _ => none

/-- The handles whose destructor the calls set to null. -/
def disarmed (cs : List Call) : List WlResource :=
  cs.filterMap fun
    | .resourceSetDestructor r => some r
    | _ => none

@[simp] theorem deleted_append (cs ds : List Call) :
    deleted (cs ++ ds) = deleted cs ++ deleted ds :=
  List.filterMap_append

theorem deleted_deleteCalls (ws : List (Wrapper × WlResource)) :
    deleted (deleteCalls ws) = ws.map (·.1.address) := by
  unfold deleteCalls deleted
  induction ws with
  | nil => rfl
  | cons w ws ih => simpa using ih

theorem disarmed_deleteCalls (ws : List (Wrapper × WlResource)) :
    disarmed (deleteCalls ws) = ws.map (·.2) := by
  unfold deleteCalls disarmed
  induction ws with
  | nil => rfl
  | cons w ws ih => simpa using ih

/-- The calls delete the wrappers `gone`, and disarm the resources of just these. -/
structure Deletes (cs : List Call) (gone : List (Wrapper × WlResource)) : Prop where
  deleted : deleted cs = gone.map (·.1.address)
  disarmed : disarmed cs = gone.map (·.2)

theorem deletes_nil : Deletes [] [] := ⟨rfl, rfl⟩

theorem deletes_deleteCalls (ws : List (Wrapper × WlResource)) : Deletes (deleteCalls ws) ws :=
  ⟨deleted_deleteCalls ws, disarmed_deleteCalls ws⟩

/-- The call neither deletes a wrapper nor disarms a resource. -/
def Spares : Call → Prop
  | .resourceSetDestructor _ => False
  | .delete _ => False
  | _ => True

theorem deletes_of_spares {cs : List Call} (h : ∀ call ∈ cs, Spares call) : Deletes cs [] := by
  induction cs with
  | nil => exact deletes_nil
  | cons call cs ih =>
    have hcs := ih fun c hc => h c (List.mem_cons_of_mem call hc)
    have hcall := h call List.mem_cons_self
    cases call with
    | resourceSetDestructor r => exact hcall.elim
    | delete w => exact hcall.elim
    | _ => exact ⟨hcs.deleted, hcs.disarmed⟩

/-- The server with the wrapper an action makes, if it makes one. -/
def bear (s : Server) : Option (WrapperClass × WlClient) → Server
  | none => s
  | some (kind, c) => s.create kind c

/-- The wrapper an action makes. -/
def newborn (s : Server) : Option (WrapperClass × WlClient) → List (Wrapper × WlResource)
  | none => []
  | some (kind, _) => [(⟨kind, s.nextAddress⟩, s.resources.length)]

theorem wraps_create {kind : WrapperClass} {c : WlClient} :
    (s.create kind c).wraps r =
      if r = s.resources.length then some ⟨kind, s.nextAddress⟩ else s.wraps r :=
  wraps_addResource

/-- A handle stands for the wrapper an action makes, or for what it stood for before. -/
theorem wraps_bear {born : Option (WrapperClass × WlClient)} {w : Wrapper}
    (hw : (s.bear born).wraps r = some w) : (w, r) ∈ s.newborn born ∨ s.wraps r = some w := by
  cases born with
  | none => exact .inr hw
  | some b =>
    rw [bear, wraps_create] at hw
    split at hw
    · next hr =>
      rw [← Option.some.inj hw, hr]
      exact .inl (List.mem_singleton_self _)
    · exact .inr hw

/-- A handle goes on to stand for what it stands for. -/
theorem wraps_bear_of {born : Option (WrapperClass × WlClient)} {w : Wrapper}
    (hw : s.wraps r = some w) : (s.bear born).wraps r = some w := by
  cases born with
  | none => exact hw
  | some b => rw [bear, wraps_create, if_neg (Nat.ne_of_lt (wraps_lt hw)), hw]

/-- The compositor hears of the destruction of every surface. -/
def Listens (s : Server) : Prop := ∀ x ∈ s.surfaces, x.mDestroyListener = some .compositor

theorem listens_of_identity
    (h : t.surfaces.map Surface.identity = s.surfaces.map Surface.identity) (hs : s.Listens) :
    t.Listens := by
  intro x hx
  have hmem : x.identity ∈ s.surfaces.map Surface.identity := h ▸ List.mem_map_of_mem hx
  obtain ⟨y, hy, heq⟩ := List.mem_map.mp hmem
  rw [← hs y hy]
  exact (congrArg (fun i => i.2.2.2.2) heq).symm

/-- What an action from `s` to `t` with the calls `cs` did to the wrappers: it made `born`, deleted
`gone`, and disarmed the resources of just these. -/
structure Moved (s t : Server) (cs : List Call) (gone : List (Wrapper × WlResource))
    (born : Option (WrapperClass × WlClient)) : Prop where
  wrappers : (s.newborn born ++ s.wrappers).Perm (gone ++ t.wrappers)
  existed : ∃ rest, s.wrappers.Perm (gone ++ rest)
  hook : ∀ r, t.hook r = if r ∈ gone.map (·.2) then none else (s.bear born).hook r
  wraps : ∀ r, t.wraps r = (s.bear born).wraps r
  live : ∀ r, (s.bear born).live r = true → t.live r = true
  next : t.nextAddress = (s.bear born).nextAddress
  calls : Deletes cs gone
  listens : s.Listens → t.Listens

/-- The action left the wrappers alone. -/
structure Frame (s t : Server) : Prop where
  wrappers : t.wrappers = s.wrappers
  hook : ∀ r, t.hook r = s.hook r
  wraps : ∀ r, t.wraps r = s.wraps r
  live : ∀ r, s.live r = true → t.live r = true
  next : t.nextAddress = s.nextAddress
  listens : s.Listens → t.Listens

theorem Frame.refl (s : Server) : Frame s s :=
  ⟨rfl, fun _ => rfl, fun _ => rfl, fun _ h => h, rfl, id⟩

theorem Frame.trans (h : Frame s t) (h' : Frame t u) : Frame s u :=
  ⟨h'.wrappers.trans h.wrappers, fun r => (h'.hook r).trans (h.hook r),
    fun r => (h'.wraps r).trans (h.wraps r),
    fun r hr => h'.live r (h.live r hr), h'.next.trans h.next, fun hl => h'.listens (h.listens hl)⟩

theorem Frame.moved {cs : List Call} (h : Frame s t) (hcs : Deletes cs []) :
    Moved s t cs [] none where
  wrappers := by rw [h.wrappers]; exact .refl _
  existed := ⟨s.wrappers, .refl _⟩
  hook r := by rw [h.hook r]; rfl
  wraps := h.wraps
  live := h.live
  next := h.next
  calls := hcs
  listens := h.listens

/-- A resource that is no wrapper's is made. -/
theorem frame_addResource (hx : x.userData.wrapper? = none) : Frame s (s.addResource x) where
  wrappers := rfl
  hook r := by
    rw [hook_addResource]
    by_cases hr : r = s.resources.length
    · have hout : s.hook r = none :=
        Option.eq_none_iff_forall_ne_some.mpr fun w hw => Nat.ne_of_lt (hook_lt hw) hr
      have hnew : x.hook = none := by
        unfold Resource.hook
        split
        · next hu =>
          rw [hu] at hx
          cases hx
        · rfl
      rw [if_pos hr, hnew, hout]
    · rw [if_neg hr]
  wraps r := by
    rw [wraps_addResource]
    by_cases hr : r = s.resources.length
    · have hout : s.wraps r = none :=
        Option.eq_none_iff_forall_ne_some.mpr fun w hw => Nat.ne_of_lt (wraps_lt hw) hr
      rw [if_pos hr, hx, hout]
    · rw [if_neg hr]
  live r := live_addResource
  next := rfl
  listens := id

/-- The surfaces are changed, but not their identities. -/
theorem frame_setSurfaces {ps : List (Option Surface)}
    (h : SameSurfaces ps s.mCompositor.mSurfacesList) : Frame s (s.setSurfaces ps) where
  wrappers := by
    unfold Server.wrappers surfaces setSurfaces
    rw [flatMap_wrappers_of_identity h.contents]
  hook _ := rfl
  wraps _ := rfl
  live _ hr := hr
  next := rfl
  listens := listens_of_identity h.contents

theorem frame_updateSurface {a : Address} {f : Surface → Surface}
    (hf : ∀ x, (f x).identity = x.identity) : Frame s (s.updateSurface a f) := by
  refine frame_setSurfaces (SameSurfaces.map (fun x => ?_) _)
  split
  · exact hf x
  · rfl

/-! ## New wrappers -/

/-- A wrapper is made and given to its owner. -/
theorem moved_create {kind : WrapperClass} {c : WlClient} {cs : List Call}
    (hw : ((⟨kind, s.nextAddress⟩, s.resources.length) :: s.wrappers).Perm t.wrappers)
    (hr : t.resources = (s.create kind c).resources) (hn : t.nextAddress = s.nextAddress + 1)
    (hcs : Deletes cs []) (hl : s.Listens → t.Listens) :
    Moved s t cs [] (some (kind, c)) where
  wrappers := hw
  existed := ⟨s.wrappers, .refl _⟩
  hook _ := hook_congr hr
  wraps _ := wraps_congr hr
  live _ h := (live_congr hr).trans h
  next := hn
  calls := hcs
  listens := hl

theorem perm_first {α : Type} (w : α) (as bs cs : List α) :
    (w :: (as ++ bs ++ cs)).Perm (as ++ [w] ++ bs ++ cs) := by
  rw [List.append_assoc, List.append_assoc, List.append_assoc]
  exact List.perm_middle.symm

theorem perm_second {α : Type} (w : α) (as bs cs : List α) :
    (w :: (as ++ bs ++ cs)).Perm (as ++ (bs ++ [w]) ++ cs) := by
  rw [← List.append_assoc, List.append_assoc (as ++ bs)]
  exact List.perm_middle.symm

theorem moved_surfaceCreated (s : Server) (c : WlClient) :
    Moved s ((s.create .surface c).setSurfaces (s.mCompositor.mSurfacesList ++
        [some (Surface.construct s.nextAddress s.resources.length c (some .compositor))]))
      [.new ⟨.surface, s.nextAddress⟩ c] [] (some (.surface, c)) := by
  refine moved_create ?_ rfl rfl ⟨rfl, rfl⟩ fun hs x hx => ?_
  · unfold wrappers surfaces
    show List.Perm _ ((contents (s.mCompositor.mSurfacesList ++ [some _])).flatMap _ ++ _ ++ _)
    rw [contents_append, List.flatMap_append]
    exact perm_first _ _ _ _
  · rcases List.mem_append.mp (mem_contents.mp hx) with hx | hx
    · exact hs x (mem_contents.mpr hx)
    · cases List.mem_singleton.mp hx
      rfl

theorem moved_regionCreated (s : Server) (c : WlClient) :
    Moved s { s.create .region c with
        mCompositor := { s.mCompositor with
          mRegions := s.mCompositor.mRegions ++ [⟨s.nextAddress, s.resources.length⟩] } }
      [.new ⟨.region, s.nextAddress⟩ c] [] (some (.region, c)) := by
  refine moved_create ?_ rfl rfl ⟨rfl, rfl⟩ id
  unfold wrappers
  show List.Perm _ (_ ++ (s.mCompositor.mRegions ++ [_]).map _ ++ _)
  rw [List.map_append]
  exact perm_second _ _ _ _

theorem moved_pointerCreated (s : Server) (c : WlClient) :
    Moved s { s.create .pointer c with
        mPointerList :=
          s.mPointerList ++ [{ this := s.nextAddress, mResource := s.resources.length }] }
      [.new ⟨.pointer, s.nextAddress⟩ c] [] (some (.pointer, c)) := by
  refine moved_create ?_ rfl rfl ⟨rfl, rfl⟩ id
  unfold wrappers
  show List.Perm _ (_ ++ _ ++ (s.mPointerList ++ [_]).map _)
  rw [List.map_append, ← List.append_assoc]
  exact (List.perm_append_singleton _ _).symm

/-! ## Surfaces by their addresses -/

/-- The addresses of the surfaces are among those of the wrappers. -/
theorem surfaces_sublist (s : Server) :
    (s.surfaces.map (·.this)).Sublist (s.wrappers.map (·.1.address)) := by
  have hflat : ∀ ss : List Surface,
      (ss.map (·.this)).Sublist ((ss.flatMap Surface.wrappers).map (·.1.address)) := by
    intro ss
    induction ss with
    | nil => exact .slnil
    | cons x ss ih =>
      rw [List.map_cons, List.flatMap_cons, List.map_append]
      show List.Sublist ([x.this] ++ _) _
      refine List.Sublist.append ?_ ih
      unfold Surface.wrappers
      rw [List.map_append]
      exact List.sublist_append_right _ _
  unfold wrappers
  rw [List.append_assoc, List.map_append]
  exact (hflat _).trans (List.sublist_append_left _ _)

theorem surface?_this {a : Address} {x : Surface} (h : s.surface? a = some x) : x.this = a := by
  simpa using List.find?_some h

/-- A surface of the list is found. -/
theorem exists_surface? {a : Address} {x : Surface} (hx : x ∈ s.surfaces) (hthis : x.this = a) :
    ∃ y, s.surface? a = some y :=
  Option.isSome_iff_exists.mp (List.find?_isSome.mpr ⟨x, hx, decide_eq_true hthis⟩)

/-- With distinct addresses, the surfaces are the one at `a` and others. -/
theorem surfaces_split (nodup : (s.wrappers.map (·.1.address)).Nodup) {a : Address} {x : Surface}
    (h : s.surface? a = some x) :
    x.this = a ∧ ∃ before after, s.surfaces = before ++ x :: after ∧
      (∀ y ∈ before, y.this ≠ a) ∧ ∀ y ∈ after, y.this ≠ a := by
  obtain ⟨-, before, after, hsplit, hbefore⟩ := List.find?_eq_some_iff_append.mp h
  have hthis : x.this = a := surface?_this h
  have hnodup := (surfaces_sublist s).nodup nodup
  rw [hsplit, List.map_append, List.map_cons, List.nodup_append, List.nodup_cons] at hnodup
  refine ⟨hthis, before, after, hsplit, fun y hy => ?_, fun y hy heq => ?_⟩
  · simpa using hbefore y hy
  · exact hnodup.2.1.1 (List.mem_map.mpr ⟨y, hy, heq.trans hthis.symm⟩)

/-- What a change of the surface at `a` does to the surfaces. -/
theorem surfaces_updateSurface {a : Address} {f : Surface → Surface} :
    (s.updateSurface a f).surfaces =
      s.surfaces.map fun x => if x.this = a then f x else x := contents_map _ _

/-- A surface's shell surface is replaced: the new one is made, and the old one deleted. -/
theorem moved_shellSurfaceSet (nodup : (s.wrappers.map (·.1.address)).Nodup) {a : Address}
    {x : Surface} (c : WlClient) (hx : s.surface? a = some x) :
    Moved s
      (((s.create .shellSurface c).updateSurface x.this fun y =>
          { y with mShellSurface := some ⟨s.nextAddress, s.resources.length⟩ }).disarm
        (x.mShellSurface.toList.map ShellSurface.wrapper))
      (.new ⟨.shellSurface, s.nextAddress⟩ c ::
        deleteCalls (x.mShellSurface.toList.map ShellSurface.wrapper))
      (x.mShellSurface.toList.map ShellSurface.wrapper) (some (.shellSurface, c)) := by
  obtain ⟨hthis, before, after, hsplit, hbefore, hafter⟩ := surfaces_split nodup hx
  have hold : s.wrappers = before.flatMap Surface.wrappers ++
      (x.mShellSurface.toList.map ShellSurface.wrapper ++ [(⟨.surface, x.this⟩, x.mResource)] ++
        after.flatMap Surface.wrappers) ++ s.mCompositor.mRegions.map WaylandRegion.wrapper ++
          s.mPointerList.map Pointer.wrapper := by
    unfold wrappers
    rw [hsplit, List.flatMap_append, List.flatMap_cons]
    rfl
  have hkeep : ∀ (f : Surface → Surface) (ys : List Surface), (∀ y ∈ ys, y.this ≠ x.this) →
      ys.map (fun y => if y.this = x.this then f y else y) = ys := fun f ys hys =>
    (List.map_congr_left fun y hy => if_neg (hys y hy)).trans (List.map_id ys)
  refine ⟨?_, ?_, fun r => hook_disarm, fun r => wraps_disarm, fun r hr => live_disarm.trans hr,
    rfl,
    ?_, ?_⟩
  · have hnew : (((s.create .shellSurface c).updateSurface x.this fun y =>
        { y with mShellSurface := some ⟨s.nextAddress, s.resources.length⟩ }).disarm
          (x.mShellSurface.toList.map ShellSurface.wrapper)).wrappers =
        before.flatMap Surface.wrappers ++
          ([(⟨.shellSurface, s.nextAddress⟩, s.resources.length)] ++
            [(⟨.surface, x.this⟩, x.mResource)] ++ after.flatMap Surface.wrappers) ++
          s.mCompositor.mRegions.map WaylandRegion.wrapper ++
            s.mPointerList.map Pointer.wrapper := by
      show (Server.surfaces (updateSurface _ _ _)).flatMap _ ++ _ ++ _ = _
      rw [surfaces_updateSurface]
      show (List.map _ s.surfaces).flatMap _ ++ _ ++ _ = _
      rw [hsplit, List.map_append, List.map_cons, if_pos rfl,
        hkeep _ before fun y hy => hthis ▸ hbefore y hy,
        hkeep _ after fun y hy => hthis ▸ hafter y hy, List.flatMap_append, List.flatMap_cons]
      rfl
    rw [hnew, hold]
    refine List.perm_iff_count.mpr fun w => ?_
    simp only [newborn, List.count_append]
    omega
  · refine ⟨before.flatMap Surface.wrappers ++ ([(⟨.surface, x.this⟩, x.mResource)] ++
        after.flatMap Surface.wrappers) ++ s.mCompositor.mRegions.map WaylandRegion.wrapper ++
          s.mPointerList.map Pointer.wrapper, ?_⟩
    rw [hold]
    refine List.perm_iff_count.mpr fun w => ?_
    simp only [List.count_append]
    omega
  · exact ⟨deleted_deleteCalls _, disarmed_deleteCalls _⟩
  · intro hs y hy
    have hy' : y ∈ Server.surfaces (updateSurface _ _ _) := hy
    rw [surfaces_updateSurface] at hy'
    obtain ⟨z, hz, rfl⟩ := List.mem_map.mp hy'
    have hlisten := hs z hz
    split
    · exact hlisten
    · exact hlisten

/-! ## Requests that leave the wrappers alone -/

theorem spares_sendDone {st : SurfaceState} : ∀ call ∈ st.sendDone.2, Spares call := by
  intro call hcall
  obtain ⟨cb, -, rfl⟩ := List.mem_map.mp hcall
  exact trivial

theorem spares_surfaceCommit {x : Surface} : ∀ call ∈ x.surfaceCommit.2, Spares call := by
  intro call hcall
  unfold Surface.surfaceCommit at hcall
  split at hcall
  · cases hcall
  · rcases List.mem_append.mp hcall with hcall | hcall
    · unfold Surface.fillBack at hcall
      simp only at hcall
      split at hcall
      · exact spares_sendDone call hcall
      · cases hcall
    · unfold Surface.releaseBack at hcall
      split at hcall
      · cases hcall
      · rcases List.mem_cons.mp hcall with rfl | hcall
        · exact trivial
        · exact spares_sendDone call hcall

theorem spares_lockBuffer {x : Surface} {shm : ShmTable} :
    ∀ call ∈ (x.lockBuffer shm).2, Spares call := by
  intro call hcall
  unfold Surface.lockBuffer at hcall
  split at hcall
  · simp only [List.mem_cons, List.not_mem_nil, or_false] at hcall
    rcases hcall with rfl | rfl
    · exact trivial
    · exact trivial
  · cases hcall

theorem spares_unlockBuffer {x : Surface} : ∀ call ∈ x.unlockBuffer.2, Spares call := by
  intro call hcall
  unfold Surface.unlockBuffer at hcall
  split at hcall
  · cases hcall
  · simp only [List.mem_cons] at hcall
    rcases hcall with rfl | rfl | hcall
    · exact trivial
    · exact trivial
    · exact spares_sendDone call hcall

theorem spares_surfaceAttach {z : Surface} {shm : ShmTable} {b : Option WlResource} {x y : Int} :
    ∀ call ∈ (z.surfaceAttach shm b x y).2, Spares call := by
  intro call hcall
  rw [Surface.surfaceAttach_calls, List.mem_singleton] at hcall
  subst hcall
  exact trivial

/-- No operation of a surface by itself touches a wrapper. -/
theorem spares_perform {x : Surface} {shm : ShmTable} (op : SurfaceOp) :
    ∀ call ∈ (x.perform shm op).2, Spares call := by
  cases op with
  | attach b px py => exact spares_surfaceAttach
  | commit => exact spares_surfaceCommit
  | lockBuffer => exact spares_lockBuffer
  | unlockBuffer => exact spares_unlockBuffer
  | frame cb => exact fun _ hcall => nomatch hcall
  | setX px => exact fun _ hcall => nomatch hcall
  | setY py => exact fun _ hcall => nomatch hcall

theorem spares_repaintedCalls {shm : ShmTable} {ps : List (Option Surface)} :
    ∀ call ∈ Compositor.repaintedCalls shm ps, Spares call := by
  intro call hcall
  obtain ⟨p, -, hp⟩ := List.mem_flatMap.mp hcall
  cases p with
  | none => cases hp
  | some x =>
    simp only [Option.elim_some, Surface.repainted] at hp
    split at hp
    · rcases List.mem_append.mp hp with hp | hp
      · exact spares_lockBuffer call hp
      · exact spares_unlockBuffer call hp
    · cases hp

theorem spares_repaint (blend : Blend) (shm : ShmTable) (c : Compositor) :
    ∀ call ∈ (c.repaint blend shm).calls, Spares call := by
  intro call hcall
  rcases Compositor.mem_calls_repaint hcall with ⟨_, -, h⟩ | ⟨_, rfl⟩ | rfl
  · exact spares_repaintedCalls call h
  · exact trivial
  · exact trivial

theorem frame_move {x y : Int} {cs : List Call} (h : s.move x y = ⟨cs, .ok t⟩) : Frame s t :=
  move_induct (fun _ _ _ _ hu => hu.trans (frame_updateSurface fun _ => rfl)) (Frame.refl s) h

theorem moved_repaint {blend : Blend} {cs : List Call} (h : s.repaint blend = ⟨cs, .ok t⟩) :
    Frame s t ∧ Deletes cs [] := by
  obtain ⟨ds, c, _, hrepaint, hret, rfl⟩ := Exec.bind_eq_ok.mp h
  cases hret
  obtain ⟨hsame, hregions⟩ := Compositor.repaint_sameSurfaces hrepaint
  refine ⟨⟨?_, fun _ => rfl, fun _ => rfl, fun _ hr => hr, rfl,
    listens_of_identity hsame.contents⟩, ?_⟩
  · unfold wrappers surfaces
    rw [flatMap_wrappers_of_identity hsame.contents, hregions]
  · rw [List.append_nil]
    refine deletes_of_spares fun call hcall => spares_repaint blend s.shm s.mCompositor call ?_
    rw [hrepaint]
    exact hcall

/-! ## Removals -/

theorem flatMap_deleteCalls (ss : List Surface) :
    (ss.flatMap fun t => deleteCalls t.wrappers) = deleteCalls (ss.flatMap Surface.wrappers) := by
  unfold deleteCalls
  rw [List.flatMap_assoc]

/-- Some surfaces are deleted, and the others stay. -/
theorem moved_remove {ps : List (Option Surface)} {ss : List Surface}
    (h : s.surfaces.Perm (ss ++ contents ps)) :
    Moved s ((s.setSurfaces ps).disarm (ss.flatMap Surface.wrappers))
      (deleteCalls (ss.flatMap Surface.wrappers)) (ss.flatMap Surface.wrappers) none := by
  have hperm : s.wrappers.Perm (ss.flatMap Surface.wrappers ++
      ((s.setSurfaces ps).disarm (ss.flatMap Surface.wrappers)).wrappers) := by
    unfold wrappers
    rw [← List.append_assoc, ← List.append_assoc]
    show List.Perm _ (_ ++ (contents ps).flatMap _ ++ _ ++ _)
    rw [← List.flatMap_append]
    exact ((h.flatMap_right _).append_right _).append_right _
  refine ⟨hperm, ⟨_, hperm⟩, fun _ => hook_disarm, fun _ => wraps_disarm,
    fun _ hr => live_disarm.trans hr, rfl, deletes_deleteCalls _, fun hs x hx => hs x ?_⟩
  exact h.mem_iff.mpr (List.mem_append_right _ hx)

/-- The surfaces a test picks, and the others, are the surfaces. -/
theorem perm_filter (q : Option Surface → Bool) (ps : List (Option Surface)) :
    (contents ps).Perm (contents (ps.filter q) ++ contents (ps.filter (!q ·))) := by
  rw [← contents_append]
  exact (List.filter_append_perm q ps).symm.filterMap id

/-- The entry holds the surface at `a`. -/
def holds (a : Address) (p : Option Surface) : Bool := p.any (·.this = a)

/-- **What `notify` does**: the surface at `a` is deleted, and the others stay as they are. -/
theorem notify_eq (a : Address) :
    s.notify a =
      ⟨deleteCalls ((contents (s.mCompositor.mSurfacesList.filter (holds a))).flatMap
          Surface.wrappers),
        .ok ((s.setSurfaces (s.mCompositor.mSurfacesList.filter (!holds a ·))).disarm
          ((contents (s.mCompositor.mSurfacesList.filter (holds a))).flatMap
            Surface.wrappers))⟩ := by
  obtain ⟨gone, rest, hswept, hgone⟩ := @removeIf_total _ Fault (fun p => .ok (holds a p))
    (holds a) [] s.mCompositor.mSurfacesList fun _ _ => rfl
  rw [contents_nil, List.nil_append] at hgone
  have hswept' : removeIf (fun p : Option Surface => (.ok (p.any (·.this = a)) : Except Fault Bool))
      [] s.mCompositor.mSurfacesList = _ := hswept
  unfold notify
  simp only [hswept', Exec.relog, Exec.ok_bind, Exec.log, Exec.pure_def, List.append_nil, hgone]
  rw [← List.flatMap_append, hgone, flatMap_deleteCalls]

theorem moved_notify {a : Address} {cs : List Call} (h : s.notify a = ⟨cs, .ok t⟩) :
    Moved s t cs ((contents (s.mCompositor.mSurfacesList.filter (holds a))).flatMap
      Surface.wrappers) none := by
  rw [notify_eq] at h
  cases h
  exact moved_remove (perm_filter _ _)

/-- The test of `clientDisconnects` at an entry that is not null. -/
def ownedBy (c : WlClient) (p : Option Surface) : Bool := p.any (c = ·.mClient)

theorem clientTest_eq {c : WlClient} {ps : List (Option Surface)} (h : none ∉ ps) :
    ∀ p ∈ ps, clientTest c p = .ok (ownedBy c p) := by
  intro p hp
  cases p with
  | none => exact absurd hp h
  | some x => rfl

/-- `clientDisconnects` reads every entry. -/
theorem none_notMem_of_clientDisconnects {c : WlClient}
    (h : (s.clientDisconnects c).result = .ok t) : none ∉ s.mCompositor.mSurfacesList := by
  obtain ⟨r, hr, -⟩ := Exec.result_bind_ok.mp h
  intro hmem
  obtain ⟨b, hb⟩ := removeIf_tests hr none hmem
  cases hb

/-- **What a sweep does**, where it completes: the entries of other clients come first, then the
rest, and what the client had is deleted or in the rest. -/
theorem clientDisconnects_ok {c : WlClient} {cs : List Call}
    (h : s.clientDisconnects c = ⟨cs, .ok t⟩) :
    ∃ gone rest,
      removeIf (clientTest c) [] s.mCompositor.mSurfacesList =
          ⟨gone, .ok (s.mCompositor.mSurfacesList.filter (!ownedBy c ·), rest)⟩ ∧
        gone ++ contents rest = contents (s.mCompositor.mSurfacesList.filter (ownedBy c)) ∧
        cs = deleteCalls (gone.flatMap Surface.wrappers) ∧
        t = (s.setSurfaces (s.mCompositor.mSurfacesList.filter (!ownedBy c ·) ++ rest)).disarm
          (gone.flatMap Surface.wrappers) := by
  have hnone := none_notMem_of_clientDisconnects (congrArg Exec.result h)
  obtain ⟨gone, rest, hswept, hgone⟩ := @removeIf_total _ Fault (clientTest c) (ownedBy c) []
    s.mCompositor.mSurfacesList (clientTest_eq hnone)
  rw [contents_nil, List.nil_append] at hgone
  refine ⟨gone, rest, hswept, hgone, ?_⟩
  unfold clientDisconnects at h
  simp only [hswept, Exec.relog, Exec.ok_bind, Exec.pure_def, List.append_nil] at h
  cases h
  exact ⟨flatMap_deleteCalls gone, rfl⟩

theorem moved_clientDisconnects {c : WlClient} {cs : List Call}
    (h : s.clientDisconnects c = ⟨cs, .ok t⟩) : ∃ gone, Moved s t cs gone none := by
  obtain ⟨gone, rest, -, hgone, rfl, rfl⟩ := clientDisconnects_ok h
  refine ⟨_, moved_remove ?_⟩
  rw [contents_append]
  have hperm := perm_filter (ownedBy c) s.mCompositor.mSurfacesList
  rw [← hgone, List.append_assoc] at hperm
  exact hperm.trans (List.perm_append_comm.append_left gone)

/-- What destroying a resource's wrapper by its hook does: the surface is deleted, any other wrapper
is not. -/
theorem hookDestroy_cases {w : Wrapper} (hl : s.Listens) {cs : List Call}
    (h : s.hookDestroy w = ⟨cs, .ok t⟩) :
    (w.kind ≠ .surface ∧ cs = [] ∧ t = s) ∨ (w.kind = .surface ∧ s.notify w.address = ⟨cs, .ok t⟩) ∨
      (w.kind = .surface ∧ s.surface? w.address = none ∧ cs = [] ∧ t = s) := by
  obtain ⟨_, -, h⟩ := (Exec.silent_guard _ _).bind_eq_ok.mp h
  cases hk : w.kind with
  | surface =>
    rw [hk] at h
    simp only at h
    cases hx : s.surface? w.address with
    | none =>
      rw [hx] at h
      cases h
      exact .inr (.inr ⟨rfl, rfl, rfl, rfl⟩)
    | some x =>
      have hlisten := hl x (List.mem_of_find?_eq_some hx)
      rw [hx, Option.bind_some, hlisten] at h
      exact .inr (.inl ⟨rfl, h⟩)
  | shellSurface =>
    rw [hk] at h
    cases h
    exact .inl ⟨nofun, rfl, rfl⟩
  | region =>
    rw [hk] at h
    cases h
    exact .inl ⟨nofun, rfl, rfl⟩
  | pointer =>
    rw [hk] at h
    cases h
    exact .inl ⟨nofun, rfl, rfl⟩

theorem moved_teardown {cs : List Call} (h : s.teardown = ⟨cs, .ok t⟩) :
    ∃ gone, Moved s t cs gone none := by
  obtain ⟨_, hret, rfl⟩ := Exec.log_bind_eq_ok.mp h
  cases hret
  rw [List.append_nil]
  have hperm : s.wrappers.Perm (s.mPointerList.map Pointer.wrapper ++
      s.mCompositor.mRegions.map WaylandRegion.wrapper ++ s.surfaces.flatMap Surface.wrappers) := by
    unfold wrappers
    refine List.perm_iff_count.mpr fun w => ?_
    simp only [List.count_append]
    omega
  refine ⟨_, ⟨?_, ⟨[], ?_⟩, fun _ => hook_disarm, fun _ => wraps_disarm,
    fun _ hr => live_disarm.trans hr, rfl, deletes_deleteCalls _, fun _ x hx => ?_⟩⟩
  · exact hperm.trans (List.Perm.of_eq (List.append_nil _).symm)
  · exact hperm.trans (List.Perm.of_eq (List.append_nil _).symm)
  · cases hx

/-! ## Served actions -/

/-- The wrappers of shell surfaces. -/
theorem kind_shellSurfaces (x : Surface) :
    ∀ p ∈ x.mShellSurface.toList.map ShellSurface.wrapper, p.1.kind = .shellSurface := by
  intro p hp
  obtain ⟨y, -, rfl⟩ := List.mem_map.mp hp
  rfl

/-- The handle is no wrapper's, if it is a buffer's. -/
theorem wraps_of_isBuffer (h : (s.resource? r).any (·.userData.isBuffer) = true) :
    s.wraps r = none := by
  obtain ⟨x, hx, hbuffer⟩ := (Option.any_eq_true _ _).mp h
  unfold wraps
  rw [(resource?_eq_some.mp hx).1, Option.bind_some]
  cases hu : x.userData with
  | buffer b => rfl
  | null => rfl
  | global g => rfl
  | wrapper w =>
    rw [hu] at hbuffer
    cases hbuffer

/-- **A served action**, in the terms of `Moved`: it moves wrappers, of which it deletes at most a
shell surface, or it frees a buffer. -/
theorem serve_cases (nodup : (s.wrappers.map (·.1.address)).Nodup) {blend : Blend}
    {a : ServeAction} {cs : List Call} (hstep : s.serve blend a = ⟨cs, .ok t⟩) :
    (∃ gone born, Moved s t cs gone born ∧ ∀ p ∈ gone, p.1.kind = .shellSurface) ∨
      ∃ r, a = .request (.destroyBuffer r) ∧ cs = [] ∧ t = s.bury r ∧ s.wraps r = none := by
  have hmoved : ∀ {t cs born}, Moved s t cs [] born →
      ∃ gone born, Moved s t cs gone born ∧ ∀ p ∈ gone, p.1.kind = .shellSurface :=
    fun hm => ⟨_, _, hm, fun _ hp => nomatch hp⟩
  have hframe : ∀ {t cs}, Frame s t → (∀ call ∈ cs, Spares call) →
      ∃ gone born, Moved s t cs gone born ∧ ∀ p ∈ gone, p.1.kind = .shellSurface :=
    fun hf hcs => hmoved (hf.moved (deletes_of_spares hcs))
  have hnone : ∀ call ∈ ([] : List Call), Spares call := fun _ hc => nomatch hc
  cases a with
  | connect =>
    cases hstep
    exact .inl (hframe ⟨rfl, fun _ => rfl, fun _ => rfl, fun _ hr => hr, rfl, id⟩ hnone)
  | repaint =>
    obtain ⟨hf, hcs⟩ := moved_repaint hstep
    exact .inl (hmoved (hf.moved hcs))
  | move x y =>
    obtain rfl : cs = [] := (congrArg Exec.calls hstep).symm.trans (silent_move x y)
    exact .inl (hframe (frame_move hstep) hnone)
  | request q =>
    have hq : Handled s q ⟨cs, .ok t⟩ := .eq hstep
    cases hq with
    | ignored => exact .inl (hframe (Frame.refl s) hnone)
    | bound g hc => exact .inl (hframe (frame_addResource rfl) hnone)
    | surfaceCreated hr => exact .inl (hmoved (moved_surfaceCreated s _))
    | regionCreated hr => exact .inl (hmoved (moved_regionCreated s _))
    | pointerCreated hr => exact .inl (hmoved (moved_pointerCreated s _))
    | shellSurfaceSet c hx =>
      exact .inl ⟨_, _, moved_shellSurfaceSet nodup c hx, kind_shellSurfaces _⟩
    | cursorSet hps =>
      refine .inl (hframe ⟨?_, fun _ => rfl, fun _ => rfl, fun _ hr => hr, rfl, id⟩ hnone)
      unfold wrappers
      rw [hps]
      rfl
    | @attached _ _ _ _ b x y hz hb =>
      exact .inl (hframe (frame_updateSurface fun _ => Surface.identity_perform (.attach b x y))
        (spares_perform (.attach b x y)))
    | framed c hz =>
      have hcallback : Frame s (s.addResource { client := c, userData := .null }) :=
        frame_addResource rfl
      exact .inl (hframe (hcallback.trans (frame_updateSurface fun _ => rfl)) hnone)
    | committed hr hz =>
      exact .inl (hframe (frame_updateSurface fun _ => Surface.identity_surfaceCommit)
        spares_surfaceCommit)
    | bufferCreated b hc => exact .inl (hframe (frame_addResource rfl) hnone)
    | bufferDestroyed hr => exact .inr ⟨_, rfl, rfl, rfl, wraps_of_isBuffer hr⟩

end Server

end WaylandTest
