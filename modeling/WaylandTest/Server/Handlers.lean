import WaylandTest.Server.Handles

/-!
# What a request does

`Handled s q out` is the inversion of the request handlers: `out` is what the request `q` can come
to at `s`, with what the handler has checked by then. There is one rule for a request that is
dropped, one for a fault, and one for each thing that handlers do. `handled` says that the rules
cover the handlers, so what holds of requests is proved by cases on them.

A move of the pointers is no request and only positions surfaces: `move_induct` is its rule.
-/

set_option autoImplicit false

namespace WaylandTest

open Lib

namespace Server

variable {s t : Server} {q : ClientRequest} {r : WlResource} {c : WlClient}

/-- What a request can come to. -/
inductive Handled (s : Server) : ClientRequest → Exec Call Fault Server → Prop
  /-- The request is dropped, or its handler does nothing. -/
  | ignored (q : ClientRequest) : Handled s q ⟨[], .ok s⟩
  /-- The handler faults before it makes a call. -/
  | faulted (q : ClientRequest) (e : Fault) : Handled s q ⟨[], .error e⟩
  | bound {c : WlClient} (g : Global) (hc : c ∈ s.clients) :
      Handled s (.bind c g) ⟨[], .ok (s.addResource
        { client := c, userData := .global g, destructor := some .hookClientDisconects })⟩
  | surfaceCreated {r : WlResource} {c : WlClient} (hr : s.bindingAt .compositor r = some c) :
      Handled s (.createSurface r) ⟨[.new ⟨.surface, s.nextAddress⟩ c], .ok
        ((s.create .surface c).setSurfaces (s.mCompositor.mSurfacesList ++
          [some (Surface.construct s.nextAddress s.resources.length c (some .compositor))]))⟩
  | regionCreated {r : WlResource} {c : WlClient} (hr : s.bindingAt .compositor r = some c) :
      Handled s (.createRegion r) ⟨[.new ⟨.region, s.nextAddress⟩ c], .ok { s.create .region c with
        mCompositor := { s.mCompositor with
          mRegions := s.mCompositor.mRegions ++ [⟨s.nextAddress, s.resources.length⟩] } }⟩
  | pointerCreated {r : WlResource} {c : WlClient} (hr : s.bindingAt .seat r = some c) :
      Handled s (.getPointer r) ⟨[.new ⟨.pointer, s.nextAddress⟩ c], .ok { s.create .pointer c with
        mPointerList :=
          s.mPointerList ++ [{ this := s.nextAddress, mResource := s.resources.length }] }⟩
  | shellSurfaceSet {shell r : WlResource} {a : Address} {x : Surface} (c : WlClient)
      (hx : s.surface? a = some x) :
      Handled s (.getShellSurface shell r) ⟨.new ⟨.shellSurface, s.nextAddress⟩ c ::
          deleteCalls (x.mShellSurface.toList.map ShellSurface.wrapper), .ok
        (((s.create .shellSurface c).updateSurface x.this fun y =>
            { y with mShellSurface := some ⟨s.nextAddress, s.resources.length⟩ }).disarm
          (x.mShellSurface.toList.map ShellSurface.wrapper))⟩
  | cursorSet {pointer : WlResource} {surface : Option WlResource} {x y : Int} {ps : List Pointer}
      (hps : ps.map Pointer.wrapper = s.mPointerList.map Pointer.wrapper) :
      Handled s (.setCursor pointer surface x y) ⟨[], .ok { s with mPointerList := ps }⟩
  | attached {r : WlResource} {a : Address} {c : WlClient} {z : Surface} {b : Option WlResource}
      (x y : Int) (hz : s.surface? a = some z) (hb : b.all (s.hasBuffer c) = true) :
      Handled s (.surfaceAttach r b x y) ⟨(z.surfaceAttach s.shm b x y).2, .ok
        (s.updateSurface z.this fun t => (t.surfaceAttach s.shm b x y).1)⟩
  | framed {r : WlResource} {a : Address} {z : Surface} (c : WlClient)
      (hz : s.surface? a = some z) :
      Handled s (.surfaceFrame r) ⟨[], .ok
        ((s.addResource { client := c, userData := .null }).updateSurface z.this fun t =>
          t.surfaceFrame (some s.resources.length))⟩
  | committed {r : WlResource} {a : Address} {c : WlClient} {z : Surface}
      (hr : s.wrapperAt .surface r = some (a, c)) (hz : s.surface? a = some z) :
      Handled s (.surfaceCommit r)
        ⟨z.surfaceCommit.2, .ok (s.updateSurface z.this fun t => t.surfaceCommit.1)⟩
  | bufferCreated {c : WlClient} (b : Option ShmBuffer) (hc : c ∈ s.clients) :
      Handled s (.createBuffer c b)
        ⟨[], .ok (s.addResource { client := c, userData := .buffer b })⟩
  | bufferDestroyed {r : WlResource} (hr : (s.resource? r).any (·.userData.isBuffer) = true) :
      Handled s (.destroyBuffer r) ⟨[], .ok (s.bury r)⟩

/-- A request on a surface. -/
theorem handled_onSurface {handler : Surface → WlClient → Exec Call Fault Server}
    (h : ∀ a c x, s.wrapperAt .surface r = some (a, c) → s.surface? a = some x →
      Handled s q (handler x c)) : Handled s q (s.onSurface r handler) := by
  rw [onSurface]
  cases hr : s.wrapperAt .surface r with
  | none => exact .ignored q
  | some p =>
    obtain ⟨a, c⟩ := p
    show Handled s q (Exec.ofOption Fault.useAfterFree (s.surface? a) >>= fun x => handler x c)
    cases hx : s.surface? a with
    | none => exact .faulted q _
    | some x => exact h a c x hr hx

/-- `performOn` makes the calls of the operation, and changes the surface by it. -/
theorem performOn_eq (s : Server) (x : Surface) (op : SurfaceOp) :
    s.performOn x op =
      ⟨(x.perform s.shm op).2, .ok (s.updateSurface x.this fun t => (t.perform s.shm op).1)⟩ := by
  exact Exec.log_bind_pure _ _

/-- A commit that reaches a surface. -/
theorem surfaceCommit_eq {a : Address} {x : Surface} (hr : s.wrapperAt .surface r = some (a, c))
    (hx : s.surface? a = some x) :
    s.surfaceCommit r =
      ⟨x.surfaceCommit.2, .ok (s.updateSurface x.this fun t => t.surfaceCommit.1)⟩ := by
  rw [surfaceCommit, onSurface, hr]
  show (Exec.ofOption Fault.useAfterFree (s.surface? a) >>= _) = _
  rw [hx]
  exact performOn_eq s x .commit

/-- A commit that does not fault is dropped, or reaches a surface. -/
theorem surfaceCommit_cases {ds : List Call} (h : s.surfaceCommit r = ⟨ds, .ok t⟩) :
    (s.wrapperAt .surface r = none ∧ ds = [] ∧ t = s) ∨
      ∃ a c x, s.wrapperAt .surface r = some (a, c) ∧ s.surface? a = some x ∧
        ds = x.surfaceCommit.2 ∧ t = s.updateSurface x.this fun t => t.surfaceCommit.1 := by
  cases hr : s.wrapperAt .surface r with
  | none =>
    rw [surfaceCommit, onSurface, hr] at h
    cases h
    exact .inl ⟨rfl, rfl, rfl⟩
  | some p =>
    obtain ⟨a, c⟩ := p
    cases hx : s.surface? a with
    | none =>
      rw [surfaceCommit, onSurface, hr] at h
      change (Exec.ofOption Fault.useAfterFree (s.surface? a) >>= _) = _ at h
      rw [hx] at h
      cases h
    | some x =>
      rw [surfaceCommit_eq hr hx] at h
      cases h
      exact .inr ⟨a, c, x, rfl, hx, rfl, rfl⟩

theorem handled_setCursor (pointer : WlResource) (surface : Option WlResource) (x y : Int) :
    Handled s (.setCursor pointer surface x y) (s.setCursor pointer surface x y) := by
  unfold setCursor
  split
  · exact .ignored _
  · exact .faulted _ _
  · next a c r _ =>
    split
    · exact .ignored _
    · next a' c' _ =>
      split
      · rw [Exec.guard]
        split
        · refine .cursorSet ?_
          rw [List.map_map]
          apply List.map_congr_left
          intro p _
          rw [Function.comp_apply]
          split
          · rfl
          · rfl
        · exact .faulted _ _
      · exact .ignored _

/-- **The rules cover the handlers.** -/
theorem handled (s : Server) (q : ClientRequest) : Handled s q (s.request q) := by
  cases q with
  | bind c g =>
    show Handled s _ (pure (s.bind c g))
    rw [bind]
    split
    · next hc => exact .bound g hc
    · exact .ignored _
  | createSurface r =>
    show Handled s _ (s.createSurface r)
    rw [createSurface]
    split
    · exact .ignored _
    · next c hr => exact .surfaceCreated hr
  | createRegion r =>
    show Handled s _ (s.createRegion r)
    rw [createRegion]
    split
    · exact .ignored _
    · next c hr => exact .regionCreated hr
  | getShellSurface shell r =>
    show Handled s _ (s.getShellSurface shell r)
    rw [getShellSurface]
    split
    · exact .ignored _
    · next c _ =>
      refine handled_onSurface fun a c' x _ hx => ?_
      split
      · rw [setShellSurface, Exec.log_bind_pure]
        exact .shellSurfaceSet c hx
      · exact .ignored _
  | getPointer r =>
    show Handled s _ (s.getPointer r)
    rw [getPointer]
    split
    · exact .ignored _
    · next c hr => exact .pointerCreated hr
  | setCursor pointer surface x y => exact handled_setCursor pointer surface x y
  | surfaceDestroy r => exact handled_onSurface fun _ _ _ _ _ => .ignored _
  | surfaceAttach r b x y =>
    refine handled_onSurface fun a c z _ hz => ?_
    split
    · next hb =>
      rw [performOn_eq]
      exact .attached x y hz hb
    · exact .ignored _
  | surfaceFrame r =>
    refine handled_onSurface fun a c z _ hz => ?_
    rw [performOn_eq]
    exact .framed c hz
  | surfaceCommit r =>
    refine handled_onSurface fun a c z hr hz => ?_
    rw [performOn_eq]
    exact .committed hr hz
  | createBuffer c b =>
    show Handled s _ (pure (s.createBuffer c b))
    rw [createBuffer]
    split
    · next hc => exact .bufferCreated b hc
    · exact .ignored _
  | destroyBuffer r =>
    show Handled s _ (pure (s.destroyBuffer r))
    rw [destroyBuffer]
    split
    · next hr => exact .bufferDestroyed hr
    · exact .ignored _

theorem Handled.eq {out : Exec Call Fault Server} (h : s.request q = out) : Handled s q out :=
  h ▸ handled s q

/-! ## Moves of the pointers -/

theorem silent_movePointer (p : Pointer) (x y : Int) : (s.movePointer p x y).Silent := by
  unfold movePointer
  refine (Exec.silent_ofOption _ _).bind fun a => (Exec.silent_ofOption _ _).bind fun _ => ?_
  exact (silent_checked _).bind fun _ => (silent_checked _).bind fun _ => Exec.silent_pure _

/-- A move makes no calls, whether it faults or not. -/
theorem silent_move (x y : Int) : (s.move x y).Silent :=
  Exec.Silent.foldlM (fun _ p => silent_movePointer p x y) s.mPointerList s

/-- **What a move does to a pointer's surface**: it puts the hotspot at the coordinates. -/
theorem movePointer_ok {p : Pointer} {x y : Int} {ds : List Call}
    (h : s.movePointer p x y = ⟨ds, .ok t⟩) :
    ∃ a z, p.mSurface = some a ∧ s.surface? a = some z ∧
      t = s.updateSurface a fun w => (w.setX (x - p.mHotspotX)).setY (y - p.mHotspotY) := by
  obtain ⟨a, ha, h⟩ := (Exec.silent_ofOption _ _).bind_eq_ok.mp h
  obtain ⟨z, hz, h⟩ := (Exec.silent_ofOption _ _).bind_eq_ok.mp h
  obtain ⟨x', hx, h⟩ := (silent_checked _).bind_eq_ok.mp h
  obtain ⟨y', hy, h⟩ := (silent_checked _).bind_eq_ok.mp h
  obtain ⟨rfl, -⟩ := checked_result.mp hx
  obtain ⟨rfl, -⟩ := checked_result.mp hy
  cases h
  exact ⟨a, z, Exec.ofOption_result_ok.mp ha, Exec.ofOption_result_ok.mp hz, rfl⟩

/-- What positioning a surface keeps, a move keeps. -/
theorem move_induct {I : Server → Prop}
    (keep : ∀ s a x y, I s → I (s.updateSurface a fun z => (z.setX x).setY y)) {x y : Int}
    {ds : List Call} (hs : I s) (h : s.move x y = ⟨ds, .ok t⟩) : I t := by
  refine Exec.foldlM_induct (I := fun _ s => I s) ?_ [] hs h
  intro _ u p _ v hu hp
  obtain ⟨a, _, -, -, rfl⟩ := movePointer_ok hp
  exact keep u a _ _ hu

end Server

end WaylandTest
