import WaylandTest.Server.Crashes
import WaylandTest.Server.Projection

/-!
# What is made is deleted

The wrappers that `WaylandResourceFactory::create` makes are numbered, and none is lost: in every
state of a run each exists or was deleted, and after the teardown none exists. Regions and pointers
are never deleted before, so a server that goes on to run keeps all that its clients ever made, also
of clients that are gone.
-/

set_option autoImplicit false

namespace WaylandTest

open Lib

/-- The wrappers that the calls make, in order. `deleted` is the same for those that are deleted, of
which it keeps the addresses. -/
def made (cs : List Call) : List Wrapper :=
  cs.filterMap fun
    | .new w _ => some w
    | _ => none

/-- The addresses of the wrappers of a class that the calls make, in order: the order in which the
compositor's and the seat's lists have them. -/
def madeOf (kind : WrapperClass) (cs : List Call) : List Address :=
  ((made cs).filter (·.kind = kind)).map (·.address)

/-- What two stretches of a run make, one after the other. -/
@[simp] theorem made_append (cs ds : List Call) : made (cs ++ ds) = made cs ++ made ds :=
  List.filterMap_append

@[simp] theorem madeOf_append (kind : WrapperClass) (cs ds : List Call) :
    madeOf kind (cs ++ ds) = madeOf kind cs ++ madeOf kind ds := by
  simp [madeOf]

/-- Deleting wrappers makes none. -/
theorem made_deleteCalls (ws : List (Wrapper × WlResource)) : made (deleteCalls ws) = [] := by
  induction ws with
  | nil => rfl
  | cons w ws ih => exact ih

/-- Nor does any operation of a surface: an answered callback, a lock, an unlock, a commit and a
repaint send events and read buffers. -/
@[simp] theorem made_sendDone (st : SurfaceState) : made st.sendDone.2 = [] := by
  unfold SurfaceState.sendDone
  cases st.callbackDone <;> rfl

namespace Surface

variable {z : Surface} {shm : ShmTable}

@[simp] theorem made_lockBuffer : made (z.lockBuffer shm).2 = [] := by
  unfold lockBuffer
  split <;> rfl

@[simp] theorem made_unlockBuffer : made z.unlockBuffer.2 = [] := by
  unfold unlockBuffer
  split
  · rfl
  · exact made_sendDone z.mFront

@[simp] theorem made_surfaceCommit : made z.surfaceCommit.2 = [] := by
  have hfill : made z.fillBack.2 = [] := by
    unfold fillBack
    simp only
    split
    · exact made_sendDone _
    · rfl
  have hrelease : ∀ y : Surface, made y.releaseBack.2 = [] := by
    intro y
    unfold releaseBack
    split
    · rfl
    · exact made_sendDone _
  unfold surfaceCommit
  split
  · rfl
  · simp [hfill, hrelease]

@[simp] theorem made_repainted : made (z.repainted shm).2 = [] := by
  unfold repainted
  split
  · simp
  · rfl

end Surface

namespace Server

variable {s t : Server} {cs ds : List Call} {blend : Blend}

/-- What a step with the calls `ds` makes: the new wrappers have the next addresses, and the new
regions and pointers come last. -/
structure Makes (s t : Server) (ds : List Call) : Prop where
  next : List.range t.nextAddress = List.range s.nextAddress ++ (made ds).map (·.address)
  regions : t.mCompositor.mRegions.map (·.this) =
    s.mCompositor.mRegions.map (·.this) ++ madeOf .region ds
  pointers : t.mPointerList.map (·.this) = s.mPointerList.map (·.this) ++ madeOf .pointer ds
  running : t.running = s.running

/-- A step without a `new` makes nothing, if it leaves the three that are counted. -/
theorem makes_nothing (hds : made ds = []) (next : t.nextAddress = s.nextAddress)
    (regions : t.mCompositor.mRegions = s.mCompositor.mRegions)
    (pointers : t.mPointerList.map (·.this) = s.mPointerList.map (·.this))
    (running : t.running = s.running) : Makes s t ds where
  next := by simp [hds, next]
  regions := by simp [madeOf, hds, regions]
  pointers := by simp [madeOf, hds, pointers]
  running := running

/-- Lists of the same wrappers are of the same addresses; a request that sets a cursor changes the
pointers, but not which they are. -/
theorem map_this_of_wrapper {ps qs : List Pointer}
    (h : ps.map Pointer.wrapper = qs.map Pointer.wrapper) :
    ps.map (·.this) = qs.map (·.this) := by
  have haddress := congrArg (List.map fun w : Wrapper × WlResource => w.1.address) h
  simpa [Pointer.wrapper, Function.comp_def] using haddress

/-- **A request makes at most one wrapper.** It has the next address and goes to the end of its
list. The shell surface of a surface that has one already takes the old one's place, which is then
deleted; that is no concern of what is made. -/
theorem makes_request {q : ClientRequest} (hstep : s.request q = ⟨ds, .ok t⟩) : Makes s t ds := by
  have hq : Handled s q ⟨ds, .ok t⟩ := .eq hstep
  cases hq with
  | ignored => exact makes_nothing rfl rfl rfl rfl rfl
  | bound g hc => exact makes_nothing rfl rfl rfl rfl rfl
  | surfaceCreated hr =>
    exact ⟨List.range_succ, (List.append_nil _).symm, (List.append_nil _).symm, rfl⟩
  | regionCreated hr => exact ⟨List.range_succ, List.map_append, (List.append_nil _).symm, rfl⟩
  | pointerCreated hr => exact ⟨List.range_succ, (List.append_nil _).symm, List.map_append, rfl⟩
  | @shellSurfaceSet _ _ _ x c hx =>
    have hold := made_deleteCalls (x.mShellSurface.toList.map ShellSurface.wrapper)
    have hnew : ∀ w, made (.new w c :: deleteCalls (x.mShellSurface.toList.map
        ShellSurface.wrapper)) = [w] := fun w => congrArg (w :: ·) hold
    refine ⟨?_, ?_, ?_, rfl⟩
    · rw [hnew]
      exact List.range_succ
    · rw [madeOf, hnew]
      exact (List.append_nil _).symm
    · rw [madeOf, hnew]
      exact (List.append_nil _).symm
  | cursorSet hps => exact makes_nothing rfl rfl rfl (map_this_of_wrapper hps) rfl
  | attached x y hz hb =>
    refine makes_nothing ?_ rfl rfl rfl rfl
    rw [Surface.surfaceAttach_calls]
    rfl
  | framed c hz => exact makes_nothing rfl rfl rfl rfl rfl
  | committed hr hz => exact makes_nothing Surface.made_surfaceCommit rfl rfl rfl rfl
  | bufferCreated b hc => exact makes_nothing rfl rfl rfl rfl rfl
  | bufferDestroyed hr => exact makes_nothing rfl rfl rfl rfl rfl

/-- A repaint makes nothing, however many surfaces it draws. -/
theorem makes_repaint (hstep : s.repaint blend = ⟨ds, .ok t⟩) : Makes s t ds := by
  obtain ⟨_, c, _, hrepaint, hret, rfl⟩ := Exec.bind_eq_ok.mp hstep
  cases hret
  obtain ⟨ss, _, bytes, _, _, _, -, -, rfl, rfl⟩ := Compositor.repaint_cases hrepaint
  refine makes_nothing ?_ rfl rfl rfl rfl
  have hpainted : ∀ ss : List Surface,
      made (Compositor.repaintedCalls s.shm (ss.map some)) = [] := by
    intro ss
    induction ss with
    | nil => rfl
    | cons z ss ih =>
      show made ((z.repainted s.shm).2 ++ Compositor.repaintedCalls s.shm (ss.map some)) = []
      simp [ih]
  rw [List.append_nil, made_append, hpainted]
  rfl

/-- **What an action makes**, unless it tears the server down. -/
theorem Owned.makes_lifetime (ho : Owned cs s) {act : LifetimeAction}
    (hstep : s.lifetime blend act = ⟨ds, .ok t⟩) :
    Makes s t ds ∨ t.running = false ∧ t.wrappers = [] ∧ made ds = [] ∧
      t.nextAddress = s.nextAddress := by
  unfold Server.lifetime at hstep
  split at hstep
  · cases act with
    | serve a =>
      cases a with
      | connect =>
        cases hstep
        exact .inl (makes_nothing rfl rfl rfl rfl rfl)
      | request q => exact .inl (makes_request hstep)
      | repaint => exact .inl (makes_repaint hstep)
      | move x y =>
        obtain rfl : ds = [] := (congrArg Exec.calls hstep).symm.trans (silent_move x y)
        have hsame := move_induct (I := fun u => u.nextAddress = s.nextAddress ∧
          u.mCompositor.mRegions = s.mCompositor.mRegions ∧ u.mPointerList = s.mPointerList ∧
          u.running = s.running) (fun _ _ _ _ hu => hu) ⟨rfl, rfl, rfl, rfl⟩ hstep
        obtain ⟨hnext, hregions, hpointers, hrunning⟩ := hsame
        exact .inl (makes_nothing rfl hnext hregions (by rw [hpointers]) hrunning)
    | destroyResource r =>
      rcases destroyResource_ok hstep with ⟨-, rfl, rfl⟩ | ⟨ps, ws, rfl, rfl, -, -⟩
      · exact .inl (makes_nothing rfl rfl rfl rfl rfl)
      · exact .inl (makes_nothing (made_deleteCalls ws) rfl rfl rfl rfl)
    | forget c =>
      cases hstep
      unfold forget
      split <;> exact .inl (makes_nothing rfl rfl rfl rfl rfl)
    | teardown =>
      obtain ⟨_, hret, rfl⟩ := Exec.log_bind_eq_ok.mp hstep
      cases hret
      rw [List.append_nil]
      exact .inr ⟨rfl, rfl, made_deleteCalls _, rfl⟩
  · cases hstep
    exact .inl (makes_nothing rfl rfl rfl rfl rfl)

/-- What an action does to the ledger: the wrappers that exist are those that did and those made,
without the deleted ones. -/
theorem Moved.complete {gone : List (Wrapper × WlResource)}
    {born : Option (WrapperClass × WlClient)} (hm : Moved s t ds gone born)
    (h : Complete (s.wrappers.map (·.1.address)) (deleted cs) s.nextAddress) :
    Complete (t.wrappers.map (·.1.address)) (deleted (cs ++ ds)) t.nextAddress := by
  have hborn : Complete ((s.newborn born ++ s.wrappers).map (·.1.address)) (deleted cs)
      (s.bear born).nextAddress := by
    cases born with
    | none => exact h
    | some b => exact h.create
  have hperm := hborn.perm (hm.wrappers.map (·.1.address))
  rw [List.map_append] at hperm
  rw [deleted_append, hm.calls.deleted, hm.next]
  exact hperm.delete

/-- No action loses a wrapper: a teardown deletes all that exist, and any other action is of the
shape `Moved` says. -/
theorem Owned.complete_lifetime (ho : Owned cs s)
    (h : Complete (s.wrappers.map (·.1.address)) (deleted cs) s.nextAddress)
    {act : LifetimeAction} (hstep : s.lifetime blend act = ⟨ds, .ok t⟩) :
    Complete (t.wrappers.map (·.1.address)) (deleted (cs ++ ds)) t.nextAddress := by
  rcases ho.lifetime_cases hstep with ⟨gone, born, hm⟩ | ⟨u, gone, r, hm, rfl, -⟩
  · exact hm.complete h
  · exact hm.complete h

/-- The accounts of a run: all wrappers that were made exist or were deleted; while the server runs,
no region and no pointer was; after that none exists. -/
structure Balanced (cs : List Call) (s : Server) : Prop where
  made : (made cs).map (·.address) = List.range s.nextAddress
  complete : Complete (s.wrappers.map (·.1.address)) (deleted cs) s.nextAddress
  regions : s.running = true → s.mCompositor.mRegions.map (·.this) = madeOf .region cs
  pointers : s.running = true → s.mPointerList.map (·.this) = madeOf .pointer cs
  stopped : s.running = false → s.wrappers = []

/-- Before the first action nothing is made. -/
theorem balanced_start (width height : Int) : Balanced [] (start width height) where
  made := rfl
  complete := Complete.start
  regions _ := rfl
  pointers _ := rfl
  stopped h := by cases h

/-- **One action keeps the accounts.** What it makes is told by `Owned.makes_lifetime`, what it
deletes by `Owned.complete_lifetime`; a server that is torn down does nothing more. -/
theorem Balanced.lifetime (h : Balanced cs s) (ho : Owned cs s) {act : LifetimeAction}
    (hstep : s.lifetime blend act = ⟨ds, .ok t⟩) : Balanced (cs ++ ds) t := by
  have hcomplete := ho.complete_lifetime h.complete hstep
  rcases ho.makes_lifetime hstep with hmakes | ⟨hstopped, hnone, hmade, hnext⟩
  · refine ⟨?_, hcomplete, fun hrun => ?_, fun hrun => ?_, fun hrun => ?_⟩
    · rw [made_append, List.map_append, h.made, hmakes.next]
    · rw [madeOf_append, hmakes.regions, h.regions (running_lifetime hstep hrun)]
    · rw [madeOf_append, hmakes.pointers, h.pointers (running_lifetime hstep hrun)]
    · have hstopped : s.running = false := hmakes.running.symm.trans hrun
      have hsame : t = s := by
        unfold Server.lifetime at hstep
        rw [if_neg (by simp [hstopped])] at hstep
        cases hstep
        rfl
      rw [hsame]
      exact h.stopped hstopped
  · refine ⟨?_, hcomplete, fun hrun => ?_, fun hrun => ?_, fun _ => hnone⟩
    · simp [hmade, h.made, hnext]
    · rw [hstopped] at hrun
      cases hrun
    · rw [hstopped] at hrun
      cases hrun

/-- The accounts are kept in every run, by induction over its actions. -/
theorem reaches_balanced {width height : Int} {as : List LifetimeAction}
    (h : (lifetimeMachine blend width height).Reaches as cs s) : Balanced cs s :=
  h.induct (P := fun _ cs s => Balanced cs s) (balanced_start width height)
    fun _ _ _ _ _ _ hs hbalanced hstep => hbalanced.lifetime (reaches_owned hs) hstep

end Server

open Server

/-- **No wrapper is lost.** In every state of every run, the wrappers made so far are those that
exist and those that were deleted, each one once. While the server runs, the regions and the
pointers that exist are all that were ever made, in order, whatever became of their clients and
resources. Once the server is torn down, every wrapper that was ever made was deleted, once. -/
theorem wrappers_accounted (blend : Blend) (width height : Int) (as : List LifetimeAction)
    (cs : List Call) (s : Server) (h : (lifetimeMachine blend width height).Reaches as cs s) :
    ((made cs).map (·.address)).Perm (deleted cs ++ s.wrappers.map (·.1.address)) ∧
      (deleted cs ++ s.wrappers.map (·.1.address)).Nodup ∧
      (s.running = true → s.mCompositor.mRegions.map (·.this) = madeOf .region cs ∧
        s.mPointerList.map (·.this) = madeOf .pointer cs) ∧
      (s.running = false → (deleted cs).Perm ((made cs).map (·.address))) := by
  have hb := reaches_balanced h
  have hall : ((made cs).map (·.address)).Perm (deleted cs ++ s.wrappers.map (·.1.address)) := by
    rw [hb.made]
    exact hb.complete.symm
  refine ⟨hall, (reaches_owned h).ledger.nodup, fun hrun => ⟨hb.regions hrun, hb.pointers hrun⟩,
    fun hstopped => ?_⟩
  rw [hb.stopped hstopped, List.map_nil, List.append_nil] at hall
  exact hall.symm

/-- A client makes a surface and a region and is gone, and the server is torn down. -/
def madeAndGone : List LifetimeAction :=
  [.serve .connect, .serve (.request (.bind 0 .compositor)),
    .serve (.request (.createSurface 0)), .serve (.request (.createRegion 0)),
    .destroyResource 1, .destroyResource 2, .destroyResource 0, .forget 0, .teardown]

theorem wrappers_accounted_madeAndGone :
    ∃ cs s, (lifetimeMachine integerBlend 1 1).Reaches madeAndGone cs s ∧ deleted cs = [0, 1] ∧
      ((made cs).map (·.address)).Perm (deleted cs ++ s.wrappers.map (·.1.address)) ∧
      (deleted cs ++ s.wrappers.map (·.1.address)).Nodup ∧
      (s.running = true → s.mCompositor.mRegions.map (·.this) = madeOf .region cs ∧
        s.mPointerList.map (·.this) = madeOf .pointer cs) ∧
      (s.running = false → (deleted cs).Perm ((made cs).map (·.address))) :=
  ⟨_, _, rfl, rfl, wrappers_accounted integerBlend 1 1 madeAndGone _ _ rfl⟩

end WaylandTest
