import WaylandTest.Lib.Ledger
import WaylandTest.Server.Wrappers

/-!
# Resources and wrappers over whole runs

`Owned` is the invariant of every run in which clients use the server and libwayland destroys their
resources in any order: the destructor hooks that are still set lead exactly to the wrappers that
exist, each through its own handle, and the ledger of the wrappers balances. So a hook never runs
on a deleted wrapper, and no wrapper is deleted twice (`hooks_find_wrappers`).

The other direction does not hold by itself: of the four classes, only `Surface` reacts to the
destruction of its resource. `wrappers_live_iff` says exactly which runs keep every wrapper's
resource live: those in which no armed resource of a shell surface, a region or a pointer is
destroyed.
-/

set_option autoImplicit false

namespace WaylandTest

open Lib

namespace Server

variable {s t u : Server} {r : WlResource} {w : Wrapper} {cs ds : List Call}
  {gone : List (Wrapper × WlResource)} {born : Option (WrapperClass × WlClient)} {blend : Blend}

/-- Hooks, wrappers and the log agree. -/
structure Owned (cs : List Call) (s : Server) : Prop where
  hooks : ∀ w r, (w, r) ∈ s.wrappers ↔ s.hook r = some w
  ledger : Ledger (s.wrappers.map (·.1.address)) (deleted cs) s.nextAddress
  listens : s.Listens

theorem owned_start (width height : Int) : Owned [] (start width height) where
  hooks _ _ := ⟨fun h => (nomatch h), fun h => (nomatch h)⟩
  ledger := Ledger.start
  listens _ h := nomatch h

theorem Owned.nodup (h : Owned cs s) : (s.wrappers.map (·.1.address)).Nodup :=
  h.ledger.live_nodup

/-- The hooks with the wrapper an action makes. -/
theorem Owned.bear_hooks (h : Owned cs s) (w : Wrapper) (r : WlResource) :
    (w, r) ∈ s.newborn born ++ s.wrappers ↔ (s.bear born).hook r = some w := by
  cases born with
  | none => exact h.hooks w r
  | some b =>
    obtain ⟨kind, c⟩ := b
    have hbear : (s.bear (some (kind, c))).hook r =
        if r = s.resources.length then some ⟨kind, s.nextAddress⟩ else s.hook r := hook_addResource
    rw [hbear, newborn, List.singleton_append, List.mem_cons, h.hooks]
    by_cases hr : r = s.resources.length
    · rw [if_pos hr]
      constructor
      · rintro (hnew | hold)
        · rw [(Prod.mk.inj hnew).1]
        · exact absurd (hook_lt hold) (hr ▸ Nat.lt_irrefl _)
      · intro hnew
        rw [← Option.some.inj hnew, hr]
        exact .inl rfl
    · rw [if_neg hr]
      exact ⟨fun hor => hor.resolve_left fun hnew => hr (Prod.mk.inj hnew).2, .inr⟩

theorem Owned.bear_ledger (h : Owned cs s) (born : Option (WrapperClass × WlClient)) :
    Ledger ((s.newborn born ++ s.wrappers).map (·.1.address)) (deleted cs)
      (s.bear born).nextAddress := by
  cases born with
  | none => exact h.ledger
  | some b => exact h.ledger.create

/-- **What moves wrappers keeps them owned.** -/
theorem Owned.moved (h : Owned cs s) (hm : Moved s t ds gone born) : Owned (cs ++ ds) t := by
  have hledger := h.bear_ledger born
  have hperm := hm.wrappers.map (·.1.address)
  refine ⟨fun w r => ?_, ?_, hm.listens h.listens⟩
  · have hall : (w, r) ∈ gone ++ t.wrappers ↔ (s.bear born).hook r = some w :=
      hm.wrappers.mem_iff.symm.trans (h.bear_hooks w r)
    have hnodup : (gone ++ t.wrappers).Nodup :=
      (List.Nodup.of_map _ (hperm.nodup_iff.mp hledger.live_nodup))
    rw [hm.hook r]
    constructor
    · intro hw
      have hhook := hall.mp (List.mem_append_right gone hw)
      have hstay : r ∉ gone.map (·.2) := by
        intro hgone
        obtain ⟨⟨w', r'⟩, hw', rfl⟩ := List.mem_map.mp hgone
        have hhook' := (hm.wrappers.mem_iff.symm.trans (h.bear_hooks w' r')).mp
          (List.mem_append_left t.wrappers hw')
        obtain rfl : w' = w := Option.some.inj (hhook'.symm.trans hhook)
        exact (List.nodup_append.mp hnodup).2.2 _ hw' _ hw rfl
      rw [if_neg hstay, hhook]
    · intro hhook
      by_cases hgone : r ∈ gone.map (·.2)
      · rw [if_pos hgone] at hhook
        cases hhook
      · rw [if_neg hgone] at hhook
        rcases List.mem_append.mp (hall.mpr hhook) with hw | hw
        · exact absurd (List.mem_map_of_mem hw) hgone
        · exact hw
  · rw [deleted_append, hm.calls.deleted, hm.next]
    have hmoved := hledger.perm hperm
    rw [List.map_append] at hmoved
    exact hmoved.delete

theorem Owned.bury (h : Owned cs s) (r : WlResource) : Owned cs (s.bury r) :=
  ⟨fun w r' => by rw [hook_bury]; exact h.hooks w r', h.ledger, h.listens⟩

/-- A surface of the list is a wrapper. -/
theorem wrapper_of_surface {x : Surface} (hx : x ∈ s.surfaces) :
    (⟨.surface, x.this⟩, x.mResource) ∈ s.wrappers := by
  apply List.mem_append_left
  apply List.mem_append_left
  refine List.mem_flatMap.mpr ⟨x, hx, ?_⟩
  exact List.mem_append_right _ (List.mem_singleton_self _)

theorem Owned.hook_surface (h : Owned cs s) {x : Surface} (hx : x ∈ s.surfaces) :
    s.hook x.mResource = some ⟨.surface, x.this⟩ :=
  (h.hooks _ _).mp (wrapper_of_surface hx)

/-- A surface's wrapper is a surface of the list. -/
theorem surface_of_wrapper (h : (w, r) ∈ s.wrappers) (hk : w.kind = .surface) :
    ∃ x ∈ s.surfaces, x.this = w.address ∧ x.mResource = r := by
  unfold wrappers at h
  rcases List.mem_append.mp h with h | h
  · rcases List.mem_append.mp h with h | h
    · obtain ⟨x, hx, hw⟩ := List.mem_flatMap.mp h
      unfold Surface.wrappers at hw
      rcases List.mem_append.mp hw with hw | hw
      · obtain ⟨p, -, hp⟩ := List.mem_map.mp hw
        rw [← (Prod.mk.inj hp).1] at hk
        cases hk
      · obtain ⟨rfl, rfl⟩ := Prod.mk.inj (List.mem_singleton.mp hw)
        exact ⟨x, hx, rfl, rfl⟩
    · obtain ⟨p, -, hp⟩ := List.mem_map.mp h
      rw [← (Prod.mk.inj hp).1] at hk
      cases hk
  · obtain ⟨p, -, hp⟩ := List.mem_map.mp h
    rw [← (Prod.mk.inj hp).1] at hk
    cases hk

/-! ## One action -/

/-- **What a destructor does**: it runs on the wrapper the hook leads to, or it sweeps the list for
a binding of the compositor, or it does nothing. -/
theorem runDestructor_eq (s : Server) (x : Resource) :
    (∃ w, x.hook = some w ∧ s.runDestructor x = s.hookDestroy w) ∨
      (x.hook = none ∧ s.runDestructor x = ⟨[], .ok s⟩) ∨
      x.hook = none ∧ x.userData = .global .compositor ∧
        s.runDestructor x = s.clientDisconnects x.client := by
  obtain ⟨client, u, d, l⟩ := x
  have hidle : ∀ x : Resource, x.hook = none → s.runDestructor x = ⟨[], .ok s⟩ →
      (∃ w, x.hook = some w ∧ s.runDestructor x = s.hookDestroy w) ∨
        (x.hook = none ∧ s.runDestructor x = ⟨[], .ok s⟩) ∨
        x.hook = none ∧ x.userData = .global .compositor ∧
          s.runDestructor x = s.clientDisconnects x.client := fun _ hn hr => .inr (.inl ⟨hn, hr⟩)
  cases d with
  | none => exact hidle _ rfl rfl
  | some d =>
    cases d with
    | hookDestroy =>
      cases u with
      | wrapper w => exact .inl ⟨w, rfl, rfl⟩
      | global g => exact hidle _ rfl rfl
      | buffer b => exact hidle _ rfl rfl
      | null => exact hidle _ rfl rfl
    | hookClientDisconects =>
      cases u with
      | wrapper w => exact hidle _ rfl rfl
      | global g =>
        cases g with
        | compositor => exact .inr (.inr ⟨rfl, rfl, rfl⟩)
        | shell => exact hidle _ rfl rfl
        | output => exact hidle _ rfl rfl
        | seat => exact hidle _ rfl rfl
      | buffer b => exact hidle _ rfl rfl
      | null => exact hidle _ rfl rfl

/-- The hook of a surface's resource, run by libwayland, leaves no hook there: the surface is
deleted. -/
theorem Owned.moved_notify_hook (h : Owned cs s) (hr : s.hook r = some w) (hk : w.kind = .surface)
    (hn : s.notify w.address = ⟨ds, .ok t⟩) :
    ∃ gone, Moved s t ds gone none ∧ t.hook r = none := by
  have hm := moved_notify hn
  refine ⟨_, hm, ?_⟩
  obtain ⟨x, hx, hthis, hres⟩ := surface_of_wrapper ((h.hooks w r).mpr hr) hk
  rw [hm.hook r, if_pos]
  refine List.mem_map.mpr ⟨(⟨.surface, x.this⟩, x.mResource), ?_, hres⟩
  refine List.mem_flatMap.mpr ⟨x, ?_, List.mem_append_right _ (List.mem_singleton_self _)⟩
  unfold contents
  refine List.mem_filterMap.mpr ⟨some x, List.mem_filter.mpr ⟨?_, ?_⟩, rfl⟩
  · obtain ⟨p, hp, heq⟩ := List.mem_filterMap.mp hx
    exact (show p = some x from heq) ▸ hp
  · simp [holds, hthis]

/-- What the destructor of a live resource does: it moves wrappers, and if a hook is still set
there, it is one of a shell surface, a region or a pointer. -/
theorem Owned.moved_runDestructor (h : Owned cs s) {x : Resource} (hr : s.resource? r = some x)
    (hrun : s.runDestructor x = ⟨ds, .ok u⟩) :
    ∃ gone, Moved s u ds gone none ∧
      ∀ w, u.hook r = some w → s.hook r = some w ∧ w.kind ≠ .surface := by
  have hx := hook_of_resource? hr
  have hsame : Moved s s [] [] none := (Frame.refl s).moved deletes_nil
  rcases runDestructor_eq s x with ⟨w, hw, heq⟩ | ⟨hnone, heq⟩ | ⟨hnone, -, heq⟩
  · have hhook : s.hookDestroy w = ⟨ds, .ok u⟩ := heq.symm.trans hrun
    rw [hw] at hx
    rcases hookDestroy_cases h.listens hhook with
      ⟨hk, rfl, rfl⟩ | ⟨hk, hnotify⟩ | ⟨hk, hfind, rfl, rfl⟩
    · refine ⟨[], hsame, fun w' hw' => ⟨hw', ?_⟩⟩
      rw [hx] at hw'
      exact Option.some.inj hw' ▸ hk
    · obtain ⟨gone, hm, hgone⟩ := h.moved_notify_hook hx hk hnotify
      exact ⟨gone, hm, fun w' hw' => absurd (hgone.symm.trans hw') nofun⟩
    · obtain ⟨y, hy, hthis, -⟩ := surface_of_wrapper ((h.hooks w r).mpr hx) hk
      exact absurd (decide_eq_true hthis) (List.find?_eq_none.mp hfind y hy)
  · cases heq.symm.trans hrun
    rw [hnone] at hx
    exact ⟨[], hsame, fun w' hw' => absurd (hx.symm.trans hw') nofun⟩
  · rw [hnone] at hx
    obtain ⟨gone, hm⟩ := moved_clientDisconnects (heq.symm.trans hrun)
    refine ⟨gone, hm, fun w' hw' => ?_⟩
    rw [hm.hook r] at hw'
    split at hw'
    · cases hw'
    · exact absurd (hx.symm.trans hw') nofun

/-- libwayland destroys a resource: the destructor moves wrappers, and then the handle is dead. -/
theorem Owned.destroyResource_cases (h : Owned cs s) (hd : s.destroyResource r = ⟨ds, .ok t⟩) :
    (s.live r = false ∧ ds = [] ∧ t = s) ∨
      ∃ u gone, s.live r = true ∧ Moved s u ds gone none ∧ t = u.bury r ∧
        ∀ w, u.hook r = some w → s.hook r = some w ∧ w.kind ≠ .surface := by
  unfold destroyResource at hd
  split at hd
  · next hr =>
    cases hd
    exact .inl ⟨not_live_of_resource? hr, rfl, rfl⟩
  · next x hr =>
    obtain ⟨ds', u, _, hrun, hret, rfl⟩ := Exec.bind_eq_ok.mp hd
    cases hret
    rw [List.append_nil]
    obtain ⟨gone, hm, hleft⟩ := h.moved_runDestructor hr hrun
    exact .inr ⟨u, gone, live_of_resource? hr, hm, rfl, hleft⟩

/-- **One action**, in the terms of `Moved`: it moves wrappers, or it makes one handle dead, after
it moved wrappers. A hook that is still set at that handle is one of a shell surface, a region or a
pointer, and it was libwayland that destroyed the resource. -/
theorem Owned.lifetime_cases (h : Owned cs s) {a : LifetimeAction}
    (hstep : s.lifetime blend a = ⟨ds, .ok t⟩) :
    (∃ gone born, Moved s t ds gone born) ∨
      ∃ u gone r, Moved s u ds gone none ∧ t = u.bury r ∧
        ∀ w, u.hook r = some w → s.hook r = some w ∧ w.kind ≠ .surface ∧ s.live r = true ∧
          s.running = true ∧ a = .destroyResource r := by
  unfold lifetime at hstep
  by_cases hrun : s.running = true
  · rw [if_pos hrun] at hstep
    cases a with
    | teardown =>
      obtain ⟨gone, hm⟩ := moved_teardown hstep
      exact .inl ⟨gone, none, hm⟩
    | forget c =>
      cases hstep
      refine .inl ⟨[], none, Frame.moved ?_ deletes_nil⟩
      unfold forget
      split
      · exact ⟨rfl, fun _ => rfl, fun _ => rfl, fun _ hr => hr, rfl, id⟩
      · exact Frame.refl s
    | destroyResource r =>
      rcases h.destroyResource_cases hstep with ⟨-, rfl, rfl⟩ | ⟨u, gone, hlive, hm, rfl, hleft⟩
      · exact .inl ⟨[], none, (Frame.refl _).moved deletes_nil⟩
      · refine .inr ⟨u, gone, r, hm, rfl, fun w hw => ?_⟩
        exact ⟨(hleft w hw).1, (hleft w hw).2, hlive, hrun, rfl⟩
    | serve a =>
      rcases serve_cases h.nodup hstep with ⟨gone, born, hm, -⟩ | ⟨r, -, rfl, rfl, hnone⟩
      · exact .inl ⟨gone, born, hm⟩
      · refine .inr ⟨s, [], r, (Frame.refl s).moved deletes_nil, rfl, fun w hw => ?_⟩
        exact absurd (hnone.symm.trans (wraps_of_hook hw)) nofun
  · rw [if_neg hrun] at hstep
    cases hstep
    exact .inl ⟨[], none, (Frame.refl _).moved deletes_nil⟩

theorem Owned.lifetime (h : Owned cs s) {a : LifetimeAction}
    (hstep : s.lifetime blend a = ⟨ds, .ok t⟩) : Owned (cs ++ ds) t := by
  rcases h.lifetime_cases hstep with ⟨_, _, hm⟩ | ⟨u, _, r, hm, rfl, -⟩
  · exact h.moved hm
  · exact (h.moved hm).bury r

/-! ## Actions that fault -/

/-- No handler of the server faults once it has made a call. -/
theorem request_fault {q : ClientRequest} {e : Fault} (h : s.request q = ⟨ds, .error e⟩) :
    ds = [] := by
  have hq : Handled s q ⟨ds, .error e⟩ := .eq h
  cases hq with
  | faulted => rfl

/-- `notify` returns, so `hookDestroy` faults before its first call or not at all. -/
theorem hookDestroy_fault {e : Fault} (h : s.hookDestroy w = ⟨ds, .error e⟩) : ds = [] := by
  by_cases hfound : w ∈ s.wrappers.map (·.1)
  · rw [hookDestroy, Exec.guard, if_pos hfound] at h
    cases hk : w.kind with
    | surface =>
      rw [hk] at h
      cases hl : (s.surface? w.address).bind (·.mDestroyListener) with
      | none =>
        simp only [hl] at h
        cases h
      | some l =>
        cases l
        simp only [hl, notify_eq] at h
        cases h
    | shellSurface =>
      rw [hk] at h
      cases h
    | region =>
      rw [hk] at h
      cases h
    | pointer =>
      rw [hk] at h
      cases h
  · rw [hookDestroy, Exec.guard, if_neg hfound] at h
    cases h
    rfl

/-- A destructor that faults does so before its first call, or as it sweeps the compositor's
list. -/
theorem runDestructor_fault {x : Resource} {e : Fault} (h : s.runDestructor x = ⟨ds, .error e⟩) :
    ds = [] ∨ ∃ c, ds = (s.clientDisconnects c).calls := by
  rcases runDestructor_eq s x with ⟨w, -, heq⟩ | ⟨-, heq⟩ | ⟨-, -, heq⟩
  · exact .inl (hookDestroy_fault (heq.symm.trans h))
  · rw [heq] at h
    cases h
  · exact .inr ⟨x.client, congrArg Exec.calls (h.symm.trans heq)⟩

/-- What a sweep of the compositor's list deletes, completed or not, are surfaces that exist. -/
theorem clientDisconnects_deletes (s : Server) (c : WlClient) :
    ∃ gone rest, s.wrappers.Perm (gone ++ rest) ∧ Deletes (s.clientDisconnects c).calls gone := by
  obtain ⟨others, hperm⟩ :=
    (removeIf_calls (clientTest c) [] s.mCompositor.mSurfacesList).exists_perm_append
  have hcalls : (s.clientDisconnects c).calls = deleteCalls
      ((removeIf (clientTest c) [] s.mCompositor.mSurfacesList).calls.flatMap
        Surface.wrappers) := by
    rw [← flatMap_deleteCalls]
    exact Exec.calls_bind_pure _ _
  refine ⟨_, others.flatMap Surface.wrappers ++ s.mCompositor.mRegions.map WaylandRegion.wrapper ++
    s.mPointerList.map Pointer.wrapper, ?_, hcalls ▸ deletes_deleteCalls _⟩
  rw [← List.append_assoc, ← List.append_assoc, ← List.flatMap_append]
  exact ((hperm.flatMap_right _).append_right _).append_right _

/-- **What an action deletes existed**, whether the action returns or faults. -/
theorem Owned.lifetime_deletes (h : Owned cs s) (blend : Blend) (a : LifetimeAction) :
    ∃ gone rest, s.wrappers.Perm (gone ++ rest) ∧ Deletes (s.lifetime blend a).calls gone := by
  have hnothing : ∀ cs : List Call, (∀ call ∈ cs, Spares call) →
      ∃ gone rest, s.wrappers.Perm (gone ++ rest) ∧ Deletes cs gone := fun cs hcs =>
    ⟨[], s.wrappers, .refl _, deletes_of_spares hcs⟩
  rcases hstep : s.lifetime blend a with ⟨ds, e | t⟩
  · unfold Server.lifetime at hstep
    by_cases hrun : s.running = true
    · rw [if_pos hrun] at hstep
      cases a with
      | teardown => cases hstep
      | forget c => cases hstep
      | destroyResource r =>
        change s.destroyResource r = _ at hstep
        unfold Server.destroyResource at hstep
        split at hstep
        · cases hstep
        · next x _ =>
          rcases hdestructor : s.runDestructor x with ⟨cs', e' | u⟩
          · rw [hdestructor] at hstep
            cases hstep
            rcases runDestructor_fault hdestructor with rfl | ⟨c, rfl⟩
            · exact hnothing [] fun _ hc => nomatch hc
            · exact clientDisconnects_deletes s c
          · rw [hdestructor] at hstep
            cases hstep
      | serve a =>
        cases a with
        | connect => cases hstep
        | request q => exact hnothing ds (request_fault hstep ▸ fun _ hc => nomatch hc)
        | move x y =>
          have hds : ds = [] := (congrArg Exec.calls hstep).symm.trans (silent_move x y)
          exact hnothing ds (hds ▸ fun _ hc => nomatch hc)
        | repaint =>
          refine hnothing ds fun call hcall => spares_repaint blend s.shm s.mCompositor call ?_
          rw [← Exec.calls_bind_pure _ fun c => { s with mCompositor := c }]
          exact (congrArg Exec.calls hstep) ▸ hcall
    · rw [if_neg hrun] at hstep
      cases hstep
  · rcases h.lifetime_cases hstep with ⟨_, _, hm⟩ | ⟨_, _, _, hm, -⟩
    · obtain ⟨rest, hrest⟩ := hm.existed
      exact ⟨_, rest, hrest, hm.calls⟩
    · obtain ⟨rest, hrest⟩ := hm.existed
      exact ⟨_, rest, hrest, hm.calls⟩

/-! ## Runs -/

/-- **Every reached state is owned.** -/
theorem reaches_owned {width height : Int} {as : List LifetimeAction}
    (h : (lifetimeMachine blend width height).Reaches as cs s) : Owned cs s :=
  h.induct (P := fun _ cs s => Owned cs s) (owned_start width height)
    fun _ _ _ _ _ _ _ ho hstep => ho.lifetime hstep

theorem mem_deleted (h : .delete w ∈ cs) : w.address ∈ deleted cs :=
  List.mem_filterMap.mpr ⟨.delete w, h, rfl⟩

/-- **A hook finds its wrapper.** In every state a run reaches, a hook that is still set on a live
resource leads to a wrapper that exists and was not deleted; and no run, whether it ends in a fault
or not, deletes a wrapper twice. -/
theorem hooks_find_wrappers (blend : Blend) (width height : Int) (as : List LifetimeAction) :
    (lifetimeMachine blend width height).Always
        (fun cs s => ∀ r w, s.live r = true → s.hook r = some w →
          w ∈ s.wrappers.map (·.1) ∧ .delete w ∉ cs) as ∧
      (deleted ((lifetimeMachine blend width height).run as).calls).Nodup := by
  constructor
  · intro bs _ cs s hs r w _ hhook
    have ho := reaches_owned hs
    have hw : (w, r) ∈ s.wrappers := (ho.hooks w r).mpr hhook
    refine ⟨List.mem_map_of_mem hw, fun hdel => ?_⟩
    exact ho.ledger.not_gone (List.mem_map_of_mem hw) (mem_deleted hdel)
  · refine Machine.run_calls (P := fun cs => (deleted cs).Nodup) List.nodup_nil ?_ as
    intro _ cs s a hs
    have ho := reaches_owned hs
    obtain ⟨gone, rest, hperm, hcalls⟩ := ho.lifetime_deletes blend a
    have hledger := ho.ledger.perm (hperm.map (·.1.address))
    rw [List.map_append] at hledger
    rw [deleted_append]
    exact hcalls.deleted ▸ hledger.delete.gone_nodup

/-- The resource of every wrapper that exists is live. -/
def WrappersLive (s : Server) : Prop := ∀ p ∈ s.wrappers, s.live p.2 = true

/-- The action destroys no resource whose hook leads to a wrapper that stays: one of a shell
surface, a region or a pointer. -/
def SparesWrappers (s : Server) (a : LifetimeAction) : Prop :=
  ∀ r w, a = .destroyResource r → s.running = true → s.live r = true → s.hook r = some w →
    w.kind = .surface

theorem WrappersLive.moved (h : s.WrappersLive) (hm : Moved s t ds gone born) :
    t.WrappersLive := by
  intro p hp
  refine hm.live p.2 ?_
  have hall : p ∈ s.newborn born ++ s.wrappers :=
    hm.wrappers.mem_iff.mpr (List.mem_append_right gone hp)
  cases born with
  | none => exact h p hall
  | some b =>
    rcases List.mem_cons.mp hall with rfl | hold
    · exact live_new rfl
    · exact live_addResource (h p hold)

theorem WrappersLive.lifetime (h : s.WrappersLive) (ho : Owned cs s) {a : LifetimeAction}
    (ha : s.SparesWrappers a) (hstep : s.lifetime blend a = ⟨ds, .ok t⟩) : t.WrappersLive := by
  rcases ho.lifetime_cases hstep with ⟨_, _, hm⟩ | ⟨u, _, r, hm, rfl, hleft⟩
  · exact h.moved hm
  · intro p hp
    have hp' : p ∈ u.wrappers := hp
    have hne : p.2 ≠ r := by
      rintro rfl
      obtain ⟨hhook, hkind, hlive, hrun, hact⟩ := hleft p.1 (((ho.moved hm).hooks p.1 p.2).mp hp')
      exact hkind (ha p.2 p.1 hact hrun hlive hhook)
    rw [live_bury, h.moved hm p hp', Bool.true_and]
    exact decide_eq_true hne

/-- A resource that is destroyed with its hook set: its wrapper's `destroy` runs. -/
theorem destroyResource_hook (hlive : s.live r = true) (hhook : s.hook r = some w) :
    s.destroyResource r = s.hookDestroy w >>= fun s => pure (s.bury r) := by
  obtain ⟨x, hx⟩ := Option.isSome_iff_exists.mp hlive
  rw [hook_of_resource? hx] at hhook
  rcases runDestructor_eq s x with ⟨w', hw, heq⟩ | ⟨hnone, -⟩ | ⟨hnone, -⟩
  · obtain rfl : w' = w := Option.some.inj (hw.symm.trans hhook)
    rw [destroyResource, hx, ← heq]
  · rw [hnone] at hhook
    cases hhook
  · rw [hnone] at hhook
    cases hhook

/-- It does nothing, unless the wrapper is a surface. -/
theorem Owned.destroyResource_stays (h : Owned cs s) (hlive : s.live r = true)
    (hhook : s.hook r = some w) (hkind : w.kind ≠ .surface) :
    s.destroyResource r = ⟨[], .ok (s.bury r)⟩ := by
  have hfound : w ∈ s.wrappers.map (·.1) := List.mem_map_of_mem ((h.hooks w r).mpr hhook)
  have hdestroy : s.hookDestroy w = ⟨[], .ok s⟩ := by
    rw [hookDestroy, Exec.guard, if_pos hfound]
    cases hk : w.kind with
    | surface => exact absurd hk hkind
    | shellSurface => rfl
    | region => rfl
    | pointer => rfl
  rw [destroyResource_hook hlive hhook, hdestroy]
  rfl

/-- **When wrappers do not outlive their resources.** A run keeps the resource of every wrapper
live, and so calls `wl_resource_set_destructor` only on live resources, exactly if it never
destroys a resource with a hook that leads to a shell surface, a region or a pointer. -/
theorem wrappers_live_iff (blend : Blend) (width height : Int) (as : List LifetimeAction) :
    (lifetimeMachine blend width height).Always
        (fun _ s => s.WrappersLive ∧
          ∀ a, ∀ r ∈ disarmed (s.lifetime blend a).calls, s.live r = true) as ↔
      (lifetimeMachine blend width height).Along SparesWrappers as := by
  have hcalls : ∀ {cs s}, Owned cs s → s.WrappersLive →
      ∀ a, ∀ r ∈ disarmed (s.lifetime blend a).calls, s.live r = true := by
    intro cs s ho hs a r hr
    obtain ⟨gone, rest, hperm, hdeletes⟩ := ho.lifetime_deletes blend a
    rw [hdeletes.disarmed] at hr
    obtain ⟨p, hp, rfl⟩ := List.mem_map.mp hr
    exact hs p (hperm.mem_iff.mpr (List.mem_append_left rest hp))
  refine Machine.always_iff_along ?_ ?_ ?_ as
  · have hstart : (start width height).WrappersLive := fun p hp => nomatch hp
    exact ⟨hstart, hcalls (owned_start width height) hstart⟩
  · intro as cs s a ds t hreach hs ha hstep
    have ho := reaches_owned hreach
    have ht := hs.1.lifetime ho ha hstep
    exact ⟨ht, hcalls (ho.lifetime hstep) ht⟩
  · intro as cs s a hreach hs ha
    have ho := reaches_owned hreach
    unfold SparesWrappers at ha
    push Not at ha
    obtain ⟨r, w, rfl, hrun, hlive, hhook, hkind⟩ := ha
    refine ⟨[], s.bury r, ?_, fun ht => ?_⟩
    · show s.lifetime blend (.destroyResource r) = _
      rw [lifetime, if_pos hrun]
      exact ho.destroyResource_stays hlive hhook hkind
    · have hdead : (s.bury r).live r = true := ht.1 (w, r) ((ho.hooks w r).mpr hhook)
      rw [live_bury] at hdead
      simp at hdead

/-- A client makes a region and disconnects: the region outlives its resource, and the teardown of
the server would disarm the dead handle. -/
theorem region_outlives_resource :
    ¬ ∀ blend width height as, (lifetimeMachine blend width height).Always
      (fun _ s => s.WrappersLive ∧
        ∀ a, ∀ r ∈ disarmed (s.lifetime blend a).calls, s.live r = true) as := by
  intro h
  have hstate := h (fun bg _ _ => bg) 1 1
    [.serve .connect, .serve (.request (.bind 0 .compositor)), .serve (.request (.createRegion 0)),
      .destroyResource 0, .destroyResource 1, .forget 0] _ List.prefix_rfl _ _ rfl
  have hdead := hstate.2 .teardown 1 (by decide)
  cases hdead

end Server

end WaylandTest
