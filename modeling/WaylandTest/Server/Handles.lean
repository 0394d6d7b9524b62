import WaylandTest.Server.Requests

/-!
# Handles

What a handle stands for is read off its entry in the table of resources: the wrapper that its
destructor would be run on (`hook`), the wrapper that its user data points at (`wraps`), and, while
it is live, its client and its user data (`info`). The table is changed in three ways: a resource is
made, freed, or its destructor is set to null. The module has one lemma for each reading and each
way, all from what the three do to one entry.
-/

set_option autoImplicit false

namespace WaylandTest

open Lib

/-- The wrapper `hookDestroy` is called on when the resource is destroyed. -/
def Resource.hook (x : Resource) : Option Wrapper :=
  match x.destructor, x.userData with
  | some .hookDestroy, .wrapper w => some w
  | _, _ => none

/-- The wrapper the user data points at. -/
def UserData.wrapper? : UserData → Option Wrapper
  | .wrapper w => some w
  | _ => none

namespace Server

variable {s t : Server} {r r' : WlResource} {ws : List (Wrapper × WlResource)} {x : Resource}
  {c : WlClient} {u : UserData}

/-- The wrapper `hookDestroy` is called on when the handle's resource is destroyed. -/
def hook (s : Server) (r : WlResource) : Option Wrapper := (s.resources[r]?).bind Resource.hook

/-- The wrapper the user data of the handle's resource points at, or pointed at. -/
def wraps (s : Server) (r : WlResource) : Option Wrapper :=
  (s.resources[r]?).bind (·.userData.wrapper?)

/-- The client and the user data of a live handle. -/
def info (s : Server) (r : WlResource) : Option (WlClient × UserData) :=
  (s.resource? r).map fun x => (x.client, x.userData)

/-! ## One entry -/

/-- The new resource gets the next handle; the entries of all older handles are what they were. -/
theorem getElem?_addResource :
    (s.addResource x).resources[r]? =
      if r = s.resources.length then some x else s.resources[r]? := by
  unfold addResource
  rw [List.getElem?_append]
  rcases Nat.lt_trichotomy r s.resources.length with hlt | heq | hgt
  · rw [if_pos hlt, if_neg (Nat.ne_of_lt hlt)]
  · rw [if_neg (Nat.not_lt.mpr (Nat.le_of_eq heq.symm)), if_pos heq, heq, Nat.sub_self]
    rfl
  · have hout : [x].length ≤ r - s.resources.length := Nat.le_sub_of_add_le' hgt
    rw [if_neg (Nat.lt_asymm hgt), if_neg (Nat.ne_of_gt hgt), List.getElem?_eq_none hout,
      List.getElem?_eq_none (Nat.le_of_lt hgt)]

/-- Freeing a resource changes one entry, and of that only whether it is live: its client, its user
data and its destructor can still be read, as the C++ that holds a stale pointer reads them. -/
theorem getElem?_bury :
    (s.bury r').resources[r]? = (s.resources[r]?).map fun x =>
      if r = r' then { x with live := false } else x := by
  unfold bury
  rw [List.getElem?_modify]
  cases s.resources[r]? with
  | none => rfl
  | some x =>
    by_cases h : r' = r
    · simp [h]
    · have hne : ¬ r = r' := fun he => h he.symm
      simp [h, hne]

/-- `wl_resource_set_destructor` with null, on the resources of some wrappers: their entries lose
the destructor and nothing else. A handle may come up twice in the list. -/
theorem getElem?_disarm :
    (s.disarm ws).resources[r]? = (s.resources[r]?).map fun x =>
      if r ∈ ws.map (·.2) then { x with destructor := none } else x := by
  unfold disarm
  simp only
  generalize s.resources = rs
  induction ws generalizing rs with
  | nil => simp
  | cons w ws ih =>
    rw [List.foldl_cons, ih, List.getElem?_modify]
    cases rs[r]? with
    | none => rfl
    | some x =>
      by_cases h : w.2 = r
      · by_cases hr : r ∈ ws.map (·.2) <;> simp [h, hr]
      · have hmem : r ∈ (w :: ws).map (·.2) ↔ r ∈ ws.map (·.2) := by
          rw [List.map_cons, List.mem_cons]
          exact ⟨fun hr => hr.resolve_left fun he => h he.symm, .inr⟩
        simp only [hmem, h, if_false, Option.map_eq_map, Option.map_some]

/-- The entry of a live handle. -/
theorem resource?_eq_some : s.resource? r = some x ↔ s.resources[r]? = some x ∧ x.live = true :=
  Option.filter_eq_some_iff

/-- A handle that was ever made is below the next one. -/
theorem lt_of_getElem? (h : s.resources[r]? = some x) : r < s.resources.length :=
  (List.getElem?_eq_some_iff.mp h).1

/-! ## Hooks -/

/-- Of a live handle the hook is read off the resource itself. -/
theorem hook_of_resource? (h : s.resource? r = some x) : s.hook r = x.hook := by
  unfold hook
  rw [(resource?_eq_some.mp h).1]
  rfl

/-- A handle with a hook was made. -/
theorem hook_lt {w : Wrapper} (h : s.hook r = some w) : r < s.resources.length := by
  obtain ⟨x, hx, -⟩ := Option.bind_eq_some_iff.mp h
  exact lt_of_getElem? hx

/-- Making a resource gives the new handle the hook that the resource came with. -/
theorem hook_addResource :
    (s.addResource x).hook r = if r = s.resources.length then x.hook else s.hook r := by
  unfold hook
  rw [getElem?_addResource]
  split
  · rfl
  · rfl

/-- A resource that is freed keeps its hook. That the hook is not run a second time is a matter of
the handle not being live. -/
theorem hook_bury : (s.bury r').hook r = s.hook r := by
  unfold hook
  rw [getElem?_bury]
  cases s.resources[r]? with
  | none => rfl
  | some x => by_cases h : r = r' <;> simp [h, Resource.hook]

/-- A disarmed resource has no hook: `hookDestroy` is not called any more when it goes. -/
theorem hook_disarm :
    (s.disarm ws).hook r = if r ∈ ws.map (·.2) then none else s.hook r := by
  unfold hook
  rw [getElem?_disarm]
  cases s.resources[r]? with
  | none => simp
  | some x => by_cases h : r ∈ ws.map (·.2) <;> simp [h, Resource.hook]

/-- A step that leaves the table of resources leaves the hooks; the other readings have such a lemma
each. -/
theorem hook_congr (h : t.resources = s.resources) : t.hook r = s.hook r := by
  unfold hook
  rw [h]

/-- A hook leads to the wrapper of the user data. -/
theorem wraps_of_hook {w : Wrapper} (h : s.hook r = some w) : s.wraps r = some w := by
  obtain ⟨x, hx, hw⟩ := Option.bind_eq_some_iff.mp h
  unfold wraps
  rw [hx, Option.bind_some]
  unfold Resource.hook at hw
  split at hw
  · next hu =>
    rw [hu]
    exact hw
  · cases hw

/-! ## User data -/

/-- Making a resource gives the new handle the wrapper of the resource's user data. -/
theorem wraps_addResource :
    (s.addResource x).wraps r =
      if r = s.resources.length then x.userData.wrapper? else s.wraps r := by
  unfold wraps
  rw [getElem?_addResource]
  split
  · rfl
  · rfl

/-- A handle whose user data points at a wrapper was made. -/
theorem wraps_lt {w : Wrapper} (h : s.wraps r = some w) : r < s.resources.length := by
  obtain ⟨x, hx, -⟩ := Option.bind_eq_some_iff.mp h
  exact lt_of_getElem? hx

/-- The user data outlives its resource: the pointer is still there, whatever became of the
wrapper. -/
theorem wraps_bury : (s.bury r').wraps r = s.wraps r := by
  unfold wraps
  rw [getElem?_bury]
  cases s.resources[r]? with
  | none => rfl
  | some x => by_cases h : r = r' <;> simp [h]

/-- Disarming leaves the user data. So a handle may still lead a request to a wrapper that is
deleted, unless its resource is freed as well. -/
theorem wraps_disarm : (s.disarm ws).wraps r = s.wraps r := by
  unfold wraps
  rw [getElem?_disarm]
  cases s.resources[r]? with
  | none => rfl
  | some x => by_cases h : r ∈ ws.map (·.2) <;> simp [h]

theorem wraps_congr (h : t.resources = s.resources) : t.wraps r = s.wraps r := by
  unfold wraps
  rw [h]

/-- What the user data of the handle's resource points at, or pointed at. -/
def data (s : Server) (r : WlResource) : Option UserData := (s.resources[r]?).map (·.userData)

/-- Making a resource gives the new handle the resource's user data. -/
theorem data_addResource :
    (s.addResource x).data r = if r = s.resources.length then some x.userData else s.data r := by
  unfold data
  rw [getElem?_addResource]
  split
  · rfl
  · rfl

/-- The next handle has no user data yet. -/
theorem data_length : s.data s.resources.length = none := by
  unfold data
  rw [List.getElem?_eq_none (Nat.le_refl _), Option.map_none]

/-- The user data of a resource that is freed can still be read. -/
theorem data_bury : (s.bury r').data r = s.data r := by
  unfold data
  rw [getElem?_bury]
  cases s.resources[r]? with
  | none => rfl
  | some x => by_cases h : r = r' <;> simp [h]

/-- Disarming changes no user data. -/
theorem data_disarm : (s.disarm ws).data r = s.data r := by
  unfold data
  rw [getElem?_disarm]
  cases s.resources[r]? with
  | none => rfl
  | some x => by_cases h : r ∈ ws.map (·.2) <;> simp [h]

theorem data_congr (h : t.resources = s.resources) : t.data r = s.data r := by
  unfold data
  rw [h]

/-- A request on a wrapper is sent to a handle that points at it. -/
theorem wraps_of_wrapperAt {kind : WrapperClass} {a : Address}
    (h : s.wrapperAt kind r = some (a, c)) : s.wraps r = some ⟨kind, a⟩ := by
  obtain ⟨x, hx, hw⟩ := Option.bind_eq_some_iff.mp h
  unfold wraps
  rw [(resource?_eq_some.mp hx).1, Option.bind_some]
  split at hw
  · next w hu =>
    by_cases hk : w.kind = kind
    · rw [if_pos hk] at hw
      cases hw
      rw [hu, ← hk]
      rfl
    · rw [if_neg hk] at hw
      cases hw
  · cases hw

/-! ## Live handles -/

/-- What `resource?` finds is live. -/
theorem live_of_resource? (h : s.resource? r = some x) : s.live r = true := by
  unfold live
  rw [h]
  rfl

/-- And what it does not find is not: the handle was freed, or never made. -/
theorem not_live_of_resource? (h : s.resource? r = none) : s.live r = false := by
  unfold live
  rw [h]
  rfl

/-- A handle is live exactly if there is something to tell of it. The lemmas on live handles below
go through this one. -/
theorem live_def : s.live r = (s.info r).isSome := Option.isSome_map.symm

/-- The client and the user data of a live handle, spelled out. -/
theorem info_eq_some :
    s.info r = some (c, u) ↔ ∃ x, s.resource? r = some x ∧ x.client = c ∧ x.userData = u := by
  unfold info
  rw [Option.map_eq_some_iff]
  constructor
  · rintro ⟨x, hx, heq⟩
    exact ⟨x, hx, (Prod.mk.inj heq).1, (Prod.mk.inj heq).2⟩
  · rintro ⟨x, hx, rfl, rfl⟩
    exact ⟨x, hx, rfl⟩

/-- A live handle was made. -/
theorem info_lt {i : WlClient × UserData} (h : s.info r = some i) : r < s.resources.length := by
  obtain ⟨x, hx, -⟩ := info_eq_some.mp h
  exact lt_of_getElem? (resource?_eq_some.mp hx).1

/-- A resource that is live when it is made is known under the next handle. -/
theorem info_addResource (hx : x.live = true) :
    (s.addResource x).info r =
      if r = s.resources.length then some (x.client, x.userData) else s.info r := by
  unfold info resource?
  rw [getElem?_addResource]
  split
  · rw [Option.filter_some, if_pos hx, Option.map_some]
  · rfl

/-- Nothing is told of a resource once it is freed; of the others, the same as before. -/
theorem info_bury : (s.bury r').info r = if r = r' then none else s.info r := by
  unfold info resource?
  rw [getElem?_bury]
  cases s.resources[r]? with
  | none => simp
  | some x => by_cases h : r = r' <;> simp [h]

/-- Disarming is not seen in the client and the user data. -/
theorem info_disarm : (s.disarm ws).info r = s.info r := by
  unfold info resource?
  rw [getElem?_disarm]
  cases s.resources[r]? with
  | none => rfl
  | some x =>
    by_cases h : r ∈ ws.map (·.2)
    · simp only [Option.map_some, if_pos h, Option.filter_some]
      split <;> rfl
    · simp only [Option.map_some, if_neg h]

theorem info_congr (h : t.resources = s.resources) : t.info r = s.info r := by
  unfold info resource?
  rw [h]

/-- Making a resource leaves the live handles as they are. -/
theorem info_addResource_of_some {i : WlClient × UserData} (h : s.info r = some i) :
    (s.addResource x).info r = some i := by
  have hold : r ≠ s.resources.length := Nat.ne_of_lt (info_lt h)
  unfold info resource? at h ⊢
  rw [getElem?_addResource, if_neg hold]
  exact h

/-- The new handle is live, if its resource is. -/
theorem live_new (hx : x.live = true) : (s.addResource x).live s.resources.length = true := by
  rw [live_def, info_addResource hx, if_pos rfl]
  rfl

/-- No handle dies when a resource is made. -/
theorem live_addResource (h : s.live r = true) : (s.addResource x).live r = true := by
  rw [live_def] at h ⊢
  obtain ⟨i, hi⟩ := Option.isSome_iff_exists.mp h
  rw [info_addResource_of_some hi]
  rfl

/-- Exactly the handle that is freed dies. -/
theorem live_bury : (s.bury r').live r = (s.live r && decide (r ≠ r')) := by
  rw [live_def, live_def, info_bury]
  by_cases h : r = r' <;> simp [h]

/-- No handle dies when destructors are set to null. -/
theorem live_disarm : (s.disarm ws).live r = s.live r := by
  rw [live_def, live_def, info_disarm]

theorem live_congr (h : t.resources = s.resources) : t.live r = s.live r := by
  rw [live_def, live_def, info_congr h]

/-- A binding of a global, as `info` has it: the user data is the global. -/
theorem bindingAt_eq {g : Global} :
    s.bindingAt g r = some c ↔ s.info r = some (c, .global g) := by
  unfold bindingAt
  rw [info_eq_some, Option.bind_eq_some_iff]
  constructor
  · rintro ⟨x, hx, hc⟩
    by_cases hu : x.userData = .global g
    · rw [if_pos hu] at hc
      exact ⟨x, hx, Option.some.inj hc, hu⟩
    · rw [if_neg hu] at hc
      cases hc
  · rintro ⟨x, hx, rfl, hu⟩
    exact ⟨x, hx, if_pos hu⟩

/-- The resources that libwayland destroys when a client disconnects are those of the live handles
that are the client's. -/
theorem mem_resourcesOf : r ∈ s.resourcesOf c ↔ ∃ u, s.info r = some (c, u) := by
  unfold resourcesOf
  rw [List.mem_filter, List.mem_range]
  constructor
  · rintro ⟨-, h⟩
    obtain ⟨x, hx, hc⟩ := (Option.any_eq_true _ _).mp h
    exact ⟨x.userData, info_eq_some.mpr ⟨x, hx, of_decide_eq_true hc, rfl⟩⟩
  · rintro ⟨u, h⟩
    obtain ⟨x, hx, hc, -⟩ := info_eq_some.mp h
    exact ⟨info_lt h, (Option.any_eq_true _ _).mpr ⟨x, hx, decide_eq_true hc⟩⟩

/-- It destroys each of them once. -/
theorem nodup_resourcesOf (s : Server) (c : WlClient) : (s.resourcesOf c).Nodup :=
  List.nodup_range.filter _

end Server

end WaylandTest
