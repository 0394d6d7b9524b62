import WaylandTest.Link.Hosted
import WaylandTest.Link.Screen

/-!
# A client that draws in place, in the whole server

The client of `Link/Pictures.lean` on the server of `Link/Hosted.lean`: the memory that the client
draws into, byte by byte, is the server's own table of buffers. The others do what they do, and draw
into their buffers too.

`Shows` relates a state to one of the client with a server of its own, with the same memory. So no
picture is torn on the way to the whole server either (`hosted_pictures_whole`). A `memset` that
nothing interrupts is one change of the table (`InPlace.runFrom_redraw`).
-/

set_option autoImplicit false

namespace WaylandTest

open Lib Client Server

/-- A byte is set in the memory behind a `wl_buffer`. -/
def UserData.write (k : Nat) (v : UInt8) : UserData → UserData
  | .buffer (some b) => .buffer (some { b with data := b.data.set k v })
  | u => u

/-- A client sets a byte of a buffer, which the server sees. -/
def Server.write (s : Server) (b : WlResource) (k : Nat) (v : UInt8) : Server :=
  { s with resources := s.resources.modify b fun x => { x with userData := x.userData.write k v } }

/-- A hosted client that draws in place. -/
structure InPlace where
  hosted : Hosted
  color : UInt8 := 0
  /-- The buffer the client is drawing into, and how many bytes are set. -/
  drawing : Option (WlResource × Nat) := none

/-- What can happen next: what the client does, its first request arrives, or somebody else does
something or sets a byte of a buffer. -/
inductive InPlaceAction
  | beginRedraw (buffer : WlResource)
  | store
  | endRedraw
  | deliverRequest
  | deliverEvent
  | other (act : LifetimeAction)
  | otherStore (buffer : WlResource) (k : Nat) (v : UInt8)

namespace InPlace

/-- `WaylandSurface::redraw` up to the `memset`. -/
def beginRedraw (h : Hosting) (w : InPlace) (b : WlResource) : InPlace :=
  if w.drawing = none ∧ (w.hosted.link h).Ready b then
    { w with color := w.color + 1, drawing := some (b, 0) }
  else
    w

def write (w : InPlace) (b : WlResource) (k : Nat) (v : UInt8) : InPlace :=
  { w with hosted := { w.hosted with server := w.hosted.server.write b k v } }

/-- The next byte of the `memset`. -/
def store (w : InPlace) : InPlace :=
  match w.drawing with
  | none => w
  | some (b, k) =>
    if k < drawnBytes then { w.write b k w.color with drawing := some (b, k + 1) } else w

/-- An action that sets no byte. -/
def pass (h : Hosting) (w : InPlace) (a : HostedAction) : Exec Mark Fault InPlace :=
  w.hosted.act h a >>= fun v => pure { w with hosted := v }

/-- `WaylandSurface::redraw` after the `memset`. -/
def endRedraw (h : Hosting) (w : InPlace) : Exec Mark Fault InPlace :=
  match w.drawing with
  | none => pure w
  | some (b, k) => if k = drawnBytes then { w with drawing := none }.pass h (.redraw b) else pure w

/-- One action. A client that is drawing takes in no event, and nobody else has its memory. -/
def act (h : Hosting) (w : InPlace) : InPlaceAction → Exec Mark Fault InPlace
  | .beginRedraw b => pure (w.beginRedraw h b)
  | .store => pure w.store
  | .endRedraw => w.endRedraw h
  | .deliverRequest => w.pass h .deliverRequest
  | .deliverEvent => if w.drawing = none then w.pass h .deliverEvent else pure w
  | .other act => w.pass h (.other act)
  | .otherStore b k v =>
    if w.hosted.server.clientOf b = some h.client then pure w else pure (w.write b k v)

end InPlace

/-- A client that draws in place, and the whole server. -/
def inPlaceMachine (h : Hosting) : Machine Mark Fault InPlace InPlaceAction where
  init := { hosted := Hosted.start h }
  step := InPlace.act h

/-! ## A byte that is set -/

/-- Only what is behind a `wl_buffer` is written. -/
theorem UserData.write_eq (k : Nat) (v : UInt8) (u : UserData) :
    u.write k v = u ∨ ∃ b c, u = .buffer (some b) ∧ u.write k v = .buffer (some c) := by
  cases u with
  | buffer o =>
    cases o with
    | none => exact .inl rfl
    | some b => exact .inr ⟨b, _, rfl, rfl⟩
  | global g => exact .inl rfl
  | wrapper w => exact .inl rfl
  | null => exact .inl rfl

namespace Server

variable {s : Server} {b r : WlResource} {k : Nat} {v : UInt8} {c : WlClient} {cs : List Call}

theorem getElem?_write :
    (s.write b k v).resources[r]? = (s.resources[r]?).map fun x =>
      if r = b then { x with userData := x.userData.write k v } else x := by
  unfold write
  rw [List.getElem?_modify]
  cases s.resources[r]? with
  | none => rfl
  | some x =>
    by_cases h : b = r
    · simp [h]
    · have hne : ¬ r = b := fun he => h he.symm
      simp [h, hne]

theorem write_other (h : r ≠ b) : (s.write b k v).resources[r]? = s.resources[r]? := by
  rw [getElem?_write]
  simp [h]

/-- What is read of a resource is what it was, if all buffers are alike to the reader. -/
theorem read_write {β : Type} (f : Resource → Option β)
    (hf : ∀ (x : Resource) b c, f { x with userData := .buffer (some b) } =
      f { x with userData := .buffer (some c) }) :
    ((s.write b k v).resources[r]?).bind f = (s.resources[r]?).bind f := by
  rw [getElem?_write]
  cases s.resources[r]? with
  | none => rfl
  | some x =>
    by_cases h : r = b
    · rw [Option.map_some, if_pos h, Option.bind_some, Option.bind_some]
      obtain ⟨owner, u, d, live⟩ := x
      rcases u.write_eq k v with hu | ⟨a, a', rfl, hu⟩
      · rw [hu]
      · rw [hu]
        exact hf ⟨owner, .null, d, live⟩ a' a
    · rw [Option.map_some, if_neg h]

/-- `read_write` of a live resource. -/
theorem resource?_write {β : Type} (f : Resource → Option β)
    (hf : ∀ (x : Resource) b c, f { x with userData := .buffer (some b) } =
      f { x with userData := .buffer (some c) }) :
    ((s.write b k v).resource? r).bind f = (s.resource? r).bind f := by
  have hlive : ∀ t : Server, (t.resource? r).bind f =
      (t.resources[r]?).bind fun x => if x.live then f x else none := by
    intro t
    unfold resource?
    cases t.resources[r]? with
    | none => rfl
    | some x => cases hx : x.live <;> simp [Option.filter_some, hx]
  rw [hlive, hlive]
  refine read_write _ fun x b c => ?_
  simp only [hf x b c]

theorem clientOf_write : (s.write b k v).clientOf r = s.clientOf r := by
  unfold clientOf
  rw [Option.map_eq_bind, Option.map_eq_bind]
  exact read_write _ fun _ _ _ => rfl

theorem hook_write : (s.write b k v).hook r = s.hook r := by
  refine read_write _ fun x b c => ?_
  obtain ⟨owner, u, d, live⟩ := x
  rcases d with _ | _ | _ <;> rfl

theorem wraps_write : (s.write b k v).wraps r = s.wraps r := read_write _ fun _ _ _ => rfl

theorem wrapperAt_write {kind : WrapperClass} :
    (s.write b k v).wrapperAt kind r = s.wrapperAt kind r := resource?_write _ fun _ _ _ => rfl

theorem hasBuffer_write : (s.write b k v).hasBuffer c r = s.hasBuffer c r := by
  have hany : ∀ t : Server, t.hasBuffer c r =
      ((t.resource? r).bind fun x => some (x.client = c && x.userData.isBuffer : Bool)).getD
        false := by
    intro t
    unfold hasBuffer
    cases t.resource? r <;> rfl
  rw [hany, hany, resource?_write _ fun _ _ _ => rfl]

/-- The buffer itself holds the byte. -/
theorem shm_write_self : (s.write b k v).shm b =
    (s.shm b).map fun buffer => { buffer with data := buffer.data.set k v } := by
  unfold Server.shm
  rw [getElem?_write]
  cases s.resources[b]? with
  | none => rfl
  | some x =>
    obtain ⟨c, u, d, live⟩ := x
    rw [Option.map_some, if_pos rfl, Option.bind_some, Option.bind_some]
    cases u with
    | buffer o => cases o <;> rfl
    | global g => rfl
    | wrapper w => rfl
    | null => rfl

theorem shm_write_other (h : r ≠ b) : (s.write b k v).shm r = s.shm r := shm_congr (write_other h)

/-- A byte of another client's buffer. -/
theorem retains_write (h : s.clientOf b ≠ some c) : Retains c s (s.write b k v) := by
  intro r hr
  have hne : r ≠ b := fun hrb => h (hrb ▸ hr)
  exact write_other hne

theorem Separate.write (h : Separate cs s) : Separate cs (s.write b k v) where
  owned := ⟨fun w r => by rw [hook_write]; exact h.owned.hooks w r, h.owned.ledger,
    h.owned.listens⟩
  accounted r w hw := h.accounted r w (wraps_write ▸ hw)
  apart z hz r hr := clientOf_write.trans (h.apart z hz r hr)

end Server

/-- Nothing that relates the client to one with a server of its own is in the bytes. -/
theorem Follows.write {h : Hosting} {w : Hosted} {l : Link} (hf : Follows h w l) (b : WlResource)
    (k : Nat) (v : UInt8) : Follows h { w with server := w.server.write b k v } l where
  separate := by
    obtain ⟨cs, hsep⟩ := hf.separate
    exact ⟨cs, hsep.write⟩
  bound := wrapperAt_write.trans hf.bound
  isShm c hc := by
    obtain ⟨hbuffer, hshm⟩ := hf.isShm c hc
    refine ⟨hasBuffer_write.trans hbuffer, ?_⟩
    by_cases hcb : c = b
    · subst hcb
      show ((w.server.write c k v).shm c).isSome = true
      rw [shm_write_self, Option.isSome_map]
      exact hshm
    · show ((w.server.write b k v).shm c).isSome = true
      rw [shm_write_other hcb]
      exact hshm
  only := hf.only
  owned := hf.owned
  mirrors := hf.mirrors

/-! ## The same memory -/

/-- The client that draws in place is where the one with a server of its own is, and the server has
its memory. -/
structure InPlace.Shows (h : Hosting) (w : InPlace) (s : Shared) : Prop where
  follows : Follows h w.hosted s.link
  color : w.color = s.color
  drawing : w.drawing = s.drawing
  memory : ∀ b ∈ h.handles, w.hosted.server.shm b = s.table h.server.shm b

namespace InPlace

theorem pass_ok {h : Hosting} {w w' : InPlace} {a : HostedAction} {ns : List Mark}
    (hstep : w.pass h a = ⟨ns, .ok w'⟩) :
    ∃ v, w.hosted.act h a = ⟨ns, .ok v⟩ ∧ w' = { w with hosted := v } := by
  obtain ⟨ds, v, es, hv, hw, rfl⟩ := Exec.bind_eq_ok.mp hstep
  cases hw
  rw [List.append_nil]
  exact ⟨v, hv, rfl⟩

end InPlace

namespace InPlace.Shows

variable {h : Hosting} {w w' : InPlace} {s : Shared} {m n : Nat} {ns : List Mark}

theorem start (hzero : ∀ b ∈ h.handles, (h.server.shm b).map (·.data) =
    some (List.replicate shmSize 0)) :
    Shows h (inPlaceMachine h).init (Shared.start h.setup) where
  follows := .start h
  color := rfl
  drawing := rfl
  memory b hb := by
    obtain ⟨buffer, hbuffer, hdata⟩ := Option.map_eq_some_iff.mp (hzero b hb)
    show h.server.shm b = (h.server.shm b).map _
    rw [hbuffer, Option.map_some]
    show some buffer = some { buffer with data := List.replicate shmSize 0 }
    rw [← hdata]

theorem beginRedraw (hv : Shows h w s) (b : WlResource) :
    Shows h (w.beginRedraw h b) (s.beginRedraw b) := by
  have hready : (w.hosted.link h).Ready b ↔ s.link.Ready b := hv.follows.mirrors.ready
  unfold InPlace.beginRedraw Shared.beginRedraw
  by_cases hr : s.drawing = none ∧ s.link.Ready b
  · rw [if_pos hr, if_pos ⟨hv.drawing.trans hr.1, hready.mpr hr.2⟩]
    exact ⟨hv.follows, congrArg (· + 1) hv.color, rfl, hv.memory⟩
  · rw [if_neg hr, if_neg fun hw => hr ⟨hv.drawing.symm.trans hw.1, hready.mp hw.2⟩]
    exact hv

theorem store (hv : Shows h w s) : Shows h w.store s.store := by
  unfold InPlace.store Shared.store
  rw [hv.drawing]
  cases hd : s.drawing with
  | none => exact hv
  | some d =>
    obtain ⟨b, k⟩ := d
    by_cases hk : k < drawnBytes
    · simp only [if_pos hk]
      refine ⟨hv.follows.write b k w.color, hv.color, rfl, fun c hc => ?_⟩
      have hmem := hv.memory c hc
      by_cases hcb : c = b
      · subst hcb
        show (w.hosted.server.write c k w.color).shm c = _
        rw [shm_write_self, hmem, hv.color]
        unfold Shared.table
        rw [Option.map_map]
        simp [Function.comp_def]
      · show (w.hosted.server.write b k w.color).shm c = _
        rw [shm_write_other hcb, hmem]
        unfold Shared.table
        simp [Function.update_of_ne hcb]
    · simp only [if_neg hk]
      exact hv

/-- Where the server keeps the client's resources, it keeps the memory. -/
theorem passed (hv : Shows h w s) {v : Hosted} {l : Link} (hf : Follows h v l)
    (hretains : Retains h.client w.hosted.server v.server) :
    Shows h { w with hosted := v } { s with link := l } where
  follows := hf
  color := hv.color
  drawing := hv.drawing
  memory b hb := by
    have hown := clientOf_of_hasBuffer (hv.follows.isShm b hb).1
    show v.server.shm b = s.table h.server.shm b
    rw [shm_congr (hretains b hown)]
    exact hv.memory b hb

/-- Somebody else sets a byte of a buffer of his. -/
theorem otherStore (hv : Shows h w s) {b : WlResource}
    (hother : w.hosted.server.clientOf b ≠ some h.client) (k : Nat) (v : UInt8) :
    Shows h (w.write b k v) s :=
  hv.passed (hv.follows.write b k v) (retains_write hother)

/-- What the client has drawn is sent on both sides. -/
theorem endRedraw (hv : Shows h w s) (hstep : w.endRedraw h = ⟨ns, .ok w'⟩) :
    ns = s.endRedraw.2 ∧ Shows h w' s.endRedraw.1 := by
  unfold InPlace.endRedraw at hstep
  unfold Shared.endRedraw
  rw [hv.drawing] at hstep
  cases hd : s.drawing with
  | none =>
    simp only [hd] at hstep
    cases hstep
    exact ⟨rfl, hv⟩
  | some d =>
    obtain ⟨b, k⟩ := d
    simp only [hd] at hstep
    by_cases hk : k = drawnBytes
    · rw [if_pos hk] at hstep
      simp only [if_pos hk]
      obtain ⟨hmirrors, hmarks⟩ := hv.follows.mirrors.redraw b
      obtain ⟨v, hact, rfl⟩ := pass_ok hstep
      cases hact
      exact ⟨hmarks, hv.follows.withLink (Link.surface_redraw b) hmirrors
        (hv.follows.owned.redraw b), hv.color, rfl, hv.memory⟩
    · rw [if_neg hk] at hstep
      simp only [if_neg hk]
      cases hstep
      exact ⟨rfl, hv⟩

/-- **One action** is matched by the same action of the client with a server of its own, by a
repaint there or by nothing; it is seen alike, and the pictures stay whole. -/
theorem act (hv : Shows h w s) (hp : Shared.Painted h.setup m n s) {a : InPlaceAction}
    (hstep : w.act h a = ⟨ns, .ok w'⟩) (hrun : w'.hosted.server.running = true) :
    ∃ n' s', Shared.Painted h.setup (m + drawn ns) n' s' ∧ Shows h w' s' := by
  cases a with
  | beginRedraw b =>
    cases hstep
    exact ⟨n, _, hp.beginRedraw b, hv.beginRedraw b⟩
  | store =>
    cases hstep
    exact ⟨n, _, hp.store, hv.store⟩
  | endRedraw =>
    obtain ⟨rfl, hv'⟩ := hv.endRedraw hstep
    exact ⟨n, _, hp.endRedraw, hv'⟩
  | deliverRequest =>
    obtain ⟨v, hact, rfl⟩ := pass_ok hstep
    obtain ⟨hf, hretains⟩ := hv.follows.deliverRequest hact hrun
    have hquiet : ns = [] := by
      rw [← Hosted.calls_deliverRequest h w.hosted, hact]
    obtain ⟨n', hp'⟩ := hp.deliverRequest
    subst hquiet
    refine ⟨n', _, hp', ?_⟩
    unfold Shared.pass
    rw [Link.act_congr (s.table_isSome h.server.shm)]
    exact hv.passed hf hretains
  | deliverEvent =>
    unfold InPlace.act at hstep
    by_cases hd : w.drawing = none
    · simp only [if_pos hd] at hstep
      cases hstep
      have hf := hv.follows.withLink Link.surface_deliverEvent hv.follows.mirrors.deliverEvent
        hv.follows.owned.deliverEvent
      exact ⟨n, _, hp.deliverEvent (hv.drawing.symm.trans hd), hv.passed hf (.refl _ _)⟩
    · simp only [if_neg hd] at hstep
      cases hstep
      exact ⟨n, s, hp, hv⟩
  | other act =>
    obtain ⟨v, hact, rfl⟩ := pass_ok hstep
    have hquiet : ns = [] := by
      rw [← Hosted.calls_other h w.hosted act, hact]
    subst hquiet
    unfold Hosted.act at hact
    simp only at hact
    split at hact
    · cases hact
      exact ⟨n, s, hp, hv⟩
    · next hother =>
      obtain ⟨ds, t, ht, rfl⟩ := Hosted.serve_ok hact
      -- What the others do reaches the client's surface as a repaint, or not at all.
      obtain ⟨⟨l, rfl | rfl, hf⟩, hretains⟩ := hv.follows.others hother ht hrun
      · exact ⟨n, s, hp, hv.passed hf hretains⟩
      · refine ⟨n, _, hp.repaint, ?_⟩
        unfold Shared.pass
        rw [Link.act_congr (s.table_isSome h.server.shm)]
        exact hv.passed hf hretains
  | otherStore b k v =>
    unfold InPlace.act at hstep
    by_cases hother : w.hosted.server.clientOf b = some h.client
    · simp only [if_pos hother] at hstep
      cases hstep
      exact ⟨n, s, hp, hv⟩
    · simp only [if_neg hother] at hstep
      cases hstep
      exact ⟨n, s, hp, hv.otherStore hother k v⟩

/-- The server locks the same bytes on both sides: those of the buffer shown, which is the
client's. -/
theorem lockBuffer (hv : Shows h w s) (hp : Shared.Painted h.setup m n s) {z : Surface}
    (hz : w.hosted.server.surfacesOf h.client = [z]) :
    (z.lockBuffer w.hosted.server.shm).1 =
      (s.link.surface.lockBuffer (s.table h.server.shm)).1 := by
  have hsurface := hv.follows.mirrors.surface
  rw [Follows.surface_eq hz] at hsurface
  have hready : z.mFront.isReady = s.link.surface.mFront.isReady :=
    (congrArg SurfaceState.isReady hsurface.front :)
  unfold Surface.lockBuffer
  rw [hready, hsurface.frontBuffer]
  cases hf : s.link.surface.mFront.buffer with
  | none => rfl
  | some b =>
    have hmem : b ∈ h.handles := hp.ours b (by simp [hf])
    have hget : w.hosted.server.shm.get (some b) = (s.table h.server.shm).get (some b) :=
      hv.memory b hmem
    rw [hget]

end InPlace.Shows

namespace InPlace

variable {h : Hosting} {w w' : InPlace} {ms ns : List Mark} {as : List InPlaceAction}

theorem hosted_beginRedraw (b : WlResource) : (w.beginRedraw h b).hosted = w.hosted := by
  unfold beginRedraw
  split <;> rfl

theorem running_store : w.store.hosted.server.running = w.hosted.server.running := by
  unfold store
  split
  · rfl
  · split <;> rfl

theorem running_pass {a : HostedAction} (hstep : w.pass h a = ⟨ns, .ok w'⟩)
    (hrun : w'.hosted.server.running = true) : w.hosted.server.running = true := by
  obtain ⟨v, hact, rfl⟩ := pass_ok hstep
  exact Follows.running_act hact hrun

/-- A server that runs after an action ran before it. -/
theorem running_act {a : InPlaceAction} (hstep : w.act h a = ⟨ns, .ok w'⟩)
    (hrun : w'.hosted.server.running = true) : w.hosted.server.running = true := by
  cases a with
  | beginRedraw b =>
    cases hstep
    rw [hosted_beginRedraw] at hrun
    exact hrun
  | store =>
    cases hstep
    rw [running_store] at hrun
    exact hrun
  | endRedraw =>
    change w.endRedraw h = _ at hstep
    unfold endRedraw at hstep
    split at hstep
    · cases hstep
      exact hrun
    · split at hstep
      · have hbefore := running_pass hstep hrun
        exact hbefore
      · cases hstep
        exact hrun
  | deliverRequest => exact running_pass hstep hrun
  | deliverEvent =>
    change (if _ then _ else _) = _ at hstep
    split at hstep
    · exact running_pass hstep hrun
    · cases hstep
      exact hrun
  | other act => exact running_pass hstep hrun
  | otherStore b k v =>
    change (if _ then _ else _) = _ at hstep
    split at hstep
    · cases hstep
      exact hrun
    · cases hstep
      exact hrun

theorem reaches_shows (hzero : ∀ b ∈ h.handles, (h.server.shm b).map (·.data) =
    some (List.replicate shmSize 0)) (hw : (inPlaceMachine h).Reaches as ms w)
    (hrun : w.hosted.server.running = true) :
    ∃ n s, Shared.Painted h.setup (drawn ms) n s ∧ Shows h w s := by
  refine hw.induct (P := fun _ ms w => w.hosted.server.running = true →
    ∃ n s, Shared.Painted h.setup (drawn ms) n s ∧ Shows h w s) ?_ ?_ hrun
  · exact fun _ => ⟨0, _, Shared.painted_start h.setup, .start hzero⟩
  · intro as ms w a ns w' _ ih hstep hrun
    obtain ⟨n, s, hp, hv⟩ := ih (running_act hstep hrun)
    rw [drawn_append]
    exact hv.act hp hstep hrun

end InPlace

/-! ## A whole drawing -/

/-- The first `n` bytes behind a `wl_buffer` are set to `c`. -/
def UserData.memset (n : Nat) (c : UInt8) : UserData → UserData
  | .buffer (some b) => .buffer (some { b with data := Client.memset n c b.data })
  | u => u

/-- The first `n` bytes of a buffer are set to `c`. -/
def Server.memset (s : Server) (b : WlResource) (n : Nat) (c : UInt8) : Server :=
  { s with
    resources := s.resources.modify b fun x => { x with userData := x.userData.memset n c } }

theorem UserData.memset_zero (c : UInt8) (u : UserData) : u.memset 0 c = u := by
  cases u with
  | buffer o => cases o <;> rfl
  | global g => rfl
  | wrapper w => rfl
  | null => rfl

theorem Server.memset_zero (s : Server) (b : WlResource) (c : UInt8) : s.memset b 0 c = s := by
  have hsame : s.resources.modify b (fun x => { x with userData := x.userData.memset 0 c }) =
      s.resources := by
    simp only [UserData.memset_zero]
    exact List.modify_id b s.resources
  rw [memset, hsame]

/-- One byte more: the write falls on the buffer that the bytes before it were written to, and on no
other entry of the table. -/
theorem Server.write_memset {s : Server} {b : WlResource} {buffer : ShmBuffer} {n : Nat}
    {c : UInt8} (hb : s.shm b = some buffer) (hn : n < buffer.data.length) :
    (s.memset b n c).write b n c = s.memset b (n + 1) c := by
  have hbyte : (s.resources.modify b fun x => { x with userData := x.userData.memset n c }).modify b
      (fun x => { x with userData := x.userData.write n c }) =
      s.resources.modify b fun x => { x with userData := x.userData.memset (n + 1) c } := by
    rw [List.modify_modify_eq]
    ext r : 1
    rw [List.getElem?_modify, List.getElem?_modify]
    by_cases hr : b = r
    · subst hr
      obtain ⟨x, hx, hbuffer⟩ := Option.bind_eq_some_iff.mp hb
      obtain ⟨owner, u, d, live⟩ := x
      cases u with
      | buffer o =>
        obtain rfl : o = some buffer := hbuffer
        simp [hx, UserData.memset, UserData.write, set_memset hn]
      | global g => cases hbuffer
      | wrapper w => cases hbuffer
      | null => cases hbuffer
    · simp only [if_neg hr]
  rw [write, memset, hbyte]
  rfl

namespace InPlace

variable {h : Hosting} {w : InPlace} {b : WlResource} {buffer : ShmBuffer}

/-- The `memset` of a buffer that the client has begun to draw into, up to any byte. -/
theorem runFrom_store (hd : w.drawing = some (b, 0)) (hb : w.hosted.server.shm b = some buffer)
    (hlen : buffer.data.length = drawnBytes) (n : Nat) (hn : n ≤ drawnBytes) :
    (inPlaceMachine h).runFrom w (List.replicate n .store) =
      ⟨[], .ok { w with
        hosted := { w.hosted with server := w.hosted.server.memset b n w.color }
        drawing := some (b, n) }⟩ := by
  induction n with
  | zero =>
    rw [Server.memset_zero, ← hd]
    rfl
  | succ n ih =>
    have hbyte : n < drawnBytes := hn
    rw [List.replicate_succ']
    refine Machine.runFrom_append.mpr ⟨[], _, [], ih (Nat.le_of_lt hbyte), ?_, rfl⟩
    apply Machine.runFrom_singleton.mpr
    show pure (InPlace.store _) = _
    simp only [store, if_pos hbyte, write]
    rw [Server.write_memset hb (by rw [hlen]; exact hbyte)]
    rfl

/-- What the client does for one redraw. -/
def redrawActions (b : WlResource) : List InPlaceAction :=
  .beginRedraw b :: (List.replicate drawnBytes .store ++ [.endRedraw])

theorem runFrom_endRedraw (hd : w.drawing = some (b, drawnBytes)) :
    (inPlaceMachine h).runFrom w [.endRedraw] =
      InPlace.pass h { w with drawing := none } (.redraw b) := by
  have hstep : (inPlaceMachine h).step w .endRedraw =
      InPlace.pass h { w with drawing := none } (.redraw b) := by
    show w.endRedraw h = _
    unfold endRedraw
    rw [hd]
    exact if_pos rfl
  exact Machine.runFrom_singleton.mpr hstep

/-- A redraw, byte by byte, with nothing in between: the buffer is set in the server's own table,
and the frame is sent. -/
theorem runFrom_redraw (hidle : w.drawing = none) (hready : (w.hosted.link h).Ready b)
    (hb : w.hosted.server.shm b = some buffer) (hlen : buffer.data.length = drawnBytes) :
    (inPlaceMachine h).runFrom w (redrawActions b) =
      InPlace.pass h {
        hosted := { w.hosted with server := w.hosted.server.memset b drawnBytes (w.color + 1) }
        color := w.color + 1 } (.redraw b) := by
  have hbegin : w.beginRedraw h b = { w with color := w.color + 1, drawing := some (b, 0) } := by
    simp only [beginRedraw, if_pos (And.intro hidle hready)]
  have hstart : (inPlaceMachine h).runFrom w [.beginRedraw b] = ⟨[], .ok (w.beginRedraw h b)⟩ :=
    Machine.runFrom_singleton.mpr rfl
  have hmemset := runFrom_store (h := h) (w := w.beginRedraw h b) (b := b) (by rw [hbegin])
    (by rw [hbegin]; exact hb) hlen drawnBytes (Nat.le_refl _)
  rw [hbegin] at hstart hmemset
  rw [redrawActions, ← List.singleton_append]
  refine Machine.runFrom_append.mpr ⟨[], _, _, hstart, ?_, (List.nil_append _).symm⟩
  refine Machine.runFrom_append.mpr ⟨[], _, _, hmemset, ?_, (List.nil_append _).symm⟩
  exact runFrom_endRedraw rfl

end InPlace

/-- **No picture is torn in the whole server.** Clients draw in place, into memory that the server
reads: this one byte by byte, the others as they like. Whatever the others do in between, in every
state the server is given the whole picture of the last frame of the client whose commit arrived, or
none before the first. -/
theorem hosted_pictures_whole (h : Hosting)
    (hzero : ∀ b ∈ h.handles, (h.server.shm b).map (·.data) = some (List.replicate shmSize 0))
    (as : List InPlaceAction) (ms : List Mark) (w : InPlace)
    (hw : (inPlaceMachine h).Reaches as ms w) (hrun : w.hosted.server.running = true) :
    ∃ n z, n + w.hosted.requests.count .commit = drawn ms ∧
      w.hosted.server.surfacesOf h.client = [z] ∧
      (z.lockBuffer w.hosted.server.shm).1.map (·.data) =
        if n = 0 then none else some (picture n) := by
  obtain ⟨n, s, hp, hv⟩ := InPlace.reaches_shows hzero hw hrun
  obtain ⟨z, hz, -⟩ := hv.follows.only
  have hrequests : w.hosted.requests = s.link.requests := hv.follows.mirrors.requests
  refine ⟨n, z, ?_, hz, ?_⟩
  · rw [hrequests, hp.owned.stream.count_commit]
    exact hp.count
  · rw [hv.lockBuffer hp hz, hp.lockBuffer, hp.shown]

/-- Two clients, of which the first has two buffers to draw into. -/
def mappedBeside : List LifetimeAction :=
  besideAnother ++
    [.serve (.request (.createBuffer 0 (some (createShmBuffer (List.replicate shmSize 0))))),
      .serve (.request (.createBuffer 0 (some (createShmBuffer (List.replicate shmSize 0)))))]

/-- The first of the two. -/
def drawingBeside : Hosting where
  blend := integerBlend
  width := 1
  height := 1
  before := mappedBeside
  calls := ((lifetimeMachine integerBlend 1 1).run mappedBeside).calls
  server := ((lifetimeMachine integerBlend 1 1).run mappedBeside).result.toOption.getD (.start 1 1)
  reached := rfl
  surface := firstOfTwo.surface
  only := rfl
  unused := firstOfTwo.unused
  bound := rfl
  handles := [6, 7]
  nodup := by decide
  isShm b hb := by
    rcases List.mem_cons.mp hb with rfl | hb
    · exact ⟨rfl, rfl⟩
    · obtain rfl := List.mem_singleton.mp hb
      exact ⟨rfl, rfl⟩
  firstCallback := 20

/-- The first frame is shown and the second one is being drawn when the other client draws, shows
its buffer and is repainted. -/
def drawnBeside : List InPlaceAction :=
  InPlace.redrawActions 6 ++
    [.deliverRequest, .deliverRequest, .other (.serve (.request (.surfaceAttach 3 (some 5) 0 0))),
      .otherStore 5 3 255, .deliverRequest, .deliverRequest, .beginRedraw 7, .store,
      .other (.serve (.request (.surfaceCommit 3))), .other (.serve .repaint), .store]

theorem mapped_drawingBeside : ∀ b ∈ drawingBeside.handles,
    (drawingBeside.server.shm b).map (·.data) = some (List.replicate shmSize 0) := by
  intro b hb
  rcases List.mem_cons.mp hb with rfl | hb
  · rfl
  · obtain rfl := List.mem_singleton.mp hb
    rfl

theorem reaches_drawnBeside : ∃ ms w, (inPlaceMachine drawingBeside).Reaches drawnBeside ms w ∧
    w.hosted.server.running = true ∧ w.drawing = some (7, 2) ∧ drawn ms = 1 ∧
      w.hosted.requests = [] := by
  have hzero : (createShmBuffer (List.replicate shmSize 0)).data.length = drawnBytes := by
    rw [drawnBytes_eq]
    exact List.length_replicate
  have hfirst := InPlace.runFrom_redraw (h := drawingBeside) (b := 6)
    (w := (inPlaceMachine drawingBeside).init) rfl (by decide) rfl hzero
  refine ⟨_, _, Machine.runFrom_append.mpr ⟨_, _, _, hfirst, rfl, rfl⟩, ?_⟩
  exact ⟨rfl, rfl, rfl, rfl⟩

/-- The server has the whole of the first frame. -/
theorem hosted_pictures_whole_drawnBeside :
    ∃ ms w, (inPlaceMachine drawingBeside).Reaches drawnBeside ms w ∧
      w.hosted.server.running = true ∧ w.drawing = some (7, 2) ∧
      ∃ z, w.hosted.server.surfacesOf drawingBeside.client = [z] ∧
        (z.lockBuffer w.hosted.server.shm).1.map (·.data) = some (picture 1) := by
  obtain ⟨ms, w, hw, hrun, hdrawing, hdrawn, hrequests⟩ := reaches_drawnBeside
  obtain ⟨n, z, hn, hz, hdata⟩ :=
    hosted_pictures_whole drawingBeside mapped_drawingBeside drawnBeside ms w hw hrun
  rw [hrequests, hdrawn] at hn
  obtain rfl : n = 1 := hn
  exact ⟨ms, w, hw, hrun, hdrawing, z, hz, hdata⟩

end WaylandTest
