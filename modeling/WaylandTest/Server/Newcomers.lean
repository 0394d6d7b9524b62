import WaylandTest.Server.Sessions
import WaylandTest.Server.IdleClients

/-!
# Clients that have just connected

Clients are numbered as they connect, and a resource is always one of a client that has connected
(`reaches_numbered`). So a client that connects has nothing yet (`surfacesOf_newcomer`), and it is
connected until it leaves (`connected_lifetime`).
-/

set_option autoImplicit false

namespace WaylandTest.Server

open Lib

variable {s t : Server} {c : WlClient} {cs ds : List Call} {blend : Blend} {act : LifetimeAction}

/-- The clients that are connected, and those of the resources, have connected before. -/
structure Numbered (s : Server) : Prop where
  clients : ∀ c ∈ s.clients, c < s.nextClient
  resources : ∀ r c, s.clientOf r = some c → c < s.nextClient

/-! ## Who is connected -/

theorem clients_request {q : ClientRequest} (hstep : s.request q = ⟨ds, .ok t⟩) :
    t.clients = s.clients ∧ t.nextClient = s.nextClient := by
  have hq := handled s q
  generalize s.request q = out at hstep hq
  subst hstep
  cases hq <;> exact ⟨rfl, rfl⟩

/-- Clients connect and leave, and no other step changes which there are. -/
theorem clients_lifetime (hstep : s.lifetime blend act = ⟨ds, .ok t⟩) :
    t = s.connect ∨ (∃ c, act = .forget c ∧ t = s.forget c) ∨
      t.clients = s.clients ∧ t.nextClient = s.nextClient := by
  unfold Server.lifetime at hstep
  split at hstep
  · cases act with
    | serve a =>
      cases a with
      | connect =>
        cases hstep
        exact .inl rfl
      | request q => exact .inr (.inr (clients_request hstep))
      | repaint =>
        obtain ⟨_, c', _, -, hret, -⟩ := Exec.bind_eq_ok.mp hstep
        cases hret
        exact .inr (.inr ⟨rfl, rfl⟩)
      | move x y =>
        exact .inr (.inr (move_induct
          (I := fun u => u.clients = s.clients ∧ u.nextClient = s.nextClient)
          (fun _ _ _ _ hu => hu) ⟨rfl, rfl⟩ hstep))
    | destroyResource r =>
      have hfreed := freed_destroyResource hstep
      exact .inr (.inr ⟨hfreed.clients, hfreed.nextClient⟩)
    | forget c =>
      cases hstep
      exact .inr (.inl ⟨c, rfl, rfl⟩)
    | teardown =>
      obtain ⟨_, hret, -⟩ := Exec.log_bind_eq_ok.mp hstep
      cases hret
      exact .inr (.inr ⟨rfl, rfl⟩)
  · cases hstep
    exact .inr (.inr ⟨rfl, rfl⟩)

/-- A client is connected until it leaves. -/
theorem connected_lifetime (hc : c ∈ s.clients) (hact : act ≠ .forget c)
    (hstep : s.lifetime blend act = ⟨ds, .ok t⟩) : c ∈ t.clients := by
  rcases clients_lifetime hstep with rfl | ⟨c', rfl, rfl⟩ | ⟨hsame, -⟩
  · exact List.mem_append_left _ hc
  · have hne : c ≠ c' := fun heq => hact (heq ▸ rfl)
    unfold forget
    split
    · exact (List.mem_erase_of_ne hne).mpr hc
    · exact hc
  · exact hsame ▸ hc

/-! ## The numbers -/

/-- What acts has connected, or what it does comes to nothing. -/
theorem Numbered.actor (h : s.Numbered) (hact : s.actor act = some c)
    (hstep : s.lifetime blend act = ⟨ds, .ok t⟩) : c < s.nextClient ∨ t = s := by
  cases act with
  | serve a =>
    cases a with
    | request q =>
      have hbound : ∀ r, s.clientOf r = some c → c < s.nextClient ∨ t = s :=
        fun r hr => .inl (h.resources r c hr)
      cases q with
      | bind c' g =>
        obtain rfl : c' = c := Option.some.inj hact
        by_cases hc : c' ∈ s.clients
        · exact .inl (h.clients c' hc)
        · have hsame : s.lifetime blend (.serve (.request (.bind c' g))) = ⟨[], .ok s⟩ := by
            show (if s.running then pure (s.bind c' g) else pure s) = _
            rw [bind, if_neg hc, ite_self]
            rfl
          cases hstep.symm.trans hsame
          exact .inr rfl
      | createBuffer c' b =>
        obtain rfl : c' = c := Option.some.inj hact
        by_cases hc : c' ∈ s.clients
        · exact .inl (h.clients c' hc)
        · have hsame : s.lifetime blend (.serve (.request (.createBuffer c' b))) = ⟨[], .ok s⟩ := by
            show (if s.running then pure (s.createBuffer c' b) else pure s) = _
            rw [createBuffer, if_neg hc, ite_self]
            rfl
          cases hstep.symm.trans hsame
          exact .inr rfl
      | createSurface r => exact hbound r hact
      | createRegion r => exact hbound r hact
      | getShellSurface r _ => exact hbound r hact
      | getPointer r => exact hbound r hact
      | setCursor r _ _ _ => exact hbound r hact
      | surfaceDestroy r => exact hbound r hact
      | surfaceAttach r _ _ _ => exact hbound r hact
      | surfaceFrame r => exact hbound r hact
      | surfaceCommit r => exact hbound r hact
      | destroyBuffer r => exact hbound r hact
    | connect => cases hact
    | repaint => cases hact
    | move x y => cases hact
  | destroyResource r => exact .inl (h.resources r c hact)
  | forget c' => cases hact
  | teardown => cases hact

/-- The resources after a step are those of clients that had some, or of the one that acts. -/
theorem Separate.resources_lifetime (h : Separate cs s) (hn : s.Numbered)
    (hstep : s.lifetime blend act = ⟨ds, .ok t⟩) (hrun : t.running = true) {r : WlResource}
    (hr : t.clientOf r = some c) : c < s.nextClient := by
  cases hact : s.actor act with
  | some c' =>
    rcases hn.actor hact hstep with hlt | rfl
    · rcases (h.confined_lifetime hact hstep).resources r with hsame | ⟨hmine, -⟩
      · exact hn.resources r c ((clientOf_eq hsame).symm.trans hr)
      · obtain rfl : c = c' := Option.some.inj (hr.symm.trans hmine)
        exact hlt
    · exact hn.resources r c hr
  | none =>
    rcases h.undisturbed_idle hact hstep with hall | ⟨-, hstopped⟩
    · exact hn.resources r c ((clientOf_eq ((hall c).resources r (.inr hr))).symm.trans hr)
    · rw [hrun] at hstopped
      cases hstopped

theorem Numbered.lifetime (hn : s.Numbered) (h : Separate cs s)
    (hstep : s.lifetime blend act = ⟨ds, .ok t⟩) (hrun : t.running = true) : t.Numbered := by
  have hres := fun r c => h.resources_lifetime (c := c) (r := r) hn hstep hrun
  rcases clients_lifetime hstep with rfl | ⟨c', rfl, rfl⟩ | ⟨hclients, hnext⟩
  · refine ⟨fun c hc => ?_, fun r c hr => Nat.lt_succ_of_lt (hres r c hr)⟩
    rcases List.mem_append.mp hc with hc | hc
    · exact Nat.lt_succ_of_lt (hn.clients c hc)
    · obtain rfl := List.mem_singleton.mp hc
      exact Nat.lt_succ_self _
  · have hforget : ∀ c ∈ (s.forget c').clients, c ∈ s.clients := by
      intro c hc
      unfold forget at hc
      split at hc
      · exact List.mem_of_mem_erase hc
      · exact hc
    have hnext : (s.forget c').nextClient = s.nextClient := by
      unfold forget
      split <;> rfl
    rw [← hnext] at hres
    exact ⟨fun c hc => hnext ▸ hn.clients c (hforget c hc), hres⟩
  · rw [← hnext] at hres
    exact ⟨fun c hc => hnext ▸ hn.clients c (hclients ▸ hc), hres⟩

/-- **Clients are numbered** in every state a running server reaches. -/
theorem reaches_numbered {width height : Int} {as : List LifetimeAction}
    (h : (lifetimeMachine blend width height).Reaches as cs s) (hrun : s.running = true) :
    s.Numbered := by
  refine h.induct (P := fun _ _ s => s.running = true → s.Numbered) ?_ ?_ hrun
  · exact fun _ => ⟨fun c hc => (nomatch hc), fun r c hr => by cases hr⟩
  · intro as cs s a ds t hs hn hstep hrun
    exact (hn (running_lifetime hstep hrun)).lifetime (reaches_separate hs) hstep hrun

/-- A client that connects has no surface. -/
theorem Numbered.surfacesOf_newcomer (hn : s.Numbered) (h : Separate cs s) :
    s.surfacesOf s.nextClient = [] := by
  refine List.filter_eq_nil_iff.mpr fun z hz hmine => ?_
  have hown := h.apart z hz z.mResource (by simp [Surface.handles, Surface.wrappers])
  rw [of_decide_eq_true hmine] at hown
  exact Nat.lt_irrefl _ (hn.resources _ _ hown)

end WaylandTest.Server
