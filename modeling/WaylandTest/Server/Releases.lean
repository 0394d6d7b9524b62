import WaylandTest.Server.EachSurface

/-!
# A released buffer may still be in use

A commit releases the buffer that its surface showed before. That buffer is no longer used only if
no surface shows it after the commit. `releases_unused_iff` says which runs of all clients keep to
that: those in which no surface commits the very buffer that it shows, and none gives up a buffer
that another one shows.
-/

set_option autoImplicit false

namespace WaylandTest

open Lib

/-- What a commit releases. -/
theorem Surface.mem_releases_surfaceCommit {x : Surface} (hx : x.Consistent) {f : WlResource} :
    f ∈ releases x.surfaceCommit.2 ↔ x.mBack.buffer ≠ none ∧ x.mFront.buffer = some f := by
  cases hb : x.mBack.buffer with
  | none =>
    rw [surfaceCommit_idle hb]
    exact ⟨fun h => absurd h List.not_mem_nil, fun h => absurd rfl h.1⟩
  | some b =>
    cases hf : x.mFront.buffer with
    | none =>
      rw [surfaceCommit_first hx hb hf]
      show f ∈ releases x.mBack.sendDone.2 ↔ _
      rw [SurfaceState.releases_sendDone]
      exact ⟨fun h => absurd h List.not_mem_nil, fun h => nomatch h.2⟩
    | some f' =>
      rw [surfaceCommit_next hx hb hf]
      show f ∈ f' :: releases x.mFront.sendDone.2 ↔ _
      rw [SurfaceState.releases_sendDone, List.mem_singleton, Option.some.injEq]
      exact ⟨fun h => ⟨Option.some_ne_none b, h.symm⟩, fun h => h.2.symm⟩

namespace Server

variable {s : Server} {cs : List Call} {blend : Blend}

/-- What the action releases, if it is a commit, is no front buffer after it. -/
def ReleasesUnused (s : Server) : ServeAction → Prop
  | .request (.surfaceCommit r) =>
    ∀ ds t, s.surfaceCommit r = ⟨ds, .ok t⟩ → ∀ b ∈ releases ds, some b ∉ t.fronts
  | _ => True

/-- A commit that replaces a front buffer brings another one, and no other surface shows the one it
replaces. -/
def ReplacesOwn (s : Server) : ServeAction → Prop
  | .request (.surfaceCommit r) =>
    ∀ a c x b f, s.wrapperAt .surface r = some (a, c) → s.surface? a = some x →
      x.mBack.buffer = some b → x.mFront.buffer = some f →
      b ≠ f ∧ ∀ y ∈ s.surfaces, y.this ≠ a → y.mFront.buffer ≠ some f
  | _ => True

/-- **One commit.** -/
theorem Owned.releasesUnused_iff (h : Owned cs s) (hcons : ∀ x ∈ s.surfaces, x.Consistent)
    (act : ServeAction) : s.ReleasesUnused act ↔ s.ReplacesOwn act := by
  cases act with
  | connect => exact Iff.rfl
  | repaint => exact Iff.rfl
  | move x y => exact Iff.rfl
  | request q =>
    cases q with
    | surfaceCommit r =>
      constructor
      · intro hunused a c x b f hr hx hb hf
        have hreleased : f ∈ releases x.surfaceCommit.2 :=
          (Surface.mem_releases_surfaceCommit (hcons x (List.mem_of_find?_eq_some hx))).mpr
            ⟨hb ▸ Option.some_ne_none b, hf⟩
        have hgone := hunused _ _ (surfaceCommit_eq hr hx) f hreleased
        rw [surface?_this hx, mem_fronts_updateSurface h.nodup hx,
          Surface.surfaceCommit_front, hb, Option.some_or, Option.some.injEq] at hgone
        exact ⟨fun he => hgone (.inl he), fun y hy hne hfront => hgone (.inr ⟨y, hy, hne, hfront⟩)⟩
      · intro hown ds t hstep f hf hfront
        rcases surfaceCommit_cases hstep with ⟨-, rfl, -⟩ | ⟨a, c, x, hr, hx, rfl, rfl⟩
        · exact absurd hf List.not_mem_nil
        · obtain ⟨hpending, hshown⟩ :=
            (Surface.mem_releases_surfaceCommit (hcons x (List.mem_of_find?_eq_some hx))).mp hf
          obtain ⟨b, hb⟩ := Option.ne_none_iff_exists'.mp hpending
          obtain ⟨hne, hothers⟩ := hown a c x b f hr hx hb hshown
          rw [surface?_this hx, mem_fronts_updateSurface h.nodup hx,
            Surface.surfaceCommit_front, hb, Option.some_or, Option.some.injEq] at hfront
          rcases hfront with he | ⟨y, hy, hthis, hy'⟩
          · exact hne he
          · exact hothers y hy hthis hy'
    | _ => exact Iff.rfl

/-- **When release means no longer used.** In a run of any number of clients, no commit releases a
buffer that a surface shows after it, exactly if every commit that replaces a front buffer brings
another buffer, and replaces one that no other surface shows. -/
theorem releases_unused_iff (blend : Blend) (width height : Int) (as : List ServeAction) :
    (requestMachine blend width height).Along ReleasesUnused as ↔
      (requestMachine blend width height).Along ReplacesOwn as :=
  Machine.along_congr fun _ act _ _ _ hreach =>
    (reaches_held hreach).1.releasesUnused_iff (reaches_consistent hreach) act

/-- A client shows a buffer, and attaches the same one again. -/
def attachedTwice : List ServeAction :=
  [.connect, .request (.bind 0 .compositor),
    .request (.createBuffer 0 (some ⟨1, 1, 4, .argb8888, [1, 2, 3, 4]⟩)),
    .request (.createSurface 0), .request (.surfaceAttach 2 (some 1) 0 0),
    .request (.surfaceCommit 2), .request (.surfaceAttach 2 (some 1) 0 0)]

/-- The second commit releases the buffer, and shows it. -/
theorem released_buffer_shown :
    ¬ ∀ blend width height as, (requestMachine blend width height).Along ReleasesUnused as := by
  intro h
  have hunused := h (fun bg _ _ => bg) 1 1 (attachedTwice ++ [.request (.surfaceCommit 2)])
    attachedTwice (.request (.surfaceCommit 2)) List.prefix_rfl _ _ rfl _ _ rfl 1 List.mem_cons_self
  exact hunused List.mem_cons_self

end Server

end WaylandTest
