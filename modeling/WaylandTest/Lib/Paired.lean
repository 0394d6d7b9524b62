import Mathlib.Data.List.Forall2

/-!
# Lists that are related element by element

A step that changes the elements of a list one by one leaves the new list related to the old one,
`List.Forall₂ R as bs`. What is known of one list then passes to the other: of an element, of all of
them, and of the only one that a test picks.
-/

set_option autoImplicit false

namespace WaylandTest.Lib

variable {α β γ : Type} {R : α → β → Prop} {as : List α} {bs : List β} {p : α → Bool} {q : β → Bool}

theorem exists_paired (h : List.Forall₂ R as bs) {b : β} (hb : b ∈ bs) : ∃ a ∈ as, R a b := by
  induction h with
  | nil => cases hb
  | @cons a b' as bs hab _ ih =>
    rcases List.mem_cons.mp hb with rfl | hb
    · exact ⟨a, List.mem_cons_self, hab⟩
    · obtain ⟨a', ha', hrest⟩ := ih hb
      exact ⟨a', List.mem_cons_of_mem a ha', hrest⟩

theorem forall_paired (h : List.Forall₂ R as bs) {P : α → Prop} {Q : β → Prop}
    (hP : ∀ a ∈ as, P a) (hQ : ∀ a b, P a → R a b → Q b) : ∀ b ∈ bs, Q b := by
  intro b hb
  obtain ⟨a, ha, hab⟩ := exists_paired h hb
  exact hQ a b (hP a ha) hab

/-- A test that the relation respects picks related elements. -/
theorem filter_paired (h : List.Forall₂ R as bs) (hpq : ∀ a b, R a b → p a = q b) :
    List.Forall₂ R (as.filter p) (bs.filter q) :=
  List.rel_filter (fun a b hab => by simp [hpq a b hab]) h

/-- The only element that a test picks, in the other list. -/
theorem filter_paired_one (h : List.Forall₂ R as bs) (hpq : ∀ a b, R a b → p a = q b) {a : α}
    (hone : as.filter p = [a]) : ∃ b, bs.filter q = [b] ∧ R a b := by
  have hfilter := filter_paired h hpq
  rw [hone, List.forall₂_cons_left_iff] at hfilter
  obtain ⟨b, rest, hab, hrest, hb⟩ := hfilter
  rw [List.forall₂_nil_left_iff] at hrest
  exact ⟨b, by rw [hb, hrest], hab⟩

/-- Where a test of what comes of an element is a test of the element. -/
theorem filter_flatMap_owner {g : α → List γ} {t : γ → Bool}
    (h : ∀ a ∈ as, ∀ e ∈ g a, t e = p a) : (as.flatMap g).filter t = (as.filter p).flatMap g := by
  induction as with
  | nil => rfl
  | cons a as ih =>
    obtain ⟨ha, has⟩ := List.forall_mem_cons.mp h
    rw [List.flatMap_cons, List.filter_append, ih has]
    cases hp : p a with
    | true =>
      have hall : (g a).filter t = g a := List.filter_eq_self.mpr fun e he => by rw [ha e he, hp]
      simp [hp, hall]
    | false =>
      have hnone : (g a).filter t = [] :=
        List.filter_eq_nil_iff.mpr fun e he => by simp [ha e he, hp]
      simp [hp, hnone]

end WaylandTest.Lib
