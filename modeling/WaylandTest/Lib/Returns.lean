import WaylandTest.Lib.Machine
import WaylandTest.Lib.Outcome

/-!
# When a computation returns

`Returns` is the weakest precondition of returning at all: a sequence returns if its first part does
and what follows does from there, a fold (`returns_foldlM`) if each of its steps would from the
start, provided that no step changes what another one asks for. A run of a machine returns if each
of its steps does from the state it is taken in (`reaches_iff_along`).
-/

set_option autoImplicit false

namespace WaylandTest.Lib

namespace Exec

variable {κ ε α β σ : Type}

/-- The computation ends without a fault. -/
def Returns (x : Exec κ ε α) : Prop := ∃ a, x.result = .ok a

theorem returns_iff {x : Exec κ ε α} : x.Returns ↔ ∃ cs a, x = ⟨cs, .ok a⟩ := by
  obtain ⟨cs, r⟩ := x
  simp [Returns]

theorem returns_of_result {x y : Exec κ ε α} (h : x.result = y.result) : x.Returns ↔ y.Returns := by
  rw [Returns, Returns, h]

@[simp] theorem returns_ok (cs : List κ) (a : α) : (⟨cs, .ok a⟩ : Exec κ ε α).Returns := ⟨a, rfl⟩

@[simp] theorem not_returns_fail (e : ε) : ¬ (fail e : Exec κ ε α).Returns := by
  simp [Returns, fail]

theorem returns_bind {x : Exec κ ε α} {f : α → Exec κ ε β} :
    (x >>= f).Returns ↔ ∃ a, x.result = .ok a ∧ (f a).Returns := by
  simp only [Returns, result_bind_ok]
  constructor
  · rintro ⟨b, a, ha, hb⟩
    exact ⟨a, ha, b, hb⟩
  · rintro ⟨a, ha, b, hb⟩
    exact ⟨b, a, ha, hb⟩

/-- What follows a computation and always returns does not matter. -/
theorem returns_bind_total {x : Exec κ ε α} {f : α → Exec κ ε β} (hf : ∀ a, (f a).Returns) :
    (x >>= f).Returns ↔ x.Returns := by
  rw [returns_bind]
  exact ⟨fun ⟨a, ha, _⟩ => ⟨a, ha⟩, fun ⟨a, ha⟩ => ⟨a, ha, hf a⟩⟩

@[simp] theorem returns_log_bind {cs : List κ} {f : Unit → Exec κ ε β} :
    (log cs >>= f).Returns ↔ (f ()).Returns := returns_of_result rfl

theorem returns_ofOption_bind {e : ε} {o : Option α} {f : α → Exec κ ε β} :
    (ofOption e o >>= f).Returns ↔ ∃ a, o = some a ∧ (f a).Returns := by
  simp only [returns_bind, ofOption_result_ok]

theorem returns_guard_bind {e : ε} {p : Prop} [Decidable p] {f : Unit → Exec κ ε β} :
    (guard e p >>= f).Returns ↔ p ∧ (f ()).Returns := by
  rw [returns_bind]
  constructor
  · rintro ⟨u, hu, h⟩
    exact ⟨guard_result_ok.mp hu, h⟩
  · rintro ⟨hp, h⟩
    exact ⟨(), guard_result_ok.mpr hp, h⟩

/-- **The precondition of a fold.** Where a step for an item returns exactly if `C` holds of the
item, and no step changes of which items it holds, the fold returns exactly if it holds of all. -/
theorem returns_foldlM {f : σ → α → Exec κ ε σ} {C : σ → α → Prop}
    (step : ∀ s a, (f s a).Returns ↔ C s a)
    (keep : ∀ s a t b, (f s a).result = .ok t → (C t b ↔ C s b)) (as : List α) (s : σ) :
    (as.foldlM f s).Returns ↔ ∀ a ∈ as, C s a := by
  induction as generalizing s with
  | nil => simp
  | cons a as ih =>
    rw [List.foldlM_cons, returns_bind, List.forall_mem_cons]
    constructor
    · rintro ⟨t, ht, hrest⟩
      refine ⟨(step s a).mp ⟨t, ht⟩, fun b hb => ?_⟩
      exact (keep s a t b ht).mp ((ih t).mp hrest b hb)
    · rintro ⟨ha, hrest⟩
      obtain ⟨t, ht⟩ := (step s a).mpr ha
      exact ⟨t, ht, (ih t).mpr fun b hb => (keep s a t b ht).mpr (hrest b hb)⟩

end Exec

namespace Machine

variable {κ ε σ α : Type} {m : Machine κ ε σ α} {C : σ → α → Prop}

/-- Steps that meet the condition in every state. -/
theorem along_of_forall {as : List α} (h : ∀ a ∈ as, ∀ s, C s a) : m.Along C as := by
  intro bs a hb _ s _
  exact h a (hb.subset (List.mem_append_right _ (List.mem_singleton_self a))) s

/-- **The precondition of a run.** Where each step of the run, from the state it is taken in,
returns exactly if it meets `C`, the run ends without a fault exactly if all its steps meet `C`. -/
theorem reaches_iff_along {as : List α}
    (step : ∀ bs a, bs ++ [a] <+: as → ∀ cs s, m.Reaches bs cs s →
      ((m.step s a).Returns ↔ C s a)) : (∃ cs s, m.Reaches as cs s) ↔ m.Along C as := by
  induction as using List.reverseRecOn with
  | nil => exact ⟨fun _ => along_nil, fun _ => ⟨[], m.init, rfl⟩⟩
  | append_singleton as a ih =>
    have hlast := step as a List.prefix_rfl
    rw [along_snoc, ← ih fun bs b hb => step bs b (hb.trans (List.prefix_append as [a]))]
    constructor
    · rintro ⟨cs, t, ht⟩
      obtain ⟨ds, s, es, hs, hstep, -⟩ := reaches_snoc.mp ht
      refine ⟨⟨ds, s, hs⟩, fun ds' s' hs' => ?_⟩
      obtain ⟨-, rfl⟩ := hs.det hs'
      exact (hlast _ _ hs).mp (Exec.returns_iff.mpr ⟨_, _, hstep⟩)
    · rintro ⟨⟨cs, s, hs⟩, hC⟩
      obtain ⟨ds, t, ht⟩ := Exec.returns_iff.mp ((hlast _ _ hs).mpr (hC cs s hs))
      exact ⟨_, t, hs.snoc ht⟩

/-- The precondition of a run whose steps are to have a property too. -/
theorem reaches_and_iff_along {P : σ → α → Prop} {as : List α}
    (step : ∀ bs a, bs ++ [a] <+: as → ∀ cs s, m.Reaches bs cs s →
      ((m.step s a).Returns ∧ P s a ↔ C s a)) :
    (∃ cs s, m.Reaches as cs s) ∧ m.Along P as ↔ m.Along C as := by
  rw [reaches_iff_along (C := fun s a => (m.step s a).Returns) fun _ _ _ _ _ _ => Iff.rfl,
    ← along_and]
  exact along_congr step

end Machine

end WaylandTest.Lib
