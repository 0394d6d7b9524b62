import Mathlib.Data.List.Induction
import WaylandTest.Lib.Exec

/-!
# Machines and their runs

A machine is an initial state and a step that takes an action, logs the calls it makes and may
fault. A run is a list of actions; `Reaches` is a run that did not fault, with its log and its last
state. The module packages the inductions its users need:

* `Reaches.induct`: what one step keeps, of the actions, the log and the state, every run keeps;
* `always_iff_along`, `safe_iff_along`: where a step keeps `P` exactly if it meets `C`, a run has
  `P` in every state exactly if all its steps meet `C`. `Always` speaks of the states a run
  reaches, `Safe` also asks that no step of it faults;
* `Last`, `last_kept`, `last_set`: what the steps of a run set last, for what is remembered in no
  state;
* `Simulation.reaches`: a machine whose steps are runs of another reaches only states related to
  ones the other reaches.
-/

set_option autoImplicit false

namespace WaylandTest.Lib

/-- A state machine with logged, possibly faulting steps. -/
structure Machine (κ ε σ α : Type) where
  init : σ
  step : σ → α → Exec κ ε σ

namespace Machine

variable {κ ε σ α κ' ε' τ β : Type} {m : Machine κ ε σ α}

/-- The actions `as`, one after the other, from `s`. -/
def runFrom (m : Machine κ ε σ α) (s : σ) : List α → Exec κ ε σ
  | [] => pure s
  | a :: as => m.step s a >>= fun t => m.runFrom t as

/-- The run `as` from the initial state. -/
def run (m : Machine κ ε σ α) (as : List α) : Exec κ ε σ := m.runFrom m.init as

/-- The run `as` does not fault; it logs `cs` and ends in `s`. -/
def Reaches (m : Machine κ ε σ α) (as : List α) (cs : List κ) (s : σ) : Prop :=
  m.run as = ⟨cs, .ok s⟩

theorem runFrom_append {s : σ} {as bs : List α} {cs : List κ} {u : σ} :
    m.runFrom s (as ++ bs) = ⟨cs, .ok u⟩ ↔
      ∃ ds t es, m.runFrom s as = ⟨ds, .ok t⟩ ∧ m.runFrom t bs = ⟨es, .ok u⟩ ∧ cs = ds ++ es := by
  induction as generalizing s cs with
  | nil =>
    constructor
    · exact fun h => ⟨[], s, cs, rfl, h, rfl⟩
    · rintro ⟨ds, t, es, hs, ht, rfl⟩
      cases hs
      exact ht
  | cons a as ih =>
    simp only [List.cons_append, runFrom, Exec.bind_eq_ok, ih]
    constructor
    · rintro ⟨d₁, t, e₁, ht, ⟨d₂, v, e₂, hv, hu, rfl⟩, rfl⟩
      exact ⟨d₁ ++ d₂, v, e₂, ⟨d₁, t, d₂, ht, hv, rfl⟩, hu, by rw [List.append_assoc]⟩
    · rintro ⟨_, v, e₂, ⟨d₁, t, d₂, ht, hv, rfl⟩, hu, rfl⟩
      exact ⟨d₁, t, d₂ ++ e₂, ht, ⟨d₂, v, e₂, hv, hu, rfl⟩, by rw [List.append_assoc]⟩

theorem runFrom_singleton {s : σ} {a : α} {cs : List κ} {t : σ} :
    m.runFrom s [a] = ⟨cs, .ok t⟩ ↔ m.step s a = ⟨cs, .ok t⟩ := by
  simp only [runFrom, Exec.bind_eq_ok, Exec.pure_def]
  constructor
  · rintro ⟨ds, u, es, hu, he, rfl⟩
    cases he
    rw [List.append_nil]
    exact hu
  · exact fun h => ⟨cs, t, [], h, rfl, (List.append_nil cs).symm⟩

theorem reaches_nil {cs : List κ} {s : σ} : m.Reaches [] cs s ↔ cs = [] ∧ s = m.init := by
  constructor
  · intro h
    cases h
    exact ⟨rfl, rfl⟩
  · rintro ⟨rfl, rfl⟩
    rfl

/-- A run grows at its end. -/
theorem reaches_snoc {as : List α} {a : α} {cs : List κ} {u : σ} :
    m.Reaches (as ++ [a]) cs u ↔
      ∃ ds t es, m.Reaches as ds t ∧ m.step t a = ⟨es, .ok u⟩ ∧ cs = ds ++ es := by
  simp only [Reaches, run, runFrom_append, runFrom_singleton]

theorem Reaches.snoc {as : List α} {a : α} {cs ds : List κ} {s t : σ} (h : m.Reaches as cs s)
    (ht : m.step s a = ⟨ds, .ok t⟩) : m.Reaches (as ++ [a]) (cs ++ ds) t :=
  reaches_snoc.mpr ⟨cs, s, ds, h, ht, rfl⟩

/-- Runs are deterministic. -/
theorem Reaches.det {as : List α} {cs ds : List κ} {s t : σ} (h : m.Reaches as cs s)
    (h' : m.Reaches as ds t) : cs = ds ∧ s = t := by
  have e : (⟨cs, .ok s⟩ : Exec κ ε σ) = ⟨ds, .ok t⟩ := h.symm.trans h'
  cases e
  exact ⟨rfl, rfl⟩

/-- Where no step faults, every run reaches a state. -/
theorem exists_reaches (hstep : ∀ s a, ∃ ds t, m.step s a = ⟨ds, .ok t⟩) (as : List α) :
    ∃ cs s, m.Reaches as cs s := by
  induction as using List.reverseRecOn with
  | nil => exact ⟨[], m.init, rfl⟩
  | append_singleton as a ih =>
    obtain ⟨cs, s, hs⟩ := ih
    obtain ⟨ds, t, ht⟩ := hstep s a
    exact ⟨cs ++ ds, t, hs.snoc ht⟩

/-- **The run rule.** What holds at the start, and is kept by a step from every reached state,
holds of every run, its log and its last state. -/
theorem Reaches.induct {P : List α → List κ → σ → Prop} (nil : P [] [] m.init)
    (snoc : ∀ as cs s a ds t, m.Reaches as cs s → P as cs s → m.step s a = ⟨ds, .ok t⟩ →
      P (as ++ [a]) (cs ++ ds) t)
    {as : List α} {cs : List κ} {s : σ} (h : m.Reaches as cs s) : P as cs s := by
  induction as using List.reverseRecOn generalizing cs s with
  | nil =>
    obtain ⟨rfl, rfl⟩ := reaches_nil.mp h
    exact nil
  | append_singleton as a ih =>
    obtain ⟨ds, t, es, ht, hs, rfl⟩ := reaches_snoc.mp h
    exact snoc as ds t a es s ht (ih ht) hs

/-- The run rule where no step faults. -/
theorem exists_induct {P : List α → List κ → σ → Prop}
    (total : ∀ s a, ∃ ds t, m.step s a = ⟨ds, .ok t⟩) (nil : P [] [] m.init)
    (snoc : ∀ as cs s a ds t, m.Reaches as cs s → P as cs s → m.step s a = ⟨ds, .ok t⟩ →
      P (as ++ [a]) (cs ++ ds) t) (as : List α) : ∃ cs s, m.Reaches as cs s ∧ P as cs s := by
  obtain ⟨cs, s, hs⟩ := exists_reaches total as
  exact ⟨cs, s, hs, hs.induct nil snoc⟩

/-- A machine whose steps, where they do not fault, are another one's reaches what that one does. -/
theorem Reaches.of_step {n : Machine κ ε σ α} {as : List α} {cs : List κ} {s : σ}
    (h : m.Reaches as cs s) (init : m.init = n.init)
    (step : ∀ s a cs t, m.step s a = ⟨cs, .ok t⟩ → n.step s a = ⟨cs, .ok t⟩) :
    n.Reaches as cs s :=
  h.induct (P := fun as cs s => n.Reaches as cs s) (reaches_nil.mpr ⟨rfl, init⟩)
    fun _ _ s a ds t _ hn hs => hn.snoc (step s a ds t hs)

/-- The run rule for a property of the state alone. -/
theorem Reaches.invariant {P : σ → Prop} (init : P m.init)
    (step : ∀ s a ds t, P s → m.step s a = ⟨ds, .ok t⟩ → P t)
    {as : List α} {cs : List κ} {s : σ} (h : m.Reaches as cs s) : P s :=
  h.induct (P := fun _ _ s => P s) init fun _ _ s a ds t _ hs ht => step s a ds t hs ht

/-- A run and one more step, which may fault. -/
theorem run_snoc (as : List α) (a : α) :
    m.run (as ++ [a]) = m.run as >>= fun s => m.step s a := by
  have hsnoc : ∀ s, m.runFrom s (as ++ [a]) = m.runFrom s as >>= fun t => m.step t a := by
    induction as with
    | nil =>
      intro s
      show m.step s a >>= (fun t => pure t) = m.step s a
      cases h : m.step s a with
      | mk cs r => cases r <;> simp [Exec.pure_def]
    | cons b as ih =>
      intro s
      show (m.step s b >>= fun t => m.runFrom t (as ++ [a])) = _
      rw [funext ih]
      exact (Exec.bind_assoc _ _ _).symm
  exact hsnoc m.init

/-- **The log rule.** What holds of the empty log, and of the log of a run that did not fault with
one more step, which may fault, holds of the log of every run. -/
theorem run_calls {P : List κ → Prop} (nil : P [])
    (step : ∀ as cs s a, m.Reaches as cs s → P (cs ++ (m.step s a).calls)) (as : List α) :
    P (m.run as).calls := by
  induction as using List.reverseRecOn with
  | nil => exact nil
  | append_singleton as a ih =>
    rw [run_snoc]
    rcases h : m.run as with ⟨cs, e | s⟩
    · rw [h] at ih
      exact ih
    · exact step as cs s a h

/-! ## Properties of whole runs -/

/-- Every state the run reaches, with the log so far, has `P`. -/
def Always (m : Machine κ ε σ α) (P : List κ → σ → Prop) (as : List α) : Prop :=
  ∀ bs, bs <+: as → ∀ cs s, m.Reaches bs cs s → P cs s

/-- No step of the run faults, and every state it reaches has `P`. -/
def Safe (m : Machine κ ε σ α) (P : List κ → σ → Prop) (as : List α) : Prop :=
  ∀ bs, bs <+: as → ∃ cs s, m.Reaches bs cs s ∧ P cs s

/-- Every step of the run, at the state it is taken from, meets `C`. -/
def Along (m : Machine κ ε σ α) (C : σ → α → Prop) (as : List α) : Prop :=
  ∀ bs a, bs ++ [a] <+: as → ∀ cs s, m.Reaches bs cs s → C s a

theorem along_nil {C : σ → α → Prop} : m.Along C [] := fun _ _ h => by
  have := h.length_le
  simp at this

theorem along_snoc {C : σ → α → Prop} {as : List α} {a : α} :
    m.Along C (as ++ [a]) ↔ m.Along C as ∧ ∀ cs s, m.Reaches as cs s → C s a := by
  constructor
  · exact fun h => ⟨fun bs b hb => h bs b (hb.trans (List.prefix_append as [a])),
      h as a (List.prefix_rfl)⟩
  · rintro ⟨h, ha⟩ bs b hb
    rcases List.prefix_concat_iff.mp hb with he | hb
    · obtain ⟨rfl, hba⟩ := List.append_inj' he rfl
      obtain rfl : b = a := List.singleton_inj.mp hba
      exact ha
    · exact h bs b hb

/-- Conditions that agree on the steps of the run. -/
theorem along_congr {C D : σ → α → Prop} {as : List α}
    (h : ∀ bs a, bs ++ [a] <+: as → ∀ cs s, m.Reaches bs cs s → (C s a ↔ D s a)) :
    m.Along C as ↔ m.Along D as := by
  constructor
  · exact fun hC bs a hb cs s hs => (h bs a hb cs s hs).mp (hC bs a hb cs s hs)
  · exact fun hD bs a hb cs s hs => (h bs a hb cs s hs).mpr (hD bs a hb cs s hs)

theorem along_and {C D : σ → α → Prop} {as : List α} :
    m.Along (fun s a => C s a ∧ D s a) as ↔ m.Along C as ∧ m.Along D as := by
  constructor
  · exact fun h => ⟨fun bs a hb cs s hs => (h bs a hb cs s hs).1,
      fun bs a hb cs s hs => (h bs a hb cs s hs).2⟩
  · exact fun h bs a hb cs s hs => ⟨h.1 bs a hb cs s hs, h.2 bs a hb cs s hs⟩

theorem always_snoc {P : List κ → σ → Prop} {as : List α} {a : α} :
    m.Always P (as ++ [a]) ↔ m.Always P as ∧ ∀ cs s, m.Reaches (as ++ [a]) cs s → P cs s := by
  constructor
  · exact fun h => ⟨fun bs hb => h bs (hb.trans (List.prefix_append as [a])),
      h _ List.prefix_rfl⟩
  · rintro ⟨h, ha⟩ bs hb
    rcases List.prefix_concat_iff.mp hb with rfl | hb
    · exact ha
    · exact h bs hb

theorem safe_snoc {P : List κ → σ → Prop} {as : List α} {a : α} :
    m.Safe P (as ++ [a]) ↔ m.Safe P as ∧ ∃ cs s, m.Reaches (as ++ [a]) cs s ∧ P cs s := by
  constructor
  · exact fun h => ⟨fun bs hb => h bs (hb.trans (List.prefix_append as [a])),
      h _ List.prefix_rfl⟩
  · rintro ⟨h, ha⟩ bs hb
    rcases List.prefix_concat_iff.mp hb with rfl | hb
    · exact ha
    · exact h bs hb

section Exact

variable {P : List κ → σ → Prop} {C : σ → α → Prop}

/-- **Exactness over runs.** Where a step that meets `C` keeps `P`, and one that does not meet it
ends, without a fault, in a state that lacks `P`, the runs with `P` in every state are those whose
steps all meet `C`. -/
theorem always_iff_along (init : P [] m.init)
    (keep : ∀ as cs s a ds t, m.Reaches as cs s → P cs s → C s a → m.step s a = ⟨ds, .ok t⟩ →
      P (cs ++ ds) t)
    (lose : ∀ as cs s a, m.Reaches as cs s → P cs s → ¬ C s a →
      ∃ ds t, m.step s a = ⟨ds, .ok t⟩ ∧ ¬ P (cs ++ ds) t)
    (as : List α) : m.Always P as ↔ m.Along C as := by
  induction as using List.reverseRecOn with
  | nil =>
    refine ⟨fun _ => along_nil, fun _ bs hb cs s hs => ?_⟩
    obtain rfl := List.prefix_nil.mp hb
    obtain ⟨rfl, rfl⟩ := reaches_nil.mp hs
    exact init
  | append_singleton as a ih =>
    rw [always_snoc, along_snoc, ih]
    constructor
    · rintro ⟨hal, hP⟩
      refine ⟨hal, fun cs s hs => ?_⟩
      by_contra hC
      have hPs : P cs s := ih.mpr hal as List.prefix_rfl cs s hs
      obtain ⟨ds, t, ht, hPt⟩ := lose as cs s a hs hPs hC
      exact hPt (hP _ t (hs.snoc ht))
    · rintro ⟨hal, hC⟩
      refine ⟨hal, fun cs u hu => ?_⟩
      obtain ⟨ds, t, es, ht, hs, rfl⟩ := reaches_snoc.mp hu
      have hPt : P ds t := ih.mpr hal as List.prefix_rfl ds t ht
      exact keep as ds t a es u ht hPt (hC ds t ht) hs

/-- **Exactness over runs that may fault.** As `always_iff_along`, where a step that does not meet
`C` may also fault. -/
theorem safe_iff_along (init : P [] m.init)
    (keep : ∀ as cs s a, m.Reaches as cs s → P cs s → C s a →
      ∃ ds t, m.step s a = ⟨ds, .ok t⟩ ∧ P (cs ++ ds) t)
    (lose : ∀ as cs s a ds t, m.Reaches as cs s → P cs s → ¬ C s a → m.step s a = ⟨ds, .ok t⟩ →
      ¬ P (cs ++ ds) t)
    (as : List α) : m.Safe P as ↔ m.Along C as := by
  induction as using List.reverseRecOn with
  | nil =>
    refine ⟨fun _ => along_nil, fun _ bs hb => ?_⟩
    obtain rfl := List.prefix_nil.mp hb
    exact ⟨[], m.init, rfl, init⟩
  | append_singleton as a ih =>
    rw [safe_snoc, along_snoc, ih]
    constructor
    · rintro ⟨hal, cs, u, hu, hP⟩
      refine ⟨hal, fun ds t ht => ?_⟩
      by_contra hC
      obtain ⟨ds', t', es, ht', hs, rfl⟩ := reaches_snoc.mp hu
      obtain ⟨rfl, rfl⟩ := ht.det ht'
      obtain ⟨cs', s', hs', hPs⟩ := ih.mpr hal as List.prefix_rfl
      obtain ⟨rfl, rfl⟩ := ht.det hs'
      exact lose as ds t a es u ht hPs hC hs hP
    · rintro ⟨hal, hC⟩
      refine ⟨hal, ?_⟩
      obtain ⟨cs, s, hs, hPs⟩ := ih.mpr hal as List.prefix_rfl
      obtain ⟨ds, t, ht, hPt⟩ := keep as cs s a hs hPs (hC cs s hs)
      exact ⟨_, t, hs.snoc ht, hPt⟩

end Exact

/-! ## What a run set last -/

/-- The last step of the run that sets something, in the sense of `Sets`, sets it to `b`. -/
inductive Last (m : Machine κ ε σ α) (Sets : σ → α → β → Prop) : List α → β → Prop
  | set {as : List α} {cs : List κ} {s : σ} {a : α} {b : β} (hs : m.Reaches as cs s)
      (ha : Sets s a b) : Last m Sets (as ++ [a]) b
  | kept {as : List α} {cs : List κ} {s : σ} {a : α} {b : β} (hb : Last m Sets as b)
      (hs : m.Reaches as cs s) (ha : ∀ b', ¬ Sets s a b') : Last m Sets (as ++ [a]) b

section Last

variable {Sets : σ → α → β → Prop} {b : β}

theorem not_last_nil : ¬ m.Last Sets [] b := by
  intro h
  generalize has : ([] : List α) = as at h
  cases h with
  | set => simp at has
  | kept => simp at has

/-- The last step of a run either sets it, or leaves what was set before. -/
theorem last_snoc {as : List α} {a : α} {cs : List κ} {s : σ} (hs : m.Reaches as cs s) :
    m.Last Sets (as ++ [a]) b ↔ Sets s a b ∨ m.Last Sets as b ∧ ∀ b', ¬ Sets s a b' := by
  constructor
  · intro h
    generalize has : as ++ [a] = as' at h
    cases h with
    | set hs' ha =>
      obtain ⟨rfl, rfl⟩ := List.append_singleton_inj.mp has
      obtain ⟨-, rfl⟩ := hs.det hs'
      exact .inl ha
    | kept hb hs' ha =>
      obtain ⟨rfl, rfl⟩ := List.append_singleton_inj.mp has
      obtain ⟨-, rfl⟩ := hs.det hs'
      exact .inr ⟨hb, ha⟩
  · rintro (ha | ⟨hb, ha⟩)
    · exact .set hs ha
    · exact .kept hb hs ha

/-- A step that sets nothing. -/
theorem last_kept {as : List α} {a : α} {cs : List κ} {s : σ} (hs : m.Reaches as cs s)
    (ha : ∀ b, ¬ Sets s a b) : m.Last Sets (as ++ [a]) b ↔ m.Last Sets as b := by
  rw [last_snoc hs]
  exact ⟨fun h => (h.resolve_left (ha b)).1, fun h => .inr ⟨h, ha⟩⟩

/-- A step that sets one thing. -/
theorem last_set {as : List α} {a : α} {cs : List κ} {s : σ} {c : β} (hs : m.Reaches as cs s)
    (hc : Sets s a c) (det : ∀ b, Sets s a b → c = b) : m.Last Sets (as ++ [a]) b ↔ c = b := by
  rw [last_snoc hs]
  constructor
  · rintro (hb | ⟨-, hnone⟩)
    · exact det b hb
    · exact absurd hc (hnone c)
  · rintro rfl
    exact .inl hc

end Last

/-! ## Simulation -/

/-- `n` simulates `m` through `R`: the initial state of `m` is related to one `n` reaches, and a
step of `m` is matched by a run of `n`. -/
structure Simulation (m : Machine κ ε σ α) (n : Machine κ' ε' τ β) (R : σ → τ → Prop) : Prop where
  init : ∃ bs ds t, n.Reaches bs ds t ∧ R m.init t
  step : ∀ s t a cs s', R s t → m.step s a = ⟨cs, .ok s'⟩ →
    ∃ bs ds t', n.runFrom t bs = ⟨ds, .ok t'⟩ ∧ R s' t'

/-- A simulated machine reaches only states related to reached ones. -/
theorem Simulation.reaches {n : Machine κ' ε' τ β} {R : σ → τ → Prop} (sim : Simulation m n R)
    {as : List α} {cs : List κ} {s : σ} (h : m.Reaches as cs s) :
    ∃ bs ds t, n.Reaches bs ds t ∧ R s t := by
  refine h.induct (P := fun _ _ s => ∃ bs ds t, n.Reaches bs ds t ∧ R s t)
    sim.init ?_
  rintro as cs s a ds s' _ ⟨bs, es, t, ht, hR⟩ hs
  obtain ⟨bs', ds', t', ht', hR'⟩ := sim.step s t a ds s' hR hs
  exact ⟨bs ++ bs', es ++ ds', t', runFrom_append.mpr ⟨es, t, ds', ht, ht', rfl⟩, hR'⟩

end Machine

end WaylandTest.Lib
