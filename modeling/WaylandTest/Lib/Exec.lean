import Mathlib.Data.List.Basic

/-!
# Computations that log their calls and may fault

A program that runs against a library makes calls, and at some point it may do something undefined:
read a null pointer, leave an array, overflow a signed integer. `Exec κ ε α` keeps both apart: the
calls made so far (`κ`, in order), and the value returned or the fault (`ε`) that ended it. The
log survives the fault, so a statement about calls also covers a run that ends badly.

`Exec.loop` is the `while` loop of such a program, on fuel; `loop_induct` is its invariant rule, and
`foldlM_induct` the one of a loop over a list. `foldlM_each` is for a loop whose step for one item
leaves the others alone.
-/

set_option autoImplicit false

namespace WaylandTest.Lib

/-- What a computation did: the calls it made, and its value or the fault that ended it. -/
structure Exec (κ ε α : Type) where
  calls : List κ
  result : Except ε α

namespace Exec

variable {κ ε α β σ : Type}

/-- Sequencing. A fault ends the computation and keeps the calls made before it. -/
def bind (x : Exec κ ε α) (f : α → Exec κ ε β) : Exec κ ε β :=
  match x.result with
  | .ok a => ⟨x.calls ++ (f a).calls, (f a).result⟩
  | .error e => ⟨x.calls, .error e⟩

instance : Monad (Exec κ ε) where
  pure a := ⟨[], .ok a⟩
  bind := bind

/-- End the computation with a fault. -/
def fail (e : ε) : Exec κ ε α := ⟨[], .error e⟩

/-- Make the calls `cs`. -/
def log (cs : List κ) : Exec κ ε Unit := ⟨cs, .ok ()⟩

/-- The value of a step that makes its calls and cannot fault. -/
def done (x : α × List κ) : Exec κ ε α := ⟨x.2, .ok x.1⟩

/-- The value of a partial read, or the fault `e` where there is none. -/
def ofOption (e : ε) : Option α → Exec κ ε α
  | some a => pure a
  | none => fail e

/-- A computation that ends where `p` fails. -/
def guard (e : ε) (p : Prop) [Decidable p] : Exec κ ε Unit :=
  if p then pure () else fail e

/-- The same computation, with each call of its log told as other calls. -/
def relog {κ' : Type} (f : κ → List κ') (x : Exec κ ε α) : Exec κ' ε α :=
  ⟨x.calls.flatMap f, x.result⟩

@[simp] theorem pure_def (a : α) : (pure a : Exec κ ε α) = ⟨[], .ok a⟩ := rfl

@[simp] theorem ok_bind (cs : List κ) (a : α) (f : α → Exec κ ε β) :
    (⟨cs, .ok a⟩ : Exec κ ε α) >>= f = ⟨cs ++ (f a).calls, (f a).result⟩ := rfl

@[simp] theorem error_bind (cs : List κ) (e : ε) (f : α → Exec κ ε β) :
    (⟨cs, .error e⟩ : Exec κ ε α) >>= f = ⟨cs, .error e⟩ := rfl

@[simp] theorem done_eq_ok {x : α × List κ} {cs : List κ} {a : α} :
    (done x : Exec κ ε α) = ⟨cs, .ok a⟩ ↔ x.2 = cs ∧ x.1 = a := by
  simp only [done, Exec.mk.injEq, Except.ok.injEq]

theorem log_bind_pure (cs : List κ) (a : α) :
    (log cs >>= fun _ => (pure a : Exec κ ε α)) = ⟨cs, .ok a⟩ := by
  show (⟨cs ++ [], .ok a⟩ : Exec κ ε α) = _
  rw [List.append_nil]

theorem calls_log_bind (cs : List κ) (f : Unit → Exec κ ε β) :
    (log cs >>= f).calls = cs ++ (f ()).calls := rfl

theorem calls_bind_pure (x : Exec κ ε α) (f : α → β) :
    (x >>= fun a => (pure (f a) : Exec κ ε β)).calls = x.calls := by
  obtain ⟨cs, r⟩ := x
  cases r with
  | error e => rfl
  | ok a => exact List.append_nil cs

theorem bind_assoc (x : Exec κ ε α) (f : α → Exec κ ε β) (g : β → Exec κ ε σ) :
    (x >>= f) >>= g = x >>= fun a => f a >>= g := by
  obtain ⟨cs, r⟩ := x
  cases r with
  | error e => rfl
  | ok a =>
    rw [ok_bind, ok_bind]
    obtain ⟨ds, r⟩ := f a
    cases r with
    | error e => rfl
    | ok b =>
      rw [ok_bind, ok_bind]
      simp only [List.append_assoc]

/-- A returning sequence is two returning computations, and its log is theirs in order. -/
theorem bind_eq_ok {x : Exec κ ε α} {f : α → Exec κ ε β} {cs : List κ} {b : β} :
    x >>= f = ⟨cs, .ok b⟩ ↔
      ∃ ds a es, x = ⟨ds, .ok a⟩ ∧ f a = ⟨es, .ok b⟩ ∧ cs = ds ++ es := by
  obtain ⟨ds, r⟩ := x
  constructor
  · intro h
    cases r with
    | error e => cases h
    | ok a =>
      refine ⟨ds, a, (f a).calls, rfl, ?_, ?_⟩
      · have hr : (f a).result = .ok b := congrArg Exec.result h
        rw [← hr]
      · exact (congrArg Exec.calls h).symm
  · rintro ⟨ds', a, es, hx, hf, rfl⟩
    cases hx
    rw [ok_bind, hf]

/-- `bind_eq_ok` after making calls. -/
theorem log_bind_eq_ok {ds : List κ} {f : Unit → Exec κ ε β} {cs : List κ} {b : β} :
    log ds >>= f = ⟨cs, .ok b⟩ ↔ ∃ es, f () = ⟨es, .ok b⟩ ∧ cs = ds ++ es := by
  constructor
  · intro h
    obtain ⟨_, _, es, hlog, hf, he⟩ := bind_eq_ok.mp h
    cases hlog
    exact ⟨es, hf, he⟩
  · rintro ⟨es, hf, he⟩
    exact bind_eq_ok.mpr ⟨ds, (), es, rfl, hf, he⟩

/-- `bind_eq_ok` where only the value matters. -/
theorem result_bind_ok {x : Exec κ ε α} {f : α → Exec κ ε β} {b : β} :
    (x >>= f).result = .ok b ↔ ∃ a, x.result = .ok a ∧ (f a).result = .ok b := by
  obtain ⟨ds, r⟩ := x
  cases r with
  | error e =>
    constructor
    · intro h
      cases h
    · rintro ⟨a, ha, _⟩
      cases ha
  | ok a =>
    constructor
    · exact fun h => ⟨a, rfl, h⟩
    · rintro ⟨a', ha, h⟩
      cases ha
      exact h

/-- A call of a sequence is a call of its first part, or of its second where the first returns. -/
theorem mem_calls_bind {x : Exec κ ε α} {f : α → Exec κ ε β} {c : κ} :
    c ∈ (x >>= f).calls ↔ c ∈ x.calls ∨ ∃ a, x.result = .ok a ∧ c ∈ (f a).calls := by
  obtain ⟨ds, r⟩ := x
  cases r with
  | error e =>
    constructor
    · exact Or.inl
    · rintro (h | ⟨a, ha, _⟩)
      · exact h
      · cases ha
  | ok a =>
    rw [ok_bind, List.mem_append]
    constructor
    · rintro (h | h)
      · exact .inl h
      · exact .inr ⟨a, rfl, h⟩
    · rintro (h | ⟨a', ha, h⟩)
      · exact .inl h
      · cases ha
        exact .inr h

@[simp] theorem ofOption_eq_ok {e : ε} {o : Option α} {cs : List κ} {a : α} :
    (ofOption e o : Exec κ ε α) = ⟨cs, .ok a⟩ ↔ cs = [] ∧ o = some a := by
  cases o with
  | none => simp [ofOption, fail]
  | some b => simp [ofOption, eq_comm]

theorem ofOption_result_ok {e : ε} {o : Option α} {a : α} :
    (ofOption e o : Exec κ ε α).result = .ok a ↔ o = some a := by
  cases o <;> simp [ofOption, fail]

theorem guard_result_ok {e : ε} {p : Prop} [Decidable p] {u : Unit} :
    (guard e p : Exec κ ε Unit).result = .ok u ↔ p := by
  unfold guard
  split <;> simp [*, fail]

/-! ## Computations that make no calls -/

/-- The computation makes no calls, whether it returns or not. -/
def Silent (x : Exec κ ε α) : Prop := x.calls = []

theorem silent_pure (a : α) : Silent (pure a : Exec κ ε α) := rfl

theorem silent_ofOption (e : ε) (o : Option α) : Silent (ofOption e o : Exec κ ε α) := by
  cases o <;> rfl

theorem silent_guard (e : ε) (p : Prop) [Decidable p] : Silent (guard e p : Exec κ ε Unit) := by
  unfold guard
  split <;> rfl

theorem Silent.bind {x : Exec κ ε α} {f : α → Exec κ ε β} (hx : Silent x)
    (hf : ∀ a, Silent (f a)) : Silent (x >>= f) := by
  obtain ⟨cs, r⟩ := x
  cases r with
  | error e => exact hx
  | ok a =>
    show cs ++ (f a).calls = []
    rw [show cs = [] from hx, hf a, List.append_nil]

/-- A computation that makes no calls is its value. -/
theorem Silent.eq_ok {x : Exec κ ε α} (hx : Silent x) {a : α} (ha : x.result = .ok a) :
    x = ⟨[], .ok a⟩ := by
  obtain ⟨cs, r⟩ := x
  rw [show cs = [] from hx, show r = .ok a from ha]

/-- `bind_eq_ok` after a computation that makes no calls. -/
theorem Silent.bind_eq_ok {x : Exec κ ε α} {f : α → Exec κ ε β} {cs : List κ} {b : β}
    (hx : Silent x) : x >>= f = ⟨cs, .ok b⟩ ↔ ∃ a, x.result = .ok a ∧ f a = ⟨cs, .ok b⟩ := by
  constructor
  · intro h
    obtain ⟨ds, a, es, rfl, hf, rfl⟩ := Exec.bind_eq_ok.mp h
    rw [show ds = [] from hx]
    exact ⟨a, rfl, hf⟩
  · rintro ⟨a, ha, hf⟩
    exact Exec.bind_eq_ok.mpr ⟨[], a, cs, hx.eq_ok ha, hf, rfl⟩

/-! ## Folds -/

/-- **The invariant rule of a fold.** What every step keeps, of the calls so far and the state,
holds where the fold returns. -/
theorem foldlM_induct {f : σ → α → Exec κ ε σ} {I : List κ → σ → Prop}
    (keep : ∀ cs s a ds t, I cs s → f s a = ⟨ds, .ok t⟩ → I (cs ++ ds) t) {as : List α}
    (cs : List κ) {ds : List κ} {s t : σ} (hs : I cs s) (h : as.foldlM f s = ⟨ds, .ok t⟩) :
    I (cs ++ ds) t := by
  induction as generalizing cs s ds with
  | nil =>
    cases h
    rw [List.append_nil]
    exact hs
  | cons a as ih =>
    rw [List.foldlM_cons] at h
    obtain ⟨_, u, _, hstep, hmore, rfl⟩ := Exec.bind_eq_ok.mp h
    rw [← List.append_assoc]
    exact ih _ (keep _ _ _ _ _ hs hstep) hmore

/-- What the steps for the items of the list keep. -/
theorem foldlM_keep {f : σ → α → Exec κ ε σ} {P : σ → Prop} {as : List α}
    (keep : ∀ a ∈ as, ∀ s ds t, P s → f s a = ⟨ds, .ok t⟩ → P t) {ds : List κ} {s t : σ} (hs : P s)
    (h : as.foldlM f s = ⟨ds, .ok t⟩) : P t := by
  induction as generalizing s ds with
  | nil =>
    cases h
    exact hs
  | cons a as ih =>
    rw [List.foldlM_cons] at h
    obtain ⟨_, u, _, hstep, hmore, rfl⟩ := Exec.bind_eq_ok.mp h
    have hu : P u := keep a List.mem_cons_self _ _ _ hs hstep
    exact ih (fun b hb => keep b (List.mem_cons_of_mem a hb)) hu hmore

/-- **The rule for items apart.** What the step for an item brings about, and the steps for items
apart from it keep, holds of each item where the fold returns. -/
theorem foldlM_each {f : σ → α → Exec κ ε σ} {Q : α → σ → Prop} {R : α → α → Prop}
    (reach : ∀ s a ds t, f s a = ⟨ds, .ok t⟩ → Q a t)
    (keep : ∀ s a b ds t, R a b → Q a s → f s b = ⟨ds, .ok t⟩ → Q a t) {as : List α}
    (apart : as.Pairwise R) {ds : List κ} {s t : σ} (h : as.foldlM f s = ⟨ds, .ok t⟩) :
    ∀ a ∈ as, Q a t := by
  induction as generalizing s ds with
  | nil => exact fun _ ha => nomatch ha
  | cons a as ih =>
    rw [List.foldlM_cons] at h
    obtain ⟨_, u, _, hstep, hmore, rfl⟩ := Exec.bind_eq_ok.mp h
    obtain ⟨hhead, htail⟩ := List.pairwise_cons.mp apart
    intro b hb
    rcases List.mem_cons.mp hb with rfl | hb
    · have hu : Q b u := reach _ _ _ _ hstep
      exact foldlM_keep (fun c hc s ds t => keep s b c ds t (hhead c hc)) hu hmore
    · exact ih htail hmore b hb

theorem Silent.foldlM {f : σ → α → Exec κ ε σ} (hf : ∀ s a, Silent (f s a)) (as : List α) (s : σ) :
    Silent (as.foldlM f s) := by
  induction as generalizing s with
  | nil => rfl
  | cons a as ih =>
    rw [List.foldlM_cons]
    exact (hf s a).bind ih

/-! ## The while loop -/

/-- `while (cond s) s = body(s)`. Fuel bounds the iterations; running out is the fault `spent`. -/
def loop (spent : ε) (cond : σ → Bool) (body : σ → Exec κ ε σ) : Nat → σ → Exec κ ε σ
  | 0, _ => fail spent
  | fuel + 1, s => if cond s then body s >>= loop spent cond body fuel else pure s

/-- **The invariant rule.** What every iteration keeps holds where the loop returns, and there the
condition is false. -/
theorem loop_induct {spent : ε} {cond : σ → Bool} {body : σ → Exec κ ε σ} {I : σ → Prop}
    (keep : ∀ s t, I s → cond s = true → (body s).result = .ok t → I t) :
    ∀ {fuel : Nat} {s t : σ}, I s → (loop spent cond body fuel s).result = .ok t →
      I t ∧ cond t = false := by
  intro fuel
  induction fuel with
  | zero => intro s t _ h; cases h
  | succ fuel ih =>
    intro s t hs h
    unfold loop at h
    split at h
    · next hc =>
      obtain ⟨u, hu, ht⟩ := result_bind_ok.mp h
      exact ih (keep s u hs hc hu) ht
    · next hc =>
      cases h
      exact ⟨hs, Bool.eq_false_iff.mpr hc⟩

theorem Silent.loop {spent : ε} {cond : σ → Bool} {body : σ → Exec κ ε σ}
    (hbody : ∀ s, Silent (body s)) (fuel : Nat) (s : σ) :
    Silent (Exec.loop spent cond body fuel s) := by
  induction fuel generalizing s with
  | zero => rfl
  | succ fuel ih =>
    unfold Exec.loop
    split
    · exact (hbody s).bind ih
    · rfl

end Exec

end WaylandTest.Lib
