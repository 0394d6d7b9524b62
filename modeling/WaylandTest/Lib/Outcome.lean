import WaylandTest.Lib.Exec

/-!
# How a computation may end

`Faults E x` bounds the faults of a computation: if it ends in one, `E` holds of it. With `E` never
true, the computation returns. `Faults.loop` is the rule of a loop, where fuel is enough because a
measure falls.

`Alike R x y` compares two computations: both end in the same fault, or both return, and then `R`
holds of what they return. A program that reads nothing of what two inputs differ in has alike runs
on them.

`Follows E x y` compares them up to some faults: unless `x` ends in a fault of `E`, the two are the
same. A program that goes on where another one stops follows it that far.
-/

set_option autoImplicit false

namespace WaylandTest.Lib

namespace Exec

variable {κ κ' ε α β γ δ σ τ : Type} {E : ε → Prop}

/-! ## Faults -/

/-- The computation returns, or ends in a fault that `E` allows. -/
def Faults (E : ε → Prop) (x : Exec κ ε α) : Prop := ∀ e, x.result = .error e → E e

theorem faults_pure (a : α) : Faults E (pure a : Exec κ ε α) := fun _ h => nomatch h

theorem faults_fail {e : ε} (he : E e) : Faults E (fail e : Exec κ ε α) := by
  intro e' h
  cases h
  exact he

theorem faults_ofOption {e : ε} (he : E e) (o : Option α) :
    Faults E (ofOption e o : Exec κ ε α) := by
  cases o with
  | none => exact faults_fail he
  | some a => exact faults_pure a

/-- A partial read that has a value does not fault. -/
theorem faults_some {e : ε} {o : Option α} {a : α} (h : o = some a) :
    Faults E (ofOption e o : Exec κ ε α) := by
  rw [h]
  exact faults_pure a

/-- A test that holds does not fault. -/
theorem faults_guard {e : ε} {p : Prop} [Decidable p] (hp : p) :
    Faults E (guard e p : Exec κ ε Unit) := by
  unfold guard
  rw [if_pos hp]
  exact faults_pure ()

theorem Faults.mono {x : Exec κ ε α} {E' : ε → Prop} (h : Faults E x) (hE : ∀ e, E e → E' e) :
    Faults E' x := fun e he => hE e (h e he)

theorem Faults.bind {x : Exec κ ε α} {f : α → Exec κ ε β} (hx : Faults E x)
    (hf : ∀ a, x.result = .ok a → Faults E (f a)) : Faults E (x >>= f) := by
  obtain ⟨cs, r⟩ := x
  cases r with
  | error e =>
    intro e' h
    cases h
    exact hx e rfl
  | ok a => exact hf a rfl

/-- A computation without a fault to end in returns. -/
theorem Faults.returns {x : Exec κ ε α} (h : Faults (fun _ => False) x) :
    ∃ a, x.result = .ok a := by
  obtain ⟨cs, r⟩ := x
  cases r with
  | error e => exact (h e rfl).elim
  | ok a => exact ⟨a, rfl⟩

theorem result_bind_error {x : Exec κ ε α} {f : α → Exec κ ε β} {e : ε} (h : x.result = .error e) :
    (x >>= f).result = .error e := by
  obtain ⟨cs, r⟩ := x
  cases h
  rfl

/-- A bind ends in a fault if one of its parts does. -/
theorem result_bind_error_iff {x : Exec κ ε α} {f : α → Exec κ ε β} {e : ε} :
    (x >>= f).result = .error e ↔
      x.result = .error e ∨ ∃ a, x.result = .ok a ∧ (f a).result = .error e := by
  obtain ⟨cs, r⟩ := x
  cases r with
  | error e' =>
    constructor
    · intro h
      cases h
      exact .inl rfl
    · rintro (h | ⟨a, ha, -⟩)
      · cases h
        rfl
      · cases ha
  | ok a =>
    constructor
    · exact fun h => .inr ⟨a, rfl, h⟩
    · rintro (h | ⟨a', ha, h⟩)
      · cases h
      · cases ha
        exact h

/-- What always returns adds no fault. -/
theorem result_bind_returns {x : Exec κ ε α} {f : α → Exec κ ε β} {e : ε}
    (hf : ∀ a, ∃ b, (f a).result = .ok b) : (x >>= f).result = .error e ↔ x.result = .error e := by
  refine result_bind_error_iff.trans ⟨?_, .inl⟩
  rintro (h | ⟨a, -, h⟩)
  · exact h
  · obtain ⟨b, hb⟩ := hf a
    cases hb.symm.trans h

theorem result_bind_of_ok {x : Exec κ ε α} {f : α → Exec κ ε β} {a : α} (h : x.result = .ok a) :
    (x >>= f).result = (f a).result := by
  obtain ⟨cs, r⟩ := x
  cases h
  rfl

section Loop

variable {spent : ε} {cond : σ → Bool} {body : σ → Exec κ ε σ} {fuel : Nat} {s t : σ}

/-- **The fault rule of a loop.** Where every iteration keeps `I` and makes `μ` smaller, a loop with
more fuel than `μ` ends in no other faults than its body. -/
theorem Faults.loop {I : σ → Prop} {μ : σ → Nat}
    (keep : ∀ s t, I s → cond s = true → (body s).result = .ok t → I t ∧ μ t < μ s)
    (hbody : ∀ s, I s → cond s = true → Faults E (body s)) (hs : I s) (hfuel : μ s < fuel) :
    Faults E (Exec.loop spent cond body fuel s) := by
  induction fuel generalizing s with
  | zero => exact absurd hfuel (Nat.not_lt_zero _)
  | succ fuel ih =>
    unfold Exec.loop
    split
    · next hc =>
      refine (hbody s hs hc).bind fun t ht => ?_
      obtain ⟨hI, hμ⟩ := keep s t hs hc ht
      exact ih hI (Nat.lt_of_lt_of_le hμ (Nat.le_of_lt_succ hfuel))
    · exact faults_pure s

/-- A loop ends in a fault of its body, or for want of fuel. -/
theorem faults_loop (hbody : ∀ s, Faults E (body s)) (hspent : E spent) (fuel : Nat) (s : σ) :
    Faults E (Exec.loop spent cond body fuel s) := by
  induction fuel generalizing s with
  | zero => exact faults_fail hspent
  | succ fuel ih =>
    unfold Exec.loop
    split
    · exact (hbody s).bind fun t _ => ih t
    · exact faults_pure s

/-- **The counting rule of a loop.** Where the `n` states from `s` on, numbered by `I`, meet the
condition and the next one does not, the loop makes `n` iterations. -/
theorem loop_count {I : Nat → σ → Prop} {n : Nat}
    (keep : ∀ k s, k < n → I k s → cond s = true ∧ ∃ t, body s = ⟨[], .ok t⟩ ∧ I (k + 1) t)
    (stop : ∀ s, I n s → cond s = false) (hs : I 0 s) (hfuel : n < fuel) :
    ∃ t, Exec.loop spent cond body fuel s = ⟨[], .ok t⟩ ∧ I n t := by
  have hrest : ∀ m k fuel s, k + m = n → m < fuel → I k s →
      ∃ t, Exec.loop spent cond body fuel s = ⟨[], .ok t⟩ ∧ I n t := by
    intro m
    induction m with
    | zero =>
      intro k fuel s hk hfuel hI
      obtain ⟨fuel, rfl⟩ := Nat.exists_eq_add_of_lt hfuel
      obtain rfl : k = n := hk
      refine ⟨s, ?_, hI⟩
      simp [Exec.loop, stop s hI]
    | succ m ih =>
      intro k fuel s hk hfuel hI
      obtain ⟨fuel, rfl⟩ := Nat.exists_eq_add_of_lt hfuel
      obtain ⟨hc, t, ht, hI'⟩ := keep k s (by omega) hI
      obtain ⟨u, hu, hn⟩ := ih (k + 1) (m + 1 + fuel) t (by omega) (by omega) hI'
      refine ⟨u, ?_, hn⟩
      show Exec.loop spent cond body (m + 1 + fuel + 1) s = _
      simp [Exec.loop, hc, ht, hu]
  exact hrest n 0 fuel s (Nat.zero_add n) hfuel hs

/-- A loop that returns returned from its first iteration. -/
theorem loop_first (h : (Exec.loop spent cond body fuel s).result = .ok t) (hc : cond s = true) :
    ∃ u, (body s).result = .ok u := by
  cases fuel with
  | zero => cases h
  | succ fuel =>
    unfold Exec.loop at h
    rw [if_pos hc] at h
    obtain ⟨u, hu, -⟩ := result_bind_ok.mp h
    exact ⟨u, hu⟩

end Loop

/-! ## Two computations -/

/-- Both computations end in the same fault, or both return, with values that `R` relates. -/
def Alike (R : α → β → Prop) (x : Exec κ ε α) (y : Exec κ' ε β) : Prop :=
  match x.result, y.result with
  | .ok a, .ok b => R a b
  | .error e, .error e' => e = e'
  | _, _ => False

section Alike

variable {R : α → β → Prop} {S : γ → δ → Prop}

theorem alike_pure {a : α} {b : β} (h : R a b) :
    Alike R (pure a : Exec κ ε α) (pure b : Exec κ' ε β) := h

theorem alike_log {R : Unit → Unit → Prop} (cs : List κ) (ds : List κ') (h : R () ()) :
    Alike R (log cs : Exec κ ε Unit) (log ds : Exec κ' ε Unit) := h

theorem Alike.refl {R : α → α → Prop} (h : ∀ a, R a a) (x : Exec κ ε α) : Alike R x x := by
  obtain ⟨cs, r⟩ := x
  cases r with
  | error e => exact rfl
  | ok a => exact h a

theorem alike_ofOption {e : ε} {o : Option α} {o' : Option β}
    (h : (∃ a b, o = some a ∧ o' = some b ∧ R a b) ∨ o = none ∧ o' = none) :
    Alike R (ofOption e o : Exec κ ε α) (ofOption e o' : Exec κ' ε β) := by
  rcases h with ⟨a, b, rfl, rfl, hR⟩ | ⟨rfl, rfl⟩
  · exact hR
  · exact rfl

/-- What the first computation returns, the second one returns up to `R`. -/
theorem Alike.ok {x : Exec κ ε α} {y : Exec κ' ε β} (h : Alike R x y) {a : α}
    (hx : x.result = .ok a) : ∃ b, y.result = .ok b ∧ R a b := by
  obtain ⟨cs, r⟩ := x
  obtain ⟨ds, r'⟩ := y
  cases hx
  cases r' with
  | error e => exact h.elim
  | ok b => exact ⟨b, rfl, h⟩

/-- The fault the first computation ends in is the second one's. -/
theorem Alike.error {x : Exec κ ε α} {y : Exec κ' ε β} (h : Alike R x y) {e : ε}
    (hx : x.result = .error e) : y.result = .error e := by
  obtain ⟨cs, r⟩ := x
  obtain ⟨ds, r'⟩ := y
  cases hx
  cases r' with
  | error e' => exact congrArg Except.error (Eq.symm h)
  | ok b => exact h.elim

theorem Alike.bind {x : Exec κ ε α} {y : Exec κ' ε β} {f : α → Exec κ ε γ} {g : β → Exec κ' ε δ}
    (h : Alike R x y) (hfg : ∀ a b, R a b → Alike S (f a) (g b)) :
    Alike S (x >>= f) (y >>= g) := by
  obtain ⟨cs, r⟩ := x
  obtain ⟨ds, r'⟩ := y
  cases r with
  | error e =>
    cases r' with
    | error e' => exact h
    | ok b => exact h.elim
  | ok a =>
    cases r' with
    | error e' => exact h.elim
    | ok b => exact hfg a b h

/-- One computation, and then two. -/
theorem Alike.bind_same {x : Exec κ ε α} {f : α → Exec κ ε γ} {g : α → Exec κ ε δ}
    (hfg : ∀ a, Alike S (f a) (g a)) : Alike S (x >>= f) (x >>= g) := by
  refine (Alike.refl (R := Eq) (fun _ => rfl) x).bind fun a _ h => ?_
  cases h
  exact hfg a

/-- **Two loops.** Related states agree on the condition, and an iteration relates them again. -/
theorem Alike.loop {Q : σ → τ → Prop} {spent : ε} {cond : σ → Bool} {cond' : τ → Bool}
    {body : σ → Exec κ ε σ} {body' : τ → Exec κ' ε τ} (hcond : ∀ s t, Q s t → cond s = cond' t)
    (hbody : ∀ s t, Q s t → Alike Q (body s) (body' t)) (fuel : Nat) {s : σ} {t : τ} (h : Q s t) :
    Alike Q (Exec.loop spent cond body fuel s) (Exec.loop spent cond' body' fuel t) := by
  induction fuel generalizing s t with
  | zero => exact rfl
  | succ fuel ih =>
    unfold Exec.loop
    rw [hcond s t h]
    split
    · exact (hbody s t h).bind fun _ _ hQ => ih hQ
    · exact h

end Alike

/-! ## One computation up to faults -/

/-- The computations are the same, or the first one ends in a fault that `E` allows. -/
def Follows (E : ε → Prop) (x y : Exec κ ε α) : Prop := x = y ∨ ∃ e, E e ∧ x.result = .error e

section Follows

variable {x y : Exec κ ε α}

theorem Follows.refl (x : Exec κ ε α) : Follows E x x := .inl rfl

/-- What the first computation returns, the second one returns too. -/
theorem Follows.eq_ok (h : Follows E x y) {cs : List κ} {a : α} (hx : x = ⟨cs, .ok a⟩) :
    y = ⟨cs, .ok a⟩ := by
  rcases h with rfl | ⟨e, -, he⟩
  · exact hx
  · rw [hx] at he
    cases he

/-- Any other fault of the first computation is one of the second one. -/
theorem Follows.error (h : Follows E x y) {e : ε} (he : ¬ E e) (hx : x.result = .error e) :
    y.result = .error e := by
  rcases h with rfl | ⟨e', hE, he'⟩
  · exact hx
  · cases he'.symm.trans hx
    exact absurd hE he

theorem Follows.bind {f g : α → Exec κ ε β} (h : Follows E x y) (hfg : ∀ a, Follows E (f a) (g a)) :
    Follows E (x >>= f) (y >>= g) := by
  rcases h with rfl | ⟨e, hE, he⟩
  · obtain ⟨cs, r⟩ := x
    cases r with
    | error e => exact .inl rfl
    | ok a =>
      rcases hfg a with hsame | ⟨e, hE, he⟩
      · exact .inl (by rw [ok_bind, ok_bind, hsame])
      · exact .inr ⟨e, hE, he⟩
  · exact .inr ⟨e, hE, result_bind_error he⟩

theorem Follows.loop {spent : ε} {cond : σ → Bool} {body body' : σ → Exec κ ε σ}
    (h : ∀ s, Follows E (body s) (body' s)) (fuel : Nat) (s : σ) :
    Follows E (Exec.loop spent cond body fuel s) (Exec.loop spent cond body' fuel s) := by
  induction fuel generalizing s with
  | zero => exact .refl _
  | succ fuel ih =>
    unfold Exec.loop
    split
    · exact (h s).bind ih
    · exact .refl _

end Follows

end Exec

end WaylandTest.Lib
