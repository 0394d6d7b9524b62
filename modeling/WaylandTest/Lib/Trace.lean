import Mathlib.Data.List.Nodup
import WaylandTest.Lib.Machine

/-!
# Traces, and what they show of one part

A trace collects what is said of each step of a run, from the state it is taken in and its action.
Where a system has parts, the entries of a trace are tagged with the part they are about; `untag`
is the history of one part.
-/

set_option autoImplicit false

namespace WaylandTest.Lib

variable {ι α β γ : Type}

section Untag

variable [DecidableEq ι]

/-- The entries tagged with `i`, in order. -/
def untag (i : ι) (l : List (ι × α)) : List α :=
  l.filterMap fun e => if e.1 = i then some e.2 else none

variable {i : ι} {l : List (ι × α)}

@[simp] theorem untag_append (l l' : List (ι × α)) : untag i (l ++ l') = untag i l ++ untag i l' :=
  List.filterMap_append

theorem untag_eq_nil (h : ∀ e ∈ l, e.1 ≠ i) : untag i l = [] := by
  apply List.filterMap_eq_nil_iff.mpr
  intro e he
  exact if_neg (h e he)

theorem untag_cons_self {a : α} : untag i ((i, a) :: l) = a :: untag i l := by
  unfold untag
  rw [List.filterMap_cons, if_pos rfl]

theorem mem_untag {a : α} : a ∈ untag i l ↔ (i, a) ∈ l := by
  unfold untag
  rw [List.mem_filterMap]
  constructor
  · rintro ⟨⟨j, b⟩, he, hb⟩
    split at hb
    · next hj =>
      obtain rfl : b = a := Option.some.inj hb
      obtain rfl : j = i := hj
      exact he
    · cases hb
  · exact fun h => ⟨(i, a), h, if_pos rfl⟩

/-- What is all tagged with `j`. -/
theorem untag_tagged (j : ι) (as : List α) :
    untag i (as.map (Prod.mk j)) = if j = i then as else [] := by
  unfold untag
  rw [List.filterMap_map]
  by_cases h : j = i
  · simp [h]
  · simp [h]

/-- Entries of parts with distinct tags. -/
theorem untag_flatMap {key : β → ι} {f : β → List α} {bs : List β} (nodup : (bs.map key).Nodup)
    {b : β} (hb : b ∈ bs) :
    untag (key b) (bs.flatMap fun c => (f c).map (Prod.mk (key c))) = f b := by
  induction bs with
  | nil => cases hb
  | cons c bs ih =>
    rw [List.map_cons, List.nodup_cons] at nodup
    rw [List.flatMap_cons, untag_append, untag_tagged]
    rcases List.mem_cons.mp hb with rfl | hb
    · have hrest : untag (key b) (bs.flatMap fun c => (f c).map (Prod.mk (key c))) = [] := by
        apply untag_eq_nil
        intro e he hkey
        obtain ⟨d, hd, hed⟩ := List.mem_flatMap.mp he
        obtain ⟨a, -, rfl⟩ := List.mem_map.mp hed
        exact nodup.1 (List.mem_map.mpr ⟨d, hd, hkey⟩)
      rw [if_pos rfl, hrest, List.append_nil]
    · have hne : key c ≠ key b := fun heq => nodup.1 (heq ▸ List.mem_map_of_mem hb)
      rw [if_neg hne, List.nil_append]
      exact ih nodup.2 hb

omit [DecidableEq ι] in
theorem map_flatMap_tagged {key : β → ι} {f : β → List α} {bs : List β} :
    (bs.flatMap fun c => (f c).map (Prod.mk (key c))).map Prod.snd = bs.flatMap f := by
  rw [List.map_flatMap]
  simp only [List.map_map, Function.comp_def, List.map_id']

/-- What a function picks of the entries, which keep their tags. -/
def pick (f : α → Option β) (l : List (ι × α)) : List (ι × β) :=
  l.filterMap fun e => (f e.2).map (Prod.mk e.1)

omit [DecidableEq ι] in
theorem map_pick {f : α → Option β} : (pick f l).map Prod.snd = (l.map Prod.snd).filterMap f := by
  unfold pick
  rw [List.map_filterMap, List.filterMap_map]
  simp [Function.comp_def]

@[simp] theorem untag_pick {f : α → Option β} : untag i (pick f l) = (untag i l).filterMap f := by
  unfold untag pick
  rw [List.filterMap_filterMap, List.filterMap_filterMap]
  apply List.filterMap_congr
  intro e _
  by_cases he : e.1 = i <;> cases hf : f e.2 <;> simp [he, hf]

theorem nodup_untag (nodup : (l.map Prod.snd).Nodup) (i : ι) : (untag i l).Nodup := by
  induction l with
  | nil => exact List.nodup_nil
  | cons e l ih =>
    obtain ⟨j, a⟩ := e
    rw [List.map_cons, List.nodup_cons] at nodup
    by_cases hj : j = i
    · subst hj
      rw [untag_cons_self, List.nodup_cons]
      refine ⟨fun ha => nodup.1 ?_, ih nodup.2⟩
      exact List.mem_map.mpr ⟨_, mem_untag.mp ha, rfl⟩
    · have hskip : untag i ((j, a) :: l) = untag i l := List.filterMap_cons_none (if_neg hj)
      rw [hskip]
      exact ih nodup.2

/-- A value that only one part has. -/
theorem tag_unique (nodup : (l.map Prod.snd).Nodup) {j : ι} {a : α} (hi : a ∈ untag i l)
    (hj : a ∈ untag j l) : i = j :=
  congrArg Prod.fst (List.inj_on_of_nodup_map nodup (mem_untag.mp hi) (mem_untag.mp hj) rfl)

/-- Values that no part has twice, and no two parts have, are distinct. -/
theorem nodup_of_untag (nodup : ∀ i, (untag i l).Nodup)
    (disjoint : ∀ i j a, a ∈ untag i l → a ∈ untag j l → i = j) : (l.map Prod.snd).Nodup := by
  induction l with
  | nil => exact List.nodup_nil
  | cons e l ih =>
    obtain ⟨i, a⟩ := e
    have hmore : ∀ {j : ι} {b : α}, b ∈ untag j l → b ∈ untag j ((i, a) :: l) := fun hb =>
      mem_untag.mpr (List.mem_cons_of_mem _ (mem_untag.mp hb))
    rw [List.map_cons, List.nodup_cons]
    constructor
    · intro hmem
      obtain ⟨⟨j, b⟩, he, rfl⟩ := List.mem_map.mp hmem
      have hb : b ∈ untag j l := mem_untag.mpr he
      have hself : b ∈ untag i ((i, b) :: l) := mem_untag.mpr List.mem_cons_self
      obtain rfl := disjoint i j b hself (hmore hb)
      have hone := nodup i
      rw [untag_cons_self, List.nodup_cons] at hone
      exact hone.1 hb
    · refine ih (fun j => ?_) fun j k b hj hk => disjoint j k b (hmore hj) (hmore hk)
      exact (nodup j).sublist ((List.sublist_cons_self (i, a) l).filterMap _)

/-- Values picked by what only one part has. -/
theorem filter_eq_untag {p : α → Bool} (h : ∀ e ∈ l, p e.2 = true ↔ e.1 = i) :
    (l.map Prod.snd).filter p = untag i l := by
  induction l with
  | nil => rfl
  | cons e l ih =>
    have hrest := ih fun e he => h e (List.mem_cons_of_mem _ he)
    have hhead := h e List.mem_cons_self
    unfold untag at hrest ⊢
    rw [List.map_cons, List.filter_cons, List.filterMap_cons]
    by_cases he : e.1 = i
    · simp only [hhead.mpr he, if_true, he, hrest]
    · have hp : p e.2 = false := Bool.eq_false_iff.mpr fun ht => he (hhead.mp ht)
      simp only [hp, Bool.false_eq_true, if_false, he, hrest]

end Untag

namespace Machine

variable {κ ε σ : Type} {m : Machine κ ε σ α} {f : σ → α → List γ}

/-- What `f` says of the steps from `s` on, up to the first that faults. -/
def traceFrom (m : Machine κ ε σ α) (f : σ → α → List γ) (s : σ) : List α → List γ
  | [] => []
  | a :: as =>
    f s a ++
      match (m.step s a).result with
      | .ok t => m.traceFrom f t as
      | .error _ => []

/-- What `f` says of the steps of the run. -/
def trace (m : Machine κ ε σ α) (f : σ → α → List γ) (as : List α) : List γ :=
  m.traceFrom f m.init as

theorem traceFrom_snoc {s t : σ} {as : List α} {a : α} {cs : List κ}
    (h : m.runFrom s as = ⟨cs, .ok t⟩) :
    m.traceFrom f s (as ++ [a]) = m.traceFrom f s as ++ f t a := by
  induction as generalizing s cs with
  | nil =>
    cases h
    show f t a ++ _ = f t a
    cases (m.step t a).result with
    | error e => exact List.append_nil _
    | ok u => exact List.append_nil _
  | cons b as ih =>
    obtain ⟨_, u, _, hu, hrest, -⟩ := Exec.bind_eq_ok.mp h
    rw [List.cons_append, traceFrom, traceFrom, hu, List.append_assoc]
    exact congrArg (f s b ++ ·) (ih hrest)

/-- One more step adds what is said of it. -/
theorem trace_snoc {s : σ} {as : List α} {a : α} {cs : List κ} (h : m.Reaches as cs s) :
    m.trace f (as ++ [a]) = m.trace f as ++ f s a := traceFrom_snoc h

end Machine

end WaylandTest.Lib
