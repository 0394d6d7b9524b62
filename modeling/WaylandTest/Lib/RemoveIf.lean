import Mathlib.Data.List.Basic
import WaylandTest.Lib.Exec

/-!
# `remove_if` on a vector of owning pointers

An entry of the vector is an owning pointer, null (`none`) or not. `std::remove_if` keeps the
entries that fail the test, moved to the front in their order, and returns where the rest begins.
It deletes nothing by itself: a kept entry is moved onto one to be removed, and it is the move that
deletes what was there, leaving null behind.

The state of the loop is the entries kept so far, which are final, and the *gap* behind them: the
entries from the first one removed up to the one under test. A kept entry goes to the front of the
gap, and its own place, now null, joins the gap at the end. Where nothing is kept behind an entry
to be removed, nothing moves, and the vector is as before.

The test may fault at an entry, and then the deletions made up to there remain.
-/

set_option autoImplicit false

namespace WaylandTest.Lib

variable {α ε : Type}

/-- The objects a list of owning pointers holds. -/
def contents (ps : List (Option α)) : List α := ps.filterMap id

@[simp] theorem contents_nil : contents ([] : List (Option α)) = [] := rfl

@[simp] theorem contents_some (a : α) (ps : List (Option α)) :
    contents (some a :: ps) = a :: contents ps := rfl

@[simp] theorem contents_none (ps : List (Option α)) : contents (none :: ps) = contents ps := rfl

@[simp] theorem contents_append (ps qs : List (Option α)) :
    contents (ps ++ qs) = contents ps ++ contents qs := List.filterMap_append

theorem contents_cons (p : Option α) (ps : List (Option α)) :
    contents (p :: ps) = p.toList ++ contents ps := by
  cases p <;> rfl

@[simp] theorem contents_map_some (as : List α) : contents (as.map some) = as := by
  induction as with
  | nil => rfl
  | cons a as ih => rw [List.map_cons, contents_some, ih]

theorem map_some_inj {as bs : List α} (h : as.map some = bs.map some) : as = bs := by
  rw [← contents_map_some as, h, contents_map_some]

theorem mem_contents {a : α} {ps : List (Option α)} : a ∈ contents ps ↔ some a ∈ ps := by
  constructor
  · intro h
    obtain ⟨p, hp, heq⟩ := List.mem_filterMap.mp h
    exact (show p = some a from heq) ▸ hp
  · intro h
    exact List.mem_filterMap.mpr ⟨some a, h, rfl⟩

theorem contents_filter_all (f : α → Bool) (ps : List (Option α)) :
    contents (ps.filter (·.all f)) = (contents ps).filter f := by
  induction ps with
  | nil => rfl
  | cons p ps ih =>
    cases p with
    | none => exact ih
    | some a =>
      cases ha : f a with
      | true => simp [ha, ih]
      | false => simp [ha, ih]

/-- Null entries hold nothing, picked or not. -/
theorem contents_filter (f : Option α → Bool) (ps : List (Option α)) :
    contents (ps.filter f) = (contents ps).filter fun a => f (some a) := by
  induction ps with
  | nil => rfl
  | cons p ps ih =>
    cases p with
    | none => cases hf : f none <;> simp [hf, ih]
    | some a => cases hf : f (some a) <;> simp [hf, ih]

/-- A list without null entries is the list of what it holds. -/
theorem map_some_contents {ps : List (Option α)} (h : none ∉ ps) : (contents ps).map some = ps := by
  induction ps with
  | nil => rfl
  | cons p ps ih =>
    cases p with
    | none => exact absurd List.mem_cons_self h
    | some a =>
      rw [contents_some, List.map_cons, ih fun hn => h (List.mem_cons_of_mem _ hn)]

/-- `std::remove_if` from the entry behind `gap`: the entries kept, and the rest. Its log is what
the moves delete. -/
def removeIf (test : Option α → Except ε Bool) (gap : List (Option α)) :
    List (Option α) → Exec α ε (List (Option α) × List (Option α))
  | [] => pure ([], gap)
  | p :: ps =>
    match test p with
    | .error e => Exec.fail e
    | .ok true => removeIf test (gap ++ [p]) ps
    | .ok false =>
      match gap with
      | [] => removeIf test [] ps >>= fun r => pure (p :: r.1, r.2)
      | g :: gs =>
        Exec.log g.toList >>= fun _ =>
          removeIf test (gs ++ [none]) ps >>= fun r => pure (p :: r.1, r.2)

section Step

variable {test : Option α → Except ε Bool} {p g : Option α} {gap gs ps : List (Option α)}

theorem removeIf_fault {e : ε} (h : test p = .error e) :
    removeIf test gap (p :: ps) = Exec.fail e := by
  simp only [removeIf, h]

theorem removeIf_removed (h : test p = .ok true) :
    removeIf test gap (p :: ps) = removeIf test (gap ++ [p]) ps := by
  simp only [removeIf, h]

theorem removeIf_kept (h : test p = .ok false) :
    removeIf test [] (p :: ps) = removeIf test [] ps >>= fun r => pure (p :: r.1, r.2) := by
  simp only [removeIf, h]

theorem removeIf_moved (h : test p = .ok false) :
    removeIf test (g :: gs) (p :: ps) =
      Exec.log g.toList >>= fun _ =>
        removeIf test (gs ++ [none]) ps >>= fun r => pure (p :: r.1, r.2) := by
  simp only [removeIf, h]

end Step

/-- What is deleted was held, and is deleted in the order in which it was held. -/
theorem removeIf_calls (test : Option α → Except ε Bool) (gap ps : List (Option α)) :
    (removeIf test gap ps).calls.Sublist (contents gap ++ contents ps) := by
  induction ps generalizing gap with
  | nil => exact List.nil_sublist _
  | cons p ps ih =>
    have htail : (contents ps).Sublist (contents (p :: ps)) :=
      (List.sublist_cons_self p ps).filterMap id
    rcases ht : test p with e | removed
    · rw [removeIf_fault ht]
      exact List.nil_sublist _
    · cases removed with
      | true =>
        have h := ih (gap ++ [p])
        rw [contents_append, List.append_assoc, ← contents_append, List.singleton_append] at h
        rw [removeIf_removed ht]
        exact h
      | false =>
        cases gap with
        | nil =>
          rw [removeIf_kept ht, Exec.calls_bind_pure]
          exact (ih []).trans htail
        | cons g gs =>
          have h := ih (gs ++ [none])
          rw [contents_append, contents_none, contents_nil, List.append_nil] at h
          rw [removeIf_moved ht, Exec.calls_log_bind, Exec.calls_bind_pure, contents_cons,
            List.append_assoc]
          exact (List.Sublist.refl _).append (h.trans ((List.Sublist.refl _).append htail))

/-- `remove_if` tests every entry: where it completes, no test faults. -/
theorem removeIf_tests {test : Option α → Except ε Bool} {gap ps : List (Option α)}
    {r : List (Option α) × List (Option α)} (h : (removeIf test gap ps).result = .ok r) :
    ∀ p ∈ ps, ∃ b, test p = .ok b := by
  induction ps generalizing gap r with
  | nil =>
    intro p hp
    cases hp
  | cons p ps ih =>
    have hboth : (∃ b, test p = .ok b) ∧ ∀ p ∈ ps, ∃ b, test p = .ok b := by
      rcases ht : test p with e | removed
      · rw [removeIf_fault ht] at h
        cases h
      · refine ⟨⟨removed, rfl⟩, ?_⟩
        cases removed with
        | true =>
          rw [removeIf_removed ht] at h
          exact ih h
        | false =>
          cases gap with
          | nil =>
            rw [removeIf_kept ht] at h
            obtain ⟨_, hmore, -⟩ := Exec.result_bind_ok.mp h
            exact ih hmore
          | cons g gs =>
            rw [removeIf_moved ht] at h
            obtain ⟨_, -, h⟩ := Exec.result_bind_ok.mp h
            obtain ⟨_, hmore, -⟩ := Exec.result_bind_ok.mp h
            exact ih hmore
    intro p' hp'
    rcases List.mem_cons.mp hp' with rfl | hp'
    · exact hboth.1
    · exact hboth.2 p' hp'

section Total

variable {test : Option α → Except ε Bool} {q : Option α → Bool} {gap ps : List (Option α)}

/-- **Where the test does not fault**, the entries that fail it are kept, and what the others held
was deleted or is in the rest. -/
theorem removeIf_total (ht : ∀ p ∈ ps, test p = .ok (q p)) :
    ∃ deleted rest, removeIf test gap ps = ⟨deleted, .ok (ps.filter (!q ·), rest)⟩ ∧
      deleted ++ contents rest = contents gap ++ contents (ps.filter q) := by
  induction ps generalizing gap with
  | nil => exact ⟨[], gap, rfl, by simp⟩
  | cons p ps ih =>
    have hp := ht p List.mem_cons_self
    have htail : ∀ p ∈ ps, test p = .ok (q p) := fun x hx => ht x (List.mem_cons_of_mem p hx)
    cases hq : q p with
    | true =>
      rw [hq] at hp
      obtain ⟨deleted, rest, hr, hc⟩ := @ih (gap ++ [p]) htail
      refine ⟨deleted, rest, ?_, ?_⟩
      · rw [removeIf_removed hp, hr, List.filter_cons_of_neg (by simp [hq])]
      · rw [hc, contents_append, List.append_assoc, ← contents_append, List.filter_cons_of_pos hq,
          List.singleton_append]
    | false =>
      rw [hq] at hp
      have hkept : (p :: ps).filter (!q ·) = p :: ps.filter (!q ·) :=
        List.filter_cons_of_pos (by simp [hq])
      have hrest : (p :: ps).filter q = ps.filter q := List.filter_cons_of_neg (by simp [hq])
      rw [hkept, hrest]
      cases gap with
      | nil =>
        obtain ⟨deleted, rest, hr, hc⟩ := @ih [] htail
        refine ⟨deleted, rest, ?_, hc⟩
        rw [removeIf_kept hp, hr, Exec.ok_bind]
        simp only [Exec.pure_def, List.append_nil]
      | cons g gs =>
        obtain ⟨deleted, rest, hr, hc⟩ := @ih (gs ++ [none]) htail
        rw [contents_append, contents_none, contents_nil, List.append_nil] at hc
        refine ⟨g.toList ++ deleted, rest, ?_, ?_⟩
        · rw [removeIf_moved hp, hr, Exec.ok_bind]
          simp only [Exec.log, Exec.ok_bind, Exec.pure_def, List.append_nil]
        · rw [List.append_assoc, hc, contents_cons g, List.append_assoc]

/-- Every entry behind an entry to be removed is to be removed too. -/
def RemovedLast (q : Option α → Bool) (ps : List (Option α)) : Prop :=
  ps.Pairwise fun p p' => q p = true → q p' = true

instance (q : Option α → Bool) (ps : List (Option α)) : Decidable (RemovedLast q ps) :=
  inferInstanceAs (Decidable (ps.Pairwise _))

/-- Of fewer entries, too, the ones to be removed are the last ones. -/
theorem RemovedLast.filter (h : RemovedLast q ps) (p : Option α → Bool) :
    RemovedLast q (ps.filter p) :=
  List.Pairwise.filter p h

theorem filter_removed (h : ∀ p ∈ ps, q p = true) :
    ps.filter (!q ·) = [] ∧ ps.filter q = ps :=
  ⟨List.filter_eq_nil_iff.mpr fun p hp => by simp [h p hp], List.filter_eq_self.mpr h⟩

/-- Where the entries to be removed are the last ones, the vector is the kept ones and then
them. -/
theorem RemovedLast.filter_append (h : RemovedLast q ps) :
    ps.filter (!q ·) ++ ps.filter q = ps := by
  induction ps with
  | nil => rfl
  | cons p ps ih =>
    obtain ⟨hp, hlast⟩ := List.pairwise_cons.mp h
    cases hq : q p with
    | true =>
      obtain ⟨hkept, hrest⟩ := filter_removed fun p' hp' => hp p' hp' hq
      rw [List.filter_cons_of_neg (by simp [hq]), List.filter_cons_of_pos hq, hkept, hrest,
        List.nil_append]
    | false =>
      rw [List.filter_cons_of_pos (by simp [hq]), List.filter_cons_of_neg (by simp [hq]),
        List.cons_append, ih hlast]

/-- Entries to be removed, one after the other, join the gap. -/
theorem removeIf_all (ht : ∀ p ∈ ps, test p = .ok true) :
    removeIf test gap ps = ⟨[], .ok ([], gap ++ ps)⟩ := by
  induction ps generalizing gap with
  | nil => rw [List.append_nil]; rfl
  | cons p ps ih =>
    have htail : ∀ p ∈ ps, test p = .ok true := fun x hx => ht x (List.mem_cons_of_mem p hx)
    rw [removeIf_removed (ht p List.mem_cons_self), ih htail, List.append_assoc,
      List.singleton_append]

/-- **Nothing moves** where the entries to be removed are the last ones. -/
theorem removeIf_last (ht : ∀ p ∈ ps, test p = .ok (q p)) (h : RemovedLast q ps) :
    removeIf test [] ps = ⟨[], .ok (ps.filter (!q ·), ps.filter q)⟩ := by
  induction ps with
  | nil => rfl
  | cons p ps ih =>
    obtain ⟨hp, hlast⟩ := List.pairwise_cons.mp h
    have htest := ht p List.mem_cons_self
    have htail : ∀ p ∈ ps, test p = .ok (q p) := fun x hx => ht x (List.mem_cons_of_mem p hx)
    cases hq : q p with
    | true =>
      rw [hq] at htest
      have hall : ∀ p' ∈ ps, q p' = true := fun p' hp' => hp p' hp' hq
      obtain ⟨hkept, hrest⟩ := filter_removed hall
      have htests : ∀ p' ∈ ps, test p' = .ok true := fun p' hp' => by rw [htail p' hp', hall p' hp']
      rw [removeIf_removed htest, removeIf_all htests, List.filter_cons_of_neg (by simp [hq]),
        List.filter_cons_of_pos hq, hkept, hrest]
      rfl
    | false =>
      rw [hq] at htest
      rw [removeIf_kept htest, ih htail hlast, List.filter_cons_of_pos (by simp [hq]),
        List.filter_cons_of_neg (by simp [hq])]
      rfl

/-- Once there is a null entry in the gap, there is one in the rest. -/
theorem none_mem_rest {deleted : List α} {kept rest : List (Option α)} (hn : none ∈ gap)
    (h : removeIf test gap ps = ⟨deleted, .ok (kept, rest)⟩) : none ∈ rest := by
  induction ps generalizing gap deleted kept rest with
  | nil =>
    cases h
    exact hn
  | cons p ps ih =>
    rcases ht : test p with e | removed
    · rw [removeIf_fault ht] at h
      cases h
    · cases removed with
      | true =>
        rw [removeIf_removed ht] at h
        exact ih (List.mem_append_left _ hn) h
      | false =>
        cases gap with
        | nil => cases hn
        | cons g gs =>
          rw [removeIf_moved ht] at h
          obtain ⟨_, hmove, rfl⟩ := Exec.log_bind_eq_ok.mp h
          obtain ⟨_, ⟨kept', rest'⟩, _, hmore, hret, rfl⟩ := Exec.bind_eq_ok.mp hmove
          cases hret
          exact ih (List.mem_append_right _ List.mem_cons_self) hmore

/-- The first entry kept behind a gap leaves a null entry there. -/
theorem none_mem_rest_of_kept {deleted : List α} {kept rest : List (Option α)} (hgap : gap ≠ [])
    (hkept : ∃ p ∈ ps, test p = .ok false)
    (h : removeIf test gap ps = ⟨deleted, .ok (kept, rest)⟩) : none ∈ rest := by
  induction ps generalizing gap with
  | nil =>
    obtain ⟨p, hp, -⟩ := hkept
    cases hp
  | cons p ps ih =>
    rcases ht : test p with e | removed
    · rw [removeIf_fault ht] at h
      cases h
    · cases removed with
      | true =>
        rw [removeIf_removed ht] at h
        refine ih (by simp) ?_ h
        obtain ⟨p', hp', htest⟩ := hkept
        rcases List.mem_cons.mp hp' with rfl | hp'
        · rw [ht] at htest
          cases htest
        · exact ⟨p', hp', htest⟩
      | false =>
        cases gap with
        | nil => exact absurd rfl hgap
        | cons g gs =>
          rw [removeIf_moved ht] at h
          obtain ⟨_, hmove, rfl⟩ := Exec.log_bind_eq_ok.mp h
          obtain ⟨_, ⟨kept', rest'⟩, _, hmore, hret, rfl⟩ := Exec.bind_eq_ok.mp hmove
          cases hret
          exact none_mem_rest (List.mem_append_right _ List.mem_cons_self) hmore

/-- **A move leaves null behind**: where an entry is kept behind one to be removed, the rest has a
null entry. -/
theorem none_mem_rest_of_not_last {deleted : List α} {kept rest : List (Option α)}
    (ht : ∀ p ∈ ps, test p = .ok (q p)) (hlast : ¬ RemovedLast q ps)
    (h : removeIf test [] ps = ⟨deleted, .ok (kept, rest)⟩) : none ∈ rest := by
  induction ps generalizing deleted kept rest with
  | nil => exact absurd List.Pairwise.nil hlast
  | cons p ps ih =>
    have htest := ht p List.mem_cons_self
    have htail : ∀ p ∈ ps, test p = .ok (q p) := fun x hx => ht x (List.mem_cons_of_mem p hx)
    cases hq : q p with
    | true =>
      rw [hq] at htest
      rw [removeIf_removed htest] at h
      refine none_mem_rest_of_kept (by simp) ?_ h
      by_contra hno
      have hall : ∀ p' ∈ ps, q p' = true := by
        intro p' hp'
        by_contra hne
        exact hno ⟨p', hp', by rw [htail p' hp', Bool.eq_false_iff.mpr hne]⟩
      refine hlast (List.pairwise_cons.mpr ⟨fun p' hp' _ => hall p' hp', ?_⟩)
      exact List.pairwise_of_forall_mem_list fun p' _ p'' hp'' _ => hall p'' hp''
    | false =>
      rw [hq] at htest
      rw [removeIf_kept htest] at h
      obtain ⟨_, ⟨kept', rest'⟩, _, hmore, hret, rfl⟩ := Exec.bind_eq_ok.mp h
      cases hret
      refine ih htail (fun hl => hlast (List.pairwise_cons.mpr ⟨fun p' _ hp => ?_, hl⟩)) hmore
      rw [hq] at hp
      cases hp

end Total

end WaylandTest.Lib
