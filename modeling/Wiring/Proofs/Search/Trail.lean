import Mathlib.Algebra.Order.BigOperators.Group.Finset
import Mathlib.Data.Finset.Powerset
import Mathlib.Data.Finset.Prod
import Mathlib.Order.WellFounded

namespace Wiring.Trail

variable {κ : Type} [DecidableEq κ] {marks : Finset κ} {trail longer : List (κ × Nat)} {k l : κ} {n : Nat}

structure Prolongs (marks : Finset κ) (longer trail : List (κ × Nat)) : Prop where
  -- `longer` is `trail` with one more mark in front, smaller than each time it is there already.
  step : ∃ k n, longer = (k, n) :: trail ∧ k ∈ marks ∧ ∀ m, (k, m) ∈ trail → n < m

def fresh (marks : Finset κ) (trail : List (κ × Nat)) : Finset κ :=
  marks.filter fun k => k ∉ trail.map Prod.fst

def latest (trail : List (κ × Nat)) (k : κ) : Nat :=
  ((trail.find? fun e => e.1 = k).map Prod.snd).getD 0

def total (marks : Finset κ) (trail : List (κ × Nat)) : Nat :=
  ∑ k ∈ marks, latest trail k

theorem latest_cons_self (trail : List (κ × Nat)) (k : κ) (n : Nat) :
    latest ((k, n) :: trail) k = n := by
  simp [latest]

theorem latest_cons_of_ne (h : l ≠ k) : latest ((k, n) :: trail) l = latest trail l := by
  have hkl : ¬ k = l := fun he => h he.symm
  simp [latest, hkl]

theorem latest_mem (h : k ∈ trail.map Prod.fst) : (k, latest trail k) ∈ trail := by
  obtain ⟨e, he, hk⟩ := List.mem_map.1 h
  cases hf : trail.find? fun e => e.1 = k with
  | none =>
    have hno := List.find?_eq_none.1 hf e he
    simp [hk] at hno
  | some f =>
    have hfk : f.1 = k := by simpa using List.find?_some hf
    have hlatest : latest trail k = f.2 := by simp [latest, hf]
    rw [hlatest, ← hfk]
    exact List.mem_of_find?_eq_some hf

/-- A new mark is one less that is missing. -/
theorem fresh_card_lt (hk : k ∈ marks) (hnew : k ∉ trail.map Prod.fst) :
    (fresh marks ((k, n) :: trail)).card < (fresh marks trail).card := by
  apply Finset.card_lt_card
  rw [Finset.ssubset_iff_of_subset]
  · refine ⟨k, Finset.mem_filter.2 ⟨hk, hnew⟩, ?_⟩
    intro hmem
    exact (Finset.mem_filter.1 hmem).2 (by simp)
  · intro l hl
    obtain ⟨hl, hno⟩ := Finset.mem_filter.1 hl
    refine Finset.mem_filter.2 ⟨hl, fun hmem => hno ?_⟩
    exact List.mem_cons_of_mem k hmem

/-- A mark that is there already leaves the missing ones as they are. -/
theorem fresh_cons_of_mem (hold : k ∈ trail.map Prod.fst) :
    fresh marks ((k, n) :: trail) = fresh marks trail := by
  ext l
  simp only [fresh, Finset.mem_filter, List.map_cons, List.mem_cons, not_or]
  constructor
  · rintro ⟨hl, _, hno⟩
    exact ⟨hl, hno⟩
  · rintro ⟨hl, hno⟩
    refine ⟨hl, ?_, hno⟩
    rintro rfl
    exact hno hold

/-- The sizes of the other marks stay the same. -/
theorem total_lt (hk : k ∈ marks) (hn : n < latest trail k) :
    total marks ((k, n) :: trail) < total marks trail := by
  apply Finset.sum_lt_sum
  · intro l _
    by_cases h : l = k
    · subst h
      rw [latest_cons_self]
      exact hn.le
    · exact (latest_cons_of_ne h).le
  · refine ⟨k, hk, ?_⟩
    rw [latest_cons_self]
    exact hn

/-- No trail over finitely many marks is prolonged for ever: each time there is either one mark less
that is missing, or one of the marks gets a smaller size and the others keep theirs. -/
theorem prolongs_wf (marks : Finset κ) : WellFounded (Prolongs marks) := by
  let measure : List (κ × Nat) → Nat × Nat := fun trail => ((fresh marks trail).card, total marks trail)
  have hwf : WellFounded (InvImage (Prod.Lex (· < ·) (· < ·)) measure) :=
    InvImage.wf measure (WellFounded.prod_lex wellFounded_lt wellFounded_lt)
  refine Subrelation.wf ?_ hwf
  rintro longer trail ⟨k, n, rfl, hk, hsmaller⟩
  by_cases hold : k ∈ trail.map Prod.fst
  · have hfresh : (fresh marks ((k, n) :: trail)).card = (fresh marks trail).card := by
      rw [fresh_cons_of_mem hold]
    have htotal := total_lt hk (hsmaller _ (latest_mem hold))
    show Prod.Lex (· < ·) (· < ·) ((fresh marks ((k, n) :: trail)).card, _) (_, _)
    rw [hfresh]
    exact Prod.Lex.right _ htotal
  · exact Prod.Lex.left _ _ (fresh_card_lt hk hold)

end Wiring.Trail
