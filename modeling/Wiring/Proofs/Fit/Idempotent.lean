import Wiring.Proofs.Fit.Halting
import Wiring.Proofs.Fit.Solution
import Wiring.Proofs.Types.Plain

namespace Wiring.Fit

open Ty Catalog UnionFind

variable {K : Catalog} {statics vars : List Classifier} {m m' : Substitution} {c r t : Ty}
  {rank : String → Nat} {gap rounds : Nat}

theorem Exhausted.substitute_value (h : Exhausted m) {p : Classifier} (hp : m.get? p = some t) :
    t.substitute m = t :=
  substitute_eq_self (h p t hp)

/-- What a substitution has been applied to it leaves as it is. -/
theorem Exhausted.substitute_substitute (h : Exhausted m) (t : Ty) :
    (t.substitute m).substitute m = t.substitute m := by
  refine substitute_eq_self fun d hd => ?_
  rcases arises_of_mentions_substitute ⟨d, hd, rfl⟩ with ⟨_, hnone⟩ | ⟨e, v, _, he, f, hf, hfd⟩
  · rwa [m.get_congr (c := ⟨d.key, 0⟩) (d := d) rfl] at hnone
  · rw [← m.get_congr hfd]
    exact h e v he f hf

theorem get_of_mem_bindings {p : Classifier} (h : (p, t) ∈ m.bindings) : m.get? p = some t := by
  have hsorted := m.sorted
  simp only [Substitution.get?]
  generalize m.bindings = bs at h hsorted
  induction bs with
  | nil => cases h
  | cons x bs ih =>
    obtain ⟨hx, hbs⟩ := List.pairwise_cons.1 hsorted
    rw [Substitution.lookup_bindings]
    rcases List.mem_cons.1 h with rfl | h
    · exact if_pos BEq.rfl
    · -- the keys before are smaller
      rw [if_neg, ih h hbs]
      intro he
      have hlt : x.1.key < p.key := hx _ h
      rw [Classifier.beq_iff_key_eq.1 he] at hlt
      exact String.lt_irrefl _ hlt

/-- Closing has come to its end. -/
theorem Exhausted.round (h : Exhausted m) : m.map (·.substitute m) = m := by
  apply Substitution.eq_of_bindings
  calc m.bindings.map (fun b => (b.1, b.2.substitute m))
      = m.bindings.map id := List.map_congr_left fun b hb => by
        rw [h.substitute_value (get_of_mem_bindings (p := b.1) (t := b.2) hb)]
        rfl
    _ = m.bindings := List.map_id _

theorem Exhausted.close_eq (h : Exhausted m) (rounds : Nat) : close rounds m = m := by
  cases rounds with
  | zero => rfl
  | succ rounds => rw [close, h.round, if_pos BEq.rfl]

theorem Descends.of_beq (hd : Descends rank gap m) (h : (m == m') = true) :
    Descends rank gap m' := by
  intro c t hc d hmen hd'
  have hbound : (m.get? d).isSome = true := by
    have hrel := get_beq h d
    revert hrel hd'
    generalize m.get? d = x
    generalize m'.get? d = y
    rintro hd' (_ | _)
    · rfl
    · exact hd'
  have hrel := get_beq h c
  rw [hc] at hrel
  generalize hs : m.get? c = s at hrel
  cases hrel with
  | some hst => exact hd c _ hs d (hmen.of_beq (BEq.symm hst)) hbound

/-- If a round changes nothing, values mention only what is lower by as much as one likes. -/
theorem Descends.of_fixpoint (hd : Descends rank gap m)
    (h : (m.map (·.substitute m) == m) = true) (n : Nat) : Descends rank (gap + n) m := by
  induction n with
  | zero => exact hd
  | succ n ih => exact (descends_round ih).of_beq h

/-- As many rounds as ranks are enough. -/
theorem exhausted_close (hd : Descends rank gap m) (hb : ∀ k, rank k ≤ gap + rounds) :
    Exhausted (close rounds m) := by
  induction rounds generalizing m gap with
  | zero => exact hd.exhausted hb
  | succ rounds ih =>
    rw [close]
    split
    · next hsame => exact (hd.of_fixpoint hsame (rounds + 1)).exhausted hb
    · exact ih (descends_round hd) fun k => by
        have := hb k
        omega

/-- Closing binds nothing new. -/
theorem contains_close (rounds : Nat) (m : Substitution) (c : Classifier) :
    (close rounds m).contains c = m.contains c := by
  induction rounds generalizing m with
  | zero => rfl
  | succ rounds ih =>
    rw [close]
    split
    · rfl
    · rw [ih, Substitution.contains, get_round, Option.isSome_map, Substitution.contains]

/-- The substitution of a fit binds open type parameters of the two types. None of these is mentioned
by a value, so closing has come to its end, and to apply the substitution again changes nothing. -/
theorem fit_solved
    (hK : ∀ c d : Classifier, c.key = d.key → K.isTypeParameter c = K.isTypeParameter d)
    (h : K.fit statics c r = .ok m) :
    (∀ p, m.contains p = true → K.isTypeParameter p = true ∧ statics.contains p = false ∧
      ∃ q, (q ∈ K.parametersIn c ∨ q ∈ K.parametersIn r) ∧ q.key = p.key) ∧
    (∀ p t, m.get? p = some t → ∀ d ∈ t.classifiers, m.contains d = false) ∧
    m.map (·.substitute m) = m ∧
    ∀ t : Ty, (t.substitute m).substitute m = t.substitute m := by
  obtain ⟨depth, b, hwalk, hsolution⟩ := exists_walk_of_fit h
  obtain ⟨rfl, _⟩ := of_checkBounds hsolution
  have hb := triangular_start.walk hwalk
  have hfree := free_variablesOf_of_flags hK statics c r
  have hexhausted := exhausted_close (descends_readOff hb hfree) (height_le K _ b)
  refine ⟨fun p hp => ?_, fun p t hp d hd => ?_, hexhausted.round,
    hexhausted.substitute_substitute⟩
  · rw [contains_close] at hp
    obtain ⟨t, ht⟩ := Option.isSome_iff_exists.1 hp
    obtain ⟨v, hv, hk, _⟩ := of_get_readOff ht
    obtain ⟨hmem, hparam, hstatic⟩ := of_mem_variablesOf hv
    exact ⟨hK v p hk ▸ hparam, contains_congr hk ▸ hstatic, v, hmem, hk⟩
  · rw [Substitution.contains, hexhausted p t hp d hd]
    rfl

/-- A box of `T` fits a box of integers, with `T` bound to what mentions no parameter. -/
theorem box_solved : ∃ m, shelf.fit [] (box "T") (box "Int") = .ok m ∧
    m.get? ⟨"T", 0⟩ = some (.of ⟨"Int", 0⟩) ∧ m.map (·.substitute m) = m := by
  have h : shelf.fit [] (box "T") (box "Int") = .ok (.ofList [(⟨"T", 0⟩, .of ⟨"Int", 0⟩)]) :=
    Eq.refl _
  have hsolved := fit_solved (fun _ _ => orderly_shelf.coherent.isTypeParameter_eq) h
  exact ⟨_, h, rfl, hsolved.2.2.1⟩

def namesakes : Catalog where
  entries := [
    ("E", [{ flags := { typeParameter := true } }]),
    ("List", [{ typeParameters := [⟨"E", 0⟩] }]),
    ("T", [{ flags := { typeParameter := true } }, {}])]

def listOf (t : Ty) : Ty :=
  { head := .named ⟨"List", 0⟩, arguments := [t] }

/-- Where a parameter and a class have one key, a parameter is bound to what mentions its key: the occurs
check looks for parameters only, but substitution does not tell them from classes. -/
theorem namesakes_unsolved : ∃ m t,
    namesakes.fit [] (.of ⟨"T", 0⟩) (listOf (.of ⟨"T", 1⟩)) = .ok m ∧
      m.get? ⟨"T", 0⟩ = some t ∧ (∃ d ∈ t.classifiers, m.contains d = true) ∧
      m.map (·.substitute m) ≠ m ∧ (t.substitute m).substitute m ≠ t.substitute m := by
  refine ⟨.ofList [(⟨"T", 0⟩, listOf (listOf (listOf (listOf (.of ⟨"T", 1⟩)))))], _, rfl, rfl,
    ⟨⟨"T", 1⟩, ?_, rfl⟩, fun h => ?_, fun h => ?_⟩
  · simp [listOf, Ty.of, classifiers, allClassifiers]
  · have hsize := congrArg (fun m : Substitution => (m.bindings.map fun b => b.2.size).sum) h
    revert hsize
    decide
  · have hsize := congrArg Ty.size h
    revert hsize
    decide

end Wiring.Fit
