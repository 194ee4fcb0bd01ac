import Wiring.Proofs.Types.Keyless

namespace Wiring.Catalog

open Ty

variable {K : Catalog} {t u s : Ty} {c goal : Classifier} {visited : List Classifier}
  {level : List Ty} {fuel : Nat}

/-- A catalog of types in their stored form, in which no classifier is above itself and none is
directly below one of its own parameters. -/
structure Ascending (K : Catalog) : Prop where
  coherent : K.Coherent
  canonical : K.DeclaresCanonical
  proper : K.Proper
  acyclic : ∀ k, ¬ Relation.TransGen K.Inherits k k

theorem Hierarchy.ascending (hK : K.Hierarchy) : K.Ascending where
  coherent := hK.coherent
  canonical c s hs := canonical_of_wellFormed (hK.wellFormed c s hs)
  proper := hK.proper
  acyclic := hK.acyclic

theorem Ascending.canonical_supertypes (hK : K.Ascending) (ht : Canonical t) :
    ∀ s ∈ K.supertypes t, Canonical s :=
  (canonical_of_forall₂_kin (supertypes_kin hK.coherent hK.canonical (Kin.refl ht))).1

theorem Ascending.canonical_view (hK : K.Ascending) (ht : Canonical t)
    (hu : K.view? t c = some u) : Canonical u :=
  (of_view (fun _ ht => hK.canonical_supertypes ht) ht hu).1

/-- One step up, from a type to one of its direct supertypes. -/
def Climbs (K : Catalog) (t s : Ty) : Prop :=
  s ∈ K.supertypes t

/-- What a type has as a view is reached from it by going up. -/
theorem climbs_of_view (h : K.view? t c = some u) :
    Relation.ReflTransGen K.Climbs t u ∧ u.key = c.key :=
  of_view (P := Relation.ReflTransGen K.Climbs t) (fun _ hu _ hs => hu.tail hs)
    Relation.ReflTransGen.refl h

/-! ### Levels -/

theorem not_visited_of_mem_unvisited (h : s ∈ unvisited visited level) :
    visited.contains s.classifier = false := by
  induction level generalizing visited with
  | nil => cases h
  | cons t level ih =>
    rw [unvisited] at h
    split at h
    · exact ih h
    · next ht =>
      rcases List.mem_cons.1 h with rfl | h
      · exact Bool.eq_false_iff.2 ht
      · have hs := ih h
        rw [List.contains_cons, Bool.or_eq_false_iff] at hs
        exact hs.2

/-- Of each classifier that has not been visited one type is kept. -/
theorem exists_mem_unvisited (hs : s ∈ level) (hfresh : visited.contains s.classifier = false) :
    ∃ u ∈ unvisited visited level, u.key = s.key := by
  induction level generalizing visited with
  | nil => cases hs
  | cons t level ih =>
    rw [unvisited]
    rcases List.mem_cons.1 hs with rfl | hs
    · rw [if_neg (Bool.eq_false_iff.1 hfresh)]
      exact ⟨s, List.mem_cons_self .., rfl⟩
    · split
      · exact ih hs hfresh
      · cases hst : s.classifier == t.classifier with
        | true => exact ⟨t, List.mem_cons_self .., (Classifier.beq_iff_key_eq.1 hst).symm⟩
        | false =>
          obtain ⟨u, hu, hk⟩ : ∃ u ∈ unvisited (t.classifier :: visited) level, u.key = s.key :=
            ih hs (by rw [List.contains_cons, hst, hfresh, Bool.or_self])
          exact ⟨u, List.mem_cons_of_mem t hu, hk⟩

theorem contains_classifiers_iff : (level.map Ty.classifier ++ visited).contains c = true ↔
    (∃ u ∈ level, u.key = c.key) ∨ visited.contains c = true := by
  induction level with
  | nil => simp
  | cons t level ih =>
    rw [List.map_cons, List.cons_append, List.contains_cons, Bool.or_eq_true_iff, ih,
      Classifier.beq_iff_key_eq, List.exists_mem_cons_iff, or_assoc]
    exact or_congr_left eq_comm

def unseen (K : Catalog) (visited : List Classifier) : List (String × List Entry) :=
  K.entries.filter fun e => !visited.contains ⟨e.1, 0⟩

/-- A type with supertypes is in the catalog, so a first visit to its classifier leaves fewer entries.
-/
theorem length_unseen_lt {next : List Ty} (hs : s ∈ K.supertypes t)
    (hfresh : visited.contains t.classifier = false) (hnext : ∃ u ∈ next, u.key = t.key) :
    (K.unseen (next.map Ty.classifier ++ visited)).length < (K.unseen visited).length := by
  obtain ⟨d, hd, -⟩ := exists_declared hs
  obtain ⟨e, he, hk, -⟩ := mem_entries_of_declared hd
  have hentry : ∀ cs : List Classifier, cs.contains ⟨e.1, 0⟩ = cs.contains t.classifier :=
    fun cs => contains_congr hk
  have hsub : (K.unseen (next.map Ty.classifier ++ visited)).Sublist (K.unseen visited) := by
    apply List.monotone_filter_right
    intro x hx
    rw [List.contains_append, Bool.not_or, Bool.and_eq_true] at hx
    exact hx.2
  refine Nat.lt_of_le_of_ne hsub.length_le fun heq => ?_
  have hmem : e ∈ K.unseen (next.map Ty.classifier ++ visited) := by
    rw [hsub.eq_of_length heq]
    refine List.mem_filter.2 ⟨he, ?_⟩
    rw [hentry, hfresh]
    rfl
  have hleft := (List.mem_filter.1 hmem).2
  rw [hentry, contains_classifiers_iff.2 (Or.inl hnext)] at hleft
  cases hleft

theorem searchAbove_of_no_supertypes (goal : Classifier) (fuel : Nat)
    (h : level.flatMap K.supertypes = []) : K.searchAbove goal fuel visited level = none := by
  cases fuel with
  | zero => rfl
  | succ fuel =>
    rw [searchAbove, h]
    rfl

/-- Cyclic inheritance or not, a search that may see every entry once ends before its fuel does: more
of it changes nothing. -/
theorem searchAbove_eq (goal : Classifier) {fuel fuel' : Nat}
    (h : (K.unseen visited).length < fuel) (h' : (K.unseen visited).length < fuel') :
    K.searchAbove goal fuel visited level = K.searchAbove goal fuel' visited level := by
  induction fuel generalizing fuel' visited level with
  | zero => exact absurd h (Nat.not_lt_zero _)
  | succ fuel ih =>
    obtain ⟨fuel', rfl⟩ := Nat.exists_eq_add_one_of_ne_zero (Nat.ne_zero_of_lt h')
    simp only [searchAbove]
    split
    · rfl
    · split
      · rfl
      · generalize hnext : unvisited visited (level.flatMap K.supertypes) = next
        by_cases habove : next.flatMap K.supertypes = []
        · rw [searchAbove_of_no_supertypes goal fuel habove,
            searchAbove_of_no_supertypes goal fuel' habove]
        · -- a type with supertypes is seen for the first time
          obtain ⟨s, hs⟩ := List.exists_mem_of_ne_nil _ habove
          obtain ⟨t, ht, hst⟩ := List.mem_flatMap.1 hs
          have hlt := length_unseen_lt hst (not_visited_of_mem_unvisited (hnext ▸ ht)) ⟨t, ht, rfl⟩
          have hrest : K.searchAbove goal fuel (next.map Ty.classifier ++ visited) next =
              K.searchAbove goal fuel' (next.map Ty.classifier ++ visited) next :=
            ih (by omega) (by omega)
          rw [hrest]

/-! ### What is found -/

/-- Types with the same classifier are below types with the same classifiers. -/
theorem exists_supertype_of_key_eq (hC : K.Coherent) (hP : K.Proper) (hs : t.isStar = u.isStar)
    (hk : t.key = u.key) : ∀ x ∈ K.supertypes t, ∃ y ∈ K.supertypes u, y.key = x.key := by
  intro x hx
  cases hstar : t.isStar with
  | true =>
    rw [supertypes_of_isStar hstar] at hx
    cases hx
  | false =>
    obtain ⟨d, hd, rfl⟩ := exists_declared hx
    have hd' : d ∈ K.declaredSupertypes u.classifier := hC.declaredSupertypes_eq hk ▸ hd
    refine ⟨(d.substitute (K.argumentsOf u)).above u, ?_, ?_⟩
    · rw [supertypes_eq (hs ▸ hstar)]
      exact List.mem_map_of_mem hd'
    · exact (hP.key_declared hd').trans (hP.key_declared hd).symm

/-- A way up from a visited classifier to one that has not been visited leaves those that have been
by some step. -/
theorem exists_leaving {P : Ty → Prop} (hP : ∀ t, P t → ∀ s ∈ K.supertypes t, P s) (ht : P t)
    (hup : Relation.ReflTransGen K.Climbs t s) (hseen : visited.contains t.classifier = true)
    (hfresh : visited.contains s.classifier = false) : ∃ p q, P p ∧ q ∈ K.supertypes p ∧
      visited.contains p.classifier = true ∧ visited.contains q.classifier = false ∧
      Relation.ReflTransGen K.Climbs q s := by
  induction hup using Relation.ReflTransGen.head_induction_on with
  | refl => simp [hseen] at hfresh
  | @head t u htu hus ih =>
    cases hu : visited.contains u.classifier with
    | true => exact ih (hP t ht u htu) hu
    | false => exact ⟨t, u, ht, htu, hseen, hu, hus⟩

section Found

variable {P : Ty → Prop} (hP : ∀ t, P t → ∀ s ∈ K.supertypes t, P s)
  (hkeys : ∀ t u, P t → P u → t.key = u.key →
    ∀ x ∈ K.supertypes t, ∃ y ∈ K.supertypes u, y.key = x.key)

structure Expanded (K : Catalog) (P : Ty → Prop) (visited : List Classifier) (level : List Ty) :
    Prop where
  -- What a search has done so far: the types of the level are about to be expanded, and all that is
  -- directly above another visited one has been visited.
  pending : ∀ u ∈ level, P u
  closed : ∀ t, P t → visited.contains t.classifier = true →
    (∃ u ∈ level, u.key = t.key) ∨ ∀ s ∈ K.supertypes t, visited.contains s.classifier = true

include hP hkeys in
theorem Expanded.next (h : K.Expanded P visited level) :
    K.Expanded P ((unvisited visited (level.flatMap K.supertypes)).map Ty.classifier ++ visited)
      (unvisited visited (level.flatMap K.supertypes)) where
  pending u hu := by
    obtain ⟨t, ht, hu⟩ := List.mem_flatMap.1 (mem_of_mem_unvisited hu)
    exact hP t (h.pending t ht) u hu
  closed t ht hseen := by
    rcases contains_classifiers_iff.1 hseen with hnext | hseen
    · exact Or.inl hnext
    refine Or.inr fun s hs => contains_classifiers_iff.2 ?_
    rcases h.closed t ht hseen with ⟨u, hu, hk⟩ | hall
    · -- a type of the level with the same classifier stands for `t`
      obtain ⟨y, hy, hys⟩ := hkeys t u ht (h.pending u hu) hk.symm s hs
      cases hv : visited.contains y.classifier with
      | true => exact Or.inr ((contains_congr hys).symm.trans hv)
      | false =>
        obtain ⟨z, hz, hzy⟩ :=
          exists_mem_unvisited (List.mem_flatMap.2 ⟨u, hu, hy⟩) hv
        exact Or.inl ⟨z, hz, hzy.trans hys⟩
    · exact Or.inr (hall s hs)

include hP hkeys in
/-- A search finds something if a way up from where it has been leads to the goal. -/
theorem exists_found (h : K.Expanded P visited level) (hfuel : (K.unseen visited).length < fuel)
    (hgoal : visited.contains goal = false) (ht : P t)
    (hseen : visited.contains t.classifier = true) (hup : Relation.ReflTransGen K.Climbs t s)
    (hs : s.key = goal.key) : ∃ found, K.searchAbove goal fuel visited level = some found := by
  induction fuel generalizing visited level with
  | zero => omega
  | succ fuel ih =>
    rw [searchAbove]
    cases hfind : (level.flatMap K.supertypes).find? (·.classifier == goal) with
    | some found => exact ⟨_, rfl⟩
    | none =>
      dsimp only
      have hexp := h.next hP hkeys
      generalize hnext : unvisited visited (level.flatMap K.supertypes) = next at hexp ⊢
      -- the step by which the way leaves what has been visited starts on this level
      have hsgoal : visited.contains s.classifier = false := (contains_congr hs).trans hgoal
      obtain ⟨p, q, hp, hq, hpseen, hqfresh, hqs⟩ := exists_leaving hP ht hup hseen hsgoal
      obtain ⟨u, hu, hup'⟩ : ∃ u ∈ level, u.key = p.key := by
        refine (h.closed p hp hpseen).resolve_right fun hall => ?_
        rw [hall q hq] at hqfresh
        cases hqfresh
      obtain ⟨y, hy, hyq⟩ := hkeys p u hp (h.pending u hu) hup'.symm q hq
      have hyabove : y ∈ level.flatMap K.supertypes := List.mem_flatMap.2 ⟨u, hu, hy⟩
      obtain ⟨z, hz, hzy⟩ : ∃ z ∈ next, z.key = y.key :=
        hnext ▸ exists_mem_unvisited hyabove ((contains_congr hyq).trans hqfresh)
      have hne : ∀ x ∈ level.flatMap K.supertypes, x.key ≠ goal.key := fun x hx he =>
        List.find?_eq_none.1 hfind x hx (Classifier.beq_iff_key_eq.2 he)
      -- the step does not lead to the goal, so the type it leads to has supertypes
      have hfewer : (K.unseen (next.map Ty.classifier ++ visited)).length <
          (K.unseen visited).length := by
        rcases Relation.ReflTransGen.cases_head hqs with rfl | ⟨r, hr, -⟩
        · exact absurd (hyq.trans hs) (hne y hyabove)
        · exact length_unseen_lt hr hqfresh ⟨z, hz, hzy.trans hyq⟩
      have hgoal' : (next.map Ty.classifier ++ visited).contains goal = false := by
        refine Bool.eq_false_iff.2 fun hmem => ?_
        rcases contains_classifiers_iff.1 hmem with ⟨x, hx, he⟩ | hmem
        · exact hne x (mem_of_mem_unvisited (hnext.symm ▸ hx)) he
        · rw [hgoal] at hmem
          cases hmem
      obtain ⟨found, hfound⟩ := ih hexp (by omega) hgoal'
        (contains_classifiers_iff.2 (Or.inr hseen))
      have hsome : next.isEmpty = false := List.isEmpty_eq_false_iff_exists_mem.2 ⟨z, hz⟩
      rw [hsome, hfound]
      exact ⟨_, rfl⟩

include hP hkeys in
/-- A type has a view by the classifier of everything that is reached from it by going up. -/
theorem exists_view (ht : P t) (hup : Relation.ReflTransGen K.Climbs t s) (hs : s.key = goal.key) :
    ∃ view, K.view? t goal = some view := by
  unfold view? nearest?
  split
  · exact ⟨t, rfl⟩
  · next hself =>
    have hexp : K.Expanded P [t.classifier] [t] := by
      refine ⟨List.forall_mem_singleton.2 ht, fun u _ hu => Or.inl ⟨t, List.mem_singleton_self t, ?_⟩⟩
      rw [List.contains_cons, List.contains_nil, Bool.or_false] at hu
      exact (Classifier.beq_iff_key_eq.1 hu).symm
    have hgoal : [t.classifier].contains goal = false := by
      rw [List.contains_cons, List.contains_nil, Bool.or_false]
      exact Bool.eq_false_iff.2 fun he => hself (BEq.symm he)
    have hle : (K.unseen [t.classifier]).length ≤ K.entries.length := List.length_filter_le _ _
    obtain ⟨found, hfound⟩ :
        ∃ found, K.searchAbove goal (K.entries.length + 2) [t.classifier] [t] = some found :=
      exists_found hP hkeys hexp (by omega) hgoal ht (by simp) hup hs
    rw [hfound]
    exact ⟨_, rfl⟩

end Found

end Wiring.Catalog
