import Mathlib.Order.Bounds.Basic
import Wiring.Proofs.Types.Descent

/-!
The search visits one type of each classifier, on the first level where it stands. As equal keys mean
equal data, the classifiers above any other type of that classifier stand above this one too, and no
farther away.
-/
namespace Wiring.Catalog

open Ty

variable {K : Catalog} {t u s : Ty} {goal : Classifier} {visited : List Classifier}
  {level : List Ty} {n d fuel : Nat}

def data (K : Catalog) : Head → Entry
  | .star => {}
  | .named c => K.entry c

/-- Classifiers with equal keys have equal data, the one of the star included. -/
def Univocal (K : Catalog) : Prop :=
  ∀ h g : Head, h.classifier.key = g.classifier.key → K.data h = K.data g

/-- A way up of `n` steps. -/
inductive ClimbsIn (K : Catalog) : Nat → Ty → Ty → Prop
  | refl (t : Ty) : K.ClimbsIn 0 t t
  | step {n : Nat} {t u s : Ty} : K.ClimbsIn n t u → K.Climbs u s → K.ClimbsIn (n + 1) t s

theorem ClimbsIn.climbs (h : K.ClimbsIn n t s) : Relation.ReflTransGen K.Climbs t s := by
  induction h with
  | refl t => exact Relation.ReflTransGen.refl
  | step _ hs ih => exact ih.tail hs

/-- A search that comes to an end without finding anything: on some level every type above has been
visited. -/
inductive Exhausts (K : Catalog) (goal : Classifier) : List Classifier → List Ty → Prop
  | dead {visited : List Classifier} {level : List Ty} :
    (level.flatMap K.supertypes).find? (·.classifier == goal) = none →
    unvisited visited (level.flatMap K.supertypes) = [] → K.Exhausts goal visited level
  | deeper {visited : List Classifier} {level next : List Ty} :
    (level.flatMap K.supertypes).find? (·.classifier == goal) = none →
    unvisited visited (level.flatMap K.supertypes) = next →
    K.Exhausts goal (next.map Ty.classifier ++ visited) next → K.Exhausts goal visited level

/-! ### Classifiers stand for their types -/

theorem Univocal.coherent (hK : K.Univocal) : K.Coherent :=
  fun c d h => hK (.named c) (.named d) h

/-- Types with equal keys are below types with equal keys, stars and all. -/
theorem Univocal.exists_supertype (hK : K.Univocal) (hP : K.Proper) (hk : t.key = u.key)
    (hs : s ∈ K.supertypes t) : ∃ y ∈ K.supertypes u, y.key = s.key := by
  cases ht : t.isStar with
  | true =>
    rw [supertypes_of_isStar ht] at hs
    cases hs
  | false =>
    cases hu : u.isStar with
    | false => exact exists_supertype_of_key_eq hK.coherent hP (ht.trans hu.symm) hk s hs
    | true =>
      -- a classifier with the key of the star has no supertypes
      obtain ⟨declared, hd, -⟩ := exists_declared hs
      have hdata : K.entry t.classifier = {} := by
        refine hK (.named t.classifier) .star (hk.trans ?_)
        obtain ⟨head, as, n, ts, k⟩ := u
        cases head with
        | star => rfl
        | named c => simp [isStar] at hu
      rw [declaredSupertypes, hdata] at hd
      cases hd

/-! ### Levels -/

structure Level (K : Catalog) (goal : Classifier) (t : Ty) (n : Nat) (visited : List Classifier)
    (level : List Ty) : Prop where
  -- A search for `goal` above `t` that has come to level `n`: the types of the level are `n` steps
  -- above `t`, and whatever is at most as many steps above has been visited and was not the goal.
  expanded : K.Expanded (fun _ => True) visited level
  above : ∀ u ∈ level, K.ClimbsIn n t u
  reached : ∀ m s, K.ClimbsIn m t s → m ≤ n → visited.contains s.classifier = true
  goal : visited.contains goal = false

theorem Level.start (h : t.key ≠ goal.key) : K.Level goal t 0 [t.classifier] [t] where
  expanded := by
    refine ⟨fun _ _ => trivial, fun u _ hu => Or.inl ⟨t, List.mem_singleton_self t, ?_⟩⟩
    rw [List.contains_cons, List.contains_nil, Bool.or_false] at hu
    exact (Classifier.beq_iff_key_eq.1 hu).symm
  above u hu := by
    rw [List.mem_singleton.1 hu]
    exact ClimbsIn.refl t
  reached m s hs hm := by
    obtain rfl := Nat.le_zero.1 hm
    cases hs
    simp
  goal := by
    rw [List.contains_cons, List.contains_nil, Bool.or_false]
    exact Bool.eq_false_iff.2 fun he => h (Classifier.beq_iff_key_eq.1 he).symm

/-- What is within the steps taken is not the goal. -/
theorem Level.key_ne (h : K.Level goal t n visited level) {m : Nat} (hs : K.ClimbsIn m t s)
    (hm : m ≤ n) : s.key ≠ goal.key := by
  intro he
  have hvisited := h.reached m s hs hm
  rw [contains_congr he, h.goal] at hvisited
  cases hvisited

/-- Whatever is one step farther up has been visited, or its classifier stands above the level. -/
theorem Level.step (h : K.Level goal t n visited level) (hK : K.Univocal) (hP : K.Proper)
    (hs : K.ClimbsIn (n + 1) t s) : visited.contains s.classifier = true ∨
      ∃ y ∈ level.flatMap K.supertypes, y.key = s.key := by
  cases hs with
  | @step _ _ u _ hu hs =>
    rcases h.expanded.closed u trivial (h.reached n u hu (Nat.le_refl n)) with ⟨v, hv, hk⟩ | hall
    · obtain ⟨y, hy, hys⟩ := hK.exists_supertype hP hk.symm hs
      exact Or.inr ⟨y, List.mem_flatMap.2 ⟨v, hv, hy⟩, hys⟩
    · exact Or.inl (hall s hs)

theorem Level.next (h : K.Level goal t n visited level) (hK : K.Univocal) (hP : K.Proper)
    (hnone : (level.flatMap K.supertypes).find? (·.classifier == goal) = none) :
    K.Level goal t (n + 1)
      ((unvisited visited (level.flatMap K.supertypes)).map Ty.classifier ++ visited)
      (unvisited visited (level.flatMap K.supertypes)) where
  expanded := h.expanded.next (fun _ _ _ _ => trivial)
    fun t u _ _ hk x hx => hK.exists_supertype hP hk hx
  above u hu := by
    obtain ⟨v, hv, hu⟩ := List.mem_flatMap.1 (mem_of_mem_unvisited hu)
    exact (h.above v hv).step hu
  reached m s hs hm := by
    rw [contains_classifiers_iff]
    rcases Nat.lt_succ_iff_lt_or_eq.1 (Nat.lt_succ_of_le hm) with hlt | rfl
    · exact Or.inr (h.reached m s hs (Nat.le_of_lt_succ hlt))
    · -- a way of `n + 1` steps: its last step leads from the level, or to what was there before
      cases hv : visited.contains s.classifier with
      | true => exact Or.inr rfl
      | false =>
        obtain ⟨y, hy, hys⟩ := (h.step hK hP hs).resolve_left (by simp [hv])
        obtain ⟨z, hz, hzy⟩ := exists_mem_unvisited hy ((contains_congr hys).trans hv)
        exact Or.inl ⟨z, hz, hzy.trans hys⟩
  goal := by
    refine Bool.eq_false_iff.2 fun hmem => ?_
    rcases contains_classifiers_iff.1 hmem with ⟨x, hx, he⟩ | hmem
    · exact List.find?_eq_none.1 hnone x (mem_of_mem_unvisited hx) (Classifier.beq_iff_key_eq.2 he)
    · rw [h.goal] at hmem
      cases hmem

/-- What a search finds is the end of a way up, and no shorter way leads to the goal. -/
theorem Level.found (h : K.Level goal t n visited level) (hK : K.Univocal) (hP : K.Proper)
    (hfound : K.searchAbove goal fuel visited level = some (s, d)) :
    K.ClimbsIn (n + d) t s ∧ s.key = goal.key ∧
      ∀ m u, K.ClimbsIn m t u → u.key = goal.key → n + d ≤ m := by
  -- by induction on the fuel; each round is a level further from `t`
  induction fuel generalizing n visited level d with
  | zero => cases hfound
  | succ fuel ih =>
    rw [searchAbove] at hfound
    cases hfind : (level.flatMap K.supertypes).find? (·.classifier == goal) with
    | some found =>
      rw [hfind] at hfound
      cases hfound
      obtain ⟨v, hv, hs⟩ := List.mem_flatMap.1 (List.mem_of_find?_eq_some hfind)
      have hkey := List.find?_some hfind
      refine ⟨(h.above v hv).step hs, Classifier.beq_iff_key_eq.1 hkey, fun m u hu hgoal => ?_⟩
      exact Nat.lt_of_not_le fun hm => h.key_ne hu hm hgoal
    | none =>
      rw [hfind] at hfound
      dsimp only at hfound
      split at hfound
      · cases hfound
      · obtain ⟨⟨found, more⟩, hdeeper, he⟩ := Option.map_eq_some_iff.1 hfound
        obtain ⟨rfl, rfl⟩ := Prod.mk.inj he
        have hshort := ih (h.next hK hP hfind) hdeeper
        rwa [Nat.add_right_comm, Nat.add_assoc] at hshort

/-- A search that finds nothing, and need not stop for want of levels, comes to its end. -/
theorem exhausts_of_searchAbove (hfuel : (K.unseen visited).length < fuel)
    (hnone : K.searchAbove goal fuel visited level = none) : K.Exhausts goal visited level := by
  induction fuel generalizing visited level with
  | zero => exact absurd hfuel (Nat.not_lt_zero _)
  | succ fuel ih =>
    rw [searchAbove] at hnone
    cases hfind : (level.flatMap K.supertypes).find? (·.classifier == goal) with
    | some found =>
      rw [hfind] at hnone
      cases hnone
    | none =>
      rw [hfind] at hnone
      dsimp only at hnone
      generalize hnext : unvisited visited (level.flatMap K.supertypes) = next at hnone
      split at hnone
      · next hempty => exact Exhausts.dead hfind (hnext.trans (List.isEmpty_iff.1 hempty))
      · refine Exhausts.deeper hfind hnext ?_
        -- what has supertypes is in the table: a level that is not the last leaves less unseen
        by_cases habove : next.flatMap K.supertypes = []
        · exact Exhausts.dead (by rw [habove]; rfl) (by rw [habove]; rfl)
        · obtain ⟨x, hx⟩ := List.exists_mem_of_ne_nil _ habove
          obtain ⟨w, hw, hxw⟩ := List.mem_flatMap.1 hx
          have hlt : (K.unseen (next.map Ty.classifier ++ visited)).length <
              (K.unseen visited).length :=
            length_unseen_lt hxw (not_visited_of_mem_unvisited (hnext ▸ hw)) ⟨w, hw, rfl⟩
          exact ih (by omega) (Option.map_eq_none_iff.1 hnone)

/-! ### Nearest supertypes -/

theorem length_unseen_lt_levels (K : Catalog) (visited : List Classifier) :
    (K.unseen visited).length < K.entries.length + 2 := by
  have hle : (K.unseen visited).length ≤ K.entries.length := List.length_filter_le _ _
  omega

/-- The nearest supertype is the end of a shortest way up. -/
theorem nearest_isLeast (hK : K.Univocal) (hP : K.Proper) (h : K.nearest? t goal = some (s, d)) :
    K.ClimbsIn d t s ∧ s.key = goal.key ∧
      IsLeast {n | ∃ u, K.ClimbsIn n t u ∧ u.key = goal.key} d := by
  unfold nearest? at h
  split at h
  · next hself =>
    cases h
    have hkey := Classifier.beq_iff_key_eq.1 hself
    exact ⟨ClimbsIn.refl t, hkey, ⟨t, ClimbsIn.refl t, hkey⟩, fun m _ => Nat.zero_le m⟩
  · next hself =>
    have hstart : K.Level goal t 0 [t.classifier] [t] :=
      Level.start fun he => hself (Classifier.beq_iff_key_eq.2 he)
    obtain ⟨hway, hkey, hleast⟩ := hstart.found hK hP h
    rw [Nat.zero_add] at hway hleast
    exact ⟨hway, hkey, ⟨s, hway, hkey⟩, fun m ⟨u, hu, hgoal⟩ => hleast m u hu hgoal⟩

/-- There is a nearest supertype if there is a way up. -/
theorem exists_nearest (hK : K.Univocal) (hP : K.Proper) (hs : K.ClimbsIn n t s)
    (hgoal : s.key = goal.key) : ∃ found, K.nearest? t goal = some found := by
  obtain ⟨view, hview⟩ := exists_view (K := K) (P := fun _ => True) (fun _ _ _ _ => trivial)
    (fun _ _ _ _ hk _ hx => hK.exists_supertype hP hk hx) trivial hs.climbs hgoal
  obtain ⟨found, hfound, -⟩ := Option.map_eq_some_iff.1 hview
  exact ⟨found, hfound⟩

/-- Projection to a classifier finds a nearest supertype, in a class table of any shape: a distance
is the length of a shortest way up to the classifier, and the view is the end of a way of that
length. Where no way leads up to it, there is neither, and the search comes to its end. -/
theorem distance_isLeast (hK : K.Univocal) (hP : K.Proper) (t : Ty) (goal : Classifier) :
    (∀ d, K.distance? t goal = some d ↔
      IsLeast {n | ∃ s, K.ClimbsIn n t s ∧ s.key = goal.key} d) ∧
    (∀ d, K.distance? t goal = some d →
      ∃ view, K.view? t goal = some view ∧ K.ClimbsIn d t view ∧ view.key = goal.key) ∧
    ((∀ n s, K.ClimbsIn n t s → s.key ≠ goal.key) →
      K.view? t goal = none ∧ K.distance? t goal = none ∧ K.Exhausts goal [t.classifier] [t]) := by
  -- distances are least, the least one is found, the view goes with it; neither without a way
  refine ⟨fun d => ⟨fun hd => ?_, fun hleast => ?_⟩, fun d hd => ?_, fun hnone => ?_⟩
  · obtain ⟨⟨s, d⟩, hfound, rfl⟩ := Option.map_eq_some_iff.1 hd
    exact (nearest_isLeast hK hP hfound).2.2
  · obtain ⟨s, hway, hgoal⟩ := hleast.1
    obtain ⟨⟨view, e⟩, hfound⟩ := exists_nearest hK hP hway hgoal
    have he : e = d := (nearest_isLeast hK hP hfound).2.2.unique hleast
    exact Option.map_eq_some_iff.2 ⟨(view, e), hfound, he⟩
  · obtain ⟨⟨view, d⟩, hfound, rfl⟩ := Option.map_eq_some_iff.1 hd
    obtain ⟨hway, hgoal, -⟩ := nearest_isLeast hK hP hfound
    exact ⟨view, Option.map_eq_some_iff.2 ⟨(view, d), hfound, rfl⟩, hway, hgoal⟩
  · have hfound : K.nearest? t goal = none := by
      cases h : K.nearest? t goal with
      | none => rfl
      | some found =>
        obtain ⟨hway, hgoal, -⟩ := nearest_isLeast (s := found.1) (d := found.2) hK hP h
        exact absurd hgoal (hnone _ _ hway)
    refine ⟨by rw [view?, hfound]; rfl, by rw [distance?, hfound]; rfl, ?_⟩
    have hself : t.key ≠ goal.key := hnone 0 t (ClimbsIn.refl t)
    unfold nearest? at hfound
    rw [if_neg fun he => hself (Classifier.beq_iff_key_eq.1 he)] at hfound
    exact exhausts_of_searchAbove (K.length_unseen_lt_levels _) hfound

theorem Single.univocal (h : K.Single) (hstar : K.entries.lookup "*" = none) : K.Univocal := by
  have hentry : ∀ c : Classifier, c.key = "*" → K.entry c = {} := fun c hc => by
    rw [entry, revisions, hc, hstar]
    rfl
  intro head head' hk
  cases head with
  | star =>
    cases head' with
    | star => rfl
    | named c => exact (hentry c hk.symm).symm
  | named c =>
    cases head' with
    | star => exact hentry c hk
    | named c' => exact h.coherent c c' hk

def circle : Catalog where
  entries :=
    -- A catalog with a circle and with two ways around it: boxes are shelves and crates, these are
    -- stores, and a store is a box again. A shelf is a store of crates.
    [("Int", [{}]),
      ("Lid", [{}]),
      ("P", [{ flags := { typeParameter := true } }]),
      ("Box", [{
        typeParameters := [⟨"P", 0⟩]
        supertypes := some [unary "Shelf" (.of ⟨"P", 0⟩), unary "Crate" (.of ⟨"P", 0⟩)] }]),
      ("Crate", [{
        typeParameters := [⟨"P", 0⟩], supertypes := some [unary "Store" (.of ⟨"P", 0⟩)] }]),
      ("Shelf", [{
        typeParameters := [⟨"P", 0⟩]
        supertypes := some [unary "Store" (unary "Crate" (.of ⟨"P", 0⟩))] }]),
      ("Store", [{
        typeParameters := [⟨"P", 0⟩], supertypes := some [unary "Box" (.of ⟨"P", 0⟩)] }])]

theorem single_circle : circle.Single := by decide

theorem proper_circle : circle.Proper := by
  have hentries : ∀ x ∈ circle.entries, ∀ e ∈ x.2, ∀ s ∈ e.supertypes.getD [],
      e.typeParameters.contains s.classifier = false := by decide
  intro c s hs _
  exact single_circle.entry_induction
    (P := fun e => ∀ s ∈ e.supertypes.getD [], e.typeParameters.contains s.classifier = false) c
    (by simp) (fun x hx _ => hentries x hx) s hs

/-- A box is a store in two ways of two steps, of which the one through the shelf comes first. It is
no lid, though the ways up from it go around for ever. -/
theorem box_nearest :
    circle.view? (unary "Box" (.of ⟨"Int", 0⟩)) ⟨"Store", 0⟩ =
        some (unary "Store" (unary "Crate" (.of ⟨"Int", 0⟩))) ∧
      IsLeast {n | ∃ s, circle.ClimbsIn n (unary "Box" (.of ⟨"Int", 0⟩)) s ∧ s.key = "Store"} 2 ∧
      circle.Exhausts ⟨"Lid", 0⟩ [⟨"Box", 0⟩] [unary "Box" (.of ⟨"Int", 0⟩)] := by
  have hK : circle.Univocal := single_circle.univocal rfl
  have hstore := distance_isLeast hK proper_circle (unary "Box" (.of ⟨"Int", 0⟩)) ⟨"Store", 0⟩
  have hlid := distance_isLeast hK proper_circle (unary "Box" (.of ⟨"Int", 0⟩)) ⟨"Lid", 0⟩
  refine ⟨rfl, (hstore.1 2).1 rfl, (hlid.2.2 fun n s hs hk => ?_).2.2⟩
  have hgoal : s.key = (⟨"Lid", 0⟩ : Classifier).key := hk
  obtain ⟨found, hfound⟩ := exists_nearest hK proper_circle hs hgoal
  cases hfound

end Wiring.Catalog
