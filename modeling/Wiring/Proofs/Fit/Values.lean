import Wiring.Proofs.Fit.Solution

namespace Wiring.Fit

open Ty Catalog UnionFind

variable {K : Catalog} {P : Ty → Prop} {Q : Classifier → Prop} {statics vars : List Classifier}
  {U : UnionFind} {b b' : U.Table} {v w : Classifier} {c r t : Ty} {variance : Variance}
  {compare : Compare U}

structure Kept (K : Catalog) (P : Ty → Prop) (Q : Classifier → Prop) : Prop where
  -- A property of types that passes on to their parts and their views, to what is left of a type
  -- without some of its dress, and through substitution; `Q` is what it asks of a variable that
  -- stands for itself.
  argument : ∀ {t}, P t → ∀ a ∈ t.arguments, P a
  tag : ∀ {t}, P t → ∀ s ∈ t.tags, P s
  withoutTags : ∀ {t} cs, P t → P (t.withoutTags cs)
  withoutInstanceKey : ∀ {t}, P t → P t.withoutInstanceKey
  notNull : ∀ {t}, P t → P (t.withNullability false)
  view : ∀ {t u : Ty} {c : Classifier}, P t → K.view? t c = some u → P u
  substitute : ∀ {t : Ty} {m : Substitution}, P t → (∀ c v, m.get? c = some v → P v) →
    P (t.substitute m)
  ofVariable : ∀ {v : Classifier}, Q v → P (.of v)

structure Carries (P : Ty → Prop) (Q : Classifier → Prop) (b : U.Table) : Prop where
  -- Values have the property, and what stands for a class of variables is as they are.
  value : ∀ {v t}, U.value? b v = some t → P t
  representative : ∀ v : Classifier, Q v → Q (U.representative b v)

theorem carries_start : Carries P Q U.start where
  value h := absurd h value_start_ne
  representative v h := by rwa [U.representative_start]

namespace Carries

theorem assign (h : Carries P Q b) (ht : P t) : Carries P Q (U.assign b v t) where
  value hu := by
    rw [U.value_assign] at hu
    split at hu
    · cases hu
      exact ht
    · exact h.value hu
  representative x hx := by
    rw [U.representative_assign]
    exact h.representative x hx

theorem join (h : Carries P Q b) (hv : Q v) (hw : Q w)
    (hn : U.value? b v = none ∨ U.value? b w = none) : Carries P Q (U.join b v w) where
  value hu := by
    rw [U.value_join hn] at hu
    split at hu
    · rcases Option.or_eq_some_iff.1 hu with hu | ⟨_, hu⟩
      · exact h.value hu
      · exact h.value hu
    · exact h.value hu
  representative x hx := by
    obtain ⟨p, q, hpq, hmoved⟩ := U.representative_join b v w
    have hq : Q q := by
      rcases hpq with ⟨-, rfl⟩ | ⟨-, rfl⟩
      · exact hw
      · exact hv
    rw [hmoved]
    split
    · exact h.representative q hq
    · exact h.representative x hx

end Carries

theorem mem_of_asVariable (h : asVariable? K vars t = some v) : v ∈ vars := by
  unfold asVariable? at h
  split at h
  · exact List.mem_of_find?_eq_some h
  · cases h

/-! ### The walk -/

def Stays (P : Ty → Prop) (Q : Classifier → Prop) (compare : Compare U) : Prop :=
  ∀ variance c r b b', P c → P r → Carries P Q b → compare variance c r b = .ok b' →
    Carries P Q b'

theorem foldlM_stays {α : Type} {f : U.Table → α → Result U} {xs : List α}
    (hf : ∀ x ∈ xs, ∀ {b b' : U.Table}, Carries P Q b → f b x = .ok b' → Carries P Q b')
    (hb : Carries P Q b) (h : xs.foldlM f b = .ok b') : Carries P Q b' := by
  induction xs generalizing b with
  | nil =>
    cases h
    exact hb
  | cons x xs ih =>
    rw [List.foldlM_cons] at h
    obtain ⟨b₁, h₁, h₂⟩ := exists_of_bind_ok h
    have hb₁ := hf x (List.mem_cons_self ..) hb h₁
    exact ih (fun y hy => hf y (List.mem_cons_of_mem x hy)) hb₁ h₂

section Step

variable (hstays : Stays P Q compare)
include hstays

theorem unifyVariables_stays (hv : Q v) (hw : Q w) (hb : Carries P Q b)
    (h : unifyVariables K vars compare v w b = .ok b') : Carries P Q b' := by
  unfold unifyVariables at h
  split at h
  · cases h
    exact hb
  · split at h
    · next x y hx hy => exact hstays _ _ _ _ _ (hb.value hx) (hb.value hy) hb h
    · next hnone =>
      split at h
      · cases h
      · cases h
        exact hb.join hv hw (Or.inr hnone)
    · next hnone _ =>
      split at h
      · cases h
      · cases h
        exact hb.join hv hw (Or.inl hnone)
    · next hnone _ =>
      cases h
      exact hb.join hv hw (Or.inl hnone)

theorem bindVariable_stays (hvars : ∀ v ∈ vars, Q v) (hv : Q v) (ht : P t) (hb : Carries P Q b)
    (h : bindVariable K vars compare v t b = .ok b') : Carries P Q b' := by
  unfold bindVariable at h
  dsimp only at h
  split at h
  · next w hw =>
    refine unifyVariables_stays hstays hv ?_ hb h
    split at hw
    · exact hvars w (mem_of_asVariable hw)
    · cases hw
  · split at h
    · cases h
    · split at h
      · next x hx => exact hstays _ _ _ _ _ (hb.value hx) ht hb h
      · cases h
        exact hb.assign ht

variable (hP : Kept K P Q)
include hP

theorem unifyRequestedTags_stays (hc : P c) (hr : P r) (hb : Carries P Q b)
    (h : unifyRequestedTags compare c r b = .ok b') : Carries P Q b' := by
  refine foldlM_stays (fun tag htag _ _ hb h => ?_) hb h
  split at h
  · next present hp =>
    exact hstays _ _ _ _ _ (hP.tag hc _ (mem_of_lookupTag hp)) (hP.tag hr _ htag) hb h
  · cases h

theorem unifyCandidateTags_stays (hc : P c) (hr : P r) (hb : Carries P Q b)
    (h : unifyCandidateTags compare c r b = .ok b') : Carries P Q b' := by
  refine foldlM_stays (fun tag htag _ _ hb h => ?_) hb h
  split at h
  · next wanted hw =>
    exact hstays _ _ _ _ _ (hP.tag hc _ htag) (hP.tag hr _ (mem_of_lookupTag hw)) hb h
  · cases h

theorem bindRequested_stays (hvars : ∀ v ∈ vars, Q v) (hv : Q v) (hc : P c) (hr : P r)
    (hb : Carries P Q b) (h : bindRequested K vars compare variance v c r b = .ok b') :
    Carries P Q b' := by
  unfold bindRequested at h
  obtain ⟨b₁, h₁, h⟩ := exists_of_bind_ok h
  have hb₁ := unifyRequestedTags_stays hstays hP hc hr hb h₁
  have hvalue := hP.withoutInstanceKey (hP.withoutTags (r.tags.map Ty.classifier) hc)
  dsimp only at h
  split at h
  · split at h
    · cases h
    · exact bindVariable_stays hstays hvars hv (hP.notNull hvalue) hb₁ h
  · exact bindVariable_stays hstays hvars hv hvalue hb₁ h

theorem bindCandidate_stays (hvars : ∀ v ∈ vars, Q v) (hv : Q v) (hc : P c) (hr : P r)
    (hb : Carries P Q b) (h : bindCandidate K vars compare v c r b = .ok b') : Carries P Q b' := by
  unfold bindCandidate at h
  split at h
  · cases h
  · obtain ⟨b₁, h₁, h⟩ := exists_of_bind_ok h
    have hb₁ := unifyCandidateTags_stays hstays hP hc hr hb h₁
    have hvalue := hP.withoutInstanceKey (hP.withoutTags (c.tags.map Ty.classifier) hr)
    refine bindVariable_stays hstays hvars hv ?_ hb₁ h
    split
    · exact hP.notNull hvalue
    · exact hvalue

theorem unifyConcrete_stays (hc : P c) (hr : P r) (hb : Carries P Q b)
    (h : unifyConcrete K compare variance c r b = .ok b') : Carries P Q b' := by
  obtain ⟨-, b₁, h₁, hrest⟩ := of_unifyConcrete h
  have hb₁ := unifyRequestedTags_stays hstays hP hc hr hb h₁
  rcases hrest with ⟨-, -, rfl⟩ | ⟨-, view, hview, -, hrest⟩
  · exact hb₁
  · have hkept : P view := by
      cases variance with
      | covariant => exact hP.view hc hview
      | invariant => rwa [(of_viewFor_invariant hview).2]
    refine foldlM_stays (fun p hp _ _ hb h => ?_) hb₁ hrest
    obtain ⟨hx, hy⟩ := List.of_mem_zip hp
    exact hstays _ _ _ _ _ (hP.argument hkept _ hx) (hP.argument hr _ hy) hb h

theorem step_stays (hvars : ∀ v ∈ vars, Q v) : Stays P Q (step K vars compare) := by
  intro variance c r b b' hc hr hb h
  unfold step at h
  split at h
  · cases h
    exact hb
  · split at h
    · next v w hv hw =>
      have hv := hvars v (mem_of_asVariable hv)
      have hw := hvars w (mem_of_asVariable hw)
      split at h
      · exact unifyVariables_stays hstays hv hw hb h
      · exact bindRequested_stays hstays hP hvars hw hc hr hb h
    · next w _ hw =>
      exact bindRequested_stays hstays hP hvars (hvars w (mem_of_asVariable hw)) hc hr hb h
    · next v hv _ =>
      exact bindCandidate_stays hstays hP hvars (hvars v (mem_of_asVariable hv)) hc hr hb h
    · exact unifyConcrete_stays hstays hP hc hr hb h

end Step

theorem walk_stays (hP : Kept K P Q) (hvars : ∀ v ∈ vars, Q v) (depth : Nat) :
    Stays P Q (walk (U := U) K vars depth) := by
  induction depth with
  | zero =>
    intro variance c r b b' _ _ _ h
    cases h
  | succ depth ih => exact step_stays ih hP hvars

/-! ### The substitution of a fit -/

theorem Kept.readOff (hP : Kept K P Q) (hvars : ∀ v ∈ vars, Q v) (hb : Carries P Q b) :
    ∀ d t, (readOff vars b).get? d = some t → P t := by
  intro d t h
  obtain ⟨v, hv, _, hval | ⟨_, _, rfl⟩⟩ := of_get_readOff h
  · exact hb.value hval
  · exact hP.ofVariable (hb.representative v (hvars v hv))

theorem Kept.close (hP : Kept K P Q) {m : Substitution} (rounds : Nat)
    (hm : ∀ d t, m.get? d = some t → P t) : ∀ d t, (close rounds m).get? d = some t → P t := by
  induction rounds generalizing m with
  | zero => exact hm
  | succ rounds ih =>
    rw [Fit.close]
    split
    · exact hm
    · refine ih fun d t hd => ?_
      rw [Substitution.get_map] at hd
      obtain ⟨u, hu, rfl⟩ := Option.map_eq_some_iff.1 hd
      exact hP.substitute (hm d u hu) hm

/-- The values of a fit have each such property of the two types. -/
theorem Kept.fit (hP : Kept K P Q) (hvars : ∀ v ∈ variablesOf K statics c r, Q v) (hc : P c)
    (hr : P r) {m : Substitution} (h : K.fit statics c r = .ok m) :
    ∀ d t, m.get? d = some t → P t := by
  obtain ⟨depth, b, hw, hs⟩ := exists_walk_of_fit h
  have hb := walk_stays hP hvars depth _ _ _ _ _ hc hr carries_start hw
  obtain ⟨rfl, _⟩ := of_checkBounds hs
  exact hP.close _ (hP.readOff hvars hb)

end Wiring.Fit
