import Wiring.Fit
import Wiring.Proofs.Types.Likeness

/-!
Two walks through types that are alike make the same choices and come to bindings that are alike,
and so do the substitutions that they give, though one of them may have to be put into itself once
more than the other.
-/
namespace Wiring

open Ty Fit

variable {K : Catalog} {R : Ty → Ty → Prop} {vars vars' : List Classifier} {U : UnionFind}
  {b b' : U.Table} {c d p q v v' w w' : Classifier} {a a' r r' t t' : Ty}

theorem UnionFind.joined_eq (h : U.Alike R b b') (hv : v.key = v'.key) (hw : w.key = w'.key) :
    U.joined b v w = U.joined b' v' w' :=
  Classifier.beq_congr (U.alike_representative h hv) (U.alike_representative h hw)

namespace Fit

/-! ### The walk -/

inductive RelResult (R : Ty → Ty → Prop) : Result U → Result U → Prop
  -- Two walks come to the same end. What is said of a misfit does not count.
  | ok {b b' : U.Table} (h : U.Alike R b b') : RelResult R (.ok b) (.ok b')
  | misfit (reason reason' : Misfit) :
    RelResult R (.error (.misfit reason)) (.error (.misfit reason'))
  | tooDeep : RelResult R (.error .tooDeep) (.error .tooDeep)

def RelCompare (R : Ty → Ty → Prop) (compare compare' : Compare U) : Prop :=
  ∀ variance a a' r r' b b', R a a' → R r r' → U.Alike R b b' →
    RelResult R (compare variance a r b) (compare' variance a' r' b')

variable {compare compare' : Compare U} {variance : Variance}

theorem relResult_clash (reason reason' : Misfit) :
    RelResult R (clash (U := U) reason) (clash reason') :=
  .misfit reason reason'

theorem RelResult.bind {x x' : Result U} {f f' : U.Table → Result U} (h : RelResult R x x')
    (hf : ∀ b b', U.Alike R b b' → RelResult R (f b) (f' b')) :
    RelResult R (x >>= f) (x' >>= f') := by
  cases h with
  | ok h => exact hf _ _ h
  | misfit reason reason' => exact .misfit reason reason'
  | tooDeep => exact .tooDeep

theorem relResult_foldlM {α β : Type} {P : α → β → Prop} {f : U.Table → α → Result U}
    {f' : U.Table → β → Result U} {xs : List α} {ys : List β} (h : List.Forall₂ P xs ys)
    (hf : ∀ b b' x y, P x y → U.Alike R b b' → RelResult R (f b x) (f' b' y))
    (hb : U.Alike R b b') :
    RelResult R (xs.foldlM f b) (ys.foldlM f' b') := by
  induction h generalizing b b' with
  | nil => exact .ok hb
  | @cons x y xs ys hxy _ ih =>
    rw [List.foldlM_cons, List.foldlM_cons]
    exact (hf b b' x y hxy hb).bind fun _ _ h => ih h

/-- The variable with a given key. -/
theorem find_sameKeys (hvars : SameKeys vars vars') (hc : c.key = d.key) :
    Option.Rel (fun v w : Classifier => v.key = w.key) (vars.find? (· == c))
      (vars'.find? (· == d)) :=
  Catalog.forall₂_find hvars fun _ _ hvw => Classifier.beq_congr hvw hc

end Fit

namespace Catalog.Likeness

variable {compare compare' : Compare U} {variance : Variance}

theorem asVariable (hR : K.Likeness R) (hK : K.Coherent) (hvars : SameKeys vars vars')
    (ht : R t t') : Option.Rel (fun v w : Classifier => v.key = w.key) (asVariable? K vars t)
      (asVariable? K vars' t') := by
  unfold asVariable?
  rw [hR.isParameter_eq hK ht]
  split
  · exact find_sameKeys hvars (hR.key_eq ht)
  · exact Option.Rel.none

theorem variablesIn (hR : K.Likeness R) (hK : K.Coherent) (hvars : SameKeys vars vars')
    (ht : R t t') : SameKeys (variablesIn K vars t) (variablesIn K vars' t') :=
  List.rel_filterMap (fun _ _ hp => find_sameKeys hvars hp) (hR.sameKeys_parametersIn hK ht)

theorem any_eq {cs ds : List Classifier} {f g : Classifier → Bool} (h : SameKeys cs ds)
    (hfg : ∀ c d, c.key = d.key → f c = g d) : cs.any f = ds.any g := by
  induction h with
  | nil => rfl
  | cons hk _ ih => rw [List.any_cons, List.any_cons, hfg _ _ hk, ih]

theorem occursWithin_eq (hR : K.Likeness R) (hK : K.Coherent) (hvars : SameKeys vars vars')
    (hb : U.Alike R b b') (hv : v.key = v'.key) (depth : Nat) (ht : R t t') :
    occursWithin K vars b v depth t = occursWithin K vars' b' v' depth t' := by
  induction depth generalizing t t' with
  | zero => rfl
  | succ depth ih =>
    rw [occursWithin, occursWithin]
    refine any_eq (hR.variablesIn hK hvars ht) fun w w' hw => ?_
    rw [UnionFind.joined_eq hb hw hv]
    congr 1
    have hvalue := U.alike_value hb hw
    revert hvalue
    generalize U.value? b w = x, U.value? b' w' = y
    rintro (hxy | _)
    · exact ih hxy
    · rfl

theorem occurs_eq (hR : K.Likeness R) (hK : K.Coherent) (hvars : SameKeys vars vars')
    (hb : U.Alike R b b') (hv : v.key = v'.key) (ht : R t t') :
    occurs K vars b v t = occurs K vars' b' v' t' := by
  rw [occurs, occurs, hvars.length_eq, hR.occursWithin_eq hK hvars hb hv _ ht]

theorem unifyVariables (hR : K.Likeness R) (hK : K.Coherent) (hvars : SameKeys vars vars')
    (hcompare : RelCompare R compare compare') (hv : v.key = v'.key) (hw : w.key = w'.key)
    (hb : U.Alike R b b') : RelResult R (unifyVariables K vars compare v w b)
      (unifyVariables K vars' compare' v' w' b') := by
  rw [Fit.unifyVariables, Fit.unifyVariables, UnionFind.joined_eq hb hv hw]
  split
  · exact .ok hb
  have hleft := U.alike_value hb hv
  have hright := U.alike_value hb hw
  revert hleft hright
  generalize U.value? b v = x, U.value? b' v' = x', U.value? b w = y, U.value? b' w' = y'
  rintro (hx | _) (hy | _)
  · exact hcompare .invariant _ _ _ _ _ _ hx hy hb
  · simp only [hR.occurs_eq hK hvars hb hw hx]
    split
    · exact relResult_clash _ _
    · exact .ok (U.alike_join hb hv hw)
  · simp only [hR.occurs_eq hK hvars hb hv hy]
    split
    · exact relResult_clash _ _
    · exact .ok (U.alike_join hb hv hw)
  · exact .ok (U.alike_join hb hv hw)

theorem bindVariable {value value' : Ty} (hR : K.Likeness R) (hK : K.Coherent)
    (hvars : SameKeys vars vars') (hcompare : RelCompare R compare compare')
    (hv : v.key = v'.key) (hvalue : R value value') (hb : U.Alike R b b') :
    RelResult R (bindVariable K vars compare v value b)
      (bindVariable K vars' compare' v' value' b') := by
  have hbare : (value.tags.isEmpty && !value.nullable) =
      (value'.tags.isEmpty && !value'.nullable) := by
    rw [hR.nullable hvalue, Bool.eq_iff_iff, Bool.and_eq_true, Bool.and_eq_true,
      List.isEmpty_iff_length_eq_zero, List.isEmpty_iff_length_eq_zero,
      (hR.tags hvalue).length_eq]
  -- a bare variable on the other side, or a type
  have hother : Option.Rel (fun v w : Classifier => v.key = w.key)
      (if value.tags.isEmpty && !value.nullable then asVariable? K vars value else none)
      (if value'.tags.isEmpty && !value'.nullable then asVariable? K vars' value' else none) := by
    rw [hbare]
    split
    · exact hR.asVariable hK hvars hvalue
    · exact Option.Rel.none
  unfold Fit.bindVariable
  dsimp only
  revert hother
  generalize (if value.tags.isEmpty && !value.nullable then asVariable? K vars value else none) = x,
    (if value'.tags.isEmpty && !value'.nullable then asVariable? K vars' value' else none) = x'
  rintro (hw | _)
  · exact hR.unifyVariables hK hvars hcompare hv hw hb
  · simp only [hR.occurs_eq hK hvars hb hv hvalue]
    split
    · exact relResult_clash _ _
    · have hold := U.alike_value hb hv
      revert hold
      generalize U.value? b v = x, U.value? b' v' = x'
      rintro (hx | _)
      · exact hcompare .invariant _ _ _ _ _ _ hx hvalue hb
      · exact .ok (U.alike_assign hb hv hvalue)

theorem unifyRequestedTags (hR : K.Likeness R) (hcompare : RelCompare R compare compare')
    (ha : R a a') (hr : R r r') (hb : U.Alike R b b') :
    RelResult R (unifyRequestedTags compare a r b) (unifyRequestedTags compare' a' r' b') := by
  refine relResult_foldlM (hR.tags hr) (fun b b' x y hxy hb => ?_) hb
  have hfound := hR.tag ha (hR.key_eq hxy)
  revert hfound
  generalize a.tag? x.classifier = present, a'.tag? y.classifier = present'
  rintro (hpresent | _)
  · exact hcompare .invariant _ _ _ _ _ _ hpresent hxy hb
  · exact relResult_clash _ _

theorem unifyCandidateTags (hR : K.Likeness R) (hcompare : RelCompare R compare compare')
    (ha : R a a') (hr : R r r') (hb : U.Alike R b b') :
    RelResult R (unifyCandidateTags compare a r b) (unifyCandidateTags compare' a' r' b') := by
  refine relResult_foldlM (hR.tags ha) (fun b b' x y hxy hb => ?_) hb
  have hfound := hR.tag hr (hR.key_eq hxy)
  revert hfound
  generalize r.tag? x.classifier = wanted, r'.tag? y.classifier = wanted'
  rintro (hwanted | _)
  · exact hcompare .invariant _ _ _ _ _ _ hxy hwanted hb
  · exact relResult_clash _ _

/-- What remains of a type for a variable that stands beside the tags of another one. -/
theorem besideTags (hR : K.Likeness R) (ha : R a a') (hr : R r r') :
    R (a.withoutTags (r.tags.map Ty.classifier)).withoutInstanceKey
      (a'.withoutTags (r'.tags.map Ty.classifier)).withoutInstanceKey := by
  refine hR.remainder ha ?_
  rw [SameKeys, List.forall₂_map_left_iff, List.forall₂_map_right_iff]
  exact (hR.tags hr).imp fun _ _ h => hR.key_eq h

theorem bindRequested (hR : K.Likeness R) (hK : K.Coherent) (hvars : SameKeys vars vars')
    (hcompare : RelCompare R compare compare') (hv : v.key = v'.key) (ha : R a a') (hr : R r r')
    (hb : U.Alike R b b') : RelResult R (bindRequested K vars compare variance v a r b)
      (bindRequested K vars' compare' variance v' a' r' b') := by
  have hvalue := hR.besideTags ha hr
  rw [Fit.bindRequested, Fit.bindRequested]
  refine (hR.unifyRequestedTags hcompare ha hr hb).bind fun b b' hb => ?_
  simp only [hR.nullable ha, hR.nullable hr]
  split
  · split
    · exact relResult_clash _ _
    · exact hR.bindVariable hK hvars hcompare hv (hR.withNullability false hvalue) hb
  · exact hR.bindVariable hK hvars hcompare hv hvalue hb

theorem bindCandidate (hR : K.Likeness R) (hK : K.Coherent) (hvars : SameKeys vars vars')
    (hcompare : RelCompare R compare compare') (hv : v.key = v'.key) (ha : R a a') (hr : R r r')
    (hb : U.Alike R b b') : RelResult R (bindCandidate K vars compare v a r b)
      (bindCandidate K vars' compare' v' a' r' b') := by
  have hvalue := hR.besideTags hr ha
  simp only [Fit.bindCandidate, hR.nullable ha, hR.nullable hr]
  split
  · exact relResult_clash _ _
  · refine (hR.unifyCandidateTags hcompare ha hr hb).bind fun b b' hb => ?_
    split
    · exact hR.bindVariable hK hvars hcompare hv (hR.withNullability false hvalue) hb
    · exact hR.bindVariable hK hvars hcompare hv hvalue hb

theorem viewFor (hR : K.Likeness R) (hK : K.Coherent) (variance : Variance) (ha : R a a')
    (hr : R r r') : Option.Rel R (viewFor? K variance a r) (viewFor? K variance a' r') := by
  cases variance with
  | covariant => exact hR.view hK ha (hR.key_eq hr)
  | invariant =>
    simp only [viewFor?, Classifier.beq_congr (hR.key_eq ha) (hR.key_eq hr)]
    split
    · exact Option.Rel.some ha
    · exact Option.Rel.none

/-- A tag of the candidate that is not requested is found on both sides or on neither. -/
theorem extraTag (hR : K.Likeness R) (ha : R a a') (hr : R r r') :
    Option.Rel R (a.tags.find? fun tag => (r.tag? tag.classifier).isNone)
      (a'.tags.find? fun tag => (r'.tag? tag.classifier).isNone) := by
  have hextra : ∀ x y, R x y →
      (r.tag? x.classifier).isNone = (r'.tag? y.classifier).isNone := by
    intro x y hxy
    have hfound := hR.tag hr (hR.key_eq hxy)
    revert hfound
    generalize r.tag? x.classifier = wanted, r'.tag? y.classifier = wanted'
    rintro (_ | _) <;> rfl
  exact forall₂_find (hR.tags ha) hextra

theorem unifyConcrete (hR : K.Likeness R) (hK : K.Coherent)
    (hcompare : RelCompare R compare compare') (ha : R a a') (hr : R r r') (hb : U.Alike R b b') :
    RelResult R (unifyConcrete K compare variance a r b)
      (unifyConcrete K compare' variance a' r' b') := by
  have hnull : nullabilityFits variance a r = nullabilityFits variance a' r' := by
    cases variance <;> simp only [nullabilityFits, hR.nullable ha, hR.nullable hr]
  have hextra := hR.extraTag ha hr
  have hview := hR.viewFor hK variance ha hr
  simp only [Fit.unifyConcrete, hnull, hR.flagsOf_eq hK hr]
  split
  · exact relResult_clash _ _
  refine (hR.unifyRequestedTags hcompare ha hr hb).bind fun b b' hb => ?_
  split
  · exact .ok hb
  revert hextra hview
  generalize a.tags.find? _ = extra, a'.tags.find? _ = extra'
  generalize viewFor? K variance a r = view, viewFor? K variance a' r' = view'
  rintro (_ | _) hview
  · exact relResult_clash _ _
  rcases hview with hview | _
  · have hargs := hR.arguments hview
    simp only [hargs.length_eq, (hR.arguments hr).length_eq]
    split
    · have hpairs := forall₂_zip hargs (hR.arguments hr)
      exact relResult_foldlM hpairs
        (fun b b' x y hxy hb => hcompare .invariant _ _ _ _ b b' hxy.1 hxy.2 hb) hb
    · exact relResult_clash _ _
  · exact relResult_clash _ _

theorem step (hR : K.Likeness R) (hK : K.Coherent) (hvars : SameKeys vars vars')
    (hcompare : RelCompare R compare compare') :
    RelCompare R (step K vars compare) (step K vars' compare') := by
  intro variance a a' r r' b b' ha hr hb
  have hempty : ∀ {x y : Ty}, R x y → x.tags.isEmpty = y.tags.isEmpty := fun hxy => by
    rw [Bool.eq_iff_iff, List.isEmpty_iff_length_eq_zero, List.isEmpty_iff_length_eq_zero,
      (hR.tags hxy).length_eq]
  have hleft := hR.asVariable hK hvars ha
  have hright := hR.asVariable hK hvars hr
  simp only [Fit.step, hR.isStar_eq ha, hR.isStar_eq hr, hempty ha, hempty hr, hR.nullable ha,
    hR.nullable hr]
  split
  · exact .ok hb
  revert hleft hright
  generalize asVariable? K vars a = x, asVariable? K vars' a' = x'
  generalize asVariable? K vars r = y, asVariable? K vars' r' = y'
  rintro (hv | _) (hw | _)
  · dsimp only
    split
    · exact hR.unifyVariables hK hvars hcompare hv hw hb
    · exact hR.bindRequested hK hvars hcompare hw ha hr hb
  · exact hR.bindCandidate hK hvars hcompare hv ha hr hb
  · exact hR.bindRequested hK hvars hcompare hw ha hr hb
  · exact hR.unifyConcrete hK hcompare ha hr hb

/-- Walks through types that are alike come to the same end. -/
theorem walk (hR : K.Likeness R) (hK : K.Coherent) (hvars : SameKeys vars vars') (depth : Nat) :
    RelCompare R (walk (U := U) K vars depth) (walk K vars' depth) := by
  -- each level compares the parts by the walk that is one level less deep
  induction depth with
  | zero => exact fun _ _ _ _ _ _ _ _ _ _ => .tooDeep
  | succ depth ih => exact hR.step hK hvars ih

end Catalog.Likeness

/-! ### Closing -/

namespace Substitution

variable {m m' n : Substitution}

theorem Rel.symm (hR : K.Likeness R) (h : m.Rel R m') : m'.Rel R m :=
  List.Forall₂.flip (List.Forall₂.imp (fun _ _ hb => ⟨hb.1.symm, hR.symm hb.2⟩) h)

theorem Rel.trans (hR : K.Likeness R) (h : m.Rel R m') (h' : m'.Rel R n) : m.Rel R n :=
  forall₂_trans_of (fun _ _ _ hb hb' => ⟨hb.1.trans hb'.1, hR.trans hb.2 hb'.2⟩) h h'

theorem Rel.left (hR : K.Likeness R) (h : m.Rel R m') : m.Rel R m :=
  h.trans hR (h.symm hR)

/-- Equal substitutions are related if each is related to itself. -/
theorem rel_of_beq (hR : K.Likeness R) (hm : m.Rel R m) (hn : n.Rel R n) (h : (m == n) = true) :
    m.Rel R n := by
  have hpairs : List.Forall₂ (fun b b' => (b == b') = true) m.bindings n.bindings :=
    forall₂_of_beq h
  refine forall₂_imp_of_mem hpairs fun b hb b' hb' he => ?_
  obtain ⟨hk, ht⟩ := Bool.and_eq_true_iff.1 (show (b.1 == b'.1 && b.2 == b'.2) = true from he)
  exact ⟨Classifier.beq_iff_key_eq.1 hk,
    hR.of_beq (List.forall₂_same.1 hm b hb).2 (List.forall₂_same.1 hn b' hb').2 ht⟩

end Substitution

namespace Catalog.Likeness

variable {m m' : Substitution}

/-- A substitution put into itself. -/
theorem round (hR : K.Likeness R) (hm : m.Rel R m') :
    (m.map (·.substitute m)).Rel R (m'.map (·.substitute m')) :=
  hm.map fun _ _ h => hR.substitute h hm

/-- What does not change up to likeness when it is put into itself goes on to be like what another
one comes to. -/
theorem close_settled (hR : K.Likeness R) (hfix : m.Rel R (m.map (·.substitute m)))
    (rounds : Nat) (hm : m.Rel R m') : m.Rel R (close rounds m') := by
  induction rounds generalizing m' with
  | zero => exact hm
  | succ rounds ih =>
    rw [Fit.close]
    split
    · exact hm
    · exact ih (hfix.trans hR (hR.round hm))

/-- Closing one of two substitutions may take more rounds than closing the other, but those bring
nothing new. -/
theorem close (hR : K.Likeness R) (rounds : Nat) (hm : m.Rel R m') :
    (close rounds m).Rel R (close rounds m') := by
  have hstop : ∀ {m m' : Substitution}, m.Rel R m' → (m.map (·.substitute m) == m) = true →
      m.Rel R (m.map (·.substitute m)) := fun hm he =>
    (Substitution.rel_of_beq hR ((hR.round hm).left hR) (hm.left hR) he).symm hR
  induction rounds generalizing m m' with
  | zero => exact hm
  | succ rounds ih =>
    cases hleft : m.map (·.substitute m) == m with
    | true =>
      have hend : Fit.close (rounds + 1) m = m := by rw [Fit.close, if_pos hleft]
      rw [hend]
      exact hR.close_settled (hstop hm hleft) _ hm
    | false =>
      cases hright : m'.map (·.substitute m') == m' with
      | true =>
        have hend : Fit.close (rounds + 1) m' = m' := by rw [Fit.close, if_pos hright]
        have hm' := hm.symm hR
        rw [hend]
        exact (hR.close_settled (hstop hm' hright) _ hm').symm hR
      | false =>
        rw [Fit.close, Fit.close, if_neg (by simp [hleft]), if_neg (by simp [hright])]
        exact ih (hR.round hm)

/-! ### The solution -/

theorem readOff (hR : K.Likeness R) (hvars : SameKeys vars vars') (hb : U.Alike R b b') :
    (readOff vars b).Rel R (readOff vars' b') := by
  unfold Fit.readOff
  suffices hs : ∀ m m' : Substitution, m.Rel R m' → Substitution.Rel R (vars.foldl _ m)
      (vars'.foldl _ m') from hs .empty .empty Substitution.rel_empty
  induction hvars with
  | nil => exact fun _ _ hm => hm
  | @cons v v' vars vars' hv _ ih =>
    intro m m' hm
    refine ih _ _ ?_
    have hr := U.alike_representative hb hv
    have hvalue := U.alike_value hb hv
    dsimp only
    rw [Classifier.beq_congr hr hv]
    revert hvalue
    generalize U.value? b v = x, U.value? b' v' = x'
    rintro (hx | _)
    · exact hm.insert hv hx
    · dsimp only
      split
      · exact hm
      · exact hm.insert hv (hR.parameter hr)

theorem isOpen_eq (hR : K.Likeness R) (hK : K.Coherent) (hvars : SameKeys vars vars')
    (hm : m.Rel R m') (ht : R t t') : isOpen K vars m t = isOpen K vars' m' t' :=
  any_eq (hR.sameKeys_parametersIn hK ht) fun p q hp => by
    rw [hvars.contains_eq hp, hm.contains_eq hp]

theorem violatedBound (hR : K.Likeness R) (hK : K.Coherent) (hvars : SameKeys vars vars')
    (hm : m.Rel R m') (hp : p.key = q.key) (ht : R t t') :
    Option.Rel R (violatedBound? K vars m p t) (violatedBound? K vars' m' q t') := by
  unfold violatedBound?
  rw [hR.isOpen_eq hK hvars hm ht, hK.declaredSupertypes_eq hp]
  split
  · exact Option.Rel.none
  · have hbounds : List.Forall₂ R ((K.declaredSupertypes q).map (·.substitute m))
        ((K.declaredSupertypes q).map (·.substitute m')) :=
      forall₂_map_same fun s hs => hR.substitute (hR.declared q s hs) hm
    exact forall₂_find hbounds fun x y hxy => by
      rw [hR.isOpen_eq hK hvars hm hxy, hR.isSubtype_eq hK ht hxy]

theorem isNone_findSome {α β γ δ : Type} {P : α → β → Prop} {f : α → Option γ} {g : β → Option δ}
    {xs : List α} {ys : List β} (h : List.Forall₂ P xs ys)
    (hfg : ∀ x y, P x y → (f x).isNone = (g y).isNone) :
    (xs.findSome? f).isNone = (ys.findSome? g).isNone := by
  induction h with
  | nil => rfl
  | @cons x y xs ys hxy _ ih =>
    have hhead := hfg x y hxy
    rw [List.findSome?_cons, List.findSome?_cons]
    revert hhead
    generalize f x = z, g y = w
    cases z <;> cases w <;> intro hhead
    · exact ih
    · cases hhead
    · cases hhead
    · rfl

theorem checkBounds (hR : K.Likeness R) (hK : K.Coherent) (hvars : SameKeys vars vars')
    (hm : m.Rel R m') : Option.Rel (Substitution.Rel R) (checkBounds K vars m).toOption
      (checkBounds K vars' m').toOption := by
  have hviolation : (m.bindings.findSome? fun b =>
        (violatedBound? K vars m b.1 b.2).map (Misfit.bound b.1 b.2)).isNone =
      (m'.bindings.findSome? fun b =>
        (violatedBound? K vars' m' b.1 b.2).map (Misfit.bound b.1 b.2)).isNone :=
    isNone_findSome hm fun b b' hb => by
      have hbound := hR.violatedBound hK hvars hm hb.1 hb.2
      revert hbound
      generalize violatedBound? K vars m b.1 b.2 = x, violatedBound? K vars' m' b'.1 b'.2 = y
      rintro (_ | _) <;> rfl
  unfold Fit.checkBounds
  revert hviolation
  generalize m.bindings.findSome? _ = x, m'.bindings.findSome? _ = y
  cases x <;> cases y <;> intro hviolation
  · exact Option.Rel.some hm
  · cases hviolation
  · cases hviolation
  · exact Option.Rel.none

theorem solution (hR : K.Likeness R) (hK : K.Coherent) (hvars : SameKeys vars vars')
    (hb : U.Alike R b b') : Option.Rel (Substitution.Rel R) (solution K vars b).toOption
      (solution K vars' b').toOption := by
  rw [Fit.solution, Fit.solution, hvars.length_eq]
  exact hR.checkBounds hK hvars (hR.close _ (hR.readOff hvars hb))

/-! ### The fit -/

variable {statics statics' : List Classifier}

theorem variablesOf (hR : K.Likeness R) (hK : K.Coherent) (hs : SameKeys statics statics')
    (ha : R a a') (hr : R r r') :
    SameKeys (variablesOf K statics a r) (variablesOf K statics' a' r') :=
  (((hR.sameKeys_parametersIn hK ha).append (hR.sameKeys_parametersIn hK hr)).filter
    fun _ _ hp => congrArg not (hs.contains_eq hp)).eraseDups

theorem depth_eq (hR : K.Likeness R) (hK : K.Coherent) (hvars : SameKeys vars vars')
    (ha : R a a') (hr : R r r') : depth K vars a r = depth K vars' a' r' := by
  have hview : ((K.view? a r.classifier).getD a).size = ((K.view? a' r'.classifier).getD a').size := by
    have hfound := hR.view hK ha (hR.key_eq hr)
    revert hfound
    generalize K.view? a r.classifier = x, K.view? a' r'.classifier = y
    rintro (hxy | _)
    · exact hR.size_eq hxy
    · exact hR.size_eq ha
  simp only [depth, hvars.length_eq, hR.size_eq ha, hR.size_eq hr, hview]

/-- What a fit comes to within a depth: nothing, a misfit or a substitution. -/
theorem within (hR : K.Likeness R) (hK : K.Coherent) (depth : Nat)
    (hs : SameKeys statics statics') (ha : R a a') (hr : R r r') :
    Option.Rel (fun x y => Option.Rel (Substitution.Rel R) (Except.toOption x) (Except.toOption y))
      (within U K depth statics a r) (within U K depth statics' a' r') := by
  have hvars := hR.variablesOf hK hs ha hr
  have hwalk := hR.walk hK hvars depth .covariant a a' r r' U.start U.start ha hr U.alike_start
  unfold Fit.within
  dsimp only
  revert hwalk
  generalize Fit.walk K _ depth .covariant a r U.start = x,
    Fit.walk K _ depth .covariant a' r' U.start = y
  intro hwalk
  cases hwalk with
  | ok hb => exact Option.Rel.some (hR.solution hK hvars hb)
  | misfit reason reason' => exact Option.Rel.some Option.Rel.none
  | tooDeep => exact Option.Rel.none

/-- Types that are alike are fitted to requests that are alike by substitutions that are alike, or not
at all. -/
theorem fit (hR : K.Likeness R) (hK : K.Coherent) (hs : SameKeys statics statics') (ha : R a a')
    (hr : R r r') : Option.Rel (Substitution.Rel R) (K.fit statics a r).toOption
      (K.fit statics' a' r').toOption := by
  have hfirst := hR.within (U := Bindings.byRank) hK (1 <<< 16) hs ha hr
  have hsecond := hR.within (U := Bindings.byRank) hK
    (depth K (Fit.variablesOf K statics a r) a r) hs ha hr
  unfold Catalog.fit
  dsimp only
  rw [← hR.depth_eq hK (hR.variablesOf hK hs ha hr) ha hr]
  revert hfirst hsecond
  generalize Fit.within _ K (1 <<< 16) statics a r = x,
    Fit.within _ K (1 <<< 16) statics' a' r' = x'
  generalize Fit.within _ K _ statics a r = y, Fit.within _ K _ statics' a' r' = y'
  -- both walks are limited alike, so the second one is made in the same cases
  rintro (hx | _) (hy | _)
  · exact hx
  · exact hx
  · exact hy
  · exact Option.Rel.none

end Catalog.Likeness

namespace Catalog

/-- Equal requests, with equal parameters static, have equal fits or none. -/
theorem fit_congr (hK : K.Coherent) {statics statics' : List Classifier} {r r' : Ty} (a : Ty)
    (hs : (statics == statics') = true) (hr : (r == r') = true) :
    (K.fit statics a r).toOption.map Substitution.plain =
      (K.fit statics' a r').toOption.map Substitution.plain := by
  have hfits := (likeness_beq K).fit hK (SameKeys.of_beq hs) (BEq.rfl (a := a)) hr
  revert hfits
  generalize (K.fit statics a r).toOption = x, (K.fit statics' a r').toOption = y
  rintro (hm | _)
  · exact congrArg some hm.plain_eq
  · rfl

end Catalog
end Wiring
