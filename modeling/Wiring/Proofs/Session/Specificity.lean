import Wiring.Proofs.Session.Ranking
import Wiring.Proofs.Types.Mutual

namespace Wiring

open Ty

namespace Catalog

variable {K : Catalog} {a b requested : Ty}

theorem supertypes_withoutInstanceKey (K : Catalog) (t : Ty) :
    K.supertypes t.withoutInstanceKey = K.supertypes t :=
  rfl

theorem nearest_withoutInstanceKey (K : Catalog) (t : Ty) (goal : Classifier) :
    K.nearest? t.withoutInstanceKey goal =
      if t.classifier == goal then some (t.withoutInstanceKey, 0) else K.nearest? t goal := by
  have habove : K.searchAbove goal (K.entries.length + 2) [t.classifier] [t.withoutInstanceKey] =
      K.searchAbove goal (K.entries.length + 2) [t.classifier] [t] := by
    simp only [searchAbove, List.flatMap_singleton, supertypes_withoutInstanceKey]
  have hclassifier : t.withoutInstanceKey.classifier = t.classifier := rfl
  rw [nearest?, hclassifier, habove]
  split
  · rfl
  · next h => rw [nearest?, if_neg h]

theorem arguments_view_withoutInstanceKey (K : Catalog) (t : Ty) (goal : Classifier) :
    (K.view? t.withoutInstanceKey goal).map Ty.arguments =
      (K.view? t goal).map Ty.arguments := by
  unfold view?
  rw [nearest_withoutInstanceKey]
  split
  · next h =>
    rw [nearest?, if_pos h]
    rfl
  · rfl

theorem premises_withoutInstanceKey (K : Catalog) (a b : Ty) :
    K.premises? a.withoutInstanceKey b.withoutInstanceKey = K.premises? a b := by
  -- of the view only the arguments count
  have hview : ∀ tags : List (Ty × Ty), ((K.view? a.withoutInstanceKey b.classifier).bind fun v =>
        (argumentPremises? v.arguments b.arguments).bind fun ps => some (tags ++ ps)) =
      (K.view? a b.classifier).bind fun v =>
        (argumentPremises? v.arguments b.arguments).bind fun ps => some (tags ++ ps) := by
    intro tags
    let f (as : List Ty) := (argumentPremises? as b.arguments).bind fun ps => some (tags ++ ps)
    have hsame := congrArg (Option.bind · f) (arguments_view_withoutInstanceKey K a b.classifier)
    simp only [Option.bind_map] at hsame
    exact hsame
  unfold premises?
  change (if a.isStar || b.isStar then _ else if a.nullable && !b.nullable then _
    else (tagPremises? a b).bind fun tags => if (K.flagsOf b).top then _
      else (K.view? a.withoutInstanceKey b.classifier).bind fun v =>
        (argumentPremises? v.arguments b.arguments).bind fun ps => some (tags ++ ps)) = _
  simp only [hview]
  rfl

theorem subtypeWithin_withoutInstanceKey (K : Catalog) (depth : Nat) (a b : Ty) :
    K.subtypeWithin depth a.withoutInstanceKey b.withoutInstanceKey = K.subtypeWithin depth a b := by
  cases depth with
  | zero => rfl
  | succ depth => rw [subtypeWithin, subtypeWithin, premises_withoutInstanceKey]

theorem isSubtype_withoutInstanceKey (K : Catalog) (a b : Ty) :
    K.isSubtype a.withoutInstanceKey b.withoutInstanceKey = K.isSubtype a b := by
  have hsize : ∀ t : Ty, t.withoutInstanceKey.size = t.size := fun t => by
    rw [size_eq, size_eq t]
    rfl
  rw [isSubtype, isSubtype, subtypeWithin_withoutInstanceKey, subtypeDepth, subtypeDepth, hsize,
    hsize]

def Stricter (K : Catalog) (a b : Ty) : Prop :=
  K.isSubtype a b = true ∧ K.isSubtype b a = false

theorem isSubtype_of_star (h : (a.isStar || b.isStar) = true) : K.isSubtype a b = true := by
  have hpremises : K.premises? a b = some [] := by rw [premises?, if_pos h]
  have hroom := sizes_lt_subtypeDepth K a b
  obtain ⟨depth, hdepth⟩ := Nat.exists_eq_succ_of_ne_zero (Nat.ne_zero_of_lt hroom)
  rw [isSubtype, hdepth, subtypeWithin_succ [] hpremises (List.forall_mem_nil _)]
  rfl

namespace Stricter

theorem withoutInstanceKey (h : K.Stricter a b) :
    K.Stricter a.withoutInstanceKey b.withoutInstanceKey := by
  unfold Stricter
  rw [isSubtype_withoutInstanceKey, isSubtype_withoutInstanceKey]
  exact h

/-- Stars are subtypes both ways. -/
theorem not_star (h : K.Stricter a b) : a.isStar = false ∧ b.isStar = false := by
  refine Bool.or_eq_false_iff.1 (Bool.eq_false_iff.2 fun hstar => ?_)
  rw [Bool.or_comm] at hstar
  exact Bool.false_ne_true (h.2.symm.trans (isSubtype_of_star hstar))

/-- So are equal types. -/
theorem not_equal (h : K.Stricter a b) (ha : Distinct a) (hb : Distinct b) :
    (a == b) = false := by
  refine Bool.eq_false_iff.2 fun he => ?_
  have hba : K.isSubtype b a = true := isSubtype_of_compatible (Agree.of_beq (BEq.symm he)) hb ha
  exact Bool.false_ne_true (h.2.symm.trans hba)

theorem compareHeads (h : K.Stricter a b) (hp : K.isParameter a = false) :
    K.compareHeads a b = .lt := by
  obtain ⟨ha, hb⟩ := h.not_star
  have hnull := ((below_of_isSubtype h.1).assigned ha hb).nullable
  unfold Catalog.compareHeads
  rw [ha, hb, hp, h.1, h.2]
  cases hbn : b.nullable with
  | true =>
    cases a.nullable with
    | true => cases K.isParameter b <;> rfl
    | false => rfl
  | false =>
    rw [Bool.eq_false_iff.2 fun han => Bool.false_ne_true (hbn.symm.trans (hnull han))]
    cases K.isParameter b <;> rfl

end Stricter

/-- A strict subtype that is no type parameter is the more specific type. -/
theorem compareTypes_of_stricter (h : K.Stricter a b) (hp : K.isParameter a = false)
    (ha : Distinct a) (hb : Distinct b) (requested : Ty) :
    K.compareTypes a b requested = .lt ∧ K.compareTypes b a requested = .gt := by
  have hkeyless : ∀ {t : Ty}, Distinct t → Distinct t.withoutInstanceKey := fun ht =>
    .node ht.here ht.arguments ht.tags
  have hne := h.withoutInstanceKey.not_equal (hkeyless ha) (hkeyless hb)
  have hheads := h.withoutInstanceKey.compareHeads (show K.isParameter _ = false from hp)
  have hback := compareHeads_swap K a.withoutInstanceKey b.withoutInstanceKey
  rw [hheads] at hback
  rw [compareTypes_eq, compareTypes_eq, BEq.comm (a := b.withoutInstanceKey), hne, hheads, ← hback]
  exact ⟨rfl, rfl⟩

end Catalog

namespace Session

variable {E : Environment} {S : Session} {scope : ScopeId} {a b : InjectableId} {requested : Ty}

/-- A candidate of a strict subtype is better than one that is from the same scope and as local. -/
theorem compareCandidates_of_stricter (hab : a ≠ b)
    (howner : (S.injectable a).owner = (S.injectable b).owner)
    (hlocal : isLocal E (S.injectable a) = isLocal E (S.injectable b))
    (hlt : E.catalog.compareTypes (S.injectable a).ty (S.injectable b).ty requested = .lt)
    (hgt : E.catalog.compareTypes (S.injectable b).ty (S.injectable a).ty requested = .gt) :
    S.compareCandidates E scope requested a b = .lt ∧
      S.compareCandidates E scope requested b a = .gt := by
  have hprefer : ∀ x : Bool, prefer x x = .eq := fun x => by cases x <;> rfl
  unfold compareCandidates
  rw [if_neg hab, if_neg (Ne.symm hab)]
  dsimp only
  rw [howner, hlocal, hlt, hgt, hprefer, hprefer, Nat.compare_eq_eq.2 rfl]
  exact ⟨rfl, rfl⟩

end Session
end Wiring
