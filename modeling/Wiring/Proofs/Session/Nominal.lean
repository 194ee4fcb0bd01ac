import Wiring.Proofs.Fit.Likeness
import Wiring.Proofs.Fit.Solution
import Wiring.Proofs.Session.Ranking
import Wiring.Proofs.Types.Keyless

namespace Wiring

open Ty

namespace Ty

variable {a b : Ty}

theorem keyless_key (t : Ty) : t.keyless.key = t.key := by
  rw [keyless_eq]
  rfl

theorem sorted_keyless_iff {ts : List Ty} :
    Keyed.Sorted key (ts.map keyless) ↔ Keyed.Sorted key ts := by
  simp only [Keyed.Sorted, List.pairwise_map, keyless_key]

theorem Canonical.keyless (h : Canonical a) : Canonical a.keyless := by
  induction h with
  | @node t here arguments tags iha iht =>
    rw [keyless_eq]
    exact Everywhere.node (sorted_keyless_iff.2 here) (List.forall_mem_map.2 iha)
      (List.forall_mem_map.2 iht)

theorem canonical_of_keyless (h : Canonical a.keyless) : Canonical a := by
  refine Ty.induct (P := fun a => Canonical a.keyless → Canonical a) (fun a iha iht h => ?_) a h
  rw [keyless_eq] at h
  exact Everywhere.node (sorted_keyless_iff.1 h.here)
    (fun x hx => iha x hx (h.arguments _ (List.mem_map_of_mem hx)))
    fun x hx => iht x hx (h.tags _ (List.mem_map_of_mem hx))

theorem kin_of_keyless (ha : Canonical a) (h : a.keyless = b.keyless) : Kin a b where
  left := ha
  right := canonical_of_keyless (h ▸ ha.keyless)
  same := by
    rw [h]
    exact BEq.rfl

end Ty

def Substitution.keyless (m : Substitution) : Substitution :=
  m.map Ty.keyless

namespace Catalog

variable {K : Catalog} {a a' b b' r r' : Ty} {as as' bs bs' rs rs' : List Ty}

theorem prefer_self (x : Bool) : prefer x x = .eq := by
  cases x <;> rfl

theorem compareHeads_of_kin (hK : K.Coherent) (hD : K.DeclaresCanonical) (h : Kin a b) :
    K.compareHeads a b = .eq := by
  have hstar := h.isStar_eq
  have hnull := h.parts.2.1
  have hparameter := (likeness_kin hD).isParameter_eq hK h
  have hsubtype := isSubtype_kin hK hD h h.symm
  simp only [compareHeads, hstar, hnull, hparameter, hsubtype, prefer_self]
  rfl

theorem compareArguments_of_kin
    (ih : ∀ a ∈ as, ∀ b r, Kin a b → K.compareTypes a b r = .eq) (h : List.Forall₂ Kin as bs)
    (rs : List Ty) : K.compareArguments as bs rs = .eq := by
  induction h generalizing rs with
  | nil => rfl
  | @cons a b as bs hab _ ihrest =>
    obtain ⟨iha, ihas⟩ := List.forall_mem_cons.1 ih
    rw [compareArguments, iha b _ hab, ihrest ihas]
    rfl

/-- A comparison does not tell types apart that differ in instance keys only. -/
theorem compareTypes_of_kin (hK : K.Coherent) (hD : K.DeclaresCanonical) (h : Kin a b) (r : Ty) :
    K.compareTypes a b r = .eq := by
  refine Ty.induct (P := fun a => ∀ b r, Kin a b → K.compareTypes a b r = .eq) ?_ a b r h
  intro a iha _ b r h
  rw [compareTypes_eq]
  split
  · rfl
  · rw [compareHeads_of_kin hK hD h.withoutInstanceKey,
      if_pos (Classifier.beq_iff_key_eq.2 h.key_eq),
      compareArguments_of_kin iha h.parts.2.2.1]
    rfl

theorem compareHeads_kin (hK : K.Coherent) (hD : K.DeclaresCanonical) (ha : Kin a a')
    (hb : Kin b b') : K.compareHeads a b = K.compareHeads a' b' := by
  have hR := likeness_kin hD
  simp only [compareHeads, ha.isStar_eq, hb.isStar_eq, ha.parts.2.1, hb.parts.2.1,
    hR.isParameter_eq hK ha, hR.isParameter_eq hK hb, isSubtype_kin hK hD ha hb,
    isSubtype_kin hK hD hb ha]

theorem compareDistances_kin (hK : K.Coherent) (hD : K.DeclaresCanonical) (ha : Kin a a')
    (hb : Kin b b') (hr : Kin r r') :
    K.compareDistances r a b = K.compareDistances r' a' b' := by
  have hR := likeness_kin hD
  unfold compareDistances
  rw [hR.distance_eq hK ha hr.key_eq, hR.distance_eq hK hb hr.key_eq]

theorem compareArguments_kin (ih : ∀ a ∈ as, ∀ a' b b' r r', Kin a a' → Kin b b' → Kin r r' →
      K.compareTypes a b r = K.compareTypes a' b' r')
    (ha : List.Forall₂ Kin as as') (hb : List.Forall₂ Kin bs bs') (hr : List.Forall₂ Kin rs rs') :
    K.compareArguments as bs rs = K.compareArguments as' bs' rs' := by
  induction ha generalizing bs bs' rs rs' with
  | nil => rfl
  | @cons a a' as as' haa _ ihrest =>
    obtain ⟨iha, ihas⟩ := List.forall_mem_cons.1 ih
    cases hb with
    | nil => rfl
    | cons hbb hb =>
      cases hr with
      | nil =>
        rw [compareArguments, compareArguments]
        congr 1
        · exact iha _ _ _ _ _ haa hbb haa
        · exact ihrest ihas hb List.Forall₂.nil
      | cons hrr hr =>
        rw [compareArguments, compareArguments]
        congr 1
        · exact iha _ _ _ _ _ haa hbb hrr
        · exact ihrest ihas hb hr

/-- Comparisons are the same for types that differ in instance keys only. -/
theorem compareTypes_kin (hK : K.Coherent) (hD : K.DeclaresCanonical) (ha : Kin a a')
    (hb : Kin b b') (hr : Kin r r') : K.compareTypes a b r = K.compareTypes a' b' r' := by
  refine Ty.induct (P := fun a => ∀ a' b b' r r', Kin a a' → Kin b b' → Kin r r' →
    K.compareTypes a b r = K.compareTypes a' b' r') ?_ a a' b b' r r' ha hb hr
  intro a iha _ a' b b' r r' ha hb hr
  -- types that are equal on one side need only be kin on the other one
  have hequal : ∀ {x y : Ty}, Canonical x → Canonical y →
      (x.withoutInstanceKey == y.withoutInstanceKey) = true → Kin x y := fun hx hy he =>
    (kin_withoutInstanceKey hx).symm.trans <|
      (Kin.of_beq (kin_withoutInstanceKey hx).left (kin_withoutInstanceKey hy).left he).trans
        (kin_withoutInstanceKey hy)
  by_cases hkin : Kin a b
  · rw [compareTypes_of_kin hK hD hkin, compareTypes_of_kin hK hD (ha.symm.trans (hkin.trans hb))]
  · have hleft : ¬ (a.withoutInstanceKey == b.withoutInstanceKey) = true := fun he =>
      hkin (hequal ha.left hb.left he)
    have hright : ¬ (a'.withoutInstanceKey == b'.withoutInstanceKey) = true := fun he =>
      hkin (ha.trans ((hequal ha.right hb.right he).trans hb.symm))
    rw [compareTypes_eq, compareTypes_eq, if_neg hleft, if_neg hright,
      compareHeads_kin hK hD ha.withoutInstanceKey hb.withoutInstanceKey,
      Classifier.beq_congr ha.key_eq hb.key_eq,
      compareArguments_kin iha ha.parts.2.2.1 hb.parts.2.2.1 hr.parts.2.2.1,
      compareDistances_kin hK hD ha.withoutInstanceKey hb.withoutInstanceKey hr]

/-- Whatever instance keys two types have, and wherever, the same subtypings, distances and comparisons
hold of them, and both have a view or a fit or neither has: the same one but for instance keys. -/
theorem nominal_of_keyless (hK : K.Coherent) (hD : K.DeclaresCanonical) (ha : Canonical a)
    (hb : Canonical b) (hr : Canonical r) (haa : a.keyless = a'.keyless)
    (hbb : b.keyless = b'.keyless) (hrr : r.keyless = r'.keyless) :
    K.isSubtype a b = K.isSubtype a' b' ∧
    (∀ c, K.distance? a c = K.distance? a' c) ∧
    K.compareTypes a b r = K.compareTypes a' b' r' ∧
    (∀ c, ((K.view? a c).map Ty.keyless == (K.view? a' c).map Ty.keyless) = true) ∧
    ∀ statics, ((K.fit statics a b).toOption.map Substitution.keyless ==
      (K.fit statics a' b').toOption.map Substitution.keyless) = true := by
  have hR := likeness_kin hD
  have hkin := kin_of_keyless ha haa
  have hkin' := kin_of_keyless hb hbb
  refine ⟨isSubtype_kin hK hD hkin hkin', fun c => hR.distance_eq hK hkin rfl,
    compareTypes_kin hK hD hkin hkin' (kin_of_keyless hr hrr), fun c => ?_, fun statics => ?_⟩
  · have hview := hR.view hK hkin (c := c) (d := c) rfl
    revert hview
    generalize K.view? a c = x, K.view? a' c = y
    rintro (hxy | _)
    · exact hxy.same
    · rfl
  · have hfit := hR.fit hK (SameKeys.refl statics) hkin hkin'
    revert hfit
    generalize (K.fit statics a b).toOption = x, (K.fit statics a' b').toOption = y
    rintro (hm | _)
    · exact (hm.map fun _ _ h => h.same).beq
    · rfl

def keyedBox : Ty where
  head := .named ⟨"Box", 0⟩
  arguments := [(Ty.of ⟨"Int", 0⟩).withInstanceKey (some 1)]

/-- A box of integers fits a box of `T` in the same way, whichever integer is in it. -/
theorem keyedBox_nominal : (Fit.box "Int").keyless = keyedBox.keyless ∧
    ((Fit.shelf.fit [] (Fit.box "Int") (Fit.box "T")).toOption.map Substitution.keyless ==
      (Fit.shelf.fit [] keyedBox (Fit.box "T")).toOption.map Substitution.keyless) = true := by
  have hdeclared : Fit.shelf.DeclaresCanonical := fun c s hs => by
    obtain ⟨rfl, -⟩ := Fit.supertypes_shelf hs
    exact Everywhere.node List.Pairwise.nil (List.forall_mem_nil _) (List.forall_mem_nil _)
  have hleaf : ∀ key, Canonical (.of ⟨key, 0⟩) := fun key =>
    Everywhere.node List.Pairwise.nil (List.forall_mem_nil _) (List.forall_mem_nil _)
  have hbox : ∀ key, Canonical (Fit.box key) := fun key =>
    Everywhere.node List.Pairwise.nil (List.forall_mem_singleton.2 (hleaf key))
      (List.forall_mem_nil _)
  have hkeys : (Fit.box "Int").keyless = keyedBox.keyless := rfl
  obtain ⟨-, -, -, -, hfit⟩ := nominal_of_keyless Fit.single_shelf.coherent hdeclared (hbox "Int")
    (hbox "T") (hbox "Int") hkeys (rfl : (Fit.box "T").keyless = (Fit.box "T").keyless) hkeys
  exact ⟨hkeys, hfit []⟩

def renamed : Catalog where
  entries := [
    ("P", [{ flags := { typeParameter := true } }, {}]),
    ("Box", [{
      typeParameters := [⟨"P", 0⟩]
      supertypes := some [{ head := .named ⟨"Source", 0⟩, arguments := [.of ⟨"P", 0⟩] }] }]),
    ("Source", [{ typeParameters := [⟨"Source.E", 0⟩] }]),
    ("Source.E", [{ flags := { typeParameter := true } }])]

def boxOfClass (instanceKey : Option Nat) : Ty where
  head := .named ⟨"Box", 0⟩
  arguments := [{ head := .named ⟨"P", 1⟩, instanceKey }]

def sourceOfParameter : Ty where
  head := .named ⟨"Source", 0⟩
  arguments := [.of ⟨"P", 0⟩]

/-- Where a parameter and a class have one key an instance key decides which of them a supertype is
made of, and so whether a fit binds the parameter. -/
theorem revisions_told_apart :
    (boxOfClass none).keyless = (boxOfClass (some 5)).keyless ∧
      ((renamed.fit [] (boxOfClass none) sourceOfParameter).toOption.map Substitution.keyless ==
        (renamed.fit [] (boxOfClass (some 5)) sourceOfParameter).toOption.map
          Substitution.keyless) = false :=
  ⟨rfl, by decide +kernel⟩

end Catalog
end Wiring
