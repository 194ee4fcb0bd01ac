import Wiring.Proofs.Types.Tags
import Mathlib.Data.List.Forall2

namespace Wiring.Ty

inductive Agree (lax : Prop) : Ty → Ty → Prop
  -- What two types have in common if they agree. A star agrees with a star, and if `lax` with every
  -- type; nothing inside of a star is looked at. Tags are compared by their classifiers.
  | star {a b : Ty} (h : (a.isStar = true ∧ b.isStar = true) ∨
      (lax ∧ (a.isStar = true ∨ b.isStar = true))) : Agree lax a b
  | node {a b : Ty} (left : a.isStar = false) (right : b.isStar = false) (key : a.key = b.key)
      (nullable : a.nullable = b.nullable)
      (arguments : List.Forall₂ (Agree lax) a.arguments b.arguments)
      (tags : ∀ c, Option.Rel (Agree lax) (a.tag? c) (b.tag? c)) : Agree lax a b

abbrev Alike : Ty → Ty → Prop :=
  Agree False

abbrev Compatible : Ty → Ty → Prop :=
  Agree True

variable {lax : Prop} {a b c : Ty}

theorem optionRel_imp {R S : Ty → Ty → Prop} {x y : Option Ty} (h : ∀ x y, R x y → S x y)
    (hxy : Option.Rel R x y) : Option.Rel S x y := by
  cases hxy with
  | none => exact Option.Rel.none
  | some hr => exact Option.Rel.some (h _ _ hr)

theorem optionRel_symm {R : Ty → Ty → Prop} {x y : Option Ty} (hxy : Option.Rel R x y) :
    Option.Rel (fun y x => R x y) y x := by
  cases hxy with
  | none => exact Option.Rel.none
  | some hr => exact Option.Rel.some hr

namespace Agree

/-- To show something of all types that agree, it may be taken as known of their arguments and
tags. -/
theorem induct {motive : (a b : Ty) → Agree lax a b → Prop}
    (star : ∀ (a b : Ty) (h : (a.isStar = true ∧ b.isStar = true) ∨
      (lax ∧ (a.isStar = true ∨ b.isStar = true))), motive a b (Agree.star h))
    (node : ∀ (a b : Ty) (left : a.isStar = false) (right : b.isStar = false)
      (key : a.key = b.key) (nullable : a.nullable = b.nullable)
      (arguments : List.Forall₂ (Agree lax) a.arguments b.arguments)
      (tags : ∀ c, Option.Rel (Agree lax) (a.tag? c) (b.tag? c)),
      List.Forall₂ (fun x y => ∃ h, motive x y h) a.arguments b.arguments →
      (∀ c, Option.Rel (fun x y => ∃ h, motive x y h) (a.tag? c) (b.tag? c)) →
      motive a b (Agree.node left right key nullable arguments tags))
    {a b : Ty} (h : Agree lax a b) : motive a b h := by
  refine @Agree.rec lax motive
    (fun as bs _ => List.Forall₂ (fun x y => ∃ h, motive x y h) as bs)
    (fun s t _ => Option.Rel (fun x y => ∃ h, motive x y h) s t)
    (fun h => star _ _ h)
    (fun left right key nullable arguments tags has hts =>
      node _ _ left right key nullable arguments tags has hts) ?_ ?_ ?_ ?_ a b h
  · exact List.Forall₂.nil
  · exact fun hab _ hp hps => List.Forall₂.cons ⟨hab, hp⟩ hps
  · exact fun hab hp => Option.Rel.some ⟨hab, hp⟩
  · exact Option.Rel.none

theorem of_stars (ha : a.isStar = true) (hb : b.isStar = true) : Agree lax a b :=
  star (Or.inl ⟨ha, hb⟩)

theorem refl (a : Ty) : Agree lax a a := by
  refine Ty.induct (P := fun a => Agree lax a a) (fun a has hts => ?_) a
  cases ha : a.isStar with
  | true => exact of_stars ha ha
  | false =>
    refine node ha ha rfl rfl (List.forall₂_same.2 has) fun c => ?_
    cases hc : a.tag? c with
    | none => exact Option.Rel.none
    | some s => exact Option.Rel.some (hts s (mem_of_lookupTag hc))

theorem symm (h : Agree lax a b) : Agree lax b a := by
  induction h using induct with
  | star a b h => exact star (h.imp And.symm (And.imp_right Or.symm))
  | node a b left right key nullable _ _ arguments tags =>
    refine node right left key.symm nullable.symm ?_ fun c => ?_
    · exact (arguments.imp fun _ _ ⟨_, h⟩ => h).flip
    · exact optionRel_imp (fun _ _ ⟨_, h⟩ => h) (optionRel_symm (tags c))

/-- Strict agreement implies lax agreement. -/
theorem of_alike (h : Alike a b) : Agree lax a b := by
  induction h using induct with
  | star a b h =>
    rcases h with h | ⟨h, _⟩
    · exact star (Or.inl h)
    · exact False.elim h
  | node a b left right key nullable _ _ arguments tags =>
    exact node left right key nullable (arguments.imp fun _ _ ⟨_, h⟩ => h) fun c =>
      optionRel_imp (fun _ _ ⟨_, h⟩ => h) (tags c)

theorem isStar_eq (h : Alike a b) : a.isStar = b.isStar := by
  cases h with
  | star h =>
    rcases h with ⟨ha, hb⟩ | ⟨h, _⟩
    · rw [ha, hb]
    · exact False.elim h
  | node left right => rw [left, right]

end Agree

theorem compatible_of_star (h : a.isStar = true ∨ b.isStar = true) : Compatible a b :=
  Agree.star (Or.inr ⟨trivial, h⟩)

/-- Two types are compatible if they are whenever neither is a star. -/
theorem compatible_of_named (h : a.isStar = false → b.isStar = false → Compatible a b) :
    Compatible a b := by
  cases ha : a.isStar with
  | true => exact compatible_of_star (Or.inl ha)
  | false =>
    cases hb : b.isStar with
    | true => exact compatible_of_star (Or.inr hb)
    | false => exact h ha hb

theorem forall₂_trans_of {α β γ : Type} {R : α → β → Prop} {S : β → γ → Prop} {T : α → γ → Prop}
    {as : List α} {bs : List β} {cs : List γ}
    (h : ∀ x y z, R x y → S y z → T x z) (hab : List.Forall₂ R as bs)
    (hbc : List.Forall₂ S bs cs) : List.Forall₂ T as cs := by
  induction hab generalizing cs with
  | nil => cases hbc; exact List.Forall₂.nil
  | cons hr _ ih =>
    cases hbc with
    | cons hs hbc => exact List.Forall₂.cons (h _ _ _ hr hs) (ih hbc)

theorem optionRel_trans_of {R S T : Ty → Ty → Prop} {x y z : Option Ty}
    (h : ∀ x y z, R x y → S y z → T x z) (hxy : Option.Rel R x y) (hyz : Option.Rel S y z) :
    Option.Rel T x z := by
  cases hxy with
  | none => cases hyz; exact Option.Rel.none
  | some hr =>
    cases hyz with
    | some hs => exact Option.Rel.some (h _ _ _ hr hs)

/-- Agreement may be preceded by strict agreement. -/
theorem Alike.trans (hab : Alike a b) (hbc : Agree lax b c) : Agree lax a c := by
  induction hab using Agree.induct generalizing c with
  | star a b h =>
    rcases h with ⟨ha, hb⟩ | ⟨h, _⟩
    · cases hbc with
      | star h => exact Agree.star (by simpa [ha, hb] using h)
      | node left => rw [hb] at left; contradiction
    · exact False.elim h
  | node a b left right key nullable _ _ arguments tags =>
    cases hbc with
    | star h => exact Agree.star (by simpa [left, right] using h)
    | node left' right' key' nullable' arguments' tags' =>
      refine Agree.node left right' (key.trans key') (nullable.trans nullable') ?_ fun d => ?_
      · exact forall₂_trans_of (fun _ _ _ h h' => h.2 h') arguments arguments'
      · exact optionRel_trans_of (fun _ _ _ h h' => h.2 h') (tags d) (tags' d)

/-- Agreement may be followed by strict agreement. -/
theorem Agree.trans_alike (hab : Agree lax a b) (hbc : Alike b c) : Agree lax a c :=
  (Alike.trans hbc.symm hab.symm).symm

theorem head_of_beq {h h' : Head} (he : (h == h') = true) :
    h = .star ∧ h' = .star ∨ ∃ c d, h = .named c ∧ h' = .named d ∧ (c == d) = true := by
  cases h with
  | star =>
    cases h' with
    | star => exact Or.inl ⟨rfl, rfl⟩
    | named d => simp [BEq.beq] at he
  | named c =>
    cases h' with
    | star => simp [BEq.beq] at he
    | named d => exact Or.inr ⟨c, d, rfl, rfl, he⟩

theorem forall₂_of_beq {α : Type} [BEq α] {as bs : List α} (h : (as == bs) = true) :
    List.Forall₂ (fun x y => (x == y) = true) as bs := by
  induction as generalizing bs with
  | nil =>
    cases bs with
    | nil => exact List.Forall₂.nil
    | cons b bs => simp at h
  | cons a as ih =>
    cases bs with
    | nil => simp at h
    | cons b bs =>
      rw [List.cons_beq_cons, Bool.and_eq_true] at h
      exact List.Forall₂.cons h.1 (ih h.2)

structure EqualParts (a b : Ty) : Prop where
  -- What equal types have in common.
  head : (a.head == b.head) = true
  nullable : a.nullable = b.nullable
  instanceKey : a.instanceKey = b.instanceKey
  arguments : List.Forall₂ (fun x y => (x == y) = true) a.arguments b.arguments
  tags : List.Forall₂ (fun x y => (x == y) = true) a.tags b.tags

theorem parts_of_beq (h : (a == b) = true) : EqualParts a b := by
  rw [beq_eq] at h
  simp only [Bool.and_eq_true, beq_iff_eq (α := Bool), beq_iff_eq (α := Option Nat)] at h
  obtain ⟨⟨⟨⟨hhead, hnullable⟩, hkey⟩, harguments⟩, htags⟩ := h
  exact ⟨hhead, hnullable, hkey, forall₂_of_beq harguments, forall₂_of_beq htags⟩

theorem isStar_of_beq (h : (a == b) = true) : a.isStar = b.isStar := by
  unfold isStar
  rcases head_of_beq (parts_of_beq h).head with ⟨ha, hb⟩ | ⟨c, d, ha, hb, _⟩
  · rw [ha, hb]
  · rw [ha, hb]

theorem key_of_beq (h : (a == b) = true) : a.key = b.key := by
  unfold key classifier
  rcases head_of_beq (parts_of_beq h).head with ⟨ha, hb⟩ | ⟨c, d, ha, hb, hcd⟩
  · rw [ha, hb]
  · rw [ha, hb]
    exact Classifier.beq_iff_key_eq.1 hcd

/-- Lists of tags that correspond, one by one and with the same keys, give corresponding tags. -/
theorem lookupTag_rel {R : Ty → Ty → Prop} {ss ts : List Ty}
    (h : List.Forall₂ (fun x y => x.key = y.key ∧ R x y) ss ts) (c : Classifier) :
    Option.Rel R (lookupTag ss c) (lookupTag ts c) := by
  induction h with
  | nil => exact Option.Rel.none
  | @cons s t ss ts hst _ ih =>
    have hc : (s.classifier == c) = (t.classifier == c) :=
      BEq.congr_left (Classifier.beq_iff_key_eq.2 hst.1)
    rw [lookupTag_cons, lookupTag_cons, hc]
    split
    · exact Option.Rel.some hst.2
    · exact ih

theorem Agree.of_beq (h : (a == b) = true) : Agree lax a b := by
  refine Ty.induct (P := fun a => ∀ b, (a == b) = true → Agree lax a b) ?_ a b h
  intro a has hts b h
  have hstar := isStar_of_beq h
  have hparts := parts_of_beq h
  cases hs : a.isStar with
  | true => exact of_stars hs (hstar ▸ hs)
  | false =>
    refine node hs (hstar ▸ hs) (key_of_beq h) hparts.nullable ?_ fun c => ?_
    · refine List.forall₂_iff_get.2 ⟨hparts.arguments.length_eq, fun i h₁ h₂ => ?_⟩
      exact has _ (List.get_mem _ ⟨i, h₁⟩) _ (hparts.arguments.get h₁ h₂)
    · refine lookupTag_rel ?_ c
      refine List.forall₂_iff_get.2 ⟨hparts.tags.length_eq, fun i h₁ h₂ => ?_⟩
      have he := hparts.tags.get h₁ h₂
      exact ⟨key_of_beq he, hts _ (List.get_mem _ ⟨i, h₁⟩) _ he⟩

end Wiring.Ty
