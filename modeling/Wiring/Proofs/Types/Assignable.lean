import Wiring.Subtyping
import Wiring.Proofs.Types.Tables

namespace Wiring.Catalog

open Ty

variable {K : Catalog} {a b : Ty}

def DistinctAt (t : Ty) : Prop :=
  (t.tags.map key).Nodup

abbrev Distinct (t : Ty) : Prop :=
  Everywhere DistinctAt t

theorem Regular.distinct {t : Ty} (h : K.Regular t) : Distinct t :=
  h.imp fun _ h => h.distinct

/-! ### Sizes -/

theorem size_le_total {t : Ty} {ts : List Ty} (h : t ∈ ts) : t.size ≤ totalSize ts := by
  induction ts with
  | nil => simp at h
  | cons u ts ih =>
    rw [totalSize]
    rcases List.mem_cons.1 h with rfl | h
    · omega
    · have hle := ih h
      omega

theorem size_lt_of_mem_arguments (h : a ∈ b.arguments) : a.size < b.size := by
  have hle := size_le_total h
  rw [size_eq b]
  omega

theorem size_lt_of_mem_tags (h : a ∈ b.tags) : a.size < b.size := by
  have hle := size_le_total h
  rw [size_eq b]
  omega

/-- A comparison may go deeper than both types together are large. -/
theorem sizes_lt_subtypeDepth (K : Catalog) (a b : Ty) : a.size + b.size < K.subtypeDepth a b := by
  have hle : a.size + b.size ≤ (a.size + b.size) * (K.weight + 1) :=
    Nat.le_mul_of_pos_right _ (Nat.succ_pos _)
  unfold subtypeDepth
  omega

/-! ### Premises -/

/-- If `a` has each tag that `b` needs, the premises on tags are these pairs. -/
theorem exists_tagPremises {Q : Ty → Ty → Prop}
    (h : ∀ needed ∈ b.tags, ∃ present, a.tag? needed.classifier = some present ∧ Q present needed) :
    ∃ ps, tagPremises? a b = some ps ∧
      ∀ p ∈ ps, p.1 ∈ a.tags ∧ p.2 ∈ b.tags ∧ Q p.1 p.2 := by
  unfold tagPremises?
  generalize b.tags = ts at h
  induction ts with
  | nil => exact ⟨[], rfl, by simp⟩
  | cons needed ts ih =>
    obtain ⟨present, hp, hq⟩ := h needed (List.mem_cons_self ..)
    obtain ⟨ps, hps, hall⟩ := ih fun u hu => h u (List.mem_cons_of_mem needed hu)
    refine ⟨(present, needed) :: ps, ?_, ?_⟩
    · rw [List.mapM_cons, hp, hps]
      rfl
    · intro p hp'
      rcases List.mem_cons.1 hp' with rfl | hp'
      · exact ⟨mem_of_lookupTag hp, List.mem_cons_self .., hq⟩
      · obtain ⟨h₁, h₂, h₃⟩ := hall p hp'
        exact ⟨h₁, List.mem_cons_of_mem needed h₂, h₃⟩

/-- The premises on tags pair each tag that is needed with the one that is present for it. -/
theorem forall₂_tagPremises {ps : List (Ty × Ty)} (h : tagPremises? a b = some ps) :
    List.Forall₂ (fun needed p => p.2 = needed ∧ a.tag? needed.classifier = some p.1) b.tags ps := by
  unfold tagPremises? at h
  generalize b.tags = ts at h ⊢
  induction ts generalizing ps with
  | nil =>
    cases h
    exact List.Forall₂.nil
  | cons needed ts ih =>
    rw [List.mapM_cons] at h
    obtain ⟨p, hp, h⟩ := Option.bind_eq_some_iff.1 h
    obtain ⟨qs, hqs, h⟩ := Option.bind_eq_some_iff.1 h
    obtain ⟨present, hpresent, rfl⟩ := Option.map_eq_some_iff.1 hp
    cases h
    exact List.Forall₂.cons ⟨rfl, hpresent⟩ (ih hqs)

theorem mem_tagPremises {ps : List (Ty × Ty)} (h : tagPremises? a b = some ps) :
    ∀ needed ∈ b.tags, ∃ present,
      a.tag? needed.classifier = some present ∧ (present, needed) ∈ ps := by
  intro needed hn
  obtain ⟨⟨present, _⟩, hmem, rfl, hp⟩ := exists_mem_of_forall₂ (forall₂_tagPremises h) hn
  exact ⟨present, hp, hmem⟩

theorem of_mem_tagPremises {ps : List (Ty × Ty)} (h : tagPremises? a b = some ps) :
    ∀ p ∈ ps, p.2 ∈ b.tags ∧ a.tag? p.2.classifier = some p.1 := by
  intro p hp
  obtain ⟨_, hn, rfl, hpresent⟩ := exists_mem_of_forall₂ (forall₂_tagPremises h).flip hp
  exact ⟨hn, hpresent⟩

def bothWays (as bs : List Ty) : List (Ty × Ty) :=
  (as.zip bs).flatMap fun p => [(p.1, p.2), (p.2, p.1)]

theorem argumentPremises_eq_some_iff {as bs : List Ty} {ps : List (Ty × Ty)} :
    argumentPremises? as bs = some ps ↔ as.length = bs.length ∧ ps = bothWays as bs := by
  unfold argumentPremises?
  split
  · next hl =>
    exact ⟨fun h => ⟨beq_iff_eq.1 hl, (Option.some.inj h).symm⟩, fun h => congrArg some h.2.symm⟩
  · next hl => exact ⟨fun h => (nomatch h), fun h => absurd (beq_iff_eq.2 h.1) hl⟩

theorem mem_argumentPremises {as bs : List Ty} {ps : List (Ty × Ty)}
    (h : argumentPremises? as bs = some ps) :
    List.Forall₂ (fun x y => (x, y) ∈ ps ∧ (y, x) ∈ ps) as bs := by
  obtain ⟨hl, rfl⟩ := argumentPremises_eq_some_iff.1 h
  refine List.forall₂_iff_zip.2 ⟨hl, fun {x y} hp => ⟨?_, ?_⟩⟩
  · exact List.mem_flatMap.2 ⟨(x, y), hp, List.mem_cons_self ..⟩
  · exact List.mem_flatMap.2 ⟨(x, y), hp, List.mem_cons_of_mem _ (List.mem_cons_self ..)⟩

/-- Arguments that are related both ways have related pairs as premises. -/
theorem exists_argumentPremises {Q : Ty → Ty → Prop} {as bs : List Ty}
    (h : List.Forall₂ (fun x y => Q x y ∧ Q y x) as bs) :
    ∃ ps, argumentPremises? as bs = some ps ∧
      ∀ p ∈ ps, Q p.1 p.2 ∧ ((p.1 ∈ as ∧ p.2 ∈ bs) ∨ (p.1 ∈ bs ∧ p.2 ∈ as)) := by
  refine ⟨_, argumentPremises_eq_some_iff.2 ⟨h.length_eq, rfl⟩, fun p hp => ?_⟩
  obtain ⟨⟨x, y⟩, hxy, hp⟩ := List.mem_flatMap.1 hp
  obtain ⟨hx, hy⟩ := List.of_mem_zip hxy
  obtain ⟨hleft, hright⟩ := (List.forall₂_iff_zip.1 h).2 hxy
  rcases List.mem_cons.1 hp with rfl | hp
  · exact ⟨hleft, Or.inl ⟨hx, hy⟩⟩
  · obtain rfl := List.mem_singleton.1 hp
    exact ⟨hright, Or.inr ⟨hy, hx⟩⟩

theorem forall_of_allM {ps : List (Ty × Ty)} {f : Ty × Ty → Option Bool}
    (h : ps.allM f = some true) : ∀ p ∈ ps, f p = some true := by
  induction ps with
  | nil => exact List.forall_mem_nil _
  | cons p ps ih =>
    rw [List.allM] at h
    obtain ⟨found, hp, hps⟩ := Option.bind_eq_some_iff.1 h
    cases found with
    | false => cases hps
    | true => exact List.forall_mem_cons.2 ⟨hp, ih hps⟩

theorem allM_eq_true {ps : List (Ty × Ty)} {f : Ty × Ty → Option Bool}
    (h : ∀ p ∈ ps, f p = some true) : ps.allM f = some true := by
  induction ps with
  | nil => rfl
  | cons p ps ih =>
    rw [List.allM, h p (List.mem_cons_self ..)]
    exact ih fun q hq => h q (List.mem_cons_of_mem p hq)

theorem subtypeWithin_succ {depth : Nat} (ps : List (Ty × Ty)) (hp : K.premises? a b = some ps)
    (h : ∀ p ∈ ps, K.subtypeWithin depth p.1 p.2 = some true) :
    K.subtypeWithin (depth + 1) a b = some true := by
  simp only [subtypeWithin, hp]
  exact allM_eq_true fun p hps => h p hps

/-- What `a` needs to be assignable to `b`: that it may be null only if `b` may, the tags, and,
unless `b` is the top type, the view. -/
theorem exists_premises {Q : Ty → Ty → Prop} (hn : a.nullable = true → b.nullable = true)
    (ht : ∀ needed ∈ b.tags, ∃ present,
      a.tag? needed.classifier = some present ∧ Q present needed)
    (hv : (K.flagsOf b).top = true ∨ ∃ view, K.view? a b.classifier = some view ∧
      List.Forall₂ (fun x y => Q x y ∧ Q y x) view.arguments b.arguments) :
    ∃ ps, K.premises? a b = some ps ∧ ∀ p ∈ ps, Q p.1 p.2 ∧
      ((p.1 ∈ a.tags ∧ p.2 ∈ b.tags) ∨ ∃ view, K.view? a b.classifier = some view ∧
        ((p.1 ∈ view.arguments ∧ p.2 ∈ b.arguments) ∨
          (p.1 ∈ b.arguments ∧ p.2 ∈ view.arguments))) := by
  unfold premises?
  by_cases hs : (a.isStar || b.isStar) = true
  · exact ⟨[], by simp [hs], by simp⟩
  · have hnull : (a.nullable && !b.nullable) = false := by
      cases h : a.nullable with
      | false => rfl
      | true => simp [hn h]
    obtain ⟨ps, hps, htags⟩ := exists_tagPremises ht
    -- below the top type the tags are all that counts
    by_cases htop : (K.flagsOf b).top = true
    · refine ⟨ps, by simp [hs, hnull, hps, htop], fun p hp => ?_⟩
      obtain ⟨h₁, h₂, h₃⟩ := htags p hp
      exact ⟨h₃, Or.inl ⟨h₁, h₂⟩⟩
    · obtain ⟨view, hview, hargs⟩ := hv.resolve_left htop
      obtain ⟨qs, hqs, hall⟩ := exists_argumentPremises hargs
      refine ⟨ps ++ qs, by simp [hs, hnull, hps, htop, hview, hqs], fun p hp => ?_⟩
      rcases List.mem_append.1 hp with hp | hp
      · obtain ⟨h₁, h₂, h₃⟩ := htags p hp
        exact ⟨h₃, Or.inl ⟨h₁, h₂⟩⟩
      · obtain ⟨h₁, h₂⟩ := hall p hp
        exact ⟨h₁, Or.inr ⟨view, hview, h₂⟩⟩

structure Compared (K : Catalog) (a b : Ty) (ps : List (Ty × Ty)) : Prop where
  -- The premises of a comparison in which neither side is a star.
  nullable : a.nullable = true → b.nullable = true
  parts : ∃ ts, tagPremises? a b = some ts ∧ ((K.flagsOf b).top = true ∧ ps = ts ∨
    (K.flagsOf b).top = false ∧ ∃ view, K.view? a b.classifier = some view ∧
      view.arguments.length = b.arguments.length ∧ ps = ts ++ bothWays view.arguments b.arguments)

theorem of_premises {ps : List (Ty × Ty)} (h : K.premises? a b = some ps) (ha : a.isStar = false)
    (hb : b.isStar = false) : K.Compared a b ps := by
  unfold premises? at h
  rw [ha, hb] at h
  split at h
  · contradiction
  split at h
  · cases h
  next hn =>
  obtain ⟨ts, hts, h⟩ := Option.bind_eq_some_iff.1 h
  refine ⟨fun han => by simpa [han] using hn, ts, hts, ?_⟩
  split at h
  · next htop =>
    cases h
    exact Or.inl ⟨htop, rfl⟩
  · next htop =>
    obtain ⟨view, hview, h⟩ := Option.bind_eq_some_iff.1 h
    obtain ⟨qs, hqs, h⟩ := Option.bind_eq_some_iff.1 h
    cases h
    obtain ⟨hl, rfl⟩ := argumentPremises_eq_some_iff.1 hqs
    exact Or.inr ⟨Bool.eq_false_iff.2 htop, view, hview, hl, rfl⟩

/-! ### Compatible types -/

theorem exists_tag_of_compatible (hb : DistinctAt b)
    (h : ∀ c, Option.Rel Compatible (a.tag? c) (b.tag? c)) {needed : Ty} (hn : needed ∈ b.tags) :
    ∃ present, a.tag? needed.classifier = some present ∧ Compatible present needed := by
  have hr := h needed.classifier
  have hself : b.tag? needed.classifier = some needed := lookupTag_of_mem hb hn
  rw [hself] at hr
  obtain ⟨present, hp, hc⟩ := exists_of_rel_some (optionRel_symm hr)
  exact ⟨present, hp, hc⟩

theorem view_self {c : Classifier} (h : a.key = c.key) : K.view? a c = some a := by
  have hb : (a.classifier == c) = true := Classifier.beq_iff_key_eq.2 h
  simp [view?, nearest?, hb]

/-- Compatible types are subtypes of each other, by as many levels as one of them has nodes. -/
theorem subtypeWithin_of_compatible {depth : Nat} (h : Compatible a b) (ha : Distinct a)
    (hb : Distinct b) (hd : a.size ≤ depth ∨ b.size ≤ depth) :
    K.subtypeWithin depth a b = some true := by
  induction depth generalizing a b with
  | zero =>
    have := size_pos a
    have := size_pos b
    omega
  | succ depth ih =>
    cases h with
    | star hs =>
      have hs' : (a.isStar || b.isStar) = true := by
        rcases hs with ⟨hs, _⟩ | ⟨_, hs⟩
        · rw [hs, Bool.true_or]
        · exact Bool.or_eq_true_iff.2 hs
      exact subtypeWithin_succ [] (by simp [premises?, hs']) (by simp)
    | node left right key nullable arguments tags =>
      have hview : K.view? a b.classifier = some a := view_self key
      obtain ⟨ps, hps, hall⟩ := exists_premises (K := K) (fun h => nullable ▸ h)
        (fun needed hn => exists_tag_of_compatible hb.here tags hn)
        (Or.inr ⟨a, hview, arguments.imp fun _ _ h => ⟨h, h.symm⟩⟩)
      refine subtypeWithin_succ ps hps fun p hp => ?_
      obtain ⟨hc, hm⟩ := hall p hp
      -- one side of each premise is a part of `a`, the other one of `b`
      rcases hm with ⟨h₁, h₂⟩ | ⟨view, hv, hm⟩
      · have hl := size_lt_of_mem_tags h₁
        have hr := size_lt_of_mem_tags h₂
        exact ih hc (ha.tags _ h₁) (hb.tags _ h₂) (by omega)
      · obtain rfl : a = view := Option.some.inj (hview.symm.trans hv)
        rcases hm with ⟨h₁, h₂⟩ | ⟨h₁, h₂⟩
        · have hl := size_lt_of_mem_arguments h₁
          have hr := size_lt_of_mem_arguments h₂
          exact ih hc (ha.arguments _ h₁) (hb.arguments _ h₂) (by omega)
        · have hl := size_lt_of_mem_arguments h₁
          have hr := size_lt_of_mem_arguments h₂
          exact ih hc (hb.arguments _ h₁) (ha.arguments _ h₂) (by omega)

/-- A type is a subtype of another one if it has the tags and a view that are compatible with it. -/
theorem isSubtype_of_view (ha : Distinct a) (hb : Distinct b)
    (hn : a.nullable = true → b.nullable = true)
    (ht : ∀ needed ∈ b.tags, ∃ present,
      a.tag? needed.classifier = some present ∧ Compatible present needed)
    (hv : (K.flagsOf b).top = true ∨ ∃ view, K.view? a b.classifier = some view ∧
      List.Forall₂ Compatible view.arguments b.arguments)
    (hd : ∀ view, K.view? a b.classifier = some view → Distinct view) :
    K.isSubtype a b = true := by
  obtain ⟨ps, hps, hall⟩ := exists_premises hn ht
    (hv.imp_right fun ⟨view, hview, hargs⟩ => ⟨view, hview, hargs.imp fun _ _ h => ⟨h, h.symm⟩⟩)
  -- the depth is generous, one side of each premise is smaller than it
  have hroom : a.size + b.size < K.subtypeDepth a b := sizes_lt_subtypeDepth K a b
  obtain ⟨depth, hdepth, hsize⟩ : ∃ depth, K.subtypeDepth a b = depth + 1 ∧ b.size ≤ depth :=
    ⟨K.subtypeDepth a b - 1, by omega, by omega⟩
  have hall' : ∀ p ∈ ps, K.subtypeWithin depth p.1 p.2 = some true := by
    intro p hp
    obtain ⟨hc, hm⟩ := hall p hp
    rcases hm with ⟨h₁, h₂⟩ | ⟨view, hview, ⟨h₁, h₂⟩ | ⟨h₁, h₂⟩⟩
    · have hlt := size_lt_of_mem_tags h₂
      exact subtypeWithin_of_compatible hc (ha.tags _ h₁) (hb.tags _ h₂) (Or.inr (by omega))
    · have hlt := size_lt_of_mem_arguments h₂
      exact subtypeWithin_of_compatible hc ((hd view hview).arguments _ h₁) (hb.arguments _ h₂)
        (Or.inr (by omega))
    · have hlt := size_lt_of_mem_arguments h₁
      exact subtypeWithin_of_compatible hc (hb.arguments _ h₁) ((hd view hview).arguments _ h₂)
        (Or.inl (by omega))
  rw [isSubtype, hdepth, subtypeWithin_succ ps hps hall']
  rfl

/-- Compatible types are subtypes of each other. -/
theorem isSubtype_of_compatible (h : Compatible a b) (ha : Distinct a) (hb : Distinct b) :
    K.isSubtype a b = true := by
  have hroom : a.size + b.size < K.subtypeDepth a b := sizes_lt_subtypeDepth K a b
  rw [isSubtype, subtypeWithin_of_compatible h ha hb (Or.inl (by omega))]
  rfl

end Wiring.Catalog
