import Wiring.Proofs.Types.Hierarchy

namespace Wiring.Catalog

open Ty

variable {K : Catalog} {a b : Ty}

def Below (K : Catalog) (a b : Ty) : Prop :=
  ∃ depth, K.subtypeWithin depth a b = some true

theorem below_of_isSubtype (h : K.isSubtype a b = true) : K.Below a b := by
  refine ⟨K.subtypeDepth a b, ?_⟩
  unfold isSubtype at h
  cases hs : K.subtypeWithin (K.subtypeDepth a b) a b with
  | none => simp [hs] at h
  | some found =>
    rw [hs, Option.getD_some] at h
    rw [h]

structure Assigned (K : Catalog) (a b : Ty) : Prop where
  -- What it takes for `a` to be below `b`, where neither is a star.
  nullable : a.nullable = true → b.nullable = true
  tags : ∀ needed ∈ b.tags, ∃ present,
    a.tag? needed.classifier = some present ∧ K.Below present needed
  view : (K.flagsOf b).top = true ∨ ∃ view, K.view? a b.classifier = some view ∧
    List.Forall₂ (fun x y => K.Below x y ∧ K.Below y x) view.arguments b.arguments

theorem Below.assigned (h : K.Below a b) (ha : a.isStar = false) (hb : b.isStar = false) :
    K.Assigned a b := by
  obtain ⟨depth, h⟩ := h
  cases depth with
  | zero => cases h
  | succ depth =>
    rw [subtypeWithin] at h
    split at h
    · next ps hps =>
      have hall : ∀ x y, (x, y) ∈ ps → K.Below x y :=
        fun x y hp => ⟨depth, forall_of_allM h (x, y) hp⟩
      obtain ⟨hnull, ts, hts, hparts⟩ := of_premises hps ha hb
      have htags : (∀ p ∈ ts, p ∈ ps) → ∀ needed ∈ b.tags, ∃ present,
          a.tag? needed.classifier = some present ∧ K.Below present needed := by
        intro hsub needed hneeded
        obtain ⟨present, hp, hmem⟩ := mem_tagPremises hts needed hneeded
        exact ⟨present, hp, hall _ _ (hsub _ hmem)⟩
      -- below the top type the arguments are premises in both directions
      rcases hparts with ⟨htop, rfl⟩ | ⟨-, view, hview, hl, rfl⟩
      · exact ⟨hnull, htags fun _ hp => hp, Or.inl htop⟩
      · refine ⟨hnull, htags fun _ hp => List.mem_append_left _ hp, Or.inr ⟨view, hview, ?_⟩⟩
        have hargs := mem_argumentPremises (argumentPremises_eq_some_iff.2 ⟨hl, rfl⟩)
        refine hargs.imp fun x y hxy => ⟨hall x y ?_, hall y x ?_⟩
        · exact List.mem_append_right ts hxy.1
        · exact List.mem_append_right ts hxy.2
    · cases h

/-- What has a view by a type below it has its classifier. -/
theorem Assigned.key_eq_of_view (h : K.Assigned a b) (hP : K.Proper) (hT : K.BareTops)
    (hA : ∀ k, ¬ Relation.TransGen K.Inherits k k) (hb : b.isStar = false) {view : Ty}
    (hview : K.view? b a.classifier = some view) : a.key = b.key := by
  rcases h.view with htop | ⟨v, hv, -⟩
  · rw [flagsOf_of_named hb] at htop
    exact (key_of_view_of_topmost (hT _ htop) hview).symm
  · exact hP.key_eq_of_views hA hv hview

/-- Of two types that are below each other neither is properly above the other one. -/
theorem key_eq_of_assigned (hK : K.Hierarchy) (hT : K.SingleTop) (ha : a.isStar = false)
    (hb : b.isStar = false) (hab : K.Assigned a b) (hba : K.Assigned b a) : a.key = b.key := by
  rcases hba.view with hat | ⟨w, hw, -⟩
  · rw [flagsOf_of_named ha] at hat
    rcases hab.view with hbt | ⟨v, hv, -⟩
    · rw [flagsOf_of_named hb] at hbt
      exact hT.unique _ _ hat hbt
    · exact key_of_view_of_topmost (hT.supertypes _ hat) hv
  · exact hab.key_eq_of_view hK.proper hT.supertypes hK.acyclic hb hw

theorem arguments_eq_nil (ha : K.WellFormed a) (hs : a.isStar = false)
    (hp : K.typeParameters a.classifier = []) : a.arguments = [] := by
  apply List.eq_nil_of_length_eq_zero
  rw [ha.here.arity hs, hp]
  rfl

/-- A type that is below another one with its own classifier has matching arguments. -/
theorem Assigned.arguments (h : K.Assigned a b) (hK : K.Hierarchy) (hT : K.SingleTop)
    (ha : K.WellFormed a) (hb : K.WellFormed b) (has : a.isStar = false) (hbs : b.isStar = false)
    (hk : a.key = b.key) :
    List.Forall₂ (fun x y => K.Below x y ∧ K.Below y x) a.arguments b.arguments := by
  rcases h.view with htop | ⟨view, hview, hargs⟩
  · rw [flagsOf_of_named hbs] at htop
    have hpb := hT.parameters _ htop
    have hpa : K.typeParameters a.classifier = [] := (hK.coherent.typeParameters_eq hk).trans hpb
    rw [arguments_eq_nil ha has hpa, arguments_eq_nil hb hbs hpb]
    exact List.Forall₂.nil
  · obtain rfl : a = view := Option.some.inj ((view_self hk).symm.trans hview)
    exact hargs

/-- The tags of two types that are below each other correspond. -/
theorem tags_of_assigned (hab : K.Assigned a b) (hba : K.Assigned b a) (d : Classifier) :
    Option.Rel (fun x y => K.Below x y ∧ K.Below y x) (a.tag? d) (b.tag? d) := by
  cases hb : b.tag? d with
  | none =>
    cases ha : a.tag? d with
    | none => exact Option.Rel.none
    | some s =>
      obtain ⟨t, ht, -⟩ := hba.tags s (mem_of_lookupTag ha)
      rw [tag_eq_lookupTag, lookupTag_congr _ (key_of_lookupTag ha)] at ht
      rw [tag_eq_lookupTag, ht] at hb
      cases hb
  | some t =>
    obtain ⟨s, hs, hst⟩ := hab.tags t (mem_of_lookupTag hb)
    obtain ⟨t', ht', hts⟩ := hba.tags s (mem_of_lookupTag hs)
    have hk : s.key = d.key := (key_of_lookupTag hs).trans (key_of_lookupTag hb)
    rw [tag_eq_lookupTag, lookupTag_congr _ (key_of_lookupTag hb)] at hs
    rw [tag_eq_lookupTag, lookupTag_congr _ hk, ← tag_eq_lookupTag, hb] at ht'
    obtain rfl := Option.some.inj ht'
    rw [tag_eq_lookupTag, hs]
    exact Option.Rel.some ⟨hst, hts⟩

/-- Well-formed types that are subtypes of each other are compatible. -/
theorem compatible_of_below (hK : K.Hierarchy) (hT : K.SingleTop) (ha : K.WellFormed a)
    (hb : K.WellFormed b) (hab : K.Below a b) (hba : K.Below b a) : Compatible a b := by
  induction ha generalizing b with
  | @node a here arguments tags iha iht =>
    have ha : K.WellFormed a := Everywhere.node here arguments tags
    refine compatible_of_named fun has hbs => ?_
    have hab := hab.assigned has hbs
    have hba := hba.assigned hbs has
    have hk := key_eq_of_assigned hK hT has hbs hab hba
    refine Agree.node has hbs hk ?_ ?_ fun d => ?_
    · exact Bool.eq_iff_iff.2 ⟨hab.nullable, hba.nullable⟩
    · refine forall₂_imp_of_mem (hab.arguments hK hT ha hb has hbs hk) fun x hx y hy h => ?_
      exact iha x hx (hb.arguments y hy) h.1 h.2
    · exact optionRel_imp_of_mem (tags_of_assigned hab hba d) fun x y hx hy h =>
        iht x (mem_of_lookupTag hx) (hb.tags y (mem_of_lookupTag hy)) h.1 h.2

end Wiring.Catalog
