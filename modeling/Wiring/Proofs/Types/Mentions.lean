import Wiring.Proofs.Types.Substitution

namespace Wiring.Ty

variable {m : Substitution} {a b t : Ty} {k : String}

def Mentions (t : Ty) (k : String) : Prop :=
  ∃ c ∈ t.classifiers, c.key = k

theorem not_mentions_of_isStar (h : t.isStar = true) : ¬ Mentions t k := by
  obtain ⟨head, as, n, ts, i⟩ := t
  cases head with
  | star => simp [Mentions, classifiers]
  | named c => simp [isStar] at h

theorem mentions_iff (hs : t.isStar = false) :
    Mentions t k ↔ t.key = k ∨ (∃ a ∈ t.arguments, Mentions a k) ∨ ∃ s ∈ t.tags, Mentions s k := by
  simp only [Mentions, classifiers_eq hs, List.mem_cons, List.mem_append, List.mem_flatMap]
  constructor
  · rintro ⟨c, rfl | ⟨a, ha, hc⟩ | ⟨s, hs, hc⟩, rfl⟩
    · exact Or.inl rfl
    · exact Or.inr (Or.inl ⟨a, ha, c, hc, rfl⟩)
    · exact Or.inr (Or.inr ⟨s, hs, c, hc, rfl⟩)
  · rintro (rfl | ⟨a, ha, c, hc, rfl⟩ | ⟨s, hs, c, hc, rfl⟩)
    · exact ⟨t.classifier, Or.inl rfl, rfl⟩
    · exact ⟨c, Or.inr (Or.inl ⟨a, ha, hc⟩), rfl⟩
    · exact ⟨c, Or.inr (Or.inr ⟨s, hs, hc⟩), rfl⟩

theorem pairwise_of_forall₂ {α β : Type} {R : α → β → Prop} {P : β → β → Prop} {Q : α → α → Prop}
    {as : List α} {bs : List β} (h : List.Forall₂ R as bs)
    (hQ : ∀ a a' b b', R a b → R a' b' → P b b' → Q a a') (hb : bs.Pairwise P) : as.Pairwise Q := by
  induction h with
  | nil => exact .nil
  | @cons a b as bs hab hrest ih =>
    obtain ⟨hfirst, hb⟩ := List.pairwise_cons.1 hb
    refine List.pairwise_cons.2 ⟨fun a' ha' => ?_, ih hb⟩
    obtain ⟨b', hb', hab'⟩ := exists_mem_of_forall₂ hrest ha'
    exact hQ a a' b b' hab hab' (hfirst b' hb')

/-- Equal types mention the same. -/
theorem Mentions.of_beq (h : Mentions a k) (hab : (a == b) = true) : Mentions b k := by
  refine Ty.induct (P := fun a => ∀ b, Mentions a k → (a == b) = true → Mentions b k) ?_ a b h hab
  intro a iha iht b h hab
  have hstar := isStar_of_beq hab
  have hparts := parts_of_beq hab
  cases hs : a.isStar with
  | true => exact absurd h (not_mentions_of_isStar hs)
  | false =>
    rw [mentions_iff (hstar ▸ hs)]
    rcases (mentions_iff hs).1 h with h | ⟨x, hx, h⟩ | ⟨x, hx, h⟩
    · exact Or.inl ((key_of_beq hab).symm.trans h)
    · obtain ⟨y, hy, hxy⟩ := exists_mem_of_forall₂ hparts.arguments hx
      exact Or.inr (Or.inl ⟨y, hy, iha x hx y h hxy⟩)
    · obtain ⟨y, hy, hxy⟩ := exists_mem_of_forall₂ hparts.tags hx
      exact Or.inr (Or.inr ⟨y, hy, iht x hx y h hxy⟩)

/-- A result in which the classifier is replaced mentions what its value and its tags do. -/
theorem mentions_of_bound {v : Ty} (hs : t.isStar = false) (hc : m.get? t.classifier = some v)
    (h : Mentions (t.substitute m) k) :
    Mentions v k ∨ ∃ s ∈ t.tags, Mentions (s.substitute m) k := by
  obtain ⟨head, as, n, ts, i⟩ := t
  cases head with
  | star => simp [isStar] at hs
  | named c =>
    change m.get? c = some v at hc
    rw [substitute_bound hc] at h
    cases hv : v.isStar with
    | true => exact absurd h (not_mentions_of_isStar hv)
    | false =>
      rw [mentions_iff hv]
      rcases (mentions_iff (t := ⟨v.head, _, _, _, _⟩) hv).1 h with h | ⟨a, ha, h⟩ | ⟨s, hs, h⟩
      · exact Or.inl (Or.inl h)
      · exact Or.inl (Or.inr (Or.inl ⟨a, ha, h⟩))
      · rcases List.mem_append.1 (mem_of_mem_canonicalTags hs) with hs | hs
        · obtain ⟨x, hx, rfl⟩ := List.mem_map.1 hs
          exact Or.inr ⟨x, hx, h⟩
        · exact Or.inl (Or.inr (Or.inr ⟨s, hs, h⟩))

/-- A result in which the classifier stays mentions it, and what its arguments and its tags do. -/
theorem mentions_of_unbound (hs : t.isStar = false) (hc : m.get? t.classifier = none)
    (h : Mentions (t.substitute m) k) :
    t.key = k ∨ (∃ a ∈ t.arguments, Mentions (a.substitute m) k) ∨
      ∃ s ∈ t.tags, Mentions (s.substitute m) k := by
  obtain ⟨head, as, n, ts, i⟩ := t
  cases head with
  | star => simp [isStar] at hs
  | named c =>
    change m.get? c = none at hc
    -- if the type stays as it is, its parts are only equal to those after the substitution
    rcases substitute_unbound hc with ⟨he, has, hts⟩ | he
    · rw [he] at h
      rcases (mentions_iff hs).1 h with h | ⟨a, ha, h⟩ | ⟨s, hs, h⟩
      · exact Or.inl h
      · obtain ⟨a', ha', haa⟩ := exists_mem_of_forall₂ (forall₂_of_beq has) ha
        obtain ⟨x, hx, rfl⟩ := List.mem_map.1 ha'
        exact Or.inr (Or.inl ⟨x, hx, h.of_beq haa⟩)
      · obtain ⟨s', hs', hss⟩ := exists_mem_of_forall₂ (forall₂_of_beq hts) hs
        obtain ⟨x, hx, rfl⟩ := List.mem_map.1 hs'
        exact Or.inr (Or.inr ⟨x, hx, h.of_beq hss⟩)
    · rw [he] at h
      rcases (mentions_iff (t := ⟨.named c, _, _, _, _⟩) rfl).1 h with h | ⟨a, ha, h⟩ | ⟨s, hs, h⟩
      · exact Or.inl h
      · obtain ⟨x, hx, rfl⟩ := List.mem_map.1 ha
        exact Or.inr (Or.inl ⟨x, hx, h⟩)
      · obtain ⟨x, hx, rfl⟩ := List.mem_map.1 (mem_of_mem_canonicalTags hs)
        exact Or.inr (Or.inr ⟨x, hx, h⟩)

def Arises (m : Substitution) (t : Ty) (k : String) : Prop :=
  (Mentions t k ∧ m.get? ⟨k, 0⟩ = none) ∨
    ∃ c v, Mentions t c.key ∧ m.get? c = some v ∧ Mentions v k

theorem Arises.mono (h : Arises m a k) (hab : ∀ k, Mentions a k → Mentions b k) :
    Arises m b k := by
  rcases h with ⟨h, hk⟩ | ⟨c, v, h, hc, hv⟩
  · exact Or.inl ⟨hab k h, hk⟩
  · exact Or.inr ⟨c, v, hab _ h, hc, hv⟩

/-- A result mentions only what arises from the type. -/
theorem arises_of_mentions_substitute (h : Mentions (t.substitute m) k) : Arises m t k := by
  refine Ty.induct (P := fun t => Mentions (t.substitute m) k → Arises m t k) ?_ t h
  intro t iha iht h
  cases hs : t.isStar with
  | true =>
    rw [substitute_of_isStar hs] at h
    exact absurd h (not_mentions_of_isStar hs)
  | false =>
    have hself : Mentions t t.key := (mentions_iff hs).2 (Or.inl rfl)
    have harg : ∀ a ∈ t.arguments, Mentions (a.substitute m) k → Arises m t k := fun a ha h =>
      (iha a ha h).mono fun k h => (mentions_iff hs).2 (Or.inr (Or.inl ⟨a, ha, h⟩))
    have htag : ∀ s ∈ t.tags, Mentions (s.substitute m) k → Arises m t k := fun s hmem h =>
      (iht s hmem h).mono fun k h => (mentions_iff hs).2 (Or.inr (Or.inr ⟨s, hmem, h⟩))
    -- the classifier itself, by its value or as it is; all else arises from a part
    cases hc : m.get? t.classifier with
    | some v =>
      rcases mentions_of_bound hs hc h with h | ⟨s, hmem, h⟩
      · exact Or.inr ⟨t.classifier, v, hself, hc, h⟩
      · exact htag s hmem h
    | none =>
      rcases mentions_of_unbound hs hc h with rfl | ⟨a, hmem, h⟩ | ⟨s, hmem, h⟩
      · exact Or.inl ⟨hself, (m.get_congr (c := ⟨t.key, 0⟩) (d := t.classifier) rfl).trans hc⟩
      · exact harg a hmem h
      · exact htag s hmem h

end Wiring.Ty
