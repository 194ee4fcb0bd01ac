import Wiring.Proofs.Types.Tables

namespace Wiring

open Ty

structure Vocabulary where
  -- The classifiers that types may mention, by key, and the declarations with parameters that
  -- producers may come from, by id.
  classifier : String → Prop
  declaration : String → Prop

namespace Vocabulary

variable {V W : Vocabulary} {K : Catalog} {m n : Substitution} {t u : Ty} {c : Classifier}

def Covers (V : Vocabulary) (t : Ty) : Prop :=
  t.Everywhere fun t => t.isStar = false → V.classifier t.key

def CoversAll (V : Vocabulary) (ts : List Ty) : Prop :=
  ∀ t ∈ ts, V.Covers t

def Binds (V : Vocabulary) (m : Substitution) : Prop :=
  ∀ c t, m.get? c = some t → V.Covers t

def Describes (V : Vocabulary) (K : Catalog) : Prop :=
  ∀ c, V.CoversAll (K.declaredSupertypes c)

/-! ### Types and their parts -/

theorem covers_star : V.Covers .star :=
  Everywhere.node (fun h => by cases h) (List.forall_mem_nil _) (List.forall_mem_nil _)

theorem covers_of (h : V.classifier c.key) : V.Covers (.of c) :=
  Everywhere.node (fun _ => h) (List.forall_mem_nil _) (List.forall_mem_nil _)

/-- A type is covered if it has the classifier of one that is, and covered arguments and tags. -/
theorem Covers.of_head (h : V.Covers t) (hh : u.head = t.head) (ha : V.CoversAll u.arguments)
    (hs : V.CoversAll u.tags) : V.Covers u := by
  refine Everywhere.node (fun hu => ?_) ha hs
  have ht : t.isStar = false := by
    rw [isStar, ← hh]
    exact hu
  have hk : u.key = t.key := congrArg (fun head : Head => head.classifier.key) hh
  rw [hk]
  exact h.here ht

theorem Covers.withInstanceKey (h : V.Covers t) (k : Option Nat) :
    V.Covers (t.withInstanceKey k) :=
  h.of_head rfl h.arguments h.tags

theorem Covers.withoutInstanceKey (h : V.Covers t) : V.Covers t.withoutInstanceKey :=
  h.withInstanceKey none

theorem Covers.withNullability (h : V.Covers t) (nullable : Bool) :
    V.Covers (t.withNullability nullable) :=
  h.of_head rfl h.arguments h.tags

theorem Covers.withoutTags (h : V.Covers t) (cs : List Classifier) : V.Covers (t.withoutTags cs) :=
  h.of_head rfl h.arguments fun s hs => h.tags s (List.mem_filter.1 hs).1

theorem Covers.above {sub : Ty} (h : V.Covers t) (hsub : V.Covers sub) :
    V.Covers (t.above sub) := by
  refine h.of_head rfl h.arguments fun s hs => ?_
  rcases List.mem_append.1 (mem_of_mem_canonicalTags hs) with hs | hs
  · exact hsub.tags s hs
  · exact h.tags s hs

theorem Covers.classifiers (h : V.Covers t) : ∀ c ∈ t.classifiers, V.classifier c.key := by
  induction h with
  | @node t here arguments tags iha iht =>
    intro c hc
    cases hs : t.isStar with
    | true =>
      obtain ⟨head, as, n, ts, k⟩ := t
      cases head with
      | star => simp [Ty.classifiers] at hc
      | named d => simp [isStar] at hs
    | false =>
      rw [classifiers_eq hs, List.mem_cons, List.mem_append, List.mem_flatMap,
        List.mem_flatMap] at hc
      rcases hc with rfl | ⟨a, ha, hc⟩ | ⟨s, hts, hc⟩
      · exact here hs
      · exact iha a ha c hc
      · exact iht s hts c hc

theorem Covers.parametersIn (h : V.Covers t) : ∀ p ∈ K.parametersIn t, V.classifier p.key :=
  fun p hp => h.classifiers p (Catalog.of_mem_parametersIn hp).1

theorem Covers.functionParameters (h : V.Covers t) : V.CoversAll (K.functionParameters t) := by
  intro a ha
  unfold Catalog.functionParameters at ha
  split at ha
  · exact h.arguments a (List.dropLast_subset _ ha)
  · cases ha

theorem Covers.functionReturn (h : V.Covers t) (hu : K.functionReturn? t = some u) :
    V.Covers u := by
  unfold Catalog.functionReturn? at hu
  split at hu
  · exact h.arguments u (List.mem_of_getLast? hu)
  · cases hu

/-! ### Substitution -/

theorem binds_empty : V.Binds .empty := by
  intro c t h
  cases h

theorem Covers.substitute (h : V.Covers t) (hm : V.Binds m) : V.Covers (t.substitute m) := by
  refine Everywhere.substitute h (fun _ h => h) hm ?_
  intro t ht hs
  cases hst : t.isStar with
  | true =>
    rw [substitute_of_isStar hst, hst] at hs
    cases hs
  | false =>
    cases hc : m.get? t.classifier with
    | none =>
      rw [key_substitute hc]
      exact ht hst
    | some v =>
      obtain ⟨head, as, n, ts, k⟩ := t
      cases head with
      | star => cases hst
      | named c =>
        rw [substitute_bound (c := c) hc] at hs ⊢
        exact (hm c v hc).here hs

theorem Binds.insert (hm : V.Binds m) (ht : V.Covers t) : V.Binds (m.insert c t) := by
  intro d u hu
  rw [Substitution.get_insert] at hu
  split at hu
  · cases hu
    exact ht
  · exact hm d u hu

theorem Binds.compose (hm : V.Binds m) (hn : V.Binds n) : V.Binds (m.compose n) := by
  intro c t h
  rw [Substitution.get_compose, Option.or_eq_some_iff] at h
  rcases h with h | ⟨_, h⟩
  · obtain ⟨u, hu, rfl⟩ := Option.map_eq_some_iff.1 h
    exact (hm c u hu).substitute hn
  · exact hn c t h

theorem Binds.restrict (hm : V.Binds m) (cs : List Classifier) : V.Binds (m.restrict cs) := by
  intro c t h
  rw [Substitution.get_restrict] at h
  split at h
  · exact hm c t h
  · cases h

theorem Covers.argumentsOf (h : V.Covers t) : V.Binds (K.argumentsOf t) := by
  intro c u hu
  unfold Catalog.argumentsOf at hu
  split at hu
  · cases hu
  · exact h.arguments u (Catalog.mem_of_get_ofArguments hu).1

/-! ### Supertypes -/

theorem Covers.supertypes (h : V.Covers t) (hK : V.Describes K) :
    V.CoversAll (K.supertypes t) := by
  intro s hs
  unfold Catalog.supertypes at hs
  split at hs
  · cases hs
  · next c _ =>
    obtain ⟨d, hd, rfl⟩ := List.mem_map.1 hs
    exact ((hK c d hd).substitute h.argumentsOf).above h

/-- A view of a covered type is covered. -/
theorem Covers.view (h : V.Covers t) (hK : V.Describes K) (hu : K.view? t c = some u) :
    V.Covers u :=
  (Catalog.of_view (fun _ ht => Covers.supertypes ht hK) h hu).1

/-- So is the view of it as a collection. -/
theorem Covers.collectionView (h : V.Covers t) (hK : V.Describes K)
    (hu : K.collectionView? t = some u) : V.Covers u :=
  Catalog.of_collectionView (fun _ ht => Covers.supertypes ht hK) h hu

/-! ### Comparison of vocabularies -/

structure Within (V W : Vocabulary) : Prop where
  -- Everything of `V` is in `W`.
  classifier : ∀ k, V.classifier k → W.classifier k
  declaration : ∀ d, V.declaration d → W.declaration d

theorem Covers.mono (h : V.Covers t) (hVW : V.Within W) : W.Covers t :=
  Everywhere.imp (fun _ ht hs => hVW.classifier _ (ht hs)) h

theorem Binds.mono (h : V.Binds m) (hVW : V.Within W) : W.Binds m :=
  fun c t ht => (h c t ht).mono hVW

def Finite (V : Vocabulary) : Prop :=
  ∃ keys ids : List String, (∀ k, V.classifier k → k ∈ keys) ∧ ∀ d, V.declaration d → d ∈ ids

def listing (keys ids : List String) : Vocabulary where
  classifier k := k ∈ keys
  declaration d := d ∈ ids

theorem finite_listing (keys ids : List String) : (listing keys ids).Finite :=
  ⟨keys, ids, fun _ => id, fun _ => id⟩

def adding (V : Vocabulary) (keys ids : List String) : Vocabulary where
  classifier k := V.classifier k ∨ k ∈ keys
  declaration d := V.declaration d ∨ d ∈ ids

theorem within_adding (keys ids : List String) : V.Within (V.adding keys ids) where
  classifier _ := Or.inl
  declaration _ := Or.inl

theorem Finite.adding (h : V.Finite) (keys ids : List String) : (V.adding keys ids).Finite := by
  obtain ⟨keys', ids', hk, hd⟩ := h
  refine ⟨keys' ++ keys, ids' ++ ids, ?_, ?_⟩
  · rintro k (h | h)
    · exact List.mem_append_left keys (hk k h)
    · exact List.mem_append_right keys' h
  · rintro d (h | h)
    · exact List.mem_append_left ids (hd d h)
    · exact List.mem_append_right ids' h

/-- Finitely many keys are enough for the types of a list, if they are enough for each of them. -/
theorem exists_keys_of_forall {α : Type} {P : Vocabulary → α → Prop} {xs : List α}
    (h : ∀ x ∈ xs, ∃ keys : List String, ∀ V : Vocabulary, (∀ k ∈ keys, V.classifier k) → P V x) :
    ∃ keys : List String, ∀ V : Vocabulary, (∀ k ∈ keys, V.classifier k) → ∀ x ∈ xs, P V x := by
  induction xs with
  | nil => exact ⟨[], fun V _ => List.forall_mem_nil _⟩
  | cons x xs ih =>
    obtain ⟨hx, hxs⟩ := List.forall_mem_cons.1 h
    obtain ⟨keys, hk⟩ := hx
    obtain ⟨keys', hk'⟩ := ih hxs
    refine ⟨keys ++ keys', fun V hV => List.forall_mem_cons.2 ⟨hk V ?_, hk' V ?_⟩⟩
    · exact fun k hk => hV k (List.mem_append_left keys' hk)
    · exact fun k hk => hV k (List.mem_append_right keys hk)

/-- Finitely many keys are enough for a type. -/
theorem exists_keys (t : Ty) : ∃ keys : List String, ∀ V : Vocabulary,
    (∀ k ∈ keys, V.classifier k) → V.Covers t := by
  induction t using Ty.induct with
  | step t iha iht =>
    obtain ⟨keys, hk⟩ := exists_keys_of_forall iha
    obtain ⟨keys', hk'⟩ := exists_keys_of_forall iht
    refine ⟨t.key :: (keys ++ keys'), fun V hV => ?_⟩
    obtain ⟨ht, hV⟩ := List.forall_mem_cons.1 hV
    refine Everywhere.node (fun _ => ht) (hk V ?_) (hk' V ?_)
    · exact fun k hk => hV k (List.mem_append_left keys' hk)
    · exact fun k hk => hV k (List.mem_append_right keys hk)

end Vocabulary
end Wiring
