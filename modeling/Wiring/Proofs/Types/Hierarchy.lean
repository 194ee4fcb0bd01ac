import Mathlib.Logic.Relation
import Wiring.Proofs.Types.Assignable
import Wiring.Proofs.Types.Projection

namespace Wiring.Catalog

open Ty

structure WellFormedAt (K : Catalog) (t : Ty) : Prop where
  -- A node as it should be: as many arguments as its classifier has parameters, and the tags in
  -- their stored form.
  star : t.isStar = true → t.arguments = []
  arity : t.isStar = false → t.arguments.length = (K.typeParameters t.classifier).length
  sorted : Keyed.Sorted key t.tags

abbrev WellFormed (K : Catalog) (t : Ty) : Prop :=
  Everywhere K.WellFormedAt t

variable {K : Catalog} {m : Substitution} {t u : Ty} {c : Classifier}

theorem WellFormedAt.distinct (h : K.WellFormedAt t) : DistinctAt t := by
  refine List.pairwise_map.2 (h.sorted.imp ?_)
  intro a b hab he
  exact String.lt_irrefl _ (he ▸ hab)

theorem WellFormed.distinct (h : K.WellFormed t) : Distinct t :=
  h.imp fun _ h => h.distinct

theorem wellFormed_star : K.WellFormed .star :=
  Everywhere.node ⟨fun _ => rfl, fun hs => (nomatch hs), List.Pairwise.nil⟩
    (List.forall_mem_nil _) (List.forall_mem_nil _)

theorem wellFormed_of (h : K.typeParameters c = []) : K.WellFormed (.of c) := by
  refine Everywhere.node ⟨fun hs => ?_, fun _ => ?_, List.Pairwise.nil⟩
    (List.forall_mem_nil _) (List.forall_mem_nil _)
  · cases hs
  · rw [show (Ty.of c).classifier = c from rfl, h]
    rfl

/-- A classifier is applied to as many arguments as it has parameters. -/
theorem wellFormed_of_apply {as : List Ty} (h : K.apply c as = .ok t)
    (has : ∀ a ∈ as, K.WellFormed a) : K.WellFormed t := by
  simp only [apply] at h
  split at h
  · next hl =>
    cases h
    refine Everywhere.node ⟨fun hs => ?_, fun _ => hl.symm, List.Pairwise.nil⟩ has
      (List.forall_mem_nil _)
    cases hs
  · cases h

/-- Tags may be exchanged for others that are well-formed. -/
theorem WellFormed.withTags {ts : List Ty} (h : K.WellFormed t) (hts : ∀ s ∈ ts, K.WellFormed s) :
    K.WellFormed (t.withTags ts) :=
  Everywhere.node ⟨h.here.star, h.here.arity, Keyed.ofList_sorted key ts⟩ h.arguments
    fun s hs => hts s (mem_of_mem_canonicalTags hs)

theorem WellFormed.tagged (h : K.WellFormed t) (hu : K.WellFormed u) : K.WellFormed (t.tagged u) :=
  h.withTags (List.forall_mem_cons.2 ⟨hu, h.tags⟩)

/-- What is left of the tags is in order as before. -/
theorem WellFormed.withoutTags (h : K.WellFormed t) (cs : List Classifier) :
    K.WellFormed (t.withoutTags cs) :=
  Everywhere.node ⟨h.here.star, h.here.arity, h.here.sorted.filter _⟩ h.arguments
    fun s hs => h.tags s (List.mem_filter.1 hs).1

theorem WellFormed.withNullability (h : K.WellFormed t) (nullable : Bool) :
    K.WellFormed (t.withNullability nullable) :=
  Everywhere.node ⟨h.here.star, h.here.arity, h.here.sorted⟩ h.arguments h.tags

theorem WellFormed.withInstanceKey (h : K.WellFormed t) (k : Option Nat) :
    K.WellFormed (t.withInstanceKey k) :=
  Everywhere.node ⟨h.here.star, h.here.arity, h.here.sorted⟩ h.arguments h.tags

theorem WellFormed.above (h : K.WellFormed t) (hu : K.WellFormed u) : K.WellFormed (t.above u) := by
  refine (h.withTags fun s hs => ?_).withNullability _
  rcases List.mem_append.1 hs with hs | hs
  · exact hu.tags s hs
  · exact h.tags s hs

theorem wellFormedAt_substitute (ht : K.WellFormedAt t)
    (hm : ∀ c v, m.get? c = some v → K.WellFormedAt v) : K.WellFormedAt (t.substitute m) := by
  obtain ⟨head, as, n, ts, k⟩ := t
  cases head with
  | star => exact ht
  | named c =>
    cases hc : m.get? c with
    | some v =>
      rw [substitute_bound hc]
      exact ⟨(hm c v hc).star, (hm c v hc).arity, Keyed.ofList_sorted key _⟩
    | none =>
      rcases substitute_unbound hc with ⟨he, -⟩ | he
      · rw [he]
        exact ht
      · rw [he]
        refine ⟨fun h => ?_, fun h => ?_, Keyed.ofList_sorted key _⟩
        · cases h
        · rw [List.length_map]
          exact ht.arity rfl

theorem WellFormed.substitute (ht : K.WellFormed t)
    (hm : ∀ c v, m.get? c = some v → K.WellFormed v) : K.WellFormed (t.substitute m) :=
  Everywhere.substitute ht (fun _ h => h) hm fun _ h =>
    wellFormedAt_substitute h fun c v hc => (hm c v hc).here

/-- The supertypes of a well-formed type are well-formed if all declared ones are. -/
theorem WellFormed.supertypes (ht : K.WellFormed t)
    (hK : ∀ c, ∀ s ∈ K.declaredSupertypes c, K.WellFormed s) :
    ∀ s ∈ K.supertypes t, K.WellFormed s := by
  intro s hs
  obtain ⟨d, hd, rfl⟩ := exists_declared hs
  refine ((hK _ d hd).substitute fun c v hv => ?_).above ht
  exact ht.arguments v (of_get_argumentsOf hv).1

theorem WellFormed.view_of_declared (ht : K.WellFormed t)
    (hK : ∀ c, ∀ s ∈ K.declaredSupertypes c, K.WellFormed s) (hu : K.view? t c = some u) :
    K.WellFormed u :=
  (of_view (fun _ ht => ht.supertypes hK) ht hu).1

def Inherits (K : Catalog) (k l : String) : Prop :=
  ∃ c : Classifier, c.key = k ∧ ∃ s ∈ K.declaredSupertypes c, s.key = l

/-- A catalog of well-formed declarations in which no classifier is above itself and none is directly
below one of its own parameters. -/
structure Hierarchy (K : Catalog) : Prop where
  coherent : K.Coherent
  wellFormed : ∀ c, ∀ s ∈ K.declaredSupertypes c, K.WellFormed s
  proper : ∀ c, ∀ s ∈ K.declaredSupertypes c, s.isStar = false →
    (K.typeParameters c).contains s.classifier = false
  acyclic : ∀ k, ¬ Relation.TransGen K.Inherits k k

/-- There is at most one top classifier, and it has no parameters and no supertypes. -/
structure SingleTop (K : Catalog) : Prop where
  unique : ∀ c d, (K.flags c).top = true → (K.flags d).top = true → c.key = d.key
  parameters : ∀ c, (K.flags c).top = true → K.typeParameters c = []
  supertypes : ∀ c, (K.flags c).top = true → K.declaredSupertypes c = []

theorem Hierarchy.wellFormed_supertypes (hK : K.Hierarchy) (ht : K.WellFormed t) :
    ∀ s ∈ K.supertypes t, K.WellFormed s :=
  ht.supertypes hK.wellFormed

/-- A view of a well-formed type is well-formed. -/
theorem WellFormed.view (ht : K.WellFormed t) (hK : K.Hierarchy) (hu : K.view? t c = some u) :
    K.WellFormed u :=
  ht.view_of_declared hK.wellFormed hu

/-- The classifier of a supertype is the declared one, since no parameter stands there. -/
theorem Proper.inherits (hK : K.Proper) (hu : u ∈ K.supertypes t) : K.Inherits t.key u.key := by
  obtain ⟨s, hs, rfl⟩ := exists_declared hu
  exact ⟨t.classifier, rfl, s, hs, (hK.key_declared hs).symm⟩

/-- Top classifiers have no supertypes. -/
def BareTops (K : Catalog) : Prop :=
  ∀ c, (K.flags c).top = true → K.declaredSupertypes c = []

/-- Inheritance is acyclic if it goes down a ranking. -/
theorem acyclic_of_rank (rank : String → Nat) (h : ∀ k l, K.Inherits k l → rank l < rank k) :
    ∀ k, ¬ Relation.TransGen K.Inherits k k := by
  have hlt : ∀ k l, Relation.TransGen K.Inherits k l → rank l < rank k := by
    intro k l hkl
    induction hkl with
    | single hl => exact h k _ hl
    | tail _ hl ih => exact Nat.lt_trans (h _ _ hl) ih
  exact fun k hk => Nat.lt_irrefl _ (hlt k k hk)

/-- A type inherits from what it has a view by. -/
theorem Proper.reaches_view (hK : K.Proper) (hu : K.view? t c = some u) :
    Relation.ReflTransGen K.Inherits t.key c.key := by
  have hstep : ∀ s, Relation.ReflTransGen K.Inherits t.key s.key →
      ∀ s' ∈ K.supertypes s, Relation.ReflTransGen K.Inherits t.key s'.key :=
    fun s hs s' hs' => hs.tail (hK.inherits hs')
  obtain ⟨hreach, hkey⟩ := of_view hstep Relation.ReflTransGen.refl hu
  exact hkey ▸ hreach

/-- Two types that have views by each other's classifiers have the same one. -/
theorem Proper.key_eq_of_views (hK : K.Proper) (hA : ∀ k, ¬ Relation.TransGen K.Inherits k k)
    {a b v w : Ty} (hv : K.view? a b.classifier = some v) (hw : K.view? b a.classifier = some w) :
    a.key = b.key := by
  have hab := hK.reaches_view hv
  have hba := hK.reaches_view hw
  rcases Relation.reflTransGen_iff_eq_or_transGen.1 hab with he | hup
  · exact he.symm
  · exact absurd (hup.trans_left hba) (hA a.key)

/-- Nothing is above a type without supertypes but itself. -/
theorem key_of_view_of_topmost (ht : K.declaredSupertypes t.classifier = [])
    (hu : K.view? t c = some u) : t.key = c.key := by
  have hstep : ∀ s, s = t → ∀ s' ∈ K.supertypes s, s' = t := by
    rintro s rfl s' hs'
    obtain ⟨d, hd, -⟩ := exists_declared hs'
    rw [ht] at hd
    cases hd
  obtain ⟨rfl, hkey⟩ := of_view hstep rfl hu
  exact hkey

end Wiring.Catalog
