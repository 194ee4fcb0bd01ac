import Mathlib.Data.List.Nodup
import Wiring.Proofs.Types.Keyless

namespace Wiring

def Substitution.SparesAfter (a b : Substitution) (t : Ty) : Prop :=
  ∀ s ∈ t.tags, b.get? (s.substitute a).classifier = none

namespace Ty

variable {a b m : Substitution} {c : Classifier} {n n' : Bool} {k k' : Option Nat} {t u v : Ty}
  {as ts ts' us : List Ty}

/-! ### Tags that are merged -/

theorem mem_canonicalTags_iff : t ∈ canonicalTags ts ↔ lookupTag ts t.classifier = some t := by
  constructor
  · intro h
    rw [← lookupTag_canonicalTags]
    exact lookupTag_of_mem (canonicalTags_nodup ts) h
  · intro h
    rw [← lookupTag_canonicalTags] at h
    exact mem_of_lookupTag h

/-- The stored form of a list of tags is known by the tags that are found in the list. -/
theorem canonicalTags_ext (h : ∀ c, lookupTag ts c = lookupTag us c) :
    canonicalTags ts = canonicalTags us := by
  have hnodup : ∀ ts : List Ty, (canonicalTags ts).Nodup := fun ts =>
    List.Nodup.of_map key (canonicalTags_nodup ts)
  have hperm : (canonicalTags ts).Perm (canonicalTags us) := by
    refine (List.perm_ext_iff_of_nodup (hnodup ts) (hnodup us)).2 fun t => ?_
    rw [mem_canonicalTags_iff, mem_canonicalTags_iff, h]
  exact hperm.eq_of_pairwise (fun x y _ _ hxy hyx => absurd hyx (String.lt_asymm hxy))
    (Keyed.ofList_sorted key ts) (Keyed.ofList_sorted key us)

/-! ### Types at a place -/

def placed (nullable : Bool) (tags : List Ty) (instanceKey : Option Nat) (v : Ty) : Ty where
  head := v.head
  arguments := v.arguments
  nullable := nullable || v.nullable
  tags := canonicalTags (tags ++ v.tags)
  instanceKey := instanceKey.or v.instanceKey

theorem placed_of_sorted (h : Keyed.Sorted key t.tags) : placed false [] none t = t := by
  obtain ⟨head, as, n, ts, k⟩ := t
  have hts : canonicalTags ts = ts := Keyed.ofList_of_sorted h
  simp [placed, hts]

/-- What two places add, one inside the other, is added by one place. -/
theorem placed_placed :
    placed n ts k (placed n' ts' k' v) = placed (n || n') (ts ++ ts') (k.or k') v := by
  have htags : canonicalTags (ts ++ canonicalTags (ts' ++ v.tags)) =
      canonicalTags (ts ++ ts' ++ v.tags) :=
    canonicalTags_ext fun c => by
      simp only [lookupTag_append, lookupTag_canonicalTags, Option.or_assoc]
  simp only [placed, htags, Bool.or_assoc, Option.or_assoc]

theorem placed_beq (hv : (v == u) = true)
    (hts : List.Forall₂ (fun x y => (x == y) = true) ts us) :
    (placed n ts k v == placed n us k u) = true := by
  obtain ⟨hhead, hnull, hkey, hargs, htags⟩ := parts_of_beq hv
  have hmerged := beq_of_forall₂ (canonicalTags_beq (List.rel_append hts htags))
  simp only [placed, beq_eq, hhead, hnull, hkey, beq_of_forall₂ hargs, hmerged, BEq.rfl,
    Bool.and_self]

/-! ### Substitution at a place -/

theorem substitute_of_bound {v : Ty} (h : m.get? c = some v) :
    (⟨.named c, as, n, ts, k⟩ : Ty).substitute m = placed n (ts.map (substitute m)) k v :=
  substitute_bound h

/-- Where the classifier is not bound, the parts are replaced. A place puts the tags in order,
whether or not anything has changed. -/
theorem placed_substitute_unbound (as : List Ty) (n : Bool) (ts : List Ty) (k : Option Nat)
    (n' : Bool) (ts' : List Ty) (k' : Option Nat) (h : m.get? c = none) :
    (placed n' ts' k' ((⟨.named c, as, n, ts, k⟩ : Ty).substitute m) ==
      placed n' ts' k' ⟨.named c, as.map (substitute m), n, ts.map (substitute m), k⟩) = true := by
  rcases substitute_unbound h with ⟨he, has, hts⟩ | he
  · rw [he]
    refine placed_beq ?_ (List.forall₂_same.2 fun _ _ => BEq.rfl)
    simp only [beq_eq, has, hts, BEq.rfl, Bool.and_self]
  · have htags : canonicalTags (ts' ++ canonicalTags (ts.map (substitute m))) =
        canonicalTags (ts' ++ ts.map (substitute m)) :=
      canonicalTags_ext fun c => by simp only [lookupTag_append, lookupTag_canonicalTags]
    rw [he]
    simp only [placed, htags, BEq.rfl]

/-- Where the tags are in order already, they are so whether or not anything changes. -/
theorem substitute_beq_of_unbound (as : List Ty) (n : Bool) (k : Option Nat)
    (h : m.get? c = none) (hts : Keyed.Sorted key ts) :
    ((⟨.named c, as, n, ts, k⟩ : Ty).substitute m ==
      ⟨.named c, as.map (substitute m), n, canonicalTags (ts.map (substitute m)), k⟩) = true := by
  have hsorted : Keyed.Sorted key ((⟨.named c, as, n, ts, k⟩ : Ty).substitute m).tags := by
    rcases substitute_unbound h with ⟨he, -⟩ | he
    · rw [he]
      exact hts
    · rw [he]
      exact Keyed.ofList_sorted key _
  have hplaced := placed_substitute_unbound as n ts k false [] none h
  rw [placed_of_sorted hsorted] at hplaced
  simpa [placed] using hplaced

/-- What a substitution makes of a type is what it makes of the bare type, at the place of the
type. -/
theorem substitute_beq_placed (hs : t.isStar = false) (ht : Keyed.Sorted key t.tags) :
    (t.substitute m == placed t.nullable (t.tags.map (substitute m)) t.instanceKey
      (t.bare.substitute m)) = true := by
  obtain ⟨head, as, n, ts, k⟩ := t
  cases head with
  | star => cases hs
  | named c =>
    cases hc : m.get? c with
    | some v =>
      simp only [bare, substitute_of_bound hc, placed_placed]
      simp
    | none =>
      have hbare := placed_substitute_unbound as false [] none n (ts.map (substitute m)) k hc
      refine BEq.trans (substitute_beq_of_unbound as n k hc ht) (BEq.symm (BEq.trans hbare ?_))
      simp [placed]

/-- A type at a place, substituted, is the substituted type at the substituted place. -/
theorem placed_substitute (hs : v.isStar = false) (hv : b.Spares v)
    (hts : ∀ s ∈ ts, b.get? s.classifier = none) :
    ((placed n ts k v).substitute b ==
      placed n (ts.map (substitute b)) k (v.substitute b)) = true := by
  obtain ⟨head, as, n', ts', k'⟩ := v
  cases head with
  | star => cases hs
  | named c =>
    -- neither the tags of the place nor those of the type become tags with other classifiers
    have hfind : ∀ d, lookupTag ((canonicalTags (ts ++ ts')).map (substitute b)) d =
        (lookupTag (ts.map (substitute b)) d).or (lookupTag (ts'.map (substitute b)) d) := by
      intro d
      have hkeep : ∀ s ∈ canonicalTags (ts ++ ts'), (s.substitute b).key = s.key := fun s hmem =>
        key_substitute ((List.mem_append.1 (mem_of_mem_canonicalTags hmem)).elim (hts s) (hv s))
      rw [lookupTag_map hkeep, lookupTag_canonicalTags, lookupTag_append, Option.map_or,
        lookupTag_map fun s hmem => key_substitute (hts s hmem),
        lookupTag_map fun s hmem => key_substitute (hv s hmem)]
    cases hc : b.get? c with
    | some w =>
      have htags : canonicalTags ((canonicalTags (ts ++ ts')).map (substitute b) ++ w.tags) =
          canonicalTags (ts.map (substitute b) ++ ts'.map (substitute b) ++ w.tags) :=
        canonicalTags_ext fun d => by simp only [lookupTag_append, hfind]
      rw [substitute_of_bound hc, placed_placed, placed, substitute_of_bound hc]
      simp only [placed, htags, BEq.rfl]
    | none =>
      have htags : canonicalTags ((canonicalTags (ts ++ ts')).map (substitute b)) =
          canonicalTags (ts.map (substitute b) ++ ts'.map (substitute b)) :=
        canonicalTags_ext fun d => by simp only [lookupTag_append, hfind]
      have hright := placed_substitute_unbound as n' ts' k' n (ts.map (substitute b)) k hc
      refine BEq.trans (substitute_beq_of_unbound as _ _ hc (Keyed.ofList_sorted key _)) ?_
      refine BEq.trans ?_ (BEq.symm hright)
      simp only [placed, htags, BEq.rfl]

/-! ### Two substitutions in a row -/

/-- For a bare type both ways to substitute end with the same value, or with the classifier itself and
the same arguments. -/
theorem bare_substitute_compose (hs : t.isStar = false)
    (hstar : ∀ c v, a.get? c = some v → v.isStar = false)
    (hv : ∀ c v, a.get? c = some v → b.Spares v)
    (hargs : List.Forall₂ (fun x y => (x == y) = true)
      ((t.arguments.map (substitute a)).map (substitute b))
      (t.arguments.map (substitute (a.compose b)))) :
    ((t.bare.substitute a).substitute b == t.bare.substitute (a.compose b)) = true := by
  obtain ⟨head, as, n, ts, k⟩ := t
  cases head with
  | star => cases hs
  | named c =>
    have hget : (a.compose b).get? c = ((a.get? c).map (substitute b)).or (b.get? c) :=
      Substitution.get_compose a b c
    -- bound by the first, by the second only, or by neither of them
    cases ha : a.get? c with
    | some v =>
      rw [ha] at hget
      simp only [bare, substitute_of_bound ha, substitute_of_bound hget, List.map_nil]
      exact placed_substitute (hstar c v ha) (hv c v ha) (List.forall_mem_nil _)
    | none =>
      rw [ha, Option.map_none, Option.none_or] at hget
      have hfirst := substitute_beq b
        (substitute_beq_of_unbound as false none ha List.Pairwise.nil)
      refine BEq.trans hfirst ?_
      cases hb : b.get? c with
      | some w =>
        simp only [bare, substitute_of_bound hb, substitute_of_bound (hget.trans hb)]
        exact BEq.rfl
      | none =>
        have hsecond := substitute_beq_of_unbound (as.map (substitute a)) false none hb
          List.Pairwise.nil
        have hboth := substitute_beq_of_unbound as false none (hget.trans hb) List.Pairwise.nil
        refine BEq.trans hsecond (BEq.trans ?_ (BEq.symm hboth))
        simp only [beq_eq, beq_of_forall₂ hargs, BEq.rfl, Bool.and_self, List.map_nil]

/-- One substitution after the other is their composition, also where the first one changes the
classifiers of tags, as long as the second one does not. -/
theorem substitute_twice (ht : Canonical t)
    (hstar : ∀ c v, a.get? c = some v → v.isStar = false)
    (htags : Everywhere (Substitution.SparesAfter a b) t)
    (hv : ∀ c v, a.get? c = some v → b.Spares v) :
    ((t.substitute a).substitute b == t.substitute (a.compose b)) = true := by
  induction ht with
  | @node t hsorted arguments tags iha iht =>
    cases hs : t.isStar with
    | true =>
      rw [substitute_of_isStar hs, substitute_of_isStar hs, substitute_of_isStar hs]
      exact BEq.rfl
    | false =>
      have hargs : List.Forall₂ (fun x y => (x == y) = true)
          ((t.arguments.map (substitute a)).map (substitute b))
          (t.arguments.map (substitute (a.compose b))) := by
        rw [List.map_map]
        exact forall₂_map_same fun x hx => iha x hx (htags.arguments x hx)
      have hmerged : List.Forall₂ (fun x y => (x == y) = true)
          ((t.tags.map (substitute a)).map (substitute b))
          (t.tags.map (substitute (a.compose b))) := by
        rw [List.map_map]
        exact forall₂_map_same fun x hx => iht x hx (htags.tags x hx)
      -- the tags of the place go through `b` by themselves, which leaves the bare type
      have hbare : (t.bare.substitute a).isStar = false := isStar_substitute hs hstar
      have hspares : b.Spares (t.bare.substitute a) :=
        spares_substitute (List.forall_mem_nil _) (List.forall_mem_nil _) hv
      have hfirst := substitute_beq b (substitute_beq_placed (m := a) hs hsorted)
      have hsecond := placed_substitute (n := t.nullable) (k := t.instanceKey) hbare hspares
        (List.forall_mem_map.2 htags.here)
      have hboth := bare_substitute_compose hs hstar hv hargs
      exact BEq.trans hfirst (BEq.trans hsecond (BEq.trans (placed_beq hboth hmerged)
        (BEq.symm (substitute_beq_placed hs hsorted))))

/-- If neither substitution binds the classifier of a tag, the second one binds none after the first. -/
theorem everywhere_sparesAfter (ha : Everywhere a.Spares t) (hb : Everywhere b.Spares t) :
    Everywhere (Substitution.SparesAfter a b) t := by
  refine (ha.and hb).imp fun u ⟨hua, hub⟩ s hs => ?_
  rw [b.get_congr (key_substitute (hua s hs))]
  exact hub s hs

/-- One substitution after the other is their composition, if no value of the first is a star and if
no tag has a classifier that is bound. -/
theorem substitute_compose (ht : Canonical t)
    (hstar : ∀ c v, a.get? c = some v → v.isStar = false) (ha : Everywhere a.Spares t)
    (hb : Everywhere b.Spares t) (hv : ∀ c v, a.get? c = some v → Everywhere b.Spares v) :
    ((t.substitute a).substitute b == t.substitute (a.compose b)) = true := by
  have htags : Everywhere (Substitution.SparesAfter a b) t := everywhere_sparesAfter ha hb
  exact substitute_twice ht hstar htags fun c v hc => (hv c v hc).here

/-- What holds of a type whose parts are classifiers alone and of these holds everywhere in it. -/
theorem everywhere_of_leaves {P : Ty → Prop} (t : Ty) (ht : P t) (hof : ∀ c, P (.of c))
    (hleaf : ∀ u ∈ t.arguments ++ t.tags, ∃ c, u = .of c) : Everywhere P t := by
  have hleaves : ∀ u ∈ t.arguments ++ t.tags, Everywhere P u := by
    intro u hu
    obtain ⟨c, rfl⟩ := hleaf u hu
    exact Everywhere.node (hof c) (List.forall_mem_nil _) (List.forall_mem_nil _)
  exact Everywhere.node ht (fun u hu => hleaves u (List.mem_append_left _ hu))
    fun u hu => hleaves u (List.mem_append_right _ hu)

def namedT : Ty where
  head := .named ⟨"T", 0⟩
  nullable := true
  tags := [.of ⟨"Named", 0⟩]

def sealedBox : Ty where
  head := .named ⟨"Box", 0⟩
  arguments := [.of ⟨"E", 0⟩]
  tags := [.of ⟨"Sealed", 0⟩]
  instanceKey := some 3

/-- `T` gives way to a box, and the box to a crate, which is named and sealed. -/
theorem namedT_substituted :
    ((namedT.substitute (.ofList [(⟨"T", 0⟩, sealedBox)])).substitute
        (.ofList [(⟨"Box", 0⟩, .of ⟨"Crate", 0⟩)]) ==
      namedT.substitute (Substitution.compose (.ofList [(⟨"T", 0⟩, sealedBox)])
        (.ofList [(⟨"Box", 0⟩, .of ⟨"Crate", 0⟩)]))) = true := by
  have hvalue : ∀ c v, (Substitution.ofList [(⟨"T", 0⟩, sealedBox)]).get? c = some v →
      v = sealedBox := by
    intro c v h
    simp only [Substitution.ofList, List.foldl, Substitution.get_insert] at h
    split at h
    · exact (Option.some.inj h).symm
    · cases h
  have hT : ∀ u ∈ namedT.arguments ++ namedT.tags, ∃ c, u = .of c := by simp [namedT]
  have hbox : ∀ u ∈ sealedBox.arguments ++ sealedBox.tags, ∃ c, u = .of c := by simp [sealedBox]
  have hcanonical : Canonical namedT :=
    everywhere_of_leaves namedT (List.pairwise_singleton ..) (fun _ => List.Pairwise.nil) hT
  -- neither substitution binds the classifier of a tag
  have hspares : ∀ m : Substitution, m.Spares namedT → Everywhere m.Spares namedT := fun m h =>
    everywhere_of_leaves namedT h (fun _ => List.forall_mem_nil _) hT
  refine substitute_compose hcanonical (fun c v h => hvalue c v h ▸ rfl)
    (hspares _ (List.forall_mem_singleton.2 rfl)) (hspares _ (List.forall_mem_singleton.2 rfl))
    fun c v h => ?_
  rw [hvalue c v h]
  exact everywhere_of_leaves sealedBox (List.forall_mem_singleton.2 rfl)
    (fun _ => List.forall_mem_nil _) hbox

end Ty
end Wiring
