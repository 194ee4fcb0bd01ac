import Wiring.Ty

namespace Wiring.Ty

def lookupTag (ts : List Ty) (c : Classifier) : Option Ty :=
  ts.find? (·.classifier == c)

theorem tag_eq_lookupTag (t : Ty) (c : Classifier) : t.tag? c = lookupTag t.tags c := rfl

@[simp] theorem lookupTag_nil (c : Classifier) : lookupTag [] c = none := rfl

theorem lookupTag_cons (t : Ty) (ts : List Ty) (c : Classifier) :
    lookupTag (t :: ts) c = if t.classifier == c then some t else lookupTag ts c := by
  cases h : t.classifier == c <;> simp [lookupTag, h]

theorem lookupTag_append (ss ts : List Ty) (c : Classifier) :
    lookupTag (ss ++ ts) c = (lookupTag ss c).or (lookupTag ts c) := by
  simp [lookupTag]

/-- A change of tags that keeps their classifiers changes the tag that is found. -/
theorem lookupTag_map {f : Ty → Ty} {ts : List Ty} (h : ∀ t ∈ ts, (f t).key = t.key)
    (c : Classifier) : lookupTag (ts.map f) c = (lookupTag ts c).map f := by
  induction ts with
  | nil => rfl
  | cons t ts ih =>
    have ht : ((f t).classifier == c) = (t.classifier == c) :=
      BEq.congr_left (Classifier.beq_iff_key_eq.2 (h t (List.mem_cons_self ..)))
    rw [List.map_cons, lookupTag_cons, lookupTag_cons, ht,
      ih fun u hu => h u (List.mem_cons_of_mem t hu)]
    split <;> rfl

theorem mem_of_lookupTag {ts : List Ty} {c : Classifier} {t : Ty} (h : lookupTag ts c = some t) :
    t ∈ ts :=
  List.mem_of_find?_eq_some h

theorem key_of_lookupTag {ts : List Ty} {c : Classifier} {t : Ty} (h : lookupTag ts c = some t) :
    t.key = c.key := by
  have hp := List.find?_some h
  exact Classifier.beq_iff_key_eq.1 hp

theorem lookupTag_eq_none_iff {ts : List Ty} {c : Classifier} :
    lookupTag ts c = none ↔ ∀ t ∈ ts, t.key ≠ c.key := by
  simp only [lookupTag, List.find?_eq_none, Classifier.beq_iff_key_eq]
  rfl

/-- Only the key of the classifier counts. -/
theorem lookupTag_congr (ts : List Ty) {c d : Classifier} (h : c.key = d.key) :
    lookupTag ts c = lookupTag ts d := by
  induction ts with
  | nil => rfl
  | cons t ts ih =>
    have ht : (t.classifier == c) = (t.classifier == d) :=
      BEq.congr_right (Classifier.beq_iff_key_eq.2 h)
    rw [lookupTag_cons, lookupTag_cons, ht, ih]

/-- Where the tags have different keys, each one is found under its own classifier. -/
theorem lookupTag_of_mem {ts : List Ty} (hd : (ts.map key).Nodup) {t : Ty} (ht : t ∈ ts) :
    lookupTag ts t.classifier = some t := by
  induction ts with
  | nil => simp at ht
  | cons u ts ih =>
    obtain ⟨hu, hd⟩ := List.nodup_cons.1 (List.map_cons ▸ hd)
    rw [lookupTag_cons]
    rcases List.mem_cons.1 ht with rfl | ht
    · simp
    · have hne : (u.classifier == t.classifier) = false := by
        apply Bool.eq_false_iff.2
        intro he
        apply hu
        rw [show u.key = t.key from Classifier.beq_iff_key_eq.1 he]
        exact List.mem_map_of_mem ht
      rw [hne]
      exact ih hd ht

theorem lookupTag_insert {t : Ty} {ts : List Ty} (hs : Keyed.Sorted key ts) (c : Classifier) :
    lookupTag (Keyed.insert key t ts) c = (lookupTag ts c).or (lookupTag [t] c) := by
  induction ts with
  | nil => rfl
  | cons u ts ih =>
    have hu := List.pairwise_cons.1 hs
    simp only [Keyed.insert]
    split
    · next hlt =>
      -- a tag with the key of `t` would come before `u`
      by_cases ht : t.key = c.key
      · have hnone : lookupTag (u :: ts) c = none := by
          apply lookupTag_eq_none_iff.2
          intro v hv he
          have hlt' : t.key < v.key := by
            rcases List.mem_cons.1 hv with rfl | hv
            · exact hlt
            · exact String.lt_trans hlt (hu.1 v hv)
          rw [he, ← ht] at hlt'
          exact String.lt_irrefl _ hlt'
        have hc : (t.classifier == c) = true := Classifier.beq_iff_key_eq.2 ht
        rw [hnone]
        simp [lookupTag_cons, hc]
      · have hc : (t.classifier == c) = false :=
          Bool.eq_false_iff.2 fun h => ht (Classifier.beq_iff_key_eq.1 h)
        simp [lookupTag_cons, hc]
    · split
      · next he =>
        have hc : (t.classifier == c) = (u.classifier == c) :=
          BEq.congr_left (Classifier.beq_iff_key_eq.2 he)
        simp only [lookupTag_cons, hc, lookupTag_nil]
        cases u.classifier == c <;> simp
      · rw [lookupTag_cons, lookupTag_cons, ih hu.2]
        cases u.classifier == c <;> simp

theorem lookupTag_canonicalTags (ts : List Ty) (c : Classifier) :
    lookupTag (canonicalTags ts) c = lookupTag ts c := by
  suffices h : ∀ acc, Keyed.Sorted key acc →
      lookupTag (ts.foldl (fun sorted t => Keyed.insert key t sorted) acc) c =
        (lookupTag acc c).or (lookupTag ts c) from
    h [] List.Pairwise.nil
  induction ts with
  | nil => intro acc _; simp
  | cons t ts ih =>
    intro acc hacc
    rw [List.foldl_cons, ih _ (Keyed.insert_sorted hacc), lookupTag_insert hacc, Option.or_assoc,
      ← lookupTag_append]
    rfl

theorem mem_of_mem_canonicalTags {ts : List Ty} {t : Ty} (h : t ∈ canonicalTags ts) : t ∈ ts :=
  Keyed.mem_of_mem_ofList h

theorem canonicalTags_nodup (ts : List Ty) : ((canonicalTags ts).map key).Nodup := by
  apply List.pairwise_map.2
  refine (Keyed.ofList_sorted key ts).imp ?_
  intro a b hab he
  exact String.lt_irrefl _ (he ▸ hab)

@[simp] theorem tag_withTags (t : Ty) (ts : List Ty) (c : Classifier) :
    (t.withTags ts).tag? c = lookupTag ts c :=
  lookupTag_canonicalTags ts c

/-- Keeping the tags with certain classifiers changes nothing for these. -/
theorem lookupTag_filter {p : Classifier → Bool} (hp : ∀ c d : Classifier, c.key = d.key → p c = p d)
    (ts : List Ty) (c : Classifier) :
    lookupTag (ts.filter fun s => p s.classifier) c = if p c then lookupTag ts c else none := by
  induction ts with
  | nil => simp
  | cons s ts ih =>
    by_cases hs : s.key = c.key
    · have hc : (s.classifier == c) = true := Classifier.beq_iff_key_eq.2 hs
      have hpc : p s.classifier = p c := hp _ _ hs
      cases h : p c with
      | true => simp [hpc, h, lookupTag_cons, hc]
      | false => simpa [List.filter_cons, hpc, h] using ih
    · have hc : (s.classifier == c) = false :=
        Bool.eq_false_iff.2 fun h => hs (Classifier.beq_iff_key_eq.1 h)
      rw [lookupTag_cons, hc, List.filter_cons]
      split <;> simp [lookupTag_cons, hc, ih]

theorem contains_congr {cs : List Classifier} {c d : Classifier} (h : c.key = d.key) :
    cs.contains c = cs.contains d :=
  List.contains_congr (Classifier.beq_iff_key_eq.2 h)

theorem tag_withoutTags (t : Ty) (cs : List Classifier) (c : Classifier) :
    (t.withoutTags cs).tag? c = if cs.contains c then none else t.tag? c := by
  have h := lookupTag_filter (p := fun d => !cs.contains d)
    (fun _ _ hk => congrArg _ (contains_congr hk)) t.tags c
  rw [tag_eq_lookupTag, withoutTags, h]
  cases cs.contains c <;> rfl

end Wiring.Ty
