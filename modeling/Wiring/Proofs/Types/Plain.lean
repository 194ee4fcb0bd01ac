import Wiring.Proofs.Types.Equality

namespace Wiring

/-! ### Mapped lists -/

section Lists

variable {α β : Type} {f : α → β}

theorem map_beq_map [BEq α] [BEq β] (hf : ∀ x y, (f x == f y) = (x == y)) (xs ys : List α) :
    (xs.map f == ys.map f) = (xs == ys) := by
  induction xs generalizing ys with
  | nil => cases ys <;> rfl
  | cons x xs ih =>
    cases ys with
    | nil => rfl
    | cons y ys => simp only [List.map_cons, List.cons_beq_cons, hf, ih]

theorem contains_map_map [BEq α] [BEq β] (hf : ∀ x y, (f x == f y) = (x == y)) (xs : List α)
    (x : α) : (xs.map f).contains (f x) = xs.contains x := by
  simp only [List.contains_eq_any_beq, List.any_map, Function.comp_def, hf]

theorem filter_map_map {p : β → Bool} {q : α → Bool} (h : ∀ x, p (f x) = q x) (xs : List α) :
    (xs.map f).filter p = (xs.filter q).map f := by
  rw [List.filter_map, show p ∘ f = q from funext h]

theorem eraseDups_map [BEq α] [BEq β] (hf : ∀ x y, (f x == f y) = (x == y)) :
    ∀ xs : List α, (xs.map f).eraseDups = xs.eraseDups.map f
  | [] => rfl
  | x :: xs => by
    have hfilter : ((xs.map f).filter fun y => !y == f x) = (xs.filter fun y => !y == x).map f :=
      filter_map_map (fun y => by rw [hf]) xs
    rw [List.map_cons, List.eraseDups_cons, List.eraseDups_cons, List.map_cons, hfilter,
      eraseDups_map hf]
termination_by xs => xs.length
decreasing_by exact Nat.lt_succ_of_le (List.length_filter_le _ _)

theorem Keyed.ofList_map {key : α → String} {key' : β → String} (hf : ∀ x, key' (f x) = key x)
    (xs : List α) : ofList key' (xs.map f) = (ofList key xs).map f := by
  have hrel : List.Forall₂ (fun y x => y = f x) (xs.map f) xs :=
    List.forall₂_map_left_iff.2 (List.forall₂_same.2 fun _ _ => rfl)
  have hsorted := ofList_rel (fun y x he => he ▸ hf x) hrel
  rwa [← List.forall₂_map_right_iff, List.forall₂_eq_eq_eq] at hsorted

/-- Elements that are related have the same image. -/
theorem map_eq_map_of_rel {R : α → α → Prop} {xs ys : List α} (h : List.Forall₂ R xs ys)
    (hf : ∀ x ∈ xs, ∀ y, R x y → f x = f y) : xs.map f = ys.map f := by
  rw [← List.forall₂_eq_eq_eq, List.forall₂_map_left_iff, List.forall₂_map_right_iff]
  exact Ty.forall₂_imp_of_mem h fun x hx y _ hxy => hf x hx y hxy

end Lists

/-! ### Classifiers and types -/

def Classifier.plain (c : Classifier) : Classifier where
  key := c.key

@[simp] theorem Classifier.plain_beq_plain (c d : Classifier) : (c.plain == d.plain) = (c == d) :=
  rfl

theorem Classifier.plain_eq_of_beq {c d : Classifier} (h : (c == d) = true) : c.plain = d.plain :=
  congrArg (Classifier.mk · 0) (Classifier.beq_iff_key_eq.1 h)

def Head.plain : Head → Head
  | .star => .star
  | .named c => .named c.plain

@[simp] theorem Head.plain_classifier (h : Head) : h.plain.classifier = h.classifier.plain := by
  cases h <;> rfl

namespace Ty

mutual
def plain : Ty → Ty
  | ⟨h, as, n, ts, k⟩ => ⟨h.plain, allPlain as, n, allPlain ts, k⟩

def allPlain : List Ty → List Ty
  | [] => []
  | t :: ts => t.plain :: allPlain ts
end

theorem all_plain_eq_map (ts : List Ty) : allPlain ts = ts.map plain := by
  induction ts with
  | nil => rfl
  | cons t ts ih => rw [allPlain, ih, List.map_cons]

@[simp] theorem plain_mk (h : Head) (as : List Ty) (n : Bool) (ts : List Ty) (k : Option Nat) :
    plain ⟨h, as, n, ts, k⟩ = ⟨h.plain, as.map plain, n, ts.map plain, k⟩ := by
  rw [plain, all_plain_eq_map, all_plain_eq_map]

@[simp] theorem plain_head (t : Ty) : t.plain.head = t.head.plain := by
  cases t
  rw [plain_mk]

@[simp] theorem plain_arguments (t : Ty) : t.plain.arguments = t.arguments.map plain := by
  cases t
  rw [plain_mk]

@[simp] theorem plain_tags (t : Ty) : t.plain.tags = t.tags.map plain := by
  cases t
  rw [plain_mk]

@[simp] theorem plain_nullable (t : Ty) : t.plain.nullable = t.nullable := by
  cases t
  rw [plain_mk]

@[simp] theorem plain_instanceKey (t : Ty) : t.plain.instanceKey = t.instanceKey := by
  cases t
  rw [plain_mk]

@[simp] theorem plain_classifier (t : Ty) : t.plain.classifier = t.classifier.plain := by
  simp [classifier]

theorem plain_key (t : Ty) : t.plain.key = t.key := by
  rw [key, plain_classifier]
  rfl

/-! ### Equality -/

theorem plain_beq_self (t : Ty) : (t.plain == t) = true := by
  refine Ty.induct (P := fun t => (t.plain == t) = true) (fun t iha iht => ?_) t
  have hall : ∀ {ts : List Ty}, (∀ t ∈ ts, (t.plain == t) = true) →
      (ts.map plain == ts) = true := fun {ts} h =>
    beq_of_forall₂ (List.forall₂_map_left_iff.2 (List.forall₂_same.2 h))
  have hhead : (t.head.plain == t.head) = true := by
    cases t.head with
    | star => rfl
    | named c => exact Classifier.beq_iff_key_eq.2 rfl
  simp only [beq_eq, plain_head, plain_nullable, plain_instanceKey, plain_arguments, plain_tags,
    hhead, BEq.rfl, hall iha, hall iht, Bool.and_self]

@[simp] theorem plain_beq_plain (t u : Ty) : (t.plain == u.plain) = (t == u) := by
  rw [BEq.congr_left (plain_beq_self t), BEq.congr_right (plain_beq_self u)]

theorem plain_eq_of_beq {t u : Ty} (h : (t == u) = true) : t.plain = u.plain := by
  refine Ty.induct (P := fun t => ∀ u, (t == u) = true → t.plain = u.plain) ?_ t u h
  intro t iha iht u h
  obtain ⟨hhead, hnull, hkey, hargs, htags⟩ := parts_of_beq h
  have hplain : t.head.plain = u.head.plain := by
    rcases head_of_beq hhead with ⟨ht, hu⟩ | ⟨c, d, ht, hu, hcd⟩
    · rw [ht, hu]
    · rw [ht, hu, Head.plain, Head.plain, Classifier.plain_eq_of_beq hcd]
  obtain ⟨head, as, n, ts, k⟩ := t
  obtain ⟨head', as', n', ts', k'⟩ := u
  dsimp only at hnull hkey hplain
  rw [plain_mk, plain_mk, hplain, hnull, hkey, map_eq_map_of_rel hargs iha,
    map_eq_map_of_rel htags iht]

/-- Types are equal when they are one type without their revisions. -/
theorem plain_eq_plain_iff {t u : Ty} : t.plain = u.plain ↔ (t == u) = true := by
  refine ⟨fun h => ?_, plain_eq_of_beq⟩
  rw [← plain_beq_plain, h]
  exact BEq.rfl

/-! ### Parts -/

@[simp] theorem plain_canonicalTags (ts : List Ty) :
    canonicalTags (ts.map plain) = (canonicalTags ts).map plain :=
  Keyed.ofList_map plain_key ts

@[simp] theorem plain_withTags (t : Ty) (ts : List Ty) :
    (t.withTags ts).plain = t.plain.withTags (ts.map plain) := by
  obtain ⟨head, as, n, ts', k⟩ := t
  simp only [withTags, plain_mk, plain_canonicalTags]

@[simp] theorem plain_withNullability (t : Ty) (n : Bool) :
    (t.withNullability n).plain = t.plain.withNullability n := by
  obtain ⟨head, as, n', ts, k⟩ := t
  simp only [withNullability, plain_mk]

@[simp] theorem plain_withInstanceKey (t : Ty) (k : Option Nat) :
    (t.withInstanceKey k).plain = t.plain.withInstanceKey k := by
  obtain ⟨head, as, n, ts, k'⟩ := t
  simp only [withInstanceKey, plain_mk]

end Ty

/-! ### Substitutions -/

namespace Substitution

variable {m m' : Substitution}

theorem eq_of_bindings (h : m.bindings = m'.bindings) : m = m' := by
  cases m
  cases m'
  cases h
  rfl

def plain (m : Substitution) : Substitution where
  bindings := m.bindings.map (Prod.map Classifier.plain Ty.plain)
  sorted := by simpa [Keyed.Sorted, List.pairwise_map, Classifier.plain] using m.sorted

@[simp] theorem plain_isEmpty (m : Substitution) : m.plain.isEmpty = m.isEmpty :=
  List.isEmpty_map

@[simp] theorem plain_beq_plain (m m' : Substitution) : (m.plain == m'.plain) = (m == m') :=
  map_beq_map (fun b b' => by
    show (b.1.plain == b'.1.plain && b.2.plain == b'.2.plain) = (b.1 == b'.1 && b.2 == b'.2)
    rw [Ty.plain_beq_plain, Classifier.plain_beq_plain]) m.bindings m'.bindings

@[simp] theorem plain_get (m : Substitution) (c : Classifier) :
    m.plain.get? c.plain = (m.get? c).map Ty.plain := by
  show (m.bindings.map _).lookup c.plain = (m.bindings.lookup c).map Ty.plain
  induction m.bindings with
  | nil => rfl
  | cons b rest ih =>
    rw [List.map_cons, lookup_bindings, lookup_bindings, Prod.map_fst, Prod.map_snd,
      Classifier.plain_beq_plain, ih]
    split <;> rfl

@[simp] theorem plain_contains (m : Substitution) (c : Classifier) :
    m.plain.contains c.plain = m.contains c := by
  rw [contains, contains, plain_get, Option.isSome_map]

@[simp] theorem plain_insert (m : Substitution) (c : Classifier) (t : Ty) :
    (m.insert c t).plain = m.plain.insert c.plain t.plain := by
  refine eq_of_bindings (show (put c t m.bindings).map _ = put c.plain t.plain (m.bindings.map _)
    from ?_)
  induction m.bindings with
  | nil => rfl
  | cons b rest ih =>
    obtain ⟨d, u⟩ := b
    simp only [put, List.map_cons, Prod.map_apply, ← ih]
    rw [show d.plain.key = d.key from rfl, show c.plain.key = c.key from rfl]
    split
    · rfl
    · split <;> rfl

theorem plain_map {f g : Ty → Ty} (h : ∀ t, (f t).plain = g t.plain) (m : Substitution) :
    (m.map f).plain = m.plain.map g := by
  refine eq_of_bindings ?_
  simp only [map, plain, List.map_map]
  refine List.map_congr_left fun b _ => ?_
  simp only [Function.comp_def, Prod.map, h]

@[simp] theorem plain_restrict (m : Substitution) (cs : List Classifier) :
    (m.restrict cs).plain = m.plain.restrict (cs.map Classifier.plain) :=
  eq_of_bindings (filter_map_map (f := Prod.map Classifier.plain Ty.plain)
    (fun b => contains_map_map Classifier.plain_beq_plain cs b.1) m.bindings).symm

@[simp] theorem plain_insertNew (m : Substitution) (c : Classifier) (t : Ty) :
    (m.insertNew c t).plain = m.plain.insertNew c.plain t.plain := by
  rw [insertNew, insertNew, plain_contains]
  split
  · rfl
  · exact plain_insert m c t

@[simp] theorem plain_orElse (m m' : Substitution) :
    (m.orElse m').plain = m.plain.orElse m'.plain := by
  show _ = (m'.bindings.map _).foldl _ m.plain
  rw [orElse]
  induction m'.bindings generalizing m with
  | nil => rfl
  | cons b rest ih => rw [List.map_cons, List.foldl_cons, List.foldl_cons, ih, plain_insertNew]; rfl

end Substitution

/-- A substitution can as well be applied after the revisions are dropped. -/
@[simp] theorem Ty.plain_substitute (m : Substitution) (t : Ty) :
    (t.substitute m).plain = t.plain.substitute m.plain := by
  refine Ty.induct (P := fun t => (t.substitute m).plain = t.plain.substitute m.plain)
    (fun t iha iht => ?_) t
  have hall : ∀ {ts : List Ty}, (∀ t ∈ ts, (t.substitute m).plain = t.plain.substitute m.plain) →
      (ts.map plain).map (substitute m.plain) = (ts.map (substitute m)).map plain := by
    intro ts h
    rw [List.map_map, List.map_map]
    exact List.map_congr_left fun t ht => (h t ht).symm
  obtain ⟨head, as, n, ts, k⟩ := t
  dsimp only at iha iht
  cases head with
  | star => simp only [substitute, plain_mk, Head.plain]
  | named c =>
    -- each case of the substitution is the same case without the revisions
    simp only [plain_mk, Head.plain, substitute, substitute_all_eq_map, Substitution.plain_isEmpty,
      Substitution.plain_get, hall iha, hall iht, map_beq_map plain_beq_plain]
    split
    · rw [plain_mk, Head.plain]
    · cases m.get? c with
      | some v => simp
      | none =>
        dsimp only [Option.map_none]
        split
        · rw [plain_mk, Head.plain]
        · simp [Head.plain]

@[simp] theorem Substitution.plain_compose (m m' : Substitution) :
    (m.compose m').plain = m.plain.compose m'.plain := by
  rw [compose, compose, plain_orElse, plain_map fun t => Ty.plain_substitute m' t]

end Wiring
