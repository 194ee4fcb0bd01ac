import Wiring.Fit.UnionFind

namespace Wiring

structure Bindings where
  -- At first each parameter is by itself and has no value. The rank of a representative grows when
  -- its class takes in a class of the same rank; `content` holds the values, by representative.
  representative : Classifier → Classifier := id
  rank : Classifier → Nat := fun _ => 0
  content : Classifier → Option Ty := fun _ => none
  key_representative : ∀ {c d}, c.key = d.key →
    (representative c).key = (representative d).key := by exact fun h => h
  idempotent : ∀ c, (representative (representative c)).key = (representative c).key := by
    exact fun _ => rfl
  content_eq : ∀ {c d}, c.key = d.key → content c = content d := by exact fun _ => rfl

namespace Bindings

variable {b b' : Bindings} {R : Ty → Ty → Prop} {v v' w w' c d : Classifier} {t t' : Ty}

def value? (b : Bindings) (v : Classifier) : Option Ty :=
  b.content (b.representative v)

def assign (b : Bindings) (v : Classifier) (t : Ty) : Bindings :=
  let r := b.representative v
  { b with
    content := fun c => if c == r then some t else b.content c
    content_eq := fun hkey => by rw [Classifier.beq_congr hkey rfl, b.content_eq hkey] }

def absorb (b : Bindings) (v w : Classifier) : Bindings :=
  -- looked up once and not each time that the new table is read
  let r := b.representative v
  let s := b.representative w
  let value := (b.content r).or (b.content s)
  { b with
    representative := fun c => if b.representative c == r then s else b.representative c
    content := fun c => if c == s then value else b.content c
    key_representative := fun hkey => by
      rw [Classifier.beq_congr (b.key_representative hkey) rfl]
      split
      · rfl
      · exact b.key_representative hkey
    idempotent := fun c => by
      by_cases hc : (b.representative c == r) = true
      · rw [if_pos hc]
        split
        · rfl
        · exact b.idempotent w
      · rw [if_neg hc, Classifier.beq_congr (b.idempotent c) rfl, if_neg hc]
        exact b.idempotent c
    content_eq := fun hkey => by rw [Classifier.beq_congr hkey rfl, b.content_eq hkey] }

/-- Make one class of those of `v` and `w`. The representative of higher rank remains; of two with
one rank it is that of `w`, whose rank grows. -/
def join (b : Bindings) (v w : Classifier) : Bindings :=
  let r := b.representative v
  let s := b.representative w
  if b.rank s < b.rank r then b.absorb w v
  else if b.rank r < b.rank s then b.absorb v w
  else { b.absorb v w with rank := fun c => if c == s then b.rank s + 1 else b.rank c }

theorem representative_join (b : Bindings) (v w : Classifier) :
    ∃ x y, (x = v ∧ y = w ∨ x = w ∧ y = v) ∧ ∀ c, (b.join v w).representative c =
      if b.representative c == b.representative x then b.representative y
      else b.representative c := by
  unfold join
  dsimp only
  split
  · exact ⟨w, v, .inr ⟨rfl, rfl⟩, fun _ => rfl⟩
  · split
    · exact ⟨v, w, .inl ⟨rfl, rfl⟩, fun _ => rfl⟩
    · exact ⟨v, w, .inl ⟨rfl, rfl⟩, fun _ => rfl⟩

theorem value_absorb (b : Bindings) (v w c : Classifier) : (b.absorb v w).value? c =
    if b.representative c == b.representative v || b.representative c == b.representative w then
      (b.value? v).or (b.value? w)
    else b.value? c := by
  simp only [value?, absorb]
  by_cases hv : (b.representative c == b.representative v) = true
  · simp [hv]
  · by_cases hw : (b.representative c == b.representative w) = true
    · simp [hv, hw]
    · simp [hv, hw]

theorem value_join (h : b.value? v = none ∨ b.value? w = none) (c : Classifier) :
    (b.join v w).value? c =
      if b.representative c == b.representative v || b.representative c == b.representative w then
        (b.value? v).or (b.value? w)
      else b.value? c := by
  unfold join
  dsimp only
  split
  · -- one of the two has no value, so it does not matter which is asked first
    have hor : (b.value? w).or (b.value? v) = (b.value? v).or (b.value? w) := by
      rcases h with h | h
      · rw [h, Option.or_none, Option.none_or]
      · rw [h, Option.or_none, Option.none_or]
    rw [value_absorb, Bool.or_comm, hor]
  · split
    · exact value_absorb b v w c
    · exact value_absorb b v w c

structure Rel (R : Ty → Ty → Prop) (b b' : Bindings) : Prop where
  -- Representatives of the same keys and of the same ranks, and values that are related.
  representative : ∀ {c d}, c.key = d.key → (b.representative c).key = (b'.representative d).key
  rank : ∀ {c d}, c.key = d.key → b.rank c = b'.rank d
  content : ∀ {c d}, c.key = d.key → Option.Rel R (b.content c) (b'.content d)

theorem rel_start : Rel R {} {} where
  representative h := h
  rank _ := rfl
  content _ := .none

theorem Rel.value (h : Rel R b b') (hv : v.key = v'.key) :
    Option.Rel R (b.value? v) (b'.value? v') :=
  h.content (h.representative hv)

theorem Rel.value_or (h : Rel R b b') (hv : v.key = v'.key) (hw : w.key = w'.key) :
    Option.Rel R ((b.value? v).or (b.value? w)) ((b'.value? v').or (b'.value? w')) := by
  have hvalue := h.value hv
  generalize b.value? v = x at hvalue ⊢
  generalize b'.value? v' = x' at hvalue ⊢
  cases hvalue with
  | some h => exact .some h
  | none => exact h.value hw

theorem Rel.assign (h : Rel R b b') (hv : v.key = v'.key) (ht : R t t') :
    Rel R (b.assign v t) (b'.assign v' t') where
  representative := h.representative
  rank := h.rank
  content hc := by
    simp only [Bindings.assign, Classifier.beq_congr hc (h.representative hv)]
    split
    · exact .some ht
    · exact h.content hc

theorem Rel.absorb (h : Rel R b b') (hv : v.key = v'.key) (hw : w.key = w'.key) :
    Rel R (b.absorb v w) (b'.absorb v' w') where
  representative hc := by
    simp only [Bindings.absorb, Classifier.beq_congr (h.representative hc) (h.representative hv)]
    split
    · exact h.representative hw
    · exact h.representative hc
  rank := h.rank
  content hc := by
    simp only [Bindings.absorb, Classifier.beq_congr hc (h.representative hw)]
    split
    · exact h.value_or hv hw
    · exact h.content hc

theorem Rel.join (h : Rel R b b') (hv : v.key = v'.key) (hw : w.key = w'.key) :
    Rel R (b.join v w) (b'.join v' w') := by
  have hr := h.representative hv
  have hs := h.representative hw
  simp only [Bindings.join, h.rank hr, h.rank hs]
  split
  · exact h.absorb hw hv
  · split
    · exact h.absorb hv hw
    · -- of two classes with one rank the second one takes in the first, and its rank grows
      have hb := h.absorb hv hw
      exact {
        representative := hb.representative
        rank := fun hc => by simp only [Classifier.beq_congr hc hs, h.rank hc]
        content := hb.content }

def byRank : UnionFind where
  Table := Bindings
  start := {}
  representative := representative
  value? := value?
  assign := assign
  join := join
  representative_start _ := rfl
  value_start _ := rfl
  key_representative b _ _ := b.key_representative
  idempotent := idempotent
  value_eq {b _ _} := b.content_eq
  representative_assign _ _ _ _ := rfl
  value_assign := rfl
  representative_join := representative_join
  value_join := value_join
  Alike := Rel
  alike_start := rel_start
  alike_representative h := h.representative
  alike_value h := h.value
  alike_assign h := h.assign
  alike_join h := h.join

end Bindings
end Wiring
