import Wiring.Ty

/-!
Substitutions: finite maps from classifiers to types, and their use on types. A bound classifier
gives way to its value, which keeps what its place adds to it:

- the result is nullable if the place or the value is,
- it has the tags of the place, themselves substituted, and those tags of the value whose
  classifiers the place does not tag,
- it has the instance key of the place if there is one, else that of the value.
-/
namespace Wiring

structure Substitution where
  -- Bindings in order of their keys, one to a key.
  bindings : List (Classifier × Ty) := []
  sorted : Keyed.Sorted (fun b => b.1.key) bindings := by exact List.Pairwise.nil

namespace Substitution

instance : BEq Substitution := ⟨fun m m' => m.bindings == m'.bindings⟩

instance : Inhabited Substitution := ⟨{}⟩

def empty : Substitution := {}

def isEmpty (m : Substitution) : Bool :=
  m.bindings.isEmpty

def size (m : Substitution) : Nat :=
  m.bindings.length

def get? (m : Substitution) (c : Classifier) : Option Ty :=
  m.bindings.lookup c

def contains (m : Substitution) (c : Classifier) : Bool :=
  (m.get? c).isSome

def put (c : Classifier) (t : Ty) : List (Classifier × Ty) → List (Classifier × Ty)
  -- Bind `c` in a list of bindings. A key that is bound already keeps its place and its classifier
  -- and has its type replaced.
  | [] => [(c, t)]
  | (d, u) :: rest =>
    if c.key < d.key then (c, t) :: (d, u) :: rest
    else if c.key = d.key then (d, t) :: rest
    else (d, u) :: put c t rest

theorem key_of_mem_put {c : Classifier} {t : Ty} {b : Classifier × Ty}
    {bs : List (Classifier × Ty)} (h : b ∈ put c t bs) :
    b.1.key = c.key ∨ ∃ b' ∈ bs, b'.1.key = b.1.key := by
  induction bs with
  | nil => simp_all [put]
  | cons d rest ih =>
    simp only [put] at h
    split at h
    · rcases List.mem_cons.1 h with rfl | h
      · exact Or.inl rfl
      · exact Or.inr ⟨b, h, rfl⟩
    · split at h
      · rcases List.mem_cons.1 h with rfl | h
        · exact Or.inr ⟨d, List.mem_cons_self .., rfl⟩
        · exact Or.inr ⟨b, List.mem_cons_of_mem _ h, rfl⟩
      · rcases List.mem_cons.1 h with rfl | h
        · exact Or.inr ⟨_, List.mem_cons_self .., rfl⟩
        · refine (ih h).imp_right ?_
          rintro ⟨b', hb, he⟩
          exact ⟨b', List.mem_cons_of_mem _ hb, he⟩

theorem put_sorted {c : Classifier} {t : Ty} {bs : List (Classifier × Ty)}
    (h : Keyed.Sorted (fun b => b.1.key) bs) :
    Keyed.Sorted (fun b => b.1.key) (put c t bs) := by
  induction bs with
  | nil => simp [put, Keyed.Sorted]
  | cons d rest ih =>
    have hd := List.pairwise_cons.1 h
    simp only [put]
    split
    · next hlt =>
      refine List.pairwise_cons.2 ⟨fun b hb => ?_, h⟩
      rcases List.mem_cons.1 hb with rfl | hb
      · exact hlt
      · exact String.lt_trans hlt (hd.1 b hb)
    · next hlt =>
      split
      · exact List.pairwise_cons.2 ⟨hd.1, hd.2⟩
      · next hne =>
        refine List.pairwise_cons.2 ⟨fun b hb => ?_, ih hd.2⟩
        rcases key_of_mem_put hb with he | ⟨b', hb', he⟩
        · show d.1.key < b.1.key
          rw [he]
          exact Std.lt_of_le_of_ne (String.not_lt.1 hlt) fun he => hne he.symm
        · show d.1.key < b.1.key
          rw [← he]
          exact hd.1 b' hb'

def insert (m : Substitution) (c : Classifier) (t : Ty) : Substitution where
  bindings := put c t m.bindings
  sorted := put_sorted m.sorted

def ofList (pairs : List (Classifier × Ty)) : Substitution :=
  pairs.foldl (fun m (c, t) => m.insert c t) empty

def ofArguments (parameters : List Classifier) (arguments : List Ty) : Substitution :=
  ofList (parameters.zip arguments)

def map (m : Substitution) (f : Ty → Ty) : Substitution where
  bindings := m.bindings.map fun (c, t) => (c, f t)
  sorted := by simpa [Keyed.Sorted, List.pairwise_map] using m.sorted

def restrict (m : Substitution) (classifiers : List Classifier) : Substitution where
  bindings := m.bindings.filter fun (c, _) => classifiers.contains c
  sorted := m.sorted.filter _

def insertNew (m : Substitution) (c : Classifier) (t : Ty) : Substitution :=
  if m.contains c then m else m.insert c t

def orElse (m other : Substitution) : Substitution :=
  other.bindings.foldl (fun m (c, t) => m.insertNew c t) m

/-! ### What is bound -/

theorem lookup_bindings (d : Classifier) (b : Classifier × Ty) (rest : List (Classifier × Ty)) :
    (b :: rest).lookup d = if d == b.1 then some b.2 else rest.lookup d := by
  obtain ⟨c, t⟩ := b
  rw [List.lookup_cons]
  cases d == c <;> rfl

theorem lookup_put (c d : Classifier) (t : Ty) (bs : List (Classifier × Ty)) :
    (put c t bs).lookup d = if d == c then some t else bs.lookup d := by
  induction bs with
  | nil => cases h : d == c <;> simp [put, lookup_bindings, h]
  | cons b rest ih =>
    obtain ⟨e, u⟩ := b
    simp only [put]
    split
    · cases h : d == c <;> simp [lookup_bindings, h]
    · split
      · next he =>
        have hd : (d == e) = (d == c) := by
          rw [Bool.eq_iff_iff, Classifier.beq_iff_key_eq, Classifier.beq_iff_key_eq, he]
        cases h : d == c <;> simp [lookup_bindings, hd, h]
      · next hne =>
        cases h : d == e with
        | false => simp [lookup_bindings, h, ih]
        | true =>
          have hd : (d == c) = false := by
            rw [Bool.eq_false_iff, ne_eq, Classifier.beq_iff_key_eq]
            exact fun hk => hne (hk.symm.trans (Classifier.beq_iff_key_eq.1 h))
          simp [lookup_bindings, h, hd]

@[simp] theorem get_empty (d : Classifier) : empty.get? d = none := rfl

theorem get_insert (m : Substitution) (c d : Classifier) (t : Ty) :
    (m.insert c t).get? d = if d == c then some t else m.get? d :=
  lookup_put c d t m.bindings

theorem get_map (m : Substitution) (f : Ty → Ty) (d : Classifier) :
    (m.map f).get? d = (m.get? d).map f := by
  simp only [get?, map]
  induction m.bindings with
  | nil => rfl
  | cons b rest ih => cases h : d == b.1 <;> simp [lookup_bindings, h, ih]

theorem get_restrict (m : Substitution) (cs : List Classifier) (d : Classifier) :
    (m.restrict cs).get? d = if cs.contains d then m.get? d else none := by
  simp only [get?, restrict]
  induction m.bindings with
  | nil => simp
  | cons b rest ih =>
    obtain ⟨e, u⟩ := b
    cases h : d == e with
    | false => cases hc : cs.contains e <;> simp_all [List.filter, lookup_bindings]
    | true =>
      have hc : cs.contains e = cs.contains d := List.contains_congr (BEq.symm h)
      cases hd : cs.contains d with
      | false =>
        simp only [List.filter, hc, hd]
        rw [ih, hd]
        simp
      | true => simp [List.filter, hc, hd, lookup_bindings, h]

theorem get_insert_new (m : Substitution) (c d : Classifier) (t : Ty) :
    (m.insertNew c t).get? d = (m.get? d).or (if d == c then some t else none) := by
  cases h : d == c with
  | false => cases hc : m.contains c <;> simp [insertNew, hc, get_insert, h]
  | true =>
    have hk : m.get? d = m.get? c := by
      simp only [get?]
      induction m.bindings with
      | nil => rfl
      | cons b rest ih => simp only [lookup_bindings, BEq.congr_left h, ih]
    cases hc : m.get? c <;> simp [insertNew, contains, get_insert, h, hk, hc]

theorem get_or_else (m other : Substitution) (d : Classifier) :
    (m.orElse other).get? d = (m.get? d).or (other.get? d) := by
  simp only [orElse]
  rw [show other.get? d = other.bindings.lookup d from rfl]
  induction other.bindings generalizing m with
  | nil => simp
  | cons b rest ih =>
    simp only [List.foldl_cons, ih, get_insert_new, lookup_bindings, Option.or_assoc]
    cases d == b.1 <;> simp

end Substitution

namespace Ty

mutual
/-- Replace every bound classifier by its value. A type in which nothing changes is left as it is,
and so is a star with all that stands inside it. -/
def substitute (m : Substitution) : Ty → Ty
  | ⟨.star, as, n, ts, k⟩ => ⟨.star, as, n, ts, k⟩
  | ⟨.named c, as, n, ts, k⟩ =>
    if m.isEmpty then ⟨.named c, as, n, ts, k⟩
    else
      let tags := substituteAll m ts
      match m.get? c with
      | some value =>
        let place := value.withTags (tags ++ value.tags)
        (place.withNullability (n || value.nullable)).withInstanceKey (k.or value.instanceKey)
      | none =>
        let arguments := substituteAll m as
        if arguments == as && tags == ts then ⟨.named c, as, n, ts, k⟩
        else (⟨.named c, arguments, n, [], k⟩ : Ty).withTags tags

def substituteAll (m : Substitution) : List Ty → List Ty
  | [] => []
  | t :: ts => t.substitute m :: substituteAll m ts
end

theorem substitute_all_eq_map (m : Substitution) (ts : List Ty) :
    substituteAll m ts = ts.map (substitute m) := by
  induction ts with
  | nil => rfl
  | cons t ts ih => simp [substituteAll, ih]

end Ty

namespace Substitution

/-- First `m`, then `other`: the values of `m` with `other` applied to them, and the bindings of
`other` for what `m` does not bind. -/
def compose (m other : Substitution) : Substitution :=
  (m.map (·.substitute other)).orElse other

theorem get_compose (m other : Substitution) (d : Classifier) :
    (m.compose other).get? d = ((m.get? d).map (·.substitute other)).or (other.get? d) := by
  rw [compose, get_or_else, get_map]

end Substitution
end Wiring
