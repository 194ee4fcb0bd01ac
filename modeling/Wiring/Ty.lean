import Wiring.Classifier
import Wiring.Keyed

namespace Wiring

inductive Head where
  -- What a type is made with. The star projection stands for every type.
  | star
  | named (classifier : Classifier)
deriving Repr

namespace Head

instance : BEq Head where
  beq
    | star, star => true
    | named c, named d => c == d
    | _, _ => false

def classifier : Head → Classifier
  | star => { key := "*" }
  | named c => c

instance : EquivBEq Head where
  rfl {a} := by cases a <;> simp [BEq.beq]
  symm {a b} h := by cases a <;> cases b <;> simp_all [BEq.beq]
  trans {a b c} h k := by cases a <;> cases b <;> cases c <;> simp_all [BEq.beq]

end Head

/-- An applied type. The tags are in the order of their keys, at most one to a key, in every type
that is built here (`Ty.Canonical`). An instance key says that one certain producer is meant. -/
structure Ty where
  head : Head
  arguments : List Ty := []
  nullable : Bool := false
  tags : List Ty := []
  instanceKey : Option Nat := none

namespace Ty

instance : Inhabited Ty := ⟨{ head := .star }⟩

def star : Ty := { head := .star }

def of (c : Classifier) : Ty := { head := .named c }

def isStar (t : Ty) : Bool :=
  t.head matches .star

def classifier (t : Ty) : Classifier :=
  t.head.classifier

def key (t : Ty) : String :=
  t.classifier.key

mutual
def same : Ty → Ty → Bool
  | ⟨h, as, n, ts, k⟩, ⟨h', as', n', ts', k'⟩ =>
    h == h' && n == n' && k == k' && allSame as as' && allSame ts ts'

def allSame : List Ty → List Ty → Bool
  | [], [] => true
  | a :: as, b :: bs => a.same b && allSame as bs
  | _, _ => false
end

instance : BEq Ty := ⟨same⟩

theorem all_same_eq_beq (as bs : List Ty) : allSame as bs = (as == bs) := by
  induction as generalizing bs with
  | nil => cases bs <;> rfl
  | cons a as ih =>
    cases bs with
    | nil => rfl
    | cons b bs => simp only [allSame, ih]; rfl

theorem beq_eq (s t : Ty) :
    (s == t) = (s.head == t.head && s.nullable == t.nullable && s.instanceKey == t.instanceKey
      && s.arguments == t.arguments && s.tags == t.tags) := by
  cases s; cases t
  simp only [← all_same_eq_beq]
  rfl

mutual
/-- A property holds of all types if it passes from the arguments and tags of a type to it. -/
theorem induct {P : Ty → Prop}
    (step : ∀ t : Ty, (∀ a ∈ t.arguments, P a) → (∀ a ∈ t.tags, P a) → P t) : ∀ t, P t
  | ⟨h, as, n, ts, k⟩ => step ⟨h, as, n, ts, k⟩ (induct_all step as) (induct_all step ts)

theorem induct_all {P : Ty → Prop}
    (step : ∀ t : Ty, (∀ a ∈ t.arguments, P a) → (∀ a ∈ t.tags, P a) → P t) :
    ∀ ts : List Ty, ∀ t ∈ ts, P t
  | [] => List.forall_mem_nil P
  | t :: ts => List.forall_mem_cons.2 ⟨induct step t, induct_all step ts⟩
end

theorem all_beq_self {as : List Ty} (h : ∀ a ∈ as, (a == a) = true) : (as == as) = true := by
  induction as with
  | nil => rfl
  | cons a as ih =>
    rw [List.cons_beq_cons, h a (List.mem_cons_self ..),
      ih fun b hb => h b (List.mem_cons_of_mem a hb)]
    rfl

theorem all_beq_symm {as bs : List Ty} (h : ∀ a ∈ as, ∀ b, (a == b) = true → (b == a) = true)
    (hab : (as == bs) = true) : (bs == as) = true := by
  induction as generalizing bs with
  | nil => cases bs <;> simp_all
  | cons a as ih =>
    cases bs with
    | nil => simp at hab
    | cons b bs =>
      rw [List.cons_beq_cons, Bool.and_eq_true] at hab ⊢
      exact ⟨h a (List.mem_cons_self ..) b hab.1,
        ih (fun c hc => h c (List.mem_cons_of_mem a hc)) hab.2⟩

theorem all_beq_trans {as bs cs : List Ty}
    (h : ∀ a ∈ as, ∀ b c, (a == b) = true → (b == c) = true → (a == c) = true)
    (hab : (as == bs) = true) (hbc : (bs == cs) = true) : (as == cs) = true := by
  induction as generalizing bs cs with
  | nil => cases bs <;> simp_all
  | cons a as ih =>
    cases bs with
    | nil => simp at hab
    | cons b bs =>
      cases cs with
      | nil => simp at hbc
      | cons c cs =>
        rw [List.cons_beq_cons, Bool.and_eq_true] at hab hbc ⊢
        exact ⟨h a (List.mem_cons_self ..) b c hab.1 hbc.1,
          ih (fun d hd => h d (List.mem_cons_of_mem a hd)) hab.2 hbc.2⟩

instance : EquivBEq Ty where
  rfl {t} := by
    refine induct (P := fun t => (t == t) = true) (fun t ha ht => ?_) t
    simp [beq_eq, all_beq_self ha, all_beq_self ht]
  symm {s t} h := by
    refine induct (P := fun s => ∀ t, (s == t) = true → (t == s) = true) ?_ s t h
    intro s ha hs t h
    simp only [beq_eq, Bool.and_eq_true] at h ⊢
    exact ⟨⟨⟨⟨BEq.symm h.1.1.1.1, BEq.symm h.1.1.1.2⟩, BEq.symm h.1.1.2⟩,
      all_beq_symm ha h.1.2⟩, all_beq_symm hs h.2⟩
  trans {s t u} h k := by
    refine induct
      (P := fun s => ∀ t u, (s == t) = true → (t == u) = true → (s == u) = true) ?_ s t u h k
    intro s ha hs t u h k
    simp only [beq_eq, Bool.and_eq_true] at h k ⊢
    exact ⟨⟨⟨⟨BEq.trans h.1.1.1.1 k.1.1.1.1, BEq.trans h.1.1.1.2 k.1.1.1.2⟩,
      BEq.trans h.1.1.2 k.1.1.2⟩, all_beq_trans ha h.1.2 k.1.2⟩, all_beq_trans hs h.2 k.2⟩

def tag? (t : Ty) (c : Classifier) : Option Ty :=
  t.tags.find? (·.classifier == c)

def canonicalTags (tags : List Ty) : List Ty :=
  Keyed.ofList key tags

def withTags (t : Ty) (tags : List Ty) : Ty :=
  { t with tags := canonicalTags tags }

def tagged (t : Ty) (tag : Ty) : Ty :=
  t.withTags (tag :: t.tags)

def withoutTags (t : Ty) (classifiers : List Classifier) : Ty :=
  { t with tags := t.tags.filter fun tag => !classifiers.contains tag.classifier }

def withNullability (t : Ty) (nullable : Bool) : Ty :=
  { t with nullable }

def withInstanceKey (t : Ty) (instanceKey : Option Nat) : Ty :=
  { t with instanceKey }

def withoutInstanceKey (t : Ty) : Ty :=
  t.withInstanceKey none

def withArguments (t : Ty) (arguments : List Ty) : Ty :=
  { t with arguments }

/-- A supertype as it is above a certain type `sub`: it takes over the tags of `sub`, which come
before its own, and may be null if `sub` may. -/
def above (t sub : Ty) : Ty :=
  (t.withTags (sub.tags ++ t.tags)).withNullability (sub.nullable || t.nullable)

mutual
def size : Ty → Nat
  | ⟨_, as, _, ts, _⟩ => 1 + totalSize as + totalSize ts

def totalSize : List Ty → Nat
  | [] => 0
  | t :: ts => t.size + totalSize ts
end

theorem size_eq (t : Ty) : t.size = 1 + totalSize t.arguments + totalSize t.tags := by
  cases t
  rw [size]

theorem size_pos (t : Ty) : 0 < t.size := by
  rw [size_eq]
  omega

mutual
def classifiers : Ty → List Classifier
  -- The classifiers of a type from the outside in: its own, those of its arguments, those of its
  -- tags. What stands inside a star does not count.
  | ⟨.star, _, _, _, _⟩ => []
  | ⟨.named c, as, _, ts, _⟩ => c :: (allClassifiers as ++ allClassifiers ts)

def allClassifiers : List Ty → List Classifier
  | [] => []
  | t :: ts => t.classifiers ++ allClassifiers ts
end

theorem all_classifiers_eq_flat_map (ts : List Ty) :
    allClassifiers ts = ts.flatMap classifiers := by
  induction ts with
  | nil => rfl
  | cons t ts ih => simp [allClassifiers, ih]

def covering (t : Ty) : List Classifier :=
  Keyed.ofList Classifier.key t.classifiers

end Ty
end Wiring
