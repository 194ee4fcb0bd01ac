import Wiring.Proofs.Types.Equality
import Wiring.Ranking
import Wiring.Session.Expansion
import Wiring.Session.Lookup

namespace Wiring

theorem prefer_swap (a b : Bool) : (prefer a b).swap = prefer b a := by
  cases a <;> cases b <;> rfl

namespace Catalog

variable {K : Catalog} {a b requested : Ty}

mutual
def guides : (a b requested : Ty) → Bool
  | ⟨head, as, _, _, _⟩, b, requested =>
    !(head.classifier == b.classifier) || guidesAll as b.arguments requested.arguments

def guidesAll : (as bs requested : List Ty) → Bool
  | a :: as, b :: bs, r :: requested => guides a b r && guidesAll as bs requested
  | _ :: _, _ :: _, [] => false
  | _, _, _ => true
end

theorem compareHeads_swap (K : Catalog) (a b : Ty) :
    (K.compareHeads a b).swap = K.compareHeads b a := by
  simp only [compareHeads, Ordering.swap_then, prefer_swap]

theorem compareDistances_swap (K : Catalog) (requested a b : Ty) :
    (K.compareDistances requested a b).swap = K.compareDistances requested b a := by
  unfold compareDistances
  cases K.distance? a requested.classifier with
  | none => cases K.distance? b requested.classifier <;> rfl
  | some m =>
    cases K.distance? b requested.classifier with
    | none => rfl
    | some n => exact Nat.compare_swap n m

theorem compareTypes_eq (K : Catalog) (a b requested : Ty) : K.compareTypes a b requested =
    if a.withoutInstanceKey == b.withoutInstanceKey then .eq
    else (K.compareHeads a.withoutInstanceKey b.withoutInstanceKey).then <|
      if a.classifier == b.classifier then
        K.compareArguments a.arguments b.arguments requested.arguments
      else K.compareDistances requested a.withoutInstanceKey b.withoutInstanceKey := by
  cases a
  rw [compareTypes]
  rfl

theorem compareArguments_swap {as : List Ty}
    (ih : ∀ a ∈ as, ∀ b r, guides a b r = true →
      (K.compareTypes a b r).swap = K.compareTypes b a r) :
    ∀ {bs rs : List Ty}, guidesAll as bs rs = true →
      (K.compareArguments as bs rs).swap = K.compareArguments bs as rs := by
  induction as with
  | nil =>
    intro bs rs _
    cases bs <;> rfl
  | cons a as ihas =>
    obtain ⟨iha, ihrest⟩ := List.forall_mem_cons.1 ih
    intro bs rs h
    cases bs with
    | nil => rfl
    | cons b bs =>
      cases rs with
      | nil =>
        rw [guidesAll] at h
        cases h
      | cons r rs =>
        rw [guidesAll, Bool.and_eq_true] at h
        -- both directions compare for `r`, so neither falls back on its own first operand
        calc (K.compareArguments (a :: as) (b :: bs) (r :: rs)).swap
            = ((K.compareTypes a b r).then (K.compareArguments as bs rs)).swap := by
              rw [compareArguments, List.head?_cons, Option.getD_some, List.tail_cons]
          _ = (K.compareTypes b a r).then (K.compareArguments bs as rs) := by
              rw [Ordering.swap_then, iha b r h.1, ihas ihrest h.2]
          _ = K.compareArguments (b :: bs) (a :: as) (r :: rs) := by
              rw [compareArguments, List.head?_cons, Option.getD_some, List.tail_cons]

/-- Guided types compare the other way round when they change places. -/
theorem compareTypes_swap (h : guides a b requested = true) :
    (K.compareTypes a b requested).swap = K.compareTypes b a requested := by
  refine Ty.induct (P := fun a => ∀ b r, guides a b r = true →
    (K.compareTypes a b r).swap = K.compareTypes b a r) ?_ a b requested h
  intro a iha _ b r h
  have hsame : (b.withoutInstanceKey == a.withoutInstanceKey) =
      (a.withoutInstanceKey == b.withoutInstanceKey) := BEq.comm
  have hclassifier : (b.classifier == a.classifier) = (a.classifier == b.classifier) := BEq.comm
  rw [compareTypes_eq, compareTypes_eq, hsame, hclassifier]
  split
  · rfl
  · rw [Ordering.swap_then, compareHeads_swap]
    split
    · next hc =>
      have hguided : guidesAll a.arguments b.arguments r.arguments = true := by
        cases a
        rw [guides, Bool.or_eq_true, Bool.not_eq_true'] at h
        exact h.resolve_left (ne_false_of_eq_true hc)
      rw [compareArguments_swap iha hguided]
    · rw [compareDistances_swap]

end Catalog

namespace Session

variable {E : Environment} {S : Session} {scope : ScopeId} {a b : InjectableId} {requested : Ty}

/-- Candidates of guided types compare the other way round when they change places. -/
theorem compareCandidates_swap
    (h : Catalog.guides (S.injectable a).ty (S.injectable b).ty requested = true)
    (hd : Catalog.guides (S.injectable a).declaredType (S.injectable b).declaredType requested =
      true) :
    (S.compareCandidates E scope requested a b).swap = S.compareCandidates E scope requested b a := by
  unfold compareCandidates
  by_cases hab : a = b
  · rw [if_pos hab, if_pos hab.symm]
    rfl
  · rw [if_neg hab, if_neg (Ne.symm hab)]
    dsimp only
    simp only [Ordering.swap_then, prefer_swap, Nat.compare_swap, Catalog.compareTypes_swap h,
      Catalog.compareTypes_swap hd]
    split <;> simp only [Ordering.swap_eq, prefer_swap]

def storage : List Declaration := [
  { id := "boxes", ty := { head := .named ⟨"List", 0⟩, arguments := [
    { head := .named ⟨"Box", 0⟩, arguments := [.of ⟨"Int", 0⟩] }] } },
  { id := "crates", ty := { head := .named ⟨"List", 0⟩, arguments := [.of ⟨"Crate", 0⟩] } }]

def depot : Environment where
  catalog := ⟨[
    ("Any", [{ flags := { top := true } }]),
    ("List", [{ typeParameters := [⟨"List.E", 0⟩] }]),
    ("List.E", [{ flags := { typeParameter := true } }]),
    ("Box", [{ typeParameters := [⟨"Box.E", 0⟩] }]),
    ("Box.E", [{ flags := { typeParameter := true } }]),
    ("Crate", [{ supertypes := some [
      { head := .named ⟨"Box", 0⟩, arguments := [.of ⟨"String", 0⟩] }] }])]⟩
  host := HostTables.host {}

def stored : Session :=
  ((addScope depot { name := "depot", declarations := storage }).run {}).2

/-- Both lists are found by a request for anything. Seen from the boxes, a crate is a step further
from a box than a box is; seen from the crates, a box is no crate at all, and nothing is said. -/
theorem crates_not_swapped :
    ((candidates depot 0 (.of ⟨"Any", 0⟩) []).run stored).1 = [0, 1] ∧
      ((candidates depot 0 (.of ⟨"Any", 0⟩) []).run stored).2.compareCandidates depot 0
        (.of ⟨"Any", 0⟩) 0 1 = .gt ∧
      ((candidates depot 0 (.of ⟨"Any", 0⟩) []).run stored).2.compareCandidates depot 0
        (.of ⟨"Any", 0⟩) 1 0 = .eq := by
  decide +kernel

end Session
end Wiring
