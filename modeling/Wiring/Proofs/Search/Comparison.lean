import Wiring.Proofs.Search.Steps
import Wiring.Proofs.Types.Equality
import Wiring.Search.Choice

namespace Wiring

open Ty

theorem eraseDupsBy_congr {α : Type} {r r' : α → α → Bool} {P : α → Prop}
    (h : ∀ a b, P a → P b → r a b = r' a b) :
    ∀ {xs : List α}, (∀ x ∈ xs, P x) → xs.eraseDupsBy r = xs.eraseDupsBy r'
  | [], _ => rfl
  | x :: xs, hxs => by
    obtain ⟨hx, hxs⟩ := List.forall_mem_cons.1 hxs
    have hkept : xs.filter (fun y => r y x = false) = xs.filter (fun y => r' y x = false) :=
      List.filter_congr fun y hy => by rw [h y x (hxs y hy) hx]
    rw [List.eraseDupsBy_cons, List.eraseDupsBy_cons, hkept]
    have hkeep : ∀ y ∈ xs.filter (fun y => r' y x = false), P y := fun y hy =>
      hxs y (List.mem_of_mem_filter hy)
    rw [eraseDupsBy_congr h hkeep]
termination_by xs => xs.length
decreasing_by exact Nat.lt_succ_of_le (List.length_filter_le _ _)

namespace Catalog

variable {K : Catalog} {a b r r' : Ty} {goal goal' : Classifier}

theorem searchAbove_congr (h : (goal' == goal) = true) (fuel : Nat) (visited : List Classifier)
    (level : List Ty) :
    K.searchAbove goal' fuel visited level = K.searchAbove goal fuel visited level := by
  induction fuel generalizing visited level with
  | zero => rfl
  | succ fuel ih =>
    have hfound : (fun t : Ty => t.classifier == goal') = fun t => t.classifier == goal :=
      funext fun t => BEq.congr_right h
    simp only [searchAbove, hfound, ih]

theorem distance_congr (h : (goal' == goal) = true) (t : Ty) :
    K.distance? t goal' = K.distance? t goal := by
  have hself : (t.classifier == goal') = (t.classifier == goal) := BEq.congr_right h
  simp only [distance?, nearest?, hself, searchAbove_congr h]

theorem compareDistances_congr (h : (r' == r) = true) (a b : Ty) :
    K.compareDistances r' a b = K.compareDistances r a b := by
  have hc : (r'.classifier == r.classifier) = true :=
    Classifier.beq_iff_key_eq.2 (key_of_beq h)
  rw [compareDistances, compareDistances, distance_congr hc, distance_congr hc]

theorem compareArguments_congr {as : List Ty}
    (ih : ∀ a ∈ as, ∀ b r r', (r' == r) = true → K.compareTypes a b r' = K.compareTypes a b r) :
    ∀ {bs rs rs' : List Ty}, List.Forall₂ (fun x y => (x == y) = true) rs' rs →
      K.compareArguments as bs rs' = K.compareArguments as bs rs := by
  induction as with
  | nil => exact fun _ => rfl
  | cons a as ihas =>
    obtain ⟨iha, ihrest⟩ := List.forall_mem_cons.1 ih
    intro bs rs rs' hrs
    cases bs with
    | nil => rfl
    | cons b bs =>
      rw [compareArguments, compareArguments]
      cases hrs with
      | nil => rfl
      | @cons r' r rs' rs hr hrs =>
        rw [List.head?_cons, List.head?_cons, Option.getD_some, Option.getD_some, iha b r r' hr]
        rw [List.tail_cons, List.tail_cons, ihas ihrest hrs]

/-- It does not matter for which of several equal types two types are compared. -/
theorem compareTypes_congr (h : (r' == r) = true) (a b : Ty) :
    K.compareTypes a b r' = K.compareTypes a b r := by
  refine Ty.induct (P := fun a => ∀ b r r', (r' == r) = true →
    K.compareTypes a b r' = K.compareTypes a b r) ?_ a b r r' h
  intro a iha _ b r r' h
  obtain ⟨head, as, n, ts, k⟩ := a
  have harguments : ∀ bs, K.compareArguments as bs r'.arguments =
      K.compareArguments as bs r.arguments :=
    fun bs => compareArguments_congr iha (parts_of_beq h).arguments
  simp only [compareTypes, harguments, compareDistances_congr h]

end Catalog

namespace Session

variable {E : Environment} {S T : Session} {scope : ScopeId} {a b : InjectableId} {r r' : Ty}

structure Known (S : Session) (c : InjectableId) : Prop where
  -- A candidate that is there, of a scope that is there.
  candidate : c < S.injectables.size
  owner : (S.injectable c).owner < S.scopes.size

theorem lt_of_around (hn : ∀ id < S.scopes.size, S.Nested id) {owner : ScopeId}
    (h : S.Around scope owner) (hs : scope < S.scopes.size) : owner < S.scopes.size := by
  induction h with
  | here scope => exact hs
  | @out scope parent owner link _ ih =>
    have hparent := ((hn scope hs).enclosing_eq link).1
    exact ih (Nat.lt_trans hparent hs)

/-- A candidate that is visible from a scope is known. -/
theorem known_of_visible (hn : ∀ id < S.scopes.size, S.Nested id) (hs : scope < S.scopes.size)
    (ha : a < S.injectables.size) (hv : S.Around scope (S.injectable a).owner ∨
      (S.scope (S.injectable a).owner).isTypeScope = true) : Known S a :=
  ⟨ha, hv.elim (fun h => lt_of_around hn h hs) lt_of_isTypeScope⟩

/-- Known candidates compare as before. -/
theorem compareCandidates_eq (hS : S.Extends T) (hs : scope < S.scopes.size) (ha : Known S a)
    (hb : Known S b) (h : (r' == r) = true) :
    T.compareCandidates E scope r' a b = S.compareCandidates E scope r a b := by
  unfold compareCandidates
  rw [hS.injectable a ha.candidate, hS.injectable b hb.candidate, hS.scope scope hs]
  dsimp only
  rw [hS.scope _ ha.owner, hS.scope _ hb.owner, Catalog.compareTypes_congr h,
    Catalog.compareTypes_congr h]

abbrev KnownTree (S : Session) (v : Resolved) : Prop :=
  v.Everywhere fun w => Known S w.candidate ∧ w.scope < S.scopes.size

theorem KnownTree.dependency {v w : Resolved} {slot : Slot} (h : KnownTree S v)
    (hw : v.dependency? slot = some (some w)) : KnownTree S w := by
  obtain ⟨⟨request, value⟩, hfound, hvalue⟩ := Option.map_eq_some_iff.1 hw
  cases hvalue
  cases h with
  | node _ values => exact values request w (List.mem_of_find?_eq_some hfound)

theorem compareDependencies_congr {b : Resolved} (hb : KnownTree S b)
    {dependencies : List (Request × Option Resolved)}
    (ih : ∀ request v, (request, some v) ∈ dependencies → ∀ w, KnownTree S w →
      T.compareResolved E v w request.ty = S.compareResolved E v w request.ty) :
    T.compareDependencies E dependencies b = S.compareDependencies E dependencies b := by
  induction dependencies with
  | nil => rfl
  | cons d rest ihrest =>
    obtain ⟨request, value⟩ := d
    have hrest := ihrest fun request v h => ih request v (List.mem_cons_of_mem _ h)
    cases value with
    | some v =>
      simp only [compareDependencies, hrest]
      split
      · next w hw => rw [ih request v (List.mem_cons_self ..) w (hb.dependency hw)]
      · rfl
      · rfl
    | none =>
      simp only [compareDependencies, hrest]

/-- Values of known candidates compare as before. -/
theorem compareResolved_eq {a b : Resolved} (hS : S.Extends T) (ha : KnownTree S a)
    (hb : KnownTree S b) (h : (r' == r) = true) :
    T.compareResolved E a b r' = S.compareResolved E a b r := by
  -- on the tree of the first value; of the second one all parts are known at once
  induction ha generalizing b r r' with
  | @node v here _ ih =>
    obtain ⟨candidate, scope, dependencies⟩ := v
    have hroot : Known S b.candidate := by
      cases hb with
      | node here _ => exact here.1
    have hcandidates := compareCandidates_eq (E := E) hS here.2 here.1 hroot h
    have hdependencies := compareDependencies_congr (E := E) hb fun request v hv w hw =>
      ih request v hv hw (BEq.rfl (a := request.ty))
    simp only [compareResolved, hcandidates, hdependencies]

end Session

namespace Search

open Session

variable {E : Environment} {S T : Session} {scope : ScopeId} {r r' : Ty}

theorem usage_self (i : Injectable) : (i.usage == i.usage) = true := by
  have horigin : (i.origin == i.origin) = true := by
    cases i.origin with
    | declaration id => exact BEq.rfl (a := id)
    | _ c => exact BEq.rfl (a := c)
  change (i.origin == i.origin && (_ == _ && i.ty.withoutInstanceKey == _)) = true
  rw [horigin, BEq.rfl (a := i.ty.withoutInstanceKey),
    BEq.rfl (a := (i.producer?.map Producer.typeArguments).getD .empty)]
  rfl

theorem usage_comm (i j : Injectable) : (i.usage == j.usage) = (j.usage == i.usage) := by
  have horigin : ∀ o o' : Origin, (o == o') = (o' == o) := by
    rintro (_ | _ | _ | _ | _) (_ | _ | _ | _ | _)
    · exact BEq.comm (α := String)
    all_goals first | rfl | exact BEq.comm (α := Classifier)
  change (i.origin == j.origin && (_ == _ && i.ty.withoutInstanceKey == j.ty.withoutInstanceKey)) =
    (j.origin == i.origin && (_ == _ && j.ty.withoutInstanceKey == i.ty.withoutInstanceKey))
  rw [horigin, BEq.comm (a := i.ty.withoutInstanceKey),
    BEq.comm (a := (i.producer?.map Producer.typeArguments).getD .empty)]

/-- Known candidates are tried in the same order as before. -/
theorem ranked_eq (hS : S.Extends T) (hs : scope < S.scopes.size) {candidates : List InjectableId}
    (hc : ∀ c ∈ candidates, Known S c) (h : (r' == r) = true) :
    ranked E T scope r' candidates = ranked E S scope r candidates := by
  unfold ranked
  rw [Sorting.sort_congr (P := Known S) (fun a b ha hb => compareCandidates_eq hS hs ha hb h) hc]
  refine Option.map_congr fun sorted hsorted => ?_
  refine eraseDupsBy_congr (P := Known S) (fun a b ha hb => ?_) fun c hmem => ?_
  · rw [hS.injectable a ha.candidate, hS.injectable b hb.candidate]
  · exact hc c ((Sorting.sort_perm hsorted).mem_iff.1 hmem)

theorem known_of_usable {V : Vocabulary} {c : InjectableId} (hS : Sound V E S)
    (hs : scope < S.scopes.size) (hc : Usable S scope c) : Known S c :=
  known_of_visible hS.nested hs hc.candidate hc.visible

theorem knownTree_of_legal {V : Vocabulary} {v : Resolved} (hS : Sound V E S) (h : Legal E S v) :
    KnownTree S v :=
  h.imp fun _ hv => ⟨known_of_visible hS.nested hv.scope hv.candidate hv.visible, hv.scope⟩

/-- A standing of known values lets the same candidates be tried as before. -/
theorem beats_eq (hS : S.Extends T) (hs : scope < S.scopes.size) {c : InjectableId} (hc : Known S c)
    {standing : Standing} (hst : ∀ v ∈ standing.best, KnownTree S v) (h : (r' == r) = true) :
    standing.beats E T scope r' c = standing.beats E S scope r c := by
  unfold Standing.beats
  split
  · next leader hleader =>
    have hknown : Known S leader.candidate := by
      cases hst leader (List.mem_of_head? hleader) with
      | node here _ => exact here.1
    rw [compareCandidates_eq hS hs hc hknown h]
  · rfl

/-- A standing of known values takes in a known value as before. -/
theorem add_eq (hS : S.Extends T) {standing : Standing} {result : Except Failure Resolved}
    (hst : ∀ v ∈ standing.best, KnownTree S v) (hresult : ∀ v, result = .ok v → KnownTree S v)
    (h : (r' == r) = true) : standing.add E T r' result = standing.add E S r result := by
  cases result with
  | error failure => rfl
  | ok v =>
    unfold Standing.add
    dsimp only
    split
    · rfl
    · next leader hleader =>
      have hknown := hst leader (List.mem_of_head? hleader)
      rw [compareResolved_eq hS (hresult v rfl) hknown h]

end Search

end Wiring
