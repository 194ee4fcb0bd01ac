import Wiring.Proofs.Search.Recall
import Wiring.Proofs.Search.Tidy

namespace Wiring

open Session Vocabulary

namespace Search

variable {E : Environment} {old : List (ScopeId × Ty)} {s : Search} {α : Type}
  {scope : ScopeId} {c best : InjectableId} {solve : Solve} {request : Request}
  {found : List InjectableId}

theorem tidy_solveAll (hsort : E.sorting.Merging)
    (depth : Nat) {requests : List Request} {results : List (Request × Option Resolved)}
    {worst : Option (Request × Failure)} (h : Tidy E old s.session)
    (hscope : scope < s.session.scopes.size) :
    Explores (Tidy E old) s (solveAll E depth scope requests results worst)
      fun _ _ => True := by
  induction requests generalizing s results worst with
  | nil =>
    cases worst with
    | none => exact Explores.pure h trivial
    | some w => exact Explores.pure h trivial
  | cons request rest ih =>
    rw [solveAll]
    apply Explores.bind (tidies_solve hsort old depth [] scope request s h hscope)
    intro result s' h₁ _
    -- whatever has been filled and whatever has failed so far, the rest is filled next
    have hgoOn : ∀ results worst, Explores (Tidy E old) s'
        (solveAll E depth scope rest results worst) fun _ _ => True := fun results worst =>
      ih h₁.holds (h₁.keeps.grows.lt_scopes hscope)
    split
    · exact hgoOn _ _
    · split
      · exact hgoOn _ _
      · exact hgoOn _ _

/-! ### What a search with nothing around it comes to -/

theorem exists_run_unlessDiverged {compute : SearchM α} {remember : α → Memo → Memo} {a : α}
    {s' : Search} (h : compute s = .ok (a, s')) :
    ∃ s'', unlessDiverged compute remember s = .ok (a, s'') := by
  change ∃ s'', ((compute s).bind fun r => (if r.2.divergences = s.divergences
    then lift (Session.remember (remember r.1)) >>= fun _ => pure r.1 else pure r.1 : SearchM α) r.2) =
      .ok (a, s'')
  rw [h]
  change ∃ s'', (if s'.divergences = s.divergences then _ else _ : SearchM α) s' = _
  split
  · exact ⟨_, rfl⟩
  · exact ⟨_, rfl⟩

/-- A candidate at hand resolves. -/
theorem exists_run_atHand (h : Tidy E old s.session) (hat : s.session.AtHand E scope c) :
    ∃ s', resolveCandidate E solve [] scope request c s = .ok (.ok ⟨c, scope, []⟩, s') := by
  rw [run_resolveCandidate]
  cases hlookup : s.session.memo.byCandidate.lookup (scope, c) with
  | some result =>
    obtain ⟨⟨⟨scope', c'⟩, result'⟩, he, hk, rfl⟩ := mem_of_lookup hlookup
    obtain ⟨rfl, rfl⟩ := Prod.mk.inj (eq_of_beq hk)
    exact ⟨s, congrArg (fun r => Except.ok (r, s)) ((h.byCandidate _ he).result hat)⟩
  | none =>
    apply exists_run_unlessDiverged
    rw [run_computeCandidate, hat.obstacle, hat.dependencies]
    rfl

/-- So does a choice with a most specific candidate. -/
theorem exists_run_mostSpecific (hsolve : Tidies E old solve) (hsort : E.sorting.Merging)
    (h : Tidy E old s.session) (hscope : scope < s.session.scopes.size)
    (hfound : ∀ c ∈ found, c < s.session.injectables.size)
    (hbest : s.session.MostSpecific E scope found best) :
    ∃ s', resolveCandidates E solve [] scope request found s = .ok (.ok ⟨best, scope, []⟩, s') := by
  obtain ⟨s', hrun⟩ : ∃ s', resolveCandidate E solve [] scope request best s =
      .ok (.ok ⟨best, scope, []⟩, s') := exists_run_atHand h hbest.atHand
  refine ⟨s', ?_⟩
  unfold resolveCandidates
  split
  · next only =>
    obtain rfl := List.mem_singleton.1 hbest.mem
    exact hrun
  · -- the best comes first in any order of preference, and its value stops the others
    obtain ⟨rest, hranked, hrest⟩ := exists_ranked_first hsort request.ty hbest
    have hgrows :=
      (tidy_resolveCandidate hsolve h hscope (hfound best hbest.mem) _ s' hrun).1.keeps.grows
    have hbest' := (mostSpecific_iff hgrows hscope hfound).2 hbest
    have hworse : ∀ c ∈ rest, s'.session.compareCandidates E scope request.ty c best = .gt :=
      fun c hc => (hbest'.compareCandidates request.ty (hrest c hc).1 (hrest c hc).2).2
    have htried : tryAll E solve [] scope request {} (best :: rest) s =
        .ok ({ best := [⟨best, scope, []⟩] }, s') := by
      rw [tryAll]
      exact run_bind rfl (run_bind hrun (run_bind rfl (tryAll_stops rfl hworse)))
    refine run_bind rfl ?_
    rw [hranked]
    exact run_bind htried rfl

end Search

namespace Session

open Search

variable {E : Environment} {S T : Session} {old : List (ScopeId × Ty)}
  {scope : ScopeId} {request : Request} {found : List InjectableId} {best : InjectableId}

/-- The sessions that come about, as `Reachable` ones do, and for which types in which scopes a result
was remembered when supertypes were last supplied. -/
inductive Dated : Environment → Session → List (ScopeId × Ty) → Prop
  | start (E : Environment) : Dated E {} []
  | supply {E : Environment} {S : Session} {old : List (ScopeId × Ty)} (h : Dated E S old)
      (c : Classifier) (ts : List Ty) :
      Dated { E with catalog := (E.catalog.supplySupertypes c ts).2 } S (S.memo.byType.map (·.1))
  | addScope {E : Environment} {S : Session} {old : List (ScopeId × Ty)} (h : Dated E S old)
      (position : Position) (hp : position.isTypeScope = false) :
      Dated E ((addScope E position).run S).2 old
  | candidates {E : Environment} {S : Session} {old : List (ScopeId × Ty)} (h : Dated E S old)
      {scope : ScopeId} (hs : scope < S.scopes.size) (ty : Ty) (statics : List Classifier) :
      Dated E ((candidates E scope ty statics).run S).2 old
  | resolve {E : Environment} {S S' : Session} {old : List (ScopeId × Ty)} (h : Dated E S old)
      {scope : ScopeId} (hs : scope < S.scopes.size) {depth : Nat} {request : Request}
      {result : Except Failure Resolved}
      (hr : S.resolve E depth scope request = .ok (result, S')) : Dated E S' old
  | resolveAll {E : Environment} {S S' : Session} {old : List (ScopeId × Ty)} (h : Dated E S old)
      {scope : ScopeId} (hs : scope < S.scopes.size) {depth : Nat} {requests : List Request}
      {site : CallSite} (hr : S.resolveAll E depth scope requests = .ok (site, S')) : Dated E S' old

/-- These are all sessions that come about. -/
theorem reachable_iff_dated : Reachable E S ↔ ∃ old, Dated E S old := by
  constructor
  · intro h
    induction h with
    | start E => exact ⟨[], .start E⟩
    | supply _ c ts ih => exact ih.elim fun _ h => ⟨_, h.supply c ts⟩
    | addScope _ position hp ih => exact ih.elim fun old h => ⟨old, h.addScope position hp⟩
    | candidates _ hs ty statics ih => exact ih.elim fun old h => ⟨old, h.candidates hs ty statics⟩
    | resolve _ hs hr ih => exact ih.elim fun old h => ⟨old, h.resolve hs hr⟩
    | resolveAll _ hs hr ih => exact ih.elim fun old h => ⟨old, h.resolveAll hs hr⟩
  · rintro ⟨old, h⟩
    induction h with
    | start E => exact .start E
    | supply _ c ts ih => exact ih.supply c ts
    | addScope _ position hp ih => exact ih.addScope position hp
    | candidates _ hs ty statics ih => exact ih.candidates hs ty statics
    | resolve _ hs hr ih => exact ih.resolve hs hr
    | resolveAll _ hs hr ih => exact ih.resolveAll hs hr

theorem Dated.tidy (hsort : E.sorting.Merging)
    (h : Dated E S old) : Tidy E old S := by
  induction h with
  | start E => exact tidy_empty E
  | supply _ c ts ih => exact (ih hsort).supply rfl (Catalog.supplied_supplySupertypes _ _ _)
  | @addScope E S old _ position hp ih =>
    have hcovers : ∀ d ∈ position.declarations, everything.CoversDeclaration d := fun d _ =>
      ⟨covers_everything _, fun _ _ => covers_everything _, fun _ => trivial⟩
    exact ((ih hsort).look (blind_addScope E position)
      (leads_addScope (speaks_everything E) (ih hsort).sound hcovers) (keeps_addScope E position S)).1
  | @candidates E S old _ scope hs ty statics ih =>
    exact ((ih hsort).look (blind_candidates E scope ty statics)
      (leads_candidates (speaks_everything E) (covers_everything ty) statics (ih hsort).sound hs)
      (keeps_candidates E scope ty statics (Keeps.refl S)).keeps).1
  | @resolve E S S' old _ scope hs depth request result hr ih =>
    obtain ⟨⟨_, s'⟩, hrun, he⟩ := map_eq_ok_iff.1 hr
    cases he
    exact (tidies_solve hsort old depth [] scope request { session := S } (ih hsort) hs _ s' hrun).1.holds
  | @resolveAll E S S' old _ scope hs depth requests site hr ih =>
    obtain ⟨⟨_, s'⟩, hrun, he⟩ := map_eq_ok_iff.1 hr
    cases he
    have hall : Explores (Tidy E old) { session := S }
        (solveAll E depth scope requests [] none) fun _ _ => True :=
      tidy_solveAll hsort depth (ih hsort) hs
    exact (hall _ s' hrun).1.holds

/-- If one of the candidates that are found for a type is the most specific, it is the answer, by every
stable sort that merges or inserts: in whatever order the candidates are found, however the others
compare, and whatever has been done with the session before, save that no answer for the type is
remembered from before supertypes were last supplied. -/
theorem mostSpecific_resolved (hsort : E.sorting.Merging) (hS : Dated E S old)
    (hscope : scope < S.scopes.size) (hfresh : ∀ k ∈ old, ((scope, request.ty) == k) = false)
    (hrun : (candidates E scope request.ty (S.scope scope).statics).run S = (found, T))
    (hbest : T.MostSpecific E scope found best) (depth : Nat) :
    ∃ S', S.resolve E (depth + 1) scope request = .ok (.ok ⟨best, scope, []⟩, S') := by
  have h := hS.tidy hsort
  suffices hsearch : ∃ s', solve E (depth + 1) [] scope request { session := S } =
      .ok (.ok ⟨best, scope, []⟩, s') by
    obtain ⟨s', hs'⟩ := hsearch
    exact ⟨s'.session, map_eq_ok_iff.2 ⟨_, hs', rfl⟩⟩
  rw [solve, run_resolveRequest]
  cases hlookup : S.memo.byType.lookup (scope, request.ty) with
  | some result =>
    obtain ⟨⟨⟨scope', ty⟩, result'⟩, he, hk, rfl⟩ := mem_of_lookup hlookup
    obtain ⟨rfl, hty⟩ := of_beq_pair hk
    have hnew := (h.byType _ he).resolve_left fun hold =>
      Bool.false_ne_true ((hfresh _ hold).symm.trans hk)
    obtain ⟨found', hfound', hlt, hresult⟩ := hnew.result
    -- the lookup finds what was found for the result that is remembered
    have hsame := (run_candidates (hfound'.of_beq hty)).symm.trans hrun
    cases hsame
    rw [hresult best hbest]
    exact ⟨_, rfl⟩
  | none =>
    have hlooked : lift (candidates E scope request.ty (S.scope scope).statics) { session := S } =
        .ok (found, { session := T }) := by
      rw [lift, hrun]
    obtain ⟨h₁, hlt, _⟩ := tidy_candidates (s := { session := S }) h hscope _ _ _ _ hlooked
    obtain ⟨s', hpicked⟩ : ∃ s', resolveCandidates E (solve E depth) [] scope request
        found { session := T } = .ok (.ok ⟨best, scope, []⟩, s') :=
      exists_run_mostSpecific (tidies_solve hsort old depth) hsort h₁.holds
        (h₁.keeps.grows.lt_scopes hscope) hlt hbest
    have hsome : resolveSome E (solve E depth) [] scope request found
        { session := T } = .ok (some (.ok ⟨best, scope, []⟩), s') := by
      have hne : found.isEmpty = false := List.isEmpty_eq_false_iff.2 (List.ne_nil_of_mem hbest.mem)
      rw [resolveSome, hne, if_neg Bool.false_ne_true, ← bind_pure_comp]
      exact run_bind hpicked rfl
    have hcomputed : computeRequest E (solve E depth) [] scope request
        { session := S } = .ok (.ok ⟨best, scope, []⟩, s') :=
      run_bind rfl (run_bind hlooked (run_bind hsome rfl))
    exact exists_run_unlessDiverged hcomputed

/-! ### Cats -/

def zoo (sorting : Sorting) : Environment where
  catalog := ⟨[
    ("Any", [{ flags := { top := true } }]),
    ("Animal", [{}]),
    ("Toy", [{}]),
    ("Pet", [{ supertypes := some [.of ⟨"Animal", 0⟩] }]),
    ("Cat", [{ supertypes := some [.of ⟨"Pet", 0⟩, .of ⟨"Toy", 0⟩] }])]⟩
  sorting

def animals : Position where
  name := "root"
  declarations := [
    { id := "animal", ty := .of ⟨"Animal", 0⟩ },
    { id := "toy", ty := .of ⟨"Toy", 0⟩ },
    { id := "cat", ty := .of ⟨"Cat", 0⟩ },
    { id := "pet", ty := .of ⟨"Pet", 0⟩ }]

def menagerie (sorting : Sorting) : Session :=
  ((addScope (zoo sorting) animals).run {}).2

def anything : Request where
  ty := .of ⟨"Any", 0⟩
  callable := "main"
  name := "it"
  slot := .value 0

def gathered (sorting : Sorting) : Session :=
  ((candidates (zoo sorting) 0 anything.ty ((menagerie sorting).scope 0).statics).run
    (menagerie sorting)).2

theorem distinct_of_bare {t : Ty} (ha : t.arguments = []) (ht : t.tags = []) :
    Catalog.Distinct t := by
  refine Ty.Everywhere.node ?_ ?_ ?_
  · rw [Catalog.DistinctAt, ht]
    exact List.nodup_nil
  · rw [ha]
    exact List.forall_mem_nil _
  · rw [ht]
    exact List.forall_mem_nil _

/-- What makes a candidate the most specific one among those of bare types can be evaluated. -/
theorem mostSpecific_of_bare
    (hproducer : ∃ p, (S.injectable best).form = .produced p ∧ p.parameterTypes = [] ∧
      ∀ parameter t, p.typeArguments.get? parameter = some t → E.catalog.parametersIn t = [])
    (hbest : best ∈ found ∧
      E.host.canCall (S.scope scope).callContext (S.injectable best).callContext = true ∧
      E.catalog.isParameter (S.injectable best).ty = false)
    (hbare : ∀ c ∈ found, (S.injectable c).ty.arguments.isEmpty = true ∧
      (S.injectable c).ty.tags.isEmpty = true)
    (hplace : ∀ c ∈ found, (S.injectable best).owner = (S.injectable c).owner ∧
      isLocal E (S.injectable best) = isLocal E (S.injectable c))
    (hstricter : ∀ c ∈ found, c ≠ best →
      E.catalog.isSubtype (S.injectable best).ty (S.injectable c).ty = true ∧
        E.catalog.isSubtype (S.injectable c).ty (S.injectable best).ty = false) :
    S.MostSpecific E scope found best where
  mem := hbest.1
  producer := hproducer
  callable := hbest.2.1
  proper := hbest.2.2
  distinct c hc := distinct_of_bare (List.isEmpty_iff.1 (hbare c hc).1)
    (List.isEmpty_iff.1 (hbare c hc).2)
  owner c hc := (hplace c hc).1
  isLocal c hc := (hplace c hc).2
  stricter := hstricter

structure FindsCat (sorting : Sorting) : Prop where
  -- By a sort the cat is found, and it is the most specific of all that is found.
  merging : sorting.Merging
  made : Dated (zoo sorting) (menagerie sorting) []
  place : 0 < (menagerie sorting).scopes.size
  candidates : (candidates (zoo sorting) 0 anything.ty ((menagerie sorting).scope 0).statics).run
    (menagerie sorting) = ([0, 1, 2, 3], gathered sorting)
  mostSpecific : (gathered sorting).MostSpecific (zoo sorting) 0 [0, 1, 2, 3] 2
  resolved : ∃ S', (menagerie sorting).resolve (zoo sorting) 1 0 anything =
    .ok (.ok ⟨2, 0, []⟩, S')

/-- The cat is found by either sort, though a toy is neither better nor worse than an animal and a pet, of
which the pet is the better one. -/
theorem cat_found : FindsCat .byInsertion ∧ FindsCat .byMergeSort ∧
    (gathered default).compareCandidates (zoo default) 0 anything.ty 0 1 = .eq ∧
    (gathered default).compareCandidates (zoo default) 0 anything.ty 1 3 = .eq ∧
    (gathered default).compareCandidates (zoo default) 0 anything.ty 3 0 = .lt := by
  have hfinds : ∀ sorting : Sorting, sorting.Merging → 0 < (menagerie sorting).scopes.size →
      ((candidates (zoo sorting) 0 anything.ty ((menagerie sorting).scope 0).statics).run
        (menagerie sorting)).1 = [0, 1, 2, 3] →
      (gathered sorting).MostSpecific (zoo sorting) 0 [0, 1, 2, 3] 2 → FindsCat sorting := by
    intro sorting hsort hplace hfound hbest
    have hmade : Dated (zoo sorting) (menagerie sorting) [] := .addScope (.start _) animals rfl
    have hrun : (candidates (zoo sorting) 0 anything.ty ((menagerie sorting).scope 0).statics).run
        (menagerie sorting) = ([0, 1, 2, 3], gathered sorting) := by
      rw [gathered, ← hfound]
      exact (Prod.eta _).symm
    have hfresh : ∀ k ∈ ([] : List (ScopeId × Ty)), ((0, anything.ty) == k) = false :=
      List.forall_mem_nil _
    exact ⟨hsort, hmade, hplace, hrun, hbest,
      mostSpecific_resolved hsort hmade hplace hfresh hrun hbest 0⟩
  refine ⟨hfinds _ Sorting.merging_byInsertion (by decide +kernel) (by decide +kernel) ?_,
    hfinds _ Sorting.merging_byMergeSort (by decide +kernel) (by decide +kernel) ?_,
    by decide +kernel, by decide +kernel, by decide +kernel⟩
  · exact mostSpecific_of_bare ⟨_, rfl, rfl, fun _ _ h => by cases h⟩ (by decide +kernel)
      (by decide +kernel) (by decide +kernel) (by decide +kernel)
  · exact mostSpecific_of_bare ⟨_, rfl, rfl, fun _ _ h => by cases h⟩ (by decide +kernel)
      (by decide +kernel) (by decide +kernel) (by decide +kernel)

/-! ### Supertypes that come late -/

def youngZoo : Environment where
  catalog := ⟨[("Any", [{ flags := { top := true } }]), ("Animal", [{}]), ("Cat", [{}])]⟩
  sorting := .byInsertion

def litter : Session :=
  ((addScope youngZoo {
    name := "root"
    declarations := [
      { id := "animal", ty := .of ⟨"Animal", 0⟩ },
      { id := "cat", ty := .of ⟨"Cat", 0⟩ }] }).run {}).2

def tied : Session :=
  after (litter.resolve youngZoo 1 0 anything)

def grownZoo : Environment :=
  { youngZoo with
    catalog := (youngZoo.catalog.supplySupertypes ⟨"Cat", 0⟩ [.of ⟨"Animal", 0⟩]).2 }

/-- A tie is remembered, also when it has turned out that a cat is an animal. -/
theorem ambiguity_outlasts : grownZoo.sorting.Merging ∧ Reachable grownZoo tied ∧
    0 < tied.scopes.size ∧
    (candidates grownZoo 0 anything.ty (tied.scope 0).statics).run tied = ([0, 1], tied) ∧
    tied.MostSpecific grownZoo 0 [0, 1] 1 ∧
    ∀ depth, ∃ f, tied.resolve grownZoo (depth + 1) 0 anything = .ok (.error f, tied) := by
  have hreachable : Reachable youngZoo tied := by
    have hplace : 0 < litter.scopes.size := by decide +kernel
    have hok : (litter.resolve youngZoo 1 0 anything).isOk = true := by decide +kernel
    obtain ⟨_, hr⟩ := exists_after hok
    exact .resolve (.addScope (.start youngZoo) _ rfl) hplace hr
  have hbest : tied.MostSpecific grownZoo 0 [0, 1] 1 :=
    mostSpecific_of_bare ⟨_, rfl, rfl, fun _ _ h => by cases h⟩ (by decide +kernel)
      (by decide +kernel) (by decide +kernel) (by decide +kernel)
  exact ⟨Sorting.merging_byInsertion, hreachable.supply _ _, by decide +kernel, rfl, hbest,
    fun depth => ⟨_, rfl⟩⟩

end Session

end Wiring
