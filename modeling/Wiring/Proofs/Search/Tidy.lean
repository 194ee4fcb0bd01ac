import Wiring.Proofs.Search.Comparison
import Wiring.Proofs.Search.Explanation
import Wiring.Proofs.Search.Progress
import Wiring.Proofs.Search.Reachable
import Wiring.Proofs.Search.Sorting
import Wiring.Proofs.Session.Specificity

/-!
A candidate of the most specific type is better than all others that are found, and so is tried first;
if it needs nothing it resolves, and then none of the others is tried. So unless the search has seen a
divergence, it is what is remembered for the type.
-/
namespace Wiring

namespace Session

open Vocabulary

variable {E E' : Environment} {S S' : Session} {scope : ScopeId} {c best : InjectableId} {ty : Ty}
  {found : List InjectableId} {old : List (ScopeId × Ty)} {result : Except Failure Resolved}

/-! ### Candidates at hand -/

structure AtHand (E : Environment) (S : Session) (scope : ScopeId) (c : InjectableId) : Prop where
  -- The candidate may be used in the scope, and it needs nothing.
  obstacle : Search.obstacle? E S scope c = none
  producer : ∃ p, (S.injectable c).form = .produced p ∧ p.parameterTypes = []

theorem AtHand.dependencies (h : S.AtHand E scope c) (K : Catalog) :
    (S.injectable c).dependencies K = [] := by
  obtain ⟨p, hform, hnone⟩ := h.producer
  rw [Injectable.dependencies, hform]
  dsimp only
  rw [Request.parametersOf, hnone]
  rfl

/-- A candidate is at hand in a later session if it has been before. -/
theorem AtHand.back (h : S'.AtHand E scope c) (hS : S.Extends S') (hscope : scope < S.scopes.size)
    (hc : c < S.injectables.size) : S.AtHand E scope c where
  obstacle := Search.obstacle_eq hS hscope hc ▸ h.obstacle
  producer := hS.injectable c hc ▸ h.producer

/-- Among the candidates that are found, `best` is one without parameters that may be called from the
scope, and all others come from the same scope, are as local, and are of types that its type is a strict
subtype of. -/
structure MostSpecific (E : Environment) (S : Session) (scope : ScopeId)
    (found : List InjectableId) (best : InjectableId) : Prop where
  mem : best ∈ found
  producer : ∃ p, (S.injectable best).form = .produced p ∧ p.parameterTypes = [] ∧
    ∀ parameter t, p.typeArguments.get? parameter = some t → E.catalog.parametersIn t = []
  callable : E.host.canCall (S.scope scope).callContext (S.injectable best).callContext = true
  proper : E.catalog.isParameter (S.injectable best).ty = false
  distinct : ∀ c ∈ found, Catalog.Distinct (S.injectable c).ty
  owner : ∀ c ∈ found, (S.injectable best).owner = (S.injectable c).owner
  isLocal : ∀ c ∈ found, isLocal E (S.injectable best) = isLocal E (S.injectable c)
  stricter : ∀ c ∈ found, c ≠ best →
    E.catalog.Stricter (S.injectable best).ty (S.injectable c).ty

namespace MostSpecific

theorem atHand (h : S.MostSpecific E scope found best) : S.AtHand E scope best := by
  obtain ⟨p, hform, hnone, hclosed⟩ := h.producer
  exact ⟨Search.obstacle_eq_none_of_closed hform h.callable hclosed, p, hform, hnone⟩

/-- It compares as the better one with every other candidate. -/
theorem compareCandidates (h : S.MostSpecific E scope found best) (requested : Ty) (hc : c ∈ found)
    (hne : c ≠ best) : S.compareCandidates E scope requested best c = .lt ∧
      S.compareCandidates E scope requested c best = .gt := by
  obtain ⟨hlt, hgt⟩ := Catalog.compareTypes_of_stricter (h.stricter c hc hne) h.proper
    (h.distinct best h.mem) (h.distinct c hc) requested
  exact compareCandidates_of_stricter (Ne.symm hne) (h.owner c hc) (h.isLocal c hc) hlt hgt

theorem congr (h : S.MostSpecific E scope found best) (hscope : S'.scope scope = S.scope scope)
    (hsame : ∀ c ∈ found, S'.injectable c = S.injectable c) :
    S'.MostSpecific E scope found best where
  mem := h.mem
  producer := by
    rw [hsame best h.mem]
    exact h.producer
  callable := by
    rw [hscope, hsame best h.mem]
    exact h.callable
  proper := by
    rw [hsame best h.mem]
    exact h.proper
  distinct c hc := by
    rw [hsame c hc]
    exact h.distinct c hc
  owner c hc := by
    rw [hsame best h.mem, hsame c hc]
    exact h.owner c hc
  isLocal c hc := by
    rw [hsame best h.mem, hsame c hc]
    exact h.isLocal c hc
  stricter c hc hne := by
    rw [hsame best h.mem, hsame c hc]
    exact h.stricter c hc hne

end MostSpecific

/-- Of candidates that have been found, the same one stays the most specific. -/
theorem mostSpecific_iff (hS : S.Extends S') (hscope : scope < S.scopes.size)
    (hfound : ∀ c ∈ found, c < S.injectables.size) :
    S'.MostSpecific E scope found best ↔ S.MostSpecific E scope found best := by
  have hsame : ∀ c ∈ found, S'.injectable c = S.injectable c := fun c hc =>
    hS.injectable c (hfound c hc)
  exact ⟨fun h => h.congr (hS.scope scope hscope).symm fun c hc => (hsame c hc).symm,
    fun h => h.congr (hS.scope scope hscope) hsame⟩

/-! ### What is remembered -/

def bare (S : Session) : Session :=
  S.withResults ([], [])

structure TidyCandidate (E : Environment) (S : Session) (scope : ScopeId) (c : InjectableId)
    (result : Except Failure Resolved) : Prop where
  -- A candidate at hand is the result that is remembered for it.
  place : scope < S.scopes.size
  candidate : c < S.injectables.size
  result : S.AtHand E scope c → result = .ok ⟨c, scope, []⟩

structure TidyType (E : Environment) (S : Session) (scope : ScopeId) (ty : Ty)
    (result : Except Failure Resolved) : Prop where
  -- For a type candidates have been found, and the most specific one, if there is one, is the
  -- result that is remembered.
  place : scope < S.scopes.size
  result : ∃ found, Search.Recorded S scope scope ty found ∧
    (∀ c ∈ found, c < S.injectables.size) ∧
    ∀ best, S.MostSpecific E scope found best → result = .ok ⟨best, scope, []⟩

/-- All results are as they should be, save those for the types in `old`. -/
structure Tidy (E : Environment) (old : List (ScopeId × Ty)) (S : Session) : Prop where
  sound : Sound everything E S.bare
  byCandidate : ∀ e ∈ S.memo.byCandidate, TidyCandidate E S e.1.1 e.1.2 e.2
  byType : ∀ e ∈ S.memo.byType, e.1 ∈ old ∨ TidyType E S e.1.1 e.1.2 e.2

theorem TidyCandidate.mono (h : TidyCandidate E S scope c result) (hS : S.Extends S') :
    TidyCandidate E S' scope c result where
  place := hS.lt_scopes h.place
  candidate := hS.lt_injectables h.candidate
  result hat := h.result (hat.back hS h.place h.candidate)

theorem TidyType.mono (h : TidyType E S scope ty result) (hS : S.Keeps S') :
    TidyType E S' scope ty result where
  place := hS.grows.lt_scopes h.place
  result := by
    obtain ⟨found, hfound, hlt, hresult⟩ := h.result
    exact ⟨found, hfound.mono hS h.place, fun c hc => hS.grows.lt_injectables (hlt c hc),
      fun best hbest => hresult best ((mostSpecific_iff hS.grows h.place hlt).1 hbest)⟩

/-- What is tidy is so in a later session with the same results. -/
theorem Tidy.keep (h : Tidy E old S) (hsound : Sound everything E S'.bare) (hS : S.Keeps S')
    (hr : S'.results = S.results) : Tidy E old S' := by
  obtain ⟨htype, hcandidate⟩ := Prod.mk.inj hr
  refine ⟨hsound, ?_, ?_⟩
  · rw [hcandidate]
    exact fun e he => (h.byCandidate e he).mono hS.grows
  · rw [htype]
    exact fun e he => (h.byType e he).imp_right fun hnew => hnew.mono hS

/-- A lookup keeps all results, and it is sound whatever these are. -/
theorem Tidy.look {α : Type} {look : SessionM α} {P : α → Session → Prop} (h : Tidy E old S)
    (hb : Blind look) (hl : Leads everything E S.bare look P) (hk : S.Keeps (look.run S).2) :
    Tidy E old (look.run S).2 ∧ P (look.run S).1 (look.run S).2.bare := by
  have hbare : look.run S.bare = ((look.run S).1, (look.run S).2.bare) := hb S _
  obtain ⟨_, hsound, hresult⟩ := hl
  rw [hbare] at hsound hresult
  exact ⟨h.keep hsound hk (hb.results_eq S), hresult⟩

theorem Tidy.addType (h : Tidy E old S) (hnew : TidyType E S scope ty result) :
    Tidy E old { S with memo := { S.memo with
      byType := ((scope, ty), result) :: S.memo.byType } } := by
  have hS : S.Keeps { S with memo := { S.memo with
      byType := ((scope, ty), result) :: S.memo.byType } } := keeps_withResults S (_, _)
  refine ⟨h.sound, fun e he => (h.byCandidate e he).mono hS.grows, ?_⟩
  exact List.forall_mem_cons.2 ⟨Or.inr (hnew.mono hS), fun e he =>
    (h.byType e he).imp_right fun hold => hold.mono hS⟩

theorem Tidy.addCandidate (h : Tidy E old S) (hnew : TidyCandidate E S scope c result) :
    Tidy E old { S with memo := { S.memo with
      byCandidate := ((scope, c), result) :: S.memo.byCandidate } } := by
  have hS : S.Keeps { S with memo := { S.memo with
      byCandidate := ((scope, c), result) :: S.memo.byCandidate } } := keeps_withResults S (_, _)
  refine ⟨h.sound, ?_, fun e he => (h.byType e he).imp_right fun hold => hold.mono hS⟩
  exact List.forall_mem_cons.2 ⟨hnew.mono hS.grows, fun e he => (h.byCandidate e he).mono hS.grows⟩

theorem tidy_empty (E : Environment) : Tidy E [] {} where
  sound := sound_empty
  byCandidate := List.forall_mem_nil _
  byType := List.forall_mem_nil _

/-- When supertypes are supplied, what is remembered of types may no longer be right. -/
theorem Tidy.supply (h : Tidy E old S) (hhost : E'.host = E.host)
    (hK : E.catalog.Supplied E'.catalog) : Tidy E' (S.memo.byType.map (·.1)) S where
  sound := h.sound.supply hhost hK
  byCandidate e he := by
    have hold := h.byCandidate e he
    refine ⟨hold.place, hold.candidate, fun hat => hold.result ⟨?_, hat.producer⟩⟩
    rw [← Search.obstacle_supply hhost hK]
    exact hat.obstacle
  byType e he := Or.inl (List.mem_map_of_mem he)

end Session

namespace Search

open Session Vocabulary

variable {E : Environment} {old : List (ScopeId × Ty)} {S : Session} {s : Search}
  {α : Type} {scope inner place : ScopeId} {c best : InjectableId} {solve : Solve}
  {chain : List InjectableId} {request : Request} {found : List InjectableId}

/-! ### Lookups -/

theorem tidy_lift {look : SessionM α} {P Q : α → Session → Prop} (h : Tidy E old s.session)
    (hb : Blind look) (hl : Session.Leads everything E s.session.bare look P)
    (hk : Session.Obeys s.session.Keeps s.session look Q) :
    Explores (Tidy E old) s (lift look) fun a s' => P a s'.session.bare ∧ Q a s'.session := by
  obtain ⟨htidy, hresult⟩ := h.look hb hl hk.keeps
  exact Explores.lift (P := fun a S => P a S.bare ∧ Q a S)
    ⟨hk.grows, hk.keeps, hresult, hk.result⟩ htidy

theorem tidy_candidates (h : Tidy E old s.session) (hplace : place < s.session.scopes.size) (ty : Ty)
    (statics : List Classifier) :
    Explores (Tidy E old) s (lift (Session.candidates E place ty statics)) fun found s' =>
      (∀ c ∈ found, c < s'.session.injectables.size) ∧
        s'.session.memo.candidates.lookup (place, ty, statics) = some found :=
  (tidy_lift h (blind_candidates E place ty statics)
    (leads_candidates (speaks_everything E) (covers_everything ty) statics h.sound hplace)
    (keeps_candidates E place ty statics (Keeps.refl _))).imp fun _ _ _ hfound =>
      ⟨fun c hc => (hfound.1 c hc).candidate, hfound.2⟩

/-! ### Ranking -/

/-- Candidates that are worse than the only value that has been found are not tried. -/
theorem tryAll_stops {standing : Standing} {v : Resolved} {rest : List InjectableId}
    (hbest : standing.best = [v]) (hrest : ∀ c ∈ rest,
      s.session.compareCandidates E scope request.ty c v.candidate = .gt) :
    tryAll E solve chain scope request standing rest s = .ok (standing, s) := by
  cases rest with
  | nil => rfl
  | cons c rest =>
    have hbeats : standing.beats E s.session scope request.ty c = true := by
      rw [Standing.beats, hbest]
      exact beq_iff_eq.2 (hrest c (List.mem_cons_self ..))
    rw [tryAll]
    change (if standing.beats E s.session scope request.ty c then _ else _ : SearchM Standing) s = _
    rw [if_pos hbeats]
    rfl

section Ranking

variable (hsort : E.sorting.Merging)
include hsort

/-- The most specific candidate is ranked first, and of its usage no other one is kept. -/
theorem exists_ranked_first (requested : Ty) (h : S.MostSpecific E scope found best) :
    ∃ rest, ranked E S scope requested found = some (best :: rest) ∧
      ∀ c ∈ rest, c ∈ found ∧ c ≠ best := by
  obtain ⟨sorted, hsorted, hsorts⟩ := hsort.exists_sort (S.compareCandidates E scope requested) found
  obtain ⟨rest, rfl⟩ := hsorts.exists_eq_cons h.mem fun c hc hne => h.compareCandidates requested hc hne
  have hranked : ∃ rest', ranked E S scope requested found = some (best :: rest') ∧
      ∀ c ∈ rest', ((S.injectable c).usage == (S.injectable best).usage) = false := by
    rw [ranked, hsorted, Option.map_some, List.eraseDupsBy_cons]
    refine ⟨_, rfl, fun c hc => ?_⟩
    simpa using (List.mem_filter.1 (mem_of_mem_eraseDupsBy hc)).2
  obtain ⟨rest', hranked, hother⟩ := hranked
  refine ⟨rest', hranked, fun c hc => ⟨mem_of_mem_ranked hranked (List.mem_cons_of_mem best hc), ?_⟩⟩
  -- the best candidate itself would be one more of its usage
  rintro rfl
  have hself := hother c hc
  rw [usage_self] at hself
  cases hself

end Ranking

/-! ### What results say -/

def Tidies (E : Environment) (old : List (ScopeId × Ty)) (solve : Solve) : Prop :=
  ∀ chain scope request s, Tidy E old s.session → scope < s.session.scopes.size →
    Explores (Tidy E old) s (solve chain scope request) fun _ _ => True

def Yields (E : Environment) (s : Search) (scope : ScopeId) (c : InjectableId)
    (result : Except Failure Resolved) (s' : Search) : Prop :=
  s.session.AtHand E scope c → result = .ok ⟨c, scope, []⟩ ∨ s.divergences < s'.divergences

def Picks (E : Environment) (s : Search) (scope : ScopeId) (found : List InjectableId)
    (result : Except Failure Resolved) (s' : Search) : Prop :=
  ∀ best, s.session.MostSpecific E scope found best →
    result = .ok ⟨best, scope, []⟩ ∨ s.divergences < s'.divergences

structure Answers (E : Environment) (n : Nat) (scope : ScopeId) (ty : Ty)
    (result : Except Failure Resolved) (s' : Search) : Prop where
  -- The candidates for the type have been found, and the result is the most specific one.
  answer : ∃ found, Recorded s'.session scope scope ty found ∧
    (∀ c ∈ found, c < s'.session.injectables.size) ∧
    ∀ best, s'.session.MostSpecific E scope found best →
      result = .ok ⟨best, scope, []⟩ ∨ n < s'.divergences

/-- What was the most specific when the candidates were found still is. -/
theorem answers_of_recorded {n : Nat} {ty : Ty} {result : Except Failure Resolved} {s' : Search}
    (hscope : scope < S.scopes.size) (hfound : Recorded S scope scope ty found)
    (hlt : ∀ c ∈ found, c < S.injectables.size) (hS : S.Keeps s'.session)
    (hresult : ∀ best, S.MostSpecific E scope found best →
      result = .ok ⟨best, scope, []⟩ ∨ n < s'.divergences) : Answers E n scope ty result s' :=
  ⟨found, hfound.mono hS hscope, fun c hc => hS.grows.lt_injectables (hlt c hc),
    fun best hbest => hresult best ((mostSpecific_iff hS.grows hscope hlt).1 hbest)⟩

section Traversal

variable (hsolve : Tidies E old solve)
include hsolve

/-! ### Dependencies -/

theorem tidy_fillAll {requests : List Request} (h : Tidy E old s.session)
    (hi : inner < s.session.scopes.size) :
    Explores (Tidy E old) s (fillAll (solve chain inner) requests) fun filling _ =>
      requests = [] → filling = .ok [] := by
  induction requests generalizing s with
  | nil =>
    rw [fillAll]
    exact Explores.pure h fun _ => rfl
  | cons request rest ih =>
    -- after a value and after a default the rest is filled in the same way
    have hgoOn : ∀ (v : Option Resolved) (s' : Search), Onward (Tidy E old) s s' →
        Explores (Tidy E old) s' (fillNext request v (fillAll (solve chain inner) rest))
          fun filling _ => request :: rest = [] → filling = .ok [] := by
      intro v s' h₁
      unfold fillNext
      apply Explores.bind (ih h₁.holds (h₁.keeps.grows.lt_scopes hi))
      intro filling s'' h₂ _
      split
      · exact Explores.pure h₂.holds fun hnil => by cases hnil
      · exact Explores.pure h₂.holds fun hnil => by cases hnil
    rw [fillAll]
    apply Explores.bind (hsolve chain inner request s h hi)
    intro result s' h₁ _
    split
    · exact hgoOn _ s' h₁
    · split
      · exact Explores.pure h₁.holds fun hnil => by cases hnil
      · exact hgoOn none s' h₁

/-! ### Candidates -/

theorem tidy_fillCandidate {dependencies : List Request} (h : Tidy E old s.session)
    (hi : inner < s.session.scopes.size) :
    Explores (Tidy E old) s (fillCandidate (solve chain inner) scope c dependencies) fun result _ =>
      dependencies = [] → result = .ok ⟨c, scope, []⟩ := by
  unfold fillCandidate
  apply Explores.bind (tidy_fillAll hsolve h hi)
  intro filling s' h₁ hfilling
  split
  · refine Explores.pure h₁.holds fun hnil => ?_
    cases hfilling hnil
    rfl
  · exact Explores.pure h₁.holds fun hnil => by cases hfilling hnil

theorem tidy_computeCandidate (h : Tidy E old s.session) (hscope : scope < s.session.scopes.size)
    (hc : c < s.session.injectables.size) :
    Explores (Tidy E old) s (computeCandidate E solve chain scope request c) (Yields E s scope c) := by
  unfold computeCandidate
  apply Explores.get
  dsimp only
  split
  · next f hobstacle =>
    exact Explores.pure h fun hat => by cases hobstacle.symm.trans hat.obstacle
  · split
    · -- even a candidate at hand may be taken for a divergent one
      apply Explores.bind (Explores.count h)
      rintro _ _ h₁ rfl
      exact Explores.pure h₁.holds fun _ => Or.inr (Nat.lt_succ_self _)
    · have hnone : s.session.AtHand E scope c →
          (s.session.injectable c).dependencies E.catalog = [] := fun hat => hat.dependencies _
      split
      · exact (tidy_fillCandidate hsolve h hscope).imp fun _ _ _ hresult hat =>
          Or.inl (hresult (hnone hat))
      · apply Explores.bind (tidy_lift h (blind_dependencyScope E scope c)
          (leads_dependencyScope (speaks_everything E) h.sound hscope hc)
          (keeps_dependencyScope E scope c (Keeps.refl _)))
        rintro inner s' h₁ ⟨⟨hinner, _⟩, _⟩
        exact (tidy_fillCandidate hsolve h₁.holds hinner).imp fun _ _ _ hresult hat =>
          Or.inl (hresult (hnone hat))

theorem tidy_resolveCandidate (h : Tidy E old s.session) (hscope : scope < s.session.scopes.size)
    (hc : c < s.session.injectables.size) :
    Explores (Tidy E old) s (resolveCandidate E solve chain scope request c) (Yields E s scope c) := by
  unfold resolveCandidate
  apply Explores.get
  split
  · next result hresult =>
    obtain ⟨⟨⟨scope', c'⟩, result'⟩, he, hk, rfl⟩ := mem_of_lookup hresult
    obtain ⟨rfl, rfl⟩ := Prod.mk.inj (eq_of_beq hk)
    exact Explores.pure h fun hat => Or.inl ((h.byCandidate _ he).result hat)
  · refine Explores.unlessDiverged (tidy_computeCandidate hsolve h hscope hc)
      (fun a S => ⟨(_, _), rfl⟩) (fun result s' _ h₁ hresult hclean => ?_)
      fun _ _ _ _ _ hresult => hresult
    refine h₁.holds.addCandidate ⟨h₁.keeps.grows.lt_scopes hscope,
      h₁.keeps.grows.lt_injectables hc, fun hat => ?_⟩
    exact (hresult (hat.back h₁.keeps.grows hscope hc)).resolve_right (Nat.not_lt.2 hclean)

theorem tidy_resolveFramework (h : Tidy E old s.session) (hscope : scope < s.session.scopes.size) :
    Explores (Tidy E old) s (resolveFramework E solve chain scope request) fun _ _ => True := by
  have hmade : ∀ (made : Option InjectableId) (s' : Search), Tidy E old s'.session →
      scope < s'.session.scopes.size → (∀ c, made = some c → c < s'.session.injectables.size) →
        Explores (Tidy E old) s' (resolveMade E solve chain scope request made)
          fun _ _ => True := by
    intro made s' h' hscope' hlt
    cases made with
    | none => exact Explores.pure h' trivial
    | some c => exact (tidy_resolveCandidate hsolve h' hscope' (hlt c rfl)).imp fun _ _ _ _ => trivial
  unfold resolveFramework
  split
  · apply Explores.bind (tidy_lift h (blind_framework E scope request.ty)
      (leads_framework (speaks_everything E) h.sound hscope (covers_everything _))
      (keeps_framework E scope request.ty (Keeps.refl _)))
    rintro made s' h₁ ⟨howns, _⟩
    exact hmade made s' h₁.holds (h₁.keeps.grows.lt_scopes hscope) fun c hc => (howns c hc).candidate
  · exact hmade none s h hscope fun _ hc => by cases hc

/-! ### Choice -/

theorem tidy_tryAll {candidates : List InjectableId} {standing : Standing}
    (h : Tidy E old s.session) (hscope : scope < s.session.scopes.size)
    (hc : ∀ c ∈ candidates, c < s.session.injectables.size) :
    Explores (Tidy E old) s (tryAll E solve chain scope request standing candidates)
      fun _ _ => True := by
  induction candidates generalizing s standing with
  | nil => exact Explores.pure h trivial
  | cons c rest ih =>
    obtain ⟨hc, hrest⟩ := List.forall_mem_cons.1 hc
    rw [tryAll]
    apply Explores.get
    split
    · exact Explores.pure h trivial
    · apply Explores.bind (tidy_resolveCandidate hsolve h hscope hc)
      intro result s' h₁ _
      apply Explores.get
      exact ih h₁.holds (h₁.keeps.grows.lt_scopes hscope) fun c hmem =>
        h₁.keeps.grows.lt_injectables (hrest c hmem)

/-- If the most specific candidate comes first, no other one is tried once it has resolved. -/
theorem tidy_tryFirst {rest : List InjectableId} (h : Tidy E old s.session)
    (hscope : scope < s.session.scopes.size) (hfound : ∀ c ∈ found, c < s.session.injectables.size)
    (hbest : s.session.MostSpecific E scope found best) (hrest : ∀ c ∈ rest, c ∈ found ∧ c ≠ best) :
    Explores (Tidy E old) s (tryAll E solve chain scope request {} (best :: rest))
      fun standing s' => standing.best = [⟨best, scope, []⟩] ∨ s.divergences < s'.divergences := by
  rw [tryAll]
  apply Explores.get
  change Explores (Tidy E old) s (resolveCandidate E solve chain scope request best >>= _) _
  apply Explores.bind (tidy_resolveCandidate hsolve h hscope (hfound best hbest.mem))
  intro result s' h₁ hresult
  apply Explores.get
  rcases hresult hbest.atHand with rfl | hdiverged
  · -- the others are worse in the session after it has resolved, too
    have hbest' : s'.session.MostSpecific E scope found best :=
      (mostSpecific_iff h₁.keeps.grows hscope hfound).2 hbest
    intro standing s'' hrun
    rw [tryAll_stops rfl fun c hc =>
      (hbest'.compareCandidates request.ty (hrest c hc).1 (hrest c hc).2).2] at hrun
    cases hrun
    exact ⟨.refl h₁.holds, Or.inl rfl⟩
  · refine (tidy_tryAll hsolve h₁.holds (h₁.keeps.grows.lt_scopes hscope) fun c hc => ?_).imp
      fun _ s'' h₂ _ => Or.inr (Nat.lt_of_lt_of_le hdiverged h₂.divergences)
    exact h₁.keeps.grows.lt_injectables (hfound c (hrest c hc).1)

section Choice

variable (hsort : E.sorting.Merging)
include hsort

theorem tidy_resolveCandidates (h : Tidy E old s.session) (hscope : scope < s.session.scopes.size)
    (hfound : ∀ c ∈ found, c < s.session.injectables.size) :
    Explores (Tidy E old) s (resolveCandidates E solve chain scope request found)
      (Picks E s scope found) := by
  unfold resolveCandidates
  split
  · next only =>
    refine (tidy_resolveCandidate hsolve h hscope (hfound only (List.mem_singleton_self only))).imp
      fun result s' _ hresult best hbest => ?_
    obtain rfl := List.mem_singleton.1 hbest.mem
    exact hresult hbest.atHand
  · apply Explores.get
    split
    · exact Explores.stop
    · next sorted hranked =>
      have htried : Explores (Tidy E old) s (tryAll E solve chain scope request {} sorted)
          fun standing s' => ∀ best, s.session.MostSpecific E scope found best →
            standing.best = [⟨best, scope, []⟩] ∨ s.divergences < s'.divergences := by
        intro standing s' hrun
        have hsorted : ∀ c ∈ sorted, c < s.session.injectables.size := fun c hc =>
          hfound c (mem_of_mem_ranked hranked hc)
        refine ⟨(tidy_tryAll hsolve h hscope hsorted standing s' hrun).1, fun best hbest => ?_⟩
        obtain ⟨rest, hfirst, hrest⟩ := exists_ranked_first hsort request.ty hbest
        cases hranked.symm.trans hfirst
        exact (tidy_tryFirst hsolve h hscope hfound hbest hrest standing s' hrun).2
      apply Explores.bind htried
      intro standing s' h₁ hstanding
      refine Explores.pure h₁.holds fun best hbest => (hstanding best hbest).imp_left fun hone => ?_
      rw [Standing.outcome, hone]

theorem tidy_resolveSome (h : Tidy E old s.session) (hscope : scope < s.session.scopes.size)
    (hfound : ∀ c ∈ found, c < s.session.injectables.size) :
    Explores (Tidy E old) s (resolveSome E solve chain scope request found) fun result s' =>
      (found ≠ [] → result ≠ none) ∧ ∀ r, result = some r → Picks E s scope found r s' := by
  unfold resolveSome
  split
  · next hempty =>
    exact Explores.pure h ⟨fun hne => absurd (List.isEmpty_iff.1 hempty) hne, fun _ h => by cases h⟩
  · apply Explores.map
    refine (tidy_resolveCandidates hsolve hsort h hscope hfound).imp fun result s' _ hresult => ?_
    refine ⟨fun _ => Option.some_ne_none _, ?_⟩
    rintro _ ⟨⟩
    exact hresult

/-! ### Requests -/

theorem tidy_resolveInTypeScope (h : Tidy E old s.session)
    (hscope : scope < s.session.scopes.size) :
    Explores (Tidy E old) s (resolveInTypeScope E solve chain scope request)
      fun _ _ => True := by
  unfold resolveInTypeScope
  split
  · exact Explores.pure h trivial
  · apply Explores.bind (tidy_lift h (blind_typeScope E request.ty)
      (leads_typeScope (speaks_everything E) h.sound request.ty)
      (keeps_typeScope E request.ty (Keeps.refl _)))
    rintro typeScope s₁ h₁ ⟨hT, _⟩
    cases typeScope with
    | none => exact Explores.pure h₁.holds trivial
    | some id =>
      apply Explores.get
      apply Explores.bind (tidy_candidates h₁.holds (lt_of_isTypeScope (hT id rfl).flag) _ _)
      rintro candidates s₂ h₂ ⟨hlt, _⟩
      have hscope₂ := h₂.keeps.grows.lt_scopes (h₁.keeps.grows.lt_scopes hscope)
      exact (tidy_resolveSome hsolve hsort h₂.holds hscope₂ hlt).imp fun _ _ _ _ => trivial

theorem tidy_computeRequest (h : Tidy E old s.session) (hscope : scope < s.session.scopes.size) :
    Explores (Tidy E old) s (computeRequest E solve chain scope request)
      (Answers E s.divergences scope request.ty) := by
  unfold computeRequest
  apply Explores.get
  dsimp only
  apply Explores.bind (tidy_candidates h hscope _ _)
  rintro found s₁ h₁ ⟨hlt, hfound⟩
  have hscope₁ := h₁.keeps.grows.lt_scopes hscope
  have hrecorded : Recorded s₁.session scope scope request.ty found := by
    unfold Recorded
    rw [h₁.keeps.grows.scope scope hscope]
    exact hfound
  have hanswers : ∀ {result : Except Failure Resolved} {s' : Search},
      s₁.session.Keeps s'.session → (∀ best, s₁.session.MostSpecific E scope found best →
        result = .ok ⟨best, scope, []⟩ ∨ s.divergences < s'.divergences) →
      Answers E s.divergences scope request.ty result s' := fun hS hresult =>
    answers_of_recorded hscope₁ hrecorded hlt hS hresult
  apply Explores.bind (tidy_resolveSome hsolve hsort h₁.holds hscope₁ hlt)
  rintro result s₂ h₂ ⟨hsome, hpicks⟩
  have hscope₂ := h₂.keeps.grows.lt_scopes hscope₁
  have hseen : ∀ {s' : Search}, s₁.divergences < s₂.divergences →
      s₂.divergences ≤ s'.divergences → s.divergences < s'.divergences := fun h h' =>
    Nat.lt_of_le_of_lt h₁.divergences (Nat.lt_of_lt_of_le h h')
  split
  · next v =>
    refine Explores.pure h₂.holds (hanswers h₂.keeps fun best hbest => ?_)
    exact (hpicks _ rfl best hbest).imp_right fun hd => hseen hd (Nat.le_refl _)
  · next user =>
    -- if the candidates fail a divergence has been seen, should there be a most specific one
    have hdiverged : ∀ best, s₁.session.MostSpecific E scope found best →
        s₁.divergences < s₂.divergences := fun best hbest =>
      (hpicks _ rfl best hbest).resolve_left fun he => by cases he
    have hfailed : ∀ {result : Except Failure Resolved} {s' : Search},
        Onward (Tidy E old) s₂ s' → Answers E s.divergences scope request.ty result s' := fun h₃ =>
      hanswers (h₂.keeps.trans h₃.keeps) fun best hbest =>
        Or.inr (hseen (hdiverged best hbest) h₃.divergences)
    apply Explores.bind (tidy_resolveInTypeScope hsolve hsort h₂.holds hscope₂)
    intro typed s₃ h₃ _
    split
    · exact Explores.pure h₃.holds (hfailed h₃)
    · exact Explores.pure h₃.holds (hfailed h₃)
    · exact Explores.pure h₃.holds (hfailed h₃)
  · -- nothing has been found
    have hempty : ∀ {result : Except Failure Resolved} {s' : Search},
        Onward (Tidy E old) s₂ s' → Answers E s.divergences scope request.ty result s' := fun h₃ =>
      hanswers (h₂.keeps.trans h₃.keeps) fun best hbest =>
        absurd rfl (hsome (List.ne_nil_of_mem hbest.mem))
    apply Explores.bind (tidy_resolveInTypeScope hsolve hsort h₂.holds hscope₂)
    intro typed s₃ h₃ _
    split
    · exact Explores.pure h₃.holds (hempty h₃)
    · refine (tidy_resolveFramework hsolve h₃.holds (h₃.keeps.grows.lt_scopes hscope₂)).imp
        fun _ _ h₄ _ => hempty (h₃.trans h₄)

theorem tidies_resolveRequest : Tidies E old (resolveRequest E solve) := by
  intro chain scope request s h hscope
  unfold resolveRequest
  apply Explores.get
  split
  · exact Explores.pure h trivial
  · exact Explores.pure h trivial
  · refine (Explores.unlessDiverged (tidy_computeRequest hsolve hsort h hscope)
      (fun a S => ⟨(_, _), rfl⟩) (fun result s' _ h₁ hresult hclean => ?_)
      fun result s' r _ h₁ hresult => ?_).imp fun _ _ _ _ => trivial
    rotate_left
    · obtain ⟨found, hrecorded, hlt, hbest⟩ := hresult.answer
      exact answers_of_recorded (h₁.keeps.grows.lt_scopes hscope) hrecorded hlt
        (keeps_withResults _ r) hbest
    obtain ⟨found, hrecorded, hlt, hbest⟩ := hresult.answer
    refine h₁.holds.addType ⟨h₁.keeps.grows.lt_scopes hscope, found, hrecorded, hlt, ?_⟩
    exact fun best hmost => (hbest best hmost).resolve_right (Nat.not_lt.2 hclean)

end Choice

end Traversal

/-- A search of any depth, by any of the sorts, keeps what is remembered tidy. -/
theorem tidies_solve (hsort : E.sorting.Merging)
    (old : List (ScopeId × Ty)) (depth : Nat) :
    Tidies E old (Search.solve E depth) := by
  induction depth with
  | zero =>
    intro chain scope request s _ _ a s' h
    cases h
  | succ depth ih => exact tidies_resolveRequest ih hsort

end Search
end Wiring
