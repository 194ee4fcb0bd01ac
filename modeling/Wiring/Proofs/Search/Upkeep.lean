import Wiring.Proofs.Search.Use
import Wiring.Proofs.Session.Indexed

namespace Wiring

open Vocabulary

structure Session.Upkeep (E : Environment) (I : Session → Prop) : Prop where
  -- The steps that a search takes on its session keep an invariant.
  candidates : ∀ {S : Session} {scope : ScopeId}, Sound everything E S → I S →
    scope < S.scopes.size → ∀ ty statics, I ((Session.candidates E scope ty statics).run S).2
  typeScope : ∀ {S : Session}, Sound everything E S → I S → ∀ ty,
    I ((Session.typeScope E ty).run S).2
  dependencyScope : ∀ {S : Session} {scope : ScopeId} {c : InjectableId}, Sound everything E S →
    I S → scope < S.scopes.size → c < S.injectables.size →
      I ((Session.dependencyScope E scope c).run S).2
  framework : ∀ {S : Session} {scope : ScopeId}, Sound everything E S → I S →
    scope < S.scopes.size → ∀ ty, I ((Session.framework? E scope ty).run S).2
  byType : ∀ {S : Session} e, I S →
    I { S with memo := { S.memo with byType := e :: S.memo.byType } }
  byCandidate : ∀ {S : Session} e, I S →
    I { S with memo := { S.memo with byCandidate := e :: S.memo.byCandidate } }

theorem Session.Upkeep.and {E : Environment} {I J : Session → Prop} (h : Upkeep E I)
    (h' : Upkeep E J) : Upkeep E fun S => I S ∧ J S where
  candidates hs hS hscope ty statics :=
    ⟨h.candidates hs hS.1 hscope ty statics, h'.candidates hs hS.2 hscope ty statics⟩
  typeScope hs hS ty := ⟨h.typeScope hs hS.1 ty, h'.typeScope hs hS.2 ty⟩
  dependencyScope hs hS hscope hc :=
    ⟨h.dependencyScope hs hS.1 hscope hc, h'.dependencyScope hs hS.2 hscope hc⟩
  framework hs hS hscope ty := ⟨h.framework hs hS.1 hscope ty, h'.framework hs hS.2 hscope ty⟩
  byType e hS := ⟨h.byType e hS.1, h'.byType e hS.2⟩
  byCandidate e hS := ⟨h.byCandidate e hS.1, h'.byCandidate e hS.2⟩

namespace Search

open Session

variable {E : Environment} {I : Session → Prop} {s : Search} {scope inner : ScopeId}
  {c : InjectableId} {solve : Solve} {chain : List InjectableId} {request : Request}
  {candidates : List InjectableId}

def Upheld (I : Session → Prop) (S : Session) : Prop :=
  Indexed S ∧ I S

/-- A step that leads to a sound session and keeps an invariant may be followed by another one. -/
theorem Obeys.bind_leads {V : Vocabulary} {α β : Type} {J : Session → Prop} {step : SearchM α}
    {f : α → SearchM β} {Q R : α → Session → Prop} {T : β → Session → Prop}
    (hl : Leads V E s step Q) (ho : Obeys J s step R)
    (hf : ∀ a s', s.session.Extends s'.session → Sound V E s'.session → J s'.session →
      Q a s'.session → R a s'.session → Obeys J s' (f a) T) : Obeys J s (step >>= f) T := by
  intro b s'' hb
  obtain ⟨⟨a, s'⟩, ha, hb⟩ := bind_eq_ok_iff.1 hb
  obtain ⟨hgrows, hsound, hQ⟩ := hl a s' ha
  obtain ⟨_, hJ, hR⟩ := ho a s' ha
  obtain ⟨hgrows', hJ', hT⟩ := hf a s' hgrows hsound hJ hQ hR b s'' hb
  exact ⟨hgrows.trans hgrows', hJ', hT⟩

structure Upholds (E : Environment) (I : Session → Prop) (solve : Solve) : Prop where
  -- Solving leads to sound sessions, keeps the invariant and names existing places only.
  leads : Resolves everything E solve
  keeps : ∀ chain scope request s, Sound everything E s.session → Upheld I s.session →
    scope < s.session.scopes.size →
      Obeys (Upheld I) s (solve chain scope request) fun result S' => S'.Knows result

/-! ### Session steps -/

section Steps

variable (hI : Upkeep E I) (hs : Sound everything E s.session) (hu : Upheld I s.session)
include hI hs hu

theorem upholds_candidates (hscope : scope < s.session.scopes.size) (ty : Ty)
    (statics : List Classifier) :
    Obeys (Upheld I) s (lift (Session.candidates E scope ty statics)) fun _ _ => True := by
  have hscopes := lt_of_mem_ancestors hs.nested hscope
  have hindexed : Session.Obeys Indexed s.session (Session.candidates E scope ty statics)
      fun found S' => ∀ c ∈ found, c < S'.injectables.size :=
    .get (indexed_candidatesIn E ty statics hu.1 hscopes)
  have hkept := hI.candidates hs hu.2 hscope ty statics
  exact Obeys.lift ⟨hindexed.grows, ⟨hindexed.keeps, hkept⟩, trivial⟩

theorem upholds_typeScope (ty : Ty) :
    Obeys (Upheld I) s (lift (Session.typeScope E ty)) fun _ _ => True := by
  have hindexed := indexed_typeScope E ty hu.1
  have hkept := hI.typeScope hs hu.2 ty
  exact Obeys.lift ⟨hindexed.grows, ⟨hindexed.keeps, hkept⟩, trivial⟩

theorem upholds_dependencyScope (hscope : scope < s.session.scopes.size)
    (hc : c < s.session.injectables.size) :
    Obeys (Upheld I) s (lift (Session.dependencyScope E scope c)) fun _ _ => True := by
  have hindexed := indexed_dependencyScope E hu.1 hscope hc
  have hkept := hI.dependencyScope hs hu.2 hscope hc
  exact Obeys.lift ⟨hindexed.grows, ⟨hindexed.keeps, hkept⟩, trivial⟩

theorem upholds_framework (hscope : scope < s.session.scopes.size) (ty : Ty) :
    Obeys (Upheld I) s (lift (Session.framework? E scope ty)) fun _ _ => True := by
  have hindexed := indexed_framework E ty hu.1 (lt_of_mem_ancestors hs.nested hscope)
  have hkept := hI.framework hs hu.2 hscope ty
  exact Obeys.lift ⟨hindexed.grows, ⟨hindexed.keeps, hkept⟩, trivial⟩

end Steps

/-! ### Candidates -/

def KnowsFilling (S : Session) : Filling → Prop
  | .ok filled => ∀ r v, (r, some v) ∈ filled → v.Within S
  | .error (_, failure) => failure.Within S

theorem upholds_fillAll (hsolve : Upholds E I solve) {requests : List Request}
    (hs : Sound everything E s.session) (hu : Upheld I s.session)
    (hi : inner < s.session.scopes.size) :
    Obeys (Upheld I) s (fillAll (solve chain inner) requests) fun result S' =>
      KnowsFilling S' result := by
  induction requests generalizing s with
  | nil =>
    rw [fillAll]
    exact Obeys.pure hu fun _ _ h => absurd h List.not_mem_nil
  | cons request rest ih =>
    -- after a value and after a default the rest is filled in the same way
    have hgoOn : ∀ (v : Option Resolved) (s' : Search), Sound everything E s'.session →
        Upheld I s'.session → inner < s'.session.scopes.size →
        (∀ w, v = some w → w.Within s'.session) →
        Obeys (Upheld I) s' (fillNext request v (fillAll (solve chain inner) rest))
          fun result S' => KnowsFilling S' result := by
      intro v s' hs' hu' hi' hv
      unfold fillNext
      apply Obeys.bind (ih hs' hu' hi')
      intro result s'' hgrows hu'' hknows
      split
      · next filled =>
        refine Obeys.pure hu'' fun r w hw => ?_
        rcases List.mem_cons.1 hw with he | hw
        · cases he
          exact (hv w rfl).mono hgrows
        · exact hknows r w hw
      · exact Obeys.pure hu'' hknows
    rw [fillAll]
    apply Obeys.bind_leads (hsolve.leads chain inner request s hs hi (covers_everything _))
      (hsolve.keeps chain inner request s hs hu hi)
    intro result s' hgrows hs' hu' hlegal hknows
    clear hlegal
    have hi' := hgrows.lt_scopes hi
    split
    · next v =>
      apply hgoOn (some v) s' hs' hu' hi'
      rintro _ ⟨⟩
      exact hknows
    · split
      · exact Obeys.pure hu' hknows
      · exact hgoOn none s' hs' hu' hi' fun _ h => by cases h

theorem upholds_fillCandidate (hsolve : Upholds E I solve) {requests : List Request}
    (hs : Sound everything E s.session) (hu : Upheld I s.session)
    (hscope : scope < s.session.scopes.size) (hi : inner < s.session.scopes.size)
    (hc : c < s.session.injectables.size) :
    Obeys (Upheld I) s (fillCandidate (solve chain inner) scope c requests) fun result S' =>
      S'.Knows result := by
  unfold fillCandidate
  apply Obeys.bind (upholds_fillAll hsolve hs hu hi)
  intro result s' hgrows hu' hknows
  have hc' := hgrows.lt_injectables hc
  split
  · next filled =>
    exact Obeys.pure hu' (.node ⟨hc', hgrows.lt_scopes hscope⟩ hknows)
  · next dependency failure =>
    exact Obeys.pure hu' ⟨hc', hknows⟩

/-- What stands in the way of a candidate names nothing but the candidate. -/
theorem within_of_obstacle {S : Session} {failure : Failure}
    (h : obstacle? E S scope c = some failure) (hc : c < S.injectables.size) :
    failure.Within S := by
  rcases obstacle_cases h with ⟨_, _, rfl⟩ | ⟨_, _, rfl⟩
  · exact hc
  · exact hc

theorem upholds_computeCandidate (hI : Upkeep E I) (hsolve : Upholds E I solve)
    (hs : Sound everything E s.session) (hu : Upheld I s.session)
    (hscope : scope < s.session.scopes.size) (hc : c < s.session.injectables.size) :
    Obeys (Upheld I) s (computeCandidate E solve chain scope request c) fun result S' =>
      S'.Knows result := by
  unfold computeCandidate
  apply Obeys.get
  dsimp only
  split
  · next failure hobstacle => exact Obeys.pure hu (within_of_obstacle hobstacle hc)
  · split
    · apply Obeys.bind (Obeys.count hu rfl)
      intro _ s' _ hu' hsame
      refine Obeys.pure hu' ?_
      change c < s'.session.injectables.size
      rw [hsame]
      exact hc
    · split
      · exact upholds_fillCandidate hsolve hs hu hscope hscope hc
      · have hleads := leads_dependencyScope (speaks_everything E) hs hscope hc
        apply Obeys.bind_leads (Leads.lift hleads) (upholds_dependencyScope hI hs hu hscope hc)
        rintro inner s' hgrows hs' hu' ⟨hinner, _⟩ _
        exact upholds_fillCandidate hsolve hs' hu' (hgrows.lt_scopes hscope) hinner
          (hgrows.lt_injectables hc)

theorem upholds_resolveCandidate (hI : Upkeep E I) (hsolve : Upholds E I solve)
    (hs : Sound everything E s.session) (hu : Upheld I s.session)
    (hscope : scope < s.session.scopes.size) (hc : c < s.session.injectables.size) :
    Obeys (Upheld I) s (resolveCandidate E solve chain scope request c) fun result S' =>
      S'.Knows result := by
  unfold resolveCandidate
  apply Obeys.get
  split
  · next result hresult =>
    obtain ⟨e, he, _, rfl⟩ := mem_of_lookup hresult
    exact Obeys.pure hu (hu.1.byCandidate e he).2.2
  · have hcomputed : Obeys (Upheld I) s (computeCandidate E solve chain scope request c)
        fun result S' => S'.Knows result ∧ scope < S'.scopes.size ∧ c < S'.injectables.size :=
      (upholds_computeCandidate hI hsolve hs hu hscope hc).imp fun _ _ hgrows _ hknows =>
        ⟨hknows, hgrows.lt_scopes hscope, hgrows.lt_injectables hc⟩
    refine (Obeys.unlessDiverged hcomputed ?_).imp fun _ _ _ _ h => h.1
    rintro result S ⟨hS, hIS⟩ ⟨hknows, hscope, hc⟩
    have hgrows : S.Extends { S with memo := { S.memo with
        byCandidate := ((scope, c), result) :: S.memo.byCandidate } } :=
      Extends.of_same rfl rfl fun _ _ => id
    have hindexed := hS.change {
      grows := hgrows
      byCandidate := mem_cons_imp ⟨hscope, hc, hknows.mono hgrows⟩ }
    exact ⟨hgrows, ⟨hindexed, hI.byCandidate _ hIS⟩, hknows.mono hgrows, hscope, hc⟩

/-! ### Choice -/

structure KnowsStanding (S : Session) (standing : Standing) : Prop where
  -- All that a standing names exists.
  best : ∀ v ∈ standing.best, v.Within S
  failure : ∀ failure, standing.failure = some failure → failure.Within S

theorem KnowsStanding.mono {S S' : Session} {standing : Standing} (h : KnowsStanding S standing)
    (hS : S.Extends S') : KnowsStanding S' standing :=
  ⟨fun v hv => (h.best v hv).mono hS, fun f hf => (h.failure f hf).mono hS⟩

theorem KnowsStanding.add {S S' : Session} {standing : Standing} {requested : Ty}
    {result : Except Failure Resolved} (h : KnowsStanding S standing) (hr : S.Knows result) :
    KnowsStanding S (standing.add E S' requested result) := by
  have hvalue : ∀ v, result = .ok v → v.Within S := by
    rintro v rfl
    exact hr
  have hbest : ∀ v ∈ (standing.add E S' requested result).best, v.Within S :=
    forall_best_add h.best hvalue
  refine ⟨hbest, fun f hf => ?_⟩
  cases result with
  | ok v =>
    -- a value leaves the failure that is to be reported
    have hsame : (standing.add E S' requested (.ok v)).failure = standing.failure := by
      unfold Standing.add
      dsimp only
      split
      · rfl
      · split <;> rfl
    exact h.failure f (hsame ▸ hf)
  | error failure =>
    have hreport : Failure.report standing.failure failure = f := Option.some.inj hf
    unfold Failure.report at hreport
    split at hreport
    · next old hold =>
      split at hreport
      · exact hreport ▸ hr
      · exact hreport ▸ h.failure old hold
    · exact hreport ▸ hr

theorem KnowsStanding.outcome {S : Session} {standing : Standing} (h : KnowsStanding S standing)
    (hscope : scope < S.scopes.size) : S.Knows (standing.outcome scope request) := by
  unfold Standing.outcome
  split
  · next v hbest => exact h.best v (hbest ▸ List.mem_singleton_self v)
  · cases hf : standing.failure with
    | none => exact hscope
    | some failure => exact h.failure failure hf
  · exact h.best

theorem upholds_tryAll (hI : Upkeep E I) (hsolve : Upholds E I solve) {standing : Standing}
    (hs : Sound everything E s.session) (hu : Upheld I s.session)
    (hscope : scope < s.session.scopes.size) (hc : ∀ c ∈ candidates, Usable s.session scope c)
    (hst : KnowsStanding s.session standing) :
    Obeys (Upheld I) s (tryAll E solve chain scope request standing candidates)
      fun standing S' => KnowsStanding S' standing := by
  induction candidates generalizing s standing with
  | nil => exact Obeys.pure hu hst
  | cons c rest ih =>
    obtain ⟨hc, hrest⟩ := List.forall_mem_cons.1 hc
    rw [tryAll]
    apply Obeys.get
    split
    · exact Obeys.pure hu hst
    · apply Obeys.bind_leads
        (leads_resolveCandidate (speaks_everything E) hsolve.leads hs hscope hc)
        (upholds_resolveCandidate hI hsolve hs hu hscope hc.candidate)
      intro result s' hgrows hs' hu' _ hknows
      apply Obeys.get
      exact ih hs' hu' (hgrows.lt_scopes hscope) (fun c hc => (hrest c hc).mono hgrows)
        ((hst.mono hgrows).add hknows)

theorem upholds_resolveCandidates (hI : Upkeep E I) (hsolve : Upholds E I solve)
    (hs : Sound everything E s.session) (hu : Upheld I s.session)
    (hscope : scope < s.session.scopes.size)
    (hc : ∀ c ∈ candidates, Usable s.session scope c) :
    Obeys (Upheld I) s (resolveCandidates E solve chain scope request candidates)
      fun result S' => S'.Knows result := by
  unfold resolveCandidates
  split
  · next only =>
    exact upholds_resolveCandidate hI hsolve hs hu hscope
      (hc only (List.mem_singleton_self only)).candidate
  · apply Obeys.get
    have hnone : KnowsStanding s.session {} := ⟨List.forall_mem_nil _, fun _ h => by cases h⟩
    split
    · exact Obeys.stop
    · next sorted hranked =>
      apply Obeys.bind (upholds_tryAll hI hsolve hs hu hscope
        (fun c h => hc c (mem_of_mem_ranked hranked h)) hnone)
      intro standing s' hgrows hu' hknows
      exact Obeys.pure hu' (hknows.outcome (hgrows.lt_scopes hscope))

/-! ### Requests -/

def MayKnow (S : Session) (result : Option (Except Failure Resolved)) : Prop :=
  ∀ r, result = some r → S.Knows r

theorem upholds_resolveSome (hI : Upkeep E I) (hsolve : Upholds E I solve)
    (hs : Sound everything E s.session) (hu : Upheld I s.session)
    (hscope : scope < s.session.scopes.size)
    (hc : ∀ c ∈ candidates, Usable s.session scope c) :
    Obeys (Upheld I) s (resolveSome E solve chain scope request candidates)
      fun result S' => MayKnow S' result := by
  unfold resolveSome
  split
  · exact Obeys.pure hu fun _ h => by cases h
  · apply Obeys.map
    apply (upholds_resolveCandidates hI hsolve hs hu hscope hc).imp
    rintro result S' _ _ hknows _ ⟨⟩
    exact hknows

theorem upholds_resolveInTypeScope (hI : Upkeep E I) (hsolve : Upholds E I solve)
    (hs : Sound everything E s.session) (hu : Upheld I s.session)
    (hscope : scope < s.session.scopes.size) :
    Obeys (Upheld I) s (resolveInTypeScope E solve chain scope request)
      fun result S' => MayKnow S' result := by
  have hE := speaks_everything E
  unfold resolveInTypeScope
  split
  · exact Obeys.pure hu fun _ h => by cases h
  · apply Obeys.bind_leads (Leads.lift (leads_typeScope hE hs request.ty))
      (upholds_typeScope hI hs hu request.ty)
    intro found s₁ h₁ hs₁ hu₁ hfound _
    split
    · exact Obeys.pure hu₁ fun _ h => by cases h
    · next typeScope =>
      have hT := hfound typeScope rfl
      have hplace := lt_of_isTypeScope hT.flag
      apply Obeys.get
      apply Obeys.bind_leads
        (Leads.lift (leads_candidates hE (covers_everything _) _ hs₁ hplace))
        (upholds_candidates hI hs₁ hu₁ hplace _ _)
      intro candidates s₂ h₂ hs₂ hu₂ hc _
      apply upholds_resolveSome hI hsolve hs₂ hu₂ (h₂.lt_scopes (h₁.lt_scopes hscope))
      exact fun c hmem => usable_of_typeScope (hT.mono h₂) (hc c hmem)

theorem upholds_resolveMade (hI : Upkeep E I) (hsolve : Upholds E I solve)
    (hs : Sound everything E s.session) (hu : Upheld I s.session)
    (hscope : scope < s.session.scopes.size) {made : Option InjectableId}
    (hm : ∀ c, made = some c → s.session.Owns scope c) :
    Obeys (Upheld I) s (resolveMade E solve chain scope request made) fun result S' =>
      S'.Knows result := by
  cases made with
  | none => exact Obeys.pure hu hscope
  | some candidate =>
    exact upholds_resolveCandidate hI hsolve hs hu hscope (hm candidate rfl).candidate

theorem upholds_resolveFramework (hI : Upkeep E I) (hsolve : Upholds E I solve)
    (hs : Sound everything E s.session) (hu : Upheld I s.session)
    (hscope : scope < s.session.scopes.size) :
    Obeys (Upheld I) s (resolveFramework E solve chain scope request) fun result S' =>
      S'.Knows result := by
  unfold resolveFramework
  split
  · have hleads := leads_framework (speaks_everything E) hs hscope (covers_everything request.ty)
    apply Obeys.bind_leads (Leads.lift hleads) (upholds_framework hI hs hu hscope request.ty)
    intro made s' hgrows hs' hu' hm _
    exact upholds_resolveMade hI hsolve hs' hu' (hgrows.lt_scopes hscope) hm
  · change Obeys (Upheld I) s (resolveMade E solve chain scope request none) _
    exact upholds_resolveMade hI hsolve hs hu hscope fun _ h => by cases h

/-- Of two failures one is reported. -/
theorem within_overall {S : Session} {user typed : Failure} (hu : user.Within S)
    (ht : typed.Within S) : (overall user typed).Within S := by
  unfold overall
  split
  · exact ht
  · exact hu

theorem upholds_computeRequest (hI : Upkeep E I) (hsolve : Upholds E I solve)
    (hs : Sound everything E s.session) (hu : Upheld I s.session)
    (hscope : scope < s.session.scopes.size) :
    Obeys (Upheld I) s (computeRequest E solve chain scope request) fun result S' =>
      S'.Knows result := by
  have hE := speaks_everything E
  unfold computeRequest
  apply Obeys.get
  apply Obeys.bind_leads (Leads.lift (leads_candidates hE (covers_everything _) _ hs hscope))
    (upholds_candidates hI hs hu hscope _ _)
  intro candidates s₁ h₁ hs₁ hu₁ hc _
  have hscope₁ := h₁.lt_scopes hscope
  have husable : ∀ c ∈ candidates, Usable s₁.session scope c :=
    fun c hmem => usable_of_offers hs₁ (hc c hmem)
  apply Obeys.bind_leads (leads_resolveSome hE hsolve.leads hs₁ hscope₁ husable)
    (upholds_resolveSome hI hsolve hs₁ hu₁ hscope₁ husable)
  intro result s₂ h₂ hs₂ hu₂ hlegal hresult
  clear hlegal
  have hscope₂ := h₂.lt_scopes hscope₁
  -- found in the scope; failed there, which leaves the type scope; or not found there at all
  split
  · next v => exact Obeys.pure hu₂ (hresult _ rfl)
  · next user =>
    apply Obeys.bind (upholds_resolveInTypeScope hI hsolve hs₂ hu₂ hscope₂)
    intro typed s₃ h₃ hu₃ htyped
    have huser : user.Within s₃.session := Knows.mono (hresult _ rfl) h₃
    split
    · next v => exact Obeys.pure hu₃ (htyped _ rfl)
    · next failure => exact Obeys.pure hu₃ (within_overall huser (htyped _ rfl))
    · exact Obeys.pure hu₃ huser
  · apply Obeys.bind_leads
      (leads_resolveInTypeScope hE hsolve.leads hs₂ hscope₂ (covers_everything _))
      (upholds_resolveInTypeScope hI hsolve hs₂ hu₂ hscope₂)
    intro typed s₃ h₃ hs₃ hu₃ _ htyped
    split
    · next result => exact Obeys.pure hu₃ (htyped _ rfl)
    · exact upholds_resolveFramework hI hsolve hs₃ hu₃ (h₃.lt_scopes hscope₂)

theorem upholds_resolveRequest (hI : Upkeep E I) (hsolve : Upholds E I solve) :
    Upholds E I (resolveRequest E solve) := by
  refine ⟨resolves_resolveRequest (speaks_everything E) hsolve.leads, ?_⟩
  intro chain scope request s hs hu hscope
  unfold resolveRequest
  apply Obeys.get
  -- a value from memory, a failure from memory, or a search that may be remembered
  split
  · next v hv =>
    obtain ⟨e, he, _, hresult⟩ := mem_of_lookup hv
    exact Obeys.pure hu (hresult ▸ (hu.1.byType e he).2)
  · next failure hfailure =>
    obtain ⟨e, he, _, hresult⟩ := mem_of_lookup hfailure
    have hknows : s.session.Knows (.error failure) := hresult ▸ (hu.1.byType e he).2
    exact Obeys.pure hu (Failure.Within.forRequest hknows request)
  · have hcomputed : Obeys (Upheld I) s (computeRequest E solve chain scope request)
        fun result S' => S'.Knows result ∧ scope < S'.scopes.size :=
      (upholds_computeRequest hI hsolve hs hu hscope).imp fun _ _ hgrows _ hknows =>
        ⟨hknows, hgrows.lt_scopes hscope⟩
    refine (Obeys.unlessDiverged hcomputed ?_).imp fun _ _ _ _ h => h.1
    rintro result S ⟨hS, hIS⟩ ⟨hknows, hscope⟩
    have hgrows : S.Extends { S with memo := { S.memo with
        byType := ((scope, request.ty), result) :: S.memo.byType } } :=
      Extends.of_same rfl rfl fun _ _ => id
    have hindexed := hS.change {
      grows := hgrows
      byType := mem_cons_imp ⟨hscope, hknows.mono hgrows⟩ }
    exact ⟨hgrows, ⟨hindexed, hI.byType _ hIS⟩, hknows.mono hgrows, hscope⟩

/-- A search of any depth keeps what its steps keep. -/
theorem upholds_solve (hI : Upkeep E I) (depth : Nat) : Upholds E I (Search.solve E depth) := by
  induction depth with
  | zero =>
    refine ⟨resolves_solve (speaks_everything E) 0, ?_⟩
    intro chain scope request s _ _ _ a s' h
    cases h
  | succ depth ih => exact upholds_resolveRequest hI ih

end Search

/-! ### Uses -/

namespace Session

open Search

variable {P : Ty → Prop} {E : Environment} {I : Session → Prop} {S S' : Session}
  {scope : ScopeId}

theorem Upkeep.resolve (hI : Upkeep E I) (hs : Sound everything E S) (hu : Upheld I S)
    (hscope : scope < S.scopes.size) {depth : Nat} {request : Request}
    {result : Except Failure Resolved}
    (hr : S.resolve E depth scope request = .ok (result, S')) :
    Upheld I S' ∧ S'.Knows result := by
  obtain ⟨s', hrun, rfl⟩ := exists_run_of_resolve hr
  exact ((upholds_solve hI depth).keeps [] scope request { session := S } hs hu hscope result s'
    hrun).2

theorem Upkeep.resolveAll (hI : Upkeep E I) (hs : Sound everything E S) (hu : Upheld I S)
    (hscope : scope < S.scopes.size) {depth : Nat} {requests : List Request} {site : CallSite}
    (hr : S.resolveAll E depth scope requests = .ok (site, S')) : Upheld I S' := by
  obtain ⟨s', hrun, rfl⟩ := exists_run_of_resolveAll hr
  have hsolve := upholds_solve hI depth
  have hobeys : Search.Obeys (fun S => Sound everything E S ∧ Upheld I S) { session := S }
      (Search.solveAll E depth scope requests [] none) fun _ _ => True := by
    refine Search.Obeys.solveAll (fun request _ s ⟨hs, hu⟩ hscope => ?_) ⟨hs, hu⟩ hscope
    intro result s' hrun
    obtain ⟨hgrows, hs', _⟩ := hsolve.leads [] scope request s hs hscope (covers_everything _)
      result s' hrun
    exact ⟨hgrows, ⟨hs', (hsolve.keeps [] scope request s hs hu hscope result s' hrun).2.1⟩,
      trivial⟩
  exact (hobeys site s' hrun).2.1.2

theorem indexed_addScope (E : Environment) (position : Position) (hS : Indexed S) :
    Indexed ((addScope E position).run S).2 :=
  (Session.Obeys.addScope hS ((indexed_build E position hS).imp fun _ _ _ _ _ => trivial)).keeps

/-- A use of a session keeps an invariant that searches and additions of scopes keep. -/
theorem Use.upheld (h : Use P E S S') (hI : Upkeep E I)
    (hadd : ∀ position, I ((Session.addScope E position).run S).2) (hs : Sound everything E S)
    (hu : Upheld I S) : Upheld I S' := by
  cases h with
  | addScope position _ _ => exact ⟨indexed_addScope E position hu.1, hadd position⟩
  | @candidates scope hscope ty _ statics =>
    have hindexed := indexed_candidatesIn E ty statics hu.1 (lt_of_mem_ancestors hs.nested hscope)
    exact ⟨hindexed.keeps, hI.candidates hs hu.2 hscope ty statics⟩
  | resolve hscope _ hr => exact (hI.resolve hs hu hscope hr).1
  | resolveAll hscope _ hr => exact hI.resolveAll hs hu hscope hr

/-- So it holds in every session that comes about, if it does in the empty one. What this takes of the
catalog does not depend on supplied supertypes. -/
theorem Reachable.upheld_of {Q : Environment → Prop} (h : Reachable E S) (hE : Q E)
    (hQ : ∀ E c ts, Q { E with catalog := (E.catalog.supplySupertypes c ts).2 } → Q E)
    (hI : ∀ E, Q E → Upkeep E I)
    (hadd : ∀ E S position, Q E → Sound everything E S → I S →
      I ((Session.addScope E position).run S).2)
    (hempty : I {}) : Upheld I S := by
  have huse : ∀ {E : Environment} {S S' : Session}, Reachable E S → Q E → Upheld I S →
      Use (fun _ => True) E S S' → Upheld I S' := fun {E S S'} h hE hu huse =>
    huse.upheld (hI E hE) (fun position => hadd E S position hE h.sound_everything hu.2)
      h.sound_everything hu
  induction h with
  | start E => exact ⟨indexed_empty, hempty⟩
  | supply _ c ts ih => exact ih (hQ _ c ts hE)
  | addScope h position hp ih =>
    exact huse h hE (ih hE) (.addScope position hp fun _ _ => ⟨trivial, fun _ _ => trivial⟩)
  | candidates h hscope ty statics ih =>
    exact huse h hE (ih hE) (.candidates hscope trivial statics)
  | resolve h hscope hr ih => exact huse h hE (ih hE) (.resolve hscope trivial hr)
  | resolveAll h hscope hr ih =>
    exact huse h hE (ih hE) (.resolveAll hscope (fun _ _ => trivial) hr)

theorem Reachable.upheld (h : Reachable E S) (hI : ∀ E, Upkeep E I)
    (hadd : ∀ E S position, Sound everything E S → I S → I ((Session.addScope E position).run S).2)
    (hempty : I {}) : Upheld I S :=
  h.upheld_of (Q := fun _ => True) trivial (fun _ _ _ h => h) (fun E _ => hI E)
    (fun E S position _ => hadd E S position) hempty

theorem MadeOf.upheld (h : MadeOf P E S) (hI : Upkeep E I)
    (hadd : ∀ S position, Sound everything E S → I S → I ((Session.addScope E position).run S).2)
    (hempty : I {}) : Upheld I S := by
  induction h with
  | start => exact ⟨indexed_empty, hempty⟩
  | use h hu ih =>
    have hs := h.reachable.sound_everything
    exact hu.upheld hI (fun position => hadd _ position hs ih.2) hs ih

/-- All that is held in a table of a session that has come about by use exists. -/
theorem MadeOf.indexed (h : MadeOf P E S) : Indexed S := by
  have hnothing : Upkeep E fun _ => True := by
    constructor <;> intros <;> trivial
  exact (h.upheld hnothing (fun _ _ _ _ => trivial) trivial).1

end Session
end Wiring
