import Wiring.Proofs.Search.Solve

namespace Wiring.Search

open Session

variable {V : Vocabulary} {E : Environment} {s : Search} {α β : Type} {scope inner : ScopeId}
  {c : InjectableId} {chain : List InjectableId} {request : Request}

def Disordered (E : Environment) (S : Session) : Prop :=
  ∃ T scope requested candidates, S.Extends T ∧ (∀ c ∈ candidates, Usable T scope c) ∧
    ranked E T scope requested candidates = none

theorem Disordered.mono {S S' : Session} (h : Disordered E S') (hS : S.Extends S') :
    Disordered E S := by
  obtain ⟨T, scope, requested, candidates, hT, hc, hranked⟩ := h
  exact ⟨T, scope, requested, candidates, hS.trans hT, hc, hranked⟩

def Halts (R : Prop) (step : Nat → SearchM α) (s : Search) : Prop :=
  -- From some depth on, the step comes to the same at every depth: to a result, unless `R` holds
  -- and it stops for disorder.
  ∃ depth, (∃ result, ∀ d, depth ≤ d → step d s = .ok result) ∨
    R ∧ ∀ d, depth ≤ d → step d s = .error .disorder

namespace Halts

variable {R : Prop} {step step' : Nat → SearchM α} {f : Nat → α → SearchM β}

theorem of_ok {r : α × Search} (h : ∀ d, step d s = .ok r) : Halts R step s :=
  ⟨0, Or.inl ⟨r, fun d _ => h d⟩⟩

theorem pure (a : α) : Halts R (fun _ => Pure.pure a) s :=
  of_ok fun _ => rfl

theorem lift (step : SessionM α) : Halts R (fun _ => Search.lift step) s :=
  of_ok fun _ => rfl

theorem disorder (h : R) : Halts R (fun _ => (throw .disorder : SearchM α)) s :=
  ⟨0, Or.inr ⟨h, fun _ _ => rfl⟩⟩

theorem exists_ok (h : Halts False step s) :
    ∃ depth result, ∀ d, depth ≤ d → step d s = .ok result := by
  obtain ⟨depth, ⟨result, hrun⟩ | ⟨hfalse, _⟩⟩ := h
  · exact ⟨depth, result, hrun⟩
  · exact hfalse.elim

theorem get {f : Nat → Search → SearchM β} (h : Halts R (fun d => f d s) s) :
    Halts R (fun d => MonadState.get >>= f d) s :=
  h

/-- The second step has to halt only where the first one may lead to. -/
theorem bind_of (h : Halts R step s)
    (hf : ∀ d a s', step d s = .ok (a, s') → Halts R (fun d => f d a) s') :
    Halts R (fun d => step d >>= f d) s := by
  have hbind : ∀ d, (step d >>= f d) s = (step d s).bind fun r => f d r.1 r.2 := fun _ => rfl
  obtain ⟨depth, ⟨⟨a, s'⟩, hstep⟩ | ⟨hR, hstep⟩⟩ := h
  · obtain ⟨depth', hrest⟩ := hf depth a s' (hstep depth (Nat.le_refl depth))
    have hthen : ∀ d, max depth depth' ≤ d → (step d >>= f d) s = f d a s' := fun d hd => by
      rw [hbind, hstep d (by omega)]
      rfl
    exact ⟨max depth depth', hrest.imp
      (fun ⟨r, hrest⟩ => ⟨r, fun d hd => (hthen d hd).trans (hrest d (by omega))⟩)
      fun ⟨hR, hrest⟩ => ⟨hR, fun d hd => (hthen d hd).trans (hrest d (by omega))⟩⟩
  · have hthen : ∀ d, depth ≤ d → (step d >>= f d) s = .error .disorder := fun d hd => by
      rw [hbind, hstep d hd]
      rfl
    exact ⟨depth, Or.inr ⟨hR, hthen⟩⟩

theorem bind {Q : α → Session → Prop} (h : Halts R step s) (hl : ∀ d, Leads V E s (step d) Q)
    (hf : ∀ a s', s.session.Extends s'.session → Sound V E s'.session → Q a s'.session →
      Halts R (fun d => f d a) s') : Halts R (fun d => step d >>= f d) s := by
  apply bind_of h
  intro d a s' ha
  obtain ⟨hgrows, hs', hq⟩ := hl d a s' ha
  exact hf a s' hgrows hs' hq

theorem map {g : α → β} (h : Halts R step s) : Halts R (fun d => g <$> step d) s :=
  bind_of h fun _ a _ _ => pure (g a)

theorem ite {p : Prop} [Decidable p] (ht : p → Halts R step s) (he : ¬ p → Halts R step' s) :
    Halts R (fun d => if p then step d else step' d) s := by
  by_cases h : p
  · simp only [h, if_true]
    exact ht h
  · simp only [h, if_false]
    exact he h

theorem unlessDiverged {remember : α → Memo → Memo} (h : Halts R step s) :
    Halts R (fun d => Search.unlessDiverged (step d) remember) s := by
  unfold Search.unlessDiverged
  apply get
  apply bind_of h
  intro d a s' _
  -- what is left does not depend on the depth, and neither way of going on fails
  apply get
  by_cases hd : s'.divergences = s.divergences
  · simp only [hd, if_true]
    exact of_ok fun _ => rfl
  · simp only [hd, if_false]
    exact of_ok fun _ => rfl

/-- What halts one request deeper halts. -/
theorem of_succ (h : Halts R (fun d => step (d + 1)) s) : Halts R step s := by
  obtain ⟨depth, h⟩ := h
  have hdeeper : ∀ {outcome}, (∀ d, depth ≤ d → step (d + 1) s = outcome) →
      ∀ d, depth + 1 ≤ d → step d s = outcome := by
    intro outcome hrun d hd
    obtain ⟨d, rfl⟩ : ∃ d', d = d' + 1 := ⟨d - 1, by omega⟩
    exact hrun d (by omega)
  exact ⟨depth + 1, h.imp (fun ⟨r, hr⟩ => ⟨r, hdeeper hr⟩) fun ⟨hR, hr⟩ => ⟨hR, hdeeper hr⟩⟩

end Halts

variable {R : Prop}

/-! ### Dependencies -/

theorem halts_fillNext {request : Request} {v : Option Resolved} {rest : Nat → SearchM Filling}
    (h : Halts R rest s) : Halts R (fun d => fillNext request v (rest d)) s := by
  unfold fillNext
  apply Halts.bind_of h
  intro _ result s' _
  cases result with
  | ok filled => exact Halts.pure _
  | error failure => exact Halts.pure _

theorem halts_fillAll {solve : Nat → Request → SearchM (Except Failure Resolved)}
    {requests : List Request}
    (hl : ∀ r ∈ requests, ∀ d s', s.session.Extends s'.session → Sound V E s'.session →
      Leads V E s' (solve d r) fun result S' => Remembers E S' inner result)
    (h : ∀ r ∈ requests, ∀ s', s.session.Extends s'.session → Sound V E s'.session →
      Halts R (fun d => solve d r) s')
    (hs : Sound V E s.session) : Halts R (fun d => fillAll (solve d) requests) s := by
  induction requests generalizing s with
  | nil =>
    simp only [fillAll]
    exact Halts.pure _
  | cons r rest ih =>
    obtain ⟨hl, hlrest⟩ := List.forall_mem_cons.1 hl
    obtain ⟨h, hrest⟩ := List.forall_mem_cons.1 h
    simp only [fillAll]
    apply Halts.bind (h s (Extends.refl _) hs) fun d => hl d s (Extends.refl _) hs
    intro result s' hgrows hs' _
    have hgoOn : Halts R (fun d => fillAll (solve d) rest) s' := by
      apply ih _ _ hs'
      · exact fun r hr d s'' hS => hlrest r hr d s'' (hgrows.trans hS)
      · exact fun r hr s'' hS => hrest r hr s'' (hgrows.trans hS)
    -- a required request that fails ends the filling; after all others it goes on
    cases result with
    | ok v => exact halts_fillNext hgoOn
    | error failure =>
      apply Halts.ite
      · exact fun _ => Halts.pure _
      · exact fun _ => halts_fillNext hgoOn

/-! ### Candidates -/

def Finishes (V : Vocabulary) (E : Environment) (R : Prop) (S : Session)
    (chain : List InjectableId) : Prop :=
  ∀ scope request s, S.Extends s.session → Sound V E s.session →
    scope < s.session.scopes.size → V.Covers request.ty →
      Halts R (fun d => solve E d chain scope request) s

structure Descends (V : Vocabulary) (E : Environment) (R : Prop) (S : Session)
    (chain : List InjectableId) : Prop where
  -- The search inside of `chain` finishes inside of every candidate with dependencies that it does
  -- not diverge with, and of disorder it is known that `R`.
  inside : ∀ S' c, S.Extends S' → Sound V E S' → c < S'.injectables.size →
    diverges S' chain (S'.injectable c) = false →
      (S'.injectable c).dependencies E.catalog ≠ [] → Finishes V E R S' (c :: chain)
  disorder : Disordered E S → R

theorem Descends.mono {S S' : Session} (h : Descends V E R S chain) (hS : S.Extends S') :
    Descends V E R S' chain :=
  ⟨fun S'' c hS' => h.inside S'' c (hS.trans hS'), fun hd => h.disorder (hd.mono hS)⟩

theorem halts_fillCandidate {solve : Nat → Request → SearchM (Except Failure Resolved)}
    {requests : List Request} (h : Halts R (fun d => fillAll (solve d) requests) s) :
    Halts R (fun d => fillCandidate (solve d) scope c requests) s := by
  unfold fillCandidate
  apply Halts.bind_of h
  intro _ result s' _
  cases result with
  | ok filled => exact Halts.pure _
  | error failure => exact Halts.pure _

/-- What the candidate needs is searched for in a session in which its scope is made already. -/
theorem halts_dependencies (hE : V.Speaks E) {S : Session}
    (hf : (S.injectable c).dependencies E.catalog ≠ [] → Finishes V E R S (c :: chain))
    (hS : S.Extends s.session) (hs : Sound V E s.session) (hi : inner < s.session.scopes.size)
    (hc : c < S.injectables.size) :
    Halts R (fun d => fillAll (solve E d (c :: chain) inner)
      ((S.injectable c).dependencies E.catalog)) s := by
  have hcovers := Vocabulary.covers_dependencies (K := E.catalog)
    (hs.coversForm c)
  rw [hS.injectable c hc] at hcovers
  have hleads : ∀ r ∈ (S.injectable c).dependencies E.catalog, ∀ d s',
      s.session.Extends s'.session → Sound V E s'.session →
      Leads V E s' (solve E d (c :: chain) inner r) fun result S' => Remembers E S' inner result :=
    fun r hr d s' hS' hs' =>
      resolves_solve hE d (c :: chain) inner r s' hs' (hS'.lt_scopes hi) (hcovers r hr)
  apply halts_fillAll hleads _ hs
  intro r hr s' hS' hs'
  have hfin := hf (List.ne_nil_of_mem hr)
  exact hfin inner r s' (hS.trans hS') hs' (hS'.lt_scopes hi) (hcovers r hr)

theorem halts_computeCandidate (hE : V.Speaks E) (hd : Descends V E R s.session chain)
    (hs : Sound V E s.session) (hscope : scope < s.session.scopes.size)
    (hc : c < s.session.injectables.size) :
    Halts R (fun d => computeCandidate E (solve E d) chain scope request c) s := by
  unfold computeCandidate
  apply Halts.get
  dsimp only
  cases ho : obstacle? E s.session scope c with
  | some failure => exact Halts.pure _
  | none =>
    apply Halts.ite
    · exact fun _ => Halts.of_ok fun _ => rfl
    · intro hdiverges
      have hf := hd.inside s.session c (Extends.refl _) hs hc (Bool.eq_false_iff.2 hdiverges)
      apply Halts.ite
      · intro _
        exact halts_fillCandidate (halts_dependencies hE hf (Extends.refl _) hs hscope hc)
      · intro _
        apply Halts.bind (Halts.lift _)
          fun _ => Leads.lift (leads_dependencyScope hE hs hscope hc)
        intro inner s' hgrows hs' h
        exact halts_fillCandidate (halts_dependencies hE hf hgrows hs' h.1 hc)

theorem halts_resolveCandidate (hE : V.Speaks E) (hd : Descends V E R s.session chain)
    (hs : Sound V E s.session) (hscope : scope < s.session.scopes.size)
    (hc : c < s.session.injectables.size) :
    Halts R (fun d => resolveCandidate E (solve E d) chain scope request c) s := by
  unfold resolveCandidate
  apply Halts.get
  cases hl : s.session.memo.byCandidate.lookup (scope, c) with
  | some result => exact Halts.pure _
  | none => exact (halts_computeCandidate hE hd hs hscope hc).unlessDiverged

/-! ### Choice -/

theorem halts_tryAll (hE : V.Speaks E) {candidates : List InjectableId} {standing : Standing}
    (hd : Descends V E R s.session chain) (hs : Sound V E s.session)
    (hscope : scope < s.session.scopes.size) (hc : ∀ c ∈ candidates, Usable s.session scope c) :
    Halts R (fun d => tryAll E (solve E d) chain scope request standing candidates) s := by
  induction candidates generalizing s standing with
  | nil =>
    simp only [tryAll]
    exact Halts.pure _
  | cons c rest ih =>
    obtain ⟨hc, hrest⟩ := List.forall_mem_cons.1 hc
    simp only [tryAll]
    apply Halts.get
    apply Halts.ite
    · exact fun _ => Halts.pure _
    · intro _
      apply Halts.bind (halts_resolveCandidate hE hd hs hscope hc.candidate)
        fun d => leads_resolveCandidate hE (resolves_solve hE d) hs hscope hc
      intro result s' hgrows hs' _
      apply Halts.get
      apply ih (hd.mono hgrows) hs' (hgrows.lt_scopes hscope)
      exact fun c hc => (hrest c hc).mono hgrows

theorem halts_resolveCandidates (hE : V.Speaks E) {candidates : List InjectableId}
    (hd : Descends V E R s.session chain) (hs : Sound V E s.session)
    (hscope : scope < s.session.scopes.size) (hc : ∀ c ∈ candidates, Usable s.session scope c) :
    Halts R (fun d => resolveCandidates E (solve E d) chain scope request candidates) s := by
  unfold resolveCandidates
  rcases candidates with _ | ⟨only, _ | ⟨second, rest⟩⟩
  case cons.nil =>
    exact halts_resolveCandidate hE hd hs hscope (hc only (List.mem_singleton_self only)).candidate
  -- No candidate and more than one are ranked alike
  all_goals
    apply Halts.get
    cases hranked : ranked E s.session scope request.ty _ with
    | none =>
      exact Halts.disorder (hd.disorder ⟨s.session, scope, request.ty, _, Extends.refl _, hc, hranked⟩)
    | some sorted =>
      apply Halts.bind_of
      · exact halts_tryAll hE hd hs hscope fun c h => hc c (mem_of_mem_ranked hranked h)
      · exact fun _ _ _ _ => Halts.pure _

/-! ### Requests -/

theorem halts_resolveSome (hE : V.Speaks E) {candidates : List InjectableId}
    (hd : Descends V E R s.session chain) (hs : Sound V E s.session)
    (hscope : scope < s.session.scopes.size) (hc : ∀ c ∈ candidates, Usable s.session scope c) :
    Halts R (fun d => resolveSome E (solve E d) chain scope request candidates) s := by
  unfold resolveSome
  apply Halts.ite
  · exact fun _ => Halts.pure _
  · exact fun _ => (halts_resolveCandidates hE hd hs hscope hc).map

theorem halts_resolveInTypeScope (hE : V.Speaks E) (hd : Descends V E R s.session chain)
    (hs : Sound V E s.session) (hscope : scope < s.session.scopes.size)
    (ht : V.Covers request.ty) :
    Halts R (fun d => resolveInTypeScope E (solve E d) chain scope request) s := by
  unfold resolveInTypeScope
  apply Halts.ite
  · exact fun _ => Halts.pure _
  · intro _
    apply Halts.bind (Halts.lift _) fun _ => Leads.lift (leads_typeScope hE hs request.ty)
    intro found s₁ h₁ hs₁ hfound
    cases found with
    | none => exact Halts.pure _
    | some typeScope =>
      have hT := hfound typeScope rfl
      apply Halts.get
      apply Halts.bind (Halts.lift _)
        fun _ => Leads.lift (leads_candidates hE ht _ hs₁ (lt_of_isTypeScope hT.flag))
      intro candidates s₂ h₂ hs₂ hc
      apply halts_resolveSome hE (hd.mono (h₁.trans h₂)) hs₂ (h₂.lt_scopes (h₁.lt_scopes hscope))
      exact fun c hmem => usable_of_typeScope (hT.mono h₂) (hc c hmem)

theorem halts_resolveMade (hE : V.Speaks E) (hd : Descends V E R s.session chain)
    (hs : Sound V E s.session) (hscope : scope < s.session.scopes.size)
    {made : Option InjectableId} (hm : ∀ c, made = some c → s.session.Owns scope c) :
    Halts R (fun d => resolveMade E (solve E d) chain scope request made) s := by
  cases made with
  | none => exact Halts.pure _
  | some candidate => exact halts_resolveCandidate hE hd hs hscope (hm candidate rfl).candidate

theorem halts_resolveFramework (hE : V.Speaks E) (hd : Descends V E R s.session chain)
    (hs : Sound V E s.session) (hscope : scope < s.session.scopes.size)
    (ht : V.Covers request.ty) :
    Halts R (fun d => resolveFramework E (solve E d) chain scope request) s := by
  unfold resolveFramework
  apply Halts.ite
  · intro _
    apply Halts.bind (Halts.lift _) fun _ => Leads.lift (leads_framework hE hs hscope ht)
    intro made s' hgrows hs' hm
    exact halts_resolveMade hE (hd.mono hgrows) hs' (hgrows.lt_scopes hscope) hm
  · intro _
    show Halts R (fun d => resolveMade E (solve E d) chain scope request none) s
    exact halts_resolveMade hE hd hs hscope fun _ h => by cases h

theorem halts_computeRequest (hE : V.Speaks E) (hd : Descends V E R s.session chain)
    (hs : Sound V E s.session) (hscope : scope < s.session.scopes.size)
    (ht : V.Covers request.ty) :
    Halts R (fun d => computeRequest E (solve E d) chain scope request) s := by
  unfold computeRequest
  apply Halts.get
  apply Halts.bind (Halts.lift _) fun _ => Leads.lift (leads_candidates hE ht _ hs hscope)
  intro candidates s₁ h₁ hs₁ hoffers
  have hscope₁ := h₁.lt_scopes hscope
  have hc : ∀ c ∈ candidates, Usable s₁.session scope c :=
    fun c hmem => usable_of_offers hs₁ (hoffers c hmem)
  apply Halts.bind (halts_resolveSome hE (hd.mono h₁) hs₁ hscope₁ hc)
    fun d => leads_resolveSome hE (resolves_solve hE d) hs₁ hscope₁ hc
  intro result s₂ h₂ hs₂ _
  have hscope₂ := h₂.lt_scopes hscope₁
  have hd₂ := hd.mono (h₁.trans h₂)
  -- whatever the scope comes to, the type scope may be searched next
  have htyped := halts_resolveInTypeScope hE hd₂ hs₂ hscope₂ ht
  cases result with
  | none =>
    apply Halts.bind htyped
      fun d => leads_resolveInTypeScope hE (resolves_solve hE d) hs₂ hscope₂ ht
    intro typed s₃ h₃ hs₃ _
    cases typed with
    | some result => exact Halts.pure _
    | none => exact halts_resolveFramework hE (hd₂.mono h₃) hs₃ (h₃.lt_scopes hscope₂) ht
  | some result =>
    cases result with
    | ok v => exact Halts.pure _
    | error user =>
      apply Halts.bind_of htyped
      intro _ typed s₃ _
      rcases typed with _ | ⟨typed | v⟩
      · exact Halts.pure _
      · exact Halts.pure _
      · exact Halts.pure _

/-- A search finishes if it finishes inside of every candidate that it does not diverge with. -/
theorem finishes_of_descends (hE : V.Speaks E) {S : Session} (hd : Descends V E R S chain) :
    Finishes V E R S chain := by
  intro scope request s hS hs hscope ht
  apply Halts.of_succ
  show Halts R (fun d => resolveRequest E (solve E d) chain scope request) s
  unfold resolveRequest
  apply Halts.get
  cases hl : s.session.memo.byType.lookup (scope, request.ty) with
  | some result =>
    cases result with
    | ok v => exact Halts.pure _
    | error failure => exact Halts.pure _
  | none => exact (halts_computeRequest hE (hd.mono hS) hs hscope ht).unlessDiverged

end Wiring.Search
