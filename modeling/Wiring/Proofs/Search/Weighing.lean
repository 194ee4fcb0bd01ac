import Mathlib.Data.List.Nodup
import Wiring.Proofs.Search.Accounting
import Wiring.Proofs.Search.Comparison

namespace Wiring.Search

open Session Vocabulary

variable {E : Environment} {S : Session} {s : Search} {n : Nat} {scope place : ScopeId}
  {c : InjectableId} {solve : Solve} {chain : List InjectableId} {request : Request}
  {found tried candidates : List InjectableId} {result : Except Failure Resolved}

/-! ### Choice -/

section Standings

variable {requested : Ty} {standing : Standing} {best best' : List Resolved} {v : Resolved}

theorem Taken.ne_nil (h : Taken E S requested best v best') : best' ≠ [] := by
  cases h with
  | first => exact List.cons_ne_nil _ _
  | better => exact List.cons_ne_nil _ _
  | tied => exact List.append_ne_nil_of_right_ne_nil _ (List.cons_ne_nil _ _)
  | worse hleader =>
    rintro rfl
    cases hleader

/-- The values of different candidates stay so if a value of another one is taken in. -/
theorem Taken.distinct (h : Taken E S requested best v best')
    (hbest : (best.map (·.candidate)).Nodup) (hv : v.candidate ∉ best.map (·.candidate)) :
    (best'.map (·.candidate)).Nodup := by
  cases h with
  | first => exact List.nodup_singleton _
  | better => exact List.nodup_singleton _
  | tied =>
    rw [List.map_append]
    refine List.nodup_append.2 ⟨hbest, List.nodup_singleton _, ?_⟩
    intro a ha b hb he
    rw [List.map_singleton, List.mem_singleton] at hb
    exact hv (hb ▸ he ▸ ha)
  | worse => exact hbest

structure Weighed (E : Environment) (n : Nat) (chain : List InjectableId) (scope : ScopeId)
    (request : Request) (tried : List InjectableId) (standing : Standing) (s : Search) : Prop where
  -- The values of a standing are of different candidates that have been tried, and if there is
  -- none, all that have been tried fail, with the failure that the standing reports.
  eligible : ∀ v ∈ standing.best, v.candidate ∈ tried
  distinct : (standing.best.map (·.candidate)).Nodup
  untried : standing.best = [] → standing.failure = none → tried = []
  spent : standing.best = [] → ∀ f, standing.failure = some f →
    Grounded n chain s fun chain S => Spent E S chain scope request tried f

theorem weighed_nil : Weighed E n chain scope request [] {} s where
  eligible := List.forall_mem_nil _
  distinct := List.nodup_nil
  untried _ _ := rfl
  spent _ _ h := by cases h

/-- Candidates after one that is worse than a value need not be tried. -/
theorem Weighed.skip (h : Weighed E n chain scope request tried standing s)
    (hbest : standing.best ≠ []) (rest : List InjectableId) :
    Weighed E n chain scope request (tried ++ rest) standing s where
  eligible v hv := List.mem_append_left rest (h.eligible v hv)
  distinct := h.distinct
  untried hnone := absurd hnone hbest
  spent hnone := absurd hnone hbest

theorem Weighed.mono {s' : Search} (h : Weighed E n chain scope request tried standing s)
    (hs : Sound everything E s.session) (hscope : scope < s.session.scopes.size)
    (ht : ∀ c ∈ tried, c < s.session.injectables.size) (h₁ : Onward (Explained E) s s') :
    Weighed E n chain scope request tried standing s' :=
  { h with spent := fun hbest f hf =>
      (h.spent hbest f hf).mono h₁.divergences fun _ hspent =>
        hspent.mono hs h₁.keeps hscope ht }

theorem Weighed.add (h : Weighed E n chain scope request tried standing s)
    (hr : AccountsFor E n chain scope request c result s) (hc : c ∉ tried) :
    Weighed E n chain scope request (tried ++ [c]) (standing.add E S requested result) s := by
  cases result with
  | ok v =>
    have hv : v.candidate = c := hr.value v rfl
    have htaken : Taken E S requested standing.best v (standing.add E S requested (.ok v)).best :=
      taken_add standing
    have hother : v.candidate ∉ standing.best.map (·.candidate) := by
      intro hmem
      obtain ⟨w, hw, he⟩ := List.mem_map.1 hmem
      exact hc (hv ▸ he ▸ h.eligible w hw)
    refine ⟨?_, htaken.distinct h.distinct hother, fun hnone => absurd hnone htaken.ne_nil,
      fun hnone => absurd hnone htaken.ne_nil⟩
    apply forall_best_add
    · exact fun w hw => List.mem_append_left [c] (h.eligible w hw)
    · rintro _ ⟨⟩
      exact List.mem_append_right tried (hv ▸ List.mem_singleton_self c)
  | error g =>
    have hg := hr.failure g rfl
    refine ⟨fun w hw => List.mem_append_left [c] (h.eligible w hw), h.distinct,
      fun _ hnone => (by cases hnone), ?_⟩
    rintro hbest _ ⟨⟩
    cases hf : standing.failure with
    | none =>
      -- nothing has been tried before
      rw [h.untried hbest hf]
      exact hg.imp fun _ => .first
    | some f => exact (h.spent hbest f hf).both hg fun _ => .next

end Standings

theorem nodup_ranked {requested : Ty} {sorted : List InjectableId}
    (hranked : ranked E S scope requested candidates = some sorted) : sorted.Nodup := by
  obtain ⟨ordered, _, rfl⟩ := Option.map_eq_some_iff.1 hranked
  exact nodup_eraseDupsBy (fun c => usage_self (S.injectable c)) _

/-- Each candidate is tried, or one of the same usage. -/
theorem exists_mem_ranked {requested : Ty} {sorted : List InjectableId}
    (hranked : ranked E S scope requested candidates = some sorted) (h : c ∈ candidates) :
    ∃ t ∈ sorted, ((S.injectable c).usage == (S.injectable t).usage) = true := by
  obtain ⟨ordered, hordered, rfl⟩ := Option.map_eq_some_iff.1 hranked
  obtain ⟨t, ht, hsame⟩ := exists_mem_eraseDupsBy ((Sorting.sort_perm hordered).mem_iff.2 h)
  refine ⟨t, ht, ?_⟩
  rcases hsame with rfl | hsame
  · exact usage_self _
  · exact hsame

theorem explores_tryAll (hsolve : Accountable E solve) {standing : Standing}
    (h : Ready E n chain scope s) (hc : ∀ c ∈ candidates, Usable s.session scope c)
    (ht : ∀ c ∈ tried, c < s.session.injectables.size) (hd : (tried ++ candidates).Nodup)
    (hw : Weighed E n chain scope request tried standing s) :
    Explores (Explained E) s (tryAll E solve chain scope request standing candidates)
      (Weighed E n chain scope request (tried ++ candidates)) := by
  induction candidates generalizing s standing tried with
  | nil =>
    rw [List.append_nil]
    exact Explores.pure h.explained hw
  | cons c rest ih =>
    obtain ⟨hc, hrest⟩ := List.forall_mem_cons.1 hc
    rw [tryAll]
    apply Explores.get
    split
    · next hbeats =>
      refine Explores.pure h.explained (hw.skip ?_ _)
      intro hnone
      simp [Standing.beats, hnone] at hbeats
    · apply Explores.bind (Explores.sound
        (leads_resolveCandidate (speaks_everything E) hsolve.leads h.sound h.scope hc)
        (explores_resolveCandidate hsolve h hc))
      rintro result s' h₁ ⟨hs', -, hresult⟩
      apply Explores.get
      -- no candidate comes twice, so this one has not been tried
      have hnew : c ∉ tried := fun hmem =>
        (List.nodup_append.1 hd).2.2 c hmem c (List.mem_cons_self ..) rfl
      have ht' : ∀ t ∈ tried ++ [c], t < s'.session.injectables.size := by
        refine List.forall_mem_append.2
          ⟨fun t hmem => h₁.keeps.grows.lt_injectables (ht t hmem), ?_⟩
        rintro t ht
        rw [List.mem_singleton.1 ht]
        exact h₁.keeps.grows.lt_injectables hc.candidate
      have happend : tried ++ c :: rest = tried ++ [c] ++ rest := by simp
      rw [happend] at hd ⊢
      exact ih (h.onward h₁ hs') (fun c hmem => (hrest c hmem).mono h₁.keeps.grows) ht' hd
        ((hw.mono h.sound h.scope ht h₁).add hresult hnew)

def AccountsIn (E : Environment) (n : Nat) (chain : List InjectableId) (scope place : ScopeId)
    (request : Request) (result : Except Failure Resolved) (s : Search) : Prop :=
  ∀ f, result = .error f →
    Grounded n chain s fun chain S => Unserved E S chain scope place request f

theorem Weighed.accountsIn {standing : Standing}
    (h : Weighed E n chain scope request tried standing s)
    (hlegal : Stands E s.session scope standing)
    (hrecord : Recorded s.session scope place request.ty found) (htried : ∀ c ∈ tried, c ∈ found)
    (hall : ∀ c ∈ found, ∃ t ∈ tried,
      ((s.session.injectable c).usage == (s.session.injectable t).usage) = true)
    (hne : tried ≠ []) :
    AccountsIn E n chain scope place request (standing.outcome scope request) s := by
  intro f hf
  unfold Standing.outcome at hf
  split at hf
  · cases hf
  · next hbest =>
    cases hfailure : standing.failure with
    | none => exact absurd (h.untried hbest hfailure) hne
    | some g =>
      rw [hfailure] at hf
      cases hf
      exact (h.spent hbest _ hfailure).imp fun _ hspent => .spent hrecord htried hall hspent
  · next hone hnone =>
    cases hf
    refine .of_forall fun _ => .ambiguity hrecord ?_ h.distinct hlegal fun v hv =>
      htried _ (h.eligible v hv)
    -- there is a value, and there is more than one
    match hbest : standing.best with
    | [] => exact absurd hbest hnone
    | [v] => exact absurd hbest (hone v)
    | _ :: _ :: _ => exact Nat.le_add_left 2 _

theorem explores_resolveCandidates (hsolve : Accountable E solve) (h : Ready E n chain scope s)
    (hc : ∀ c ∈ found, Usable s.session scope c)
    (hrecord : Recorded s.session scope place request.ty found) (hne : found ≠ []) :
    Explores (Explained E) s (resolveCandidates E solve chain scope request found)
      (AccountsIn E n chain scope place request) := by
  unfold resolveCandidates
  split
  · next only =>
    refine (explores_resolveCandidate hsolve h (hc only (List.mem_singleton_self only))).imp
      fun result s' h₁ hresult f hf => ?_
    refine (hresult.failure f hf).imp fun _ hthwarted => ?_
    exact .spent (hrecord.mono h₁.keeps h.scope) (fun _ hmem => hmem)
      (fun c hmem => ⟨c, hmem, usage_self _⟩) (.first hthwarted)
  · apply Explores.get
    split
    · exact Explores.stop
    · next sorted hranked =>
      have husable : ∀ c ∈ sorted, Usable s.session scope c :=
        fun c hmem => hc c (mem_of_mem_ranked hranked hmem)
      have hnone : Stands E s.session scope {} := List.forall_mem_nil _
      apply Explores.bind (Explores.sound
        (leads_tryAll (speaks_everything E) hsolve.leads h.sound h.scope husable hnone)
        (explores_tryAll hsolve h husable (List.forall_mem_nil _) (nodup_ranked hranked)
          weighed_nil))
      rintro standing s' h₁ ⟨hs', hlegal, hweighed⟩
      have hsame : ∀ c ∈ found, s'.session.injectable c = s.session.injectable c :=
        fun c hmem => h₁.keeps.grows.injectable c (hc c hmem).candidate
      refine Explores.pure h₁.explained (hweighed.accountsIn hlegal (hrecord.mono h₁.keeps h.scope)
        (fun c hmem => mem_of_mem_ranked hranked hmem) (fun c hmem => ?_) ?_)
      · obtain ⟨t, ht, husage⟩ := exists_mem_ranked hranked hmem
        refine ⟨t, ht, ?_⟩
        rw [hsame c hmem, hsame t (mem_of_mem_ranked hranked ht)]
        exact husage
      · obtain ⟨c, hmem⟩ := List.exists_mem_of_ne_nil found hne
        obtain ⟨t, ht, _⟩ := exists_mem_ranked hranked hmem
        exact List.ne_nil_of_mem ht

/-! ### Requests -/

/-- A lookup of candidates is recorded for the scope that it is made for. -/
theorem explores_candidates (h : Ready E n chain scope s) (hplace : place < s.session.scopes.size)
    (ty : Ty) :
    Explores (Explained E) s (lift (Session.candidates E place ty (s.session.scope scope).statics))
      fun found s' => Sound everything E s'.session ∧ (∀ c ∈ found, s'.session.Offers place c) ∧
        Recorded s'.session scope place ty found := by
  refine (Explores.sound
    (Leads.lift (leads_candidates (speaks_everything E) (covers_everything ty) _ h.sound hplace))
    (explores_lift h.sound h.explained (blind_candidates E place ty _)
      (keeps_candidates E place ty _ (Keeps.refl _)))).imp ?_
  rintro found s₁ h₁ ⟨hs₁, hoffers, hfound⟩
  refine ⟨hs₁, hoffers, ?_⟩
  unfold Recorded
  rw [h₁.keeps.grows.scope scope h.scope]
  exact hfound

structure MayAccount (E : Environment) (n : Nat) (chain : List InjectableId)
    (scope place : ScopeId) (request : Request) (found : List InjectableId)
    (result : Option (Except Failure Resolved)) (s : Search) : Prop where
  -- If there is a result there are candidates, and a failure says why they do not fill the request.
  none : result = none → found = []
  some : ∀ r, result = some r → AccountsIn E n chain scope place request r s

theorem explores_resolveSome (hsolve : Accountable E solve) (h : Ready E n chain scope s)
    (hc : ∀ c ∈ found, Usable s.session scope c)
    (hrecord : Recorded s.session scope place request.ty found) :
    Explores (Explained E) s (resolveSome E solve chain scope request found)
      (MayAccount E n chain scope place request found) := by
  unfold resolveSome
  split
  · next hempty =>
    exact Explores.pure h.explained ⟨fun _ => List.isEmpty_iff.1 hempty, fun _ h => by cases h⟩
  · next hempty =>
    have hne : found ≠ [] := fun hnil => hempty (List.isEmpty_iff.2 hnil)
    apply Explores.map
    refine (explores_resolveCandidates hsolve h hc hrecord hne).imp
      fun result s' _ hresult => ⟨fun h => (by cases h), ?_⟩
    rintro _ ⟨⟩
    exact hresult

structure AccountsTyped (E : Environment) (n : Nat) (chain : List InjectableId) (scope : ScopeId)
    (request : Request) (result : Option (Except Failure Resolved)) (s : Search) : Prop where
  -- If there is no result the type scope has no candidates, and a failure says why those that it
  -- has do not fill the request.
  none : result = none → NoneInTypeScope E s.session scope request.ty
  some : ∀ r, result = some r → ∃ typeScope, TypeScopeOf E s.session request.ty (some typeScope) ∧
    AccountsIn E n chain scope typeScope request r s

theorem explores_resolveInTypeScope (hsolve : Accountable E solve) (h : Ready E n chain scope s) :
    Explores (Explained E) s (resolveInTypeScope E solve chain scope request)
      (AccountsTyped E n chain scope request) := by
  unfold resolveInTypeScope
  split
  · next hoff =>
    refine Explores.pure h.explained ⟨fun _ hon => ?_, fun _ h => by cases h⟩
    simp [hon] at hoff
  · apply Explores.bind (Explores.sound
      (Leads.lift (leads_typeScope (speaks_everything E) h.sound request.ty))
      (explores_lift h.sound h.explained (blind_typeScope E request.ty)
        (keeps_typeScope E request.ty (Keeps.refl _))))
    rintro typeScope s₁ h₁ ⟨hs₁, hisType, hlookup⟩
    have htype : TypeScopeOf E s₁.session request.ty typeScope := ⟨request.ty, BEq.rfl, hlookup⟩
    have hready₁ := h.onward h₁ hs₁
    split
    · exact Explores.pure h₁.explained
        ⟨fun _ _ => ⟨none, htype, fun _ h => by cases h⟩, fun _ h => by cases h⟩
    · next place =>
      have hT := hisType place rfl
      apply Explores.get
      apply Explores.bind (explores_candidates hready₁ (lt_of_isTypeScope hT.flag) request.ty)
      rintro found s₂ h₂ ⟨hs₂, hc, hrecord⟩
      have htype₂ := htype.mono h₂.keeps
      have hready₂ := hready₁.onward h₂ hs₂
      refine (explores_resolveSome hsolve hready₂
        (fun c hmem => usable_of_typeScope (hT.mono h₂.keeps.grows) (hc c hmem)) hrecord).imp
        fun result s₃ h₃ hresult => ⟨fun hnone _ => ?_, fun r hr => ?_⟩
      · refine ⟨some place, htype₂.mono h₃.keeps, ?_⟩
        rintro _ ⟨⟩
        rw [hresult.none hnone] at hrecord
        exact hrecord.mono h₃.keeps hready₂.scope
      · exact ⟨place, htype₂.mono h₃.keeps, hresult.some r hr⟩

theorem explores_resolveFramework (hsolve : Accountable E solve) (h : Ready E n chain scope s)
    (hrecord : Recorded s.session scope scope request.ty [])
    (hnone : NoneInTypeScope E s.session scope request.ty) :
    Explores (Explained E) s (resolveFramework E solve chain scope request)
      (Accounts E n chain scope request) := by
  unfold resolveFramework
  split
  · apply Explores.bind (Explores.sound
      (Leads.lift (leads_framework (speaks_everything E) h.sound h.scope
        (covers_everything request.ty)))
      (explores_lift h.sound h.explained (blind_framework E scope request.ty)
        (keeps_framework E scope request.ty (Keeps.refl _))))
    rintro made s₁ h₁ ⟨hs₁, howns, hmade⟩
    have hready₁ := h.onward h₁ hs₁
    have hrecord₁ := hrecord.mono h₁.keeps h.scope
    have hnone₁ := hnone.mono h₁.keeps h.scope
    -- nothing is made, or what is made accounts for the failure
    cases made with
    | none =>
      refine Explores.pure h₁.explained ?_
      rintro _ ⟨⟩
      refine .of_forall fun _ => .nothing hrecord₁ hnone₁ fun _ => ?_
      split at hmade
      · next hnothing => exact Or.inl hnothing
      · exact Or.inr hmade
    | some c =>
      rw [if_neg] at hmade
      · obtain ⟨hlt, howner⟩ := howns c rfl
        have husable : Usable s₁.session scope c :=
          ⟨hlt, Or.inl (by rw [howner]; exact .here scope)⟩
        refine (explores_resolveCandidate hsolve hready₁ husable).imp
          fun result s₂ h₂ hresult f hf => ?_
        refine (hresult.failure f hf).imp fun _ hthwarted => ?_
        exact .made (hrecord₁.mono h₂.keeps hready₁.scope) (hnone₁.mono h₂.keeps hready₁.scope)
          (h₂.keeps.framework _ _ hmade) hthwarted
      · intro hnothing
        rw [if_pos hnothing] at hmade
        cases hmade
  · next hoff =>
    refine Explores.pure h.explained ?_
    rintro _ ⟨⟩
    exact .of_forall fun _ => .nothing hrecord hnone fun hon => absurd hon hoff

theorem explores_computeRequest (hsolve : Accountable E solve) (h : Ready E n chain scope s) :
    Explores (Explained E) s (computeRequest E solve chain scope request)
      (Accounts E n chain scope request) := by
  have hE := speaks_everything E
  unfold computeRequest
  apply Explores.get
  apply Explores.bind (explores_candidates h h.scope request.ty)
  rintro found s₁ h₁ ⟨hs₁, hc, hrecord⟩
  have hready₁ := h.onward h₁ hs₁
  have husable : ∀ c ∈ found, Usable s₁.session scope c :=
    fun c hmem => usable_of_offers hs₁ (hc c hmem)
  apply Explores.bind (Explores.sound
    (leads_resolveSome hE hsolve.leads hs₁ hready₁.scope husable)
    (explores_resolveSome hsolve hready₁ husable hrecord))
  rintro result s₂ h₂ ⟨hs₂, -, hresult⟩
  have hready₂ := hready₁.onward h₂ hs₂
  have htyped : Explores (Explained E) s₂ (resolveInTypeScope E solve chain scope request)
      (AccountsTyped E n chain scope request) := explores_resolveInTypeScope hsolve hready₂
  -- found in the scope; failed there, which leaves the type scope; or not found there at all
  split
  · exact Explores.pure h₂.explained fun _ h => by cases h
  · next user =>
    apply Explores.bind htyped
    intro typed s₃ h₃ htyped
    have huser : Grounded n chain s₃ fun chain S => Unserved E S chain scope scope request user :=
      (hresult.some _ rfl user rfl).mono h₃.divergences fun _ h =>
        h.mono hs₂ h₃.keeps hready₂.scope
    split
    · exact Explores.pure h₃.explained fun _ h => by cases h
    · next failure =>
      obtain ⟨typeScope, ht, hfailure⟩ := htyped.some _ rfl
      refine Explores.pure h₃.explained ?_
      rintro _ ⟨⟩
      exact huser.both (hfailure failure rfl) fun _ h h' => .inBoth h ht h'
    · refine Explores.pure h₃.explained ?_
      rintro _ ⟨⟩
      exact huser.imp fun _ h => .inScope h (htyped.none rfl)
  · have hempty : found = [] := hresult.none rfl
    rw [hempty] at hrecord
    have hrecord₂ := hrecord.mono h₂.keeps hready₁.scope
    apply Explores.bind (Explores.sound
      (leads_resolveInTypeScope hE hsolve.leads hs₂ hready₂.scope (covers_everything _)) htyped)
    rintro typed s₃ h₃ ⟨hs₃, -, htyped⟩
    have hrecord₃ := hrecord₂.mono h₃.keeps hready₂.scope
    split
    · next result =>
      obtain ⟨typeScope, ht, hfailure⟩ := htyped.some _ rfl
      exact Explores.pure h₃.explained fun f hf =>
        (hfailure f hf).imp fun _ h => .inTypeScope hrecord₃ ht h
    · exact explores_resolveFramework hsolve (hready₂.onward h₃ hs₃) hrecord₃ (htyped.none rfl)

theorem accountable_resolveRequest (hsolve : Accountable E solve) :
    Accountable E (resolveRequest E solve) := by
  refine ⟨resolves_resolveRequest (speaks_everything E) hsolve.leads, ?_⟩
  intro n chain scope request s h
  unfold resolveRequest
  apply Explores.get
  split
  · exact Explores.pure h.explained fun _ h => by cases h
  · next failure hfailure =>
    obtain ⟨⟨⟨scope', ty'⟩, result'⟩, he, hk, hresult⟩ := mem_of_lookup hfailure
    obtain ⟨rfl, hty⟩ := of_beq_pair hk
    obtain ⟨request', rfl, hexplains⟩ := (h.explained.byType _ he).failure failure hresult
    refine Explores.pure h.explained ?_
    rintro _ ⟨⟩
    exact .of_forall fun chain => (hexplains chain).forRequest hty
  · refine (explores_unlessDiverged
      (leads_computeRequest (speaks_everything E) hsolve.leads h.sound h.scope (covers_everything _))
      (explores_computeRequest hsolve h.now) (fun a S => ⟨(_, _), rfl⟩)
      (fun result s' hs' h₁ hresult hclean => ?_) fun result s' r hs' h₁ hresult f hf => ?_).imp
      fun _ _ _ hresult f hf => (hresult f hf).weaken h.seen
    · refine h₁.explained.addType hs' ⟨(h.onward h₁ hs').scope, fun f hf => ?_⟩
      exact ⟨request, rfl, (hresult f hf).2 hclean⟩
    · exact (hresult f hf).mono (Nat.le_refl _) fun _ hexplains =>
        hexplains.mono hs' (keeps_withResults _ r) (h.onward h₁ hs').scope

/-- A search of any depth gives failures that are explained. -/
theorem accountable_solve (E : Environment) (depth : Nat) : Accountable E (Search.solve E depth) := by
  induction depth with
  | zero =>
    refine ⟨resolves_solve (speaks_everything E) 0, ?_⟩
    intro n chain scope request s _ a s' h
    cases h
  | succ depth ih => exact accountable_resolveRequest ih

end Wiring.Search
