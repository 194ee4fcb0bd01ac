import Wiring.Proofs.Search.Explanation
import Wiring.Proofs.Search.Progress

/-!
What is remembered is explained wherever a search comes from (`Explained`), since it was found while
no divergence was seen; so a failure that is remembered may be given to any later search, and reported
on another request.
-/
namespace Wiring.Search

open Session Vocabulary

variable {E E' : Environment} {S S' : Session} {s s' s'' : Search} {α β : Type} {n : Nat}
  {scope inner place : ScopeId} {c : InjectableId} {solve : Solve} {chain : List InjectableId}
  {request : Request} {ty : Ty} {result : Except Failure Resolved} {found : List InjectableId}

/-! ### What is remembered -/

structure ExplainsType (E : Environment) (S : Session) (scope : ScopeId) (ty : Ty)
    (result : Except Failure Resolved) : Prop where
  -- A failure by type is the failure of a request for the type.
  place : scope < S.scopes.size
  failure : ∀ f, result = .error f → ∃ request : Request, request.ty = ty ∧
    ∀ chain, Explains E S chain scope request f

structure ExplainsCandidate (E : Environment) (S : Session) (scope : ScopeId) (c : InjectableId)
    (result : Except Failure Resolved) : Prop where
  -- A result by candidate is a value of the candidate, or says why it fails.
  place : scope < S.scopes.size
  candidate : c < S.injectables.size
  value : ∀ v, result = .ok v → v.candidate = c
  failure : ∀ f, result = .error f → ∃ request, ∀ chain, Thwarted E S chain scope request c f

structure Explained (E : Environment) (S : Session) : Prop where
  -- All failures that are remembered are explained, wherever a search comes from.
  byType : ∀ e ∈ S.memo.byType, ExplainsType E S e.1.1 e.1.2 e.2
  byCandidate : ∀ e ∈ S.memo.byCandidate, ExplainsCandidate E S e.1.1 e.1.2 e.2

theorem ExplainsType.mono (h : ExplainsType E S scope ty result) (hs : Sound everything E S)
    (hS : S.Keeps S') : ExplainsType E S' scope ty result where
  place := hS.grows.lt_scopes h.place
  failure f hf := by
    obtain ⟨request, hty, hexplains⟩ := h.failure f hf
    exact ⟨request, hty, fun chain => (hexplains chain).mono hs hS h.place⟩

theorem ExplainsCandidate.mono (h : ExplainsCandidate E S scope c result)
    (hs : Sound everything E S) (hS : S.Keeps S') : ExplainsCandidate E S' scope c result where
  place := hS.grows.lt_scopes h.place
  candidate := hS.grows.lt_injectables h.candidate
  value := h.value
  failure f hf := by
    obtain ⟨request, hthwarted⟩ := h.failure f hf
    exact ⟨request, fun chain => (hthwarted chain).mono hs hS h.place h.candidate⟩

/-- What is explained is so in a later session with the same results. -/
theorem Explained.keep (h : Explained E S) (hs : Sound everything E S) (hS : S.Keeps S')
    (hr : S'.results = S.results) : Explained E S' := by
  obtain ⟨htype, hcandidate⟩ := Prod.mk.inj hr
  constructor
  · rw [htype]
    exact fun e he => (h.byType e he).mono hs hS
  · rw [hcandidate]
    exact fun e he => (h.byCandidate e he).mono hs hS

theorem Explained.addType (h : Explained E S) (hs : Sound everything E S)
    (hnew : ExplainsType E S scope ty result) :
    Explained E { S with memo := { S.memo with
      byType := ((scope, ty), result) :: S.memo.byType } } := by
  have hS : S.Keeps { S with memo := { S.memo with
      byType := ((scope, ty), result) :: S.memo.byType } } := keeps_withResults S (_, _)
  constructor
  · exact List.forall_mem_cons.2 ⟨hnew.mono hs hS, fun e he => (h.byType e he).mono hs hS⟩
  · exact fun e he => (h.byCandidate e he).mono hs hS

theorem Explained.addCandidate (h : Explained E S) (hs : Sound everything E S)
    (hnew : ExplainsCandidate E S scope c result) :
    Explained E { S with memo := { S.memo with
      byCandidate := ((scope, c), result) :: S.memo.byCandidate } } := by
  have hS : S.Keeps { S with memo := { S.memo with
      byCandidate := ((scope, c), result) :: S.memo.byCandidate } } := keeps_withResults S (_, _)
  constructor
  · exact fun e he => (h.byType e he).mono hs hS
  · exact List.forall_mem_cons.2 ⟨hnew.mono hs hS, fun e he => (h.byCandidate e he).mono hs hS⟩

theorem explained_empty (E : Environment) : Explained E {} where
  byType := List.forall_mem_nil _
  byCandidate := List.forall_mem_nil _

theorem Explained.supply (h : Explained E S) (hhost : E'.host = E.host)
    (hconfig : E'.config = E.config) (hK : E.catalog.Supplied E'.catalog) : Explained E' S where
  byType e he := by
    refine ⟨(h.byType e he).place, fun f hf => ?_⟩
    obtain ⟨request, hty, hexplains⟩ := (h.byType e he).failure f hf
    exact ⟨request, hty, fun chain => (hexplains chain).supply hhost hconfig hK⟩
  byCandidate e he := by
    have hold := h.byCandidate e he
    refine ⟨hold.place, hold.candidate, hold.value, fun f hf => ?_⟩
    obtain ⟨request, hthwarted⟩ := hold.failure f hf
    exact ⟨request, fun chain => (hthwarted chain).supply hhost hconfig hK⟩

/-! ### Steps -/

theorem Onward.explained (h : Onward (Explained E) s s') : Explained E s'.session :=
  h.holds

def Grounded (n : Nat) (chain : List InjectableId) (s : Search)
    (P : List InjectableId → Session → Prop) : Prop :=
  -- `P` holds inside of the candidates of `chain`, and if no more than `n` divergences have been
  -- seen, it holds wherever the search comes from.
  P chain s.session ∧ (s.divergences ≤ n → ∀ chain, P chain s.session)

namespace Grounded

variable {P Q R : List InjectableId → Session → Prop}

theorem of_forall (h : ∀ chain, P chain s.session) : Grounded n chain s P :=
  ⟨h chain, fun _ => h⟩

theorem imp (h : Grounded n chain s P) (hP : ∀ chain, P chain s.session → Q chain s.session) :
    Grounded n chain s Q :=
  ⟨hP chain h.1, fun hn chain => hP chain (h.2 hn chain)⟩

theorem both (h : Grounded n chain s P) (h' : Grounded n chain s Q)
    (hPQ : ∀ chain, P chain s.session → Q chain s.session → R chain s.session) :
    Grounded n chain s R :=
  ⟨hPQ chain h.1 h'.1, fun hn chain => hPQ chain (h.2 hn chain) (h'.2 hn chain)⟩

theorem weaken {m : Nat} (h : Grounded m chain s P) (hn : n ≤ m) : Grounded n chain s P :=
  ⟨h.1, fun hclean => h.2 (Nat.le_trans hclean hn)⟩

theorem mono (h : Grounded n chain s P) (hs : s.divergences ≤ s'.divergences)
    (hP : ∀ chain, P chain s.session → P chain s'.session) : Grounded n chain s' P :=
  ⟨hP chain h.1, fun hn chain => hP chain (h.2 (Nat.le_trans hs hn) chain)⟩

end Grounded

section Explored

variable {Q : α → Search → Prop}

/-- A lookup leaves all results as they are. -/
theorem explores_lift {look : SessionM α} {P : α → Session → Prop}
    (hs : Sound everything E s.session) (hx : Explained E s.session) (hb : Blind look)
    (h : Session.Obeys s.session.Keeps s.session look P) :
    Explores (Explained E) s (Search.lift look) fun a s' => P a s'.session :=
  Explores.lift h (hx.keep hs h.keeps (hb.results_eq _))

/-- What has been computed is remembered if no divergence was seen, and then it has to be explained. -/
theorem explores_unlessDiverged {step : SearchM α} {remember : α → Memo → Memo}
    {P : α → Session → Prop} (hl : Leads everything E s step P) (h : Explores (Explained E) s step Q)
    (hresults : ∀ a (S : Session), ∃ r,
      ({ S with memo := remember a S.memo } : Session) = S.withResults r)
    (hx : ∀ a s', Sound everything E s'.session → Onward (Explained E) s s' → Q a s' →
      s'.divergences ≤ s.divergences →
        Explained E { s'.session with memo := remember a s'.session.memo })
    (hQ : ∀ a s' r, Sound everything E s'.session → Onward (Explained E) s s' → Q a s' →
      Q a { s' with session := s'.session.withResults r }) :
    Explores (Explained E) s (Search.unlessDiverged step remember) Q :=
  Explores.unlessDiverged h hresults (fun a s' hrun => hx a s' (hl a s' hrun).2.1)
    fun a s' r hrun => hQ a s' r (hl a s' hrun).2.1

end Explored

/-- From where a search in `scope` starts, inside of the candidates of `chain`, after `n` divergences or
more. -/
structure Ready (E : Environment) (n : Nat) (chain : List InjectableId) (scope : ScopeId)
    (s : Search) : Prop where
  sound : Sound everything E s.session
  explained : Explained E s.session
  scope : scope < s.session.scopes.size
  chain : ∀ c ∈ chain, c < s.session.injectables.size
  seen : n ≤ s.divergences

theorem Ready.onward (h : Ready E n chain scope s) (h₁ : Onward (Explained E) s s')
    (hs' : Sound everything E s'.session) : Ready E n chain scope s' where
  sound := hs'
  explained := h₁.explained
  scope := h₁.keeps.grows.lt_scopes h.scope
  chain c hc := h₁.keeps.grows.lt_injectables (h.chain c hc)
  seen := Nat.le_trans h.seen h₁.divergences

/-- From here on only later divergences count. -/
theorem Ready.now (h : Ready E n chain scope s) : Ready E s.divergences chain scope s :=
  { h with seen := Nat.le_refl _ }

def Accounts (E : Environment) (n : Nat) (chain : List InjectableId) (scope : ScopeId)
    (request : Request) (result : Except Failure Resolved) (s : Search) : Prop :=
  ∀ f, result = .error f → Grounded n chain s fun chain S => Explains E S chain scope request f

structure Accountable (E : Environment) (solve : Solve) : Prop where
  -- Solving leads to sound sessions and to failures that are explained.
  leads : Resolves everything E solve
  accounts : ∀ n chain scope request s, Ready E n chain scope s →
    Explores (Explained E) s (solve chain scope request) (Accounts E n chain scope request)

/-! ### Dependencies -/

def AccountsFilling (E : Environment) (n : Nat) (chain : List InjectableId) (inner : ScopeId)
    (requests : List Request) (filling : Filling) (s : Search) : Prop :=
  ∀ r f, filling = .error (r, f) → r ∈ requests ∧ r.required = true ∧
    Grounded n chain s fun chain S => Explains E S chain inner r f

theorem explores_fillAll (hsolve : Accountable E solve) {requests : List Request}
    (h : Ready E n chain inner s) :
    Explores (Explained E) s (fillAll (solve chain inner) requests)
      (AccountsFilling E n chain inner requests) := by
  induction requests generalizing s with
  | nil =>
    rw [fillAll]
    exact Explores.pure h.explained fun _ _ h => by cases h
  | cons request rest ih =>
    -- after a value and after a default the rest is filled in the same way
    have hgoOn : ∀ (v : Option Resolved) (s' : Search), Onward (Explained E) s s' →
        Sound everything E s'.session →
        Explores (Explained E) s' (fillNext request v (fillAll (solve chain inner) rest))
          (AccountsFilling E n chain inner (request :: rest)) := by
      intro v s' h₁ hs'
      unfold fillNext
      apply Explores.bind (ih (h.onward h₁ hs'))
      intro result s'' h₂ hfilling
      split
      · exact Explores.pure h₂.explained fun _ _ h => by cases h
      · refine Explores.pure h₂.explained ?_
        rintro r f ⟨⟩
        exact (hfilling r f rfl).imp_left (List.mem_cons_of_mem request)
    rw [fillAll]
    apply Explores.bind (Explores.sound
      (hsolve.leads chain inner request s h.sound h.scope (covers_everything _))
      (hsolve.accounts n chain inner request s h))
    rintro result s' h₁ ⟨hs', -, hresult⟩
    split
    · exact hgoOn _ s' h₁ hs'
    · next f =>
      split
      · next hrequired =>
        refine Explores.pure h₁.explained ?_
        rintro _ _ ⟨⟩
        exact ⟨List.mem_cons_self .., hrequired, hresult f rfl⟩
      · exact hgoOn none s' h₁ hs'

/-! ### Candidates -/

structure AccountsFor (E : Environment) (n : Nat) (chain : List InjectableId) (scope : ScopeId)
    (request : Request) (c : InjectableId) (result : Except Failure Resolved) (s : Search) :
    Prop where
  -- A value is one of the candidate, and a failure says why the candidate fails.
  value : ∀ v, result = .ok v → v.candidate = c
  failure : ∀ f, result = .error f →
    Grounded n chain s fun chain S => Thwarted E S chain scope request c f

theorem AccountsFor.weaken {m : Nat} (h : AccountsFor E m chain scope request c result s)
    (hn : n ≤ m) : AccountsFor E n chain scope request c result s :=
  { h with failure := fun f hf => (h.failure f hf).weaken hn }

theorem AccountsFor.mono (h : AccountsFor E n chain scope request c result s)
    (hs : Sound everything E s.session) (hscope : scope < s.session.scopes.size)
    (hc : c < s.session.injectables.size) (hd : s.divergences ≤ s'.divergences)
    (hS : s.session.Keeps s'.session) : AccountsFor E n chain scope request c result s' :=
  { h with failure := fun f hf =>
      (h.failure f hf).mono hd fun _ hthwarted => hthwarted.mono hs hS hscope hc }

theorem accountsFor_error {f : Failure}
    (h : Grounded n chain s fun chain S => Thwarted E S chain scope request c f) :
    AccountsFor E n chain scope request c (.error f) s where
  value _ hv := by cases hv
  failure := by
    rintro _ ⟨⟩
    exact h

theorem explores_fillCandidate (hsolve : Accountable E solve) (h : Ready E n chain scope s)
    (hc : c < s.session.injectables.size) (hi : inner < s.session.scopes.size)
    (hfills : (s.session.injectable c).dependencies E.catalog ≠ [] →
      s.session.Fills scope c inner) :
    Explores (Explained E) s (fillCandidate (solve (c :: chain) inner) scope c
      ((s.session.injectable c).dependencies E.catalog))
      (AccountsFor E n chain scope request c) := by
  have hinside : Ready E n (c :: chain) inner s :=
    { h with scope := hi, chain := List.forall_mem_cons.2 ⟨hc, h.chain⟩ }
  unfold fillCandidate
  apply Explores.bind (explores_fillAll hsolve hinside)
  intro filling s' h₁ hfilling
  split
  · refine Explores.pure h₁.explained ⟨?_, fun _ h => by cases h⟩
    rintro _ ⟨⟩
    rfl
  · next r f =>
    obtain ⟨hmem, hrequired, hf, hall⟩ := hfilling r f rfl
    have hfills' := (hfills (List.ne_nil_of_mem hmem)).mono hc h₁.keeps.grows
    rw [← h₁.keeps.grows.injectable c hc] at hmem
    refine Explores.pure h₁.explained (accountsFor_error ⟨?_, fun hclean chain => ?_⟩)
    · exact .dependency hmem hrequired hfills' hf
    · exact .dependency hmem hrequired hfills' (hall hclean _)

/-- A search that diverges does so from one of the candidates that it is inside of. -/
theorem exists_outer {i : Injectable} (h : diverges S chain i = true) :
    ∃ outer ∈ chain, diverges S [outer] i = true := by
  obtain ⟨outer, hmem, houter⟩ := List.any_eq_true.1 h
  exact ⟨outer, hmem, List.any_eq_true.2 ⟨outer, List.mem_singleton_self outer, houter⟩⟩

theorem explores_computeCandidate (hsolve : Accountable E solve) (h : Ready E n chain scope s)
    (hc : c < s.session.injectables.size) :
    Explores (Explained E) s (computeCandidate E solve chain scope request c)
      (AccountsFor E n chain scope request c) := by
  unfold computeCandidate
  apply Explores.get
  dsimp only
  split
  · next f hobstacle =>
    exact Explores.pure h.explained (accountsFor_error (.of_forall fun _ => .obstacle hobstacle))
  · split
    · next hdiverges =>
      obtain ⟨outer, hmem, houter⟩ := exists_outer hdiverges
      apply Explores.bind (Explores.count h.explained)
      rintro _ _ h₁ rfl
      refine Explores.pure h₁.explained (accountsFor_error ⟨?_, fun hclean => ?_⟩)
      · exact .divergent hmem (h.chain outer hmem) houter
      · -- the divergence has been counted
        have hcounted : s.divergences + 1 ≤ n := hclean
        have hseen := h.seen
        omega
    · split
      · next hempty =>
        refine explores_fillCandidate hsolve h hc h.scope fun hne => ?_
        exact absurd (List.isEmpty_iff.1 hempty) hne
      · apply Explores.bind (Explores.sound
          (Leads.lift (leads_dependencyScope (speaks_everything E) h.sound h.scope hc))
          (explores_lift h.sound h.explained (blind_dependencyScope E scope c)
            (keeps_dependencyScope E scope c (Keeps.refl _))))
        rintro inner s' h₁ ⟨hs', ⟨hinner, hfills⟩, _⟩
        rw [← h₁.keeps.grows.injectable c hc]
        exact explores_fillCandidate hsolve (h.onward h₁ hs') (h₁.keeps.grows.lt_injectables hc)
          hinner fun _ => hfills

/-- What is remembered of a candidate is so for every request, wherever the search comes from. -/
theorem ExplainsCandidate.accountsFor (h : ExplainsCandidate E s.session scope c result) :
    AccountsFor E n chain scope request c result s where
  value := h.value
  failure f hf := by
    obtain ⟨request', hthwarted⟩ := h.failure f hf
    exact .of_forall (Thwarted.of_request hthwarted request)

theorem explores_resolveCandidate (hsolve : Accountable E solve) (h : Ready E n chain scope s)
    (hc : Usable s.session scope c) :
    Explores (Explained E) s (resolveCandidate E solve chain scope request c)
      (AccountsFor E n chain scope request c) := by
  unfold resolveCandidate
  apply Explores.get
  split
  · next result hresult =>
    obtain ⟨⟨⟨scope', c'⟩, result'⟩, he, hk, rfl⟩ := mem_of_lookup hresult
    obtain ⟨rfl, rfl⟩ := Prod.mk.inj (eq_of_beq hk)
    exact Explores.pure h.explained (h.explained.byCandidate _ he).accountsFor
  · refine (explores_unlessDiverged
      (leads_computeCandidate (speaks_everything E) hsolve.leads h.sound h.scope hc)
      (explores_computeCandidate hsolve h.now hc.candidate) (fun a S => ⟨(_, _), rfl⟩)
      (fun result s' hs' h₁ hresult hclean => ?_) fun result s' r hs' h₁ hresult => ?_).imp
      fun _ _ _ hresult => hresult.weaken h.seen
    · have h' := h.onward h₁ hs'
      refine h₁.explained.addCandidate hs' ⟨h'.scope, h₁.keeps.grows.lt_injectables hc.candidate,
        hresult.value, fun f hf => ?_⟩
      exact ⟨request, (hresult.failure f hf).2 hclean⟩
    · exact hresult.mono hs' (h.onward h₁ hs').scope (h₁.keeps.grows.lt_injectables hc.candidate)
        (Nat.le_refl _) (keeps_withResults _ r)

end Wiring.Search
