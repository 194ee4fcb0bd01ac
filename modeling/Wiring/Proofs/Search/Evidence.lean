import Wiring.Proofs.Search.Elements
import Wiring.Proofs.Search.Ending
import Wiring.Proofs.Search.Faithful
import Wiring.Proofs.Search.Sealed
import Wiring.Proofs.Session.Evidence

/-!
The criterion for evidence is proved of the search without memory. The search itself ends without a
divergence, so it gives the same answer.
-/
namespace Wiring

open Ty Catalog Search Session Vocabulary

variable {E : Environment} {w : Classifier} {ps statics : List Classifier} {x ty : Ty}
  {S S' : Session} {scope : ScopeId} {c : InjectableId} {s : Search} {chain : List InjectableId}
  {request : Request} {α : Type}

/-! ### What has been made -/

namespace Session

theorem Vouched.after {step : SessionM α} {Q : α → Session → Prop} (h : Vouched E S)
    (hstep : Obeys S.SameTables S step Q) : Vouched E (step.run S).2 :=
  h.grow hstep.grows hstep.keeps.2

theorem upkeep_vouched (hK : E.catalog.Coherent) : Upkeep E (Vouched E) where
  candidates _ hS _ ty statics := hS.after (.get (candidatesIn_keeps (E := E) (I := SameTables _)
    (fun _ h => h) (fun _ h => h) ty statics _ ⟨rfl, rfl⟩))
  typeScope hs hS ty := hS.after ((calm_sameTables E _).typeScope hs ⟨rfl, rfl⟩ ty)
  dependencyScope hs hS hscope hc :=
    hS.after ((calm_sameTables E _).dependencyScope hs ⟨rfl, rfl⟩ hscope hc)
  framework _ hS _ ty := (vouched_framework hK _ ty hS).keeps
  byType _ hS := hS.grow (Extends.of_same rfl rfl fun _ _ => id) rfl
  byCandidate _ hS := hS.grow (Extends.of_same rfl rfl fun _ _ => id) rfl

theorem vouched_addScope (hS : Vouched E S) (position : Position) :
    Vouched E ((addScope E position).run S).2 :=
  hS.after (Obeys.addScope (I := S.SameTables) ⟨rfl, rfl⟩
    ⟨extends_build E position S, ⟨rfl, rfl⟩, trivial⟩)

/-- A scope at the top that declares nothing but evidence. -/
theorem evidenceOf_addScope (hw : E.catalog.flags w = { witness := true })
    (hmembers : E.host.membersOf w = []) {position : Position} (hroot : position.parent = none)
    (hcallable : E.host.canCall position.callContext .default = true)
    (hdeclared : List.Forall₂ (fun d p => d.Evidences w p ∧
      E.host.canCall position.callContext d.callContext = true) position.declarations ps)
    (hps : DistinctKeys ps) (hstatic : ∀ p ∈ ps, E.catalog.isTypeParameter p = true ∧
      position.typeParameters.contains p = true)
    (hadded : (addScope E position).run S = (.ok scope, S')) : EvidenceOf E S' scope w ps := by
  have hbuilt := evidenceOf_build hw hmembers hroot hcallable hdeclared hps hstatic S
  rcases run_addScope E position S with ⟨e, _, hrun⟩ | ⟨_, hrun⟩
  · cases hrun.symm.trans hadded
  · cases hrun.symm.trans hadded
    exact hbuilt

def IsWitness (S : Session) (c : InjectableId) : Prop :=
  c < S.injectables.size ∧ ∃ t, (S.injectable c).form = .witness t

theorem IsWitness.mono (h : S.IsWitness c) (hS : S.Extends S') : S'.IsWitness c :=
  ⟨hS.lt_injectables h.1, by rw [hS.injectable c h.1]; exact h.2⟩

end Session

/-! ### Lookups -/

structure Attesting (E : Environment) (w : Classifier) : Prop where
  -- An environment in which `w` is for evidence and for nothing else, no declarations come with
  -- types, and the session makes what no scope has.
  coherent : E.catalog.Coherent
  witness : E.catalog.flags w = { witness := true }
  noTypeScopes : ∀ c, E.host.typeScopeDeclarations c = []
  framework : E.config.frameworkInjectables = true

abbrev Attested (E : Environment) (S : Session) : Prop :=
  Listed E S ∧ S.NoTypeScopes ∧ Vouched E S

structure Furnished (E : Environment) (w : Classifier) (ps statics : List Classifier)
    (scope : ScopeId) (S : Session) : Prop where
  -- A scope where there is nothing but evidence, in such a session.
  attested : SoundAnd E (Attested E) S
  lt : scope < S.scopes.size
  statics : (S.scope scope).statics = statics
  evidence : EvidenceOf E S scope w ps

theorem Furnished.mono (h : Furnished E w ps statics scope S) (hS : S.Extends S')
    (h' : SoundAnd E (Attested E) S') : Furnished E w ps statics scope S' where
  attested := h'
  lt := hS.lt_scopes h.lt
  statics := hS.scope scope h.lt ▸ h.statics
  evidence := h.evidence.mono hS h.attested.1 h.lt

section Lookups

variable (hE : Attesting E w)
include hE

theorem upkeep_attested : Upkeep E (Attested E) :=
  (upkeep_listed hE.coherent).and
    ((upkeep_noTypeScopes hE.noTypeScopes).and (upkeep_vouched hE.coherent))

theorem attested_of_madeOf (h : MadeOf (fun _ => True) E S) : SoundAnd E (Attested E) S := by
  refine ⟨h.reachable.sound_everything, (h.upheld (upkeep_attested hE) ?_ ?_).2⟩
  · intro S position _ hS
    have hnone : NoTypeScopes ((addScope E position).run S).2 :=
      (Session.Obeys.addScope hS.2.1 ⟨extends_build E position S, hS.2.1, trivial⟩).keeps
    exact ⟨listed_addScope hE.coherent hS.1 position, hnone, vouched_addScope hS.2.2 position⟩
  · exact ⟨listed_empty, List.forall_mem_nil _, vouched_empty⟩

variable (h : Furnished E w ps statics scope s.session)
include h

/-- A piece of evidence is found, or nothing. -/
theorem explores_evidence (ht : (ty == x.wrap w) = true) (hx : x.isStar = false)
    (hstatic : ∀ q ∈ E.catalog.parametersIn x, statics.contains q = true) :
    Explores (SoundAnd E (Attested E)) s
      (lift (Session.candidates E scope ty (s.session.scope scope).statics)) fun found s' =>
        (x.Bare ∧ ps.contains x.classifier = true → ∃ c, found = [c] ∧
          s'.session.Proves E scope c ∧ Usable s'.session scope c) ∧
        (¬ (x.Bare ∧ ps.contains x.classifier = true) → found = []) := by
  let look := Session.candidates E scope ty (s.session.scope scope).statics
  have hleads := leads_candidates (speaks_everything E) (covers_everything ty)
    (s.session.scope scope).statics h.attested.1 h.lt
  have hkeeps := (keeps_candidates E scope ty (s.session.scope scope).statics
    (Keeps.refl s.session)).keeps
  have hupkeep := (upkeep_attested hE).candidates h.attested.1 h.attested.2 h.lt ty
    (s.session.scope scope).statics
  have hlisted : Session.Obeys (Listed E) s.session look fun found S' =>
      Lists E S' (s.session.ancestors scope) ty (s.session.scope scope).statics found :=
    .get (listed_candidatesIn hE.coherent ty _ h.attested.1 (Or.inr ⟨scope, h.lt, rfl⟩)
      h.attested.2.1)
  have h' := h.mono hkeeps.grows ⟨hleads.sound, hupkeep⟩
  -- what was listed before the lookup is listed after it, since the scopes stay
  have hlists : Lists E (look.run s.session).2 ((look.run s.session).2.ancestors scope) ty
      ((look.run s.session).2.scope scope).statics (look.run s.session).1 := by
    rw [hkeeps.grows.ancestors h.lt, hkeeps.grows.scope scope h.lt]
    exact hlisted.result
  have hfound := h'.evidence.lookup hE.witness hlists ht hx (h'.statics.symm ▸ hstatic)
  refine Explores.lift (P := fun found S' =>
    (x.Bare ∧ ps.contains x.classifier = true → ∃ c, found = [c] ∧ S'.Proves E scope c ∧
      Usable S' scope c) ∧
    (¬ (x.Bare ∧ ps.contains x.classifier = true) → found = []))
    ⟨hkeeps.grows, hkeeps, fun hevident => ?_, hfound.2⟩ h'.attested
  obtain ⟨c, hc, hproves⟩ := hfound.1 hevident
  have hmem : c ∈ (look.run s.session).1 := hc ▸ List.mem_singleton_self c
  exact ⟨c, hc, hproves, usable_of_offers hleads.sound (hleads.result c hmem)⟩

theorem explores_noTypeScope (ty : Ty) :
    Explores (SoundAnd E (Attested E)) s (lift (Session.typeScope E ty)) fun found _ =>
      found = none := by
  have hleads := leads_typeScope (speaks_everything E) h.attested.1 ty
  have hupkeep := (upkeep_attested hE).typeScope h.attested.1 h.attested.2 ty
  have hkeeps := (keeps_typeScope E ty (Keeps.refl s.session)).keeps
  have hnone := typeScope_none hE.noTypeScopes h.attested.2.2.1 ty
  exact Explores.lift (P := fun found _ => found = none) ⟨hkeeps.grows, hkeeps, hnone.result⟩
    ⟨hleads.sound, hupkeep⟩

/-- A witness is made, or nothing for a type parameter that is not reified. -/
theorem explores_witness (ht : (ty == x.wrap w) = true) :
    Explores (SoundAnd E (Attested E)) s (lift (Session.framework? E scope ty)) fun made s' =>
      s'.session.Vouches E scope (x.wrap w) x made := by
  have hleads := leads_framework (speaks_everything E) h.attested.1 h.lt (covers_everything ty)
  have hupkeep := (upkeep_attested hE).framework h.attested.1 h.attested.2 h.lt ty
  have hkeeps := (keeps_framework E scope ty (Keeps.refl s.session)).keeps
  have hkey : ty.instanceKey = none := (parts_of_beq ht).instanceKey
  obtain ⟨t, hattests, htx⟩ := (attests_wrap hE.witness x).congr hE.coherent ht
  have hmade := (h.attested.2.2.2.framework hE.coherent scope hattests).result hkey
  exact Explores.lift (P := fun made S' => S'.Vouches E scope (x.wrap w) x made)
    ⟨hkeeps.grows, hkeeps, hmade.congr hE.coherent ht (BEq.symm htx)⟩ ⟨hleads.sound, hupkeep⟩

end Lookups

/-! ### Ways to fill a request -/

section Comes

variable {ε β : Type} {fresh b : Prop} {chain : List InjectableId} {solve : Nat → Solve}

abbrev Comes (E : Environment) (fresh : Prop) (s : Search) (step : Nat → SearchM (Except ε β))
    (b : Prop) : Prop :=
  -- The step ends without a divergence. If nothing that is remembered is looked at, it succeeds
  -- just if `b` holds.
  Ends (SoundAnd E (Attested E)) s step fun a s' =>
    s'.divergences = s.divergences ∧ (fresh → (a.isOk = true ↔ b))

/-- A piece of evidence is a value already. -/
theorem comes_evidence (hs : SoundAnd E (Attested E) s.session) (hc : s.session.Proves E scope c)
    (hchain : ∀ o ∈ chain, s.session.IsWitness o) (hb : b) :
    Comes E fresh s (fun depth => computeCandidate E (solve depth) chain scope request c) b := by
  obtain ⟨q, hform, hparameters, hgeneric, hcall⟩ := hc.made
  have hcallable : E.host.canCall (s.session.scope scope).callContext
      (s.session.injectable c).callContext = true := by
    rw [Injectable.callContext, hform]
    exact hcall
  have hobstacle : obstacle? E s.session scope c = none := by
    refine obstacle_eq_none hcallable ?_
    rw [Injectable.producer?, hform, Option.bind_some, reifiedMismatch?, hgeneric]
    rfl
  -- only witnesses are in progress, and evidence is declared
  have hdiverges : diverges s.session chain (s.session.injectable c) = false := by
    refine List.any_eq_false.2 fun o ho => ?_
    obtain ⟨-, t, ho⟩ := hchain o ho
    simp only [Injectable.origin, ho, hform]
    rintro ⟨⟩
  have hdependencies : (s.session.injectable c).dependencies E.catalog = [] := by
    rw [Injectable.dependencies, hform]
    simp only [Request.parametersOf, hparameters, List.map_nil]
  let value : Resolved := ⟨c, scope, []⟩
  have hvalue : Comes E fresh s (fun _ => pure (.ok value : Except Failure Resolved)) b :=
    Ends.pure hs ⟨rfl, fun _ => iff_of_true rfl hb⟩
  refine hvalue.congr fun depth => ?_
  rw [run_computeCandidate_here hobstacle hdiverges (by rw [hform]; rfl), hdependencies]
  rfl

/-- Evidence of type parameters is asked for up to one that there is none of. -/
theorem comes_fillAll {fill : Nat → Request → SearchM (Except Failure Resolved)}
    {requests : List Request} {qs : List Classifier} {P : Classifier → Prop}
    (hrequests : List.Forall₂ (AsksFor w) requests qs) (hs : SoundAnd E (Attested E) s.session)
    (hfill : ∀ q ∈ qs, ∀ r s', Onward (SoundAnd E (Attested E)) s s' → AsksFor w r q →
      Comes E fresh s' (fun depth => fill depth r) (P q)) :
    Comes E fresh s (fun depth => fillAll (fill depth) requests) (∀ q ∈ qs, P q) := by
  -- up to the first that fails; the ones after it are not asked for
  induction hrequests generalizing s with
  | nil => exact Ends.pure hs ⟨rfl, fun _ => iff_of_true rfl (List.forall_mem_nil _)⟩
  | @cons r q requests qs hr _ ih =>
    obtain ⟨hfirst, hrest⟩ := List.forall_mem_cons.1 hfill
    simp only [fillAll]
    apply (hfirst r s (.refl hs) hr).bind
    rintro result s₁ h₁ ⟨hd₁, hresult⟩
    rw [List.forall_mem_cons]
    cases result with
    | ok v =>
      unfold fillNext
      apply (ih h₁.holds fun q hq r s' h' => hrest q hq r s' (h₁.trans h')).bind
      rintro filling s₂ h₂ ⟨hd₂, hfilling⟩
      have hq : fresh → P q := fun hf => (hresult hf).1 rfl
      cases filling with
      | ok filled =>
        exact Ends.pure h₂.holds ⟨hd₂.trans hd₁, fun hf =>
          iff_of_true rfl ⟨hq hf, (hfilling hf).1 rfl⟩⟩
      | error failure =>
        exact Ends.pure h₂.holds ⟨hd₂.trans hd₁, fun hf =>
          iff_of_false Bool.false_ne_true fun h => Bool.false_ne_true ((hfilling hf).2 h.2)⟩
    | error failure =>
      simp only [hr.required, if_true]
      exact Ends.pure h₁.holds ⟨hd₁, fun hf =>
        iff_of_false Bool.false_ne_true fun h => Bool.false_ne_true ((hresult hf).2 h.1)⟩

/-- A witness comes to a value if there is evidence of all type parameters inside that need it. -/
theorem comes_witness {P : Classifier → Prop} (hE : Attesting E w)
    (h : Furnished E w ps statics scope s.session)
    (hform : s.session.injectable c = { owner := scope, form := .witness ty })
    (ht : (ty == x.wrap w) = true)
    (hfill : ∀ q ∈ E.catalog.unreified x, ∀ r s', Onward (SoundAnd E (Attested E)) s s' →
      AsksFor w r q → Comes E fresh s' (fun depth => solve depth [c] scope r) (P q)) :
    Comes E fresh s (fun depth => computeCandidate E (solve depth) [] scope request c)
      (∀ q ∈ E.catalog.unreified x, P q) := by
  have hobstacle : obstacle? E s.session scope c = none :=
    obstacle_eq_none (by rw [hform]; exact h.evidence.callable) (by rw [hform]; rfl)
  have hrequests := asksFor_dependencies (i := s.session.injectable c) hE.coherent
    (by rw [hform]) ht
  have hfilled : Comes E fresh s (fun depth => fillCandidate (solve depth [c] scope) scope c
      ((s.session.injectable c).dependencies E.catalog)) (∀ q ∈ E.catalog.unreified x, P q) := by
    unfold fillCandidate
    apply (comes_fillAll hrequests h.attested hfill).bind
    rintro filling s' h' hfilling
    cases filling with
    | ok filled => exact Ends.pure h'.holds hfilling
    | error failure => exact Ends.pure h'.holds hfilling
  refine hfilled.congr fun depth => ?_
  exact run_computeCandidate_here hobstacle rfl (by rw [hform]; rfl)

structure Fills (E : Environment) (fresh : Prop) (solve : Nat → Solve)
    (resolve : Nat → List InjectableId → ScopeId → Request → InjectableId →
      SearchM (Except Failure Resolved)) : Prop where
  -- With memory or without it, what is computed for a candidate or a request decides what comes of
  -- it. Without memory it does not matter what the search is inside of.
  candidate : ∀ {s chain scope request c b}, SoundAnd E (Attested E) s.session →
    scope < s.session.scopes.size → Usable s.session scope c →
    (∀ outer, outer ⊆ chain →
      Comes E fresh s (fun depth => computeCandidate E (solve depth) outer scope request c) b) →
    Comes E fresh s (fun depth => resolve depth chain scope request c) b
  request : ∀ {s chain scope request b}, SoundAnd E (Attested E) s.session →
    scope < s.session.scopes.size →
    Comes E fresh s
      (fun depth => computeRequestWith E (resolve depth chain scope request) scope request) b →
    Comes E fresh s (fun depth => solve depth chain scope request) b

/-- Of a search that looks at what is remembered nothing is said but that it ends. -/
theorem fills_solve (hE : Attesting E w) : Fills E False (Search.solve E)
    fun depth chain scope request => resolveCandidate E (Search.solve E depth) chain scope request where
  candidate hs hscope hc h := ends_resolveCandidate (upkeep_attested hE) (fun _ _ _ => id) hs hscope hc
    (fun _ _ => ⟨rfl, nofun⟩) (h _ (List.Subset.refl _))
  request hs hscope h := ends_resolveRequest (upkeep_attested hE) (fun _ _ _ => id) hs hscope
    (fun _ _ => ⟨rfl, nofun⟩) (by simpa only [computeRequest_eq] using h)

theorem fills_reference (E : Environment) : Fills E True (reference E)
    fun depth _ scope request => computeCandidate E (reference E depth) [] scope request where
  candidate _ _ _ h := h [] (List.nil_subset _)
  request _ _ h := Ends.of_succ rfl h

end Comes

section Requests

variable {fresh b : Prop} {solve : Nat → Solve}
  {resolve : Nat → List InjectableId → ScopeId → Request → InjectableId →
    SearchM (Except Failure Resolved)}
  (hE : Attesting E w) (hfills : Fills E fresh solve resolve)
  (h : Furnished E w ps statics scope s.session)
include hE hfills h

/-- A request for evidence is filled by evidence of the type parameter by itself. Otherwise it comes to
what the witness comes to, if one is made. -/
theorem Fills.comes (ht : (request.ty == x.wrap w) = true) (hx : x.isStar = false)
    (hstatic : ∀ q ∈ E.catalog.parametersIn x, statics.contains q = true)
    (hchain : ∀ o ∈ chain, s.session.IsWitness o)
    (hfound : x.Bare ∧ ps.contains x.classifier = true → b)
    (hnothing : ¬ (x.Bare ∧ ps.contains x.classifier = true) → E.catalog.erased x = true → ¬ b)
    (hwitness : E.catalog.erased x = false → ∀ s' c ty, Onward (SoundAnd E (Attested E)) s s' →
      c < s'.session.injectables.size →
      s'.session.injectable c = { owner := scope, form := .witness ty } →
      (ty == x.wrap w) = true →
        Comes E fresh s' (fun depth => resolve depth chain scope request c) b) :
    Comes E fresh s (fun depth => solve depth chain scope request) b := by
  have hevidence := explores_evidence hE h ht hx hstatic
  have hnone : ∀ s', Onward (SoundAnd E (Attested E)) s s' → Explores (SoundAnd E (Attested E)) s'
      (lift (Session.typeScope E request.ty)) fun found _ => found = none := fun s' h' =>
    explores_noTypeScope hE (h.mono h'.keeps.grows h'.holds) request.ty
  apply hfills.request h.attested h.lt
  -- evidence by itself is the only candidate, and without it there are none from any declaration
  by_cases hevident : x.Bare ∧ ps.contains x.classifier = true
  · apply ends_computeRequest_found hnone
    · exact fun _ _ _ _ hunmoved hQ => ⟨hunmoved.trans hQ.1, hQ.2⟩
    · apply hevidence.unmoved.imp
      rintro found s' h' ⟨hunmoved, hone, -⟩
      obtain ⟨c, rfl, hproves, husable⟩ := hone hevident
      have hcandidate : Comes E fresh s' (fun depth => resolve depth chain scope request c) b :=
        hfills.candidate h'.holds (h'.keeps.grows.lt_scopes h.lt) husable fun outer houter =>
          comes_evidence h'.holds hproves
            (fun o ho => (hchain o (houter ho)).mono h'.keeps.grows) (hfound hevident)
      exact ⟨c, rfl, hcandidate.imp fun _ _ _ hQ => ⟨hQ.1.trans hunmoved, hQ.2⟩⟩
  · apply ends_computeRequest_made hnone hE.framework
    · exact hevidence.imp fun _ _ _ hfound => hfound.2 hevident
    · intro s₁ h₁ hunmoved₁
      apply (explores_witness hE (h.mono h₁.keeps.grows h₁.holds) ht).unmoved.imp
      rintro made s₂ h₂ ⟨hunmoved₂, hvouches⟩
      have hunmoved := hunmoved₂.trans hunmoved₁
      cases hvouches with
      | nothing herased =>
        have hfails : ¬ b := hnothing hevident herased
        exact Ends.pure h₂.holds ⟨hunmoved, fun _ => iff_of_false Bool.false_ne_true hfails⟩
      | @witness c ty herased hlt hform hty =>
        have hcandidate := hwitness herased s₂ c ty (h₁.trans h₂) hlt hform hty
        exact hcandidate.imp fun _ _ _ hQ => ⟨hQ.1.trans hunmoved, hQ.2⟩

/-- A request for evidence of a type parameter that is not reified. -/
theorem Fills.comes_parameter {q : Classifier} (hq : AsksFor w request q)
    (hparameter : E.catalog.isTypeParameter q = true) (hreified : (E.catalog.flags q).reified = false)
    (hstatic : statics.contains q = true) (hchain : ∀ o ∈ chain, s.session.IsWitness o) :
    Comes E fresh s (fun depth => solve depth chain scope request) (ps.contains q = true) := by
  have hbare : (Ty.of q).Bare := ⟨rfl, rfl, rfl⟩
  have herased : E.catalog.erased (.of q) = true := by
    have hflags : E.catalog.flagsOf (.of q) = E.catalog.flags q := rfl
    rw [Catalog.isTypeParameter] at hparameter
    rw [erased, hflags, hparameter, hreified]
    rfl
  apply hfills.comes hE h hq.ty rfl _ hchain And.right
  · exact fun hnot _ hcontains => hnot ⟨hbare, hcontains⟩
  · intro hfalse
    rw [herased] at hfalse
    cases hfalse
  · have hself : E.catalog.parametersIn (.of q) = [q] :=
      (hbare.parametersIn rfl).trans (if_pos hparameter)
    rw [hself]
    exact List.forall_mem_singleton.2 hstatic

/-- A request for evidence. -/
theorem Fills.comes_request (ht : (request.ty == x.wrap w) = true) (hx : x.isStar = false)
    (hstatic : ∀ q ∈ E.catalog.parametersIn x, statics.contains q = true) :
    Comes E fresh s (fun depth => solve depth [] scope request)
      ((E.catalog.erased x = true → x.Bare) ∧
        ∀ q ∈ E.catalog.unreified x, ps.contains q = true) := by
  apply hfills.comes hE h ht hx hstatic (List.forall_mem_nil _)
  · rintro ⟨hbare, hcontains⟩
    refine ⟨fun _ => hbare, fun q hq => ?_⟩
    obtain ⟨-, rfl⟩ := (hbare.mem_unreified_iff hx).1 hq
    exact hcontains
  · rintro hnot herased ⟨hbare, hall⟩
    have hbare := hbare herased
    exact hnot ⟨hbare, hall _ ((hbare.mem_unreified_iff hx).2 ⟨herased, rfl⟩)⟩
  · intro herased s' c ty h' hlt hform hty
    have hfurnished := h.mono h'.keeps.grows h'.holds
    have husable : Usable s'.session scope c := ⟨hlt, Or.inl (by rw [hform]; exact .here scope)⟩
    apply hfills.candidate h'.holds hfurnished.lt husable
    intro outer houter
    obtain rfl := List.subset_nil.1 houter
    -- a witness needs evidence of each parameter that is not reified, inside of itself
    have hwitness : Comes E fresh s' (fun depth => computeCandidate E (solve depth) [] scope request c)
        (∀ q ∈ E.catalog.unreified x, ps.contains q = true) := by
      apply comes_witness hE hfurnished hform hty
      intro q hq r s'' h'' hr
      obtain ⟨hmem, hreified⟩ := List.mem_filter.1 hq
      apply hfills.comes_parameter hE (hfurnished.mono h''.keeps.grows h''.holds) hr
        (of_mem_parametersIn hmem).2 (by simpa using hreified) (hstatic q hmem)
      refine List.forall_mem_singleton.2 ?_
      exact IsWitness.mono ⟨hlt, ty, by rw [hform]⟩ h''.keeps.grows
    refine hwitness.imp fun _ _ _ hQ => ⟨hQ.1, fun hf => (hQ.2 hf).trans ?_⟩
    rw [herased]
    exact (and_iff_right nofun).symm

end Requests

/-- Where there is nothing but evidence, a request for evidence of a type comes to an end, whatever has
been asked for before. It is filled just if there is evidence of each type parameter in the type that is
not reified, and the type itself is no such type parameter with tags or null. -/
theorem evidence_resolved_iff (hE : Attesting E w) (hS : MadeOf (fun _ => True) E S)
    (hscope : scope < S.scopes.size) (hevidence : EvidenceOf E S scope w ps)
    (hx : x.isStar = false)
    (hstatic : ∀ q ∈ E.catalog.parametersIn x, (S.scope scope).statics.contains q = true)
    (request : Request) (ht : request.ty = x.wrap w) :
    ∃ depth result S', (∀ d, depth ≤ d → S.resolve E d scope request = .ok (result, S')) ∧
      (result.isOk = true ↔ (E.catalog.erased x = true → x.Bare) ∧
        ∀ q ∈ E.catalog.unreified x, ps.contains q = true) := by
  have hfurnished : Furnished E w ps (S.scope scope).statics scope S :=
    ⟨attested_of_madeOf hE hS, hscope, rfl, hevidence⟩
  have hty : (request.ty == x.wrap w) = true := ht ▸ BEq.rfl
  have hsearch := (fills_solve hE).comes_request (s := { session := S }) hE hfurnished hty hx hstatic
  have hafresh := (fills_reference E).comes_request (s := { session := S }) hE hfurnished hty hx hstatic
  obtain ⟨depth, ⟨result, s'⟩, hrun⟩ := hsearch.halts.exists_ok
  have hclean := (hsearch.explores depth result s' (hrun depth (Nat.le_refl _))).2.1
  -- without a divergence the search without memory gives the same
  have hK : E.catalog.ParametersByKey := fun _ _ hk => hE.coherent.isTypeParameter_eq hk
  obtain ⟨N, hN⟩ := hS.afresh_of_clean hK hscope (hrun depth (Nat.le_refl _)) hclean
  obtain ⟨⟨_, s''⟩, hreference, rfl⟩ := map_eq_ok_iff.1 (hN N (Nat.le_refl _))
  refine ⟨depth, _, s'.session, fun d hd => map_eq_ok_iff.2 ⟨_, hrun d hd, rfl⟩, ?_⟩
  exact (hafresh.explores N _ s'' hreference).2.2 trivial

/-! ### Proofs of items -/

def registry : Environment where
  catalog := ⟨[("Proof", [{ typeParameters := [⟨"Proof.T", 0⟩], flags := { witness := true } }]),
    ("List", [{ typeParameters := [⟨"List.T", 0⟩] }]),
    ("Item", [{ flags := { typeParameter := true } }])]⟩
  host := HostTables.host {}

def drawer : Position where
  name := "drawer"
  typeParameters := [⟨"Item", 0⟩]
  declarations := [{ id := "proof", ty := (Ty.of ⟨"Item", 0⟩).wrap ⟨"Proof", 0⟩ }]

def registered : Session :=
  ((addScope registry drawer).run {}).2

def maybeItem : Ty where
  head := .named ⟨"Item", 0⟩
  nullable := true

def proofOf (t : Ty) : Request where
  ty := t.wrap ⟨"Proof", 0⟩
  callable := "main"
  name := "proof"
  slot := .value 0

/-- So there is a proof of lists of items that may be missing, but none of such an item by itself. -/
theorem registered_proofs : MadeOf (fun _ => True) registry registered ∧ Attesting registry ⟨"Proof", 0⟩ ∧
    0 < registered.scopes.size ∧ EvidenceOf registry registered 0 ⟨"Proof", 0⟩ [⟨"Item", 0⟩] ∧
    (∃ depth v S', ∀ d, depth ≤ d →
      registered.resolve registry d 0 (proofOf (maybeItem.wrap ⟨"List", 0⟩)) = .ok (.ok v, S')) ∧
    ∃ depth f S', ∀ d, depth ≤ d →
      registered.resolve registry d 0 (proofOf maybeItem) = .ok (.error f, S') := by
  have hmade : MadeOf (fun _ => True) registry registered :=
    .use .start (.addScope _ rfl fun _ _ => ⟨trivial, fun _ _ => trivial⟩)
  have hsingle : registry.catalog.Single := by decide
  have hE : Attesting registry ⟨"Proof", 0⟩ := ⟨hsingle.coherent, rfl, fun _ => rfl, rfl⟩
  have hscope : 0 < registered.scopes.size := by decide +kernel
  have hadded : (addScope registry drawer).run {} = (.ok 0, registered) := rfl
  have hevidence : EvidenceOf registry registered 0 ⟨"Proof", 0⟩ [⟨"Item", 0⟩] :=
    evidenceOf_addScope rfl rfl rfl rfl (.cons ⟨⟨rfl, rfl, rfl⟩, rfl⟩ .nil)
      (List.pairwise_singleton _ _) (List.forall_mem_singleton.2 ⟨rfl, rfl⟩) hadded
  refine ⟨hmade, hE, hscope, hevidence, ?_, ?_⟩
  · obtain ⟨depth, result, S', hrun, hiff⟩ := evidence_resolved_iff hE hmade hscope hevidence rfl
      (by decide +kernel) (proofOf (maybeItem.wrap ⟨"List", 0⟩)) rfl
    have hok : result.isOk = true := hiff.2 ⟨nofun, by decide +kernel⟩
    cases result with
    | ok v => exact ⟨depth, v, S', hrun⟩
    | error f => cases hok
  · obtain ⟨depth, result, S', hrun, hiff⟩ := evidence_resolved_iff hE hmade hscope hevidence rfl
      (by decide +kernel) (proofOf maybeItem) rfl
    cases result with
    | ok v => cases ((hiff.1 rfl).1 rfl).nullable
    | error f => exact ⟨depth, f, S', hrun⟩

end Wiring
