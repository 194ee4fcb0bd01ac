import Wiring.Proofs.Search.Faithful
import Wiring.Proofs.Search.Lapsing
import Wiring.Proofs.Search.Lookup
import Wiring.Proofs.Search.Mark
import Wiring.Proofs.Session.Snowball

/-!
Each use of the declaration needs a larger one, which mentions the same classifiers, so the search
diverges with the second use at the latest. A search without memory never ends there, so nothing that
is remembered can be an answer.
-/
namespace Wiring

open Ty Catalog Search Session Vocabulary

variable {G : Snowball} {K : Catalog} {E : Environment} {S S' : Session} {X Z ty : Ty}
  {scope : ScopeId} {c outer : InjectableId} {chain : List InjectableId} {request : Request}
  {s : Search}

namespace Snowball

/-! ### Where the declaration is alone -/

/-- The declaration is the only one in sight, and it may be used in the scope, where its parameter is not
static. -/
structure RollsIn (G : Snowball) (E : Environment) (S : Session) (scope : ScopeId) : Prop where
  alone : ∃ owner key, S.visibleIn (S.ancestors scope) = [(owner, G.stored key)]
  free : (S.scope scope).statics.contains G.parameter = false
  callable : E.host.canCall (S.scope scope).callContext G.declaration.callContext = true

theorem RollsIn.mono (h : G.RollsIn E S scope) (hS : S.Extends S') (hs : Sound everything E S)
    (hscope : scope < S.scopes.size) : G.RollsIn E S' scope := by
  obtain ⟨⟨owner, key, halone⟩, hfree, hcallable⟩ := h
  rw [← visibleIn_of_grows hS (lt_of_mem_ancestors hs.nested hscope), ← hS.ancestors hscope]
    at halone
  rw [← hS.scope scope hscope] at hfree hcallable
  exact ⟨⟨owner, key, halone⟩, hfree, hcallable⟩

/-- Nothing stands in the way of a use for a type without type parameters. -/
theorem MadeAt.obstacle (h : G.MadeAt E.catalog S c X) (hrolls : G.RollsIn E S scope) :
    obstacle? E S scope c = none := by
  obtain ⟨owner, p, hc, hp⟩ := h.made
  have hcontext : (S.injectable c).callContext = G.declaration.callContext := by
    rw [hc, ← hp.declaration]
    rfl
  have hform : (S.injectable c).form = .produced p := by rw [hc]
  exact obstacle_eq_none_of_closed hform (hcontext ▸ hrolls.callable) hp.closed

/-- The search diverges with a use inside of another one for a type that is wrapped less often. -/
theorem MadeAt.diverges (h : G.MadeAt K S outer X) (hmem : outer ∈ chain) (h' : G.MadeAt K S c Z)
    {k : Nat} (hZ : (Z == (wrap G.wrapper)^[k] X) = true) :
    diverges S chain (S.injectable c) = true := by
  obtain ⟨_, p, houter, hp⟩ := h.made
  obtain ⟨_, q, hc, hq⟩ := h'.made
  have hlarger : (q.ty.withoutInstanceKey == (wrap G.wrapper)^[k] (X.wrap G.wrapper)) = true := by
    rw [← Function.iterate_succ_apply, Function.iterate_succ_apply']
    exact BEq.trans hq.ty ((wrap_beq_wrap G.wrapper Z _).trans hZ)
  have horigin : ((S.injectable outer).origin == (S.injectable c).origin) = true := by
    refine Origin.beq_of_code_eq ?_
    rw [houter, hc]
    exact congrArg (fun d : Declaration => (0, d.id)) (hp.declaration.trans hq.declaration.symm)
  have hsize : (S.injectable outer).ty.size ≤ (S.injectable c).ty.size := by
    rw [houter, hc]
    calc p.ty.size
        = (X.wrap G.wrapper).size := (size_withoutInstanceKey _).symm.trans (size_of_beq hp.ty)
      _ ≤ ((wrap G.wrapper)^[k] (X.wrap G.wrapper)).size := size_wraps .. ▸ Nat.le_add_right ..
      _ = q.ty.size := (size_of_beq hlarger).symm.trans (size_withoutInstanceKey _)
  have hcovering : ((S.injectable outer).ty.covering == (S.injectable c).ty.covering) = true := by
    have hp := beq_of_forall₂ (covering_beq hp.ty)
    have hq := beq_of_forall₂ (covering_beq hlarger)
    rw [covering_withoutInstanceKey] at hp hq
    rw [covering_wraps] at hq
    rw [houter, hc]
    exact BEq.trans hp (BEq.symm hq)
  -- one origin, a type no smaller, and the same classifiers covered
  refine List.any_eq_true.2 ⟨outer, hmem, ?_⟩
  dsimp only
  rw [horigin, decide_eq_true hsize, hcovering]
  rfl

/-- What a use of the declaration asks for is wrapped too. -/
theorem asks_wrapped (hG : G.Plain K) (hX : K.Ground X)
    (ht : (ty == (wrap G.wrapper)^[G.layers] X) = true) : ∃ k,
      K.Ground ((wrap G.wrapper)^[k] X) ∧ (ty == ((wrap G.wrapper)^[k] X).wrap G.wrapper) = true ∧
        ((wrap G.wrapper)^[k] X).standIn = (wrap G.wrapper)^[k] X := by
  obtain ⟨k, hk⟩ := Nat.exists_eq_add_of_le' G.two_le_layers
  rw [hk, Function.iterate_succ_apply'] at ht
  refine ⟨k + 1, hX.wraps hG.wrapper_not_parameter _, ht, ?_⟩
  rw [Function.iterate_succ_apply']
  rfl

/-! ### Lookups -/

structure Kept (G : Snowball) (E : Environment) (S : Session) : Prop where
  -- What a session has to be like for the declaration to be found: what has been looked up and what
  -- is remembered is right, and there are no type scopes.
  sound : Sound everything E S
  recalls : Recalls E S
  lookups : Tabled (G.Finds E.catalog) S
  typeScopes : S.NoTypeScopes

/-- The classifiers are as they have to be, and no declarations come with types. -/
structure Suits (G : Snowball) (E : Environment) : Prop where
  plain : G.Plain E.catalog
  noTypeScopes : ∀ c, E.host.typeScopeDeclarations c = []

section Lookups

variable (hG : G.Suits E)
include hG

theorem kept_of_madeOf (h : MadeOf (fun _ => True) E S) : G.Kept E S where
  sound := h.reachable.sound_everything
  recalls := h.recalls hG.plain.byKey
  lookups := (h.upheld (upkeep_tabled (cumulative_finds hG.plain))
    (fun _ position _ hS => tabled_addScope (cumulative_finds hG.plain) hS position)
    (tabled_empty _)).2
  typeScopes := (h.upheld (upkeep_noTypeScopes hG.noTypeScopes)
    (fun S position _ hS => (Session.Obeys.addScope hS
      ⟨extends_build E position S, hS, trivial⟩).keeps) (List.forall_mem_nil _)).2

variable (h : G.Kept E S)
include h

/-- Where the declaration is alone, one use of it is found for a wrapped type. -/
theorem kept_candidates (hscope : scope < S.scopes.size) (hrolls : G.RollsIn E S scope)
    (hX : E.catalog.Ground X) (ht : (ty == X.wrap G.wrapper) = true) :
    Session.Obeys (G.Kept E) S (Session.candidates E scope ty (S.scope scope).statics)
      fun found S' => G.RollsIn E S' scope ∧
        ∃ c Z, found = [c] ∧ G.MadeAt E.catalog S' c Z ∧ (Z == X.standIn) = true := by
  let statics := (S.scope scope).statics
  have hleads := leads_candidates (speaks_everything E) (covers_everything ty) statics h.sound hscope
  have hkeeps := (keeps_candidates E scope ty statics (Keeps.refl S)).keeps
  have hresults := (blind_candidates E scope ty statics).results_eq S
  have htabled : Session.Obeys (Tabled (G.Finds E.catalog)) S
      (Session.candidates E scope ty statics) fun found S' =>
        G.Finds E.catalog S' (S.ancestors scope) ty statics found :=
    .get (tabled_candidatesIn (cumulative_finds hG.plain) ty statics h.sound
      (Or.inr ⟨scope, hscope, rfl⟩) h.lookups)
  have hnone := (upkeep_noTypeScopes hG.noTypeScopes).candidates h.sound h.typeScopes hscope ty
    statics
  have hrolls' := hrolls.mono hkeeps.grows h.sound hscope
  refine ⟨hkeeps.grows, ⟨hleads.sound, h.recalls.keep hkeeps hresults, htabled.keeps, hnone⟩,
    hrolls', ?_⟩
  obtain ⟨owner, key, halone⟩ := hrolls'.alone
  rw [hkeeps.grows.ancestors hscope] at halone
  exact htabled.result.alone owner key X halone hrolls.free hX ht

theorem kept_typeScope (ty : Ty) :
    Session.Obeys (G.Kept E) S (Session.typeScope E ty) fun found _ => found = none := by
  have hleads := leads_typeScope (speaks_everything E) h.sound ty
  have hkeeps := (keeps_typeScope E ty (Keeps.refl S)).keeps
  have hresults := (blind_typeScope E ty).results_eq S
  have hnone := typeScope_none hG.noTypeScopes h.typeScopes ty
  have htabled := (upkeep_tabled (cumulative_finds hG.plain)).typeScope h.sound h.lookups ty
  exact ⟨hkeeps.grows, ⟨hleads.sound, h.recalls.keep hkeeps hresults, htabled, hnone.keeps⟩,
    hnone.result⟩

end Lookups

/-! ### Without memory -/

/-- A candidate comes to nothing if its only dependency does not. -/
theorem fillCandidate_stops {fill : Request → SearchM (Except Failure Resolved)} {r : Request}
    {stop : Stop} (h : fill r s = .error stop) :
    fillCandidate fill scope c [r] s = .error stop := by
  unfold fillCandidate
  exact run_bind_stop (run_bind_stop h)

/-- A use of the declaration comes to nothing if no request for a wrapped type does. -/
theorem MadeAt.computeCandidate_stops {depth : Nat} (hG : G.Plain E.catalog)
    (h : G.MadeAt E.catalog s.session c X) (hrolls : G.RollsIn E s.session scope)
    (hstops : ∀ {r : Request} {Y : Ty}, E.catalog.Ground Y → (r.ty == Y.wrap G.wrapper) = true →
      reference E depth [] scope r s = .error .tooDeep) :
    computeCandidate E (reference E depth) [] scope request c s = .error .tooDeep := by
  obtain ⟨owner, p, hc, hp⟩ := h.made
  obtain ⟨r, hr, -, ht⟩ := hp.asks
  obtain ⟨k, hwrapped, hty, -⟩ := asks_wrapped hG hp.ground ht
  rw [run_computeCandidate_single (h.obstacle hrolls) rfl (hc ▸ rfl) hr, reference_chain]
  exact fillCandidate_stops (hstops hwrapped hty)

/-- The search without memory gets inside of one use after the other. -/
theorem reference_stops (hG : G.Suits E) (depth : Nat) (h : G.Kept E s.session)
    (hscope : scope < s.session.scopes.size) (hrolls : G.RollsIn E s.session scope)
    (hX : E.catalog.Ground X) (ht : (request.ty == X.wrap G.wrapper) = true) :
    reference E depth [] scope request s = .error .tooDeep := by
  induction depth generalizing s request X with
  | zero => rfl
  | succ depth ih =>
    obtain ⟨hgrows, hkept, hrolls', c, Z, hfound, hmade, -⟩ :=
      kept_candidates hG h hscope hrolls hX ht
    let looked := (Session.candidates E scope request.ty
      (s.session.scope scope).statics).run s.session
    have hstops : computeCandidate E (reference E depth) [] scope request c
        { s with session := looked.2 } = .error .tooDeep :=
      hmade.computeCandidate_stops hG.plain hrolls' fun hwrapped hty =>
        ih hkept (hgrows.lt_scopes hscope) hrolls' hwrapped hty
    change fillWith E (computeCandidate E (reference E depth) [] scope request) scope request
      looked.1 { s with session := looked.2 } = .error .tooDeep
    rw [show looked.1 = [c] from hfound]
    have hsome : resolveSomeWith E (computeCandidate E (reference E depth) [] scope request) scope
        request [c] { s with session := looked.2 } = .error .tooDeep := by
      unfold resolveSomeWith
      rw [← bind_pure_comp]
      exact run_bind_stop hstops
    unfold fillWith
    exact run_bind_stop hsome

/-! ### With memory -/

section Memory

variable (hG : G.Suits E) (h : G.Kept E s.session) (hscope : scope < s.session.scopes.size)
  (hrolls : G.RollsIn E s.session scope)
include hG h hscope hrolls

/-- No result is remembered for a wrapped type. -/
theorem Kept.byType_none (hX : E.catalog.Ground X) (ht : (ty == X.wrap G.wrapper) = true) :
    s.session.memo.byType.lookup (scope, ty) = none := by
  refine Option.eq_none_iff_forall_ne_some.2 fun result hlookup => ?_
  obtain ⟨⟨⟨scope', ty'⟩, result'⟩, he, hk, rfl⟩ := mem_of_lookup hlookup
  obtain ⟨rfl, hty⟩ := of_beq_pair hk
  let request : Request := { ty, callable := "", name := "", slot := .value 0 }
  obtain ⟨N, hN⟩ := h.recalls.byType _ he request hty
  have hgives : reference E N [] scope request s = .ok _ :=
    hN N (Nat.le_refl N) s.session (Keeps.refl _) s.divergences
  rw [reference_stops hG N h hscope hrolls hX ht] at hgives
  cases hgives

/-- Nor is one for a use of the declaration. -/
theorem Kept.byCandidate_none (hmade : G.MadeAt E.catalog s.session c X) :
    s.session.memo.byCandidate.lookup (scope, c) = none := by
  refine Option.eq_none_iff_forall_ne_some.2 fun result hlookup => ?_
  obtain ⟨⟨⟨scope', c'⟩, result'⟩, he, hk, rfl⟩ := mem_of_lookup hlookup
  obtain ⟨rfl, rfl⟩ := Prod.mk.inj (eq_of_beq hk)
  let request : Request := { ty := .star, callable := "", name := "", slot := .value 0 }
  obtain ⟨N, hN⟩ := (h.recalls.byCandidate _ he request).1
  have hgives : computeCandidate E (reference E N) [] scope request c s = .ok _ :=
    hN N (Nat.le_refl N) s.session (Keeps.refl _) s.divergences
  rw [hmade.computeCandidate_stops hG.plain hrolls fun hwrapped hty =>
    reference_stops hG N h hscope hrolls hwrapped hty] at hgives
  cases hgives

/-- A request for a wrapped type comes to what the use of the declaration comes to that is found. -/
theorem lapses_wrapped (hX : E.catalog.Ground X) (ht : (request.ty == X.wrap G.wrapper) = true)
    (hcandidate : ∀ s' c Z, G.Kept E s'.session → scope < s'.session.scopes.size →
      G.RollsIn E s'.session scope → s.session.Extends s'.session →
      G.MadeAt E.catalog s'.session c Z → (Z == X.standIn) = true →
        Lapses (G.Kept E) s' fun depth => computeCandidate E (solve E depth) chain scope request c) :
    Lapses (G.Kept E) s fun depth => solve E depth chain scope request := by
  apply Ends.of_succ rfl
  apply lapses_resolveRequest (h.byType_none hG hscope hrolls hX ht)
  apply lapses_computeRequest
  · refine (Explores.obeys (kept_candidates hG h hscope hrolls hX ht)
      (keeps_candidates E scope request.ty _ (Keeps.refl s.session)).keeps).imp ?_
    rintro found s' h₁ ⟨hrolls', c, Z, rfl, hmade, hZ⟩
    have hscope' := h₁.keeps.grows.lt_scopes hscope
    refine ⟨c, rfl, lapses_resolveCandidate (h₁.holds.byCandidate_none hG hscope' hrolls' hmade) ?_⟩
    exact hcandidate s' c Z h₁.holds hscope' hrolls' h₁.keeps.grows hmade hZ
  · intro s' h₁
    exact Explores.obeys (kept_typeScope hG h₁.holds request.ty)
      (keeps_typeScope E request.ty (Keeps.refl s'.session)).keeps

/-- Inside of a use of the declaration what it asks for runs into a divergence. -/
theorem lapses_inside (hmade : G.MadeAt E.catalog s.session outer X) (hmem : outer ∈ chain)
    (ht : (request.ty == (wrap G.wrapper)^[G.layers] X) = true) :
    Lapses (G.Kept E) s fun depth => solve E depth chain scope request := by
  obtain ⟨_, p, -, hp⟩ := id hmade.made
  obtain ⟨k, hwrapped, hty, hself⟩ := asks_wrapped hG.plain hp.ground ht
  refine lapses_wrapped hG h hscope hrolls hwrapped hty ?_
  intro s' c Z hkept _ hrolls' hgrows hmade' hZ
  rw [hself] at hZ
  exact lapses_of_diverges hkept (hmade'.obstacle hrolls')
    ((hmade.mono hgrows).diverges hmem hmade' hZ)

/-- A request for a wrapped type runs into a divergence. -/
theorem lapses_solve (hX : E.catalog.Ground X) (ht : (request.ty == X.wrap G.wrapper) = true) :
    Lapses (G.Kept E) s fun depth => solve E depth chain scope request := by
  refine lapses_wrapped hG h hscope hrolls hX ht ?_
  intro s' c Z hkept hscope' hrolls' _ hmade _
  obtain ⟨owner, p, hc, hp⟩ := id hmade.made
  obtain ⟨r, hr, hrequired, hr'⟩ := hp.asks
  -- the search may be inside of a smaller use already
  cases hd : Search.diverges s'.session chain (s'.session.injectable c) with
  | true => exact lapses_of_diverges hkept (hmade.obstacle hrolls') hd
  | false =>
    apply lapses_of_dependency (hmade.obstacle hrolls') hd (hc ▸ rfl) hr hrequired
    exact lapses_inside hG hkept hscope' hrolls' hmade (List.mem_cons_self ..) hr'

end Memory

/-- Where a declaration `fun <T> roll(inner: W<…W<T>…>): W<T>` that asks for two layers of `W` or more is
the only one in sight, a request for `W<X>` comes to an end, whatever has been asked for before. It fails,
and at the root of the failure is a divergence. -/
theorem growing_diverges (hS : MadeOf (fun _ => True) E S) (hG : G.Suits E)
    (hscope : scope < S.scopes.size) (hrolls : G.RollsIn E S scope) (hX : E.catalog.Ground X)
    (request : Request) (ht : request.ty = X.wrap G.wrapper) :
    ∃ depth f S', (∀ d, depth ≤ d → S.resolve E d scope request = .ok (.error f, S')) ∧
      (∃ c r, f.rootCause = .divergent c r) ∧ f.rank = 2 := by
  have hlapses : Lapses (G.Kept E) { session := S } fun depth => solve E depth [] scope request :=
    lapses_solve hG (kept_of_madeOf hG hS) hscope hrolls hX (ht ▸ BEq.rfl)
  obtain ⟨depth, ⟨result, s'⟩, hrun⟩ := hlapses.halts.exists_ok
  obtain ⟨-, -, f, rfl, hdivergent⟩ := hlapses.explores depth result s' (hrun depth (Nat.le_refl _))
  have hroot : ∃ c r, f.rootCause = .divergent c r := by
    unfold Failure.isDivergent at hdivergent
    split at hdivergent
    · next c r hroot => exact ⟨c, r, hroot⟩
    · cases hdivergent
  have hrank : f.rank = 2 := by
    obtain ⟨c, r, hroot⟩ := hroot
    rw [← f.rank_root_cause, hroot]
    rfl
  exact ⟨depth, f, s'.session, fun d hd => map_eq_ok_iff.2 ⟨_, hrun d hd, rfl⟩, hroot, hrank⟩

/-! ### Boxes of boxes -/

def workshop : Environment where
  catalog := ⟨[("Box", [{ typeParameters := [⟨"Box.T", 0⟩] }]),
    ("Thing", [{ flags := { typeParameter := true } }])]⟩
  host := HostTables.host {}

def boxOf (content : Ty) : Ty :=
  { head := .named ⟨"Box", 0⟩, arguments := [content] }

def unpacking : Snowball where
  wrapper := ⟨"Box", 0⟩
  parameter := ⟨"Thing", 0⟩
  layers := 2
  declaration := {
    id := "unpack"
    ty := boxOf (.of ⟨"Thing", 0⟩)
    typeParameters := [⟨"Thing", 0⟩]
    parameters := [{ name := "from", slot := .value 0, ty := boxOf (boxOf (.of ⟨"Thing", 0⟩)) }] }
  two_le_layers := Nat.le_refl 2
  gives := rfl
  generic := rfl
  asks := ⟨_, rfl, rfl, rfl⟩

def packing : Session :=
  ((addScope workshop { name := "workshop", declarations := [unpacking.declaration] }).run {}).2

def parcel : Request where
  ty := boxOf (.of ⟨"Book", 0⟩)
  callable := "main"
  name := "gift"
  slot := .value 0

def present : Ty :=
  { head := .named ⟨"Box", 0⟩, arguments := [.star], nullable := true, tags := [.of ⟨"Gift", 0⟩] }

theorem suits_unpacking : unpacking.Suits workshop := by
  have hsingle : workshop.catalog.Single := by decide
  have hK := hsingle.coherent
  refine ⟨⟨fun _ _ hkey => hK.isTypeParameter_eq hkey, fun c hkey => ?_, rfl, rfl⟩, fun _ => rfl⟩
  have hentry : workshop.catalog.entry c = workshop.catalog.entry unpacking.wrapper := hK _ _ hkey
  rw [flags, hentry]
  rfl

/-- So the search for a box of presents diverges. -/
theorem packing_diverges : MadeOf (fun _ => True) workshop packing ∧ unpacking.Suits workshop ∧
    0 < packing.scopes.size ∧ unpacking.RollsIn workshop packing 0 ∧
    workshop.catalog.Ground present ∧
    ∃ depth f S', (∀ d, depth ≤ d →
        packing.resolve workshop d 0 { parcel with ty := boxOf present } = .ok (.error f, S')) ∧
      (∃ c r, f.rootCause = .divergent c r) ∧ f.rank = 2 := by
  have hmade : MadeOf (fun _ => True) workshop packing :=
    .use .start (.addScope _ rfl fun _ _ => ⟨trivial, fun _ _ => trivial⟩)
  have hscope : 0 < packing.scopes.size := by decide +kernel
  have hrolls : unpacking.RollsIn workshop packing 0 := ⟨⟨0, _, rfl⟩, rfl, rfl⟩
  have hground : workshop.catalog.Ground present := ⟨rfl, by decide +kernel⟩
  exact ⟨hmade, suits_unpacking, hscope, hrolls, hground,
    growing_diverges hmade suits_unpacking hscope hrolls hground _ rfl⟩

/-! ### Boxes that are not unpacked -/

def packingIn (E : Environment) (statics : List Classifier) (context : CallContext) : Session :=
  -- A workshop where boxes are unpacked by a declaration for a call context, and what its static
  -- type parameters are.
  ((addScope E {
    name := "workshop"
    typeParameters := statics
    declarations := [{ unpacking.declaration with callContext := context }] }).run {}).2

def misnamed : Environment where
  catalog := ⟨[("Box", [{ typeParameters := [⟨"Box.T", 0⟩] }]),
    ("Thing", [{ flags := { typeParameter := true } }, {}])]⟩
  host := HostTables.host {}

/-- None of this diverges. If the type parameter is static in the scope, nothing is found; a declaration
that suspends may not be called from a scope that does not; and what fits the class with the key of the
type parameter leaves that open, so that nothing is found inside of it. -/
theorem not_unpacked :
    (∃ key f S', unpacking.Suits workshop ∧ workshop.catalog.Ground (.of ⟨"Book", 0⟩) ∧
      (packingIn workshop [⟨"Thing", 0⟩] .default).visibleIn [0] = [(0, unpacking.stored key)] ∧
      (packingIn workshop [⟨"Thing", 0⟩] .default).resolve workshop 9 0 parcel =
        .ok (.error f, S') ∧ f.rank = 3) ∧
    (∃ f S', (packingIn workshop [] .suspend).resolve workshop 9 0 parcel = .ok (.error f, S') ∧
      f.rank = 1) ∧
    ∃ key f S', misnamed.catalog.Ground (.of ⟨"Thing", 1⟩) ∧
      (packingIn misnamed [] .default).visibleIn [0] = [(0, unpacking.stored key)] ∧
      (packingIn misnamed [] .default).resolve misnamed 9 0
        { parcel with ty := boxOf (.of ⟨"Thing", 1⟩) } = .ok (.error f, S') ∧ f.rank = 3 := by
  refine ⟨⟨_, _, _, suits_unpacking, ⟨rfl, by decide +kernel⟩, rfl, rfl, rfl⟩, ⟨_, _, rfl, rfl⟩,
    ⟨_, _, _, ⟨rfl, by decide +kernel⟩, rfl, rfl, rfl⟩⟩

end Snowball
end Wiring
