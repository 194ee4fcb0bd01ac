import Mathlib.Data.List.Nodup
import Wiring.Proofs.Fit.Reflexive
import Wiring.Proofs.Search.Lookup
import Wiring.Proofs.Search.Sealed
import Wiring.Proofs.Session.Gathering

namespace Wiring.Session

open Search Vocabulary

variable {E : Environment} {S S' : Session} {scope : ScopeId} {scopes enclosing : List ScopeId}
  {ty ty' : Ty} {statics : List Classifier} {found inherited own : List InjectableId}
  {o : ScopeId × Producer} {p : Producer}

/-! ### What is found for a type with a key -/

def Few (S : Session) (scopes : List ScopeId) (ty : Ty) (found : List InjectableId) : Prop :=
  ty.instanceKey.isSome = true →
    found.length ≤ (S.visibleIn scopes).countP fun o => o.2.ty.instanceKey == ty.instanceKey

structure Pins (S : Session) (scopes : List ScopeId) (ty : Ty) (found : List InjectableId) :
    Prop where
  -- The type of a producer has that producer among its candidates, in its scope and as it is
  -- stored.
  known : ∀ c ∈ found, c < S.injectables.size
  stored : ∀ o ∈ S.visibleIn scopes, Catalog.Distinct o.2.ty → (o.2.ty == ty) = true →
    ∃ c ∈ found, S.injectable c = { owner := o.1, form := .produced o.2 }

theorem Pins.mono (h : Pins S scopes ty found) (hS : S.Extends S')
    (hscopes : ∀ id ∈ scopes, id < S.scopes.size) : Pins S' scopes ty found where
  known c hc := hS.lt_injectables (h.known c hc)
  stored o ho hd hk := by
    rw [visibleIn_of_grows hS hscopes] at ho
    obtain ⟨c, hc, hform⟩ := h.stored o ho hd hk
    exact ⟨c, hc, (hS.injectable c (h.known c hc)).trans hform⟩

/-- A producer gives a type with an instance key only if it has the key. -/
theorem key_of_offer {q : Producer} (hkey : ty.instanceKey.isSome = true)
    (h : offer? E ty statics p = some q) : p.ty.instanceKey = ty.instanceKey := by
  unfold offer? at h
  split at h
  · next hor =>
    refine hor.resolve_left fun hnone => ?_
    rw [hnone] at hkey
    cases hkey
  · cases h

/-- A producer gives its own type as it is. -/
theorem offer_self (hK : E.catalog.ParametersByKey) (hd : Catalog.Distinct p.ty)
    (ht : (p.ty == ty) = true) : offer? E ty statics p = some p := by
  rw [offer?, if_pos (Or.inr (Ty.parts_of_beq ht).instanceKey),
    Fit.fit_same (Fit.sameness_beq hK) statics ht hd]
  rfl

/-- Each of the candidates that a scope gives itself comes from a producer with the key. -/
theorem Few.append (h : Few S enclosing ty inherited)
    (hscopes : ∀ id ∈ scope :: enclosing, id < S.scopes.size) (hS : S.Extends S')
    (hown : Pushed S S' scope own ((S.scope scope).injectables.filterMap (offer? E ty statics))) :
    Few S' (scope :: enclosing) ty (inherited ++ own) := by
  intro hkey
  have hgiven : own.length ≤
      (S.scope scope).injectables.countP fun p => p.ty.instanceKey == ty.instanceKey := by
    rw [hown.forms.length_eq, List.length_filterMap_eq_countP]
    refine List.countP_mono_left fun p _ hp => ?_
    obtain ⟨q, hq⟩ := Option.isSome_iff_exists.1 hp
    exact beq_iff_eq.2 (key_of_offer hkey hq)
  rw [visibleIn_of_grows hS hscopes, visibleIn_cons, List.length_append, List.countP_append,
    List.countP_map]
  exact Nat.add_le_add (h hkey) hgiven

/-- A stored producer is in a scope around, or it is among what the scope gives itself. -/
theorem Pins.append (hK : E.catalog.ParametersByKey) (h : Pins S enclosing ty inherited)
    (hscopes : ∀ id ∈ scope :: enclosing, id < S.scopes.size) (hS : S.Extends S')
    (hown : Pushed S S' scope own ((S.scope scope).injectables.filterMap (offer? E ty statics))) :
    Pins S' (scope :: enclosing) ty (inherited ++ own) := by
  have hold := h.mono hS (List.forall_mem_cons.1 hscopes).2
  refine ⟨List.forall_mem_append.2 ⟨hold.known, fun c hc => (hown.places c hc).2⟩,
    fun o ho hd ht => ?_⟩
  rw [visibleIn_of_grows hS hscopes, visibleIn_cons] at ho
  rcases List.mem_append.1 ho with ho | ho
  · rw [← visibleIn_of_grows hS (List.forall_mem_cons.1 hscopes).2] at ho
    obtain ⟨c, hc, hform⟩ := hold.stored o ho hd ht
    exact ⟨c, List.mem_append_left _ hc, hform⟩
  · obtain ⟨p, hp, rfl⟩ := List.mem_map.1 ho
    have hgiven : p ∈ (S.scope scope).injectables.filterMap (offer? E ty statics) :=
      List.mem_filterMap.2 ⟨p, hp, offer_self hK hd ht⟩
    obtain ⟨c, hc, hform⟩ := Ty.exists_mem_of_forall₂ hown.forms.flip hgiven
    exact ⟨c, List.mem_append_right _ hc, hform⟩

theorem cumulative_few (E : Environment) :
    Cumulative E fun S scopes ty _ found => Few S scopes ty found where
  nil _ := Nat.zero_le _
  append h hscopes hS hown := h.append hscopes hS hown
  congr h ht _ := by
    unfold Few
    rw [(Ty.parts_of_beq ht).instanceKey]
    exact h
  mono h hS hscopes := by
    unfold Few
    rw [visibleIn_of_grows hS hscopes]
    exact h

theorem cumulative_pins (hK : E.catalog.ParametersByKey) :
    Cumulative E fun S scopes ty _ found => Pins S scopes ty found where
  nil := ⟨List.forall_mem_nil _, List.forall_mem_nil _⟩
  append h hscopes hS hown := h.append hK hscopes hS hown
  congr h ht _ := ⟨h.known, fun o ho hd hk => h.stored o ho hd (BEq.trans hk ht)⟩
  mono h hS hscopes := h.mono hS hscopes

/-! ### Sessions that come about -/

/-- A supplied supertype makes no classifier a type parameter. -/
theorem parametersByKey_of_supply {K : Catalog} {c : Classifier} {ts : List Ty}
    (h : (K.supplySupertypes c ts).2.ParametersByKey) : K.ParametersByKey := by
  have hsame := (Catalog.supplied_supplySupertypes K c ts).isTypeParameter_eq
  intro c d hk
  rw [← hsame]
  exact h c d hk

theorem Reachable.planted (h : Reachable E S) : Planted S :=
  (h.upheld (fun E => (scopeInvariant_planted E).upkeep)
    (fun E _ position hs hS => (scopeInvariant_planted E).addScope hs hS position) planted_empty).2

/-- A lookup has what comes about scope by scope, whichever supertypes have been supplied in between. -/
theorem Reachable.lookup {P : Finding} {Q : Environment → Prop} (h : Reachable E S) (hE : Q E)
    (hQ : ∀ E c ts, Q { E with catalog := (E.catalog.supplySupertypes c ts).2 } → Q E)
    (hP : ∀ E, Q E → Cumulative E P) (hscope : scope < S.scopes.size)
    (hrun : (Session.candidates E scope ty statics).run S = (found, S')) :
    S.Extends S' ∧ P S' (S.ancestors scope) ty statics found := by
  have htabled := h.upheld_of hE hQ (fun E hE => upkeep_tabled (hP E hE))
    (fun E _ position hE _ hS => tabled_addScope (hP E hE) hS position) (tabled_empty P)
  have hstep : Obeys (Tabled P) S (Session.candidates E scope ty statics) fun found S' =>
      P S' (S.ancestors scope) ty statics found :=
    .get (tabled_candidatesIn (hP E hE) ty statics h.sound_everything (Or.inr ⟨scope, hscope, rfl⟩)
      htabled.2)
  obtain ⟨hgrows, -, hfound⟩ := hstep
  rw [hrun] at hgrows hfound
  exact ⟨hgrows, hfound⟩

/-- Of producers with keys of their own one at most has a given key. -/
theorem Marked.countP_le {visible : List (ScopeId × Producer)} (h : Marked visible)
    (key : Option Nat) : visible.countP (fun o => o.2.ty.instanceKey == key) ≤ 1 := by
  have hnodup : (visible.map fun o => o.2.ty.instanceKey).Nodup := List.pairwise_map.2 h.distinct
  have hcount := List.nodup_iff_count_le_one.1 hnodup key
  rwa [List.count, List.countP_map] at hcount

theorem length_le_one (h : Reachable E S) (hscope : scope < S.scopes.size)
    (hkey : ty.instanceKey.isSome = true)
    (hrun : (candidates E scope ty statics).run S = (found, S')) : found.length ≤ 1 := by
  obtain ⟨hgrows, hfew⟩ := h.lookup (Q := fun _ => True)
    (P := fun S scopes ty _ found => Few S scopes ty found) trivial (fun _ _ _ h => h)
    (fun E _ => cumulative_few E) hscope hrun
  have hs := h.sound_everything
  have hle := hfew hkey
  rw [visibleIn_of_grows hgrows (lt_of_mem_ancestors hs.nested hscope)] at hle
  exact hle.trans ((h.planted.marked hs.nested hscope).countP_le _)

/-! ### Stored producers -/

/-- A producer that has been taken in as a member of another one, in the scope of which it is. -/
structure MemberOf (E : Environment) (q o : ScopeId × Producer) : Prop where
  scope : q.1 = o.1
  member : ∃ m ∈ o.2.members E, ∃ key, q.2 = m.withType (m.ty.withInstanceKey key)

/-- A member asks for the producer it belongs to, by its type. -/
theorem MemberOf.receiver {q : ScopeId × Producer} (h : MemberOf E q o) {r : Request}
    (hr : r ∈ Request.parametersOf q.2) (hslot : r.slot = .receiver) : r.ty = o.2.ty := by
  obtain ⟨m, hm, key, hq⟩ := h.member
  obtain ⟨-, -, d, -, -, rfl⟩ := Producer.mem_members hm
  rw [hq] at hr
  obtain ⟨⟨slot, t⟩, hmem, rfl⟩ := List.mem_map.1 hr
  rcases List.mem_cons.1 hmem with he | hmem
  · exact (Prod.mk.inj he).2
  · -- all other receivers have been dropped
    have hother := (List.mem_filter.1 hmem).2
    rw [show slot = .receiver from hslot] at hother
    cases hother

/-- In every session that has come about a type with an instance key has one candidate at most. If
classifiers with equal keys agree on being type parameters, whatever is static, the type of a producer
that is stored in a scope or around it has exactly one: this producer in its scope, as it is stored. So
it is for what a member asks for as its receiver. -/
theorem stored_found (h : Reachable E S) (hscope : scope < S.scopes.size)
    (hrun : (candidates E scope ty statics).run S = (found, S')) :
    (ty.instanceKey.isSome = true → found.length ≤ 1) ∧
    (E.catalog.ParametersByKey → ∀ o ∈ S.visibleIn (S.ancestors scope), Catalog.Distinct o.2.ty →
      (ty = o.2.ty ∨ ∃ q ∈ S.visibleIn (S.ancestors scope), MemberOf E q o ∧
        ∃ r ∈ Request.parametersOf q.2, r.slot = .receiver ∧ r.ty = ty) →
      ∃ c, found = [c] ∧ S'.injectable c = { owner := o.1, form := .produced o.2 }) := by
  refine ⟨fun hkey => length_le_one h hscope hkey hrun, fun hK o ho hd hasked => ?_⟩
  have ht : ty = o.2.ty := by
    rcases hasked with ht | ⟨q, -, hnested, r, hr, hslot, ht⟩
    · exact ht
    · rw [← ht]
      exact hnested.receiver hr hslot
  obtain ⟨hgrows, hpins⟩ := h.lookup (Q := fun E => E.catalog.ParametersByKey)
    (P := fun S scopes ty _ found => Pins S scopes ty found) hK
    (fun _ _ _ => parametersByKey_of_supply) (fun _ hK => cumulative_pins hK) hscope hrun
  have hs := h.sound_everything
  have hkey : ty.instanceKey.isSome = true := by
    rw [ht]
    exact (h.planted.marked hs.nested hscope).key o ho
  rw [← visibleIn_of_grows hgrows (lt_of_mem_ancestors hs.nested hscope)] at ho
  obtain ⟨c, hc, hform⟩ := hpins.stored o ho hd (by rw [ht]; exact BEq.rfl)
  -- it is one of the candidates, and there is no other one
  obtain ⟨d, hd⟩ := List.length_eq_one_iff.1
    (Nat.le_antisymm (length_le_one h hscope hkey hrun) (List.length_pos_of_mem hc))
  rw [hd, List.mem_singleton] at hc
  exact ⟨c, by rw [hd, hc], hform⟩

def service : Environment where
  catalog := ⟨[("Settings", [{ flags := { singleton := true } }])]⟩
  host := HostTables.host {
    members := [("Settings", [{ id := "Settings.port", ty := .of ⟨"Int", 0⟩ }])] }

def serving : Session :=
  ((addScope service {
    name := "service"
    declarations := [
      { id := "retries", ty := .of ⟨"Int", 0⟩ },
      { id := "settings", ty := .of ⟨"Settings", 0⟩ }] }).run {}).2

def handling : Session :=
  ((candidates service 1 (.of ⟨"Int", 0⟩) []).run
    ((addScope service { name := "handler", parent := some 0 }).run serving).2).2

def settings : Producer where
  declaration := { id := "settings", ty := .of ⟨"Settings", 0⟩ }
  ty := (Ty.of ⟨"Settings", 0⟩).withInstanceKey (some 1)
  parameterTypes := []

def port : Producer where
  declaration := { id := "Settings.port", ty := .of ⟨"Int", 0⟩ }
  ty := (Ty.of ⟨"Int", 0⟩).withInstanceKey (some 2)
  parameterTypes := [(.receiver, settings.ty)]
  chainLength := 1

/-- In the inner scope the receiver of the port is the settings, and nothing else. -/
theorem receiver_found : Reachable service handling ∧ service.catalog.ParametersByKey ∧
    (0, settings) ∈ handling.visibleIn (handling.ancestors 1) ∧
    MemberOf service (0, port) (0, settings) ∧
    ((candidates service 1 settings.ty []).run handling).1.length ≤ 1 ∧
    ∃ c, ((candidates service 1 settings.ty []).run handling).1 = [c] ∧
      ((candidates service 1 settings.ty []).run handling).2.injectable c =
        { owner := 0, form := .produced settings } := by
  have hserving : Reachable service serving := .addScope (.start service) _ rfl
  have hhandling : Reachable service handling :=
    .candidates (.addScope hserving { name := "handler", parent := some 0 } rfl)
      (by decide +kernel) _ _
  have hscope : 1 < handling.scopes.size := by decide +kernel
  have hK : service.catalog.ParametersByKey := fun c d hk => by
    have hsingle : service.catalog.Single := by decide
    exact hsingle.coherent.isTypeParameter_eq hk
  have hvisible : (handling.visibleIn (handling.ancestors 1)).drop 1 =
      [(0, settings), (0, port)] := rfl
  have hmem : ∀ o ∈ [(0, settings), (0, port)], o ∈ handling.visibleIn (handling.ancestors 1) :=
    fun o ho => List.mem_of_mem_drop (hvisible ▸ ho)
  have hsettings := hmem _ (List.mem_cons_self ..)
  have hmember : MemberOf service (0, port) (0, settings) :=
    ⟨rfl, _, List.mem_singleton_self _, some 2, rfl⟩
  have hdistinct : Catalog.Distinct settings.ty :=
    Ty.Everywhere.node List.nodup_nil (List.forall_mem_nil _) (List.forall_mem_nil _)
  have hport := hmem _ (List.mem_cons_of_mem _ (List.mem_cons_self ..))
  have hrun : (candidates service 1 settings.ty []).run handling = (_, _) := rfl
  obtain ⟨hone, hstored⟩ := stored_found hhandling hscope hrun
  exact ⟨hhandling, hK, hsettings, hmember, hone rfl, hstored hK _ hsettings hdistinct
    (Or.inr ⟨_, hport, hmember, _, List.mem_cons_self .., rfl, rfl⟩)⟩

/-! ### Two classifiers with one key -/

def bounded : Environment where
  catalog := ⟨[
    ("Foo", [{}, {
      flags := { typeParameter := true }
      supertypes := some [.of ⟨"Bar", 0⟩] }]),
    ("Bar", [{}])]⟩
  host := HostTables.host {}

def withFoo : Session :=
  ((addScope bounded {
    name := "root"
    declarations := [{ id := "foo", ty := .of ⟨"Foo", 0⟩ }] }).run {}).2

def storedFoo : Producer where
  declaration := { id := "foo", ty := .of ⟨"Foo", 0⟩ }
  ty := (Ty.of ⟨"Foo", 0⟩).withInstanceKey (some 0)
  parameterTypes := []

def parameterAsked : Session :=
  ((candidates bounded 0 ((Ty.of ⟨"Foo", 1⟩).withInstanceKey (some 0)) []).run withFoo).2

/-- A foo is no bar, so nothing is found for the parameter. As the class is equal to the parameter,
nothing is found for the type of the stored foo either. -/
theorem stored_missed : Reachable bounded parameterAsked ∧ 0 < parameterAsked.scopes.size ∧
    (0, storedFoo) ∈ parameterAsked.visibleIn (parameterAsked.ancestors 0) ∧
    Catalog.Distinct storedFoo.ty ∧
    ((candidates bounded 0 storedFoo.ty []).run parameterAsked).1 = [] := by
  have hstored : Reachable bounded withFoo := .addScope (.start bounded) _ rfl
  have hvisible : parameterAsked.visibleIn (parameterAsked.ancestors 0) = [(0, storedFoo)] := rfl
  refine ⟨.candidates hstored (by decide +kernel) _ _, by decide +kernel, ?_,
    Ty.Everywhere.node List.nodup_nil (List.forall_mem_nil _) (List.forall_mem_nil _),
    by decide +kernel⟩
  rw [hvisible]
  exact List.mem_singleton_self _

end Wiring.Session
