import Wiring.Proofs.Fit.Likeness
import Wiring.Proofs.Session.Indexed
import Wiring.Proofs.Session.Steady

/-!
The table of candidates may be filled by lookups from other scopes and for equal types, so its entries
are right for all of these. This is so for every property of lookups that comes about scope by scope.
-/
namespace Wiring

/-! ### Producers that match -/

structure Producer.Matches (p q : Producer) : Prop where
  -- Two uses of one declaration that agree in all their types.
  declaration : p.declaration = q.declaration
  ty : (p.ty == q.ty) = true
  parameterTypes : List.Forall₂ (fun a b => a.1 = b.1 ∧ (a.2 == b.2) = true)
    p.parameterTypes q.parameterTypes
  typeArguments : (p.typeArguments == q.typeArguments) = true
  chainLength : p.chainLength = q.chainLength
  lifted : p.lifted = q.lifted

theorem Producer.Matches.refl (p : Producer) : p.Matches p where
  declaration := rfl
  ty := BEq.rfl
  parameterTypes := List.forall₂_same.2 fun _ _ => ⟨rfl, BEq.rfl⟩
  typeArguments := BEq.rfl
  chainLength := rfl
  lifted := rfl

theorem Producer.matches_substitute (p : Producer) {m m' : Substitution}
    (h : m.plain = m'.plain) : (p.substitute m).Matches (p.substitute m') := by
  have hempty : m.isEmpty = m'.isEmpty := by
    rw [← m.plain_isEmpty, h, m'.plain_isEmpty]
  have harguments : ((p.typeArguments.compose m).restrict p.declaration.typeParameters ==
      (p.typeArguments.compose m').restrict p.declaration.typeParameters) = true := by
    rw [← Substitution.plain_beq_plain, Substitution.plain_restrict, Substitution.plain_restrict,
      Substitution.plain_compose, Substitution.plain_compose, h]
    exact BEq.rfl
  unfold Producer.substitute
  rw [hempty]
  split
  · exact Matches.refl p
  · exact {
      declaration := rfl
      ty := Ty.substitute_beq_of_plain h p.ty
      parameterTypes :=
        Ty.forall₂_map_same fun a _ => ⟨rfl, Ty.substitute_beq_of_plain h a.2⟩
      typeArguments := harguments
      chainLength := rfl
      lifted := rfl }

namespace Session

variable {V : Vocabulary} {E : Environment} {S S' : Session} {scope : ScopeId}
  {scopes : List ScopeId} {ty ty' : Ty} {statics statics' : List Classifier}
  {found : List InjectableId}

/-! ### What scopes offer -/

def offer? (E : Environment) (ty : Ty) (statics : List Classifier) (p : Producer) :
    Option Producer :=
  -- The producer as it gives `ty`: if `ty` has an instance key it is the key of the producer, and
  -- the type of the producer fits.
  if ty.instanceKey = none ∨ p.ty.instanceKey = ty.instanceKey then
    match E.catalog.fit statics p.ty ty with
    | .ok m => some (p.substitute m)
    | .error _ => none
  else none

def offersIn (E : Environment) (S : Session) (ty : Ty) (statics : List Classifier)
    (scopes : List ScopeId) : List (ScopeId × Producer) :=
  -- What the producers of some scopes give for `ty`, with the scopes they belong to: scope by
  -- scope, the last one of the list first, and in a scope in the order of its producers.
  scopes.reverse.flatMap fun owner =>
    ((S.scope owner).injectables.filterMap (offer? E ty statics)).map fun p => (owner, p)

def offers (E : Environment) (S : Session) (scope : ScopeId) (ty : Ty) (statics : List Classifier) :
    List (ScopeId × Producer) :=
  S.offersIn E ty statics (S.ancestors scope)

theorem specialize_eq_offer (E : Environment) (ty : Ty) (statics : List Classifier) :
    Producer.specialize? E.catalog statics ty = offer? E ty statics := by
  funext p
  unfold Producer.specialize? offer?
  cases hk : ty.instanceKey with
  | none =>
    rw [if_neg (by simp), if_pos (Or.inl rfl)]
    cases E.catalog.fit statics p.ty ty <;> rfl
  | some key =>
    by_cases hp : p.ty.instanceKey = some key
    · rw [if_neg (by simp [hp]), if_pos (Or.inr hp)]
      cases E.catalog.fit statics p.ty ty <;> rfl
    · rw [if_pos (by simp [hp]), if_neg (by simp [hp])]

/-- Equal types are given by the same producers, and by matching uses of them. -/
theorem offer_rel (hK : E.catalog.Coherent) (ht : (ty == ty') = true)
    (hs : (statics == statics') = true) (p : Producer) :
    Option.Rel Producer.Matches (offer? E ty statics p) (offer? E ty' statics' p) := by
  have hkey : ty.instanceKey = ty'.instanceKey := (Ty.parts_of_beq ht).instanceKey
  have hfit := E.catalog.fit_congr hK p.ty hs ht
  unfold offer?
  rw [hkey]
  split
  · cases hfirst : E.catalog.fit statics p.ty ty <;>
      cases hsecond : E.catalog.fit statics' p.ty ty' <;> rw [hfirst, hsecond] at hfit
    · exact .none
    · cases hfit
    · cases hfit
    · exact .some (p.matches_substitute (Option.some.inj hfit))
  · exact .none

/-- Later on the same scopes give the same. -/
theorem offersIn_of_grows (hS : S.Extends S') (hscopes : ∀ id ∈ scopes, id < S.scopes.size) :
    S'.offersIn E ty statics scopes = S.offersIn E ty statics scopes := by
  refine List.flatMap_congr fun owner howner => ?_
  rw [hS.scope owner (hscopes owner (List.mem_reverse.1 howner))]

theorem offersIn_cons (E : Environment) (S : Session) (ty : Ty) (statics : List Classifier)
    (scope : ScopeId) (enclosing : List ScopeId) :
    S.offersIn E ty statics (scope :: enclosing) = S.offersIn E ty statics enclosing ++
      ((S.scope scope).injectables.filterMap (offer? E ty statics)).map fun p => (scope, p) := by
  rw [offersIn, List.reverse_cons, List.flatMap_append, List.flatMap_singleton, offersIn]

/-! ### Properties of lookups -/

abbrev Finding :=
  Session → List ScopeId → Ty → List Classifier → List InjectableId → Prop

structure Pushed (S S' : Session) (scope : ScopeId) (own : List InjectableId)
    (ps : List Producer) : Prop where
  -- The injectables are producers of this scope, and have the places from the end of `S` on.
  places : ∀ c ∈ own, S.injectables.size ≤ c ∧ c < S'.injectables.size
  increasing : own.Pairwise (· < ·)
  forms : List.Forall₂ (fun c p => S'.injectable c = { owner := scope, form := .produced p }) own ps

/-- A property that comes about scope by scope, from the outside in. It stays, and it is the same for
equal types. -/
structure Cumulative (E : Environment) (P : Finding) : Prop where
  nil : ∀ {S ty statics}, P S [] ty statics []
  append : ∀ {S S' scope enclosing ty statics inherited own}, P S enclosing ty statics inherited →
    (∀ id ∈ scope :: enclosing, id < S.scopes.size) → S.Extends S' →
    Pushed S S' scope own ((S.scope scope).injectables.filterMap (offer? E ty statics)) →
      P S' (scope :: enclosing) ty statics (inherited ++ own)
  congr : ∀ {S scopes ty ty' statics statics' found}, P S scopes ty statics found →
    (ty' == ty) = true → (statics' == statics) = true → P S scopes ty' statics' found
  mono : ∀ {S S' scopes ty statics found}, P S scopes ty statics found → S.Extends S' →
    (∀ id ∈ scopes, id < S.scopes.size) → P S' scopes ty statics found

/-- Every entry of the table of candidates has a property, for its scope and those around it. -/
def Tabled (P : Finding) (S : Session) : Prop :=
  ∀ e ∈ S.memo.candidates, (∀ id ∈ S.ancestors e.1.1, id < S.scopes.size) ∧
    P S (S.ancestors e.1.1) e.1.2.1 e.1.2.2 e.2

theorem tabled_empty (P : Finding) : Tabled P {} :=
  List.forall_mem_nil _

/-- Pushed producers get the next places, one after the other. -/
theorem pushed_inOrder {I : Session → Prop} (hI : ∀ S i, I S →
      I { S with injectables := S.injectables.push i }) (scope : ScopeId) (ps : List Producer)
    (hS : I S) :
    Obeys I S (ps.mapM fun p => pushInjectable { owner := scope, form := .produced p })
      fun own S' => Pushed S S' scope own ps := by
  induction ps generalizing S with
  | nil => exact Obeys.pure hS ⟨List.forall_mem_nil _, .nil, .nil⟩
  | cons p ps ih =>
    let i : Injectable := { owner := scope, form := .produced p }
    let S₁ : Session := { S with injectables := S.injectables.push i }
    have hself : S₁.injectable S.injectables.size = i := getD_push_size _ _ _
    have hpush : Obeys I S (pushInjectable i) fun c S' => c = S.injectables.size ∧ S' = S₁ :=
      ⟨extends_pushInjectable S i, hI S i hS, rfl, rfl⟩
    rw [List.mapM_cons]
    apply hpush.bind
    rintro c _ _ hS₁ ⟨rfl, rfl⟩
    apply (ih hS₁).bind
    rintro own S₂ h₂ hS₂ ⟨hplaces, hincreasing, hforms⟩
    have hlt : S.injectables.size < S₁.injectables.size := lt_size_push _ _
    -- the rest stands behind the first one, so the places keep increasing
    have hbehind : ∀ c ∈ own, S.injectables.size < c := fun c hc =>
      Nat.lt_of_lt_of_le hlt (hplaces c hc).1
    refine Obeys.pure hS₂ ⟨?_, List.pairwise_cons.2 ⟨hbehind, hincreasing⟩, ?_⟩
    · exact List.forall_mem_cons.2 ⟨⟨Nat.le_refl _, h₂.lt_injectables hlt⟩,
        fun c hc => ⟨Nat.le_of_lt (hbehind c hc), (hplaces c hc).2⟩⟩
    · exact .cons ((h₂.injectable _ hlt).trans hself) hforms

section Tables

variable {P : Finding}

/-- An entry of an older table is right in a later session. -/
theorem Tabled.later (h : Tabled P S) (hP : Cumulative E P) (hS : S.Extends S') :
    ∀ e ∈ S.memo.candidates, (∀ id ∈ S'.ancestors e.1.1, id < S'.scopes.size) ∧
      P S' (S'.ancestors e.1.1) e.1.2.1 e.1.2.2 e.2 := by
  intro e he
  obtain ⟨hscopes, hfound⟩ := h e he
  have hscope := hscopes e.1.1 (List.mem_cons_self ..)
  rw [hS.ancestors hscope]
  exact ⟨fun id hid => hS.lt_scopes (hscopes id hid), hP.mono hfound hS hscopes⟩

theorem Tabled.grow (h : Tabled P S) (hP : Cumulative E P) (hS : S.Extends S')
    (hsame : S'.memo.candidates = S.memo.candidates) : Tabled P S' :=
  fun e he => h.later hP hS e (hsame ▸ he)

theorem tabled_candidatesIn (hP : Cumulative E P) (ty : Ty) (statics : List Classifier)
    (hs : Sound V E S) (hl : S.Lineage scopes) (hS : Tabled P S) :
    Obeys (Tabled P) S (candidatesIn E ty statics scopes) fun found S' =>
      P S' scopes ty statics found := by
  -- from the inside out, with what the scopes around give already in place
  induction scopes with
  | nil => exact Obeys.pure hS hP.nil
  | cons scope enclosing ih =>
    obtain ⟨hscope, hancestors, hrest⟩ := lineage_cons hs hl
    have hscopes : ∀ id ∈ scope :: enclosing, id < S.scopes.size := by
      rw [hancestors]
      exact lt_of_mem_ancestors hs.nested hscope
    rw [candidatesIn]
    apply Obeys.get
    split
    · next found hfound =>
      obtain ⟨⟨⟨scope', ty', statics'⟩, found'⟩, he, hk, rfl⟩ := mem_of_lookup hfound
      obtain ⟨hsame, harguments⟩ := of_beq_pair (k := (ty, statics)) (l := (ty', statics')) hk
      obtain ⟨ht, hs⟩ := Bool.and_eq_true_iff.1
        (show (ty == ty' && statics == statics') = true from harguments)
      subst hsame
      -- the entry may have been made for an equal type
      rw [hancestors]
      exact Obeys.pure hS (hP.congr (hS _ he).2 ht hs)
    · apply Obeys.bind (ih hrest)
      intro inherited S₁ h₁ hS₁ hinherited
      have hscopes₁ : ∀ id ∈ scope :: enclosing, id < S₁.scopes.size := fun id hid =>
        h₁.lt_scopes (hscopes id hid)
      apply Obeys.get
      rw [specialize_eq_offer]
      apply Obeys.bind (pushed_inOrder
        (fun S i hS => hS.grow hP (extends_pushInjectable S i) rfl) scope _ hS₁)
      intro own S₂ h₂ hS₂ hpushed
      have hfound : P S₂ (scope :: enclosing) ty statics (inherited ++ own) :=
        hP.append hinherited hscopes₁ h₂ hpushed
      let S₃ : Session := { S₂ with memo := { S₂.memo with
        candidates := ((scope, ty, statics), inherited ++ own) :: S₂.memo.candidates } }
      have h₃ : S₂.Extends S₃ := Extends.of_same rfl rfl fun _ _ => id
      have hscopes₂ : ∀ id ∈ scope :: enclosing, id < S₂.scopes.size := fun id hid =>
        h₂.lt_scopes (hscopes₁ id hid)
      have hanc₃ : S₃.ancestors scope = scope :: enclosing := by
        rw [((h₁.trans h₂).trans h₃).ancestors hscope, hancestors]
      have hfound₃ := hP.mono hfound h₃ hscopes₂
      have hnew : (∀ id ∈ S₃.ancestors scope, id < S₃.scopes.size) ∧
          P S₃ (S₃.ancestors scope) ty statics (inherited ++ own) := by
        rw [hanc₃]
        exact ⟨hscopes₂, hfound₃⟩
      have hS₃ : Tabled P S₃ := List.forall_mem_cons.2 ⟨hnew, hS₂.later hP h₃⟩
      exact ⟨h₃, hS₃, hfound₃⟩

abbrev Untouched (S S' : Session) : Prop :=
  S'.memo.candidates = S.memo.candidates

/-- A step that leaves the table alone leaves it right. -/
theorem Tabled.after {α : Type} {step : SessionM α} {Q : α → Session → Prop} (h : Tabled P S)
    (hP : Cumulative E P) (hstep : Obeys S.Untouched S step Q) : Tabled P (step.run S).2 :=
  h.grow hP hstep.grows hstep.keeps

theorem steady_untouched (E : Environment) (S₀ : Session) : Steady E S₀.Untouched where
  push _ h := h
  rememberTypeScope _ h := h
  rememberElements _ h := h
  rememberFramework _ h := h
  rememberChild _ h := h
  build _ _ _ h := h

end Tables

/-! ### Lists of candidates -/

/-- The injectable is this producer in this scope. -/
def Realizes (S : Session) (c : InjectableId) (o : ScopeId × Producer) : Prop :=
  (S.injectable c).owner = o.1 ∧ ∃ p, (S.injectable c).form = .produced p ∧ p.Matches o.2

structure Lists (E : Environment) (S : Session) (scopes : List ScopeId) (ty : Ty)
    (statics : List Classifier) (found : List InjectableId) : Prop where
  -- The list names exactly what some scopes offer for a type, and as well for an equal one, in the
  -- same order and in the order of the injectables.
  known : ∀ c ∈ found, c < S.injectables.size
  increasing : found.Pairwise (· < ·)
  exactly : ∀ ty' statics', (ty == ty') = true → (statics == statics') = true →
    List.Forall₂ S.Realizes found (S.offersIn E ty' statics' scopes)

theorem Lists.congr (h : Lists E S scopes ty statics found) (ht : (ty' == ty) = true)
    (hs : (statics' == statics) = true) : Lists E S scopes ty' statics' found :=
  { h with exactly := fun _ _ ht' hs' =>
      h.exactly _ _ (BEq.trans (BEq.symm ht) ht') (BEq.trans (BEq.symm hs) hs') }

theorem Lists.mono (h : Lists E S scopes ty statics found) (hS : S.Extends S')
    (hscopes : ∀ id ∈ scopes, id < S.scopes.size) : Lists E S' scopes ty statics found where
  known c hc := hS.lt_injectables (h.known c hc)
  increasing := h.increasing
  exactly ty' statics' ht hs := by
    rw [offersIn_of_grows hS hscopes]
    refine Ty.forall₂_imp_of_mem (h.exactly ty' statics' ht hs) fun c hc o _ ho => ?_
    unfold Realizes at ho ⊢
    rwa [hS.injectable c (h.known c hc)]

/-- What a scope gives goes behind what is inherited. -/
theorem Lists.append (hK : E.catalog.Coherent) {enclosing : List ScopeId}
    {inherited own : List InjectableId} (h : Lists E S enclosing ty statics inherited)
    (hscopes : ∀ id ∈ scope :: enclosing, id < S.scopes.size) (hS : S.Extends S')
    (hown : Pushed S S' scope own ((S.scope scope).injectables.filterMap (offer? E ty statics))) :
    Lists E S' (scope :: enclosing) ty statics (inherited ++ own) := by
  obtain ⟨hscope, henclosing⟩ := List.forall_mem_cons.1 hscopes
  have hold := h.mono hS henclosing
  constructor
  · exact List.forall_mem_append.2 ⟨hold.known, fun c hc => (hown.places c hc).2⟩
  · refine List.pairwise_append.2 ⟨h.increasing, hown.increasing, fun c hc d hd => ?_⟩
    -- what is inherited was there before anything was pushed
    exact Nat.lt_of_lt_of_le (h.known c hc) (hown.places d hd).1
  · intro ty' statics' ht hs
    rw [offersIn_cons, hS.scope scope hscope]
    refine List.rel_append (hold.exactly ty' statics' ht hs) ?_
    rw [List.forall₂_map_right_iff]
    -- the producers of an equal type match those that were pushed
    have hmatch : List.Forall₂ Producer.Matches
        ((S.scope scope).injectables.filterMap (offer? E ty statics))
        ((S.scope scope).injectables.filterMap (offer? E ty' statics')) :=
      List.rel_filterMap (R := Eq) (fun p _ he => he ▸ offer_rel hK ht hs p)
        (List.forall₂_same.2 fun _ _ => rfl)
    refine Ty.forall₂_trans_of (fun c p q hc hpq => ?_) hown.forms hmatch
    unfold Realizes
    rw [hc]
    exact ⟨rfl, p, rfl, hpq⟩

theorem cumulative_lists (hK : E.catalog.Coherent) : Cumulative E (Lists E) where
  nil := ⟨List.forall_mem_nil _, .nil, fun _ _ _ _ => .nil⟩
  append h hscopes hS hown := h.append hK hscopes hS hown
  congr h ht hs := h.congr ht hs
  mono h hS hscopes := h.mono hS hscopes

abbrev Listed (E : Environment) : Session → Prop :=
  Tabled (Lists E)

theorem listed_empty : Listed E {} :=
  tabled_empty _

theorem listed_candidatesIn (hK : E.catalog.Coherent) (ty : Ty) (statics : List Classifier)
    (hs : Sound V E S) (hl : S.Lineage scopes) (hS : Listed E S) :
    Obeys (Listed E) S (candidatesIn E ty statics scopes) fun found S' =>
      Lists E S' scopes ty statics found :=
  tabled_candidatesIn (cumulative_lists hK) ty statics hs hl hS

end Session
end Wiring
