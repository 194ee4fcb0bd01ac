import Wiring.Proofs.Session.Regularity
import Wiring.Proofs.Session.Saturation
import Wiring.Proofs.Types.Mentions

/-!
A type without open parameters is below a bound over parameters of the rule. But the bound of a member
may be over the parameters of the generic type around it, and what these stand for is not among the
arguments of the member, so the fit may give them other values.
-/
namespace Wiring

open Ty

/-! ### One use of a rule -/

def Producer.Open (p : Producer) : Prop :=
  ∀ c, p.typeArguments.get? c = none

theorem Producer.open_ofDeclaration (d : Declaration) : (ofDeclaration d).Open :=
  fun _ => rfl

/-- What is bound for the parameters of the declaration is recorded, and nothing else is. -/
theorem Producer.Open.get_substitute {p : Producer} (h : p.Open) (m : Substitution)
    (c : Classifier) : (p.substitute m).typeArguments.get? c =
      if p.declaration.typeParameters.contains c then m.get? c else none := by
  unfold Producer.substitute
  split
  · next hempty =>
    rw [Substitution.get_of_isEmpty hempty, ite_self]
    exact h c
  · change ((p.typeArguments.compose m).restrict _).get? c = _
    rw [Substitution.get_restrict, Substitution.get_compose, h c]
    rfl

theorem Producer.isRule_of_open {K : Catalog} {p : Producer} {T : Classifier} {B : Ty}
    (h : p.Open) (hc : p.declaration.spreadConstraint? K = some (T, B)) : p.isRule K = true := by
  simp [isRule, hc, Substitution.contains, h T]

namespace Catalog

variable {K : Catalog} {statics : List Classifier} {p rule candidate output : Producer}
  {T : Classifier} {B s : Ty} {m : Substitution}

structure Spreads (K : Catalog) (statics : List Classifier) (p : Producer) (T : Classifier)
    (B s : Ty) (m : Substitution) : Prop where
  -- `p` spreads `s`: there are arguments under which `s` is below the bound, and `p` records them,
  -- but `s` itself for the spread parameter.
  admissible : K.Admissible statics m
  below : K.isSubtype (s.substitute m) (B.substitute m) = true
  self : p.typeArguments.get? T = some s
  others : ∀ c, (c == T) = false → p.typeArguments.get? c =
    if p.declaration.typeParameters.contains c then m.get? c else none

theorem spreads_of_spread (hK : K.Orderly statics) (hopen : rule.Open)
    (hc : K.RegularProducer candidate)
    (h : rule.spread? K statics candidate = some output) :
    output.declaration = rule.declaration ∧ ∃ T B,
      rule.declaration.spreadConstraint? K = some (T, B) ∧
      ∃ m, K.Spreads statics output T B candidate.ty m := by
  obtain ⟨T, B, m, hconstraint, hfit, rfl⟩ := Producer.of_spread h
  obtain ⟨hT, hB⟩ := Declaration.of_spreadConstraint hconstraint
  -- an open rule has no arguments yet, so the bound is taken as it is declared
  have hpattern : B.substitute rule.typeArguments = B := substitute_eq_self fun c _ => hopen c
  rw [hpattern] at hfit
  obtain ⟨hadm, hsub⟩ := Fit.admissible_of_fit hK hc.ty (hK.regular _ B hB) (ok_of_toOption hfit)
  have hself : ((rule.substitute (m.insert T candidate.ty)).typeArguments).get? T =
      some candidate.ty := by
    rw [hopen.get_substitute, if_pos (contains_of_mem hT), Substitution.get_insert,
      if_pos BEq.rfl]
  have hothers : ∀ c, (c == T) = false →
      ((rule.substitute (m.insert T candidate.ty)).typeArguments).get? c =
        if rule.declaration.typeParameters.contains c then m.get? c else none := by
    intro c hcT
    rw [hopen.get_substitute, Substitution.get_insert, if_neg (ne_true_of_eq_false hcT)]
  have hdecl := rule.declaration_substitute (m.insert T candidate.ty)
  rw [← hdecl] at hothers
  split
  · exact ⟨hdecl, T, B, hconstraint, m, hadm, hsub, hself, hothers⟩
  · exact ⟨hdecl, T, B, hconstraint, m, hadm, hsub, hself, hothers⟩

/-- It does not matter what the producer gives. -/
theorem Spreads.congr {q : Producer} (h : K.Spreads statics p T B s m)
    (hd : q.declaration = p.declaration) (ha : q.typeArguments = p.typeArguments) :
    K.Spreads statics q T B s m where
  admissible := h.admissible
  below := h.below
  self := ha ▸ h.self
  others := by
    rw [hd, ha]
    exact h.others

/-- An output is not a rule again, as its spread parameter is bound. -/
theorem isRule_of_spread (h : rule.spread? K statics candidate = some output) :
    output.isRule K = false := by
  obtain ⟨T, B, m, hconstraint, _, rfl⟩ := Producer.of_spread h
  have hT := contains_of_mem (Declaration.of_spreadConstraint hconstraint).1
  have hbinds : (m.insert T candidate.ty).get? T = some candidate.ty := by
    rw [Substitution.get_insert, if_pos BEq.rfl]
  have hself : (rule.substitute (m.insert T candidate.ty)).typeArguments.contains T = true := by
    unfold Producer.substitute
    split
    · next hempty =>
      rw [Substitution.get_of_isEmpty hempty] at hbinds
      cases hbinds
    · change (((rule.typeArguments.compose _).restrict _).get? T).isSome = true
      rw [Substitution.get_restrict, if_pos hT, Substitution.get_compose, hbinds,
        Option.isSome_or, Option.isSome_some, Bool.or_true]
  have hrule : (rule.substitute (m.insert T candidate.ty)).isRule K = false := by
    unfold Producer.isRule
    rw [Producer.declaration_substitute, hconstraint]
    exact congrArg (!·) hself
  split
  · exact hrule
  · exact hrule

/-- A type without open parameters is below the bound, if what the bound is over is recorded. -/
theorem Spreads.isSubtype (h : K.Spreads statics p T B s m)
    (hs : ∀ c ∈ K.parametersIn s, statics.contains c = true) (hT : ¬ Mentions B T.key)
    (hB : ∀ c ∈ K.parametersIn B,
      statics.contains c = true ∨ p.declaration.typeParameters.contains c = true) :
    K.isSubtype s (B.substitute p.typeArguments) = true := by
  have hbound : B.substitute p.typeArguments = B.substitute m := by
    refine substitute_congr fun c hc => ?_
    have hne : (c == T) = false :=
      Bool.eq_false_iff.2 fun he => hT ⟨c, hc, Classifier.beq_iff_key_eq.1 he⟩
    rw [h.others c hne]
    split
    · rfl
    · next hown =>
      -- then the fit has not bound it either
      refine (h.admissible.get_of_settled fun hp => ?_).symm
      obtain ⟨q, hq, hqc⟩ := exists_mem_parametersIn hc hp
      rcases hB q hq with hstatic | hother
      · rwa [← Ty.contains_congr hqc]
      · rw [Ty.contains_congr hqc] at hother
        exact absurd hother hown
  have hsub := h.below
  rwa [h.admissible.substitute_eq_self hs, ← hbound] at hsub

end Catalog

/-! ### Whole expansions -/

namespace Expansion

variable {E : Environment} {statics : List Classifier} {inherited : Inherited}
  {declarations : List Declaration} {x y : Expansion} {ps : List Producer} {p : Producer}
  {n : Nat}

structure Parted (E : Environment) (x : Expansion) : Prop where
  -- Rules are set apart from injectables.
  spreading : ∀ p ∈ x.spreading, p.isRule E.catalog = true
  injectables : ∀ p ∈ x.injectables, p.isRule E.catalog = false

theorem Collects.parted (h : Collects E ps x y) (hx : Parted E x) : Parted E y := by
  induction h with
  | done x => exact hx
  | tooLong _ _ ih | again _ _ _ ih => exact ih hx
  | rule _ _ hrule _ ih =>
    refine ih ⟨List.forall_mem_append.2 ⟨hx.spreading, ?_⟩, hx.injectables⟩
    exact List.forall_mem_singleton.2 hrule
  | injectable _ _ hrule _ ih =>
    refine ih ⟨hx.spreading, List.forall_mem_append.2 ⟨hx.injectables, ?_⟩⟩
    exact List.forall_mem_singleton.2 hrule

theorem Expands.parted (h : Expands E statics inherited declarations n y) : Parted E y := by
  obtain ⟨x, hcollects, hsaturates⟩ := h
  have hx : Parted E x := hcollects.parted ⟨List.forall_mem_nil _, List.forall_mem_nil _⟩
  refine hsaturates.preserves (I := fun _ => Parted E) (fun x hx => ?_)
    (fun _ _ _ hc hx => hc.parted hx) hx
  have htried := tried_round E statics inherited x
  refine ⟨?_, ?_⟩
  · rw [htried.spreading]
    exact hx.spreading
  · rw [htried.injectables]
    exact hx.injectables

def OwnParameters (E : Environment) : Prop :=
  ∀ c, ∀ d ∈ E.host.membersOf c, ∀ p ∈ E.catalog.typeParameters c,
    d.typeParameters.contains p = false

theorem open_of_member {d : Declaration} {t : Ty} (hE : OwnParameters E)
    (hd : d ∈ E.host.membersOf t.classifier) :
    ((Producer.ofDeclaration d).substitute (E.catalog.argumentsOf t)).Open := by
  intro c
  rw [(Producer.open_ofDeclaration d).get_substitute]
  split
  · next hown =>
    cases hget : (E.catalog.argumentsOf t).get? c with
    | none => rfl
    | some u =>
      obtain ⟨q, hq, hcq⟩ := List.contains_iff_exists_mem_beq.1 (Catalog.of_get_argumentsOf hget).2
      have hother := hE _ d hd q hq
      rw [← List.contains_congr hcq] at hother
      exact absurd hown (ne_true_of_eq_false hother)
  · rfl

/-- A rule has not bound anything, for it is a declaration or a member. -/
theorem Expands.open (h : Expands E statics inherited declarations n x) (hE : OwnParameters E) :
    ∀ p ∈ x.spreading, p.Open := by
  intro p hp
  have hrule := h.parted.spreading p hp
  have horigin := (h.traced.rules p hp).2
  generalize p.chainLength = steps at horigin
  cases horigin with
  | given => exact Producer.open_ofDeclaration _
  | @lifted parent _ hparent =>
    have hnot : parent.isRule E.catalog = false := h.parted.injectables parent hparent
    exact absurd hrule (ne_true_of_eq_false hnot)
  | member _ _ _ hd => exact open_of_member hE hd
  | spread _ _ houtput => exact absurd hrule (ne_true_of_eq_false (Catalog.isRule_of_spread houtput))

/-- An injectable whose declaration is a rule spreads the type that it has for the parameter: it is an
output, or goes back to one by lifting. -/
theorem Expands.spreads (h : Expands E statics inherited declarations n x)
    (hK : E.catalog.Orderly statics) (hE : OwnParameters E)
    (hx : Consists E.catalog.RegularProducer x) (hi : Inherits E.catalog.RegularProducer inherited)
    (hrules : ∀ r ∈ inherited.rules, r.Open) (hp : p ∈ x.injectables) {T : Classifier} {B : Ty}
    (hconstraint : p.declaration.spreadConstraint? E.catalog = some (T, B)) :
    ∃ s m, E.catalog.Spreads statics p T B s m := by
  have hnot : ¬ p.Open := fun hopen =>
    absurd (Producer.isRule_of_open hopen hconstraint)
      (ne_true_of_eq_false (h.parted.injectables p hp))
  -- along the chain of lifted results, which gets shorter
  induction hchain : p.chainLength using Nat.strongRecOn generalizing p with
  | _ steps ih =>
    obtain ⟨_, q, key, rfl, horigin⟩ := h.traced.injectables p hp
    rw [hchain] at horigin
    cases horigin with
    | @given d => exact absurd (Producer.open_ofDeclaration d) hnot
    | @lifted parent result hparent =>
      obtain ⟨s, m, hspreads⟩ := ih _ (Nat.lt_succ_self _) hparent hconstraint hnot rfl
      exact ⟨s, m, hspreads.congr rfl rfl⟩
    | member _ _ _ hd => exact absurd (open_of_member hE hd) hnot
    | @spread rule candidate _ hrule hcandidate houtput =>
      have hopen : rule.Open := hrule.elim (h.open hE rule) (hrules rule)
      have hregular := hcandidate.elim (hx.injectables candidate) (hi.candidates candidate)
      obtain ⟨hd, T', B', hconstraint', m, hspreads⟩ :=
        Catalog.spreads_of_spread hK hopen hregular houtput
      rw [← hd] at hconstraint'
      obtain ⟨rfl, rfl⟩ := Prod.mk.inj (Option.some.inj (hconstraint'.symm.trans hconstraint))
      exact ⟨candidate.ty, m, hspreads.congr rfl rfl⟩

/-- A scope keeps to the bounds of rules. The rules that it holds have not bound anything, if those of
the scopes around have not; and each injectable whose declaration is a rule has for the spread
parameter a type that is below the bound at its type arguments, if no type parameter is open in it
and the bound is over static parameters and the other ones of the declaration. -/
theorem spread_within_bound {E : Environment} {statics : List Classifier}
    (hK : E.catalog.Orderly statics) (hhost : E.catalog.RegularHost E.host)
    (hE : OwnParameters E) {inherited : Inherited}
    (hi : Inherits E.catalog.RegularProducer inherited) (hrules : ∀ r ∈ inherited.rules, r.Open)
    {declarations : List Declaration}
    (hd : ∀ d ∈ declarations, E.catalog.RegularDeclaration d ∧ d.isValid E.catalog = true)
    (n : Nat) :
    let x := ofDeclarations E statics inherited declarations n
    (∀ r ∈ x.spreading, r.Open) ∧
      ∀ p ∈ x.injectables, ∀ T B, p.declaration.spreadConstraint? E.catalog = some (T, B) →
        ∃ s, p.typeArguments.get? T = some s ∧
          ((∀ c ∈ E.catalog.parametersIn s, statics.contains c = true) → ¬ Mentions B T.key →
            (∀ c ∈ E.catalog.parametersIn B, statics.contains c = true ∨
              p.declaration.typeParameters.contains c = true) →
            E.catalog.isSubtype s (B.substitute p.typeArguments) = true) := by
  intro x
  have hx : Expands E statics inherited declarations n x :=
    expands_ofDeclarations E statics inherited declarations n
  have hregular : Consists E.catalog.RegularProducer x :=
    consists_ofDeclarations (Catalog.closed_regularProducer hK hhost) hi
      (fun d hmem => (hd d hmem).1.producer (hd d hmem).2) n
  refine ⟨hx.open hE, fun p hp T B hconstraint => ?_⟩
  obtain ⟨s, m, hspreads⟩ := hx.spreads hK hE hregular hi hrules hp hconstraint
  exact ⟨s, hspreads.self, hspreads.isSubtype⟩

/-! ### Members of generic types -/

def modules : Environment where
  catalog := ⟨[
    ("Trigger", [{ flags := { tag := true } }]),
    ("Box", [{ typeParameters := [⟨"Box.E", 0⟩] }]),
    ("Box.E", [{ flags := { typeParameter := true } }]),
    ("Mod", [{ typeParameters := [⟨"Mod.E", 0⟩] }]),
    ("Mod.E", [{ flags := { typeParameter := true } }]),
    ("Wrap", [{ typeParameters := [⟨"Wrap.E", 0⟩] }]),
    ("Wrap.E", [{ flags := { typeParameter := true } }]),
    ("wrap.T", [{
      supertypes := some [{
        head := .named ⟨"Box", 0⟩
        arguments := [.of ⟨"Mod.E", 0⟩]
        tags := [.of ⟨"Trigger", 0⟩] }]
      flags := { typeParameter := true } }])]⟩
  host := HostTables.host {
    members := [("Mod", [{
      id := "Mod.wrap"
      ty := { head := .named ⟨"Wrap", 0⟩, arguments := [.of ⟨"Mod.E", 0⟩] }
      typeParameters := [⟨"wrap.T", 0⟩]
      parameters := [{ name := "instance", slot := .value 0, ty := .of ⟨"wrap.T", 0⟩ }]
      spreadParameter := some 0 }])] }

def mixed : List Declaration := [
  { id := "ints", ty := { head := .named ⟨"Mod", 0⟩, arguments := [.of ⟨"Int", 0⟩] } },
  { id := "strs", ty := {
      head := .named ⟨"Box", 0⟩
      arguments := [.of ⟨"Str", 0⟩]
      tags := [.of ⟨"Trigger", 0⟩] } }]

/-- The rule of the module of integers takes the box of strings all the same. The bound is not kept,
whether or not the parameter of the module in it gives way to the argument of the receiver. -/
theorem module_beyond_bound :
    ∃ p ∈ (ofDeclarations modules [] {} mixed 0).injectables, ∃ T B s receiver,
      p.declaration.spreadConstraint? modules.catalog = some (T, B) ∧
      p.typeArguments.get? T = some s ∧ modules.catalog.parametersIn s = [] ∧
      p.parameterType? .receiver = some receiver ∧
      modules.catalog.isSubtype s (B.substitute p.typeArguments) = false ∧
      modules.catalog.isSubtype s ((B.substitute p.typeArguments).substitute
        (modules.catalog.argumentsOf receiver)) = false := by
  have hbeyond : (ofDeclarations modules [] {} mixed 0).injectables.any (fun p =>
      (p.declaration.spreadConstraint? modules.catalog).any fun bound =>
        (p.typeArguments.get? bound.1).any fun s =>
          (p.parameterType? .receiver).any fun receiver =>
            (modules.catalog.parametersIn s).isEmpty &&
            !modules.catalog.isSubtype s (bound.2.substitute p.typeArguments) &&
            !modules.catalog.isSubtype s ((bound.2.substitute p.typeArguments).substitute
              (modules.catalog.argumentsOf receiver))) = true := by
    decide +kernel
  obtain ⟨p, hp, hbeyond⟩ := List.any_eq_true.1 hbeyond
  obtain ⟨⟨T, B⟩, hconstraint, hbeyond⟩ := (Option.any_eq_true _ _).1 hbeyond
  obtain ⟨s, hs, hbeyond⟩ := (Option.any_eq_true _ _).1 hbeyond
  obtain ⟨receiver, hreceiver, hbeyond⟩ := (Option.any_eq_true _ _).1 hbeyond
  simp only [Bool.and_eq_true, Bool.not_eq_true', List.isEmpty_iff] at hbeyond
  obtain ⟨⟨hclosed, hbare⟩, hmodule⟩ := hbeyond
  exact ⟨p, hp, T, B, s, receiver, hconstraint, hs, hclosed, hreceiver, hbare, hmodule⟩

end Expansion
end Wiring
