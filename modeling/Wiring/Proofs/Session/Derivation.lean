import Wiring.Proofs.Session.Expansion
import Wiring.Proofs.Types.Equality

/-!
A stack of producers is worked off from its top, and what a producer brings in goes on top of the
rest (`Collects`). Nothing counts steps there: a producer whose chain is too long is dropped, one that
has been seen is skipped, and that is why the stack runs empty.
-/
namespace Wiring

namespace Producer

variable {E : Environment} {K : Catalog} {statics : List Classifier}
  {p q rule candidate output : Producer}

def brought (E : Environment) (p : Producer) : List Producer :=
  ((E.catalog.liftedResult? p.ty).map p.lift).toList ++ p.members E

theorem chainLength_substitute (p : Producer) (m : Substitution) :
    (p.substitute m).chainLength = p.chainLength := by
  unfold substitute
  split <;> rfl

theorem declaration_substitute (p : Producer) (m : Substitution) :
    (p.substitute m).declaration = p.declaration := by
  unfold substitute
  split <;> rfl

theorem mem_members (h : q ∈ p.members E) : p.ty.nullable = false ∧
    E.catalog.isParameter p.ty = false ∧ ∃ d ∈ E.host.membersOf p.ty.classifier,
      d.isValid E.catalog = true ∧
      q = (((ofDeclaration d).substitute (E.catalog.argumentsOf p.ty)).withReceiver
        p.ty).derivedFrom p := by
  unfold members at h
  split at h
  · cases h
  · next hopen =>
    obtain ⟨hnullable, hparameter⟩ := not_or.1 (mt Bool.or_eq_true_iff.2 hopen)
    obtain ⟨d, hd, rfl⟩ := List.mem_map.1 h
    obtain ⟨hmem, hvalid⟩ := List.mem_filter.1 hd
    exact ⟨Bool.eq_false_iff.2 hnullable, Bool.eq_false_iff.2 hparameter, d, hmem, hvalid, rfl⟩

theorem mem_brought (h : q ∈ p.brought E) :
    (∃ result, E.catalog.liftedResult? p.ty = some result ∧ q = p.lift result) ∨
      q ∈ p.members E := by
  rcases List.mem_append.1 h with h | h
  · left
    obtain ⟨result, hresult, rfl⟩ := Option.map_eq_some_iff.1 (Option.mem_toList.1 h)
    exact ⟨result, hresult, rfl⟩
  · exact Or.inr h

/-- What is brought in is one step further. -/
theorem chainLength_brought (h : q ∈ p.brought E) : q.chainLength = p.chainLength + 1 := by
  rcases mem_brought h with ⟨result, _, rfl⟩ | h
  · rfl
  · obtain ⟨_, _, d, _, _, rfl⟩ := mem_members h
    rfl

/-- An output is one step further than the longer one of the two chains. -/
theorem chainLength_spread (h : rule.spread? K statics candidate = some output) :
    output.chainLength = max rule.chainLength candidate.chainLength + 1 := by
  obtain ⟨parameter, bound, m, _, _, rfl⟩ := of_spread h
  split
  · next hlt =>
    change (rule.substitute _).chainLength + 1 = _
    rw [chainLength_substitute, Nat.max_eq_left (Nat.le_of_lt hlt)]
  · next hle =>
    change candidate.chainLength + 1 = _
    rw [Nat.max_eq_right (Nat.le_of_not_lt hle)]

end Producer

namespace Expansion

variable {E : Environment} {statics : List Classifier} {inherited : Inherited}
  {declarations : List Declaration} {x y z : Expansion} {p q : Producer} {ps : List Producer}
  {n : Nat}

def keyed (x : Expansion) (p : Producer) : Producer :=
  p.withType (p.ty.withInstanceKey (some x.nextInstanceKey))

def setAside (x : Expansion) (p : Producer) : Expansion :=
  { x with spreading := x.spreading ++ [p], seen := p.identity :: x.seen }

def store (x : Expansion) (p : Producer) : Expansion :=
  { x with
    injectables := x.injectables ++ [x.keyed p]
    seen := p.identity :: x.seen
    nextInstanceKey := x.nextInstanceKey + 1 }

/-- Work off a stack of producers. -/
inductive Collects (E : Environment) : List Producer → Expansion → Expansion → Prop
  | done (x : Expansion) : Collects E [] x x
  | tooLong {p : Producer} {ps : List Producer} {x y : Expansion}
    (hchain : E.config.maxExpansionDepth < p.chainLength) (rest : Collects E ps x y) :
    Collects E (p :: ps) x y
  | again {p : Producer} {ps : List Producer} {x y : Expansion}
    (hchain : p.chainLength ≤ E.config.maxExpansionDepth)
    (hseen : x.seen.contains p.identity = true) (rest : Collects E ps x y) :
    Collects E (p :: ps) x y
  | rule {p : Producer} {ps : List Producer} {x y : Expansion}
    (hchain : p.chainLength ≤ E.config.maxExpansionDepth)
    (hseen : x.seen.contains p.identity = false) (hrule : p.isRule E.catalog = true)
    (rest : Collects E ps (x.setAside p) y) : Collects E (p :: ps) x y
  | injectable {p : Producer} {ps : List Producer} {x y : Expansion}
    (hchain : p.chainLength ≤ E.config.maxExpansionDepth)
    (hseen : x.seen.contains p.identity = false) (hrule : p.isRule E.catalog = false)
    (rest : Collects E ((x.keyed p).brought E ++ ps) (x.store p) y) : Collects E (p :: ps) x y

/-! ### The recursion and the stack -/

theorem collectWithin_succ (E : Environment) (steps : Nat) (p : Producer) (x : Expansion) :
    collectWithin E (steps + 1) p x =
      if x.seen.contains p.identity then x
      else if p.isRule E.catalog then x.setAside p
      else ((x.keyed p).brought E).foldl (fun x q => collectWithin E steps q x) (x.store p) := by
  rw [collectWithin]
  split
  · rfl
  · dsimp only
    split
    · rfl
    · -- the lifted result, if there is one, comes before the members
      rw [Producer.brought, List.foldl_append]
      congr 1
      split
      · next result h =>
        have hlifted : E.catalog.liftedResult? (x.keyed p).ty = some result := h
        rw [hlifted]
        rfl
      · next h =>
        have hlifted : E.catalog.liftedResult? (x.keyed p).ty = none := h
        rw [hlifted]
        rfl

/-- With as many steps as the chain of `p` leaves, the recursion works off what is on top. -/
theorem collects_collectWithin {steps : Nat}
    (hsteps : steps = E.config.maxExpansionDepth + 1 - p.chainLength)
    (rest : Collects E ps (collectWithin E steps p x) y) : Collects E (p :: ps) x y := by
  induction steps generalizing p ps x with
  | zero =>
    have hchain : E.config.maxExpansionDepth < p.chainLength := by omega
    exact .tooLong hchain rest
  | succ steps ih =>
    have hchain : p.chainLength ≤ E.config.maxExpansionDepth := by omega
    rw [collectWithin_succ] at rest
    split at rest
    · next hseen => exact .again hchain hseen rest
    · next hseen =>
      have hseen := Bool.eq_false_iff.2 hseen
      split at rest
      · next hrule => exact .rule hchain hseen hrule rest
      · next hrule =>
        refine .injectable hchain hseen (Bool.eq_false_iff.2 hrule) ?_
        have hbrought : ∀ q ∈ (x.keyed p).brought E,
            steps = E.config.maxExpansionDepth + 1 - q.chainLength := by
          intro q hq
          have hchain' := Producer.chainLength_brought hq
          change q.chainLength = p.chainLength + 1 at hchain'
          omega
        -- on what is brought in, each with the one step less
        revert rest hbrought
        generalize (x.keyed p).brought E = qs
        generalize x.store p = x'
        intro rest hbrought
        induction qs generalizing x' with
        | nil => exact rest
        | cons q qs ihq =>
          obtain ⟨hq, hbrought⟩ := List.forall_mem_cons.1 hbrought
          exact ih hq (ihq _ rest hbrought)

/-- Taking in producers one after the other works off the stack of them. -/
theorem collects_foldl (E : Environment) (ps : List Producer) (x : Expansion) :
    Collects E ps x (ps.foldl (collect E) x) := by
  induction ps generalizing x with
  | nil => exact .done x
  | cons p ps ih => exact collects_collectWithin rfl (ih (x.collect E p))

/-- A stack can be worked off in one way only. -/
theorem Collects.unique (hy : Collects E ps x y) (hz : Collects E ps x z) : y = z := by
  -- the five rules exclude one another: too long, seen before, or by what the producer is
  induction hy with
  | done x =>
    cases hz
    rfl
  | tooLong hchain _ ih =>
    cases hz with
    | tooLong _ rest => exact ih rest
    | again hchain' | rule hchain' | injectable hchain' => omega
  | again hchain hseen _ ih =>
    cases hz with
    | tooLong hchain' => omega
    | again _ _ rest => exact ih rest
    | rule _ hseen' | injectable _ hseen' => simp [hseen] at hseen'
  | rule hchain hseen hrule _ ih =>
    cases hz with
    | tooLong hchain' => omega
    | again _ hseen' => simp [hseen] at hseen'
    | rule _ _ _ rest => exact ih rest
    | injectable _ _ hrule' => simp [hrule] at hrule'
  | injectable hchain hseen hrule _ ih =>
    cases hz with
    | tooLong hchain' => omega
    | again _ hseen' => simp [hseen] at hseen'
    | rule _ _ hrule' => simp [hrule] at hrule'
    | injectable _ _ _ rest => exact ih rest

/-! ### Origins -/

/-- Where a producer comes from that may be taken in, and how many steps from a declaration it is. -/
inductive Origin (E : Environment) (statics : List Classifier) (inherited : Inherited)
    (declarations : List Declaration) (x : Expansion) : Producer → Nat → Prop
  | given {d : Declaration} (hd : d ∈ declarations) :
    Origin E statics inherited declarations x (.ofDeclaration d) 0
  | lifted {parent : Producer} {result : Ty} (hparent : parent ∈ x.injectables)
    (hresult : E.catalog.liftedResult? parent.ty = some result) :
    Origin E statics inherited declarations x (parent.lift result) (parent.chainLength + 1)
  | member {parent : Producer} {d : Declaration} (hparent : parent ∈ x.injectables)
    (hnullable : parent.ty.nullable = false)
    (hparameter : E.catalog.isParameter parent.ty = false)
    (hd : d ∈ E.host.membersOf parent.ty.classifier) (hvalid : d.isValid E.catalog = true) :
    Origin E statics inherited declarations x
      ((((Producer.ofDeclaration d).substitute (E.catalog.argumentsOf parent.ty)).withReceiver
        parent.ty).derivedFrom parent)
      (parent.chainLength + 1)
  | spread {rule candidate output : Producer}
    (hrule : rule ∈ x.spreading ∨ rule ∈ inherited.rules)
    (hcandidate : candidate ∈ x.injectables ∨ candidate ∈ inherited.candidates)
    (houtput : rule.spread? E.catalog statics candidate = some output) :
    Origin E statics inherited declarations x output
      (max rule.chainLength candidate.chainLength + 1)

structure Grows (x y : Expansion) : Prop where
  -- All that is stored stays stored.
  injectables : x.injectables ⊆ y.injectables
  spreading : x.spreading ⊆ y.spreading

theorem grows_setAside (x : Expansion) (p : Producer) : Grows x (x.setAside p) :=
  ⟨fun _ hq => hq, List.subset_append_left ..⟩

theorem grows_store (x : Expansion) (p : Producer) : Grows x (x.store p) :=
  ⟨List.subset_append_left .., fun _ hq => hq⟩

theorem Origin.mono (h : Origin E statics inherited declarations x p n) (hxy : Grows x y) :
    Origin E statics inherited declarations y p n := by
  cases h with
  | given hd => exact .given hd
  | lifted hparent hresult => exact .lifted (hxy.injectables hparent) hresult
  | member hparent hnullable hparameter hd hvalid =>
    exact .member (hxy.injectables hparent) hnullable hparameter hd hvalid
  | spread hrule hcandidate houtput =>
    exact .spread (hrule.imp_left fun hr => hxy.spreading hr)
      (hcandidate.imp_left fun hc => hxy.injectables hc) houtput

/-- What a stored producer brings in has it as its origin. -/
theorem origin_brought (hp : p ∈ x.injectables) (hq : q ∈ p.brought E) :
    Origin E statics inherited declarations x q q.chainLength := by
  rw [Producer.chainLength_brought hq]
  rcases Producer.mem_brought hq with ⟨result, hresult, rfl⟩ | hq
  · exact .lifted hp hresult
  · obtain ⟨hnullable, hparameter, d, hd, hvalid, rfl⟩ := Producer.mem_members hq
    exact .member hp hnullable hparameter hd hvalid

structure Traced (E : Environment) (statics : List Classifier) (inherited : Inherited)
    (declarations : List Declaration) (waiting : List Producer) (x : Expansion) : Prop where
  -- All that is stored has an origin and is near enough to the declarations, and no two injectables
  -- have one identity. The producers that wait have an origin too.
  waiting : ∀ p ∈ waiting, Origin E statics inherited declarations x p p.chainLength
  injectables : ∀ p ∈ x.injectables, p.chainLength ≤ E.config.maxExpansionDepth ∧
    ∃ q key, p = q.withType (q.ty.withInstanceKey (some key)) ∧
      Origin E statics inherited declarations x q p.chainLength
  rules : ∀ p ∈ x.spreading, p.chainLength ≤ E.config.maxExpansionDepth ∧
    Origin E statics inherited declarations x p p.chainLength
  seen : ∀ p ∈ x.injectables, x.seen.contains p.identity = true
  distinct : x.injectables.Pairwise fun p q => (p.identity == q.identity) = false

namespace Traced

theorem skip (h : Traced E statics inherited declarations (p :: ps) x) :
    Traced E statics inherited declarations ps x :=
  { h with waiting := fun q hq => h.waiting q (List.mem_cons_of_mem p hq) }

/-- What is stored stays traced while the expansion grows. -/
theorem injectables_mono (h : Traced E statics inherited declarations ps x) (hxy : Grows x y) :
    ∀ p ∈ x.injectables, p.chainLength ≤ E.config.maxExpansionDepth ∧
      ∃ q key, p = q.withType (q.ty.withInstanceKey (some key)) ∧
        Origin E statics inherited declarations y q p.chainLength := by
  intro p hp
  obtain ⟨hchain, q, key, hpq, horigin⟩ := h.injectables p hp
  exact ⟨hchain, q, key, hpq, horigin.mono hxy⟩

theorem rules_mono (h : Traced E statics inherited declarations ps x) (hxy : Grows x y) :
    ∀ p ∈ x.spreading, p.chainLength ≤ E.config.maxExpansionDepth ∧
      Origin E statics inherited declarations y p p.chainLength :=
  fun p hp => (h.rules p hp).imp_right fun horigin => horigin.mono hxy

theorem setAside (h : Traced E statics inherited declarations (p :: ps) x)
    (hchain : p.chainLength ≤ E.config.maxExpansionDepth) :
    Traced E statics inherited declarations ps (x.setAside p) := by
  have hgrows := grows_setAside x p
  have hp := (h.waiting p (List.mem_cons_self ..)).mono hgrows
  constructor
  · exact fun q hq => (h.waiting q (List.mem_cons_of_mem p hq)).mono hgrows
  · exact h.injectables_mono hgrows
  · exact List.forall_mem_append.2
      ⟨h.rules_mono hgrows, List.forall_mem_singleton.2 ⟨hchain, hp⟩⟩
  · intro q hq
    exact List.contains_cons.trans (Bool.or_eq_true_iff.2 (Or.inr (h.seen q hq)))
  · exact h.distinct

theorem store (h : Traced E statics inherited declarations (p :: ps) x)
    (hchain : p.chainLength ≤ E.config.maxExpansionDepth)
    (hseen : x.seen.contains p.identity = false) :
    Traced E statics inherited declarations ((x.keyed p).brought E ++ ps) (x.store p) := by
  have hgrows := grows_store x p
  have hstored : x.keyed p ∈ (x.store p).injectables :=
    List.mem_append_right _ (List.mem_singleton_self _)
  have hp := (h.waiting p (List.mem_cons_self ..)).mono hgrows
  constructor
  · refine List.forall_mem_append.2 ⟨fun q hq => origin_brought hstored hq, ?_⟩
    exact fun q hq => (h.waiting q (List.mem_cons_of_mem p hq)).mono hgrows
  · have hown : (x.keyed p).chainLength ≤ E.config.maxExpansionDepth ∧
        ∃ q key, x.keyed p = q.withType (q.ty.withInstanceKey (some key)) ∧
          Origin E statics inherited declarations (x.store p) q (x.keyed p).chainLength :=
      ⟨hchain, p, x.nextInstanceKey, rfl, hp⟩
    exact List.forall_mem_append.2
      ⟨h.injectables_mono hgrows, List.forall_mem_singleton.2 hown⟩
  · exact h.rules_mono hgrows
  · refine List.forall_mem_append.2 ⟨fun q hq => ?_, List.forall_mem_singleton.2 ?_⟩
    · exact List.contains_cons.trans (Bool.or_eq_true_iff.2 (Or.inr (h.seen q hq)))
    · exact List.contains_cons.trans (Bool.or_eq_true_iff.2 (Or.inl BEq.rfl))
  · -- what is stored has been seen, and `p` has not
    refine List.pairwise_append.2 ⟨h.distinct, List.pairwise_singleton _ _, ?_⟩
    intro q hq r hr
    rw [List.mem_singleton.1 hr]
    cases hqp : q.identity == p.identity with
    | false => exact hqp
    | true =>
      have hcontains := h.seen q hq
      rw [List.contains_congr hqp, hseen] at hcontains
      cases hcontains

end Traced

/-- Working off a stack of traced producers leaves all that is stored traced. -/
theorem Collects.traced (h : Collects E ps x y)
    (hx : Traced E statics inherited declarations ps x) :
    Traced E statics inherited declarations [] y := by
  induction h with
  | done x => exact hx
  | tooLong _ _ ih | again _ _ _ ih => exact ih hx.skip
  | rule hchain _ _ _ ih => exact ih (hx.setAside hchain)
  | injectable hchain hseen _ _ ih => exact ih (hx.store hchain hseen)

/-! ### Instance keys -/

structure Numbered (n : Nat) (x : Expansion) : Prop where
  -- The injectables have keys of their own, from `n` on and below the next key.
  le : n ≤ x.nextInstanceKey
  injectables : ∀ p ∈ x.injectables, ∃ key, p.ty.instanceKey = some key ∧
    n ≤ key ∧ key < x.nextInstanceKey
  distinct : x.injectables.Pairwise fun p q => p.ty.instanceKey ≠ q.ty.instanceKey

theorem Numbered.store (h : Numbered n x) (p : Producer) : Numbered n (x.store p) := by
  have hnext : (x.store p).nextInstanceKey = x.nextInstanceKey + 1 := rfl
  constructor
  · exact Nat.le_succ_of_le h.le
  · refine List.forall_mem_append.2 ⟨fun q hq => ?_, List.forall_mem_singleton.2 ?_⟩
    · obtain ⟨key, hkey, hle, hlt⟩ := h.injectables q hq
      exact ⟨key, hkey, hle, by omega⟩
    · exact ⟨x.nextInstanceKey, rfl, h.le, by omega⟩
  · refine List.pairwise_append.2 ⟨h.distinct, List.pairwise_singleton _ _, ?_⟩
    intro q hq r hr
    obtain ⟨key, hkey, _, hlt⟩ := h.injectables q hq
    rw [List.mem_singleton.1 hr, hkey]
    exact fun he => Nat.ne_of_lt hlt (Option.some.inj he)

theorem Collects.numbered (h : Collects E ps x y) (hx : Numbered n x) : Numbered n y := by
  induction h with
  | done x => exact hx
  | tooLong _ _ ih | again _ _ _ ih => exact ih hx
  | rule _ _ _ _ ih => exact ih ⟨hx.le, hx.injectables, hx.distinct⟩
  | injectable _ _ _ _ ih => exact ih (hx.store _)

end Expansion
end Wiring
