import Wiring.Proofs.Session.Derivation

/-!
The rounds come to an end because each new output is at least as many steps away from the declarations
as there were rounds.
-/
namespace Wiring.Expansion

variable {E : Environment} {statics : List Classifier} {inherited : Inherited}
  {declarations : List Declaration} {x y z : Expansion} {ps outputs : List Producer}
  {pair : Producer × Producer} {n : Nat}

/-! ### One round -/

def useOf (pair : Producer × Producer) : String × Substitution × Ty :=
  (pair.1.id, pair.1.typeArguments, pair.2.ty)

def outputOf (E : Environment) (statics : List Classifier) (pair : Producer × Producer) :
    Option Producer :=
  pair.1.spread? E.catalog statics pair.2

def round (E : Environment) (statics : List Classifier) (inherited : Inherited) (x : Expansion) :
    List Producer × Expansion :=
  (x.pairs inherited).foldl (apply E.catalog statics) ([], x)

theorem mem_pairs : pair ∈ x.pairs inherited ↔
    pair.1 ∈ x.spreading ∧ (pair.2 ∈ inherited.candidates ∨ pair.2 ∈ x.injectables) ∨
      pair.1 ∈ inherited.rules ∧ pair.2 ∈ x.injectables := by
  obtain ⟨rule, candidate⟩ := pair
  simp only [pairs, List.mem_append, List.mem_flatMap, List.mem_map, Prod.mk.injEq]
  constructor
  · rintro (⟨_, hrule, _, hcandidate, rfl, rfl⟩ | ⟨_, hrule, _, hcandidate, rfl, rfl⟩)
    · exact Or.inl ⟨hrule, hcandidate⟩
    · exact Or.inr ⟨hrule, hcandidate⟩
  · rintro (⟨hrule, hcandidate⟩ | ⟨hrule, hcandidate⟩)
    · exact Or.inl ⟨rule, hrule, candidate, hcandidate, rfl, rfl⟩
    · exact Or.inr ⟨rule, hrule, candidate, hcandidate, rfl, rfl⟩

theorem mem_pairs_mono (h : pair ∈ x.pairs inherited) (hxy : Grows x y) :
    pair ∈ y.pairs inherited := by
  rw [mem_pairs] at h ⊢
  rcases h with ⟨hrule, hcandidate⟩ | ⟨hrule, hcandidate⟩
  · have hcandidate' := hcandidate.imp_right fun hc => hxy.injectables hc
    exact Or.inl ⟨hxy.spreading hrule, hcandidate'⟩
  · exact Or.inr ⟨hrule, hxy.injectables hcandidate⟩

/-- A pair that counts as tried changes nothing. -/
theorem apply_of_processed (h : y.processed.contains (useOf pair) = true) :
    apply E.catalog statics (outputs, y) pair = (outputs, y) :=
  if_pos h

theorem apply_of_not_processed (h : y.processed.contains (useOf pair) = false) :
    apply E.catalog statics (outputs, y) pair =
      (outputs ++ (outputOf E statics pair).toList,
        { y with processed := useOf pair :: y.processed }) := by
  refine (if_neg (ne_true_of_eq_false h)).trans ?_
  split
  · next output h =>
    have houtput : outputOf E statics pair = some output := h
    rw [houtput]
    rfl
  · next h =>
    have houtput : outputOf E statics pair = none := h
    rw [houtput]
    exact congrArg (·, _) (List.append_nil outputs).symm

structure Tried (E : Environment) (statics : List Classifier) (x : Expansion)
    (tried : List (Producer × Producer)) (outputs : List Producer) (y : Expansion) : Prop where
  -- What has become of `x` when some pairs have been tried: only the uses of rules are added, one
  -- for each of these pairs, and the outputs are those of the pairs that have not been tried
  -- before.
  injectables : y.injectables = x.injectables
  spreading : y.spreading = x.spreading
  seen : y.seen = x.seen
  nextInstanceKey : y.nextInstanceKey = x.nextInstanceKey
  kept : ∀ use, x.processed.contains use = true → y.processed.contains use = true
  all : ∀ pair ∈ tried, y.processed.contains (useOf pair) = true
  fresh : ∀ output ∈ outputs, ∃ pair ∈ tried, x.processed.contains (useOf pair) = false ∧
    outputOf E statics pair = some output
  answered : ∀ use ∈ y.processed, use ∈ x.processed ∨ ∃ pair ∈ tried, useOf pair = use ∧
    ∀ output, outputOf E statics pair = some output → output ∈ outputs

namespace Tried

theorem grows {tried : List (Producer × Producer)} (h : Tried E statics x tried outputs y) :
    Grows x y :=
  ⟨fun _ hp => h.injectables.symm ▸ hp, fun _ hp => h.spreading.symm ▸ hp⟩

section Step

variable {tried : List (Producer × Producer)}

/-- One more pair is tried that counts as tried already. -/
theorem skip (h : Tried E statics x tried outputs y)
    (hdone : y.processed.contains (useOf pair) = true) :
    Tried E statics x (tried ++ [pair]) outputs y := by
  have hleft : ∀ p ∈ tried, p ∈ tried ++ [pair] := fun p hp => List.mem_append_left _ hp
  refine { h with
    all := List.forall_mem_append.2 ⟨h.all, List.forall_mem_singleton.2 hdone⟩
    fresh := fun output ho => ?_
    answered := fun use hu => (h.answered use hu).imp_right ?_ }
  · obtain ⟨p, hp, hnew⟩ := h.fresh output ho
    exact ⟨p, hleft p hp, hnew⟩
  · rintro ⟨p, hp, hanswer⟩
    exact ⟨p, hleft p hp, hanswer⟩

/-- One more pair is tried for the first time. -/
theorem add (h : Tried E statics x tried outputs y)
    (hnew : y.processed.contains (useOf pair) = false) :
    Tried E statics x (tried ++ [pair]) (outputs ++ (outputOf E statics pair).toList)
      { y with processed := useOf pair :: y.processed } := by
  have hleft : ∀ p ∈ tried, p ∈ tried ++ [pair] := fun p hp => List.mem_append_left _ hp
  have hlast : pair ∈ tried ++ [pair] := List.mem_append_right _ (List.mem_singleton_self _)
  have hadd : ∀ use, y.processed.contains use = true →
      (useOf pair :: y.processed).contains use = true := by
    intro use hu
    rw [List.contains_cons, hu, Bool.or_true]
  have hself : (useOf pair :: y.processed).contains (useOf pair) = true := by
    rw [List.contains_cons, BEq.rfl, Bool.true_or]
  have hbefore : x.processed.contains (useOf pair) = false := by
    cases hx : x.processed.contains (useOf pair) with
    | false => rfl
    | true => exact (h.kept _ hx).symm.trans hnew
  -- the use is new: the last three parts say what it adds to uses, outputs and answers
  refine ⟨h.injectables, h.spreading, h.seen, h.nextInstanceKey,
    fun use hu => hadd use (h.kept use hu), ?_, ?_, ?_⟩
  · exact List.forall_mem_append.2
      ⟨fun p hp => hadd _ (h.all p hp), List.forall_mem_singleton.2 hself⟩
  · refine List.forall_mem_append.2 ⟨fun output ho => ?_, fun output ho => ?_⟩
    · obtain ⟨p, hp, hfresh⟩ := h.fresh output ho
      exact ⟨p, hleft p hp, hfresh⟩
    · exact ⟨pair, hlast, hbefore, Option.mem_toList.1 ho⟩
  · refine List.forall_mem_cons.2 ⟨Or.inr ⟨pair, hlast, rfl, fun output ho => ?_⟩, ?_⟩
    · exact List.mem_append_right _ (Option.mem_toList.2 ho)
    · intro use hu
      refine (h.answered use hu).imp_right ?_
      rintro ⟨p, hp, huse, hanswer⟩
      exact ⟨p, hleft p hp, huse, fun o ho => List.mem_append_left _ (hanswer o ho)⟩

/-- One more pair is tried. -/
theorem step (h : Tried E statics x tried outputs y) (pair : Producer × Producer) :
    Tried E statics x (tried ++ [pair]) (apply E.catalog statics (outputs, y) pair).1
      (apply E.catalog statics (outputs, y) pair).2 := by
  cases hdone : y.processed.contains (useOf pair) with
  | true =>
    rw [apply_of_processed hdone]
    exact h.skip hdone
  | false =>
    rw [apply_of_not_processed hdone]
    exact h.add hdone

end Step

theorem foldl (pairs : List (Producer × Producer)) {tried : List (Producer × Producer)}
    (h : Tried E statics x tried outputs y) : Tried E statics x (tried ++ pairs)
      (pairs.foldl (apply E.catalog statics) (outputs, y)).1
      (pairs.foldl (apply E.catalog statics) (outputs, y)).2 := by
  induction pairs generalizing tried outputs y with
  | nil => rwa [List.append_nil]
  | cons pair pairs ih =>
    rw [List.append_cons]
    exact ih (h.step pair)

end Tried

theorem tried_round (E : Environment) (statics : List Classifier) (inherited : Inherited)
    (x : Expansion) : Tried E statics x (x.pairs inherited) (x.round E statics inherited).1
      (x.round E statics inherited).2 := by
  have hnone : Tried E statics x [] [] x :=
    ⟨rfl, rfl, rfl, rfl, fun _ hu => hu, List.forall_mem_nil _, List.forall_mem_nil _,
      fun _ hu => Or.inl hu⟩
  exact hnone.foldl (x.pairs inherited)

/-! ### All rounds -/

inductive Saturates (E : Environment) (statics : List Classifier) (inherited : Inherited) :
    Expansion → Expansion → Prop
  -- Rounds, until one has no output.
  | last {x : Expansion} (hnone : (x.round E statics inherited).1 = []) :
    Saturates E statics inherited x (x.round E statics inherited).2
  | next {x y z : Expansion} (hsome : (x.round E statics inherited).1 ≠ [])
    (hcollects : Collects E (x.round E statics inherited).1 (x.round E statics inherited).2 y)
    (rest : Saturates E statics inherited y z) : Saturates E statics inherited x z

/-- The whole expansion: the declarations are taken in, then come the rounds. -/
def Expands (E : Environment) (statics : List Classifier) (inherited : Inherited)
    (declarations : List Declaration) (n : Nat) (y : Expansion) : Prop :=
  ∃ x, Collects E (declarations.map .ofDeclaration) { nextInstanceKey := n } x ∧
    Saturates E statics inherited x y

/-- What a round makes true of its outputs and collecting them keeps holds at the end. -/
theorem Saturates.preserves {I : List Producer → Expansion → Prop}
    (h : Saturates E statics inherited x y)
    (hround : ∀ x, I [] x → I (x.round E statics inherited).1 (x.round E statics inherited).2)
    (hcollects : ∀ ps x y, Collects E ps x y → I ps x → I [] y) (hx : I [] x) : I [] y := by
  induction h with
  | last hnone =>
    have hlast := hround _ hx
    rwa [hnone] at hlast
  | next _ hc _ ih => exact ih (hcollects _ _ _ hc (hround _ hx))

theorem Saturates.unique (hy : Saturates E statics inherited x y)
    (hz : Saturates E statics inherited x z) : y = z := by
  induction hy with
  | last hnone =>
    cases hz with
    | last _ => rfl
    | next hsome => exact absurd hnone hsome
  | next hsome hc _ ih =>
    cases hz with
    | last hnone => exact absurd hnone hsome
    | next _ hc' rest =>
      rw [hc'.unique hc] at rest
      exact ih rest

/-- In the end all pairs have been tried. -/
theorem Saturates.exhausted (h : Saturates E statics inherited x y) :
    ∀ pair ∈ y.pairs inherited, y.processed.contains (useOf pair) = true := by
  induction h with
  | @last x _ =>
    intro pair hpair
    have htried := tried_round E statics inherited x
    -- the last round has stored nothing, so the pairs are the ones that it tried
    rw [pairs, htried.injectables, htried.spreading] at hpair
    exact htried.all pair hpair
  | next _ _ _ ih => exact ih

/-! ### The rounds come to an end -/

/-- Working off a stack of producers that are far away stores no others, and it tries no rule. -/
theorem Collects.far (h : Collects E ps x y) (hps : ∀ p ∈ ps, n ≤ p.chainLength) :
    (∀ p ∈ y.injectables, p ∈ x.injectables ∨ n ≤ p.chainLength) ∧
      (∀ p ∈ y.spreading, p ∈ x.spreading ∨ n ≤ p.chainLength) ∧ y.processed = x.processed := by
  induction h with
  | done x => exact ⟨fun p hp => Or.inl hp, fun p hp => Or.inl hp, rfl⟩
  | tooLong _ _ ih | again _ _ _ ih => exact ih (List.forall_mem_cons.1 hps).2
  | @rule p ps x y _ _ _ _ ih =>
    obtain ⟨hp, hps⟩ := List.forall_mem_cons.1 hps
    obtain ⟨hinjectables, hspreading, hprocessed⟩ := ih hps
    refine ⟨hinjectables, fun q hq => ?_, hprocessed⟩
    rcases hspreading q hq with hq | hq
    · rcases List.mem_append.1 hq with hq | hq
      · exact Or.inl hq
      · exact Or.inr (List.mem_singleton.1 hq ▸ hp)
    · exact Or.inr hq
  | @injectable p ps x y _ _ _ _ ih =>
    obtain ⟨hp, hps⟩ := List.forall_mem_cons.1 hps
    have hkeyed : n ≤ (x.keyed p).chainLength := hp
    have hbrought : ∀ q ∈ (x.keyed p).brought E, n ≤ q.chainLength := by
      intro q hq
      have hchain := Producer.chainLength_brought hq
      omega
    obtain ⟨hinjectables, hspreading, hprocessed⟩ :=
      ih (List.forall_mem_append.2 ⟨hbrought, hps⟩)
    refine ⟨fun q hq => ?_, hspreading, hprocessed⟩
    rcases hinjectables q hq with hq | hq
    · rcases List.mem_append.1 hq with hq | hq
      · exact Or.inl hq
      · exact Or.inr (List.mem_singleton.1 hq ▸ hkeyed)
    · exact Or.inr hq

def UntriedFrom (inherited : Inherited) (n : Nat) (x : Expansion) : Prop :=
  ∀ pair ∈ x.pairs inherited, x.processed.contains (useOf pair) = false →
    (pair.1 ∈ x.spreading ∧ n ≤ pair.1.chainLength) ∨
      (pair.2 ∈ x.injectables ∧ n ≤ pair.2.chainLength)

theorem untriedFrom_zero (inherited : Inherited) (x : Expansion) : UntriedFrom inherited 0 x := by
  intro pair hpair _
  rcases mem_pairs.1 hpair with ⟨hrule, _⟩ | ⟨_, hcandidate⟩
  · exact Or.inl ⟨hrule, Nat.zero_le _⟩
  · exact Or.inr ⟨hcandidate, Nat.zero_le _⟩

/-- The outputs of a round are further away than the pairs that it tried. -/
theorem UntriedFrom.far (h : UntriedFrom inherited n x) :
    ∀ output ∈ (x.round E statics inherited).1, n + 1 ≤ output.chainLength := by
  intro output ho
  obtain ⟨pair, hpair, huntried, houtput⟩ := (tried_round E statics inherited x).fresh output ho
  have hchain : output.chainLength = max pair.1.chainLength pair.2.chainLength + 1 :=
    Producer.chainLength_spread houtput
  rcases h pair hpair huntried with ⟨_, hfar⟩ | ⟨_, hfar⟩ <;> omega

/-- After a round and the collection of its outputs, what is left to try is one step further. -/
theorem UntriedFrom.next (h : UntriedFrom inherited n x)
    (hcollects : Collects E (x.round E statics inherited).1 (x.round E statics inherited).2 y) :
    UntriedFrom inherited (n + 1) y := by
  have htried := tried_round E statics inherited x
  obtain ⟨hinjectables, hspreading, hprocessed⟩ := hcollects.far h.far
  rw [htried.injectables] at hinjectables
  rw [htried.spreading] at hspreading
  intro pair hpair huntried
  rw [hprocessed] at huntried
  -- a pair of producers that were there before the round has been tried in it
  have hnew : pair ∉ x.pairs inherited := by
    intro hold
    rw [htried.all pair hold] at huntried
    cases huntried
  rw [mem_pairs] at hpair hnew
  rcases hpair with ⟨hrule, hcandidate⟩ | ⟨hrule, hcandidate⟩
  · rcases hspreading _ hrule with hold | hfar
    · have hcandidate : pair.2 ∈ y.injectables :=
        hcandidate.resolve_left fun hc => hnew (Or.inl ⟨hold, Or.inl hc⟩)
      rcases hinjectables _ hcandidate with hc | hfar
      · exact absurd (Or.inl ⟨hold, Or.inr hc⟩) hnew
      · exact Or.inr ⟨hcandidate, hfar⟩
    · exact Or.inl ⟨hrule, hfar⟩
  · rcases hinjectables _ hcandidate with hc | hfar
    · exact absurd (Or.inr ⟨hrule, hc⟩) hnew
    · exact Or.inr ⟨hcandidate, hfar⟩

/-- A round keeps what is stored traced, and its outputs have an origin. -/
theorem Traced.round (h : Traced E statics inherited declarations [] x) :
    Traced E statics inherited declarations (x.round E statics inherited).1
      (x.round E statics inherited).2 := by
  have htried := tried_round E statics inherited x
  have hgrows := htried.grows
  constructor
  · intro output ho
    obtain ⟨pair, hpair, _, houtput⟩ := htried.fresh output ho
    rw [Producer.chainLength_spread houtput]
    rcases mem_pairs.1 hpair with ⟨hrule, hcandidate⟩ | ⟨hrule, hcandidate⟩
    · exact (Origin.spread (Or.inl hrule) hcandidate.symm houtput).mono hgrows
    · exact (Origin.spread (Or.inr hrule) (Or.inl hcandidate) houtput).mono hgrows
  · rw [htried.injectables]
    exact h.injectables_mono hgrows
  · rw [htried.spreading]
    exact h.rules_mono hgrows
  · rw [htried.injectables, htried.seen]
    exact h.seen
  · rw [htried.injectables]
    exact h.distinct

/-- When `n` rounds have passed, the rounds that are left suffice. -/
theorem saturates_saturate (hx : Traced E statics inherited declarations [] x)
    (huntried : UntriedFrom inherited n x) {rounds : Nat}
    (hrounds : n + rounds = E.config.maxExpansionDepth + 1) :
    Saturates E statics inherited x (saturate E statics inherited (rounds + 1) x) := by
  induction rounds generalizing n x with
  | zero =>
    -- nothing that is stored is as far away as an untried pair would have to be
    have hnone : (x.round E statics inherited).1 = [] := by
      apply List.eq_nil_iff_forall_not_mem.2
      intro output ho
      obtain ⟨pair, hpair, hfalse, _⟩ := (tried_round E statics inherited x).fresh output ho
      rcases huntried pair hpair hfalse with ⟨hrule, hfar⟩ | ⟨hcandidate, hfar⟩
      · have hnear := (hx.rules _ hrule).1
        omega
      · have hnear := (hx.injectables _ hcandidate).1
        omega
    have hstop : saturate E statics inherited 1 x = (x.round E statics inherited).2 :=
      if_pos (List.isEmpty_iff.2 hnone)
    rw [hstop]
    exact .last hnone
  | succ rounds ih =>
    by_cases hnone : (x.round E statics inherited).1 = []
    · have hstop : saturate E statics inherited (rounds + 2) x =
          (x.round E statics inherited).2 :=
        if_pos (List.isEmpty_iff.2 hnone)
      rw [hstop]
      exact .last hnone
    · have hgoOn : saturate E statics inherited (rounds + 2) x =
          saturate E statics inherited (rounds + 1)
            ((x.round E statics inherited).1.foldl (collect E)
              (x.round E statics inherited).2) :=
        if_neg fun hempty => hnone (List.isEmpty_iff.1 hempty)
      have hcollects := collects_foldl E (x.round E statics inherited).1
        (x.round E statics inherited).2
      rw [hgoOn]
      refine .next hnone hcollects (ih (hcollects.traced hx.round) (huntried.next hcollects) ?_)
      omega

theorem traced_declarations (E : Environment) (statics : List Classifier) (inherited : Inherited)
    (declarations : List Declaration) (n : Nat) : Traced E statics inherited declarations
      (declarations.map .ofDeclaration) { nextInstanceKey := n } where
  waiting := List.forall_mem_map.2 fun _ hd => .given hd
  injectables := List.forall_mem_nil _
  rules := List.forall_mem_nil _
  seen := List.forall_mem_nil _
  distinct := .nil

theorem expands_ofDeclarations (E : Environment) (statics : List Classifier)
    (inherited : Inherited) (declarations : List Declaration) (n : Nat) :
    Expands E statics inherited declarations n
      (ofDeclarations E statics inherited declarations n) := by
  have hcollects := collects_foldl E (declarations.map .ofDeclaration) { nextInstanceKey := n }
  have htraced := hcollects.traced (traced_declarations E statics inherited declarations n)
  exact ⟨_, hcollects, saturates_saturate htraced (untriedFrom_zero inherited _) (Nat.zero_add _)⟩

theorem Expands.traced (h : Expands E statics inherited declarations n y) :
    Traced E statics inherited declarations [] y := by
  obtain ⟨x, hcollects, hsaturates⟩ := h
  have hx := hcollects.traced (traced_declarations E statics inherited declarations n)
  exact hsaturates.preserves (fun _ hx => hx.round) (fun _ _ _ hc hx => hc.traced hx) hx

theorem Expands.numbered (h : Expands E statics inherited declarations n y) : Numbered n y := by
  obtain ⟨x, hcollects, hsaturates⟩ := h
  have hx : Numbered n x :=
    hcollects.numbered ⟨Nat.le_refl n, List.forall_mem_nil _, .nil⟩
  refine hsaturates.preserves (I := fun _ => Numbered n) (fun x hx => ?_)
    (fun _ _ _ hc hx => hc.numbered hx) hx
  have htried := tried_round E statics inherited x
  constructor
  · rw [htried.nextInstanceKey]
    exact hx.le
  · rw [htried.injectables, htried.nextInstanceKey]
    exact hx.injectables
  · rw [htried.injectables]
    exact hx.distinct

/-! ### Declarations that bring nothing along -/

structure Alone (E : Environment) (q : Producer) : Prop where
  -- The producer is no rule and brings nothing along.
  chain : q.chainLength ≤ E.config.maxExpansionDepth
  rule : q.isRule E.catalog = false
  brought : ∀ key, (q.withType (q.ty.withInstanceKey key)).brought E = []

def StoredAs (q p : Producer) : Prop :=
  ∃ key, q = p.withType (p.ty.withInstanceKey key)

/-- Different producers that bring nothing along are stored one after the other. -/
theorem Collects.alone (h : Collects E ps x y) (halone : ∀ p ∈ ps, Alone E p)
    (hdistinct : ps.Pairwise fun p q => (q.identity == p.identity) = false)
    (hnew : ∀ p ∈ ps, x.seen.contains p.identity = false) :
    y.spreading = x.spreading ∧ ∃ stored, y.injectables = x.injectables ++ stored ∧
      List.Forall₂ StoredAs stored ps := by
  -- each is stored in turn: none is too long, seen before or a rule
  induction h with
  | done x => exact ⟨rfl, [], (List.append_nil _).symm, .nil⟩
  | tooLong hchain =>
    exact absurd (halone _ (List.mem_cons_self ..)).chain (Nat.not_le.2 hchain)
  | again _ hseen =>
    rw [hnew _ (List.mem_cons_self ..)] at hseen
    cases hseen
  | rule _ _ hrule =>
    rw [(halone _ (List.mem_cons_self ..)).rule] at hrule
    cases hrule
  | @injectable p ps x y _ _ _ _ ih =>
    obtain ⟨hp, hps⟩ := List.forall_mem_cons.1 halone
    obtain ⟨hfirst, hrest⟩ := List.pairwise_cons.1 hdistinct
    have hbrought : (x.keyed p).brought E = [] := hp.brought _
    rw [hbrought, List.nil_append] at ih
    have hnew' : ∀ q ∈ ps, (x.store p).seen.contains q.identity = false := by
      intro q hq
      have hseen : (x.store p).seen = p.identity :: x.seen := rfl
      rw [hseen, List.contains_cons, hfirst q hq, hnew q (List.mem_cons_of_mem _ hq)]
      rfl
    obtain ⟨hspreading, stored, hinjectables, hstored⟩ := ih hps hrest hnew'
    refine ⟨hspreading, x.keyed p :: stored, ?_, .cons ⟨_, rfl⟩ hstored⟩
    rw [hinjectables]
    exact List.append_assoc ..

/-- Nothing is added to what has been taken in if there are no rules. -/
theorem Saturates.of_no_rules (h : Saturates E statics inherited x y)
    (hrules : inherited.rules = []) (hx : x.spreading = []) : y = x := by
  have hpairs : x.pairs inherited = [] := by
    rw [pairs, hrules, hx]
    rfl
  have hround : x.round E statics inherited = ([], x) := by rw [round, hpairs]; rfl
  cases h with
  | last hnone => rw [hround]
  | next hsome => exact absurd (by rw [hround]) hsome

/-- Different declarations that bring nothing along come to themselves. -/
theorem Expands.alone (h : Expands E statics inherited declarations n y)
    (hrules : inherited.rules = []) (halone : ∀ d ∈ declarations, Alone E (.ofDeclaration d))
    (hdistinct : declarations.Pairwise fun d e =>
      ((Producer.ofDeclaration e).identity == (Producer.ofDeclaration d).identity) = false) :
    List.Forall₂ (fun q d => StoredAs q (.ofDeclaration d)) y.injectables declarations := by
  obtain ⟨x, hcollects, hsaturates⟩ := h
  obtain ⟨hspreading, stored, hinjectables, hstored⟩ := hcollects.alone
    (List.forall_mem_map.2 halone) (List.pairwise_map.2 hdistinct) fun _ _ => rfl
  obtain rfl := hsaturates.of_no_rules hrules hspreading
  rw [hinjectables]
  exact List.forall₂_map_right_iff.1 hstored

/-! ### Where everything comes from -/

/-- The expansion comes to an end, whatever the host says. All that is stored is near enough to the
declarations and is one of them, or lifted from, a member of or spread from what is stored; and no
two injectables have one identity. -/
theorem expansion_ends_traced (E : Environment) (statics : List Classifier)
    (inherited : Inherited) (declarations : List Declaration) (n : Nat) :
    let x := ofDeclarations E statics inherited declarations n
    (∀ y, Expands E statics inherited declarations n y ↔ y = x) ∧
      (∀ p ∈ x.injectables, p.chainLength ≤ E.config.maxExpansionDepth ∧
        ∃ q key, p = q.withType (q.ty.withInstanceKey (some key)) ∧
          Origin E statics inherited declarations x q p.chainLength) ∧
      (∀ p ∈ x.spreading, p.chainLength ≤ E.config.maxExpansionDepth ∧
        Origin E statics inherited declarations x p p.chainLength) ∧
      x.injectables.Pairwise fun p q => (p.identity == q.identity) = false := by
  intro x
  have hends : Expands E statics inherited declarations n x :=
    expands_ofDeclarations E statics inherited declarations n
  have htraced := hends.traced
  refine ⟨fun y => ⟨fun hy => ?_, fun hy => hy ▸ hends⟩, htraced.injectables, htraced.rules,
    htraced.distinct⟩
  -- neither the collection of the declarations nor the rounds leave a choice
  obtain ⟨x₁, hcollects, hsaturates⟩ := hy
  obtain ⟨x₂, hcollects', hsaturates'⟩ := hends
  rw [hcollects.unique hcollects'] at hsaturates
  exact hsaturates.unique hsaturates'

end Wiring.Expansion
