import Wiring.Proofs.Session.Saturation

namespace Wiring.Expansion

variable {E : Environment} {statics : List Classifier} {inherited : Inherited}
  {x y : Expansion} {ps : List Producer}

structure Spread (E : Environment) (statics : List Classifier) (inherited : Inherited)
    (waiting : List Producer) (x : Expansion) : Prop where
  -- Every use of a rule goes back to a pair of which the output, if it is near enough, has been
  -- seen or waits to be collected; and what has been seen is stored.
  stored : ∀ identity ∈ x.seen, ∃ p ∈ x.injectables ++ x.spreading, p.identity = identity
  answered : ∀ use ∈ x.processed, ∃ pair ∈ x.pairs inherited, useOf pair = use ∧
    ∀ output, outputOf E statics pair = some output →
      output.chainLength ≤ E.config.maxExpansionDepth →
        x.seen.contains output.identity = true ∨ output ∈ waiting

namespace Spread

/-- The first producer that waits may go if it is too far away or has been seen. -/
theorem skip {p : Producer} (h : Spread E statics inherited (p :: ps) x)
    (hp : p.chainLength ≤ E.config.maxExpansionDepth → x.seen.contains p.identity = true) :
    Spread E statics inherited ps x where
  stored := h.stored
  answered use hu := by
    obtain ⟨pair, hpair, huse, hanswer⟩ := h.answered use hu
    refine ⟨pair, hpair, huse, fun output ho hchain => ?_⟩
    rcases hanswer output ho hchain with hseen | hwaits
    · exact Or.inl hseen
    · rcases List.mem_cons.1 hwaits with rfl | hwaits
      · exact Or.inl (hp hchain)
      · exact Or.inr hwaits

/-- One that is stored, and thereby seen, may go as well, and others may come in its place. -/
theorem take {p q : Producer} (more : List Producer)
    (h : Spread E statics inherited (p :: ps) x) (hxy : Grows x y)
    (hseen : y.seen = p.identity :: x.seen) (hprocessed : y.processed = x.processed)
    (hq : q ∈ y.injectables ++ y.spreading) (hqp : q.identity = p.identity) :
    Spread E statics inherited (more ++ ps) y where
  stored := by
    rw [hseen]
    refine List.forall_mem_cons.2 ⟨⟨q, hq, hqp⟩, fun identity hi => ?_⟩
    obtain ⟨r, hr, hri⟩ := h.stored identity hi
    refine ⟨r, ?_, hri⟩
    rcases List.mem_append.1 hr with hr | hr
    · exact List.mem_append_left _ (hxy.injectables hr)
    · exact List.mem_append_right _ (hxy.spreading hr)
  answered use hu := by
    rw [hprocessed] at hu
    rw [hseen]
    obtain ⟨pair, hpair, huse, hanswer⟩ := h.answered use hu
    refine ⟨pair, mem_pairs_mono hpair hxy, huse, fun output ho hchain => ?_⟩
    rw [List.contains_cons, Bool.or_eq_true_iff]
    rcases hanswer output ho hchain with hseen | hwaits
    · exact Or.inl (Or.inr hseen)
    · rcases List.mem_cons.1 hwaits with rfl | hwaits
      · exact Or.inl (Or.inl BEq.rfl)
      · exact Or.inr (List.mem_append_right _ hwaits)

theorem round (h : Spread E statics inherited [] x) :
    Spread E statics inherited (x.round E statics inherited).1
      (x.round E statics inherited).2 := by
  have htried := tried_round E statics inherited x
  constructor
  · rw [htried.seen, htried.injectables, htried.spreading]
    exact h.stored
  · intro use hu
    rw [htried.seen]
    rcases htried.answered use hu with hu | ⟨pair, hpair, huse, hanswer⟩
    · obtain ⟨pair, hpair, huse, hanswer⟩ := h.answered use hu
      refine ⟨pair, mem_pairs_mono hpair htried.grows, huse, fun output ho hchain => ?_⟩
      exact (hanswer output ho hchain).imp_right fun hwaits => nomatch hwaits
    · exact ⟨pair, mem_pairs_mono hpair htried.grows, huse,
        fun output ho _ => Or.inr (hanswer output ho)⟩

end Spread

theorem Collects.spread (h : Collects E ps x y) (hx : Spread E statics inherited ps x) :
    Spread E statics inherited [] y := by
  induction h with
  | done x => exact hx
  | tooLong hchain _ ih =>
    exact ih (hx.skip fun hnear => absurd hnear (Nat.not_le_of_lt hchain))
  | again _ hseen _ ih => exact ih (hx.skip fun _ => hseen)
  | @rule p ps x y _ _ _ _ ih =>
    have hstored : p ∈ (x.setAside p).injectables ++ (x.setAside p).spreading :=
      List.mem_append_right _ (List.mem_append_right _ (List.mem_singleton_self p))
    exact ih (hx.take [] (grows_setAside x p) rfl rfl hstored rfl)
  | @injectable p ps x y _ _ _ _ ih =>
    have hstored : x.keyed p ∈ (x.store p).injectables ++ (x.store p).spreading :=
      List.mem_append_left _ (List.mem_append_right _ (List.mem_singleton_self _))
    exact ih (hx.take _ (grows_store x p) rfl rfl hstored rfl)

/-- Of all pairs of a rule and a candidate with one side of this scope that are remembered as one,
there is a pair whose output, if it is near enough, is stored. So spreading is complete for rules
that are told apart by their ids and type arguments. -/
theorem expansion_answers (E : Environment) (statics : List Classifier) (inherited : Inherited)
    (declarations : List Declaration) (n : Nat) :
    let x := ofDeclarations E statics inherited declarations n
    ∀ pair ∈ x.pairs inherited, ∃ twin ∈ x.pairs inherited, (useOf pair == useOf twin) = true ∧
      ∀ output, outputOf E statics twin = some output →
        output.chainLength ≤ E.config.maxExpansionDepth →
          ∃ p ∈ x.injectables ++ x.spreading, (output.identity == p.identity) = true := by
  intro x pair hpair
  obtain ⟨x₀, hcollects, hsaturates⟩ := expands_ofDeclarations E statics inherited declarations n
  have hstart : Spread E statics inherited (declarations.map .ofDeclaration)
      { nextInstanceKey := n } :=
    ⟨List.forall_mem_nil _, List.forall_mem_nil _⟩
  have hspread : Spread E statics inherited [] x :=
    hsaturates.preserves (fun _ hx => hx.round) (fun _ _ _ hc hx => hc.spread hx)
      (hcollects.spread hstart)
  obtain ⟨use, hu, hpairUse⟩ := List.contains_iff_exists_mem_beq.1
    (hsaturates.exhausted pair hpair)
  obtain ⟨twin, htwin, rfl, hanswer⟩ := hspread.answered use hu
  refine ⟨twin, htwin, hpairUse, fun output ho hchain => ?_⟩
  have hseen := (hanswer output ho hchain).resolve_right (List.not_mem_nil (a := output))
  obtain ⟨identity, hi, hsame⟩ := List.contains_iff_exists_mem_beq.1 hseen
  obtain ⟨p, hp, rfl⟩ := hspread.stored identity hi
  exact ⟨p, hp, hsame⟩

def wrapping : Environment where
  catalog := ⟨[
    ("Trigger", [{ flags := { tag := true } }]),
    ("Box", [{ typeParameters := [⟨"Box.E", 0⟩] }]),
    ("Box.E", [{ flags := { typeParameter := true } }]),
    ("Wrap", [{ typeParameters := [⟨"Wrap.E", 0⟩] }]),
    ("Wrap.E", [{ flags := { typeParameter := true } }]),
    ("wrap.T", [{
      supertypes := some [{ head := .named ⟨"Foo", 0⟩, tags := [.of ⟨"Trigger", 0⟩] }]
      flags := { typeParameter := true } }])]⟩
  host := HostTables.host {
    members := [("Box", [{
      id := "Box.wrap"
      ty := { head := .named ⟨"Wrap", 0⟩, arguments := [.of ⟨"Box.E", 0⟩] }
      typeParameters := [⟨"wrap.T", 0⟩]
      parameters := [{ name := "instance", slot := .value 0, ty := .of ⟨"wrap.T", 0⟩ }]
      spreadParameter := some 0 }])] }

def boxes : List Declaration := [
  { id := "ints", ty := { head := .named ⟨"Box", 0⟩, arguments := [.of ⟨"Int", 0⟩] } },
  { id := "strs", ty := { head := .named ⟨"Box", 0⟩, arguments := [.of ⟨"Str", 0⟩] } },
  { id := "foo", ty := { head := .named ⟨"Foo", 0⟩, tags := [.of ⟨"Trigger", 0⟩] } }]

/-- The rules of the two boxes have the same id and no type arguments yet. One of them has been tried
on the `Foo`, and the other one is passed over, though it would have an output within reach. -/
theorem wrapping_passed_over :
    ∃ pair ∈ (ofDeclarations wrapping [] {} boxes 0).pairs {}, ∃ output,
      outputOf wrapping [] pair = some output ∧
      output.chainLength ≤ wrapping.config.maxExpansionDepth ∧
      ∀ p ∈ (ofDeclarations wrapping [] {} boxes 0).injectables,
        ((p.id, p.typeArguments, p.ty.withoutInstanceKey) ==
          (output.id, output.typeArguments, output.ty.withoutInstanceKey)) = false := by
  have hmissing : ((ofDeclarations wrapping [] {} boxes 0).pairs {}).any (fun pair =>
      (outputOf wrapping [] pair).any fun output =>
        decide (output.chainLength ≤ wrapping.config.maxExpansionDepth) &&
        (ofDeclarations wrapping [] {} boxes 0).injectables.all fun p =>
          !((p.id, p.typeArguments, p.ty.withoutInstanceKey) ==
            (output.id, output.typeArguments, output.ty.withoutInstanceKey))) = true := by
    decide +kernel
  obtain ⟨pair, hpair, hmissing⟩ := List.any_eq_true.1 hmissing
  obtain ⟨output, ho, hmissing⟩ := (Option.any_eq_true _ _).1 hmissing
  rw [Bool.and_eq_true, decide_eq_true_eq, List.all_eq_true] at hmissing
  refine ⟨pair, hpair, output, ho, hmissing.1, fun p hp => ?_⟩
  have hother := hmissing.2 p hp
  rwa [Bool.not_eq_true'] at hother

end Wiring.Expansion
