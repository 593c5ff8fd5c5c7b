import RangeQuery.Proofs.Predicate.Sides

/-!
Splitting a predicate keeps its meaning. The two sides list its conjuncts in their order, each once,
so together they have the value of the predicate whatever is known of the conjuncts. Where a
disjunction reads live and other ranges, nothing is split.
-/

namespace RangeQuery

namespace Graph

/-- The sides of a predicate without circles divide its conjuncts and keep their order, and hold
together exactly where the predicate does. With two sides, what is inside reads live names only,
and what leads out reads some other name. -/
theorem split?_sound {g : Graph} {predicate : Option NodeId}
    (acyclic : ∀ id ∈ predicate, g.Acyclic id) (live : List String) :
    let h := (g.split? live predicate).1
    let parts := (g.split? live predicate).2
    (∃ inside : NodeId → Bool,
      h.conjunctsOf parts.inner = (g.conjunctsOf predicate).filter inside ∧
      h.conjunctsOf parts.correlation = (g.conjunctsOf predicate).filter fun id => !inside id) ∧
    (∀ leaf : NodeId → Truth,
      (h.valueOf leaf parts.inner).and (h.valueOf leaf parts.correlation) =
        g.valueOf leaf predicate) ∧
    (parts.inner.isSome → parts.correlation.isSome →
      (∀ id ∈ h.conjunctsOf parts.inner, ∀ range, g.Reads id range → g.rangeName range ∈ live) ∧
      ∀ id ∈ h.conjunctsOf parts.correlation,
        ∃ range, g.Reads id range ∧ g.rangeName range ∉ live) := by
  intro h parts
  obtain ⟨inside, sides⟩ := exists_sides? acyclic live
  refine ⟨⟨inside, sides.inner, sides.outer⟩, fun leaf => ?_, fun someInner someOuter => ⟨?_, ?_⟩⟩
  · calc (h.valueOf leaf parts.inner).and (h.valueOf leaf parts.correlation)
        = (Truth.all ((h.conjunctsOf parts.inner).map leaf)).and
            (Truth.all ((h.conjunctsOf parts.correlation).map leaf)) := by
          rw [valueOf_eq leaf sides.acyclic.1, valueOf_eq leaf sides.acyclic.2]
      _ = Truth.all ((g.conjunctsOf predicate).map leaf) := by
          rw [sides.inner, sides.outer, Truth.all_filter]
      _ = g.valueOf leaf predicate := (valueOf_eq leaf acyclic).symm
  · intro id mem
    rw [sides.inner, List.mem_filter] at mem
    exact (sides.divided someInner someOuter id mem.1).mp mem.2
  · intro id mem
    rw [sides.outer, List.mem_filter, Bool.not_eq_true'] at mem
    have out : ¬ ∀ range, g.Reads id range → g.rangeName range ∈ live := by
      rw [← sides.divided someInner someOuter id mem.1, mem.2]
      exact Bool.false_ne_true
    simpa using out

/-- A user with an age and a name, compared with the user of an order between the two tests. -/
def usersOfOrders : Graph := ⟨#[
  ⟨.range { name := "u", entity := some "User", join := none, required := true
            included := true, nested := none }, none⟩,
  ⟨.range { name := "o", entity := some "Order", join := none, required := true
            included := true, nested := none }, none⟩,
  ⟨.identifier { range := ⟨0⟩, path := ["age"] }, some ⟨8⟩⟩,
  ⟨.identifier { range := ⟨0⟩, path := ["id"] }, some ⟨5⟩⟩,
  ⟨.identifier { range := ⟨1⟩, path := ["user"] }, some ⟨5⟩⟩,
  ⟨.binary .eq ⟨3⟩ ⟨4⟩, some ⟨7⟩⟩,
  ⟨.identifier { range := ⟨0⟩, path := ["name"] }, some ⟨7⟩⟩,
  ⟨.binary .and ⟨5⟩ ⟨6⟩, some ⟨8⟩⟩,
  ⟨.binary .and ⟨2⟩ ⟨7⟩, none⟩]⟩

theorem acyclic_usersOfOrders : usersOfOrders.Acyclic ⟨8⟩ :=
  acyclic_of_ordered (by decide) (by decide)

/-- The comparison correlates the users with the orders, the tests stay inside. -/
theorem split?_sound_usersOfOrders :
    (∀ id ∈ some (⟨8⟩ : NodeId), usersOfOrders.Acyclic id) ∧
      (usersOfOrders.split? ["u"] (some ⟨8⟩)).2 =
        { inner := some ⟨9⟩, correlation := some ⟨5⟩ } ∧
      ∀ leaf : NodeId → Truth,
        ((usersOfOrders.split? ["u"] (some ⟨8⟩)).1.valueOf leaf (some ⟨9⟩)).and
            ((usersOfOrders.split? ["u"] (some ⟨8⟩)).1.valueOf leaf (some ⟨5⟩)) =
          usersOfOrders.valueOf leaf (some ⟨8⟩) := by
  have acyclic : ∀ id ∈ some (⟨8⟩ : NodeId), usersOfOrders.Acyclic id := by
    simpa using acyclic_usersOfOrders
  have parts : (usersOfOrders.split? ["u"] (some ⟨8⟩)).2 =
      { inner := some ⟨9⟩, correlation := some ⟨5⟩ } := by decide
  refine ⟨acyclic, parts, fun leaf => ?_⟩
  have sound := (split?_sound acyclic ["u"]).2.1 leaf
  rwa [parts] at sound

/-! ## Disjunctions over both sides -/

/-- A predicate stays whole, and the graph as it is, if a disjunction anywhere below reads a live range
and one that is not live. -/
theorem split?_of_disjunction {g : Graph} {predicate disjunction inside outside : NodeId}
    {live : List String} (acyclic : g.Acyclic predicate) (below : g.Below predicate disjunction)
    (isOr : (g.node disjunction).isOr = true) (reads : g.Reads disjunction inside)
    (isLive : g.rangeName inside ∈ live) (reads' : g.Reads disjunction outside)
    (isOther : g.rangeName outside ∉ live) :
    g.split? live (some predicate) =
      (g, { inner := some predicate, correlation := none }) := by
  have noAnd : (g.node disjunction).isAnd = false := by
    cases kind : g.node disjunction with
    | binary op left right => cases op <;> simp [kind, Node.isOr, Node.isAnd] at isOr ⊢
    | _ => rfl
  obtain ⟨conjunct, mem, above⟩ := acyclic.exists_conjunct below noAnd
  have within : ∀ {range}, g.Reads disjunction range → g.Reads conjunct range := by
    rintro range ⟨id, i, lower, node, same⟩
    exact ⟨id, i, above.trans lower, node, same⟩
  have mixed : g.classify live conjunct = .mixed :=
    (classify_eq_mixed (acyclic.below (acyclic.below_of_mem_conjuncts mem))).mpr
      ⟨⟨inside, within reads, isLive⟩, ⟨outside, within reads', isOther⟩, disjunction, above, isOr⟩
  have found : ((g.conjuncts predicate).any fun id => g.classify live id = .mixed) = true :=
    List.any_eq_true.mpr ⟨conjunct, mem, by simpa using mixed⟩
  simp only [split?, split, found, if_true]

/-- A user of a name, where not both the age of the user and the total of an order are small. -/
def usersOrOrders : Graph := ⟨#[
  ⟨.range { name := "u", entity := some "User", join := none, required := true
            included := true, nested := none }, none⟩,
  ⟨.range { name := "o", entity := some "Order", join := none, required := true
            included := true, nested := none }, none⟩,
  ⟨.identifier { range := ⟨0⟩, path := ["name"] }, some ⟨7⟩⟩,
  ⟨.identifier { range := ⟨0⟩, path := ["age"] }, some ⟨5⟩⟩,
  ⟨.identifier { range := ⟨1⟩, path := ["total"] }, some ⟨5⟩⟩,
  ⟨.binary .or ⟨3⟩ ⟨4⟩, some ⟨6⟩⟩,
  ⟨.not ⟨5⟩, some ⟨7⟩⟩,
  ⟨.binary .and ⟨2⟩ ⟨6⟩, none⟩]⟩

/-- The disjunction under the negation keeps the test of the name from coming apart from it. -/
theorem split?_of_disjunction_usersOrOrders :
    usersOrOrders.Acyclic ⟨7⟩ ∧ usersOrOrders.Below ⟨7⟩ ⟨5⟩ ∧
      usersOrOrders.Reads ⟨5⟩ ⟨0⟩ ∧ usersOrOrders.Reads ⟨5⟩ ⟨1⟩ ∧
      usersOrOrders.split? ["u"] (some ⟨7⟩) =
        (usersOrOrders, { inner := some ⟨7⟩, correlation := none }) := by
  have acyclic : usersOrOrders.Acyclic ⟨7⟩ := acyclic_of_ordered (by decide) (by decide)
  have negated : (⟨5⟩ : NodeId) ∈ usersOrOrders.children ⟨6⟩ := by decide
  have below : usersOrOrders.Below ⟨7⟩ ⟨5⟩ := (below_of_child (by decide)).child negated
  have reads : usersOrOrders.Reads ⟨5⟩ ⟨0⟩ :=
    ⟨⟨3⟩, ⟨⟨0⟩, ["age"]⟩, below_of_child (by decide), by decide, rfl⟩
  have reads' : usersOrOrders.Reads ⟨5⟩ ⟨1⟩ :=
    ⟨⟨4⟩, ⟨⟨1⟩, ["total"]⟩, below_of_child (by decide), by decide, rfl⟩
  exact ⟨acyclic, below, reads, reads', split?_of_disjunction acyclic below (by decide) reads
    (by decide) reads' (by decide)⟩

end Graph

end RangeQuery
