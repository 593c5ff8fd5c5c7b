import RangeQuery.Proofs.Graph.Rounds
import RangeQuery.Proofs.MergedRows
import RangeQuery.Proofs.Scope.MergedPair

/-!
What merging ranges leaves. Each merge takes one range out of the scope and drops the one join
predicate that made the pair one; all other predicates stay, with identifiers of the removed range
reading the kept one. Merges compose, so the same holds of as many as are found, and once none is
found, merging again changes nothing.
-/

namespace RangeQuery

namespace Graph

variable {g h k : Graph} {root scope id : NodeId} {pair : IdentityPair}
  {removed removed' links links' : List NodeId} {target target' : NodeId → NodeId}

/-! ## Merges and their composition -/

/-- Ranges of a scope were merged away: what read one of them reads its target, and of the join
predicates of the scope the links are gone. -/
structure Merged (g : Graph) (scope : NodeId) (removed : List NodeId) (target : NodeId → NodeId)
    (links : List NodeId) (h : Graph) : Prop where
  /-- The included ranges are those from before without the removed ones. -/
  included : (g.includedRanges scope).Perm (removed ++ h.includedRanges scope)
  /-- A removed range goes to an included one over the same entity, and the others stay. -/
  moved : ∀ range ∈ removed,
    target range ∈ h.includedRanges scope ∧ g.sameEntity range (target range) = true
  stays : ∀ range, range ∉ removed → target range = range
  /-- What is still reached was reached before, and is as it was except for what identifiers read. -/
  reached : ∀ id, h.Below scope id → g.Below scope id
  nodes : ∀ id, h.Below scope id → id ∉ g.includedRanges scope →
    h.node id = (g.node id).retargeted target
  ranges : ∀ id r, g.node id = .range r →
    ∃ join required included, h.node id = .range { r with join, required, included }
  joins : (g.joinPredicates scope).Perm (links ++ h.joinPredicates scope)

/-- A predicate that a pair carries and that sets a column of the two ranges equal. -/
def Link (g : Graph) (pair : IdentityPair) (link : NodeId) : Prop :=
  g.join? pair.carrier = some link ∧ g.isIdentityJoin link pair.kept pair.removed = true

theorem exists_link_of_findIdentity? {ranges : List NodeId}
    (found : g.findIdentity? ranges = some pair) : ∃ link, g.Link pair link := by
  induction ranges with
  | nil => cases found
  | cons a rest ih =>
    rw [findIdentity?, Option.or_eq_some_iff] at found
    rcases found with found | ⟨-, found⟩
    · obtain ⟨b, -, found⟩ := List.exists_of_findSome?_eq_some found
      obtain ⟨rfl, rfl, -, holds⟩ := of_identityPair? found
      exact (Option.any_eq_true ..).mp holds
    · exact ih found

namespace Merged

theorem refl (g : Graph) (scope : NodeId) : g.Merged scope [] (fun range => range) [] g where
  included := .refl _
  moved _ mem := by cases mem
  stays _ _ := rfl
  reached _ below := below
  nodes id _ _ := (Node.retargeted_id _).symm
  ranges _ r node := ⟨r.join, r.required, r.included, node⟩
  joins := .refl _

theorem isRange (m : g.Merged scope removed target links h) (is : (g.node id).isRange = true) :
    (h.node id).isRange = true := by
  obtain ⟨r, node⟩ := Node.exists_of_isRange is
  obtain ⟨_, _, _, written⟩ := m.ranges id r node
  rw [written]
  rfl

theorem entity? (m : g.Merged scope removed target links h) (is : (g.node id).isRange = true) :
    h.entity? id = g.entity? id := by
  obtain ⟨r, node⟩ := Node.exists_of_isRange is
  obtain ⟨_, _, _, written⟩ := m.ranges id r node
  rw [entity?_eq, entity?_eq, node, written]
  rfl

theorem still (m : g.Merged scope removed target links h) (mem : id ∈ h.includedRanges scope) :
    id ∈ g.includedRanges scope :=
  m.included.mem_iff.mpr (List.mem_append_right _ mem)

/-- The scope itself is left as it was. -/
theorem node_scope (m : g.Merged scope removed target links h)
    (isRetrieve : (g.node scope).isRetrieve = true) : h.node scope = g.node scope := by
  obtain ⟨r, node⟩ := Node.exists_of_isRetrieve isRetrieve
  rw [m.nodes scope (.refl h scope) (not_mem_includedRanges (by rw [node]; rfl)), node]
  rfl

theorem trans (a : g.Merged scope removed target links h)
    (b : h.Merged scope removed' target' links' k) (nodup : (g.includedRanges scope).Nodup) :
    g.Merged scope (removed ++ removed') (fun range => target' (target range)) (links ++ links') k := by
  have apart : ∀ {range}, range ∈ h.includedRanges scope → range ∉ removed := fun mem before =>
    List.disjoint_of_nodup_append (a.included.nodup_iff.mp nodup) before mem
  have within : ∀ {range}, range ∈ removed' → range ∈ h.includedRanges scope := fun mem =>
    b.included.mem_iff.mpr (List.mem_append_left _ mem)
  have isRange : ∀ {range}, range ∈ h.includedRanges scope → (g.node range).isRange = true :=
    fun mem => isRange_includedRanges g scope _ (a.still mem)
  refine ⟨?_, fun range mem => ?_, fun range out => ?_, fun id below => a.reached id (b.reached id below),
    fun id below out => ?_, fun id r node => ?_, ?_⟩
  · rw [List.append_assoc]
    exact a.included.trans (b.included.append_left _)
  · rcases List.mem_append.mp mem with before | after
    · obtain ⟨mem', same⟩ := a.moved range before
      by_cases again : target range ∈ removed'
      · -- The range to which it went is removed later on.
        obtain ⟨last, same'⟩ := b.moved _ again
        obtain ⟨entity, first, second⟩ := sameEntity_iff.mp same
        obtain ⟨entity', second', third⟩ := sameEntity_iff.mp same'
        rw [a.entity? (isRange mem'), second] at second'
        rw [a.entity? (isRange (b.still last))] at third
        exact ⟨last, sameEntity_iff.mpr ⟨entity, first, second' ▸ third⟩⟩
      · rw [b.stays _ again]
        exact ⟨(List.mem_append.mp (b.included.mem_iff.mp mem')).resolve_left again, same⟩
    · rw [a.stays range (apart (within after))]
      obtain ⟨last, same⟩ := b.moved range after
      obtain ⟨entity, first, second⟩ := sameEntity_iff.mp same
      rw [a.entity? (isRange (within after))] at first
      rw [a.entity? (isRange (b.still last))] at second
      exact ⟨last, sameEntity_iff.mpr ⟨entity, first, second⟩⟩
  · rw [List.mem_append, not_or] at out
    rw [a.stays range out.1, b.stays range out.2]
  · rw [b.nodes id below fun mem => out (a.still mem), a.nodes id (b.reached id below) out,
      Node.retargeted_retargeted]
  · obtain ⟨_, _, _, node'⟩ := a.ranges id r node
    obtain ⟨_, _, _, node''⟩ := b.ranges id _ node'
    exact ⟨_, _, _, node''⟩
  · rw [List.append_assoc]
    exact a.joins.trans (b.joins.append_left _)

end Merged

/-! ## Runs of merges -/

/-- Where some merges have put a range, one after the other. -/
def targetOf (merges : List (Graph × IdentityPair)) (range : NodeId) : NodeId :=
  merges.foldl (fun range merge => merge.2.target range) range

section

variable (l : g.Linked root) (above : g.Below root scope)
  (isRetrieve : (g.node scope).isRetrieve = true)

include l above isRetrieve

theorem Merged.of_pair (p : g.IsPair (g.includedRanges scope) pair) {link : NodeId}
    (held : g.join? pair.carrier = some link) :
    g.Merged scope [pair.removed] pair.target [link] (g.mergePair scope pair) where
  included := by
    rw [l.includedRanges_mergePair above isRetrieve]
    exact List.perm_cons_erase p.removed
  moved range mem := by
    rw [List.mem_singleton.mp mem, IdentityPair.target_removed,
      l.includedRanges_mergePair above isRetrieve]
    obtain ⟨entity, ofKept, ofRemoved⟩ := sameEntity_iff.mp p.entity
    exact ⟨(List.mem_erase_of_ne p.ne).mpr p.kept, sameEntity_iff.mpr ⟨entity, ofRemoved, ofKept⟩⟩
  stays range out := pair.target_of_ne (by simpa using out)
  reached _ below := below_of_mergePair p below
  nodes id below out :=
    l.node_mergePair p above below (fun same => out (same ▸ p.kept)) fun same => out (same ▸ p.removed)
  ranges _ _ node := exists_range_mergePair p node
  joins := by
    rw [List.singleton_append]
    exact l.perm_joinPredicates_mergePair p above isRetrieve held

/-- The merges of some rounds lead to what these rounds leave. -/
theorem Merged.of_rounds (bound : Nat) :
    ∃ links, List.Forall₂ (fun link merge => Link merge.1 merge.2 link) links
        (mergesWithin bound g scope) ∧
      g.Merged scope ((mergesWithin bound g scope).map (·.2.removed))
        (targetOf (mergesWithin bound g scope)) links (mergeRounds bound g scope).1 := by
  induction bound generalizing g with
  | zero => exact ⟨[], .nil, .refl g scope⟩
  | succ bound ih =>
    cases found : g.findIdentity? (g.includedRanges scope) with
    | none =>
      simp only [mergesWithin, mergeRounds, found]
      exact ⟨[], .nil, .refl g scope⟩
    | some pair =>
      simp only [mergesWithin, mergeRounds, found]
      have p := isPair_of_findIdentity? found
      obtain ⟨link, isLink⟩ := exists_link_of_findIdentity? found
      have one := Merged.of_pair l above isRetrieve p isLink.1
      obtain ⟨links, each, rest⟩ := ih (l.mergePair p above) (l.below_mergePair p above)
        ((one.node_scope isRetrieve).symm ▸ isRetrieve)
      exact ⟨link :: links, .cons isLink each,
        one.trans rest (l.nodup_includedRanges above isRetrieve)⟩

/-- Each merge takes exactly one range out of the scope, and the scope goes on declaring it. -/
theorem Linked.merge_takesOne {bound : Nat} {merge : Graph × IdentityPair}
    (mem : merge ∈ mergesWithin bound g scope) :
    merge.2.removed ∈ merge.1.includedRanges scope ∧
      (merge.1.mergePair scope merge.2).includedRanges scope =
        (merge.1.includedRanges scope).erase merge.2.removed ∧
      (merge.1.mergePair scope merge.2).node scope = merge.1.node scope := by
  induction bound generalizing g with
  | zero => cases mem
  | succ bound ih =>
    cases found : g.findIdentity? (g.includedRanges scope) with
    | none =>
      simp only [mergesWithin, found] at mem
      cases mem
    | some pair =>
      simp only [mergesWithin, found] at mem
      have p := isPair_of_findIdentity? found
      obtain ⟨link, isLink⟩ := exists_link_of_findIdentity? found
      have same := (Merged.of_pair l above isRetrieve p isLink.1).node_scope isRetrieve
      rcases List.mem_cons.mp mem with rfl | mem
      · exact ⟨p.removed, l.includedRanges_mergePair above isRetrieve, same⟩
      · exact ih (l.mergePair p above) (l.below_mergePair p above) (same.symm ▸ isRetrieve) mem

omit isRetrieve in
theorem Linked.below_mergeSelfJoins : (g.mergeSelfJoins scope).1.Below root scope := by
  refine (Graph.mergeSelfJoins_induction (motive := fun h => h.Linked root ∧ h.Below root scope)
    (fun found ih => ?_) ⟨l, above⟩).2
  have p := isPair_of_findIdentity? found
  exact ⟨ih.1.mergePair p ih.2, ih.1.below_mergePair p ih.2⟩

end

/-! ## Enough rounds -/

/-- The scope with its first pair merged, if it has one. -/
def mergeOne? (scope : NodeId) (g : Graph) : Option Graph :=
  (g.findIdentity? (g.includedRanges scope)).map (g.mergePair scope)

theorem mergeRounds_eq_rounds (bound : Nat) (g : Graph) (scope : NodeId) :
    mergeRounds bound g scope = rounds (mergeOne? scope) bound g := by
  induction bound generalizing g with
  | zero => rfl
  | succ bound ih =>
    unfold mergeRounds rounds mergeOne?
    cases g.findIdentity? (g.includedRanges scope) with
    | none => rfl
    | some pair => simp only [Option.map_some, ih]; rfl

/-- Each round leaves one range less. -/
theorem length_includedRanges_mergeOne? (next : mergeOne? scope g = some h) :
    (h.includedRanges scope).length < (g.includedRanges scope).length := by
  obtain ⟨pair, found, rfl⟩ := Option.map_eq_some_iff.mp next
  have removed := (isPair_of_findIdentity? found).removed
  rw [includedRanges_mergePair (isRetrieve_of_mem_includedRanges removed)]
  exact List.length_filter_lt_length_iff_exists.mpr ⟨pair.removed, removed, by simp⟩

/-! ## The result -/

/-- Where merges have taken ranges away, nothing that is reached reads them. -/
theorem Merged.not_mem_removed (m : g.Merged scope removed target links h)
    (nodup : (g.includedRanges scope).Nodup) {i : Identifier} (below : h.Below scope id)
    (node : h.node id = .identifier i) : i.range ∉ removed := by
  have noRange : id ∉ g.includedRanges scope := fun mem => by
    simpa [node, Node.isRange] using m.isRange (isRange_includedRanges g scope id mem)
  rw [m.nodes id below noRange] at node
  obtain ⟨j, before, rfl⟩ : ∃ j, g.node id = .identifier j ∧ i = { j with range := target j.range } := by
    cases before : g.node id <;> simp_all [Node.retargeted]
  by_cases gone : j.range ∈ removed
  · exact fun again => List.disjoint_of_nodup_append (m.included.nodup_iff.mp nodup) again
      (m.moved _ gone).1
  · rwa [m.stays _ gone]

/-- The predicates that are left are what they were, except for what their identifiers read. -/
theorem Merged.predicate (m : g.Merged scope removed target links h) (l : h.Linked root)
    (above : h.Below root scope) (isRetrieve : (g.node scope).isRetrieve = true) {predicate : NodeId}
    (held : predicate ∈ h.joinPredicates scope) :
    (∀ id, h.Below predicate id ↔ g.Below predicate id) ∧
      ∀ id, g.Below predicate id → h.node id = (g.node id).retargeted target := by
  obtain ⟨range, mem, joined⟩ := List.mem_filterMap.mp held
  have declared := declared_subset_children _ (mem_includedRanges mem).1
  have owned := mem_children_of_join? joined
  have ofScope := (below_of_child declared).child owned
  have node : ∀ id, h.Below predicate id → h.node id = (g.node id).retargeted target := by
    refine fun id below => m.nodes id (ofScope.trans below) fun among => ?_
    have slot : id ∈ h.children scope := by
      rw [children, m.node_scope isRetrieve]
      exact declared_subset_children _ (mem_includedRanges among).1
    obtain rfl := l.child_unique above declared slot ((below_of_child owned).trans below) (.refl h id)
    exact l.not_below_of_child (above.child declared) owned below
  have same : ∀ id, g.Below predicate id ↔ h.Below predicate id := fun id =>
    below_iff_of_children fun id below => by
      rw [children, children, node id below, Node.children_retargeted]
  exact ⟨fun id => (same id).symm, fun id below => node id ((same id).mp below)⟩

/-- What still reads a removed range's place reads an included range over the same entity. -/
theorem Merged.exists_heir (m : g.Merged scope removed target links h) {i : Identifier}
    (below : h.Below scope id) (node : g.node id = .identifier i) (gone : i.range ∈ removed) :
    ∃ heir ∈ h.includedRanges scope, g.sameEntity i.range heir = true ∧
      h.node id = .identifier { i with range := heir } := by
  have noRange : id ∉ g.includedRanges scope := not_mem_includedRanges (by rw [node]; rfl)
  obtain ⟨included, same⟩ := m.moved _ gone
  exact ⟨target i.range, included, same, by rw [m.nodes id below noRange, node]; rfl⟩

/-- Merging goes through its merges one after the other, each of which takes exactly one range out of
the scope. Nothing that is still reached reads a removed range; what read one reads an included range
over the same entity. Of the join predicates of the scope exactly one link for each merge is gone, and
the others are as they were with the ranges of their identifiers redirected. Merging again changes
nothing, and the bound on the rounds cuts none off. -/
theorem Linked.mergeSelfJoins_dropsLinks (l : g.Linked root) (above : g.Below root scope)
    (isRetrieve : (g.node scope).isRetrieve = true) :
    let merges := g.merges scope
    let removed := merges.map fun merge => merge.2.removed
    let h := (g.mergeSelfJoins scope).1
    (h = merges.foldl (fun g merge => g.mergePair scope merge.2) g ∧
      (∀ merge ∈ merges, merge.2.removed ∈ merge.1.includedRanges scope ∧
        (merge.1.mergePair scope merge.2).includedRanges scope =
          (merge.1.includedRanges scope).erase merge.2.removed ∧
        (merge.1.mergePair scope merge.2).node scope = merge.1.node scope) ∧
      (g.includedRanges scope).Perm (removed ++ h.includedRanges scope)) ∧
    (∀ id i, h.Below scope id → h.node id = .identifier i → i.range ∉ removed) ∧
    (∀ id i, h.Below scope id → g.node id = .identifier i → i.range ∈ removed →
      ∃ heir ∈ h.includedRanges scope, g.sameEntity i.range heir = true ∧
        h.node id = .identifier { i with range := heir }) ∧
    ((∃ links, List.Forall₂ (fun link merge => Link merge.1 merge.2 link) links merges ∧
        (g.joinPredicates scope).Perm (links ++ h.joinPredicates scope)) ∧
      ∀ predicate ∈ h.joinPredicates scope,
        (∀ id, h.Below predicate id ↔ g.Below predicate id) ∧
        ∀ id, g.Below predicate id → h.node id = (g.node id).retargeted (targetOf merges)) ∧
    h.mergeSelfJoins scope = (h, false) ∧
    ∀ rounds, (g.includedRanges scope).length ≤ rounds →
      mergeRounds rounds g scope = g.mergeSelfJoins scope := by
  intro merges removed h
  have nodup := l.nodup_includedRanges above isRetrieve
  obtain ⟨links, each, m⟩ := Merged.of_rounds l above isRetrieve (g.includedRanges scope).length
  have l' : h.Linked root := (l.zone.mergeSelfJoins above).linked rfl
  have above' : h.Below root scope := l.below_mergeSelfJoins above
  have stuck : mergeOne? scope h = none := by
    change mergeOne? scope (mergeRounds (g.includedRanges scope).length g scope).1 = none
    rw [mergeRounds_eq_rounds]
    exact step_rounds length_includedRanges_mergeOne? (Nat.le_refl _)
  refine ⟨⟨fst_mergeRounds .., fun merge mem => l.merge_takesOne above isRetrieve mem, m.included⟩,
    fun id i below node => m.not_mem_removed nodup below node,
    fun id i below node gone => m.exists_heir below node gone,
    ⟨⟨links, each, m.joins⟩, fun predicate held => m.predicate l' above' isRetrieve held⟩, ?_,
    fun rounds enough => ?_⟩
  · rw [mergeSelfJoins, mergeRounds_eq_rounds, rounds_of_eq_none stuck]
  · rw [mergeSelfJoins, mergeRounds_eq_rounds, mergeRounds_eq_rounds]
    exact rounds_eq length_includedRanges_mergeOne? enough (Nat.le_refl _)

/-- A customer under three names, and the orders of the third. -/
def customerThrice : Graph := ⟨#[
  ⟨.range { name := "a", entity := some "Customer", join := some ⟨4⟩, required := false
            included := true, nested := none }, some ⟨15⟩⟩,
  ⟨.range { name := "b", entity := some "Customer", join := none, required := false
            included := true, nested := none }, some ⟨15⟩⟩,
  ⟨.identifier { range := ⟨0⟩, path := ["id"] }, some ⟨4⟩⟩,
  ⟨.identifier { range := ⟨1⟩, path := ["id"] }, some ⟨4⟩⟩,
  ⟨.binary .eq ⟨2⟩ ⟨3⟩, some ⟨0⟩⟩,
  ⟨.range { name := "c", entity := some "Customer", join := some ⟨8⟩, required := false
            included := true, nested := none }, some ⟨15⟩⟩,
  ⟨.identifier { range := ⟨5⟩, path := ["id"] }, some ⟨8⟩⟩,
  ⟨.identifier { range := ⟨1⟩, path := ["id"] }, some ⟨8⟩⟩,
  ⟨.binary .eq ⟨6⟩ ⟨7⟩, some ⟨5⟩⟩,
  ⟨.range { name := "o", entity := some "Order", join := some ⟨12⟩, required := false
            included := true, nested := none }, some ⟨15⟩⟩,
  ⟨.identifier { range := ⟨9⟩, path := ["customerId"] }, some ⟨12⟩⟩,
  ⟨.identifier { range := ⟨5⟩, path := ["id"] }, some ⟨12⟩⟩,
  ⟨.binary .eq ⟨10⟩ ⟨11⟩, some ⟨9⟩⟩,
  ⟨.identifier { range := ⟨9⟩, path := ["total"] }, some ⟨14⟩⟩,
  ⟨.projection { name := "total", expression := ⟨13⟩, visible := true }, some ⟨15⟩⟩,
  ⟨.retrieve { Retrieve.empty with ranges := [⟨0⟩, ⟨1⟩, ⟨5⟩, ⟨9⟩], values := [⟨14⟩] }, none⟩]⟩

/-- The link of the third name leads to the second, which goes first, and so to the first; there the
orders are joined in the end. -/
theorem mergeSelfJoins_dropsLinks_customerThrice :
    let h := (customerThrice.mergeSelfJoins ⟨15⟩).1
    (customerThrice.Linked ⟨15⟩ ∧ customerThrice.Below ⟨15⟩ ⟨15⟩ ∧
      (customerThrice.node ⟨15⟩).isRetrieve = true) ∧
    (customerThrice.merges ⟨15⟩).map (·.2.removed) = [⟨1⟩, ⟨5⟩] ∧
    h.joinPredicates ⟨15⟩ = [⟨12⟩] ∧
    h.node ⟨11⟩ = .identifier { range := ⟨0⟩, path := ["id"] } ∧
    h.mergeSelfJoins ⟨15⟩ = (h, false) := by
  have linked : customerThrice.Linked ⟨15⟩ :=
    .of_closed [⟨15⟩, ⟨0⟩, ⟨1⟩, ⟨2⟩, ⟨3⟩, ⟨4⟩, ⟨5⟩, ⟨6⟩, ⟨7⟩, ⟨8⟩, ⟨9⟩, ⟨10⟩, ⟨11⟩, ⟨12⟩, ⟨13⟩, ⟨14⟩]
      (by decide) (by decide) (by decide) (by decide) (by decide)
  have isRetrieve : (customerThrice.node ⟨15⟩).isRetrieve = true := by decide
  have left : (customerThrice.mergeSelfJoins ⟨15⟩).1.joinPredicates ⟨15⟩ = [⟨12⟩] := by
    decide +kernel
  obtain ⟨-, -, -, ⟨-, predicates⟩, again, -⟩ :=
    linked.mergeSelfJoins_dropsLinks (.refl _ _) isRetrieve
  have ofLast : customerThrice.Below ⟨12⟩ ⟨11⟩ := below_of_child (by decide)
  have redirected : (customerThrice.node ⟨11⟩).retargeted (targetOf (customerThrice.merges ⟨15⟩)) =
      .identifier { range := ⟨0⟩, path := ["id"] } := by decide +kernel
  have still := (predicates ⟨12⟩ (by rw [left]; exact List.mem_singleton_self _)).2 ⟨11⟩ ofLast
  exact ⟨⟨linked, .refl _ _, isRetrieve⟩, by decide +kernel, left, still.trans redirected, again⟩

end Graph

end RangeQuery
