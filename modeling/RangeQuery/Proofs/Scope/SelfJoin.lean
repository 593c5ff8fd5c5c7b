import RangeQuery.Proofs.Scope.Reshaping
import RangeQuery.Scope.SelfJoin

/-!
Merging ranges that read the same row. A merge moves at most one join predicate, from the removed
range to the kept one of the same scope; all else is labels.
-/

namespace RangeQuery

/-- The range whose join predicate makes the two ranges of a pair one. -/
def IdentityPair.carrier (pair : IdentityPair) : NodeId :=
  match pair.holder with
  | .kept => pair.kept
  | .removed => pair.removed

namespace Graph

variable {g : Graph}

/-- The two ranges of a pair: different ranges of the list over one entity, of which the holder is
joined. -/
structure IsPair (g : Graph) (ranges : List NodeId) (pair : IdentityPair) : Prop where
  kept : pair.kept ∈ ranges
  removed : pair.removed ∈ ranges
  ne : pair.kept ≠ pair.removed
  entity : g.sameEntity pair.kept pair.removed = true
  joined : (g.join? (match pair.holder with
    | .kept => pair.kept
    | .removed => pair.removed)).isSome = true

theorem exists_of_holdsIdentity {holder a b : NodeId} (holds : g.holdsIdentity holder a b = true) :
    a ≠ b ∧ ∃ predicate left right, g.join? holder = some predicate ∧
      g.identifierEquality? predicate = some (left, right) ∧
      (left.range = a ∧ right.range = b ∨ left.range = b ∧ right.range = a) ∧
      left.field = right.field := by
  obtain ⟨predicate, held, holds⟩ := (Option.any_eq_true ..).mp holds
  unfold isIdentityJoin at holds
  split at holds
  · next left right equality =>
    simp only [Bool.and_eq_true, Bool.or_eq_true, beq_iff_eq, bne_iff_ne] at holds
    obtain ⟨⟨⟨sides, ne⟩, -⟩, field⟩ := holds
    exact ⟨ne, predicate, left, right, held, equality, sides, field⟩
  · cases holds

/-- A pair is kept and removed in the order of the list, and its carrier makes it one. -/
theorem of_identityPair? {a b : NodeId} {pair : IdentityPair}
    (found : g.identityPair? a b = some pair) : pair.kept = a ∧ pair.removed = b ∧
      g.sameEntity a b = true ∧ g.holdsIdentity pair.carrier a b = true := by
  unfold identityPair? at found
  split at found
  · cases found
  · next same =>
    have same : g.sameEntity a b = true := by simpa using same
    split at found
    · next holds =>
      cases found
      exact ⟨rfl, rfl, same, holds⟩
    · split at found
      · next holds =>
        cases found
        exact ⟨rfl, rfl, same, holds⟩
      · cases found

theorem isPair_of_identityPair? {ranges : List NodeId} {a b : NodeId} {pair : IdentityPair}
    (ma : a ∈ ranges) (mb : b ∈ ranges) (found : g.identityPair? a b = some pair) :
    g.IsPair ranges pair := by
  obtain ⟨rfl, rfl, same, holds⟩ := of_identityPair? found
  obtain ⟨ne, predicate, -, -, held, -⟩ := exists_of_holdsIdentity holds
  exact ⟨ma, mb, ne, same, Option.isSome_of_eq_some held⟩

theorem isPair_of_findIdentity? {ranges : List NodeId} {pair : IdentityPair}
    (h : g.findIdentity? ranges = some pair) : g.IsPair ranges pair := by
  induction ranges with
  | nil => cases h
  | cons a rest ih =>
    rw [findIdentity?, Option.or_eq_some_iff] at h
    rcases h with found | ⟨-, found⟩
    · obtain ⟨b, mem, found⟩ := List.exists_of_findSome?_eq_some found
      exact isPair_of_identityPair? (by simp) (by simp [mem]) found
    · have pair := ih found
      exact ⟨List.mem_cons_of_mem _ pair.kept, List.mem_cons_of_mem _ pair.removed, pair.ne,
        pair.entity, pair.joined⟩

/-- The first range of a list is not removed. -/
theorem removed_mem_tail {ranges : List NodeId} {pair : IdentityPair}
    (h : g.findIdentity? ranges = some pair) : pair.removed ∈ ranges.tail := by
  cases ranges with
  | nil => cases h
  | cons a rest =>
    rw [findIdentity?, Option.or_eq_some_iff] at h
    rcases h with found | ⟨-, found⟩
    · obtain ⟨b, mem, found⟩ := List.exists_of_findSome?_eq_some found
      exact (of_identityPair? found).2.1 ▸ mem
    · exact (isPair_of_findIdentity? found).removed

/-- The graph in which a pair has its join predicates as they will be. -/
def rejoined (g : Graph) (pair : IdentityPair) : Graph :=
  match pair.holder with
  | .kept => g.inheritJoin pair
  | .removed => g

theorem node_rejoined_of_ne {pair : IdentityPair} {id : NodeId} (kept : id ≠ pair.kept)
    (removed : id ≠ pair.removed) : (g.rejoined pair).node id = g.node id := by
  unfold rejoined inheritJoin
  split
  · split
    · exact (node_updateRange_of_ne _ kept _).trans
        ((node_setJoin_of_ne _ kept _).trans (node_setJoin_of_ne g removed none))
    · rfl
  · rfl

/-- The kept range takes over the join predicate of the removed one, and its demand for a partner
row, if it is the kept one that carries the predicate of the pair. -/
theorem node_rejoined_kept {pair : IdentityPair} {k r : Range} (kept : g.node pair.kept = .range k)
    (removed : g.node pair.removed = .range r) (ne : pair.kept ≠ pair.removed) :
    (g.rejoined pair).node pair.kept = match pair.holder with
      | .kept => .range { k with join := r.join, required := r.required }
      | .removed => .range k := by
  have has : g.Has pair.kept := has_of_node kept (by simp)
  obtain ⟨kept', removed', holder⟩ := pair
  cases holder with
  | removed => exact kept
  | kept =>
    have released : (g.setJoin removed' none).node kept' = .range k := by
      rw [node_setJoin_of_ne g ne, kept]
    have has' : (g.setJoin removed' none).Has kept' := by rwa [Has, size_setJoin]
    have joined := node_setJoin_self has' released r.join
    have has'' : ((g.setJoin removed' none).setJoin kept' r.join).Has kept' := by
      rwa [Has, size_setJoin]
    simp only [rejoined, inheritJoin, range?, removed, setRequired, updateRange, joined]
    exact node_setNode_self _ has'' _

/-- The removed range gives up its join predicate if the kept one takes it over. -/
theorem node_rejoined_removed {pair : IdentityPair} {k r : Range}
    (kept : g.node pair.kept = .range k) (removed : g.node pair.removed = .range r)
    (ne : pair.kept ≠ pair.removed) :
    (g.rejoined pair).node pair.removed = match pair.holder with
      | .kept => .range { r with join := none }
      | .removed => .range r := by
  have has : g.Has pair.removed := has_of_node removed (by simp)
  obtain ⟨kept', removed', holder⟩ := pair
  cases holder with
  | removed => exact removed
  | kept =>
    have released := node_setJoin_self has removed none
    simp only [rejoined, inheritJoin, range?, removed, setRequired]
    rw [node_updateRange_of_ne _ ne.symm, node_setJoin_of_ne _ ne.symm, released]

theorem mergePair_eq (g : Graph) (scope : NodeId) (pair : IdentityPair) :
    g.mergePair scope pair =
      (((g.rejoined pair).rebind scope (Renaming.empty.insert pair.removed pair.kept)).1).exclude
        pair.removed := rfl

/-- What every merge of a pair of a scope keeps, some rounds of merges keep. -/
theorem mergeRounds_induction {motive : Graph → Prop} {scope : NodeId}
    (step : ∀ {g pair}, g.findIdentity? (g.includedRanges scope) = some pair → motive g →
      motive (g.mergePair scope pair)) (rounds : Nat) (start : motive g) :
    motive (mergeRounds rounds g scope).1 := by
  induction rounds generalizing g with
  | zero => exact start
  | succ rounds ih =>
    unfold mergeRounds
    split
    · next pair found => exact ih (step found start)
    · exact start

/-- What every merge of a pair of a scope keeps, merging its ranges keeps. -/
theorem mergeSelfJoins_induction {motive : Graph → Prop} {scope : NodeId}
    (step : ∀ {g pair}, g.findIdentity? (g.includedRanges scope) = some pair → motive g →
      motive (g.mergePair scope pair)) (start : motive g) : motive (g.mergeSelfJoins scope).1 :=
  mergeRounds_induction step _ start

end Graph

open RangeQuery.Graph

theorem Rigid.rejoined {α : Type} {view : Node → α} (rigid : Rigid view) (g : Graph)
    (pair : IdentityPair) : Same view g (g.rejoined pair) := by
  unfold Graph.rejoined Graph.inheritJoin
  split
  · split
    · exact ((rigid.setJoin g _ _).trans (rigid.setJoin _ _ _)).trans (rigid.setRequired _ _ _)
    · exact .refl view g
  · exact .refl view g

namespace Unbound

variable {α : Type} {view : Node → α} (unbound : Unbound view)

include unbound

theorem mergePair (g : Graph) (scope : NodeId) (pair : IdentityPair) :
    Same view g (g.mergePair scope pair) := by
  rw [mergePair_eq]
  exact ((unbound.toRigid.rejoined g pair).trans (unbound.rebind _ _ _)).trans
    (unbound.exclude _ _)

theorem mergeSelfJoins (g : Graph) (scope : NodeId) :
    Same view g (g.mergeSelfJoins scope).1 :=
  mergeSelfJoins_induction (motive := Same view g)
    (fun {h pair} _ same => same.trans (unbound.mergePair h scope pair)) (.refl view g)

end Unbound

namespace Graph

variable {g : Graph} {roots zone : Set NodeId} {level : NodeId → List NodeId}

theorem Zone.rejoined (z : g.Zone roots ∅ zone level) {scope : NodeId} {pair : IdentityPair}
    (mem : scope ∈ zone) (p : g.IsPair (g.includedRanges scope) pair) :
    (g.rejoined pair).Zone roots ∅ zone level := by
  obtain ⟨declared, k, kept, -⟩ := mem_includedRanges p.kept
  obtain ⟨declared', r, removed, -⟩ := mem_includedRanges p.removed
  have ofKept := z.link mem (declared_subset_children _ declared) (Set.notMem_empty _)
  have ofRemoved := z.link mem (declared_subset_children _ declared') (Set.notMem_empty _)
  unfold Graph.rejoined Graph.inheritJoin
  split
  · simp only [range?, removed]
    refine (Relabels.setRequired ..).zone ?_
    have released := z.releaseJoin ofRemoved.mem removed (by simp)
    refine released.1.setJoin ofKept.mem fun join found => ?_
    have taken := released.2.1 join found
    rw [ofRemoved.level, enter_of_false (by rw [removed]; rfl)] at taken
    rw [ofKept.level, enter_of_false (by rw [kept]; rfl)]
    exact taken
  · exact z

theorem Zone.mergePair (z : g.Zone roots ∅ zone level) {scope : NodeId} {pair : IdentityPair}
    (mem : scope ∈ zone) (p : g.IsPair (g.includedRanges scope) pair) :
    (g.mergePair scope pair).Zone roots ∅ zone level := by
  rw [mergePair_eq]
  exact (Relabels.exclude ..).zone ((Relabels.rebind ..).zone (z.rejoined mem p))

/-- Merging the ranges of a scope leaves every node in its zone. -/
theorem Zone.mergeSelfJoins (z : g.Zone roots ∅ zone level) {scope : NodeId}
    (mem : scope ∈ zone) : (g.mergeSelfJoins scope).1.Zone roots ∅ zone level :=
  mergeSelfJoins_induction (motive := fun g => g.Zone roots ∅ zone level)
    (fun found z => z.mergePair mem (isPair_of_findIdentity? found)) z

/-- Merging ranges keeps what every merge in a well-linked graph with the scopes as they were
keeps. -/
theorem Linked.mergeSelfJoins_induction {motive : Graph → Prop} {root scope : NodeId}
    (l : g.Linked root) (isScope : g.ScopeIn root scope)
    (step : ∀ {h pair}, h.Linked root →
      (∀ {α : Type} {view : Node → α}, Unbound view → Same view g h) →
      h.findIdentity? (h.includedRanges scope) = some pair → motive h →
        motive (h.mergePair scope pair)) (start : motive g) :
    motive (g.mergeSelfJoins scope).1 := by
  refine (Graph.mergeSelfJoins_induction (motive := fun h => h.Linked root ∧
      (∀ {α : Type} {view : Node → α}, Unbound view → Same view g h) ∧ motive h)
    (fun {h pair} found => ?_) ⟨l, fun _ => .refl _ g, start⟩).2.2
  rintro ⟨l', unbound, kept⟩
  have reached := ((Keeps.of_unbound unbound).scopeIn l isScope).reached
  exact ⟨(l'.zone.mergePair reached (isPair_of_findIdentity? found)).linked rfl,
    fun view => (unbound view).trans (view.mergePair h scope pair), step l' unbound found kept⟩

end Graph

end RangeQuery
