import RangeQuery.Proofs.Predicate.KeptParts
import RangeQuery.Proofs.Predicate.Regrouping
import RangeQuery.Proofs.Scope.RangeAnswers

/-!
What taking the markers out of a filter does. The ranges that the pass answers are those that a
conjunct demands a row of; they become required, the other conjuncts stay as they are and in their
order, and nothing else of the old query is written.
-/

namespace RangeQuery

theorem nodup_eraseDups {α : Type} [BEq α] [LawfulBEq α] (items : List α) :
    items.eraseDups.Nodup := by
  match items with
  | [] => simp
  | first :: rest =>
    rw [List.eraseDups_cons, List.nodup_cons]
    have shorter := rest.length_filter_le fun item => !item == first
    exact ⟨by simp, nodup_eraseDups _⟩
termination_by items.length
decreasing_by simpa [Nat.lt_succ_iff] using shorter

/-- A range that must have a partner row; another node stays as it is. -/
def Node.demanded : Node → Node
  | .range r => .range { r with required := true }
  | node => node

namespace Graph

variable {g h : Graph} {root scope condition conjunct range id : NodeId} {declared : List NodeId}

/-! ## Markers -/

/-- A conjunct that is no more than the demand for a row of a declared range. -/
def DemandsRow (g : Graph) (declared : List NodeId) (conjunct range : NodeId) : Prop :=
  range ∈ declared ∧ ∃ target i, g.node conjunct = .rowExists target ∧
    g.node target = .identifier i ∧ i.range = range

theorem markedRange?_eq_some_iff :
    g.markedRange? declared conjunct = some range ↔ g.DemandsRow declared conjunct range := by
  constructor
  · intro marks
    obtain ⟨target, i, node, found, held⟩ := markedRange?_eq_some marks
    split at held
    · next listed =>
      obtain rfl := Option.some.inj held
      exact ⟨List.contains_iff_mem.mp listed, target, i, node, found, rfl⟩
    · cases held
  · rintro ⟨listed, target, i, node, found, rfl⟩
    simp [markedRange?, identifier?, node, found, listed]

/-- A conjunct is a marker if it demands a row of some declared range. -/
def IsMarker (g : Graph) (declared : List NodeId) (conjunct : NodeId) : Prop :=
  ∃ range, g.DemandsRow declared conjunct range

theorem isSome_markedRange? :
    (g.markedRange? declared conjunct).isSome = true ↔ g.IsMarker declared conjunct := by
  simp only [Option.isSome_iff_exists, markedRange?_eq_some_iff, IsMarker]

instance (g : Graph) (declared : List NodeId) : DecidablePred (g.IsMarker declared) :=
  fun _ => decidable_of_iff _ isSome_markedRange?

/-- The conjuncts of the filter of a scope that are no markers. -/
def unmarkedConjuncts (g : Graph) (scope : NodeId) : List NodeId :=
  (g.conjunctsOf (g.scope scope).condition).filter fun conjunct =>
    ¬ g.IsMarker (g.scope scope).ranges conjunct

theorem filter_unmarked (conjuncts : List NodeId) :
    (conjuncts.filter fun id => (g.markedRange? declared id).isNone) =
      conjuncts.filter fun id => ¬ g.IsMarker declared id := by
  refine List.filter_congr fun id _ => ?_
  rw [Bool.eq_iff_iff, Option.isNone_iff_eq_none, decide_eq_true_iff, ← isSome_markedRange?,
    Option.not_isSome_iff_eq_none]

/-! ## The frame of the pass -/

theorem Writes.requireAll (g : Graph) (ranges : List NodeId) :
    Writes g (g.requireAll ranges) ranges where
  size := Nat.le_of_eq (Relabels.requireAll g ranges).size.symm
  node _ out := node_foldl_setRequired_of_not_mem out true

/-- Requiring some ranges demands a partner row of each and writes nothing else. -/
theorem node_requireAll (g : Graph) (ranges : List NodeId) (id : NodeId) :
    (g.requireAll ranges).node id = if id ∈ ranges then (g.node id).demanded else g.node id := by
  by_cases mem : id ∈ ranges
  · rw [if_pos mem]
    cases node : g.node id with
    | range r =>
      rw [requireAll, node_foldl_setRequired node ranges true, if_pos mem]
      rfl
    | _ =>
      rw [node_requireAll_of_not_range (by rw [node]; rfl), node]
      rfl
  · rw [if_neg mem]
    exact node_foldl_setRequired_of_not_mem mem true

/-- Neither a retrieve nor a range that it declares lies below its filter. -/
theorem Linked.apart_condition (l : g.Linked root) (above : g.Below root scope)
    (isRetrieve : (g.node scope).isRetrieve = true)
    (slot : (g.scope scope).condition = some condition) {ranges : List NodeId}
    (declares : ∀ range ∈ ranges, range ∈ (g.scope scope).ranges) :
    Apart g (scope :: ranges) condition := by
  obtain ⟨child, other⟩ : condition ∈ g.children scope ∧ condition ∉ (g.node scope).declared :=
    l.clause_of_isRetrieve above isRetrieve (by simp [slot])
  refine ⟨l.acyclic (above.child child), fun id mem below => ?_⟩
  rcases List.mem_cons.mp mem with rfl | mem
  · exact l.not_below_of_child above child below
  · have declared := declares id mem
    rw [ranges_scope isRetrieve] at declared
    have same := l.child_unique above (declared_subset_children _ declared) child (Below.refl g id)
      below
    exact other (same ▸ declared)

/-- Some ranges were required and the filter of a scope was exchanged for some of its conjuncts; no
other old node was written. -/
structure Refiltered (g h : Graph) (scope : NodeId) (marked remaining : List NodeId) : Prop where
  writes : Writes g h (scope :: marked)
  node : ∀ {id}, g.Has id → id ≠ scope →
    h.node id = if id ∈ marked then (g.node id).demanded else g.node id
  scope : ∃ condition, h.node scope = .retrieve { g.scope scope with condition } ∧
    h.conjunctsOf condition = remaining ∧ (condition = none ↔ remaining = [])

theorem Apart.mono {ids fewer : List NodeId} {predicate : NodeId} (a : Apart g ids predicate)
    (sub : fewer ⊆ ids) : Apart g fewer predicate :=
  ⟨a.acyclic, fun id mem => a.free id (sub mem)⟩

/-- Conjuncts joined anew reach no node that the old filter does not reach, but conjunctions. -/
theorem Apart.conjoin {ids remaining : List NodeId} (a : Apart g ids condition)
    (leaf : ∀ id ∈ ids, g.Has id ∧ (g.node id).isAnd = false)
    (among : remaining ⊆ g.conjuncts condition) :
    ∀ all ∈ (g.conjoin remaining).2, Apart (g.conjoin remaining).1 ids all := by
  obtain ⟨acyclic, lists⟩ := conjunctsOf_conjoin_of_conjuncts a.acyclic among
  intro all joined
  have keeps := Same.conjoin id g remaining
  refine ⟨acyclic all joined, fun id mem below => ?_⟩
  have leaf' : ((g.conjoin remaining).1.node id).isAnd = false :=
    congrArg Node.isAnd (keeps.node (leaf id mem).1) |>.trans (leaf id mem).2
  obtain ⟨conjunct, listed, further⟩ := (acyclic all joined).exists_conjunct below leaf'
  rw [Option.mem_def.mp joined, conjunctsOf_some] at lists
  have part := a.below (a.acyclic.below_of_mem_conjuncts (among (lists ▸ listed)))
  exact part.free id mem ((part.acyclic.below_of_same keeps).mp further)

/-- The pass over a filter with a marker requires the marked ranges and joins the other conjuncts
anew. -/
theorem Linked.refiltered (l : g.Linked root) (above : g.Below root scope)
    (isRetrieve : (g.node scope).isRetrieve = true)
    (slot : (g.scope scope).condition = some condition) {marked remaining : List NodeId}
    (declares : ∀ range ∈ marked, range ∈ (g.scope scope).ranges)
    (among : remaining ⊆ g.conjuncts condition) :
    Refiltered g (((g.requireAll marked).conjoin remaining).1.setCondition scope
      ((g.requireAll marked).conjoin remaining).2) scope marked remaining := by
  have apart := l.apart_condition above isRetrieve slot declares
  have required : Writes g (g.requireAll marked) (scope :: marked) :=
    (Writes.requireAll g marked).mono (List.subset_cons_self ..)
  have keeps := Same.conjoin id (g.requireAll marked) remaining
  have has : g.Has scope := l.has_of_below above
  have node : ∀ {id}, g.Has id → ((g.requireAll marked).conjoin remaining).1.node id =
      if id ∈ marked then (g.node id).demanded else g.node id := fun has =>
    (keeps.node (Nat.lt_of_lt_of_le has required.size)).trans (node_requireAll g marked _)
  obtain ⟨r, old⟩ := Node.exists_of_isRetrieve isRetrieve
  have clauses : g.scope scope = r := by rw [Graph.scope, old]
  have old' : (g.requireAll marked).node scope = .retrieve r :=
    (node_requireAll_of_not_range (by rw [old]; rfl) marked).trans old
  have has' : (g.requireAll marked).Has scope := Nat.lt_of_lt_of_le has required.size
  have kept : ((g.requireAll marked).conjoin remaining).1.node scope = .retrieve r :=
    (keeps.node has').trans old'
  refine ⟨(required.trans (.of_same keeps _)).trans (.setCondition _ (by simp) _), fun has ne => ?_,
    ((g.requireAll marked).conjoin remaining).2, ?_, ?_, ?_⟩
  · rw [node_setCondition_of_ne _ ne, node has]
  · refine node_setCondition_self (keeps.has has') ?_
    rw [kept, clauses]
    rfl
  · have apart' : Apart (g.requireAll marked) [scope] condition :=
      (apart.of_writes required).mono (by simp)
    have leaf : ∀ id ∈ [scope], (g.requireAll marked).Has id ∧
        ((g.requireAll marked).node id).isAnd = false := by
      rintro id mem
      obtain rfl := List.mem_singleton.mp mem
      exact ⟨has', by rw [old']; rfl⟩
    rw [← apart.conjuncts_eq required] at among
    have filter := apart'.conjoin leaf among
    refine (List.flatMap_congr fun all mem => ?_).trans
      (conjunctsOf_conjoin_of_conjuncts apart'.acyclic among).2
    exact (filter all (Option.mem_toList.mp mem)).conjuncts_eq (.setCondition _ (by simp) _)
  · cases remaining <;> simp [Graph.conjoin]

/-! ## The pass -/

/-- A scope without a marker stays as it is. -/
theorem Refiltered.refl (l : g.Linked root) (above : g.Below root scope)
    (isRetrieve : (g.node scope).isRetrieve = true)
    (unmarked : ∀ conjunct ∈ g.conjunctsOf (g.scope scope).condition,
      ¬ g.IsMarker (g.scope scope).ranges conjunct) :
    Refiltered g g scope [] (g.unmarkedConjuncts scope) := by
  have all : g.unmarkedConjuncts scope = g.conjunctsOf (g.scope scope).condition :=
    List.filter_eq_self.mpr fun conjunct mem => decide_eq_true (unmarked conjunct mem)
  obtain ⟨r, node⟩ := Node.exists_of_isRetrieve isRetrieve
  have clauses : g.scope scope = r := by rw [Graph.scope, node]
  refine ⟨.refl g _, fun _ _ => (if_neg (by simp)).symm, r.condition, ?_, ?_, ?_⟩
  · rw [node, clauses]
  · rw [all, clauses]
  · rw [all, clauses]
    cases slot : r.condition with
    | none => simp
    | some condition =>
      have child : condition ∈ g.children scope :=
        (l.clause_of_isRetrieve above isRetrieve (by simp [clauses, slot])).1
      simpa using (l.acyclic (above.child child)).conjuncts_ne_nil

theorem declared_of_mem_snd_extractMarkers (mem : range ∈ (g.extractMarkers scope).2) :
    range ∈ (g.scope scope).ranges := by
  obtain ⟨_, _, conjunct, _, marks⟩ := mem_snd_extractMarkers.mp mem
  exact (markedRange?_eq_some_iff.mp marks).1

/-- The pass leaves a scope without markers, or joins anew what remains of its filter. -/
theorem extractMarkers_cases (g : Graph) (scope : NodeId) :
    (g.extractMarkers scope = (g, []) ∧ ∀ conjunct ∈ g.conjunctsOf (g.scope scope).condition,
      ¬ g.IsMarker (g.scope scope).ranges conjunct) ∨
    ∃ condition marked, (g.scope scope).condition = some condition ∧ marked ≠ [] ∧
      g.extractMarkers scope =
        (((g.requireAll marked).conjoin (g.unmarkedConjuncts scope)).1.setCondition scope
          ((g.requireAll marked).conjoin (g.unmarkedConjuncts scope)).2, marked) := by
  cases slot : (g.scope scope).condition with
  | none => exact .inl ⟨by simp only [extractMarkers, slot], by simp⟩
  | some condition =>
    have kept : g.unmarkedConjuncts scope = (g.conjuncts condition).filter fun id =>
        (g.markedRange? (g.scope scope).ranges id).isNone := by
      rw [unmarkedConjuncts, slot, conjunctsOf_some, filter_unmarked]
    simp only [extractMarkers, slot, extractMarkersOf, conjunctsOf_some, kept]
    split
    · next none =>
      refine .inl ⟨rfl, fun conjunct mem ⟨range, demands⟩ => ?_⟩
      have listed : range ∈ ((g.conjuncts condition).filterMap
          (g.markedRange? (g.scope scope).ranges)).eraseDups :=
        List.mem_eraseDups.mpr
          (List.mem_filterMap.mpr ⟨conjunct, mem, markedRange?_eq_some_iff.mpr demands⟩)
      rw [List.isEmpty_iff.mp none] at listed
      cases listed
    · next some => exact .inr ⟨condition, _, rfl, fun none => some (by rw [none]; rfl), rfl⟩

/-- With and without a marker, the pass leaves the unmarked conjuncts in the filter. -/
theorem Linked.refiltered_extractMarkers (l : g.Linked root) (above : g.Below root scope)
    (isRetrieve : (g.node scope).isRetrieve = true) :
    Refiltered g (g.extractMarkers scope).1 scope (g.extractMarkers scope).2
        (g.unmarkedConjuncts scope) ∧
      ((g.extractMarkers scope).2 = [] → (g.extractMarkers scope).1 = g) := by
  have declares := @declared_of_mem_snd_extractMarkers g scope
  rcases g.extractMarkers_cases scope with ⟨same, unmarked⟩ | ⟨condition, marked, slot, some, same⟩
  · rw [same]
    exact ⟨.refl l above isRetrieve unmarked, fun _ => rfl⟩
  · rw [same] at declares ⊢
    refine ⟨l.refiltered above isRetrieve slot (fun range => declares) ?_, fun none => absurd none some⟩
    rw [unmarkedConjuncts, slot, conjunctsOf_some]
    exact List.filter_subset_self _

/-- The pass answers each range once that a conjunct of the filter demands a row of, and requires
these ranges. The filter of the scope has the other conjuncts in their order and is gone if there are
none; they stay as they are with all that is below them. No other old node is written, and nothing at
all happens without a marker. -/
theorem Linked.extractMarkers_exactly (l : g.Linked root) (above : g.Below root scope)
    (isRetrieve : (g.node scope).isRetrieve = true) :
    let clauses := g.scope scope
    let h := (g.extractMarkers scope).1
    let marked := (g.extractMarkers scope).2
    (marked.Nodup ∧ ∀ range, range ∈ marked ↔
      ∃ conjunct ∈ g.conjunctsOf clauses.condition, g.DemandsRow clauses.ranges conjunct range) ∧
    (∃ condition, h.node scope = .retrieve { clauses with condition } ∧
      h.conjunctsOf condition = g.unmarkedConjuncts scope ∧
      (condition = none ↔ g.unmarkedConjuncts scope = [])) ∧
    (∀ conjunct ∈ g.unmarkedConjuncts scope, ∀ id, (h.Below conjunct id ↔ g.Below conjunct id) ∧
      (g.Below conjunct id → h.node id = g.node id)) ∧
    (∀ id, g.Has id → id ≠ scope →
      h.node id = if id ∈ marked then (g.node id).demanded else g.node id) ∧
    (marked = [] → h = g) := by
  intro clauses h marked
  obtain ⟨r, empty⟩ := l.refiltered_extractMarkers above isRetrieve
  refine ⟨⟨?_, fun range => ?_⟩, r.scope, fun conjunct kept id => ?_, fun id => r.node, empty⟩
  · show (g.extractMarkers scope).2.Nodup
    rw [snd_extractMarkers]
    exact nodup_eraseDups _
  · show range ∈ (g.extractMarkers scope).2 ↔ _
    rw [snd_extractMarkers, List.mem_eraseDups, List.mem_filterMap]
    simp only [markedRange?_eq_some_iff]
    rfl
  · obtain ⟨listed, -⟩ := List.mem_filter.mp kept
    obtain ⟨condition, slot, listed⟩ := List.mem_flatMap.mp listed
    have whole := l.apart_condition above isRetrieve (Option.mem_toList.mp slot)
      fun range => declared_of_mem_snd_extractMarkers
    have part := whole.below (whole.acyclic.below_of_mem_conjuncts listed)
    exact ⟨part.below_iff r.writes, part.nodes r.writes id⟩

/-- Customers with orders, and a range over payments that is declared elsewhere. The filter is
`(EXISTS(o.id) AND (EXISTS(c.id) OR c.vip)) AND (EXISTS(p.id) AND EXISTS(o.total))`. -/
def customersWithOrders : Graph := ⟨#[
  ⟨.range { name := "c", entity := some "Customer", join := none, required := false
            included := true, nested := none }, some ⟨20⟩⟩,
  ⟨.range { name := "o", entity := some "Order", join := some ⟨4⟩, required := false
            included := true, nested := none }, some ⟨20⟩⟩,
  ⟨.identifier { range := ⟨1⟩, path := ["customerId"] }, some ⟨4⟩⟩,
  ⟨.identifier { range := ⟨0⟩, path := ["id"] }, some ⟨4⟩⟩,
  ⟨.binary .eq ⟨2⟩ ⟨3⟩, some ⟨1⟩⟩,
  ⟨.range { name := "p", entity := some "Payment", join := none, required := false
            included := true, nested := none }, none⟩,
  ⟨.identifier { range := ⟨1⟩, path := ["id"] }, some ⟨7⟩⟩,
  ⟨.rowExists ⟨6⟩, some ⟨12⟩⟩,
  ⟨.identifier { range := ⟨0⟩, path := ["id"] }, some ⟨9⟩⟩,
  ⟨.rowExists ⟨8⟩, some ⟨11⟩⟩,
  ⟨.identifier { range := ⟨0⟩, path := ["vip"] }, some ⟨11⟩⟩,
  ⟨.binary .or ⟨9⟩ ⟨10⟩, some ⟨12⟩⟩,
  ⟨.binary .and ⟨7⟩ ⟨11⟩, some ⟨18⟩⟩,
  ⟨.identifier { range := ⟨5⟩, path := ["id"] }, some ⟨14⟩⟩,
  ⟨.rowExists ⟨13⟩, some ⟨17⟩⟩,
  ⟨.identifier { range := ⟨1⟩, path := ["total"] }, some ⟨16⟩⟩,
  ⟨.rowExists ⟨15⟩, some ⟨17⟩⟩,
  ⟨.binary .and ⟨14⟩ ⟨16⟩, some ⟨18⟩⟩,
  ⟨.binary .and ⟨12⟩ ⟨17⟩, some ⟨20⟩⟩,
  ⟨.identifier { range := ⟨0⟩, path := ["id"] }, some ⟨20⟩⟩,
  ⟨.retrieve { Retrieve.empty with
    ranges := [⟨0⟩, ⟨1⟩], values := [⟨19⟩], condition := some ⟨18⟩ }, none⟩]⟩

/-- The orders are required, by two markers; the disjunction and the demand for a payment stay. -/
theorem Linked.extractMarkers_exactly_customersWithOrders :
    let h := (customersWithOrders.extractMarkers ⟨20⟩).1
    (customersWithOrders.Linked ⟨20⟩ ∧ customersWithOrders.Below ⟨20⟩ ⟨20⟩ ∧
      (customersWithOrders.node ⟨20⟩).isRetrieve = true) ∧
    (customersWithOrders.extractMarkers ⟨20⟩).2 = [⟨1⟩] ∧
    (∃ condition, h.node ⟨20⟩ = .retrieve { Retrieve.empty with
        ranges := [⟨0⟩, ⟨1⟩], values := [⟨19⟩], condition } ∧
      h.conjunctsOf condition = [⟨11⟩, ⟨14⟩]) ∧
    h.node ⟨1⟩ = (customersWithOrders.node ⟨1⟩).demanded ∧
    h.node ⟨0⟩ = customersWithOrders.node ⟨0⟩ ∧ h.node ⟨9⟩ = customersWithOrders.node ⟨9⟩ := by
  have linked : customersWithOrders.Linked ⟨20⟩ :=
    .of_closed [⟨20⟩, ⟨0⟩, ⟨1⟩, ⟨2⟩, ⟨3⟩, ⟨4⟩, ⟨6⟩, ⟨7⟩, ⟨8⟩, ⟨9⟩, ⟨10⟩, ⟨11⟩, ⟨12⟩, ⟨13⟩, ⟨14⟩, ⟨15⟩,
      ⟨16⟩, ⟨17⟩, ⟨18⟩, ⟨19⟩] (by decide) (by decide) (by decide) (by decide) (by decide)
  obtain ⟨-, ⟨condition, filter, lists, -⟩, -, nodes, -⟩ :=
    linked.extractMarkers_exactly (.refl _ _) (by decide)
  have marked : (customersWithOrders.extractMarkers ⟨20⟩).2 = [⟨1⟩] := by decide +kernel
  have kept : customersWithOrders.unmarkedConjuncts ⟨20⟩ = [⟨11⟩, ⟨14⟩] := by decide +kernel
  rw [marked] at nodes
  exact ⟨⟨linked, .refl _ _, by decide⟩, marked, ⟨condition, filter, lists.trans kept⟩,
    nodes ⟨1⟩ (by decide) (by decide), nodes ⟨0⟩ (by decide) (by decide),
    nodes ⟨9⟩ (by decide) (by decide)⟩

end Graph

end RangeQuery
