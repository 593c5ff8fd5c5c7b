import Mathlib.Logic.Relation
import Mathlib.Order.Bounds.Basic
import RangeQuery.Proofs.Graph.Rounds
import RangeQuery.Proofs.Scope.Exclusions

/-!
The least set of dead ranges. A range that has no reader stays without one while others are excluded,
and a range all of whose readers lie below excluded ranges has none left. So whatever order the dead
ranges are found in, the excluded ones are the least set that contains each range whose readers lie
below other ranges of the set.
-/

namespace RangeQuery

namespace Graph

variable {g h k : Graph} {root scope range dead : NodeId} {dropped dropped' : Set NodeId}

/-! ## Unread ranges -/

/-- The joined ranges of a scope that drop no row. -/
def droppable (g : Graph) (scope : NodeId) : Set NodeId :=
  {range | range ∈ g.includedRanges scope ∧ (g.node range).isOptional = true}

/-- Every reader of a range lies below another range of a set. -/
def Unread (g : Graph) (scope : NodeId) (dropped : Set NodeId) (range : NodeId) : Prop :=
  ∀ id, g.Counts scope range id → ∃ other ∈ dropped, other ≠ range ∧ g.Below other id

/-- Droppable ranges of a scope among which is every one that is unread beside them. -/
structure DropClosed (g : Graph) (scope : NodeId) (dropped : Set NodeId) : Prop where
  droppable : dropped ⊆ g.droppable scope
  closed : ∀ range ∈ g.droppable scope, g.Unread scope dropped range → range ∈ dropped

theorem Unread.mono (unread : g.Unread scope dropped range) (sub : dropped ⊆ dropped') :
    g.Unread scope dropped' range := fun id counts =>
  let ⟨other, mem, apart⟩ := unread id counts
  ⟨other, sub mem, apart⟩

theorem isDead_iff : g.isDead scope range = true ↔
    (g.node range).isOptional = true ∧ g.readCount scope range = 0 := by
  rw [isDead, Bool.and_eq_true, beq_iff_eq]
  cases node : g.node range <;> simp [range?, node, Node.isOptional]

/-! ## Runs -/

/-- One dead range of a scope is excluded, whichever it is. -/
def DropsOne (scope : NodeId) (g h : Graph) : Prop :=
  ∃ dead ∈ g.includedRanges scope, g.isDead scope dead = true ∧ h = g.exclude dead

/-- No included range of a scope is dead. -/
def NoneDead (g : Graph) (scope : NodeId) : Prop :=
  ∀ range ∈ g.includedRanges scope, g.isDead scope range = false

/-- What excluding dead ranges has done so far: it excluded some droppable ranges, each unread beside
the others, and none that a closed set is without. -/
structure Dropping (g : Graph) (scope : NodeId) (dropped : Set NodeId) (h : Graph) : Prop where
  excludes : g.Excludes dropped h
  droppable : dropped ⊆ g.droppable scope
  unread : ∀ range ∈ dropped, g.Unread scope dropped range
  least : ∀ closed, g.DropClosed scope closed → dropped ⊆ closed

theorem Dropping.start (g : Graph) (scope : NodeId) : g.Dropping scope ∅ g :=
  ⟨.refl g, Set.empty_subset _, fun _ out => out.elim, fun _ _ => Set.empty_subset _⟩

theorem Dropping.dropped_eq (d : g.Dropping scope dropped h)
    (isRetrieve : (g.node scope).isRetrieve = true) :
    dropped = {range | range ∈ g.includedRanges scope ∧ range ∉ h.includedRanges scope} := by
  ext range
  simp only [Set.mem_ofPred_eq, d.excludes.mem_includedRanges isRetrieve, not_and, not_not]
  exact ⟨fun mem => ⟨(d.droppable mem).1, fun _ => mem⟩, fun ⟨among, mem⟩ => mem among⟩

/-- The rounds are a run. -/
theorem reflTransGen_dropRounds (rounds : Nat) (g : Graph) (scope : NodeId) :
    Relation.ReflTransGen (DropsOne scope) g (dropRounds rounds g scope).1 :=
  dropRounds_induction (motive := Relation.ReflTransGen (DropsOne scope) g)
    (fun among isDead run => run.tail ⟨_, among, isDead, rfl⟩) rounds .refl

section

variable (l : g.Linked root) (above : g.Below root scope)
  (isRetrieve : (g.node scope).isRetrieve = true)

include l above isRetrieve

/-- A range is dead without some others if it is droppable and unread beside them. -/
theorem Dropping.isDead_iff (d : g.Dropping scope dropped h) (out : range ∉ dropped)
    (among : range ∈ g.includedRanges scope) :
    h.isDead scope range = true ↔ range ∈ g.droppable scope ∧ g.Unread scope dropped range := by
  have e := d.excludes
  have isRetrieve' : (h.node scope).isRetrieve = true :=
    (e.view Node.isRetrieve (by rintro ⟨⟩ <;> rfl) scope).trans isRetrieve
  have declared : range ∈ (h.node scope).declared := by
    rw [e.view Node.declared (by rintro ⟨⟩ <;> rfl)]
    exact (isIncluded_of_mem among).1
  rw [Graph.isDead_iff, e.view _ Node.isOptional_excluded,
    (e.linked l).readCount_eq_zero (e.below.mpr above) isRetrieve' declared]
  refine and_congr (by simp [Graph.droppable, among]) ?_
  simp only [e.counts_iff l above isRetrieve fun other mem => (d.droppable mem).1, Unread, not_and,
    not_forall, not_not, exists_prop]
  refine forall₂_congr fun id _ => exists_congr fun other => and_congr_right fun mem => ?_
  exact ⟨fun below => ⟨fun same => out (same ▸ mem), below⟩, And.right⟩

/-- One more exclusion goes on as before. -/
theorem Dropping.step (d : g.Dropping scope dropped h) (next : DropsOne scope h k) :
    ∃ dropped, g.Dropping scope dropped k := by
  obtain ⟨dead, among, isDead, rfl⟩ := next
  obtain ⟨among', out⟩ := (d.excludes.mem_includedRanges isRetrieve).mp among
  obtain ⟨droppable, unread⟩ := (d.isDead_iff l above isRetrieve out among').mp isDead
  have wider : dropped ⊆ insert dead dropped := Set.subset_insert dead dropped
  refine ⟨insert dead dropped, d.excludes.exclude dead, Set.insert_subset droppable d.droppable, ?_,
    fun closed is => Set.insert_subset ?_ (d.least closed is)⟩
  · rintro range (rfl | mem)
    · exact unread.mono wider
    · exact (d.unread range mem).mono wider
  · exact is.closed dead droppable (unread.mono (d.least closed is))

theorem Dropping.of_run (run : Relation.ReflTransGen (DropsOne scope) g h) :
    ∃ dropped, g.Dropping scope dropped h := by
  induction run with
  | refl => exact ⟨∅, .start g scope⟩
  | tail _ next ih =>
    obtain ⟨dropped, d⟩ := ih
    exact d.step l above isRetrieve next

/-- Once none is dead, the excluded ranges are the least closed set. -/
theorem Dropping.isLeast (d : g.Dropping scope dropped h) (done : h.NoneDead scope) :
    IsLeast {dropped | g.DropClosed scope dropped} dropped := by
  refine ⟨⟨d.droppable, fun range droppable unread => ?_⟩, fun closed is => d.least closed is⟩
  by_contra out
  have among := (d.excludes.mem_includedRanges isRetrieve).mpr ⟨droppable.1, out⟩
  have isDead := (d.isDead_iff l above isRetrieve out droppable.1).mpr ⟨droppable, unread⟩
  rw [done range among] at isDead
  cases isDead

end

/-! ## Enough rounds -/

/-- The scope without its first dead range, if it has one. -/
def dropOne? (scope : NodeId) (g : Graph) : Option Graph :=
  ((g.includedRanges scope).find? (g.isDead scope)).map g.exclude

theorem dropRounds_eq_rounds (bound : Nat) (g : Graph) (scope : NodeId) :
    dropRounds bound g scope = rounds (dropOne? scope) bound g := by
  induction bound generalizing g with
  | zero => rfl
  | succ bound ih =>
    unfold dropRounds rounds dropOne?
    cases (g.includedRanges scope).find? (g.isDead scope) with
    | none => rfl
    | some dead => simp only [Option.map_some, ih]; rfl

theorem dropOne?_eq_none : g.dropOne? scope = none ↔ g.NoneDead scope := by
  simp [dropOne?, NoneDead]

/-- Each round leaves one range less. -/
theorem length_includedRanges_dropOne? (next : dropOne? scope g = some h) :
    (h.includedRanges scope).length < (g.includedRanges scope).length := by
  obtain ⟨dead, found, rfl⟩ := Option.map_eq_some_iff.mp next
  rw [includedRanges_exclude]
  exact List.length_filter_lt_length_iff_exists.mpr
    ⟨dead, List.mem_of_find?_eq_some found, by simp⟩

/-! ## The result -/

/-- The ranges that dropping the dead joins of a scope takes out of it. -/
def droppedRanges (g : Graph) (scope : NodeId) : Set NodeId :=
  {range | range ∈ g.includedRanges scope ∧ range ∉ (g.dropDeadJoins scope).1.includedRanges scope}

theorem Linked.dropping_dropDeadJoins (l : g.Linked root) (above : g.Below root scope)
    (isRetrieve : (g.node scope).isRetrieve = true) :
    g.Dropping scope (g.droppedRanges scope) (g.dropDeadJoins scope).1 := by
  obtain ⟨dropped, d⟩ := Dropping.of_run l above isRetrieve (reflTransGen_dropRounds _ g scope)
  obtain rfl : dropped = g.droppedRanges scope := d.dropped_eq isRetrieve
  exact d

/-- The dropped ranges are the least set of droppable ranges that contains each one whose readers lie
below others of the set. Nothing but their marks changes, any order of dropping dead ranges ends in
the same graph, and the bound on the rounds cuts none off. -/
theorem Linked.isLeast_droppedRanges (l : g.Linked root) (above : g.Below root scope)
    (isRetrieve : (g.node scope).isRetrieve = true) :
    IsLeast {dropped | g.DropClosed scope dropped} (g.droppedRanges scope) ∧
      g.Excludes (g.droppedRanges scope) (g.dropDeadJoins scope).1 ∧
      (g.dropDeadJoins scope).1.NoneDead scope ∧
      (∀ h, Relation.ReflTransGen (DropsOne scope) g h → h.NoneDead scope →
        h = (g.dropDeadJoins scope).1) ∧
      ∀ rounds, (g.includedRanges scope).length ≤ rounds →
        dropRounds rounds g scope = g.dropDeadJoins scope := by
  have done : (g.dropDeadJoins scope).1.NoneDead scope := by
    rw [dropDeadJoins, dropRounds_eq_rounds, ← dropOne?_eq_none]
    exact step_rounds length_includedRanges_dropOne? (Nat.le_refl _)
  have d := l.dropping_dropDeadJoins above isRetrieve
  have least := d.isLeast l above isRetrieve done
  refine ⟨least, d.excludes, done, fun h run done' => ?_, fun rounds enough => ?_⟩
  · obtain ⟨dropped', d'⟩ := Dropping.of_run l above isRetrieve run
    have same := IsLeast.unique (d'.isLeast l above isRetrieve done') least
    exact (same ▸ d'.excludes).eq d.excludes
  · rw [dropDeadJoins, dropRounds_eq_rounds, dropRounds_eq_rounds]
    exact rounds_eq length_includedRanges_dropOne? enough (Nat.le_refl _)

/-- Customers, joined with their orders and these with their items; only the customers are read. -/
def customersWithItems : Graph := ⟨#[
  ⟨.range { name := "c", entity := some "Customer", join := none, required := false
            included := true, nested := none }, some ⟨11⟩⟩,
  ⟨.range { name := "o", entity := some "Order", join := some ⟨4⟩, required := false
            included := true, nested := none }, some ⟨11⟩⟩,
  ⟨.identifier { range := ⟨1⟩, path := ["customerId"] }, some ⟨4⟩⟩,
  ⟨.identifier { range := ⟨0⟩, path := ["id"] }, some ⟨4⟩⟩,
  ⟨.binary .eq ⟨2⟩ ⟨3⟩, some ⟨1⟩⟩,
  ⟨.range { name := "i", entity := some "Item", join := some ⟨8⟩, required := false
            included := true, nested := none }, some ⟨11⟩⟩,
  ⟨.identifier { range := ⟨5⟩, path := ["orderId"] }, some ⟨8⟩⟩,
  ⟨.identifier { range := ⟨1⟩, path := ["id"] }, some ⟨8⟩⟩,
  ⟨.binary .eq ⟨6⟩ ⟨7⟩, some ⟨5⟩⟩,
  ⟨.identifier { range := ⟨0⟩, path := ["name"] }, some ⟨10⟩⟩,
  ⟨.projection { name := "name", expression := ⟨9⟩, visible := true }, some ⟨11⟩⟩,
  ⟨.retrieve { Retrieve.empty with ranges := [⟨0⟩, ⟨1⟩, ⟨5⟩], values := [⟨10⟩] }, none⟩]⟩

theorem linked_customersWithItems : customersWithItems.Linked ⟨11⟩ :=
  .of_closed [⟨11⟩, ⟨0⟩, ⟨1⟩, ⟨2⟩, ⟨3⟩, ⟨4⟩, ⟨5⟩, ⟨6⟩, ⟨7⟩, ⟨8⟩, ⟨9⟩, ⟨10⟩] (by decide) (by decide)
    (by decide) (by decide) (by decide)

/-- The items have no reader, and the orders none but the predicate that joins the items. -/
theorem isLeast_droppedRanges_customersWithItems :
    (customersWithItems.Linked ⟨11⟩ ∧ customersWithItems.Below ⟨11⟩ ⟨11⟩ ∧
      (customersWithItems.node ⟨11⟩).isRetrieve = true) ∧
    IsLeast {dropped | customersWithItems.DropClosed ⟨11⟩ dropped} {⟨1⟩, ⟨5⟩} ∧
    ∀ h, Relation.ReflTransGen (DropsOne ⟨11⟩) customersWithItems h → h.NoneDead ⟨11⟩ →
      h = (customersWithItems.exclude ⟨5⟩).exclude ⟨1⟩ := by
  have isRetrieve : (customersWithItems.node ⟨11⟩).isRetrieve = true := by decide
  obtain ⟨least, -, -, any, -⟩ :=
    linked_customersWithItems.isLeast_droppedRanges (.refl _ _) isRetrieve
  have dropped : customersWithItems.droppedRanges ⟨11⟩ = {⟨1⟩, ⟨5⟩} := by
    have before : customersWithItems.includedRanges ⟨11⟩ = [⟨0⟩, ⟨1⟩, ⟨5⟩] := by decide
    have after : (customersWithItems.dropDeadJoins ⟨11⟩).1.includedRanges ⟨11⟩ = [⟨0⟩] := by decide
    ext range
    simp only [droppedRanges, before, after, Set.mem_ofPred_eq, List.mem_cons, List.not_mem_nil,
      or_false, Set.mem_insert_iff, Set.mem_singleton_iff]
    grind
  have result : (customersWithItems.dropDeadJoins ⟨11⟩).1 =
      (customersWithItems.exclude ⟨5⟩).exclude ⟨1⟩ := by decide
  exact ⟨⟨linked_customersWithItems, .refl _ _, isRetrieve⟩, dropped ▸ least,
    fun h run done => (any h run done).trans result⟩

end Graph

end RangeQuery
