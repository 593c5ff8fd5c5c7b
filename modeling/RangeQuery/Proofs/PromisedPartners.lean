import RangeQuery.Proofs.Rows.JoinChain
import RangeQuery.Proofs.Scope.RangeAnswers

/-!
Ranges that a relation promises a partner row. The promise is made to the rows of the other range:
where such a row is there, the partner is too, and the range may be required; where the other range
misses its row, nothing was promised, and the combination is lost once the range is required.
-/

namespace RangeQuery

namespace Graph

variable {g h : Graph} {metadata : Metadata} {scope range id : NodeId} {own other : Identifier}

/-! ## Linked ranges -/

/-- The two identifiers that the join predicate of a range sets equal, its own first. -/
def link? (g : Graph) (range : NodeId) : Option (Identifier × Identifier) :=
  ((g.join? range).bind g.identifierEquality?).bind fun sides =>
    ownAndOther? range sides.1 sides.2

theorem ownAndOther?_eq_some {left right : Identifier} :
    ownAndOther? range left right = some (own, other) ↔
      own.range = range ∧ other.range ≠ range ∧
        (left = own ∧ right = other ∨ left = other ∧ right = own) := by
  unfold ownAndOther?
  grind

theorem link?_eq_some : g.link? range = some (own, other) ↔
    ∃ join, g.join? range = some join ∧ own.range = range ∧ other.range ≠ range ∧
      (g.identifierEquality? join = some (own, other) ∨
        g.identifierEquality? join = some (other, own)) := by
  simp only [link?, Option.bind_eq_some_iff, Prod.exists, ownAndOther?_eq_some]
  grind

theorem reads_of_identifierEquality? {predicate : NodeId} {left right : Identifier}
    (equality : g.identifierEquality? predicate = some (left, right)) :
    g.Reads predicate left.range ∧ g.Reads predicate right.range := by
  unfold identifierEquality? at equality
  split at equality
  · next l r node =>
    split at equality
    · next first second isFirst isSecond =>
      cases equality
      exact ⟨⟨l, _, below_of_child (by simp [children, node, Node.children]),
          node_of_identifier? isFirst, rfl⟩,
        ⟨r, _, below_of_child (by simp [children, node, Node.children]),
          node_of_identifier? isSecond, rfl⟩⟩
    · cases equality
  · cases equality

/-- A range that is joined before others is linked to none of them, nor to itself. -/
theorem not_mem_of_link? (linked : g.link? range = some (own, other)) {later : List NodeId}
    (ordered : ∀ id ∈ later, ∀ join ∈ g.join? range, ¬ g.Reads join id) :
    other.range ∉ range :: later := by
  obtain ⟨join, held, -, apart, equality⟩ := link?_eq_some.mp linked
  have reads : g.Reads join other.range := by
    rcases equality with equality | equality
    · exact (reads_of_identifierEquality? equality).2
    · exact (reads_of_identifierEquality? equality).1
  rw [List.mem_cons, not_or]
  exact ⟨apart, fun mem => ordered _ mem join held reads⟩

/-! ## Promised ranges -/

/-- An optional range whose entity a relation of the other range promises, over direct columns. -/
structure Promised (g : Graph) (metadata : Metadata) (range : NodeId) (own other : Identifier) :
    Prop where
  optional : (g.node range).isOptional = true
  linked : g.link? range = some (own, other)
  direct : own.isDirect = true ∧ other.isDirect = true
  relation : ∃ owner, g.entity? other.range = some owner ∧
    ∃ r ∈ metadata.relations owner, r.required = true ∧ r.isToOne = true ∧
      g.entity? range = some r.targetEntity ∧ r.relationColumn = other.field ∧
      r.inversedBy = own.field

theorem exists_of_requiredByRelation (required : g.requiredByRelation metadata range = true) :
    ∃ own other, g.Promised metadata range own other := by
  unfold requiredByRelation at required
  split at required
  · next name entity join included nested found =>
    have node := node_of_range? found
    split at required
    · next left right equality =>
      split at required
      · next own other sides =>
        unfold isPromised at required
        split at required
        · next owner ofOwner =>
          simp only [Bool.and_eq_true, List.any_eq_true, promisesPartner, beq_iff_eq] at required
          obtain ⟨direct, r, mem, ⟨⟨⟨needed, one⟩, target⟩, column⟩, inverse⟩ := required
          exact ⟨own, other, {
            optional := by simp [node, Node.isOptional, Range.isAnchor]
            linked := by simp [link?, join?_eq node, equality, sides]
            direct
            relation := ⟨owner, ofOwner, r, mem, needed, one, by simp [entity?, found, target],
              column, inverse⟩ }⟩
        · cases required
      · cases required
    · cases required
  · cases required

/-- A range that is optional in one graph and not in the other. -/
def tightened (g h : Graph) (range : NodeId) : Bool :=
  (g.node range).isOptional && !(h.node range).isOptional

/-- The second graph demands rows of promised ranges, and is the first otherwise. -/
structure Tightens (g h : Graph) (metadata : Metadata) : Prop where
  entity : ∀ id, h.entity? id = g.entity? id
  join : ∀ id, h.join? id = g.join? id
  equality : ∀ id, h.identifierEquality? id = g.identifierEquality? id
  optional : ∀ id, (h.node id).isOptional = true → (g.node id).isOptional = true
  promised : ∀ id, tightened g h id = true → ∃ own other, g.Promised metadata id own other

theorem tightens_requireByRelation (g : Graph) (metadata : Metadata) (scope : NodeId) :
    Tightens g (g.requireByRelation metadata scope).1 metadata := by
  unfold requireByRelation
  dsimp only
  generalize chosen : (g.includedRanges scope).filter _ = promised
  have ranges := range?_foldl_setRequired g promised true
  refine ⟨fun id => ?_, fun id => ?_,
    (retouches_foldl_setRequired g promised true).identifierEquality?,
    fun id optional => (isOptional_of_foldl_setRequired optional).1, fun id tight => ?_⟩
  · rw [entity?, ranges, entity?, Option.bind_map]
    rfl
  · rw [join?, ranges, join?, Option.bind_map]
    rfl
  · have mem : id ∈ promised := by
      by_contra out
      simp [tightened, node_foldl_setRequired_of_not_mem out] at tight
    rw [← chosen, List.mem_filter, Bool.and_eq_true] at mem
    exact exists_of_requiredByRelation mem.2.2

end Graph

/-- The row that a range is joined to is there. -/
def Combination.reaches {ρ : Type} (c : Combination ρ) (g : Graph) (range : NodeId) : Bool :=
  (g.link? range).any fun sides => (c.rowOf sides.2.range).isSome

namespace World

open RangeQuery.Graph

variable {ρ α : Type} [DecidableEq α] {w : World ρ α} {g h : Graph} {metadata : Metadata}
  {c joined : Combination ρ} {range : NodeId} {own other : Identifier} {ranges : List NodeId}

/-- The predicate of a linked range compares its row with that of the other range. -/
theorem truth_of_link (linked : g.link? range = some (own, other)) {join : NodeId}
    (held : g.join? range = some join) (row : ρ) :
    w.truth g join ((range, some row) :: c) =
      (w.read (some row) own).equal (w.read (c.rowOf other.range) other) := by
  obtain ⟨join', held', rfl, apart, equality⟩ := link?_eq_some.mp linked
  obtain rfl := Option.some.inj (held.symm.trans held')
  unfold truth
  rcases equality with equality | equality
  · rw [equality]
    simp only [Combination.rowOf_cons_self, Combination.rowOf_cons_of_ne apart]
  · rw [equality, Value.equal_comm]
    simp only [Combination.rowOf_cons_self, Combination.rowOf_cons_of_ne apart]

/-- A promised range has a partner exactly where the other range has its row. -/
theorem partners_eq_nil_iff (p : g.Promised metadata range own other)
    (promises : w.KeepsPromises metadata) (sourced : w.Sourced g c) :
    w.partners g c range = [] ↔ c.rowOf other.range = none := by
  obtain ⟨join, held, -⟩ := link?_eq_some.mp p.linked
  have compared : ∀ row, w.truth g join ((range, some row) :: c) =
      (w.column row own.field).equal (w.read (c.rowOf other.range) other) := fun row => by
    rw [truth_of_link p.linked held, w.read_of_isDirect p.direct.1]
  simp only [partners, held, Option.all_some, List.filter_eq_nil_iff, compared, decide_eq_true_eq]
  cases found : c.rowOf other.range with
  | none => simp
  | some owned =>
    obtain ⟨owner, ofOwner, r, declared, needed, one, target, column, inverse⟩ := p.relation
    have ofRows : owned ∈ w.rows owner := by
      simpa [source, ofOwner] using sourced other.range owned found
    obtain ⟨partner, ofTarget, equal⟩ := promises owner r declared needed one owned ofRows
    rw [w.read_of_isDirect p.direct.2]
    rw [inverse, column] at equal
    refine iff_of_false (fun none => none partner ?_ equal) (by simp)
    simpa [source, target] using ofTarget

/-- The row of the other range is settled before a range is joined, and stays to the end. -/
theorem reaches_of_mem_joinFrom (linked : g.link? range = some (own, other))
    (ordered : ∀ id ∈ ranges, ∀ join ∈ g.join? range, ¬ g.Reads join id)
    (mem : joined ∈ w.joinFrom g (range :: ranges) c) :
    joined.reaches g range = (c.rowOf other.range).isSome := by
  rw [Combination.reaches, linked, Option.any_some,
    rowOf_of_mem_joinFrom mem (not_mem_of_link? linked ordered)]

end World

namespace Graph.Tightens

variable {ρ α : Type} [DecidableEq α] {w : World ρ α} {g h : Graph} {metadata : Metadata}
  {c : Combination ρ} {range : NodeId} {ranges : List NodeId} (t : Tightens g h metadata)

include t

theorem truth_eq (predicate : NodeId) (c : Combination ρ) :
    w.truth h predicate c = w.truth g predicate c := by
  simp only [World.truth, t.equality]

theorem partners_eq (c : Combination ρ) (range : NodeId) :
    w.partners h c range = w.partners g c range := by
  simp only [World.partners, World.source, t.entity, t.join, t.truth_eq]

/-- A range is joined alike before and after, unless it became required and has no partner. -/
theorem extend_eq (same : w.partners g c range = [] → tightened g h range = false) :
    w.extend h c range = w.extend g c range := by
  simp only [World.extend, t.partners_eq]
  cases partners : w.partners g c range with
  | cons first rest => rfl
  | nil =>
    have kept : (h.node range).isOptional = (g.node range).isOptional := by
      have loose := same partners
      have weaker := t.optional range
      cases before : (g.node range).isOptional <;> cases after : (h.node range).isOptional <;>
        simp_all [tightened]
    rw [kept]

/-- A range that became required and has no partner drops the combination. -/
theorem extend_eq_nil (tight : tightened g h range = true) (alone : w.partners g c range = []) :
    w.extend h c range = [] := by
  have firm : (h.node range).isOptional = false := by
    unfold tightened at tight
    simp_all
  simp [World.extend, t.partners_eq, alone, firm]

variable (promises : w.KeepsPromises metadata)

include promises

/-- Once promised ranges are required, the join has the same combinations in the same order, but
for those where the row that a range is joined to is missing. -/
theorem joinFrom_eq_filter (sourced : w.Sourced g c)
    (ordered : g.JoinsInOrder ranges) :
    w.joinFrom h ranges c = (w.joinFrom g ranges c).filter fun joined =>
      ranges.all fun range => !tightened g h range || joined.reaches g range := by
  induction ranges generalizing c with
  | nil => simp [World.joinFrom]
  | cons range rest ih =>
    obtain ⟨first, others⟩ := List.pairwise_cons.mp ordered
    have later : ∀ {extended}, extended ∈ w.extend g c range → w.joinFrom h rest extended =
        (w.joinFrom g rest extended).filter fun joined =>
          rest.all fun range => !tightened g h range || joined.reaches g range :=
      fun step => ih (sourced.extend step) others
    simp only [World.joinFrom, List.filter_flatMap, List.all_cons]
    by_cases tight : tightened g h range = true
    · obtain ⟨own, other, p⟩ := t.promised range tight
      have missing := World.partners_eq_nil_iff p promises sourced
      have settled : ∀ {joined}, joined ∈ w.joinFrom g (range :: rest) c →
          joined.reaches g range = (c.rowOf other.range).isSome :=
        World.reaches_of_mem_joinFrom p.linked first
      cases found : c.rowOf other.range with
      | none =>
        rw [t.extend_eq_nil tight (missing.mpr found), List.flatMap_nil, eq_comm,
          List.flatMap_eq_nil_iff]
        intro extended step
        rw [List.filter_eq_nil_iff]
        intro joined mem
        simp [tight, settled (List.mem_flatMap.mpr ⟨extended, step, mem⟩), found]
      | some row =>
        have same : w.extend h c range = w.extend g c range :=
          t.extend_eq fun none => by simp [missing.mp none] at found
        rw [same]
        refine List.flatMap_congr fun extended step => ?_
        rw [later step]
        refine List.filter_congr fun joined mem => ?_
        rw [settled (List.mem_flatMap.mpr ⟨extended, step, mem⟩), found]
        simp
    · rw [Bool.not_eq_true] at tight
      rw [t.extend_eq fun _ => tight]
      refine List.flatMap_congr fun extended step => ?_
      rw [later step]
      simp [tight]

/-- Where each range that became required is joined to another one that may lack no row, no range
that may lack no row afterwards lacks one before. -/
theorem isSome_of_mem_joinFrom {all : List NodeId}
    (firm : ∀ range ∈ all, tightened g h range = true → ∀ sides ∈ g.link? range,
      sides.2.range ∈ all ∧ (h.node sides.2.range).isOptional = false)
    (among : ranges ⊆ all) (sourced : w.Sourced g c) (ordered : g.JoinsInOrder ranges)
    (done : ∀ id ∈ all, id ∉ ranges → (h.node id).isOptional = false → (c.rowOf id).isSome = true)
    {joined : Combination ρ} (mem : joined ∈ w.joinFrom g ranges c) :
    ∀ id ∈ all, (h.node id).isOptional = false → (joined.rowOf id).isSome = true := by
  induction ranges generalizing c with
  | nil =>
    obtain rfl := List.mem_singleton.mp mem
    exact fun id within => done id within (by simp)
  | cons range rest ih =>
    obtain ⟨first, others⟩ := List.pairwise_cons.mp ordered
    rw [List.cons_subset] at among
    obtain ⟨extended, step, mem⟩ := List.mem_flatMap.mp mem
    refine ih among.2 (sourced.extend step) others (fun id within out required => ?_) mem
    obtain ⟨row, rfl, -, missing⟩ := World.exists_of_mem_extend step
    by_cases same : id = range
    · subst same
      rw [Combination.rowOf_cons_self, Option.isSome_iff_ne_none]
      intro none
      obtain ⟨alone, loose⟩ := missing none
      -- An optional range that is required afterwards was promised a partner by a row that is there.
      obtain ⟨own, other, p⟩ := t.promised id (by simp [tightened, loose, required])
      obtain ⟨ofAll, isFirm⟩ := firm id within (by simp [tightened, loose, required]) _ p.linked
      have present := done other.range ofAll (not_mem_of_link? p.linked first) isFirm
      rw [(World.partners_eq_nil_iff p promises sourced).mp alone] at present
      cases present
    · rw [Combination.rowOf_cons_of_ne same]
      exact done id within (by simp [same, out]) required

end Graph.Tightens

namespace Graph

variable {ρ α : Type} [DecidableEq α] {w : World ρ α} {g : Graph} {metadata : Metadata}
  {scope : NodeId}

/-- Requiring the ranges that relations promise a partner leaves the join of a scope the
combinations it had, in their order, but for those where such a range is joined to a row that is
missing. Where each of them is joined to a range that may lack no row, all combinations stay. -/
theorem joinedRows_requireByRelation (promises : w.KeepsPromises metadata)
    (ordered : g.JoinsInOrder (g.includedRanges scope)) :
    let h := (g.requireByRelation metadata scope).1
    w.joinedRows h scope = (w.joinedRows g scope).filter (fun joined =>
      (g.includedRanges scope).all fun range => !tightened g h range || joined.reaches g range) ∧
    ((∀ range ∈ g.includedRanges scope, tightened g h range = true → ∀ sides ∈ g.link? range,
      sides.2.range ∈ g.includedRanges scope ∧ (h.node sides.2.range).isOptional = false) →
        w.joinedRows h scope = w.joinedRows g scope) := by
  intro h
  have t : Tightens g h metadata := tightens_requireByRelation g metadata scope
  have same : h.includedRanges scope = g.includedRanges scope :=
    g.includedRanges_foldl_setRequired _ true scope
  have exact : w.joinedRows h scope = (w.joinedRows g scope).filter (fun joined =>
      (g.includedRanges scope).all fun range => !tightened g h range || joined.reaches g range) := by
    rw [World.joinedRows, same]
    exact t.joinFrom_eq_filter promises .nil ordered
  refine ⟨exact, fun firm => ?_⟩
  rw [exact, List.filter_eq_self]
  intro joined mem
  have found := t.isSome_of_mem_joinFrom promises firm (List.Subset.refl _) .nil ordered
    (fun id within out => absurd within out) mem
  rw [List.all_eq_true]
  intro range within
  cases tight : tightened g h range with
  | false => rfl
  | true =>
    obtain ⟨own, other, p⟩ := t.promised range tight
    obtain ⟨ofScope, isFirm⟩ := firm range within tight _ p.linked
    simpa [Combination.reaches, p.linked] using found other.range ofScope isFirm

/-- Users with their orders and the customers of the orders; the orders may be demanded. -/
def customersOfUsers (required : Bool) : Graph := ⟨#[
  ⟨.range { name := "u", entity := some "User", join := none, required := false
            included := true, nested := none }, some ⟨9⟩⟩,
  ⟨.identifier { range := ⟨4⟩, path := ["userId"] }, some ⟨3⟩⟩,
  ⟨.identifier { range := ⟨0⟩, path := ["id"] }, some ⟨3⟩⟩,
  ⟨.binary .eq ⟨1⟩ ⟨2⟩, some ⟨4⟩⟩,
  ⟨.range { name := "o", entity := some "Order", join := some ⟨3⟩, required
            included := true, nested := none }, some ⟨9⟩⟩,
  ⟨.identifier { range := ⟨8⟩, path := ["id"] }, some ⟨7⟩⟩,
  ⟨.identifier { range := ⟨4⟩, path := ["customerId"] }, some ⟨7⟩⟩,
  ⟨.binary .eq ⟨5⟩ ⟨6⟩, some ⟨8⟩⟩,
  ⟨.range { name := "c", entity := some "Customer", join := some ⟨7⟩, required := false
            included := true, nested := none }, some ⟨9⟩⟩,
  ⟨.retrieve { Retrieve.empty with ranges := [⟨0⟩, ⟨4⟩, ⟨8⟩] }, none⟩]⟩

/-- Every order has a customer. -/
def ordersHaveCustomers : Metadata where
  relations entity :=
    if entity = "Order" then
      [{ kind := .manyToOne, property := "customer", targetEntity := "Customer"
         relationColumn := "customerId", inversedBy := "id", required := true }]
    else []
  nullable _ _ := true

/-- Two users, an order of the first one, and its customer. -/
def oneOrder : World (List (String × Nat)) Nat where
  rows
    | "User" => [[("id", 1)], [("id", 2)]]
    | "Order" => [[("id", 3), ("userId", 1), ("customerId", 4)]]
    | "Customer" => [[("id", 4)]]
    | _ => []
  column row field := (row.lookup field).elim .null .datum
  related _ _ := none
  results _ := []
  judge _ _ := .unknown

/-- Once the customers are required, the user without orders is lost. Where the orders are demanded
too, the join has nothing to lose. -/
theorem joinedRows_requireByRelation_customersOfUsers :
    oneOrder.KeepsPromises ordersHaveCustomers ∧
      (∀ required, (customersOfUsers required).JoinsInOrder
        ((customersOfUsers required).includedRanges ⟨9⟩)) ∧
      (oneOrder.joinedRows (customersOfUsers false) ⟨9⟩).length = 2 ∧
      oneOrder.joinedRows ((customersOfUsers false).requireByRelation ordersHaveCustomers ⟨9⟩).1
        ⟨9⟩ = (oneOrder.joinedRows (customersOfUsers false) ⟨9⟩).take 1 ∧
      oneOrder.joinedRows ((customersOfUsers true).requireByRelation ordersHaveCustomers ⟨9⟩).1
        ⟨9⟩ = oneOrder.joinedRows (customersOfUsers true) ⟨9⟩ := by
  have promises : oneOrder.KeepsPromises ordersHaveCustomers := by
    intro entity r declared _ _ row mem
    simp only [ordersHaveCustomers] at declared
    split at declared
    · next order =>
      subst order
      obtain rfl := List.mem_singleton.mp declared
      obtain rfl := List.mem_singleton.mp mem
      exact ⟨[("id", 4)], by decide, by decide⟩
    · cases declared
  have ordered : ∀ required, (customersOfUsers required).JoinsInOrder
      ((customersOfUsers required).includedRanges ⟨9⟩) := by
    intro required
    have apart : ((customersOfUsers required).includedRanges ⟨9⟩).Pairwise fun earlier later =>
        ∀ join ∈ (customersOfUsers required).join? earlier, (customersOfUsers required).Has join ∧
          later ∉ (customersOfUsers required).referencedRanges join := by
      unfold Has
      cases required <;> decide
    refine apart.imp fun unread join held reads => ?_
    obtain ⟨has, out⟩ := unread join held
    have acyclic : (customersOfUsers required).Acyclic join :=
      acyclic_of_ordered has (by cases required <;> decide)
    exact out (acyclic.mem_referencedRanges.mpr reads)
  refine ⟨promises, ordered, by decide, ?_, ?_⟩
  · rw [(joinedRows_requireByRelation promises (ordered false)).1]
    decide
  · exact (joinedRows_requireByRelation promises (ordered true)).2 (by decide)

end Graph

end RangeQuery
