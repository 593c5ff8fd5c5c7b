import RangeQuery.Proofs.Predicate.Conjunctions
import RangeQuery.Proofs.Scope.Anchor

/-!
The choice of an anchor. Where all ranges of a list are joined, one of them becomes the anchor exactly
if one may: it is required, or nothing tests it for NULL. Its join predicate moves behind the
condition, with every conjunct in its place.
-/

namespace RangeQuery

/-- Only a test for NULL keeps an optional range from being required. -/
theorem RangeUsage.isCollapsible_eq (u : RangeUsage) (name : String) (required : Bool) :
    u.isCollapsible name required = (required || !u.nullTested.has name) := by
  unfold isCollapsible
  cases required <;> cases u.nullTested.has name <;> cases u.condition.has name <;> simp

namespace Graph

variable {g h : Graph} {usage : RangeUsage} {ranges : List NodeId} {condition : Option NodeId}
  {anchor id : NodeId}

/-! ## Which range is chosen -/

/-- Whether a range may become the anchor: it is required, or nothing tests it for NULL. -/
def mayStart (g : Graph) (usage : RangeUsage) (id : NodeId) : Bool :=
  (g.range? id).any fun r => r.required || !usage.nullTested.has r.name

theorem mayStart_of_isReadCandidate (candidate : g.isReadCandidate usage id = true) :
    g.mayStart usage id = true := by
  obtain ⟨r, found, is⟩ := (Option.any_eq_true ..).mp candidate
  rw [Bool.and_eq_true, RangeUsage.isCollapsible_eq] at is
  exact (Option.any_eq_true ..).mpr ⟨r, found, is.2⟩

/-- A range may become the anchor if it is required, or a candidate that is not. -/
theorem mayStart_eq (g : Graph) (usage : RangeUsage) (id : NodeId) :
    g.mayStart usage id = (g.isRequired id || g.isOptionalCandidate usage id) := by
  unfold mayStart isRequired isOptionalCandidate
  cases g.range? id with
  | none => rfl
  | some r => cases required : r.required <;> simp [RangeUsage.isCollapsible_eq, required]

theorem mayStart_of_anchorCandidate? (found : g.anchorCandidate? usage ranges = some anchor) :
    g.mayStart usage anchor = true := by
  simp only [anchorCandidate?, Option.or_eq_some_iff] at found
  rcases found with read | ⟨-, required | ⟨-, optional⟩⟩
  · exact mayStart_of_isReadCandidate (List.find?_some read)
  · rw [mayStart_eq, List.find?_some required, Bool.true_or]
  · rw [mayStart_eq, List.find?_some optional, Bool.or_true]

/-- None is chosen only if none may become the anchor. -/
theorem anchorCandidate?_eq_none :
    g.anchorCandidate? usage ranges = none ↔ ∀ id ∈ ranges, g.mayStart usage id = false := by
  simp only [anchorCandidate?, Option.or_eq_none_iff, List.find?_eq_none, Bool.not_eq_true]
  constructor
  · rintro ⟨-, required, optional⟩ id mem
    rw [mayStart_eq, required id mem, optional id mem, Bool.or_false]
  · intro none
    refine ⟨fun id mem => ?_, fun id mem => ?_, fun id mem => ?_⟩
    · by_contra read
      have may := mayStart_of_isReadCandidate (Bool.eq_true_of_not_eq_false read)
      rw [none id mem] at may
      cases may
    · exact (Bool.or_eq_false_iff.mp (g.mayStart_eq usage id ▸ none id mem)).1
    · exact (Bool.or_eq_false_iff.mp (g.mayStart_eq usage id ▸ none id mem)).2

/-! ## Where its predicate goes -/

/-- The same conjuncts are listed within as many levels, if the conjunctions below stay and what is
none becomes none. -/
theorem filter_preorder_and {predicate : NodeId}
    (same : ∀ id, g.Below predicate id → (h.node id).isAnd = (g.node id).isAnd ∧
      ((g.node id).isAnd = true → h.children id = g.children id)) :
    ((h.preorder (fun id => (h.node id).isAnd) g.size predicate).filter
      fun id => !(h.node id).isAnd) = g.conjuncts predicate := by
  have below : ∀ {id}, id ∈ g.preorder (fun id => (g.node id).isAnd) g.size predicate →
      g.Below predicate id := fun met =>
    let ⟨trail, way, _⟩ := mem_preorder.mp met
    ⟨trail, way⟩
  rw [conjuncts_eq, preorder_congr_of_mem fun id met => same id (below met)]
  exact List.filter_congr fun id met => by rw [(same id (below met)).1]

/-- Adding a predicate to a condition writes at most a conjunction, into a new slot. -/
theorem node_conjoinWith_or (g : Graph) (condition : Option NodeId) (extra id : NodeId) :
    (g.conjoinWith condition extra).1.node id = g.node id ∨
      ¬ g.Has id ∧ ((g.conjoinWith condition extra).1.node id).isAnd = true := by
  cases condition with
  | none => exact .inl rfl
  | some existing =>
    simp only [conjoinWith, addBinary]
    by_cases has : g.Has id
    · exact .inl (node_add has _)
    · by_cases new : id = g.next
      · subst new
        exact .inr ⟨has, by rw [node_add_next]; rfl⟩
      · have absent : ¬ (g.add (.binary .and existing extra)).1.Has id := by simp [has_add_iff, has, new]
        exact .inl ((node_of_not_has absent).trans (node_of_not_has has).symm)

section

variable {r : Range} {join : NodeId} (node : g.node anchor = .range r) (held : r.join = some join)

include node held

theorem promote_eq (condition : Option NodeId) :
    g.promote anchor condition =
      (((g.setJoin anchor none).conjoinWith condition join).1.setRequired anchor true,
        some ((g.setJoin anchor none).conjoinWith condition join).2) := by
  simp only [promote, join?_eq node, held]

/-- Promoting a joined range writes no other range, and adds at most a conjunction. -/
theorem node_promote (condition : Option NodeId) :
    (g.promote anchor condition).1.node anchor = .range { r with join := none, required := true } ∧
      ∀ id, id ≠ anchor → (g.promote anchor condition).1.node id = g.node id ∨
        ¬ g.Has id ∧ ((g.promote anchor condition).1.node id).isAnd = true := by
  have has : g.Has anchor := has_of_node node (by simp)
  have has' : (g.setJoin anchor none).Has anchor := by rwa [Has, size_setJoin]
  have freed := node_setJoin_self has node none
  rw [promote_eq node held]
  constructor
  · have kept := Same.conjoinWith id (g.setJoin anchor none) condition join
    have still : ((g.setJoin anchor none).conjoinWith condition join).1.node anchor =
        .range { r with join := none } := (kept.node has').trans freed
    simp only [setRequired, updateRange, still]
    exact node_setNode_self _ (kept.has has') _
  · intro id ne
    rw [setRequired, node_updateRange_of_ne _ ne, ← node_setJoin_of_ne g ne none]
    simpa only [Has, size_setJoin] using node_conjoinWith_or (g.setJoin anchor none) condition join id

/-- The conjuncts of the join predicate follow those of the condition. -/
theorem conjuncts_promote (grounded : ∀ top ∈ condition.toList ++ [join], g.Grounded top) :
    ∃ all, (g.promote anchor condition).2 = some all ∧
      (g.promote anchor condition).1.conjuncts all =
        g.conjunctsOf condition ++ g.conjuncts join := by
  have has : g.Has anchor := has_of_node node (by simp)
  obtain ⟨written, others⟩ := node_promote node held condition
  -- No conjunction of the parts reaches through the range, as it is none itself.
  have parts : ∀ top ∈ condition.toList ++ [join],
      (((g.promote anchor condition).1.preorder
        (fun id => ((g.promote anchor condition).1.node id).isAnd) g.size top).filter
          fun id => !((g.promote anchor condition).1.node id).isAnd) = g.conjuncts top := by
    refine fun top mem => filter_preorder_and fun id below => ?_
    by_cases here : id = anchor
    · subst here
      rw [written, node]
      exact ⟨rfl, fun isAnd => by cases isAnd⟩
    · have same := (others id here).resolve_right fun new => new.1 (grounded top mem id below)
      exact ⟨congrArg Node.isAnd same, fun _ => congrArg Node.children same⟩
  have promoted := promote_eq node held condition
  have size := size_setJoin g anchor none
  cases condition with
  | none =>
    refine ⟨join, by rw [promoted]; rfl, ?_⟩
    have size' : (g.promote anchor none).1.size = g.size := by
      rw [promoted, (Relabels.setRequired ..).size]
      exact size
    rw [conjuncts_eq, size', conjunctsOf_none, List.nil_append]
    exact parts join (by simp)
  | some existing =>
    refine ⟨g.next, by rw [promoted, next, ← size]; rfl, ?_⟩
    have size' : (g.promote anchor (some existing)).1.size = g.size + 1 := by
      rw [promoted, (Relabels.setRequired ..).size, ← size]
      exact size_add ..
    have top : (g.promote anchor (some existing)).1.node g.next = .binary .and existing join := by
      rw [promoted, setRequired, node_updateRange_of_ne _ (ne_next_of_has has).symm, next, ← size]
      exact node_add_next ..
    have slots : (g.promote anchor (some existing)).1.children g.next = [existing, join] := by
      rw [children, top]
      rfl
    have isAnd : ((g.promote anchor (some existing)).1.node g.next).isAnd = true := by rw [top]; rfl
    rw [conjuncts_eq, size', preorder, slots]
    simp only [isAnd, if_true, List.flatMap_cons, List.flatMap_nil, List.append_nil,
      List.filter_cons, Bool.not_true, Bool.false_eq_true, if_false, List.filter_append]
    rw [parts existing (by simp), parts join (by simp), conjunctsOf_some]

end

/-! ## The choice -/

/-- A list of ranges with an anchor stays as it is, and so does one in which no range may become one.
Else one range that may is freed of its join predicate, required and put in front; the conjuncts of
its predicate follow those of the condition, and nothing but their conjunction is new. -/
theorem withAnchor_promotes_one (distinct : ranges.Nodup)
    (isRange : ∀ id ∈ ranges, (g.node id).isRange = true)
    (grounded : ∀ id ∈ condition.toList ++ ranges, g.Grounded id) :
    ((∃ id ∈ ranges, g.join? id = none) →
      g.withAnchor ranges condition usage = (g, ranges, condition)) ∧
    ((∀ id ∈ ranges, g.join? id ≠ none) → (∃ id ∈ ranges, g.mayStart usage id = true) →
      ∃ anchor ∈ ranges, ∃ r join, g.node anchor = .range r ∧ r.join = some join ∧
        g.mayStart usage anchor = true ∧ ∃ h all,
          g.withAnchor ranges condition usage = (h, anchor :: ranges.erase anchor, some all) ∧
          h.node anchor = .range { r with join := none, required := true } ∧
          (∀ id, id ≠ anchor →
            h.node id = g.node id ∨ ¬ g.Has id ∧ (h.node id).isAnd = true) ∧
          h.conjuncts all = g.conjunctsOf condition ++ g.conjuncts join) ∧
    ((∀ id ∈ ranges, g.join? id ≠ none) → (∀ id ∈ ranges, g.mayStart usage id = false) →
      g.withAnchor ranges condition usage = (g, ranges, condition)) := by
  have isAnchor_iff : ∀ id ∈ ranges, g.isAnchor id = true ↔ g.join? id = none := by
    intro id mem
    obtain ⟨r, node⟩ := Node.exists_of_isRange (isRange id mem)
    simp [isAnchor, range?, node, join?_eq node, Range.isAnchor]
  have joined : (∀ id ∈ ranges, g.join? id ≠ none) → ranges.any g.isAnchor = false := by
    intro all
    rw [List.any_eq_false]
    exact fun id mem starts => all id mem ((isAnchor_iff id mem).mp starts)
  refine ⟨?_, fun all may => ?_, fun all none => ?_⟩
  · rintro ⟨id, mem, free⟩
    exact if_pos (List.any_eq_true.mpr ⟨id, mem, (isAnchor_iff id mem).mpr free⟩)
  · cases found : g.anchorCandidate? usage ranges with
    | none =>
      obtain ⟨id, mem, is⟩ := may
      rw [anchorCandidate?_eq_none.mp found id mem] at is
      cases is
    | some anchor =>
      have mem := mem_of_anchorCandidate? found
      obtain ⟨r, node⟩ := Node.exists_of_isRange (isRange anchor mem)
      obtain ⟨join, held⟩ := Option.ne_none_iff_exists'.mp (join?_eq node ▸ all anchor mem)
      have slot : join ∈ g.children anchor := by simp [children, node, Node.children, held]
      obtain ⟨predicate, is, conjuncts⟩ := conjuncts_promote node held
        fun top (among : top ∈ condition.toList ++ [join]) => by
          rcases List.mem_append.mp among with among | among
          · exact grounded top (List.mem_append_left _ among)
          · rw [List.mem_singleton.mp among]
            exact (grounded anchor (List.mem_append_right _ mem)).below (below_of_child slot)
      obtain ⟨written, others⟩ := node_promote node held condition
      refine ⟨anchor, mem, r, join, node, held, mayStart_of_anchorCandidate? found, _, predicate, ?_,
        written, others, conjuncts⟩
      simp only [withAnchor, joined all, found, Bool.false_eq_true, if_false]
      rw [anchorFirst_eq_erase distinct, is]
  · simp only [withAnchor, joined all, anchorCandidate?_eq_none.mpr none, Bool.false_eq_true, if_false]

/-- Some items of the orders of a customer, without the range over the customer. -/
def itemsOfOrders : Graph := ⟨#[
  ⟨.range { name := "c", entity := some "Customer", join := none, required := false
            included := true, nested := none }, none⟩,
  ⟨.range { name := "o", entity := some "Order", join := some ⟨4⟩, required := true
            included := true, nested := none }, none⟩,
  ⟨.identifier { range := ⟨1⟩, path := ["customerId"] }, some ⟨4⟩⟩,
  ⟨.identifier { range := ⟨0⟩, path := ["id"] }, some ⟨4⟩⟩,
  ⟨.binary .eq ⟨2⟩ ⟨3⟩, some ⟨1⟩⟩,
  ⟨.range { name := "i", entity := some "Item", join := some ⟨8⟩, required := false
            included := true, nested := none }, none⟩,
  ⟨.identifier { range := ⟨5⟩, path := ["orderId"] }, some ⟨8⟩⟩,
  ⟨.identifier { range := ⟨1⟩, path := ["id"] }, some ⟨8⟩⟩,
  ⟨.binary .eq ⟨6⟩ ⟨7⟩, some ⟨5⟩⟩,
  ⟨.identifier { range := ⟨5⟩, path := ["quantity"] }, some ⟨11⟩⟩,
  ⟨.number "1", some ⟨11⟩⟩,
  ⟨.binary .gt ⟨9⟩ ⟨10⟩, none⟩]⟩

/-- The items are read by an expression, the orders by nothing. -/
def itemsRead : RangeUsage where
  expression := .ofList [("i", true)]
  condition := .ofList [("i", true), ("o", false)]
  nullTested := .empty
  nonNullable := .empty

/-- The items become the anchor, though the orders are required, and the comparison with the order
follows the test of the quantity. -/
theorem withAnchor_promotes_one_itemsOfOrders :
    (([⟨1⟩, ⟨5⟩] : List NodeId).Nodup ∧
      (∀ id ∈ ([⟨1⟩, ⟨5⟩] : List NodeId), (itemsOfOrders.node id).isRange = true) ∧
      ∀ id ∈ (some ⟨11⟩ : Option NodeId).toList ++ [⟨1⟩, ⟨5⟩], itemsOfOrders.Grounded id) ∧
    ∃ h all, itemsOfOrders.withAnchor [⟨1⟩, ⟨5⟩] (some ⟨11⟩) itemsRead =
        (h, [⟨5⟩, ⟨1⟩], some all) ∧
      h.node ⟨5⟩ = .range { name := "i", entity := some "Item", join := none, required := true
                            included := true, nested := none } ∧
      h.node ⟨1⟩ = itemsOfOrders.node ⟨1⟩ ∧ h.conjuncts all = [⟨11⟩, ⟨8⟩] := by
  have distinct : ([⟨1⟩, ⟨5⟩] : List NodeId).Nodup := by decide
  have isRange : ∀ id ∈ ([⟨1⟩, ⟨5⟩] : List NodeId), (itemsOfOrders.node id).isRange = true := by
    decide
  have grounded : ∀ id ∈ (some ⟨11⟩ : Option NodeId).toList ++ [⟨1⟩, ⟨5⟩],
      itemsOfOrders.Grounded id := by
    have has : ∀ id ∈ (some ⟨11⟩ : Option NodeId).toList ++ [⟨1⟩, ⟨5⟩], itemsOfOrders.Has id := by
      decide
    exact fun id mem => grounded_of_closed (has id mem) (by decide)
  refine ⟨⟨distinct, isRange, grounded⟩, ?_⟩
  obtain ⟨anchor, mem, r, join, node, held, -, h, all, chosen, written, others, conjuncts⟩ :=
    (@withAnchor_promotes_one _ itemsRead _ _ distinct isRange grounded).2.1 (by decide)
      (by decide)
  have first : (itemsOfOrders.withAnchor [⟨1⟩, ⟨5⟩] (some ⟨11⟩) itemsRead).2.1 = [⟨5⟩, ⟨1⟩] := by
    decide
  rw [chosen] at first
  obtain rfl : anchor = ⟨5⟩ := (List.cons_eq_cons.mp first).1
  obtain rfl := Node.range.inj node
  obtain rfl := Option.some.inj held
  refine ⟨h, all, chosen, written, (others ⟨1⟩ (by decide)).resolve_right fun new => new.1 (by decide), ?_⟩
  rw [conjuncts]
  decide

end Graph

end RangeQuery
