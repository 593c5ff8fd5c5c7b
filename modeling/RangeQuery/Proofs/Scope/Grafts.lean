import RangeQuery.Proofs.Scope.AnchorCount
import RangeQuery.Proofs.Scope.ConditionalAggregates
import RangeQuery.Proofs.Scope.LastingViews

/-!
What the passes put into old nodes. Where a pass fills a slot of an old node it mostly puts a closed
node there, a subquery or a number, which holds no aggregate of the scope. Excepted are the slots of
aggregates, and those of the scope that a pass runs over and of the ranges that it declares.
-/

namespace RangeQuery

/-- A subquery or a number. -/
def Node.isClosed : Node → Bool
  | .subquery _ | .number _ => true
  | _ => false

/-- The join predicate of a range. -/
def Node.joined? : Node → Option NodeId
  | .range r => r.join
  | _ => none

theorem Node.isClosed_stamp (node : Node) : node.stamp.isClosed = node.isClosed := by
  cases node <;> rfl

theorem Node.steady_joined? : Steady Node.joined? where
  required _ _ := rfl
  window _ _ := rfl
  condition {node _ _} h := by
    cases node <;> simp only [withCondition?, Option.some.injEq, reduceCtorEq] at h <;> subst h <;>
      rfl

theorem Node.blind_condition? : Blind Node.condition? where
  range _ _ := rfl
  identifier _ _ := rfl

theorem Node.joined?_excluded (node : Node) : node.excluded.joined? = node.joined? := by
  cases node <;> rfl

theorem Node.mem_children_of_joined? {node : Node} {join : NodeId}
    (held : node.joined? = some join) : join ∈ node.children := by
  cases node <;> simp_all [joined?, children]

/-! ## Swapped children -/

/-- After a swap a range is joined by what joined it, or by the new node. -/
theorem Node.joined?_replace {node : Node} {old new join : NodeId}
    (held : (node.withChildren (node.children.replace old new)).joined? = some join) :
    node.joined? = some join ∨ join = new := by
  cases node with
  | range r =>
    obtain ⟨_, _, before, _, _, nested⟩ := r
    cases before with
    | none => simp [withChildren, Range.withChildren, joined?] at held
    | some before =>
      by_cases same : old = before
      · simp_all [withChildren, Range.withChildren, joined?, children]
      · have apart : (old == before) = false := by simpa using same
        simp_all [withChildren, Range.withChildren, joined?, children, List.replace_cons]
  | _ => cases held

/-- After a swap the condition is what it was, or the new node. -/
theorem Node.condition?_replace {node : Node} {old new condition : NodeId}
    (held : (node.withChildren (node.children.replace old new)).condition? = some condition) :
    node.condition? = some condition ∨ condition = new := by
  -- The slot of a condition is one place further in both lists of children.
  have slot : ∀ {ids changed : List NodeId} {before : NodeId},
      List.Forall₂ (fun before after => after = before ∨ after = new) (before :: ids) changed →
      changed.headD before = condition → before = condition ∨ condition = new := by
    rintro ids changed before swap rfl
    cases swap with
    | cons first _ => exact first.imp Eq.symm id
  have swap := forall₂_replace node.children old new
  cases node with
  | retrieve r =>
    obtain ⟨ranges, values, before, sort, _, _, _, _⟩ := r
    cases before with
    | none => cases held
    | some before =>
      have behind := List.forall₂_drop values.length (List.forall₂_drop ranges.length swap)
      simp only [children, Option.toList_some, List.append_assoc, List.drop_left,
        List.singleton_append] at behind
      simp only [withChildren, Retrieve.withChildren, condition?, Option.map_some,
        Option.some.injEq, children, Option.toList_some, List.append_assoc,
        List.singleton_append] at held ⊢
      exact slot behind held
  | aggregate a =>
    obtain ⟨_, operand, before⟩ := a
    cases before with
    | none => cases held
    | some before =>
      have behind := List.forall₂_drop 1 swap
      simp only [children, Option.toList_some, List.drop_succ_cons, List.drop_zero] at behind
      simp only [withChildren, condition?, Option.map_some, Option.some.injEq] at held ⊢
      refine slot behind ?_
      rw [← held, List.headD_eq_head?_getD, List.head?_drop, List.getD_eq_getElem?_getD]
      rfl
  | subquery s =>
    obtain ⟨_, ranges, expression, before⟩ := s
    cases before with
    | none => cases held
    | some before =>
      have behind := List.forall₂_drop expression.toList.length
        (List.forall₂_drop ranges.length swap)
      simp only [children, Option.toList_some, List.append_assoc, List.drop_left] at behind
      simp only [withChildren, Subquery.withChildren, condition?, Option.map_some,
        Option.some.injEq, children, Option.toList_some, List.append_assoc] at held ⊢
      exact slot behind held
  | _ => cases held

namespace Graph

variable {g h k : Graph} {root scope id : NodeId} {moved refilled : Set NodeId}

theorem Same.isClosed (same : Same Node.stamp g h) (has : g.Has id) :
    (h.node id).isClosed = (g.node id).isClosed := by
  rw [← Node.isClosed_stamp, same.node has, Node.isClosed_stamp]

/-- What an old node holds it held before, or it is a closed node. This leaves out some nodes whose
children are moved, some whose condition is filled anew, and what aggregates compute. -/
structure Grafts (g h : Graph) (moved refilled : Set NodeId) : Prop where
  stamp : Same Node.stamp g h
  terms : ∀ {owner child}, g.Has owner → owner ∉ moved → (∀ a, g.node owner ≠ .aggregate a) →
    child ∈ h.children owner →
    child ∈ g.children owner ∨ h.Has child ∧ (h.node child).isClosed = true
  joins : ∀ {range join}, g.Has range → range ∉ moved → (h.node range).joined? = some join →
    (g.node range).joined? = some join ∨ h.Has join ∧ (h.node join).isClosed = true
  conditions : ∀ {owner condition}, g.Has owner → owner ∉ refilled →
    (h.node owner).condition? = some condition →
    (g.node owner).condition? = some condition ∨
      h.Has condition ∧ (h.node condition).isClosed = true

namespace Grafts

/-- Nodes that only differ in their labels hold what they held. -/
theorem of_children (stamp : Same Node.stamp g h)
    (children : ∀ {owner}, g.Has owner → owner ∉ moved → h.children owner = g.children owner)
    (joins : ∀ {range}, g.Has range → range ∉ moved →
      (h.node range).joined? = (g.node range).joined?)
    (conditions : Same Node.condition? g h) : Grafts g h moved refilled where
  stamp := stamp
  terms has out _ slot := .inl (children has out ▸ slot)
  joins has out held := .inl (joins has out ▸ held)
  conditions has _ held := .inl (conditions.node has ▸ held)

theorem refl (g : Graph) : Grafts g g moved refilled :=
  of_children (.refl _ g) (fun _ _ => rfl) (fun _ _ => rfl) (.refl _ g)

theorem of_extends (e : Extends g h) : Grafts g h moved refilled :=
  of_children e.same (fun has _ => e.children has) (fun has _ => by rw [e.node has]) e.same

theorem of_relabels (r : Relabels g h) (stamp : Same Node.stamp g h)
    (joined : Same Node.joined? g h) (conditions : Same Node.condition? g h) :
    Grafts g h moved refilled :=
  of_children stamp (fun _ _ => r.children _) (fun has _ => joined.node has) conditions

theorem trans (a : Grafts g h moved refilled) (b : Grafts h k moved refilled) :
    Grafts g k moved refilled where
  stamp := a.stamp.trans b.stamp
  terms {owner child} has out none slot := by
    have none' : ∀ after, h.node owner ≠ .aggregate after := by
      intro after node
      have stamp := a.stamp.node has
      rw [node] at stamp
      cases before : g.node owner <;> simp_all [Node.stamp, Node.label]
    rcases b.terms (a.stamp.has has) out none' slot with slot | closed
    · exact (a.terms has out none slot).imp_right fun closed =>
        ⟨b.stamp.has closed.1, (b.stamp.isClosed closed.1).trans closed.2⟩
    · exact .inr closed
  joins has out held := by
    rcases b.joins (a.stamp.has has) out held with held | closed
    · exact (a.joins has out held).imp_right fun closed =>
        ⟨b.stamp.has closed.1, (b.stamp.isClosed closed.1).trans closed.2⟩
    · exact .inr closed
  conditions has out held := by
    rcases b.conditions (a.stamp.has has) out held with held | closed
    · exact (a.conditions has out held).imp_right fun closed =>
        ⟨b.stamp.has closed.1, (b.stamp.isClosed closed.1).trans closed.2⟩
    · exact .inr closed

theorem mono {moved' refilled' : Set NodeId} (grafts : Grafts g h moved refilled)
    (more : moved ⊆ moved') (more' : refilled ⊆ refilled') : Grafts g h moved' refilled' where
  stamp := grafts.stamp
  terms has out := grafts.terms has fun mem => out (more mem)
  joins has out := grafts.joins has fun mem => out (more mem)
  conditions has out := grafts.conditions has fun mem => out (more' mem)

theorem changeEach {change : Graph → NodeId → Graph × Bool}
    (each : ∀ g id, Grafts g (change g id).1 moved refilled) (g : Graph) (ids : List NodeId) :
    Grafts g (Graph.changeEach change g ids).1 moved refilled := by
  induction ids generalizing g with
  | nil => exact .refl g
  | cons id rest ih => exact (each g id).trans (ih _)

/-! ## Setters -/

theorem replace {new : NodeId} (has : g.Has new) (closed : (g.node new).isClosed = true)
    (old : NodeId) : Grafts g (g.replace old new).1 moved refilled := by
  have stamp : Same Node.stamp g (g.replace old new).1 :=
    Node.formal_stamp.toPlaced.replace g old new
  have closed' : ∀ {id}, id = new → (g.replace old new).1.Has id ∧
      ((g.replace old new).1.node id).isClosed = true := by
    rintro id rfl
    exact ⟨stamp.has has, (stamp.isClosed has).trans closed⟩
  refine ⟨stamp, fun {owner child} has' _ _ slot => ?_, fun {range join} has' _ held => ?_,
    fun {owner condition} has' _ held => ?_⟩
  · rw [children] at slot
    rcases node_replace_or has' old new with same | same <;> rw [same] at slot
    · exact .inl slot
    · have swap := forall₂_replace (g.node owner).children old new
      rw [Node.children_withChildren _ swap.length_eq.symm] at slot
      exact (mem_of_forall₂_swap swap slot).symm.imp_right closed'
  · rcases node_replace_or has' old new with same | same <;> rw [same] at held
    · exact .inl held
    · exact (Node.joined?_replace held).imp_right closed'
  · rcases node_replace_or has' old new with same | same <;> rw [same] at held
    · exact .inl held
    · exact (Node.condition?_replace held).imp_right closed'

theorem add (g : Graph) (node : Node) : Grafts g (g.add node).1 moved refilled :=
  .of_children (.add _ g node) (fun has _ => by rw [children, node_add has, children])
    (fun has _ => by rw [node_add has]) (.add _ g node)

theorem replaceByNew {node : Node} (closed : node.isClosed = true) (g : Graph) (old : NodeId) :
    Grafts g ((g.add node).1.replace old g.next).1 moved refilled :=
  (add g node).trans <| .replace (g.has_add_next node) (by rwa [node_add_next]) old

theorem setWindow (g : Graph) (id : NodeId) (window : Option Window) :
    Grafts g (g.setWindow id window) moved refilled := by
  refine .of_relabels (.setWindow g id window) (Node.formal_stamp.toCalm.setWindow g id window)
    (Node.steady_joined?.toCalm.setWindow g id window) ?_
  cases node : g.node id with
  | retrieve r =>
    simp only [Graph.setWindow, node]
    exact .setNode (by rw [node]; rfl)
  | _ => simpa only [Graph.setWindow, node] using .refl _ g

/-! ## Aggregates -/

theorem replaceBySubquery (g : Graph) (old : NodeId) (kind : SubqueryKind)
    (expression : Option NodeId) (sub : CorrelatedScope) :
    Grafts g (g.replaceBySubquery old kind expression sub) moved refilled :=
  .replaceByNew rfl g old

theorem inlineAny (g : Graph) (scope any : NodeId) :
    Grafts g (g.inlineAny scope any) moved refilled := by
  have swapped : Grafts g ((g.add (.number "1")).1.replace any g.next).1 moved refilled :=
    .replaceByNew rfl g any
  unfold Graph.inlineAny
  dsimp only
  split
  · exact swapped.trans (.setWindow _ scope _)
  · exact swapped

theorem resolved {metadata : Metadata} {any : NodeId} (r : Resolved g metadata scope any h) :
    Grafts g h moved refilled := by
  cases r with
  | left beside => exact .of_extends beside
  | inlined _ beside => exact (of_extends beside).trans (.inlineAny _ scope any)
  | replaced form _ c => exact (of_extends c.beside).trans (.replaceBySubquery _ any _ _ _)

theorem wrapped {metadata : Metadata} {ranges : List NodeId} {done : Bool}
    (w : Wrapped g metadata ranges id h done) : Grafts g h moved refilled := by
  cases w with
  | left beside => exact .of_extends beside
  | tested _ _ _ c => exact (of_extends c.beside).trans (.replaceBySubquery _ id _ _ _)
  | valued _ _ v => exact (of_extends v.beside).trans (.replaceBySubquery _ id _ _ _)

theorem foldCondition (g : Graph) (id : NodeId) :
    Grafts g (g.foldCondition id).1 moved refilled := by
  by_cases folds : ∀ a, g.node id = .aggregate a → a.condition = none
  · rw [foldCondition_eq_self folds]
    exact .refl g
  · obtain ⟨⟨function, operand, condition⟩, node, some⟩ := not_forall₂.mp folds
    obtain ⟨condition, rfl⟩ := Option.ne_none_iff_exists'.mp some
    have stamp := Node.formal_stamp.toPlaced.foldCondition g id
    rw [fst_foldCondition node] at stamp ⊢
    refine ⟨stamp, fun {owner child} has _ none slot => ?_, fun {range join} has _ held => ?_,
      fun {owner condition} has _ held => ?_⟩
    · have ne : owner ≠ id := fun same => none _ (same ▸ node)
      rw [children, node_folded_of_ne has ne] at slot
      exact .inl slot
    · by_cases same : range = id
      · rw [same, node_folded_self node] at held
        cases held
      · rw [node_folded_of_ne has same] at held
        exact .inl held
    · by_cases same : owner = id
      · rw [same, node_folded_self node] at held
        cases held
      · rw [node_folded_of_ne has same] at held
        exact .inl held

theorem freeAggregate (metadata : Metadata) (strategy : AggregateStrategy) {ranges : List NodeId}
    (isRange : ∀ range ∈ ranges, (g.node range).isRange = true)
    (sites : List (NodeId × ExpressionSite)) :
    Grafts g (Graph.freeAggregate metadata strategy ranges g sites).1 moved refilled := by
  induction sites generalizing g with
  | nil => exact .refl g
  | cons first rest ih =>
    rw [freeAggregate_cons]
    have one : Grafts g (g.freeOne metadata strategy ranges first.1 first.2).1 moved refilled := by
      rcases freeOne_cases metadata strategy isRange first.1 first.2 with w | ⟨h, w, same⟩
      · exact .wrapped w
      · rw [same]
        exact (wrapped w).trans (.foldCondition h first.1)
    exact one.trans (ih fun range mem => one.stamp.isRange_mono (isRange range mem))

/-- A condition that is promoted leaves its aggregate and becomes the filter of the scope. -/
theorem promoteCondition (g : Graph) (scope : NodeId) :
    Grafts g (g.promoteCondition scope).1 {scope} {scope} := by
  have stamp := Node.formal_stamp.toCalm.promoteCondition g scope
  have joins := Node.steady_joined?.toCalm.promoteCondition g scope
  unfold Graph.promoteCondition at stamp joins ⊢
  split at stamp
  · next aggregate condition found =>
    obtain ⟨value, a, -, -, -, node, -⟩ := soleConditional?_eq_some found
    simp only [found] at joins ⊢
    have kept : ∀ {owner}, owner ∉ ({scope} : Set NodeId) →
        ((g.setCondition aggregate none).setCondition scope (some condition)).node owner =
          (g.setCondition aggregate none).node owner := fun out =>
      node_setCondition_of_ne _ (by simpa using out) _
    refine ⟨stamp, fun {owner child} has out none slot => ?_, fun has _ held => .inl ?_,
      fun {owner other} has out held => ?_⟩
    · have ne : owner ≠ aggregate := fun same => none a (same ▸ node)
      rw [children, kept out, node_setCondition_of_ne _ ne] at slot
      exact .inl slot
    · rwa [joins.node has] at held
    · rw [kept out] at held
      by_cases same : owner = aggregate
      · have freed : (g.node aggregate).withCondition? none =
            some (.aggregate { a with condition := none }) := by rw [node]; rfl
        rw [same, node_setCondition_self (has_of_aggregate node) freed] at held
        cases held
      · rw [node_setCondition_of_ne _ same] at held
        exact .inl held
  · exact .refl g

theorem freeAggregatesOfOne (g : Graph) (scope : NodeId) :
    Grafts g (g.freeAggregatesOfOne scope).1 {scope} {scope} :=
  (promoteCondition g scope).trans (.changeEach (fun g _ => .changeEach .foldCondition g _) _ _)

/-! ## Filters and ranges -/

theorem setCondition (g : Graph) (id : NodeId) (condition : Option NodeId) :
    Grafts g (g.setCondition id condition) {id} {id} where
  stamp := Node.formal_stamp.toCalm.setCondition g id condition
  terms _ out _ slot := by
    rw [children, node_setCondition_of_ne g (by simpa using out)] at slot
    exact .inl slot
  joins _ out held := by
    rw [node_setCondition_of_ne g (by simpa using out)] at held
    exact .inl held
  conditions _ out held := by
    rw [node_setCondition_of_ne g (by simpa using out)] at held
    exact .inl held

theorem requireAll (g : Graph) (ranges : List NodeId) :
    Grafts g (g.requireAll ranges) moved refilled :=
  .of_relabels (.requireAll g ranges) (Node.formal_stamp.toSteady.requireAll g ranges)
    (Node.steady_joined?.requireAll g ranges)
    (.foldl (fun g id => Node.blind_condition?.setRequired g id true) g ranges)

theorem conjoin (g : Graph) (ids : List NodeId) : Grafts g (g.conjoin ids).1 moved refilled :=
  .of_children (.conjoin _ g ids)
    (fun has _ => congrArg Node.children ((Same.conjoin (fun node => node) g ids).node has))
    (fun has _ => (Same.conjoin Node.joined? g ids).node has) (.conjoin _ g ids)

theorem extractMarkers (g : Graph) (scope : NodeId) :
    Grafts g (g.extractMarkers scope).1 {scope} {scope} := by
  unfold Graph.extractMarkers
  split
  · unfold Graph.extractMarkersOf
    dsimp only
    split
    · exact .refl g
    · exact ((Grafts.requireAll g _).trans (.conjoin _ _)).trans (.setCondition _ _ _)
  · exact .refl g

theorem decideRequired (g : Graph) (metadata : Metadata) (pinned : List NodeId) (scope : NodeId) :
    Grafts g (g.decideRequired metadata pinned scope).1 moved refilled :=
  .of_relabels (.decideRequired g metadata pinned scope)
    (Node.formal_stamp.toSteady.decideRequired g metadata pinned scope)
    (Node.steady_joined?.decideRequired g metadata pinned scope)
    (Node.blind_condition?.decideRequired g metadata pinned scope)

theorem dropDeadJoins (g : Graph) (scope : NodeId) :
    Grafts g (g.dropDeadJoins scope).1 moved refilled :=
  .of_relabels (.dropDeadJoins g scope) (Node.formal_stamp.toUnbound.dropDeadJoins g scope)
    (dropDeadJoins_induction (motive := Same Node.joined? g)
      (fun _ _ same => same.trans (.updateRange _ fun _ => rfl)) (.refl _ g))
    (Node.blind_condition?.dropDeadJoins g scope)

theorem putAnchorFirst (g : Graph) (scope : NodeId) :
    Grafts g (g.putAnchorFirst scope).1 {scope} refilled := by
  rcases g.putAnchorFirst_cases scope with same | ⟨anchor, -, same⟩ <;> rw [same]
  · exact .refl g
  · cases held : (g.node scope).ranges? with
    | none =>
      simp only [setRanges, held]
      exact .refl g
    | some old =>
      have stamp := Node.formal_stamp.toPlaced.setRanges g scope
      refine .of_children (stamp _) (fun has out => ?_) (fun has out => ?_)
        ⟨(stamp _).size, fun {id} has => ?_⟩
      · rw [children, node_setRanges held has, if_neg (by simpa using out), children]
      · rw [node_setRanges held has, if_neg (by simpa using out)]
      · rw [node_setRanges held has]
        split
        · next here =>
          rw [here]
          cases g.node scope <;> rfl
        · rfl

theorem mergePair {pair : IdentityPair} (p : g.IsPair (g.includedRanges scope) pair)
    (within : ∀ id ∈ (g.node scope).declared, id ∈ moved) :
    Grafts g (g.mergePair scope pair) moved refilled := by
  have labels := (Relabels.rebind (g.rejoined pair) scope
    (Renaming.empty.insert pair.removed pair.kept)).trans (.exclude _ pair.removed)
  have stamp := Node.formal_stamp.toUnbound.mergePair g scope pair
  have apart : ∀ {id}, id ∉ moved → (g.rejoined pair).node id = g.node id := by
    intro id out
    refine node_rejoined_of_ne ?_ ?_ <;> rintro rfl
    · exact out (within _ (mem_includedRanges p.kept).1)
    · exact out (within _ (mem_includedRanges p.removed).1)
  refine .of_children stamp (fun has out => ?_) (fun {range} has out => ?_)
    (Node.blind_condition?.mergePair g scope pair)
  · rw [mergePair_eq, labels.children, children, apart out, children]
  · by_cases isRange : (g.node range).isRange = true
    · rw [node_mergePair_of_isRange isRange]
      split <;> simp only [Node.joined?_excluded, apart out]
    · have isRange' := (stamp.isRange has).trans (Bool.eq_false_iff.mpr isRange)
      cases before : g.node range <;> cases after : (g.mergePair scope pair).node range <;>
        simp_all [Node.joined?, Node.isRange]

theorem mergeSelfJoins (l : g.Linked root) (isScope : g.ScopeIn root scope)
    (within : ∀ id ∈ (g.node scope).declared, id ∈ moved) :
    Grafts g (g.mergeSelfJoins scope).1 moved refilled := by
  refine (l.mergeSelfJoins_induction isScope (motive := fun h =>
    (h.node scope).declared = (g.node scope).declared ∧ Grafts g h moved refilled)
    (fun {h pair} l' unbound found kept => ?_) ⟨rfl, .refl g⟩).2
  have declared := (Node.unbound_declared.mergePair h scope pair).node
    (l'.has_of_below ((Keeps.of_unbound unbound).scopeIn l isScope).reached)
  exact ⟨declared.trans kept.1,
    kept.2.trans (.mergePair (isPair_of_findIdentity? found) (kept.1.symm ▸ within))⟩

/-! ## Passes -/

/-- A pass puts closed nodes into the old ones; what else it does is done to its scope and to the
ranges that it declares. -/
theorem apply (l : g.Linked root) (isScope : g.ScopeIn root scope) (anchored : g.Anchored scope)
    (pass : Pass) (context : PassContext) :
    Grafts g (pass.apply context g scope).1
      {id | id = scope ∨ pass = .selfJoins ∧ id ∈ (g.node scope).declared}
      {id | id = scope ∧ (pass = .existenceMarkers ∨ pass = .aggregates)} := by
  cases pass with
  | existenceMarkers =>
    exact (extractMarkers g scope).mono (fun _ => .inl) fun id here => ⟨here, by simp⟩
  | anyTests =>
    exact .changeEach
      (fun g any => .resolved (g.resolved_resolveAnyAt context.metadata scope any)) g _
  | aggregates =>
    simp only [Pass.apply, Graph.freeAggregates]
    split
    · exact (freeAggregatesOfOne g scope).mono (fun _ => .inl) fun id here => ⟨here, by simp⟩
    · exact .freeAggregate context.metadata context.strategy (g.isRange_includedRanges scope) _
  | selfJoins => exact .mergeSelfJoins l isScope fun id mem => .inr ⟨rfl, mem⟩
  | requiredness => exact .decideRequired g context.metadata context.pinned scope
  | anchors =>
    simp only [Pass.apply, anchored.normalizeAnchor]
    exact (putAnchorFirst g scope).mono (fun _ => .inl) (Set.Subset.refl _)
  | deadJoins => exact .dropDeadJoins g scope

end Grafts

end Graph

end RangeQuery
