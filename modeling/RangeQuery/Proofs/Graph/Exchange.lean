import RangeQuery.Proofs.Graph.Zone

/-!
Setters on zones. Setting a join predicate or a condition and swapping a child all exchange what
hangs in one slot, so one lemma about such an exchange serves them all.
-/

namespace RangeQuery

/-- Setting the embedded condition exchanges what hangs in one slot. -/
theorem Node.children_withCondition? {node changed : Node} {condition : Option NodeId}
    (h : node.withCondition? condition = some changed) :
    ∃ front back, node.children = front ++ node.condition?.toList ++ back ∧
      changed.children = front ++ condition.toList ++ back := by
  cases node with
  | retrieve r =>
    simp only [withCondition?, Option.some.injEq] at h
    subst h
    exact ⟨r.ranges ++ r.values, r.sort.map (·.expression), by simp [children, condition?],
      by simp [children]⟩
  | aggregate a =>
    simp only [withCondition?, Option.some.injEq] at h
    subst h
    exact ⟨[a.operand], [], by simp [children, condition?], by simp [children]⟩
  | subquery s =>
    simp only [withCondition?, Option.some.injEq] at h
    subst h
    exact ⟨s.ranges ++ s.expression.toList, [], by simp [children, condition?],
      by simp [children]⟩
  | _ => simp [withCondition?] at h

theorem Node.opensScope_withCondition? {node changed : Node} {condition : Option NodeId}
    (h : node.withCondition? condition = some changed) : changed.opensScope = node.opensScope := by
  cases node <;> simp only [withCondition?, Option.some.injEq, reduceCtorEq] at h <;> subst h <;> rfl

theorem Node.opensScope_withChildren (node : Node) (handles : List NodeId) :
    (node.withChildren handles).opensScope = node.opensScope := by
  cases node <;> rfl

/-- Swapping a child exchanges what hangs in the first slot that holds it. -/
theorem replace_eq_append {old : NodeId} (new : NodeId) {ids : List NodeId} (mem : old ∈ ids) :
    ∃ front back, ids = front ++ (some old).toList ++ back ∧
      ids.replace old new = front ++ (some new).toList ++ back := by
  induction ids with
  | nil => simp at mem
  | cons first rest ih =>
    by_cases same : first = old
    · subst same
      exact ⟨[], rest, by simp, by simp⟩
    · obtain ⟨front, back, before, after⟩ := ih (by simpa [Ne.symm same] using mem)
      refine ⟨first :: front, back, ?_, ?_⟩
      · rw [before]; simp
      · have apart : (old == first) = false := by simpa using Ne.symm same
        rw [List.replace_cons, apart, after]
        simp

namespace Graph

variable {g : Graph} {roots zone : Set NodeId} {loose : Set (NodeId × NodeId)}
  {level : NodeId → List NodeId}

theorem children_relink (g : Graph) (owner other : NodeId) (old new : Option NodeId) :
    (g.relink owner old new).children other = g.children other := by
  rw [children, node_relink, children]

/-- A node written in the place of another of its kind leaves what opens a scope. -/
theorem opensScope_setNode {id : NodeId} {node : Node}
    (same : node.opensScope = (g.node id).opensScope) (other : NodeId) :
    ((g.setNode id node).node other).opensScope = (g.node other).opensScope := by
  by_cases here : id = other
  · subst here
    by_cases has : g.Has id
    · rw [node_setNode_self g has, same]
    · have gone : (g.setNode id node).node id = .null := by
        have none : g.slots[id.index]? = .none := Array.getElem?_eq_none (Nat.le_of_not_lt has)
        simp [Graph.setNode, Graph.node, Array.getElem?_modify, none]
      have before : g.node id = .null := by
        have none : g.slots[id.index]? = .none := Array.getElem?_eq_none (Nat.le_of_not_lt has)
        simp [Graph.node, none]
      rw [gone, before]
  · rw [node_setNode_of_ne g here]

/-- What hangs in one slot of a node is exchanged for a node that is ready for it, or for nothing.
Only the link from that slot may have been loose, and none is afterwards. -/
theorem Zone.exchange {loose' : Set (NodeId × NodeId)} (z : g.Zone roots loose zone level)
    {owner : NodeId} {node : Node} {old new : Option NodeId} {front back : List NodeId}
    (mem : owner ∈ zone) (scope : node.opensScope = (g.node owner).opensScope)
    (before : g.children owner = front ++ old.toList ++ back)
    (after : node.children = front ++ new.toList ++ back) (ne : old ≠ new)
    (tight : ∀ child ∈ front ++ back, (owner, child) ∉ loose)
    (rest : ∀ link ∈ loose, link.1 ≠ owner → link ∈ loose')
    (ready : ∀ id ∈ new, g.Ready roots loose zone level (level owner) id) :
    ((g.setNode owner node).relink owner old new).Zone roots loose' zone level := by
  have size : ((g.setNode owner node).relink owner old new).size = g.size := by
    rw [size_relink, size_setNode]
  have slots : ((g.setNode owner node).relink owner old new).children owner = node.children := by
    rw [children_relink, children, node_setNode_self g (z.has mem)]
  have scopes : ∀ id, (((g.setNode owner node).relink owner old new).node id).opensScope =
      (g.node id).opensScope := by
    intro id
    rw [node_relink, opensScope_setNode scope]
  have kept : ∀ child ∈ front ++ back, child ∈ g.children owner := by
    intro child slot
    rw [before]
    simp only [List.mem_append] at slot ⊢
    tauto
  have split : ∀ child ∈ node.children, child ∈ front ++ back ∨ child ∈ new := by
    intro child slot
    rw [after] at slot
    simp only [List.mem_append, Option.mem_toList] at slot ⊢
    tauto
  have distinct : (front ++ old.toList ++ back).Nodup := before ▸ z.nodup mem
  have notOld : ∀ child ∈ front ++ back, child ∉ old := by
    intro child slot was
    subst was
    simp only [Option.toList_some, List.append_assoc, List.nodup_append, List.nodup_cons,
      List.mem_append, List.mem_cons, List.not_mem_nil, or_false] at distinct slot
    rcases slot with slot | slot
    · exact distinct.2.2 child slot child (by simp) rfl
    · exact distinct.2.1.2.2 child rfl child slot rfl
  have notNew : ∀ child ∈ front ++ back, child ∉ new := fun child slot now =>
    tight child slot ((ready child now).free owner mem (kept child slot))
  refine z.rewire (fun id m => ?_) (fun id _ (other : id ≠ owner) => ?_) (fun id _ => scopes id)
    rest ?_ ?_ ?_ ?_ ?_
  · rw [Has, size]
    exact z.has m
  · rw [children_relink, children_setNode_of_ne g (Ne.symm other)]
  · intro child slot
    rcases split child (slots ▸ slot) with was | now
    · have link := z.link mem (kept child was) (tight child was)
      refine ⟨link.mem, ?_, by rw [link.level, enter, enter, scopes]⟩
      rw [parent_relink_of_ne _ _ (notOld child was) (notNew child was), parent_setNode]
      exact link.parent
    · have taken := ready child now
      refine ⟨taken.mem, ?_, by rw [taken.level, enter, enter, scopes]⟩
      have has : (g.setNode owner node).Has child := by
        rw [Has, size_setNode]
        exact z.has taken.mem
      cases now
      exact parent_relink_new has ne
  · intro child slot
    rcases split child (slots ▸ slot) with was | now
    · rintro other ⟨m, apart⟩ slot'
      rcases z.free_of_child mem (kept child was) (tight child was) other m slot' with same | was
      · exact absurd (Prod.mk.inj same).1 apart
      · exact was
    · exact (ready child now).free.mono (fun _ m => m.1) subset_rfl
  · intro child slot
    rcases split child (slots ▸ slot) with was | now
    · exact z.not_mem_roots mem (kept child was) (tight child was)
    · exact (ready child now).nonroot
  · rw [slots, after]
    cases new with
    | none => exact distinct.sublist (by simp)
    | some id =>
      have apart : id ∉ front ++ back := fun slot => notNew id slot rfl
      have less : (front ++ back).Nodup := distinct.sublist (by simp)
      simp only [Option.toList_some, List.append_assoc, List.cons_append, List.nil_append]
      exact List.nodup_middle.mpr (List.nodup_cons.mpr ⟨apart, less⟩)
  · intro id _ slot
    have apart : new ≠ some id := by
      rintro rfl
      exact slot (by rw [slots, after]; simp)
    have change := parent_relink_or (g.setNode owner node) owner old apart
    rwa [parent_setNode] at change

/-! ## The setters -/

theorem setJoin_eq {id : NodeId} {r : Range} (h : g.node id = .range r)
    (join : Option NodeId) :
    g.setJoin id join = (g.setNode id (.range { r with join })).relink id r.join join := by
  simp only [setJoin, h]

theorem setCondition_eq {id : NodeId} {condition : Option NodeId} {node : Node}
    (h : (g.node id).withCondition? condition = some node) :
    g.setCondition id condition = (g.setNode id node).relink id (g.condition? id) condition := by
  simp only [setCondition, h]

theorem size_setJoin (g : Graph) (id : NodeId) (join : Option NodeId) :
    (g.setJoin id join).size = g.size := by
  cases h : g.node id with
  | range r => rw [setJoin_eq h, size_relink, size_setNode]
  | _ => simp only [setJoin, h]

theorem size_setCondition (g : Graph) (id : NodeId) (condition : Option NodeId) :
    (g.setCondition id condition).size = g.size := by
  cases h : (g.node id).withCondition? condition with
  | some node => rw [setCondition_eq h, size_relink, size_setNode]
  | none => simp only [setCondition, h]

/-- Setting the join predicate or the condition of a node leaves the others. -/
theorem node_setJoin_of_ne (g : Graph) {id other : NodeId} (ne : other ≠ id)
    (join : Option NodeId) : (g.setJoin id join).node other = g.node other := by
  cases h : g.node id with
  | range r => rw [setJoin_eq h, node_relink, node_setNode_of_ne g (Ne.symm ne)]
  | _ => simp only [setJoin, h]

theorem node_setCondition_of_ne (g : Graph) {id other : NodeId} (ne : other ≠ id)
    (condition : Option NodeId) : (g.setCondition id condition).node other = g.node other := by
  cases h : (g.node id).withCondition? condition with
  | some node => rw [setCondition_eq h, node_relink, node_setNode_of_ne g (Ne.symm ne)]
  | none => simp only [setCondition, h]

theorem children_setJoin_of_ne (g : Graph) {id other : NodeId} (ne : other ≠ id)
    (join : Option NodeId) : (g.setJoin id join).children other = g.children other := by
  rw [children, node_setJoin_of_ne g ne, children]

theorem children_setCondition_of_ne (g : Graph) {id other : NodeId} (ne : other ≠ id)
    (condition : Option NodeId) :
    (g.setCondition id condition).children other = g.children other := by
  rw [children, node_setCondition_of_ne g ne, children]

theorem node_updateRange_of_ne (g : Graph) {id other : NodeId} (ne : other ≠ id)
    (change : Range → Range) : (g.updateRange id change).node other = g.node other := by
  cases h : g.node id with
  | range r => simp only [updateRange, h, node_setNode_of_ne g (Ne.symm ne)]
  | _ => simp only [updateRange, h]

theorem setNode_self (g : Graph) (id : NodeId) : g.setNode id (g.node id) = g := by
  obtain ⟨slots⟩ := g
  have same : (slots.modify id.index fun slot => { slot with node := Graph.node ⟨slots⟩ id }) =
      slots := by
    apply Array.ext_getElem?
    intro index
    rw [Array.getElem?_modify]
    by_cases here : id.index = index
    · subst here
      rw [if_pos rfl]
      cases found : slots[id.index]? with
      | none => rfl
      | some slot => simp [Graph.node, found]
    · rw [if_neg here]
  simp only [setNode, same]

/-- Setting the join predicate that a range has changes nothing. -/
theorem setJoin_self {id : NodeId} {r : Range} (h : g.node id = .range r) :
    g.setJoin id r.join = g := by
  rw [setJoin_eq h, relink, if_pos rfl]
  exact (congrArg (g.setNode id) h.symm).trans (g.setNode_self id)

theorem node_setJoin_self {id : NodeId} {r : Range} (has : g.Has id) (h : g.node id = .range r)
    (join : Option NodeId) : (g.setJoin id join).node id = .range { r with join } := by
  rw [setJoin_eq h, node_relink, node_setNode_self g has]

theorem node_setCondition_self {id : NodeId} {condition : Option NodeId} {node : Node}
    (has : g.Has id) (h : (g.node id).withCondition? condition = some node) :
    (g.setCondition id condition).node id = node := by
  rw [setCondition_eq h, node_relink, node_setNode_self g has]

theorem relink_self (g : Graph) (owner : NodeId) (slot : Option NodeId) :
    g.relink owner slot slot = g := if_pos rfl

/-- Writing a node with the slots it had leaves a zone. -/
theorem Zone.setNode (z : g.Zone roots loose zone level) {id : NodeId} {node : Node}
    (scope : node.opensScope = (g.node id).opensScope)
    (same : node.children = g.children id) : (g.setNode id node).Zone roots loose zone level := by
  refine z.relabel (fun _ m => ?_) (fun other m => ?_) (fun other _ => opensScope_setNode scope other)
    fun _ _ => parent_setNode g id _ node
  · rw [Has, size_setNode]
    exact z.has m
  · by_cases here : id = other
    · subst here
      rw [children, node_setNode_self g (z.has m), same]
    · exact children_setNode_of_ne g here node

theorem Zone.refillJoin (z : g.Zone roots loose zone level) (loose' : Set (NodeId × NodeId))
    {id : NodeId} {r : Range} {join : Option NodeId} (mem : id ∈ zone) (h : g.node id = .range r)
    (ne : r.join ≠ join) (tight : ∀ child ∈ r.nested, (id, child) ∉ loose)
    (rest : ∀ link ∈ loose, link.1 ≠ id → link ∈ loose')
    (ready : ∀ child ∈ join, g.Ready roots loose zone level (level id) child) :
    (g.setJoin id join).Zone roots loose' zone level := by
  rw [setJoin_eq h]
  have before : g.children id = [] ++ r.join.toList ++ r.nested.toList := by
    simp [children, h, Node.children]
  exact z.exchange mem (by rw [h]; rfl) before (by simp [Node.children]) ne (by simpa using tight)
    rest ready

/-- Setting the join predicate leaves a zone, if a new predicate was ready for it. -/
theorem Zone.setJoin (z : g.Zone roots ∅ zone level) {id : NodeId} {join : Option NodeId}
    (mem : id ∈ zone) (ready : ∀ child ∈ join, g.Ready roots ∅ zone level (level id) child) :
    (g.setJoin id join).Zone roots ∅ zone level := by
  cases h : g.node id with
  | range r =>
    by_cases same : r.join = join
    · rw [← same, setJoin_self h]
      exact z
    · exact z.refillJoin ∅ mem h same (by simp) (by simp) ready
  | _ => simpa only [Graph.setJoin, h] using z

/-- Refilling the join slot leaves ready what was ready and is not put there. -/
theorem Zone.ready_setJoin {loose' : Set (NodeId × NodeId)} (z : g.Zone roots loose zone level)
    {id other : NodeId} {r : Range} {join : Option NodeId} {scopes : List NodeId} (mem : id ∈ zone)
    (h : g.node id = .range r) (tight : ∀ child ∈ r.nested, (id, child) ∉ loose)
    (rest : ∀ link ∈ loose, link.1 ≠ id → link ∈ loose')
    (ready : g.Ready roots loose zone level scopes other) (apart : join ≠ some other) :
    (g.setJoin id join).Ready roots loose' zone level scopes other := by
  have scope : ((g.setJoin id join).node other).opensScope = (g.node other).opensScope := by
    rw [setJoin_eq h, node_relink, opensScope_setNode (by rw [h]; rfl)]
  refine ⟨ready.mem, fun owner mem' slot => ?_, ready.nonroot, by
    rw [ready.level, enter, enter, scope]⟩
  by_cases same : owner = id
  · subst same
    rw [children, node_setJoin_self (z.has mem) h] at slot
    rcases List.mem_append.mp slot with now | nested
    · exact absurd (Option.mem_toList.mp now) apart
    · refine absurd (ready.free owner mem ?_) (tight other (Option.mem_toList.mp nested))
      simp only [children, h, Node.children, List.mem_append]
      exact .inr nested
  · rw [children_setJoin_of_ne g same] at slot
    exact rest _ (ready.free owner mem' slot) same

/-- Taking the join predicate out of a range leaves a zone in which the predicate is ready to hang
elsewhere on its level; what was ready before stays so. -/
theorem Zone.releaseJoin (z : g.Zone roots loose zone level) {id : NodeId} {r : Range}
    (mem : id ∈ zone) (h : g.node id = .range r) (tight : ∀ link ∈ loose, link.1 ≠ id) :
    (g.setJoin id none).Zone roots loose zone level ∧
      (∀ join ∈ r.join, (g.setJoin id none).Ready roots loose zone level (level id) join) ∧
      ∀ {scopes other}, g.Ready roots loose zone level scopes other →
        (g.setJoin id none).Ready roots loose zone level scopes other := by
  have slots : (g.setJoin id none).children id = r.nested.toList := by
    rw [children, node_setJoin_self (z.has mem) h]
    rfl
  have scope : ∀ other ∈ zone, ((g.setJoin id none).node other).opensScope =
      (g.node other).opensScope := by
    intro other _
    rw [setJoin_eq h, node_relink, opensScope_setNode (by rw [h]; rfl)]
  have links : ∀ {child}, (id, child) ∉ loose := fun link => tight _ link rfl
  refine ⟨?_, fun join held => ?_, fun {scopes other} ready => ?_⟩
  · by_cases same : r.join = none
    · rw [← same, setJoin_self h]
      exact z
    · exact z.refillJoin loose mem h same (fun child _ => links) (fun link is _ => is) (by simp)
  · have slot : join ∈ g.children id := by
      simp [children, h, Node.children, Option.mem_def.mp held]
    have link := z.link mem slot links
    refine ⟨link.mem, ?_, z.not_mem_roots mem slot links, ?_⟩
    · refine z.free_of_released mem slot links (fun other _ ne => children_setJoin_of_ne g ne none) ?_
      have nodup := z.nodup mem
      rw [children, h, Node.children, Option.mem_def.mp held] at nodup
      rw [slots]
      exact (List.nodup_cons.mp nodup).1
    · rw [link.level, enter, enter, scope join link.mem]
  · exact z.ready_setJoin mem h (fun _ _ => links) (fun link is _ => is) ready (by simp)

theorem Zone.refillCondition (z : g.Zone roots loose zone level) (loose' : Set (NodeId × NodeId))
    {id : NodeId} {node : Node} {condition : Option NodeId} (mem : id ∈ zone)
    (h : (g.node id).withCondition? condition = some node) (ne : g.condition? id ≠ condition)
    (tight : ∀ child ∈ g.children id, child ∉ g.condition? id → (id, child) ∉ loose)
    (rest : ∀ link ∈ loose, link.1 ≠ id → link ∈ loose')
    (ready : ∀ child ∈ condition, g.Ready roots loose zone level (level id) child) :
    (g.setCondition id condition).Zone roots loose' zone level := by
  obtain ⟨front, back, before, after⟩ := Node.children_withCondition? h
  rw [setCondition_eq h]
  refine z.exchange mem (Node.opensScope_withCondition? h) before after ne
    (fun child slot => ?_) rest ready
  have distinct : (front ++ (g.condition? id).toList ++ back).Nodup := before ▸ z.nodup mem
  refine tight child (by rw [children, before]; simp at slot ⊢; tauto) fun was => ?_
  simp only [Option.mem_def.mp was, Option.toList_some, List.append_assoc] at distinct
  have apart := (List.nodup_cons.mp (List.nodup_middle.mp distinct)).1
  exact apart slot

/-- Setting the embedded condition leaves a zone, if a new condition was ready for it. -/
theorem Zone.setCondition (z : g.Zone roots ∅ zone level) {id : NodeId}
    (condition : Option NodeId) (mem : id ∈ zone)
    (ready : ∀ child ∈ condition, g.Ready roots ∅ zone level (level id) child) :
    (g.setCondition id condition).Zone roots ∅ zone level := by
  cases h : (g.node id).withCondition? condition with
  | none => simpa only [Graph.setCondition, h] using z
  | some node =>
    by_cases same : g.condition? id = condition
    · obtain ⟨front, back, before, after⟩ := Node.children_withCondition? h
      rw [setCondition_eq h, same, relink_self]
      refine z.setNode (Node.opensScope_withCondition? h) ?_
      rw [after, children, before, ← same, condition?]
    · exact z.refillCondition ∅ mem h same (by simp) (by simp) ready

/-! ## Swaps -/

theorem replaceChild_of_mem {owner old new : NodeId} (slot : old ∈ g.children owner) :
    (g.replaceChild owner old new).1 =
      ((g.setNode owner ((g.node owner).withChildren ((g.children owner).replace old new))).release
        owner [old]).setParent new (some owner) := by
  have held : (g.node owner).children.contains old = true := by simpa [children] using slot
  simp only [replaceChild, held, if_true, children]

theorem replaceChild_of_not_mem {owner old new : NodeId} (slot : old ∉ g.children owner) :
    (g.replaceChild owner old new).1 = g := by
  have held : (g.node owner).children.contains old = false := by simpa [children] using slot
  simp only [replaceChild, held, Bool.false_eq_true, if_false]

/-- A swap is an exchange in one slot. -/
theorem replaceChild_eq_relink {owner old new : NodeId} (slot : old ∈ g.children owner)
    (ne : old ≠ new) :
    (g.replaceChild owner old new).1 =
      (g.setNode owner ((g.node owner).withChildren ((g.children owner).replace old new))).relink
        owner (some old) (some new) := by
  have apart : some old ≠ some new := fun same => ne (Option.some.inj same)
  rw [replaceChild_of_mem slot, relink, if_neg apart]
  rfl

theorem node_replaceChild {owner old new id : NodeId} (has : g.Has id) :
    (g.replaceChild owner old new).1.node id =
      if id = owner then (g.node id).withChildren ((g.node id).children.replace old new)
      else g.node id := by
  by_cases slot : old ∈ g.children owner
  · rw [replaceChild_of_mem slot, node_setParent, node_release]
    by_cases same : id = owner
    · subst same
      rw [if_pos rfl, node_setNode_self g has]
      rfl
    · rw [if_neg same, node_setNode_of_ne g (Ne.symm same)]
  · rw [replaceChild_of_not_mem slot]
    split
    · next same =>
      subst same
      rw [children] at slot
      rw [List.replace_of_not_mem slot, Node.withChildren_children]
    · rfl

/-- A swap leaves an old node, or swaps one of its children. -/
theorem node_replace_or {id : NodeId} (has : g.Has id) (old new : NodeId) :
    (g.replace old new).1.node id = g.node id ∨
      (g.replace old new).1.node id =
        (g.node id).withChildren ((g.node id).children.replace old new) := by
  unfold replace
  cases g.parent old with
  | none => exact .inl rfl
  | some owner =>
    dsimp only
    rw [node_replaceChild has]
    split
    · exact .inr rfl
    · exact .inl rfl

/-- Only the two nodes of a swap can record another owner. -/
theorem parent_replaceChild {owner old new other : NodeId} (ne : other ≠ old) (ne' : other ≠ new) :
    (g.replaceChild owner old new).1.parent other = g.parent other := by
  by_cases slot : old ∈ g.children owner
  · rw [replaceChild_of_mem slot, parent_setParent_of_ne _ (Ne.symm ne'),
      parent_release_of_not_mem _ _ (by simpa using ne), parent_setNode]
  · rw [replaceChild_of_not_mem slot]

theorem parent_setCondition {id other : NodeId} {condition : Option NodeId}
    (before : g.condition? id ≠ some other) (after : condition ≠ some other) :
    (g.setCondition id condition).parent other = g.parent other := by
  cases h : (g.node id).withCondition? condition with
  | some node => rw [setCondition_eq h, parent_relink_of_ne _ _ before after, parent_setNode]
  | none => simp only [setCondition, h]

theorem Zone.replaceChild (z : g.Zone roots loose zone level) (loose' : Set (NodeId × NodeId))
    {owner old new : NodeId} (mem : owner ∈ zone) (slot : old ∈ g.children owner) (ne : old ≠ new)
    (tight : ∀ child ∈ g.children owner, child ≠ old → (owner, child) ∉ loose)
    (rest : ∀ link ∈ loose, link.1 ≠ owner → link ∈ loose')
    (ready : g.Ready roots loose zone level (level owner) new) :
    (g.replaceChild owner old new).1.Zone roots loose' zone level := by
  obtain ⟨front, back, before, after⟩ := replace_eq_append new slot
  have length : ((g.children owner).replace old new).length = (g.node owner).children.length := by
    simp [children]
  have slots := Node.children_withChildren (g.node owner) length
  rw [replaceChild_eq_relink slot ne]
  refine z.exchange mem (Node.opensScope_withChildren ..) before (slots.trans after)
    (fun same => ne (Option.some.inj same)) (fun child kept => ?_) rest (by simpa using ready)
  have distinct : (front ++ (some old).toList ++ back).Nodup := before ▸ z.nodup mem
  simp only [Option.toList_some, List.append_assoc] at distinct
  have apart := (List.nodup_cons.mp (List.nodup_middle.mp distinct)).1
  refine tight child (by rw [before]; simp at kept ⊢; tauto) ?_
  rintro rfl
  exact apart kept

/-- Swapping a node below its recorded owner leaves a zone, if the new node was free and has the
level that the old one has there; an owner outside the zone does not matter. -/
theorem Zone.swap (z : g.Zone roots ∅ zone level) {old new : NodeId} (ne : old ≠ new)
    (free : new ∈ zone → g.Free ∅ zone new ∧ new ∉ roots)
    (held : ∀ owner ∈ zone, old ∈ g.children owner →
      new ∈ zone ∧ level new = g.enter new (level owner)) :
    (g.replace old new).1.Zone roots ∅ zone level := by
  unfold Graph.replace
  cases recorded : g.parent old with
  | none => exact z
  | some owner =>
    by_cases slot : old ∈ g.children owner
    · by_cases mem : owner ∈ zone
      · obtain ⟨inside, on⟩ := held owner mem slot
        exact z.replaceChild ∅ mem slot ne (by simp) (by simp)
          ⟨inside, (free inside).1, (free inside).2, on⟩
      · simp only [replaceChild_eq_relink slot ne]
        refine z.elsewhere (fun id m => ?_) (fun id m => ?_) fun id m => ?_
        · rw [Has, size_relink, size_setNode]
          exact z.has m
        · rw [node_relink, node_setNode_of_ne g fun same : owner = id => mem (same ▸ m)]
        · by_cases now : id = new
          · subst now
            exact .inr ⟨(free m).1, fun root => absurd root (free m).2⟩
          · have apart : some new ≠ some id := fun same => now (Option.some.inj same).symm
            rcases parent_relink_or (g.setNode owner ((g.node owner).withChildren
              ((g.children owner).replace old new))) owner (some old) apart with kept | lost
            · exact .inl (kept.trans (parent_setNode ..))
            · rw [parent_setNode] at lost
              refine .inr ⟨z.free_of_parent fun other m' recorded' => ?_, fun _ => lost.1⟩
              rw [lost.2] at recorded'
              exact absurd (Option.some.inj recorded' ▸ m') mem
    · simp only [replaceChild_of_not_mem slot]
      exact z

/-- A swap for a free node of the zone. -/
theorem Zone.replace (z : g.Zone roots ∅ zone level) {old new : NodeId} (ne : old ≠ new)
    (inside : new ∈ zone) (free : g.Free ∅ zone new) (nonroot : new ∉ roots)
    (levels : ∀ owner ∈ zone, old ∈ g.children owner → level new = g.enter new (level owner)) :
    (g.replace old new).1.Zone roots ∅ zone level :=
  z.swap ne (fun _ => ⟨free, nonroot⟩) fun owner mem slot => ⟨inside, levels owner mem slot⟩

/-- A swap outside a zone. -/
theorem Zone.replaceOutside (z : g.Zone roots ∅ zone level) {old new : NodeId} (ne : old ≠ new)
    (outside : old ∉ zone) (outside' : new ∉ zone) :
    (g.replace old new).1.Zone roots ∅ zone level :=
  z.swap ne (fun mem => absurd mem outside') fun _ mem slot =>
    absurd (z.closed mem slot (Set.notMem_empty _)) outside

end Graph

end RangeQuery
