import RangeQuery.Proofs.Scope.FramedAggregates

/-!
Where the ANYs of a scope stand, and what taking the place of one does. An ANY in a value or in the
filter, outside other scopes, is found where it stands. A node that takes its place leaves all others
where they stand.
-/

namespace RangeQuery

namespace Node

/-- The clauses of a scope in which an ANY is resolved: the values and the filter. -/
def searched : Node → List NodeId
  | .retrieve r => r.values ++ r.condition.toList
  | _ => []

/-- The node without its window. -/
def windowless : Node → Node
  | .retrieve r => .retrieve { r with window := none }
  | node => node

theorem children_windowless (node : Node) : node.windowless.children = node.children := by
  cases node <;> rfl

theorem declared_windowless (node : Node) : node.windowless.declared = node.declared := by
  cases node <;> rfl

theorem searched_windowless (node : Node) : node.windowless.searched = node.searched := by
  cases node <;> rfl

theorem closesScope_windowless (node : Node) :
    Graph.closesScope node.windowless = Graph.closesScope node := by
  cases node <;> rfl

theorem closesScope_withChildren (node : Node) (handles : List NodeId) :
    Graph.closesScope (node.withChildren handles) = Graph.closesScope node := by
  cases node <;> rfl

theorem searched_subset_children (node : Node) : node.searched ⊆ node.children := by
  intro id mem
  cases node with
  | retrieve r =>
    simp only [searched, List.mem_append, Option.mem_toList] at mem
    simp only [children, List.mem_append, Option.mem_toList]
    tauto
  | _ => cases mem

/-- The searched clauses of a scope lie between its ranges and its sort keys. -/
theorem searched_withChildren (r : Retrieve) {handles : List NodeId}
    (length : handles.length = (Node.retrieve r).children.length) :
    ((Node.retrieve r).withChildren handles).searched =
      (handles.drop r.ranges.length).take (r.values.length + r.condition.toList.length) := by
  simp only [children, List.length_append, List.length_map] at length
  simp only [withChildren, Retrieve.withChildren, searched]
  rw [option_map_headD_toList (by simp only [List.length_drop]; omega), List.take_add]

theorem mem_take_drop_replace {ids : List NodeId} {old new id : NodeId} (ne : id ≠ old)
    (skip count : Nat) (mem : id ∈ (ids.drop skip).take count) :
    id ∈ ((ids.replace old new).drop skip).take count := by
  obtain ⟨i, at_⟩ := List.mem_iff_getElem?.mp mem
  refine List.mem_iff_getElem?.mpr ⟨i, ?_⟩
  simp only [List.getElem?_take, List.getElem?_drop] at at_ ⊢
  split at at_
  · next short =>
    have other : (some id == some old) = false := by simpa using ne
    rw [if_pos short, List.getElem?_replace, at_, other, if_neg (by simp)]
  · cases at_

theorem mem_replace_of_ne {ids : List NodeId} {old new id : NodeId} (ne : id ≠ old) (mem : id ∈ ids) :
    id ∈ ids.replace old new := by
  have among : id ∈ ((ids.replace old new).drop 0).take ids.length :=
    mem_take_drop_replace ne 0 ids.length (by simpa using mem)
  exact List.mem_of_mem_take among

/-- A swap leaves the other searched clauses. -/
theorem mem_searched_replace {node : Node} {old id : NodeId} (new : NodeId) (ne : id ≠ old)
    (mem : id ∈ node.searched) :
    id ∈ (node.withChildren (node.children.replace old new)).searched := by
  cases node with
  | retrieve r =>
    have own : ((Node.retrieve r).withChildren (Node.retrieve r).children).searched = _ :=
      searched_withChildren r rfl
    rw [withChildren_children] at own
    rw [own] at mem
    rw [searched_withChildren r (by simp)]
    exact mem_take_drop_replace ne _ _ mem
  | _ => cases mem

end Node

namespace Graph

variable {g h : Graph} {root scope any old owner new : NodeId}

/-! ## Where an ANY is found -/

/-- A node stands in a value or the filter of a scope: the way down to it comes through no other
scope. -/
def StandsIn (g : Graph) (scope id : NodeId) : Prop :=
  ∃ start ∈ (g.node scope).searched, ∃ trail, g.Trail start trail id ∧
    ∀ owner ∈ trail, closesScope (g.node owner) = false

theorem StandsIn.below {id : NodeId} (stands : g.StandsIn scope id) : g.Below scope id := by
  obtain ⟨start, clause, trail, way, -⟩ := stands
  exact (below_of_child (Node.searched_subset_children _ clause)).trans ⟨trail, way⟩

theorem exists_siteOf? {r : Retrieve} {child : NodeId} (clause : child ∈ (Node.retrieve r).searched)
    (truth : Bool) : ∃ site, siteOf? r truth child = some site ∧ site ≠ .sort := by
  unfold siteOf?
  split
  · cases truth <;> exact ⟨_, rfl, by simp⟩
  · next other =>
    have filter : r.condition = some child := by
      simp only [Node.searched, List.mem_append, Option.mem_toList] at clause
      exact clause.resolve_left (by simpa using other)
    rw [if_pos filter]
    exact ⟨_, rfl, by simp⟩

/-- From where a node stands the way up leads to the clause. -/
theorem Linked.locateFrom_of_trail (l : g.Linked root) (above : g.Below root scope)
    {start child : NodeId} (clause : start ∈ (g.node scope).searched) {trail : List NodeId}
    (way : g.Trail start trail child) (opened : ∀ owner ∈ trail, closesScope (g.node owner) = false)
    {steps : Nat} (enough : trail.length < steps) (any : NodeId) (truth : Bool) :
    ∃ site, g.locateFrom scope any steps child truth = some site ∧ site.site ≠ .sort := by
  have slot := Node.searched_subset_children _ clause
  induction way generalizing steps truth with
  | here =>
    obtain ⟨steps, rfl⟩ := Nat.exists_eq_add_of_lt enough
    obtain ⟨r, node⟩ : ∃ r, g.node scope = .retrieve r := by
      cases node : g.node scope <;> simp_all [Node.searched]
    obtain ⟨site, found, unsorted⟩ := exists_siteOf? (node ▸ clause) truth
    simp [locateFrom, l.parent_child above slot, retrieve?, node, found, unsorted]
  | @down trail owner child way slot' ih =>
    obtain ⟨steps, rfl⟩ : ∃ rest, steps = rest + 1 := ⟨steps - 1, by omega⟩
    have below : g.Below start owner := ⟨trail, way⟩
    have inner : owner ≠ scope := fun same => l.not_below_of_child above slot (same ▸ below)
    have further := ih (fun node on => opened node (by simp [on]))
      (show trail.length < steps by simpa using enough)
    simp only [locateFrom, l.parent_child ((above.child slot).trans below) slot', if_neg inner,
      opened owner (by simp), Bool.false_eq_true, if_false]
    split
    · exact further true
    · exact further truth

/-- What stands in a scope is found there, and in no sort key. -/
theorem Linked.exists_locate? (l : g.Linked root) (above : g.Below root scope)
    (stands : g.StandsIn scope any) :
    ∃ site, g.locate? scope any = some site ∧ site.site ≠ .sort := by
  obtain ⟨start, clause, trail, way, opened⟩ := stands
  have within := above.child (Node.searched_subset_children _ clause)
  exact l.locateFrom_of_trail above clause way opened ((l.acyclic within).length_trail_lt way) any false

/-- From below a range of a scope the way up leads to no clause. -/
theorem Linked.locateFrom_of_below_declared (l : g.Linked root) (isScope : g.ScopeIn root scope)
    {range child : NodeId} (declared : range ∈ (g.node scope).declared) (below : g.Below range child)
    (any : NodeId) (steps : Nat) (truth : Bool) : g.locateFrom scope any steps child truth = none := by
  have slot := declared_subset_children _ declared
  induction steps generalizing child truth with
  | zero => rfl
  | succ steps ih =>
    rcases below.eq_or_owner with rfl | ⟨owner, above, slot'⟩
    · obtain ⟨r, node⟩ := Node.exists_of_isRetrieve isScope.isRetrieve
      simp [locateFrom, l.parent_child isScope.reached slot, retrieve?, node,
        l.siteOf?_of_declared isScope node declared]
    · have inner : owner ≠ scope := fun same =>
        l.not_below_of_child isScope.reached slot (same ▸ above)
      have recorded := l.parent_child ((isScope.reached.child slot).trans above) slot'
      simp only [locateFrom, recorded, if_neg inner, ih above, ite_self]

/-! ## Places -/

/-- What a node is after a swap below an owner. -/
def swapped (g : Graph) (owner old new id : NodeId) : Node :=
  if id = owner then (g.node id).withChildren ((g.node id).children.replace old new) else g.node id

/-- A new node, a subquery or the number 1, hangs where an old one hung. All else is as it was, but
for the window of the scope. -/
structure TakesPlace (g h : Graph) (scope old owner new : NodeId) : Prop where
  size : g.size ≤ h.size
  fresh : ¬ g.Has new
  kind : (h.node new).isSubquery = true ∨ h.node new = .number "1"
  slot : old ∈ g.children owner
  others : ∀ {id}, g.Has id → id ≠ scope → h.node id = g.swapped owner old new id
  scope : g.Has scope → (h.node scope).windowless = (g.swapped owner old new scope).windowless
  taken : h.parent new = some owner
  released : h.parent old = none

theorem parent_release_self {id : NodeId} (owned : g.parent id = some owner) :
    (g.release owner [id]).parent id = none := by
  simp only [release, List.foldl_cons, List.foldl_nil, if_pos owned]
  exact parent_setParent_self (has_of_parent owned) none

theorem has_of_slot (slot : old ∈ g.children owner) : g.Has owner := by
  by_contra absent
  rw [children_of_not_has absent] at slot
  cases slot

theorem Trail.has_of_mem {top id middle : NodeId} {trail : List NodeId} (way : g.Trail top trail id)
    (on : middle ∈ trail) : g.Has middle := by
  obtain ⟨child, slot⟩ := way.exists_child on
  exact has_of_slot slot

/-- A trail does not come through a node that its end is not below. -/
theorem Trail.not_mem {top id : NodeId} {trail : List NodeId} (way : g.Trail top trail id)
    (apart : ¬ g.Below old id) : old ∉ id :: trail := by
  intro on
  rcases List.mem_cons.mp on with rfl | above
  · exact apart (.refl g _)
  · exact apart (way.below_of_mem above).2

/-- Swapping in a node that was added beside the others. -/
theorem TakesPlace.of_replace (e : Extends g h) (has : h.Has new) (fresh : ¬ g.Has new)
    (kind : (h.node new).isSubquery = true ∨ h.node new = .number "1")
    (slot : old ∈ g.children owner) (owned : g.parent old = some owner) (scope : NodeId) :
    TakesPlace g (h.replace old new).1 scope old owner new := by
  have hasOwner := has_of_slot slot
  have owned' : h.parent old = some owner := (e.parent (has_of_parent owned)).trans owned
  have slot' : old ∈ h.children owner := by rwa [children, e.node hasOwner]
  have same : (h.replace old new).1 = (h.replaceChild owner old new).1 := by rw [replace, owned']
  have apart : new ≠ owner := fun is => fresh (is ▸ hasOwner)
  have apart' : new ≠ old := fun is => fresh (is ▸ has_of_parent owned)
  have swap : ∀ {id}, g.Has id →
      (h.replaceChild owner old new).1.node id = g.swapped owner old new id := fun {id} had => by
    rw [node_replaceChild (e.has had), e.node had, swapped]
  rw [same]
  refine ⟨e.size.trans (same ▸ (Node.formal_stamp.toPlaced.replace h old new).size), fresh, ?_, slot,
    fun had _ => swap had, fun had => congrArg Node.windowless (swap had), ?_, ?_⟩
  · rwa [node_replaceChild has, if_neg apart]
  · rw [replaceChild_of_mem slot']
    refine parent_setParent_self ?_ _
    rwa [Has, size_release, size_setNode]
  · rw [replaceChild_of_mem slot', parent_setParent_of_ne _ apart']
    exact parent_release_self ((parent_setNode ..).trans owned')

theorem windowless_setWindow (g : Graph) (scope id : NodeId) (window : Option Window) :
    ((g.setWindow scope window).node id).windowless = (g.node id).windowless := by
  by_cases same : id = scope
  · subst same
    cases node : g.node id with
    | retrieve r =>
      have has := has_of_node node (by simp)
      simp only [setWindow, node, node_setNode_self g has, Node.windowless]
    | _ => simp only [setWindow, node]
  · rw [node_setWindow_of_ne g same]

namespace TakesPlace

/-- The window of the scope may be written. -/
theorem setWindow (t : TakesPlace g h scope old owner new) (window : Option Window) :
    TakesPlace g (h.setWindow scope window) scope old owner new := by
  have labels := Relabels.setWindow h scope window
  refine { t with
    size := t.size.trans (Nat.le_of_eq labels.size.symm)
    kind := ?_
    others := fun has ne => (node_setWindow_of_ne h ne window).trans (t.others has ne)
    scope := fun has => (h.windowless_setWindow scope scope window).trans (t.scope has)
    taken := (labels.parent new).trans t.taken
    released := (labels.parent old).trans t.released }
  have same := h.windowless_setWindow scope new window
  rcases t.kind with subquery | one
  · refine .inl ?_
    cases node : h.node new <;> cases node' : (h.setWindow scope window).node new <;>
      simp_all [Node.windowless, Node.isSubquery]
  · refine .inr ?_
    rw [one] at same
    cases node' : (h.setWindow scope window).node new <;> simp_all [Node.windowless]

variable (t : TakesPlace g h scope old owner new)

include t

theorem windowless {id : NodeId} (has : g.Has id) :
    (h.node id).windowless = (g.swapped owner old new id).windowless := by
  by_cases same : id = scope
  · subst same
    exact t.scope has
  · rw [t.others has same]

theorem children {id : NodeId} (has : g.Has id) :
    h.children id = if id = owner then (g.children id).replace old new else g.children id := by
  rw [Graph.children, ← Node.children_windowless, t.windowless has, Node.children_windowless, swapped]
  split
  · rw [Node.children_withChildren _ (by simp), Graph.children]
  · rfl

theorem closesScope {id : NodeId} (has : g.Has id) :
    Graph.closesScope (h.node id) = Graph.closesScope (g.node id) := by
  rw [← Node.closesScope_windowless, t.windowless has, Node.closesScope_windowless, swapped]
  split
  · exact Node.closesScope_withChildren _ _
  · rfl

theorem declared (has : g.Has scope) (apart : old ∉ (g.node scope).declared) :
    (h.node scope).declared = (g.node scope).declared := by
  rw [← Node.declared_windowless, t.windowless has, Node.declared_windowless, swapped]
  split
  · exact declared_replace_of_not_mem new apart
  · rfl

theorem mem_children {id child : NodeId} (slot : child ∈ g.children id) (ne : child ≠ old) :
    child ∈ h.children id := by
  rw [t.children (has_of_slot slot)]
  split
  · exact Node.mem_replace_of_ne ne slot
  · exact slot

theorem mem_searched {id : NodeId} (has : g.Has scope) (clause : id ∈ (g.node scope).searched)
    (ne : id ≠ old) : id ∈ (h.node scope).searched := by
  rw [← Node.searched_windowless, t.windowless has, Node.searched_windowless, swapped]
  split
  · exact Node.mem_searched_replace new ne clause
  · exact clause

/-- A way down that does not come through the old node stays. -/
theorem trail {top id : NodeId} {trail : List NodeId} (way : g.Trail top trail id)
    (off : old ∉ id :: trail) : h.Trail top trail id := by
  induction way with
  | here => exact .here
  | down way slot ih =>
    simp only [List.mem_cons, not_or] at off
    exact (ih (by simp [off])).down (t.mem_children slot (Ne.symm off.1))

/-- What does not hang below the old node stands where it stood. -/
theorem standsIn {id : NodeId} (stands : g.StandsIn scope id) (apart : ¬ g.Below old id) :
    h.StandsIn scope id := by
  obtain ⟨start, clause, trail, way, opened⟩ := stands
  have has := has_of_slot (Node.searched_subset_children _ clause)
  have first : start ≠ old := fun is => apart (is ▸ ⟨trail, way⟩)
  exact ⟨start, t.mem_searched has clause first, trail, t.trail way (way.not_mem apart),
    fun node on => (t.closesScope (way.has_of_mem on)).trans (opened node on)⟩

end TakesPlace

/-! ## What is left as it was -/

/-- A change that leaves what a scope declares, with all below, and the way down to some nodes. -/
structure LeavesTo (g h : Graph) (scope : NodeId) (anys : List NodeId) : Prop where
  size : g.size ≤ h.size
  ranges : (h.node scope).declared = (g.node scope).declared
  sources : ∀ range ∈ (g.node scope).declared, ∀ id, g.Below range id → h.node id = g.node id
  trails : ∀ any ∈ anys, ∀ trail, g.Trail scope trail any → h.Trail scope trail any
  stands : ∀ any ∈ anys, g.StandsIn scope any → h.StandsIn scope any

theorem Extends.leavesTo (e : Extends g h) (l : g.Linked root) (above : g.Below root scope)
    (anys : List NodeId) : LeavesTo g h scope anys := by
  have along : ∀ {top id trail}, g.Trail top trail id → h.Trail top trail id := fun way =>
    way.along fun owner on => congrArg Node.children (e.node (way.has_of_mem on))
  have same := e.node (l.has_of_below above)
  refine ⟨e.size, by rw [same], fun range declared id below => e.node (l.has_of_below ?_),
    fun _ _ _ => along, ?_⟩
  · exact (above.child (declared_subset_children _ declared)).trans below
  · rintro any - ⟨start, clause, trail, way, opened⟩
    refine ⟨start, same ▸ clause, trail, along way, fun owner on => ?_⟩
    rw [e.node (way.has_of_mem on), opened owner on]

theorem TakesPlace.leavesTo {owner new : NodeId} (t : TakesPlace g h scope any owner new)
    (l : g.Linked root) (isScope : g.ScopeIn root scope)
    (outside : ∀ range ∈ (g.node scope).declared, ¬ g.Below range any) {anys : List NodeId}
    (apart : ∀ later ∈ anys, ¬ g.Below any later) : LeavesTo g h scope anys := by
  refine ⟨t.size, ?_, fun range declared id below => ?_, fun later mem trail way => ?_,
    fun later mem stands => t.standsIn stands (apart later mem)⟩
  · exact t.declared (l.has_of_below isScope.reached) fun declared =>
      outside any declared (.refl g any)
  · have slot := declared_subset_children _ declared
    have has := l.has_of_below ((isScope.reached.child slot).trans below)
    have other : id ≠ owner := by
      rintro rfl
      exact outside range declared (below.child t.slot)
    rw [t.others has fun is => l.not_below_of_child isScope.reached slot (is ▸ below), swapped,
      if_neg other]
  · exact t.trail way (way.not_mem (apart later mem))

theorem LeavesTo.includedRanges {anys : List NodeId} (k : LeavesTo g h scope anys)
    (isRetrieve : (g.node scope).isRetrieve = true) (isRetrieve' : (h.node scope).isRetrieve = true) :
    h.includedRanges scope = g.includedRanges scope := by
  rw [Graph.includedRanges, Graph.includedRanges, ranges_scope isRetrieve', ranges_scope isRetrieve,
    k.ranges]
  refine List.filter_congr fun range declared => ?_
  rw [range?, k.sources range declared range (.refl g range), range?]

/-! ## What becomes of an ANY -/

/-- The number 1 in the place of an inlined ANY. -/
theorem takesPlace_inlineAny (e : Extends g h) (slot : any ∈ g.children owner)
    (owned : g.parent any = some owner) (scope : NodeId) :
    TakesPlace g (h.inlineAny scope any) scope any owner h.next := by
  have swap := TakesPlace.of_replace (e.add (.number "1") (by simp [Node.children]))
    (h.has_add_next _) (fun had => h.not_has_next (e.has had)) (.inr (node_add_next ..)) slot owned scope
  rw [inlineAny]
  dsimp only
  split
  · exact swap.setWindow _
  · exact swap

/-- An ANY that is resolved gives its place to a subquery or to the number 1. -/
theorem takesPlace_resolveAnyAt {metadata : Metadata}
    (told : (g.resolveAnyAt metadata scope any).2 = true) (slot : any ∈ g.children owner)
    (owned : g.parent any = some owner) :
    ∃ new, TakesPlace g (g.resolveAnyAt metadata scope any).1 scope any owner new := by
  rcases g.resolveAnyAt_cases metadata scope any with
    ⟨quiet, -⟩ | ⟨-, h, site, beside, -, ⟨inlined, -⟩ | ⟨kind, sub, replaced, fresh⟩⟩
  · rw [quiet] at told
    cases told
  · exact ⟨h.next, inlined ▸ takesPlace_inlineAny beside slot owned scope⟩
  · refine ⟨h.next, ?_⟩
    rw [replaced, replaceBySubquery]
    dsimp only
    exact .of_replace (beside.add _ (by simpa [Node.children] using fresh)) (h.has_add_next _)
      (fun had => h.not_has_next (beside.has had)) (.inl (by rw [node_add_next]; rfl)) slot owned scope

end Graph

end RangeQuery
