import Mathlib.Data.Set.Insert
import RangeQuery.Proofs.Graph.Linked

/-!
Zones. A zone is a part of a graph in which the links are in order: what its nodes own lies in it,
records its owner and lies within the scopes that its level tells. A change of a graph keeps a
zone, up to the nodes it takes apart and the ones it makes; while a slot is refilled, the link from
it is loose and does not count. The roots hang nowhere, so each of them stays a well-linked node.
-/

namespace RangeQuery

/-- Whether a node opens a scope of names. -/
def Node.opensScope (node : Node) : Bool := node.ranges?.isSome

namespace Graph

/-- The scopes around what hangs below a node, given those around the node. -/
def enter (g : Graph) (id : NodeId) (level : List NodeId) : List NodeId :=
  if (g.node id).opensScope then id :: level else level

/-- The scopes among some nodes. -/
def scopesAmong (g : Graph) (ids : List NodeId) : List NodeId :=
  ids.filter fun id => (g.node id).opensScope

theorem scopesAmong_cons (g : Graph) (id : NodeId) (ids : List NodeId) :
    g.scopesAmong (id :: ids) = g.enter id (g.scopesAmong ids) := by
  simp only [scopesAmong, enter, List.filter_cons]

theorem enter_of_false {g : Graph} {id : NodeId} (h : (g.node id).opensScope = false)
    (level : List NodeId) : g.enter id level = level := by
  simp [enter, h]

theorem enter_append (g : Graph) (id : NodeId) (level tail : List NodeId) :
    g.enter id (level ++ tail) = g.enter id level ++ tail := by
  unfold enter
  split <;> rfl

/-- A node hangs in a zone below its owner: it lies there, records the owner, and its level is that
of the owner with itself, if it is a scope. -/
structure Hangs (g : Graph) (zone : Set NodeId) (level : NodeId → List NodeId)
    (owner child : NodeId) : Prop where
  mem : child ∈ zone
  parent : g.parent child = some owner
  level : level child = g.enter child (level owner)

/-- The links from the nodes of a zone are in order, apart from the loose ones. -/
structure Zone (g : Graph) (roots : Set NodeId) (loose : Set (NodeId × NodeId))
    (zone : Set NodeId) (level : NodeId → List NodeId) : Prop where
  has : ∀ {id}, id ∈ zone → g.Has id
  link : ∀ {owner child}, owner ∈ zone → child ∈ g.children owner → (owner, child) ∉ loose →
    g.Hangs zone level owner child
  nodup : ∀ {owner}, owner ∈ zone → (g.children owner).Nodup
  root : ∀ {id}, id ∈ roots → id ∈ zone ∧ g.parent id = none

/-- No node of a zone owns this one, unless over a loose link. -/
def Free (g : Graph) (loose : Set (NodeId × NodeId)) (zone : Set NodeId) (id : NodeId) : Prop :=
  ∀ owner ∈ zone, id ∈ g.children owner → (owner, id) ∈ loose

/-- A node of a zone may be hung below one with these scopes around it: it is no root, nothing owns
it yet, and its level is the one it has there. -/
structure Ready (g : Graph) (roots : Set NodeId) (loose : Set (NodeId × NodeId))
    (zone : Set NodeId) (level : NodeId → List NodeId) (scopes : List NodeId) (id : NodeId) :
    Prop where
  mem : id ∈ zone
  free : g.Free loose zone id
  nonroot : id ∉ roots
  level : level id = g.enter id scopes

variable {g h : Graph} {roots zone : Set NodeId} {loose : Set (NodeId × NodeId)}
  {level : NodeId → List NodeId}

theorem Free.mono {loose' : Set (NodeId × NodeId)} {zone' : Set NodeId} {id : NodeId}
    (free : g.Free loose zone id) (less : zone' ⊆ zone) (more : loose ⊆ loose') :
    g.Free loose' zone' id :=
  fun owner mem slot => more (free owner (less mem) slot)

/-- A change that leaves the slots of a zone leaves what is free of it. -/
theorem Free.relabel {id : NodeId} (free : g.Free loose zone id)
    (children : ∀ id ∈ zone, h.children id = g.children id) : h.Free loose zone id :=
  fun owner mem slot => free owner mem (children owner mem ▸ slot)

namespace Zone

theorem closed (z : g.Zone roots loose zone level) {owner child : NodeId} (mem : owner ∈ zone)
    (slot : child ∈ g.children owner) (tight : (owner, child) ∉ loose) : child ∈ zone :=
  (z.link mem slot tight).mem

theorem owned (z : g.Zone roots loose zone level) {owner child : NodeId} (mem : owner ∈ zone)
    (slot : child ∈ g.children owner) (tight : (owner, child) ∉ loose) :
    g.parent child = some owner :=
  (z.link mem slot tight).parent

/-! ## Zones and linked nodes -/

theorem mem_of_below (z : g.Zone roots ∅ zone level) {root id : NodeId} (mem : root ∈ zone)
    (below : g.Below root id) : id ∈ zone :=
  below.induction mem fun _ _ _ ih slot => z.closed ih slot (Set.notMem_empty _)

/-- A root of a zone without loose links is well linked. -/
theorem linked (z : g.Zone roots ∅ zone level) {root : NodeId} (mem : root ∈ roots) :
    g.Linked root where
  has := z.has (z.root mem).1
  parent_root := (z.root mem).2
  parent_child above slot := z.owned (z.mem_of_below (z.root mem).1 above) slot (Set.notMem_empty _)
  nodup above := z.nodup (z.mem_of_below (z.root mem).1 above)

/-- The level of a node is that of a node above it, with the scopes between. -/
theorem level_of_trail (z : g.Zone roots ∅ zone level) {top id : NodeId} {trail : List NodeId}
    {tail : List NodeId} (mem : top ∈ zone) (start : level top = g.enter top tail)
    (way : g.Trail top trail id) : level id = g.scopesAmong (id :: trail) ++ tail := by
  induction way with
  | here => rw [start, scopesAmong_cons, ← enter_append]; rfl
  | down way slot ih =>
    have link := z.link (z.mem_of_below mem ⟨_, way⟩) slot (Set.notMem_empty _)
    rw [link.level, ih, enter_append, ← scopesAmong_cons]

end Zone

/-- The scopes around a node, itself among them, on its way from one of the roots. -/
noncomputable def levelFrom (g : Graph) (roots : Set NodeId) (id : NodeId) : List NodeId :=
  open Classical in
  if h : ∃ trail, ∃ root ∈ roots, g.Trail root trail id then g.scopesAmong (id :: h.choose) else []

theorem levelFrom_of_trail (linked : ∀ root ∈ roots, g.Linked root) {root id : NodeId}
    {trail : List NodeId} (mem : root ∈ roots) (way : g.Trail root trail id) :
    g.levelFrom roots id = g.scopesAmong (id :: trail) := by
  have found : ∃ trail, ∃ root ∈ roots, g.Trail root trail id := ⟨trail, root, mem, way⟩
  rw [levelFrom, dif_pos found]
  obtain ⟨other, mem', way'⟩ := found.choose_spec
  have same := (linked root mem).eq_of_below (linked other mem') ⟨_, way⟩ ⟨_, way'⟩
  subst same
  rw [(linked root mem).trail_unique way' way]

/-- The level of a node below a root are the scopes on its trail. -/
theorem Linked.level_of_trail {root id : NodeId} (l : g.Linked root) {trail : List NodeId}
    (way : g.Trail root trail id) : g.levelFrom {root} id = g.scopesAmong (id :: trail) := by
  refine levelFrom_of_trail (fun top mem => ?_) (Set.mem_singleton root) way
  rw [Set.mem_singleton_iff.mp mem]
  exact l

theorem levelFrom_root (linked : ∀ root ∈ roots, g.Linked root) {root : NodeId}
    (mem : root ∈ roots) : g.levelFrom roots root = g.enter root [] := by
  rw [levelFrom_of_trail linked mem .here, scopesAmong_cons]
  rfl

namespace Zone

/-- What is reached from well-linked nodes is a zone. -/
theorem of_linked (linked : ∀ root ∈ roots, g.Linked root) :
    g.Zone roots ∅ {id | ∃ root ∈ roots, g.Below root id} (g.levelFrom roots) where
  has := by
    rintro id ⟨root, mem, below⟩
    exact (linked root mem).has_of_below below
  link := by
    rintro owner child ⟨root, mem, below⟩ slot _
    refine ⟨⟨root, mem, below.child slot⟩, (linked root mem).parent_child below slot, ?_⟩
    obtain ⟨trail, way⟩ := below
    rw [levelFrom_of_trail linked mem (way.down slot), levelFrom_of_trail linked mem way,
      scopesAmong_cons]
  nodup := by
    rintro owner ⟨root, mem, below⟩
    exact (linked root mem).nodup below
  root := fun mem => ⟨⟨_, mem, Below.refl g _⟩, (linked _ mem).parent_root⟩

/-! ## What hangs where -/

theorem not_mem_roots (z : g.Zone roots loose zone level) {owner child : NodeId}
    (mem : owner ∈ zone) (slot : child ∈ g.children owner) (tight : (owner, child) ∉ loose) :
    child ∉ roots := by
  intro root
  have recorded := z.owned mem slot tight
  rw [(z.root root).2] at recorded
  cases recorded

theorem free_of_parent (z : g.Zone roots loose zone level) {id : NodeId}
    (h : ∀ owner ∈ zone, g.parent id = some owner → (owner, id) ∈ loose) :
    g.Free loose zone id := by
  intro owner mem slot
  by_cases tight : (owner, id) ∈ loose
  · exact tight
  · exact h owner mem (z.owned mem slot tight)

theorem free_of_root (z : g.Zone roots loose zone level) {id : NodeId} (h : g.parent id = none) :
    g.Free loose zone id :=
  z.free_of_parent fun owner _ recorded => by rw [h] at recorded; cases recorded

theorem free_of_not_mem (z : g.Zone roots loose zone level) {id : NodeId} (h : id ∉ zone) :
    g.Free loose zone id := by
  intro owner mem slot
  by_cases tight : (owner, id) ∈ loose
  · exact tight
  · exact absurd (z.closed mem slot tight) h

/-- Nothing is free that is reached over a slot. -/
theorem not_free_of_below (z : g.Zone roots ∅ zone level) {owner child id : NodeId}
    (mem : owner ∈ zone) (slot : child ∈ g.children owner) (below : g.Below child id) :
    ¬ g.Free ∅ zone id := by
  intro free
  rcases below.eq_or_owner with rfl | ⟨other, above, slot'⟩
  · exact free owner mem slot
  · exact free other (z.mem_of_below (z.closed mem slot (Set.notMem_empty _)) above) slot'

/-- What hangs in a slot is free once that link is loose. -/
theorem free_of_child (z : g.Zone roots loose zone level) {owner child : NodeId}
    (mem : owner ∈ zone) (slot : child ∈ g.children owner) (tight : (owner, child) ∉ loose) :
    g.Free (insert (owner, child) loose) zone child := by
  intro other mem' slot'
  by_cases tight' : (other, child) ∈ loose
  · exact .inr tight'
  · have recorded := z.owned mem slot tight
    rw [z.owned mem' slot' tight'] at recorded
    exact .inl (by rw [Option.some.inj recorded])

/-- Once the link to a child is loose, the child is ready to be hung elsewhere on its level. -/
theorem ready_of_loose {loose' : Set (NodeId × NodeId)} (z : g.Zone roots loose zone level)
    {owner child : NodeId} (mem : owner ∈ zone) (slot : child ∈ g.children owner)
    (tight : (owner, child) ∉ loose) (more : insert (owner, child) loose ⊆ loose') :
    g.Ready roots loose' zone level (level owner) child :=
  ⟨(z.link mem slot tight).mem, (z.free_of_child mem slot tight).mono subset_rfl more,
    z.not_mem_roots mem slot tight, (z.link mem slot tight).level⟩

/-- What hung in a slot is free once its owner holds it no more. -/
theorem free_of_released (z : g.Zone roots loose zone level) {owner child : NodeId}
    (mem : owner ∈ zone) (slot : child ∈ g.children owner) (tight : (owner, child) ∉ loose)
    (others : ∀ id ∈ zone, id ≠ owner → h.children id = g.children id)
    (gone : child ∉ h.children owner) : h.Free loose zone child := by
  intro other mem' slot'
  by_cases same : other = owner
  · subst same
    exact absurd slot' gone
  · rw [others other mem' same] at slot'
    by_cases tight' : (other, child) ∈ loose
    · exact tight'
    · have recorded := z.owned mem slot tight
      rw [z.owned mem' slot' tight'] at recorded
      exact absurd (Option.some.inj recorded) same

/-! ## Other sets -/

theorem looser {loose' : Set (NodeId × NodeId)} (z : g.Zone roots loose zone level)
    (more : loose ⊆ loose') : g.Zone roots loose' zone level where
  has := z.has
  link mem slot tight := z.link mem slot fun was => tight (more was)
  nodup := z.nodup
  root := z.root

theorem fewerRoots {roots' : Set NodeId} (z : g.Zone roots loose zone level)
    (less : roots' ⊆ roots) : g.Zone roots' loose zone level :=
  { z with root := fun mem => z.root (less mem) }

/-- Levels count on the nodes of the zone only. -/
theorem relevel {level' : NodeId → List NodeId} (z : g.Zone roots loose zone level)
    (same : ∀ id ∈ zone, level' id = level id) : g.Zone roots loose zone level' where
  has := z.has
  link mem slot tight := by
    have link := z.link mem slot tight
    exact ⟨link.mem, link.parent, by rw [same _ link.mem, same _ mem, link.level]⟩
  nodup := z.nodup
  root := z.root

/-- A zone as a whole can lie within further scopes. -/
theorem within (z : g.Zone roots loose zone level) (tail : List NodeId) :
    g.Zone roots loose zone fun id => level id ++ tail where
  has := z.has
  link mem slot tight := by
    have link := z.link mem slot tight
    exact ⟨link.mem, link.parent, by rw [link.level, enter_append]⟩
  nodup := z.nodup
  root := z.root

/-- Nodes that no other node of the zone owns can be left out of it. -/
theorem without (z : g.Zone roots loose zone level) {gone : Set NodeId}
    (free : ∀ id ∈ gone, g.Free loose (zone \ gone) id) (kept : ∀ id ∈ roots, id ∉ gone) :
    g.Zone roots loose (zone \ gone) level where
  has mem := z.has mem.1
  link mem slot tight :=
    { z.link mem.1 slot tight with
      mem := ⟨z.closed mem.1 slot tight, fun was => tight (free _ was _ mem slot)⟩ }
  nodup mem := z.nodup mem.1
  root mem := ⟨⟨(z.root mem).1, kept _ mem⟩, (z.root mem).2⟩

theorem union {roots' zone' : Set NodeId} (z : g.Zone roots loose zone level)
    (z' : g.Zone roots' loose zone' level) :
    g.Zone (roots ∪ roots') loose (zone ∪ zone') level where
  has mem := mem.elim z.has z'.has
  link mem slot tight := mem.elim
    (fun m => { z.link m slot tight with mem := .inl (z.closed m slot tight) })
    fun m => { z'.link m slot tight with mem := .inr (z'.closed m slot tight) }
  nodup mem := mem.elim z.nodup z'.nodup
  root mem := mem.elim (fun m => ⟨.inl (z.root m).1, (z.root m).2⟩)
    fun m => ⟨.inr (z'.root m).1, (z'.root m).2⟩

/-! ## Changes -/

/-- A change that at most reorders the slots, and leaves the scopes and the owners of a zone, leaves
the zone. -/
theorem reorder (z : g.Zone roots loose zone level) (has : ∀ id ∈ zone, h.Has id)
    (children : ∀ id ∈ zone, (h.children id).Perm (g.children id))
    (scope : ∀ id ∈ zone, (h.node id).opensScope = (g.node id).opensScope)
    (parent : ∀ id ∈ zone, h.parent id = g.parent id) : h.Zone roots loose zone level where
  has mem := has _ mem
  link mem slot tight := by
    have link := z.link mem ((children _ mem).mem_iff.mp slot) tight
    refine ⟨link.mem, (parent _ link.mem).trans link.parent, ?_⟩
    rw [link.level, enter, enter, scope _ link.mem]
  nodup mem := (children _ mem).nodup_iff.mpr (z.nodup mem)
  root mem := ⟨(z.root mem).1, (parent _ (z.root mem).1).trans (z.root mem).2⟩

theorem relabel (z : g.Zone roots loose zone level) (has : ∀ id ∈ zone, h.Has id)
    (children : ∀ id ∈ zone, h.children id = g.children id)
    (scope : ∀ id ∈ zone, (h.node id).opensScope = (g.node id).opensScope)
    (parent : ∀ id ∈ zone, h.parent id = g.parent id) : h.Zone roots loose zone level :=
  z.reorder has (fun id mem => .of_eq (children id mem)) scope parent

/-- A change outside a zone leaves it, if only free nodes of it record another owner. -/
theorem elsewhere (z : g.Zone roots loose zone level) (has : ∀ id ∈ zone, h.Has id)
    (node : ∀ id ∈ zone, h.node id = g.node id)
    (frame : ∀ id ∈ zone, h.parent id = g.parent id ∨
      g.Free loose zone id ∧ (id ∈ roots → h.parent id = none)) :
    h.Zone roots loose zone level where
  has mem := has _ mem
  link := by
    intro owner child mem slot tight
    rw [children, node _ mem] at slot
    have link := z.link mem slot tight
    refine ⟨link.mem, ?_, by rw [link.level, enter, enter, node _ link.mem]⟩
    rcases frame child link.mem with kept | free
    · rw [kept, link.parent]
    · exact absurd (free.1 owner mem slot) tight
  nodup mem := by rw [children, node _ mem]; exact z.nodup mem
  root := by
    intro id mem
    obtain ⟨within, top⟩ := z.root mem
    refine ⟨within, ?_⟩
    rcases frame id within with kept | free
    · rw [kept, top]
    · exact free.2 mem

/-- One node gets other slots: what it owns now is free of the others, records it and is on its
level, and what it owned before may be released. None of its links stays loose. -/
theorem rewire {loose' : Set (NodeId × NodeId)} (z : g.Zone roots loose zone level)
    {owner : NodeId} (has : ∀ id ∈ zone, h.Has id)
    (others : ∀ id ∈ zone, id ≠ owner → h.children id = g.children id)
    (scope : ∀ id ∈ zone, (h.node id).opensScope = (g.node id).opensScope)
    (rest : ∀ link ∈ loose, link.1 ≠ owner → link ∈ loose')
    (hangs : ∀ child ∈ h.children owner, h.Hangs zone level owner child)
    (free : ∀ child ∈ h.children owner, g.Free loose (zone \ {owner}) child)
    (nonroot : ∀ child ∈ h.children owner, child ∉ roots)
    (nodup : (h.children owner).Nodup)
    (frame : ∀ id ∈ zone, id ∉ h.children owner →
      h.parent id = g.parent id ∨ h.parent id = none ∧ g.parent id = some owner) :
    h.Zone roots loose' zone level where
  has mem := has _ mem
  link := by
    intro node child mem slot tight
    by_cases same : node = owner
    · subst same
      exact hangs child slot
    · rw [others node mem same] at slot
      have tight' : (node, child) ∉ loose := fun was => tight (rest _ was same)
      have before := z.link mem slot tight'
      have apart : child ∉ h.children owner := fun taken =>
        tight' (free child taken node ⟨mem, same⟩ slot)
      refine ⟨before.mem, ?_, by rw [before.level, enter, enter, scope _ before.mem]⟩
      rcases frame child before.mem apart with kept | lost
      · rw [kept, before.parent]
      · rw [before.parent] at lost
        exact absurd (Option.some.inj lost.2) same
  nodup := by
    intro node mem
    by_cases same : node = owner
    · subst same
      exact nodup
    · rw [others node mem same]
      exact z.nodup mem
  root := by
    intro id mem
    obtain ⟨within, top⟩ := z.root mem
    refine ⟨within, ?_⟩
    rcases frame id within fun slot => nonroot id slot mem with kept | lost
    · rw [kept, top]
    · exact lost.1

/-- A new node takes over nodes of the zone that are ready to hang below it. -/
theorem add (z : g.Zone roots loose zone level) (node : Node)
    (ready : ∀ child ∈ node.children, g.Ready roots loose zone level (level g.next) child)
    (nodup : node.children.Nodup) :
    (g.add node).1.Zone roots loose (insert g.next zone) level := by
  have new : (g.add node).1.children g.next = node.children := by
    rw [children, node_add_next]
  have old : ∀ id ∈ zone, (g.add node).1.node id = g.node id := fun id mem =>
    node_add (z.has mem) node
  refine ⟨?_, ?_, ?_, ?_⟩
  · rintro id (rfl | mem)
    · exact g.has_add_next node
    · exact has_add (z.has mem) node
  · rintro owner child (rfl | mem) slot tight
    · rw [new] at slot
      have taken := ready child slot
      refine ⟨.inr taken.mem, parent_add_of_mem (z.has taken.mem) slot, ?_⟩
      rw [taken.level, enter, enter, old child taken.mem]
    · rw [children, old owner mem] at slot
      have link := z.link mem slot tight
      refine ⟨.inr link.mem, ?_, by rw [link.level, enter, enter, old child link.mem]⟩
      rw [parent_add_of_not_mem (ne_next_of_has (z.has link.mem))
        fun taken => tight ((ready child taken).free owner mem slot)]
      exact link.parent
  · rintro owner (rfl | mem)
    · rw [new]; exact nodup
    · rw [children, old owner mem]; exact z.nodup mem
  · intro id mem
    obtain ⟨within, top⟩ := z.root mem
    refine ⟨.inr within, ?_⟩
    rw [parent_add_of_not_mem (ne_next_of_has (z.has within))
      fun taken => (ready id taken).nonroot mem]
    exact top

/-- What was free and is not taken over by a new node stays free. -/
theorem free_add (z : g.Zone roots loose zone level) (node : Node) {id : NodeId}
    (free : g.Free loose zone id) (apart : id ∉ node.children) :
    (g.add node).1.Free loose (insert g.next zone) id := by
  rintro owner (rfl | mem) slot
  · rw [children, node_add_next] at slot
    exact absurd slot apart
  · rw [children, node_add (z.has mem)] at slot
    exact free owner mem slot

/-- A new node hangs nowhere. -/
theorem free_next (z : g.Zone roots loose zone level) (node : Node)
    (inside : ∀ child ∈ node.children, child ∈ zone) :
    (g.add node).1.Free loose (insert g.next zone) g.next := by
  have outside : g.next ∉ zone := fun mem => g.not_has_next (z.has mem)
  exact z.free_add node (z.free_of_not_mem outside) fun taken => outside (inside _ taken)

/-- A root of the zone is no new node. -/
theorem next_not_mem_roots (z : g.Zone roots loose zone level) : g.next ∉ roots :=
  fun mem => g.not_has_next (z.has (z.root mem).1)

/-- What was ready and is not taken over by a new node stays ready. -/
theorem ready_add (z : g.Zone roots loose zone level) (node : Node) {scopes : List NodeId}
    {id : NodeId} (ready : g.Ready roots loose zone level scopes id) (apart : id ∉ node.children) :
    (g.add node).1.Ready roots loose (insert g.next zone) level scopes id :=
  ⟨.inr ready.mem, z.free_add node ready.free apart, ready.nonroot, by
    rw [ready.level, enter, enter, node_add (z.has ready.mem)]⟩

/-- A new node is ready on its level. -/
theorem ready_next (z : g.Zone roots loose zone level) (node : Node) (scopes : List NodeId)
    (inside : ∀ child ∈ node.children, child ∈ zone)
    (on : level g.next = if node.opensScope then g.next :: scopes else scopes) :
    (g.add node).1.Ready roots loose (insert g.next zone) level scopes g.next :=
  ⟨.inl rfl, z.free_next node inside, z.next_not_mem_roots, by rw [on, enter, node_add_next]⟩

end Zone

/-- A zone with the nodes that were made meanwhile. -/
def grown (g h : Graph) (zone : Set NodeId) : Set NodeId :=
  {id | id ∈ zone ∨ ¬ g.Has id ∧ h.Has id}

theorem grown_self (g : Graph) (zone : Set NodeId) : g.grown g zone = zone := by
  ext id
  exact or_iff_left fun both => both.1 both.2

theorem grown_add (g : Graph) (node : Node) (zone : Set NodeId) :
    g.grown (g.add node).1 zone = insert g.next zone := by
  ext id
  simp only [grown, Set.mem_ofPred_eq, Set.mem_insert_iff, has_add_iff]
  constructor
  · rintro (mem | ⟨new, had | rfl⟩)
    · exact .inr mem
    · exact absurd had new
    · exact .inl rfl
  · rintro (rfl | mem)
    · exact .inr ⟨g.not_has_next, .inr rfl⟩
    · exact .inl mem

theorem grown_trans {k : Graph} (size : g.size ≤ h.size) (size' : h.size ≤ k.size)
    (zone : Set NodeId) : h.grown k (g.grown h zone) = g.grown k zone := by
  ext id
  simp only [grown, Set.mem_ofPred_eq, Has]
  constructor
  · rintro ((mem | ⟨new, has⟩) | ⟨new, has⟩)
    · exact .inl mem
    · exact .inr ⟨new, by omega⟩
    · exact .inr ⟨by omega, has⟩
  · rintro (mem | ⟨new, has⟩)
    · exact .inl (.inl mem)
    · by_cases had : id.index < h.size
      · exact .inl (.inr ⟨new, had⟩)
      · exact .inr ⟨had, has⟩

end Graph

open RangeQuery.Graph

/-- What is reached from a well-linked node is a zone with the node as its root. -/
theorem Graph.Linked.zone {g : Graph} {root : NodeId} (l : g.Linked root) :
    g.Zone {root} ∅ {id | g.Below root id} (g.levelFrom {root}) := by
  have linked : ∀ top ∈ ({root} : Set NodeId), g.Linked top := fun top mem => by
    rw [Set.mem_singleton_iff.mp mem]
    exact l
  have z := Zone.of_linked linked
  have same : {id | ∃ top ∈ ({root} : Set NodeId), g.Below top id} = {id | g.Below root id} := by
    ext id
    simp
  rwa [same] at z

end RangeQuery
