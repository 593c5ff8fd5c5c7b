import RangeQuery.Proofs.Graph.Doubles
import RangeQuery.Proofs.Scope.Lexical
import RangeQuery.Proofs.Scope.SubqueryReads

/-!
Names in copies. A copied tree without templates has one node in each place of the old one, and the
scopes on the way to a copied node are copies of those on the way to the old one. So a range that the
tree declares is found by its name in the copy as its copy is, and all else is looked for beyond.
-/

namespace RangeQuery

/-! ## Nodes that are filled again -/

namespace Node

theorem opensScope_stamp (node : Node) : node.stamp.opensScope = node.opensScope := by
  cases node <;> rfl

theorem exists_identifier_of_stamp {node : Node} {i : Identifier}
    (same : (Node.identifier i).stamp = node.stamp) : ∃ i, node = .identifier i := by
  cases node <;> simp_all [stamp, label]

theorem declared_eq_take (node : Node) :
    node.declared = node.children.take node.declared.length := by
  cases node <;> simp [declared, ranges?, children]

variable (target : NodeId → NodeId) (node : Node) (kids bodies : List NodeId)

theorem declared_filled :
    (((node.reading target).withChildren kids).withTemplateBodies bodies).declared =
      kids.take node.declared.length := by
  cases node <;>
    simp [declared, ranges?, reading, withChildren, withTemplateBodies, Retrieve.withChildren,
      Subquery.withChildren]

theorem stamp_filled :
    (((node.reading target).withChildren kids).withTemplateBodies bodies).stamp = node.stamp := by
  rw [stamp, label_withTemplateBodies, slotless_label.children]
  cases node <;> rfl

theorem templateBodies_filled_of_plain (plain : node.templateBodies = []) :
    (((node.reading target).withChildren kids).withTemplateBodies bodies).templateBodies = [] := by
  cases node with
  | retrieve r =>
    have none : r.templates.entries = [] := by
      simpa [templateBodies, NameTable.values] using plain
    simp [reading, withChildren, withTemplateBodies, templateBodies, NameTable.values,
      NameTable.withValues, Retrieve.withChildren, none]
  | _ => rfl

end Node

namespace Graph

variable {g h k : Graph} {root top copy old new : NodeId} {target : NodeId → NodeId}
  {names : Renaming} {name : String} {outer outer' : List NodeId}

/-! ## Replicas -/

/-- The copy of a tree, each node once: an identifier in it reads the copy of its range where the range
was copied, and else what the renaming tells. -/
structure Replica (g h : Graph) (names : Renaming) (top copy : NodeId) (target : NodeId → NodeId) :
    Prop where
  mirrors : Mirrors g h target top copy
  own : ∀ {id new}, SamePlace g h top copy id new → target id = new
  outside : ∀ {id}, ¬ g.Below top id → target id = names.apply id

/-- The copy of a tree without templates is a replica. -/
theorem Tree.replica_copyWith (t : g.Tree top)
    (plain : ∀ id, g.Below top id → (g.node id).templateBodies = []) (names : Renaming) :
    Replica g (g.copyWith top names).1 names top (g.copyWith top names).2
      (copyLevels g.size g names top).2.1.apply := by
  have whole : g.Whole top := Grounded.whole (fun _ below => t.has below) plain
  refine ⟨mirrors_copyWith t.acyclic names, fun {id new} place => ?_, fun {id} outside =>
    whole.outside_copyWith names fun within => outside (within.below_of_plain plain)⟩
  rcases (whole.inside_copyWith names place.reached.1.within).2.samePlace_or_within
    whole.slots_copyWith with shown | ⟨owner, body, above, mem, -⟩
  · exact shown.unique t place
  · rw [plain owner (above.below_of_plain plain)] at mem
    cases mem

namespace Replica

/-- A replica stays one while the graph grows. -/
theorem grow (r : Replica g h names top copy target) (e : Extends h k) (grounded : h.Grounded copy) :
    Replica g k names top copy target where
  mirrors := r.mirrors.grow fun id below => e.node (grounded id below)
  own place := r.own <| place.congr (fun _ _ => rfl) fun id below =>
    (e.children (grounded id ((e.below_iff grounded).mp below))).symm
  outside := r.outside

/-- The replica of a tree of a grown graph is one of the old tree. -/
theorem shrink (r : Replica h k names top copy target) (e : Extends g h) (grounded : g.Grounded top) :
    Replica g k names top copy target where
  mirrors := r.mirrors.shrink e grounded
  own place := r.own (place.congr (fun id below => e.children (grounded id below)) fun _ _ => rfl)
  outside apart := r.outside fun below => apart ((e.below_iff grounded).mp below)

end Replica

/-- The copies of ranges are replicas of them. -/
theorem replica_copyRanges (l : g.Linked root) {live : List NodeId}
    (above : ∀ id ∈ live, g.Below root id)
    (plain : ∀ top ∈ live, ∀ id, g.Below top id → (g.node id).templateBodies = []) :
    ∀ pair ∈ (g.copyRanges live).2, ∃ target,
      Replica g (g.copyRanges live).1 .empty pair.1 pair.2 target := by
  induction live generalizing g with
  | nil => simp [copyRanges]
  | cons first rest ih =>
    have forest := g.forest_copyWith first .empty
    have others := (g.copyWith first .empty).1.forest_copyRanges rest
    have tree := forest.linked _ (List.mem_singleton_self _)
    have e := forest.beside
    have grounded : ∀ id ∈ first :: rest, g.Grounded id := fun id mem => l.grounded (above id mem)
    rintro pair (_ | ⟨_, later⟩)
    · have r := (l.tree.below (above first (by simp))).replica_copyWith (plain first (by simp)) .empty
      exact ⟨_, r.grow others.beside (tree.grounded (.refl _ _))⟩
    · have among : pair.1 ∈ rest := by
        rw [← fst_copyRanges (g.copyWith first .empty).1 rest]
        exact List.mem_map.mpr ⟨pair, later, rfl⟩
      obtain ⟨target, r⟩ := ih (e.linked l)
        (fun id mem => (e.below_iff (l.grounded (.refl g root))).mpr (above id (by simp [mem])))
        (fun top mem id below => by
          have was := (e.below_iff (grounded top (by simp [mem]))).mp below
          rw [e.node (grounded top (by simp [mem]) id was)]
          exact plain top (by simp [mem]) id was) pair later
      exact ⟨target, r.shrink e (grounded pair.1 (by simp [among]))⟩

/-! ## Scopes in the same places -/

/-- What mirrors a node has its stamp. -/
theorem Mirrors.stamp (m : Mirrors g k target old new) : (k.node new).stamp = (g.node old).stamp := by
  cases m with
  | intro kids bodies node _ _ => rw [node, Node.stamp_filled]

/-- What mirrors a node without templates has none. -/
theorem Mirrors.plain (m : Mirrors g k target old new) (plain : (g.node old).templateBodies = []) :
    (k.node new).templateBodies = [] := by
  cases m with
  | intro kids bodies node _ _ => rw [node, Node.templateBodies_filled_of_plain _ _ _ _ plain]

theorem Mirrors.node_eq_identifier (m : Mirrors g k target old new) {i : Identifier}
    (node : g.node old = .identifier i) :
    k.node new = .identifier { i with range := target i.range } := by
  cases m with
  | intro kids bodies shown _ _ =>
    rw [shown, node]
    rfl

/-- The way to a node of a mirror goes through the places of a way to what it mirrors. -/
theorem Mirrors.exists_trail (m : Mirrors g k target top copy) {trail' : List NodeId}
    (way : k.Trail copy trail' new) : ∃ trail old, g.Trail top trail old ∧
      List.Forall₂ (SamePlace g k top copy) (old :: trail) (new :: trail') := by
  induction way with
  | here => exact ⟨[], top, .here, .cons .top .nil⟩
  | down _ slot ih =>
    obtain ⟨trail, owner, way, places⟩ := ih
    have place := (List.forall₂_cons.mp places).1
    obtain ⟨child, pair⟩ := exists_zip_partner (place.mirrors m).each.length_eq.symm slot
    exact ⟨owner :: trail, child, way.down (List.of_mem_zip pair).2,
      .cons (place.down (mem_zip_swap pair)) places⟩

section

variable (m : Mirrors g k target top copy)

include m

/-- The ranges that a node declares are in the places of those that the mirrored one declares. -/
theorem SamePlace.declared (place : SamePlace g k top copy old new) :
    List.Forall₂ (SamePlace g k top copy) (g.node old).declared (k.node new).declared := by
  have mirror := place.mirrors m
  have pairs : List.Forall₂ (SamePlace g k top copy) (g.children old) (k.children new) :=
    List.forall₂_iff_zip.mpr ⟨mirror.each.length_eq, fun mem => place.down mem⟩
  have kids : (k.node new).declared = (k.children new).take (g.node old).declared.length := by
    cases mirror with
    | intro kids bodies node length _ =>
      rw [Mirrors.children_of_node node length, node, Node.declared_filled]
  have taken := List.forall₂_take (g.node old).declared.length pairs
  rw [kids]
  rwa [children, ← Node.declared_eq_take] at taken

theorem SamePlace.misses (place : SamePlace g k top copy old new) (misses : g.Misses name old) :
    k.Misses name new := by
  have stamp := (place.mirrors m).stamp
  refine ⟨?_, fun range' mem isRange => ?_⟩
  · rw [← Node.isRetrieve_stamp, stamp, Node.isRetrieve_stamp]
    exact misses.1
  · obtain ⟨range, declared, place'⟩ := exists_of_forall₂ (place.declared m) mem
    have stamp' := (place'.mirrors m).stamp
    rw [rangeName_of_stamp stamp']
    refine misses.2 range declared ?_
    rwa [← Node.isRange_stamp, ← stamp', Node.isRange_stamp]

/-- The scopes on two ways are in the same places if the ways are. -/
theorem forall₂_scopesAmong {way way' : List NodeId}
    (places : List.Forall₂ (SamePlace g k top copy) way way') :
    List.Forall₂ (SamePlace g k top copy) (g.scopesAmong way) (k.scopesAmong way') := by
  induction places with
  | nil => exact .nil
  | @cons old new way way' place _ ih =>
    have opens : (k.node new).opensScope = (g.node old).opensScope :=
      (Node.opensScope_stamp _).symm.trans
        ((congrArg Node.opensScope (place.mirrors m).stamp).trans (Node.opensScope_stamp _))
    rw [scopesAmong_cons, scopesAmong_cons, enter, enter, opens]
    split
    · exact .cons place ih
    · exact ih

/-- What is found in some scopes has a copy, which is found in the copies of the scopes. -/
theorem Finds.copied {scopes scopes' : List NodeId} {range : NodeId}
    (places : List.Forall₂ (SamePlace g k top copy) scopes scopes') (finds : g.Finds range scopes) :
    ∃ range', SamePlace g k top copy range range' ∧ k.Finds range' scopes' := by
  induction finds generalizing scopes' with
  | here declared =>
    cases places with
    | cons place _ =>
      obtain ⟨range', mem, place'⟩ := exists_of_forall₂ (place.declared m).flip declared
      exact ⟨range', place', .here mem⟩
  | further misses _ ih =>
    cases places with
    | cons place rest =>
      obtain ⟨range', place', finds⟩ := ih rest
      refine ⟨range', place', .further ?_ finds⟩
      rw [rangeName_of_stamp (place'.mirrors m).stamp]
      exact place.misses m misses

end

/-! ## Copied nodes in their scopes -/

/-- How a copy of a tree reads in the end: an identifier that reads a node of the tree reads its copy,
and what it reads from the scopes around the tree has a range of that name around the copy. -/
structure Renders (g k h : Graph) (top copy : NodeId) (outer outer' : List NodeId) : Prop where
  tree : g.Tree top
  mirrors : ∃ target, Mirrors g k target top copy
  grounded : k.Grounded copy
  keeps : Keeps k h
  reads : Same Node.readsQuery k h
  bodies : Same Node.templateBodies k h
  own : ∀ {old new range' i}, SamePlace g k top copy old new → g.node old = .identifier i →
    SamePlace g k top copy i.range range' → h.node new = .identifier { i with range := range' }
  beyond : ∀ {trail old new i}, g.Trail top trail old → SamePlace g k top copy old new →
    g.node old = .identifier i → (g.node i.range).isRange = true →
    (∀ scope ∈ g.scopesAmong (old :: trail), g.Misses (g.rangeName i.range) scope) →
    g.Finds i.range outer →
    ∃ range', h.node new = .identifier { i with range := range' } ∧
      (h.node range').isRange = true ∧ h.rangeName range' = g.rangeName i.range ∧
      h.Finds range' outer'

/-- The copy of a tree without templates has none in the end. -/
theorem Renders.plain (r : Renders g k h top copy outer outer')
    (plain : ∀ id, g.Below top id → (g.node id).templateBodies = []) (below : k.Below copy new) :
    (h.node new).templateBodies = [] := by
  obtain ⟨target, m⟩ := r.mirrors
  obtain ⟨old, above, mirror⟩ := m.source below
  rw [r.bodies.node (r.grounded new below), mirror.plain (plain old above)]

/-- The nodes of a copied tree are understood by their names where the copy is, if those of the tree
are where the tree is. -/
theorem Renders.wellNamed (r : Renders g k h top copy outer outer')
    (named : ∀ {trail id}, g.Trail top trail id →
      g.WellNamed (g.scopesAmong (id :: trail) ++ outer) id)
    {trail' : List NodeId} (way : k.Trail copy trail' new) :
    h.WellNamed (k.scopesAmong (new :: trail') ++ outer') new := by
  obtain ⟨target, m⟩ := r.mirrors
  obtain ⟨trail, old, way', places⟩ := m.exists_trail way
  have place := (List.forall₂_cons.mp places).1
  have mirror := place.mirrors m
  have scopes := forall₂_scopesAmong m places
  have named := named way'
  have stamps {old new : NodeId} (place : SamePlace g k top copy old new) :=
    (place.mirrors m).stamp
  have range {old new : NodeId} (place : SamePlace g k top copy old new) :
      (k.node new).isRange = (g.node old).isRange := by
    rw [← Node.isRange_stamp, stamps place, Node.isRange_stamp]
  have grounded := r.grounded.below ⟨trail', way⟩
  have has := grounded new (.refl k new)
  have around : ∀ scope ∈ k.scopesAmong (new :: trail'), k.Grounded scope := by
    intro scope mem
    rcases List.mem_cons.mp (List.mem_filter.mp mem).1 with rfl | mem
    · exact grounded
    · exact r.grounded.below (way.below_of_mem mem).1
  refine ⟨r.keeps.distinct grounded ?_, fun i' node => ?_, r.keeps.query r.reads has ?_⟩
  · intro one mem other mem' isRange isRange' same
    obtain ⟨one', declared, shown⟩ := exists_of_forall₂ (place.declared m) mem
    obtain ⟨other', declared', shown'⟩ := exists_of_forall₂ (place.declared m) mem'
    rw [range shown] at isRange
    rw [range shown'] at isRange'
    rw [rangeName_of_stamp (stamps shown), rangeName_of_stamp (stamps shown')] at same
    obtain rfl := named.distinct one' declared other' declared' isRange isRange' same
    exact shown.unique r.tree shown'
  · obtain ⟨i, was⟩ : ∃ i, g.node old = .identifier i := by
      have stamp := (r.keeps.stamp.node has).trans (stamps place)
      exact Node.exists_identifier_of_stamp (node ▸ stamp)
    obtain ⟨isRange, finds⟩ := named.found i was
    rcases finds.within_or_beyond with finds | ⟨misses, finds⟩
    · obtain ⟨range', shown, finds⟩ := finds.copied m scopes
      rw [r.own place was shown] at node
      obtain rfl := Node.identifier.inj node
      have isRange' := (range shown).trans isRange
      exact ⟨r.keeps.stamp.isRange_mono isRange',
        (finds.keep r.keeps isRange' around).within outer'⟩
    · obtain ⟨range', node', isRange', name, finds⟩ := r.beyond way' place was isRange misses finds
      rw [node'] at node
      obtain rfl := Node.identifier.inj node
      refine ⟨isRange', .beyond (fun scope mem => ?_) finds⟩
      obtain ⟨scope', mem', shown⟩ := exists_of_forall₂ scopes mem
      rw [name]
      exact (shown.misses m (misses scope' mem')).keep r.keeps (around scope mem)
  · intro inner nested
    obtain ⟨was, kind⟩ := Node.exists_of_isRange ((range place).symm.trans (isRange_of_nested? nested))
    obtain ⟨is, node, -, queries⟩ := mirror.range kind
    rw [node] at nested
    obtain ⟨inner', mem, mirror'⟩ := exists_of_forall₂ queries (Option.mem_toList.mpr nested)
    have isRetrieve := named.query inner' (by rw [kind]; exact Option.mem_toList.mp mem)
    rw [← Node.isRetrieve_stamp, mirror'.stamp, Node.isRetrieve_stamp, isRetrieve]

end Graph

end RangeQuery
