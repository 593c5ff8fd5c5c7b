import RangeQuery.Proofs.Scope.BoundCopies
import RangeQuery.Proofs.Scope.LexicalCopies

/-!
Names in the subqueries that take the place of aggregates. Such a subquery declares copies of some
ranges of a scope, under their names. What was copied for it read the ranges of the scope from a place
that sees no other scope in between; so each name leads to the copy of the range, or past the subquery
to the range.
-/

namespace RangeQuery

namespace Graph

variable {g h k f : Graph} {root scope owner top copy old new range : NodeId} {names : Renaming}
  {live : List NodeId} {outer' : List NodeId}

/-! ## What a scope declares -/

/-- Of what hangs in a slot below a scope, the scope declares at most what is in the slot. -/
theorem Linked.eq_of_declared_below (l : g.Linked root) (above : g.Below root scope)
    (inside : g.Below scope owner) (slot : top ∈ g.children owner)
    (declared : range ∈ (g.node scope).declared) (below : g.Below top range) : range = top := by
  rcases below.eq_or_owner with rfl | ⟨other, below', slot'⟩
  · rfl
  · have reached := above.trans inside
    obtain rfl := l.owner_unique ((reached.child slot).trans below') above slot'
      (declared_subset_children _ declared)
    exact absurd (below'.trans inside) (l.not_below_of_child reached slot)

/-- What is found by its name on the level of a query is declared by the query. -/
theorem Linked.declared_of_finds (l : g.Linked root) (above : g.Below root scope)
    (isRetrieve : (g.node scope).isRetrieve = true)
    (finds : g.Finds range (g.levelFrom {root} scope)) : range ∈ (g.node scope).declared := by
  obtain ⟨trail, way⟩ := above
  rw [l.level_of_trail way, scopesAmong_cons, enter,
    if_pos (opensScope_of_isRetrieve isRetrieve)] at finds
  exact finds.declared_of_query isRetrieve

namespace Lexical

variable (x : Lexical g root) (l : g.Linked root)

include x l

/-- What hangs in a slot is understood by names in its own scopes and those on the level of the owner. -/
theorem wellNamed_below (above : g.Below root owner) (slot : top ∈ g.children owner)
    {trail : List NodeId} {id : NodeId} (way : g.Trail top trail id) :
    g.WellNamed (g.scopesAmong (id :: trail) ++ g.levelFrom {root} owner) id := by
  obtain ⟨upper, first⟩ := above
  have named := x.named ((first.down slot).append way)
  rw [l.level_of_trail first, scopesAmong, scopesAmong, ← List.filter_append]
  exact named

/-- No template hangs below a slot. -/
theorem plain_below (above : g.Below root owner) (slot : top ∈ g.children owner) {id : NodeId}
    (below : g.Below top id) : (g.node id).templateBodies = [] := by
  refine x.plain ((above.child slot).trans below) ?_
  rintro rfl
  exact l.not_below_of_child above slot (below.trans above)

end Lexical

/-! ## Copies and the ranges around them -/

/-- In a copied range the join predicate reads the copies of live ranges, and the query that the range
reads from what was copied with it. -/
theorem Replica.rebound_cases (isRange : ∀ id ∈ live, (g.node id).isRange = true) {source : NodeId}
    {target : NodeId → NodeId} (pair : (source, copy) ∈ (g.copyRanges live).2) (t : g.Tree source)
    (r : Replica g (g.copyRanges live).1 .empty source copy target)
    (place : SamePlace g (g.copyRanges live).1 source copy old new) {i : Identifier}
    (node : g.node old = .identifier i) :
    (g.rebound live).node new =
        .identifier { i with range := (g.copyOf live).apply (target i.range) } ∨
      (g.rebound live).node new = .identifier { i with range := target i.range } ∧
        ∃ query, (g.node source).nested? = some query ∧ g.Below query old := by
  have linked : ∀ copy ∈ g.liveCopies live, (g.copyRanges live).1.Linked copy :=
    (g.forest_copyRanges live).linked
  have nodup : (g.liveCopies live).Nodup := (g.forest_copyRanges live).nodup
  have ranges : ∀ copy ∈ g.liveCopies live, ((g.copyRanges live).1.node copy).isRange = true :=
    isRange_copyRanges isRange
  have mem : copy ∈ g.liveCopies live := List.mem_map.mpr ⟨_, pair, rfl⟩
  have among : source ∈ live := by
    rw [← g.fst_copyRanges live]
    exact List.mem_map.mpr ⟨_, pair, rfl⟩
  have copied := (place.mirrors r.mirrors).node_eq_identifier node
  by_cases inJoin : ∃ join, (g.copyRanges live).1.join? copy = some join ∧
      (g.copyRanges live).1.Below join new
  · obtain ⟨join, held, below⟩ := inJoin
    left
    rw [rebound, node_rebindJoins_of_below linked ranges nodup mem held below, copied,
      Node.renamed_eq_reading]
    rfl
  · refine .inr ⟨?_, ?_⟩
    · rw [rebound, node_rebindJoins_of_not_below linked ranges fun other mem' join held' below' =>
        ?_, copied]
      obtain rfl := (linked copy mem).eq_of_below (linked other mem') place.reached.2
        ((below_of_child (mem_children_of_join? held')).trans below')
      exact inJoin ⟨join, held', below'⟩
    · obtain ⟨s, shown⟩ := Node.exists_of_isRange (isRange source among)
      rcases place.eq_or_pair with ⟨rfl, rfl⟩ | ⟨child, child', slots, further⟩
      · rw [shown] at node
        cases node
      · have slot := (List.of_mem_zip slots).1
        rw [children, shown] at slot
        refine ⟨child, ?_, further.reached.1⟩
        rcases List.mem_append.mp slot with held | held
        -- The join predicates of the two ranges are in the same place.
        · obtain ⟨s', shown', joins, -⟩ := r.mirrors.range shown
          obtain ⟨join, held', -⟩ := exists_of_forall₂ joins.flip held
          have held' := (join?_eq shown').trans (Option.mem_toList.mp held')
          have slots' := zip_children_of_join? ((join?_eq shown).trans (Option.mem_toList.mp held))
            held'
          obtain rfl := eq_of_mem_zip (t.nodup (.refl g source)) slots slots'
          exact absurd ⟨child', held', further.reached.2⟩ inJoin
        · rw [shown]
          exact Option.mem_toList.mp held

/-- What stands for a range of a scope under a renaming is found in other scopes by the name of the
range. -/
def Offers (g f : Graph) (names : Renaming) (scope : NodeId) (outer' : List NodeId) : Prop :=
  ∀ range ∈ (g.node scope).declared, (g.node range).isRange = true →
    (f.node (names.apply range)).isRange = true ∧
      f.rangeName (names.apply range) = g.rangeName range ∧ f.Finds (names.apply range) outer'

section

variable (x : Lexical g root) (l : g.Linked root) (above : g.Below root scope)
  (isRetrieve : (g.node scope).isRetrieve = true)

include x l above isRetrieve

/-- What is copied from a slot below a query reads, beyond the copy, what the renaming tells for the
ranges of the query. -/
theorem Lexical.renders_copyWith (inside : g.Below scope old) (ne : old ≠ scope)
    (slot : top ∈ g.children old) (e : Extends g k) (n : KeepsNames (k.copyWith top names).1 f)
    (offers : Offers g f names scope outer') :
    Renders g (k.copyWith top names).1 f top (k.copyWith top names).2 (g.levelFrom {root} scope)
      outer' := by
  have reached := (above.trans inside).child slot
  have grounded := l.grounded reached
  have tree : (k.copyWith top names).1.Linked (k.copyWith top names).2 :=
    (k.forest_copyWith top names).linked _ (List.mem_singleton_self _)
  obtain ⟨target, r⟩ : ∃ target,
      Replica g (k.copyWith top names).1 names top (k.copyWith top names).2 target := by
    refine ⟨_, (Tree.replica_copyWith ((e.linked l).tree.below ?_) (fun id below => ?_) names).shrink
      e grounded⟩
    · exact (e.below_iff (l.grounded (.refl g root))).mpr reached
    · have was := (e.below_iff grounded).mp below
      rw [e.node (grounded id was)]
      exact x.plain_below l (above.trans inside) slot was
  have read {old new : NodeId} {i : Identifier}
      (place : SamePlace g (k.copyWith top names).1 top (k.copyWith top names).2 old new)
      (node : g.node old = .identifier i) := (n.node_eq_identifier
        (tree.has_of_below place.reached.2)).mpr ((place.mirrors r.mirrors).node_eq_identifier node)
  refine ⟨l.tree.below reached, ⟨_, r.mirrors⟩, tree.grounded (.refl _ _), n.keeps, n.reads, n.bodies,
    fun place node shown => ?_, fun way place node isRange _ finds => ?_⟩
  · rw [read place node, r.own shown]
  · have declared := l.declared_of_finds above isRetrieve finds
    refine ⟨_, ?_, offers _ declared isRange⟩
    rw [read place node, r.outside fun below => ne ?_]
    have same := l.eq_of_declared_below above inside slot declared below
    exact l.owner_unique (above.trans inside) above slot
      (same ▸ declared_subset_children _ declared)

/-- What is copied from a range of a query reads, beyond the copy, the copies of live ranges; but
nothing beyond the query that the range reads from. -/
theorem Lexical.renders_copyRanges (nodup : live.Nodup)
    (declared : ∀ id ∈ live, id ∈ (g.node scope).declared ∧ (g.node id).isRange = true)
    (n : KeepsNames (g.rebound live) f) (offers : Offers g f (g.copyOf live) scope outer')
    {source : NodeId} (pair : (source, copy) ∈ (g.copyRanges live).2) :
    Renders g (g.copyRanges live).1 f source copy (g.levelFrom {root} scope) outer' := by
  have isRange : ∀ id ∈ live, (g.node id).isRange = true := fun id mem => (declared id mem).2
  have forest := g.forest_copyRanges live
  have mem : copy ∈ g.liveCopies live := List.mem_map.mpr ⟨_, pair, rfl⟩
  have among : source ∈ live := by
    rw [← g.fst_copyRanges live]
    exact List.mem_map.mpr ⟨_, pair, rfl⟩
  have slot : ∀ id ∈ live, id ∈ g.children scope := fun id mem =>
    declared_subset_children _ (declared id mem).1
  have reached := above.child (slot source among)
  have t := l.tree.below reached
  obtain ⟨target, r⟩ := replica_copyRanges l (fun id mem => above.child (slot id mem))
    (fun top mem id below => x.plain_below l above (slot top mem) below) _ pair
  have tree := forest.linked copy mem
  have stood : (g.copyOf live).get? source = some copy :=
    Renaming.get?_ofList ((g.fst_copyRanges live).symm ▸ nodup) pair
  have keeps : Keeps (g.copyRanges live).1 (g.rebound live) :=
    .of_unbound fun unbound => g.same_rebound unbound live
  -- A copy is not copied itself.
  have fixed {id : NodeId} (below : (g.copyRanges live).1.Below copy id) :
      (g.copyOf live).apply id = id := by
    cases found : (g.copyOf live).get? id with
    | none => exact Renaming.apply_of_none found
    | some _ =>
      exact absurd (has_of_isRange (isRange id (copyOf_spec isRange found).1))
        (forest.fresh copy mem below)
  have read {old new : NodeId} (place : SamePlace g (g.copyRanges live).1 source copy old new)
      {i : Identifier} := n.node_eq_identifier (i := i)
        ((g.stamp_rebound live).has (tree.has_of_below place.reached.2))
  refine ⟨t, ⟨target, r.mirrors⟩, tree.grounded (.refl _ _), keeps.trans n.keeps,
    (g.same_rebound Node.formal_readsQuery.toUnbound live).trans n.reads,
    (g.same_rebound Node.formal_templateBodies.toUnbound live).trans n.bodies,
    fun place node shown => (read place).mpr ?_, fun {trail old new i} way place node isRange' misses
      finds => ?_⟩
  · rcases r.rebound_cases isRange pair t place node with is | ⟨is, -⟩
    · rw [is, r.own shown, fixed shown.reached.2]
    · rw [is, r.own shown]
  · rcases r.rebound_cases isRange pair t place node with is | ⟨-, query, nested, below⟩
    · have listed := l.declared_of_finds above isRetrieve finds
      refine ⟨_, (read place).mpr (is.trans ?_), offers _ listed isRange'⟩
      by_cases same : i.range = source
      · rw [same, r.own .top, fixed (.refl _ _), Renaming.apply_of_get? stood]
      · rw [r.outside fun below => same
          (l.eq_of_declared_below above (.refl g scope) (slot source among) listed below),
          Renaming.apply_of_none (Renaming.get?_empty _)]
    · have isQuery := (x.named_level l reached).query query nested
      have on : query ∈ g.scopesAmong (old :: trail) := List.mem_filter.mpr
        ⟨t.mem_trail (below_of_child (nested?_mem_children nested)) below way,
          opensScope_of_isRetrieve isQuery⟩
      have other := (misses query on).1
      rw [isQuery] at other
      cases other

end

/-! ## The subquery over the copies -/

/-- A subquery declares the copies of some ranges; the copied nodes keep their stamps. -/
structure Stocks (g f : Graph) (live : List NodeId) (sub : NodeId) : Prop where
  isSubquery : (f.node sub).isSubquery = true
  declared : ∀ id, id ∈ (f.node sub).declared ↔ id ∈ g.liveCopies live
  stamp : Same Node.stamp (g.copyRanges live).1 f

section

variable {sub : NodeId} (s : Stocks g f live sub) (nodup : live.Nodup)

include s nodup

/-- What the subquery declares stands for a live range and has its name. -/
theorem Stocks.exists_source (isRange : ∀ id ∈ live, (g.node id).isRange = true) {id : NodeId}
    (mem : id ∈ (f.node sub).declared) : ∃ source ∈ live, (g.copyOf live).get? source = some id ∧
      f.rangeName id = g.rangeName source := by
  obtain ⟨⟨source, _⟩, pair, rfl⟩ := List.mem_map.mp ((s.declared id).mp mem)
  obtain ⟨among, -, label⟩ := copyRanges_pairs isRange _ pair
  have has := ((g.forest_copyRanges live).linked _ (List.mem_map.mpr ⟨_, pair, rfl⟩)).has
  refine ⟨source, among, Renaming.get?_ofList ((g.fst_copyRanges live).symm ▸ nodup) pair, ?_⟩
  refine (s.stamp.rangeName has).trans (rangeName_of_stamp ?_)
  rw [Node.stamp, label, Node.stamp]

variable (x : Lexical g root) (l : g.Linked root) (above : g.Below root scope)
  (listed : ∀ id ∈ live, id ∈ (g.node scope).declared ∧ (g.node id).isRange = true)

include x l above listed

theorem Stocks.wellNamed (scopes : List NodeId) :
    f.WellNamed scopes sub ∧ (f.node sub).templateBodies = [] := by
  have isRange : ∀ id ∈ live, (g.node id).isRange = true := fun id mem => (listed id mem).2
  obtain ⟨_, node⟩ := Node.exists_of_isSubquery s.isSubquery
  refine ⟨⟨fun one mem other mem' _ _ same => ?_, fun i is => ?_, fun inner is => ?_⟩, ?_⟩
  · obtain ⟨source, among, stood, name⟩ := s.exists_source nodup isRange mem
    obtain ⟨source', among', stood', name'⟩ := s.exists_source nodup isRange mem'
    obtain rfl := (x.named_level l above).distinct source (listed source among).1 source'
      (listed source' among').1 (isRange source among) (isRange source' among')
      (name.symm.trans (same.trans name'))
    exact Option.some.inj (stood.symm.trans stood')
  · rw [node] at is
    cases is
  · rw [node] at is
    cases is
  · rw [node]
    rfl

/-- A name of a range of the scope leads to the copy in the subquery, or past it to the range. -/
theorem Stocks.offers (isRetrieve : (g.node scope).isRetrieve = true) (keeps : Keeps g f) :
    Offers g f (g.copyOf live) scope (sub :: g.levelFrom {root} scope) := by
  have isRange : ∀ id ∈ live, (g.node id).isRange = true := fun id mem => (listed id mem).2
  intro range declared isRange'
  have has := has_of_isRange isRange'
  cases found : (g.copyOf live).get? range with
  | some copy =>
    have pair := Renaming.mem_of_get?_ofList found
    obtain ⟨-, -, label⟩ := copyRanges_pairs isRange _ pair
    have isCopy : copy ∈ g.liveCopies live := List.mem_map.mpr ⟨_, pair, rfl⟩
    have has := ((g.forest_copyRanges live).linked copy isCopy).has
    have stamp : (f.node copy).stamp = (g.node range).stamp := by
      rw [s.stamp.node has, Node.stamp, label, Node.stamp]
    rw [Renaming.apply_of_get? found]
    refine ⟨?_, rangeName_of_stamp stamp, .here ((s.declared copy).mpr isCopy)⟩
    rwa [← Node.isRange_stamp, stamp, Node.isRange_stamp]
  | none =>
    rw [Renaming.apply_of_none found]
    have name := keeps.stamp.rangeName has
    refine ⟨keeps.stamp.isRange_mono isRange', name, .further ⟨?_, fun copy mem _ same => ?_⟩ ?_⟩
    · obtain ⟨_, node⟩ := Node.exists_of_isSubquery s.isSubquery
      rw [node]
      rfl
    · obtain ⟨source, among, stood, name'⟩ := s.exists_source nodup isRange mem
      obtain rfl := (x.named_level l above).distinct source (listed source among).1 range declared
        (isRange source among) isRange' (name'.symm.trans (same.trans name))
      rw [found] at stood
      cases stood
    · obtain ⟨trail, way⟩ := above
      rw [l.level_of_trail way, scopesAmong_cons, enter,
        if_pos (opensScope_of_isRetrieve isRetrieve)]
      exact .here ((keeps.declared (has_of_isRetrieve isRetrieve) has isRange').mpr declared)

end

/-! ## The parts of the subquery -/

theorem KeepsNames.ownCopied_built (g : Graph) (live : List NodeId) (condition : Option NodeId)
    (usage : RangeUsage) :
    KeepsNames (g.ownCopied live condition).1 (g.built live condition usage).1 :=
  .of_rigid fun rigid => same_built rigid g live condition usage

theorem KeepsNames.rebound_built (g : Graph) (live : List NodeId) (condition : Option NodeId)
    (usage : RangeUsage) : KeepsNames (g.rebound live) (g.built live condition usage).1 := by
  have split : KeepsNames (g.rebound live) (g.splitCopies live).1 :=
    .of_rigid fun rigid => rigid.splitJoins _ _ _
  exact (split.trans (.of_extends (beside_ownCopied g live condition))).trans
    (.ownCopied_built g live condition usage)

section

variable {zone : Set NodeId} {level : NodeId → List NodeId} {condition : Option NodeId}
  {usage : RangeUsage} (x : Lexical g root) (l : g.Linked root) (above : g.Below root scope)
  (isRetrieve : (g.node scope).isRetrieve = true) (inside : g.Below scope old) (ne : old ≠ scope)
  (on : g.levelFrom {root} old = g.levelFrom {root} scope)

include x l above isRetrieve inside ne on

/-- What was copied from below an aggregate of a scope, in the place of which the copy is. -/
theorem Lexical.wellNamed_copyWith (slot : top ∈ g.children old) (e : Extends g k)
    (n : KeepsNames (k.copyWith top names).1 f) (offers : Offers g f names scope outer')
    {trail : List NodeId} (way : (k.copyWith top names).1.Trail (k.copyWith top names).2 trail new) :
    f.WellNamed ((k.copyWith top names).1.scopesAmong (new :: trail) ++ outer') new ∧
      (f.node new).templateBodies = [] := by
  have reached := above.trans inside
  have renders := x.renders_copyWith l above isRetrieve inside ne slot e n offers
  exact ⟨renders.wellNamed (fun way => on ▸ x.wellNamed_below l reached slot way) way,
    renders.plain (fun _ below => x.plain_below l reached slot below) ⟨trail, way⟩⟩

/-- All that is built for a correlated scope is understood by its names. -/
theorem Built.wellNamed (b : Built g live condition usage zone level) (nodup : live.Nodup)
    (listed : ∀ id ∈ live, id ∈ (g.node scope).declared ∧ (g.node id).isRange = true)
    (slot : ∀ filter ∈ condition, filter ∈ g.children old)
    (n : KeepsNames (g.built live condition usage).1 f)
    (offers : Offers g f (g.copyOf live) scope outer') {id : NodeId} (mem : id ∈ zone) :
    f.WellNamed (level id ++ outer') id ∧ (f.node id).templateBodies = [] := by
  by_cases has : (g.copyRanges live).1.Has id
  · obtain ⟨copy, isCopy, trail, way, is⟩ := b.ofRange mem has
    obtain ⟨⟨source, _⟩, pair, rfl⟩ := List.mem_map.mp isCopy
    have among : source ∈ live := by
      rw [← g.fst_copyRanges live]
      exact List.mem_map.mpr ⟨_, pair, rfl⟩
    have slot := declared_subset_children _ (listed source among).1
    have renders := x.renders_copyRanges l above isRetrieve nodup listed
      ((KeepsNames.rebound_built g live condition usage).trans n) offers pair
    rw [is]
    exact ⟨renders.wellNamed (fun way => x.wellNamed_below l above slot way) way,
      renders.plain (fun _ below => x.plain_below l above slot below) ⟨trail, way⟩⟩
  · rcases b.ofCondition mem has with glue | ⟨own, is, trail, way, -, at_⟩
    · refine wellNamed_of_silent (Node.isSilent_of_isGlue ?_) _
      rwa [← Node.isGlue_stamp, n.keeps.stamp.node (b.inOrder.has mem), Node.isGlue_stamp]
    · cases condition with
      | none => cases is
      | some filter =>
        obtain rfl := Option.some.inj is
        rw [at_]
        exact x.wellNamed_copyWith l above isRetrieve inside ne on (slot filter rfl)
          (Sealed.splitCopies g live).1.toExtends
          ((KeepsNames.ownCopied_built g live (some filter) usage).trans n) offers way

end

end Graph

end RangeQuery
