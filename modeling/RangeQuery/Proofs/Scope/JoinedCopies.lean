import RangeQuery.Proofs.Predicate.KeptParts
import RangeQuery.Proofs.Scope.NestedAnchors

/-!
Which copies stay joined. Each copy that a subquery reads has the name and the demand of the old range.
It has a join predicate exactly if the old one has one of which a part stays inside.
-/

namespace RangeQuery

namespace Node

theorem required_filled {node : Node} {r : Range} (is : node = .range r) (target : NodeId → NodeId)
    (kids bodies : List NodeId) :
    ∃ r', ((node.reading target).withChildren kids).withTemplateBodies bodies = .range r' ∧
      r'.name = r.name ∧ r'.required = r.required := by
  subst is
  exact ⟨r.withChildren kids, rfl, rfl, rfl⟩

end Node

namespace Graph

variable {g h : Graph} {root copy range : NodeId} {ranges predicates live : List NodeId}

theorem join?_congr {id other : NodeId} (same : h.node other = g.node id) :
    h.join? other = g.join? id := by
  rw [join?, range?, same, join?, range?]

/-! ## Echoes of copied ranges -/

/-- A copy mirrors the node, with the names of all that is read. -/
theorem exists_echo_copyWith (a : g.Acyclic root) :
    ∃ target, Echoes g (g.copyWith root .empty).1 target root (g.copyWith root .empty).2 := by
  classical
  obtain ⟨draft, names, d, same⟩ := g.copyWith_eq root .empty
  rw [same]
  generalize (g.copyWith root .empty).2 = copy at d ⊢
  have mirrors : Mirrors g draft id root copy :=
    .of_copies (d.copies a.grounded) fun _ _ way => a.length_trail_lt way
  have stamps := Node.formal_stamp.toUnbound.rebind draft copy names
  have kept : Same Node.stamp g (draft.rebind copy names).1 := d.copying.beside.same.trans stamps
  refine ⟨names.apply ∘ id, mirrors.reading names.apply fun id below => ?_, fun range has => ?_⟩
  · rw [d.linked.node_rebind (Below.refl draft copy), if_pos below, Node.renamed_eq_reading]
  · cases found : names.get? range with
    | none =>
      rw [Function.comp, id, Renaming.apply_of_none found]
      exact ⟨kept.has has, kept.rangeName has⟩
    | some new =>
      rw [Function.comp, id, Renaming.apply_of_get? found]
      obtain ⟨-, has', label⟩ := (d.copying.renames.new found).resolve_left
        (by simp [Renaming.get?_empty])
      refine ⟨stamps.has has', (stamps.rangeName has').trans (rangeName_of_stamp ?_)⟩
      rw [Node.stamp, label has, Node.stamp]

theorem exists_echo_copyRanges (ids : List NodeId) (acyclic : ∀ id ∈ ids, g.Acyclic id) :
    List.Forall₂ (fun id copy => ∃ target, Echoes g (g.copyRanges ids).1 target id copy) ids
      ((g.copyRanges ids).2.map (·.2)) := by
  induction ids generalizing g with
  | nil => exact .nil
  | cons id rest ih =>
    have forest := g.forest_copyWith id .empty
    have others := (g.copyWith id .empty).1.forest_copyRanges rest
    have tree := forest.linked _ (List.mem_singleton_self _)
    have grounded : ∀ other ∈ id :: rest, g.Grounded other := fun other mem =>
      (acyclic other mem).grounded
    refine .cons ?_ ?_
    · obtain ⟨target, echo⟩ := exists_echo_copyWith (acyclic id (by simp))
      exact ⟨target, echo.grow others.beside (tree.grounded (Below.refl _ _))⟩
    · refine forall₂_imp_of_mem (ih fun other mem => ?_) fun other mem copy _ echo => ?_
      · exact (acyclic other (by simp [mem])).of_same forest.beside.same
      · obtain ⟨target, echo⟩ := echo
        exact ⟨target, echo.shrink forest.beside (grounded other (by simp [mem]))⟩

/-- A copy has the name and the demand of the range, and its join predicate echoes that of the
range. -/
structure Rejoins (g h : Graph) (range copy : NodeId) : Prop where
  name : h.rangeName copy = g.rangeName range
  required : h.isRequired copy = g.isRequired range
  join : ∃ target, List.Forall₂ (Echoes g h target) (g.join? range).toList (h.join? copy).toList

theorem Echoes.rejoins {target : NodeId → NodeId} (e : Echoes g h target range copy)
    (isRange : (g.node range).isRange = true) : Rejoins g h range copy := by
  obtain ⟨r, node⟩ := Node.exists_of_isRange isRange
  obtain ⟨r', node', joins, -⟩ := e.mirrors.range node
  have same : r'.name = r.name ∧ r'.required = r.required := by
    cases e.mirrors with
    | intro kids bodies shown _ _ =>
      obtain ⟨r'', node'', name, required⟩ := Node.required_filled node target kids bodies
      rw [shown, node''] at node'
      obtain rfl := Node.range.inj node'
      exact ⟨name, required⟩
  refine ⟨?_, ?_, target, ?_⟩
  · simp only [rangeName, node, node', same]
  · simp only [isRequired, range?, node, node', same, Option.any_some]
  · rw [join?_eq node, join?_eq node']
    exact joins.imp fun _ _ mirror => ⟨mirror, e.names⟩

section

variable (isRange : ∀ id ∈ live, (g.node id).isRange = true) (acyclic : ∀ id ∈ live, g.Acyclic id)

include isRange

/-- What stands for a range has its name. -/
theorem rangeName_apply_copyOf (range : NodeId) (has : (g.copyRanges live).1.Has range) :
    (g.rebound live).Has ((g.copyOf live).apply range) ∧
      (g.rebound live).rangeName ((g.copyOf live).apply range) =
        (g.copyRanges live).1.rangeName range := by
  have stamps := g.stamp_rebound live
  cases found : (g.copyOf live).get? range with
  | none =>
    rw [Renaming.apply_of_none found]
    exact ⟨stamps.has has, stamps.rangeName has⟩
  | some copy =>
    rw [Renaming.apply_of_get? found]
    have pair := Renaming.mem_of_get?_ofList found
    obtain ⟨among, -, label⟩ := copyRanges_pairs isRange _ pair
    have copied := ((g.forest_copyRanges live).linked copy (List.mem_map.mpr ⟨_, pair, rfl⟩)).has
    refine ⟨stamps.has copied, (stamps.rangeName copied).trans ?_⟩
    have kept : Same Node.stamp g (g.copyRanges live).1 := (g.forest_copyRanges live).beside.same
    rw [kept.rangeName (has_of_isRange (isRange range among))]
    refine rangeName_of_stamp ?_
    rw [Node.stamp, label, Node.stamp]

include acyclic

theorem rejoins_rebound :
    List.Forall₂ (Rejoins g (g.rebound live)) live (g.liveCopies live) := by
  have forest := g.forest_copyRanges live
  have echoes := exists_echo_copyRanges live acyclic
  refine forall₂_imp_of_mem echoes fun range mem copy mem' ⟨target, echo⟩ => ?_
  obtain ⟨name, required, target, joins⟩ := echo.rejoins (isRange range mem)
  have isRange' := isRange_copyRanges isRange copy mem'
  have kept : (g.rebound live).node copy = (g.copyRanges live).1.node copy :=
    node_rebindJoins_of_isRange _ _ isRange'
  refine ⟨?_, ?_, (g.copyOf live).apply ∘ target, ?_⟩
  · rw [← name, rangeName, rangeName, kept]
  · rw [← required, isRequired, isRequired, range?, range?, kept]
  · rw [join?_congr kept]
    refine forall₂_imp_of_mem joins fun _ _ join held echo =>
      echo.reading (fun id below => ?_) (rangeName_apply_copyOf isRange)
    rw [← Node.renamed_eq_reading]
    exact node_rebindJoins_of_below forest.linked (isRange_copyRanges isRange) forest.nodup mem'
      (Option.mem_toList.mp held) below

end

/-! ## Joins that are split -/

/-- The graph in which a range has the part of its join predicate that stays inside. -/
def splitJoin (g : Graph) (names : List String) (range : NodeId) : Graph :=
  (g.split? names (g.join? range)).1.setJoin range (g.split? names (g.join? range)).2.inner

/-- Splitting the join predicate of a range leaves the others, with what their join predicates read and
keep. -/
theorem Gathered.splitJoin_other (f : Gathered g ranges predicates) (nodup : ranges.Nodup)
    (names : List String) {first other : NodeId} (mem : first ∈ ranges) (mem' : other ∈ ranges)
    (ne : other ≠ first) :
    (g.splitJoin names first).node other = g.node other ∧
      ∀ join, g.join? other = some join → (∀ range, g.Reads join range → g.Has range) →
        (∀ range, (g.splitJoin names first).Reads join range ↔ g.Reads join range) ∧
          ((g.splitJoin names first).KeepsPart names join ↔ g.KeepsPart names join) := by
  have writes : Writes g (g.splitJoin names first) ranges := (f.splitJoin nodup names mem).writes
  have stamp : Same Node.stamp g (g.splitJoin names first) :=
    (Same.split? Node.stamp g names (g.join? first)).trans
      (Node.formal_stamp.toRigid.setJoin _ first _)
  have has := has_of_isRange (f.isRange other mem')
  refine ⟨(node_setJoin_of_ne _ ne _).trans ((Same.split? id g names (g.join? first)).node has),
    fun join held reads => ?_⟩
  have a := f.apart join (mem_predicatesOf.mpr (.inl ⟨other, mem', held⟩))
  refine ⟨fun range => reads_congr (a.nodes writes), ?_⟩
  exact a.acyclic.keepsPart_congr writes.size (a.nodes writes) fun range read =>
    stamp.rangeName (reads range read)

/-- The range itself keeps a join predicate if there is one that keeps a part. -/
theorem Gathered.splitJoin_self (f : Gathered g ranges predicates) (names : List String)
    {first : NodeId} (mem : first ∈ ranges) {r : Range} (node : g.node first = .range r) :
    (g.splitJoin names first).node first =
        .range { r with join := (g.split? names (g.join? first)).2.inner } ∧
      ((g.split? names (g.join? first)).2.inner.isSome = true ↔
        ∃ predicate, r.join = some predicate ∧ g.KeepsPart names predicate) := by
  have has := has_of_node node (by simp)
  have split := Same.split? id g names (g.join? first)
  refine ⟨node_setJoin_self (split.has has) ((split.node has).trans node) _, ?_⟩
  rw [join?_eq node]
  cases held : r.join with
  | none => simp [split?]
  | some predicate =>
    have apart := f.apart predicate
      (mem_predicatesOf.mpr (.inl ⟨first, mem, (join?_eq node).trans held⟩))
    simpa [split?] using apart.acyclic.isSome_inner_split names

/-- Splitting the join predicates of some ranges leaves each of them all but that, and of its join
predicate the part that stays inside. -/
theorem Gathered.node_splitJoins (f : Gathered g ranges predicates) (nodup : ranges.Nodup)
    (names : List String) {copies : List NodeId} (among : copies ⊆ ranges) (once : copies.Nodup)
    (has : ∀ copy ∈ copies, ∀ join, g.join? copy = some join →
      ∀ range, g.Reads join range → g.Has range) (mem : copy ∈ copies) {r : Range}
    (node : g.node copy = .range r) :
    ∃ join, (Graph.splitJoins names g copies).1.node copy = .range { r with join } ∧
      (join.isSome = true ↔ ∃ predicate, r.join = some predicate ∧ g.KeepsPart names predicate) := by
  induction copies generalizing g predicates with
  | nil => simp at mem
  | cons first rest ih =>
    rw [List.nodup_cons] at once
    have isFirst : first ∈ ranges := among (by simp)
    have step := f.splitJoin nodup names isFirst
    have others : ∀ other ∈ rest, _ := fun other mem => f.splitJoin_other nodup names isFirst
      (among (by simp [mem])) fun (is : other = first) => once.1 (is ▸ mem)
    rcases List.mem_cons.mp mem with rfl | later
    · obtain ⟨written, iff⟩ := f.splitJoin_self names isFirst node
      exact ⟨_, (node_splitJoins_of_not_mem names (has_of_node written (by simp)) once.1).trans written,
        iff⟩
    · have has' : ∀ other ∈ rest, ∀ join, (g.splitJoin names first).join? other = some join →
          ∀ range, (g.splitJoin names first).Reads join range →
            (g.splitJoin names first).Has range := by
        intro other mem join held range read
        obtain ⟨same, keeps⟩ := others other mem
        rw [join?_congr same] at held
        have had := has other (by simp [mem]) join held
        exact Nat.lt_of_lt_of_le (had range (((keeps join held had).1 range).mp read)) step.writes.size
      obtain ⟨same, keeps⟩ := others copy later
      obtain ⟨join, final, iff⟩ := ih step.gathered (fun other mem => among (by simp [mem])) once.2
        has' later (same.trans node)
      refine ⟨join, final, iff.trans (exists_congr fun predicate => and_congr_right fun held => ?_)⟩
      have held' := (join?_eq node).trans held
      exact (keeps predicate held' (has copy mem predicate held')).2

/-! ## The copies of a subquery -/

section

variable (r : Rejoins g h range copy)
  (has : ∀ join, g.join? range = some join → ∀ read, g.Reads join read → g.Has read)

include r has

theorem Rejoins.has_of_reads {join : NodeId} (held : h.join? copy = some join) {read : NodeId}
    (reads : h.Reads join read) : h.Has read := by
  obtain ⟨target, joins⟩ := r.join
  obtain ⟨origin, held', echo⟩ := exists_of_forall₂ joins (Option.mem_toList.mpr held)
  exact echo.has_of_reads (has origin (Option.mem_toList.mp held')) reads

theorem Rejoins.keepsPart_iff (a : g.Acyclic range) (a' : h.Acyclic copy) (names : List String) :
    (∃ join, h.join? copy = some join ∧ h.KeepsPart names join) ↔
      ∃ join, g.join? range = some join ∧ g.KeepsPart names join := by
  obtain ⟨target, joins⟩ := r.join
  cases held : g.join? range with
  | none =>
    rw [held, Option.toList_none, List.forall₂_nil_left_iff, Option.toList_eq_nil_iff] at joins
    simp [joins]
  | some join =>
    cases held' : h.join? copy with
    | none => simp [held, held'] at joins
    | some join' =>
      rw [held, held', Option.toList_some, Option.toList_some, List.forall₂_cons] at joins
      have iff : h.KeepsPart names join' ↔ g.KeepsPart names join :=
        joins.1.keepsPart_iff (has join held) (a.child (mem_children_of_join? held))
          (a'.child (mem_children_of_join? held'))
      simpa using iff

end

/-- Before an anchor is looked for, each copy has the name and the demand of its range, and a join
predicate if that of the range keeps a part. -/
theorem copies_filterJoined (isRange : ∀ id ∈ live, (g.node id).isRange = true)
    (acyclic : ∀ id ∈ live, g.Acyclic id)
    (has : ∀ id ∈ live, ∀ join, g.join? id = some join → ∀ read, g.Reads join read → g.Has read)
    (condition : Option NodeId) :
    List.Forall₂ (fun range copy =>
      ((g.filterJoined live condition).1.node copy).isRange = true ∧
      (g.filterJoined live condition).1.rangeName copy = g.rangeName range ∧
      (g.filterJoined live condition).1.isRequired copy = g.isRequired range ∧
      (((g.filterJoined live condition).1.join? copy).isSome = true ↔
        ∃ join, g.join? range = some join ∧ g.KeepsPart (live.map g.rangeName) join))
      live (g.liveCopies live) := by
  have rejoins := rejoins_rebound isRange acyclic
  have linked := linked_rebound isRange
  refine forall₂_imp_of_mem rejoins fun range mem copy mem' rejoin => ?_
  obtain ⟨r, node⟩ := Node.exists_of_isRange (linked copy mem').2
  obtain ⟨join, split, iff⟩ := (gathered_rebound isRange).node_splitJoins
    (g.forest_copyRanges live).nodup (live.map g.rangeName) (List.Subset.refl _)
    (g.forest_copyRanges live).nodup (fun other among join held read reads => by
      obtain ⟨origin, mem, rejoin⟩ := exists_of_forall₂ rejoins among
      exact rejoin.has_of_reads (has origin mem) held reads) mem' node
  have final : (g.filterJoined live condition).1.node copy = .range { r with join } := by
    have own := (g.beside_ownCopied live condition).node (has_of_node split (by simp))
    have joined := Same.conjoin id (g.ownCopied live condition).1
      ((g.ownCopied live condition).2.toList ++ (g.splitCopies live).2)
    exact (joined.node (has_of_node (own.trans split) (by simp))).trans (own.trans split)
  refine ⟨by rw [final]; rfl, ?_, ?_, ?_⟩
  · rw [← rejoin.name]
    simp only [rangeName, final, node]
  · rw [← rejoin.required]
    simp only [isRequired, range?, final, node, Option.any_some]
  · rw [join?_eq final, iff, ← rejoin.keepsPart_iff (has range mem) (acyclic range mem)
      ((linked copy mem').1.acyclic (Below.refl _ copy)), join?_eq node]

end Graph

end RangeQuery
