import RangeQuery.Proofs.Predicate.Regrouping
import RangeQuery.Proofs.Scope.CopiedReads

/-!
The predicates of copied ranges. A copied range mirrors the old one. Then the join predicates of the
copies are pointed at the copies, which leaves all else in them as it was copied.
-/

namespace RangeQuery

namespace Renaming

theorem get?_foldl_insert_of_not_mem {pairs : List (NodeId × NodeId)} {old : NodeId}
    (out : old ∉ pairs.map (·.1)) (names : Renaming) :
    (pairs.foldl (fun names pair => names.insert pair.1 pair.2) names).get? old =
      names.get? old := by
  induction pairs generalizing names with
  | nil => rfl
  | cons pair rest ih =>
    simp only [List.map_cons, List.mem_cons, not_or] at out
    rw [List.foldl_cons, ih out.2, get?_insert_other _ (Ne.symm out.1)]

/-- A renaming from a list of pairs tells each of them, if the old nodes differ. -/
theorem get?_ofList {pairs : List (NodeId × NodeId)} (nodup : (pairs.map (·.1)).Nodup)
    {pair : NodeId × NodeId} (mem : pair ∈ pairs) : (ofList pairs).get? pair.1 = some pair.2 := by
  unfold ofList
  generalize empty = names
  induction pairs generalizing names with
  | nil => simp at mem
  | cons first rest ih =>
    rw [List.map_cons, List.nodup_cons] at nodup
    rcases List.mem_cons.mp mem with rfl | mem
    · rw [List.foldl_cons, get?_foldl_insert_of_not_mem nodup.1, get?_insert_same]
    · exact ih nodup.2 mem _

end Renaming

namespace Graph

variable {g h k : Graph} {names : Renaming} {target : NodeId → NodeId} {copies : List NodeId}

/-! ## Mirrored predicates -/

/-- Mirrored predicates list mirrored conjuncts. -/
theorem Mirrors.conjuncts {old new : NodeId} (m : Mirrors g h target old new) (a : g.Acyclic old)
    (a' : h.Acyclic new) :
    List.Forall₂ (Mirrors g h target) (g.conjuncts old) (h.conjuncts new) := by
  refine a.induction (motive := fun old => ∀ new, h.Acyclic new → Mirrors g h target old new →
    List.Forall₂ (Mirrors g h target) (g.conjuncts old) (h.conjuncts new)) ?_ new a' m
  intro old below ih new a' m
  cases isAnd : (g.node old).isAnd with
  | false =>
    rw [conjuncts_of_not_and isAnd, conjuncts_of_not_and (m.isAnd.trans isAnd)]
    exact .cons m .nil
  | true =>
    obtain ⟨left, right, node⟩ := Node.exists_of_isAnd isAnd
    obtain ⟨left', right', node'⟩ := Node.exists_of_isAnd (m.isAnd.trans isAnd)
    have slots : g.children old = [left, right] := by rw [children, node]; rfl
    have slots' : h.children new = [left', right'] := by rw [children, node']; rfl
    have pairs := m.each
    rw [slots, slots', List.forall₂_cons, List.forall₂_cons] at pairs
    obtain ⟨first, second, -⟩ := pairs
    rw [(a.below below).conjuncts_and node, a'.conjuncts_and node']
    refine List.rel_append (ih left (by simp [slots]) left' ?_ first)
      (ih right (by simp [slots]) right' ?_ second)
    · exact a'.child (by simp [slots'])
    · exact a'.child (by simp [slots'])

theorem mirrors_conjunctsOf {old new : Option NodeId}
    (m : List.Forall₂ (Mirrors g h target) old.toList new.toList)
    (acyclic : ∀ predicate ∈ old, g.Acyclic predicate)
    (acyclic' : ∀ predicate ∈ new, h.Acyclic predicate) :
    List.Forall₂ (Mirrors g h target) (g.conjunctsOf old) (h.conjunctsOf new) := by
  cases old with
  | none =>
    cases new with
    | none => exact .nil
    | some new => cases m
  | some old =>
    cases new with
    | none => cases m
    | some new =>
      rw [Option.toList_some, Option.toList_some, List.forall₂_cons] at m
      rw [conjunctsOf_some, conjunctsOf_some]
      exact m.1.conjuncts (acyclic old rfl) (acyclic' new rfl)

/-! ## Copied ranges -/

theorem fst_copyRanges (g : Graph) (ids : List NodeId) : (g.copyRanges ids).2.map (·.1) = ids := by
  induction ids generalizing g with
  | nil => rfl
  | cons id rest ih => exact congrArg (id :: ·) (ih _)

/-- The copy of each range is an image of it. -/
theorem images_copyRanges (ids : List NodeId) (acyclic : ∀ id ∈ ids, g.Acyclic id)
    (whole : ∀ id ∈ ids, g.Whole id) :
    List.Forall₂ (fun id copy => ∃ target, Image g (g.copyRanges ids).1 .empty id copy target) ids
      ((g.copyRanges ids).2.map (·.2)) := by
  induction ids generalizing g with
  | nil => exact .nil
  | cons id rest ih =>
    have forest := g.forest_copyWith id .empty
    have others := (g.copyWith id .empty).1.forest_copyRanges rest
    have tree := forest.linked _ (List.mem_singleton_self _)
    refine .cons ?_ ?_
    · obtain ⟨target, image⟩ := exists_image (acyclic id (by simp)) (whole id (by simp)) .empty
        (by simp [Renaming.get?_empty])
      exact ⟨target, image.grow others.beside (tree.grounded (Below.refl _ _))⟩
    · refine forall₂_imp_of_mem (ih (fun other mem => ?_) fun other mem => ?_)
        fun other mem copy _ ⟨target, image⟩ => ⟨target, image.shrink forest.beside ?_⟩
      · exact (acyclic other (by simp [mem])).of_same forest.beside.same
      · exact forest.beside.whole (whole other (by simp [mem]))
      · exact whole other (by simp [mem])

/-- What holds of each range that is copied and its copy, pair by pair. -/
theorem forall₂_copyRanges {P : NodeId → NodeId → Prop} {ids : List NodeId}
    (each : ∀ pair ∈ (g.copyRanges ids).2, P pair.1 pair.2) :
    List.Forall₂ P ids ((g.copyRanges ids).2.map (·.2)) := by
  have pairs : List.Forall₂ P ((g.copyRanges ids).2.map (·.1)) ((g.copyRanges ids).2.map (·.2)) := by
    rw [List.forall₂_map_left_iff, List.forall₂_map_right_iff, List.forall₂_same]
    exact each
  rwa [fst_copyRanges] at pairs

/-- Each live range is stood for by its copy. -/
theorem get?_copyOf {live : List NodeId} (nodup : live.Nodup) :
    List.Forall₂ (fun range copy => (g.copyOf live).get? range = some copy) live
      (g.liveCopies live) :=
  forall₂_copyRanges fun _ mem => Renaming.get?_ofList ((g.fst_copyRanges live).symm ▸ nodup) mem

/-! ## Rebound join predicates -/

/-- One join predicate is pointed elsewhere before the others. -/
theorem exists_rebindJoin {copy : NodeId} (l : g.Linked copy) (names : Renaming)
    (rest : List NodeId) :
    ∃ k, g.rebindJoins names (copy :: rest) = k.rebindJoins names rest ∧ Relabels g k ∧
      (∀ id, (g.node id).isRange = true → k.node id = g.node id) ∧
      (∀ join id, g.join? copy = some join → g.Below join id →
        k.node id = (g.node id).renamed names) ∧
      ∀ id, (∀ join, g.join? copy = some join → ¬ g.Below join id) → k.node id = g.node id := by
  classical
  cases held : g.join? copy with
  | none => exact ⟨g, by simp [rebindJoins, held], .refl g, fun _ _ => rfl, by simp, fun _ _ => rfl⟩
  | some join =>
    have above := below_of_child (mem_children_of_join? held)
    refine ⟨(g.rebind join names).1, by simp [rebindJoins, held], .rebind g join names,
      fun id isRange => node_rebind_of_isRange g join names isRange, ?_, fun id out => ?_⟩
    · rintro _ id ⟨⟩ below
      rw [l.node_rebind above, if_pos below]
    · rw [l.node_rebind above, if_neg (out join rfl)]

section

variable (linked : ∀ copy ∈ copies, g.Linked copy)
  (isRange : ∀ copy ∈ copies, (g.node copy).isRange = true)

include linked isRange

theorem node_rebindJoins_of_not_below {id : NodeId}
    (out : ∀ copy ∈ copies, ∀ join, g.join? copy = some join → ¬ g.Below join id) :
    (g.rebindJoins names copies).node id = g.node id := by
  induction copies generalizing g with
  | nil => rfl
  | cons copy rest ih =>
    obtain ⟨k, same, r, ranges, -, others⟩ := exists_rebindJoin (linked copy (by simp)) names rest
    have kept : ∀ other ∈ rest, k.node other = g.node other := fun other mem =>
      ranges other (isRange other (by simp [mem]))
    rw [same, ih (fun other mem => r.linked (linked other (by simp [mem])))
      (fun other mem => kept other mem ▸ isRange other (by simp [mem])) fun other mem join held => ?_,
      others id (out copy (by simp))]
    rw [r.below]
    simp only [join?, range?, kept other mem] at held
    exact out other (by simp [mem]) join held

/-- What a join predicate reads is renamed, once. -/
theorem node_rebindJoins_of_below (nodup : copies.Nodup) {copy join id : NodeId}
    (mem : copy ∈ copies) (held : g.join? copy = some join) (below : g.Below join id) :
    (g.rebindJoins names copies).node id = (g.node id).renamed names := by
  induction copies generalizing g with
  | nil => simp at mem
  | cons first rest ih =>
    rw [List.nodup_cons] at nodup
    obtain ⟨k, same, r, ranges, renamed, others⟩ :=
      exists_rebindJoin (linked first (by simp)) names rest
    have kept : ∀ other ∈ rest, k.node other = g.node other := fun other later =>
      ranges other (isRange other (by simp [later]))
    have joins : ∀ other ∈ rest, k.join? other = g.join? other := fun other later => by
      simp only [join?, range?, kept other later]
    have linked' : ∀ other ∈ rest, k.Linked other := fun other later =>
      r.linked (linked other (by simp [later]))
    have isRange' : ∀ other ∈ rest, (k.node other).isRange = true := fun other later =>
      kept other later ▸ isRange other (by simp [later])
    -- Two join predicates have no node in common.
    have apart : ∀ other ∈ rest, ∀ join join', g.join? first = some join →
        g.join? other = some join' → g.Below join id → ¬ g.Below join' id := by
      intro other later join join' held held' below below'
      have one := (below_of_child (mem_children_of_join? held)).trans below
      have two := (below_of_child (mem_children_of_join? held')).trans below'
      obtain rfl := (linked first (by simp)).eq_of_below (linked other (by simp [later])) one two
      exact nodup.1 later
    rw [same]
    rcases List.mem_cons.mp mem with rfl | later
    · rw [node_rebindJoins_of_not_below linked' isRange', renamed join id held below]
      intro other later join' held' below'
      rw [joins other later] at held'
      exact apart other later join join' held held' below (r.below.mp below')
    · rw [ih linked' isRange' nodup.2 later ((joins copy later).trans held) (r.below.mpr below),
        others id fun join' held' below' => apart copy later join' join held' held below' below]

omit isRange in
/-- Nothing reached from below some linked ranges is one of these. -/
theorem apart_of_child {copy child : NodeId} (mem : copy ∈ copies)
    (slot : child ∈ g.children copy) : Apart g copies child := by
  have a := (linked copy mem).acyclic (Below.refl g copy)
  refine ⟨a.child slot, fun other mem' below => ?_⟩
  obtain rfl := (linked copy mem).eq_of_below (linked other mem') ((below_of_child slot).trans below)
    (Below.refl g other)
  exact a.no_return (Below.refl g copy) slot below

theorem gathered_of_linked : Gathered g copies [] := by
  refine ⟨isRange, fun predicate mem => ?_⟩
  obtain ⟨copy, mem, held⟩ := (mem_predicatesOf.mp mem).resolve_right (by simp)
  exact apart_of_child linked mem (mem_children_of_join? held)

omit isRange in
/-- No conjunct of the join predicates of some linked ranges occurs twice. -/
theorem nodup_conjuncts_of_linked (nodup : copies.Nodup) :
    ((g.predicatesOf copies []).flatMap g.conjuncts).Nodup := by
  have own : ∀ copy ∈ copies, ∀ join, g.join? copy = some join → ∀ id ∈ g.conjuncts join,
      g.Below copy id := by
    intro copy mem join held id listed
    have above := below_of_child (mem_children_of_join? held)
    exact above.trans (((linked copy mem).acyclic above).below_of_mem_conjuncts listed)
  have lists : (g.predicatesOf copies []).flatMap g.conjuncts =
      copies.flatMap fun copy => g.conjunctsOf (g.join? copy) := by
    rw [predicatesOf, List.append_nil, List.flatMap_assoc]
    rfl
  rw [lists, List.nodup_flatMap]
  refine ⟨fun copy mem => ?_, nodup.imp_of_mem fun {one other} mem mem' ne id listed listed' => ?_⟩
  · cases held : g.join? copy with
    | none => simp
    | some join =>
      rw [conjunctsOf_some]
      exact nodup_conjuncts (linked copy mem) (below_of_child (mem_children_of_join? held))
  · obtain ⟨join, held, listed⟩ := List.mem_flatMap.mp listed
    obtain ⟨join', held', listed'⟩ := List.mem_flatMap.mp listed'
    exact ne ((linked one mem).eq_of_below (linked other mem')
      (own one mem join (Option.mem_toList.mp held) id listed)
      (own other mem' join' (Option.mem_toList.mp held') id listed'))

/-- Pointing the join predicates of copies elsewhere leaves the copies mirrors: the join predicates
read what they are pointed at, the nested queries what was copied. -/
theorem Mirrors.rebindJoins (names : Renaming) (nodup : copies.Nodup) {old copy : NodeId}
    (mem : copy ∈ copies) (m : Mirrors h g target old copy) {r : Range}
    (node : h.node old = .range r) :
    List.Forall₂ (Mirrors h (g.rebindJoins names copies) (names.apply ∘ target)) r.join.toList
        ((g.rebindJoins names copies).join? copy).toList ∧
      List.Forall₂ (Mirrors h (g.rebindJoins names copies) target) r.nested.toList
        ((g.rebindJoins names copies).node copy).nested?.toList := by
  obtain ⟨r', node', joins, queries⟩ := m.range node
  have l := linked copy mem
  have kept := node_rebindJoins_of_isRange names copies (isRange copy mem)
  rw [join?_eq (kept.trans node'), kept, node']
  refine ⟨forall₂_imp_of_mem joins fun old _ new held m => m.reading _ fun id below => ?_,
    forall₂_imp_of_mem queries fun old _ new held m => m.grow fun id below => ?_⟩
  · have held' : g.join? copy = some new := (join?_eq node').trans (Option.mem_toList.mp held)
    rw [node_rebindJoins_of_below linked isRange nodup mem held' below, Node.renamed_eq_reading]
  · refine node_rebindJoins_of_not_below linked isRange fun other mem' join held' below' => ?_
    have slot : new ∈ g.children copy := by
      rw [children, node']
      exact List.mem_append_right _ held
    have slot' := mem_children_of_join? held'
    -- The nested query and the join predicate of a range have no node in common.
    obtain rfl := l.eq_of_below (linked other mem') ((below_of_child slot).trans below)
      ((below_of_child slot').trans below')
    obtain rfl := l.child_unique (Below.refl g copy) slot slot' below below'
    have distinct := l.nodup (Below.refl g copy)
    have joined : r'.join = some new := (join?_eq node').symm.trans held'
    have nested : r'.nested = some new := Option.mem_toList.mp held
    simp [children, node', Node.children, joined, nested] at distinct

end

/-! ## The predicates of a whole scope -/

section

variable {live : List NodeId} {condition : Option NodeId} {usage : RangeUsage}

/-- The graph in which the join predicates of the copies read the copies. -/
def rebound (g : Graph) (live : List NodeId) : Graph :=
  (g.copyRanges live).1.rebindJoins (g.copyOf live) (g.liveCopies live)

variable (g) in
theorem same_rebound {α : Type} {view : Node → α} (unbound : Unbound view) (live : List NodeId) :
    Same view (g.copyRanges live).1 (g.rebound live) :=
  rebindJoins_induction (g.copyOf live) (g.liveCopies live)
    (motive := Same view (g.copyRanges live).1)
    (fun k join same => same.trans (unbound.rebind k join _)) (.refl view _)

variable (g) in
theorem stamp_rebound (live : List NodeId) :
    Same Node.stamp (g.copyRanges live).1 (g.rebound live) :=
  g.same_rebound Node.formal_stamp.toUnbound live

variable (g) in
/-- What is within a copied range stays so when join predicates are pointed elsewhere. -/
theorem within_rebound {live : List NodeId} {copy id : NodeId}
    (within : (g.copyRanges live).1.Within copy id) : (g.rebound live).Within copy id := by
  have bodies := g.same_rebound Node.formal_templateBodies.toUnbound live
  refine within.along fun owner has => ?_
  rw [held, held, bodies.node has]
  exact congrArg (· ++ _) ((Relabels.rebindJoins _ _ _).children owner)

theorem stamp_built (g : Graph) (live : List NodeId) (condition : Option NodeId)
    (usage : RangeUsage) :
    Same Node.stamp (g.copyRanges live).1 (g.built live condition usage).1 :=
  ((same_splitCopies Node.formal_stamp.toUnbound g live).trans
    (g.beside_ownCopied live condition).same).trans
    (same_built Node.formal_stamp.toRigid g live condition usage)

section

variable (isRange : ∀ id ∈ live, (g.node id).isRange = true)

include isRange

/-- The copies with their join predicates pointed at each other, each a tree of its own. -/
theorem linked_rebound : ∀ copy ∈ g.liveCopies live, (g.rebound live).Linked copy ∧
    ((g.rebound live).node copy).isRange = true := by
  intro copy mem
  have range := isRange_copyRanges isRange copy mem
  refine ⟨(Relabels.rebindJoins _ _ _).linked ((g.forest_copyRanges live).linked copy mem), ?_⟩
  exact (congrArg Node.isRange (node_rebindJoins_of_isRange _ _ range)).trans range

theorem gathered_rebound : Gathered (g.rebound live) (g.liveCopies live) [] :=
  gathered_of_linked (fun copy mem => (linked_rebound isRange copy mem).1)
    fun copy mem => (linked_rebound isRange copy mem).2

theorem regroups_splitCopies : Regroups (g.liveCopies live) (g.rebound live) []
    (g.splitCopies live).1 (g.splitCopies live).2 := by
  have split := (gathered_rebound isRange).splitJoins (g.forest_copyRanges live).nodup
    (live.map g.rangeName) (List.Subset.refl _)
  rwa [List.nil_append] at split

/-- The copied condition stands beside the copies with the outer parts of the join predicates. -/
theorem gathered_ownCopied (condition : Option NodeId) :
    Gathered (g.ownCopied live condition).1 (g.liveCopies live)
        ((g.ownCopied live condition).2.toList ++ (g.splitCopies live).2) ∧
      (((g.ownCopied live condition).1.predicatesOf (g.liveCopies live)
          ((g.ownCopied live condition).2.toList ++ (g.splitCopies live).2)).flatMap
            (g.ownCopied live condition).1.conjuncts).Perm
        (((g.splitCopies live).1.predicatesOf (g.liveCopies live) (g.splitCopies live).2).flatMap
            (g.splitCopies live).1.conjuncts ++
          (g.ownCopied live condition).1.conjunctsOf (g.ownCopied live condition).2) := by
  have f := (regroups_splitCopies isRange).gathered
  refine f.grow (g.beside_ownCopied live condition) fun own mem => ?_
  cases condition with
  | none => simp [ownCopied, copyCondition] at mem
  | some filter =>
    have tree := forest_ownCopied (Option.mem_toList.mp mem)
    refine ⟨(tree.linked _ (List.mem_singleton_self _)).acyclic (Below.refl _ _), ?_⟩
    intro copy isCopy below
    exact tree.fresh _ (List.mem_singleton_self _) below (has_of_isRange (f.isRange copy isCopy))

theorem regroups_built (condition : Option NodeId) (usage : RangeUsage) :
    Regroups (g.liveCopies live) (g.ownCopied live condition).1
      ((g.ownCopied live condition).2.toList ++ (g.splitCopies live).2)
      (g.built live condition usage).1 (g.built live condition usage).2.2.toList := by
  have joined := (gathered_ownCopied isRange condition).1.conjoin
  exact joined.trans (joined.gathered.withAnchor (g.forest_copyRanges live).nodup usage)

/-- After the join predicates are pointed at the copies, only the copies themselves are written. -/
theorem writes_built (condition : Option NodeId) (usage : RangeUsage) :
    Writes (g.rebound live) (g.built live condition usage).1 (g.liveCopies live) :=
  ((regroups_splitCopies isRange).writes.trans
    (.of_same (g.beside_ownCopied live condition).same _)).trans
    (regroups_built isRange condition usage).writes

theorem nested_built (condition : Option NodeId) (usage : RangeUsage) :
    ∀ copy ∈ g.liveCopies live, ((g.built live condition usage).1.node copy).nested? =
      ((g.rebound live).node copy).nested? := by
  intro copy mem
  have split := regroups_splitCopies isRange
  have has := has_of_isRange (split.gathered.isRange copy mem)
  rw [(regroups_built isRange condition usage).nested copy mem,
    (g.beside_ownCopied live condition).node has, split.nested copy mem]

/-- The filter and the join predicates that are left list the conjuncts of the pointed join
predicates and those of the copied condition, and nothing else. -/
theorem perm_built (condition : Option NodeId) (usage : RangeUsage) :
    (((g.built live condition usage).1.predicatesOf (g.liveCopies live)
        (g.built live condition usage).2.2.toList).flatMap
          (g.built live condition usage).1.conjuncts).Perm
      (((g.rebound live).predicatesOf (g.liveCopies live) []).flatMap (g.rebound live).conjuncts ++
        (g.ownCopied live condition).1.conjunctsOf (g.ownCopied live condition).2) :=
  ((regroups_built isRange condition usage).perm.trans (gathered_ownCopied isRange condition).2).trans
    ((regroups_splitCopies isRange).perm.append_right _)

/-- None of these conjuncts occurs twice. -/
theorem nodup_built (condition : Option NodeId) :
    (((g.rebound live).predicatesOf (g.liveCopies live) []).flatMap (g.rebound live).conjuncts ++
      (g.ownCopied live condition).1.conjunctsOf (g.ownCopied live condition).2).Nodup := by
  have linked := linked_rebound isRange
  have split := regroups_splitCopies isRange
  have first := nodup_conjuncts_of_linked (fun copy mem => (linked copy mem).1)
    (g.forest_copyRanges live).nodup
  cases condition with
  | none => simpa [ownCopied, copyCondition] using first
  | some filter =>
    obtain ⟨own, copied⟩ : ∃ own, (g.ownCopied live (some filter)).2 = some own := ⟨_, rfl⟩
    have tree := forest_ownCopied copied
    have linked' := tree.linked own (List.mem_singleton_self own)
    rw [copied, conjunctsOf_some]
    refine List.nodup_append.mpr ⟨first, nodup_conjuncts linked' (Below.refl _ own), ?_⟩
    rintro id listed _ listed' rfl
    obtain ⟨predicate, mem, listed⟩ := List.mem_flatMap.mp listed
    have a := ((gathered_rebound isRange).apart predicate mem).acyclic
    have has := a.grounded id (a.below_of_mem_conjuncts listed)
    have below := (linked'.acyclic (Below.refl _ own)).below_of_mem_conjuncts listed'
    exact tree.fresh own (List.mem_singleton_self own) below
      (Nat.lt_of_lt_of_le has split.writes.size)

/-- What is within a copied range stays within the scope, a range at least. -/
theorem exists_part_of_within (condition : Option NodeId) (usage : RangeUsage) {copy id : NodeId}
    (mem : copy ∈ g.liveCopies live) (within : (g.rebound live).Within copy id)
    (isRange' : ((g.rebound live).node id).isRange = true) :
    ∃ part ∈ g.liveCopies live ++ (g.built live condition usage).2.2.toList,
      (g.built live condition usage).1.Within part id := by
  have split := regroups_splitCopies isRange
  have stamp := Node.formal_stamp.toRigid.splitJoins (live.map g.rangeName) (g.rebound live)
    (g.liveCopies live)
  have kept : ((g.splitCopies live).1.node id).isRange = true :=
    (stamp.isRange (has_of_isRange isRange')).trans isRange'
  obtain ⟨part, mem', inside⟩ := (gathered_rebound isRange).within split
    (List.mem_append_left _ mem) within (Node.isAnd_of_isRange isRange')
  have grown := g.beside_ownCopied live condition
  refine (gathered_ownCopied isRange condition).1.within (regroups_built isRange condition usage) ?_
    (grown.within inside) ?_
  · rcases List.mem_append.mp mem' with mem' | mem'
    · exact List.mem_append_left _ mem'
    · exact List.mem_append_right _ (List.mem_append_right _ mem')
  · rw [grown.node (has_of_isRange kept), Node.isAnd_of_isRange kept]

/-- What is copied of a live range is mirrored to the end: the conjuncts of its join predicate read
the copies, its nested query reads what was copied with it. -/
theorem mirrors_built (condition : Option NodeId) (usage : RangeUsage) {range copy : NodeId}
    (acyclic : g.Acyclic range) (isRange' : (g.node range).isRange = true)
    (mem : copy ∈ g.liveCopies live)
    (image : Image g (g.copyRanges live).1 .empty range copy target) :
    List.Forall₂ (Mirrors g (g.built live condition usage).1 ((g.copyOf live).apply ∘ target))
        (g.conjunctsOf (g.join? range)) ((g.rebound live).conjunctsOf ((g.rebound live).join? copy)) ∧
      List.Forall₂ (Mirrors g (g.built live condition usage).1 target)
        (g.node range).nested?.toList
        ((g.built live condition usage).1.node copy).nested?.toList := by
  obtain ⟨r, node⟩ := Node.exists_of_isRange isRange'
  have forest := g.forest_copyRanges live
  have linked := linked_rebound isRange
  have writes := writes_built isRange condition usage
  have apart : ∀ {child}, child ∈ (g.rebound live).children copy →
      Apart (g.rebound live) (g.liveCopies live) child := fun slot =>
    apart_of_child (fun copy mem => (linked copy mem).1) mem slot
  obtain ⟨joins, queries⟩ := image.mirrors.rebindJoins forest.linked (isRange_copyRanges isRange)
    (g.copyOf live) forest.nodup mem node
  rw [nested_built isRange condition usage copy mem, join?_eq node, node]
  constructor
  · have lists := mirrors_conjunctsOf joins (fun join held => ?_) fun join held =>
      (apart (mem_children_of_join? held)).acyclic
    · refine forall₂_imp_of_mem lists fun _ _ conjunct listed m => m.grow ?_
      obtain ⟨join, held, listed⟩ := List.mem_flatMap.mp listed
      have top := apart (mem_children_of_join? (Option.mem_toList.mp held))
      exact (top.below (top.acyclic.below_of_mem_conjuncts listed)).nodes writes
    · have slot : join ∈ g.children range := mem_children_of_join? ((join?_eq node).trans held)
      exact acyclic.child slot
  · refine forall₂_imp_of_mem queries fun _ _ query held m => m.grow ?_
    obtain ⟨r', node'⟩ := Node.exists_of_isRange (linked copy mem).2
    have slot : query ∈ (g.rebound live).children copy := by
      rw [children, node']
      exact List.mem_append_right _ (by simpa [node', Node.nested?] using held)
    exact (apart slot).nodes writes

/-- The copied condition is an image of the given one, where the copies stand for the live ranges. -/
theorem exists_image_ownCopied {filter : NodeId} (acyclic : g.Acyclic filter)
    (whole : g.Whole filter) (usage : RangeUsage) :
    ∃ own target, (g.ownCopied live (some filter)).2 = some own ∧
      Image g (g.ownCopied live (some filter)).1 (g.copyOf live) filter own target ∧
      List.Forall₂ (Mirrors g (g.built live (some filter) usage).1 target) (g.conjuncts filter)
        ((g.ownCopied live (some filter)).1.conjuncts own) := by
  have beside := (Sealed.splitCopies g live).1.toExtends
  have split := regroups_splitCopies isRange
  have old : ∀ id copy, (g.copyOf live).get? id = some copy → (g.splitCopies live).1.Has copy := by
    intro id copy found
    have mem : copy ∈ g.liveCopies live :=
      List.mem_map_of_mem (f := (·.2)) (Renaming.mem_of_get?_ofList found)
    exact has_of_isRange (split.gathered.isRange copy mem)
  obtain ⟨target, image⟩ := exists_image (acyclic.of_same beside.same) (beside.whole whole) _ old
  have image' := image.shrink beside whole
  have f := (gathered_ownCopied isRange (some filter)).1
  have apart := f.apart _ (mem_predicatesOf.mpr (.inr (List.mem_append_left _
    (List.mem_singleton_self ((g.splitCopies live).1.copyWith filter (g.copyOf live)).2))))
  refine ⟨_, target, rfl, image', ?_⟩
  refine forall₂_imp_of_mem (image'.mirrors.conjuncts acyclic apart.acyclic)
    fun _ _ conjunct listed m => m.grow ?_
  exact (apart.below (apart.acyclic.below_of_mem_conjuncts listed)).nodes
    (regroups_built isRange (some filter) usage).writes

end

end

end Graph

end RangeQuery
