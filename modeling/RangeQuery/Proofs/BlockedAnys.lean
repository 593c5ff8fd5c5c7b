import RangeQuery.Proofs.AnchorSelection
import RangeQuery.Proofs.ClosedSubqueries
import RangeQuery.Proofs.Predicate.TestedForNull
import RangeQuery.Proofs.Scope.JoinedCopies
import RangeQuery.Proofs.Scope.LiveRanges

/-!
Where no subquery can be built. A search for a correlated scope gives up exactly if every live range is
optional, is tested for NULL by the condition and keeps a part of its join predicate.
-/

namespace RangeQuery

namespace Graph

variable {g h : Graph} {ranges : List NodeId} {expression range : NodeId} {condition : Option NodeId}

/-- Ranges of different names, from which nothing leads back and whose join predicates read nodes of the
graph only. -/
structure Sources (g : Graph) (ranges : List NodeId) : Prop where
  isRange : ∀ range ∈ ranges, (g.node range).isRange = true
  names : (ranges.map g.rangeName).Nodup
  acyclic : ∀ range ∈ ranges, g.Acyclic range
  has : ∀ range ∈ ranges, ∀ join, g.join? range = some join → ∀ read, g.Reads join read → g.Has read

/-- A range cannot start the join of a subquery: it is optional and tested for NULL, and it keeps a part
of its join predicate over the live names. -/
structure Barred (g : Graph) (live : List String) (condition : Option NodeId) (range : NodeId) :
    Prop where
  optional : g.isRequired range = false
  tested : ∃ filter ∈ condition, g.TestsForNull filter range
  joined : ∃ join, g.join? range = some join ∧ g.KeepsPart live join

theorem Sources.sublist {some : List NodeId} (s : g.Sources ranges) (sub : some.Sublist ranges) :
    g.Sources some where
  isRange range mem := s.isRange range (sub.subset mem)
  names := s.names.sublist (sub.map _)
  acyclic range mem := s.acyclic range (sub.subset mem)
  has range mem := s.has range (sub.subset mem)

/-- Where all below the ranges stays, they stay sources. -/
theorem Sources.of_same (s : g.Sources ranges) (size : g.size ≤ h.size)
    (nodes : ∀ range ∈ ranges, ∀ id, g.Below range id → h.node id = g.node id) :
    h.Sources ranges := by
  have own : ∀ range ∈ ranges, h.node range = g.node range := fun range mem =>
    nodes range mem range (.refl g range)
  refine ⟨fun range mem => ?_, ?_, fun range mem => ?_, fun range mem join held read reads => ?_⟩
  · rw [own range mem]
    exact s.isRange range mem
  · rw [List.map_congr_left fun range mem => by rw [rangeName, own range mem, ← rangeName]]
    exact s.names
  · exact (s.acyclic range mem).congr (fun id below => congrArg Node.children (nodes range mem id below))
      fun id below => Nat.lt_of_lt_of_le ((s.acyclic range mem).grounded id below) size
  · rw [join?_congr (own range mem)] at held
    have below := below_of_child (mem_children_of_join? held)
    have reads' : g.Reads join read :=
      (reads_congr fun id deeper => nodes range mem id (below.trans deeper)).mp reads
    exact Nat.lt_of_lt_of_le (s.has range mem join held read reads') size

/-- A list of ranges is left without an anchor exactly if all are joined and none may start the join. -/
theorem anchor?_withAnchor_eq_none (isRange : ∀ id ∈ ranges, (g.node id).isRange = true)
    (condition : Option NodeId) (usage : RangeUsage) :
    (g.withAnchor ranges condition usage).1.anchor?
        (g.withAnchor ranges condition usage).2.1 = none ↔
      ∀ id ∈ ranges, (g.join? id).isSome = true ∧ g.mayStart usage id = false := by
  have joined : ∀ id ∈ ranges, g.isAnchor id = false ↔ (g.join? id).isSome = true :=
    fun id mem => by
      rw [isAnchor_eq (isRange id mem)]
      cases g.join? id <;> simp
  unfold withAnchor
  split
  · next starts =>
    obtain ⟨id, mem, isAnchor⟩ := List.any_eq_true.mp starts
    refine iff_of_false (fun none => ?_) fun all => ?_
    · exact List.find?_eq_none.mp none id mem isAnchor
    · rw [(joined id mem).mpr (all id mem).1] at isAnchor
      cases isAnchor
  · next all =>
    have all : ∀ id ∈ ranges, g.isAnchor id = false := by simpa using all
    split
    · next none =>
      refine iff_of_true (List.find?_eq_none.mpr fun id mem => by simp [all id mem]) fun id mem => ?_
      exact ⟨(joined id mem).mp (all id mem), anchorCandidate?_eq_none.mp none id mem⟩
    · next anchor found =>
      have mem := mem_of_anchorCandidate? found
      have may := mayStart_of_anchorCandidate? found
      refine iff_of_false (fun none => ?_) fun all => by simp [(all anchor mem).2] at may
      -- The promoted range is an anchor.
      have stays := (Node.formal_stamp.toRigid.promote g anchor condition).isRange
        (has_of_isRange (isRange anchor mem))
      refine List.find?_eq_none.mp none anchor (by simp [anchorFirst]) ?_
      rw [isAnchor_eq (stays.trans (isRange anchor mem)),
        join?_promote (isRange anchor mem) condition, Option.isNone_none]

/-- The use of a range tells whether the condition tests it for NULL. -/
theorem nullTested_usage (metadata : Metadata) (expressions : List NodeId)
    (names : (ranges.map g.rangeName).Nodup) (acyclic : ∀ filter ∈ condition, g.Acyclic filter)
    (mem : range ∈ ranges) :
    (g.usage metadata expressions condition ranges).nullTested.has (g.rangeName range) = true ↔
      ∃ filter ∈ condition, g.TestsForNull filter range := by
  simp only [usage, has_raise_namesAmong names mem, List.mem_flatMap, Option.mem_toList,
    Option.mem_def]
  exact exists_congr fun filter => and_congr_right fun is => (acyclic filter is).mem_nullTested

/-- No correlated scope is found exactly if every live range is barred. -/
theorem Sources.correlate_eq_none_iff (s : g.Sources ranges) (metadata : Metadata)
    (some : ranges ≠ []) (acyclic : ∀ top ∈ expression :: condition.toList, g.Acyclic top) :
    let live := g.liveAmong ranges expression condition
    (g.correlate metadata ranges expression condition).2 = none ↔
      ∀ range ∈ live, g.Barred (live.map g.rangeName) condition range := by
  intro live
  have sub : live.Sublist ranges := g.liveAmong_sublist ranges expression condition
  have sources : g.Sources live := s.sublist sub
  have copies := copies_filterJoined sources.isRange sources.acyclic sources.has condition
  have isLive : g.liveFor metadata ranges expression condition = live :=
    liveFor_eq metadata s.names acyclic
  generalize use : g.usage metadata [expression] condition ranges = usage
  have found : (g.correlate metadata ranges expression condition).2 = none ↔
      (g.built live condition usage).1.anchor? (g.built live condition usage).2.1 = none := by
    rw [← isLive, ← use]
    have same := g.correlate_eq metadata expression condition
      (List.isEmpty_eq_false_iff.mpr some)
    dsimp only at same
    rw [same]
    split
    · next is => simp [is]
    · next is => simp [is]
  rw [found]
  have isRange : ∀ copy ∈ g.liveCopies live,
      ((g.filterJoined live condition).1.node copy).isRange = true := fun copy mem => by
    obtain ⟨range, -, isRange, -⟩ := exists_of_forall₂ copies mem
    exact isRange
  refine (anchor?_withAnchor_eq_none isRange _ usage).trans (forall_iff_of_forall₂ ?_).symm
  refine forall₂_imp_of_mem copies fun range mem copy _ same => ?_
  obtain ⟨isRange, name, required, joined⟩ := same
  obtain ⟨r, node⟩ := Node.exists_of_isRange isRange
  have tested : usage.nullTested.has r.name = true ↔
      ∃ filter ∈ condition, g.TestsForNull filter range := by
    have same : r.name = g.rangeName range := by rw [← name, rangeName, node]
    rw [same, ← use]
    exact nullTested_usage metadata [expression] s.names
      (fun filter is => acyclic filter (by simp [Option.mem_def.mp is])) (sub.subset mem)
  have demand : r.required = g.isRequired range := by
    rw [← required, isRequired, range?, node, Option.any_some]
  have may : (g.filterJoined live condition).1.mayStart usage copy = false ↔
      g.isRequired range = false ∧ ∃ filter ∈ condition, g.TestsForNull filter range := by
    rw [← tested, ← demand]
    simp [mayStart, range?, node]
  rw [joined, may]
  refine ⟨fun barred => ⟨barred.joined, barred.optional, barred.tested⟩, ?_⟩
  rintro ⟨joined, optional, tested⟩
  exact ⟨optional, tested, joined⟩

end Graph

end RangeQuery
