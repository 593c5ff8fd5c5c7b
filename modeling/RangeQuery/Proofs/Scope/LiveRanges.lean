import RangeQuery.Proofs.Graph.References
import RangeQuery.Proofs.Scope.Correlated

/-!
Live ranges. A subquery copies the ranges that its expression and its condition read. The flags of
their use are filed under names, so they tell just these where the names differ.
-/

namespace RangeQuery

namespace Flags

theorem has_insert (flags : Flags) (name other : String) (value : Bool) :
    Flags.has (flags.insert name value) other = if name = other then value else flags.has other := by
  split
  · next same =>
    subst same
    rw [has, NameTable.get?_insert_self, Option.getD_some]
  · next ne => rw [has, NameTable.get?_insert_of_ne _ ne, has]

/-- The raised names are flagged, beside those that were. -/
theorem has_raise (flags : Flags) (names : List String) (name : String) :
    (flags.raise names).has name = true ↔ name ∈ names ∨ flags.has name = true := by
  unfold raise
  induction names generalizing flags with
  | nil => simp
  | cons first rest ih =>
    rw [List.foldl_cons, ih, has_insert]
    by_cases same : first = name
    · simp [same]
    · simp [same, Ne.symm same]

theorem has_ofList_false {entries : List (String × Bool)} (off : ∀ entry ∈ entries, entry.2 = false)
    (name : String) : Flags.has (NameTable.ofList entries) name = false := by
  have kept : ∀ flags : Flags, flags.has name = false → Flags.has
      (entries.foldl (fun table entry => table.insert entry.1 entry.2) flags) name = false := by
    induction entries with
    | nil => exact fun _ unflagged => unflagged
    | cons first rest ih =>
      intro flags unflagged
      refine ih (fun entry mem => off entry (List.mem_cons_of_mem _ mem)) _ ?_
      rw [has_insert, off first (by simp), unflagged, ite_self]
  exact kept .empty rfl

end Flags

namespace Graph

variable {g : Graph} {ranges : List NodeId} {expression : NodeId} {condition : Option NodeId}

/-- The ranges of a list that an expression or a condition reads; if they read none, the first. -/
noncomputable def liveAmong (g : Graph) (ranges : List NodeId) (expression : NodeId)
    (condition : Option NodeId) : List NodeId :=
  open Classical in
  let read := ranges.filter fun range => ∃ top ∈ expression :: condition.toList, g.Reads top range
  if read.isEmpty then ranges.take 1 else read

/-- Which ranges are live hangs on what is read only. -/
theorem liveAmong_congr {h : Graph} {expression' : NodeId} {condition' : Option NodeId}
    (reads : ∀ range ∈ ranges, (∃ top ∈ expression :: condition.toList, g.Reads top range) ↔
      ∃ top ∈ expression' :: condition'.toList, h.Reads top range) :
    g.liveAmong ranges expression condition = h.liveAmong ranges expression' condition' := by
  classical
  unfold liveAmong
  dsimp only
  rw [List.filter_congr fun range mem => decide_eq_decide.mpr (reads range mem)]

theorem liveAmong_sublist (g : Graph) (ranges : List NodeId) (expression : NodeId)
    (condition : Option NodeId) : (g.liveAmong ranges expression condition).Sublist ranges := by
  unfold liveAmong
  dsimp only
  split
  · exact List.take_sublist 1 ranges
  · exact List.filter_sublist

/-- A range is live if it is read; or it is the first one, and none is read. -/
theorem mem_liveAmong {range : NodeId} : range ∈ g.liveAmong ranges expression condition ↔
    range ∈ ranges ∧ (∃ top ∈ expression :: condition.toList, g.Reads top range) ∨
      ranges.head? = some range ∧
        ∀ other ∈ ranges, ¬ ∃ top ∈ expression :: condition.toList, g.Reads top other := by
  classical
  unfold liveAmong
  dsimp only
  split
  · next none =>
    rw [List.isEmpty_iff, List.filter_eq_nil_iff] at none
    simp only [decide_eq_true_eq] at none
    rw [or_iff_right fun both => none range both.1 both.2, and_iff_left none]
    cases ranges <;> simp [eq_comm]
  · next some =>
    rw [List.mem_filter, decide_eq_true_eq, or_iff_left]
    rintro ⟨-, none⟩
    refine some (List.isEmpty_iff.mpr (List.filter_eq_nil_iff.mpr fun other mem => ?_))
    rw [decide_eq_true_eq]
    exact none other mem

theorem liveAmong_ne_nil (some : ranges ≠ []) : g.liveAmong ranges expression condition ≠ [] := by
  unfold liveAmong
  dsimp only
  split
  · simpa using some
  · next read => simpa using read

/-- Where the names of some ranges differ, the name of a range is among the read ones if the range
is. -/
theorem rangeName_mem_namesAmong (names : (ranges.map g.rangeName).Nodup) {range : NodeId}
    (mem : range ∈ ranges) (read : List NodeId) :
    g.rangeName range ∈ g.namesAmong ranges read ↔ range ∈ read := by
  simp only [namesAmong, List.mem_map, List.mem_filter, List.contains_iff_mem]
  constructor
  · rintro ⟨other, ⟨isRead, among⟩, same⟩
    rwa [← List.inj_on_of_nodup_map names among mem same]
  · intro isRead
    exact ⟨range, ⟨isRead, mem⟩, rfl⟩

/-- Where the names of some ranges differ, a range is flagged if it is among the flagged ones. -/
theorem has_raise_namesAmong (names : (ranges.map g.rangeName).Nodup) {range : NodeId}
    (mem : range ∈ ranges) (read : List NodeId) :
    Flags.has (Flags.raise (.ofList (ranges.map fun id => (g.rangeName id, false)))
      (g.namesAmong ranges read)) (g.rangeName range) = true ↔ range ∈ read := by
  have unflagged : Flags.has (.ofList (ranges.map fun id => (g.rangeName id, false)))
      (g.rangeName range) = false :=
    Flags.has_ofList_false (by simp) _
  rw [Flags.has_raise, unflagged, rangeName_mem_namesAmong names mem]
  simp

/-- A range is flagged as live if the expression or the condition reads it. -/
theorem isLive_usage (metadata : Metadata) (names : (ranges.map g.rangeName).Nodup)
    (acyclic : ∀ top ∈ expression :: condition.toList, g.Acyclic top) {range : NodeId}
    (mem : range ∈ ranges) :
    (g.usage metadata [expression] condition ranges).isLive (g.rangeName range) = true ↔
      ∃ top ∈ expression :: condition.toList, g.Reads top range := by
  have reads : ∀ tops : List NodeId, (∀ top ∈ tops, g.Acyclic top) →
      (range ∈ g.rangesOf (tops.flatMap fun top => g.identifiersUnder top true) ↔
        ∃ top ∈ tops, g.Reads top range) := by
    intro tops acyclic
    have each : ∀ top ∈ tops, range ∈ g.rangesOf (g.identifiersUnder top true) ↔
        g.Reads top range := fun top mem => (acyclic top mem).mem_rangesOf_identifiersUnder
    simp only [rangesOf, List.filterMap_flatMap, List.mem_flatMap] at each ⊢
    exact exists_congr fun top => and_congr_right (each top)
  rw [RangeUsage.isLive, Bool.or_eq_true]
  simp only [usage, has_raise_namesAmong names mem]
  rw [reads [expression] fun top mem => acyclic top (by simp_all),
    reads condition.toList fun top mem => acyclic top (by simp_all)]
  simp only [List.mem_cons, List.not_mem_nil, or_false, exists_eq_or_imp, exists_eq_left]

/-- The ranges that a subquery copies are the live ones. -/
theorem liveFor_eq (metadata : Metadata) (names : (ranges.map g.rangeName).Nodup)
    (acyclic : ∀ top ∈ expression :: condition.toList, g.Acyclic top) :
    g.liveFor metadata ranges expression condition = g.liveAmong ranges expression condition := by
  classical
  have flagged : (ranges.filter fun id =>
      (g.usage metadata [expression] condition ranges).isLive (g.rangeName id)) =
      ranges.filter fun range => ∃ top ∈ expression :: condition.toList, g.Reads top range := by
    refine List.filter_congr fun range mem => ?_
    rw [Bool.eq_iff_iff, isLive_usage metadata names acyclic mem, decide_eq_true_iff]
  unfold liveFor liveRanges liveAmong
  dsimp only
  rw [flagged]
  split
  · next none =>
    -- What the expression reads would be flagged.
    have unbound : (ranges.filter (g.referencedRanges expression).contains).isEmpty = true := by
      rw [List.isEmpty_iff, List.filter_eq_nil_iff] at none ⊢
      intro range mem bound
      rw [List.contains_iff_mem, (acyclic expression (by simp)).mem_referencedRanges] at bound
      exact none range mem (decide_eq_true ⟨expression, by simp, bound⟩)
    rw [if_pos unbound]
  · rfl

end Graph

end RangeQuery
