import RangeQuery.Proofs.Rows.JoinChain

/-!
Interpretations. What a scope answers with hangs on the rows that its ranges read from and on the
values of its expressions over joined rows. An interpretation gives both, for whatever the operators
mean; a predicate is met where its value is accepted.
-/

namespace RangeQuery

/-- Rows for each range, and a value for each expression over some rows. -/
structure Interpretation (ρ β : Type) where
  rows : NodeId → List ρ
  value : NodeId → Combination ρ → β
  accepts : β → Bool

namespace Interpretation

variable {ρ β : Type} (I : Interpretation ρ β) {g h : Graph} {range : NodeId}
  {ranges : List NodeId} {c c' joined : Combination ρ}

/-- The rows of a range that its join predicate accepts. -/
def partners (g : Graph) (c : Combination ρ) (range : NodeId) : List ρ :=
  (I.rows range).filter fun row =>
    (g.join? range).all fun join => I.accepts (I.value join ((range, some row) :: c))

/-- What one more range is joined by: its partners, or a missing row if it has none and is
optional. -/
def choices (g : Graph) (c : Combination ρ) (range : NodeId) : List (Option ρ) :=
  if (I.partners g c range).isEmpty && (g.node range).isOptional then [none]
  else (I.partners g c range).map some

/-- Join some ranges in their order. -/
def joinFrom (g : Graph) : List NodeId → Combination ρ → List (Combination ρ)
  | [], c => [c]
  | range :: rest, c => (I.choices g c range).flatMap fun row => joinFrom g rest ((range, row) :: c)

/-- The rows that the included ranges of a scope are joined to. -/
def joinedRows (g : Graph) (scope : NodeId) : List (Combination ρ) :=
  I.joinFrom g (g.includedRanges scope) []

/-- The distinct rows of values that a scope retrieves, whatever its window. -/
def answers (g : Graph) (scope : NodeId) : Set (List β) :=
  {values | ∃ c ∈ I.joinedRows g scope,
    (∀ condition ∈ (g.scope scope).condition, I.accepts (I.value condition c) = true) ∧
      (g.scope scope).values.map (I.value · c) = values}

/-- The value of each expression depends only on the rows of the ranges that it reads. -/
def DependsOn (reads : NodeId → NodeId → Prop) : Prop :=
  ∀ expression c c', (∀ range, reads expression range → c.rowOf range = c'.rowOf range) →
    I.value expression c = I.value expression c'

theorem exists_mem_choices (optional : (g.node range).isOptional = true) :
    ∃ row, row ∈ I.choices g c range := by
  unfold choices
  cases partners : I.partners g c range with
  | nil => exact ⟨none, by simp [optional]⟩
  | cons row rest => exact ⟨some row, by simp⟩

end Interpretation

/-! ## The interpretation of a world -/

namespace World

variable {ρ α : Type} [DecidableEq α] (w : World ρ α)

/-- Predicates as a world judges them. -/
def interpretation (g : Graph) : Interpretation ρ Truth where
  rows := w.source g
  value := w.truth g
  accepts truth := truth = .yes

/-- The join of a scope over a world is the one that its interpretation gives. -/
theorem joinedRows_interpretation (g : Graph) (scope : NodeId) :
    (w.interpretation g).joinedRows g scope = w.joinedRows g scope := by
  have same : ∀ ranges c, (w.interpretation g).joinFrom g ranges c = w.joinFrom g ranges c := by
    intro ranges
    induction ranges with
    | nil => exact fun _ => rfl
    | cons range rest ih =>
      intro c
      have partners : (w.interpretation g).partners g c range = w.partners g c range := rfl
      have extended : w.extend g c range =
          ((w.interpretation g).choices g c range).map fun row => (range, row) :: c := by
        rw [extend, Interpretation.choices, partners]
        split <;> simp
      simp only [Interpretation.joinFrom, joinFrom, extended, List.flatMap_map, ih]
  exact same _ _

end World

/-! ## Joins without some ranges -/

/-- Two combinations agree on all ranges but some. -/
def Combination.AgreeOff {ρ : Type} (dropped : Set NodeId) (c c' : Combination ρ) : Prop :=
  ∀ range, range ∉ dropped → c.rowOf range = c'.rowOf range

namespace Combination.AgreeOff

variable {ρ : Type} {dropped : Set NodeId} {c c' : Combination ρ} {range : NodeId}

theorem cons (agree : AgreeOff dropped c c') (range : NodeId) (row : Option ρ) :
    AgreeOff dropped ((range, row) :: c) ((range, row) :: c') := by
  intro id out
  by_cases same : id = range
  · rw [same, rowOf_cons_self, rowOf_cons_self]
  · rw [rowOf_cons_of_ne same, rowOf_cons_of_ne same, agree id out]

theorem cons_left (agree : AgreeOff dropped c c') (mem : range ∈ dropped) (row : Option ρ) :
    AgreeOff dropped ((range, row) :: c) c' := by
  intro id out
  have ne : id ≠ range := by
    rintro rfl
    exact out mem
  rw [rowOf_cons_of_ne ne, agree id out]

end Combination.AgreeOff

namespace Interpretation

open Combination

variable {ρ β : Type} {I : Interpretation ρ β} {g h : Graph} {dropped : Set NodeId}

/-- A graph joins the ranges that are left as another does, wherever the rows agree on them, and the
other joins the dropped ones without losing a row. -/
structure JoinsWithout (I : Interpretation ρ β) (g h : Graph) (dropped : Set NodeId)
    (ranges : List NodeId) : Prop where
  optional : ∀ range ∈ ranges, range ∈ dropped → (g.node range).isOptional = true
  same : ∀ range ∈ ranges, range ∉ dropped → ∀ {c c' : Combination ρ}, AgreeOff dropped c c' →
    I.choices h c' range = I.choices g c range

namespace JoinsWithout

variable {range : NodeId} {ranges : List NodeId} {c c' : Combination ρ}
  [DecidablePred (· ∈ dropped)]

omit [DecidablePred (· ∈ dropped)] in
theorem tail (j : I.JoinsWithout g h dropped (range :: ranges)) :
    I.JoinsWithout g h dropped ranges :=
  ⟨fun id mem => j.optional id (List.mem_cons_of_mem _ mem),
    fun id mem => j.same id (List.mem_cons_of_mem _ mem)⟩

/-- What all ranges are joined to, the ones that are left are joined to as well. -/
theorem exists_left (j : I.JoinsWithout g h dropped ranges) (agree : AgreeOff dropped c c')
    {joined : Combination ρ} (mem : joined ∈ I.joinFrom g ranges c) :
    ∃ joined' ∈ I.joinFrom h (ranges.filter (· ∉ dropped)) c', AgreeOff dropped joined joined' := by
  induction ranges generalizing c c' with
  | nil => exact ⟨c', by simp [joinFrom], List.mem_singleton.mp mem ▸ agree⟩
  | cons range rest ih =>
    obtain ⟨row, chosen, mem⟩ := List.mem_flatMap.mp mem
    by_cases out : range ∈ dropped
    · rw [List.filter_cons_of_neg (by simpa using out)]
      exact ih j.tail (agree.cons_left out row) mem
    · rw [List.filter_cons_of_pos (by simpa using out)]
      obtain ⟨joined', mem', agree'⟩ := ih j.tail (agree.cons range row) mem
      refine ⟨joined', List.mem_flatMap.mpr ⟨row, ?_, mem'⟩, agree'⟩
      rwa [j.same range (by simp) out agree]

/-- What the ranges that are left are joined to, all of them are joined to as well: the dropped ones
add a row of theirs or a missing one. -/
theorem exists_all (j : I.JoinsWithout g h dropped ranges) (agree : AgreeOff dropped c c')
    {joined' : Combination ρ} (mem : joined' ∈ I.joinFrom h (ranges.filter (· ∉ dropped)) c') :
    ∃ joined ∈ I.joinFrom g ranges c, AgreeOff dropped joined joined' := by
  induction ranges generalizing c c' with
  | nil => exact ⟨c, by simp [joinFrom], List.mem_singleton.mp mem ▸ agree⟩
  | cons range rest ih =>
    by_cases out : range ∈ dropped
    · rw [List.filter_cons_of_neg (by simpa using out)] at mem
      obtain ⟨row, chosen⟩ := I.exists_mem_choices (c := c) (j.optional range (by simp) out)
      obtain ⟨joined, mem', agree'⟩ := ih j.tail (agree.cons_left out row) mem
      exact ⟨joined, List.mem_flatMap.mpr ⟨row, chosen, mem'⟩, agree'⟩
    · rw [List.filter_cons_of_pos (by simpa using out)] at mem
      obtain ⟨row, chosen, mem⟩ := List.mem_flatMap.mp mem
      obtain ⟨joined, mem', agree'⟩ := ih j.tail (agree.cons range row) mem
      refine ⟨joined, List.mem_flatMap.mpr ⟨row, ?_, mem'⟩, agree'⟩
      rwa [← j.same range (by simp) out agree]

end JoinsWithout

end Interpretation

end RangeQuery
