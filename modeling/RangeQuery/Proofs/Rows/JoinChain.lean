import RangeQuery.Proofs.Rows.Database
import RangeQuery.Proofs.Scope.RequiredRanges

/-!
The join of a scope. Its included ranges are joined in their order: a range without a predicate adds
each of its rows, a required one each row that the predicate holds for, and an optional one a
missing row where there is none.
-/

namespace RangeQuery

/-- No join predicate of some ranges reads a range that comes after its own. -/
def Graph.JoinsInOrder (g : Graph) (ranges : List NodeId) : Prop :=
  ranges.Pairwise fun earlier later => ∀ join ∈ g.join? earlier, ¬ g.Reads join later

/-- The rows that a join put together, the newest first; an optional range may lack one. -/
abbrev Combination (ρ : Type) := List (NodeId × Option ρ)

namespace Combination

variable {ρ : Type} {c : Combination ρ} {range id : NodeId} {row : Option ρ}

/-- The row of a range, if it was joined and has one. -/
def rowOf (c : Combination ρ) (range : NodeId) : Option ρ := (c.lookup range).join

@[simp] theorem rowOf_nil (range : NodeId) : rowOf ([] : Combination ρ) range = none := rfl

@[simp] theorem rowOf_cons_self : rowOf ((range, row) :: c) range = row := by
  simp [rowOf]

theorem rowOf_cons_of_ne (ne : id ≠ range) : rowOf ((range, row) :: c) id = c.rowOf id := by
  simp [rowOf, List.lookup_cons, beq_eq_false_iff_ne.mpr ne]

end Combination

/-- What a query is asked over: a database, the results of the queries behind its ranges, and the
truth of the predicates that are no equality of two identifiers. -/
structure World (ρ α : Type) extends Database ρ α where
  results : NodeId → List ρ
  judge : NodeId → Combination ρ → Truth

namespace World

variable {ρ α : Type} (w : World ρ α)

/-- The rows that a range reads from. -/
def source (g : Graph) (range : NodeId) : List ρ :=
  match g.entity? range with
  | some entity => w.rows entity
  | none => w.results range

variable [DecidableEq α]

/-- The truth of a predicate over some rows. -/
def truth (g : Graph) (predicate : NodeId) (c : Combination ρ) : Truth :=
  match g.identifierEquality? predicate with
  | some (left, right) =>
    (w.read (c.rowOf left.range) left).equal (w.read (c.rowOf right.range) right)
  | none => w.judge predicate c

/-- The rows of a range that its join predicate holds for. -/
def partners (g : Graph) (c : Combination ρ) (range : NodeId) : List ρ :=
  (w.source g range).filter fun row =>
    (g.join? range).all fun join => w.truth g join ((range, some row) :: c) = .yes

/-- Join one more range. -/
def extend (g : Graph) (c : Combination ρ) (range : NodeId) : List (Combination ρ) :=
  if (w.partners g c range).isEmpty && (g.node range).isOptional then [(range, none) :: c]
  else (w.partners g c range).map fun row => (range, some row) :: c

/-- Join some ranges in their order. -/
def joinFrom (g : Graph) : List NodeId → Combination ρ → List (Combination ρ)
  | [], c => [c]
  | range :: rest, c => (w.extend g c range).flatMap (joinFrom g rest)

/-- The rows that the included ranges of a scope are joined to. -/
def joinedRows (g : Graph) (scope : NodeId) : List (Combination ρ) :=
  w.joinFrom g (g.includedRanges scope) []

variable {w} {g : Graph} {c joined : Combination ρ} {range id : NodeId} {ranges : List NodeId}

theorem mem_source_of_mem_partners {row : ρ} (mem : row ∈ w.partners g c range) :
    row ∈ w.source g range := (List.mem_filter.mp mem).1

/-- Joining a range adds a row of it; an optional one without a partner adds a missing row. -/
theorem exists_of_mem_extend (mem : joined ∈ w.extend g c range) :
    ∃ row : Option ρ, joined = (range, row) :: c ∧ (∀ found ∈ row, found ∈ w.source g range) ∧
      (row = none → w.partners g c range = [] ∧ (g.node range).isOptional = true) := by
  unfold extend at mem
  split at mem
  · next missing =>
    rw [Bool.and_eq_true, List.isEmpty_iff] at missing
    exact ⟨none, List.mem_singleton.mp mem, by simp, fun _ => missing⟩
  · obtain ⟨row, partner, rfl⟩ := List.mem_map.mp mem
    exact ⟨some row, rfl, by simpa using mem_source_of_mem_partners partner, by simp⟩

/-- A join leaves the rows of the ranges that it does not join. -/
theorem rowOf_of_mem_joinFrom (mem : joined ∈ w.joinFrom g ranges c) (out : id ∉ ranges) :
    joined.rowOf id = c.rowOf id := by
  induction ranges generalizing c with
  | nil => rw [List.mem_singleton.mp mem]
  | cons range rest ih =>
    rw [List.mem_cons, not_or] at out
    obtain ⟨extended, step, mem⟩ := List.mem_flatMap.mp mem
    obtain ⟨row, rfl, -, -⟩ := exists_of_mem_extend step
    rw [ih mem out.2, Combination.rowOf_cons_of_ne out.1]

/-- Every row of a combination is a row of its range. -/
def Sourced (w : World ρ α) (g : Graph) (c : Combination ρ) : Prop :=
  ∀ range, ∀ row ∈ c.rowOf range, row ∈ w.source g range

omit [DecidableEq α] in
theorem Sourced.nil : w.Sourced g [] := fun _ _ found => by cases found

theorem Sourced.extend (sourced : w.Sourced g c) (mem : joined ∈ w.extend g c range) :
    w.Sourced g joined := by
  obtain ⟨row, rfl, ofRange, -⟩ := exists_of_mem_extend mem
  intro id found held
  by_cases same : id = range
  · subst same
    rw [Combination.rowOf_cons_self] at held
    exact ofRange found held
  · rw [Combination.rowOf_cons_of_ne same] at held
    exact sourced id found held

end World

end RangeQuery
