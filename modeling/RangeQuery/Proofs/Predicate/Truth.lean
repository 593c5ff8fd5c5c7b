import Mathlib.Data.List.Perm.Basic
import Mathlib.Data.List.Perm.Lattice

/-!
Truth with a third value for what is not known. The connectives follow Kleene: an answer is known
as soon as one side decides it.
-/

namespace RangeQuery

/-- The truth values of a filter. -/
inductive Truth where
  | yes
  | no
  | unknown
deriving DecidableEq

namespace Truth

/-- Both sides hold. -/
def and : Truth → Truth → Truth
  | .no, _ | _, .no => .no
  | .yes, .yes => .yes
  | _, _ => .unknown

/-- One side holds. -/
def or : Truth → Truth → Truth
  | .yes, _ | _, .yes => .yes
  | .no, .no => .no
  | _, _ => .unknown

/-- The opposite, which is unknown of what is unknown. -/
def not : Truth → Truth
  | .yes => .no
  | .no => .yes
  | .unknown => .unknown

theorem and_assoc (a b c : Truth) : (a.and b).and c = a.and (b.and c) := by
  cases a <;> cases b <;> cases c <;> rfl

theorem and_left_comm (a b c : Truth) : a.and (b.and c) = b.and (a.and c) := by
  cases a <;> cases b <;> cases c <;> rfl

@[simp] theorem yes_and (a : Truth) : Truth.yes.and a = a := by cases a <;> rfl

@[simp] theorem and_yes (a : Truth) : a.and .yes = a := by cases a <;> rfl

theorem and_eq_yes {a b : Truth} : a.and b = .yes ↔ a = .yes ∧ b = .yes := by
  cases a <;> cases b <;> decide

/-- All of a list hold; of no values it is so. -/
def all : List Truth → Truth := List.foldr and .yes

theorem all_append (front back : List Truth) : all (front ++ back) = (all front).and (all back) := by
  induction front with
  | nil => simp [all]
  | cons first rest ih =>
    simp only [all, List.cons_append, List.foldr_cons] at ih ⊢
    rw [ih, and_assoc]

theorem all_perm {some others : List Truth} (perm : some.Perm others) : all some = all others := by
  induction perm with
  | nil => rfl
  | cons value _ ih => exact congrArg value.and ih
  | swap one other rest => exact and_left_comm other one (all rest)
  | trans _ _ first second => exact first.trans second

/-- The two parts of a list hold together where the whole list does. -/
theorem all_filter {α : Type} (value : α → Truth) (inside : α → Bool) (list : List α) :
    (all ((list.filter inside).map value)).and (all ((list.filter fun a => !inside a).map value)) =
      all (list.map value) := by
  rw [← all_append, ← List.map_append]
  exact all_perm ((List.filter_append_perm inside list).map value)

end Truth

end RangeQuery
