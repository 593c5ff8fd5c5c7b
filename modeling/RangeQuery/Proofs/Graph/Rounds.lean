import RangeQuery.Graph.Basic

/-!
Steps in rounds. A step is taken until there is none, at most a number of times. If every step makes
some measure smaller, as many rounds as it counts leave no step to take, and further ones change
nothing.
-/

namespace RangeQuery

namespace Graph

variable {step : Graph → Option Graph} {measure : Graph → Nat} {g : Graph} {bound more : Nat}

/-- Take a step until there is none, at most a number of times; answers whether there were any. -/
def rounds (step : Graph → Option Graph) : Nat → Graph → Graph × Bool
  | 0, g => (g, false)
  | bound + 1, g =>
    match step g with
    | some h => ((rounds step bound h).1, true)
    | none => (g, false)

theorem rounds_of_eq_none (stuck : step g = none) (bound : Nat) :
    rounds step bound g = (g, false) := by
  cases bound <;> simp [rounds, stuck]

section

variable (shrinks : ∀ {g h}, step g = some h → measure h < measure g)

include shrinks

theorem eq_none_of_measure (enough : measure g ≤ 0) : step g = none := by
  cases next : step g with
  | none => rfl
  | some h =>
    have smaller := shrinks next
    omega

/-- Enough rounds leave no step to take. -/
theorem step_rounds (enough : measure g ≤ bound) : step (rounds step bound g).1 = none := by
  induction bound generalizing g with
  | zero => exact eq_none_of_measure shrinks enough
  | succ bound ih =>
    unfold rounds
    split
    · next h next =>
      have smaller := shrinks next
      exact ih (by omega)
    · next stuck => exact stuck

/-- It makes no difference how many rounds there are beyond enough. -/
theorem rounds_eq (enough : measure g ≤ bound) (enough' : measure g ≤ more) :
    rounds step bound g = rounds step more g := by
  induction bound generalizing g more with
  | zero =>
    have stuck := eq_none_of_measure shrinks enough
    rw [rounds_of_eq_none stuck, rounds_of_eq_none stuck]
  | succ bound ih =>
    cases next : step g with
    | none => rw [rounds_of_eq_none next, rounds_of_eq_none next]
    | some h =>
      have smaller := shrinks next
      cases more with
      | zero => omega
      | succ more =>
        have fewer : measure h ≤ bound := by omega
        have fewer' : measure h ≤ more := by omega
        simp only [rounds, next, ih fewer fewer']

end

end Graph

end RangeQuery
