import RangeQuery.Proofs.Scope.Reshaping
import RangeQuery.Scope.DeadJoin
import RangeQuery.Scope.Requiredness

/-!
Passes that change labels only. Deciding which ranges must have a partner row and excluding dead
ones leave every slot and every recorded owner.
-/

namespace RangeQuery

namespace Graph

section

variable {motive : Graph → Prop} {g : Graph} {pinned : List NodeId} {scope : NodeId}
  (step : ∀ {g id required}, motive g → motive (g.setRequired id required)) (start : motive g)

include step start

theorem foldl_setRequired_induction {required : Bool} (ids : List NodeId) :
    motive (ids.foldl (fun g id => g.setRequired id required) g) := by
  induction ids generalizing g with
  | nil => exact start
  | cons id rest ih => exact ih (step start)

theorem requireByFilter_induction : motive (g.requireByFilter pinned scope).1 := by
  unfold requireByFilter
  split
  · exact start
  · exact foldl_setRequired_induction step (foldl_setRequired_induction step start _) _

/-- What setting the demand for a partner row keeps, deciding on it keeps. -/
theorem decideRequired_induction {metadata : Metadata} :
    motive (g.decideRequired metadata pinned scope).1 :=
  requireByFilter_induction step (foldl_setRequired_induction step start _)

end

/-- What excluding a dead range of a scope keeps, some rounds of it keep. -/
theorem dropRounds_induction {motive : Graph → Prop} {g : Graph} {scope : NodeId}
    (step : ∀ {g dead}, dead ∈ g.includedRanges scope → g.isDead scope dead = true → motive g →
      motive (g.exclude dead)) (rounds : Nat) (start : motive g) :
    motive (dropRounds rounds g scope).1 := by
  induction rounds generalizing g with
  | zero => exact start
  | succ rounds ih =>
    unfold dropRounds
    split
    · next dead found =>
      exact ih (step (List.mem_of_find?_eq_some found) (List.find?_some found) start)
    · exact start

/-- What excluding a dead range of a scope keeps, dropping its dead joins keeps. -/
theorem dropDeadJoins_induction {motive : Graph → Prop} {g : Graph} {scope : NodeId}
    (step : ∀ {g dead}, dead ∈ g.includedRanges scope → g.isDead scope dead = true → motive g →
      motive (g.exclude dead)) (start : motive g) : motive (g.dropDeadJoins scope).1 :=
  dropRounds_induction step _ start

theorem Relabels.decideRequired (g : Graph) (metadata : Metadata) (pinned : List NodeId)
    (scope : NodeId) : Relabels g (g.decideRequired metadata pinned scope).1 :=
  decideRequired_induction (motive := Relabels g) (fun r => r.trans (.setRequired ..)) (.refl g)

theorem Relabels.dropDeadJoins (g : Graph) (scope : NodeId) :
    Relabels g (g.dropDeadJoins scope).1 :=
  dropDeadJoins_induction (motive := Relabels g) (fun _ _ r => r.trans (.exclude ..)) (.refl g)

end Graph

open RangeQuery.Graph

theorem Steady.decideRequired {α : Type} {view : Node → α} (steady : Steady view) (g : Graph)
    (metadata : Metadata) (pinned : List NodeId) (scope : NodeId) :
    Same view g (g.decideRequired metadata pinned scope).1 :=
  decideRequired_induction (motive := Same view g) (fun same => same.trans (steady.setRequired ..))
    (.refl view g)

theorem Unbound.dropDeadJoins {α : Type} {view : Node → α} (unbound : Unbound view) (g : Graph)
    (scope : NodeId) : Same view g (g.dropDeadJoins scope).1 :=
  dropDeadJoins_induction (motive := Same view g) (fun _ _ same => same.trans (unbound.exclude ..))
    (.refl view g)

end RangeQuery
