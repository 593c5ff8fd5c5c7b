import RangeQuery.Pass.Basic

/-!
Which passes run. Every pass runs unless it is switched off, and the one that places anchors
cannot be.
-/

namespace RangeQuery

/-- The switches of the optimiser. -/
structure Settings where
  existenceMarkers : Bool
  anyTests : Bool
  aggregates : Bool
  selfJoins : Bool
  requiredness : Bool
  deadJoins : Bool
  /-- Whether the text of the query before and after each pass is recorded. -/
  trace : Bool
deriving DecidableEq

namespace Settings

/-- Every pass runs, and nothing is recorded. -/
def defaults : Settings where
  existenceMarkers := true
  anyTests := true
  aggregates := true
  selfJoins := true
  requiredness := true
  deadJoins := true
  trace := false

instance : Inhabited Settings := ⟨defaults⟩

/-- Whether a pass runs. -/
def enables (s : Settings) : Pass → Bool
  | .existenceMarkers => s.existenceMarkers
  | .anyTests => s.anyTests
  | .aggregates => s.aggregates
  | .selfJoins => s.selfJoins
  | .requiredness => s.requiredness
  | .anchors => true
  | .deadJoins => s.deadJoins

/-- The settings without a pass, for a pass that can be switched off. -/
def without? (s : Settings) : Pass → Option Settings
  | .existenceMarkers => some { s with existenceMarkers := false }
  | .anyTests => some { s with anyTests := false }
  | .aggregates => some { s with aggregates := false }
  | .selfJoins => some { s with selfJoins := false }
  | .requiredness => some { s with requiredness := false }
  | .anchors => none
  | .deadJoins => some { s with deadJoins := false }

/-- Switch off the pass with a name; nothing where no pass of that name can be switched off. -/
def disable? (s : Settings) (name : String) : Option Settings := (Pass.ofName? name).bind s.without?

/-- Whether a name is not that of a pass that is switched off. -/
def isEnabled (s : Settings) (name : String) : Bool :=
  match Pass.ofName? name with
  | some pass => s.enables pass
  | none => true

/-- A pass that was switched off does not run. -/
theorem enables_without? {s t : Settings} {pass : Pass} (h : s.without? pass = some t) :
    t.enables pass = false := by
  cases pass <;> simp [without?] at h <;> subst h <;> rfl

end Settings

end RangeQuery
