import RangeQuery.Node.Basic

/-!
Renamings. A renaming tells for some nodes which node stands for them. It keeps a place for every
handle up to the largest one renamed, so an entry is written and read in one step.
-/

namespace RangeQuery

/-- Which node stands for another. The target of a node is at the place of its handle; a place
without a target, and one behind the last, renames nothing. -/
structure Renaming where
  targets : Array (Option NodeId)
deriving DecidableEq, Inhabited

namespace Renaming

/-- The renaming that renames nothing. -/
def empty : Renaming := ⟨#[]⟩

/-- What stands for a node. -/
def get? (names : Renaming) (id : NodeId) : Option NodeId := names.targets[id.index]?.join

/-- The places of a renaming, with new ones up to the place of a handle. -/
def grown (names : Renaming) (id : NodeId) : Array (Option NodeId) :=
  names.targets ++ Array.replicate (id.index + 1 - names.targets.size) none

/-- Let one node stand for another, whatever stood for it before. -/
def insert (names : Renaming) (old new : NodeId) : Renaming :=
  ⟨(names.grown old).setIfInBounds old.index (some new)⟩

/-- The renaming that a list of pairs builds up; the last pair for a node counts. -/
def ofList (pairs : List (NodeId × NodeId)) : Renaming :=
  pairs.foldl (fun names pair => names.insert pair.1 pair.2) empty

/-- The renamed nodes in the order of their handles, each with the node that stands for it. -/
def pairs (names : Renaming) : List (NodeId × NodeId) :=
  names.targets.toList.zipIdx.filterMap fun place => place.1.map fun new => (⟨place.2⟩, new)

theorem lt_size_grown (names : Renaming) (id : NodeId) : id.index < (names.grown id).size := by
  simp only [grown, Array.size_append, Array.size_replicate]
  omega

theorem getElem?_grown (names : Renaming) (id : NodeId) (index : Nat) :
    (names.grown id)[index]?.join = names.targets[index]?.join := by
  by_cases present : index < names.targets.size
  · simp [grown, Array.getElem?_append, present]
  · rw [Array.getElem?_eq_none (Nat.le_of_not_lt present)]
    simp only [grown, Array.getElem?_append, present, if_false, Array.getElem?_replicate]
    split <;> rfl

/-- The empty renaming has nothing to stand for a node. -/
theorem get?_empty (id : NodeId) : empty.get? id = none := by
  simp [empty, get?]

/-- What was entered for a node stands for it. -/
theorem get?_insert_same (names : Renaming) (old new : NodeId) :
    (names.insert old new).get? old = some new := by
  simp [insert, get?, names.lt_size_grown old]

/-- An entry for one node leaves what stands for the others. -/
theorem get?_insert_other (names : Renaming) {old id : NodeId} (ne : old ≠ id) (new : NodeId) :
    (names.insert old new).get? id = names.get? id := by
  have apart : old.index ≠ id.index := fun same => ne (by cases old; cases id; simp_all)
  rw [insert, get?, Array.getElem?_setIfInBounds_ne apart]
  exact names.getElem?_grown old id.index

end Renaming

end RangeQuery
