import RangeQuery.Predicate.Conjuncts

/-!
Two ranges over one entity that are joined by the same column read the same row. One of them takes
over the identifiers of the other, which is excluded.
-/

namespace RangeQuery

/-- Which of two ranges carries the predicate that makes them one. -/
inductive IdentityHolder where
  | kept | removed
deriving DecidableEq

/-- Two ranges that read the same row. -/
structure IdentityPair where
  kept : NodeId
  removed : NodeId
  holder : IdentityHolder
deriving DecidableEq

namespace Graph

/-- Whether a predicate sets a column of two ranges equal, in either order. -/
def isIdentityJoin (g : Graph) (predicate a b : NodeId) : Bool :=
  match g.identifierEquality? predicate with
  | some (l, r) =>
    ((l.range == a && r.range == b) || (l.range == b && r.range == a)) && a != b &&
      !l.path.isEmpty && l.field == r.field
  | none => false

/-- Whether two ranges read one entity. -/
def sameEntity (g : Graph) (a b : NodeId) : Bool :=
  (g.entity? a).isSome && g.entity? a == g.entity? b

/-- Whether the join predicate of a range makes two ranges one. -/
def holdsIdentity (g : Graph) (holder a b : NodeId) : Bool :=
  (g.join? holder).any fun join => g.isIdentityJoin join a b

/-- Two ranges as a pair that reads the same row, if they do. -/
def identityPair? (g : Graph) (a b : NodeId) : Option IdentityPair :=
  if !g.sameEntity a b then none
  else if g.holdsIdentity b a b then some { kept := a, removed := b, holder := .removed }
  else if g.holdsIdentity a a b then some { kept := a, removed := b, holder := .kept }
  else none

/-- The first pair of a list that reads the same row. -/
def findIdentity? (g : Graph) : List NodeId → Option IdentityPair
  | [] => none
  | a :: rest => (rest.findSome? (g.identityPair? a)).or (g.findIdentity? rest)

/-- Let the kept range of a pair stand in the join where the removed one stood. -/
def inheritJoin (g : Graph) (pair : IdentityPair) : Graph :=
  match g.range? pair.removed with
  | some r =>
    ((g.setJoin pair.removed none).setJoin pair.kept r.join).setRequired pair.kept r.required
  | none => g

/-- Make two ranges of a scope one. -/
def mergePair (g : Graph) (scope : NodeId) (pair : IdentityPair) : Graph :=
  let g := match pair.holder with
    | .kept => g.inheritJoin pair
    | .removed => g
  ((g.rebind scope (Renaming.empty.insert pair.removed pair.kept)).1).exclude pair.removed

/-- Make pairs of a scope one until there is none left, at most a number of times. -/
def mergeRounds : Nat → Graph → NodeId → Graph × Bool
  | 0, g, _ => (g, false)
  | rounds + 1, g, scope =>
    match g.findIdentity? (g.includedRanges scope) with
    | some pair => ((mergeRounds rounds (g.mergePair scope pair) scope).1, true)
    | none => (g, false)

/-- Make the ranges of a scope that read the same row one; each round excludes one of them.
Answers whether there were any. -/
def mergeSelfJoins (g : Graph) (scope : NodeId) : Graph × Bool :=
  mergeRounds (g.includedRanges scope).length g scope

end Graph

end RangeQuery
