import Mathlib.Data.List.Zip
import RangeQuery.Proofs.Graph.Mirrors

/-!
Places in copies. Two nodes have the same place below two roots if the same slots lead to them; they
are counterparts within the roots if the same slots and templates do. Below a tree each node has one
place.
-/

namespace RangeQuery

theorem mem_zip_append {α β : Type} {front back : List α} {front' back' : List β} {pair : α × β}
    (mem : pair ∈ front.zip front') : pair ∈ (front ++ back).zip (front' ++ back') := by
  induction front generalizing front' with
  | nil => simp at mem
  | cons first front ih =>
    cases front' with
    | nil => simp at mem
    | cons first' front' =>
      rw [List.zip_cons_cons, List.mem_cons] at mem
      rw [List.cons_append, List.cons_append, List.zip_cons_cons, List.mem_cons]
      exact mem.imp_right ih

theorem eq_of_mem_zip {α β : Type} {front : List α} {front' : List β} {a : α} {b c : β}
    (nodup : front.Nodup) (one : (a, b) ∈ front.zip front') (other : (a, c) ∈ front.zip front') :
    b = c := by
  induction front generalizing front' with
  | nil => simp at one
  | cons first front ih =>
    cases front' with
    | nil => simp at one
    | cons first' front' =>
      obtain ⟨absent, nodup⟩ := List.nodup_cons.mp nodup
      have later {d : β} (mem : (first, d) ∈ front.zip front') : False :=
        absent (List.of_mem_zip mem).1
      simp only [List.zip_cons_cons, List.mem_cons, Prod.mk.injEq] at one other
      rcases one with ⟨rfl, rfl⟩ | one <;> rcases other with ⟨same, rfl⟩ | other
      · rfl
      · exact (later other).elim
      · exact (later (same ▸ one)).elim
      · exact ih nodup one other

theorem mem_zip_swap {α β : Type} {front : List α} {front' : List β} {a : α} {b : β}
    (mem : (a, b) ∈ front.zip front') : (b, a) ∈ front'.zip front := by
  rw [← List.zip_swap]
  exact List.mem_map.mpr ⟨(a, b), mem, rfl⟩

theorem exists_zip_partner {α β : Type} {front : List α} {front' : List β}
    (length : front.length = front'.length) {a : α} (mem : a ∈ front) :
    ∃ b, (a, b) ∈ front.zip front' := by
  rw [← List.map_fst_zip (Nat.le_of_eq length)] at mem
  obtain ⟨⟨_, b⟩, pair, rfl⟩ := List.mem_map.mp mem
  exact ⟨b, pair⟩

namespace Graph

variable {g h k : Graph} {top copy middle copy' old new : NodeId} {target : NodeId → NodeId}

/-- A node has the place below one node that another node has below another one. -/
inductive SamePlace (g h : Graph) (top copy : NodeId) : NodeId → NodeId → Prop
  | top : SamePlace g h top copy top copy
  | down {old new child child' : NodeId} : SamePlace g h top copy old new →
      (child, child') ∈ (g.children old).zip (h.children new) →
      SamePlace g h top copy child child'

/-- A node has the place within one node, down slots and templates, that another node has within
another one. -/
inductive Counterpart (g h : Graph) (top copy : NodeId) : NodeId → NodeId → Prop
  | top : Counterpart g h top copy top copy
  | down {old new child child' : NodeId} : Counterpart g h top copy old new →
      (child, child') ∈ (g.held old).zip (h.held new) →
      Counterpart g h top copy child child'

namespace SamePlace

theorem trans (place : SamePlace g h top copy middle copy')
    (further : SamePlace g h middle copy' old new) : SamePlace g h top copy old new := by
  induction further with
  | top => exact place
  | down _ slots ih => exact ih.down slots

theorem of_children (place : SamePlace g h top copy old new)
    (children : ∀ id, k.children id = h.children id) : SamePlace g k top copy old new := by
  induction place with
  | top => exact .top
  | down _ slots ih => exact ih.down (children _ ▸ slots)

theorem reached (place : SamePlace g h top copy old new) : g.Below top old ∧ h.Below copy new := by
  induction place with
  | top => exact ⟨.refl g top, .refl h copy⟩
  | down _ slots ih =>
    obtain ⟨slot, slot'⟩ := List.of_mem_zip slots
    exact ⟨ih.1.child slot, ih.2.child slot'⟩

/-- Places stay the same while the children below the two nodes do. -/
theorem congr {g' h' : Graph} (place : SamePlace g h top copy old new)
    (same : ∀ id, g.Below top id → g'.children id = g.children id)
    (same' : ∀ id, h.Below copy id → h'.children id = h.children id) :
    SamePlace g' h' top copy old new := by
  induction place with
  | top => exact .top
  | @down old new _ _ place slots ih =>
    obtain ⟨below, below'⟩ := place.reached
    rw [← same old below, ← same' new below'] at slots
    exact ih.down slots

/-- The first step to a place. -/
theorem eq_or_pair (place : SamePlace g h top copy old new) :
    old = top ∧ new = copy ∨ ∃ middle copy', (middle, copy') ∈ (g.children top).zip (h.children copy) ∧
      SamePlace g h middle copy' old new := by
  induction place with
  | top => exact .inl ⟨rfl, rfl⟩
  | down _ slots ih =>
    rcases ih with ⟨rfl, rfl⟩ | ⟨middle, copy', first, place⟩
    · exact .inr ⟨_, _, slots, .top⟩
    · exact .inr ⟨middle, copy', first, place.down slots⟩

theorem swap (place : SamePlace g h top copy old new) : SamePlace h g copy top new old := by
  induction place with
  | top => exact .top
  | down _ slots ih => exact ih.down (mem_zip_swap slots)

/-- In a tree a node has one place. -/
theorem unique (t : g.Tree top) {other : NodeId} (place : SamePlace g h top copy old new)
    (place' : SamePlace g h top copy old other) : new = other := by
  have notTop {owner child : NodeId} (above : g.Below top owner) {slots : List NodeId}
      {child' : NodeId} (pair : (child, child') ∈ (g.children owner).zip slots) : child ≠ top :=
    t.child_ne_root above (List.of_mem_zip pair).1
  induction place generalizing other with
  | top =>
    cases place' with
    | top => rfl
    | down above pair => exact absurd rfl (notTop above.reached.1 pair)
  | down above pair ih =>
    cases place' with
    | top => exact absurd rfl (notTop above.reached.1 pair)
    | down above' pair' =>
      obtain rfl := t.owner_unique above.reached.1 above'.reached.1 (List.of_mem_zip pair).1
        (List.of_mem_zip pair').1
      obtain rfl := ih above'
      exact eq_of_mem_zip (t.nodup above.reached.1) pair pair'

theorem counterpart (place : SamePlace g h top copy old new) :
    Counterpart g h top copy old new := by
  induction place with
  | top => exact .top
  | down _ slots ih => exact ih.down (mem_zip_append slots)

/-- What has the place of a mirrored node mirrors it. -/
theorem mirrors (place : SamePlace g h top copy old new) (m : Mirrors g h target top copy) :
    Mirrors g h target old new := by
  induction place with
  | top => exact m
  | down _ slots ih => exact (List.forall₂_iff_zip.mp ih.each).2 slots

end SamePlace

namespace Mirrors

/-- A mirror has a node in every place. -/
theorem exists_image (m : Mirrors g h target top copy) {id : NodeId} (below : g.Below top id) :
    ∃ new, SamePlace g h top copy id new := by
  refine below.induction ⟨copy, .top⟩ fun owner child _ ih slot => ?_
  obtain ⟨new, place⟩ := ih
  obtain ⟨child', pair⟩ := exists_zip_partner (place.mirrors m).each.length_eq slot
  exact ⟨child', place.down pair⟩

/-- A mirror has no place that the mirrored node does not have. -/
theorem exists_origin (m : Mirrors g h target top copy) {id : NodeId} (below : h.Below copy id) :
    ∃ old, SamePlace g h top copy old id := by
  refine below.induction ⟨top, .top⟩ fun owner child _ ih slot => ?_
  obtain ⟨old, place⟩ := ih
  obtain ⟨child', pair⟩ := exists_zip_partner (place.mirrors m).each.length_eq.symm slot
  exact ⟨child', place.down (mem_zip_swap pair)⟩

end Mirrors

namespace Counterpart

theorem within (part : Counterpart g h top copy old new) :
    g.Within top old ∧ h.Within copy new := by
  induction part with
  | top => exact ⟨.here, .here⟩
  | down _ pair ih =>
    obtain ⟨mem, mem'⟩ := List.of_mem_zip pair
    exact ⟨ih.1.down mem, ih.2.down mem'⟩

theorem trans (part : Counterpart g h top copy middle copy')
    (further : Counterpart g h middle copy' old new) : Counterpart g h top copy old new := by
  induction further with
  | top => exact part
  | down _ pair ih => exact ih.down pair

theorem of_pair (pair : (middle, copy') ∈ (g.held top).zip (h.held copy))
    (further : Counterpart g h middle copy' old new) : Counterpart g h top copy old new :=
  (Counterpart.top.down pair).trans further

/-- The first step to a counterpart. -/
theorem eq_or_pair (part : Counterpart g h top copy old new) :
    old = top ∧ new = copy ∨ ∃ middle copy', (middle, copy') ∈ (g.held top).zip (h.held copy) ∧
      Counterpart g h middle copy' old new := by
  induction part with
  | top => exact .inl ⟨rfl, rfl⟩
  | down _ pair ih =>
    rcases ih with ⟨rfl, rfl⟩ | ⟨middle, copy', first, part⟩
    · exact .inr ⟨_, _, pair, .top⟩
    · exact .inr ⟨middle, copy', first, part.down pair⟩

/-- Counterparts stay while what is held within the two nodes does. -/
theorem congr {g' h' : Graph} (part : Counterpart g h top copy old new)
    (same : ∀ id, g.Within top id → g'.held id = g.held id)
    (same' : ∀ id, h.Within copy id → h'.held id = h.held id) :
    Counterpart g' h' top copy old new := by
  induction part with
  | top => exact .top
  | @down old new _ _ part pair ih =>
    obtain ⟨within, within'⟩ := part.within
    rw [← same old within, ← same' new within'] at pair
    exact ih.down pair

end Counterpart

/-- What was copied keeps its counterparts while the graph grows. -/
theorem Extends.counterpart_old (e : Extends g h) (whole : g.Whole top) :
    Counterpart h k top copy old new ↔ Counterpart g k top copy old new := by
  constructor <;> intro part
  · exact part.congr (fun id within => (e.held (whole id ((e.within_iff whole).mp within))).symm)
      fun _ _ => rfl
  · exact part.congr (fun id within => e.held (whole id within)) fun _ _ => rfl

/-- A copy keeps its counterparts while the graph grows. -/
theorem Extends.counterpart_new (e : Extends h k) (whole : h.Whole copy) :
    Counterpart g k top copy old new ↔ Counterpart g h top copy old new := by
  constructor <;> intro part
  · exact part.congr (fun _ _ => rfl)
      fun id within => (e.held (whole id ((e.within_iff whole).mp within))).symm
  · exact part.congr (fun _ _ => rfl) fun id within => e.held (whole id within)

end Graph

end RangeQuery
