import RangeQuery.Proofs.Graph.ClearCopies
import RangeQuery.Proofs.Graph.Places

/-!
What is made and entered while a node is copied. Each counterpart of a copied node holds as much as
the node does, with copies in the place of children and templates; for every node within the copied
one a counterpart is entered, and nothing is entered for any other node.
-/

namespace RangeQuery

namespace Graph

variable {g h k : Graph} {root copy id old new : NodeId}

/-! ## Ways through slots and templates -/

/-- The way from a root to a node within it, as the nodes it comes through, the nearest first. -/
inductive Way (g : Graph) (root : NodeId) : List NodeId → NodeId → Prop
  | here : Way g root [] root
  | down {way : List NodeId} {owner child : NodeId} :
      Way g root way owner → child ∈ g.held owner → Way g root (owner :: way) child

namespace Way

variable {way : List NodeId}

theorem within (w : g.Way root way id) : g.Within root id := by
  induction w with
  | here => exact .here
  | down _ mem ih => exact ih.down mem

/-- A way leads to each node that it comes through. -/
theorem exists_suffix (w : g.Way root way id) {middle : NodeId} (on : middle ∈ id :: way) :
    ∃ upper, g.Way root upper middle ∧ (middle :: upper) <:+ (id :: way) := by
  induction w with
  | here =>
    obtain rfl := List.mem_singleton.mp on
    exact ⟨[], .here, List.suffix_rfl⟩
  | down w mem ih =>
    rcases List.mem_cons.mp on with rfl | on
    · exact ⟨_, w.down mem, List.suffix_rfl⟩
    · obtain ⟨upper, above, suffix⟩ := ih on
      exact ⟨upper, above, suffix.trans (List.suffix_cons _ _)⟩

/-- What a way comes through has the end of the way within it. -/
theorem within_of_mem (w : g.Way root way id) {middle : NodeId} (on : middle ∈ id :: way) :
    g.Within middle id := by
  induction w with
  | here => exact List.mem_singleton.mp on ▸ .here
  | down _ mem ih =>
    rcases List.mem_cons.mp on with rfl | on
    · exact .here
    · exact (ih on).down mem

/-- The first step of a way. -/
theorem top (w : g.Way root way id) :
    way = [] ∧ id = root ∨
      ∃ child ∈ g.held root, ∃ rest, g.Way child rest id ∧ way = rest ++ [root] := by
  induction w with
  | here => exact .inl ⟨rfl, rfl⟩
  | @down way owner child w mem ih =>
    rcases ih with ⟨rfl, rfl⟩ | ⟨first, mem', rest, below, rfl⟩
    · exact .inr ⟨child, mem, [], .here, rfl⟩
    · exact .inr ⟨first, mem', owner :: rest, below.down mem, rfl⟩

theorem along (w : g.Way root way id) (same : ∀ id, g.Within root id → h.held id = g.held id) :
    h.Way root way id := by
  induction w with
  | here => exact .here
  | down w mem ih => exact ih.down (same _ w.within ▸ mem)

/-- A way from what a root holds is a way from the root, by one step longer. -/
theorem under {child : NodeId} (w : g.Way child way id) (mem : child ∈ g.held root) :
    g.Way root (way ++ [root]) id := by
  induction w with
  | here => exact .down .here mem
  | down _ mem' ih => exact ih.down mem'

end Way

/-- Some way within a root has at least as many steps as there are levels. -/
def Deep (g : Graph) (root : NodeId) (depth : Nat) : Prop :=
  ∃ way id, g.Way root way id ∧ depth ≤ way.length

theorem deep_zero (g : Graph) (root : NodeId) : g.Deep root 0 := ⟨[], root, .here, Nat.zero_le _⟩

theorem Deep.under {depth : Nat} {child : NodeId} (deep : g.Deep child depth)
    (mem : child ∈ g.held root) : g.Deep root (depth + 1) := by
  obtain ⟨way, id, w, long⟩ := deep
  exact ⟨way ++ [root], id, w.under mem, by simpa using long⟩

/-- What a grown graph has within an old node is as deep as it was. -/
theorem Extends.deep (e : Extends g h) (whole : g.Whole root) {depth : Nat}
    (deep : h.Deep root depth) : g.Deep root depth := by
  obtain ⟨way, id, w, long⟩ := deep
  refine ⟨way, id, w.along fun other within => ?_, long⟩
  exact (e.held (whole other ((e.within_iff whole).mp within))).symm

/-- To a node within a root leads a way that is shorter than the graph. -/
theorem Whole.exists_way (whole : g.Whole root) (within : g.Within root id) :
    ∃ way, g.Way root way id ∧ way.length < g.size := by
  -- A way that comes through no node twice.
  have once : ∃ way, g.Way root way id ∧ (id :: way).Nodup := by
    clear whole
    induction within with
    | here => exact ⟨[], .here, by simp⟩
    | @down owner child _ mem ih =>
      obtain ⟨way, w, nodup⟩ := ih
      by_cases again : child ∈ owner :: way
      · obtain ⟨upper, above, suffix⟩ := w.exists_suffix again
        exact ⟨upper, above, nodup.sublist suffix.sublist⟩
      · exact ⟨owner :: way, w.down mem, List.nodup_cons.mpr ⟨again, nodup⟩⟩
  obtain ⟨way, w, nodup⟩ := once
  refine ⟨way, w, length_le_of_nodup nodup fun member on => whole member ?_⟩
  obtain ⟨upper, above, -⟩ := w.exists_suffix on
  exact above.within

/-! ## Doubles -/

/-- A node was made by copying another one: it is the same over as many children and templates. -/
def Refilled (g h : Graph) (old new : NodeId) : Prop :=
  (h.children new).length = (g.children old).length ∧
    (h.node new).templateBodies.length = (g.node old).templateBodies.length ∧
    h.node new =
      ((g.node old).withChildren (h.children new)).withTemplateBodies (h.node new).templateBodies

/-- A node was made by copying another one, or was cut off. -/
def Refills (g h : Graph) (old new : NodeId) : Prop := h.node new = .null ∨ Refilled g h old new

/-- What mirrors a node was not cut off, so it holds as many templates as the node. -/
theorem Refills.node_eq {draft : Graph} {target : NodeId → NodeId}
    (refills : Refills g draft old new) (m : Mirrors g h target old new)
    (written : h.node new = (draft.node new).reading target) :
    ∃ bodies : List NodeId, bodies.length = (g.node old).templateBodies.length ∧
      h.node new = (((g.node old).reading target).withChildren
        (h.children new)).withTemplateBodies bodies := by
  rcases refills with cut | ⟨-, length, node⟩
  · cases m with
    | intro kids bodies shown _ _ =>
      rw [written, cut] at shown
      have null : g.node old = .null := by
        cases kind : g.node old <;> rw [kind] at shown <;> cases shown
      exact ⟨[], by rw [null]; rfl, by rw [written, cut, null]; rfl⟩
  · have slots : h.children new = draft.children new := by
      rw [children, written, Node.children_reading, children]
    refine ⟨_, length, ?_⟩
    calc h.node new
      _ = (draft.node new).reading target := written
      _ = ((((g.node old).reading id).withChildren (draft.children new)).withTemplateBodies
            (draft.node new).templateBodies).reading target := by
        rw [Node.reading_id]
        exact congrArg (Node.reading target) node
      _ = _ := by
        rw [Node.reading_filled, slots]
        rfl

/-- Only identifiers are copied to identifiers. -/
theorem Refills.identifier (refills : Refills g h old new) {i : Identifier}
    (node : h.node new = .identifier i) : g.node old = .identifier i := by
  rcases refills with cut | ⟨-, -, filled⟩
  · rw [cut] at node
    cases node
  · apply Node.label_eq_identifier
    rw [← Node.slotless_label.children (g.node old) (h.children new),
      ← Node.label_withTemplateBodies _ (h.node new).templateBodies, ← filled, node]
    rfl

/-- A renaming tells a new node for another one, which is a counterpart of it within one of some
copies. -/
def Paired (g h : Graph) (names : Renaming) (roots copies : List NodeId) (id : NodeId) : Prop :=
  ∃ new, names.get? id = some new ∧ ¬ g.Has new ∧
    ∃ root copy, (root, copy) ∈ roots.zip copies ∧ Counterpart g h root copy id new

variable {names names' names'' : Renaming} {roots roots' copies copies' : List NodeId} {depth : Nat}

/-- Nodes were copied as far as a number of levels: what was made refills what was copied, or was cut
off for want of levels, and all that is met on the way is paired, and nothing else. -/
structure Doubles (depth : Nat) (g : Graph) (names : Renaming) (h : Graph) (names' : Renaming)
    (roots copies : List NodeId) : Prop where
  length : copies.length = roots.length
  refilled_or_cut : ∀ {root copy old new}, (root, copy) ∈ roots.zip copies →
    Counterpart g h root copy old new →
      Refilled g h old new ∨ h.node new = .null ∧ g.Deep root depth
  or_kept : ∀ id, names'.get? id = names.get? id ∨ Paired g h names' roots copies id
  met : ∀ root ∈ roots, ∀ way id, g.Way root way id → way.length < depth →
    Paired g h names' roots copies id

theorem Refilled.congr {g' h' : Graph} (r : Refilled g h old new) (same : g'.node old = g.node old)
    (same' : h'.node new = h.node new) : Refilled g' h' old new := by
  rw [Refilled, children, children, same, same']
  exact r

namespace Doubles

theorem refills (d : Doubles depth g names h names' roots copies)
    (pair : (root, copy) ∈ roots.zip copies) (part : Counterpart g h root copy old new) :
    Refills g h old new :=
  (d.refilled_or_cut pair part).symm.imp_left And.left

/-- More copies after the others. -/
theorem append (a : Doubles depth g names h names' roots copies)
    (b : Doubles depth h names' k names'' roots' copies') (c : Grove g h copies)
    (d : Grove h k copies') (whole : ∀ root ∈ roots', g.Whole root) :
    Doubles depth g names k names'' (roots ++ roots') (copies ++ copies') := by
  have zip : (roots ++ roots').zip (copies ++ copies') = roots.zip copies ++ roots'.zip copies' :=
    List.zip_append a.length.symm
  have earlier : ∀ {id}, Paired g h names' roots copies id → names''.get? id = names'.get? id →
      Paired g k names'' (roots ++ roots') (copies ++ copies') id := by
    rintro id ⟨new, found, fresh, root, copy, pair, part⟩ same
    refine ⟨new, same.trans found, fresh, root, copy, zip ▸ List.mem_append_left _ pair, ?_⟩
    exact (d.beside.counterpart_new (c.whole (List.of_mem_zip pair).2)).mpr part
  have later : ∀ {id}, Paired h k names'' roots' copies' id →
      Paired g k names'' (roots ++ roots') (copies ++ copies') id := by
    rintro id ⟨new, found, fresh, root, copy, pair, part⟩
    refine ⟨new, found, fun had => fresh (c.beside.has had), root, copy,
      zip ▸ List.mem_append_right _ pair, ?_⟩
    exact (c.beside.counterpart_old (whole root (List.of_mem_zip pair).1)).mp part
  refine ⟨by simp [a.length, b.length], ?_, fun id => ?_, ?_⟩
  · intro root copy old new pair part
    rcases List.mem_append.mp (zip ▸ pair) with pair | pair
    · have tree := c.whole (List.of_mem_zip pair).2
      have part := (d.beside.counterpart_new tree).mp part
      have same := d.beside.node (tree _ part.within.2)
      rcases a.refilled_or_cut pair part with made | ⟨cut, deep⟩
      · exact .inl (made.congr rfl same)
      · exact .inr ⟨same.trans cut, deep⟩
    · have tree := whole root (List.of_mem_zip pair).1
      rcases b.refilled_or_cut pair ((c.beside.counterpart_old tree).mpr part) with made | ⟨cut, deep⟩
      · exact .inl (made.congr (c.beside.node (tree _ part.within.1)).symm rfl)
      · exact .inr ⟨cut, c.beside.deep tree deep⟩
  · rcases b.or_kept id with same | paired
    · exact (a.or_kept id).imp same.trans fun paired => earlier paired same
    · exact .inr (later paired)
  · intro root mem way id w short
    rcases List.mem_append.mp mem with mem | mem
    · have paired := a.met root mem way id w short
      exact (b.or_kept id).elim (earlier paired) later
    · have w := w.along fun id within => c.beside.held (whole root mem id within)
      exact later (b.met root mem way id w short)

/-- A new node refills another one with the copies of what that one holds, and is entered for it. -/
theorem add {kids bodies : List NodeId}
    (a : Doubles depth g names h names' (g.held id) (kids ++ bodies))
    (c : Grove g h (kids ++ bodies)) (length : kids.length = (g.children id).length)
    (length' : bodies.length = (g.node id).templateBodies.length) :
    Doubles (depth + 1) g names
      (h.add (((g.node id).withChildren kids).withTemplateBodies bodies)).1
      (names'.insert id h.next) [id] [h.next] := by
  have slots := Node.children_filled (g.node id) length bodies
  have templates := Node.templateBodies_filled (g.node id) kids length'
  generalize filled : ((g.node id).withChildren kids).withTemplateBodies bodies = node
    at slots templates
  have holds : (h.add node).1.held h.next = kids ++ bodies := by
    rw [held, children, node_add_next, slots, templates]
  have later {root copy old new : NodeId} (mem : copy ∈ kids ++ bodies) :
      Counterpart g (h.add node).1 root copy old new ↔ Counterpart g h root copy old new := by
    constructor <;> intro part
    · exact part.congr (fun _ _ => rfl)
        fun id within => (held_add (c.whole mem id ((within_add_iff (c.whole mem)).mp within))).symm
    · exact part.congr (fun _ _ => rfl) fun id within => held_add (c.whole mem id within)
  have self : Paired g (h.add node).1 (names'.insert id h.next) [id] [h.next] id :=
    ⟨h.next, Renaming.get?_insert_same .., fun had => h.not_has_next (c.beside.has had), id, h.next,
      by simp, .top⟩
  have lower : ∀ {other}, id ≠ other → Paired g h names' (g.held id) (kids ++ bodies) other →
      Paired g (h.add node).1 (names'.insert id h.next) [id] [h.next] other := by
    rintro other ne ⟨new, found, fresh, root, copy, pair, part⟩
    refine ⟨new, (Renaming.get?_insert_other _ ne _).trans found, fresh, id, h.next, by simp, ?_⟩
    exact .of_pair (holds ▸ pair) ((later (List.of_mem_zip pair).2).mpr part)
  refine ⟨rfl, ?_, fun other => ?_, ?_⟩
  · intro root copy old new pair part
    obtain ⟨rfl, rfl⟩ : root = id ∧ copy = h.next := by simpa using pair
    rcases part.eq_or_pair with ⟨rfl, rfl⟩ | ⟨middle, copy', pair, part⟩
    · refine .inl ?_
      rw [Refilled, children, node_add_next, slots, templates]
      exact ⟨length, length', filled.symm⟩
    · rw [holds] at pair
      obtain ⟨held, mem⟩ := List.of_mem_zip pair
      have part := (later mem).mp part
      have same := node_add (c.whole mem _ part.within.2) node
      rcases a.refilled_or_cut pair part with made | ⟨cut, deep⟩
      · exact .inl (made.congr rfl same)
      · exact .inr ⟨same.trans cut, deep.under held⟩
  · by_cases same : id = other
    · exact .inr (same ▸ self)
    · rw [Renaming.get?_insert_other _ same]
      exact (a.or_kept other).imp_right (lower same)
  · intro root mem way other w short
    obtain rfl := List.mem_singleton.mp mem
    by_cases same : root = other
    · exact same ▸ self
    · rcases w.top with ⟨_, rfl⟩ | ⟨child, mem, rest, below, rfl⟩
      · exact absurd rfl same
      · exact lower same (a.met child mem rest other below (by simpa using short))

end Doubles

theorem doubles_copyEach {copy : Graph → Renaming → NodeId → Graph × Renaming × NodeId}
    (one : ∀ g names id, Grove g (copy g names id).1 [(copy g names id).2.2])
    (doubles : ∀ g names id, g.Whole id → Doubles depth g names (copy g names id).1
      (copy g names id).2.1 [id] [(copy g names id).2.2])
    (g : Graph) (names : Renaming) (ids : List NodeId) (whole : ∀ id ∈ ids, g.Whole id) :
    Doubles depth g names (copyEach copy g names ids).1 (copyEach copy g names ids).2.1 ids
      (copyEach copy g names ids).2.2 := by
  induction ids generalizing g names with
  | nil => exact ⟨rfl, by simp, fun _ => .inl rfl, by simp⟩
  | cons id rest ih =>
    have first := one g names id
    have others := grove_copyEach one (copy g names id).1 (copy g names id).2.1 rest
    refine (doubles g names id (whole id (by simp))).append (ih _ _ fun other mem => ?_) first
      others fun other mem => whole other (by simp [mem])
    exact first.beside.whole (whole other (by simp [mem]))

/-- A copy of a node, as far as a number of levels. -/
theorem doubles_copyLevels (depth : Nat) (g : Graph) (names : Renaming) {id : NodeId}
    (whole : g.Whole id) :
    Doubles depth g names (copyLevels depth g names id).1 (copyLevels depth g names id).2.1 [id]
      [(copyLevels depth g names id).2.2] := by
  induction depth generalizing g names id with
  | zero =>
    have cut : (copyLevels 0 g names id).1.node (copyLevels 0 g names id).2.2 = .null :=
      g.node_add_next .null
    refine ⟨rfl, fun {root copy old new} pair part => ?_, fun _ => .inl rfl, by simp⟩
    obtain ⟨rfl, rfl⟩ : root = id ∧ copy = (copyLevels 0 g names id).2.2 := by simpa using pair
    rcases part.eq_or_pair with ⟨rfl, rfl⟩ | ⟨_, _, pair, -⟩
    · exact .inr ⟨cut, g.deep_zero old⟩
    · have mem := (List.of_mem_zip pair).2
      rw [held, children, cut] at mem
      cases mem
  | succ depth ih =>
    have lower : ∀ other ∈ g.held id, g.Whole other := fun other mem =>
      whole.within (within_of_held mem)
    have grove := grove_copyEach (grove_copyLevels depth) g names (g.node id).children
    have grove' := grove_copyEach (grove_copyLevels depth)
      (copyEach (copyLevels depth) g names (g.node id).children).1
      (copyEach (copyLevels depth) g names (g.node id).children).2.1 (g.node id).templateBodies
    have children := doubles_copyEach (grove_copyLevels depth) (fun g names id => ih g names) g
      names (g.node id).children fun other mem => lower other (List.mem_append_left _ mem)
    have bodies := doubles_copyEach (grove_copyLevels depth) (fun g names id => ih g names)
      (copyEach (copyLevels depth) g names (g.node id).children).1
      (copyEach (copyLevels depth) g names (g.node id).children).2.1
      (g.node id).templateBodies fun other mem =>
        grove.beside.whole (lower other (List.mem_append_right _ mem))
    exact (children.append bodies grove grove'
      fun other mem => lower other (List.mem_append_right _ mem)).add (grove.append grove')
      (length_copyEach ..) (length_copyEach ..)

/-! ## The copy of a node -/

theorem counterpart_rebind {start : NodeId} {names : Renaming} :
    Counterpart g (h.rebind start names).1 root copy old new ↔ Counterpart g h root copy old new :=
  ⟨fun part => part.congr (fun _ _ => rfl) fun id _ => (held_rebind h start names id).symm,
    fun part => part.congr (fun _ _ => rfl) fun id _ => held_rebind h start names id⟩

/-- A counterpart with as many children and templates is in the same place, or hangs in a
template. -/
theorem Counterpart.samePlace_or_within (part : Counterpart g h root copy old new)
    (refills : ∀ {old new}, Counterpart g h root copy old new →
      h.held new = [] ∨ (h.children new).length = (g.children old).length) :
    SamePlace g h root copy old new ∨
      ∃ owner body, g.Within root owner ∧ body ∈ (g.node owner).templateBodies ∧
        g.Within body old := by
  induction part with
  | top => exact .inl .top
  | @down old new child child' part pair ih =>
    rcases refills part with none | length
    · simp [none] at pair
    · rw [held, held, List.zip_append length.symm] at pair
      rcases List.mem_append.mp pair with slots | templates
      · rcases ih with place | ⟨owner, body, above, mem, within⟩
        · exact .inl (place.down slots)
        · exact .inr ⟨owner, body, above, mem,
            within.down (List.mem_append_left _ (List.of_mem_zip slots).1)⟩
      · exact .inr ⟨old, child, part.within.1, (List.of_mem_zip templates).1, .here⟩

/-- What is within a copy is a counterpart of something. -/
theorem exists_counterpart
    (refills : ∀ {old new}, Counterpart g h root copy old new → Refills g h old new)
    (within : h.Within copy new) : ∃ old, Counterpart g h root copy old new := by
  induction within with
  | here => exact ⟨root, .top⟩
  | @down owner child _ mem ih =>
    obtain ⟨old, part⟩ := ih
    rcases refills part with cut | ⟨length, length', -⟩
    · rw [held, children, cut] at mem
      cases mem
    · have same : (h.held owner).length = (g.held old).length := by simp [held, length, length']
      obtain ⟨child', pair⟩ := exists_zip_partner same mem
      exact ⟨child', part.down (mem_zip_swap pair)⟩

section

variable {names : Renaming}

/-- What was made for the counterparts in a copy, before its identifiers were pointed elsewhere. -/
theorem Whole.refills_copyWith (whole : g.Whole root)
    (part : Counterpart g (g.copyWith root names).1 root (g.copyWith root names).2 old new) :
    Refills g (copyLevels g.size g names root).1 old new :=
  (doubles_copyLevels g.size g names whole).refills (.head _) (counterpart_rebind.mp part)

/-- A counterpart holds nothing, or has as many children. -/
theorem Whole.slots_copyWith (whole : g.Whole root)
    (part : Counterpart g (g.copyWith root names).1 root (g.copyWith root names).2 old new) :
    (g.copyWith root names).1.held new = [] ∨
      ((g.copyWith root names).1.children new).length = (g.children old).length := by
  have relabels := (Relabels.rebind (copyLevels g.size g names root).1
    (copyLevels g.size g names root).2.2 (copyLevels g.size g names root).2.1).children new
  rcases whole.refills_copyWith part with cut | ⟨length, -, -⟩
  · refine .inl ((held_rebind ..).trans ?_)
    rw [held, children, cut]
    rfl
  · exact .inr ((congrArg List.length relabels).trans length)

/-- What is within a node is read in the copy where a counterpart of it is. -/
theorem Whole.inside_copyWith (whole : g.Whole root) (names : Renaming) (within : g.Within root id) :
    ¬ g.Has ((copyLevels g.size g names root).2.1.apply id) ∧
      Counterpart g (g.copyWith root names).1 root (g.copyWith root names).2 id
        ((copyLevels g.size g names root).2.1.apply id) := by
  obtain ⟨way, w, short⟩ := whole.exists_way within
  obtain ⟨new, found, fresh, _, _, pair, part⟩ :=
    (doubles_copyLevels g.size g names whole).met root (by simp) way id w short
  obtain ⟨rfl, rfl⟩ := Prod.mk.inj (List.mem_singleton.mp pair)
  rw [Renaming.apply_of_get? found]
  exact ⟨fresh, counterpart_rebind.mpr part⟩

/-- What is not within a node is read in the copy as the renaming tells. -/
theorem Whole.outside_copyWith (whole : g.Whole root) (names : Renaming)
    (outside : ¬ g.Within root id) :
    (copyLevels g.size g names root).2.1.apply id = names.apply id := by
  rcases (doubles_copyLevels g.size g names whole).or_kept id with
    same | ⟨_, -, -, _, _, pair, part⟩
  · rw [Renaming.apply, same, Renaming.apply]
  · obtain ⟨rfl, rfl⟩ := Prod.mk.inj (List.mem_singleton.mp pair)
    exact absurd part.within.1 outside

/-- The identifiers below a copy are pointed at what was entered, and no other node is written. -/
theorem node_copyWith (g : Graph) (root : NodeId) (names : Renaming) (id : NodeId)
    [Decidable ((g.copyWith root names).1.Below (g.copyWith root names).2 id)] :
    (g.copyWith root names).1.node id =
      if (g.copyWith root names).1.Below (g.copyWith root names).2 id then
        ((copyLevels g.size g names root).1.node id).reading
          (copyLevels g.size g names root).2.1.apply
      else (copyLevels g.size g names root).1.node id := by
  classical
  have linked := ((grove_copyLevels g.size g names root).clear _ (List.mem_singleton_self _)).linked
  have below : (g.copyWith root names).1.Below (g.copyWith root names).2 id ↔
      (copyLevels g.size g names root).1.Below (copyLevels g.size g names root).2.2 id :=
    (Relabels.rebind ..).below
  refine (linked.node_rebind (Below.refl _ _) _ id).trans ?_
  simp only [below, Node.renamed_eq_reading]

end

end Graph

end RangeQuery
