import RangeQuery.Proofs.Graph.Copying

/-!
Copies as mirrors. A copy shows again what was copied, slot by slot. Its identifiers read what stands
for the ranges that the old ones read: a node inside the copy where the range was copied as well, and
else what the given renaming tells.
-/

namespace RangeQuery

/-- What stands for a node under a renaming, the node itself if nothing else does. -/
def Renaming.apply (names : Renaming) (id : NodeId) : NodeId := (names.get? id).getD id

theorem Renaming.apply_of_get? {names : Renaming} {id new : NodeId}
    (found : names.get? id = some new) : names.apply id = new := by
  rw [apply, found, Option.getD_some]

theorem Renaming.apply_of_none {names : Renaming} {id : NodeId} (none : names.get? id = none) :
    names.apply id = id := by
  rw [apply, none, Option.getD_none]

namespace Node

/-- The same node; an identifier reads what stands for its range. -/
def reading (target : NodeId → NodeId) : Node → Node
  | .identifier i => .identifier { i with range := target i.range }
  | node => node

theorem renamed_eq_reading (names : Renaming) (node : Node) :
    node.renamed names = node.reading names.apply := by
  cases node <;> rfl

theorem reading_id (node : Node) : node.reading id = node := by
  cases node <;> rfl

theorem children_reading (target : NodeId → NodeId) (node : Node) :
    (node.reading target).children = node.children := by
  cases node <;> rfl

theorem reading_filled (target again : NodeId → NodeId) (node : Node) (kids bodies : List NodeId) :
    (((node.reading target).withChildren kids).withTemplateBodies bodies).reading again =
      ((node.reading (again ∘ target)).withChildren kids).withTemplateBodies bodies := by
  cases node <;> rfl

theorem isAnd_filled (target : NodeId → NodeId) (node : Node) (kids bodies : List NodeId) :
    (((node.reading target).withChildren kids).withTemplateBodies bodies).isAnd = node.isAnd := by
  cases node with
  | binary op _ _ => cases op <;> rfl
  | _ => rfl

theorem templateBodies_withTemplateBodies {node : Node} {bodies : List NodeId}
    (length : bodies.length = node.templateBodies.length) :
    (node.withTemplateBodies bodies).templateBodies = bodies := by
  cases node with
  | retrieve r =>
    have entries : bodies.length ≤ r.templates.entries.length := by
      simpa [templateBodies, NameTable.values] using Nat.le_of_eq length
    have second : ((r.templates.entries.zip bodies).map Prod.snd) = bodies :=
      List.map_snd_zip entries
    simpa [withTemplateBodies, templateBodies, NameTable.withValues, NameTable.values,
      List.map_zipWith, List.zip] using second
  | _ => exact (List.length_eq_zero_iff.mp length).symm

end Node

namespace Graph

variable {g h k : Graph} {root : NodeId}

/-! ## What a node holds -/

/-- The handles that a node holds: its children and the bodies of its templates. -/
def held (g : Graph) (id : NodeId) : List NodeId := g.children id ++ (g.node id).templateBodies

/-- A node is reached from a root through slots and templates. -/
inductive Within (g : Graph) (root : NodeId) : NodeId → Prop
  | here : Within g root root
  | down {owner child : NodeId} : Within g root owner → child ∈ g.held owner → Within g root child

/-- Everything within a node has a slot. -/
def Whole (g : Graph) (root : NodeId) : Prop := ∀ id, g.Within root id → g.Has id

theorem has_of_held {owner child : NodeId} (mem : child ∈ g.held owner) : g.Has owner := by
  by_contra absent
  rw [held, children, node_of_not_has absent] at mem
  simp [Node.children, Node.templateBodies] at mem

theorem Below.within {id : NodeId} (below : g.Below root id) : g.Within root id :=
  below.induction .here fun _ _ _ ih slot => ih.down (List.mem_append_left _ slot)

theorem Within.trans {middle id : NodeId} (first : g.Within root middle)
    (second : g.Within middle id) : g.Within root id := by
  induction second with
  | here => exact first
  | down _ mem ih => exact ih.down mem

theorem within_of_held {id : NodeId} (mem : id ∈ g.held root) : g.Within root id :=
  .down .here mem

theorem Whole.within {id : NodeId} (whole : g.Whole root) (within : g.Within root id) :
    g.Whole id := fun _ further => whole _ (within.trans further)

theorem Whole.grounded (whole : g.Whole root) : g.Grounded root :=
  fun id below => whole id below.within

/-- Where no template hangs below a node, what is within it is below it. -/
theorem Within.below_of_plain {id : NodeId} (within : g.Within root id)
    (plain : ∀ id, g.Below root id → (g.node id).templateBodies = []) : g.Below root id := by
  induction within with
  | here => exact .refl g root
  | down _ mem ih =>
    rw [held, plain _ ih, List.append_nil] at mem
    exact ih.child mem

theorem Grounded.whole (grounded : g.Grounded root)
    (plain : ∀ id, g.Below root id → (g.node id).templateBodies = []) : g.Whole root :=
  fun id within => grounded id (within.below_of_plain plain)

/-- What is held along the way is all that counts. -/
theorem Within.along {id : NodeId} (within : g.Within root id)
    (same : ∀ owner, g.Has owner → h.held owner = g.held owner) : h.Within root id := by
  induction within with
  | here => exact .here
  | down _ mem ih => exact ih.down (same _ (has_of_held mem) ▸ mem)

namespace Extends

theorem held (e : Extends g h) {id : NodeId} (has : g.Has id) : h.held id = g.held id := by
  rw [Graph.held, Graph.held, e.children has, e.node has]

theorem within (e : Extends g h) {id : NodeId} (within : g.Within root id) : h.Within root id :=
  within.along fun _ has => e.held has

theorem within_iff (e : Extends g h) (whole : g.Whole root) {id : NodeId} :
    h.Within root id ↔ g.Within root id := by
  constructor
  · intro within
    induction within with
    | here => exact .here
    | down _ mem ih => exact ih.down (e.held (whole _ ih) ▸ mem)
  · exact e.within

theorem whole (e : Extends g h) (whole : g.Whole root) : h.Whole root :=
  fun id within => e.has (whole id ((e.within_iff whole).mp within))

end Extends

/-! ## Mirrors -/

/-- A node shows another one again, and all below it slot by slot; the identifiers read what stands
for the ranges that the old ones read. Templates are not compared. -/
inductive Mirrors (g h : Graph) (target : NodeId → NodeId) : NodeId → NodeId → Prop
  | intro {old new : NodeId} (kids bodies : List NodeId) :
      h.node new = (((g.node old).reading target).withChildren kids).withTemplateBodies bodies →
      kids.length = (g.children old).length →
      (∀ a b, (a, b) ∈ (g.children old).zip kids → Mirrors g h target a b) →
      Mirrors g h target old new

namespace Mirrors

variable {target : NodeId → NodeId} {old new : NodeId}

theorem children_of_node {kids bodies : List NodeId}
    (node : h.node new =
      (((g.node old).reading target).withChildren kids).withTemplateBodies bodies)
    (length : kids.length = (g.children old).length) : h.children new = kids := by
  rw [children, node, Node.children_withTemplateBodies, Node.children_withChildren]
  rw [Node.children_reading]
  exact length

/-- The children are mirrored in their order. -/
theorem each (m : Mirrors g h target old new) :
    List.Forall₂ (Mirrors g h target) (g.children old) (h.children new) := by
  cases m with
  | intro kids bodies node length all =>
    rw [children_of_node node length]
    exact List.forall₂_iff_zip.mpr ⟨length.symm, fun mem => all _ _ mem⟩

/-- A mirror in which the identifiers were pointed elsewhere is one all the same. -/
theorem reading (m : Mirrors g h target old new) (again : NodeId → NodeId)
    (renamed : ∀ id, h.Below new id → k.node id = (h.node id).reading again) :
    Mirrors g k (again ∘ target) old new := by
  induction m with
  | @intro old new kids bodies node length _ ih =>
    have slots := children_of_node node length
    refine .intro kids bodies ?_ length fun a b mem => ih a b mem fun id below => ?_
    · rw [renamed new (Below.refl h new), node, Node.reading_filled]
    · refine renamed id (Below.trans (below_of_child ?_) below)
      rw [slots]
      exact (List.of_mem_zip mem).2

/-- A mirror stays one while its nodes do. -/
theorem grow (m : Mirrors g h target old new)
    (same : ∀ id, h.Below new id → k.node id = h.node id) : Mirrors g k target old new :=
  m.reading id fun id below => by rw [Node.reading_id, same id below]

/-- What mirrors a node of a grown graph mirrors the old node. -/
theorem shrink (m : Mirrors h k target old new) (e : Extends g h) (grounded : g.Grounded old) :
    Mirrors g k target old new := by
  induction m with
  | @intro old new kids bodies node length _ ih =>
    have has := grounded old (Below.refl g old)
    rw [e.node has] at node
    rw [e.children has] at length ih
    refine .intro kids bodies node length fun a b mem => ih a b mem ?_
    exact grounded.below (below_of_child (List.of_mem_zip mem).1)

/-- A copy with all its levels is a mirror. -/
theorem of_copies {depth : Nat} (c : Copies g h depth old new)
    (deep : ∀ trail id, g.Trail old trail id → trail.length < depth) :
    Mirrors g h id old new := by
  induction depth generalizing old new with
  | zero => exact absurd (deep [] old .here) (Nat.not_lt_zero _)
  | succ depth ih =>
    obtain ⟨⟨bodies, node⟩, pairs⟩ := c
    obtain ⟨length, all⟩ := List.forall₂_iff_zip.mp pairs
    refine .intro (h.children new) bodies (by rw [Node.reading_id]; exact node) length.symm ?_
    intro a b mem
    refine ih (all mem) fun trail id way => ?_
    have short := deep _ id ((Trail.here.down (List.of_mem_zip mem).1).append way)
    rw [List.length_append, List.length_singleton] at short
    omega

/-- What is reached from a mirror mirrors something reached from the old node. -/
theorem source (m : Mirrors g h target old new) {id : NodeId} (below : h.Below new id) :
    ∃ origin, g.Below old origin ∧ Mirrors g h target origin id := by
  refine below.induction ⟨old, Below.refl g old, m⟩ fun owner child _ ih slot => ?_
  obtain ⟨origin, above, mirror⟩ := ih
  obtain ⟨index, inside, rfl⟩ := List.mem_iff_getElem.mp slot
  have pairs := mirror.each
  have within : index < (g.children origin).length := by rw [pairs.length_eq]; exact inside
  exact ⟨_, above.child (List.getElem_mem within), pairs.get within inside⟩

/-- What is reached from the old node is mirrored by something reached from the mirror. -/
theorem shown (m : Mirrors g h target old new) {origin : NodeId} (below : g.Below old origin) :
    ∃ id, h.Below new id ∧ Mirrors g h target origin id := by
  refine below.induction ⟨new, Below.refl h new, m⟩ fun owner child _ ih slot => ?_
  obtain ⟨id, above, mirror⟩ := ih
  obtain ⟨index, inside, rfl⟩ := List.mem_iff_getElem.mp slot
  have pairs := mirror.each
  have within : index < (h.children id).length := by rw [← pairs.length_eq]; exact inside
  exact ⟨_, above.child (List.getElem_mem within), pairs.get inside within⟩

/-- A mirrored identifier reads what stands for the range of the old one. -/
theorem identifier (m : Mirrors g h target old new) {i : Identifier}
    (node : h.node new = .identifier i) :
    ∃ i', g.node old = .identifier i' ∧ i = { i' with range := target i'.range } := by
  cases m with
  | intro kids bodies shown _ _ =>
    rw [node] at shown
    cases was : g.node old with
    | identifier i' =>
      rw [was] at shown
      exact ⟨i', rfl, Node.identifier.inj shown⟩
    | _ => rw [was] at shown; cases shown

/-- A mirrored range has the slots of the old one, and what hangs in them is mirrored. -/
theorem range (m : Mirrors g h target old new) {r : Range} (node : g.node old = .range r) :
    ∃ r', h.node new = .range r' ∧
      List.Forall₂ (Mirrors g h target) r.join.toList r'.join.toList ∧
      List.Forall₂ (Mirrors g h target) r.nested.toList r'.nested.toList := by
  have pairs := m.each
  cases m with
  | intro kids bodies shown length _ =>
    rw [children_of_node shown length, children, node] at pairs
    rw [node] at shown
    refine ⟨r.withChildren kids, shown, ?_⟩
    obtain ⟨name, entity, join, required, included, nested⟩ := r
    cases join <;> cases nested <;>
      simp only [Node.children, Option.toList, List.nil_append, List.cons_append,
        List.forall₂_cons_left_iff, List.forall₂_nil_left_iff] at pairs
    · simp [Range.withChildren]
    · obtain ⟨query, _, mirror, rfl, rfl⟩ := pairs
      simpa [Range.withChildren] using mirror
    · obtain ⟨join, _, mirror, rfl, rfl⟩ := pairs
      simpa [Range.withChildren] using mirror
    · obtain ⟨join, _, mirror, ⟨query, _, mirror', rfl, rfl⟩, rfl⟩ := pairs
      simpa [Range.withChildren] using ⟨mirror, mirror'⟩

theorem isAnd (m : Mirrors g h target old new) : (h.node new).isAnd = (g.node old).isAnd := by
  cases m with
  | intro kids bodies node _ _ => rw [node, Node.isAnd_filled]

end Mirrors

/-! ## What stands for copied nodes -/

variable {names names' names'' : Renaming} {roots roots' copies copies' : List NodeId} {depth : Nat}

/-- A renaming tells a new node, inside one of some copies, for a node that was copied. -/
def Entered (g h : Graph) (names : Renaming) (roots copies : List NodeId) (id : NodeId) : Prop :=
  ∃ copy, names.get? id = some copy ∧ ¬ g.Has copy ∧ (∃ root ∈ roots, g.Within root id) ∧
    ∃ top ∈ copies, h.Within top copy

/-- What becomes of a renaming while some nodes are copied, as far as a number of levels: all that
is met below them is entered, and nothing else but what their templates hold. -/
structure Enters (depth : Nat) (g : Graph) (names : Renaming) (h : Graph) (names' : Renaming)
    (roots copies : List NodeId) : Prop where
  or_kept : ∀ id, names'.get? id = names.get? id ∨ Entered g h names' roots copies id
  met : ∀ root ∈ roots, ∀ trail id, g.Trail root trail id → trail.length < depth →
    Entered g h names' roots copies id

namespace Enters

/-- More copies after the others. -/
theorem append (a : Enters depth g names h names' roots copies)
    (b : Enters depth h names' k names'' roots' copies') (e : Extends g h) (f : Extends h k)
    (whole : ∀ root ∈ roots', g.Whole root) :
    Enters depth g names k names'' (roots ++ roots') (copies ++ copies') := by
  have earlier : ∀ {id}, Entered g h names' roots copies id →
      names''.get? id = names'.get? id →
        Entered g k names'' (roots ++ roots') (copies ++ copies') id := by
    rintro id ⟨copy, found, new, ⟨root, mem, within⟩, top, mem', inside⟩ same
    exact ⟨copy, same.trans found, new, ⟨root, List.mem_append_left _ mem, within⟩, top,
      List.mem_append_left _ mem', f.within inside⟩
  have later : ∀ {id}, Entered h k names'' roots' copies' id →
      Entered g k names'' (roots ++ roots') (copies ++ copies') id := by
    rintro id ⟨copy, found, new, ⟨root, mem, within⟩, top, mem', inside⟩
    exact ⟨copy, found, fun had => new (e.has had), ⟨root, List.mem_append_right _ mem,
      (e.within_iff (whole root mem)).mp within⟩, top, List.mem_append_right _ mem', inside⟩
  constructor
  · intro id
    rcases b.or_kept id with same | entered
    · exact (a.or_kept id).imp same.trans fun entered => earlier entered same
    · exact .inr (later entered)
  · intro root mem trail id way short
    rcases List.mem_append.mp mem with mem | mem
    · have entered := a.met root mem trail id way short
      exact (b.or_kept id).elim (earlier entered) later
    · have way' := (e.trail_iff (whole root mem).grounded).mpr way
      exact later (b.met root mem trail id way' short)

/-- A new node holds what was copied from another one, and is entered for it. -/
theorem add {id : NodeId} {node : Node} (c : Enters depth g names h names' (g.held id) copies)
    (e : Extends g h) (holds : node.children ++ node.templateBodies = copies) :
    Enters (depth + 1) g names (h.add node).1 (names'.insert id h.next) [id] [h.next] := by
  have self : Entered g (h.add node).1 (names'.insert id h.next) [id] [h.next] id :=
    ⟨h.next, Renaming.get?_insert_same .., fun had => h.not_has_next (e.has had),
      ⟨id, by simp, .here⟩, h.next, by simp, .here⟩
  have lower : ∀ {other}, id ≠ other → Entered g h names' (g.held id) copies other →
      Entered g (h.add node).1 (names'.insert id h.next) [id] [h.next] other := by
    rintro other ne ⟨copy, found, new, ⟨child, mem, within⟩, top, mem', inside⟩
    have holds' : (h.add node).1.held h.next = copies := by
      rw [held, children, node_add_next, holds]
    have kept : ∀ owner, h.Has owner → (h.add node).1.held owner = h.held owner := by
      intro owner has
      rw [held, held, children, children, node_add has]
    refine ⟨copy, (Renaming.get?_insert_other _ ne _).trans found, new,
      ⟨id, by simp, (within_of_held mem).trans within⟩, h.next, by simp, ?_⟩
    exact (within_of_held (holds' ▸ mem')).trans (inside.along kept)
  constructor
  · intro other
    by_cases same : id = other
    · exact .inr (same ▸ self)
    · rw [Renaming.get?_insert_other _ same]
      exact (c.or_kept other).imp_right (lower same)
  · intro root mem trail other way short
    obtain rfl := List.mem_singleton.mp mem
    by_cases same : root = other
    · exact same ▸ self
    · rcases way.top with ⟨_, rfl⟩ | ⟨child, slot, rest, below, rfl⟩
      · exact absurd rfl same
      · refine lower same (c.met child (List.mem_append_left _ slot) rest other below ?_)
        simpa using short

end Enters

theorem enters_copyEach {copy : Graph → Renaming → NodeId → Graph × Renaming × NodeId}
    (one : ∀ g names id, Copying g names (copy g names id).1 (copy g names id).2.1
      [(copy g names id).2.2])
    (enters : ∀ g names id, g.Whole id → Enters depth g names (copy g names id).1
      (copy g names id).2.1 [id] [(copy g names id).2.2])
    (g : Graph) (names : Renaming) (ids : List NodeId) (whole : ∀ id ∈ ids, g.Whole id) :
    Enters depth g names (copyEach copy g names ids).1 (copyEach copy g names ids).2.1 ids
      (copyEach copy g names ids).2.2 := by
  induction ids generalizing g names with
  | nil => exact ⟨fun _ => .inl rfl, by simp⟩
  | cons id rest ih =>
    have first := one g names id
    have others := copying_copyEach one (copy g names id).1 (copy g names id).2.1 rest
    refine (enters g names id (whole id (by simp))).append (ih _ _ fun other mem => ?_)
      first.beside others.beside fun other mem => whole other (by simp [mem])
    exact first.beside.whole (whole other (by simp [mem]))

theorem enters_copyLevels (depth : Nat) (g : Graph) (names : Renaming) {id : NodeId}
    (whole : g.Whole id) :
    Enters depth g names (copyLevels depth g names id).1 (copyLevels depth g names id).2.1 [id]
      [(copyLevels depth g names id).2.2] := by
  induction depth generalizing g names id with
  | zero => exact ⟨fun _ => .inl rfl, by simp⟩
  | succ depth ih =>
    have lower : ∀ other ∈ g.held id, g.Whole other := fun other mem =>
      whole.within (within_of_held mem)
    have copied := copying_copyEach (copying_copyLevels depth) g names (g.node id).children
    have copied' := copying_copyEach (copying_copyLevels depth)
      (copyEach (copyLevels depth) g names (g.node id).children).1
      (copyEach (copyLevels depth) g names (g.node id).children).2.1 (g.node id).templateBodies
    have children := enters_copyEach (copying_copyLevels depth) (fun g names id => ih g names) g
      names (g.node id).children fun other mem => lower other (List.mem_append_left _ mem)
    have bodies := enters_copyEach (copying_copyLevels depth) (fun g names id => ih g names)
      (copyEach (copyLevels depth) g names (g.node id).children).1
      (copyEach (copyLevels depth) g names (g.node id).children).2.1
      (g.node id).templateBodies fun other mem =>
        copied.beside.whole (lower other (List.mem_append_right _ mem))
    refine (children.append bodies copied.beside copied'.beside fun other mem =>
      lower other (List.mem_append_right _ mem)).add (copied.beside.trans copied'.beside) ?_
    rw [Node.children_withTemplateBodies, Node.children_withChildren _ (length_copyEach ..),
      Node.templateBodies_withTemplateBodies]
    rw [length_copyEach, Node.formal_templateBodies.children]

/-! ## Images -/

/-- A new node inside a copy stands for a node that was copied. -/
structure Stands (g h : Graph) (root copy id new : NodeId) : Prop where
  within : g.Within root id
  fresh : ¬ g.Has new
  inside : h.Within copy new
  has : h.Has new
  stamp : (h.node new).stamp = (g.node id).stamp
  label : (g.node id).isRange = true → (h.node new).label = (g.node id).label

/-- The copy of a node under a renaming mirrors the node, where what was copied is stood for by new
nodes and the rest by what the renaming tells. -/
structure Image (g h : Graph) (names : Renaming) (root copy : NodeId) (target : NodeId → NodeId) :
    Prop where
  mirrors : Mirrors g h target root copy
  top : target root = copy
  each : ∀ id, Stands g h root copy id (target id) ∨
    ¬ g.Below root id ∧ target id = names.apply id

section

variable {copy : NodeId} {target : NodeId → NodeId}

theorem Stands.grow {id new : NodeId} (s : Stands g h root copy id new) (e : Extends h k) :
    Stands g k root copy id new :=
  ⟨s.within, s.fresh, e.within s.inside, e.has s.has, by rw [e.node s.has, s.stamp],
    fun isRange => by rw [e.node s.has, s.label isRange]⟩

theorem Stands.shrink {id new : NodeId} (s : Stands h k root copy id new) (e : Extends g h)
    (whole : g.Whole root) : Stands g k root copy id new := by
  have within := (e.within_iff whole).mp s.within
  have same := e.node (whole id within)
  exact ⟨within, fun had => s.fresh (e.has had), s.inside, s.has, same ▸ s.stamp,
    fun isRange => same ▸ s.label (same ▸ isRange)⟩

/-- An image stays one while the graph grows. -/
theorem Image.grow (i : Image g h names root copy target) (e : Extends h k)
    (grounded : h.Grounded copy) : Image g k names root copy target where
  mirrors := i.mirrors.grow fun id below => e.node (grounded id below)
  top := i.top
  each id := (i.each id).imp_left fun stands => stands.grow e

/-- The image of a node of a grown graph is one of the old node. -/
theorem Image.shrink (i : Image h k names root copy target) (e : Extends g h)
    (whole : g.Whole root) : Image g k names root copy target where
  mirrors := i.mirrors.shrink e whole.grounded
  top := i.top
  each id := (i.each id).imp (fun stands => stands.shrink e whole) fun ⟨apart, same⟩ =>
    ⟨fun below => apart ((e.below_iff whole.grounded).mpr below), same⟩

/-- A copy of a node without circles mirrors it, by what was entered while it was made. -/
theorem mirrors_copyWith (a : g.Acyclic root) (names : Renaming) :
    Mirrors g (g.copyWith root names).1 (copyLevels g.size g names root).2.1.apply root
      (g.copyWith root names).2 := by
  classical
  have linked := (copying_copyLevels g.size g names root).linked
    (copyLevels g.size g names root).2.2 (by simp)
  have mirrors : Mirrors g (copyLevels g.size g names root).1 id root
      (copyLevels g.size g names root).2.2 :=
    .of_copies (copies_copyLevels g.size g names a.grounded) fun _ _ way => a.length_trail_lt way
  refine mirrors.reading (copyLevels g.size g names root).2.1.apply fun id below => ?_
  refine (linked.node_rebind (Below.refl _ _) _ id).trans ?_
  rw [if_pos below, Node.renamed_eq_reading]

/-- A copy of a node without circles is an image of it, by what was entered while it was made. -/
theorem image_copyWith (a : g.Acyclic root) (whole : g.Whole root) (names : Renaming)
    (old : ∀ id copy, names.get? id = some copy → g.Has copy) :
    Image g (g.copyWith root names).1 names root (g.copyWith root names).2
      (copyLevels g.size g names root).2.1.apply := by
  have copying := copying_copyLevels g.size g names root
  have enters := enters_copyLevels g.size g names whole
  have mirrors := mirrors_copyWith a names
  have top : (copyLevels g.size g names root).2.1.get? root =
      some (copyLevels g.size g names root).2.2 := by
    obtain ⟨depth, size⟩ := Nat.exists_eq_succ_of_ne_zero (Nat.ne_zero_of_lt a.has)
    rw [size]
    exact Renaming.get?_insert_same ..
  have unfolded : g.copyWith root names =
      (((copyLevels g.size g names root).1.rebind (copyLevels g.size g names root).2.2
        (copyLevels g.size g names root).2.1).1, (copyLevels g.size g names root).2.2) := rfl
  rw [unfolded] at mirrors ⊢
  generalize copyLevels g.size g names root = result at copying enters mirrors top ⊢
  obtain ⟨draft, names', copy⟩ := result
  have linked : draft.Linked copy := copying.linked copy (by simp)
  have relabels := Relabels.rebind draft copy names'
  have stamps := Node.formal_stamp.toUnbound.rebind draft copy names'
  have holds : ∀ owner, draft.Has owner →
      (draft.rebind copy names').1.held owner = draft.held owner := by
    intro owner has
    rw [held, held, relabels.children,
      (Node.formal_templateBodies.toUnbound.rebind draft copy names').node has]
  have stands : ∀ {id}, Entered g draft names' [root] [copy] id →
      Stands g (draft.rebind copy names').1 root copy id (names'.apply id) := by
    rintro id ⟨new, found, fresh, ⟨_, mem, within⟩, _, mem', inside⟩
    obtain rfl := List.mem_singleton.mp mem
    obtain rfl := List.mem_singleton.mp mem'
    rw [Renaming.apply_of_get? found]
    obtain ⟨-, has, label⟩ := (copying.renames.new found).resolve_left fun given =>
      fresh (old id new given)
    have kept := label (whole id within)
    refine ⟨within, fresh, inside.along holds, relabels.has.mpr has, ?_, fun isRange => ?_⟩
    · rw [stamps.node has, Node.stamp, kept, Node.stamp]
    · have isRange' : (draft.node new).isRange = true := by
        rw [← Node.isRange_label, kept, Node.isRange_label, isRange]
      rw [node_rebind_of_isRange _ _ _ isRange', kept]
  refine ⟨mirrors, Renaming.apply_of_get? top, fun id => ?_⟩
  by_cases below : g.Below root id
  · obtain ⟨trail, way⟩ := below
    exact .inl (stands (enters.met root (by simp) trail id way (a.length_trail_lt way)))
  · refine (enters.or_kept id).elim (fun same => .inr ⟨below, ?_⟩) fun entered =>
      .inl (stands entered)
    rw [Renaming.apply, same, Renaming.apply]

theorem exists_image (a : g.Acyclic root) (whole : g.Whole root) (names : Renaming)
    (old : ∀ id copy, names.get? id = some copy → g.Has copy) :
    ∃ target, Image g (g.copyWith root names).1 names root (g.copyWith root names).2 target :=
  ⟨_, image_copyWith a whole names old⟩

end

end Graph

end RangeQuery
