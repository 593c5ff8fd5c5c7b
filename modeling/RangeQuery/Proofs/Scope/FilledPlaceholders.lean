import RangeQuery.Proofs.Graph.PlacedCopies
import RangeQuery.Proofs.Scope.Expansion

/-!
One filled placeholder. A copy of the template hangs where the placeholder hung, and nothing else is
changed. So whatever the tree is written out to afterwards, the tree before is written out to as well.
-/

namespace RangeQuery

variable {α : Type}

theorem NameTable.exists_withValues_withValues (table : NameTable α) (first second : List α) :
    ∃ values, (table.withValues first).withValues second = table.withValues values := by
  refine ⟨second.take first.length, congrArg NameTable.mk ?_⟩
  obtain ⟨entries⟩ := table
  simp only [NameTable.withValues]
  induction entries generalizing first second with
  | nil => rfl
  | cons entry rest ih =>
    cases first with
    | nil => rfl
    | cons value first =>
      cases second with
      | nil => rfl
      | cons value' second => simp [ih]

theorem NameTable.withValues_values (table : NameTable α) : table.withValues table.values = table := by
  obtain ⟨entries⟩ := table
  refine congrArg NameTable.mk ?_
  induction entries with
  | nil => rfl
  | cons entry rest ih => simpa [values] using ih

namespace Node

theorem zipWith_expression_zipWith (sort : List SortItem) {first second : List NodeId}
    (length : first.length = sort.length) :
    List.zipWith (fun item expression => ({ item with expression } : SortItem))
        (List.zipWith (fun item expression => ({ item with expression } : SortItem)) sort first) second =
      List.zipWith (fun item expression => ({ item with expression } : SortItem)) sort second := by
  induction sort generalizing first second with
  | nil => rfl
  | cons item rest ih =>
    obtain ⟨expression, first, rfl⟩ := List.exists_cons_of_length_eq_add_one length
    cases second with
    | nil => rfl
    | cons expression' second => simpa using ih (by simpa using length)

/-- Filling the slots again leaves nothing of what they were filled with before. -/
theorem withChildren_withChildren (node : Node) {first second : List NodeId}
    (length : first.length = node.children.length) (length' : second.length = node.children.length) :
    (node.withChildren first).withChildren second = node.withChildren second := by
  cases node with
  | retrieve r =>
    obtain ⟨ranges, values, condition, sort, _, _, _, _⟩ := r
    simp only [children, List.length_append, List.length_map] at length length'
    have inRanges : min ranges.length first.length = ranges.length := by omega
    have inValues : min values.length (first.length - ranges.length) = values.length := by omega
    cases condition with
    | none =>
      simp only [Option.toList, List.length_nil] at length
      simp only [withChildren, Retrieve.withChildren, List.length_take, List.length_drop, inRanges,
        inValues, Option.map_none, Option.toList, List.length_nil, List.drop_zero]
      rw [zipWith_expression_zipWith sort (by simp only [List.length_drop]; omega)]
    | some id =>
      simp only [Option.toList, List.length_singleton] at length length'
      have more : (second.drop ranges.length).drop values.length ≠ [] := by
        simp only [List.drop_drop, ne_eq, List.drop_eq_nil_iff]
        omega
      obtain ⟨child, rest, more⟩ := List.exists_cons_of_ne_nil more
      simp only [withChildren, Retrieve.withChildren, List.length_take, List.length_drop, inRanges,
        inValues, Option.map_some, Option.toList, List.length_singleton, more, List.headD_cons]
      rw [zipWith_expression_zipWith sort (by simp only [List.length_drop]; omega)]
  | subquery s =>
    obtain ⟨_, ranges, expression, condition⟩ := s
    simp only [children, List.length_append] at length length'
    have inRanges : min ranges.length first.length = ranges.length := by omega
    simp only [withChildren, Subquery.withChildren, List.length_take, inRanges]
    generalize same : second.drop ranges.length = slots
    have count : slots.length = expression.toList.length + condition.toList.length := by
      rw [← same, List.length_drop]
      omega
    cases expression <;> cases condition <;>
      simp only [Option.toList, List.length_nil, List.length_cons, Nat.zero_add, Nat.add_zero] at count
    · rfl
    · obtain ⟨_, rfl⟩ := List.length_eq_one_iff.mp count
      rfl
    · obtain ⟨_, rfl⟩ := List.length_eq_one_iff.mp count
      rfl
    · obtain ⟨_, _, rfl⟩ := List.length_eq_two.mp count
      rfl
  | range r =>
    obtain ⟨_, _, join, _, _, nested⟩ := r
    cases join <;> cases nested
    · rfl
    · obtain ⟨_, rfl⟩ := List.length_eq_one_iff.mp length'
      rfl
    · obtain ⟨_, rfl⟩ := List.length_eq_one_iff.mp length'
      rfl
    · obtain ⟨_, _, rfl⟩ := List.length_eq_two.mp length'
      rfl
  | binary op left right =>
    obtain ⟨_, _, rfl⟩ := List.length_eq_two.mp length'
    rfl
  | aggregate a =>
    obtain ⟨_, _, condition⟩ := a
    cases condition with
    | none =>
      obtain ⟨_, rfl⟩ := List.length_eq_one_iff.mp length'
      rfl
    | some _ =>
      obtain ⟨_, _, rfl⟩ := List.length_eq_two.mp length'
      rfl
  | caseWhen c =>
    obtain ⟨_, _, otherwise⟩ := c
    cases otherwise with
    | none =>
      obtain ⟨_, _, rfl⟩ := List.length_eq_two.mp length'
      rfl
    | some _ =>
      obtain ⟨_, _, _, rfl⟩ := List.length_eq_three.mp length'
      rfl
  | not _ | nullCheck _ _ | rowExists _ | projection _ =>
    obtain ⟨_, rfl⟩ := List.length_eq_one_iff.mp length'
    rfl
  | identifier _ | number _ | string _ | bool _ | null | parameter _ | placeholder _ => rfl

theorem withChildren_withTemplateBodies (node : Node) (bodies kids : List NodeId) :
    (node.withTemplateBodies bodies).withChildren kids =
      (node.withChildren kids).withTemplateBodies bodies := by
  cases node <;> rfl

theorem withTemplateBodies_templateBodies (node : Node) :
    node.withTemplateBodies node.templateBodies = node := by
  cases node with
  | retrieve r => simp [withTemplateBodies, templateBodies, NameTable.withValues_values]
  | _ => rfl

/-- What shows a node that shows another one shows that one. -/
theorem exists_filled_filled (node : Node) (target : NodeId → NodeId) {kids : List NodeId}
    (length : kids.length = node.children.length) {kids' : List NodeId}
    (length' : kids'.length = node.children.length) (bodies bodies' : List NodeId) :
    ∃ all, (((((node.reading target).withChildren kids).withTemplateBodies bodies).reading id).withChildren
        kids').withTemplateBodies bodies' =
      ((node.reading target).withChildren kids').withTemplateBodies all := by
  rw [reading_id, withChildren_withTemplateBodies, withChildren_withChildren]
  · generalize (node.reading target).withChildren kids' = shown
    cases shown with
    | retrieve r =>
      obtain ⟨all, same⟩ := r.templates.exists_withValues_withValues bodies bodies'
      exact ⟨all, by simp [withTemplateBodies, same]⟩
    | _ => exact ⟨[], rfl⟩
  · rw [children_reading, length]
  · rw [children_reading, length']

end Node

theorem replace_eq_map {ids : List NodeId} (nodup : ids.Nodup) (old new : NodeId) :
    ids.replace old new = ids.map fun id => if id = old then new else id := by
  induction ids with
  | nil => rfl
  | cons first rest ih =>
    obtain ⟨out, nodup⟩ := List.nodup_cons.mp nodup
    rw [List.replace_cons, List.map_cons]
    by_cases same : first = old
    · have others : rest.map (fun id => if id = old then new else id) = rest := by
        conv_rhs => rw [← List.map_id' rest]
        refine List.map_congr_left fun id mem => if_neg ?_
        rintro rfl
        exact out (same ▸ mem)
      simp [same, others]
    · have other : (old == first) = false := by simpa using Ne.symm same
      simp [other, same, ih nodup]

/-- What is paired with the first of two related entries is paired with the second. -/
theorem exists_mem_zip {β γ : Type} {R : α → β → Prop} {as : List α} {bs : List β}
    (each : List.Forall₂ R as bs) {cs : List γ} {a : α} {c : γ} (mem : (a, c) ∈ as.zip cs) :
    ∃ b, R a b ∧ (b, c) ∈ bs.zip cs := by
  induction each generalizing cs with
  | nil => simp at mem
  | @cons a' b' _ _ first _ ih =>
    cases cs with
    | nil => simp at mem
    | cons c' cs =>
      rcases List.mem_cons.mp mem with same | later
      · obtain ⟨rfl, rfl⟩ := Prod.mk.inj same
        exact ⟨b', first, by simp⟩
      · obtain ⟨b, related, later⟩ := ih later
        exact ⟨b, related, List.mem_cons_of_mem _ later⟩

namespace Graph

variable {g h k : Graph} {root place body body' other old new : NodeId} {name : String}
  {templates : NameTable NodeId} {target inner : NodeId → NodeId}

/-- A name stands at a placeholder below a node. -/
def Names (g : Graph) (top : NodeId) (name : String) : Prop :=
  ∃ id, g.Below top id ∧ g.placeholder? id = some name

/-- A target leads from what is copied with a template to new nodes. All other nodes, and with them the
ranges declared elsewhere, stay what they are. -/
def Fresh (g : Graph) (body : NodeId) (target : NodeId → NodeId) : Prop :=
  ∀ id, g.Within body id ∧ ¬ g.Has (target id) ∨ ¬ g.Below body id ∧ target id = id

/-- A node is written out: with each placeholder below it a copy of its template stands in the stead, in
which the placeholders are written out the same way. The target tells where each node stands afterwards,
and what is read of it; each copy has a target of its own. -/
inductive WritesOut (g h : Graph) (templates : NameTable NodeId) :
    (NodeId → NodeId) → NodeId → NodeId → Prop
  | node {target : NodeId → NodeId} {old : NodeId} (kids bodies : List NodeId) :
      g.placeholder? old = none →
      h.node (target old) =
        (((g.node old).reading target).withChildren kids).withTemplateBodies bodies →
      kids.length = (g.children old).length →
      (∀ a b, (a, b) ∈ (g.children old).zip kids → WritesOut g h templates target a b) →
      WritesOut g h templates target old (target old)
  | filled {target inner : NodeId → NodeId} {old new body : NodeId} {name : String} :
      g.placeholder? old = some name → templates.get? name = some body → g.Fresh body inner →
      WritesOut g h templates inner body new → WritesOut g h templates target old new

/-- A well-linked tree apart from its templates, which are such trees as well. -/
structure Parted (g : Graph) (root : NodeId) : Prop where
  tree : g.Linked root
  bodies : ∀ body ∈ (g.scope root).templates.values, g.Clear body
  apart : ∀ body ∈ (g.scope root).templates.values, ∀ id, g.Within body id → ¬ g.Below root id

/-- The graph in which a copy of a template hangs where a placeholder hung. -/
def filled (g : Graph) (place body : NodeId) : Graph :=
  ((g.copy body).1.replace place (g.copy body).2).1

/-- What is read in the copy of a template for each node. -/
def copyTarget (g : Graph) (body : NodeId) : NodeId → NodeId :=
  (copyLevels g.size g .empty body).2.1.apply

theorem forest_copy (g : Graph) (body : NodeId) : Forest g (g.copy body).1 [(g.copy body).2] :=
  g.forest_copyWith body .empty

theorem not_has_of_copy (below : (g.copy body).1.Below (g.copy body).2 other) : ¬ g.Has other :=
  (g.forest_copy body).fresh _ (by simp) below

theorem size_filled (g : Graph) (place body : NodeId) : g.size ≤ (g.filled place body).size :=
  (same_fill Node.slotless_label.toPlaced g place body).size

/-! ## What hangs where -/

/-- A placeholder of a tree has a template. -/
structure Filling (g : Graph) (root place : NodeId) (name : String) (body : NodeId) : Prop where
  parted : g.Parted root
  above : g.Below root place
  held : g.placeholder? place = some name
  found : (g.scope root).templates.get? name = some body

namespace Filling

variable (f : Filling g root place name body)

include f

theorem mem : body ∈ (g.scope root).templates.values := NameTable.mem_values_of_get? f.found

theorem clear : g.Clear body := f.parted.bodies body f.mem

theorem isSome : (g.placeholder? place).isSome = true := by rw [f.held]; rfl

theorem ne_root : place ≠ root := by
  rintro rfl
  have mem := mem_templateBodies_of_get? f.found
  rw [node_of_placeholder? f.held] at mem
  cases mem

theorem exists_owner : ∃ owner, g.Below root owner ∧ place ∈ g.children owner ∧
    ∀ other, (g.copy body).1.Has other → (g.filled place body).node other =
      if other = owner then (((g.copy body).1.node other).withChildren
        (((g.copy body).1.node other).children.replace place (g.copy body).2))
      else (g.copy body).1.node other := by
  rcases f.above.eq_or_owner with same | ⟨owner, upper, slot⟩
  · exact absurd same f.ne_root
  · have recorded : (g.copy body).1.parent place = some owner :=
      ((g.forest_copy body).beside.parent (f.parted.tree.has_of_below f.above)).trans
        (f.parted.tree.parent_child upper slot)
    refine ⟨owner, upper, slot, fun other has => ?_⟩
    rw [filled, replace, recorded]
    exact node_replaceChild has

/-- In the tree the copy takes the place of the placeholder among the children. -/
theorem node_filled (below : g.Below root other) :
    (g.filled place body).node other = (g.node other).withChildren ((g.children other).map fun child =>
      if child = place then (g.copy body).2 else child) := by
  obtain ⟨owner, upper, slot, each⟩ := f.exists_owner
  have beside := (g.forest_copy body).beside
  have has := f.parted.tree.has_of_below below
  rw [each other (beside.has has), beside.node has, ← replace_eq_map (f.parted.tree.nodup below)]
  split
  · rfl
  · next ne =>
    have out : place ∉ g.children other := fun mem =>
      ne (f.parted.tree.owner_unique below upper mem slot)
    rw [List.replace_of_not_mem out, children, Node.withChildren_children]

theorem children_filled (below : g.Below root other) :
    (g.filled place body).children other =
      (g.children other).map fun child => if child = place then (g.copy body).2 else child := by
  rw [children, f.node_filled below, Node.children_withChildren]
  exact List.length_map ..

/-- All other nodes are what they were when the copy was made. -/
theorem node_filled_of_not_below (has : (g.copy body).1.Has other) (out : ¬ g.Below root other) :
    (g.filled place body).node other = (g.copy body).1.node other := by
  obtain ⟨owner, upper, -, each⟩ := f.exists_owner
  rw [each other has, if_neg]
  rintro rfl
  exact out upper

theorem node_template (mem : body' ∈ (g.scope root).templates.values) (within : g.Within body' other) :
    (g.filled place body).node other = g.node other := by
  have has := (f.parted.bodies body' mem).whole other within
  have beside := (g.forest_copy body).beside
  rw [f.node_filled_of_not_below (beside.has has) (f.parted.apart body' mem other within),
    beside.node has]

theorem node_copy (below : (g.copy body).1.Below (g.copy body).2 other) :
    (g.filled place body).node other = (g.copy body).1.node other :=
  f.node_filled_of_not_below (((g.forest_copy body).linked _ (by simp)).has_of_below below)
    fun inTree => not_has_of_copy below (f.parted.tree.has_of_below inTree)

/-- The copy mirrors the template, and its target leads to the mirrored places. -/
theorem mirrors : Mirrors g (g.filled place body) (g.copyTarget body) body (g.copy body).2 := by
  have image := image_copyWith (f.clear.linked.acyclic (.refl g body)) f.clear.whole .empty
    fun id copy found => by rw [Renaming.get?_empty] at found; cases found
  exact image.mirrors.grow fun _ below => f.node_copy below

theorem leads : Leads g (g.filled place body) (g.copyTarget body) body (g.copy body).2 :=
  (f.clear.leads_copyWith .empty).grow fun _ below => congrArg Node.children (f.node_copy below)

theorem fresh_copyTarget : g.Fresh body (g.copyTarget body) := by
  intro other
  have image := image_copyWith (f.clear.linked.acyclic (.refl g body)) f.clear.whole .empty
    fun id copy found => by rw [Renaming.get?_empty] at found; cases found
  refine (image.each other).imp (fun stands => ⟨stands.within, stands.fresh⟩) fun ⟨out, same⟩ => ⟨out, ?_⟩
  exact same.trans (Renaming.apply_of_none (Renaming.get?_empty other))

/-- After the change the tree has the old nodes but the placeholder, and the copy. -/
theorem below_filled : (g.filled place body).Below root other ↔
    g.Below root other ∧ other ≠ place ∨ (g.filled place body).Below (g.copy body).2 other := by
  have keeps : ∀ {other}, g.Below root other → other ≠ place → (g.filled place body).Below root other := by
    intro other below
    refine below.induction (fun _ => .refl _ root) fun owner child upper ih slot ne => ?_
    have other' : owner ≠ place := by
      rintro rfl
      rw [children, node_of_placeholder? f.held] at slot
      cases slot
    refine (ih other').child ?_
    rw [f.children_filled upper]
    exact List.mem_map.mpr ⟨child, slot, if_neg ne⟩
  constructor
  · intro below
    refine below.induction (.inl ⟨.refl g root, f.ne_root.symm⟩) fun owner child _ ih slot => ?_
    rcases ih with ⟨upper, -⟩ | inCopy
    · rw [f.children_filled upper] at slot
      obtain ⟨child', slot', rfl⟩ := List.mem_map.mp slot
      split
      · exact .inr (.refl _ _)
      · next ne => exact .inl ⟨upper.child slot', ne⟩
    · exact .inr (inCopy.child slot)
  · rintro (⟨below, ne⟩ | inCopy)
    · exact keeps below ne
    · obtain ⟨owner, upper, slot, -⟩ := f.exists_owner
      have ne : owner ≠ place := by
        rintro rfl
        rw [children, node_of_placeholder? f.held] at slot
        cases slot
      refine Below.trans ((keeps upper ne).child ?_) inCopy
      rw [f.children_filled upper]
      exact List.mem_map.mpr ⟨place, slot, if_pos rfl⟩

theorem templates_filled :
    ((g.filled place body).scope root).templates = (g.scope root).templates := by
  have node := f.node_filled (Below.refl g root)
  unfold Graph.scope
  cases root : g.node root <;> simp only [node, root] <;> rfl

theorem linked_filled : (g.filled place body).Linked root ∧
    ∀ body' ∈ (g.scope root).templates.values, (g.filled place body).Linked body' := by
  let roots : Set NodeId := {top | top = root ∨ top ∈ (g.scope root).templates.values}
  have before : ∀ top ∈ roots, g.Linked top := by
    rintro top (rfl | mem)
    · exact f.parted.tree
    · exact (f.parted.bodies top mem).linked
  have after := linked_fill before f.isSome body
  exact ⟨after root (.inl rfl), fun body' mem => after body' (.inr mem)⟩

theorem below_copy : (g.filled place body).Below (g.copy body).2 other ↔
    (g.copy body).1.Below (g.copy body).2 other :=
  below_iff_of_children fun _ below => congrArg Node.children (f.node_copy below)

theorem parted_filled : (g.filled place body).Parted root := by
  obtain ⟨tree, linked⟩ := f.linked_filled
  refine ⟨tree, ?_, ?_⟩ <;> rw [f.templates_filled]
  · exact fun body' mem => (f.parted.bodies body' mem).of_same (linked body' mem) (g.size_filled place body)
      fun _ => f.node_template mem
  · intro body' mem other within below
    have within := (within_iff_of_same fun _ => f.node_template mem).mp within
    rcases f.below_filled.mp below with ⟨below, -⟩ | inCopy
    · exact f.parted.apart body' mem other within below
    · exact not_has_of_copy (f.below_copy.mp inCopy) ((f.parted.bodies body' mem).whole other within)

end Filling

/-! ## The names that occur -/

/-- A mirror is a placeholder where the old node is one. -/
theorem Mirrors.placeholder? (m : Mirrors g h target old new) :
    h.placeholder? new = g.placeholder? old := by
  cases m with
  | intro kids bodies node =>
    unfold Graph.placeholder?
    rw [node]
    cases g.node old <;> rfl

theorem Filling.names_copy (f : Filling g root place name body) {name : String} :
    (g.filled place body).Names (g.copy body).2 name ↔ g.Names body name := by
  constructor
  · rintro ⟨other, below, held⟩
    obtain ⟨origin, below, mirror⟩ := f.mirrors.source below
    exact ⟨origin, below, mirror.placeholder?.symm.trans held⟩
  · rintro ⟨origin, below, held⟩
    obtain ⟨other, below, mirror⟩ := f.mirrors.shown below
    exact ⟨other, below, mirror.placeholder?.trans held⟩

/-- A node of the tree as before, the placeholder apart. -/
theorem Filling.placeholder?_filled (f : Filling g root place name body) (below : g.Below root other) :
    (g.filled place body).placeholder? other = g.placeholder? other := by
  unfold Graph.placeholder?
  rw [f.node_filled below]
  cases g.node other <;> rfl

/-! ## Written out before and after -/

/-- A node of the tree in which a placeholder was filled comes from itself, or from the node that it is a
copy of. -/
inductive ComesFrom (g : Graph) (root place body : NodeId) :
    (NodeId → NodeId) → NodeId → NodeId → Prop
  | kept {other : NodeId} : g.Below root other → other ≠ place →
      ComesFrom g root place body id other other
  | copied {old new : NodeId} :
      Mirrors g (g.filled place body) (g.copyTarget body) old new →
      Leads g (g.filled place body) (g.copyTarget body) old new →
      ComesFrom g root place body (g.copyTarget body) old new

namespace ComesFrom

theorem target_eq (c : ComesFrom g root place body target old new) : target old = new := by
  cases c with
  | kept => rfl
  | copied _ leads => exact leads.target_eq

variable (f : Filling g root place name body)

include f

theorem placeholder? (c : ComesFrom g root place body target old new) :
    (g.filled place body).placeholder? new = g.placeholder? old := by
  cases c with
  | kept below => exact f.placeholder?_filled below
  | copied mirrors => exact mirrors.placeholder?

/-- It shows the node that it comes from. -/
theorem node (c : ComesFrom g root place body target old new) : ∃ kids bodies,
    (g.filled place body).node new =
      (((g.node old).reading target).withChildren kids).withTemplateBodies bodies ∧
    kids.length = (g.children old).length := by
  cases c with
  | kept below =>
    rw [f.node_filled below, Node.reading_id]
    exact ⟨_, _, (Node.withTemplateBodies_templateBodies _).symm, List.length_map ..⟩
  | copied mirrors =>
    cases mirrors with
    | intro kids bodies node length => exact ⟨kids, bodies, node, length⟩

/-- So do its children, but that the copy stands for the placeholder. -/
theorem each (c : ComesFrom g root place body target old new) :
    List.Forall₂ (fun a b => ComesFrom g root place body target a b ∨ a = place ∧ b = (g.copy body).2)
      (g.children old) ((g.filled place body).children new) := by
  cases c with
  | kept below =>
    rw [f.children_filled below, List.forall₂_map_right_iff, List.forall₂_same]
    intro child slot
    split
    · next same => exact .inr ⟨same, rfl⟩
    · next ne => exact .inl (.kept (below.child slot) ne)
  | copied mirrors leads =>
    obtain ⟨length, mirrored⟩ := List.forall₂_iff_zip.mp mirrors.each
    obtain ⟨-, led⟩ := List.forall₂_iff_zip.mp leads.each
    exact List.forall₂_iff_zip.mpr ⟨length, fun mem => .inl (.copied (mirrored mem) (led mem))⟩

end ComesFrom

theorem Fresh.of_same (fresh : h.Fresh body target) (size : g.size ≤ h.size)
    (same : ∀ id, g.Within body id → h.node id = g.node id) : g.Fresh body target := by
  intro id
  rcases fresh id with ⟨within, new⟩ | ⟨out, kept⟩
  · exact .inl ⟨(within_iff_of_same same).mp within, fun had => new (Nat.lt_of_lt_of_le had size)⟩
  · refine .inr ⟨fun below => out ((below_iff_of_children fun id lower => ?_).mpr below), kept⟩
    exact congrArg Node.children (same id lower.within)

/-- What is written out from a node of a grown graph is written out from the old node, if that and the
templates were there before. -/
theorem WritesOut.of_same (w : WritesOut k h templates target old new) (size : g.size ≤ k.size)
    (bodies : ∀ body ∈ templates.values, ∀ id, g.Within body id → k.node id = g.node id)
    (same : ∀ id, g.Within old id → k.node id = g.node id) :
    WritesOut g h templates target old new := by
  induction w with
  | @node target old kids below plain node length _ ih =>
    have here := same old .here
    rw [Graph.placeholder?, here, ← Graph.placeholder?] at plain
    rw [here] at node
    rw [children, here, ← children] at length ih
    refine .node kids below plain node length fun a b mem => ih a b mem fun id within => ?_
    exact same id ((below_of_child (List.of_mem_zip mem).1).within.trans within)
  | @filled target inner old new body name held found fresh _ ih =>
    rw [Graph.placeholder?, same old .here, ← Graph.placeholder?] at held
    have template := bodies body (NameTable.mem_values_of_get? found)
    exact .filled held found (fresh.of_same size template) (ih template)

/-- What the tree is written out to after a placeholder was filled, it is written out to before. -/
theorem Filling.writesOut_of_comesFrom (f : Filling g root place name body)
    (w : WritesOut (g.filled place body) h (g.scope root).templates id other new)
    (c : ComesFrom g root place body target old other) :
    WritesOut g h (g.scope root).templates target old new := by
  generalize reads : (id : NodeId → NodeId) = unchanged at w
  induction w generalizing target old with
  | @node unchanged other kids' bodies' plain node length _ ih =>
    subst reads
    obtain ⟨kids, bodies, shown, length'⟩ := c.node f
    have slots : ((g.filled place body).children other).length = (g.children old).length :=
      (c.each f).length_eq.symm
    obtain ⟨all, same⟩ := (g.node old).exists_filled_filled target length' (length.trans slots) bodies bodies'
    rw [shown, same] at node
    obtain rfl := c.target_eq
    refine .node kids' all ((c.placeholder? f).symm.trans plain) node (length.trans slots) fun a b mem => ?_
    obtain ⟨child, stands, mem⟩ := exists_mem_zip (c.each f) mem
    rcases stands with comes | ⟨rfl, rfl⟩
    · exact ih child b mem comes rfl
    · exact .filled f.held f.found f.fresh_copyTarget
        (ih _ b mem (.copied f.mirrors f.leads) rfl)
  | @filled unchanged inner other new body' name' held found fresh within _ =>
    have template : ∀ id, g.Within body' id → (g.filled place body).node id = g.node id :=
      fun _ => f.node_template (NameTable.mem_values_of_get? found)
    refine .filled ((c.placeholder? f).symm.trans held) found
      (fresh.of_same (g.size_filled place body) template) ?_
    exact within.of_same (g.size_filled place body) (fun _ mem _ => f.node_template mem) template

end Graph

end RangeQuery
