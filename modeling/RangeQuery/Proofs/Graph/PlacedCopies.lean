import RangeQuery.Proofs.Graph.Mirrors

/-!
Copies place by place. In a tree that its templates are apart from, each node is copied once, so what is
entered for a node while the tree is copied is the node in the same place of the copy.
-/

namespace RangeQuery

namespace Graph

variable {g h k : Graph} {top root old new : NodeId} {target target' : NodeId → NodeId}

/-- A target leads from a node, and from each node below it, to the one in the same place below another
node. -/
inductive Leads (g h : Graph) (target : NodeId → NodeId) : NodeId → NodeId → Prop
  | intro {old new : NodeId} : target old = new →
      (g.children old).length = (h.children new).length →
      (∀ a b, (a, b) ∈ (g.children old).zip (h.children new) → Leads g h target a b) →
      Leads g h target old new

namespace Leads

theorem target_eq (l : Leads g h target old new) : target old = new := by
  cases l with
  | intro same => exact same

theorem each (l : Leads g h target old new) :
    List.Forall₂ (Leads g h target) (g.children old) (h.children new) := by
  cases l with
  | intro _ length all => exact List.forall₂_iff_zip.mpr ⟨length, fun mem => all _ _ mem⟩

/-- A target goes on leading to the same places while the slots there stay. -/
theorem grow (l : Leads g h target old new)
    (same : ∀ id, h.Below new id → k.children id = h.children id) : Leads g k target old new := by
  induction l with
  | @intro old new leads length _ ih =>
    have slots := same new (Below.refl h new)
    refine .intro leads (slots ▸ length) ?_
    rw [slots]
    exact fun a b mem => ih a b mem fun id below =>
      same id ((below_of_child (List.of_mem_zip mem).2).trans below)

/-- What leads from a node of a grown graph leads from the old node. -/
theorem shrink (l : Leads h k target old new) (e : Extends g h) (grounded : g.Grounded old) :
    Leads g k target old new := by
  induction l with
  | @intro old new leads length _ ih =>
    have slots := e.children (grounded old (Below.refl g old))
    rw [slots] at length ih
    exact .intro leads length fun a b mem =>
      ih a b mem (grounded.below (below_of_child (List.of_mem_zip mem).1))

/-- Two targets that agree on what is reached lead to the same places. -/
theorem retarget (l : Leads g h target old new)
    (same : ∀ id, g.Below old id → target' id = target id) : Leads g h target' old new := by
  induction l with
  | @intro old new leads length _ ih =>
    refine .intro ((same old (Below.refl g old)).trans leads) length fun a b mem => ih a b mem ?_
    exact fun id below => same id ((below_of_child (List.of_mem_zip mem).1).trans below)

end Leads

/-! ## Trees apart from their templates -/

/-- Where the nodes within a root stay, the same is within it. -/
theorem within_iff_of_same (same : ∀ id, g.Within root id → h.node id = g.node id) {id : NodeId} :
    h.Within root id ↔ g.Within root id := by
  have held : ∀ {id}, g.Within root id → h.held id = g.held id := fun within => by
    rw [Graph.held, Graph.held, children, children, same _ within]
  constructor <;> intro within
  · induction within with
    | here => exact .here
    | down _ mem ih => exact ih.down (held ih ▸ mem)
  · induction within with
    | here => exact .here
    | down way mem ih => exact ih.down ((held way).symm ▸ mem)

theorem Within.mem_of_closed {ids : List NodeId} {id : NodeId} (within : g.Within root id)
    (mem : root ∈ ids) (closed : ∀ owner ∈ ids, ∀ child ∈ g.held owner, child ∈ ids) : id ∈ ids := by
  induction within with
  | here => exact mem
  | down _ held ih => exact closed _ ih _ held

/-- A well-linked tree of which no node is part of a template that the tree holds. -/
structure Clear (g : Graph) (top : NodeId) : Prop where
  linked : g.Linked top
  whole : g.Whole top
  apart : ∀ {owner body id}, g.Within top owner → body ∈ (g.node owner).templateBodies →
    g.Within body id → ¬ g.Below top id

namespace Clear

theorem grow (c : g.Clear top) (e : Extends g h) : h.Clear top where
  linked := e.linked c.linked
  whole := e.whole c.whole
  apart {owner body id} within mem inside below := by
    have within := (e.within_iff c.whole).mp within
    rw [e.node (c.whole owner within)] at mem
    have part : g.Whole body :=
      c.whole.within (within.down (List.mem_append_right _ mem))
    exact c.apart within mem ((e.within_iff part).mp inside)
      ((e.below_iff c.whole.grounded).mp below)

/-- A tree stays apart from its templates while it and they keep their nodes. -/
theorem of_same (c : g.Clear top) (linked : h.Linked top) (size : g.size ≤ h.size)
    (same : ∀ id, g.Within top id → h.node id = g.node id) : h.Clear top where
  linked := linked
  whole id inside :=
    Nat.lt_of_lt_of_le (c.whole id ((within_iff_of_same same).mp inside)) size
  apart {owner body id} above mem inside below := by
    have above := (within_iff_of_same same).mp above
    rw [same owner above] at mem
    have part := above.down (List.mem_append_right _ mem)
    have inside := (within_iff_of_same fun id lower => same id (part.trans lower)).mp inside
    refine c.apart above mem inside ((below_iff_of_children fun id lower => ?_).mp below)
    exact congrArg Node.children (same id lower.within)

/-- What is within a part of the tree and in the tree is below the part. -/
theorem below_of_within (c : g.Clear top) {part id : NodeId} (above : g.Below top part)
    (within : g.Within part id) (below : g.Below top id) : g.Below part id := by
  have split : g.Below part id ∨ ∃ owner body, g.Within part owner ∧
      body ∈ (g.node owner).templateBodies ∧ g.Within body id := by
    clear below
    induction within with
    | here => exact .inl (Below.refl g part)
    | @down owner child within mem ih =>
      rcases ih with below | ⟨owner', body, within', held, inside⟩
      · rcases List.mem_append.mp mem with slot | held
        · exact .inl (below.child slot)
        · exact .inr ⟨owner, child, within, held, .here⟩
      · exact .inr ⟨owner', body, within', held, inside.down mem⟩
  rcases split with below | ⟨owner, body, within', held, inside⟩
  · exact below
  · exact absurd below (c.apart (above.within.trans within') held inside)

theorem of_closed (ids : List NodeId) (linked : g.Linked top) (mem : top ∈ ids)
    (has : ∀ id ∈ ids, g.Has id) (closed : ∀ owner ∈ ids, ∀ child ∈ g.held owner, child ∈ ids)
    (plain : ∀ id ∈ ids, (g.node id).templateBodies = []) : g.Clear top where
  linked := linked
  whole id within := has id (within.mem_of_closed mem closed)
  apart within held := by
    rw [plain _ (within.mem_of_closed mem closed)] at held
    cases held

end Clear

variable {names names' : Renaming} {depth : Nat}

/-- What is not within the roots of some copies keeps what was entered for it. -/
theorem Enters.kept {roots copies : List NodeId}
    (enters : Enters depth g names h names' roots copies) {id : NodeId}
    (apart : ∀ root ∈ roots, ¬ g.Within root id) : names'.apply id = names.apply id := by
  rcases enters.or_kept id with same | ⟨_, _, _, ⟨root, mem, within⟩, _⟩
  · rw [Renaming.apply, same, Renaming.apply]
  · exact absurd within (apart root mem)

theorem leads_copyEach {copy : Graph → Renaming → NodeId → Graph × Renaming × NodeId}
    (one : ∀ g names id, Copying g names (copy g names id).1 (copy g names id).2.1
      [(copy g names id).2.2])
    (enters : ∀ g names id, g.Whole id → Enters depth g names (copy g names id).1
      (copy g names id).2.1 [id] [(copy g names id).2.2])
    {ids : List NodeId}
    (leads : ∀ {h} names, Extends g h → ∀ id ∈ ids,
      Leads h (copy h names id).1 (copy h names id).2.1.apply id (copy h names id).2.2)
    (names : Renaming) (whole : ∀ id ∈ ids, g.Whole id)
    (apart : ids.Pairwise fun a b => ∀ id, g.Below a id → ¬ g.Within b id) {h : Graph}
    (e : Extends g h) :
    List.Forall₂ (Leads g (copyEach copy h names ids).1 (copyEach copy h names ids).2.1.apply) ids
      (copyEach copy h names ids).2.2 := by
  induction ids generalizing h names with
  | nil => exact .nil
  | cons id rest ih =>
    obtain ⟨others, apart⟩ := List.pairwise_cons.mp apart
    have first := one h names id
    have grown := e.trans first.beside
    have later := copying_copyEach one (copy h names id).1 (copy h names id).2.1 rest
    have entered := enters_copyEach one enters (copy h names id).1 (copy h names id).2.1 rest
      fun other mem => grown.whole (whole other (by simp [mem]))
    have tree := first.linked (copy h names id).2.2 (by simp)
    refine .cons ?_ (ih (fun names e other mem => leads names e other (by simp [mem])) _
      (fun other mem => whole other (by simp [mem])) apart grown)
    have whole' := whole id (by simp)
    have placed := (leads names e id (by simp)).shrink e whole'.grounded
    refine (placed.grow fun other below => later.beside.children (tree.has_of_below below)).retarget
      fun other below => entered.kept fun part mem within => ?_
    exact others part mem other below ((grown.within_iff (whole part (by simp [mem]))).mp within)

/-- Below a tree apart from its templates, what is entered during a copy leads to the copy. -/
theorem Clear.leads_copyLevels (depth : Nat) {g : Graph} (c : g.Clear top) (names : Renaming)
    {id : NodeId} (above : g.Below top id)
    (deep : ∀ trail other, g.Trail id trail other → trail.length < depth) :
    Leads g (copyLevels depth g names id).1 (copyLevels depth g names id).2.1.apply id
      (copyLevels depth g names id).2.2 := by
  induction depth generalizing g names id with
  | zero => exact absurd (deep [] id .here) (Nat.not_lt_zero _)
  | succ depth ih =>
    have whole : ∀ other ∈ g.held id, g.Whole other := fun other mem =>
      (c.whole.within above.within).within (within_of_held mem)
    have copied := copying_copyEach (copying_copyLevels depth) g names (g.node id).children
    have copied' := copying_copyEach (copying_copyLevels depth)
      (copyEach (copyLevels depth) g names (g.node id).children).1
      (copyEach (copyLevels depth) g names (g.node id).children).2.1 (g.node id).templateBodies
    have bodies := enters_copyEach (copying_copyLevels depth)
      (fun g names id => enters_copyLevels depth g names)
      (copyEach (copyLevels depth) g names (g.node id).children).1
      (copyEach (copyLevels depth) g names (g.node id).children).2.1
      (g.node id).templateBodies fun other mem =>
        copied.beside.whole (whole other (List.mem_append_right _ mem))
    have apart : (g.node id).children.Pairwise fun a b =>
        ∀ other, g.Below a other → ¬ g.Within b other := by
      refine (c.linked.nodup above).imp_of_mem fun {a b} slot slot' ne other below within => ne ?_
      have inTree := above.trans ((below_of_child slot).trans below)
      exact c.linked.child_unique above slot slot' below
        (c.below_of_within (above.child slot') within inTree)
    have children := leads_copyEach (copying_copyLevels depth)
      (fun g names id => enters_copyLevels depth g names)
      (fun {h} names e child slot => ih (c.grow e) names
        ((e.below_iff c.whole.grounded).mpr (above.child slot)) fun trail other way => by
          have way := (e.trail_iff (whole child (List.mem_append_left _ slot)).grounded).mp way
          have short := deep _ other ((Trail.here.down slot).append way)
          simpa using short)
      names (fun child slot => whole child (List.mem_append_left _ slot)) apart (.refl g)
    have new : (copyLevels (depth + 1) g names id).1.children
        (copyLevels (depth + 1) g names id).2.2 =
          (copyEach (copyLevels depth) g names (g.node id).children).2.2 := by
      refine (congrArg Node.children (node_add_next _ _)).trans ?_
      rw [Node.children_withTemplateBodies, Node.children_withChildren]
      exact length_copyEach ..
    obtain ⟨length, all⟩ := List.forall₂_iff_zip.mp children
    refine .intro (Renaming.apply_of_get? (Renaming.get?_insert_same ..)) (new ▸ length) ?_
    rw [new]
    intro a b mem
    obtain ⟨slot, copy⟩ := List.of_mem_zip mem
    have tree := copied.linked b copy
    refine ((all mem).grow fun other below => ?_).retarget fun other below => ?_
    · have has := tree.has_of_below below
      exact (congrArg Node.children (node_add (copied'.beside.has has) _)).trans
        (copied'.beside.children has)
    · have inTree := above.trans ((below_of_child slot).trans below)
      have ne : id ≠ other := by
        rintro rfl
        exact c.linked.not_below_of_child above slot below
      refine (congrArg (Option.getD · other) (Renaming.get?_insert_other _ ne _)).trans ?_
      refine bodies.kept fun body mem within => ?_
      have body' := whole body (List.mem_append_right _ mem)
      exact c.apart above.within mem ((copied.beside.within_iff body').mp within) inTree

/-- The target of a copy leads from what was copied to the copy. -/
theorem Clear.leads_copyWith {g : Graph} (c : g.Clear top) (names : Renaming) :
    Leads g (g.copyWith top names).1 (copyLevels g.size g names top).2.1.apply top
      (g.copyWith top names).2 := by
  have short : ∀ trail other, g.Trail top trail other → trail.length < g.size := fun _ _ way =>
    c.linked.length_trail_lt way
  refine (c.leads_copyLevels g.size names (Below.refl g top) short).grow fun id _ => ?_
  exact (Relabels.rebind ..).children id

end Graph

end RangeQuery
