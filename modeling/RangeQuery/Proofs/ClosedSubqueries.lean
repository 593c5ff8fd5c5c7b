import RangeQuery.Proofs.Scope.CopiedPredicates
import RangeQuery.Proofs.Scope.LiveRanges

/-!
Subqueries are closed. The scope of a subquery declares a copy of each live range. Its predicates
read the copies, what was copied with them, or ranges that are not live; and they list the conjuncts
of the join predicates of the live ranges and of the given condition, each once.
-/

namespace RangeQuery

/-- What a subquery holds: its ranges and its filter. -/
def CorrelatedScope.parts (sub : CorrelatedScope) : List NodeId :=
  sub.ranges ++ sub.condition.toList

namespace Graph

variable {g h : Graph} {metadata : Metadata} {live ranges : List NodeId} {expression : NodeId}
  {condition : Option NodeId} {usage : RangeUsage} {sub : CorrelatedScope}

/-- What stands in a subquery for each node that the copy of a range or a condition may read. What was
copied with it is stood for by a new node of the subquery, the rest by what a renaming tells. -/
def Rebinds (g h : Graph) (sub : CorrelatedScope) (names : Renaming) (top : NodeId)
    (target : NodeId → NodeId) : Prop :=
  ∀ id,
    (g.Within top id ∧ ¬ g.Has (target id) ∧
      (h.node (target id)).stamp = (g.node id).stamp ∧
      ((g.node id).isRange = true → (h.node (target id)).label = (g.node id).label ∧
        ∃ part ∈ sub.parts, h.Within part (target id))) ∨
    ¬ g.Below top id ∧ target id = names.apply id

/-- The images of the conjuncts of a predicate that was copied with a range or by itself: the same
conjuncts in their order, where the copies of the live ranges stand for these. -/
def Carried (g h : Graph) (sub : CorrelatedScope) (top : NodeId) (predicate : Option NodeId)
    (target : NodeId → NodeId) (image : List NodeId) : Prop :=
  Rebinds g h sub sub.copies top target ∧
    List.Forall₂ (Mirrors g h target) (g.conjunctsOf predicate) image

/-- A fresh copy of a range, with its nested query. -/
structure CopiedRange (g h : Graph) (sub : CorrelatedScope) (range copy : NodeId) : Prop where
  found : sub.copies.get? range = some copy
  fresh : ¬ g.Has copy
  label : (h.node copy).label = (g.node range).label
  nested : ∃ target, target range = copy ∧ Rebinds g h sub .empty range target ∧
    List.Forall₂ (Mirrors g h target) (g.node range).nested?.toList (h.node copy).nested?.toList

/-! ## The order of the copies -/

theorem isAnchor_eq {id : NodeId} (isRange : (g.node id).isRange = true) :
    g.isAnchor id = (g.join? id).isNone := by
  obtain ⟨r, node⟩ := Node.exists_of_isRange isRange
  simp [isAnchor, join?, range?, node, Range.isAnchor]

theorem join?_promote {anchor : NodeId} (isRange : (g.node anchor).isRange = true)
    (condition : Option NodeId) : (g.promote anchor condition).1.join? anchor = none := by
  unfold promote
  cases held : g.join? anchor with
  | none => rw [join?_setRequired, held]
  | some join =>
    obtain ⟨r, node⟩ := Node.exists_of_isRange isRange
    have written := node_setJoin_self (has_of_isRange isRange) node none
    have kept := (Same.conjoinWith id (g.setJoin anchor none) condition join).node
      (has_of_node written (by simp))
    rw [join?_setRequired, join?_eq (kept.trans written)]

/-- The copies are in order, only that a range without a join predicate stands first. -/
theorem exists_anchor (isRange : ∀ id ∈ ranges, (g.node id).isRange = true)
    (condition : Option NodeId) (usage : RangeUsage) {anchor : NodeId}
    (found : (g.withAnchor ranges condition usage).1.anchor?
      (g.withAnchor ranges condition usage).2.1 = some anchor) :
    anchor ∈ ranges ∧ (g.withAnchor ranges condition usage).1.join? anchor = none ∧
      anchorFirst (g.withAnchor ranges condition usage).2.1 anchor = anchorFirst ranges anchor := by
  rcases g.withAnchor_cases ranges condition usage with same | ⟨promoted, mem, same⟩
  · rw [same] at found ⊢
    have mem := List.mem_of_find?_eq_some found
    refine ⟨mem, ?_, rfl⟩
    have starts := List.find?_some found
    rwa [isAnchor_eq (isRange anchor mem), Option.isNone_iff_eq_none] at starts
  · rw [same] at found ⊢
    have none := join?_promote (isRange promoted mem) condition
    have stays := (Node.formal_stamp.toRigid.promote g promoted condition).isRange
      (has_of_isRange (isRange promoted mem))
    have starts : (g.promote promoted condition).1.isAnchor promoted = true := by
      rw [isAnchor_eq (stays.trans (isRange promoted mem)), none, Option.isNone_none]
    obtain rfl : promoted = anchor := by
      simpa [anchor?, anchorFirst, List.find?_cons, starts] using found
    exact ⟨mem, none, by simp [anchorFirst]⟩

theorem exists_anchor_built (isRange : ∀ id ∈ live, (g.node id).isRange = true) {anchor : NodeId}
    (found : (g.built live condition usage).1.anchor? (g.built live condition usage).2.1 =
      some anchor) :
    anchor ∈ g.liveCopies live ∧ (g.built live condition usage).1.join? anchor = none ∧
      anchorFirst (g.built live condition usage).2.1 anchor =
        anchorFirst (g.liveCopies live) anchor :=
  exists_anchor (gathered_ownCopied isRange condition).1.conjoin.gathered.isRange
    (g.filterJoined live condition).2 usage found

/-! ## What stands for what was read -/

theorem rebinds_of_stands {names : Renaming} {top copy : NodeId} {target : NodeId → NodeId}
    {k : Graph} (stamp : Same Node.stamp k h)
    (inside : ∀ id, k.Within copy id → (k.node id).isRange = true →
      (h.node id).label = (k.node id).label ∧ ∃ part ∈ sub.parts, h.Within part id)
    (each : ∀ id, Stands g k top copy id (target id) ∨
      ¬ g.Below top id ∧ target id = names.apply id) : Rebinds g h sub names top target := by
  refine fun id => (each id).imp_left fun s => ⟨s.within, s.fresh, ?_, fun isRange => ?_⟩
  · rw [stamp.node s.has, s.stamp]
  · have kept := s.label isRange
    have isRange' : (k.node (target id)).isRange = true := by
      rw [← Node.isRange_label, kept, Node.isRange_label, isRange]
    obtain ⟨label, part⟩ := inside (target id) s.inside isRange'
    exact ⟨label.trans kept, part⟩

/-- A subquery with the parts that were built for some live ranges. -/
structure Assembled (g : Graph) (live : List NodeId) (condition : Option NodeId) (usage : RangeUsage)
    (h : Graph) (sub : CorrelatedScope) : Prop where
  graph : h = (g.built live condition usage).1
  ranges : sub.ranges.Perm (g.liveCopies live)
  filter : sub.condition = (g.built live condition usage).2.2
  copies : sub.copies = g.copyOf live

namespace Assembled

variable (b : Assembled g live condition usage h sub)
  (isRange : ∀ id ∈ live, (g.node id).isRange = true)

include b

theorem mem_parts {part : NodeId}
    (mem : part ∈ g.liveCopies live ++ (g.built live condition usage).2.2.toList) :
    part ∈ sub.parts := by
  rw [CorrelatedScope.parts, b.filter]
  exact (b.ranges.append_right _).mem_iff.mpr mem

include isRange

/-- What stands for what a copied range reads: in its join predicate and in its nested query. -/
theorem rebinds_range {range copy : NodeId} (mem : copy ∈ g.liveCopies live)
    (found : (g.copyOf live).get? range = some copy) {target : NodeId → NodeId}
    (image : Image g (g.copyRanges live).1 .empty range copy target) :
    (g.copyOf live).apply copy = copy ∧
      Rebinds g h sub sub.copies range ((g.copyOf live).apply ∘ target) ∧
      Rebinds g h sub .empty range target := by
  obtain rfl := b.graph
  have copies := b.copies
  have old : ∀ {id}, ¬ g.Has id → (g.copyOf live).apply id = id := by
    intro id new
    cases found : (g.copyOf live).get? id with
    | none => exact Renaming.apply_of_none found
    | some copy => exact absurd (has_of_isRange (isRange id (copyOf_spec isRange found).1)) new
  have stamp := g.stamp_built live condition usage
  have inside : ∀ id, (g.copyRanges live).1.Within copy id →
      ((g.copyRanges live).1.node id).isRange = true →
      ((g.built live condition usage).1.node id).label = ((g.copyRanges live).1.node id).label ∧
        ∃ part ∈ sub.parts, (g.built live condition usage).1.Within part id := by
    intro id within isRange'
    have kept := ((g.stamp_rebound live).isRange (has_of_isRange isRange')).trans isRange'
    obtain ⟨part, mem', inside⟩ := exists_part_of_within isRange condition usage mem
      (g.within_rebound within) kept
    exact ⟨label_built_of_isRange condition usage isRange', part, b.mem_parts mem', inside⟩
  refine ⟨old (copyOf_spec isRange found).2.1, rebinds_of_stands stamp inside fun id => ?_,
    rebinds_of_stands stamp inside image.each⟩
  rw [Function.comp_apply]
  refine (image.each id).imp (fun stands => ?_) fun ⟨apart, same⟩ => ⟨apart, ?_⟩
  · rwa [old stands.fresh]
  · rw [same, copies, Renaming.apply_of_none (Renaming.get?_empty id)]

/-- What stands for what a copied condition reads. -/
theorem rebinds_condition {filter own : NodeId}
    (copied : (g.ownCopied live condition).2 = some own) {target : NodeId → NodeId}
    (image : Image g (g.ownCopied live condition).1 (g.copyOf live) filter own target) :
    Rebinds g h sub sub.copies filter target := by
  obtain rfl := b.graph
  rw [b.copies]
  refine rebinds_of_stands (same_built Node.formal_stamp.toRigid ..) ?_ image.each
  intro id within isRange'
  obtain ⟨part, mem, inside⟩ := (gathered_ownCopied isRange condition).1.within
    (regroups_built isRange condition usage) (List.mem_append_right _ (by simp [copied])) within
    (Node.isAnd_of_isRange isRange')
  exact ⟨(same_built Node.slotless_label.toRigid ..).node (has_of_isRange isRange'), part,
    b.mem_parts mem, inside⟩

/-! ## Copies and conjuncts -/

variable (acyclic : ∀ top ∈ live ++ condition.toList, g.Acyclic top)
  (whole : ∀ top ∈ live ++ condition.toList, g.Whole top)

include acyclic whole

/-- Each live range has a fresh copy, and the conjuncts of its join predicate have images. -/
theorem exists_copied (nodup : live.Nodup) :
    List.Forall₂ (fun range copy => CopiedRange g h sub range copy ∧
      ∃ target, sub.copies.get? range = some (target range) ∧
        Carried g h sub range (g.join? range) target
          ((g.rebound live).conjunctsOf ((g.rebound live).join? copy))) live (g.liveCopies live) := by
  have images := images_copyRanges (g := g) live
    (fun id mem => acyclic id (List.mem_append_left _ mem))
    fun id mem => whole id (List.mem_append_left _ mem)
  have pairs := List.forall₂_iff_zip.mp (get?_copyOf (g := g) nodup)
  refine forall₂_imp_of_mem (List.forall₂_iff_zip.mpr ⟨pairs.1, fun {range copy} mem =>
    And.intro (pairs.2 mem) (List.forall₂_zip images mem)⟩) ?_
  rintro range mem copy mem' ⟨found, target, image⟩
  have top := isRange range mem
  obtain ⟨same, joins, queries⟩ := b.rebinds_range isRange mem' found image
  obtain ⟨mirrors, mirrors'⟩ := mirrors_built isRange condition usage
    (acyclic range (List.mem_append_left _ mem)) top mem' image
  have label := (copyOf_spec isRange found).2.2
  have isRange' : ((g.copyRanges live).1.node copy).isRange = true := by
    rw [← Node.isRange_label, label, Node.isRange_label, top]
  obtain rfl := b.graph
  refine ⟨⟨b.copies ▸ found, (copyOf_spec isRange found).2.1,
    (label_built_of_isRange condition usage isRange').trans label, target, image.top, queries,
    mirrors'⟩, _, ?_, joins, mirrors⟩
  rw [b.copies, found, Function.comp_apply, image.top, same]

/-- The predicates of the subquery list the images of the conjuncts. -/
theorem exists_images (nodup : live.Nodup) :
    ∃ kept moved : List (List NodeId),
      List.Forall₂ (fun range image => ∃ target, sub.copies.get? range = some (target range) ∧
        Carried g h sub range (g.join? range) target image) live kept ∧
      List.Forall₂ (fun filter image => ∃ target,
        Carried g h sub filter (some filter) target image) condition.toList moved ∧
      (kept ++ moved).flatten.Nodup ∧
      ((h.predicatesOf sub.ranges sub.condition.toList).flatMap h.conjuncts).Perm
        (kept ++ moved).flatten := by
  have lists : ((h.predicatesOf sub.ranges sub.condition.toList).flatMap h.conjuncts).Perm
      (((g.rebound live).predicatesOf (g.liveCopies live) []).flatMap (g.rebound live).conjuncts ++
        (g.ownCopied live condition).1.conjunctsOf (g.ownCopied live condition).2) := by
    rw [b.filter, b.graph]
    exact (((b.ranges.flatMap_right _).append_right _).flatMap_right _).trans
      (perm_built isRange condition usage)
  have flat : ((g.liveCopies live).map (fun copy =>
      (g.rebound live).conjunctsOf ((g.rebound live).join? copy)) ++
        (g.ownCopied live condition).2.toList.map (g.ownCopied live condition).1.conjuncts).flatten =
      ((g.rebound live).predicatesOf (g.liveCopies live) []).flatMap (g.rebound live).conjuncts ++
        (g.ownCopied live condition).1.conjunctsOf (g.ownCopied live condition).2 := by
    rw [List.flatten_append, predicatesOf, List.append_nil, List.flatMap_assoc]
    rfl
  refine ⟨_, _, ?_, ?_, flat ▸ nodup_built isRange condition, flat ▸ lists⟩
  · rw [List.forall₂_map_right_iff]
    exact (b.exists_copied isRange acyclic whole nodup).imp fun _ _ both => both.2
  · cases condition with
    | none => exact .nil
    | some filter =>
      obtain ⟨own, target, copied, image, mirrors⟩ := exists_image_ownCopied isRange
        (acyclic filter (by simp)) (whole filter (by simp)) usage
      have rebinds := b.rebinds_condition isRange copied image
      obtain rfl := b.graph
      rw [copied, Option.toList_some, Option.toList_some, List.map_singleton]
      exact .cons ⟨target, rebinds, by rwa [conjunctsOf_some]⟩ .nil

/-- A predicate of the subquery reads into the subquery, or what a predicate read that was carried
over, unless that is live. -/
theorem closed (nodup : live.Nodup) {predicate range : NodeId}
    (mem : predicate ∈ h.predicatesOf sub.ranges sub.condition.toList)
    (reads : h.Reads predicate range) :
    (¬ g.Has range ∧ ((h.node range).isRange = true → ∃ part ∈ sub.parts, h.Within part range)) ∨
      range ∉ live ∧ ∃ old ∈ g.predicatesOf live condition.toList, g.Reads old range := by
  obtain ⟨kept, moved, ofRanges, ofCondition, -, lists⟩ :=
    b.exists_images isRange acyclic whole nodup
  obtain ⟨id, i, below, node, rfl⟩ := reads
  have gathered := (regroups_built isRange condition usage).gathered
  have a : h.Acyclic predicate := by
    obtain rfl := b.graph
    rw [b.filter] at mem
    have same := (b.ranges.flatMap_right fun range =>
      ((g.built live condition usage).1.join? range).toList).append_right
        (g.built live condition usage).2.2.toList
    exact (gathered.apart predicate (same.mem_iff.mp mem)).acyclic
  -- The identifier lies below the image of a conjunct that was carried over.
  obtain ⟨conjunct, listed, further⟩ := a.exists_conjunct below (by rw [node]; rfl)
  obtain ⟨image, among, listed⟩ := List.mem_flatten.mp
    (lists.mem_iff.mp (List.mem_flatMap.mpr ⟨predicate, mem, listed⟩))
  obtain ⟨top, old, target, ⟨rebinds, mirrors⟩, carried⟩ :
      ∃ top old target, Carried g h sub top old target image ∧
        ∀ predicate ∈ old, predicate ∈ g.predicatesOf live condition.toList ∧
          g.Acyclic predicate := by
    rcases List.mem_append.mp among with among | among
    · obtain ⟨range, isLive, target, -, carried⟩ := exists_of_forall₂ ofRanges among
      refine ⟨_, _, target, carried, fun join held => ?_⟩
      have above := acyclic range (List.mem_append_left _ isLive)
      exact ⟨mem_predicatesOf.mpr (.inl ⟨range, isLive, held⟩),
        above.child (mem_children_of_join? held)⟩
    · obtain ⟨filter, isFilter, target, carried⟩ := exists_of_forall₂ ofCondition among
      refine ⟨_, _, target, carried, ?_⟩
      rintro _ ⟨⟩
      exact ⟨mem_predicatesOf.mpr (.inr isFilter), acyclic filter (List.mem_append_right _ isFilter)⟩
  obtain ⟨origin, listed', m⟩ := exists_of_forall₂ mirrors listed
  obtain ⟨origin', below', m'⟩ := m.source further
  obtain ⟨i', node', rfl⟩ := m'.identifier node
  rcases rebinds i'.range with ⟨-, fresh, stamp, inside⟩ | ⟨-, same⟩
  · refine .inl ⟨fresh, fun isRange' => (inside ?_).2⟩
    rw [← Node.isRange_stamp, ← stamp, Node.isRange_stamp]
    exact isRange'
  · dsimp only
    rw [same, b.copies]
    cases found : (g.copyOf live).get? i'.range with
    | none =>
      rw [Renaming.apply_of_none found]
      refine .inr ⟨fun isLive => ?_, ?_⟩
      · obtain ⟨copy, -, found'⟩ := exists_of_forall₂ (get?_copyOf nodup).flip isLive
        exact absurd (found.symm.trans found') (by simp)
      · obtain ⟨predicate', held, listed'⟩ := List.mem_flatMap.mp listed'
        obtain ⟨among', acyclic'⟩ := carried predicate' (Option.mem_toList.mp held)
        exact ⟨predicate', among', origin', i',
          (acyclic'.below_of_mem_conjuncts listed').trans below', node', rfl⟩
    | some copy =>
      have mem' : copy ∈ g.liveCopies live :=
        List.mem_map_of_mem (f := (·.2)) (Renaming.mem_of_get?_ofList found)
      rw [Renaming.apply_of_get? found]
      exact .inl ⟨(copyOf_spec isRange found).2.1, fun _ =>
        ⟨copy, b.mem_parts (List.mem_append_left _ mem'), .here⟩⟩

end Assembled

/-- The scope of a subquery is closed and keeps every predicate. It has a fresh copy of each live range
and of no other, in their order but for one without a join predicate, which stands first. Its
predicates read nodes of the subquery, or what the join predicates of the live ranges and the
condition read that is not live. Their conjuncts are the images of the conjuncts of these, each of
them once. -/
theorem correlate_closed (distinct : ranges.Nodup)
    (isRange : ∀ range ∈ ranges, (g.node range).isRange = true)
    (names : (ranges.map g.rangeName).Nodup)
    (acyclic : ∀ top ∈ ranges ++ expression :: condition.toList, g.Acyclic top)
    (whole : ∀ top ∈ ranges ++ condition.toList, g.Whole top)
    (found : g.correlate metadata ranges expression condition = (h, some sub)) :
    let live := g.liveAmong ranges expression condition
    (∃ copies anchor, List.Forall₂ (CopiedRange g h sub) live copies ∧ copies.Nodup ∧
      anchor ∈ copies ∧ h.join? anchor = none ∧ sub.ranges = anchorFirst copies anchor) ∧
    (∀ range, range ∉ live → sub.copies.get? range = none) ∧
    (∀ predicate ∈ h.predicatesOf sub.ranges sub.condition.toList, ∀ range,
      h.Reads predicate range →
        (¬ g.Has range ∧
          ((h.node range).isRange = true → ∃ part ∈ sub.parts, h.Within part range)) ∨
        range ∉ live ∧ ∃ old ∈ g.predicatesOf live condition.toList, g.Reads old range) ∧
    ∃ kept moved : List (List NodeId),
      List.Forall₂ (fun range image => ∃ target, sub.copies.get? range = some (target range) ∧
        Carried g h sub range (g.join? range) target image) live kept ∧
      List.Forall₂ (fun filter image => ∃ target,
        Carried g h sub filter (some filter) target image) condition.toList moved ∧
      (kept ++ moved).flatten.Nodup ∧
      ((h.predicatesOf sub.ranges sub.condition.toList).flatMap h.conjuncts).Perm
        (kept ++ moved).flatten := by
  intro live
  have some : ranges.isEmpty = false := by
    cases empty : ranges.isEmpty with
    | false => rfl
    | true => simp [correlate, empty] at found
  have isLive : g.liveFor metadata ranges expression condition = live :=
    liveFor_eq metadata names fun top mem => acyclic top (List.mem_append_right _ mem)
  have among : live.Sublist ranges := g.liveAmong_sublist ranges expression condition
  have isRange' : ∀ range ∈ live, (g.node range).isRange = true := fun range mem =>
    isRange range (among.subset mem)
  have acyclic' : ∀ top ∈ live ++ condition.toList, g.Acyclic top := by
    intro top mem
    refine acyclic top ?_
    rcases List.mem_append.mp mem with mem | mem
    · exact List.mem_append_left _ (among.subset mem)
    · exact List.mem_append_right _ (List.mem_cons_of_mem _ mem)
  have whole' : ∀ top ∈ live ++ condition.toList, g.Whole top := fun top mem =>
    whole top ((among.append_right _).subset mem)
  have nodup := among.nodup distinct
  have computed := g.correlate_eq metadata expression condition some
  dsimp only at computed
  rw [isLive, found] at computed
  split at computed
  · next anchor first =>
    obtain ⟨same, is⟩ := Prod.mk.inj computed
    obtain rfl := Option.some.inj is
    obtain ⟨mem, starts, order⟩ := exists_anchor_built isRange' first
    have b : Assembled g live condition (g.usage metadata [expression] condition ranges) h
        { ranges := anchorFirst (g.built live condition
            (g.usage metadata [expression] condition ranges)).2.1 anchor
          condition := (g.built live condition
            (g.usage metadata [expression] condition ranges)).2.2
          copies := g.copyOf live } :=
      ⟨same, order ▸ perm_anchorFirst (g.forest_copyRanges live).nodup mem, rfl, rfl⟩
    refine ⟨⟨g.liveCopies live, anchor, ?_, (g.forest_copyRanges live).nodup, mem,
      same ▸ starts, order⟩, fun range out => ?_, fun predicate mem range reads =>
        b.closed isRange' acyclic' whole' nodup mem reads,
      b.exists_images isRange' acyclic' whole' nodup⟩
    · exact (b.exists_copied isRange' acyclic' whole' nodup).imp fun _ _ both => both.1
    · rw [Option.eq_none_iff_forall_ne_some]
      exact fun copy found => out (copyOf_spec isRange' found).1
  · cases computed

/-- Items of open orders, beside the customers of the orders, with a price and a test of a total:
`range c = Customer; range o = Order via o.customerId = c.id AND o.open; range i = Item via
i.orderId = o.id`, `i.price` and `o.total > 100`. -/
def itemsOfOpenOrders : Graph := ⟨#[
  ⟨.range { name := "c", entity := some "Customer", join := none, required := true
            included := true, nested := none }, none⟩,
  ⟨.identifier { range := ⟨6⟩, path := ["customerId"] }, some ⟨3⟩⟩,
  ⟨.identifier { range := ⟨0⟩, path := ["id"] }, some ⟨3⟩⟩,
  ⟨.binary .eq ⟨1⟩ ⟨2⟩, some ⟨5⟩⟩,
  ⟨.identifier { range := ⟨6⟩, path := ["open"] }, some ⟨5⟩⟩,
  ⟨.binary .and ⟨3⟩ ⟨4⟩, some ⟨6⟩⟩,
  ⟨.range { name := "o", entity := some "Order", join := some ⟨5⟩, required := true
            included := true, nested := none }, none⟩,
  ⟨.identifier { range := ⟨10⟩, path := ["orderId"] }, some ⟨9⟩⟩,
  ⟨.identifier { range := ⟨6⟩, path := ["id"] }, some ⟨9⟩⟩,
  ⟨.binary .eq ⟨7⟩ ⟨8⟩, some ⟨10⟩⟩,
  ⟨.range { name := "i", entity := some "Item", join := some ⟨9⟩, required := false
            included := true, nested := none }, none⟩,
  ⟨.identifier { range := ⟨10⟩, path := ["price"] }, none⟩,
  ⟨.identifier { range := ⟨6⟩, path := ["total"] }, some ⟨14⟩⟩,
  ⟨.number "100", some ⟨14⟩⟩,
  ⟨.binary .gt ⟨12⟩ ⟨13⟩, none⟩]⟩

/-- Nothing is known of the entities. -/
def noMetadata : Metadata where
  relations := fun _ => []
  nullable := fun _ _ => true

theorem acyclic_itemsOfOpenOrders {top : NodeId} (has : itemsOfOpenOrders.Has top) :
    itemsOfOpenOrders.Acyclic top ∧ itemsOfOpenOrders.Whole top := by
  have ordered : ∀ index < itemsOfOpenOrders.size, ∀ child ∈ itemsOfOpenOrders.children ⟨index⟩,
      child.index < index := by decide
  have plain : ∀ index < itemsOfOpenOrders.size,
      (itemsOfOpenOrders.node ⟨index⟩).templateBodies = [] := by decide
  have acyclic : itemsOfOpenOrders.Acyclic top :=
    acyclic_of_lt has fun owner child slot =>
      ordered owner.index (has_of_held (List.mem_append_left _ slot)) child slot
  exact ⟨acyclic, acyclic.grounded.whole fun id below =>
    plain id.index (acyclic.grounded id below)⟩

/-- The order and the item are copied. The item becomes the anchor, and what compared the order with
its customer reads the customer from the filter. -/
theorem correlate_closed_itemsOfOpenOrders :
    (([⟨0⟩, ⟨6⟩, ⟨10⟩] : List NodeId).Nodup ∧
      (∀ range ∈ ([⟨0⟩, ⟨6⟩, ⟨10⟩] : List NodeId),
        (itemsOfOpenOrders.node range).isRange = true) ∧
      (([⟨0⟩, ⟨6⟩, ⟨10⟩] : List NodeId).map itemsOfOpenOrders.rangeName).Nodup ∧
      (∀ top ∈ ([⟨0⟩, ⟨6⟩, ⟨10⟩] : List NodeId) ++ ⟨11⟩ :: (some ⟨14⟩ : Option NodeId).toList,
        itemsOfOpenOrders.Acyclic top) ∧
      ∀ top ∈ ([⟨0⟩, ⟨6⟩, ⟨10⟩] : List NodeId) ++ (some ⟨14⟩ : Option NodeId).toList,
        itemsOfOpenOrders.Whole top) ∧
    itemsOfOpenOrders.liveAmong [⟨0⟩, ⟨6⟩, ⟨10⟩] ⟨11⟩ (some ⟨14⟩) = [⟨6⟩, ⟨10⟩] ∧
    ∃ h sub, itemsOfOpenOrders.correlate noMetadata [⟨0⟩, ⟨6⟩, ⟨10⟩] ⟨11⟩ (some ⟨14⟩) = (h, some sub) ∧
      sub.ranges = [⟨24⟩, ⟨20⟩] ∧ sub.condition = some ⟨29⟩ ∧
      (h.predicatesOf sub.ranges sub.condition.toList).flatMap h.conjuncts =
        [⟨18⟩, ⟨27⟩, ⟨17⟩, ⟨23⟩] ∧
      (∃ copies anchor, List.Forall₂ (CopiedRange itemsOfOpenOrders h sub) [⟨6⟩, ⟨10⟩] copies ∧
        copies.Nodup ∧ anchor ∈ copies ∧ h.join? anchor = none ∧
        sub.ranges = anchorFirst copies anchor) ∧
      ∃ kept moved : List (List NodeId),
        List.Forall₂ (fun range image => ∃ target, sub.copies.get? range = some (target range) ∧
          Carried itemsOfOpenOrders h sub range (itemsOfOpenOrders.join? range) target image)
          [⟨6⟩, ⟨10⟩] kept ∧
        List.Forall₂ (fun filter image => ∃ target,
          Carried itemsOfOpenOrders h sub filter (some filter) target image) [⟨14⟩] moved ∧
        (kept ++ moved).flatten.Nodup ∧
        ([⟨18⟩, ⟨27⟩, ⟨17⟩, ⟨23⟩] : List NodeId).Perm (kept ++ moved).flatten := by
  have distinct : ([⟨0⟩, ⟨6⟩, ⟨10⟩] : List NodeId).Nodup := by decide
  have isRange : ∀ range ∈ ([⟨0⟩, ⟨6⟩, ⟨10⟩] : List NodeId),
      (itemsOfOpenOrders.node range).isRange = true := by decide
  have names : (([⟨0⟩, ⟨6⟩, ⟨10⟩] : List NodeId).map itemsOfOpenOrders.rangeName).Nodup := by decide
  have inside : ∀ top ∈ ([⟨0⟩, ⟨6⟩, ⟨10⟩] : List NodeId) ++
      ⟨11⟩ :: (some ⟨14⟩ : Option NodeId).toList, itemsOfOpenOrders.Has top := by decide
  have acyclic : ∀ top ∈ ([⟨0⟩, ⟨6⟩, ⟨10⟩] : List NodeId) ++
      ⟨11⟩ :: (some ⟨14⟩ : Option NodeId).toList, itemsOfOpenOrders.Acyclic top := fun top mem =>
    (acyclic_itemsOfOpenOrders (inside top mem)).1
  have whole : ∀ top ∈ ([⟨0⟩, ⟨6⟩, ⟨10⟩] : List NodeId) ++ (some ⟨14⟩ : Option NodeId).toList,
      itemsOfOpenOrders.Whole top := fun top mem =>
    (acyclic_itemsOfOpenOrders (inside top (by simp at mem ⊢; tauto))).2
  have live : itemsOfOpenOrders.liveAmong [⟨0⟩, ⟨6⟩, ⟨10⟩] ⟨11⟩ (some ⟨14⟩) = [⟨6⟩, ⟨10⟩] := by
    rw [← liveFor_eq noMetadata names fun top mem => acyclic top (List.mem_append_right _ mem)]
    decide +kernel
  have computed : ((itemsOfOpenOrders.correlate noMetadata [⟨0⟩, ⟨6⟩, ⟨10⟩] ⟨11⟩ (some ⟨14⟩)).2.map
      fun sub => (sub.ranges, sub.condition)) = some ([⟨24⟩, ⟨20⟩], some ⟨29⟩) := by decide +kernel
  have lists : ((itemsOfOpenOrders.correlate noMetadata [⟨0⟩, ⟨6⟩, ⟨10⟩] ⟨11⟩
      (some ⟨14⟩)).1.predicatesOf [⟨24⟩, ⟨20⟩] [⟨29⟩]).flatMap (itemsOfOpenOrders.correlate noMetadata
        [⟨0⟩, ⟨6⟩, ⟨10⟩] ⟨11⟩ (some ⟨14⟩)).1.conjuncts = [⟨18⟩, ⟨27⟩, ⟨17⟩, ⟨23⟩] := by
    decide +kernel
  generalize found : itemsOfOpenOrders.correlate noMetadata [⟨0⟩, ⟨6⟩, ⟨10⟩] ⟨11⟩ (some ⟨14⟩) = result
    at computed lists
  obtain ⟨h, built⟩ := result
  obtain ⟨sub, rfl, parts⟩ := Option.map_eq_some_iff.mp computed
  obtain ⟨ordered, filter⟩ := Prod.mk.inj parts
  have lists' : (h.predicatesOf sub.ranges sub.condition.toList).flatMap h.conjuncts =
      [⟨18⟩, ⟨27⟩, ⟨17⟩, ⟨23⟩] := by
    rw [ordered, filter]
    exact lists
  obtain ⟨copied, -, -, carried⟩ := correlate_closed distinct isRange names acyclic whole found
  rw [live] at copied carried
  rw [lists'] at carried
  exact ⟨⟨distinct, isRange, names, acyclic, whole⟩, live, h, sub, rfl, ordered, filter, lists',
    copied, carried⟩

end Graph

end RangeQuery
