import RangeQuery.Proofs.Graph.Mirrors
import RangeQuery.Proofs.Predicate.Sides
import RangeQuery.Proofs.Scope.Anchor
import RangeQuery.Scope.Correlated

/-!
Moving conjuncts about. Some ranges hold join predicates, and other predicates stand beside them.
Splitting a join predicate, joining predicates to one and moving the join predicate of an anchor
into a filter neither lose nor repeat a conjunct of all these, and change none.
-/

namespace RangeQuery

theorem Node.isAnd_of_isRange {node : Node} (isRange : node.isRange = true) :
    node.isAnd = false := by
  cases node <;> first | rfl | cases isRange

namespace Graph

variable {g h k : Graph} {ranges predicates predicates' : List NodeId}

/-- Only some of the old nodes were written. -/
structure Writes (g h : Graph) (ids : List NodeId) : Prop where
  size : g.size ≤ h.size
  node : ∀ {id}, g.Has id → id ∉ ids → h.node id = g.node id

/-- A predicate without circles that reaches none of some nodes. -/
structure Apart (g : Graph) (ids : List NodeId) (predicate : NodeId) : Prop where
  acyclic : g.Acyclic predicate
  free : ∀ id ∈ ids, ¬ g.Below predicate id

namespace Writes

variable {ids : List NodeId}

theorem refl (g : Graph) (ids : List NodeId) : Writes g g ids := ⟨Nat.le_refl _, fun _ _ => rfl⟩

theorem trans (a : Writes g h ids) (b : Writes h k ids) : Writes g k ids where
  size := Nat.le_trans a.size b.size
  node has out := (b.node (Nat.lt_of_lt_of_le has a.size) out).trans (a.node has out)

theorem mono (w : Writes g h ids) {more : List NodeId} (sub : ids ⊆ more) : Writes g h more :=
  ⟨w.size, fun has out => w.node has fun mem => out (sub mem)⟩

theorem of_same (same : Same id g h) (ids : List NodeId) : Writes g h ids :=
  ⟨same.size, fun has _ => same.node has⟩

theorem setJoin (g : Graph) {range : NodeId} (mem : range ∈ ids) (join : Option NodeId) :
    Writes g (g.setJoin range join) ids where
  size := Nat.le_of_eq (size_setJoin g range join).symm
  node _ out := node_setJoin_of_ne g (by rintro rfl; exact out mem) join

theorem setRequired (g : Graph) {range : NodeId} (mem : range ∈ ids) (required : Bool) :
    Writes g (g.setRequired range required) ids where
  size := Nat.le_of_eq (Relabels.setRequired g range required).size.symm
  node _ out := node_updateRange_of_ne g (by rintro rfl; exact out mem) _

theorem setCondition (g : Graph) {id : NodeId} (mem : id ∈ ids) (condition : Option NodeId) :
    Writes g (g.setCondition id condition) ids where
  size := Nat.le_of_eq (size_setCondition g id condition).symm
  node _ out := node_setCondition_of_ne g (by rintro rfl; exact out mem) condition

end Writes

namespace Apart

variable {ids : List NodeId} {predicate : NodeId}

theorem below {id : NodeId} (a : Apart g ids predicate) (below : g.Below predicate id) :
    Apart g ids id :=
  ⟨a.acyclic.below below, fun other mem further => a.free other mem (below.trans further)⟩

theorem nodes (a : Apart g ids predicate) (w : Writes g h ids) (id : NodeId)
    (below : g.Below predicate id) : h.node id = g.node id :=
  w.node (a.acyclic.grounded id below) fun mem => a.free id mem below

theorem below_iff (a : Apart g ids predicate) (w : Writes g h ids) {id : NodeId} :
    h.Below predicate id ↔ g.Below predicate id :=
  below_iff_of_children fun id below => congrArg Node.children (a.nodes w id below)

/-- A predicate stays apart from nodes that are written. -/
theorem of_writes (a : Apart g ids predicate) (w : Writes g h ids) : Apart h ids predicate where
  acyclic := a.acyclic.congr (fun id below => congrArg Node.children (a.nodes w id below))
    fun id below => Nat.lt_of_lt_of_le (a.acyclic.grounded id below) w.size
  free id mem below := a.free id mem ((a.below_iff w).mp below)

theorem conjuncts_eq (a : Apart g ids predicate) (w : Writes g h ids) :
    h.conjuncts predicate = g.conjuncts predicate :=
  a.acyclic.conjuncts_congr w.size (a.nodes w)

end Apart

/-! ## Predicates of ranges -/

/-- The join predicates of some ranges, and some predicates beside them. -/
def predicatesOf (g : Graph) (ranges predicates : List NodeId) : List NodeId :=
  ranges.flatMap (fun range => (g.join? range).toList) ++ predicates

/-- The predicates of some ranges, and those beside them, reach none of the ranges. -/
structure Gathered (g : Graph) (ranges predicates : List NodeId) : Prop where
  isRange : ∀ range ∈ ranges, (g.node range).isRange = true
  apart : ∀ predicate ∈ g.predicatesOf ranges predicates, Apart g ranges predicate

/-- The conjuncts of the predicates of some ranges, and of those beside them, were put elsewhere
among these, each of them once; all else that was written is new. -/
structure Regroups (ranges : List NodeId) (g : Graph) (predicates : List NodeId) (h : Graph)
    (predicates' : List NodeId) : Prop where
  writes : Writes g h ranges
  gathered : Gathered h ranges predicates'
  nested : ∀ range ∈ ranges, (h.node range).nested? = (g.node range).nested?
  perm : ((h.predicatesOf ranges predicates').flatMap h.conjuncts).Perm
    ((g.predicatesOf ranges predicates).flatMap g.conjuncts)

theorem mem_predicatesOf {predicate : NodeId} :
    predicate ∈ g.predicatesOf ranges predicates ↔
      (∃ range ∈ ranges, g.join? range = some predicate) ∨ predicate ∈ predicates := by
  simp [predicatesOf]

theorem predicatesOf_congr (joins : ∀ range ∈ ranges, h.join? range = g.join? range)
    (predicates : List NodeId) :
    h.predicatesOf ranges predicates = g.predicatesOf ranges predicates := by
  rw [predicatesOf, predicatesOf, List.flatMap_congr fun range mem => by rw [joins range mem]]

theorem join?_setRequired (g : Graph) (range other : NodeId) (required : Bool) :
    (g.setRequired range required).join? other = g.join? other := by
  cases node : g.node range with
  | range r =>
    have has : g.Has range := has_of_node node (by simp)
    by_cases same : range = other
    · subst same
      simp only [join?, range?, Graph.setRequired, updateRange, node, node_setNode_self g has,
        Option.bind_some]
    · simp only [join?, range?, Graph.setRequired, updateRange, node, node_setNode_of_ne g same]
  | _ => simp only [join?, range?, Graph.setRequired, updateRange, node]

/-- A predicate is added to a condition as predicates are joined. -/
theorem conjoin_toList_append (g : Graph) (condition : Option NodeId) (extra : NodeId) :
    g.conjoin (condition.toList ++ [extra]) =
      ((g.conjoinWith condition extra).1, some (g.conjoinWith condition extra).2) := by
  cases condition <;> rfl

/-- The predicates with those of one range in front. -/
theorem perm_predicatesOf (g : Graph) {range : NodeId} (mem : range ∈ ranges)
    (predicates : List NodeId) : (g.predicatesOf ranges predicates).Perm
      ((g.join? range).toList ++ predicates ++ g.predicatesOf (ranges.erase range) []) := by
  have front := (List.perm_cons_erase mem).flatMap_right fun range => (g.join? range).toList
  rw [List.flatMap_cons] at front
  refine (front.append_right predicates).trans ?_
  rw [predicatesOf, List.append_nil, List.append_assoc, List.append_assoc]
  exact List.perm_append_comm.append_left _

theorem Regroups.refl (f : Gathered g ranges predicates) :
    Regroups ranges g predicates g predicates :=
  ⟨.refl g ranges, f, fun _ _ => rfl, .refl _⟩

theorem Regroups.trans {predicates'' : List NodeId}
    (a : Regroups ranges g predicates h predicates')
    (b : Regroups ranges h predicates' k predicates'') :
    Regroups ranges g predicates k predicates'' :=
  ⟨a.writes.trans b.writes, b.gathered,
    fun range mem => (b.nested range mem).trans (a.nested range mem),
    b.perm.trans a.perm⟩

/-- Each old conjunct is reached from a range or a predicate beside them. -/
theorem Regroups.exists_part (r : Regroups ranges g predicates h predicates') {conjunct : NodeId}
    (listed : conjunct ∈ (g.predicatesOf ranges predicates).flatMap g.conjuncts) :
    ∃ part ∈ ranges ++ predicates', h.Within part conjunct := by
  obtain ⟨predicate, mem, listed⟩ := List.mem_flatMap.mp (r.perm.mem_iff.mpr listed)
  have below := (r.gathered.apart predicate mem).acyclic.below_of_mem_conjuncts listed
  rcases mem_predicatesOf.mp mem with ⟨range, isRange, held⟩ | beside
  · have slot := below_of_child (mem_children_of_join? held)
    exact ⟨range, List.mem_append_left _ isRange, (slot.trans below).within⟩
  · exact ⟨predicate, List.mem_append_right _ beside, below.within⟩

namespace Gathered

/-- New predicates are joined, and then ranges are written. What the ranges hold then, and what
stands beside them, is to list the old conjuncts before the ranges are written. -/
theorem regroups (f : Gathered g ranges predicates) (keeps : Same id g k) (w : Writes k h ranges)
    (views : ∀ range ∈ ranges, (h.node range).isRange = (k.node range).isRange ∧
      (h.node range).nested? = (k.node range).nested?)
    (acyclic : ∀ predicate ∈ h.predicatesOf ranges predicates', k.Acyclic predicate)
    (perm : ((h.predicatesOf ranges predicates').flatMap k.conjuncts).Perm
      ((g.predicatesOf ranges predicates).flatMap g.conjuncts)) :
    Regroups ranges g predicates h predicates' := by
  have same : ∀ range ∈ ranges, k.node range = g.node range := fun range mem =>
    keeps.node (has_of_isRange (f.isRange range mem))
  have apart : ∀ predicate ∈ h.predicatesOf ranges predicates', Apart k ranges predicate := by
    intro predicate mem
    refine ⟨acyclic predicate mem, fun range isRange below => ?_⟩
    -- A range is no conjunction, so the way to it leads through a conjunct, and that is an old one.
    have leaf : (k.node range).isAnd = false := by
      rw [same range isRange, Node.isAnd_of_isRange (f.isRange range isRange)]
    obtain ⟨conjunct, listed, further⟩ := (acyclic predicate mem).exists_conjunct below leaf
    obtain ⟨old, mem', listed'⟩ := List.mem_flatMap.mp
      (perm.mem_iff.mp (List.mem_flatMap.mpr ⟨predicate, mem, listed⟩))
    have a := (f.apart old mem').below ((f.apart old mem').acyclic.below_of_mem_conjuncts listed')
    exact a.free range isRange ((a.acyclic.below_of_same keeps).mp further)
  refine ⟨(Writes.of_same keeps ranges).trans w, ⟨fun range mem => ?_, fun predicate mem =>
    (apart predicate mem).of_writes w⟩, fun range mem => ?_, ?_⟩
  · rw [(views range mem).1, same range mem, f.isRange range mem]
  · rw [(views range mem).2, same range mem]
  · rwa [List.flatMap_congr fun predicate mem => (apart predicate mem).conjuncts_eq w]

/-- More predicates stand beside the ranges of a grown graph. -/
theorem grow (f : Gathered g ranges predicates) (e : Extends g h)
    (new : ∀ predicate ∈ predicates', Apart h ranges predicate) :
    Gathered h ranges (predicates' ++ predicates) ∧
      ((h.predicatesOf ranges (predicates' ++ predicates)).flatMap h.conjuncts).Perm
        ((g.predicatesOf ranges predicates).flatMap g.conjuncts ++
          predicates'.flatMap h.conjuncts) := by
  have w : Writes g h ranges := .of_same e.same ranges
  have same : ∀ range ∈ ranges, h.node range = g.node range := fun range mem =>
    e.node (has_of_isRange (f.isRange range mem))
  have joins : ∀ range ∈ ranges, h.join? range = g.join? range := fun range mem => by
    simp only [join?, range?, same range mem]
  have parts : (h.predicatesOf ranges (predicates' ++ predicates)).Perm
      (g.predicatesOf ranges predicates ++ predicates') := by
    rw [predicatesOf_congr joins, predicatesOf, predicatesOf, List.append_assoc]
    exact List.perm_append_comm.append_left _
  refine ⟨⟨fun range mem => same range mem ▸ f.isRange range mem, fun predicate mem => ?_⟩, ?_⟩
  · rcases List.mem_append.mp (parts.mem_iff.mp mem) with mem | mem
    · exact (f.apart predicate mem).of_writes w
    · exact new predicate mem
  · have lists := parts.flatMap_right h.conjuncts
    rwa [List.flatMap_append,
      List.flatMap_congr fun predicate mem => (f.apart predicate mem).conjuncts_eq w] at lists

/-- New predicates are joined and some stand beside the ranges then, which stay as they are. -/
theorem beside (f : Gathered g ranges predicates) (keeps : Same id g h)
    (acyclic : ∀ predicate ∈ predicates', h.Acyclic predicate)
    (perm : (predicates'.flatMap h.conjuncts).Perm (predicates.flatMap g.conjuncts)) :
    Regroups ranges g predicates h predicates' := by
  have same : ∀ range ∈ ranges, h.node range = g.node range := fun range mem =>
    keeps.node (has_of_isRange (f.isRange range mem))
  have joins : ∀ range ∈ ranges, h.join? range = g.join? range := fun range mem => by
    simp only [join?, range?, same range mem]
  have old : ∀ predicate ∈ ranges.flatMap (fun range => (g.join? range).toList),
      Apart g ranges predicate := fun predicate mem => f.apart predicate (List.mem_append_left _ mem)
  refine f.regroups keeps (.refl h ranges) (fun _ _ => ⟨rfl, rfl⟩) ?_ ?_
  · rw [predicatesOf_congr joins]
    intro predicate mem
    rcases List.mem_append.mp mem with mem | mem
    · exact (old predicate mem).acyclic.of_same keeps
    · exact acyclic predicate mem
  · rw [predicatesOf_congr joins, predicatesOf, predicatesOf, List.flatMap_append,
      List.flatMap_append, List.flatMap_congr fun predicate mem =>
        (old predicate mem).acyclic.conjuncts_of_same keeps]
    exact perm.append_left _

/-- The predicates beside some ranges are joined to one. -/
theorem conjoin (f : Gathered g ranges predicates) :
    Regroups ranges g predicates (g.conjoin predicates).1 (g.conjoin predicates).2.toList := by
  obtain ⟨acyclic, lists⟩ := conjunctsOf_conjoin fun predicate mem =>
    (f.apart predicate (List.mem_append_right _ mem)).acyclic
  refine f.beside (Same.conjoin id g predicates) (fun all mem => ?_) (.of_eq lists)
  exact acyclic all (Option.mem_toList.mp mem)

/-- The join predicate of a range is exchanged, after new predicates were joined. What is no longer
held by the range has to stand beside it. -/
theorem setJoin (f : Gathered g ranges predicates) (nodup : ranges.Nodup) (keeps : Same id g k)
    {range : NodeId} (mem : range ∈ ranges) {join : Option NodeId} {others : List NodeId}
    (acyclic : ∀ predicate ∈ join.toList ++ others, k.Acyclic predicate)
    (perm : ((join.toList ++ others).flatMap k.conjuncts).Perm (g.conjunctsOf (g.join? range))) :
    Regroups ranges g predicates (k.setJoin range join) (predicates ++ others) := by
  have same : ∀ range ∈ ranges, k.node range = g.node range := fun range mem =>
    keeps.node (has_of_isRange (f.isRange range mem))
  obtain ⟨r, node⟩ := Node.exists_of_isRange (f.isRange range mem)
  have has : k.Has range := keeps.has (has_of_node node (by simp))
  have node' := (same range mem).trans node
  have written := node_setJoin_self has node' join
  have joined : (k.setJoin range join).join? range = join := join?_eq written
  have kept : ∀ other ∈ ranges.erase range, (k.setJoin range join).join? other = g.join? other := by
    intro other later
    have ne := ((nodup.mem_erase_iff).mp later).1
    simp only [join?, range?, node_setJoin_of_ne k ne join, same other (List.mem_of_mem_erase later)]
  have front := (k.setJoin range join).perm_predicatesOf mem (predicates ++ others)
  rw [joined, predicatesOf_congr kept] at front
  have front' := g.perm_predicatesOf mem predicates
  have old : ∀ predicate ∈ predicates ++ g.predicatesOf (ranges.erase range) [],
      g.Acyclic predicate := fun predicate among =>
    (f.apart predicate (front'.mem_iff.mpr (by simp_all))).acyclic
  refine f.regroups keeps (.setJoin k mem join) (fun other _ => ?_) (fun predicate among => ?_) ?_
  · by_cases here : other = range
    · subst here
      rw [written, node']
      exact ⟨rfl, rfl⟩
    · rw [node_setJoin_of_ne k here join]
      exact ⟨rfl, rfl⟩
  · have among' := front.mem_iff.mp among
    by_cases new : predicate ∈ join.toList ++ others
    · exact acyclic predicate new
    · exact (old predicate (by simp_all)).of_same keeps
  · have lists : ∀ {part}, part ⊆ predicates ++ g.predicatesOf (ranges.erase range) [] →
        part.flatMap k.conjuncts = part.flatMap g.conjuncts := fun within =>
      List.flatMap_congr fun predicate among => (old predicate (within among)).conjuncts_of_same keeps
    refine (front.flatMap_right _).trans (.trans ?_ (front'.flatMap_right _).symm)
    simp only [List.flatMap_append, lists (List.subset_append_left _ _),
      lists (List.subset_append_right _ _)] at perm ⊢
    refine .append_right _ ?_
    refine .trans (List.perm_append_comm.append_left _) ?_
    rw [← List.append_assoc]
    exact perm.append_right _

/-- The demand for a partner row moves nothing. -/
theorem setRequired (f : Gathered g ranges predicates) {range : NodeId} (mem : range ∈ ranges)
    (required : Bool) :
    Regroups ranges g predicates (g.setRequired range required) predicates := by
  have joins : ∀ other ∈ ranges, (g.setRequired range required).join? other = g.join? other :=
    fun other _ => join?_setRequired ..
  have stamp := Node.formal_stamp.toRigid.toSteady.setRequired g range required
  have nested := Node.unbound_nested?.toRigid.toSteady.setRequired g range required
  refine f.regroups (.refl id g) (.setRequired g mem required) (fun other isRange => ?_) ?_ ?_
  · have has := has_of_isRange (f.isRange other isRange)
    exact ⟨stamp.isRange has, nested.node has⟩
  · rw [predicatesOf_congr joins]
    exact fun predicate mem => (f.apart predicate mem).acyclic
  · rw [predicatesOf_congr joins]

/-- The join predicate of an anchor moves into a filter. -/
theorem promote {condition : Option NodeId} (f : Gathered g ranges condition.toList)
    (nodup : ranges.Nodup) {anchor : NodeId} (mem : anchor ∈ ranges) :
    Regroups ranges g condition.toList (g.promote anchor condition).1
      (g.promote anchor condition).2.toList := by
  unfold Graph.promote
  cases held : g.join? anchor with
  | none => exact f.setRequired mem true
  | some join =>
    have moved : Regroups ranges g condition.toList (g.setJoin anchor none)
        (condition.toList ++ [join]) := by
      refine f.setJoin nodup (.refl id g) mem (fun predicate is => ?_) (by simp [held])
      obtain rfl : predicate = join := by simpa using is
      exact (f.apart predicate (mem_predicatesOf.mpr (.inl ⟨anchor, mem, held⟩))).acyclic
    have joined := moved.gathered.conjoin
    rw [conjoin_toList_append] at joined
    exact (moved.trans joined).trans (joined.gathered.setRequired mem true)

theorem withAnchor {condition : Option NodeId} (f : Gathered g ranges condition.toList)
    (nodup : ranges.Nodup) (usage : RangeUsage) :
    Regroups ranges g condition.toList (g.withAnchor ranges condition usage).1
      (g.withAnchor ranges condition usage).2.2.toList := by
  rcases g.withAnchor_cases ranges condition usage with same | ⟨anchor, mem, same⟩
  · rw [same]
    exact .refl f
  · rw [same]
    exact f.promote nodup mem

/-- A range keeps a part of its join predicate, and the other part stands beside the ranges. -/
theorem splitJoin (f : Gathered g ranges predicates) (nodup : ranges.Nodup) (live : List String)
    {copy : NodeId} (mem : copy ∈ ranges) :
    Regroups ranges g predicates
      ((g.split? live (g.join? copy)).1.setJoin copy (g.split? live (g.join? copy)).2.inner)
      (predicates ++ (g.split? live (g.join? copy)).2.correlation.toList) := by
  have acyclic : ∀ join ∈ g.join? copy, g.Acyclic join := fun join held =>
    (f.apart join (mem_predicatesOf.mpr (.inl ⟨copy, mem, held⟩))).acyclic
  obtain ⟨inside, sides⟩ := exists_sides? acyclic live
  refine f.setJoin nodup sides.keeps mem (fun predicate is => ?_) ?_
  · rcases List.mem_append.mp is with is | is
    · exact sides.acyclic.1 predicate (Option.mem_toList.mp is)
    · exact sides.acyclic.2 predicate (Option.mem_toList.mp is)
  · rw [List.flatMap_append, ← conjunctsOf, ← conjunctsOf, sides.inner, sides.outer]
    exact List.filter_append_perm inside _

/-- Each range keeps a part of its join predicate, and the other parts stand beside the ranges. -/
theorem splitJoins (f : Gathered g ranges predicates) (nodup : ranges.Nodup) (live : List String)
    {copies : List NodeId} (among : copies ⊆ ranges) :
    Regroups ranges g predicates (Graph.splitJoins live g copies).1
      (predicates ++ (Graph.splitJoins live g copies).2) := by
  induction copies generalizing g predicates with
  | nil =>
    simp only [Graph.splitJoins, List.append_nil]
    exact .refl f
  | cons copy rest ih =>
    have first := f.splitJoin nodup live (among (by simp) : copy ∈ ranges)
    have others := ih first.gathered fun id later => among (List.mem_cons_of_mem _ later)
    rw [List.append_assoc] at others
    exact first.trans others

/-- What is within the ranges and the predicates beside them stays so, apart from conjunctions. -/
theorem within (f : Gathered g ranges predicates) (r : Regroups ranges g predicates h predicates')
    {top id : NodeId} (mem : top ∈ ranges ++ predicates) (within : g.Within top id)
    (leaf : (g.node id).isAnd = false) : ∃ part ∈ ranges ++ predicates', h.Within part id := by
  -- A node on the way is kept, or lies in the AND-tree of a predicate, which may be taken apart.
  have onTree : ∀ {predicate trail id}, predicate ∈ g.predicatesOf ranges predicates →
      g.Trail predicate trail id → (∀ owner ∈ trail, (g.node owner).isAnd = true) →
      (∃ part ∈ ranges ++ predicates', h.Within part id) ∨
        ∃ predicate ∈ g.predicatesOf ranges predicates, ∃ trail, g.Trail predicate trail id ∧
          ∀ owner ∈ id :: trail, (g.node owner).isAnd = true := by
    intro predicate trail id mem way spine
    cases isAnd : (g.node id).isAnd with
    | true => exact .inr ⟨predicate, mem, trail, way, by simpa [isAnd] using spine⟩
    | false =>
      refine .inl (r.exists_part (List.mem_flatMap.mpr ⟨predicate, mem, ?_⟩))
      exact (f.apart predicate mem).acyclic.mem_conjuncts.mpr ⟨isAnd, trail, way, spine⟩
  suffices step : (∃ part ∈ ranges ++ predicates', h.Within part id) ∨
      ∃ predicate ∈ g.predicatesOf ranges predicates, ∃ trail, g.Trail predicate trail id ∧
        ∀ owner ∈ id :: trail, (g.node owner).isAnd = true by
    refine step.resolve_right ?_
    rintro ⟨_, _, _, _, spine⟩
    rw [spine id (by simp)] at leaf
    cases leaf
  clear leaf
  induction within with
  | here =>
    rcases List.mem_append.mp mem with mem | mem
    · exact .inl ⟨top, List.mem_append_left _ mem, .here⟩
    · exact onTree (mem_predicatesOf.mpr (.inr mem)) .here (by simp)
  | @down owner child _ holds ih =>
    rcases ih with ⟨part, mem', inside⟩ | ⟨predicate, mem', trail, way, spine⟩
    · by_cases written : owner ∈ ranges
      · obtain ⟨s, node⟩ := Node.exists_of_isRange (f.isRange owner written)
        have slots : child ∈ s.join ∨ child ∈ s.nested := by
          simpa [held, children, node, Node.children, Node.templateBodies] using holds
        rcases slots with join | nested
        · refine onTree (mem_predicatesOf.mpr (.inl ⟨owner, written, ?_⟩)) .here (by simp)
          rwa [join?_eq node]
        · obtain ⟨s', node'⟩ := Node.exists_of_isRange (r.gathered.isRange owner written)
          have same := r.nested owner written
          rw [node, node'] at same
          refine .inl ⟨part, mem', inside.down ?_⟩
          have nested' : s'.nested = some child := same.trans nested
          simp [held, children, node', Node.children, nested']
      · refine .inl ⟨part, mem', inside.down ?_⟩
        rw [held, children, r.writes.node (has_of_held holds) written]
        exact holds
    · have isAnd := spine owner (by simp)
      obtain ⟨left, right, node⟩ := Node.exists_of_isAnd isAnd
      have slot : child ∈ g.children owner := by
        simpa [held, node, Node.templateBodies] using holds
      exact onTree mem' (way.down slot) spine

end Gathered

end Graph

end RangeQuery
