import RangeQuery.Proofs.Scope.CopiedPredicates

/-!
What a split keeps inside. A conjunct stays if it reads live names only, or if it reads live names and
others and holds a disjunction. Where a predicate is shown again over ranges of the same names, it keeps
a part exactly if the old one does.
-/

namespace RangeQuery

namespace Node

theorem isOr_filled (target : NodeId → NodeId) (node : Node) (kids bodies : List NodeId) :
    (((node.reading target).withChildren kids).withTemplateBodies bodies).isOr = node.isOr := by
  cases node with
  | binary op _ _ => cases op <;> rfl
  | _ => rfl

end Node

namespace Graph

variable {g h k : Graph} {live : List String} {conjunct predicate old new id : NodeId}
  {target : NodeId → NodeId}

/-- A conjunct stays inside if it reads live names only, or live and other names around a
disjunction. -/
def StaysInside (g : Graph) (live : List String) (conjunct : NodeId) : Prop :=
  (∀ range, g.Reads conjunct range → g.rangeName range ∈ live) ∨
  (∃ range, g.Reads conjunct range ∧ g.rangeName range ∈ live) ∧
  (∃ range, g.Reads conjunct range ∧ g.rangeName range ∉ live) ∧
  ∃ id, g.Below conjunct id ∧ (g.node id).isOr = true

/-- A predicate keeps a part if some conjunct of it stays inside. -/
def KeepsPart (g : Graph) (live : List String) (predicate : NodeId) : Prop :=
  ∃ conjunct ∈ g.conjuncts predicate, g.StaysInside live conjunct

theorem Acyclic.staysInside_iff (a : g.Acyclic conjunct) :
    g.StaysInside live conjunct ↔ g.classify live conjunct ≠ .correlation := by
  rw [StaysInside, ← classify_eq_inner a, ← classify_eq_mixed a]
  cases g.classify live conjunct <;> simp

theorem Acyclic.keepsPart_iff (a : g.Acyclic predicate) :
    g.KeepsPart live predicate ↔
      ∃ conjunct ∈ g.conjuncts predicate, g.classify live conjunct ≠ .correlation :=
  exists_congr fun _ => and_congr_right fun mem =>
    (a.below (a.below_of_mem_conjuncts mem)).staysInside_iff

theorem Acyclic.conjuncts_ne_nil (a : g.Acyclic predicate) : g.conjuncts predicate ≠ [] := by
  refine a.induction fun id below ih => ?_
  cases isAnd : (g.node id).isAnd with
  | false => simp [conjuncts_of_not_and isAnd]
  | true =>
    obtain ⟨left, right, node⟩ := Node.exists_of_isAnd isAnd
    have slot : left ∈ g.children id := by simp [children, node, Node.children]
    simp [(a.below below).conjuncts_and node, ih left slot]

theorem isSome_conjoin (g : Graph) {ids : List NodeId} (some : ids ≠ []) :
    (g.conjoin ids).2.isSome = true := by
  cases ids with
  | nil => exact absurd rfl some
  | cons first rest => rfl

/-- A split leaves something inside exactly if the predicate keeps a part. -/
theorem Acyclic.isSome_inner_split (a : g.Acyclic predicate) (live : List String) :
    (g.split live predicate).2.inner.isSome = true ↔ g.KeepsPart live predicate := by
  rw [a.keepsPart_iff]
  unfold split
  dsimp only
  split
  · next mixed =>
    obtain ⟨conjunct, mem, is⟩ := List.any_eq_true.mp mixed
    refine iff_of_true rfl ⟨conjunct, mem, ?_⟩
    simp [of_decide_eq_true is]
  · next pure =>
    have unmixed : ∀ conjunct ∈ g.conjuncts predicate, g.classify live conjunct ≠ .mixed := by
      simpa using pure
    unfold splitConjuncts
    split
    · next none =>
      rw [List.isEmpty_iff, List.filter_eq_nil_iff] at none
      obtain ⟨conjunct, mem⟩ := List.exists_mem_of_ne_nil _ a.conjuncts_ne_nil
      exact iff_of_true rfl ⟨conjunct, mem, by simpa using none conjunct mem⟩
    · split
      · next none =>
        rw [List.isEmpty_iff, List.filter_eq_nil_iff] at none
        refine iff_of_false (by simp) ?_
        rintro ⟨conjunct, mem, stays⟩
        have outer := unmixed conjunct mem
        have inner := none conjunct mem
        cases kind : g.classify live conjunct <;> simp_all
      · next some =>
        obtain ⟨conjunct, mem, inner⟩ : ∃ conjunct ∈ g.conjuncts predicate,
            g.classify live conjunct = .inner := by simpa using some
        refine iff_of_true ?_ ⟨conjunct, mem, by simp [inner]⟩
        refine isSome_conjoin g (List.ne_nil_of_mem (a := conjunct) (List.mem_filter.mpr ⟨mem, ?_⟩))
        simpa using inner

/-! ## Predicates that stay -/

theorem reads_congr (nodes : ∀ id, g.Below conjunct id → h.node id = g.node id) {range : NodeId} :
    h.Reads conjunct range ↔ g.Reads conjunct range := by
  have below : ∀ {id}, h.Below conjunct id ↔ g.Below conjunct id :=
    below_iff_of_children fun id below => congrArg Node.children (nodes id below)
  constructor
  · rintro ⟨id, i, above, node, same⟩
    exact ⟨id, i, below.mp above, nodes id (below.mp above) ▸ node, same⟩
  · rintro ⟨id, i, above, node, same⟩
    exact ⟨id, i, below.mpr above, (nodes id above).trans node, same⟩

theorem Reads.of_below {range : NodeId} (reads : g.Reads id range) (below : g.Below predicate id) :
    g.Reads predicate range := by
  obtain ⟨reader, i, lower, node, same⟩ := reads
  exact ⟨reader, i, below.trans lower, node, same⟩

/-- What stays inside hangs on the nodes below and the names of the ranges read there only. -/
theorem staysInside_congr (nodes : ∀ id, g.Below conjunct id → h.node id = g.node id)
    (names : ∀ range, g.Reads conjunct range → h.rangeName range = g.rangeName range) :
    h.StaysInside live conjunct ↔ g.StaysInside live conjunct := by
  have below : ∀ {id}, h.Below conjunct id ↔ g.Below conjunct id :=
    below_iff_of_children fun id below => congrArg Node.children (nodes id below)
  simp only [StaysInside, reads_congr nodes, below]
  refine or_congr (forall₂_congr fun range reads => by rw [names range reads]) ?_
  refine and_congr (exists_congr fun range => and_congr_right fun reads => by rw [names range reads]) ?_
  refine and_congr (exists_congr fun range => and_congr_right fun reads => by rw [names range reads]) ?_
  exact exists_congr fun id => and_congr_right fun above => by rw [nodes id above]

theorem Acyclic.keepsPart_congr (a : g.Acyclic predicate) (size : g.size ≤ h.size)
    (nodes : ∀ id, g.Below predicate id → h.node id = g.node id)
    (names : ∀ range, g.Reads predicate range → h.rangeName range = g.rangeName range) :
    h.KeepsPart live predicate ↔ g.KeepsPart live predicate := by
  unfold KeepsPart
  rw [a.conjuncts_congr size nodes]
  refine exists_congr fun conjunct => and_congr_right fun mem => ?_
  have above := a.below_of_mem_conjuncts mem
  exact staysInside_congr (fun id below => nodes id (above.trans below))
    fun range reads => names range (reads.of_below above)

/-! ## Predicates that are shown again -/

theorem forall_iff_of_forall₂ {α β : Type} {P : α → Prop} {Q : β → Prop} {as : List α} {bs : List β}
    (each : List.Forall₂ (fun a b => P a ↔ Q b) as bs) : (∀ a ∈ as, P a) ↔ ∀ b ∈ bs, Q b := by
  induction each with
  | nil => simp
  | cons first _ ih => rw [List.forall_mem_cons, List.forall_mem_cons, first, ih]

/-- A node mirrors another one, and every node has the name of what is read for it. -/
structure Echoes (g h : Graph) (target : NodeId → NodeId) (old new : NodeId) : Prop where
  mirrors : Mirrors g h target old new
  names : ∀ range, g.Has range →
    h.Has (target range) ∧ h.rangeName (target range) = g.rangeName range

namespace Echoes

theorem reads_iff (e : Echoes g h target old new) {range : NodeId} :
    h.Reads new range ↔ ∃ origin, g.Reads old origin ∧ target origin = range := by
  constructor
  · rintro ⟨reader, i, below, node, rfl⟩
    obtain ⟨origin, above, mirror⟩ := e.mirrors.source below
    obtain ⟨i', node', rfl⟩ := mirror.identifier node
    exact ⟨i'.range, ⟨origin, i', above, node', rfl⟩, rfl⟩
  · rintro ⟨_, ⟨reader, i, below, node, rfl⟩, rfl⟩
    obtain ⟨shown, above, mirror⟩ := e.mirrors.shown below
    cases mirror with
    | intro kids bodies node' _ _ =>
      rw [node] at node'
      exact ⟨shown, { i with range := target i.range }, above, node', rfl⟩

theorem exists_isOr (e : Echoes g h target old new) :
    (∃ id, h.Below new id ∧ (h.node id).isOr = true) ↔
      ∃ id, g.Below old id ∧ (g.node id).isOr = true := by
  have same : ∀ {origin id}, Mirrors g h target origin id →
      (h.node id).isOr = (g.node origin).isOr := fun mirror => by
    cases mirror with
    | intro kids bodies node _ _ => rw [node, Node.isOr_filled]
  constructor
  · rintro ⟨id, below, isOr⟩
    obtain ⟨origin, above, mirror⟩ := e.mirrors.source below
    exact ⟨origin, above, same mirror ▸ isOr⟩
  · rintro ⟨origin, above, isOr⟩
    obtain ⟨id, below, mirror⟩ := e.mirrors.shown above
    exact ⟨id, below, (same mirror).trans isOr⟩

section

variable (e : Echoes g h target old new) (has : ∀ range, g.Reads old range → g.Has range)

include e has

/-- The same stays inside of what is shown again. -/
theorem staysInside_iff : h.StaysInside live new ↔ g.StaysInside live old := by
  have name : ∀ range, g.Reads old range → h.rangeName (target range) = g.rangeName range :=
    fun range reads => (e.names range (has range reads)).2
  unfold StaysInside
  rw [e.exists_isOr]
  simp only [e.reads_iff]
  refine or_congr ?_ (and_congr ?_ (and_congr_left' ?_))
  · constructor
    · intro all range reads
      rw [← name range reads]
      exact all _ ⟨range, reads, rfl⟩
    · rintro all _ ⟨range, reads, rfl⟩
      rw [name range reads]
      exact all range reads
  all_goals
    constructor
    · rintro ⟨_, ⟨range, reads, rfl⟩, is⟩
      exact ⟨range, reads, name range reads ▸ is⟩
    · rintro ⟨range, reads, is⟩
      exact ⟨_, ⟨range, reads, rfl⟩, by rwa [name range reads]⟩

theorem keepsPart_iff (a : g.Acyclic old) (a' : h.Acyclic new) :
    h.KeepsPart live new ↔ g.KeepsPart live old := by
  have each : List.Forall₂ (fun conjunct image => ¬ g.StaysInside live conjunct ↔
      ¬ h.StaysInside live image) (g.conjuncts old) (h.conjuncts new) := by
    refine forall₂_imp_of_mem (e.mirrors.conjuncts a a') fun conjunct mem image _ mirror => ?_
    have part : Echoes g h target conjunct image := ⟨mirror, e.names⟩
    exact not_congr (part.staysInside_iff fun range reads =>
      has range (reads.of_below (a.below_of_mem_conjuncts mem))).symm
  rw [← not_iff_not]
  simpa only [KeepsPart, not_exists, not_and] using (forall_iff_of_forall₂ each).symm

/-- Only nodes of the graph are read of what is shown again. -/
theorem has_of_reads {range : NodeId} (reads : h.Reads new range) : h.Has range := by
  obtain ⟨origin, reads', rfl⟩ := e.reads_iff.mp reads
  exact (e.names origin (has origin reads')).1

end

/-- The identifiers may be pointed at other ranges of the same names. -/
theorem reading (e : Echoes g h target old new) {again : NodeId → NodeId}
    (renamed : ∀ id, h.Below new id → k.node id = (h.node id).reading again)
    (names : ∀ range, h.Has range → k.Has (again range) ∧
      k.rangeName (again range) = h.rangeName range) :
    Echoes g k (again ∘ target) old new :=
  ⟨e.mirrors.reading again renamed, fun range has => by
    obtain ⟨has', name⟩ := e.names range has
    exact ⟨(names _ has').1, (names _ has').2.trans name⟩⟩

theorem grow (e : Echoes g h target old new) (f : Extends h k) (grounded : h.Grounded new) :
    Echoes g k target old new :=
  ⟨e.mirrors.grow fun id below => f.node (grounded id below), fun range had => by
    obtain ⟨has, name⟩ := e.names range had
    exact ⟨f.has has, (f.same.rangeName has).trans name⟩⟩

theorem shrink (e : Echoes h k target old new) (f : Extends g h) (grounded : g.Grounded old) :
    Echoes g k target old new :=
  ⟨e.mirrors.shrink f grounded, fun range has => by
    rw [← f.same.rangeName has]
    exact e.names range (f.has has)⟩

end Echoes

end Graph

end RangeQuery
