import RangeQuery.Predicate.Conjuncts
import RangeQuery.Proofs.Graph.Frames
import RangeQuery.Proofs.Graph.Walks

/-!
Conjunctions in zones. New AND nodes take over predicates that nothing owns; the AND nodes over the
conjuncts of a predicate can be left out of a zone, and then nothing owns the conjuncts.
-/

namespace RangeQuery

theorem Node.isAnd_stamp (node : Node) : node.stamp.isAnd = node.isAnd := by
  cases node with
  | binary op _ _ => cases op <;> rfl
  | _ => rfl

theorem Node.exists_of_isAnd {node : Node} (h : node.isAnd = true) :
    ∃ left right, node = .binary .and left right := by
  unfold isAnd at h
  split at h
  · exact ⟨_, _, rfl⟩
  · cases h

namespace Graph

variable {g h : Graph} {roots zone : Set NodeId} {loose : Set (NodeId × NodeId)}
  {level : NodeId → List NodeId} {scopes : List NodeId}

/-- Some predicates of a zone were joined to one, if there were any, which is ready in their
stead. -/
structure Joined (g h : Graph) (roots : Set NodeId) (loose : Set (NodeId × NodeId))
    (zone : Set NodeId) (level : NodeId → List NodeId) (scopes ids : List NodeId)
    (all : Option NodeId) : Prop where
  inOrder : h.Zone roots loose (g.grown h zone) level
  ready : ∀ id ∈ all, h.Ready roots loose (g.grown h zone) level scopes id
  others : ∀ {around id}, g.Ready roots loose zone level around id → id ∉ ids →
    h.Ready roots loose (g.grown h zone) level around id
  new : ∀ id ∈ all, id ∈ ids ∨ ¬ g.Has id
  glue : ∀ {id}, ¬ g.Has id → h.Has id → (h.node id).isAnd = true

theorem Zone.joined_self (z : g.Zone roots loose zone level) {ids : List NodeId}
    {all : Option NodeId} (ready : ∀ id ∈ all, g.Ready roots loose zone level scopes id)
    (mem : ∀ id ∈ all, id ∈ ids) : Joined g g roots loose zone level scopes ids all where
  inOrder := by rw [grown_self]; exact z
  ready := by rw [grown_self]; exact ready
  others other _ := by rw [grown_self]; exact other
  new id found := .inl (mem id found)
  glue new has := absurd has new

namespace Joined

variable {ids ids' : List NodeId} {all : Option NodeId}

theorem mono (j : Joined g h roots loose zone level scopes ids all) (more : ids ⊆ ids') :
    Joined g h roots loose zone level scopes ids' all :=
  { j with
    others := fun ready out => j.others ready fun mem => out (more mem)
    new := fun id found => (j.new id found).imp_left fun mem => more mem }

/-- The predicates were joined after a change without new nodes that keeps what is ready. -/
theorem after {g' : Graph} (j : Joined g' h roots loose zone level scopes ids all)
    (size : g'.size = g.size)
    (ready : ∀ {around id}, g.Ready roots loose zone level around id →
      g'.Ready roots loose zone level around id) :
    Joined g h roots loose zone level scopes ids all := by
  have has : ∀ {id}, g.Has id ↔ g'.Has id := by simp [Has, size]
  have grown : g'.grown h zone = g.grown h zone := by
    ext id
    simp only [Graph.grown, Set.mem_ofPred_eq, has]
  exact ⟨grown ▸ j.inOrder, grown ▸ j.ready, fun other out => grown ▸ j.others (ready other) out,
    fun id found => (j.new id found).imp_right fun new had => new (has.mp had),
    fun new => j.glue fun had => new (has.mpr had)⟩

/-- Labels were changed after the predicates were joined. -/
theorem relabel {k : Graph} (j : Joined g h roots loose zone level scopes ids all)
    (r : Relabels h k) (same : Same Node.stamp h k) :
    Joined g k roots loose zone level scopes ids all := by
  have grown : g.grown k zone = g.grown h zone := by
    ext id
    simp only [Graph.grown, Set.mem_ofPred_eq, r.has]
  refine ⟨grown ▸ r.zone j.inOrder, fun id found => grown ▸ r.ready (j.ready id found),
    fun other out => grown ▸ r.ready (j.others other out), j.new, fun new has => ?_⟩
  rw [← Node.isAnd_stamp, same.node (r.has.mp has), Node.isAnd_stamp]
  exact j.glue new (r.has.mp has)

end Joined

theorem Zone.conjoinOnto (z : g.Zone roots loose zone level)
    (fresh : ∀ id, ¬ g.Has id → level id = scopes) {first : NodeId} {rest : List NodeId}
    (ready : ∀ id ∈ first :: rest, g.Ready roots loose zone level scopes id)
    (nodup : (first :: rest).Nodup) :
    Joined g (g.conjoinOnto first rest).1 roots loose zone level scopes (first :: rest)
      (some (g.conjoinOnto first rest).2) := by
  induction rest generalizing g zone first with
  | nil => exact z.joined_self (by simpa [Graph.conjoinOnto] using ready) (by simp [Graph.conjoinOnto])
  | cons next rest ih =>
    have taken : ∀ child ∈ (Node.binary .and first next).children, child = first ∨ child = next :=
      by simp [Node.children]
    have on : level g.next = scopes := fresh _ g.not_has_next
    have pair : ∀ child ∈ (Node.binary .and first next).children,
        g.Ready roots loose zone level scopes child := by
      intro child slot
      rcases taken child slot with rfl | rfl <;> exact ready _ (by simp)
    have z' := z.add (.binary .and first next) (by rw [on]; exact pair)
      (by simp [Node.children] at nodup ⊢; exact nodup.1.1)
    have both := z.ready_next (.binary .and first next) scopes
      (fun child slot => (pair child slot).mem) on
    have apart : ∀ id ∈ rest, id ∉ (Node.binary .and first next).children := by
      intro id mem slot
      simp only [List.nodup_cons, List.mem_cons, not_or] at nodup
      rcases taken id slot with rfl | rfl
      · exact nodup.1.2 mem
      · exact nodup.2.1 mem
    have step := @ih _ _ z' (fun id new => fresh id fun has => new (has_add has _)) g.next ?_ ?_
    · have later := Same.conjoinOnto id (g.add (.binary .and first next)).1 g.next rest
      have larger : g.size ≤ (g.add (.binary .and first next)).1.size := by
        rw [size_add]; exact Nat.le_succ _
      have zones := grown_trans larger later.size zone
      rw [grown_add] at zones
      refine ⟨zones ▸ step.inOrder, zones ▸ step.ready, fun {around id} other out => ?_,
        fun id found => ?_, fun {id} new has => ?_⟩
      · simp only [List.mem_cons, not_or] at out
        refine zones ▸ step.others (z.ready_add _ other ?_) ?_
        · intro slot
          rcases taken id slot with rfl | rfl
          · exact out.1 rfl
          · exact out.2.1 rfl
        · simp only [List.mem_cons, not_or]
          exact ⟨ne_next_of_has (z.has other.mem), out.2.2⟩
      · rcases step.new id found with mem | new
        · rcases List.mem_cons.mp mem with same | mem
          · exact .inr fun had => g.not_has_next (same ▸ had)
          · exact .inl (List.mem_cons_of_mem _ (List.mem_cons_of_mem _ mem))
        · exact .inr fun had => new (has_add had _)
      · by_cases had : (g.add (.binary .and first next)).1.Has id
        · obtain rfl := (has_add_iff.mp had).resolve_left new
          have kept := later.node had
          exact (congrArg Node.isAnd (kept.trans (g.node_add_next _))).trans rfl
        · exact step.glue had has
    · intro id mem
      rcases List.mem_cons.mp mem with rfl | mem
      · exact both
      · exact z.ready_add _ (ready id (by simp [mem])) (apart id mem)
    · simp only [List.nodup_cons, List.mem_cons, not_or] at nodup
      refine List.nodup_cons.mpr ⟨fun mem => ?_, nodup.2.2⟩
      exact g.not_has_next (z.has (ready _ (by simp [mem])).mem)

/-- Predicates that nothing owns are joined to one. -/
theorem Zone.conjoin (z : g.Zone roots loose zone level)
    (scopes : List NodeId) (fresh : ∀ id, ¬ g.Has id → level id = scopes) {ids : List NodeId}
    (ready : ∀ id ∈ ids, g.Ready roots loose zone level scopes id) (nodup : ids.Nodup) :
    Joined g (g.conjoin ids).1 roots loose zone level scopes ids (g.conjoin ids).2 := by
  cases ids with
  | nil => exact z.joined_self (by simp [Graph.conjoin]) (by simp [Graph.conjoin])
  | cons first rest => exact z.conjoinOnto fresh ready nodup

/-- A predicate is joined to a condition that may be missing. -/
theorem Zone.conjoinWith (z : g.Zone roots loose zone level)
    (fresh : ∀ id, ¬ g.Has id → level id = scopes) (condition : Option NodeId) (extra : NodeId)
    (ready : ∀ id ∈ condition.toList ++ [extra], g.Ready roots loose zone level scopes id)
    (ne : condition ≠ some extra) :
    Joined g (g.conjoinWith condition extra).1 roots loose zone level scopes
      (condition.toList ++ [extra]) (some (g.conjoinWith condition extra).2) := by
  cases condition with
  | none => exact z.conjoinOnto fresh (by simpa using ready) (List.nodup_singleton extra)
  | some existing =>
    refine z.conjoinOnto fresh ready ?_
    simpa using fun same => ne (congrArg some same)

/-- Two groups of predicates of a zone were joined, each to one, which are ready in their stead. -/
structure JoinedBoth (g h : Graph) (roots : Set NodeId) (loose : Set (NodeId × NodeId))
    (zone : Set NodeId) (level : NodeId → List NodeId) (scopes ids ids' : List NodeId)
    (first second : Option NodeId) : Prop where
  inOrder : h.Zone roots loose (g.grown h zone) level
  ready : ∀ id, id ∈ first ∨ id ∈ second → h.Ready roots loose (g.grown h zone) level scopes id
  others : ∀ {around id}, g.Ready roots loose zone level around id → id ∉ ids → id ∉ ids' →
    h.Ready roots loose (g.grown h zone) level around id
  newFirst : ∀ id ∈ first, id ∈ ids ∨ ¬ g.Has id
  newSecond : ∀ id ∈ second, id ∈ ids' ∨ ¬ g.Has id
  apart : ∀ id ∈ second, id ∉ first
  glue : ∀ {id}, ¬ g.Has id → h.Has id → (h.node id).isAnd = true

/-- One group of predicates is joined to one, and then another group. -/
theorem Zone.conjoinBoth (z : g.Zone roots loose zone level) (scopes : List NodeId)
    (fresh : ∀ id, ¬ g.Has id → level id = scopes) {ids ids' : List NodeId}
    (ready : ∀ id, id ∈ ids ∨ id ∈ ids' → g.Ready roots loose zone level scopes id)
    (nodup : ids.Nodup) (nodup' : ids'.Nodup) (disjoint : ∀ id ∈ ids', id ∉ ids) :
    JoinedBoth g ((g.conjoin ids).1.conjoin ids').1 roots loose zone level scopes ids ids'
      (g.conjoin ids).2 ((g.conjoin ids).1.conjoin ids').2 := by
  have larger := (Same.conjoin id g ids).size
  have later := Same.conjoin (fun node => node) (g.conjoin ids).1 ids'
  have old : ∀ {id}, g.Has id → (g.conjoin ids).1.Has id := fun had => Nat.lt_of_lt_of_le had larger
  have one := z.conjoin scopes fresh (fun id mem => ready id (.inl mem)) nodup
  have other := one.inOrder.conjoin scopes (fun id new => fresh id fun had => new (old had))
    (fun id mem => one.others (ready id (.inr mem)) (disjoint id mem)) nodup'
  -- What the first group was joined to is none of the second group.
  have outside : ∀ id ∈ (g.conjoin ids).2, id ∉ ids' := fun id found mem => by
    rcases one.new id found with within | new
    · exact disjoint id mem within
    · exact new (z.has (ready id (.inr mem)).mem)
  have zones := grown_trans larger later.size zone
  refine ⟨zones ▸ other.inOrder, fun id found => ?_, fun was out out' =>
    zones ▸ other.others (one.others was out) out', one.new, fun id found =>
      (other.new id found).imp_right fun new had => new (old had), fun id found found' => ?_,
    fun {id} new has => ?_⟩
  · rw [← zones]
    rcases found with found | found
    · exact other.others (one.ready id found) (outside id found)
    · exact other.ready id found
  · rcases other.new id found with mem | new
    · exact outside id found' mem
    · exact new (one.inOrder.has (one.ready id found').mem)
  · by_cases had : (g.conjoin ids).1.Has id
    · rw [later.node had]
      exact one.glue new had
    · exact other.glue had has

/-! ## Taking a conjunction apart -/

/-- The AND nodes over the conjuncts of a predicate. -/
def spine (g : Graph) (predicate : NodeId) : Set NodeId :=
  {id | ∃ trail, g.Trail predicate trail id ∧ ∀ node ∈ id :: trail, (g.node node).isAnd = true}

theorem conjuncts_eq (g : Graph) (predicate : NodeId) :
    g.conjuncts predicate =
      (g.preorder (fun id => (g.node id).isAnd) g.size predicate).filter
        fun id => !(g.node id).isAnd :=
  walk_list _ _ (by intro out id; cases (g.node id).isAnd <;> rfl) predicate

theorem Acyclic.mem_conjuncts {predicate id : NodeId} (a : g.Acyclic predicate) :
    id ∈ g.conjuncts predicate ↔ (g.node id).isAnd = false ∧
      ∃ trail, g.Trail predicate trail id ∧ ∀ owner ∈ trail, (g.node owner).isAnd = true := by
  rw [conjuncts_eq, List.mem_filter, a.mem_preorder]
  simp [and_comm]

theorem mem_conjuncts {root predicate id : NodeId} (l : g.Linked root)
    (above : g.Below root predicate) :
    id ∈ g.conjuncts predicate ↔ (g.node id).isAnd = false ∧
      ∃ trail, g.Trail predicate trail id ∧ ∀ owner ∈ trail, (g.node owner).isAnd = true :=
  (l.acyclic above).mem_conjuncts

theorem nodup_conjuncts {root predicate : NodeId} (l : g.Linked root)
    (above : g.Below root predicate) : (g.conjuncts predicate).Nodup := by
  rw [conjuncts_eq]
  exact (l.nodup_preorder _ _ above).filter _

/-- A predicate that is no conjunction is its only conjunct. -/
theorem conjuncts_of_not_and {predicate : NodeId} (h : (g.node predicate).isAnd = false) :
    g.conjuncts predicate = [predicate] := by
  rw [conjuncts_eq]
  cases g.size <;> simp [preorder, h]

/-- The conjuncts of a conjunction are those of its left side, then those of its right side. -/
theorem Acyclic.conjuncts_and {predicate left right : NodeId} (a : g.Acyclic predicate)
    (node : g.node predicate = .binary .and left right) :
    g.conjuncts predicate = g.conjuncts left ++ g.conjuncts right := by
  have isAnd : (g.node predicate).isAnd = true := by rw [node]; rfl
  have slots : g.children predicate = [left, right] := by rw [children, node]; rfl
  simp only [conjuncts_eq]
  rw [a.preorder_eq]
  simp [isAnd, slots]

theorem Node.opensScope_of_isAnd {node : Node} (h : node.isAnd = true) :
    node.opensScope = false := by
  cases node <;> first | rfl | simp [Node.isAnd] at h

/-- Without the link to a predicate, the AND nodes over its conjuncts can be left out. -/
theorem Zone.dismantle (z : g.Zone roots ∅ zone level) {root owner predicate : NodeId}
    (l : g.Linked root) (above : g.Below root predicate) (mem : owner ∈ zone)
    (slot : predicate ∈ g.children owner) :
    g.Zone roots {(owner, predicate)} (zone \ g.spine predicate) level ∧
      ∀ id ∈ g.conjuncts predicate,
        g.Ready roots {(owner, predicate)} (zone \ g.spine predicate) level (level owner) id := by
  have top : ∀ {trail id}, g.Trail predicate trail id →
      (∀ node ∈ trail, (g.node node).isAnd = true) →
      id ∈ zone ∧ id ∉ roots ∧ level id = g.enter id (level owner) := by
    intro trail id way spine
    induction way with
    | here =>
      have link := z.link mem slot (Set.notMem_empty _)
      exact ⟨link.mem, z.not_mem_roots mem slot (Set.notMem_empty _), link.level⟩
    | @down trail node child way slot ih =>
      have isAnd := spine node (by simp)
      obtain ⟨within, -, on⟩ := ih fun other on => spine other (by simp [on])
      have link := z.link within slot (Set.notMem_empty _)
      refine ⟨link.mem, z.not_mem_roots within slot (Set.notMem_empty _), ?_⟩
      rw [link.level, on, enter_of_false (Node.opensScope_of_isAnd isAnd)]
  have free : ∀ {trail id}, g.Trail predicate trail id →
      (∀ node ∈ trail, (g.node node).isAnd = true) →
      g.Free {(owner, predicate)} (zone \ g.spine predicate) id := by
    intro trail id way spine other mem' slot'
    cases way with
    | here =>
      have recorded := z.owned mem'.1 slot' (Set.notMem_empty _)
      rw [z.owned mem slot (Set.notMem_empty _)] at recorded
      rw [Option.some.inj recorded]
      rfl
    | @down trail node child way slot =>
      have within := (top way fun other on => spine other (by simp [on])).1
      have recorded := z.owned mem'.1 slot' (Set.notMem_empty _)
      rw [z.owned within slot (Set.notMem_empty _)] at recorded
      obtain rfl := Option.some.inj recorded
      exact absurd ⟨trail, way, spine⟩ mem'.2
  refine ⟨(z.looser (Set.empty_subset _)).without ?_ ?_, ?_⟩
  · rintro id ⟨trail, way, spine⟩
    exact free way fun node on => spine node (by simp [on])
  · rintro id root ⟨trail, way, spine⟩
    exact (top way fun node on => spine node (by simp [on])).2.1 root
  · intro id conjunct
    obtain ⟨leaf, trail, way, spine⟩ := (mem_conjuncts l above).mp conjunct
    obtain ⟨within, nonroot, on⟩ := top way spine
    refine ⟨⟨within, ?_⟩, free way spine, nonroot, on⟩
    rintro ⟨_, _, again⟩
    rw [again id (by simp)] at leaf
    cases leaf

/-- What is ready elsewhere stays so when a predicate is taken apart, and is none of its conjuncts. -/
theorem Zone.ready_dismantle (z : g.Zone roots ∅ zone level) {root owner predicate id : NodeId}
    (l : g.Linked root) (above : g.Below root predicate) (mem : owner ∈ zone)
    (slot : predicate ∈ g.children owner) (ready : g.Ready roots ∅ zone level scopes id) :
    g.Ready roots {(owner, predicate)} (zone \ g.spine predicate) level scopes id ∧
      id ∉ g.conjuncts predicate := by
  have apart : ¬ g.Below predicate id := fun below => z.not_free_of_below mem slot below ready.free
  refine ⟨⟨⟨ready.mem, fun ⟨trail, way, _⟩ => apart ⟨trail, way⟩⟩,
    ready.free.mono (fun _ within => within.1) (Set.empty_subset _), ready.nonroot, ready.level⟩,
    fun conjunct => ?_⟩
  obtain ⟨-, trail, way, -⟩ := (mem_conjuncts l above).mp conjunct
  exact apart ⟨trail, way⟩

end Graph

end RangeQuery
