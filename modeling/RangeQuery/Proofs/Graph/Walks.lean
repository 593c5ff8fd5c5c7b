import RangeQuery.Graph.Walk
import RangeQuery.Proofs.Graph.Acyclic

/-!
Walks as lists. A walk that opens a node or not by the node alone meets the nodes of a recursive
list; below a well-linked node the bound on the levels cuts nothing off, and no node is met twice.
-/

namespace RangeQuery

namespace Graph

variable {σ : Type} {g : Graph}

/-- The nodes from a root within some levels, a node before its children, the children of the
opened nodes only. -/
def preorder (g : Graph) (opens : NodeId → Bool) : Nat → NodeId → List NodeId
  | 0, id => [id]
  | depth + 1, id =>
    id :: if opens id then (g.children id).flatMap (g.preorder opens depth) else []

theorem flatMap_preorder_opened (g : Graph) (opens : NodeId → Bool) (depth : Nat) (id : NodeId) :
    id :: (if opens id then
      (g.opened depth id).flatMap fun entry => g.preorder opens entry.1 entry.2 else []) =
    g.preorder opens depth id := by
  cases depth with
  | zero => cases opens id <;> simp [opened, preorder]
  | succ depth => cases h : opens id <;> simp [opened, preorder, h, List.flatMap_map]

/-- A walk that never ends early puts together what it meets in the order of the list. -/
theorem drain_eq_foldl {visit : σ → NodeId → Visit × σ} {opens : NodeId → Bool}
    (put : σ → NodeId → σ)
    (step : ∀ state id, visit state id = (if opens id then .descend else .skip, put state id))
    (stack : List (Nat × NodeId)) (state : σ) :
    g.drain visit stack state =
      (none, (stack.flatMap fun entry => g.preorder opens entry.1 entry.2).foldl put state) := by
  induction stack, state using drain.induct g visit with
  | case1 state => simp [drain]
  | case2 state depth id rest state' found =>
    rw [step] at found
    cases h : opens id <;> simp [h] at found
  | case3 state depth id rest state' found ih =>
    rw [drain, found]
    simp only
    rw [ih]
    rw [step] at found
    cases h : opens id with
    | true => simp [h] at found
    | false =>
      have same : put state id = state' := by simpa [h] using found
      rw [List.flatMap_cons, ← g.flatMap_preorder_opened opens depth id]
      simp [h, same]
  | case4 state depth id rest state' found ih =>
    rw [drain, found]
    simp only
    rw [ih]
    rw [step] at found
    cases h : opens id with
    | false => simp [h] at found
    | true =>
      have same : put state id = state' := by simpa [h] using found
      rw [List.flatMap_cons, ← g.flatMap_preorder_opened opens depth id]
      simp [h, same, List.flatMap_append]

/-- A walk from a root that never ends early. -/
theorem walk_eq_foldl {visit : σ → NodeId → Visit × σ} {opens : NodeId → Bool}
    (put : σ → NodeId → σ)
    (step : ∀ state id, visit state id = (if opens id then .descend else .skip, put state id))
    (root : NodeId) (state : σ) :
    g.walk root visit state = (none, (g.preorder opens g.size root).foldl put state) := by
  rw [walk, drain_eq_foldl put step]
  simp

theorem reverse_foldl_cons (lists : NodeId → Bool) (ids out : List NodeId) :
    (ids.foldl (fun out id => if lists id then id :: out else out) out).reverse =
      out.reverse ++ ids.filter lists := by
  induction ids generalizing out with
  | nil => simp
  | cons id rest ih =>
    rw [List.foldl_cons, ih]
    cases h : lists id <;> simp [h]

/-- A walk that lists some of the nodes it meets. -/
theorem walk_list {visit : List NodeId → NodeId → Visit × List NodeId}
    (opens lists : NodeId → Bool)
    (step : ∀ out id, visit out id =
      (if opens id then .descend else .skip, if lists id then id :: out else out))
    (root : NodeId) :
    (g.walk root visit []).2.reverse = (g.preorder opens g.size root).filter lists := by
  rw [walk_eq_foldl (fun out id => if lists id then id :: out else out) step]
  simpa using reverse_foldl_cons lists (g.preorder opens g.size root) []

/-! ## What is met -/

/-- The first step of a trail leads to a child of the root. -/
theorem Trail.top {root id : NodeId} {trail : List NodeId} (way : g.Trail root trail id) :
    trail = [] ∧ id = root ∨
      ∃ child ∈ g.children root, ∃ rest, g.Trail child rest id ∧ trail = rest ++ [root] := by
  induction way with
  | here => exact .inl ⟨rfl, rfl⟩
  | @down trail owner child way slot ih =>
    rcases ih with ⟨rfl, rfl⟩ | ⟨first, slot', rest, below, rfl⟩
    · exact .inr ⟨child, slot, [], .here, rfl⟩
    · exact .inr ⟨first, slot', owner :: rest, below.down slot, rfl⟩

/-- A node that a trail comes through owns something. -/
theorem Trail.exists_child {root id middle : NodeId} {trail : List NodeId}
    (way : g.Trail root trail id) (on : middle ∈ trail) : ∃ child, child ∈ g.children middle := by
  obtain ⟨_, _, _, _, below, nonempty⟩ := way.cut on
  rcases below.top with ⟨none, -⟩ | ⟨child, slot, -⟩
  · exact absurd none nonempty
  · exact ⟨child, slot⟩

/-- The list hangs on which of the listed nodes are opened, and on the children of these. -/
theorem preorder_congr_of_mem {h : Graph} {opens opens' : NodeId → Bool} {depth : Nat}
    {root : NodeId} (same : ∀ id ∈ g.preorder opens depth root,
      opens' id = opens id ∧ (opens id = true → h.children id = g.children id)) :
    h.preorder opens' depth root = g.preorder opens depth root := by
  induction depth generalizing root with
  | zero => rfl
  | succ depth ih =>
    obtain ⟨opened, slots⟩ := same root (by simp [preorder])
    rw [preorder, preorder, opened]
    cases isOpen : opens root with
    | false => rfl
    | true =>
      rw [slots isOpen]
      simp only [if_true]
      congr 1
      refine List.flatMap_congr fun child slot => ih fun id met => same id ?_
      rw [preorder, isOpen, if_pos rfl]
      exact List.mem_cons_of_mem _ (List.mem_flatMap.mpr ⟨child, slot, met⟩)

theorem preorder_congr {h : Graph} {opens opens' : NodeId → Bool} {depth : Nat} {root : NodeId}
    (same : ∀ id, g.Below root id → h.children id = g.children id ∧ opens' id = opens id) :
    h.preorder opens' depth root = g.preorder opens depth root := by
  induction depth generalizing root with
  | zero => rfl
  | succ depth ih =>
    obtain ⟨slots, opened⟩ := same root (.refl g root)
    rw [preorder, preorder, slots, opened]
    congr 2
    exact List.flatMap_congr fun child slot =>
      ih fun id below => same id ((below_of_child slot).trans below)

theorem mem_preorder {opens : NodeId → Bool} {depth : Nat} {root id : NodeId} :
    id ∈ g.preorder opens depth root ↔
      ∃ trail, g.Trail root trail id ∧ trail.length ≤ depth ∧
        ∀ owner ∈ trail, opens owner = true := by
  induction depth generalizing root with
  | zero =>
    constructor
    · intro mem
      obtain rfl : id = root := by simpa [preorder] using mem
      exact ⟨[], .here, Nat.le_refl 0, by simp⟩
    · rintro ⟨trail, way, short, _⟩
      obtain rfl := List.length_eq_zero_iff.mp (Nat.le_zero.mp short)
      cases way
      simp [preorder]
  | succ depth ih =>
    constructor
    · intro mem
      rcases List.mem_cons.mp mem with rfl | further
      · exact ⟨[], .here, by simp, by simp⟩
      · cases h : opens root with
        | false => simp [h] at further
        | true =>
          simp only [h, if_true, List.mem_flatMap] at further
          obtain ⟨child, slot, met⟩ := further
          obtain ⟨trail, way, short, opened⟩ := ih.mp met
          refine ⟨trail ++ [root], (Trail.here.down slot).append way, by simpa using short, ?_⟩
          intro owner on
          rcases List.mem_append.mp on with on | on
          · exact opened owner on
          · rw [List.mem_singleton.mp on, h]
    · rintro ⟨trail, way, short, opened⟩
      rcases way.top with ⟨rfl, rfl⟩ | ⟨child, slot, rest, below, rfl⟩
      · simp [preorder]
      · have opensRoot : opens root = true := opened root (by simp)
        simp only [preorder, opensRoot, if_true, List.mem_cons, List.mem_flatMap]
        refine .inr ⟨child, slot, ih.mpr ⟨rest, below, by simpa using short, ?_⟩⟩
        exact fun owner on => opened owner (by simp [on])

/-- A trail starts at its root. -/
theorem Trail.getLast {root id : NodeId} {trail : List NodeId} (way : g.Trail root trail id) :
    (id :: trail).getLast (by simp) = root := by
  induction way with
  | here => rfl
  | down way slot ih => simpa using ih

/-- In a tree the way to a node comes through all that is above the node. -/
theorem Tree.mem_trail {root middle id : NodeId} (t : g.Tree root) (above : g.Below root middle)
    (below : g.Below middle id) {trail : List NodeId} (way : g.Trail root trail id) :
    middle ∈ id :: trail := by
  obtain ⟨upper, first⟩ := above
  obtain ⟨lower, second⟩ := below
  have last := second.getLast
  rw [t.trail_unique way (first.append second), ← List.cons_append]
  exact List.mem_append_left _ (last ▸ List.getLast_mem _)

variable {root : NodeId}

/-- What is below two children of one node makes them one. -/
theorem Linked.child_unique (l : g.Linked root) {owner a b id : NodeId}
    (above : g.Below root owner) (ha : a ∈ g.children owner) (hb : b ∈ g.children owner)
    (below : g.Below a id) (below' : g.Below b id) : a = b := by
  obtain ⟨upper, way⟩ := above
  obtain ⟨one, first⟩ := below
  obtain ⟨two, second⟩ := below'
  have same := l.trail_unique ((way.down ha).append first) ((way.down hb).append second)
  have equal : one = two := List.append_cancel_right same
  subst equal
  exact first.getLast.symm.trans second.getLast

/-- Where the way down to a node stays, no new way leads to it. -/
theorem Linked.below_of_trail {h : Graph} (l : h.Linked root) {top first later : NodeId}
    (above : h.Below root top) {trail : List NodeId} (way : g.Trail top trail later)
    (stays : h.Trail top trail later) (within : h.Below top first) (below : h.Below first later) :
    g.Below first later := by
  obtain ⟨upper, start⟩ := above
  obtain ⟨middle, down⟩ := within
  obtain ⟨lower, last⟩ := below
  have same : lower ++ middle = trail := by
    have whole := l.trail_unique (start.append (down.append last)) (start.append stays)
    exact List.append_cancel_right whole
  have on : first ∈ later :: lower := last.getLast ▸ List.getLast_mem _
  rcases List.mem_cons.mp on with rfl | on
  · exact .refl g _
  · exact (way.below_of_mem (same ▸ List.mem_append_left _ on)).2

theorem Linked.nodup_preorder (l : g.Linked root) (opens : NodeId → Bool) (depth : Nat)
    {start : NodeId} (above : g.Below root start) : (g.preorder opens depth start).Nodup := by
  induction depth generalizing start with
  | zero => simp [preorder]
  | succ depth ih =>
    cases h : opens start with
    | false => simp [preorder, h]
    | true =>
      simp only [preorder, h, if_true, List.nodup_cons, List.mem_flatMap, not_exists, not_and]
      refine ⟨fun child slot met => ?_, ?_⟩
      · obtain ⟨trail, way, _, _⟩ := mem_preorder.mp met
        obtain ⟨upper, top⟩ := above
        have distinct := l.nodup_trail ((top.down slot).append way)
        simp at distinct
      · refine List.nodup_flatMap.mpr ⟨fun child slot => ih (above.child slot), ?_⟩
        refine (l.nodup above).pairwise_of_forall_ne fun a ha b hb ne => ?_
        intro id ma mb
        obtain ⟨one, first, _, _⟩ := mem_preorder.mp ma
        obtain ⟨two, second, _, _⟩ := mem_preorder.mp mb
        exact ne (l.child_unique above ha hb ⟨one, first⟩ ⟨two, second⟩)

/-- Below an acyclic node the bound on the levels cuts nothing off. -/
theorem Acyclic.mem_preorder {opens : NodeId → Bool} {start id : NodeId} (a : g.Acyclic start) :
    id ∈ g.preorder opens g.size start ↔
      ∃ trail, g.Trail start trail id ∧ ∀ owner ∈ trail, opens owner = true := by
  rw [Graph.mem_preorder]
  constructor
  · rintro ⟨trail, way, _, opened⟩
    exact ⟨trail, way, opened⟩
  · rintro ⟨trail, way, opened⟩
    exact ⟨trail, way, Nat.le_of_lt (a.length_trail_lt way), opened⟩

theorem Linked.mem_preorder (l : g.Linked root) {opens : NodeId → Bool} {start id : NodeId}
    (above : g.Below root start) :
    id ∈ g.preorder opens g.size start ↔
      ∃ trail, g.Trail start trail id ∧ ∀ owner ∈ trail, opens owner = true :=
  (l.acyclic above).mem_preorder

/-- One more level adds nothing once the levels reach as far as the trails. -/
theorem preorder_succ {opens : NodeId → Bool} {depth : Nat} {start : NodeId}
    (deep : ∀ {trail id}, g.Trail start trail id → trail.length ≤ depth) :
    g.preorder opens (depth + 1) start = g.preorder opens depth start := by
  induction depth generalizing start with
  | zero =>
    have leaf : g.children start = [] := by
      refine List.eq_nil_iff_forall_not_mem.mpr fun child slot => ?_
      have short := deep (Trail.here.down slot)
      simp at short
    cases opened : opens start <;> simp [preorder, opened, leaf]
  | succ depth ih =>
    rw [preorder, preorder]
    congr 2
    refine List.flatMap_congr fun child slot => ih fun {trail id} way => ?_
    have short := deep ((Trail.here.down slot).append way)
    simpa using short

theorem Acyclic.preorder_eq {opens : NodeId → Bool} {start : NodeId} (a : g.Acyclic start) :
    g.preorder opens g.size start =
      start :: if opens start then (g.children start).flatMap (g.preorder opens g.size) else [] := by
  rw [← preorder_succ fun way => Nat.le_of_lt (a.length_trail_lt way), preorder]

/-! ## Nodes after their children -/

/-- The nodes from a root within some levels, in the order in which a walk leaves them. -/
def exits (g : Graph) : Nat → NodeId → List NodeId
  | 0, id => [id]
  | depth + 1, id => (g.children id).flatMap (g.exits depth) ++ [id]

theorem flatMap_exits_opened (g : Graph) (depth : Nat) (id : NodeId) :
    ((g.opened depth id).flatMap fun entry => g.exits entry.1 entry.2) ++ [id] =
      g.exits depth id := by
  cases depth with
  | zero => simp [opened, exits]
  | succ depth => simp [opened, exits, List.flatMap_map]

/-- What a task adds to the list of a walk. -/
def Task.exits (g : Graph) : Task → List NodeId
  | .enter depth id => g.exits depth id
  | .leave id => [id]

theorem flatMap_enterAll (g : Graph) (stack : List (Nat × NodeId)) :
    (enterAll stack).flatMap (Task.exits g) = stack.flatMap fun entry => g.exits entry.1 entry.2 := by
  simp [enterAll, List.flatMap_map, Task.exits]

theorem drainTasks_eq (tasks : List Task) (out : List NodeId) :
    g.drainTasks tasks out = (tasks.flatMap (Task.exits g)).reverse ++ out := by
  induction tasks, out using drainTasks.induct g with
  | case1 out => simp [drainTasks]
  | case2 out id rest ih => rw [drainTasks, ih]; simp [Task.exits]
  | case3 out depth id rest ih =>
    rw [drainTasks, ih, List.flatMap_append, flatMap_enterAll, List.flatMap_cons,
      List.flatMap_cons, ← List.append_assoc]
    exact congrArg (fun list => (list ++ rest.flatMap (Task.exits g)).reverse ++ out)
      (g.flatMap_exits_opened depth id)

theorem postOrder_eq (g : Graph) (root : NodeId) : g.postOrder root = g.exits g.size root := by
  rw [postOrder, drainTasks_eq]
  simp [Task.exits]

theorem below_of_mem_exits {depth : Nat} {root id : NodeId} (mem : id ∈ g.exits depth root) :
    g.Below root id := by
  induction depth generalizing root with
  | zero =>
    rw [exits, List.mem_singleton] at mem
    exact mem ▸ Below.refl g id
  | succ depth ih =>
    rcases List.mem_append.mp mem with mem | mem
    · obtain ⟨child, slot, deeper⟩ := List.mem_flatMap.mp mem
      exact (below_of_child slot).trans (ih deeper)
    · exact List.mem_singleton.mp mem ▸ Below.refl g id

theorem below_of_mem_postOrder {root id : NodeId} (mem : id ∈ g.postOrder root) :
    g.Below root id := below_of_mem_exits (g.postOrder_eq root ▸ mem)

theorem mem_exits_of_trail {depth : Nat} {start id : NodeId} {trail : List NodeId}
    (way : g.Trail start trail id) (short : trail.length ≤ depth) : id ∈ g.exits depth start := by
  induction depth generalizing start trail with
  | zero =>
    obtain rfl := List.length_eq_zero_iff.mp (Nat.le_zero.mp short)
    cases way
    simp [exits]
  | succ depth ih =>
    rcases way.top with ⟨rfl, rfl⟩ | ⟨child, slot, rest, lower, rfl⟩
    · simp [exits]
    · refine List.mem_append_left _ (List.mem_flatMap.mpr ⟨child, slot, ih lower ?_⟩)
      simpa using short

theorem Acyclic.mem_postOrder {start id : NodeId} (a : g.Acyclic start) :
    id ∈ g.postOrder start ↔ g.Below start id := by
  refine ⟨below_of_mem_postOrder, fun ⟨trail, way⟩ => ?_⟩
  rw [postOrder_eq]
  exact mem_exits_of_trail way (Nat.le_of_lt (a.length_trail_lt way))

/-- Below a linked node a walk that lists the nodes it enters comes to none that is above an earlier
one. -/
theorem Linked.pairwise_preorder (l : g.Linked root) (opens : NodeId → Bool) (depth : Nat)
    {start : NodeId} (above : g.Below root start) :
    (g.preorder opens depth start).Pairwise fun entered later => ¬ g.Below later entered := by
  have inside : ∀ {depth start id}, id ∈ g.preorder opens depth start → g.Below start id := by
    intro depth start id mem
    obtain ⟨trail, way, -⟩ := Graph.mem_preorder.mp mem
    exact ⟨trail, way⟩
  induction depth generalizing start with
  | zero => simp [preorder]
  | succ depth ih =>
    cases h : opens start with
    | false => simp [preorder, h]
    | true =>
      simp only [preorder, h, if_true, List.pairwise_cons, List.pairwise_flatMap]
      refine ⟨fun later mem below => ?_, fun child slot => ih (above.child slot), ?_⟩
      · obtain ⟨child, slot, deeper⟩ := List.mem_flatMap.mp mem
        exact l.not_below_of_child above slot ((inside deeper).trans below)
      · refine (l.nodup above).pairwise_of_forall_ne fun a ha b hb ne x entered y later below => ne ?_
        exact l.child_unique above ha hb (inside entered) ((inside later).trans below)

/-- Below a linked node a walk that lists the nodes it leaves comes from none of them to a later one. -/
theorem Linked.pairwise_exits (l : g.Linked root) (depth : Nat) {start : NodeId}
    (above : g.Below root start) :
    (g.exits depth start).Pairwise fun left later => ¬ g.Below left later := by
  induction depth generalizing start with
  | zero => simp [exits]
  | succ depth ih =>
    rw [exits, List.pairwise_append, List.pairwise_flatMap]
    refine ⟨⟨fun child slot => ih (above.child slot), ?_⟩, by simp, ?_⟩
    · refine (l.nodup above).pairwise_of_forall_ne fun a ha b hb ne x left y later below => ne ?_
      exact l.child_unique above ha hb ((below_of_mem_exits left).trans below)
        (below_of_mem_exits later)
    · intro left mem last is below
      obtain rfl := List.mem_singleton.mp is
      obtain ⟨child, slot, deeper⟩ := List.mem_flatMap.mp mem
      exact l.not_below_of_child above slot ((below_of_mem_exits deeper).trans below)

theorem Linked.pairwise_postOrder (l : g.Linked root) {start : NodeId} (above : g.Below root start) :
    (g.postOrder start).Pairwise fun left later => ¬ g.Below left later := by
  rw [postOrder_eq]
  exact l.pairwise_exits g.size above

end Graph

end RangeQuery
