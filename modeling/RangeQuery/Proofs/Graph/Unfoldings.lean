import RangeQuery.Proofs.Graph.Walks

/-!
Walks as recursions. Below an acyclic node the graph unfolds into one tree, in which a shared node
stands once for each way to it; the orders of the walks are read off that tree by recursion, and the
loops that keep the handles still to come to on a stack end with what the recursion gives.
-/

namespace RangeQuery

/-- A node and the unfoldings of its children, in slot order. -/
inductive Unfolding where
  | node (id : NodeId) (below : List Unfolding)

/-- What a visitor was shown: the nodes in order, the one at which it ended the walk, and the state
it left. -/
structure Shown (σ : Type) where
  met : List NodeId
  endedAt : Option NodeId
  state : σ

namespace Shown

variable {σ : Type}

/-- Show more, unless the walk has ended. -/
def andThen (first : Shown σ) (further : σ → Shown σ) : Shown σ :=
  match first.endedAt with
  | some _ => first
  | none =>
    let last := further first.state
    { last with met := first.met ++ last.met }

theorem andThen_andThen (first : Shown σ) (second third : σ → Shown σ) :
    (first.andThen second).andThen third =
      first.andThen fun state => (second state).andThen third := by
  cases ended : first.endedAt with
  | some id => simp only [andThen, ended]
  | none =>
    cases ended' : (second first.state).endedAt with
    | some id => simp only [andThen, ended, ended']
    | none => simp only [andThen, ended, ended', List.append_assoc]

@[simp] theorem andThen_nothing (first : Shown σ) :
    (first.andThen fun state => ⟨[], none, state⟩) = first := by
  obtain ⟨met, ended, state⟩ := first
  cases ended <;> simp [andThen]

end Shown

namespace Unfolding

variable {σ : Type}

/-- The node at the top. -/
def top : Unfolding → NodeId
  | node id _ => id

mutual

/-- The order before the children: a visitor sees the top, and what is below it only if it asks for
that; nothing follows the node at which it ends the walk. -/
def shown (visit : σ → NodeId → Visit × σ) : Unfolding → σ → Shown σ
  | node id below, state =>
    match visit state id with
    | (.stop, next) => ⟨[id], some id, next⟩
    | (.skip, next) => ⟨[id], none, next⟩
    | (.descend, next) => (Shown.mk [id] none next).andThen (shownAll visit below)

/-- What a visitor sees of one tree after the other. -/
def shownAll (visit : σ → NodeId → Visit × σ) : List Unfolding → σ → Shown σ
  | [], state => ⟨[], none, state⟩
  | tree :: rest, state => (tree.shown visit state).andThen (shownAll visit rest)

end

mutual

/-- The order after the children. -/
def postOrder : Unfolding → List NodeId
  | node id below => postOrderAll below ++ [id]

/-- The order after the children, one tree after the other. -/
def postOrderAll : List Unfolding → List NodeId
  | [] => []
  | tree :: rest => tree.postOrder ++ postOrderAll rest

end

mutual

/-- The leaves of an AND-tree from left to right. -/
def conjuncts (g : Graph) : Unfolding → List NodeId
  | node id below => if (g.node id).isAnd then conjunctsAll g below else [id]

/-- The leaves of some AND-trees from left to right. -/
def conjunctsAll (g : Graph) : List Unfolding → List NodeId
  | [] => []
  | tree :: rest => tree.conjuncts g ++ conjunctsAll g rest

end

theorem shownAll_append (visit : σ → NodeId → Visit × σ) (front rest : List Unfolding) :
    ∀ state, shownAll visit (front ++ rest) state =
      (shownAll visit front state).andThen (shownAll visit rest) := by
  induction front with
  | nil => exact fun state => rfl
  | cons tree front ih =>
    intro state
    rw [List.cons_append, shownAll, shownAll, Shown.andThen_andThen]
    exact congrArg _ (funext ih)

end Unfolding

/-! ## What is met -/

/-- The visitor that notes what it is shown, the latest first, beside the state of another. -/
def noting {σ : Type} (visit : σ → NodeId → Visit × σ) :
    σ × List NodeId → NodeId → Visit × (σ × List NodeId) :=
  fun (state, met) id =>
    let (wish, next) := visit state id
    (wish, next, id :: met)

/-- What a noting visitor is shown. -/
def Shown.noted {σ : Type} (shown : Shown σ) (met : List NodeId) : Shown (σ × List NodeId) :=
  ⟨shown.met, shown.endedAt, shown.state, shown.met.reverse ++ met⟩

namespace Unfolding

variable {σ : Type} {visit : σ → NodeId → Visit × σ}

mutual

/-- A visitor that notes what it is shown is shown the same, and notes it in order. -/
theorem shown_noting (tree : Unfolding) (state : σ) (met : List NodeId) :
    tree.shown (noting visit) (state, met) = (tree.shown visit state).noted met := by
  match tree with
  | .node id below =>
    rw [shown, shown, noting]
    cases visit state id with
    | mk wish next =>
      cases wish with
      | stop | skip => rfl
      | descend =>
        have rest := shownAll_noting below next (id :: met)
        simp only [Shown.andThen, rest, Shown.noted, List.singleton_append, List.reverse_cons,
          List.append_assoc]

theorem shownAll_noting (trees : List Unfolding) (state : σ) (met : List NodeId) :
    shownAll (noting visit) trees (state, met) = (shownAll visit trees state).noted met := by
  match trees with
  | [] => rfl
  | tree :: rest =>
    rw [shownAll, shownAll, shown_noting tree state met]
    cases ended : (tree.shown visit state).endedAt with
    | some id => simp only [Shown.andThen, Shown.noted, ended]
    | none =>
      have more := shownAll_noting rest (tree.shown visit state).state
        ((tree.shown visit state).met.reverse ++ met)
      simp only [Shown.andThen, Shown.noted, ended] at more ⊢
      simp only [more, List.reverse_append, List.append_assoc]

end

end Unfolding

namespace Graph

variable {g : Graph} {root : NodeId} {σ : Type}

/-- A tree has under each node the children that the graph has there. -/
inductive Unfolded (g : Graph) : Unfolding → Prop
  | node {id : NodeId} {below : List Unfolding} : below.map Unfolding.top = g.children id →
      (∀ tree ∈ below, Unfolded g tree) → Unfolded g (.node id below)

namespace Unfolded

mutual

/-- A node unfolds into one tree only. -/
theorem unique {tree other : Unfolding} (unfolds : g.Unfolded tree) (unfolds' : g.Unfolded other)
    (tops : tree.top = other.top) : tree = other := by
  match tree, other, unfolds, unfolds' with
  | .node id below, .node id' below', .node slots parts, .node slots' parts' =>
    obtain rfl : id = id' := tops
    rw [uniqueAll parts parts' (slots.trans slots'.symm)]

theorem uniqueAll {trees others : List Unfolding} (unfold : ∀ tree ∈ trees, g.Unfolded tree)
    (unfold' : ∀ tree ∈ others, g.Unfolded tree)
    (tops : trees.map Unfolding.top = others.map Unfolding.top) : trees = others := by
  match trees, others with
  | [], [] => rfl
  | tree :: trees, other :: others =>
    obtain ⟨first, later⟩ := List.forall_mem_cons.mp unfold
    obtain ⟨first', later'⟩ := List.forall_mem_cons.mp unfold'
    obtain ⟨top, rest⟩ := List.cons.inj tops
    rw [unique first first' top, uniqueAll later later' rest]

end

end Unfolded

/-! ## Unfolding by levels -/

/-- The unfolding of a node within some levels. -/
def unfolding (g : Graph) : Nat → NodeId → Unfolding
  | 0, id => .node id []
  | depth + 1, id => .node id ((g.children id).map (g.unfolding depth))

theorem unfolding_eq (g : Graph) (depth : Nat) (id : NodeId) : g.unfolding depth id =
    .node id ((g.opened depth id).map fun entry => g.unfolding entry.1 entry.2) := by
  cases depth <;> simp [unfolding, opened, Function.comp_def]

@[simp] theorem top_unfolding (g : Graph) (depth : Nat) (id : NodeId) :
    (g.unfolding depth id).top = id := by
  cases depth <;> rfl

/-- Levels that reach as far as the trails unfold everything. -/
theorem unfolds_unfolding {depth : Nat}
    (deep : ∀ {trail id}, g.Trail root trail id → trail.length ≤ depth) :
    g.Unfolded (g.unfolding depth root) := by
  induction depth generalizing root with
  | zero =>
    refine .node ?_ (by simp)
    refine (List.eq_nil_iff_forall_not_mem.mpr fun child slot => ?_).symm
    have short := deep (Trail.here.down slot)
    simp at short
  | succ depth ih =>
    refine .node (by simp [Function.comp_def]) fun tree mem => ?_
    obtain ⟨child, slot, rfl⟩ := List.mem_map.mp mem
    refine ih fun {trail id} way => ?_
    have short := deep ((Trail.here.down slot).append way)
    simpa using short

theorem Acyclic.unfolds (a : g.Acyclic root) : g.Unfolded (g.unfolding g.size root) :=
  unfolds_unfolding fun way => Nat.le_of_lt (a.length_trail_lt way)

open Unfolding in
/-- A walk over levels shows the trees of its entries one after the other. -/
theorem drain_eq_shownAll (visit : σ → NodeId → Visit × σ) (stack : List (Nat × NodeId))
    (state : σ) :
    let shown := shownAll visit (stack.map fun entry => g.unfolding entry.1 entry.2) state
    g.drain visit stack state = (shown.endedAt, shown.state) := by
  induction stack, state using drain.induct g visit with
  | case1 state => simp [drain, shownAll]
  | case2 state depth id rest next found =>
    rw [drain, found, List.map_cons, shownAll, unfolding_eq, shown, found]
    rfl
  | case3 state depth id rest next found ih =>
    rw [drain, found, List.map_cons, shownAll, unfolding_eq, shown, found]
    exact ih
  | case4 state depth id rest next found ih =>
    rw [drain, found, List.map_cons, shownAll, unfolding_eq, shown, found, Shown.andThen_andThen]
    rw [List.map_append] at ih
    simp only [shownAll_append] at ih
    exact ih

theorem walk_eq_shown (visit : σ → NodeId → Visit × σ) (state : σ) :
    let shown := (g.unfolding g.size root).shown visit state
    g.walk root visit state = (shown.endedAt, shown.state) := by
  have walked := g.drain_eq_shownAll visit [(g.size, root)] state
  simp only [List.map_cons, List.map_nil, Unfolding.shownAll, Shown.andThen_nothing] at walked
  exact walked

theorem exits_eq_postOrder (depth : Nat) (id : NodeId) :
    g.exits depth id = (g.unfolding depth id).postOrder := by
  induction depth generalizing id with
  | zero => rfl
  | succ depth ih =>
    have all (ids : List NodeId) : ids.flatMap (g.exits depth) =
        Unfolding.postOrderAll (ids.map (g.unfolding depth)) := by
      induction ids with
      | nil => rfl
      | cons id ids more => rw [List.flatMap_cons, ih, more]; rfl
    rw [exits, all]
    rfl

end Graph

end RangeQuery
