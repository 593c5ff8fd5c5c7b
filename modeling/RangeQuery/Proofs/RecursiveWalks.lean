import RangeQuery.Proofs.Graph.Unfoldings
import RangeQuery.Proofs.Predicate.Conjunctions

/-!
The loops of the walks. Each keeps handles on a stack and knows nothing of levels; started with a
node without circles below it, it comes to an end, and what it gives is the recursion over the tree
into which the node unfolds. The walks of the library give the same.
-/

namespace RangeQuery

namespace Graph

variable {g : Graph} {root : NodeId} {σ : Type}

/-! ## Loops over a stack of handles -/

/-- The loop of a walk ends with what it has shown: the latest handle is taken from the stack and
visited, and its children are put there in its place if the visitor asks for them. -/
inductive Visits (g : Graph) (visit : σ → NodeId → Visit × σ) :
    List NodeId → σ → Shown σ → Prop
  | done {state : σ} : Visits g visit [] state ⟨[], none, state⟩
  | stop {id : NodeId} {rest : List NodeId} {state next : σ} :
      visit state id = (.stop, next) → Visits g visit (id :: rest) state ⟨[id], some id, next⟩
  | skip {id : NodeId} {rest : List NodeId} {state next : σ} {shown : Shown σ} :
      visit state id = (.skip, next) → Visits g visit rest next shown →
      Visits g visit (id :: rest) state { shown with met := id :: shown.met }
  | descend {id : NodeId} {rest : List NodeId} {state next : σ} {shown : Shown σ} :
      visit state id = (.descend, next) → Visits g visit (g.children id ++ rest) next shown →
      Visits g visit (id :: rest) state { shown with met := id :: shown.met }

/-- The loop that lists nodes after their children ends with a list: a handle is put back with a
mark below its children, and listed when it comes up with the mark. -/
inductive Leaves (g : Graph) : List (NodeId × Bool) → List NodeId → Prop
  | done : Leaves g [] []
  | leave {id : NodeId} {rest : List (NodeId × Bool)} {out : List NodeId} :
      Leaves g rest out → Leaves g ((id, true) :: rest) (id :: out)
  | enter {id : NodeId} {rest : List (NodeId × Bool)} {out : List NodeId} :
      Leaves g ((g.children id).map (·, false) ++ (id, true) :: rest) out →
      Leaves g ((id, false) :: rest) out

/-- The loop that lists conjuncts ends with a list: the sides of a conjunction are put in its place,
and everything else is listed. -/
inductive Splits (g : Graph) : List NodeId → List NodeId → Prop
  | done : Splits g [] []
  | and {id left right : NodeId} {rest out : List NodeId} :
      g.node id = .binary .and left right → Splits g (left :: right :: rest) out →
      Splits g (id :: rest) out
  | leaf {id : NodeId} {rest out : List NodeId} :
      (g.node id).isAnd = false → Splits g rest out → Splits g (id :: rest) (id :: out)

/-! ## What the loops give -/

namespace Unfolded

mutual

/-- The loop shows the tree of the latest handle before it comes to the others. -/
theorem visits {tree : Unfolding} (unfolds : g.Unfolded tree) {visit : σ → NodeId → Visit × σ}
    {rest : List NodeId} {further : σ → Shown σ}
    (others : ∀ state, g.Visits visit rest state (further state)) (state : σ) :
    g.Visits visit (tree.top :: rest) state ((tree.shown visit state).andThen further) := by
  match tree, unfolds with
  | .node id below, .node slots parts =>
    have children := visitsAll parts others
    rw [slots] at children
    rw [Unfolding.shown, Unfolding.top]
    cases answer : visit state id with
    | mk wish next =>
      cases wish with
      | stop => exact .stop answer
      | skip => exact .skip answer (others next)
      | descend =>
        simp only [Shown.andThen_andThen]
        exact .descend answer (children next)

theorem visitsAll {trees : List Unfolding} (unfold : ∀ tree ∈ trees, g.Unfolded tree)
    {visit : σ → NodeId → Visit × σ} {rest : List NodeId} {further : σ → Shown σ}
    (others : ∀ state, g.Visits visit rest state (further state)) (state : σ) :
    g.Visits visit (trees.map Unfolding.top ++ rest) state
      ((Unfolding.shownAll visit trees state).andThen further) := by
  match trees with
  | [] => exact others state
  | tree :: trees =>
    obtain ⟨first, later⟩ := List.forall_mem_cons.mp unfold
    rw [Unfolding.shownAll, Shown.andThen_andThen]
    exact visits first (visitsAll later others) state

end

mutual

/-- The loop lists the tree of the latest handle before it comes to the others. -/
theorem leaves {tree : Unfolding} (unfolds : g.Unfolded tree) {rest : List (NodeId × Bool)}
    {out : List NodeId} (others : g.Leaves rest out) :
    g.Leaves ((tree.top, false) :: rest) (tree.postOrder ++ out) := by
  match tree, unfolds with
  | .node id below, .node slots parts =>
    have last : g.Leaves ((id, true) :: rest) (id :: out) := .leave others
    have children := leavesAll parts last
    rw [slots] at children
    rw [Unfolding.postOrder, Unfolding.top, List.append_assoc]
    exact .enter children

theorem leavesAll {trees : List Unfolding} (unfold : ∀ tree ∈ trees, g.Unfolded tree)
    {rest : List (NodeId × Bool)} {out : List NodeId} (others : g.Leaves rest out) :
    g.Leaves ((trees.map Unfolding.top).map (·, false) ++ rest)
      (Unfolding.postOrderAll trees ++ out) := by
  match trees with
  | [] => exact others
  | tree :: trees =>
    obtain ⟨first, later⟩ := List.forall_mem_cons.mp unfold
    rw [Unfolding.postOrderAll, List.append_assoc]
    exact leaves first (leavesAll later others)

end

variable {tree : Unfolding}

/-- Under a conjunction stand the trees of its sides. -/
theorem eq_sides {id left right : NodeId} {below : List Unfolding}
    (slots : below.map Unfolding.top = g.children id) (node : g.node id = .binary .and left right) :
    ∃ l r, below = [l, r] ∧ l.top = left ∧ r.top = right := by
  have sides : below.map Unfolding.top = [left, right] := by
    simpa [children, node, Node.children] using slots
  obtain ⟨l, r, rfl⟩ := List.length_eq_two.mp (by simpa using congrArg List.length sides)
  simp only [List.map_cons, List.map_nil, List.cons.injEq, and_true] at sides
  exact ⟨l, r, rfl, sides.1, sides.2⟩

/-- The loop lists the leaves of the latest handle before it comes to the others. -/
theorem splits (unfolds : g.Unfolded tree) {rest out : List NodeId} (others : g.Splits rest out) :
    g.Splits (tree.top :: rest) (tree.conjuncts g ++ out) := by
  induction unfolds generalizing rest out with
  | @node id below slots _ ih =>
    rw [Unfolding.conjuncts, Unfolding.top]
    cases isAnd : (g.node id).isAnd with
    | false => exact .leaf isAnd others
    | true =>
      obtain ⟨left, right, node⟩ := Node.exists_of_isAnd isAnd
      obtain ⟨l, r, rfl, rfl, rfl⟩ := eq_sides slots node
      refine .and node ?_
      simp only [if_true, Unfolding.conjunctsAll, List.append_nil, List.append_assoc]
      exact ih l (by simp) (ih r (by simp) others)

/-- The conjuncts of an acyclic predicate are the leaves of its tree. -/
theorem conjuncts_eq (unfolds : g.Unfolded tree) (a : g.Acyclic tree.top) :
    g.conjuncts tree.top = tree.conjuncts g := by
  induction unfolds with
  | @node id below slots _ ih =>
    rw [Unfolding.conjuncts, Unfolding.top]
    cases isAnd : (g.node id).isAnd with
    | false => exact conjuncts_of_not_and isAnd
    | true =>
      obtain ⟨left, right, node⟩ := Node.exists_of_isAnd isAnd
      obtain ⟨l, r, rfl, rfl, rfl⟩ := eq_sides slots node
      have side (tree : Unfolding) (mem : tree ∈ [l, r]) : g.Acyclic tree.top :=
        a.child (slots ▸ List.mem_map_of_mem mem)
      have above : g.Acyclic id := a
      rw [above.conjuncts_and node, ih l (by simp) (side l (by simp)),
        ih r (by simp) (side r (by simp))]
      simp [Unfolding.conjunctsAll]

end Unfolded

/-- A node without circles below it unfolds into one tree, and the walks are recursions over it: a
visitor is shown the order before the children, entering what it asks to descend into and ending
where it asks to stop; the order after the children and the conjuncts are read off alike. The loops
over bare handles end with the same. -/
theorem Acyclic.walks_eq_recursion (a : g.Acyclic root) :
    ∃ tree : Unfolding, (g.Unfolded tree ∧ tree.top = root) ∧
      (∀ other : Unfolding, g.Unfolded other → other.top = root → other = tree) ∧
      (∀ {σ : Type} (visit : σ → NodeId → Visit × σ) (state : σ),
        let shown := tree.shown visit state
        g.Visits visit [root] state shown ∧
        g.walk root visit state = (shown.endedAt, shown.state) ∧
        g.walk root (noting visit) (state, []) =
          (shown.endedAt, shown.state, shown.met.reverse)) ∧
      (g.Leaves [(root, false)] tree.postOrder ∧ g.postOrder root = tree.postOrder) ∧
      g.Splits [root] (tree.conjuncts g) ∧ g.conjuncts root = tree.conjuncts g := by
  have unfolds := a.unfolds
  have top : (g.unfolding g.size root).top = root := g.top_unfolding g.size root
  refine ⟨g.unfolding g.size root, ⟨unfolds, top⟩, ?_, ?_, ⟨?_, ?_⟩, ?_, ?_⟩
  · intro other unfolds' top'
    exact unfolds'.unique unfolds (top'.trans top.symm)
  · intro σ visit state
    refine ⟨?_, walk_eq_shown visit state, ?_⟩
    · have done (next : σ) : g.Visits visit [] next ⟨[], none, next⟩ := .done
      have loop := unfolds.visits done state
      rwa [Shown.andThen_nothing, top] at loop
    · rw [walk_eq_shown, Unfolding.shown_noting]
      simp [Shown.noted]
  · have loop := unfolds.leaves .done
    rwa [List.append_nil, top] at loop
  · rw [postOrder_eq, exits_eq_postOrder]
  · have loop := unfolds.splits .done
    rwa [List.append_nil, top] at loop
  · have list := unfolds.conjuncts_eq (top.symm ▸ a)
    rwa [top] at list

/-- A filter in which one comparison stands in three places: `(t AND NOT t) AND t`. -/
def repeatedComparison : Graph := ⟨#[
  ⟨.range { name := "c", entity := some "Customer", join := none, required := false
            included := true, nested := none }, none⟩,
  ⟨.identifier { range := ⟨0⟩, path := ["id"] }, some ⟨3⟩⟩,
  ⟨.number "1", some ⟨3⟩⟩,
  ⟨.binary .eq ⟨1⟩ ⟨2⟩, some ⟨6⟩⟩,
  ⟨.not ⟨3⟩, some ⟨5⟩⟩,
  ⟨.binary .and ⟨3⟩ ⟨4⟩, some ⟨6⟩⟩,
  ⟨.binary .and ⟨5⟩ ⟨3⟩, none⟩]⟩

/-- Count the nodes shown, without entering comparisons, up to the first negation. -/
def countToNegation (count : Nat) (id : NodeId) : Visit × Nat :=
  (match repeatedComparison.node id with
    | .not _ => .stop
    | .binary .eq _ _ => .skip
    | _ => .descend, count + 1)

/-- The comparison is listed once for each place; the counting visitor does not see it the third
time. -/
theorem Acyclic.walks_eq_recursion_repeatedComparison :
    repeatedComparison.Acyclic ⟨6⟩ ∧
    repeatedComparison.postOrder ⟨6⟩ =
      [⟨1⟩, ⟨2⟩, ⟨3⟩, ⟨1⟩, ⟨2⟩, ⟨3⟩, ⟨4⟩, ⟨5⟩, ⟨1⟩, ⟨2⟩, ⟨3⟩, ⟨6⟩] ∧
    repeatedComparison.conjuncts ⟨6⟩ = [⟨3⟩, ⟨4⟩, ⟨3⟩] ∧
    repeatedComparison.walk ⟨6⟩ (noting countToNegation) (0, []) =
      (some ⟨4⟩, 4, [⟨4⟩, ⟨3⟩, ⟨5⟩, ⟨6⟩]) ∧
    repeatedComparison.Visits countToNegation [⟨6⟩] 0 ⟨[⟨6⟩, ⟨5⟩, ⟨3⟩, ⟨4⟩], some ⟨4⟩, 4⟩ := by
  have acyclic : repeatedComparison.Acyclic ⟨6⟩ := acyclic_of_ordered (by decide) (by decide)
  let comparison := Unfolding.node ⟨3⟩ [.node ⟨1⟩ [], .node ⟨2⟩ []]
  have leaves : repeatedComparison.Unfolded comparison := .node rfl <| by
    simp only [List.mem_cons, List.not_mem_nil, or_false, forall_eq_or_imp, forall_eq]
    exact ⟨.node rfl (by simp), .node rfl (by simp)⟩
  have unfolds : repeatedComparison.Unfolded
      (.node ⟨6⟩ [.node ⟨5⟩ [comparison, .node ⟨4⟩ [comparison]], comparison]) := by
    refine .node rfl ?_
    simp only [List.mem_cons, List.not_mem_nil, or_false, forall_eq_or_imp, forall_eq]
    refine ⟨.node rfl ?_, leaves⟩
    simp only [List.mem_cons, List.not_mem_nil, or_false, forall_eq_or_imp, forall_eq]
    exact ⟨leaves, .node rfl (by simpa using leaves)⟩
  obtain ⟨tree, -, unique, visits, ⟨-, order⟩, -, conjuncts⟩ := acyclic.walks_eq_recursion
  obtain rfl := unique _ unfolds rfl
  obtain ⟨loop, -, walked⟩ := visits countToNegation 0
  exact ⟨acyclic, order, conjuncts, walked, loop⟩

end Graph

end RangeQuery
