import RangeQuery.Proofs.ResolvedAnys
import RangeQuery.Proofs.Scope.SubqueryReads

/-!
On which ranges a resolved ANY draws. The subquery in its place has copies of the ranges that the ANY
reads when its turn comes. By then the ANYs nested in it were resolved, and their subqueries may read
what the ranges in them are joined to. So a range is drawn on that an identifier below the ANY read
before the pass, or that a range drawn on by a nested ANY is joined to.
-/

namespace RangeQuery

namespace Graph

variable {g h k : Graph} {root scope any inner source range : NodeId} {ranges anys : List NodeId}

/-- Another ANY is nested in an ANY. -/
def Nests (g : Graph) (any inner : NodeId) : Prop :=
  g.Below any inner ∧ inner ≠ any ∧ (g.node inner).isAny = true

/-- An ANY reads a range by itself: no other ANY stands between it and some identifier below it that
reads the range. -/
def ReadsItself (g : Graph) (any range : NodeId) : Prop :=
  ∃ id i trail, g.Trail any trail id ∧ g.node id = .identifier i ∧ i.range = range ∧
    ∀ owner ∈ trail, owner ≠ any → (g.node owner).isAny = false

/-- The ranges, of some ranges, on which an ANY may draw: what it reads; what a range is joined to on
which an ANY nested in it draws; and the first one, if it reads none of them by itself. -/
inductive Drawn (g : Graph) (ranges : List NodeId) : NodeId → NodeId → Prop
  | read {any range : NodeId} : range ∈ ranges → g.Reads any range → Drawn g ranges any range
  | joined {any inner source range : NodeId} : range ∈ ranges → g.Nests any inner →
      Drawn g ranges inner source → g.Reads source range → Drawn g ranges any range
  | first {any range : NodeId} : ranges.head? = some range →
      (∀ other ∈ ranges, ¬ g.ReadsItself any other) → Drawn g ranges any range

/-- An ANY reads a range, or a range is joined to it on which an ANY nested in it draws. -/
def Gathers (g : Graph) (ranges : List NodeId) (any range : NodeId) : Prop :=
  g.Reads any range ∨
    ∃ inner source, g.Nests any inner ∧ g.Drawn ranges inner source ∧ g.Reads source range

theorem Gathers.drawn (gathers : g.Gathers ranges any range) (mem : range ∈ ranges) :
    g.Drawn ranges any range := by
  rcases gathers with reads | ⟨inner, source, nests, drawn, reads⟩
  · exact .read mem reads
  · exact .joined mem nests drawn reads

theorem Nests.trans {deeper : NodeId} (outer : g.Nests any inner) (nests : g.Nests inner deeper)
    (acyclic : g.Acyclic any) : g.Nests any deeper := by
  refine ⟨outer.1.trans nests.1, ?_, nests.2.2⟩
  rintro rfl
  exact outer.2.1 (acyclic.below_antisymm outer.1 nests.1)

/-- What a nested ANY gathers, the ANY around it gathers. -/
theorem Gathers.outwards (gathers : g.Gathers ranges inner range) (nests : g.Nests any inner)
    (acyclic : g.Acyclic any) : g.Gathers ranges any range := by
  rcases gathers with reads | ⟨deeper, source, nests', drawn, reads⟩
  · exact .inl (reads.of_below nests.1)
  · exact .inr ⟨deeper, source, nests.trans nests' acyclic, drawn, reads⟩

theorem ReadsItself.reads (itself : g.ReadsItself any range) : g.Reads any range := by
  obtain ⟨id, i, trail, way, node, same, -⟩ := itself
  exact ⟨id, i, ⟨trail, way⟩, node, same⟩

theorem ReadsItself.of_extends (itself : g.ReadsItself any range) (e : Extends g h) :
    h.ReadsItself any range := by
  obtain ⟨id, i, trail, way, node, same, alone⟩ := itself
  refine ⟨id, i, trail, way.along fun owner on => e.children (way.has_of_mem on), ?_, same,
    fun owner on ne => ?_⟩
  · rw [e.node (has_of_node node (by simp)), node]
  · rw [e.node (way.has_of_mem on), alone owner on ne]

/-- An ANY in which no other is nested reads by itself what it reads. -/
theorem ReadsItself.of_reads (reads : g.Reads any range) (none : ∀ inner, ¬ g.Nests any inner) :
    g.ReadsItself any range := by
  obtain ⟨id, i, ⟨trail, way⟩, node, same⟩ := reads
  refine ⟨id, i, trail, way, node, same, fun owner on ne => ?_⟩
  exact Bool.eq_false_iff.mpr fun isAny => none owner ⟨(way.below_of_mem on).1, ne, isAny⟩

/-- What an aggregate reads, its operand or its condition reads. -/
theorem reads_aggregate_iff {a : Aggregate} (node : g.node any = .aggregate a) :
    g.Reads any range ↔ ∃ top ∈ a.operand :: a.condition.toList, g.Reads top range := by
  have slots : g.children any = a.operand :: a.condition.toList := by
    rw [children, node]
    rfl
  rw [← slots]
  constructor
  · exact fun reads => reads.child fun i is => by simp [node] at is
  · rintro ⟨top, slot, reads⟩
    exact reads.of_below (below_of_child slot)

/-! ## What is remembered of the query as it was -/

/-- How a scope in which some ANYs await their turns relates to the scope as it was. -/
structure Recalls (g h : Graph) (scope : NodeId) (anys : List NodeId) : Prop where
  included : h.includedRanges scope = g.includedRanges scope
  joined : ∀ source ∈ g.includedRanges scope, ∀ range, h.Reads source range → g.Reads source range
  nests : ∀ any ∈ anys, ∀ inner ∈ anys, inner ≠ any → h.Below any inner → g.Nests any inner
  gathers : ∀ any ∈ anys, ∀ range ∈ g.includedRanges scope, h.Reads any range →
    g.Gathers (g.includedRanges scope) any range
  itself : ∀ any ∈ anys, ∀ range, g.ReadsItself any range → h.ReadsItself any range

/-- The ranges that are live for an ANY when its turn comes. -/
theorem Recalls.drawn (r : Recalls g h scope anys) (mem : any ∈ anys) {a : Aggregate}
    (node : h.node any = .aggregate a)
    (live : source ∈ h.liveAmong (g.includedRanges scope) a.operand a.condition) :
    g.Drawn (g.includedRanges scope) any source := by
  rw [mem_liveAmong] at live
  simp only [← reads_aggregate_iff node] at live
  rcases live with ⟨among, reads⟩ | ⟨first, none⟩
  · exact (r.gathers any mem source among reads).drawn among
  · exact .first first fun other among itself => none other among (r.itself any mem other itself).reads

/-- What an ANY reads by itself is live for it when its turn comes. -/
theorem Recalls.live (r : Recalls g h scope anys) (mem : any ∈ anys) {a : Aggregate}
    (node : h.node any = .aggregate a) (among : source ∈ g.includedRanges scope)
    (itself : g.ReadsItself any source) :
    source ∈ h.liveAmong (g.includedRanges scope) a.operand a.condition := by
  refine mem_liveAmong.mpr (.inl ⟨among, ?_⟩)
  exact (reads_aggregate_iff node).mp (r.itself any mem source itself).reads

/-! ## Turns -/

namespace Turns

variable (t : h.Turns root scope (any :: anys)) (metadata : Metadata)

include t

/-- One turn: the ANY stays, or a subquery that draws on the live ranges takes its place, if not the
number 1. -/
theorem outcome_drawsOn :
    (h.resolveAnyAt metadata scope any).2 = false ∧ Extends h (h.resolveAnyAt metadata scope any).1 ∨
      (h.resolveAnyAt metadata scope any).2 = true ∧ ∃ a owner new, h.node any = .aggregate a ∧
        h.Below root owner ∧ TakesPlace h (h.resolveAnyAt metadata scope any).1 scope any owner new ∧
          ((h.resolveAnyAt metadata scope any).1.node new = .number "1" ∨
            ∃ s, DrawsOn h (h.resolveAnyAt metadata scope any).1
              (h.liveAmong (h.includedRanges scope) a.operand a.condition) a.condition new s) := by
  rcases t.outcome metadata with left | ⟨told, owner, _, above, place⟩
  · exact .inl left
  · refine .inr ⟨told, ?_⟩
    have resolved := h.resolved_resolveAnyAt metadata scope any
    have slot := place.slot
    have owned := t.linked.parent_child above slot
    generalize (h.resolveAnyAt metadata scope any).1 = k at place resolved ⊢
    cases resolved with
    | left beside =>
      have kept := beside.parent (has_of_parent owned)
      rw [place.released, owned] at kept
      cases kept
    | inlined node beside =>
      exact ⟨_, owner, _, node, above, takesPlace_inlineAny beside slot owned scope,
        .inl (node_inlineAny_next ..)⟩
    | @replaced k a sub zone level kind node c =>
      have slots : h.children any = a.operand :: a.condition.toList := by
        rw [children, node]
        rfl
      have within : ∀ top ∈ a.operand :: a.condition.toList, h.Below root top := fun top mem =>
        (above.child slot).child (slots ▸ mem)
      have sources := t.sources
      have live := liveFor_eq metadata sources.names fun top mem => t.linked.acyclic (within top mem)
      have reached : ∀ id ∈ h.includedRanges scope ++ a.condition.toList, h.Below root id := by
        intro id mem
        rcases List.mem_append.mp mem with mem | mem
        · have declared := (mem_includedRanges mem).1
          exact t.isScope.reached.child (declared_subset_children _ declared)
        · exact within id (List.mem_cons_of_mem _ mem)
      have distinct : (h.liveFor metadata (h.includedRanges scope) a.operand a.condition).Nodup :=
        live ▸ (h.liveAmong_sublist _ _ _).nodup (List.Nodup.of_map _ sources.names)
      refine ⟨a, owner, k.next, node, above, takesPlace_replaceBySubquery c.beside ?_ slot owned scope,
        .inr ⟨_, live ▸ c.drawsOn t.linked sources.isRange reached distinct slot owned kind⟩⟩
      simpa using fun id mem => c.fresh (c.ready mem).mem

end Turns

namespace Recalls

variable (r : Recalls g h scope (any :: anys)) (t : h.Turns root scope (any :: anys))

include r t

/-- A turn leaves what is remembered, if it leaves what the ANYs to come read by themselves and adds to
their reads only what they gathered. -/
theorem keep (leaves : LeavesTo h k scope anys) (turns : k.Turns root scope anys)
    (gathers : ∀ later ∈ anys, ∀ range ∈ g.includedRanges scope, k.Reads later range →
      g.Gathers (g.includedRanges scope) later range)
    (itself : ∀ later ∈ anys, ∀ range, h.ReadsItself later range → k.ReadsItself later range) :
    Recalls g k scope anys where
  included := (leaves.includedRanges t.isScope.isRetrieve turns.isScope.isRetrieve).trans r.included
  joined source mem range reads := by
    have declared := (mem_includedRanges (r.included ▸ mem)).1
    exact r.joined source mem range ((reads_congr (leaves.sources source declared)).mp reads)
  nests later mem inner mem' ne below := by
    obtain ⟨trail, way⟩ := t.below later (List.mem_cons_of_mem _ mem)
    obtain ⟨trail', way'⟩ := t.below inner (List.mem_cons_of_mem _ mem')
    refine r.nests later (List.mem_cons_of_mem _ mem) inner (List.mem_cons_of_mem _ mem') ne ?_
    exact turns.linked.below_of_trail turns.isScope.reached way' (leaves.trails inner mem' trail' way')
      ⟨trail, leaves.trails later mem trail way⟩ below
  gathers := gathers
  itself later mem range reads := itself later mem range
    (r.itself later (List.mem_cons_of_mem _ mem) range reads)

/-- What an ANY to come reads after another one gave its place to a subquery, it gathered: the subquery
reads what its sources are joined to, and what the condition of the other one reads. -/
theorem gathers_takesPlace {a : Aggregate} {owner new later : NodeId}
    (node : h.node any = .aggregate a) (above : h.Below root owner)
    (place : TakesPlace h k scope any owner new)
    (becomes : k.node new = .number "1" ∨ ∃ s, DrawsOn h k
      (h.liveAmong (h.includedRanges scope) a.operand a.condition) a.condition new s)
    (acyclic : g.Acyclic later) (mem : later ∈ anys) (among : range ∈ g.includedRanges scope)
    (reads : k.Reads later range) : g.Gathers (g.includedRanges scope) later range := by
  have first : any ∈ any :: anys := List.mem_cons_self
  have mem' : later ∈ any :: anys := List.mem_cons_of_mem _ mem
  have ne : later ≠ any := fun is =>
    (List.pairwise_cons.mp t.ordered).1 later mem (is ▸ Below.refl h later)
  have reached := t.isScope.reached.trans (t.below later mem')
  rcases place.reads_cases t.linked reached ne above reads with reads | ⟨below, reads⟩
  · exact r.gathers later mem' range among reads
  · have nests := r.nests later mem' any first ne.symm below
    rcases becomes with one | ⟨s, draws⟩
    · obtain ⟨child, slot, -⟩ := reads.child fun i is => by simp [one] at is
      simp [children, one, Node.children] at slot
    · rcases draws.reads range reads with fresh | ⟨top, from', reads⟩
      · exact absurd (has_of_isRange (h.isRange_includedRanges scope range (r.included ▸ among))) fresh
      · rcases List.mem_append.mp from' with source | condition
        · rw [r.included] at source
          have drawn := r.drawn first node source
          have declared := (h.liveAmong_sublist _ _ _).subset (r.included.symm ▸ source)
          exact .inr ⟨any, top, nests, drawn, r.joined top (r.included ▸ declared) range reads⟩
        · have reads' := (reads_aggregate_iff node).mpr ⟨top, List.mem_cons_of_mem _ condition, reads⟩
          exact (r.gathers any first range among reads').outwards nests acyclic

omit r in
/-- What an ANY to come reads by itself, it reads by itself after another one gave its place away. -/
theorem readsItself_takesPlace {owner new later : NodeId}
    (place : TakesPlace h k scope any owner new) (stamp : Same Node.stamp h k) (mem : later ∈ anys)
    (itself : h.ReadsItself later range) : k.ReadsItself later range := by
  obtain ⟨id, i, trail, way, node, same, alone⟩ := itself
  have isAny := t.isAny any List.mem_cons_self
  have ne : any ≠ later := fun is =>
    (List.pairwise_cons.mp t.ordered).1 later mem (is ▸ Below.refl h any)
  have off : any ∉ id :: trail := by
    rw [List.mem_cons, not_or]
    refine ⟨?_, fun on => ?_⟩
    · rintro rfl
      rw [node] at isAny
      cases isAny
    · rw [alone any on ne] at isAny
      cases isAny
  have has : h.Has id := has_of_node node (by simp)
  refine ⟨id, i, trail, place.trail way off, (place.node_eq_identifier has).mpr node, same,
    fun owner on ne => ?_⟩
  rw [stamp.isAny (way.has_of_mem on), alone owner on ne]

/-- One turn leaves what is remembered. -/
theorem next (metadata : Metadata) (acyclic : ∀ later ∈ anys, g.Acyclic later) :
    Recalls g (h.resolveAnyAt metadata scope any).1 scope anys := by
  refine r.keep t (t.leavesTo metadata) (t.next metadata)
    (fun later mem range among reads => ?_) fun later mem range itself => ?_
  all_goals
    rcases t.outcome_drawsOn metadata with
      ⟨-, beside⟩ | ⟨-, a, owner, new, node, above, place, becomes⟩
  · refine r.gathers later (List.mem_cons_of_mem _ mem) range among ((reads_congr fun id below => ?_).mp reads)
    exact beside.node (t.linked.has_of_below ((t.isScope.reached.trans
      (t.below later (List.mem_cons_of_mem _ mem))).trans below))
  · exact r.gathers_takesPlace t node above place becomes (acyclic later mem) mem among reads
  · exact itself.of_extends beside
  · exact readsItself_takesPlace t place
      (Node.formal_stamp.toPlaced.resolved (h.resolved_resolveAnyAt metadata scope any)) mem itself

end Recalls

/-- When the turn of an ANY comes, all that is to be told of the scope as it was is remembered. -/
theorem Turns.recalls {before after : List NodeId} (t : h.Turns root scope (before ++ after))
    (r : Recalls g h scope (before ++ after)) (acyclic : ∀ any ∈ before ++ after, g.Acyclic any)
    (metadata : Metadata) : Recalls g (h.afterTurns metadata scope before) scope after := by
  induction before generalizing h with
  | nil => exact r
  | cons first before ih =>
    have later := fun any mem => acyclic any (List.mem_cons_of_mem _ mem)
    exact ih (t.next metadata) (r.next t metadata later) later

theorem Recalls.refl (isAny : ∀ any ∈ anys, (g.node any).isAny = true) :
    Recalls g g scope anys where
  included := rfl
  joined _ _ _ reads := reads
  nests _ _ inner mem ne below := ⟨below, ne, isAny inner mem⟩
  gathers _ _ _ _ reads := .inl reads
  itself _ _ _ itself := itself

end Graph

open RangeQuery.Graph

namespace Query

variable {q : Query} {scope any : NodeId}

/-- On which ranges a resolved ANY draws, in a query that passed the checks. The ANYs nested in it have
their turns before. If it gives its place away when its own turn comes, and not to the number 1, then to a
subquery over fresh copies of its sources, the ranges that it reads by then. Each of them is an included
range that the ANY read in the query as it was, one that a source of an ANY nested in it is joined to, or
the first one if the ANY reads none by itself. What it reads by itself is among them; if no ANY is nested
in it, they are the ranges that it read in the query as it was. The subquery reads nodes of its own, or
what its sources and the condition read; and no predicate of it reads a source. -/
theorem resolveAnys_drawn (w : q.WellLinked) (valid : q.validate = .ok ())
    (bound : q.SubqueriesBound) (mem : scope ∈ q.scopes)
    (some : q.graph.includedRanges scope ≠ []) (metadata : Metadata)
    (isAny : (q.graph.node any).isAny = true) (below : q.graph.Below scope any) :
    ∃ before after, q.graph.anysOf scope = before ++ any :: after ∧
      (∀ inner, q.graph.Nests any inner → inner ∈ before) ∧
      let ranges := q.graph.includedRanges scope
      let g := q.graph.afterTurns metadata scope before
      let h := (g.resolveAnyAt metadata scope any).1
      (q.graph.resolveAnys metadata scope).1 = h.afterTurns metadata scope after ∧
      ((g.resolveAnyAt metadata scope any).2 = false ∧ Extends g h ∨
        ∃ a owner new, g.node any = .aggregate a ∧ TakesPlace g h scope any owner new ∧
          let sources := g.liveAmong ranges a.operand a.condition
          (∀ source ∈ sources, q.graph.Drawn ranges any source) ∧
          (∀ source ∈ ranges, q.graph.ReadsItself any source → source ∈ sources) ∧
          ((∀ inner, ¬ q.graph.Nests any inner) → ∀ a, q.graph.node any = .aggregate a →
            sources = q.graph.liveAmong ranges a.operand a.condition) ∧
          (h.node new = .number "1" ∨ ∃ s, DrawsOn g h sources a.condition new s)) := by
  obtain ⟨before, after, split, -, earlier⟩ := exists_turn w mem isAny below
  have all := turns w valid bound mem some
  have within : ∀ any ∈ q.graph.anysOf scope, q.graph.Acyclic any := fun any mem =>
    w.tree.acyclic (all.isScope.reached.trans (all.below any mem))
  have recalls : Recalls q.graph q.graph scope (q.graph.anysOf scope) := .refl all.isAny
  rw [split] at all within recalls
  have r := all.recalls recalls within metadata
  obtain ⟨t, -⟩ := all.after metadata
  have own : any ∈ any :: after := List.mem_cons_self
  refine ⟨before, after, split, fun inner nests => earlier inner nests.1 nests.2.2 nests.2.1, ?_, ?_⟩
  · rw [resolveAnys_eq, split, afterTurns_append, afterTurns_cons]
  · rcases t.outcome_drawsOn metadata with left | ⟨-, a, owner, new, node, -, place, becomes⟩
    · exact .inl left
    · rw [r.included] at becomes
      refine .inr ⟨a, owner, new, node, place, fun source => r.drawn own node,
        fun source => r.live own node, fun innermost a' node' => ?_, becomes⟩
      -- Without nested ANYs nothing has come to what the ANY reads, and nothing has gone.
      refine liveAmong_congr fun range among => ?_
      rw [← reads_aggregate_iff node, ← reads_aggregate_iff node']
      refine ⟨fun reads => ?_, fun reads => (r.itself any own range (.of_reads reads innermost)).reads⟩
      refine (r.gathers any own range among reads).resolve_right ?_
      rintro ⟨inner, -, nests, -, -⟩
      exact innermost inner nests

/-- For each customer, whether some payment and some order are there. The ranges of both are joined to the
customer, and the ANY over the orders is the condition of the ANY over the payments:
`range c = Customer; range o = Order via o.customerId = c.id; range p = Payment via p.customerId = c.id`,
`c.id` and `ANY(p.id WHERE ANY(o.id))`. -/
def paymentsOfBuyers : Query where
  graph := ⟨#[
    ⟨.range { name := "c", entity := some "Customer", join := none, required := false
              included := true, nested := none }, some ⟨16⟩⟩,
    ⟨.identifier { range := ⟨4⟩, path := ["customerId"] }, some ⟨3⟩⟩,
    ⟨.identifier { range := ⟨0⟩, path := ["id"] }, some ⟨3⟩⟩,
    ⟨.binary .eq ⟨1⟩ ⟨2⟩, some ⟨4⟩⟩,
    ⟨.range { name := "o", entity := some "Order", join := some ⟨3⟩, required := false
              included := true, nested := none }, some ⟨16⟩⟩,
    ⟨.identifier { range := ⟨8⟩, path := ["customerId"] }, some ⟨7⟩⟩,
    ⟨.identifier { range := ⟨0⟩, path := ["id"] }, some ⟨7⟩⟩,
    ⟨.binary .eq ⟨5⟩ ⟨6⟩, some ⟨8⟩⟩,
    ⟨.range { name := "p", entity := some "Payment", join := some ⟨7⟩, required := false
              included := true, nested := none }, some ⟨16⟩⟩,
    ⟨.identifier { range := ⟨0⟩, path := ["id"] }, some ⟨10⟩⟩,
    ⟨.projection { name := "value0", expression := ⟨9⟩, visible := true }, some ⟨16⟩⟩,
    ⟨.identifier { range := ⟨8⟩, path := ["id"] }, some ⟨14⟩⟩,
    ⟨.identifier { range := ⟨4⟩, path := ["id"] }, some ⟨13⟩⟩,
    ⟨.aggregate { function := .any, operand := ⟨12⟩, condition := none }, some ⟨14⟩⟩,
    ⟨.aggregate { function := .any, operand := ⟨11⟩, condition := some ⟨13⟩ }, some ⟨15⟩⟩,
    ⟨.projection { name := "value1", expression := ⟨14⟩, visible := true }, some ⟨16⟩⟩,
    ⟨.retrieve { Retrieve.empty with
      ranges := [⟨0⟩, ⟨4⟩, ⟨8⟩], values := [⟨10⟩, ⟨15⟩] }, none⟩]⟩
  root := ⟨16⟩

/-- The nodes of the query. -/
def paymentsOfBuyers.ids : List NodeId :=
  [⟨16⟩, ⟨0⟩, ⟨1⟩, ⟨2⟩, ⟨3⟩, ⟨4⟩, ⟨5⟩, ⟨6⟩, ⟨7⟩, ⟨8⟩, ⟨9⟩, ⟨10⟩, ⟨11⟩, ⟨12⟩, ⟨13⟩, ⟨14⟩, ⟨15⟩]

theorem wellLinked_paymentsOfBuyers : paymentsOfBuyers.WellLinked := by
  have order : InOrder paymentsOfBuyers.root [] [] paymentsOfBuyers.graph := by
    refine ⟨fun top mem => ?_, by decide, by simp⟩
    obtain rfl := List.mem_singleton.mp mem
    exact .of_closed paymentsOfBuyers.ids (by decide) (by decide) (by decide) (by decide) (by decide)
  exact wellLinked_of_inOrder order (by decide)

/-- The outer ANY does not read the customer. But the subquery of the inner one compares the order with
it, so the customer is copied into the subquery of the outer one. -/
theorem resolveAnys_drawn_paymentsOfBuyers :
    (paymentsOfBuyers.WellLinked ∧ paymentsOfBuyers.validate = .ok () ∧
      paymentsOfBuyers.SubqueriesBound ∧ ⟨16⟩ ∈ paymentsOfBuyers.scopes ∧
      paymentsOfBuyers.graph.includedRanges ⟨16⟩ ≠ [] ∧
      (paymentsOfBuyers.graph.node ⟨14⟩).isAny = true ∧ paymentsOfBuyers.graph.Below ⟨16⟩ ⟨14⟩) ∧
    ¬ paymentsOfBuyers.graph.Reads ⟨14⟩ ⟨0⟩ ∧
    let g := paymentsOfBuyers.graph.afterTurns noMetadata ⟨16⟩ [⟨13⟩]
    let h := (g.resolveAnyAt noMetadata ⟨16⟩ ⟨14⟩).1
    ∃ a new s, g.node ⟨14⟩ = .aggregate a ∧
      DrawsOn g h (g.liveAmong [⟨0⟩, ⟨4⟩, ⟨8⟩] a.operand a.condition) a.condition new s ∧
      ⟨0⟩ ∈ g.liveAmong [⟨0⟩, ⟨4⟩, ⟨8⟩] a.operand a.condition ∧
      paymentsOfBuyers.graph.Drawn [⟨0⟩, ⟨4⟩, ⟨8⟩] ⟨14⟩ ⟨0⟩ := by
  have valid : paymentsOfBuyers.validate = .ok () := by decide +kernel
  have bound : paymentsOfBuyers.SubqueriesBound :=
    subqueriesBound_of_closed paymentsOfBuyers.ids (by decide) (by decide) (by decide)
  have mem : ⟨16⟩ ∈ paymentsOfBuyers.scopes := by decide +kernel
  have some : paymentsOfBuyers.graph.includedRanges ⟨16⟩ ≠ [] := by decide
  have below : paymentsOfBuyers.graph.Below ⟨16⟩ ⟨14⟩ :=
    ((Below.refl _ ⟨16⟩).child (by decide : ⟨15⟩ ∈ _)).child (by decide)
  refine ⟨⟨wellLinked_paymentsOfBuyers, valid, bound, mem, some, rfl, below⟩, ?_, ?_⟩
  · rintro ⟨id, i, lower, node, same⟩
    have among : id ∈ ([⟨14⟩, ⟨11⟩, ⟨13⟩, ⟨12⟩] : List NodeId) :=
      lower.mem_of_closed (by decide) (by decide)
    have others : ∀ id ∈ ([⟨14⟩, ⟨11⟩, ⟨13⟩, ⟨12⟩] : List NodeId), ∀ i ∈
        paymentsOfBuyers.graph.identifier? id, i.range ≠ ⟨0⟩ := by
      decide
    exact others id among i (identifier?_eq node) same
  · intro g h
    obtain ⟨before, after, split, -, -, ends⟩ := resolveAnys_drawn wellLinked_paymentsOfBuyers valid
      bound mem some noMetadata rfl below
    have listed : paymentsOfBuyers.graph.anysOf ⟨16⟩ = [⟨13⟩, ⟨14⟩] := by decide +kernel
    obtain rfl : before = [⟨13⟩] := by
      rw [listed] at split
      rcases before with _ | ⟨first, _ | ⟨second, rest⟩⟩ <;> simp_all
    have told : (g.resolveAnyAt noMetadata ⟨16⟩ ⟨14⟩).2 = true := by decide +kernel
    obtain ⟨a, -, new, node, -, drawn, -, -, becomes⟩ := ends.resolve_left fun left => by
      have untold : (g.resolveAnyAt noMetadata ⟨16⟩ ⟨14⟩).2 = false := left.1
      rw [told] at untold
      cases untold
    -- The identifier of the customer in the subquery of the inner ANY.
    have reads : g.Reads ⟨14⟩ ⟨0⟩ := by
      refine ⟨⟨18⟩, { range := ⟨0⟩, path := ["id"] }, ?_, by decide +kernel, rfl⟩
      exact (((Below.refl g ⟨14⟩).child (by decide +kernel : ⟨21⟩ ∈ _)).child
        (by decide +kernel : ⟨19⟩ ∈ _)).child (by decide +kernel)
    have live : ⟨0⟩ ∈ g.liveAmong [⟨0⟩, ⟨4⟩, ⟨8⟩] a.operand a.condition :=
      mem_liveAmong.mpr (.inl ⟨by simp, (reads_aggregate_iff node).mp reads⟩)
    have all : paymentsOfBuyers.graph.includedRanges ⟨16⟩ = [⟨0⟩, ⟨4⟩, ⟨8⟩] := by decide
    rw [all] at drawn becomes
    rcases becomes with one | ⟨s, draws⟩
    · have none : ∀ index < h.size, h.node ⟨index⟩ ≠ .number "1" := by decide +kernel
      exact absurd one (none new.index (has_of_node one (by simp)))
    · exact ⟨a, new, s, node, draws, live, drawn _ live⟩

end Query

end RangeQuery
