import RangeQuery.Proofs.Scope.FilledPlaceholders

/-!
Writing out templates is full substitution. A round fills every placeholder of the tree, so the names
that it leaves are those in the templates of the names that it met; hence all rounds together succeed
exactly if each name has a template and no chain of names is longer than there are rounds.
-/

namespace RangeQuery

namespace Graph

variable {g h k : Graph} {root top body : NodeId} {name : String}
  {names names' : List String}

/-- Names of which the first stands in a tree, and each other one in the template of the one before. -/
inductive NameChain (g : Graph) (templates : NameTable NodeId) : NodeId → List String → Prop
  | one {top : NodeId} {name : String} : g.Names top name → NameChain g templates top [name]
  | cons {top body : NodeId} {name : String} {names : List String} :
      g.Names top name → templates.get? name = some body → NameChain g templates body names →
      NameChain g templates top (name :: names)

/-- Every name on a chain from the tree has a template, and the chains are bounded. -/
structure Unfoldable (g : Graph) (root : NodeId) (most : Nat) : Prop where
  defined : ∀ names, g.NameChain (g.scope root).templates root names → ∀ name ∈ names,
    ∃ body, (g.scope root).templates.get? name = some body
  short : ∀ names, g.NameChain (g.scope root).templates root names → names.length ≤ most

/-! ## Some filled placeholders -/

/-- Placeholders of a tree were filled: the templates are what they were, and whatever the tree is written
out to afterwards it is written out to before. -/
structure Unfolds (g k : Graph) (root : NodeId) : Prop where
  size : g.size ≤ k.size
  parted : k.Parted root
  templates : (k.scope root).templates = (g.scope root).templates
  bodies : ∀ body ∈ (g.scope root).templates.values, ∀ id, g.Within body id → k.node id = g.node id
  pull : ∀ {h}, WritesOut k h (k.scope root).templates id root root →
    WritesOut g h (g.scope root).templates id root root

namespace Unfolds

theorem refl (parted : g.Parted root) : Unfolds g g root :=
  ⟨Nat.le_refl _, parted, rfl, fun _ _ _ _ => rfl, id⟩

theorem trans (first : Unfolds g h root) (second : Unfolds h k root) : Unfolds g k root where
  size := first.size.trans second.size
  parted := second.parted
  templates := second.templates.trans first.templates
  bodies body mem id within := by
    have same := first.bodies body mem
    rw [second.bodies body (first.templates ▸ mem) id ((within_iff_of_same same).mpr within),
      same id within]
  pull written := first.pull (second.pull written)

/-- The templates hold the names they held. -/
theorem names_template (u : Unfolds g k root) (mem : body ∈ (g.scope root).templates.values) :
    k.Names body name ↔ g.Names body name := by
  have same : ∀ {other}, g.Below body other → k.node other = g.node other :=
    fun below => u.bodies body mem _ below.within
  refine exists_congr fun other => ?_
  rw [below_iff_of_children fun _ below => congrArg Node.children (same below)]
  refine and_congr_right fun below => ?_
  rw [placeholder?, same below, placeholder?]

theorem nameChain_template (u : Unfolds g k root) (mem : body ∈ (g.scope root).templates.values) :
    k.NameChain (k.scope root).templates body names ↔
      g.NameChain (g.scope root).templates body names := by
  rw [u.templates]
  constructor <;> intro chain
  · induction chain with
    | one first => exact .one ((u.names_template mem).mp first)
    | cons first found _ ih =>
      exact .cons ((u.names_template mem).mp first) found (ih (NameTable.mem_values_of_get? found))
  · induction chain with
    | one first => exact .one ((u.names_template mem).mpr first)
    | cons first found _ ih =>
      exact .cons ((u.names_template mem).mpr first) found (ih (NameTable.mem_values_of_get? found))

end Unfolds

theorem Filling.unfolds {place : NodeId} (f : Filling g root place name body) :
    Unfolds g (g.filled place body) root where
  size := g.size_filled place body
  parted := f.parted_filled
  templates := f.templates_filled
  bodies _ mem _ := f.node_template mem
  pull written := f.writesOut_of_comesFrom (f.templates_filled ▸ written)
    (.kept (.refl g root) f.ne_root.symm)

/-- The names that a filled placeholder leaves apart from some old nodes: those at other placeholders, and
those in its template. -/
theorem Filling.names_filled {place : NodeId} (f : Filling g root place name body)
    {ids : List NodeId} (old : ∀ id ∈ ids, g.Has id) {other : String} :
    (∃ id, ((g.filled place body).Below root id ∧ id ∉ ids) ∧
        (g.filled place body).placeholder? id = some other) ↔
      (∃ id, (g.Below root id ∧ id ∉ place :: ids) ∧ g.placeholder? id = some other) ∨
        g.Names body other := by
  rw [← f.names_copy]
  constructor
  · rintro ⟨id, ⟨below, out⟩, held⟩
    rcases f.below_filled.mp below with ⟨below, ne⟩ | inCopy
    · refine .inl ⟨id, ⟨below, ?_⟩, (f.placeholder?_filled below).symm.trans held⟩
      simp [ne, out]
    · exact .inr ⟨id, inCopy, held⟩
  · rintro (⟨id, ⟨below, out⟩, held⟩ | ⟨id, inCopy, held⟩)
    · obtain ⟨ne, out⟩ := List.ne_and_not_mem_of_not_mem_cons out
      exact ⟨id, ⟨f.below_filled.mpr (.inl ⟨below, ne⟩), out⟩,
        (f.placeholder?_filled below).trans held⟩
    · exact ⟨id, ⟨f.below_filled.mpr (.inr inCopy), fun mem =>
        not_has_of_copy (f.below_copy.mp inCopy) (old id mem)⟩, held⟩

/-! ## A round -/

theorem fillPlaceholders_none {place : NodeId} {rest : List (NodeId × String)}
    (none : (g.scope root).templates.get? name = none) :
    fillPlaceholders root g ((place, name) :: rest) = (g, .error (.unknownTemplate name)) := by
  simp only [fillPlaceholders, none]

theorem fillPlaceholders_some {place : NodeId} {rest : List (NodeId × String)}
    (found : (g.scope root).templates.get? name = some body) :
    fillPlaceholders root g ((place, name) :: rest) =
      fillPlaceholders root (g.filled place body) rest := by
  simp only [fillPlaceholders, found]
  rfl

/-- Placeholders of a tree, listed with their names. -/
structure Pending (g : Graph) (root : NodeId) (pending : List (NodeId × String)) : Prop where
  each : ∀ entry ∈ pending, g.Below root entry.1 ∧ g.placeholder? entry.1 = some entry.2
  nodup : (pending.map Prod.fst).Nodup

namespace Pending

variable {place : NodeId} {pending : List (NodeId × String)}

/-- The first placeholder is filled; the others stay. -/
theorem fill (p : g.Pending root ((place, name) :: pending)) (parted : g.Parted root)
    (found : (g.scope root).templates.get? name = some body) :
    Filling g root place name body ∧ (g.filled place body).Pending root pending := by
  obtain ⟨above, held⟩ := p.each (place, name) (by simp)
  have f : Filling g root place name body := ⟨parted, above, held, found⟩
  obtain ⟨out, nodup⟩ := List.nodup_cons.mp p.nodup
  refine ⟨f, fun entry mem => ?_, nodup⟩
  obtain ⟨below, held⟩ := p.each entry (by simp [mem])
  have ne : entry.1 ≠ place := fun same => out (same ▸ List.mem_map.mpr ⟨entry, mem, rfl⟩)
  exact ⟨f.below_filled.mpr (.inl ⟨below, ne⟩), (f.placeholder?_filled below).trans held⟩

/-- A round succeeds if every name has a template. -/
theorem fillPlaceholders_ok_iff (p : g.Pending root pending) (parted : g.Parted root) :
    (fillPlaceholders root g pending).2 = .ok () ↔
      ∀ entry ∈ pending, ∃ body, (g.scope root).templates.get? entry.2 = some body := by
  induction pending generalizing g with
  | nil => simp [fillPlaceholders]
  | cons entry rest ih =>
    obtain ⟨place, name⟩ := entry
    cases found : (g.scope root).templates.get? name with
    | none => simp [fillPlaceholders_none found, found]
    | some body =>
      obtain ⟨f, later⟩ := p.fill parted found
      rw [fillPlaceholders_some found, ih later f.parted_filled, f.templates_filled,
        List.forall_mem_cons]
      simp [found]

/-- A round that succeeds leaves the names of the other placeholders, and those in the templates of the
names that it met. -/
theorem unfolds_fillPlaceholders (p : g.Pending root pending) (parted : g.Parted root)
    (ok : (fillPlaceholders root g pending).2 = .ok ()) :
    Unfolds g (fillPlaceholders root g pending).1 root ∧
      ∀ other, (fillPlaceholders root g pending).1.Names root other ↔
        (∃ id, (g.Below root id ∧ id ∉ pending.map Prod.fst) ∧ g.placeholder? id = some other) ∨
          ∃ entry ∈ pending, ∃ body, (g.scope root).templates.get? entry.2 = some body ∧
            g.Names body other := by
  induction pending generalizing g with
  | nil => exact ⟨.refl parted, by simp [fillPlaceholders, Names]⟩
  | cons entry rest ih =>
    obtain ⟨place, name⟩ := entry
    cases found : (g.scope root).templates.get? name with
    | none =>
      rw [fillPlaceholders_none found] at ok
      cases ok
    | some body =>
      obtain ⟨f, later⟩ := p.fill parted found
      rw [fillPlaceholders_some found] at ok ⊢
      obtain ⟨unfolds, names⟩ := ih later f.parted_filled ok
      refine ⟨f.unfolds.trans unfolds, fun other => (names other).trans ?_⟩
      have old : ∀ id ∈ rest.map Prod.fst, g.Has id := by
        intro id mem
        obtain ⟨entry, listed, rfl⟩ := List.mem_map.mp mem
        exact parted.tree.has_of_below (p.each entry (List.mem_cons_of_mem _ listed)).1
      have others : ∀ entry : NodeId × String,
          (∃ body', ((g.filled place body).scope root).templates.get? entry.2 = some body' ∧
            (g.filled place body).Names body' other) ↔
          ∃ body', (g.scope root).templates.get? entry.2 = some body' ∧ g.Names body' other := by
        intro entry
        rw [f.templates_filled]
        exact exists_congr fun body' => and_congr_right fun found =>
          f.unfolds.names_template (NameTable.mem_values_of_get? found)
      simp only [f.names_filled old, others, List.exists_mem_cons_iff, found, Option.some.injEq,
        exists_eq_left', List.map_cons, or_assoc]

end Pending

/-! ## All rounds -/

theorem Linked.mem_placeholders (l : g.Linked root) {entry : NodeId × String} :
    entry ∈ g.placeholders root ↔
      g.Below root entry.1 ∧ g.placeholder? entry.1 = some entry.2 := by
  obtain ⟨id, name⟩ := entry
  simp [placeholders, l.mem_descendants (.refl g root)]

/-- All placeholders of a well-linked tree are listed, each once. -/
theorem Linked.pending (l : g.Linked root) : g.Pending root (g.placeholders root) where
  each _ := l.mem_placeholders.mp
  nodup := by
    rw [placeholders, List.map_filterMap]
    refine List.Nodup.filterMap (fun id id' other mem mem' => ?_) (l.nodup_descendants (.refl g root))
    simp only [Option.map_map, Option.mem_def, Option.map_eq_some_iff, Function.comp_apply] at mem mem'
    obtain ⟨_, -, rfl⟩ := mem
    obtain ⟨_, -, rfl⟩ := mem'
    rfl

/-- A round succeeds exactly if all names of the tree have templates. -/
theorem Parted.round_ok_iff (parted : g.Parted root) :
    (fillPlaceholders root g (g.placeholders root)).2 = .ok () ↔
      ∀ name, g.Names root name → ∃ body, (g.scope root).templates.get? name = some body := by
  rw [parted.tree.pending.fillPlaceholders_ok_iff parted]
  constructor
  · rintro each name ⟨id, named⟩
    exact each (id, name) (parted.tree.mem_placeholders.mpr named)
  · intro each entry mem
    exact each entry.2 ⟨entry.1, parted.tree.mem_placeholders.mp mem⟩

/-- A round that succeeds leaves the names in the templates of those that it met. -/
theorem Parted.unfolds_round (parted : g.Parted root)
    (ok : (fillPlaceholders root g (g.placeholders root)).2 = .ok ()) :
    Unfolds g (fillPlaceholders root g (g.placeholders root)).1 root ∧
      ∀ other, (fillPlaceholders root g (g.placeholders root)).1.Names root other ↔
        ∃ name, g.Names root name ∧
          ∃ body, (g.scope root).templates.get? name = some body ∧ g.Names body other := by
  obtain ⟨unfolds, names⟩ := parted.tree.pending.unfolds_fillPlaceholders parted ok
  refine ⟨unfolds, fun other => (names other).trans ?_⟩
  constructor
  · rintro (⟨id, ⟨below, out⟩, held⟩ | ⟨entry, mem, template⟩)
    · have listed : (id, other) ∈ g.placeholders root :=
        parted.tree.mem_placeholders.mpr ⟨below, held⟩
      exact absurd (List.mem_map.mpr ⟨_, listed, rfl⟩) out
    · exact ⟨entry.2, ⟨entry.1, parted.tree.mem_placeholders.mp mem⟩, template⟩
  · rintro ⟨name, ⟨id, named⟩, template⟩
    exact .inr ⟨(id, name), parted.tree.mem_placeholders.mpr named, template⟩

/-- The chains that a round leaves are those it met without their first names. -/
theorem Unfolds.nameChain_iff (u : Unfolds g k root)
    (names : ∀ other, k.Names root other ↔ ∃ name, g.Names root name ∧
      ∃ body, (g.scope root).templates.get? name = some body ∧ g.Names body other) :
    k.NameChain (k.scope root).templates root names' ↔
      ∃ name body, g.Names root name ∧ (g.scope root).templates.get? name = some body ∧
        g.NameChain (g.scope root).templates body names' := by
  constructor
  · intro chain
    cases chain with
    | one first =>
      obtain ⟨name, start, body, found, first⟩ := (names _).mp first
      exact ⟨name, body, start, found, .one first⟩
    | cons first found' rest =>
      obtain ⟨name, start, body, found, first⟩ := (names _).mp first
      rw [u.templates] at found'
      exact ⟨name, body, start, found, .cons first found'
        ((u.nameChain_template (NameTable.mem_values_of_get? found')).mp rest)⟩
  · rintro ⟨name, body, start, found, chain⟩
    cases chain with
    | one first => exact .one ((names _).mpr ⟨name, start, body, found, first⟩)
    | cons first found' rest =>
      refine .cons ((names _).mpr ⟨name, start, body, found, first⟩) (u.templates ▸ found') ?_
      exact (u.nameChain_template (NameTable.mem_values_of_get? found')).mpr rest

/-- A tree can be written out if its names have templates and the next round leaves one that can. -/
theorem Unfolds.unfoldable_iff (u : Unfolds g k root)
    (names : ∀ other, k.Names root other ↔ ∃ name, g.Names root name ∧
      ∃ body, (g.scope root).templates.get? name = some body ∧ g.Names body other)
    (defined : ∀ name, g.Names root name → ∃ body, (g.scope root).templates.get? name = some body)
    {rounds : Nat} : g.Unfoldable root (rounds + 1) ↔ k.Unfoldable root rounds := by
  constructor
  · intro able
    constructor
    · intro names' chain name mem
      obtain ⟨first, body, start, found, chain⟩ := (u.nameChain_iff names).mp chain
      rw [u.templates]
      exact able.defined _ (.cons start found chain) name (List.mem_cons_of_mem _ mem)
    · intro names' chain
      obtain ⟨first, body, start, found, chain⟩ := (u.nameChain_iff names).mp chain
      exact Nat.le_of_succ_le_succ (able.short _ (.cons start found chain))
  · intro able
    constructor
    · intro names' chain name mem
      cases chain with
      | one first =>
        obtain rfl := List.mem_singleton.mp mem
        exact defined name first
      | cons first found rest =>
        rcases List.mem_cons.mp mem with rfl | mem
        · exact ⟨_, found⟩
        · have later := able.defined _ ((u.nameChain_iff names).mpr ⟨_, _, first, found, rest⟩) name mem
          rwa [u.templates] at later
    · intro names' chain
      cases chain with
      | one => simp
      | cons first found rest =>
        exact Nat.succ_le_succ (able.short _ ((u.nameChain_iff names).mpr ⟨_, _, first, found, rest⟩))

/-- Without placeholders nothing is to be written out. -/
theorem unfoldable_of_no_names (none : ∀ name, ¬ g.Names root name) (rounds : Nat) :
    g.Unfoldable root rounds := by
  have noChain : ∀ names, ¬ g.NameChain (g.scope root).templates root names := by
    intro names chain
    cases chain with
    | one first => exact none _ first
    | cons first => exact none _ first
  exact ⟨fun names chain => absurd chain (noChain names), fun names chain => absurd chain (noChain names)⟩

theorem Linked.placeholders_eq_nil_iff (l : g.Linked root) :
    g.placeholders root = [] ↔ ∀ name, ¬ g.Names root name := by
  rw [List.eq_nil_iff_forall_not_mem]
  constructor
  · rintro none name ⟨id, named⟩
    exact none (id, name) (l.mem_placeholders.mpr named)
  · intro none entry mem
    exact none entry.2 ⟨entry.1, l.mem_placeholders.mp mem⟩

/-- The rounds succeed exactly if the tree can be written out in so many, and leave no placeholder. -/
theorem Parted.expandRounds_ok (parted : g.Parted root) (rounds : Nat) (expanded : Bool) :
    ((∃ any, (expandRounds root rounds g expanded).2 = .ok any) ↔ g.Unfoldable root rounds) ∧
      ∀ any, (expandRounds root rounds g expanded).2 = .ok any →
        Unfolds g (expandRounds root rounds g expanded).1 root ∧
          ∀ name, ¬ (expandRounds root rounds g expanded).1.Names root name := by
  induction rounds generalizing g expanded with
  | zero =>
    unfold expandRounds
    split
    · next none =>
      have none := parted.tree.placeholders_eq_nil_iff.mp none
      exact ⟨by simp [unfoldable_of_no_names none], fun _ _ => ⟨.refl parted, none⟩⟩
    · next id name rest listed =>
      have named := parted.tree.mem_placeholders.mp (listed ▸ List.mem_cons_self)
      refine ⟨⟨by simp, fun able => ?_⟩, by simp⟩
      have short := able.short [name] (.one ⟨id, named⟩)
      simp at short
  | succ rounds ih =>
    unfold expandRounds
    split
    · next none =>
      have none := parted.tree.placeholders_eq_nil_iff.mp none
      exact ⟨by simp [unfoldable_of_no_names none], fun _ _ => ⟨.refl parted, none⟩⟩
    · next first rest listed =>
      rw [← listed]
      have defined := parted.round_ok_iff
      have round := parted.unfolds_round
      generalize fillPlaceholders root g (g.placeholders root) = filled at defined round
      obtain ⟨filled, _ | _⟩ := filled
      · refine ⟨⟨by simp, fun able => ?_⟩, by simp⟩
        have ok := defined.mpr fun name start => able.defined [name] (.one start) name (by simp)
        cases ok
      · obtain ⟨unfolds, names⟩ := round rfl
        obtain ⟨iff, result⟩ := ih unfolds.parted true
        refine ⟨iff.trans (unfolds.unfoldable_iff names (defined.mp rfl)).symm, fun any told => ?_⟩
        obtain ⟨later, none⟩ := result any told
        exact ⟨unfolds.trans later, none⟩

/-- A tree without placeholders is written out as it stands. -/
theorem Linked.writesOut_self (l : k.Linked root) (none : ∀ name, ¬ k.Names root name)
    (templates : NameTable NodeId) : WritesOut k k templates id root root := by
  refine (l.acyclic (.refl k root)).induction fun other below ih => ?_
  refine .node (k.children other) (k.node other).templateBodies ?_ ?_ rfl fun a b mem => ?_
  · exact Option.eq_none_iff_forall_ne_some.mpr fun name held => none name ⟨other, below, held⟩
  · rw [Node.reading_id, children, Node.withChildren_children, Node.withTemplateBodies_templateBodies]
    rfl
  · have same : a = b := by
      obtain ⟨index, inside, pair⟩ := List.mem_iff_getElem.mp mem
      rw [List.getElem_zip] at pair
      exact (Prod.mk.inj pair).1.symm.trans (Prod.mk.inj pair).2
    exact same ▸ ih a (List.of_mem_zip mem).1

end Graph

namespace Query

/-- Writing out templates succeeds exactly if every name on a chain from the tree has a template and no
chain has more names than there are rounds. Then no placeholder is left: the tree is the old one with each
placeholder replaced, again and again, by a copy of its template, where each copy declares ranges of its
own and reads the other ranges that the template reads. The templates are as they were. A copied template
is cut off nowhere (`Founded.copyLevels_eq`), unless a query in it has templates that lead in a
circle. -/
theorem expandTemplates_substitutes (q : Query) (parted : q.graph.Parted q.root) :
    ((∃ expanded, q.expandTemplates.2 = .ok expanded) ↔
      q.graph.Unfoldable q.root Graph.maxTemplateRounds) ∧
    ∀ expanded, q.expandTemplates.2 = .ok expanded →
      let written := q.expandTemplates.1.graph
      written.Linked q.root ∧ (∀ id, written.Below q.root id → written.placeholder? id = none) ∧
        Graph.WritesOut q.graph written q.clauses.templates id q.root q.root ∧
        (written.scope q.root).templates = q.clauses.templates ∧
        ∀ body ∈ q.clauses.templates.values, ∀ id, q.graph.Within body id →
          written.node id = q.graph.node id := by
  obtain ⟨iff, result⟩ := parted.expandRounds_ok Graph.maxTemplateRounds false
  refine ⟨iff, fun expanded ok => ?_⟩
  obtain ⟨unfolds, none⟩ := result expanded ok
  refine ⟨unfolds.parted.tree, fun id below => ?_, ?_, unfolds.templates, unfolds.bodies⟩
  · exact Option.eq_none_iff_forall_ne_some.mpr fun name held => none name ⟨id, below, held⟩
  · exact unfolds.pull (unfolds.parted.tree.writesOut_self none _)

/-- Orders that are big, or big and open; the second name stands for a condition that uses the first. -/
def bigOrOpenOrders : Query where
  graph := ⟨#[
    ⟨.range { name := "o", entity := some "Order", join := none, required := false
              included := true, nested := none }, some ⟨12⟩⟩,
    ⟨.identifier { range := ⟨0⟩, path := ["total"] }, some ⟨3⟩⟩,
    ⟨.number "100", some ⟨3⟩⟩,
    ⟨.binary .gt ⟨1⟩ ⟨2⟩, none⟩,
    ⟨.placeholder "big", some ⟨6⟩⟩,
    ⟨.identifier { range := ⟨0⟩, path := ["open"] }, some ⟨6⟩⟩,
    ⟨.binary .and ⟨4⟩ ⟨5⟩, none⟩,
    ⟨.placeholder "big", some ⟨9⟩⟩,
    ⟨.placeholder "bigOpen", some ⟨9⟩⟩,
    ⟨.binary .or ⟨7⟩ ⟨8⟩, some ⟨12⟩⟩,
    ⟨.identifier { range := ⟨0⟩, path := ["id"] }, some ⟨11⟩⟩,
    ⟨.projection { name := "id", expression := ⟨10⟩, visible := true }, some ⟨12⟩⟩,
    ⟨.retrieve { Retrieve.empty with
      ranges := [⟨0⟩], values := [⟨11⟩], condition := some ⟨9⟩
      templates := .ofList [("big", ⟨3⟩), ("bigOpen", ⟨6⟩)] }, none⟩]⟩
  root := ⟨12⟩

theorem parted_bigOrOpenOrders : bigOrOpenOrders.graph.Parted bigOrOpenOrders.root := by
  have eachBody : ∀ body ∈ bigOrOpenOrders.clauses.templates.values, body = ⟨3⟩ ∨ body = ⟨6⟩ := by
    decide
  refine ⟨?_, fun body mem => ?_, fun body mem id within below => ?_⟩
  · exact .of_closed [⟨12⟩, ⟨0⟩, ⟨11⟩, ⟨10⟩, ⟨9⟩, ⟨7⟩, ⟨8⟩] (by decide) (by decide) (by decide)
      (by decide) (by decide)
  · rcases eachBody body mem with rfl | rfl
    · exact .of_closed [⟨3⟩, ⟨1⟩, ⟨2⟩] (.of_closed [⟨3⟩, ⟨1⟩, ⟨2⟩] (by decide) (by decide) (by decide)
        (by decide) (by decide)) (by decide) (by decide) (by decide) (by decide)
    · exact .of_closed [⟨6⟩, ⟨4⟩, ⟨5⟩] (.of_closed [⟨6⟩, ⟨4⟩, ⟨5⟩] (by decide) (by decide) (by decide)
        (by decide) (by decide)) (by decide) (by decide) (by decide) (by decide)
  · have inTemplate : id ∈ [(⟨3⟩ : NodeId), ⟨1⟩, ⟨2⟩, ⟨6⟩, ⟨4⟩, ⟨5⟩] :=
      within.mem_of_closed (by rcases eachBody body mem with rfl | rfl <;> decide) (by decide)
    have inTree : id ∈ [(⟨12⟩ : NodeId), ⟨0⟩, ⟨11⟩, ⟨10⟩, ⟨9⟩, ⟨7⟩, ⟨8⟩] :=
      below.mem_of_closed (by decide) (by decide)
    have apart : ∀ id ∈ [(⟨3⟩ : NodeId), ⟨1⟩, ⟨2⟩, ⟨6⟩, ⟨4⟩, ⟨5⟩],
        id ∉ [(⟨12⟩ : NodeId), ⟨0⟩, ⟨11⟩, ⟨10⟩, ⟨9⟩, ⟨7⟩, ⟨8⟩] := by decide
    exact apart id inTemplate inTree

/-- Two rounds write the condition out, and its templates stay. -/
theorem expandTemplates_substitutes_bigOrOpenOrders :
    bigOrOpenOrders.expandTemplates.2 = .ok true ∧
      bigOrOpenOrders.graph.Unfoldable bigOrOpenOrders.root Graph.maxTemplateRounds ∧
      Graph.WritesOut bigOrOpenOrders.graph bigOrOpenOrders.expandTemplates.1.graph
        bigOrOpenOrders.clauses.templates id ⟨12⟩ ⟨12⟩ := by
  have ok : bigOrOpenOrders.expandTemplates.2 = .ok true := by decide +kernel
  obtain ⟨iff, result⟩ := bigOrOpenOrders.expandTemplates_substitutes parted_bigOrOpenOrders
  exact ⟨ok, iff.mp ⟨true, ok⟩, (result true ok).2.2.1⟩

end Query

end RangeQuery
