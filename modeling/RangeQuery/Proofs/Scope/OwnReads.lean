import RangeQuery.Proofs.Scope.BoundCopies
import RangeQuery.Proofs.Scope.ExcludedRanges

/-!
What a scope reads outside subqueries. An identifier that lies directly in a scope, with no subquery
and no other scope between, reads a range of that scope. The passes keep this: old nodes stay
directly in the scopes that they lay in, new identifiers lie in new subqueries, and a range that
stands for another one is declared by the same scope.
-/

namespace RangeQuery

namespace Graph

variable {g h : Graph} {root scope id : NodeId} {scopes : List NodeId}

/-- A node lies in a scope, and neither a subquery nor another one of the scopes stands between. -/
def DirectlyIn (g : Graph) (scopes : List NodeId) (scope id : NodeId) : Prop :=
  g.Below scope id ∧ ∀ between, g.Below scope between → g.Below between id → between ≠ scope →
    (g.node between).isSubquery = false ∧ between ∉ scopes

/-- What lies directly in a scope reads ranges that the scope declares. -/
def OwnReads (g : Graph) (scopes : List NodeId) : Prop :=
  ∀ scope ∈ scopes, ∀ id i, g.DirectlyIn scopes scope id → g.node id = .identifier i →
    i.range ∈ (g.node scope).declared

/-- An old node that lies directly in a scope lay directly in it. -/
theorem DirectlyIn.of_stays (direct : h.DirectlyIn scopes scope id) (stays : Stays g h root)
    (stamp : Same Node.stamp g h) (l : g.Linked root) (l' : h.Linked root)
    (isScope : ∀ scope ∈ scopes, g.ScopeIn root scope) (mem : scope ∈ scopes)
    (isScope' : h.ScopeIn root scope) (had : g.Has id) : g.DirectlyIn scopes scope id := by
  have reached := (isScope scope mem).reached
  have opens := opensScope_of_isRetrieve (isScope scope mem).isRetrieve
  have below := isScope'.reached.trans direct.1
  obtain ⟨was, same⟩ := stays id below had
  have on := (l'.mem_levelFrom below).mpr
    ⟨opensScope_of_isRetrieve isScope'.isRetrieve, isScope'.reached, direct.1⟩
  rw [same] at on
  refine ⟨((l.mem_levelFrom was).mp on).2.2, fun between upper inside ne => ?_⟩
  by_contra stands
  -- A subquery or a scope is on the level of all that it holds, so it stands between afterwards.
  have opens' : (g.node between).opensScope = true := by
    rcases not_and_or.mp stands with subquery | another
    · cases node : g.node between <;> simp_all [Node.isSubquery, Node.opensScope, Node.ranges?]
    · exact opensScope_of_isRetrieve (isScope between (not_not.mp another)).isRetrieve
  have around := (l.mem_levelFrom was).mpr ⟨opens', reached.trans upper, inside⟩
  rw [← same] at around
  obtain ⟨-, reached', inside'⟩ := (l'.mem_levelFrom below).mp around
  have around' := (l.mem_levelFrom (reached.trans upper)).mpr ⟨opens, reached, upper⟩
  rw [← (stays between reached' (l.has_of_below (reached.trans upper))).2] at around'
  obtain ⟨-, -, upper'⟩ := (l'.mem_levelFrom reached').mp around'
  obtain ⟨none, other⟩ := direct.2 between upper' inside' ne
  refine stands ⟨?_, other⟩
  by_contra subquery
  rw [stamp.isSubquery (Bool.not_eq_false _ ▸ subquery)] at none
  cases none

namespace OwnReads

variable (own : g.OwnReads scopes) (l : g.Linked root)
  (isScope : ∀ scope ∈ scopes, g.ScopeIn root scope)

include own l isScope

/-- A change that rebinds no identifier, and adds them in new subqueries only, leaves what lies
directly in scopes reading their ranges. -/
theorem reshaped {zone : Set NodeId} {level : NodeId → List NodeId} (keeps : Keeps g h)
    (r : Reshaped g h {root} {id | g.Below root id} (g.levelFrom {root}) zone level)
    (sheltered : Sheltered g h zone level)
    (reads : ∀ {id i}, g.Has id → h.node id = .identifier i → g.node id = .identifier i)
    (declared : ∀ scope ∈ scopes, (g.node scope).declared ⊆ (h.node scope).declared) :
    h.OwnReads scopes := by
  intro scope mem id i direct node
  have l' := r.inOrder.linked (Set.mem_singleton root)
  have has := l.has_of_below (isScope scope mem).reached
  have isScope' := keeps.scopeIn l (isScope scope mem)
  have stays := r.stays l keeps.stamp
  by_cases had : g.Has id
  · have direct' := direct.of_stays stays keeps.stamp l l' isScope mem isScope' had
    exact declared scope mem (own scope mem id i direct' (reads had node))
  · -- The new subquery around a new identifier stands between, as no old scope lies within it.
    exfalso
    have below := isScope'.reached.trans direct.1
    obtain ⟨within, on⟩ := r.level_eq l keeps.stamp below
    obtain ⟨sub, around, new, subquery⟩ := sheltered within had (by rw [node]; rfl)
    rw [on] at around
    obtain ⟨opens, reached, inside⟩ := (l'.mem_levelFrom below).mp around
    rcases l'.below_total isScope'.reached reached direct.1 inside with lower | upper
    · have none := (direct.2 sub lower inside fun same => new (same ▸ has)).1
      rw [subquery] at none
      cases none
    · have around' := (l'.mem_levelFrom isScope'.reached).mpr ⟨opens, reached, upper⟩
      rw [(stays scope isScope'.reached has).2] at around'
      exact new (l.has_of_below ((l.mem_levelFrom (isScope scope mem).reached).mp around').2.1)

/-- Excluding ranges of a scope rebinds nothing. -/
theorem dropDeadJoins (scope : NodeId) : (g.dropDeadJoins scope).1.OwnReads scopes := by
  obtain ⟨zone, level, reshaped, glued, -⟩ :=
    l.zone.enlarges ((Relabels.dropDeadJoins g scope).zone l.zone)
  have same : ∀ {α : Type} {view : Node → α}, Unbound view →
      Same view g (g.dropDeadJoins scope).1 :=
    fun unbound => unbound.dropDeadJoins g scope
  refine own.reshaped l isScope (.of_unbound same) reshaped glued.sheltered ?_ fun other mem' => ?_
  · exact fun {id i} _ => dropDeadJoins_induction
      (motive := fun h => h.node id = .identifier i → g.node id = .identifier i)
      (fun _ _ before node => before (identifier_exclude.mp node)) (fun node => node)
  · rw [(same Node.unbound_declared).node (l.has_of_below (isScope other mem').reached)]
    exact List.Subset.refl _

end OwnReads

/-! ## Merged ranges -/

/-- After a merge an identifier reads what it read, or the kept range for the removed one. -/
theorem Linked.identifier_merged (l : g.Linked root) (above : g.Below root scope)
    {kept removed : NodeId} {i : Identifier}
    (node : (((g.rebind scope (Renaming.empty.insert removed kept)).1).exclude removed).node id =
      .identifier i) :
    g.node id = .identifier i ∨
      ∃ i', g.node id = .identifier i' ∧ i'.range = removed ∧ i.range = kept := by
  classical
  rw [identifier_exclude, l.node_rebind above] at node
  split at node
  · cases was : g.node id with
    | identifier i' =>
      rw [was, Node.renamed] at node
      obtain rfl := Node.identifier.inj node
      by_cases hit : removed = i'.range
      · exact .inr ⟨i', rfl, hit.symm, by rw [← hit, Renaming.get?_insert_same]; rfl⟩
      · left
        rw [Renaming.get?_insert_other _ hit, Renaming.get?_empty]
        rfl
    | _ => rw [was] at node; cases node
  · exact .inl node

namespace OwnReads

variable (own : g.OwnReads scopes) (l : g.Linked root)
  (isScope : ∀ scope ∈ scopes, g.ScopeIn root scope)

include own l isScope

theorem merged (mem : scope ∈ scopes) {kept removed : NodeId}
    (declared : kept ∈ (g.node scope).declared) (declared' : removed ∈ (g.node scope).declared) :
    (((g.rebind scope (Renaming.empty.insert removed kept)).1).exclude removed).OwnReads
      scopes := by
  have reached := (isScope scope mem).reached
  have r := (Relabels.rebind g scope (Renaming.empty.insert removed kept)).trans
    (.exclude _ removed)
  have same : ∀ {α : Type} {view : Node → α}, Unbound view → Same view g
      (((g.rebind scope (Renaming.empty.insert removed kept)).1).exclude removed) :=
    fun unbound => (unbound.rebind g scope _).trans (unbound.exclude _ removed)
  intro other mem' id i direct node
  have above := (isScope other mem').reached
  have direct' : g.DirectlyIn scopes other id := by
    refine ⟨r.below.mp direct.1, fun between upper inside ne => ?_⟩
    obtain ⟨none, apart⟩ := direct.2 between (r.below.mpr upper) (r.below.mpr inside) ne
    refine ⟨?_, apart⟩
    by_contra subquery
    rw [(same Node.formal_stamp.toUnbound).isSubquery (Bool.not_eq_false _ ▸ subquery)] at none
    cases none
  rw [(same Node.unbound_declared).node (l.has_of_below above)]
  rcases l.identifier_merged reached node with was | ⟨i', was, hit, is⟩
  · exact own other mem' id i direct' was
  · have read := own other mem' id i' direct' was
    rw [hit] at read
    rw [is, l.declared_unique above reached read declared']
    exact declared

theorem mergePair (mem : scope ∈ scopes) {pair : IdentityPair}
    (p : g.IsPair (g.includedRanges scope) pair) : (g.mergePair scope pair).OwnReads scopes := by
  have reached := (isScope scope mem).reached
  have rigid : ∀ {α : Type} {view : Node → α}, Rigid view → Same view g (g.rejoined pair) :=
    fun rigid => rigid.rejoined g pair
  have keeps : Keeps g (g.rejoined pair) := .of_rigid rigid
  have z := l.zone.rejoined reached p
  obtain ⟨zone, level, reshaped, glued, -⟩ := l.zone.enlarges z
  have kept : ∀ other ∈ scopes, ((g.rejoined pair).node other).declared = (g.node other).declared :=
    fun other mem' => (rigid Node.unbound_declared.toRigid).node
      (l.has_of_below (isScope other mem').reached)
  have rejoined := own.reshaped l isScope keeps reshaped glued.sheltered
    (fun {id i} had node => by
      have label := (rigid Node.slotless_label.toRigid).node had
      rw [node] at label
      exact Node.label_eq_identifier label.symm)
    fun other mem' => by
      rw [kept other mem']
      exact List.Subset.refl _
  rw [mergePair_eq]
  refine rejoined.merged (z.linked (Set.mem_singleton root))
    (fun other mem' => keeps.scopeIn l (isScope other mem')) mem ?_ ?_ <;> rw [kept scope mem]
  · exact (mem_includedRanges p.kept).1
  · exact (mem_includedRanges p.removed).1

theorem mergeSelfJoins (mem : scope ∈ scopes) : (g.mergeSelfJoins scope).1.OwnReads scopes :=
  l.mergeSelfJoins_induction (isScope scope mem) (motive := fun h => h.OwnReads scopes)
    (fun l' unbound found own => own.mergePair l'
      (fun other mem' => (Keeps.of_unbound unbound).scopeIn l (isScope other mem')) mem
      (isPair_of_findIdentity? found)) own

end OwnReads

/-! ## Passes -/

/-- A pass over one of the scopes that leaves what they declare leaves what lies directly in a scope
reading its ranges. -/
theorem OwnReads.apply {bodies : List NodeId} (own : g.OwnReads scopes)
    (o : InOrder root bodies scopes g) (pass : Pass) (context : PassContext) (mem : scope ∈ scopes)
    (declared : ∀ other ∈ scopes,
      (g.node other).declared ⊆ ((pass.apply context g scope).1.node other).declared) :
    (pass.apply context g scope).1.OwnReads scopes := by
  have l := o.linked root (by simp)
  by_cases merges : pass = .selfJoins
  · subst merges
    exact own.mergeSelfJoins l o.scopes mem
  by_cases drops : pass = .deadJoins
  · subst drops
    exact own.dropDeadJoins l o.scopes scope
  obtain ⟨zone, level, reshaped, sheltered⟩ := o.sheltered_apply pass context mem
  refine own.reshaped l o.scopes (.apply pass context g scope) reshaped sheltered
    (fun {id i} had node => ?_) declared
  have label := (Same.label_apply merges drops context g scope).node had
  rw [node] at label
  exact Node.label_eq_identifier label.symm

end Graph

end RangeQuery
