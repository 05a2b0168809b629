/-
# Building the typed-edge graph

`build_typed_edge_graph` of `capability_cone.rs` over the typed edges of `combined_graph.rs`.  An
out-edge is compared, sorted and named by its sort key alone in several places; the key joins ids
with `|`, and an event id may hold any character.  `Emitted` says which edges `build_typed_edges`
pushes and what their ids are made of, and `sortKey_inj` that the key then tells the out-edges
apart.
-/
import AlSem.Lib.Lines
import AlSem.L4.BaseSummary
import AlSem.L4.TypedEdges

namespace AlSem.L4

/-! ## 1. The builder -/

/-- A typed edge, of its fields those the typed-edge graph reads. -/
structure TypedEdge where
  kind : String
  «from» : String
  «to» : Option String := none
  callsiteId : Option String := none
  operationId : Option String := none
  eventId : Option String := none
  deriving DecidableEq, Repr

/-- The call site an out-edge carries. -/
def callsiteIdForEdge (e : TypedEdge) : Option String :=
  match e.kind with
  | "direct-call" | "variable-typed-call" | "interface-dispatch" | "object-run-resolved"
  | "object-run-unresolved" | "dependency-export" => e.callsiteId
  | _ => none

/-- The site an edge stands at: its call site, else its operation. -/
def siteOf (callsiteId operationId : Option String) : Option String := callsiteId.or operationId

/-- The sites of dead code, with the routine each stands in. -/
structure DeadSites where
  sites : List (String × String) := []

/-- The site is one of dead code. -/
def DeadSites.contains (dead : DeadSites) (src : String) (site : Option String) : Bool :=
  site.any fun s => dead.sites.contains (src, s)

/-- The out-edge of a typed edge to `target`. -/
def TypedEdge.outEdge (e : TypedEdge) (target : String) : TypedOutEdge :=
  .new target e.kind (callsiteIdForEdge e) e.eventId e.operationId

/-- One typed edge: nothing for a dead site, a note for an unresolved object run, an out-edge for
an edge with a target. -/
def addTypedEdge (dead : DeadSites)
    (acc : HashMap String (List TypedOutEdge) × List String) (e : TypedEdge) :
    HashMap String (List TypedOutEdge) × List String :=
  if dead.contains e.from (siteOf e.callsiteId e.operationId) then acc
  else if e.kind = "object-run-unresolved" then (acc.1, e.from :: acc.2)
  else
    match e.to with
    | none => acc
    | some target => (acc.1.push e.from (e.outEdge target), acc.2)

/-- **The typed-edge graph**: each routine's out-edges sorted by key, in the order they came where
keys are equal. -/
def buildTypedEdgeGraph (typed : List TypedEdge) (nodes : List String) (dead : DeadSites) :
    TypedEdgeGraph :=
  let acc := typed.foldl (addTypedEdge dead) (∅, [])
  { nodes := nodes.mergeSort fun a b => decide (a ≤ b)
    outgoing := acc.1.mapValues fun list =>
      list.mergeSort fun a b => decide (a.sortKey ≤ b.sortKey)
    unresolvedSources := sortedSet acc.2 }

theorem mem_foldl_addTypedEdge {dead : DeadSites} {src : String} {x : TypedOutEdge} :
    ∀ (typed : List TypedEdge) {acc : HashMap String (List TypedOutEdge) × List String},
      x ∈ (typed.foldl (addTypedEdge dead) acc).1.getList src →
        x ∈ acc.1.getList src ∨ ∃ e ∈ typed, ∃ target, e.to = some target ∧
          e.kind ≠ "object-run-unresolved" ∧ x = e.outEdge target
  | [], _, h => Or.inl h
  | e :: typed, acc, h => by
    rw [List.foldl_cons] at h
    rcases mem_foldl_addTypedEdge typed h with h | ⟨e', he', rest⟩
    · unfold addTypedEdge at h
      split at h
      · exact Or.inl h
      · split at h
        · exact Or.inl h
        · rename_i hkind
          cases hto : e.to with
          | none =>
            rw [hto] at h
            exact Or.inl h
          | some target =>
            rw [hto] at h
            rcases (HashMap.mem_getList_push _ _ _ _ _).mp h with h | ⟨-, hx⟩
            · exact Or.inl h
            · exact Or.inr ⟨e, List.mem_cons_self, target, hto, hkind, hx⟩
    · exact Or.inr ⟨e', List.mem_cons_of_mem _ he', rest⟩

/-- **Every out-edge is that of a typed edge** with a target. -/
theorem mem_outEdges_build {typed : List TypedEdge} {nodes : List String} {dead : DeadSites}
    {src : String} {x : TypedOutEdge}
    (h : x ∈ (buildTypedEdgeGraph typed nodes dead).outEdges src) :
    ∃ e ∈ typed, ∃ target, e.to = some target ∧ e.kind ≠ "object-run-unresolved" ∧
      x = e.outEdge target := by
  unfold TypedEdgeGraph.outEdges buildTypedEdgeGraph HashMap.getList at h
  dsimp only at h
  rw [HashMap.lookup_mapValues] at h
  have hmem : x ∈ (typed.foldl (addTypedEdge dead) (∅, [])).1.getList src := by
    unfold HashMap.getList
    cases hl : (typed.foldl (addTypedEdge dead) (∅, [])).1.lookup src with
    | none => simp [hl] at h
    | some list =>
      rw [hl] at h
      exact List.mem_mergeSort.mp h
  rcases mem_foldl_addTypedEdge typed hmem with h | h
  · simp at h
  · exact h

/-! ## 2. Ids -/

/-- A digit of lowercase hex. -/
def isLowerHex (c : Char) : Bool := c.isDigit || (decide ('a' ≤ c) && decide (c ≤ 'f'))

/-- **What `encode_routine_id` writes**: the app's scope and the key's hash, both in lowercase
hex. -/
def IsRoutineId (id : String) : Prop :=
  ∃ scope hash : String, id = scope ++ "/" ++ hash ∧ ∀ c ∈ scope.toList ++ hash.toList, isLowerHex c

/-- Operation `n` of a routine. -/
def IsOpId (id : String) : Prop :=
  ∃ (routine : String) (n : ℕ), IsRoutineId routine ∧ id = routine ++ "/op" ++ toString n

/-- Call site `n` of a routine. -/
def IsCallsiteId (id : String) : Prop :=
  ∃ (routine : String) (n : ℕ), IsRoutineId routine ∧ id = routine ++ "/cs" ++ toString n

/-- An event of a publisher object: its name, and the field of a validate event, are free text. -/
def IsEventId (id : String) : Prop := ∃ object name : String, id = object ++ "/event/" ++ name

/-- The kinds of an edge a call site makes. -/
def callKinds : List String :=
  ["direct-call", "variable-typed-call", "interface-dispatch", "object-run-resolved"]

/-- **The edges `build_typed_edges` pushes**, one case for each place it does. -/
inductive TypedEdge.Emitted : TypedEdge → Prop
  | implicitTrigger {src target op : String} : IsRoutineId target → IsOpId op →
    Emitted { kind := "implicit-trigger", «from» := src, «to» := some target, operationId := some op }
  | tableEvent {src target op : String} {event : Option String} : IsRoutineId target → IsOpId op →
    (∀ id ∈ event, IsEventId id) →
    Emitted { kind := "table-event", «from» := src, «to» := some target, operationId := some op
              eventId := event }
  | call {kind src target cs : String} : kind ∈ callKinds → IsRoutineId target → IsCallsiteId cs →
    Emitted { kind, «from» := src, «to» := some target, callsiteId := some cs }
  | unresolvedRun {src cs : String} : IsCallsiteId cs →
    Emitted { kind := "object-run-unresolved", «from» := src, callsiteId := some cs }
  | eventDispatch {src target event : String} : IsRoutineId target → IsEventId event →
    Emitted { kind := "event-dispatch", «from» := src, «to» := some target, eventId := some event }

theorem bar_notMem_of_isLowerHex {l : List Char} (h : ∀ c ∈ l, isLowerHex c) : '|' ∉ l := by
  intro hmem
  have := h '|' hmem
  revert this
  decide

theorem IsRoutineId.bar_notMem {id : String} (h : IsRoutineId id) : '|' ∉ id.toList := by
  obtain ⟨scope, hash, rfl, hhex⟩ := h
  have hparts := bar_notMem_of_isLowerHex hhex
  rw [List.mem_append, not_or] at hparts
  simp [String.toList_append, hparts.1, hparts.2]

theorem bar_notMem_toDigits (n : ℕ) : '|' ∉ Nat.toDigits 10 n := by
  intro h
  have hdigit := Nat.isDigit_of_mem_toDigits (by decide) (by decide) h
  revert hdigit
  decide

theorem IsOpId.bar_notMem {id : String} (h : IsOpId id) : '|' ∉ id.toList := by
  obtain ⟨routine, n, hr, rfl⟩ := h
  simp [String.toList_append, hr.bar_notMem, bar_notMem_toDigits]

theorem IsCallsiteId.bar_notMem {id : String} (h : IsCallsiteId id) : '|' ∉ id.toList := by
  obtain ⟨routine, n, hr, rfl⟩ := h
  simp [String.toList_append, hr.bar_notMem, bar_notMem_toDigits]

theorem IsCallsiteId.ne_empty {id : String} (h : IsCallsiteId id) : id ≠ "" := by
  obtain ⟨routine, n, -, rfl⟩ := h
  intro hempty
  have := congrArg String.toList hempty
  simp [String.toList_append] at this

theorem IsEventId.ne_empty {id : String} (h : IsEventId id) : id ≠ "" := by
  obtain ⟨object, name, rfl⟩ := h
  intro hempty
  have := congrArg String.toList hempty
  simp [String.toList_append] at this

/-! ## 3. The key tells the edges apart -/

/-- The kinds of an edge a record operation makes. -/
def opKinds : List String := ["implicit-trigger", "table-event"]

/-- **An out-edge whose key can be read back**: only the event id may hold a `|`. -/
structure TypedOutEdge.WellKeyed (x : TypedOutEdge) : Prop where
  key : x.sortKey = edgeSortKey x.to x.kind x.callsite x.eventId x.operationId
  kind : '|' ∉ x.kind.toList
  target : '|' ∉ x.to.toList
  callsite : ∀ cs ∈ x.callsite, cs ≠ "" ∧ '|' ∉ cs.toList
  event : ∀ ev ∈ x.eventId, ev ≠ ""
  operation : ∀ op ∈ x.operationId, '|' ∉ op.toList
  hasOperation : x.operationId.isSome = opKinds.contains x.kind

theorem bar_notMem_kind : ∀ kind ∈ "event-dispatch" :: (opKinds ++ callKinds), '|' ∉ kind.toList := by
  decide

/-- **The out-edge of an emitted edge is well keyed.** -/
theorem TypedEdge.Emitted.wellKeyed {e : TypedEdge} (h : e.Emitted) {target : String}
    (hto : e.to = some target) : (e.outEdge target).WellKeyed := by
  cases h with
  | implicitTrigger htarget hop =>
    obtain rfl := Option.some.inj hto
    refine ⟨rfl, bar_notMem_kind "implicit-trigger" (by decide), htarget.bar_notMem, ?_, ?_, ?_, rfl⟩
    · rintro cs ⟨⟩
    · rintro ev ⟨⟩
    · rintro op ⟨⟩
      exact hop.bar_notMem
  | tableEvent htarget hop hevent =>
    obtain rfl := Option.some.inj hto
    refine ⟨rfl, bar_notMem_kind "table-event" (by decide), htarget.bar_notMem, ?_, fun ev hev => (hevent ev hev).ne_empty, ?_, rfl⟩
    · rintro cs ⟨⟩
    · rintro op ⟨⟩
      exact hop.bar_notMem
  | @call kind src t cs hkind htarget hcs =>
    obtain rfl := Option.some.inj hto
    have hcallsite : ∀ c ∈ (some cs : Option String), c ≠ "" ∧ '|' ∉ c.toList := by
      rintro c ⟨⟩
      exact ⟨hcs.ne_empty, hcs.bar_notMem⟩
    have hbar := bar_notMem_kind kind (List.mem_cons_of_mem _ (List.mem_append_right _ hkind))
    simp only [callKinds, List.mem_cons, List.not_mem_nil, or_false] at hkind
    rcases hkind with rfl | rfl | rfl | rfl <;>
      exact ⟨rfl, hbar, htarget.bar_notMem, hcallsite, by rintro ev ⟨⟩, by rintro op ⟨⟩, rfl⟩
  | unresolvedRun hcs => cases hto
  | eventDispatch htarget hevent =>
    obtain rfl := Option.some.inj hto
    refine ⟨rfl, bar_notMem_kind "event-dispatch" (by decide), htarget.bar_notMem, ?_, ?_, ?_, rfl⟩
    · rintro cs ⟨⟩
    · rintro ev ⟨⟩
      exact hevent.ne_empty
    · rintro op ⟨⟩

/-- A part that is empty only when it is missing. -/
theorem eq_of_getD_toList {a b : Option String} (ha : ∀ s ∈ a, s ≠ "") (hb : ∀ s ∈ b, s ≠ "")
    (h : (a.getD "").toList = (b.getD "").toList) : a = b := by
  have heq := String.toList_inj.mp h
  cases a with
  | none =>
    cases b with
    | none => rfl
    | some t => exact absurd heq.symm (hb t rfl)
  | some s =>
    cases b with
    | none => exact absurd heq (ha s rfl)
    | some t => exact congrArg some heq

/-- The characters of a key, the operation id last. -/
theorem toList_edgeSortKey (target kind : String) (callsite eventId operationId : Option String) :
    (edgeSortKey target kind callsite eventId operationId).toList =
      kind.toList ++ '|' :: ((callsite.getD "").toList ++ '|' :: ((eventId.getD "").toList ++
        '|' :: (target.toList ++ ((operationId.map fun op => '|' :: op.toList).getD [])))) := by
  cases operationId <;> simp [edgeSortKey, String.toList_append]

/-- **The sort key tells well-keyed edges apart**, in every field. -/
theorem TypedOutEdge.WellKeyed.sortKey_inj {x y : TypedOutEdge} (hx : x.WellKeyed)
    (hy : y.WellKeyed) (h : x.sortKey = y.sortKey) : x = y := by
  have hcallsite : ∀ {z : TypedOutEdge}, z.WellKeyed → '|' ∉ (z.callsite.getD "").toList := by
    intro z hz
    cases hc : z.callsite with
    | none => simp
    | some cs => exact (hz.callsite cs hc).2
  have hlist := congrArg String.toList h
  rw [hx.key, hy.key, toList_edgeSortKey, toList_edgeSortKey] at hlist
  obtain ⟨hk, hlist⟩ := Lines.eq_of_append_sep _ hx.kind hy.kind hlist
  obtain ⟨hc, hlist⟩ := Lines.eq_of_append_sep _ (hcallsite hx) (hcallsite hy) hlist
  have hkind := String.toList_inj.mp hk
  have hcs := eq_of_getD_toList (fun s hs => (hx.callsite s hs).1) (fun s hs => (hy.callsite s hs).1) hc
  have hsome : x.operationId.isSome = y.operationId.isSome := by
    rw [hx.hasOperation, hy.hasOperation, hkind]
  -- the kind says whether an operation id ends the key; then the rest is read from the right
  have hrest : x.eventId = y.eventId ∧ x.to = y.to ∧ x.operationId = y.operationId := by
    cases hox : x.operationId with
    | none =>
      have hoy : y.operationId = none := by
        rw [hox] at hsome
        exact Option.isNone_iff_eq_none.mp (by simpa using hsome.symm)
      rw [hox, hoy] at hlist
      simp only [Option.map_none, Option.getD_none, List.append_nil] at hlist
      obtain ⟨he, ht⟩ := Lines.eq_of_sep_append _ hx.target hy.target hlist
      exact ⟨eq_of_getD_toList hx.event hy.event he, String.toList_inj.mp ht, hoy.symm⟩
    | some op =>
      rw [hox] at hsome
      obtain ⟨op', hoy⟩ := Option.isSome_iff_exists.mp hsome.symm
      rw [hox, hoy] at hlist
      simp only [Option.map_some, Option.getD_some] at hlist
      rw [← List.cons_append, ← List.append_assoc, ← List.cons_append, ← List.append_assoc] at hlist
      obtain ⟨hlist, ho⟩ := Lines.eq_of_sep_append _ (hx.operation op hox) (hy.operation op' hoy) hlist
      obtain ⟨he, ht⟩ := Lines.eq_of_sep_append _ hx.target hy.target hlist
      refine ⟨eq_of_getD_toList hx.event hy.event he, String.toList_inj.mp ht, ?_⟩
      rw [hoy, String.toList_inj.mp ho]
  obtain ⟨xto, xk, xc, xe, xo, xs⟩ := x
  obtain ⟨yto, yk, yc, ye, yo, ys⟩ := y
  dsimp only at hkind hcs hrest h
  obtain ⟨rfl, rfl, rfl⟩ := hrest
  subst hkind hcs h
  rfl

/-- **An edge the builder makes**: the out-edge of an emitted edge. -/
def TypedOutEdge.Built (x : TypedOutEdge) : Prop :=
  ∃ (e : TypedEdge) (target : String), e.Emitted ∧ e.to = some target ∧ x = e.outEdge target

theorem built_of_mem_outEdges {typed : List TypedEdge} (htyped : ∀ e ∈ typed, e.Emitted)
    {nodes : List String} {dead : DeadSites} {src : String} {x : TypedOutEdge}
    (hx : x ∈ (buildTypedEdgeGraph typed nodes dead).outEdges src) : x.Built := by
  obtain ⟨e, he, target, hto, -, rfl⟩ := mem_outEdges_build hx
  exact ⟨e, target, htyped e he, hto, rfl⟩

/-- **Built edges with one sort key are one edge.** -/
theorem TypedOutEdge.Built.sortKey_inj {x y : TypedOutEdge} (hx : x.Built) (hy : y.Built)
    (h : x.sortKey = y.sortKey) : x = y := by
  obtain ⟨e, target, he, hto, rfl⟩ := hx
  obtain ⟨e', target', he', hto', rfl⟩ := hy
  exact (he.wellKeyed hto).sortKey_inj (he'.wellKeyed hto') h

end AlSem.L4
