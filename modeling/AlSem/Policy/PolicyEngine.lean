/-
# The policy engine

`gate/policy/policy_engine.rs`: each rule of a policy over each routine.  A rule that is no pin
looks for a fact of the routine that satisfies `when` and not `except`; a pin looks for a field
the routine writes without applying a rule key that satisfies `requires`.  Both first ask the
evaluator's applicability mode whether the rule can say anything about the routine at all; a run
reports every match and every violation all the same (`runPolicyEngine_exact`).

What a finding says (its texts, its anchors) is left out: a routine's `Outcome` under a rule
carries what the finding is about.
-/
import AlSem.Lib.ListOption
import AlSem.Policy.PredicateEvaluator

namespace AlSem.Policy

open AlSem.L4 AlSem.Model

/-! ## 1. Rules, and the model they are run over -/

/-- A compiled rule.  One with `requires` is a pin. -/
structure Rule where
  id : String
  when : Predicate
  except : Option Predicate := none
  requireCoverage : Option String := none
  onUnknown : Option String := none
  facts : Option String := none
  requires : Option Predicate := none

/-- The defaults block of a policy. -/
structure PolicyDefaults where
  onUnknown : Option String := none
  requireCoverage : Option String := none

/-- A policy document. -/
structure PolicyDoc where
  defaults : Option PolicyDefaults := none
  rules : List Rule

/-- What the engine reads of a routine's summary. -/
structure FullRoutineSummary where
  capabilityFactsDirect : List CapabilityFact
  /-- The inherited coverage status, when the summary has a coverage record. -/
  inheritedStatus : Option String := none

/-- One writer of one field: the field's names, and the rule keys it applies. -/
structure PinFact where
  table : String
  field : String
  keys : List RuleFact

/-- The writer index as pins read it. -/
structure PinIndex where
  /-- The fields a routine writes, by its stable id. -/
  factsOf : String → List PinFact
  truncated : Bool

/-- The inputs of a run. -/
structure PolicyModel where
  routines : List RoutineRow
  fieldIndexes : FieldIndexes
  summaries : String → Option FullRoutineSummary
  /-- Every evaluated routine's inherited facts. -/
  raw : String → Option (List (CapabilityFact × FirstHop))
  pins : Option PinIndex := none

def pickCoverage (rule : Rule) (doc : PolicyDoc) : String :=
  (rule.requireCoverage.or (doc.defaults.bind (·.requireCoverage))).getD "any"

def pickUnknown (rule : Rule) (doc : PolicyDoc) : String :=
  (rule.onUnknown.or (doc.defaults.bind (·.onUnknown))).getD "fail-closed"

/-- A missing coverage status passes the partial gate. -/
def passesCoverageGate (coverageStatus : Option String) (gate : String) : Bool :=
  match gate with
  | "any" => true
  | "partial" => coverageStatus != some "unknown"
  | _ => coverageStatus == some "complete"

/-! ## 2. The facts of a routine, selected and sorted -/

/-- The fields of a fact's sort key. -/
def factSortFields (f : FactRef) : List (List Char) :=
  [f.op.toList, f.resourceKind.toList, (f.resourceId.getD "").toList,
    (f.witnessOperationId.getD "").toList, f.confidence.toList, f.provenance.toList,
    f.via.toList, (f.witnessCallsiteId.getD "").toList]

/-- Two keys' fields joined by `|`, compared field by field as far as the fields agree. -/
def cmpJoined : List (List Char) → List (List Char) → Ordering
  | x :: a, y :: b =>
    if x = y then cmpJoined a b
    else
      match ((x.zip y).dropWhile fun p => p.1 == p.2).head? with
      | some (p, q) => compare p q
      -- one field starts the other: the separator after the shorter one takes part
      | none => compare (['|'].intercalate (x :: a)) (['|'].intercalate (y :: b))
  | a, b => compare a.length b.length

/-- Sort the facts by their keys; facts of one key keep their order. -/
def sortFacts (facts : List FactRef) : List FactRef :=
  facts.mergeSort fun a b => cmpJoined (factSortFields a) (factSortFields b) != .gt

/-- The facts a rule's mode selects: the direct ones, the inherited ones or both. -/
def selectFacts (rule : Rule) (directFacts : List CapabilityFact)
    (raw : Option (List (CapabilityFact × FirstHop))) : List FactRef :=
  let direct := directFacts.map FactRef.direct
  let inherited := (raw.getD []).map fun p => FactRef.inherited p.1 p.2
  match rule.facts.getD "any" with
  | "direct" => direct
  | "inherited" => inherited
  | _ => direct ++ inherited

/-- The sorted facts a rule reads of a routine; `none` where a routine with a summary has no
inherited facts and the rule reads them, which the engine refuses to go on from. -/
def factsFor (model : PolicyModel) (rule : Rule) (routine : RoutineRow) : Option (List FactRef) :=
  let summary := model.summaries routine.id
  let direct := (summary.map (·.capabilityFactsDirect)).getD []
  let raw := model.raw routine.id
  if raw.isNone && summary.isSome && rule.facts != some "direct" then none
  else some (sortFacts (selectFacts rule direct raw))

/-! ## 3. The loops over facts, writes and keys -/

/-- The context without fact, write and rule. -/
def PolicyModel.baseContext (model : PolicyModel) (routine : RoutineRow) : FieldEvalContext :=
  { routine := routine, indexes := model.fieldIndexes }

/-- Does the rule's `except` hold in the context? -/
def exempted (rule : Rule) (eval : Predicate → Tristate) : Bool :=
  match rule.except with
  | some p => eval p == .true
  | none => false

/-- The facts that match the rule, and whether `when` was undecided on one. -/
def factLoop (rule : Rule) (base : FieldEvalContext) : List FactRef → List FactRef × Bool
  | [] => ([], false)
  | fact :: facts =>
    let ctx := base.put (some fact) none none
    let (matched, sawUnknown) := factLoop rule base facts
    match evaluateResult rule.when ctx with
    | .false => (matched, sawUnknown)
    | .unknown => (matched, true)
    | .true =>
      if exempted rule fun p => evaluateResult p ctx then (matched, sawUnknown)
      else (fact :: matched, sawUnknown)

/-- Does some key satisfy `requires`, and was one before it undecided? -/
def keyLoop (requires : Predicate) (wctx : FieldEvalContext) : List RuleFact → Bool × Bool
  | [] => (false, false)
  | k :: ks =>
    match evaluateResult requires { wctx with rule := some k } with
    | .true => (true, false)
    | .unknown => ((keyLoop requires wctx ks).1, true)
    | .false => keyLoop requires wctx ks

/-- The writes that violate the pin, and whether one was undecided. -/
def pinLoop (rule : Rule) (requires : Predicate) (truncated : Bool) (base : FieldEvalContext) :
    List PinFact → List PinFact × Bool
  | [] => ([], false)
  | fact :: facts =>
    let wctx := base.put none (some ⟨fact.table, fact.field⟩) none
    let (violated, sawUnknown) := pinLoop rule requires truncated base facts
    match evaluateResult rule.when wctx with
    | .false => (violated, sawUnknown)
    | .unknown => (violated, true)
    | .true =>
      if exempted rule fun p => evaluateResult p wctx then (violated, sawUnknown)
      else
        match keyLoop requires wctx fact.keys with
        | (true, keyUnknown) => (violated, sawUnknown || keyUnknown)
        | (false, keyUnknown) =>
          if truncated then (violated, true) else (fact :: violated, sawUnknown || keyUnknown)

/-! ## 4. A rule over a routine, and a policy over all -/

/-- What a rule says about a routine. -/
inductive Outcome where
  | notApplicable
  | exempt
  | coverage (status gate : String)
  | passed
  | unknown
  | matched (facts : List FactRef)
  | violated (facts : List PinFact)

/-- A rule that is no pin over a routine. -/
def evaluateRule (model : PolicyModel) (doc : PolicyDoc) (rule : Rule) (routine : RoutineRow) :
    Option Outcome :=
  let base := model.baseContext routine
  if evaluateApplicability rule.when base = .false then some .notApplicable
  else if exempted rule fun p => evaluateApplicability p base then some .exempt
  else
    let status := (model.summaries routine.id).bind (·.inheritedStatus)
    let gate := pickCoverage rule doc
    if !passesCoverageGate status gate then some (.coverage (status.getD "unknown") gate)
    else
      (factsFor model rule routine).map fun facts =>
        match factLoop rule base facts with
        | ([], true) => .unknown
        | ([], false) => .passed
        | (matched, _) => .matched matched

/-- A pin over a routine. -/
def evaluatePin (model : PolicyModel) (pins : PinIndex) (rule : Rule) (requires : Predicate)
    (routine : RoutineRow) : Outcome :=
  let base := model.baseContext routine
  if evaluateApplicability rule.when base = .false then .notApplicable
  else if exempted rule fun p => evaluateApplicability p base then .exempt
  else
    match pinLoop rule requires pins.truncated base (pins.factsOf routine.stableRoutineId) with
    | ([], true) => .unknown
    | ([], false) => .passed
    | (violated, _) => .violated violated

/-- A rule over the routines.  A pin without a writer index stops the engine. -/
def runRule (model : PolicyModel) (doc : PolicyDoc) (rule : Rule) (routines : List RoutineRow) :
    Option (List (RoutineRow × Outcome)) :=
  match rule.requires with
  | some requires =>
    model.pins.map fun pins => routines.map fun r => (r, evaluatePin model pins rule requires r)
  | none => routines.mapM fun r => (evaluateRule model doc rule r).map fun o => (r, o)

/-- Is the outcome reported?  `onUnknown` decides where the engine could not tell. -/
def Outcome.reported (unknownPolicy : String) : Outcome → Bool
  | .matched _ => true
  | .violated _ => true
  | .unknown => unknownPolicy == "fail-closed"
  | .coverage _ _ => unknownPolicy == "fail-closed"
  | .notApplicable => false
  | .exempt => false
  | .passed => false

/-- Of neighbours with one id, the last. -/
def dedupById : List RoutineRow → List RoutineRow
  | [] => []
  | [r] => [r]
  | a :: b :: rest => if a.id = b.id then dedupById (b :: rest) else a :: dedupById (b :: rest)

/-- The id of the finding of a rule on a routine. -/
def findingId (rule : Rule) (routine : RoutineRow) : String :=
  "policy-" ++ rule.id ++ "/" ++ routine.id

/-- The routines in the order they are evaluated, one row an id. -/
def sortedRoutines (model : PolicyModel) : List RoutineRow :=
  dedupById (model.routines.mergeSort fun a b => a.id ≤ b.id)

/-- A policy over a model: what is reported, sorted by the finding's id. -/
def runPolicyEngine (model : PolicyModel) (doc : PolicyDoc) :
    Option (List (Rule × RoutineRow × Outcome)) := do
  let rules := doc.rules.mergeSort fun a b => a.id ≤ b.id
  let findings ← rules.mapM fun rule => do
    let outcomes ← runRule model doc rule (sortedRoutines model)
    let reported := outcomes.filter fun p => p.2.reported (pickUnknown rule doc)
    pure (reported.map fun p => (rule, p))
  pure (findings.flatten.mergeSort fun a b => findingId a.1 a.2.1 ≤ findingId b.1 b.2.1)

/-! ## 5. What the applicability skips leave out -/

section Skips

variable {rule : Rule} {base : FieldEvalContext}

/-- Where `when` is not applicable, it is false on every fact. -/
theorem when_false_of_notApplicable (h : evaluateApplicability rule.when base = .false)
    (fact : Option FactRef) (write : Option WriteFact) (key : Option RuleFact) :
    evaluateResult rule.when (base.put fact write key) = .false :=
  have hne : evaluateApplicability rule.when base ≠ .unknown := by rw [h]; decide
  ((evalTristate_refines base fact write key rule.when).decided hne).trans h

/-- Where the routine is exempt whatever the facts, every fact is exempt. -/
theorem exempted_of_exempt (h : exempted rule (evaluateApplicability · base) = true)
    (fact : Option FactRef) (write : Option WriteFact) (key : Option RuleFact) :
    exempted rule (evaluateResult · (base.put fact write key)) = true := by
  unfold exempted at h ⊢
  cases hexcept : rule.except with
  | none => simp [hexcept] at h
  | some p =>
    simp only [hexcept, beq_iff_eq] at h ⊢
    have hne : evaluateApplicability p base ≠ .unknown := by rw [h]; decide
    exact ((evalTristate_refines base fact write key p).decided hne).trans h

/-- A rule that is not applicable matches no fact, and is undecided on none. -/
theorem factLoop_notApplicable (h : evaluateApplicability rule.when base = .false)
    (facts : List FactRef) : factLoop rule base facts = ([], false) := by
  induction facts with
  | nil => rfl
  | cons fact facts ih =>
    simp only [factLoop, ih, when_false_of_notApplicable h (some fact) none none]

/-- A pin that is not applicable is violated by no write, and is undecided on none. -/
theorem pinLoop_notApplicable (h : evaluateApplicability rule.when base = .false)
    (requires : Predicate) (truncated : Bool) (facts : List PinFact) :
    pinLoop rule requires truncated base facts = ([], false) := by
  induction facts with
  | nil => rfl
  | cons fact facts ih =>
    simp only [pinLoop, ih, when_false_of_notApplicable h none (some ⟨fact.table, fact.field⟩) none]

/-- The facts the loop matches are those that satisfy `when` and not `except`. -/
theorem mem_factLoop {fact : FactRef} {facts : List FactRef} :
    fact ∈ (factLoop rule base facts).1 ↔
      fact ∈ facts ∧ evaluateResult rule.when (base.put (some fact) none none) = .true ∧
        exempted rule (evaluateResult · (base.put (some fact) none none)) = false := by
  induction facts with
  | nil => simp [factLoop]
  | cons f facts ih =>
    -- the loop keeps `f` exactly where the right side is about `f`
    have hstep : fact ∈ (factLoop rule base (f :: facts)).1 ↔
        fact ∈ (factLoop rule base facts).1 ∨ fact = f ∧
          evaluateResult rule.when (base.put (some f) none none) = .true ∧
          exempted rule (evaluateResult · (base.put (some f) none none)) = false := by
      simp only [factLoop]
      cases evaluateResult rule.when (base.put (some f) none none) with
      | «false» => simp
      | unknown => simp
      | «true» =>
        dsimp only
        cases exempted rule (evaluateResult · (base.put (some f) none none)) with
        | true => simp
        | false => simp [or_comm]
    rw [hstep, ih, List.mem_cons]
    constructor
    · rintro (⟨hmem, hrest⟩ | ⟨rfl, hrest⟩)
      · exact ⟨Or.inr hmem, hrest⟩
      · exact ⟨Or.inl rfl, hrest⟩
    · rintro ⟨rfl | hmem, hrest⟩
      · exact Or.inr ⟨rfl, hrest⟩
      · exact Or.inl ⟨hmem, hrest⟩

/-- The writes the loop finds violated are those that satisfy `when` and not `except`, and whose
keys do not satisfy `requires`, in an index that is whole. -/
theorem mem_pinLoop {requires : Predicate} {truncated : Bool} {fact : PinFact}
    {facts : List PinFact} :
    fact ∈ (pinLoop rule requires truncated base facts).1 ↔
      truncated = false ∧ fact ∈ facts ∧
        evaluateResult rule.when (base.put none (some ⟨fact.table, fact.field⟩) none) = .true ∧
        exempted rule (evaluateResult ·
          (base.put none (some ⟨fact.table, fact.field⟩) none)) = false ∧
        (keyLoop requires (base.put none (some ⟨fact.table, fact.field⟩) none) fact.keys).1 =
          false := by
  induction facts with
  | nil => simp [pinLoop]
  | cons f facts ih =>
    -- the loop keeps `f` exactly where the right side is about `f`
    have hstep : fact ∈ (pinLoop rule requires truncated base (f :: facts)).1 ↔
        fact ∈ (pinLoop rule requires truncated base facts).1 ∨ fact = f ∧ truncated = false ∧
          evaluateResult rule.when (base.put none (some ⟨f.table, f.field⟩) none) = .true ∧
          exempted rule (evaluateResult ·
            (base.put none (some ⟨f.table, f.field⟩) none)) = false ∧
          (keyLoop requires (base.put none (some ⟨f.table, f.field⟩) none) f.keys).1 = false := by
      simp only [pinLoop]
      cases evaluateResult rule.when (base.put none (some ⟨f.table, f.field⟩) none) with
      | «false» => simp
      | unknown => simp
      | «true» =>
        dsimp only
        cases exempted rule
            (evaluateResult · (base.put none (some ⟨f.table, f.field⟩) none)) with
        | true => simp
        | false =>
          rcases keyLoop requires (base.put none (some ⟨f.table, f.field⟩) none) f.keys with
            ⟨satisfied, keyUnknown⟩
          cases satisfied <;> cases truncated <;> simp [or_comm]
    rw [hstep, ih, List.mem_cons]
    constructor
    · rintro (⟨ht, hmem, hrest⟩ | ⟨rfl, ht, hrest⟩)
      · exact ⟨ht, Or.inr hmem, hrest⟩
      · exact ⟨ht, Or.inl rfl, hrest⟩
    · rintro ⟨ht, rfl | hmem, hrest⟩
      · exact Or.inr ⟨rfl, ht, hrest⟩
      · exact Or.inl ⟨ht, hmem, hrest⟩

/-- What a rule reads of a routine's facts matches: `when` holds on it, and `except` does not. -/
def Matches (model : PolicyModel) (rule : Rule) (routine : RoutineRow) (fact : FactRef) : Prop :=
  evaluateResult rule.when ((model.baseContext routine).put (some fact) none none) = .true ∧
    exempted rule (evaluateResult · ((model.baseContext routine).put (some fact) none none)) = false

/-- What a routine writes violates a pin: `when` holds on it, `except` does not, and none of its
keys satisfies what is required. -/
def Violates (model : PolicyModel) (rule : Rule) (requires : Predicate) (routine : RoutineRow)
    (fact : PinFact) : Prop :=
  let wctx := (model.baseContext routine).put none (some ⟨fact.table, fact.field⟩) none
  evaluateResult rule.when wctx = .true ∧ exempted rule (evaluateResult · wctx) = false ∧
    (keyLoop requires wctx fact.keys).1 = false

/-- The coverage gate lets the rule look at the routine's facts. -/
def Covered (model : PolicyModel) (doc : PolicyDoc) (rule : Rule) (routine : RoutineRow) : Prop :=
  passesCoverageGate ((model.summaries routine.id).bind (·.inheritedStatus))
    (pickCoverage rule doc) = true

/-- No rule is skipped where something satisfies `when` and not `except`. -/
theorem not_skipped {fact : Option FactRef} {write : Option WriteFact} {key : Option RuleFact}
    (hwhen : evaluateResult rule.when (base.put fact write key) = .true)
    (hexcept : exempted rule (evaluateResult · (base.put fact write key)) = false) :
    evaluateApplicability rule.when base ≠ .false ∧
      exempted rule (evaluateApplicability · base) ≠ true := by
  refine ⟨fun h => ?_, fun h => ?_⟩
  · have hfull := when_false_of_notApplicable h fact write key
    exact absurd (hfull.symm.trans hwhen) (by decide)
  · have hfull := exempted_of_exempt h fact write key
    exact absurd (hfull.symm.trans hexcept) (by decide)

/-- **The skips hide no match.**  A rule's match on a routine is the selected facts that satisfy
`when` and not `except`, wherever the coverage gate lets the rule look at the facts. -/
theorem evaluateRule_matched {model : PolicyModel} {doc : PolicyDoc} {routine : RoutineRow}
    {fact : FactRef} :
    (∃ found, evaluateRule model doc rule routine = some (.matched found) ∧ fact ∈ found) ↔
      Covered model doc rule routine ∧
        (∃ facts, factsFor model rule routine = some facts ∧ fact ∈ facts) ∧
        Matches model rule routine fact := by
  constructor
  · rintro ⟨found, hrule, hmem⟩
    unfold evaluateRule at hrule
    dsimp only at hrule
    split at hrule
    · cases hrule
    · split at hrule
      · cases hrule
      · split at hrule
        · cases hrule
        · rename_i hgate
          obtain ⟨facts, hfacts, hloop⟩ := Option.map_eq_some_iff.mp hrule
          have hfound : (factLoop rule (model.baseContext routine) facts).1 = found := by
            rcases hpair : factLoop rule (model.baseContext routine) facts with
              ⟨matched, sawUnknown⟩
            rw [hpair] at hloop
            cases matched with
            | nil => cases sawUnknown <;> cases hloop
            | cons f fs => exact Outcome.matched.inj hloop
          obtain ⟨hmem, hwhen, hexcept⟩ := mem_factLoop.mp (hfound ▸ hmem)
          exact ⟨by simpa [Covered] using hgate, ⟨facts, hfacts, hmem⟩, hwhen, hexcept⟩
  · rintro ⟨hgate, ⟨facts, hfacts, hmem⟩, hwhen, hexcept⟩
    obtain ⟨happlicable, hexempt⟩ := not_skipped hwhen hexcept
    have hfound : fact ∈ (factLoop rule (model.baseContext routine) facts).1 :=
      mem_factLoop.mpr ⟨hmem, hwhen, hexcept⟩
    refine ⟨(factLoop rule (model.baseContext routine) facts).1, ?_, hfound⟩
    unfold Covered at hgate
    unfold evaluateRule
    simp only [if_neg happlicable, if_neg hexempt, hgate, hfacts, Bool.not_true,
      Bool.false_eq_true, if_false, Option.map_some, Option.some.injEq]
    rcases hloop : factLoop rule (model.baseContext routine) facts with ⟨matched, sawUnknown⟩
    rw [hloop] at hfound
    cases matched with
    | nil => exact absurd hfound List.not_mem_nil
    | cons f fs => rfl

/-- **The skips hide no violation.** -/
theorem evaluatePin_violated {model : PolicyModel} {pins : PinIndex} {requires : Predicate}
    {routine : RoutineRow} {fact : PinFact} :
    (∃ found, evaluatePin model pins rule requires routine = .violated found ∧ fact ∈ found) ↔
      pins.truncated = false ∧ fact ∈ pins.factsOf routine.stableRoutineId ∧
        Violates model rule requires routine fact := by
  constructor
  · rintro ⟨found, hpin, hmem⟩
    unfold evaluatePin at hpin
    dsimp only at hpin
    split at hpin
    · cases hpin
    · split at hpin
      · cases hpin
      · rcases hloop : pinLoop rule requires pins.truncated (model.baseContext routine)
            (pins.factsOf routine.stableRoutineId) with ⟨violated, sawUnknown⟩
        rw [hloop] at hpin
        have hfound : violated = found := by
          cases violated with
          | nil => cases sawUnknown <;> cases hpin
          | cons f fs => exact Outcome.violated.inj hpin
        have hin : fact ∈ (pinLoop rule requires pins.truncated (model.baseContext routine)
            (pins.factsOf routine.stableRoutineId)).1 := by
          rw [hloop, hfound]
          exact hmem
        exact mem_pinLoop.mp hin
  · rintro ⟨ht, hmem, hwhen, hexcept, hkeys⟩
    obtain ⟨happlicable, hexempt⟩ := not_skipped hwhen hexcept
    have hfound : fact ∈ (pinLoop rule requires pins.truncated (model.baseContext routine)
        (pins.factsOf routine.stableRoutineId)).1 :=
      mem_pinLoop.mpr ⟨ht, hmem, hwhen, hexcept, hkeys⟩
    refine ⟨(pinLoop rule requires pins.truncated (model.baseContext routine)
      (pins.factsOf routine.stableRoutineId)).1, ?_, hfound⟩
    unfold evaluatePin
    simp only [if_neg happlicable, if_neg hexempt]
    rcases hloop : pinLoop rule requires pins.truncated (model.baseContext routine)
      (pins.factsOf routine.stableRoutineId) with ⟨violated, sawUnknown⟩
    rw [hloop] at hfound
    cases violated with
    | nil => exact absurd hfound List.not_mem_nil
    | cons f fs => rfl

/-- The outcome of a rule over a routine. -/
def Gives (model : PolicyModel) (doc : PolicyDoc) (rule : Rule) (routine : RoutineRow)
    (outcome : Outcome) : Prop :=
  match rule.requires with
  | some requires => ∃ pins, model.pins = some pins ∧
      evaluatePin model pins rule requires routine = outcome
  | none => evaluateRule model doc rule routine = some outcome

/-- What a rule says about routines, row by row. -/
theorem mem_runRule {model : PolicyModel} {doc : PolicyDoc} {routines : List RoutineRow}
    {outcomes : List (RoutineRow × Outcome)} (h : runRule model doc rule routines = some outcomes)
    {p : RoutineRow × Outcome} :
    p ∈ outcomes ↔ p.1 ∈ routines ∧ Gives model doc rule p.1 p.2 := by
  unfold runRule at h
  unfold Gives
  cases hrequires : rule.requires with
  | some requires =>
    rw [hrequires] at h
    obtain ⟨pins, hpins, rfl⟩ := Option.map_eq_some_iff.mp h
    constructor
    · intro hp
      obtain ⟨r, hr, rfl⟩ := List.mem_map.mp hp
      exact ⟨hr, pins, hpins, rfl⟩
    · rintro ⟨hr, pins', hpins', houtcome⟩
      obtain rfl : pins' = pins := Option.some.inj (hpins'.symm.trans hpins)
      exact List.mem_map.mpr ⟨p.1, hr, Prod.ext rfl houtcome⟩
  | none =>
    rw [hrequires] at h
    rw [ListOption.mem_of_mapM h]
    constructor
    · rintro ⟨r, hr, heq⟩
      obtain ⟨o, ho, rfl⟩ := Option.map_eq_some_iff.mp heq
      exact ⟨hr, ho⟩
    · rintro ⟨hr, ho⟩
      exact ⟨p.1, hr, Option.map_eq_some_iff.mpr ⟨p.2, ho, rfl⟩⟩

/-- **What a run reports.**  A finding is an outcome that a rule of the policy has over a routine
of the model and that is reported. -/
theorem mem_runPolicyEngine {model : PolicyModel} {doc : PolicyDoc}
    {findings : List (Rule × RoutineRow × Outcome)} (h : runPolicyEngine model doc = some findings)
    {rule : Rule} {routine : RoutineRow} {outcome : Outcome} :
    (rule, routine, outcome) ∈ findings ↔ rule ∈ doc.rules ∧ routine ∈ sortedRoutines model ∧
      Gives model doc rule routine outcome ∧ outcome.reported (pickUnknown rule doc) = true := by
  unfold runPolicyEngine at h
  obtain ⟨perRule, hrules, h⟩ := Option.bind_eq_some_iff.mp h
  obtain rfl := Option.some.inj h
  rw [(List.mergeSort_perm _ _).mem_iff, List.mem_flatten]
  constructor
  · rintro ⟨reported, hreported, hmem⟩
    obtain ⟨rule', hrule', hrun⟩ := (ListOption.mem_of_mapM hrules).mp hreported
    obtain ⟨outcomes, houtcomes, hrun⟩ := Option.bind_eq_some_iff.mp hrun
    obtain rfl := Option.some.inj hrun
    obtain ⟨p, hp, heq⟩ := List.mem_map.mp hmem
    obtain ⟨rfl, rfl⟩ := Prod.mk.inj heq
    obtain ⟨hp, hshow⟩ := List.mem_filter.mp hp
    obtain ⟨hroutine, hgives⟩ := (mem_runRule houtcomes).mp hp
    exact ⟨(List.mergeSort_perm _ _).mem_iff.mp hrule', hroutine, hgives, hshow⟩
  · rintro ⟨hrule, hroutine, hgives, hshow⟩
    obtain ⟨k, hk⟩ := List.mem_iff_getElem?.mp ((List.mergeSort_perm doc.rules
      fun a b => decide (a.id ≤ b.id)).mem_iff.mpr hrule)
    obtain ⟨reported, hreported, hrun⟩ := ListOption.getElem?_of_mapM hrules hk
    refine ⟨reported, List.mem_of_getElem? hreported, ?_⟩
    obtain ⟨outcomes, houtcomes, hrun⟩ := Option.bind_eq_some_iff.mp hrun
    obtain rfl := Option.some.inj hrun
    exact List.mem_map_of_mem (List.mem_filter.mpr ⟨(mem_runRule houtcomes).mpr
      ⟨hroutine, hgives⟩, hshow⟩)

/-- A pin matches nothing. -/
theorem evaluatePin_ne_matched {model : PolicyModel} {pins : PinIndex} {requires : Predicate}
    {routine : RoutineRow} {found : List FactRef} :
    evaluatePin model pins rule requires routine ≠ .matched found := by
  unfold evaluatePin
  dsimp only
  split
  · exact Outcome.noConfusion
  · split
    · exact Outcome.noConfusion
    · split <;> exact Outcome.noConfusion

/-- A rule that is no pin finds no violation. -/
theorem evaluateRule_ne_violated {model : PolicyModel} {doc : PolicyDoc} {routine : RoutineRow}
    {found : List PinFact} : evaluateRule model doc rule routine ≠ some (.violated found) := by
  unfold evaluateRule
  dsimp only
  intro h
  split at h
  · cases h
  · split at h
    · cases h
    · split at h
      · cases h
      · obtain ⟨facts, -, hloop⟩ := Option.map_eq_some_iff.mp h
        split at hloop <;> cases hloop

/-- **The engine reports every match and every violation, and no other.**  Where a run of a policy
goes through, a fact is in a rule's finding on a routine exactly when the rule is no pin, may look at
the routine's facts and the fact matches it; a write is in a pin's finding exactly when the writer
index is whole and the write violates the pin.  So no rule is skipped where it would have reported
something that it found. -/
theorem runPolicyEngine_exact {model : PolicyModel} {doc : PolicyDoc}
    {findings : List (Rule × RoutineRow × Outcome)} (h : runPolicyEngine model doc = some findings)
    (rule : Rule) (routine : RoutineRow) :
    (∀ fact, (∃ found, (rule, routine, .matched found) ∈ findings ∧ fact ∈ found) ↔
      rule ∈ doc.rules ∧ routine ∈ sortedRoutines model ∧ rule.requires = none ∧
        Covered model doc rule routine ∧
        (∃ facts, factsFor model rule routine = some facts ∧ fact ∈ facts) ∧
        Matches model rule routine fact) ∧
    ∀ fact, (∃ found, (rule, routine, .violated found) ∈ findings ∧ fact ∈ found) ↔
      rule ∈ doc.rules ∧ routine ∈ sortedRoutines model ∧ ∃ requires pins,
        rule.requires = some requires ∧ model.pins = some pins ∧ pins.truncated = false ∧
        fact ∈ pins.factsOf routine.stableRoutineId ∧ Violates model rule requires routine fact := by
  refine ⟨fun fact => ?_, fun fact => ?_⟩
  · constructor
    · rintro ⟨found, hfound, hmem⟩
      obtain ⟨hrule, hroutine, hgives, -⟩ := (mem_runPolicyEngine h).mp hfound
      unfold Gives at hgives
      split at hgives
      · obtain ⟨pins, -, hpin⟩ := hgives
        exact absurd hpin evaluatePin_ne_matched
      · rename_i hrequires
        exact ⟨hrule, hroutine, hrequires, evaluateRule_matched.mp ⟨found, hgives, hmem⟩⟩
    · rintro ⟨hrule, hroutine, hrequires, hmatch⟩
      obtain ⟨found, hgives, hmem⟩ := evaluateRule_matched.mpr hmatch
      refine ⟨found, (mem_runPolicyEngine h).mpr ⟨hrule, hroutine, ?_, rfl⟩, hmem⟩
      unfold Gives
      rw [hrequires]
      exact hgives
  · constructor
    · rintro ⟨found, hfound, hmem⟩
      obtain ⟨hrule, hroutine, hgives, -⟩ := (mem_runPolicyEngine h).mp hfound
      unfold Gives at hgives
      split at hgives
      · rename_i requires hrequires
        obtain ⟨pins, hpins, hpin⟩ := hgives
        exact ⟨hrule, hroutine, requires, pins, hrequires, hpins,
          evaluatePin_violated.mp ⟨found, hpin, hmem⟩⟩
      · exact absurd hgives evaluateRule_ne_violated
    · rintro ⟨hrule, hroutine, requires, pins, hrequires, hpins, hviolates⟩
      obtain ⟨found, hpin, hmem⟩ := evaluatePin_violated.mpr hviolates
      refine ⟨found, (mem_runPolicyEngine h).mpr ⟨hrule, hroutine, ?_, rfl⟩, hmem⟩
      unfold Gives
      rw [hrequires]
      exact ⟨pins, hpins, hpin⟩

end Skips

/-- **The applicability mode is a sound pre-filter.**  What it decides about a predicate, the
full mode decides the same way whatever fact, write and rule are put in the context; and where
the engine skips a rule because its `when` is not applicable to the routine, no fact of the
routine matches the rule, no write of it violates the rule as a pin, and none is undecided. -/
theorem applicability_sound (p : Predicate) (ctx : FieldEvalContext) (fact : Option FactRef)
    (write : Option WriteFact) (key : Option RuleFact) :
    (evalTristate ctx .applicability p = .false →
      evalTristate (ctx.put fact write key) .full p = .false) ∧
    (evalTristate ctx .applicability p = .true →
      evalTristate (ctx.put fact write key) .full p = .true) ∧
    ∀ rule : Rule, rule.when = p → evaluateApplicability rule.when ctx = .false →
      (∀ facts, factLoop rule ctx facts = ([], false)) ∧
      (∀ requires truncated facts, pinLoop rule requires truncated ctx facts = ([], false)) ∧
      ∀ model doc routine, ctx = model.baseContext routine →
        evaluateRule model doc rule routine = some .notApplicable ∧
        (∀ fact, ¬ Matches model rule routine fact) ∧
        ∀ pins requires, evaluatePin model pins rule requires routine = .notApplicable ∧
          ∀ fact, ¬ Violates model rule requires routine fact := by
  have hrefines := evalTristate_refines ctx fact write key p
  refine ⟨fun h => ?_, fun h => ?_, fun rule _ h => ?_⟩
  · exact (hrefines.decided (by rw [h]; decide)).trans h
  · exact (hrefines.decided (by rw [h]; decide)).trans h
  · refine ⟨factLoop_notApplicable h, pinLoop_notApplicable h, ?_⟩
    rintro model doc routine rfl
    refine ⟨if_pos h, fun fact hmatch => ?_, fun pins requires => ⟨if_pos h, fun fact hviolates => ?_⟩⟩
    · exact (not_skipped hmatch.1 hmatch.2).1 h
    · exact (not_skipped hviolates.1 hviolates.2.1).1 h

/-- A rule about triggers that modify. -/
def triggerRule : Rule where
  id := "trigger-writes"
  when := .all
    [.field "capability.op" .eq (.str "modify"),
      .not (.any [.field "routine.kind" .eq (.str "procedure"),
        .field "capability.via" .eq (.str "event")])]

def procedureRow : RoutineRow where
  id := "r"
  kind := "procedure"
  objectId := "o"

/-- A model of one procedure. -/
def procedureModel : PolicyModel where
  routines := [procedureRow]
  fieldIndexes :=
    { objects := [], rootKindsByRoutineId := fun _ => none, tablesById := fun _ => none
      eventsById := fun _ => none, toLowercase := id, regexMatch := fun _ _ => none }
  summaries := fun _ => none
  raw := fun _ => none

/-- What the procedure does directly. -/
def modifyFact : FactRef :=
  .direct { subject := "r", op := "modify", resourceKind := "table", confidence := "high"
            provenance := "direct", via := "call" }

/-- The rule is false on the procedure whatever the fact, although it is undecided in part. -/
theorem applicability_sound_procedure :
    evaluateApplicability triggerRule.when (procedureModel.baseContext procedureRow) = .false ∧
      evaluateResult triggerRule.when
        ((procedureModel.baseContext procedureRow).put (some modifyFact) none none) = .false ∧
      ¬ Matches procedureModel triggerRule procedureRow modifyFact := by
  have hskip : evaluateApplicability triggerRule.when (procedureModel.baseContext procedureRow) =
      .false := by decide
  obtain ⟨hfalse, -, hengine⟩ := applicability_sound triggerRule.when
    (procedureModel.baseContext procedureRow) (some modifyFact) none none
  obtain ⟨-, -, hrun⟩ := hengine triggerRule rfl hskip
  exact ⟨hskip, hfalse hskip, (hrun procedureModel { rules := [triggerRule] } procedureRow rfl).2.1
    modifyFact⟩

end AlSem.Policy
