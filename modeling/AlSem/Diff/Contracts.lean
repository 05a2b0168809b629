/-
# Contract facts

`gate/diff/passes.rs`: which contract facts are part of an app's ABI, and how a routine's signature
changed between two facts of it.  The rename table, the ABI pass and the event pass read these.
-/
import AlSem.Diff.Findings
import Mathlib.Data.Finset.Dedup

namespace AlSem.Diff

open AlSem.Snapshot Text

/-! ## 1. The ABI surface -/

/-- Event attributes whose publisher other apps subscribe to, even when the procedure is `local`. -/
def externalEventAttributes : List String :=
  ["IntegrationEvent", "BusinessEvent", "ExternalBusinessEvent"]

/-- The attributes whose publisher passes its parameters on. -/
def parameterEventAttributes : List String := ["IntegrationEvent", "BusinessEvent"]

/-- Whether the fact carries one of `names` (case-insensitive). -/
def carriesAttribute (fact : CborValue) (names : List String) : Bool :=
  match getArray fact "attributes" with
  | none => false
  | some attrs => attrs.any fun a =>
      match getStr a "name" with
      | none => false
      | some n => names.any fun e => eqIgnoreAsciiCase n e

/-- `matches!(visibility, Some("local" | "internal"))`. -/
def isInApp (fact : CborValue) : Bool :=
  getStr fact "visibility" == some "local" || getStr fact "visibility" == some "internal"

/-- Whether a contract fact is part of the app's ABI: not a trigger, and not a `local` or `internal`
routine that publishes no external event. -/
def isAbiSurface (fact : CborValue) : Bool :=
  if getStr fact "kind" != some "routine" then true
  else if getStr fact "routineKind" == some "trigger" then false
  else carriesAttribute fact externalEventAttributes || !isInApp fact

/-! ## 2. Signatures -/

/-- How a routine's signature changed. -/
inductive SignatureChange where
  | unchanged | nonBreakingAppend | breaking
  deriving DecidableEq

/-- Two arrays of text values, equal element by element. -/
def textsEq (a b : List CborValue) : Bool :=
  a.length == b.length && (a.zip b).all fun p =>
    match asText p.1, asText p.2 with
    | some o, some n => o == n
    | _, _ => false

/-- The `(name, argsHash)` of each attribute, as a set. -/
def attributeKeys (P : Prims) (fact : CborValue) : Finset (Option String × Option String) :=
  (((getArray fact "attributes").getD []).map fun a =>
    ((getStr a "name").map P.toLowercase, getStr a "argsHash")).toFinset

/-- The fact is one of a publisher whose event may take more parameters. -/
def appendEligible (f : CborValue) : Bool :=
  getStr f "kind" == some "routine" && isInApp f && carriesAttribute f parameterEventAttributes

/-- A `local` or `internal` publisher with the same attributes on both sides, whose old parameters
are a strict prefix of the new ones. -/
def isNonBreakingEventAppend (P : Prims) (old new : CborValue) : Bool :=
  match getArray old "parameters", getArray new "parameters" with
  | some oldParams, some newParams =>
      appendEligible old && appendEligible new &&
        decide (attributeKeys P old = attributeKeys P new) &&
        decide (oldParams.length < newParams.length) &&
        textsEq oldParams (newParams.take oldParams.length)
  | _, _ => false

/-- Both facts carry a parameter list, and the lists differ. -/
def paramsChanged (old new : CborValue) : Bool :=
  match getArray old "parameters", getArray new "parameters" with
  | some o, some n => !textsEq o n
  | _, _ => false

/-- The change between two facts of one routine. -/
def signatureChange (P : Prims) (old new : CborValue) : SignatureChange :=
  let oldSig := (getStr old "signatureFingerprint").getD ""
  let newSig := (getStr new "signatureFingerprint").getD ""
  let sigChanged := oldSig != "" && newSig != "" && oldSig != newSig
  if !sigChanged && !paramsChanged old new then .unchanged
  else if isNonBreakingEventAppend P old new then .nonBreakingAppend
  else .breaking

/-- `oldParameters` and `newParameters` details when both facts carry the list. -/
def parameterDetails (old new : CborValue) : Details :=
  match getArray old "parameters", getArray new "parameters" with
  | some o, some n => [("oldParameters", .array o), ("newParameters", .array n)]
  | _, _ => []

end AlSem.Diff
