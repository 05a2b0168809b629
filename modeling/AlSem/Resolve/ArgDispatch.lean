/-
# Picking an overload

`pick_candidate` of `program/resolve/arg_dispatch.rs`: among overloads of one arity, the one a call binds,
or none.  Only the positions where the overloads differ take part (`discriminating`); there an argument may
match a parameter exactly, be proven unable to bind it, or neither.
-/
import AlSem.Resolve.TypeText

namespace AlSem.Resolve

open Text

/-! ## 1. Arguments and parameters -/

inductive LiteralKind where
  | text
  | integer
  | bool
  | decimal
  deriving DecidableEq

/-- What is known of an argument. -/
structure ArgDispatchInfo where
  canonical : Option CanonicalArgType
  exactText : Option String
  literalKind : Option LiteralKind
  varPassable : Bool

/-- A parameter of an overload.  A type text that is one keyword has that keyword as its type. -/
structure ParamDispatchInfo where
  canonical : CanonicalArgType
  exactText : String
  byRef : Bool
  secret : exactText = "secrettext" → canonical = .base "secrettext"
  deriving DecidableEq

/-- An overload: its parameters. -/
abbrev Candidate := List ParamDispatchInfo

def CanonicalArgType.isVariant (t : CanonicalArgType) : Bool := t = .base "variant"

def CanonicalArgType.isAny (t : CanonicalArgType) : Bool := t = .base "any"

/-! ## 2. One position -/

def TEXT_ISH_FAMILY : List String := ["text", "code", "char", "label"]

def NUMERIC_FAMILY : List String := ["integer", "decimal", "biginteger"]

def sameSoftFamily (a b : String) : Bool :=
  (TEXT_ISH_FAMILY.contains a && TEXT_ISH_FAMILY.contains b) ||
    (NUMERIC_FAMILY.contains a && NUMERIC_FAMILY.contains b)

/-- The families a literal may be used as, unproven. -/
def literalForbiddenFamilies : LiteralKind → List String
  | .text => ["code", "char"]
  | .integer => ["decimal", "biginteger"]
  | .bool => []
  | .decimal => []

/-- The length a type text's first token gives. -/
def declaredLength (t : String) : Option ℕ :=
  let token := firstToken (trimStartList t.toList)
  (extractLengthSuffix (if token = [] then t.toList else token)).bind parseU64

/-- The argument reaches the parameter without truncation. -/
def lengthFits (arg : Option String) (param : String) : Bool :=
  match declaredLength param with
  | none => true
  | some paramLen => (arg.bind declaredLength).any fun argLen => argLen ≤ paramLen

/-- A scalar or an array: their texts carry a length. -/
def CanonicalArgType.hasLength : CanonicalArgType → Bool
  | .base _ => true
  | .array _ _ => true
  | _ => false

def positionExactMatch (arg : ArgDispatchInfo) (param : ParamDispatchInfo) : Bool :=
  if arg.canonical ≠ some param.canonical then false
  else if !param.byRef && (param.canonical = .base "text" || param.canonical = .base "code") &&
      !lengthFits arg.exactText param.exactText then false
  else if param.byRef then
    -- A literal or a call's result binds no `var` parameter.
    if !arg.varPassable then false
    else if param.canonical.hasLength then arg.exactText = some param.exactText
    else true
  else true

def NUMERIC_LIKE : List String :=
  ["integer", "decimal", "biginteger", "duration", "char", "byte", "option"]

/-- The keyword a conversion goes by. -/
def conversionKind : CanonicalArgType → Option String
  | .base b => some b
  | .object id => if id.kind = .enum then some "enum" else none
  | _ => none

def implicitlyConverts (arg param : CanonicalArgType) : Bool :=
  match conversionKind arg, conversionKind param with
  | some arg, some param =>
    let numeric (t : String) : Bool := NUMERIC_LIKE.contains t
    (numeric arg && numeric param) || (arg == "enum" && numeric param && param != "decimal") ||
      (numeric arg && param == "enum") || (arg == "guid" && ["text", "code"].contains param) ||
      (["text", "code", "label"].contains arg && param == "guid") ||
      (["text", "code", "label"].contains arg && param == "secrettext")
  | _, _ => false

/-- The types some DotNet type converts with. -/
def DOTNET_CONVERTIBLE : List String :=
  ["text", "code", "label", "secrettext", "char", "byte", "integer", "biginteger", "decimal", "option",
    "duration", "boolean", "guid", "date", "time", "datetime", "instream", "outstream", "variant", "any"]

def CanonicalArgType.isDotnet (t : CanonicalArgType) : Bool := t = .base "dotnet"

/-- No DotNet type converts with the type. -/
def apartFromDotnet : CanonicalArgType → Bool
  | .base b => !(DOTNET_CONVERTIBLE.contains b)
  | .object id => id.kind ≠ .enum
  | .generic _ _ => true
  | .array _ _ => false

/-- Two different types are proven apart. -/
def provenApart : CanonicalArgType → CanonicalArgType → Bool
  | .array _ _, .array _ _ => false
  | .array _ _, _ => true
  | _, .array _ _ => true
  | .base a, .base b => !(sameSoftFamily a b) && !(implicitlyConverts (.base a) (.base b))
  | arg, param => !(implicitlyConverts arg param)

def positionProvablyIncompatible (arg : ArgDispatchInfo) (param : ParamDispatchInfo) : Bool :=
  match arg.canonical with
  | none => false
  | some argCanonical =>
    -- A `Variant` parameter takes any argument, and a `Variant` argument goes anywhere.
    if param.canonical.isVariant && !param.byRef then false
    else if argCanonical.isVariant then false
    else if argCanonical.isDotnet ≠ param.canonical.isDotnet then
      apartFromDotnet (if argCanonical.isDotnet then param.canonical else argCanonical)
    else if argCanonical ≠ param.canonical then provenApart argCanonical param.canonical
    else if param.byRef then
      if !arg.varPassable then true
      else
        match param.canonical with
        | .base b => b ≠ "dotnet" && decide (arg.exactText ≠ some param.exactText)
        | _ => false
    else false

/-! ## 3. The rules -/

section Rules

variable (args : List ArgDispatchInfo) (candidates : List Candidate)

/-- Two neighbours differ at the position. -/
def windowsDiffer (pos : ℕ) : List Candidate → Bool
  | a :: b :: rest => decide (a[pos]? ≠ b[pos]?) || windowsDiffer pos (b :: rest)
  | _ => false

/-- The positions where the overloads differ. -/
def discriminating : List ℕ :=
  (List.range args.length).filter fun pos => windowsDiffer pos candidates

/-- The argument at a position is exactly what the overload takes there. -/
def exactAt (cand : Candidate) (pos : ℕ) : Bool :=
  match args[pos]?, cand[pos]? with
  | some arg, some param => positionExactMatch arg param
  | _, _ => false

/-- The argument at a position is proven unable to bind. -/
def incompatibleAt (cand : Candidate) (pos : ℕ) : Bool :=
  match args[pos]?, cand[pos]? with
  | some arg, some param => positionProvablyIncompatible arg param
  | _, _ => false

def applicable (D : List ℕ) (cand : Candidate) : Bool := !(D.any fun p => incompatibleAt args cand p)

/-- The parameter at a position is a `Variant`. -/
def variantAt (cand : Candidate) (pos : ℕ) : Bool := cand[pos]?.any fun param => param.canonical.isVariant

def hasVariant (D : List ℕ) (cand : Candidate) : Bool := D.any fun p => variantAt cand p

/-- The argument at a position is a `Variant`. -/
def variantArg (pos : ℕ) : Bool :=
  args[pos]?.any fun arg => arg.canonical.any CanonicalArgType.isVariant

/-- The argument at a position has no type. -/
def untypedArg (pos : ℕ) : Bool := args[pos]?.all fun arg => arg.canonical.isNone

/-- The `i`-th overload. -/
def candidateAt (i : ℕ) : Candidate := candidates.getD i []

/-- The only element of a list. -/
def sole : List ℕ → Option ℕ
  | [i] => some i
  | _ => none

/-- The indices of the overloads with a property. -/
def indices (P : ℕ → Bool) : List ℕ := (List.range candidates.length).filter P

/-- Rule (A): the only overload without a `Variant` that matches exactly. -/
def pickExact (D : List ℕ) : Option ℕ :=
  sole (indices candidates fun i =>
    !hasVariant D (candidateAt candidates i) && D.all fun p => exactAt args (candidateAt candidates i) p)

/-- Rule (B): the only overload not proven unable. -/
def pickSoleApplicable (D : List ℕ) : Option ℕ :=
  sole (indices candidates fun i => applicable args D (candidateAt candidates i))

/-- The only overload that takes a `Variant` at every position. -/
def pickVariant (D : List ℕ) : Option ℕ :=
  sole (indices candidates fun i => D.all fun p => variantAt (candidateAt candidates i) p)

def textFamily (arg : ArgDispatchInfo) : Bool :=
  arg.canonical = some (.base "text") || arg.canonical = some (.base "code") ||
    arg.canonical = some (.base "label")

/-- At a position `x` takes `SecretText` and `y` takes `Text`, of a text. -/
def losesAt (x y : Candidate) (pos : ℕ) : Bool :=
  match args[pos]?, x[pos]?, y[pos]? with
  | some arg, some px, some py =>
    !px.byRef && px.exactText = "secrettext" && (!py.byRef && py.exactText = "text") && textFamily arg
  | _, _, _ => false

/-- `x` loses to `y` wherever they differ, and they do. -/
def losesTo (D : List ℕ) (x y : Candidate) : Bool :=
  (D.any fun p => decide (x[p]? ≠ y[p]?)) && D.all fun p => decide (x[p]? = y[p]?) || losesAt args x y p

/-- Rule (C): the only applicable overload every other one loses to. -/
def pickOverSecrettext (D : List ℕ) : Option ℕ :=
  let pool := indices candidates fun i => applicable args D (candidateAt candidates i)
  sole (pool.filter fun y =>
    pool.all fun x => x == y || losesTo args D (candidateAt candidates x) (candidateAt candidates y))

/-- A wildcard at the position, or a literal that several overloads may take there, one of them of a family
the literal is not proven for. -/
def gatedAt (D : List ℕ) (pos : ℕ) : Bool :=
  (candidates.any fun cand => cand[pos]?.any fun param => param.canonical.isAny) ||
    match args[pos]?.bind (·.literalKind) with
    | none => false
    | some kind =>
      let forbidden := literalForbiddenFamilies kind
      let viable := (candidates.filter (applicable args D)).map fun cand => cand[pos]?.map (·.canonical)
      decide (forbidden ≠ []) && decide (1 < viable.length) &&
        viable.any fun t => forbidden.any fun b => t = some (.base b)

/-! ## 4. The pick -/

/-- Rules (A) to (C), in their order. -/
def pickByMatch (D : List ℕ) : Option ℕ :=
  (pickExact args candidates D).or
    ((pickSoleApplicable args candidates D).or (pickOverSecrettext args candidates D))

/-- The pick when every discriminating argument is typed. -/
def pickTyped (D : List ℕ) : Option ℕ :=
  if candidates.any (hasVariant D) then
    if (D.filter (variantArg args)).length = D.length then pickVariant candidates D
    else if 0 < (D.filter (variantArg args)).length then pickSoleApplicable args candidates D
    else pickByMatch args candidates D
  else pickByMatch args candidates D

/-- **`pick_candidate`.** -/
def pickCandidate : Option ℕ :=
  if args.isEmpty || decide (candidates.length < 2) then none
  else if candidates.any fun cand => cand.length ≠ args.length then none
  else
    let D := discriminating args candidates
    if D.any (gatedAt args candidates D) then none
    else if D.any (untypedArg args) then pickSoleApplicable args candidates D
    else pickTyped args candidates D

end Rules

end AlSem.Resolve
