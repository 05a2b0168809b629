/-
# Declared type texts

`dispatch_canonical_type_text` of `program/resolve/arg_dispatch.rs`: the identity of a declared type that
overloads are told apart by, parsed from its text, with `classify_type_text` of `receiver.rs` under it.

Texts are lists of characters.  Where the source cuts a text one byte behind a white space it panics if
that white space is wider; a parse ends in `Stop.charBoundary` there.  The other stop, `Stop.fuel`, is the
model's own: the recursion goes through the parts of a text, and the fuel of a whole parse is the
length of its text.
-/
import AlSem.Lib.Text
import Mathlib.Data.Int.Notation

namespace AlSem.Resolve

open Text

/-! ## 1. The types -/

inductive ObjectKind where
  | codeunit | table | tableExtension | page | pageExtension | report | reportExtension | query
  | xmlPort | enum | enumExtension | interface | controlAddIn | entitlement | permissionSet
  | permissionSetExtension | profile | other
deriving DecidableEq, Repr

inductive ObjKey where
  | id (n : ℤ)
  | name (s : String)
deriving DecidableEq, Repr

/-- An object within one app. -/
structure ObjectNodeId where
  app : ℕ
  kind : ObjectKind
  key : ObjKey
deriving DecidableEq, Repr

/-- A reference to an object, by name or by number. -/
inductive ObjectRef where
  | name (raw normalizedLc : String)
  | id (n : ℤ)
deriving DecidableEq, Repr

inductive ObjectRefResolution where
  | unique (id : ObjectNodeId)
  | ambiguous
  | outOfClosure
  | unresolved
deriving DecidableEq, Repr

/-- The identity of a generic argument.  The length of a scalar is part of it. -/
inductive GenericArgType where
  | object (id : ObjectNodeId)
  | scalar (base : String) (length : Option String)
  | generic (base : String) (args : List GenericArgType)
deriving Repr

mutual

def GenericArgType.decEq : (a b : GenericArgType) → Decidable (a = b)
  | .object a, .object b => decidable_of_iff (a = b) (by simp)
  | .scalar a l, .scalar b m => decidable_of_iff (a = b ∧ l = m) (by simp)
  | .generic a as, .generic b bs =>
    have : Decidable (as = bs) := GenericArgType.decEqList as bs
    decidable_of_iff (a = b ∧ as = bs) (by simp)
  | .object _, .scalar _ _ => isFalse nofun
  | .object _, .generic _ _ => isFalse nofun
  | .scalar _ _, .object _ => isFalse nofun
  | .scalar _ _, .generic _ _ => isFalse nofun
  | .generic _ _, .object _ => isFalse nofun
  | .generic _ _, .scalar _ _ => isFalse nofun

def GenericArgType.decEqList : (as bs : List GenericArgType) → Decidable (as = bs)
  | [], [] => isTrue rfl
  | a :: as, b :: bs =>
    have : Decidable (a = b) := GenericArgType.decEq a b
    have : Decidable (as = bs) := GenericArgType.decEqList as bs
    decidable_of_iff (a = b ∧ as = bs) (by simp)
  | [], _ :: _ => isFalse nofun
  | _ :: _, [] => isFalse nofun

end

instance : DecidableEq GenericArgType := GenericArgType.decEq

/-- **The identity of a type** that overloads are told apart by.  A length is no part of it, but for the
lengths inside a generic clause. -/
inductive CanonicalArgType where
  | object (id : ObjectNodeId)
  | base (b : String)
  | generic (base : String) (args : List GenericArgType)
  | array (dims : String) (elem : CanonicalArgType)
deriving DecidableEq, Repr

/-- What a parse sees of the program: the objects, and the lower case of the characters beyond ASCII. -/
structure TypeScope where
  resolveObjectRef : ObjectKind → ObjectRef → ObjectRefResolution
  foldChar : Char → Char
  foldChar_ascii : ∀ c, c.toNat < 128 → foldChar c = c.toLower

/-- What ends a parse without a result. -/
inductive Stop where
  | charBoundary
  | fuel
deriving DecidableEq, Repr

/-! ## 2. The shape of a type text -/

/-- What a type text names, as far as the dispatch tells the shapes apart. -/
inductive ParsedType where
  | record (tableRef : ObjectRef)
  | object (kind : ObjectKind) (objectRef : ObjectRef)
  | interface (name : String)
  | enumType (name : String)
  /-- Every type without an object of its own. -/
  | other
deriving DecidableEq, Repr

/-- The lower case of a text, of its ASCII letters alone. -/
def lowerAscii (cs : List Char) : List Char := cs.map Char.toLower

/-- `fold_identifier`. -/
def TypeScope.foldIdentifier (scope : TypeScope) (cs : List Char) : String :=
  if cs.all fun c => decide (c.toNat < 128) then String.ofList (lowerAscii cs)
  else String.ofList (cs.map scope.foldChar)

/-- The text up to the first white space. -/
def firstToken (cs : List Char) : List Char := cs.takeWhile fun c => !isWhitespace c

/-- The first token of a trimmed text and the trimmed rest. -/
def splitFirst (text : List Char) : Except Stop (List Char × List Char) :=
  let trimmed := trimList text
  match trimmed.dropWhile fun c => !isWhitespace c with
  | [] => .ok (trimmed, [])
  | c :: rest => if c.utf8Size = 1 then .ok (firstToken trimmed, trimList rest) else .error .charBoundary

/-- Drop a length bracket behind a keyword. -/
def stripLength (token : List Char) : List Char := token.takeWhile fun c => !(c == '[')

/-- `base_keyword`. -/
def baseKeyword (ty : List Char) : String :=
  String.ofList (lowerAscii (stripLength (firstToken (trimList ty))))

/-- `parse::<i64>`. -/
def parseI64 (cs : List Char) : Option ℤ :=
  let unsigned (ds : List Char) : Option ℕ := if ds = [] then none else digits 0 ds
  match cs with
  | '-' :: ds => (unsigned ds).bind fun n => if n ≤ 2 ^ 63 then some (-(n : ℤ)) else none
  | '+' :: ds => (unsigned ds).bind fun n => if n < 2 ^ 63 then some (n : ℤ) else none
  | ds => (unsigned ds).bind fun n => if n < 2 ^ 63 then some (n : ℤ) else none

/-- `strip_trailing_temporary`. -/
def stripTrailingTemporary (cs : List Char) : List Char :=
  let trimmed := trimEndList cs
  let start := trimmed.length - 9
  if trimmed.length ≤ 9 then trimmed
  else if lowerAscii (trimmed.drop start) = "temporary".toList ∧
      trimmed[start - 1]?.any isWhitespace = true then trimmed.take start
  else trimmed

/-- The text behind the last `.` outside quotes, `none` when there is none. -/
def afterLastDot : Bool → List Char → Option (List Char)
  | _, [] => none
  | quoted, c :: cs =>
    match afterLastDot (if c = '"' then !quoted else quoted) cs with
    | some rest => some rest
    | none => if c = '.' ∧ quoted = false then some cs else none

/-- `strip_namespace`. -/
def stripNamespace (cs : List Char) : List Char := trimList ((afterLastDot false cs).getD cs)

/-- `unquote_identifier`. -/
def unquoteIdentifier (cs : List Char) : List Char :=
  let trimmed := trimList cs
  if 2 ≤ trimmed.length ∧ trimmed.head? = some '"' ∧ trimmed.getLast? = some '"' then
    trimmed.tail.dropLast
  else trimmed

/-- A reference by number, or by the name without its quotes. -/
def TypeScope.objectRef (scope : TypeScope) (cs : List Char) : ObjectRef :=
  match parseI64 cs with
  | some n => .id n
  | none => .name (String.ofList (unquoteIdentifier cs)) (scope.foldIdentifier (unquoteIdentifier cs))

/-- `parse_object_kind_type`. -/
def TypeScope.parseObjectKindType (scope : TypeScope) (kind : ObjectKind) (rest : List Char) :
    ParsedType :=
  .object kind (scope.objectRef (stripNamespace rest))

/-- `classify_type_text`. -/
def TypeScope.classifyTypeText (scope : TypeScope) (ty : List Char) : Except Stop ParsedType := do
  if trimList ty = [] then return .other
  let (first, rest) ← splitFirst ty
  let nameOf := scope.foldIdentifier (unquoteIdentifier (stripNamespace rest))
  return match String.ofList (lowerAscii (stripLength first)) with
  | "record" => .record (scope.objectRef (stripNamespace (stripTrailingTemporary rest)))
  | "codeunit" => scope.parseObjectKindType .codeunit rest
  | "page" => scope.parseObjectKindType .page rest
  | "report" => scope.parseObjectKindType .report rest
  | "query" => scope.parseObjectKindType .query rest
  | "xmlport" => scope.parseObjectKindType .xmlPort rest
  | "interface" => .interface nameOf
  | "enum" => .enumType nameOf
  | _ => .other

/-- The one object a reference resolves to. -/
def TypeScope.resolve (scope : TypeScope) (kind : ObjectKind) (r : ObjectRef) : Option ObjectNodeId :=
  match scope.resolveObjectRef kind r with
  | .unique id => some id
  | _ => none

/-- The object of a shape that has one; `some none` when it does not resolve. -/
def TypeScope.objectOf (scope : TypeScope) : ParsedType → Option (Option ObjectNodeId)
  | .record tableRef => some (scope.resolve .table tableRef)
  | .object kind objectRef => some (scope.resolve kind objectRef)
  | .interface name => some (scope.resolve .interface (.name name name))
  | .enumType name => some (scope.resolve .enum (.name name name))
  | .other => none

/-! ## 3. Generic clauses -/

/-- `extract_length_suffix`. -/
def extractLengthSuffix (token : List Char) : Option String :=
  match token.dropWhile fun c => !(c == '[') with
  | [] => none
  | _ :: inner =>
    if inner.getLast? = some ']' then some (String.ofList (lowerAscii (trimList inner.dropLast)))
    else none

/-- The text between the brackets behind `of`. -/
def clauseInner (afterOf : List Char) : Option (List Char) :=
  if 2 ≤ afterOf.length ∧ afterOf.head? = some '[' ∧ afterOf.getLast? = some ']' then
    some (trimList afterOf.tail.dropLast)
  else none

/-- What is behind `of`, where a text starts with that word. -/
def afterOfWord : List Char → Option (List Char)
  | a :: b :: after =>
    if a.toLower = 'o' ∧ b.toLower = 'f' ∧ after.head?.all (fun c => isWhitespace c || c == '[') = true
    then some (trimStartList after) else none
  | _ => none

/-- `split_generic_clause`: the first token, and behind `of` the text of the clause, `none` when it is
malformed. -/
def splitGenericClause (ty : List Char) :
    Except Stop (List Char × Option (Option (List Char))) := do
  let (first, rest) ← splitFirst ty
  return (first, (afterOfWord rest).map clauseInner)

/-- The pieces between the commas outside brackets, `depth` brackets deep; `none` when the brackets do
not match. -/
def splitCommas : ℕ → List Char → Option (List Char × List (List Char))
  | depth, [] => if depth = 0 then some ([], []) else none
  | depth, c :: cs =>
    if c = '[' then (splitCommas (depth + 1) cs).map fun p => (c :: p.1, p.2)
    else if c = ']' then
      if depth = 0 then none else (splitCommas (depth - 1) cs).map fun p => (c :: p.1, p.2)
    else if c = ',' ∧ depth = 0 then (splitCommas depth cs).map fun p => ([], p.1 :: p.2)
    else (splitCommas depth cs).map fun p => (c :: p.1, p.2)

/-- `split_top_level_commas`. -/
def splitTopLevelCommas (inner : List Char) : Option (List (List Char)) :=
  (splitCommas 0 inner).bind fun p =>
    let parts := (p.1 :: p.2).map trimList
    if parts.any List.isEmpty then none else some parts

/-- Every part parsed, up to the first that is undecided. -/
def parseAll {α : Type} (f : List Char → Except Stop (Option α)) :
    List (List Char) → Except Stop (Option (List α))
  | [] => .ok (some [])
  | p :: ps => do
    match ← f p with
    | none => return none
    | some a => return (← parseAll f ps).map (a :: ·)

/-- The arguments of a clause. -/
def parseArgs {α : Type} (f : List Char → Except Stop (Option α)) (inner : List Char) :
    Except Stop (Option (List α)) :=
  match splitTopLevelCommas inner with
  | none => .ok none
  | some parts => parseAll f parts

/-- `parse_generic_arg`. -/
def TypeScope.parseGenericArg (scope : TypeScope) :
    ℕ → List Char → Except Stop (Option GenericArgType)
  | 0, _ => .error .fuel
  | fuel + 1, text => do
    if trimList text = [] then return none
    match scope.objectOf (← scope.classifyTypeText text) with
    | some id => return id.map .object
    | none =>
      match ← splitGenericClause text with
      | (first, none) => return some (.scalar (baseKeyword text) (extractLengthSuffix first))
      | (_, some none) => return none
      | (first, some (some inner)) =>
        return (← parseArgs (scope.parseGenericArg fuel) inner).map (.generic (baseKeyword first))

/-! ## 4. The canonical type -/

inductive ArrayShape where
  | notArray
  | array (dims elem : List Char)
  | malformed
deriving DecidableEq, Repr

/-- The element type behind the dimensions of an array. -/
def arrayElem (dims after : List Char) : ArrayShape :=
  match after with
  | a :: b :: rest =>
    if a.toLower = 'o' ∧ b.toLower = 'f' then
      if dims = [] ∨ trimList rest = [] ∨ rest.head?.any isWhitespace = false then .malformed
      else .array dims (trimList rest)
    else .malformed
  | _ => .malformed

/-- `split_array_type`: an `array[..] of` prefix. -/
def splitArrayType (ty : List Char) : ArrayShape :=
  let trimmed := trimList ty
  if lowerAscii (trimmed.take 5) = "array".toList then
    match trimStartList (trimmed.drop 5) with
    | '[' :: rest =>
      match rest.dropWhile fun c => !(c == ']') with
      | [] => .malformed
      | _ :: after =>
        arrayElem ((rest.takeWhile fun c => !(c == ']')).filter fun c => !isWhitespace c)
          (trimStartList after)
    | _ => .notArray
  else .notArray

/-- The canonical type of a text. -/
def TypeScope.canonical (scope : TypeScope) : ℕ → List Char → Except Stop (Option CanonicalArgType)
  | 0, _ => .error .fuel
  | fuel + 1, text => do
    if trimList text = [] then return none
    match splitArrayType text with
    | .array dims elem => return (← scope.canonical fuel elem).map (.array (String.ofList dims))
    | .malformed => return none
    | .notArray =>
      match scope.objectOf (← scope.classifyTypeText text) with
      | some id => return id.map .object
      | none =>
        match ← splitGenericClause text with
        | (_, none) => return some (.base (baseKeyword text))
        | (_, some none) => return none
        | (first, some (some inner)) =>
          return (← parseArgs (scope.parseGenericArg fuel) inner).map (.generic (baseKeyword first))

/-- **`dispatch_canonical_type_text`.** -/
def TypeScope.dispatchCanonicalTypeText (scope : TypeScope) (ty : String) :
    Except Stop (Option CanonicalArgType) :=
  scope.canonical (ty.toList.length + 1) ty.toList

end AlSem.Resolve
