/-
# What a RecordRef may hold: evaluating a routine under its inputs

`evaluate` of `engine/l5/recref_flow.rs`.  A routine with a fact that runs only under a condition on a
RecordRef's table is sensitive: what its variables may hold depends on its inputs beyond what its summary
keeps, and it is evaluated under them, its calls evaluated in turn under their arguments.

The evaluations share a memo.  A call of a routine that is still being evaluated reads what the memo holds
for it so far, and the whole evaluation is repeated until a pass reads no such value or none grows; then
every key the pass touched is final.  A call too deep, or one after the budget is spent, gives anything.

The loop inside one evaluation runs under a fuel: `none` is a run whose fuel is over.
-/
import AlSem.Lib.HashMap
import AlSem.Model.Workspace
import Mathlib.Data.Finmap
import Mathlib.Data.Finset.Basic
import Mathlib.Data.List.Sort

namespace AlSem.L5.RecrefFlow

open AlSem.Model

/-! ## 1. Values -/

/-- One value a RecordRef or Variant may hold, in one routine's terms. -/
inductive Atom where
  | table (t : String)
  /-- No table. -/
  | unset
  /-- What parameter `i` held on entry. -/
  | param (i : ℕ)
  /-- What the routine's own instance holds in this global. -/
  | global (g : String)
  /-- Anything. -/
  | top
  deriving DecidableEq

abbrev Atoms := List Atom

/-- A known set of tables; `""` is `Atom.unset`. -/
abbrev TSet := Finset String

/-- A value under known inputs: the tables, or `none` for anything. -/
abbrev Val := Option TSet

def unionVal : Val → Val → Val
  | some x, some y => some (x ∪ y)
  | _, _ => none

def emptyVal : Val := some ∅

/-- `atoms` under known parameter tables and globals: the tables, or `none` when one atom is not
known. -/
def eval (atoms : Atoms) (params : List (ℕ × TSet)) (globals : List (String × TSet)) : Val :=
  atoms.foldlM (fun out a =>
    match a with
    | .table t => some (insert t out)
    | .unset => some (insert "" out)
    | .param i => (params.find? fun e => e.1 = i).map fun e => out ∪ e.2
    | .global g => (globals.find? fun e => e.1 = g).map fun e => out ∪ e.2
    | .top => none) ∅

/-- `eval` with inputs that may themselves be anything. -/
def evalVal (atoms : Atoms) (inputs : List (ℕ × Val)) (globals : List (String × Val)) : Val :=
  eval atoms (inputs.filterMap fun e => e.2.map fun s => (e.1, s))
    (globals.filterMap fun e => e.2.map fun s => (e.1, s))

/-! ## 2. The routines and their facts -/

/-- A name as it is compared. -/
def lc (s : String) : String := Text.toAsciiLowercase (unq s)

structure ModelVariable where
  name : String
  declaredType : String

structure RecordVariable where
  name : String
  tableId : Option String
  tableName : Option String

/-- A routine, with what the evaluation reads of it. -/
structure Routine where
  objectId : String
  /-- The names of its attributes. -/
  attributes : List String := []
  bodyAvailable : Bool := true
  parseIncomplete : Bool := false
  returnType : Option String := none
  parameters : List ModelParameter := []
  vars : List ModelVariable := []
  recordVariables : List RecordVariable := []
  callSites : List PCallSite := []

def isPublisher (r : Routine) : Bool :=
  ["IntegrationEvent", "BusinessEvent", "InternalEvent"].any fun a =>
    r.attributes.any (Text.eqIgnoreAsciiCase a)

/-- A condition a fact runs under: the RecordRef variable, whether its table must be in the tables
(else not in them), and the tables. -/
structure Cond where
  varName : String
  mustIn : Bool
  tables : List String

/-- A tracked variable of one routine. -/
inductive VarKind where
  | param (i : ℕ)
  | localVar
  | global
  deriving DecidableEq

/-- One part of a binding's value. -/
inductive Part where
  /-- What the named variable (or record) holds. -/
  | copy (w : String)
  | atoms (a : Atoms)

/-- A fact that does not depend on other routines, with the conditions it runs under. -/
structure FixedFact where
  varName : String
  part : Part
  conds : List Cond

/-- A variable passed at a position of a call site, with the conditions the call runs under. -/
structure PassedFact (r : Routine) where
  callSite : Fin r.callSites.length
  position : ℕ
  varName : String
  conds : List Cond

/-- One routine's binding facts.  Its parameters have different positions. -/
structure Facts (r : Routine) where
  tracked : HashMap String VarKind
  fixed : List FixedFact := []
  passed : List (PassedFact r) := []
  /-- Variables an alias rebinding reaches. -/
  aliasShared : List String := []
  positions : ∀ a b i, tracked.lookup a = some (.param i) → tracked.lookup b = some (.param i) → a = b

/-- The routines, what their calls run and what is known of them. -/
structure RecRefFlow (n : ℕ) where
  routines : Fin n → Routine
  /-- Call site id to the routines it resolves to. -/
  targets : HashMap String (List (Fin n))
  /-- Call sites that may run code no summary describes. -/
  openSites : List String
  builtinSites : List String
  /-- Publisher to its loaded subscribers. -/
  subscribers : HashMap (Fin n) (List (Fin n))
  tableNames : HashMap String String
  facts : (i : Fin n) → Facts (routines i)
  /-- The atoms of each tracked own variable of a routine. -/
  summaries : Fin n → HashMap String Atoms
  /-- Whether the routine is evaluated under its inputs. -/
  sensitive : Fin n → Bool

/-- Whether the call runs on the caller's own instance. -/
def onSelf (cs : PCallSite) : Bool :=
  match cs.callee with
  | .bare _ => true
  | .member receiver _ => lc receiver = "this" || lc receiver = "currcodeunit"
  | _ => false

/-- A platform method or function that hands a value back through an argument. -/
def writesArguments (cs : PCallSite) : Bool :=
  match cs.callee with
  | .member _ method =>
    let m := Text.toAsciiLowercase method
    (Text.startsWith "get" m.toList && m != "gettable") || Text.startsWith "tryget" m.toList ||
      ["record", "read", "readfrom", "selecttoken", "value", "remove"].contains m
  | .bare name => ["evaluate", "copyarray"].contains (lc name)
  | _ => true

/-- An unresolved call that cannot rebind a RecordRef or Variant passed to it: a method of a platform
value, an object's static run or save, or a text function. -/
def keepsUnresolved (r : Routine) (cs : PCallSite) : Bool :=
  match cs.callee with
  | .member receiver method =>
    let x := lc receiver
    let m := Text.toAsciiLowercase method
    match r.vars.find? fun v => lc v.name = x with
    | some v =>
      -- An object variable's unresolved method could do anything.
      let t := Text.toAsciiLowercase (Text.trim v.declaredType)
      !(["codeunit", "page", "report", "xmlport", "query", "interface", "dotnet"].any fun k =>
        Text.startsWith k t.toList)
    | none =>
      if r.recordVariables.any fun v => lc v.name = x then true
      else if (r.returnType.any fun t => Text.eqIgnoreAsciiCase (Text.trim t) "recordref") &&
          ["gettable", "settable", "setview", "setposition", "copy"].contains m then true
      else
        ["report", "page", "xmlport"].contains x &&
          ["run", "runmodal", "saveas", "print", "execute", "saveasxml", "saveaspdf", "saveasexcel",
            "saveasword", "saveashtml"].contains m
  | .bare name => ["format", "strsubstno", "error", "message", "confirm"].contains (lc name)
  | _ => false

/-- A by-value Variant parameter is the callee's own copy, unless an alias rebinding of a RecordRef it
holds reaches the caller. -/
def keepsByValue {r : Routine} (f : Facts r) (p : ModelParameter) : Bool :=
  !p.isVar && Text.eqIgnoreAsciiCase (Text.trim p.typeText) "variant" &&
    !f.aliasShared.contains (lc p.name)

/-! ## 3. What a text holds -/

/-- What each tracked own variable of a routine may hold. -/
abbrev Vals := HashMap String Val

/-- A routine, its tracked parameters' input tables, its instance's globals. -/
structure EvalKey (n : ℕ) where
  routine : Fin n
  inputs : List (ℕ × Val)
  globals : List (String × Val)
  deriving DecidableEq

variable {n : ℕ} (F : RecRefFlow n)

/-- The atoms `text` (an argument or a value) stands for in routine `i`. -/
def atomsOf (i : Fin n) (vars : HashMap String Atoms) (text : String) : Atoms :=
  match (F.facts i).tracked.lookup (lc text) with
  | some .global => [.global (lc text)]
  | some _ => (vars.lookup (lc text)).getD [.top]
  | none =>
    match ((F.routines i).recordVariables.find? fun v => lc v.name = lc text).bind fun v =>
      (v.tableId.bind F.tableNames.lookup).or (v.tableName.map lc) with
    | some t => [.table t]
    | none => [.top]

/-- What a name that is not tracked holds. -/
def untrackedVal (i : Fin n) (name : String) : Val :=
  match (atomsOf F i ∅ name).head? with
  | some (.table t) => some {t}
  | _ => none

/-- What `text` holds under `vals`. -/
def valOfText (key : EvalKey n) (vals : Vals) (text : String) : Val :=
  match (F.facts key.routine).tracked.lookup (lc text) with
  | some .global => (key.globals.find? fun e => e.1 = lc text).bind Prod.snd
  | some _ => (vals.lookup (lc text)).getD none
  | none => untrackedVal F key.routine (lc text)

/-- Whether the conditions may hold under `vals`. -/
def condsHold (key : EvalKey n) (vals : Vals) (conds : List Cond) : Bool :=
  conds.all fun c =>
    match valOfText F key vals c.varName with
    | none => true
    | some held => decide (∃ t ∈ held, c.tables.contains t = c.mustIn)

/-- The starting values of the tracked own variables: a parameter its input, a local no table. -/
def initialVals (key : EvalKey n) : Vals :=
  (F.facts key.routine).tracked.filterMapValues fun
    | .param i => some ((key.inputs.find? fun e => e.1 = i).bind Prod.snd)
    | .localVar => some (some {""})
    | .global => none

/-! ## 4. The state of an evaluation -/

/-- The memoized evaluations. -/
structure EvalState (n : ℕ) where
  memo : HashMap (EvalKey n) Vals
  /-- Keys whose value is final. -/
  done : Finset (EvalKey n)
  inProgress : Finset (EvalKey n)
  /-- An in-progress value was read, or a memo value grew, in this pass. -/
  readPartial : Bool
  grew : Bool
  /-- Evaluations left before everything is anything. -/
  budget : ℕ

/-- The state inside one pass, with the keys it has evaluated. -/
structure Pass (n : ℕ) extends EvalState n where
  touched : Finset (EvalKey n)

/-- A step of a pass; `none` is a run whose fuel is over. -/
abbrev EvalM (n : ℕ) := StateT (Pass n) Option

/-- Evaluations one flow may run in all. -/
def EVAL_BUDGET : ℕ := 200000

/-- The deepest chain of calls one evaluation follows. -/
def EVAL_DEPTH : ℕ := 48

def EvalState.start (n : ℕ) : EvalState n where
  memo := ∅
  done := ∅
  inProgress := ∅
  readPartial := false
  grew := false
  budget := EVAL_BUDGET

/-! ## 5. One evaluation -/

section Calls

variable (call : EvalKey n → EvalM n Vals)

/-- The argument bound to the parameter `name` at position `j` (for a subscriber, at the position of
the publisher's parameter of that name). -/
def argText (cs : PCallSite) (publisher : Option Routine) (name : String) (j : ℕ) : Option String :=
  match publisher with
  | none => cs.argumentTexts[j]?
  | some pb =>
    (pb.parameters.find? fun y => lc y.name = name).bind fun y => cs.argumentTexts[y.index]?

/-- The callee runs on the caller's own instance. -/
def ownInstance (i t : Fin n) (cs : PCallSite) (publisher : Option Routine) : Bool :=
  publisher.isNone && onSelf cs && (F.routines t).objectId == (F.routines i).objectId

/-- The key a call evaluates: the arguments at the callee's tracked parameters, and the caller's own
globals on its own instance. -/
def calleeKey (key : EvalKey n) (vals : Vals) (cs : PCallSite) (t : Fin n)
    (publisher : Option Routine) : EvalKey n where
  routine := t
  inputs := ((F.facts t).tracked.entries.filterMap fun e =>
    match e.2 with
    | .param j => some (j, (argText cs publisher e.1 j).bind (valOfText F key vals))
    | _ => none).insertionSort fun a b => a.1 ≤ b.1
  globals := if ownInstance F key.routine t cs publisher then key.globals else []

/-- What callee `t` may leave in its parameter `p`, run with the arguments of `cs` under `vals`;
`none` when it keeps the caller's value. -/
def calleeOut (key : EvalKey n) (vals : Vals) (cs : PCallSite) (t : Fin n) (p : ModelParameter)
    (publisher : Option Routine) : EvalM n (Option Val) :=
  let callee := F.routines t
  if !callee.bodyAvailable || callee.parseIncomplete then pure (some none)
  else if (F.facts t).tracked.lookup (lc p.name) = none then
    pure (if p.isRecord then none else some none)
  else if keepsByValue (F.facts t) p then pure none
  else do
    let res ← call (calleeKey F key vals cs t publisher)
    pure (some ((res.lookup (lc p.name)).getD none))

/-- `out` with what a call leaves, when it leaves anything. -/
def addOut (out : Val) : Option Val → Val
  | some o => unionVal out o
  | none => out

/-- What the loaded subscribers of publisher `pb` may leave in their parameter `pname`. -/
def subscribersOut (key : EvalKey n) (vals : Vals) (cs : PCallSite) (pb : Routine) (pname : String) :
    List (Fin n) → Val → EvalM n Val
  | [], out => pure out
  | s :: rest, out =>
    match (F.routines s).parameters.find? fun p => lc p.name = pname with
    | none => subscribersOut key vals cs pb pname rest out
    | some sp => do
      let o ← calleeOut F call key vals cs s sp (some pb)
      subscribersOut key vals cs pb pname rest (addOut out o)

/-- What the targets of a call may leave at position `k`, on top of `out`. -/
def targetsOut (key : EvalKey n) (vals : Vals) (cs : PCallSite) (k : ℕ) :
    List (Fin n) → Val → EvalM n Val
  | [], out => pure out
  | t :: rest, out =>
    match (F.routines t).parameters.find? fun p => p.index = k with
    | none => pure none
    | some p =>
      if isPublisher (F.routines t) then do
        let out' ← subscribersOut F call key vals cs (F.routines t) (lc p.name)
          (F.subscribers.getList t) out
        targetsOut key vals cs k rest out'
      else do
        let o ← calleeOut F call key vals cs t p none
        targetsOut key vals cs k rest (addOut out o)

/-- What the variable passed at a position of a call site may hold after the call; `none` when the
call keeps it. -/
def outVal (key : EvalKey n) (vals : Vals) (f : PassedFact (F.routines key.routine)) :
    EvalM n (Option Val) :=
  let r := F.routines key.routine
  let cs := r.callSites.get f.callSite
  if F.openSites.contains cs.id then pure (some none)
  else
    match F.targets.lookup cs.id with
    | none =>
      let keeps := !writesArguments cs && (F.builtinSites.contains cs.id || keepsUnresolved r cs)
      pure (if keeps then none else some none)
    | some ts => do
      let out ← targetsOut F call key vals cs f.position ts emptyVal
      pure (some out)

/-- A value merged into a tracked own variable, and whether anything has changed. -/
def merge {r : Routine} (f : Facts r) (acc : Vals × Bool) (v : String) (add : Val) : Vals × Bool :=
  match f.tracked.lookup v with
  | none => acc
  | some .global => acc
  | some _ =>
    let cur := (acc.1.lookup v).getD emptyVal
    let new := unionVal cur add
    (acc.1.insert v new, acc.2 || new ≠ cur)

/-- One fixed fact of the loop. -/
def mergeFixed (key : EvalKey n) (acc : Vals × Bool) (f : FixedFact) : Vals × Bool :=
  if condsHold F key acc.1 f.conds then
    merge (F.facts key.routine) acc f.varName
      (match f.part with
        | .copy w => valOfText F key acc.1 w
        | .atoms a => evalVal a key.inputs key.globals)
  else acc

/-- One passed argument of the loop. -/
def mergePassed (key : EvalKey n) (acc : Vals × Bool) (f : PassedFact (F.routines key.routine)) :
    EvalM n (Vals × Bool) :=
  if condsHold F key acc.1 f.conds then do
    match ← outVal F call key acc.1 f with
    | some add => pure (merge (F.facts key.routine) acc f.varName add)
    | none => pure acc
  else pure acc

/-- The loop over the facts, until nothing changes. -/
def settle (key : EvalKey n) : ℕ → Vals → EvalM n Vals
  | 0, _ => failure
  | fuel + 1, vals => do
    let f := F.facts key.routine
    let acc ← f.passed.foldlM (mergePassed F call key) (f.fixed.foldl (mergeFixed F key) (vals, false))
    if acc.2 then settle key fuel acc.1 else pure acc.1

end Calls

/-- What a routine that is not sensitive holds: its summary under the inputs. -/
def summaryVals (key : EvalKey n) : Vals :=
  (F.summaries key.routine).entries.foldl
    (fun vals e => vals.insert e.1 (evalVal e.2 key.inputs key.globals)) (initialVals F key)

/-- Every tracked variable may hold anything. -/
def allTop (i : Fin n) : Vals := (F.facts i).tracked.mapValues fun _ => none

/-- The values the loop starts with: the starting values, and what an earlier pass found. -/
def startVals (key : EvalKey n) (prev : Option Vals) : Vals :=
  match prev with
  | none => initialVals F key
  | some prev => prev.entries.foldl
      (fun vals e => vals.insert e.1 (unionVal ((vals.lookup e.1).getD emptyVal) e.2))
      (initialVals F key)

/-- What the memo holds for a key, or its starting values. -/
def memoOr (st : EvalState n) (key : EvalKey n) : Vals :=
  (st.memo.lookup key).getD (initialVals F key)

/-- The key is being evaluated. -/
def Pass.enter (s : Pass n) (key : EvalKey n) : Pass n :=
  { s with
    budget := s.budget - 1
    inProgress := insert key s.inProgress
    touched := insert key s.touched }

/-- The key has been evaluated. -/
def Pass.leave (s : Pass n) (key : EvalKey n) (vals : Vals) : Pass n :=
  { s with
    inProgress := s.inProgress.erase key
    grew := s.grew || (memoOr F s.toEvalState key).toFinmap ≠ vals.toFinmap
    memo := s.memo.insert key vals }

/-- An evaluation that needs no new one: a routine that is not sensitive, a final value, one still being
computed.  Any other is `body`. -/
def memoized (key : EvalKey n) (body : EvalM n Vals) : EvalM n Vals :=
  if !F.sensitive key.routine then pure (summaryVals F key)
  else do
    let s ← get
    if key ∈ s.done then StateT.lift (s.memo.lookup key)
    else if key ∈ s.inProgress then do
      set { s with readPartial := true }
      pure (memoOr F s.toEvalState key)
    else body

/-- `eval_routine`, with the number of calls it may still nest. -/
def evalRoutine (fuel : ℕ) : ℕ → EvalKey n → EvalM n Vals
  | 0, key => memoized F key (pure (allTop F key.routine))
  | left + 1, key => memoized F key do
      let s ← get
      if s.budget = 0 then pure (allTop F key.routine)
      else do
        set (s.enter key)
        let vals ← settle F (evalRoutine fuel left) key fuel (startVals F key (s.memo.lookup key))
        modify fun s => s.leave F key vals
        pure vals

/-! ## 6. Repeating it -/

/-- Passes of `evaluate`: until one read no value still being computed or none grew. -/
def evaluateLoop (fuel : ℕ) (key : EvalKey n) : ℕ → EvalState n → Option (Option Vals × EvalState n)
  | 0, st => some (none, st)
  | k + 1, st => do
    let (vals, s) ← evalRoutine F fuel (EVAL_DEPTH + 1) key
      ⟨{ st with readPartial := false, grew := false }, ∅⟩
    if !(s.readPartial && s.grew) then
      some (some vals, { s.toEvalState with done := s.done ∪ s.touched })
    else evaluateLoop fuel key k s.toEvalState

/-- Evaluates a routine under its inputs to a fixpoint over recursive calls; the value is `none` when
it does not settle. -/
def evaluate (fuel : ℕ) (key : EvalKey n) (st : EvalState n) :
    Option (Option Vals × EvalState n) :=
  evaluateLoop F fuel key 12 st

/-- The states a flow's evaluations can leave, whatever they evaluate. -/
inductive History : EvalState n → Prop
  | start : History (EvalState.start n)
  | evaluate {st st' : EvalState n} {fuel : ℕ} {key : EvalKey n} {r : Option Vals}
      (h : History st) (hrun : evaluate F fuel key st = some (r, st')) : History st'

end AlSem.L5.RecrefFlow
