/-
# Closed-world temp parameters

`l5/closed_world_temp.rs`: a `local` procedure can be called only from its own object, so where
every call that could name it is resolved, and every caller passes a temporary record to
parameter `i`, the parameter IS temporary.  A caller may pass on a parameter of its own, which
then has to be proven in turn; the proof is a memoized depth-first search that answers `false`
for a query that is still open.

The search is exact: what it proves is the least set closed under the rule (`rule`), whatever
the order of the queries and of the caller lists.
-/
import AlSem.Lib.Grounding
import AlSem.L4.Effects
import AlSem.L5.ReverseCallGraph
import Mathlib.Data.List.Induction

namespace AlSem.L5

open AlSem.Model AlSem.L4 Grounding

/-! ## 1. The inputs -/

/-- A routine with what identifies it in its object. -/
structure ObjectRoutine extends ModelRoutine where
  objectId : String
  accessModifier : Option String := none
  deriving DecidableEq, Repr

/-- The kind a temp state is read as. -/
def tempStateKind (ts : PTempState) : TempStateKind := (TempState.fromP ts).toKind

/-- A name without its quotes, if it has both. -/
def stripQuotes (s : String) : String :=
  match s.toList with
  | '"' :: cs => if cs.getLast? = some '"' then String.ofList cs.dropLast else s
  | _ => s

section

-- the standard library's lower case of a character, the first one where there are several
variable (lower : Char → Char)

/-- `fold_identifier`. -/
def foldIdentifier (s : String) : String :=
  if s.toList.all (·.toNat < 128) then Text.toAsciiLowercase s else s.map lower

/-- `eq_fold_identifier`. -/
def eqFoldIdentifier (a b : String) : Bool :=
  if a.toList.all (·.toNat < 128) && b.toList.all (·.toNat < 128) then
    Text.eqIgnoreAsciiCase a b
  else foldIdentifier lower a == foldIdentifier lower b

def nameMatches (calleeName routineName : String) : Bool :=
  eqFoldIdentifier lower (stripQuotes calleeName) (stripQuotes routineName)

/-- Could an unresolved call of this callee be a call of `r`? -/
def couldName (callee : PCallee) (r : ObjectRoutine) : Bool :=
  match callee with
  | .bare name => nameMatches lower name r.name
  | .member _ method => nameMatches lower method r.name
  -- an unclassifiable callee could be anything
  | .unknown => true
  | .objectRun .. => false

end

/-- The tables of a proof. -/
structure ProofEnv where
  routineById : HashMap String ObjectRoutine
  /-- The ids that more than one routine has. -/
  dupIds : List String
  /-- The call sites that some resolved edge carries. -/
  resolvedCallsites : List String
  routinesByObject : HashMap String (List ObjectRoutine)
  reverse : ReverseCallGraph
  entryPoints : List String

/-- A routine and the index of one of its parameters. -/
abbrev ParamKey := String × ℕ

/-! ## 2. The search -/

/-- One routine enters `routine_by_id`; a second one of its id enters `dup_ids` as well. -/
def indexRoutine (s : HashMap String ObjectRoutine × List String) (r : ObjectRoutine) :
    HashMap String ObjectRoutine × List String :=
  (s.1.insert r.id r, if (s.1.lookup r.id).isSome then r.id :: s.2 else s.2)

def resolvedCallsites (graph : PrimaryGraph) : List String :=
  graph.edgesByFrom.entries.flatMap fun entry => entry.2.filterMap CombinedEdge.callsiteId

def routinesByObject (routines : List ObjectRoutine) : HashMap String (List ObjectRoutine) :=
  routines.foldl (fun m r => HashMap.push m r.objectId r) ∅

def proofEnv (routines : List ObjectRoutine) (graph : PrimaryGraph) (reverse : ReverseCallGraph)
    (entryPoints : List String) : ProofEnv where
  routineById := (routines.foldl indexRoutine (∅, [])).1
  dupIds := (routines.foldl indexRoutine (∅, [])).2
  resolvedCallsites := resolvedCallsites graph
  routinesByObject := routinesByObject routines
  reverse := reverse
  entryPoints := entryPoints

/-- The candidates: the parameter-dependent record parameters of the `local` procedures. -/
def candidateQueries (routines : List ObjectRoutine) : List ParamKey :=
  routines.flatMap fun r =>
    if r.kind ≠ "procedure" ∨ r.accessModifier ≠ some "local" then []
    else r.recordVariables.filterMap fun rv =>
      if rv.isParameter ∧ rv.tempState.kind = "parameter-dependent" then
        rv.tempState.parameterIndex.map fun i => (r.id, i)
      else none

/-- One caller edge of `prove_inner`: it refuses, it passes a temporary record, or it passes on a
parameter of the caller. -/
def edgeCheck (env : ProofEnv) (i : ℕ) (e : CombinedEdge) : Check ParamKey :=
  if e.kind ≠ "direct" ∧ e.kind ≠ "method" then .fail
  else if e.from ∈ env.dupIds then .fail
  else
    match e.callsiteId with
    | none => .fail
    | some csId =>
      match env.routineById.lookup e.from with
      | none => .fail
      | some caller =>
        if caller.parseIncomplete then .fail
        else
          match caller.callSites.find? (·.id == csId) with
          | none => .fail
          | some cs =>
            match cs.argumentBindings.find? (·.parameterIndex == i) with
            | none => .fail
            | some binding =>
              match binding.sourceTempState with
              | none => .fail
              | some src =>
                match tempStateKind src with
                | .known true => .pass
                | .parameterDependent j => .ask (e.from, j)
                | _ => .fail

section

variable (lower : Char → Char)

/-- Every call in `r`'s object that could name it is resolved. -/
def closedWorld (env : ProofEnv) (r : ObjectRoutine) : Bool :=
  match env.routinesByObject.lookup r.objectId with
  | none => false
  | some siblings =>
    siblings.all fun q =>
      !q.parseIncomplete && q.callSites.all fun cs =>
        env.resolvedCallsites.contains cs.id || !couldName lower cs.callee r

/-- `prove_inner`: the conditions on the routine, then its caller edges in order. -/
def proveInner (env : ProofEnv) (q : ParamKey) : List (Check ParamKey) :=
  if q.1 ∈ env.dupIds then [.fail]
  else
    match env.routineById.lookup q.1 with
    | none => [.fail]
    | some r =>
      if r.kind ≠ "procedure" then [.fail]
      else if r.accessModifier ≠ some "local" then [.fail]
      else if q.1 ∈ env.entryPoints then [.fail]
      -- a stale index proves nothing
      else if !r.parameters.any (·.index == q.2) then [.fail]
      else if !closedWorld lower env r then [.fail]
      -- a dead local routine: no vacuous proof
      else if (callersOf env.reverse q.1).isEmpty then [.fail]
      else (callersOf env.reverse q.1).map (edgeCheck env q.2)

/-- `prove`: the remembered answer, `false` for an open query, else the checks of `prove_inner`. -/
def prove (env : ProofEnv) (fuel : ℕ) (visiting : List ParamKey) (q : ParamKey)
    (memo : Answers ParamKey) : Option (Bool × Answers ParamKey) :=
  search (proveInner lower env) fuel visiting q memo

/-- **The proven set**, the queries one after another over one memo. -/
def proveClosedWorldTempParams (fuel : ℕ) (routines : List ObjectRoutine) (graph : PrimaryGraph)
    (reverse : ReverseCallGraph) (entryPoints : List String) : Option (List ParamKey) :=
  searchAll (proveInner lower (proofEnv routines graph reverse entryPoints)) fuel
    (candidateQueries routines) ∅

end

/-! ## 3. The rule -/

/-- Some resolved edge carries the call site. -/
def Resolved (graph : PrimaryGraph) (csId : String) : Prop :=
  ∃ entry ∈ graph.edgesByFrom.entries, ∃ e ∈ entry.2, e.callsiteId = some csId

section

variable (lower : Char → Char) (routines : List ObjectRoutine) (graph : PrimaryGraph)
  (reverse : ReverseCallGraph) (entryPoints : List String)

/-- `r` is the one routine of its id. -/
def OnlyRoutine (id : String) (r : ObjectRoutine) : Prop :=
  (routines.filter fun q => q.id == id) = [r]

/-- The conditions on the routine itself: one routine of the id, a `local` procedure and no entry
point, a complete object, at least one caller. -/
structure OwnConditions (id : String) (r : ObjectRoutine) : Prop where
  only : OnlyRoutine routines id r
  procedure : r.kind = "procedure"
  isLocal : r.accessModifier = some "local"
  notEntry : id ∉ entryPoints
  parsed : ∀ q ∈ routines, q.objectId = r.objectId → q.parseIncomplete = false
  complete : ∀ q ∈ routines, q.objectId = r.objectId → ∀ cs ∈ q.callSites,
    couldName lower cs.callee r = true → Resolved graph cs.id
  called : callersOf reverse id ≠ []

/-- The edge binds parameter `i` to a temporary record, or to a parameter of the caller that is in
`S`. -/
def EdgeTemp (S : Set ParamKey) (i : ℕ) (e : CombinedEdge) : Prop :=
  (e.kind = "direct" ∨ e.kind = "method") ∧
    ∃ caller csId cs binding src, OnlyRoutine routines e.from caller ∧
      e.callsiteId = some csId ∧ caller.callSites.find? (·.id == csId) = some cs ∧
      cs.argumentBindings.find? (·.parameterIndex == i) = some binding ∧
      binding.sourceTempState = some src ∧
      (tempStateKind src = .known true ∨
        ∃ j, tempStateKind src = .parameterDependent j ∧ (e.from, j) ∈ S)

theorem EdgeTemp.mono {S T : Set ParamKey} (h : S ⊆ T) {i : ℕ} {e : CombinedEdge}
    (he : EdgeTemp routines S i e) : EdgeTemp routines T i e := by
  obtain ⟨hkind, caller, csId, cs, binding, src, hc, hcs, hfs, hfb, hsrc, htemp⟩ := he
  refine ⟨hkind, caller, csId, cs, binding, src, hc, hcs, hfs, hfb, hsrc, ?_⟩
  rcases htemp with ht | ⟨j, hj, hmem⟩
  · exact Or.inl ht
  · exact Or.inr ⟨j, hj, h hmem⟩

/-- What the conditions on the routine and on its caller edges let in. -/
def statedRule : Set ParamKey →o Set ParamKey where
  toFun S := {q | (∃ r, OwnConditions lower routines graph reverse entryPoints q.1 r) ∧
    ∀ e ∈ callersOf reverse q.1, EdgeTemp routines S q.2 e}
  monotone' S T hST := by
    rintro q ⟨hown, hedges⟩
    exact ⟨hown, fun e he => (hedges e he).mono routines hST⟩

/-- The parameter is declared, and no caller's body is broken. -/
structure Declared (q : ParamKey) : Prop where
  parameter : ∀ r ∈ routines, r.id = q.1 → ∃ p ∈ r.parameters, p.index = q.2
  callers : ∀ e ∈ callersOf reverse q.1, ∀ c ∈ routines, c.id = e.from → c.parseIncomplete = false

/-- **The rule**: the stated conditions, a declared parameter, and callers with whole bodies. -/
def rule : Set ParamKey →o Set ParamKey where
  toFun S := {q | q ∈ statedRule lower routines graph reverse entryPoints S ∧
    Declared routines reverse q}
  monotone' S T hST := by
    rintro q ⟨hq, hdecl⟩
    exact ⟨(statedRule lower routines graph reverse entryPoints).mono hST hq, hdecl⟩

end

/-! ## 4. The tables -/

theorem indexRoutines (l : List ObjectRoutine) :
    (∀ id, (l.foldl indexRoutine (∅, [])).1.lookup id = (l.filter fun q => q.id == id).getLast?) ∧
      ∀ id, id ∈ (l.foldl indexRoutine (∅, [])).2 ↔ 2 ≤ (l.filter fun q => q.id == id).length := by
  induction l using List.reverseRecOn with
  | nil => simp
  | append_singleton l r ih =>
    obtain ⟨hlook, hdup⟩ := ih
    rw [List.foldl_append, List.foldl_cons, List.foldl_nil]
    constructor
    · intro id
      rw [List.filter_append]
      by_cases hid : id = r.id
      · subst hid
        rw [indexRoutine, AList.lookup_insert]
        simp
      · rw [indexRoutine, AList.lookup_insert_ne hid, hlook]
        simp [Ne.symm hid]
    · intro id
      rw [List.filter_append, List.length_append]
      by_cases hid : id = r.id
      · subst hid
        simp only [indexRoutine, hlook, List.filter_singleton, beq_self_eq_true, cond_true,
          List.length_singleton]
        cases hl : l.filter fun q => q.id == r.id with
        | nil => simp [hdup, hl]
        | cons q qs => simp
      · have hmem : id ∈ (indexRoutine (l.foldl indexRoutine (∅, [])) r).2 ↔
            id ∈ (l.foldl indexRoutine (∅, [])).2 := by
          unfold indexRoutine
          dsimp only
          split
          · rw [List.mem_cons, or_iff_right hid]
          · exact Iff.rfl
        rw [hmem, hdup]
        simp [Ne.symm hid]

/-- An id that is not a duplicate and has a routine has one routine. -/
theorem onlyRoutine_iff {routines : List ObjectRoutine} (graph : PrimaryGraph)
    (reverse : ReverseCallGraph) (entryPoints : List String) {id : String} {r : ObjectRoutine} :
    OnlyRoutine routines id r ↔ id ∉ (proofEnv routines graph reverse entryPoints).dupIds ∧
      (proofEnv routines graph reverse entryPoints).routineById.lookup id = some r := by
  obtain ⟨hlook, hdup⟩ := indexRoutines routines
  rw [OnlyRoutine, proofEnv, hlook, hdup]
  cases hl : routines.filter fun q => q.id == id with
  | nil => simp
  | cons q qs =>
    cases qs with
    | nil => simp
    | cons p ps => simp

theorem OnlyRoutine.mem {routines : List ObjectRoutine} {id : String} {r : ObjectRoutine}
    (h : OnlyRoutine routines id r) : r ∈ routines ∧ r.id = id := by
  have hmem : r ∈ routines.filter fun q => q.id == id := by
    rw [h]
    exact List.mem_singleton_self r
  obtain ⟨hr, hid⟩ := List.mem_filter.mp hmem
  exact ⟨hr, eq_of_beq hid⟩

theorem OnlyRoutine.eq {routines : List ObjectRoutine} {id : String} {r q : ObjectRoutine}
    (h : OnlyRoutine routines id r) (hq : q ∈ routines) (hid : q.id = id) : q = r := by
  have hmem : q ∈ routines.filter fun q => q.id == id :=
    List.mem_filter.mpr ⟨hq, by rw [hid]; exact beq_self_eq_true id⟩
  rw [h] at hmem
  exact List.mem_singleton.mp hmem

theorem mem_resolvedCallsites {graph : PrimaryGraph} {csId : String} :
    csId ∈ resolvedCallsites graph ↔ Resolved graph csId := by
  simp only [resolvedCallsites, Resolved, List.mem_flatMap, List.mem_filterMap]

theorem mem_routinesByObject {routines : List ObjectRoutine} {objectId : String}
    {q : ObjectRoutine} :
    q ∈ HashMap.getList (routinesByObject routines) objectId ↔
      q ∈ routines ∧ q.objectId = objectId := by
  rw [routinesByObject, HashMap.mem_getList_foldl_push ObjectRoutine.objectId fun r => r]
  simp only [HashMap.getList_empty, List.not_mem_nil, false_or]
  constructor
  · rintro ⟨b, hb, hid, rfl⟩
    exact ⟨hb, hid⟩
  · rintro ⟨hq, hid⟩
    exact ⟨q, hq, hid, rfl⟩

/-- The object's own table has the routine, so the lookup does not fail. -/
theorem closedWorld_iff (lower : Char → Char) {routines : List ObjectRoutine}
    (graph : PrimaryGraph) (reverse : ReverseCallGraph) (entryPoints : List String)
    {r : ObjectRoutine} (hr : r ∈ routines) :
    closedWorld lower (proofEnv routines graph reverse entryPoints) r = true ↔
      (∀ q ∈ routines, q.objectId = r.objectId → q.parseIncomplete = false) ∧
        ∀ q ∈ routines, q.objectId = r.objectId → ∀ cs ∈ q.callSites,
          couldName lower cs.callee r = true → Resolved graph cs.id := by
  have hself : r ∈ HashMap.getList (routinesByObject routines) r.objectId :=
    mem_routinesByObject.mpr ⟨hr, rfl⟩
  have hlist : (routinesByObject routines).lookup r.objectId =
      some (HashMap.getList (routinesByObject routines) r.objectId) := by
    unfold HashMap.getList at hself ⊢
    cases hl : (routinesByObject routines).lookup r.objectId with
    | none => simp [hl] at hself
    | some l => rfl
  have hcall : ∀ cs : PCallSite,
      ((resolvedCallsites graph).contains cs.id || !couldName lower cs.callee r) = true ↔
        (couldName lower cs.callee r = true → Resolved graph cs.id) := by
    intro cs
    rw [Bool.or_eq_true, List.contains_iff_mem, mem_resolvedCallsites, Bool.not_eq_true']
    cases couldName lower cs.callee r <;> simp
  simp only [closedWorld, proofEnv, hlist, List.all_eq_true, Bool.and_eq_true, hcall,
    Bool.not_eq_true', mem_routinesByObject]
  constructor
  · intro h
    exact ⟨fun q hq ho => (h q ⟨hq, ho⟩).1, fun q hq ho => (h q ⟨hq, ho⟩).2⟩
  · rintro ⟨hparsed, hcomplete⟩ q ⟨hq, ho⟩
    exact ⟨hparsed q hq ho, hcomplete q hq ho⟩

/-! ## 5. The checks of a query -/

section

variable {lower : Char → Char} {routines : List ObjectRoutine} (graph : PrimaryGraph)
  (reverse : ReverseCallGraph) (entryPoints : List String)

/-- **An edge's check** lets exactly the temp edges of callers with whole bodies through. -/
theorem edgeCheck_iff {S : Set ParamKey} {i : ℕ} {e : CombinedEdge} :
    (edgeCheck (proofEnv routines graph reverse entryPoints) i e ≠ .fail ∧
        ∀ k, edgeCheck (proofEnv routines graph reverse entryPoints) i e = .ask k → k ∈ S) ↔
      EdgeTemp routines S i e ∧
        ∀ c ∈ routines, c.id = e.from → c.parseIncomplete = false := by
  constructor
  · rintro ⟨hfail, hask⟩
    unfold edgeCheck at hfail hask
    by_cases hkind : e.kind ≠ "direct" ∧ e.kind ≠ "method"
    · exact absurd (if_pos hkind) hfail
    by_cases hdup : e.from ∈ (proofEnv routines graph reverse entryPoints).dupIds
    · rw [if_neg hkind, if_pos hdup] at hfail
      exact absurd rfl hfail
    rw [if_neg hkind, if_neg hdup] at hfail hask
    cases hcs : e.callsiteId with
    | none => simp [hcs] at hfail
    | some csId =>
      cases hc : (proofEnv routines graph reverse entryPoints).routineById.lookup e.from with
      | none => simp [hcs, hc] at hfail
      | some caller =>
        have honly : OnlyRoutine routines e.from caller := (onlyRoutine_iff graph reverse entryPoints).mpr ⟨hdup, hc⟩
        simp only [hcs, hc] at hfail hask
        by_cases hparse : caller.parseIncomplete = true
        · exact absurd (if_pos hparse) hfail
        rw [if_neg hparse] at hfail hask
        cases hfs : caller.callSites.find? (·.id == csId) with
        | none => simp [hfs] at hfail
        | some cs =>
          cases hfb : cs.argumentBindings.find? (·.parameterIndex == i) with
          | none => simp [hfs, hfb] at hfail
          | some binding =>
            cases hsrc : binding.sourceTempState with
            | none => simp [hfs, hfb, hsrc] at hfail
            | some src =>
              simp only [hfs, hfb, hsrc] at hfail hask
              refine ⟨⟨by tauto, caller, csId, cs, binding, src, honly, hcs, hfs, hfb, hsrc, ?_⟩,
                fun c hc hid => ?_⟩
              · cases hts : tempStateKind src with
                | known b =>
                  cases b with
                  | true => exact Or.inl rfl
                  | false => simp [hts] at hfail
                | parameterDependent j =>
                  exact Or.inr ⟨j, rfl, hask (e.from, j) (by rw [hts])⟩
                | unknown => simp [hts] at hfail
              · rw [honly.eq hc hid]
                simpa using hparse
  · rintro ⟨⟨hkind, caller, csId, cs, binding, src, honly, hcs, hfs, hfb, hsrc, htemp⟩, hparse⟩
    obtain ⟨hdup, hc⟩ := (onlyRoutine_iff graph reverse entryPoints).mp honly
    have hp : caller.parseIncomplete = false := hparse caller honly.mem.1 honly.mem.2
    have hk : ¬ (e.kind ≠ "direct" ∧ e.kind ≠ "method") := by tauto
    have hcheck : edgeCheck (proofEnv routines graph reverse entryPoints) i e =
        match tempStateKind src with
        | .known true => .pass
        | .parameterDependent j => .ask (e.from, j)
        | _ => .fail := by
      simp only [edgeCheck, if_neg hk, if_neg hdup, hcs, hc, hp, Bool.false_eq_true, if_false, hfs,
        hfb, hsrc]
    rw [hcheck]
    rcases htemp with ht | ⟨j, hj, hmem⟩
    · rw [ht]
      exact ⟨nofun, nofun⟩
    · rw [hj]
      refine ⟨nofun, fun k hk => ?_⟩
      obtain rfl := Check.ask.inj hk
      exact hmem

/-- **The checks of a query let it in where the rule does.** -/
theorem proveInner_iff (S : Set ParamKey) (q : ParamKey) :
    q ∈ rule lower routines graph reverse entryPoints S ↔
      .fail ∉ proveInner lower (proofEnv routines graph reverse entryPoints) q ∧
        ∀ k, .ask k ∈ proveInner lower (proofEnv routines graph reverse entryPoints) q →
          k ∈ S := by
  have hrev : (proofEnv routines graph reverse entryPoints).reverse = reverse := rfl
  have hentry : (proofEnv routines graph reverse entryPoints).entryPoints = entryPoints := rfl
  constructor
  · rintro ⟨⟨⟨r, hown⟩, hedges⟩, hdecl⟩
    obtain ⟨hdup, hlook⟩ := (onlyRoutine_iff graph reverse entryPoints).mp hown.only
    obtain ⟨hr, hid⟩ := hown.only.mem
    have hparam : r.parameters.any (·.index == q.2) = true := by
      obtain ⟨p, hp, hpi⟩ := hdecl.parameter r hr hid
      exact List.any_eq_true.mpr ⟨p, hp, by rw [hpi]; exact beq_self_eq_true _⟩
    have hclosed := (closedWorld_iff lower graph reverse entryPoints hr).mpr ⟨hown.parsed, hown.complete⟩
    have hcalled : (callersOf reverse q.1).isEmpty = false := by
      simpa using hown.called
    have hchecks : proveInner lower (proofEnv routines graph reverse entryPoints) q =
        (callersOf reverse q.1).map
          (edgeCheck (proofEnv routines graph reverse entryPoints) q.2) := by
      unfold proveInner
      simp only [if_neg hdup, hlook, hown.procedure, hown.isLocal, ne_eq, not_true_eq_false,
        if_false, hentry, if_neg hown.notEntry, hparam, hclosed, Bool.not_true, Bool.false_eq_true,
        hrev, hcalled]
    have hcheck := fun e he => (edgeCheck_iff graph reverse entryPoints).mpr
      ⟨hedges e he, hdecl.callers e he⟩
    rw [hchecks]
    constructor
    · intro hfail
      obtain ⟨e, he, hef⟩ := List.mem_map.mp hfail
      exact (hcheck e he).1 hef
    · intro k hk
      obtain ⟨e, he, hek⟩ := List.mem_map.mp hk
      exact (hcheck e he).2 k hek
  · rintro ⟨hfail, hask⟩
    unfold proveInner at hfail hask
    by_cases hdup : q.1 ∈ (proofEnv routines graph reverse entryPoints).dupIds
    · simp [hdup] at hfail
    cases hlook : (proofEnv routines graph reverse entryPoints).routineById.lookup q.1 with
    | none => simp [hdup, hlook] at hfail
    | some r =>
      have honly : OnlyRoutine routines q.1 r := (onlyRoutine_iff graph reverse entryPoints).mpr ⟨hdup, hlook⟩
      simp only [if_neg hdup, hlook, hentry, hrev] at hfail hask
      by_cases hproc : r.kind = "procedure"
      swap
      · simp [hproc] at hfail
      by_cases hlocal : r.accessModifier = some "local"
      swap
      · simp [hproc, hlocal] at hfail
      by_cases hent : q.1 ∈ entryPoints
      · simp [hproc, hlocal, hent] at hfail
      by_cases hparam : r.parameters.any (·.index == q.2) = true
      swap
      · simp [hproc, hlocal, hent, hparam] at hfail
      by_cases hclosed : closedWorld lower (proofEnv routines graph reverse entryPoints) r = true
      swap
      · simp [hproc, hlocal, hent, hparam, hclosed] at hfail
      by_cases hcalled : (callersOf reverse q.1).isEmpty = true
      · simp [hproc, hlocal, hent, hparam, hclosed, hcalled] at hfail
      simp only [hproc, hlocal, ne_eq, not_true_eq_false, if_false, if_neg hent, hparam, hclosed,
        Bool.not_true, Bool.false_eq_true, if_neg hcalled] at hfail hask
      obtain ⟨hparsed, hcomplete⟩ := (closedWorld_iff lower graph reverse entryPoints honly.mem.1).mp
        hclosed
      have hcheck : ∀ e ∈ callersOf reverse q.1, EdgeTemp routines S q.2 e ∧
          ∀ c ∈ routines, c.id = e.from → c.parseIncomplete = false := fun e he =>
        (edgeCheck_iff graph reverse entryPoints).mp ⟨fun hf => hfail (List.mem_map.mpr ⟨e, he, hf⟩),
          fun k hk => hask k (List.mem_map.mpr ⟨e, he, hk⟩)⟩
      refine ⟨⟨⟨r, honly, hproc, hlocal, hent, hparsed, hcomplete, by simpa using hcalled⟩,
        fun e he => (hcheck e he).1⟩, ?_, fun e he => (hcheck e he).2⟩
      intro p hp hid
      rw [honly.eq hp hid]
      obtain ⟨x, hx, hxi⟩ := List.any_eq_true.mp hparam
      exact ⟨x, hx, eq_of_beq hxi⟩

end

/-! ## 6. The proven set -/

/-- `q` names a parameter-dependent record parameter of a `local` procedure. -/
def Candidate (routines : List ObjectRoutine) (q : ParamKey) : Prop :=
  ∃ r ∈ routines, r.id = q.1 ∧ r.kind = "procedure" ∧ r.accessModifier = some "local" ∧
    ∃ rv ∈ r.recordVariables, rv.isParameter = true ∧
      rv.tempState.kind = "parameter-dependent" ∧ rv.tempState.parameterIndex = some q.2

theorem mem_candidateQueries {routines : List ObjectRoutine} {q : ParamKey} :
    q ∈ candidateQueries routines ↔ Candidate routines q := by
  obtain ⟨id, i⟩ := q
  rw [candidateQueries, List.mem_flatMap]
  constructor
  · rintro ⟨r, hr, hq⟩
    split at hq
    · exact absurd hq List.not_mem_nil
    · rename_i hk
      rw [not_or, not_not, not_not] at hk
      obtain ⟨rv, hrv, hsome⟩ := List.mem_filterMap.mp hq
      split at hsome
      · rename_i hp
        obtain ⟨j, hj, hji⟩ := Option.map_eq_some_iff.mp hsome
        obtain ⟨rfl, rfl⟩ := Prod.mk.inj hji
        exact ⟨r, hr, rfl, hk.1, hk.2, rv, hrv, hp.1, hp.2, hj⟩
      · exact absurd hsome nofun
  · rintro ⟨r, hr, rfl, hproc, hlocal, rv, hrv, hparam, hkind, hidx⟩
    refine ⟨r, hr, ?_⟩
    have hk : ¬ (r.kind ≠ "procedure" ∨ r.accessModifier ≠ some "local") := by
      rw [not_or, not_not, not_not]
      exact ⟨hproc, hlocal⟩
    rw [if_neg hk]
    refine List.mem_filterMap.mpr ⟨rv, hrv, ?_⟩
    rw [if_pos ⟨hparam, hkind⟩, hidx]
    rfl

/-- The parameters a routine passes on. -/
def passedOn (c : ObjectRoutine) : List ParamKey :=
  c.callSites.flatMap fun cs => cs.argumentBindings.filterMap fun b =>
    b.sourceTempState.bind fun src =>
      match tempStateKind src with
      | .parameterDependent j => some (c.id, j)
      | _ => none

section

variable (lower : Char → Char) (routines : List ObjectRoutine) (graph : PrimaryGraph)
  (reverse : ReverseCallGraph) (entryPoints : List String)

/-- What an edge asks for is passed on by some routine. -/
theorem mem_passedOn_of_ask {i : ℕ} {e : CombinedEdge} {k : ParamKey}
    (h : edgeCheck (proofEnv routines graph reverse entryPoints) i e = .ask k) :
    k ∈ routines.flatMap passedOn := by
  have hedge := (edgeCheck_iff graph reverse entryPoints (S := {k})).mp
    ⟨by rw [h]; exact nofun, fun j hj => (Check.ask.inj (h.symm.trans hj)).symm⟩
  obtain ⟨⟨hkind, caller, csId, cs, b, src, honly, hcs, hfs, hfb, hsrc, htemp⟩, hparse⟩ := hedge
  rcases htemp with ht | ⟨j, hj, hmem⟩
  · -- a temporary record asks for nothing
    have hpass := (edgeCheck_iff graph reverse entryPoints (S := ∅)).mpr
      ⟨⟨hkind, caller, csId, cs, b, src, honly, hcs, hfs, hfb, hsrc, Or.inl ht⟩, hparse⟩
    exact absurd (hpass.2 k h) (Set.notMem_empty k)
  · obtain rfl := Set.mem_singleton_iff.mp hmem
    refine List.mem_flatMap.mpr ⟨caller, honly.mem.1, ?_⟩
    refine List.mem_flatMap.mpr ⟨cs, List.mem_of_find?_eq_some hfs, ?_⟩
    refine List.mem_filterMap.mpr ⟨b, List.mem_of_find?_eq_some hfb, ?_⟩
    simp only [hsrc, Option.bind_some, hj, honly.mem.2]

/-- So there are only so many queries. -/
theorem mem_passedOn_of_proveInner {q k : ParamKey}
    (h : .ask k ∈ proveInner lower (proofEnv routines graph reverse entryPoints) q) :
    k ∈ routines.flatMap passedOn := by
  have hsplit : proveInner lower (proofEnv routines graph reverse entryPoints) q = [.fail] ∨
      proveInner lower (proofEnv routines graph reverse entryPoints) q =
        (callersOf reverse q.1).map
          (edgeCheck (proofEnv routines graph reverse entryPoints) q.2) := by
    unfold proveInner
    cases (proofEnv routines graph reverse entryPoints).routineById.lookup q.1 with
    | none => exact Or.inl (ite_self _)
    | some r =>
      dsimp only
      split_ifs
      · exact Or.inl rfl
      · exact Or.inl rfl
      · exact Or.inl rfl
      · exact Or.inl rfl
      · exact Or.inl rfl
      · exact Or.inl rfl
      · exact Or.inl rfl
      · exact Or.inr rfl
  rcases hsplit with hs | hs
  · rw [hs] at h
    exact absurd (List.mem_singleton.mp h) nofun
  · rw [hs] at h
    obtain ⟨e, -, he⟩ := List.mem_map.mp h
    exact mem_passedOn_of_ask routines graph reverse entryPoints he

/-- The search of every query ends. -/
theorem proveClosedWorldTempParams_isSome :
    ∃ bound, ∀ fuel ≥ bound,
      (proveClosedWorldTempParams lower fuel routines graph reverse entryPoints).isSome := by
  refine ⟨(routines.flatMap passedOn ++ candidateQueries routines).toFinset.card + 1,
    fun fuel hfuel => searchAll_isSome (fun q k hk => ?_) hfuel (fun q hq => ?_) ∅⟩
  · exact List.mem_toFinset.mpr (List.mem_append_left _
      (mem_passedOn_of_proveInner lower routines graph reverse entryPoints hk))
  · exact List.mem_toFinset.mpr (List.mem_append_right _ hq)

/-- What it proves is the rule's least fixed point on the candidates. -/
theorem mem_proveClosedWorldTempParams {fuel : ℕ} {proven : List ParamKey}
    (h : proveClosedWorldTempParams lower fuel routines graph reverse entryPoints = some proven)
    (q : ParamKey) :
    q ∈ proven ↔ Candidate routines q ∧
      q ∈ (rule lower routines graph reverse entryPoints).lfp := by
  rw [mem_searchAll right_empty h q, mem_candidateQueries,
    mem_lfp_iff (proveInner_iff graph reverse entryPoints)]

variable {lower routines graph reverse entryPoints}

/-- The rule reads the routines and the caller lists as sets. -/
theorem rule_congr {routines' : List ObjectRoutine} {reverse' : ReverseCallGraph}
    (hr : routines'.Perm routines)
    (hc : ∀ id, (callersOf reverse' id).Perm (callersOf reverse id)) :
    rule lower routines' graph reverse' entryPoints =
      rule lower routines graph reverse entryPoints := by
  have honly : ∀ id r, OnlyRoutine routines' id r ↔ OnlyRoutine routines id r := by
    intro id r
    have hfilter := hr.filter fun q => q.id == id
    constructor
    · intro h
      exact List.perm_singleton.mp (hfilter.symm.trans (List.Perm.of_eq h))
    · intro h
      exact List.perm_singleton.mp (hfilter.trans (List.Perm.of_eq h))
  have hown : ∀ id r, OwnConditions lower routines' graph reverse' entryPoints id r ↔
      OwnConditions lower routines graph reverse entryPoints id r := by
    intro id r
    have hnil : callersOf reverse' id ≠ [] ↔ callersOf reverse id ≠ [] := by
      rw [ne_eq, ne_eq, ← List.length_eq_zero_iff, ← List.length_eq_zero_iff, (hc id).length_eq]
    constructor
    · rintro ⟨h1, h2, h3, h4, h5, h6, h7⟩
      exact ⟨(honly id r).mp h1, h2, h3, h4, fun q hq => h5 q (hr.mem_iff.mpr hq),
        fun q hq => h6 q (hr.mem_iff.mpr hq), hnil.mp h7⟩
    · rintro ⟨h1, h2, h3, h4, h5, h6, h7⟩
      exact ⟨(honly id r).mpr h1, h2, h3, h4, fun q hq => h5 q (hr.mem_iff.mp hq),
        fun q hq => h6 q (hr.mem_iff.mp hq), hnil.mpr h7⟩
  have hdecl : ∀ q, Declared routines' reverse' q ↔ Declared routines reverse q := by
    intro q
    constructor
    · rintro ⟨h1, h2⟩
      exact ⟨fun r hrm => h1 r (hr.mem_iff.mpr hrm), fun e he c hcm =>
        h2 e ((hc _).mem_iff.mpr he) c (hr.mem_iff.mpr hcm)⟩
    · rintro ⟨h1, h2⟩
      exact ⟨fun r hrm => h1 r (hr.mem_iff.mp hrm), fun e he c hcm =>
        h2 e ((hc _).mem_iff.mp he) c (hr.mem_iff.mp hcm)⟩
  have hedge : ∀ S i e, EdgeTemp routines' S i e ↔ EdgeTemp routines S i e := by
    intro S i e
    simp only [EdgeTemp, honly]
  refine OrderHom.ext _ _ (funext fun S => Set.ext fun q => ?_)
  refine and_congr (and_congr (exists_congr fun r => hown q.1 r) ?_) (hdecl q)
  exact forall_congr' fun e => imp_congr (hc q.1).mem_iff (hedge S q.2 e)

theorem candidate_congr {routines' : List ObjectRoutine} (hr : routines'.Perm routines)
    (q : ParamKey) : Candidate routines' q ↔ Candidate routines q :=
  exists_congr fun _ => and_congr hr.mem_iff Iff.rfl

variable (lower routines graph reverse entryPoints)

/-- **The closed-world proof computes its inductive definition**: the search ends, what it proves
are the candidates in the rule's least fixed point, and no order of the routines (so none of the
queries) or of the caller lists changes it. -/
theorem proveClosedWorldTempParams_exact :
    (∃ bound, ∀ fuel ≥ bound,
      (proveClosedWorldTempParams lower fuel routines graph reverse entryPoints).isSome) ∧
    ∀ fuel proven,
      proveClosedWorldTempParams lower fuel routines graph reverse entryPoints = some proven →
      (∀ q, q ∈ proven ↔ Candidate routines q ∧
        q ∈ (rule lower routines graph reverse entryPoints).lfp) ∧
      ∀ routines' reverse' fuel' proven', routines'.Perm routines →
        (∀ id, (callersOf reverse' id).Perm (callersOf reverse id)) →
        proveClosedWorldTempParams lower fuel' routines' graph reverse' entryPoints =
          some proven' →
        ∀ q, q ∈ proven' ↔ q ∈ proven := by
  refine ⟨proveClosedWorldTempParams_isSome lower routines graph reverse entryPoints,
    fun fuel proven h => ?_⟩
  have hmem := mem_proveClosedWorldTempParams lower routines graph reverse entryPoints h
  refine ⟨hmem, fun routines' reverse' fuel' proven' hr hc h' q => ?_⟩
  rw [mem_proveClosedWorldTempParams lower routines' graph reverse' entryPoints h' q, hmem q,
    rule_congr hr hc, candidate_congr hr q]

end

/-! ## 7. The two conditions beyond the stated ones -/

/-- A `local` procedure with a record parameter, its only caller in another object. -/
def localCallee (parameters : List ModelParameter) : ObjectRoutine where
  id := "R"
  objectId := "o/Codeunit/1"
  name := "Fill"
  kind := "procedure"
  accessModifier := some "local"
  parameters := parameters
  recordVariables := [{
    id := "R/rec", name := "Rec", isParameter := true,
    tempState := { kind := "parameter-dependent", parameterIndex := some 0 } }]

/-- Its caller, which passes a temporary record. -/
def tempCaller (parseIncomplete : Bool) : ObjectRoutine where
  id := "C"
  objectId := "o/Codeunit/2"
  name := "Run"
  kind := "procedure"
  parseIncomplete := parseIncomplete
  callSites := [{
    id := "C/cs0", callee := .member "Cu" "Fill",
    argumentBindings := [{
      parameterIndex := 0, sourceKind := "variable",
      sourceTempState := some { kind := "known", value := some true } }] }]

def callEdge : CombinedEdge where
  «from» := "C"
  «to» := "R"
  kind := "direct"
  callsiteId := some "C/cs0"

def callGraph : PrimaryGraph where
  nodes := ["C", "R"]
  edgesByFrom := AList.insert "C" [callEdge] ∅

/-- The stated conditions hold of the one parameter. -/
theorem mem_statedRule_lfp (parameters : List ModelParameter) (parseIncomplete : Bool) :
    ("R", 0) ∈ (statedRule Char.toLower [localCallee parameters, tempCaller parseIncomplete]
      callGraph (buildReverseCallGraph callGraph) []).lfp := by
  rw [← OrderHom.map_lfp]
  refine ⟨⟨localCallee parameters, ⟨rfl, rfl, rfl, List.not_mem_nil, ?_, ?_, by decide⟩⟩, ?_⟩
  · intro q hq ho
    rcases List.mem_pair.mp hq with rfl | rfl
    · rfl
    · exact absurd (show "o/Codeunit/2" = "o/Codeunit/1" from ho) (by decide)
  · intro q hq ho
    rcases List.mem_pair.mp hq with rfl | rfl
    · exact nofun
    · exact absurd (show "o/Codeunit/2" = "o/Codeunit/1" from ho) (by decide)
  · intro e he
    obtain rfl : e = callEdge := by
      have hcallers : callersOf (buildReverseCallGraph callGraph) "R" = [callEdge] := by decide
      rw [hcallers] at he
      exact List.mem_singleton.mp he
    refine ⟨Or.inl rfl, tempCaller parseIncomplete, "C/cs0", _, _, _, rfl, rfl, rfl, rfl, rfl, ?_⟩
    exact Or.inl rfl

/-- A parameter index that is not declared, and a caller whose body is broken: the stated
conditions hold and the code proves nothing. -/
theorem proveClosedWorldTempParams_stricter :
    (Candidate [localCallee [], tempCaller false] ("R", 0) ∧
      ("R", 0) ∈ (statedRule Char.toLower [localCallee [], tempCaller false] callGraph
        (buildReverseCallGraph callGraph) []).lfp ∧
      proveClosedWorldTempParams Char.toLower 5 [localCallee [], tempCaller false] callGraph
        (buildReverseCallGraph callGraph) [] = some []) ∧
    Candidate [localCallee [{ index := 0, name := "Rec" }], tempCaller true] ("R", 0) ∧
      ("R", 0) ∈ (statedRule Char.toLower
        [localCallee [{ index := 0, name := "Rec" }], tempCaller true] callGraph
        (buildReverseCallGraph callGraph) []).lfp ∧
      proveClosedWorldTempParams Char.toLower 5
        [localCallee [{ index := 0, name := "Rec" }], tempCaller true] callGraph
        (buildReverseCallGraph callGraph) [] = some [] := by
  have hcandidate : ∀ ps b, Candidate [localCallee ps, tempCaller b] ("R", 0) := fun ps b =>
    ⟨localCallee ps, List.mem_cons_self, rfl, rfl, rfl, _, List.mem_cons_self, rfl, rfl, rfl⟩
  exact ⟨⟨hcandidate _ _, mem_statedRule_lfp _ _, by decide⟩, hcandidate _ _,
    mem_statedRule_lfp _ _, by decide⟩

/-- With the parameter declared and the caller whole, it is proven. -/
example : proveClosedWorldTempParams Char.toLower 5
    [localCallee [{ index := 0, name := "Rec" }], tempCaller false] callGraph
    (buildReverseCallGraph callGraph) [] = some [("R", 0)] := by decide

end AlSem.L5
