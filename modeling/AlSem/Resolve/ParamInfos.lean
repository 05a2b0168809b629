/-
# The parameters of a declaration

`candidate_param_infos` of `program/resolve/arg_dispatch.rs`: what a declared overload's parameters are read
as.  A declaration the parser recovered in, or a parameter without a type text or with one that is
undecided, leaves the whole overload out.

The type text of a parameter is kept beside its type (`normalize_type_text` of `program/sig_fp.rs`): a text
that is one keyword has that keyword as its type (`canonical_of_secrettext`).
-/
import AlSem.Resolve.ArgDispatch
import AlSem.Resolve.TypeTerms

namespace AlSem.Resolve

open Text

/-! ## 1. The words of a text -/

/-- `split_whitespace`. -/
def splitWhitespace : List Char → List (List Char)
  | [] => []
  | c :: cs =>
    if isWhitespace c then splitWhitespace cs
    else if cs.head?.all isWhitespace then [c] :: splitWhitespace cs
    else (splitWhitespace cs).modifyHead (c :: ·)

/-- `normalize_type_text`: the words of a text, one blank between them, without their case. -/
def TypeScope.normalizeTypeText (scope : TypeScope) (ty : String) : String :=
  scope.foldIdentifier ([' '].intercalate (splitWhitespace ty.toList))

theorem blank_of_splitWhitespace : ∀ {cs : List Char}, splitWhitespace cs = [] → Blank cs
  | [], _ => blank_nil
  | c :: cs, h => by
    unfold splitWhitespace at h
    split at h
    · rename_i hc
      intro d hd
      rcases List.mem_cons.mp hd with rfl | hd
      · exact hc
      · exact blank_of_splitWhitespace h d hd
    · rename_i hc
      split at h
      · exact absurd h (by simp)
      · rename_i hhead
        have hnil : splitWhitespace cs = [] := by simpa using h
        have hblank := blank_of_splitWhitespace hnil
        cases cs with
        | nil => simp at hhead
        | cons d cs => exact absurd (hblank d (by simp)) (by simpa using hhead)

/-- **The text of one word** has blanks around it. -/
theorem pad_of_splitWhitespace : ∀ {cs w : List Char}, splitWhitespace cs = [w] →
    ∃ b b', cs = b ++ w ++ b' ∧ Blank b ∧ Blank b' ∧ (cs.head?.all isWhitespace = false → b = [])
  | [], w, h => absurd h (by simp [splitWhitespace])
  | c :: cs, w, h => by
    unfold splitWhitespace at h
    split at h
    · rename_i hc
      obtain ⟨b, b', rfl, hb, hb', -⟩ := pad_of_splitWhitespace h
      refine ⟨c :: b, b', by simp, fun d hd => ?_, hb', by simp [hc]⟩
      rcases List.mem_cons.mp hd with rfl | hd
      · exact hc
      · exact hb d hd
    split at h
    · simp only [List.cons.injEq] at h
      obtain ⟨rfl, hnil⟩ := h
      exact ⟨[], cs, by simp, blank_nil, blank_of_splitWhitespace hnil, fun _ => rfl⟩
    · rename_i hhead
      cases hwords : splitWhitespace cs with
      | nil => simp [hwords] at h
      | cons w' ws =>
        simp only [hwords, List.modifyHead_cons, List.cons.injEq] at h
        obtain ⟨rfl, rfl⟩ := h
        obtain ⟨b, b', rfl, -, hb', hstart⟩ := pad_of_splitWhitespace hwords
        obtain rfl := hstart (by simpa using hhead)
        exact ⟨[], b', by simp, blank_nil, hb', fun _ => rfl⟩

/-! ## 2. A text of one keyword -/

/-- A scope in which only ASCII letters have an ASCII letter of the keyword as their lower case. -/
structure FoldScope extends TypeScope where
  fold_secrettext : ∀ c, foldChar c ∈ "secrettext".toList → c.toNat < 128

theorem toList_secrettext : "secrettext".toList = ['s', 'e', 'c', 'r', 'e', 't', 't', 'e', 'x', 't'] := rfl

def secrettextKeyword : Keyword where
  letters := ['s', 'e', 'c', 'r', 'e', 't', 't', 'e', 'x', 't']
  nonempty := by decide
  plain := forall_mem_of_all (by decide)
  objectFree := by decide
  noArray := by decide

/-- A text whose fold is the keyword spells it. -/
theorem FoldScope.spells_of_fold (scope : FoldScope) {cs : List Char}
    (h : scope.foldIdentifier cs = "secrettext") : Spells cs secrettextKeyword.letters := by
  unfold TypeScope.foldIdentifier at h
  split at h
  · have hlower := congrArg String.toList h
    rwa [String.toList_ofList, toList_secrettext] at hlower
  · rename_i hascii
    refine absurd ?_ hascii
    rw [List.all_eq_true]
    intro c hc
    have hfold := congrArg String.toList h
    rw [String.toList_ofList] at hfold
    exact decide_eq_true (scope.fold_secrettext c (hfold ▸ List.mem_map_of_mem hc))

theorem FoldScope.canonical_of_secrettext (scope : FoldScope) {ty : String}
    (h : scope.normalizeTypeText ty = "secrettext") :
    scope.dispatchCanonicalTypeText ty = .ok (some (.base "secrettext")) := by
  have hspells := scope.spells_of_fold h
  have hplain : ∀ c ∈ [' '].intercalate (splitWhitespace ty.toList), isWhitespace c = false :=
    fun c hc => (hspells.word.chars c hc).1
  -- two words would leave a blank between them
  cases hwords : splitWhitespace ty.toList with
  | nil =>
    rw [hwords] at hspells
    exact absurd hspells (by simp [Spells, secrettextKeyword, lowerAscii])
  | cons w ws =>
    cases ws with
    | cons w' ws =>
      rw [hwords] at hplain
      exact absurd (hplain ' ' (by simp [List.intercalate, List.intersperse])) (by decide)
    | nil =>
      rw [hwords] at hspells
      obtain ⟨b, b', hpad, hb, hb', -⟩ := pad_of_splitWhitespace hwords
      have hw : Spells w secrettextKeyword.letters := by simpa [List.intercalate] using hspells
      have hread : scope.dispatchCanonicalTypeText (String.ofList (b ++ w ++ b')) =
          .ok (some (TypeTerm.scalar secrettextKeyword none).canonical) :=
        (canonical_of_renders (.scalar secrettextKeyword none) (.word hw) hb hb').mpr rfl
      rwa [← hpad, String.ofList_toList] at hread

/-! ## 3. The parameters -/

/-- A declared parameter. -/
structure Param where
  ty : Option String
  byRef : Bool

/-- What is known of a declaration; `origin` is its range of bytes in the file. -/
structure RoutineMeta where
  parseIncomplete : Bool
  params : List Param
  virtualPath : String
  origin : ℕ × ℕ

/-- What a resolution reads of a declaration: all but where it stands. -/
def RoutineMeta.placeless (routine : RoutineMeta) : Bool × List Param :=
  (routine.parseIncomplete, routine.params)

/-- One parameter, seen from the object that declares it. -/
def FoldScope.paramInfo (scope : FoldScope) (ty : String) (byRef : Bool) :
    Except Stop (Option ParamDispatchInfo) :=
  match h : scope.dispatchCanonicalTypeText ty with
  | .error stop => .error stop
  | .ok none => .ok none
  | .ok (some canonical) => .ok (some {
      canonical
      exactText := scope.normalizeTypeText ty
      byRef
      secret := fun hs => by
        rw [scope.canonical_of_secrettext hs] at h
        simpa using h.symm })

/-- Every parameter, up to the first that is undecided. -/
def FoldScope.paramInfos (scope : FoldScope) : List Param → Except Stop (Option Candidate)
  | [] => .ok (some [])
  | p :: ps => do
    match p.ty with
    | none => return none
    | some ty =>
      match ← scope.paramInfo ty p.byRef with
      | none => return none
      | some info => return (← scope.paramInfos ps).map (info :: ·)

/-- **`candidate_param_infos`.** -/
def FoldScope.candidateParamInfos (scope : FoldScope) (routine : RoutineMeta) :
    Except Stop (Option Candidate) :=
  if routine.parseIncomplete then .ok none else scope.paramInfos routine.params

theorem FoldScope.candidateParamInfos_placeless (scope : FoldScope) {routine routine' : RoutineMeta}
    (h : routine'.placeless = routine.placeless) :
    scope.candidateParamInfos routine' = scope.candidateParamInfos routine := by
  obtain ⟨hparse, hparams⟩ := Prod.mk.inj h
  rw [candidateParamInfos, candidateParamInfos, hparse, hparams]

/-- A parameter that is read keeps its mode, its text and the type of its text. -/
theorem FoldScope.paramInfo_read {scope : FoldScope} {ty : String} {byRef : Bool}
    {info : ParamDispatchInfo} (h : scope.paramInfo ty byRef = .ok (some info)) :
    info.byRef = byRef ∧ info.exactText = scope.normalizeTypeText ty ∧
      scope.dispatchCanonicalTypeText ty = .ok (some info.canonical) := by
  unfold paramInfo at h
  split at h
  · exact absurd h (by simp)
  · exact absurd h (by simp)
  · rename_i canonical hread
    simp only [Except.ok.injEq, Option.some.injEq] at h
    rw [← h]
    exact ⟨rfl, rfl, hread⟩

/-- An overload that is read keeps its parameters, each as it is declared. -/
theorem FoldScope.paramInfos_read {scope : FoldScope} : ∀ {ps : List Param} {cand : Candidate},
    scope.paramInfos ps = .ok (some cand) →
      List.Forall₂ (fun p info => ∃ ty, p.ty = some ty ∧ scope.paramInfo ty p.byRef = .ok (some info))
        ps cand
  | [], cand, h => by
    simp only [paramInfos, Except.ok.injEq, Option.some.injEq] at h
    rw [← h]
    exact .nil
  | p :: ps, cand, h => by
    unfold paramInfos at h
    cases hty : p.ty with
    | none => simp [hty, pure, Except.pure] at h
    | some ty =>
      cases hinfo : scope.paramInfo ty p.byRef with
      | error stop => simp [hty, hinfo, bind, Except.bind] at h
      | ok read =>
        cases read with
        | none => simp [hty, hinfo, bind, Except.bind, pure, Except.pure] at h
        | some info =>
          cases hrest : scope.paramInfos ps with
          | error stop => simp [hty, hinfo, hrest, bind, Except.bind] at h
          | ok rest =>
            cases rest with
            | none => simp [hty, hinfo, hrest, bind, Except.bind, pure, Except.pure] at h
            | some infos =>
              simp only [hty, hinfo, hrest, bind, Except.bind, pure, Except.pure, Option.map_some,
                Except.ok.injEq, Option.some.injEq] at h
              rw [← h]
              exact .cons ⟨ty, hty, hinfo⟩ (paramInfos_read hrest)

end AlSem.Resolve
