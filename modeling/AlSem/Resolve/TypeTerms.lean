/-
# Type terms and their renderings

A declared type as a term, a base keyword with or without a length, or a generic type over other types, and
every way to write it: any letter case, any blanks around commas, brackets and the word `of`.

Terms have one canonical type each, and different ones but for a length that is no part of a generic
argument (`canonical_inj`).  A rendering is parsed to the canonical type of its term if no blank stands at
a length bracket inside a generic clause (`canonical_of_renders`): the first token of a generic argument ends at the
first blank, and a length that is cut there is lost.
-/
import AlSem.Resolve.TypeText
import AlSem.Lib.Blanks
import AlSem.Lib.Brackets

namespace AlSem.Resolve

open Text Brackets

/-! ## 1. Terms -/

/-- The keywords behind which a type names an object. -/
def objectKeywords : List String :=
  ["record", "codeunit", "page", "report", "query", "xmlport", "interface", "enum"]

/-- **A base keyword**, in lower case: letters and digits, and no word the parse reads otherwise. -/
@[ext] structure Keyword where
  letters : List Char
  nonempty : letters ≠ []
  plain : ∀ c ∈ letters, c.isLower = true ∨ c.isDigit = true
  objectFree : String.ofList letters ∉ objectKeywords
  noArray : String.ofList letters ≠ "array"

/-- The digits of a length. -/
@[ext] structure Digits where
  chars : List Char
  nonempty : chars ≠ []
  digits : ∀ c ∈ chars, c.isDigit = true

mutual

inductive TypeTerm where
  | scalar (base : Keyword) (length : Option Digits)
  | generic (base : Keyword) (args : TypeArgs)

/-- The arguments of a generic type, at least one. -/
inductive TypeArgs where
  | one (t : TypeTerm)
  | more (t : TypeTerm) (ts : TypeArgs)

end

mutual

/-- The identity of a term as a generic argument. -/
def TypeTerm.argType : TypeTerm → GenericArgType
  | .scalar k d => .scalar (String.ofList k.letters) (d.map fun d => String.ofList d.chars)
  | .generic k args => .generic (String.ofList k.letters) args.argTypes

def TypeArgs.argTypes : TypeArgs → List GenericArgType
  | .one t => [t.argType]
  | .more t ts => t.argType :: ts.argTypes

end

/-- **The canonical type of a term.** -/
def TypeTerm.canonical : TypeTerm → CanonicalArgType
  | .scalar k _ => .base (String.ofList k.letters)
  | .generic k args => .generic (String.ofList k.letters) args.argTypes

/-- The term without a length of its own. -/
def TypeTerm.unsized : TypeTerm → TypeTerm
  | .scalar k _ => .scalar k none
  | .generic k args => .generic k args

theorem keyword_inj {k k' : Keyword} (h : String.ofList k.letters = String.ofList k'.letters) :
    k = k' :=
  Keyword.ext (String.ofList_inj.mp h)

mutual

theorem argType_inj : ∀ t t' : TypeTerm, t.argType = t'.argType → t = t'
  | .scalar k d, .scalar k' d', h => by
    obtain ⟨hk, hd⟩ := GenericArgType.scalar.inj h
    have hd' : d = d' := by
      refine Option.map_injective (fun a b hab => ?_) hd
      exact Digits.ext (String.ofList_inj.mp hab)
    rw [keyword_inj hk, hd']
  | .generic k args, .generic k' args', h => by
    obtain ⟨hk, hargs⟩ := GenericArgType.generic.inj h
    rw [keyword_inj hk, argTypes_inj args args' hargs]
  | .scalar .., .generic .., h => nomatch h
  | .generic .., .scalar .., h => nomatch h

theorem argTypes_inj : ∀ ts ts' : TypeArgs, ts.argTypes = ts'.argTypes → ts = ts'
  | .one t, .one t', h => by
    rw [argType_inj t t' (List.cons.inj h).1]
  | .more t ts, .more t' ts', h => by
    obtain ⟨ht, hts⟩ := List.cons.inj h
    rw [argType_inj t t' ht, argTypes_inj ts ts' hts]
  | .one _, .more _ ts, h => by
    have := (List.cons.inj h).2
    cases ts <;> simp [TypeArgs.argTypes] at this
  | .more _ ts, .one _, h => by
    have := (List.cons.inj h).2
    cases ts <;> simp [TypeArgs.argTypes] at this

end

/-- **Different terms have different canonical types**, but for a length that is no argument's. -/
theorem canonical_inj (t t' : TypeTerm) : t.canonical = t'.canonical ↔ t.unsized = t'.unsized := by
  cases t <;> cases t' <;> simp only [TypeTerm.canonical, TypeTerm.unsized]
  · constructor
    · intro h
      rw [keyword_inj (CanonicalArgType.base.inj h)]
    · intro h
      rw [(TypeTerm.scalar.inj h).1]
  · simp
  · simp
  · constructor
    · intro h
      obtain ⟨hk, hargs⟩ := CanonicalArgType.generic.inj h
      rw [keyword_inj hk, argTypes_inj _ _ hargs]
    · intro h
      obtain ⟨rfl, rfl⟩ := TypeTerm.generic.inj h
      rfl

/-! ## 2. Renderings -/

/-- The letters in any case. -/
def Spells (w letters : List Char) : Prop := lowerAscii w = letters

/-- The first of some blanks is one byte wide. -/
def narrow (b : List Char) : Bool := b.head?.all fun c => c.utf8Size == 1

mutual

/-- **The renderings of a term**, between its first and last character.  The two flags say that the text is
read as the term when it is a generic argument, and when it is a whole type. -/
inductive Renders : Bool → Bool → TypeTerm → List Char → Prop
  | word {k w} : Spells w k.letters → Renders true true (.scalar k none) w
  | sized {k d w b₁ b₂ b₃} : Spells w k.letters → Blank b₁ → Blank b₂ → Blank b₃ →
      Renders (b₁ ++ b₂ ++ b₃).isEmpty (narrow (b₁ ++ b₂ ++ b₃)) (.scalar k (some d))
        (w ++ b₁ ++ ('[' :: (b₂ ++ d.chars ++ b₃ ++ [']'])))
  | generic {k args g w o r b₁ b₂ b₃ b₄} : Spells w k.letters → Blank b₁ → b₁ ≠ [] →
      Spells o ['o', 'f'] → Blank b₂ → Blank b₃ → RendersArgs g args r → Blank b₄ →
      Renders (narrow b₁ && g) (narrow b₁ && g) (.generic k args)
        (w ++ b₁ ++ (o ++ b₂ ++ ('[' :: (b₃ ++ r ++ b₄ ++ [']']))))

inductive RendersArgs : Bool → TypeArgs → List Char → Prop
  | one {a p t r} : Renders a p t r → RendersArgs a (.one t) r
  | more {a p t r g ts rs b b'} : Renders a p t r → Blank b → Blank b' → RendersArgs g ts rs →
      RendersArgs (a && g) (.more t ts) (r ++ b ++ ',' :: (b' ++ rs))

end

/-! ## 3. One word -/

/-- A word of the type language. -/
structure Word (w : List Char) : Prop where
  nonempty : w ≠ []
  chars : ∀ c ∈ w, isWhitespace c = false ∧ c ≠ '[' ∧ c ≠ ']' ∧ c ≠ ','

theorem word_range {c : Char} (h : c.toLower.isLower = true ∨ c.toLower.isDigit = true) :
    48 ≤ c.toNat ∧ c.toNat ≤ 57 ∨ 65 ≤ c.toNat ∧ c.toNat ≤ 90 ∨ 97 ≤ c.toNat ∧ c.toNat ≤ 122 := by
  have hupper : c.isUpper = decide (c.val ≥ 'A'.val ∧ c.val ≤ 'Z'.val) := rfl
  have hlower : c.isLower = (decide (c.val ≥ 'a'.val) && decide (c.val ≤ 'z'.val)) := rfl
  by_cases hu : c.isUpper = true
  · right; left
    rw [hupper] at hu
    simp only [decide_eq_true_eq, ge_iff_le, UInt32.le_iff_toNat_le] at hu
    exact hu
  · have hl : c.toLower = c := by
      rw [hupper, decide_eq_true_eq] at hu
      exact dif_neg hu
    rw [hl, hlower] at h
    simp only [Char.isDigit, Bool.and_eq_true, decide_eq_true_eq, ge_iff_le,
      UInt32.le_iff_toNat_le] at h
    rcases h with h | h
    · exact Or.inr (Or.inr h)
    · exact Or.inl h

theorem word_char {c : Char} (h : c.toLower.isLower = true ∨ c.toLower.isDigit = true) :
    isWhitespace c = false ∧ c ≠ '[' ∧ c ≠ ']' ∧ c ≠ ',' := by
  have hr := word_range h
  refine ⟨?_, ?_, ?_, ?_⟩
  · by_contra hne
    have hne := Bool.eq_true_of_not_eq_false hne
    simp only [isWhitespace, Bool.or_eq_true, Bool.and_eq_true, decide_eq_true_eq, beq_iff_eq] at hne
    omega
  all_goals
    rintro rfl
    revert hr
    decide

theorem Spells.word {w : List Char} {k : Keyword} (h : Spells w k.letters) : Word w := by
  refine ⟨?_, fun c hc => word_char (k.plain _ ?_)⟩
  · rintro rfl
    exact k.nonempty h.symm
  · rw [← h]
    exact List.mem_map_of_mem hc

theorem word_of {w : List Char} : Spells w ['o', 'f'] → Word w := by
  intro h
  refine ⟨fun hnil => ?_, fun c hc => word_char ?_⟩
  · subst hnil
    cases h
  have hmem : c.toLower ∈ ['o', 'f'] := by
    rw [← h]
    exact List.mem_map_of_mem hc
  rcases List.mem_cons.mp hmem with h' | h'
  · rw [h']
    exact Or.inl (by decide)
  · rw [List.mem_singleton.mp h']
    exact Or.inl (by decide)

theorem digit_lower {c : Char} (h : c.isDigit = true) : c.toLower = c := by
  refine dif_neg fun hu => ?_
  simp only [Char.isDigit, Bool.and_eq_true, decide_eq_true_eq, ge_iff_le,
    UInt32.le_iff_toNat_le] at h hu
  have h57 : ('9'.val).toNat = 57 := rfl
  have h65 : ('A'.val).toNat = 65 := rfl
  omega

theorem Digits.word (d : Digits) : Word d.chars :=
  ⟨d.nonempty, fun c hc => word_char (Or.inr (by rw [digit_lower (d.digits c hc)]; exact d.digits c hc))⟩

theorem Word.solid {w : List Char} (h : Word w) : Solid w :=
  solid_of_all h.nonempty fun c hc => (h.chars c hc).1

theorem Word.piece {w : List Char} (h : Word w) : Piece '[' ']' ',' 0 w :=
  piece_of_notMem (fun hc => (h.chars _ hc).2.1 rfl) (fun hc => (h.chars _ hc).2.2.1 rfl)
    fun hc => (h.chars _ hc).2.2.2 rfl

theorem blank_char {c : Char} (h : isWhitespace c = true) : c ≠ '[' ∧ c ≠ ']' ∧ c ≠ ',' := by
  refine ⟨?_, ?_, ?_⟩
  all_goals
    rintro rfl
    exact absurd h (by decide)

theorem piece_of_blank {b : List Char} (h : Blank b) : Piece '[' ']' ',' 0 b :=
  piece_of_notMem (fun hc => (blank_char (h _ hc)).1 rfl) (fun hc => (blank_char (h _ hc)).2.1 rfl)
    fun hc => (blank_char (h _ hc)).2.2 rfl

/-- A text without white space is one token. -/
theorem splitFirst_token {t : List Char} (hne : t ≠ []) (h : ∀ c ∈ t, isWhitespace c = false) :
    splitFirst t = .ok (t, []) := by
  unfold splitFirst
  dsimp only
  rw [(solid_of_all hne h).trim, List.dropWhile_eq_nil_iff.mpr fun c hc => by rw [h c hc]; rfl]

/-- **The first token ends at the first blank.**  Behind a wide one the text is not read. -/
theorem splitFirst_blank {t b y : List Char} (hne : t ≠ []) (h : ∀ c ∈ t, isWhitespace c = false)
    (hb : Blank b) (hbne : b ≠ []) (hy : Solid y) :
    splitFirst (t ++ b ++ y) = if narrow b = true then .ok (t, y) else .error .charBoundary := by
  have htoken : ∀ c ∈ t, (!isWhitespace c) = true := fun c hc => by
    rw [h c hc]
    rfl
  cases b with
  | nil => exact absurd rfl hbne
  | cons c b =>
    have hc : ¬ (!isWhitespace c) = true := by
      rw [hb c List.mem_cons_self]
      exact Bool.false_ne_true
    have hsplit : t ++ (c :: b) ++ y = t ++ c :: (b ++ y) := by simp
    unfold splitFirst firstToken
    dsimp only
    rw [((solid_of_all hne h).join hy (c :: b)).trim, hsplit,
      List.dropWhile_append_of_pos htoken, List.takeWhile_append_of_pos htoken,
      List.dropWhile_cons_of_neg (p := fun c => !isWhitespace c) hc,
      List.takeWhile_cons_of_neg (p := fun c => !isWhitespace c) hc, List.append_nil]
    have hrest : trimList (b ++ y) = y := by
      have := trimList_pad (fun d hd => hb d (List.mem_cons_of_mem _ hd)) hy blank_nil
      rwa [List.append_nil] at this
    simp [narrow, hrest]

/-! ## 4. The shape of a rendering -/

/-- The arguments of a rendering, each by itself. -/
inductive ArgTexts : Bool → TypeArgs → List (List Char) → Prop
  | one {a p t r} : Renders a p t r → ArgTexts a (.one t) [r]
  | more {a p t r g ts rs} : Renders a p t r → ArgTexts g ts rs → ArgTexts (a && g) (.more t ts) (r :: rs)

theorem bracket_solid : Solid ['['] ∧ Solid [']'] :=
  ⟨solid_singleton (by decide), solid_singleton (by decide)⟩

/-- A bracket pair around some text. -/
theorem pair_solid (x : List Char) : Solid ('[' :: (x ++ [']'])) := by
  have := bracket_solid.1.join bracket_solid.2 x
  simpa using this

mutual

theorem renders_shape : ∀ (t : TypeTerm) {a p : Bool} {r : List Char}, Renders a p t r →
    Solid r ∧ Piece '[' ']' ',' 0 r
  | .scalar k none, _, _, _, h => by
    cases h with
    | word hw => exact ⟨hw.word.solid, hw.word.piece⟩
  | .scalar k (some d), _, _, _, h => by
    cases h with
    | @sized _ _ w b₁ b₂ b₃ hw hb₁ hb₂ hb₃ =>
      refine ⟨hw.word.solid.join (pair_solid _) b₁, (hw.word.piece.append (piece_of_blank hb₁)).append ?_⟩
      refine Balanced.piece (by decide) (by decide) (by decide) ?_
      exact (((piece_of_blank hb₂).append d.word.piece).append (piece_of_blank hb₃)).balanced
  | .generic k args, _, _, _, h => by
    cases h with
    | @generic _ _ g w o r b₁ b₂ b₃ b₄ hw hb₁ _ ho hb₂ hb₃ hr hb₄ =>
      obtain ⟨-, hbal, -⟩ := args_shape args hr
      have hclause : Solid (o ++ b₂ ++ ('[' :: (b₃ ++ r ++ b₄ ++ [']']))) :=
        (word_of ho).solid.join (pair_solid _) b₂
      refine ⟨hw.word.solid.join hclause b₁, (hw.word.piece.append (piece_of_blank hb₁)).append ?_⟩
      refine ((word_of ho).piece.append (piece_of_blank hb₂)).append ?_
      refine Balanced.piece (by decide) (by decide) (by decide) ?_
      exact ((piece_of_blank hb₃).balanced.append hbal).append (piece_of_blank hb₄).balanced

theorem args_shape : ∀ (ts : TypeArgs) {g : Bool} {r : List Char}, RendersArgs g ts r →
    Solid r ∧ Balanced '[' ']' r ∧
      ∃ q qs, IsSplit '[' ']' ',' (q :: qs) r ∧ ArgTexts g ts ((q :: qs).map trimList)
  | .one t, _, r, h => by
    cases h with
    | one hr =>
      obtain ⟨hsolid, hpiece⟩ := renders_shape t hr
      refine ⟨hsolid, hpiece.balanced, r, [], isSplit_singleton hpiece, ?_⟩
      rw [List.map_singleton, hsolid.trim]
      exact .one hr
  | .more t ts, _, _, h => by
    cases h with
    | @more a p _ r g _ rs b b' hr hb hb' hrs =>
      obtain ⟨hsolid, hpiece⟩ := renders_shape t hr
      obtain ⟨hsolids, hbal, q, qs, hsplit, htexts⟩ := args_shape ts hrs
      have hcomma : Balanced '[' ']' [','] := balanced_of_notMem (by decide) (by decide)
      refine ⟨?_, ?_, r ++ b, (b' ++ q) :: qs, ?_, ?_⟩
      · have := hsolid.join hsolids (b ++ ',' :: b')
        simpa using this
      · have := ((hpiece.append (piece_of_blank hb)).balanced.append hcomma).append
          ((piece_of_blank hb').balanced.append hbal)
        simpa using this
      · exact (hsplit.pad (piece_of_blank hb')).cons (hpiece.append (piece_of_blank hb))
      · have htrim : trimList (r ++ b) = r := by
          have := trimList_pad blank_nil hsolid hb
          rwa [List.nil_append] at this
        rw [List.map_cons, htrim, List.map_cons, hb'.trim_append]
        exact .more hr htexts

end

/-! ## 5. Generic arguments -/

theorem splitCommas_eq (d : ℕ) (cs : List Char) :
    splitCommas d cs = Brackets.split '[' ']' ',' d cs := by
  induction cs generalizing d with
  | nil => rfl
  | cons c cs ih => simp only [splitCommas, Brackets.split, ih]

/-- The trimmed pieces, where none is blank. -/
theorem splitTopLevelCommas_of_isSplit {q : List Char} {qs : List (List Char)} {inner : List Char}
    (h : IsSplit '[' ']' ',' (q :: qs) inner) :
    splitTopLevelCommas inner =
      if ((q :: qs).map trimList).any List.isEmpty then none else some ((q :: qs).map trimList) := by
  rw [splitTopLevelCommas, splitCommas_eq, split_of_isSplit (by decide) (by decide) h]
  rfl

variable {scope : TypeScope}

/-- A text behind whose first word no object is named. -/
structure Plain (text first rest : List Char) : Prop where
  nonblank : trimList text ≠ []
  split : splitFirst text = .ok (first, rest)
  objectFree : String.ofList (lowerAscii (stripLength first)) ∉ objectKeywords

variable {text first rest : List Char}

theorem Plain.classify (h : Plain text first rest) : scope.classifyTypeText text = .ok .other := by
  have hfree := h.objectFree
  unfold TypeScope.classifyTypeText
  simp only [if_neg h.nonblank, h.split, bind, Except.bind, pure, Except.pure]
  generalize String.ofList (lowerAscii (stripLength first)) = word at hfree ⊢
  split
  all_goals first | rfl | exact absurd (by decide) hfree

/-- What is read behind the first word of a plain text. -/
theorem Plain.splitGenericClause (h : Plain text first rest) :
    splitGenericClause text = .ok (first, (afterOfWord rest).map clauseInner) := by
  unfold Resolve.splitGenericClause
  simp only [h.split, bind, Except.bind, pure, Except.pure]

/-- A plain text as a generic argument. -/
theorem Plain.parseGenericArg (h : Plain text first rest) (fuel : ℕ) :
    scope.parseGenericArg (fuel + 1) text =
      match (afterOfWord rest).map clauseInner with
      | none => .ok (some (.scalar (baseKeyword text) (extractLengthSuffix first)))
      | some none => .ok none
      | some (some inner) => (parseArgs (scope.parseGenericArg fuel) inner).map
          (·.map (.generic (baseKeyword first))) := by
  rw [TypeScope.parseGenericArg]
  simp only [if_neg h.nonblank, h.classify, h.splitGenericClause, TypeScope.objectOf, bind, Except.bind,
    pure, Except.pure]
  rcases (afterOfWord rest).map clauseInner with _ | _ | inner
  · rfl
  · rfl
  · dsimp only
    cases parseArgs (scope.parseGenericArg fuel) inner <;> rfl

/-- A plain text as a whole type. -/
theorem Plain.canonical (h : Plain text first rest) (harray : splitArrayType text = .notArray)
    (fuel : ℕ) :
    scope.canonical (fuel + 1) text =
      match (afterOfWord rest).map clauseInner with
      | none => .ok (some (.base (baseKeyword text)))
      | some none => .ok none
      | some (some inner) => (parseArgs (scope.parseGenericArg fuel) inner).map
          (·.map (.generic (baseKeyword first))) := by
  rw [TypeScope.canonical]
  simp only [if_neg h.nonblank, harray, h.classify, h.splitGenericClause, TypeScope.objectOf, bind,
    Except.bind, pure, Except.pure]
  rcases (afterOfWord rest).map clauseInner with _ | _ | inner
  · rfl
  · rfl
  · dsimp only
    cases parseArgs (scope.parseGenericArg fuel) inner <;> rfl

/-- A text that is cut inside a character. -/
theorem classifyTypeText_wide (hne : trimList text ≠ []) {e : Stop} (h : splitFirst text = .error e) :
    scope.classifyTypeText text = .error e := by
  unfold TypeScope.classifyTypeText
  simp only [if_neg hne, h, bind, Except.bind]

theorem parseGenericArg_wide (hne : trimList text ≠ []) {e : Stop} (h : splitFirst text = .error e)
    (fuel : ℕ) : scope.parseGenericArg (fuel + 1) text = .error e := by
  rw [TypeScope.parseGenericArg]
  simp only [if_neg hne, classifyTypeText_wide hne h, bind, Except.bind]

theorem canonical_wide (hne : trimList text ≠ []) {e : Stop} (h : splitFirst text = .error e)
    (harray : splitArrayType text = .notArray) (fuel : ℕ) :
    scope.canonical (fuel + 1) text = .error e := by
  rw [TypeScope.canonical]
  simp only [if_neg hne, harray, classifyTypeText_wide hne h, bind, Except.bind]

theorem parseAll_eq_some_iff {α : Type} {f : List Char → Except Stop (Option α)}
    {ps : List (List Char)} {vs : List α} :
    parseAll f ps = .ok (some vs) ↔ List.Forall₂ (fun p v => f p = .ok (some v)) ps vs := by
  induction ps generalizing vs with
  | nil =>
    cases vs with
    | nil => exact ⟨fun _ => .nil, fun _ => rfl⟩
    | cons v vs => exact ⟨fun h => (nomatch h), fun h => (nomatch h)⟩
  | cons p ps ih =>
    simp only [parseAll, bind, Except.bind, pure, Except.pure]
    rcases hp : f p with e | _ | a
    · refine ⟨fun h => (nomatch h), fun h => ?_⟩
      cases h with
      | cons h _ => rw [hp] at h; cases h
    · refine ⟨fun h => (nomatch h), fun h => ?_⟩
      cases h with
      | cons h _ => rw [hp] at h; cases h
    · dsimp only
      constructor
      · intro h
        rcases hrest : parseAll f ps with e | _ | rest <;> rw [hrest] at h
        · cases h
        · cases h
        · obtain rfl := Option.some.inj (Except.ok.inj h)
          exact .cons hp (ih.mp hrest)
      · rintro (_ | ⟨hv, hvs⟩)
        obtain rfl := Option.some.inj (Except.ok.inj (hp.symm.trans hv))
        rw [ih.mpr hvs]
        rfl

/-- The keyword of a text is that of its first token. -/
theorem baseKeyword_eq (h : splitFirst text = .ok (first, rest)) :
    baseKeyword text = String.ofList (lowerAscii (stripLength first)) := by
  unfold splitFirst at h
  dsimp only at h
  unfold baseKeyword firstToken
  split at h
  · rename_i hnil
    obtain ⟨hfirst, -⟩ := Prod.mk.inj (Except.ok.inj h)
    have hall : (trimList text).takeWhile (fun c => !isWhitespace c) = trimList text :=
      List.takeWhile_eq_self_iff.mpr (List.dropWhile_eq_nil_iff.mp hnil)
    rw [hall, hfirst]
  · split at h
    · obtain ⟨hfirst, -⟩ := Prod.mk.inj (Except.ok.inj h)
      rw [← hfirst]
      rfl
    · cases h

theorem stripLength_word {w : List Char} (h : Word w) : stripLength w = w :=
  List.takeWhile_eq_self_iff.mpr fun c hc => by simpa using (h.chars c hc).2.1

theorem stripLength_bracket {w : List Char} (h : Word w) (x : List Char) :
    stripLength (w ++ '[' :: x) = w := by
  have hw : ∀ c ∈ w, (!(c == '[')) = true := fun c hc => by simpa using (h.chars c hc).2.1
  unfold stripLength
  rw [List.takeWhile_append_of_pos hw]
  simp

theorem extractLengthSuffix_word {w : List Char} (h : Word w) : extractLengthSuffix w = none := by
  have hw : ∀ c ∈ w, (!(c == '[')) = true := fun c hc => by simpa using (h.chars c hc).2.1
  unfold extractLengthSuffix
  rw [List.dropWhile_eq_nil_iff.mpr hw]

theorem extractLengthSuffix_bracket {w : List Char} (h : Word w) (x : List Char) :
    extractLengthSuffix (w ++ '[' :: x) =
      if x.getLast? = some ']' then some (String.ofList (lowerAscii (trimList x.dropLast)))
      else none := by
  have hw : ∀ c ∈ w, (!(c == '[')) = true := fun c hc => by simpa using (h.chars c hc).2.1
  unfold extractLengthSuffix
  rw [List.dropWhile_append_of_pos hw]
  simp

theorem afterOfWord_none {c : Char} (h : c.toLower ≠ 'o') (y : List Char) :
    afterOfWord (c :: y) = none := by
  cases y with
  | nil => rfl
  | cons b y =>
    rw [afterOfWord, if_neg]
    exact fun hof => h hof.1

/-- A length without blanks is of the first token. -/
theorem sized_token {w : List Char} (hw : Word w) (d : Digits) :
    splitFirst (w ++ '[' :: (d.chars ++ [']'])) = .ok (w ++ '[' :: (d.chars ++ [']']), []) := by
  refine splitFirst_token (by simp) fun c hc => ?_
  simp only [List.mem_append, List.mem_cons, List.not_mem_nil, or_false] at hc
  rcases hc with hc | rfl | hc | rfl
  · exact (hw.chars c hc).1
  · decide
  · exact (d.word.chars c hc).1
  · decide

/-- **A length that a blank cuts.**  The first token ends at the blank and has no length. -/
theorem sized_cut {w : List Char} (hw : Word w) (d : Digits) {b₁ b₂ b₃ : List Char} (hb₁ : Blank b₁)
    (hb₂ : Blank b₂) (hb₃ : Blank b₃) (hne : b₁ ++ b₂ ++ b₃ ≠ []) :
    ∃ t b y, w ++ b₁ ++ ('[' :: (b₂ ++ d.chars ++ b₃ ++ [']'])) = t ++ b ++ y ∧
      (t ≠ [] ∧ ∀ c ∈ t, isWhitespace c = false) ∧ (Blank b ∧ b ≠ []) ∧
      narrow b = narrow (b₁ ++ b₂ ++ b₃) ∧ Solid y ∧ stripLength t = w ∧
      extractLengthSuffix t = none ∧ afterOfWord y = none := by
  have hchars : ∀ c ∈ w, isWhitespace c = false := fun c hc => (hw.chars c hc).1
  have hopen : ∀ c ∈ w ++ ['['], isWhitespace c = false := fun c hc => by
    rcases List.mem_append.mp hc with hc | hc
    · exact hchars c hc
    · rw [List.mem_singleton.mp hc]
      decide
  cases b₁ with
  | cons c b₁ =>
    refine ⟨w, c :: b₁, '[' :: (b₂ ++ d.chars ++ b₃ ++ [']']), rfl, ⟨hw.nonempty, hchars⟩,
      ⟨hb₁, List.cons_ne_nil _ _⟩, rfl, pair_solid _, stripLength_word hw,
      extractLengthSuffix_word hw, afterOfWord_none (by decide) _⟩
  | nil =>
    cases b₂ with
    | cons c b₂ =>
      refine ⟨w ++ ['['], c :: b₂, d.chars ++ b₃ ++ [']'], by simp, ⟨by simp, hopen⟩,
        ⟨hb₂, List.cons_ne_nil _ _⟩, rfl, d.word.solid.join bracket_solid.2 b₃,
        stripLength_bracket hw [], extractLengthSuffix_bracket hw [], ?_⟩
      cases hd : d.chars with
      | nil => exact absurd hd d.nonempty
      | cons e es =>
        refine afterOfWord_none ?_ _
        have he := d.digits e (by rw [hd]; exact List.mem_cons_self)
        rw [digit_lower he]
        rintro rfl
        exact absurd he (by decide)
    | nil =>
      refine ⟨w ++ '[' :: d.chars, b₃, [']'], by simp, ⟨by simp, fun c hc => ?_⟩,
        ⟨hb₃, by simpa using hne⟩, rfl, bracket_solid.2, stripLength_bracket hw _, ?_, rfl⟩
      · rw [List.append_cons] at hc
        rcases List.mem_append.mp hc with hc | hc
        · exact hopen c hc
        · exact (d.word.chars c hc).1
      · rw [extractLengthSuffix_bracket hw, if_neg]
        intro hlast
        have hmem := List.mem_of_getLast? hlast
        exact (d.word.chars _ hmem).2.2.1 rfl

theorem lowerAscii_digits (d : Digits) : lowerAscii d.chars = d.chars :=
  (List.map_congr_left fun c hc => digit_lower (d.digits c hc)).trans (List.map_id' _)

/-- A length without blanks. -/
theorem extractLengthSuffix_digits {w : List Char} (hw : Word w) (d : Digits) :
    extractLengthSuffix (w ++ '[' :: (d.chars ++ [']'])) = some (String.ofList d.chars) := by
  rw [extractLengthSuffix_bracket hw, if_pos (by simp), List.dropLast_concat, d.word.solid.trim,
    lowerAscii_digits]

/-- What is behind the word `of`. -/
theorem afterOfWord_clause {o b x : List Char} (ho : Spells o ['o', 'f']) (hb : Blank b) :
    afterOfWord (o ++ b ++ ('[' :: x)) = some ('[' :: x) := by
  obtain ⟨c, o, rfl, hc, ho⟩ := List.map_eq_cons_iff.mp ho
  obtain ⟨d, o, rfl, hd, ho⟩ := List.map_eq_cons_iff.mp ho
  obtain rfl := List.map_eq_nil_iff.mp ho
  have hhead : (b ++ '[' :: x).head?.all (fun c => isWhitespace c || c == '[') = true := by
    cases b with
    | nil => rfl
    | cons e b => simp [hb e List.mem_cons_self]
  have hcons : [c, d] ++ b ++ ('[' :: x) = c :: d :: (b ++ '[' :: x) := by simp
  rw [hcons, afterOfWord, if_pos ⟨hc, hd, hhead⟩, hb.trimStart]
  rfl

theorem clauseInner_pair (x : List Char) : clauseInner ('[' :: (x ++ [']'])) = some (trimList x) := by
  unfold clauseInner
  rw [if_pos]
  · simp
  · refine ⟨by simp, rfl, ?_⟩
    rw [← List.cons_append, List.getLast?_concat]

/-- The first token of a generic type and the rest of its text. -/
theorem generic_split {w o b₁ : List Char} (hw : Word w) (hb₁ : Blank b₁) (hne : b₁ ≠ [])
    (ho : Spells o ['o', 'f']) (b₂ x : List Char) :
    splitFirst (w ++ b₁ ++ (o ++ b₂ ++ ('[' :: (x ++ [']'])))) =
      if narrow b₁ = true then .ok (w, o ++ b₂ ++ ('[' :: (x ++ [']']))) else .error .charBoundary :=
  splitFirst_blank hw.nonempty (fun c hc => (hw.chars c hc).1) hb₁ hne
    ((word_of ho).solid.join (pair_solid _) b₂)

theorem Spells.free {w : List Char} {k : Keyword} (h : Spells w k.letters) :
    String.ofList (lowerAscii w) ∉ objectKeywords := by
  rw [h]
  exact k.objectFree

theorem Spells.keyword {w : List Char} {k : Keyword} (h : Spells w k.letters) :
    baseKeyword w = String.ofList k.letters := by
  rw [baseKeyword_eq (splitFirst_token h.word.nonempty fun c hc => (h.word.chars c hc).1),
    stripLength_word h.word, h]

/-- One way to read every text: its first token and rest, or the character it is cut in. -/
theorem Solid.trim_ne_nil {x : List Char} (h : Solid x) : trimList x ≠ [] := by
  rw [h.trim]
  exact h.ne_nil

/-- A type is made of its arguments, and of no others. -/
theorem map_generic_iff {β : Type} {make : List GenericArgType → β} (h : ∀ x y, make x = make y → x = y)
    {result : Except Stop (Option (List GenericArgType))} {args : List GenericArgType} :
    result.map (·.map make) = .ok (some (make args)) ↔ result = .ok (some args) := by
  rcases result with e | _ | vs
  · exact iff_of_false (fun h => nomatch h) fun h => nomatch h
  · exact iff_of_false (fun h => nomatch h) fun h => nomatch h
  · simp only [Except.map, Option.map_some, Except.ok.injEq, Option.some.injEq]
    exact ⟨h vs args, congrArg make⟩

/-- No argument of a rendering is blank. -/
theorem ArgTexts.all_nonempty {g : Bool} {ts : TypeArgs} {texts : List (List Char)}
    (h : ArgTexts g ts texts) : texts.any List.isEmpty = false := by
  induction h with
  | one hr => simpa using (renders_shape _ hr).1.ne_nil
  | more hr _ ih => simpa [ih] using (renders_shape _ hr).1.ne_nil

/-- The arguments between the brackets of a clause, when the arguments on their own are read. -/
theorem clause_args_of {ts : TypeArgs} {fuel : ℕ}
    (hargs : ∀ {g : Bool} {texts : List (List Char)}, ArgTexts g ts texts →
      (∀ x ∈ texts, x.length < fuel) →
        (parseAll (scope.parseGenericArg fuel) texts = .ok (some ts.argTypes) ↔ g = true))
    {g : Bool} {r b b' : List Char} (hr : RendersArgs g ts r) (hb : Blank b) (hb' : Blank b')
    (hfuel : r.length < fuel) :
    parseArgs (scope.parseGenericArg fuel) (trimList (b ++ r ++ b')) = .ok (some ts.argTypes) ↔
      g = true := by
  obtain ⟨hsolid, -, q, qs, hparts, htexts⟩ := args_shape ts hr
  rw [trimList_pad hb hsolid hb', parseArgs, splitTopLevelCommas_of_isSplit hparts,
    htexts.all_nonempty, if_neg Bool.false_ne_true]
  refine hargs htexts fun x hx => ?_
  obtain ⟨y, hy, rfl⟩ := List.mem_map.mp hx
  have hle := length_trimList_le y
  have hle' := hparts.length_le hy
  omega

mutual

/-- **A rendering is read as its term**, as a generic argument. -/
theorem arg_of_renders : ∀ (t : TypeTerm) {a p : Bool} {r : List Char}, Renders a p t r →
    ∀ fuel, r.length < fuel → (scope.parseGenericArg fuel r = .ok (some t.argType) ↔ a = true)
  | _, _, _, _, _, 0, hfuel => absurd hfuel (Nat.not_lt_zero _)
  | .scalar k none, _, _, r, h, fuel + 1, _ => by
    cases h with
    | word hw =>
      have hsplit := splitFirst_token hw.word.nonempty fun c hc => (hw.word.chars c hc).1
      have hplain : Plain r r [] :=
        ⟨Solid.trim_ne_nil hw.word.solid, hsplit, by rw [stripLength_word hw.word]; exact hw.free⟩
      rw [hplain.parseGenericArg, hw.keyword, extractLengthSuffix_word hw.word]
      exact iff_of_true rfl rfl
  | .scalar k (some d), _, _, _, h, fuel + 1, _ => by
    have hshape := (renders_shape _ h).1
    cases h with
    | @sized _ _ w b₁ b₂ b₃ hw hb₁ hb₂ hb₃ =>
      by_cases hne : b₁ ++ b₂ ++ b₃ = []
      · obtain ⟨hne', rfl⟩ := List.append_eq_nil_iff.mp hne
        obtain ⟨rfl, rfl⟩ := List.append_eq_nil_iff.mp hne'
        have hsplit := sized_token hw.word d
        have hplain : Plain (w ++ '[' :: (d.chars ++ [']'])) (w ++ '[' :: (d.chars ++ [']'])) [] :=
          ⟨by simpa using Solid.trim_ne_nil hshape, hsplit, by
            rw [stripLength_bracket hw.word]
            exact hw.free⟩
        simp only [List.append_nil, List.nil_append]
        rw [hplain.parseGenericArg, baseKeyword_eq hsplit, stripLength_bracket hw.word, hw,
          extractLengthSuffix_digits hw.word]
        exact iff_of_true rfl rfl
      · obtain ⟨t, b, y, htext, ⟨htne, htchars⟩, ⟨hb, hbne⟩, -, hy, hstrip, hlength, hof⟩ :=
          sized_cut hw.word d hb₁ hb₂ hb₃ hne
        rw [htext] at hshape ⊢
        have hsplit := splitFirst_blank htne htchars hb hbne hy
        refine iff_of_false ?_ (by simpa [List.isEmpty_iff] using hne)
        by_cases hnarrow : narrow b = true
        · rw [if_pos hnarrow] at hsplit
          have hplain : Plain (t ++ b ++ y) t y :=
            ⟨Solid.trim_ne_nil hshape, hsplit, by rw [hstrip]; exact hw.free⟩
          rw [hplain.parseGenericArg, hof, hlength]
          simp [TypeTerm.argType]
        · rw [if_neg hnarrow] at hsplit
          rw [parseGenericArg_wide (Solid.trim_ne_nil hshape) hsplit]
          exact fun h => nomatch h
  | .generic k args, _, _, _, h, fuel + 1, hfuel => by
    have hshape := (renders_shape _ h).1
    cases h with
    | @generic _ _ g w o r b₁ b₂ b₃ b₄ hw hb₁ hne ho hb₂ hb₃ hr hb₄ =>
      have hsplit := generic_split hw.word hb₁ hne ho b₂ (b₃ ++ r ++ b₄)
      by_cases hnarrow : narrow b₁ = true
      · rw [if_pos hnarrow] at hsplit
        have hplain : Plain _ w _ :=
          ⟨Solid.trim_ne_nil hshape, hsplit, by rw [stripLength_word hw.word]; exact hw.free⟩
        simp only [List.length_append, List.length_cons] at hfuel
        rw [hplain.parseGenericArg, afterOfWord_clause ho hb₂, Option.map_some, clauseInner_pair,
          hw.keyword, hnarrow, Bool.true_and]
        refine (map_generic_iff fun x y hxy => (GenericArgType.generic.inj hxy).2).trans ?_
        refine clause_args_of (fun htexts hlt => ?_) hr hb₃ hb₄ (by omega)
        exact args_of_texts args htexts fuel hlt
      · rw [if_neg hnarrow] at hsplit
        rw [parseGenericArg_wide (Solid.trim_ne_nil hshape) hsplit]
        exact iff_of_false (fun h => nomatch h) (by simp [hnarrow])

theorem args_of_texts : ∀ (ts : TypeArgs) {g : Bool} {texts : List (List Char)}, ArgTexts g ts texts →
    ∀ fuel, (∀ x ∈ texts, x.length < fuel) →
      (parseAll (scope.parseGenericArg fuel) texts = .ok (some ts.argTypes) ↔ g = true)
  | .one t, _, _, h, fuel, hfuel => by
    cases h with
    | one hr =>
      rw [parseAll_eq_some_iff, ← arg_of_renders t hr fuel (hfuel _ List.mem_cons_self)]
      exact ⟨fun h => by cases h with | cons h _ => exact h, fun h => .cons h .nil⟩
  | .more t ts, _, _, h, fuel, hfuel => by
    cases h with
    | @more a p _ r g _ rs hr hrs =>
      have hrest := args_of_texts ts hrs fuel fun x hx => hfuel x (List.mem_cons_of_mem _ hx)
      have hfirst := arg_of_renders t hr fuel (hfuel _ List.mem_cons_self)
      rw [parseAll_eq_some_iff] at hrest ⊢
      rw [Bool.and_eq_true, ← hfirst, ← hrest]
      exact ⟨fun h => by cases h with | cons h hs => exact ⟨h, hs⟩, fun h => .cons h.1 h.2⟩

end

/-- The arguments between the brackets of a clause. -/
theorem clause_args {ts : TypeArgs} {g : Bool} {r b b' : List Char} (hr : RendersArgs g ts r)
    (hb : Blank b) (hb' : Blank b') {fuel : ℕ} (hfuel : r.length < fuel) :
    parseArgs (scope.parseGenericArg fuel) (trimList (b ++ r ++ b')) = .ok (some ts.argTypes) ↔
      g = true :=
  clause_args_of (fun htexts hlt => args_of_texts ts htexts fuel hlt) hr hb hb' hfuel

/-! ## 6. Whole types -/

/-- A text that does not go on after its first word in a word of its own is no array. -/
theorem splitArrayType_word {w rest : List Char} (hw : Word w)
    (harray : String.ofList (lowerAscii w) ≠ "array")
    (hrest : ∀ c, rest.head? = some c → isWhitespace c = true ∨ c = '[')
    (htext : trimList text = w ++ rest) : splitArrayType text = .notArray := by
  unfold splitArrayType
  dsimp only
  rw [htext]
  by_cases h5 : lowerAscii ((w ++ rest).take 5) = "array".toList
  · rw [if_pos h5]
    have hlen : 5 ≤ w.length := by
      by_contra hlt
      have hcount := congrArg List.length h5
      cases rest with
      | nil =>
        simp only [lowerAscii, List.length_map, List.length_take, List.append_nil] at hcount
        have h : "array".toList.length = 5 := rfl
        omega
      | cons c rest =>
        have hc : c.toLower ∈ "array".toList := by
          rw [← h5]
          refine List.mem_map_of_mem (List.mem_take_iff_getElem.mpr ⟨w.length, ?_, ?_⟩)
          · simp only [List.length_append, List.length_cons]
            omega
          · simp
        rcases hrest c rfl with hws | rfl
        · have hl : ∀ e ∈ "array".toList, e.isLower = true ∨ e.isDigit = true := forall_mem_of_all (by decide)
          rw [(word_char (hl _ hc)).1] at hws
          cases hws
        · revert hc
          decide
    rw [List.drop_append_of_le_length hlen]
    rw [List.take_append_of_le_length hlen] at h5
    cases hdrop : w.drop 5 with
    | nil =>
      have htake : w.take 5 = w := List.take_of_length_le (List.drop_eq_nil_iff.mp hdrop)
      rw [htake] at h5
      exact absurd (by rw [h5]; rfl) harray
    | cons c cs =>
      have hc := hw.chars c (List.mem_of_mem_drop (by rw [hdrop]; exact List.mem_cons_self))
      have hstart : trimStartList (c :: cs ++ rest) = c :: cs ++ rest :=
        List.dropWhile_cons_of_neg (by rw [hc.1]; exact Bool.false_ne_true)
      rw [hstart]
      split
      · rename_i heq
        exact absurd (List.cons.inj heq).1 hc.2.1
      · rfl
  · rw [if_neg h5]

theorem splitFirst_congr {x y : List Char} (h : trimList x = trimList y) :
    splitFirst x = splitFirst y := by
  unfold splitFirst
  rw [h]

theorem Spells.noArray {w : List Char} {k : Keyword} (h : Spells w k.letters) :
    String.ofList (lowerAscii w) ≠ "array" := by
  rw [h]
  exact k.noArray

/-- A text whose trimmed part is a rendering. -/
theorem canonical_of_trim (t : TypeTerm) {a p : Bool} {r text : List Char} (h : Renders a p t r)
    (htrim : trimList text = r) : ∀ fuel, r.length < fuel →
      (scope.canonical fuel text = .ok (some t.canonical) ↔ p = true)
  | 0, hfuel => absurd hfuel (Nat.not_lt_zero _)
  | fuel + 1, hfuel => by
    have hshape := (renders_shape t h).1
    have hblank : trimList text ≠ [] := by
      rw [htrim]
      exact hshape.ne_nil
    have hfirst : splitFirst text = splitFirst r := splitFirst_congr (htrim.trans hshape.trim.symm)
    cases h with
    | word hw =>
      have hsplit := splitFirst_token hw.word.nonempty fun c hc => (hw.word.chars c hc).1
      have hplain : Plain text r [] :=
        ⟨hblank, hfirst.trans hsplit, by rw [stripLength_word hw.word]; exact hw.free⟩
      have harray : splitArrayType text = .notArray := by
        refine splitArrayType_word hw.word hw.noArray ?_ (htrim.trans (List.append_nil r).symm)
        exact fun c hc => nomatch hc
      rw [hplain.canonical harray, baseKeyword_eq hplain.split, stripLength_word hw.word, hw]
      exact iff_of_true rfl rfl
    | @sized k d w b₁ b₂ b₃ hw hb₁ hb₂ hb₃ =>
      have harray : splitArrayType text = .notArray := by
        refine splitArrayType_word hw.word hw.noArray (fun c hc => ?_)
          (htrim.trans (List.append_assoc w b₁ _))
        cases b₁ with
        | nil => exact Or.inr (Option.some.inj hc).symm
        | cons e b₁ =>
          obtain rfl := Option.some.inj hc
          exact Or.inl (hb₁ e List.mem_cons_self)
      by_cases hne : b₁ ++ b₂ ++ b₃ = []
      · obtain ⟨hne', rfl⟩ := List.append_eq_nil_iff.mp hne
        obtain ⟨rfl, rfl⟩ := List.append_eq_nil_iff.mp hne'
        simp only [List.append_nil, List.nil_append] at hfirst
        have hsplit := sized_token hw.word d
        have hplain : Plain text _ [] :=
          ⟨hblank, hfirst.trans hsplit, by rw [stripLength_bracket hw.word]; exact hw.free⟩
        rw [hplain.canonical harray, baseKeyword_eq hplain.split, stripLength_bracket hw.word, hw]
        exact iff_of_true rfl rfl
      · obtain ⟨t, b, y, htext, ⟨htne, htchars⟩, ⟨hb, hbne⟩, hnarrow, hy, hstrip, -, hof⟩ :=
          sized_cut hw.word d hb₁ hb₂ hb₃ hne
        have hsplit := splitFirst_blank htne htchars hb hbne hy
        rw [htext] at hfirst
        rw [← hnarrow]
        by_cases hn : narrow b = true
        · rw [if_pos hn] at hsplit
          have hplain : Plain text t y :=
            ⟨hblank, hfirst.trans hsplit, by rw [hstrip]; exact hw.free⟩
          rw [hplain.canonical harray, hof, baseKeyword_eq hplain.split, hstrip, hw]
          exact iff_of_true rfl hn
        · rw [if_neg hn] at hsplit
          rw [canonical_wide hblank (hfirst.trans hsplit) harray]
          exact iff_of_false (fun h => nomatch h) hn
    | @generic k args g w o r b₁ b₂ b₃ b₄ hw hb₁ hne ho hb₂ hb₃ hr hb₄ =>
      have hsplit := generic_split hw.word hb₁ hne ho b₂ (b₃ ++ r ++ b₄)
      have harray : splitArrayType text = .notArray := by
        refine splitArrayType_word hw.word hw.noArray (fun c hc => Or.inl ?_)
          (htrim.trans (List.append_assoc w b₁ _))
        cases b₁ with
        | nil => exact absurd rfl hne
        | cons e b₁ =>
          obtain rfl := Option.some.inj hc
          exact hb₁ e List.mem_cons_self
      by_cases hnarrow : narrow b₁ = true
      · rw [if_pos hnarrow] at hsplit
        have hplain : Plain text w _ :=
          ⟨hblank, hfirst.trans hsplit, by rw [stripLength_word hw.word]; exact hw.free⟩
        simp only [List.length_append, List.length_cons] at hfuel
        rw [hplain.canonical harray, afterOfWord_clause ho hb₂, Option.map_some, clauseInner_pair,
          hw.keyword, hnarrow, Bool.true_and]
        refine (map_generic_iff fun x y hxy => (CanonicalArgType.generic.inj hxy).2).trans ?_
        exact clause_args hr hb₃ hb₄ (by omega)
      · rw [if_neg hnarrow] at hsplit
        rw [canonical_wide hblank (hfirst.trans hsplit) harray]
        exact iff_of_false (fun h => nomatch h) (by simp [hnarrow])

/-- **A rendering is read as its term**, as a whole type. -/
theorem canonical_of_renders (t : TypeTerm) {a p : Bool} {r b b' : List Char} (h : Renders a p t r)
    (hb : Blank b) (hb' : Blank b') :
    scope.dispatchCanonicalTypeText (String.ofList (b ++ r ++ b')) = .ok (some t.canonical) ↔
      p = true := by
  unfold TypeScope.dispatchCanonicalTypeText
  rw [String.toList_ofList]
  refine canonical_of_trim t h (trimList_pad hb (renders_shape t h).1 hb') _ ?_
  simp only [List.length_append]
  omega

end AlSem.Resolve
