/-
# Malformed clauses

Which texts the parse of a declared type leaves undecided: those with a clause, the word `of` behind the
first word, that is not closed, not opened or not alone, or that has an empty argument, at the top, in a
generic argument or in the element of an array (`canonical_none`).  Without the word nothing behind the
first word is read.

With `Renders` this is the whole of what the parse promises (`dispatchCanonicalTypeText_faithful`).
-/
import AlSem.Resolve.TypeTerms

namespace AlSem.Resolve

open Text Brackets

/-! ## 1. Clauses -/

/-- **A text with the word `of`** behind its first word, which names no object; `after` is what follows. -/
inductive Clause : List Char → List Char → Prop
  | mk {b w b' o after} : Blank b → w ≠ [] → (∀ c ∈ w, isWhitespace c = false) →
      String.ofList (lowerAscii (stripLength w)) ∉ objectKeywords → Blank b' → b' ≠ [] →
      Spells o ['o', 'f'] → (∀ c, after.head? = some c → isWhitespace c = true ∨ c = '[') →
      Clause (b ++ (w ++ b' ++ (o ++ after))) after

/-- **A clause that is not well formed**, or has such an argument. -/
inductive Malformed : List Char → Prop
  | unbalanced {text after} : Clause text after → ¬ Balanced '[' ']' after → Malformed text
  | unopened {text after} : Clause text after → (trimList after).head? ≠ some '[' → Malformed text
  | trailing {text after inner more} : Clause text after →
      trimList after = '[' :: (inner ++ ']' :: more) → Balanced '[' ']' inner → more ≠ [] →
      Malformed text
  | empty {text after inner parts q} : Clause text after → trimList after = '[' :: (inner ++ [']']) →
      IsSplit '[' ']' ',' parts inner → q ∈ parts → Blank q → Malformed text
  | nested {text after inner parts q} : Clause text after → trimList after = '[' :: (inner ++ [']']) →
      IsSplit '[' ']' ',' parts inner → q ∈ parts → Malformed q → Malformed text

/-- A text that names an object, or has an argument that does. -/
inductive Named : List Char → Prop
  | here {text first rest} : splitFirst text = .ok (first, rest) →
      String.ofList (lowerAscii (stripLength first)) ∈ objectKeywords → Named text
  | arg {text after inner parts q} : Clause text after → trimList after = '[' :: (inner ++ [']']) →
      IsSplit '[' ']' ',' parts inner → q ∈ parts → Named q → Named text

/-- A type text with a malformed clause, or an array of such. -/
inductive MalformedType : List Char → Prop
  | clause {text} : splitArrayType text = .notArray → Malformed text → MalformedType text
  | shape {text} : splitArrayType text = .malformed → MalformedType text
  | element {text dims elem} : splitArrayType text = .array dims elem → MalformedType elem →
      MalformedType text

/-- A type text that names an object, or an array of such. -/
inductive NamedType : List Char → Prop
  | plain {text} : splitArrayType text = .notArray → Named text → NamedType text
  | element {text dims elem} : splitArrayType text = .array dims elem → NamedType elem → NamedType text

/-- **A text that is cut inside no character**: behind the first word of it, and of each argument, the
first white space is one byte wide. -/
inductive Narrow : List Char → Prop
  | mk {text} : narrow ((trimList text).dropWhile fun c => !isWhitespace c) = true →
      (∀ {after inner parts q}, Clause text after → trimList after = '[' :: (inner ++ [']']) →
        IsSplit '[' ']' ',' parts inner → q ∈ parts → Narrow q) → Narrow text

/-- A type text of which what is read is cut inside no character. -/
inductive NarrowType : List Char → Prop
  | clause {text} : splitArrayType text = .notArray → Narrow text → NarrowType text
  | shape {text} : splitArrayType text = .malformed → NarrowType text
  | element {text dims elem} : splitArrayType text = .array dims elem → NarrowType elem →
      NarrowType text

/-! ## 2. Reading a clause -/

theorem Narrow.first {text : List Char} (h : Narrow text) :
    narrow ((trimList text).dropWhile fun c => !isWhitespace c) = true := by
  cases h with
  | mk hfirst _ => exact hfirst

/-- The end of a text that starts with something else than white space. -/
theorem solid_trimEnd {o : List Char} (ho : Solid o) (x : List Char) : Solid (o ++ trimEndList x) := by
  rcases blank_or_pad x with hx | ⟨b, y, b', rfl, -, hy, hb'⟩
  · have hnil : trimEndList x = [] := by
      have := hx.trimEnd []
      rwa [List.nil_append] at this
    rwa [hnil, List.append_nil]
  · rw [hb'.trimEnd, hy.trimEnd_prepend, ← List.append_assoc]
    exact ho.join hy b

/-- A text is its first token and the rest, with blanks around and between. -/
theorem splitFirst_narrow {text : List Char} (h : Narrow text) (hne : ¬ Blank text) :
    ∃ first rest, splitFirst text = .ok (first, rest) ∧ first ≠ [] ∧
      (∀ c ∈ first, isWhitespace c = false) ∧
      (rest = [] ∨ ∃ b b' b'', text = b ++ (first ++ b' ++ (rest ++ b'')) ∧ Blank b ∧ Blank b' ∧ b' ≠ [] ∧
        Solid rest ∧ Blank b'') := by
  obtain ⟨b, x, b'', rfl, hb, hx, hb''⟩ := (blank_or_pad text).resolve_left hne
  have hsplit := (List.takeWhile_append_dropWhile (p := fun c => !isWhitespace c) (l := x)).symm
  have hall : ∀ c ∈ x.takeWhile fun c => !isWhitespace c, isWhitespace c = false := fun c hc => by
    simpa using List.mem_takeWhile_imp hc
  have hfirst : x.takeWhile (fun c => !isWhitespace c) ≠ [] := by
    obtain ⟨c, xs, rfl, hc⟩ := hx.first
    rw [List.takeWhile_cons_of_pos (by rw [hc]; rfl)]
    exact List.cons_ne_nil _ _
  generalize hw : x.takeWhile (fun c => !isWhitespace c) = w at hsplit hall hfirst
  cases hdrop : x.dropWhile (fun c => !isWhitespace c) with
  | nil =>
    rw [hdrop, List.append_nil] at hsplit
    subst hsplit
    refine ⟨x, [], ?_, hfirst, hall, Or.inl rfl⟩
    exact (splitFirst_congr ((trimList_pad hb hx hb'').trans hx.trim.symm)).trans
      (splitFirst_token hfirst hall)
  | cons c rest =>
    have hc : isWhitespace c = true := by
      have := List.head_dropWhile_not (fun c => !isWhitespace c)
        (show x.dropWhile (fun c => !isWhitespace c) ≠ [] by rw [hdrop]; exact List.cons_ne_nil _ _)
      simpa [hdrop] using this
    rw [hdrop] at hsplit
    subst hsplit
    -- the text ends with something else, so the rest is not blank
    have hrest : ¬ Blank rest := fun hrest => by
      obtain ⟨xs, d, hlast, hd⟩ := hx.last
      have hmem := congrArg List.getLast? hlast
      rw [List.getLast?_append_cons, List.getLast?_concat] at hmem
      have hd' := List.mem_of_getLast? hmem
      rcases List.mem_cons.mp hd' with rfl | hd'
      · rw [hc] at hd
        cases hd
      · rw [hrest d hd'] at hd
        cases hd
    obtain ⟨b₁, y, b₂, rfl, hb₁, hy, hb₂⟩ := (blank_or_pad rest).resolve_left hrest
    have hblank : Blank (c :: b₁) := by
      rintro d (_ | ⟨_, hd⟩)
      · exact hc
      · exact hb₁ d hd
    have hnarrow : narrow (c :: b₁) = true := by
      have hfirst := h.first
      rwa [trimList_pad hb hx hb'', hdrop] at hfirst
    refine ⟨w, y, ?_, hfirst, hall, Or.inr ⟨b, c :: b₁, b₂ ++ b'', by simp, hb, hblank,
      List.cons_ne_nil _ _, hy, hb₂.append hb''⟩⟩
    have hblanks := splitFirst_blank hfirst hall hblank (List.cons_ne_nil _ _) hy
    rw [if_pos hnarrow] at hblanks
    refine (splitFirst_congr ?_).trans hblanks
    have hsolid := (solid_of_all hfirst hall).join hy (c :: b₁)
    rw [hsolid.trim]
    have htext : b ++ (w ++ c :: (b₁ ++ y ++ b₂)) ++ b'' = b ++ (w ++ (c :: b₁) ++ y) ++ (b₂ ++ b'') := by
      simp
    rw [htext, trimList_pad hb hsolid (hb₂.append hb'')]

/-- The head of a text whose end is trimmed is its head. -/
theorem head?_trimEndList {x : List Char} {c : Char} (h : (trimEndList x).head? = some c) :
    x.head? = some c := by
  have hpre : trimEndList x <+: x := by
    unfold trimEndList trimEndBy
    rw [← List.reverse_suffix, List.reverse_reverse]
    exact List.dropWhile_suffix _
  obtain ⟨y, hy⟩ := hpre
  cases hx : trimEndList x with
  | nil => rw [hx] at h; cases h
  | cons d ds =>
    rw [hx] at h hy
    rw [← hy, List.cons_append, List.head?_cons]
    exact h

/-- **What a clause is read as.** -/
theorem Clause.read {text after : List Char} (h : Clause text after) (hnarrow : Narrow text) :
    ∃ w rest, Plain text w rest ∧ afterOfWord rest = some (trimList after) := by
  cases h with
  | @mk b w b' o after hb hw hchars hfree hb' hne ho hafter =>
    have hrest := solid_trimEnd (word_of ho).solid after
    have hsolid := (solid_of_all hw hchars).join hrest b'
    have htrim : trimList (b ++ (w ++ b' ++ (o ++ after))) = w ++ b' ++ (o ++ trimEndList after) := by
      rw [hb.trim_append, trimList, ← List.append_assoc,
        ← List.append_assoc _ o, ((solid_of_all hw hchars).join (word_of ho).solid b').trimStart,
        ((solid_of_all hw hchars).join (word_of ho).solid b').trimEnd_append,
        List.append_assoc]
    refine ⟨w, o ++ trimEndList after, ⟨by rw [htrim]; exact hsolid.ne_nil, ?_, hfree⟩, ?_⟩
    · rw [splitFirst_congr (htrim.trans hsolid.trim.symm), splitFirst_blank hw hchars hb' hne hrest,
        if_pos]
      cases b' with
      | nil => exact absurd rfl hne
      | cons c b' =>
        have hfirst := hnarrow.first
        rw [htrim, List.append_assoc, List.dropWhile_append_of_pos fun d hd => by rw [hchars d hd]; rfl,
          List.cons_append, List.dropWhile_cons_of_neg (by simp [hb' c List.mem_cons_self])] at hfirst
        exact hfirst
    · obtain ⟨c, o, rfl, hc, ho⟩ := List.map_eq_cons_iff.mp ho
      obtain ⟨d, o, rfl, hd, ho⟩ := List.map_eq_cons_iff.mp ho
      obtain rfl := List.map_eq_nil_iff.mp ho
      have hhead : (trimEndList after).head?.all (fun c => isWhitespace c || c == '[') = true := by
        rw [Option.all_eq_true]
        intro e he
        simpa using hafter e (head?_trimEndList he)
      rw [List.cons_append, List.cons_append, List.nil_append, afterOfWord, if_pos ⟨hc, hd, hhead⟩,
        trimStart_trimEnd]

/-- **A text that is read with a clause has one.** -/
theorem clause_of_read {text w rest x : List Char} (hplain : Plain text w rest) (hnarrow : Narrow text)
    (h : afterOfWord rest = some x) : ∃ after, Clause text after ∧ trimList after = x := by
  have hblank : ¬ Blank text := fun hb => hplain.nonblank hb.trim
  obtain ⟨w', rest', hsplit, hw, hchars, hcases⟩ := splitFirst_narrow hnarrow hblank
  obtain ⟨rfl, rfl⟩ := Prod.mk.inj (Except.ok.inj (hplain.split.symm.trans hsplit))
  rcases hcases with rfl | ⟨b, b', b'', htext, hb, hb', hne, hsolid, hb''⟩
  · cases h
  match rest, h, hsolid, htext with
  | c :: d :: tail, h, hsolid, htext =>
    rw [afterOfWord] at h
    split at h
    · rename_i hof
      obtain ⟨hc, hd, hhead⟩ := hof
      have hspells : Spells [c, d] ['o', 'f'] := by simp [Spells, lowerAscii, hc, hd]
      -- the rest of the text ends with something else than white space
      have hend : trimEndList tail = tail := by
        have htail := (word_of hspells).solid.trimEnd_append tail
        exact List.append_cancel_left (htail.symm.trans hsolid.trimEnd)
      refine ⟨tail ++ b'', ?_, ?_⟩
      · rw [htext]
        refine Clause.mk (o := [c, d]) hb hw hchars hplain.objectFree hb' hne hspells fun e he => ?_
        cases tail with
        | nil => exact Or.inl (hb'' e (List.mem_of_head? he))
        | cons f tail =>
          obtain rfl := Option.some.inj he
          simpa using hhead
      · rw [hb''.trim_append_right, ← Option.some.inj h, ← trimStart_trimEnd, hend]
    · cases h

/-! ## 3. The arguments of a clause -/

theorem IsSplit.pad_last {b xs : List Char} {ps : List (List Char)} {p : List Char} (hb : Blank b)
    (h : IsSplit '[' ']' ',' (ps ++ [p]) xs) : IsSplit '[' ']' ',' (ps ++ [p ++ b]) (xs ++ b) := by
  obtain ⟨-, rfl, hpiece⟩ := h
  refine ⟨by simp, ?_, fun r hr => ?_⟩
  · clear hpiece
    induction ps with
    | nil => simp [List.intercalate]
    | cons q ps ih =>
      cases ps with
      | nil => simp [List.intercalate]
      | cons q' ps => simpa [List.intercalate] using ih
  · rcases List.mem_append.mp hr with hr | hr
    · exact hpiece r (List.mem_append_left _ hr)
    · rw [List.mem_singleton.mp hr]
      exact (hpiece p (by simp)).append (piece_of_blank hb)

/-- The pieces of a clause, trimmed, where its brackets match and no piece is blank. -/
theorem splitTopLevelCommas_eq_some_iff {inner : List Char} {texts : List (List Char)} :
    splitTopLevelCommas inner = some texts ↔
      ∃ parts, IsSplit '[' ']' ',' parts inner ∧ texts = parts.map trimList ∧ ∀ q ∈ parts, ¬ Blank q := by
  have hany : ∀ parts : List (List Char), (parts.map trimList).any List.isEmpty = true ↔
      ∃ q ∈ parts, Blank q := fun parts => by
    simp [List.any_map, List.any_eq_true, trimList_eq_nil_iff]
  constructor
  · intro h
    unfold splitTopLevelCommas at h
    rw [splitCommas_eq] at h
    obtain ⟨⟨q, qs⟩, hsplit, hparts⟩ := Option.bind_eq_some_iff.mp h
    dsimp only at hparts
    split at hparts
    · cases hparts
    · rename_i hblank
      refine ⟨q :: qs, (split_eq_some_iff (by decide) (by decide)).mp hsplit,
        (Option.some.inj hparts).symm, fun r hr hrb => hblank ?_⟩
      exact (hany _).mpr ⟨r, hr, hrb⟩
  · rintro ⟨parts, hsplit, rfl, hblank⟩
    cases parts with
    | nil => exact absurd rfl hsplit.nonempty
    | cons q qs =>
      rw [splitTopLevelCommas_of_isSplit hsplit, if_neg]
      intro h
      obtain ⟨r, hr, hrb⟩ := (hany _).mp h
      exact hblank r hr hrb

theorem balanced_trim (xs : List Char) : Balanced '[' ']' (trimList xs) ↔ Balanced '[' ']' xs := by
  rcases blank_or_pad xs with hx | ⟨b, x, b', rfl, hb, hx, hb'⟩
  · rw [hx.trim]
    exact iff_of_true balanced_nil (piece_of_blank hx).balanced
  · rw [trimList_pad hb hx hb']
    refine ⟨fun h => ((piece_of_blank hb).balanced.append h).append (piece_of_blank hb').balanced,
      fun h => ?_⟩
    unfold Brackets.Balanced at h
    rw [List.append_assoc, depthAfter_append, (piece_of_blank hb).balanced, Option.bind_some,
      depthAfter_append] at h
    obtain ⟨e, he, hend⟩ := Option.bind_eq_some_iff.mp h
    rw [(piece_of_blank hb').balanced.depthAfter] at hend
    rw [Brackets.Balanced, he, hend]

/-- Blanks around a text are around its first and its last piece. -/
theorem exists_isSplit_trim {xs : List Char} {parts : List (List Char)}
    (h : IsSplit '[' ']' ',' parts (trimList xs)) :
    ∃ parts', IsSplit '[' ']' ',' parts' xs ∧ parts'.map trimList = parts.map trimList := by
  rcases blank_or_pad xs with hx | ⟨b, x, b', rfl, hb, hx, hb'⟩
  · refine ⟨[xs], isSplit_singleton (piece_of_blank hx), ?_⟩
    rw [hx.trim] at h
    rw [h.unique (by decide) (by decide) (isSplit_singleton piece_nil), List.map_singleton, List.map_singleton, hx.trim,
      blank_nil.trim]
  · rw [trimList_pad hb hx hb'] at h
    cases parts with
    | nil => exact absurd rfl h.nonempty
    | cons q qs =>
      have hpad := h.pad (piece_of_blank hb)
      obtain ⟨ps, p, hps⟩ : ∃ ps p, (b ++ q) :: qs = ps ++ [p] :=
        ⟨_, _, (List.dropLast_append_getLast (List.cons_ne_nil _ _)).symm⟩
      rw [hps] at hpad
      refine ⟨ps ++ [p ++ b'], IsSplit.pad_last hb' hpad, ?_⟩
      have hmap := congrArg (List.map trimList) hps
      rw [List.map_append, List.map_singleton, List.map_cons, hb.trim_append] at hmap
      rw [List.map_append, List.map_singleton, hb'.trim_append_right, ← hmap, List.map_cons]

/-- The arguments of a text are those of the text without the blanks around it. -/
theorem parseArgs_trim {α : Type} (f : List Char → Except Stop (Option α)) (xs : List Char) :
    parseArgs f (trimList xs) = parseArgs f xs := by
  have h : splitTopLevelCommas (trimList xs) = splitTopLevelCommas xs := by
    refine Option.ext fun texts => ?_
    simp only [splitTopLevelCommas_eq_some_iff]
    have hblank : ∀ {ps qs : List (List Char)}, ps.map trimList = qs.map trimList →
        (∀ q ∈ ps, ¬ Blank q) → ∀ q ∈ qs, ¬ Blank q := by
      intro ps qs hmap hps q hq hb
      have hmem : trimList q ∈ ps.map trimList := hmap ▸ List.mem_map_of_mem hq
      obtain ⟨r, hr, hrq⟩ := List.mem_map.mp hmem
      exact hps r hr (trimList_eq_nil_iff.mp (hrq.trans hb.trim))
    constructor
    · rintro ⟨parts, hparts, rfl, hne⟩
      obtain ⟨parts', hparts', hmap⟩ := exists_isSplit_trim hparts
      exact ⟨parts', hparts', hmap.symm, hblank hmap.symm hne⟩
    · rintro ⟨parts, hparts, rfl, hne⟩
      obtain ⟨parts', hparts'⟩ := exists_isSplit (s := ',') (by decide) (by decide)
        ((balanced_trim xs).mpr (hparts.balanced (by decide) (by decide)))
      obtain ⟨parts'', hparts'', hmap⟩ := exists_isSplit_trim hparts'
      obtain rfl := hparts''.unique (by decide) (by decide) hparts
      exact ⟨parts', hparts', hmap, hblank hmap hne⟩
  unfold parseArgs
  rw [h]

/-- The arguments behind the word `of`, with `f` for each. -/
def clauseArgs {α : Type} (f : List Char → Except Stop (Option α)) (after : List Char) :
    Except Stop (Option (List α)) :=
  match clauseInner (trimList after) with
  | none => .ok none
  | some inner => parseArgs f inner

/-- **What is behind `of` is no list of arguments** in brackets, or has a blank argument or a `bad` one. -/
inductive Fault (bad : List Char → Prop) (after : List Char) : Prop
  | unbalanced : ¬ Balanced '[' ']' after → Fault bad after
  | unopened : (trimList after).head? ≠ some '[' → Fault bad after
  | trailing {inner more} : trimList after = '[' :: (inner ++ ']' :: more) →
      Balanced '[' ']' inner → more ≠ [] → Fault bad after
  | empty {inner parts q} : trimList after = '[' :: (inner ++ [']']) →
      IsSplit '[' ']' ',' parts inner → q ∈ parts → Blank q → Fault bad after
  | nested {inner parts q} : trimList after = '[' :: (inner ++ [']']) →
      IsSplit '[' ']' ',' parts inner → q ∈ parts → bad q → Fault bad after

theorem Malformed.fault {text : List Char} (h : Malformed text) :
    ∃ after, Clause text after ∧ Fault Malformed after := by
  cases h with
  | unbalanced hc h => exact ⟨_, hc, .unbalanced h⟩
  | unopened hc h => exact ⟨_, hc, .unopened h⟩
  | trailing hc h hb hne => exact ⟨_, hc, .trailing h hb hne⟩
  | empty hc h hs hq hb => exact ⟨_, hc, .empty h hs hq hb⟩
  | nested hc h hs hq hb => exact ⟨_, hc, .nested h hs hq hb⟩

theorem Fault.malformed {text after : List Char} (h : Fault Malformed after) (hc : Clause text after) :
    Malformed text := by
  cases h with
  | unbalanced h => exact .unbalanced hc h
  | unopened h => exact .unopened hc h
  | trailing h hb hne => exact .trailing hc h hb hne
  | empty h hs hq hb => exact .empty hc h hs hq hb
  | nested h hs hq hb => exact .nested hc h hs hq hb

/-- A text is one of the arguments behind the word `of`. -/
def IsArg (q after : List Char) : Prop :=
  ∃ inner parts, trimList after = '[' :: (inner ++ [']']) ∧ IsSplit '[' ']' ',' parts inner ∧ q ∈ parts

theorem Fault.mono {bad bad' : List Char → Prop} {after : List Char}
    (h : Fault bad after) (hbad : ∀ q, IsArg q after → ¬ Blank q → bad q → bad' q) :
    Fault bad' after := by
  cases h with
  | unbalanced h => exact .unbalanced h
  | unopened h => exact .unopened h
  | trailing h hb hne => exact .trailing h hb hne
  | empty h hs hq hb => exact .empty h hs hq hb
  | nested h hs hq hb =>
    rename_i q
    by_cases hblank : Blank q
    · exact .empty h hs hq hblank
    · exact .nested h hs hq (hbad q ⟨_, _, h, hs, hq⟩ hblank hb)

variable {α : Type} {f : List Char → Except Stop (Option α)}

theorem parseAll_ok {ps : List (List Char)} (hok : ∀ p ∈ ps, ∃ r, f p = .ok r) :
    ∃ r, parseAll f ps = .ok r ∧ (r = none ↔ ∃ p ∈ ps, f p = .ok none) := by
  induction ps with
  | nil => exact ⟨some [], rfl, by simp⟩
  | cons p ps ih =>
    obtain ⟨rs, hrs, hnone⟩ := ih fun q hq => hok q (List.mem_cons_of_mem _ hq)
    obtain ⟨r, hr⟩ := hok p List.mem_cons_self
    cases r with
    | none => exact ⟨none, by simp only [parseAll, hr, bind, Except.bind, pure, Except.pure], by simp [hr]⟩
    | some a =>
      refine ⟨rs.map (a :: ·), by simp only [parseAll, hr, hrs, bind, Except.bind, pure, Except.pure], ?_⟩
      rw [Option.map_eq_none_iff, hnone]
      simp [hr]

/-- The text between the outer brackets. -/
theorem clauseInner_eq_some {x m : List Char} (h : clauseInner x = some m) :
    ∃ inner, x = '[' :: (inner ++ [']']) ∧ m = trimList inner := by
  unfold clauseInner at h
  split at h
  · rename_i hx
    obtain ⟨hlen, hhead, hlast⟩ := hx
    cases x with
    | nil => cases hhead
    | cons c xs =>
      obtain rfl := Option.some.inj hhead
      cases xs using List.reverseRecOn with
      | nil => simp at hlen
      | append_singleton xs d =>
        rw [← List.cons_append, List.getLast?_concat] at hlast
        obtain rfl := Option.some.inj hlast
        refine ⟨xs, rfl, ?_⟩
        rw [← Option.some.inj h, List.tail_cons, List.dropLast_concat]
  · cases h

/-- What goes on behind the matching bracket is no pair of brackets. -/
theorem not_balanced_of_trailing {inner inner' more : List Char} (hb : Balanced '[' ']' inner)
    (hne : more ≠ []) (h : inner' ++ [']'] = inner ++ ']' :: more) : ¬ Balanced '[' ']' inner' := by
  cases more using List.reverseRecOn with
  | nil => exact absurd rfl hne
  | append_singleton more d =>
    rw [← List.cons_append, ← List.append_assoc] at h
    obtain ⟨rfl, -⟩ := List.append_inj' h rfl
    unfold Brackets.Balanced
    rw [depthAfter_append, hb]
    simp [depthAfter]

theorem parseArgs_unbalanced {m : List Char} (h : ¬ Balanced '[' ']' m) : parseArgs f m = .ok none := by
  unfold parseArgs
  cases hs : splitTopLevelCommas m with
  | none => rfl
  | some texts =>
    obtain ⟨parts, hparts, -⟩ := splitTopLevelCommas_eq_some_iff.mp hs
    exact absurd (hparts.balanced (by decide) (by decide)) h

theorem parseArgs_blank {m q : List Char} {parts : List (List Char)}
    (h : IsSplit '[' ']' ',' parts m) (hq : q ∈ parts) (hb : Blank q) : parseArgs f m = .ok none := by
  unfold parseArgs
  cases hs : splitTopLevelCommas m with
  | none => rfl
  | some texts =>
    obtain ⟨parts', hparts', -, hne⟩ := splitTopLevelCommas_eq_some_iff.mp hs
    obtain rfl := hparts'.unique (by decide) (by decide) h
    exact absurd hb (hne q hq)

theorem parseArgs_parts {m : List Char} {parts : List (List Char)} (h : IsSplit '[' ']' ',' parts m)
    (hne : ∀ q ∈ parts, ¬ Blank q) : parseArgs f m = parseAll f (parts.map trimList) := by
  unfold parseArgs
  rw [splitTopLevelCommas_eq_some_iff.mpr ⟨parts, h, rfl, hne⟩]

/-- A clause with a fault at its brackets. -/
theorem clauseArgs_unpaired {after : List Char}
    (h : ∀ inner, trimList after = '[' :: (inner ++ [']']) → ¬ Balanced '[' ']' inner) :
    clauseArgs f after = .ok none := by
  unfold clauseArgs
  cases hm : clauseInner (trimList after) with
  | none => rfl
  | some m =>
    obtain ⟨inner, hinner, rfl⟩ := clauseInner_eq_some hm
    dsimp only
    rw [parseArgs_trim, parseArgs_unbalanced (h inner hinner)]

theorem clauseArgs_pair {after inner : List Char} (h : trimList after = '[' :: (inner ++ [']'])) :
    clauseArgs f after = parseArgs f inner := by
  unfold clauseArgs
  rw [h, clauseInner_pair]
  exact parseArgs_trim f inner

/-- The clause of a pair of brackets has a fault only inside. -/
theorem fault_pair_iff {bad : List Char → Prop} {after inner : List Char} {parts : List (List Char)}
    (h : trimList after = '[' :: (inner ++ [']'])) (hparts : IsSplit '[' ']' ',' parts inner) :
    Fault bad after ↔ ∃ q ∈ parts, Blank q ∨ bad q := by
  have hinner : Balanced '[' ']' inner := hparts.balanced (by decide) (by decide)
  have hsame : ∀ {inner' : List Char} {ps : List (List Char)},
      trimList after = '[' :: (inner' ++ [']']) → IsSplit '[' ']' ',' ps inner' → ps = parts := by
    intro inner' ps h' hps
    obtain rfl := List.append_cancel_right (List.cons.inj (h.symm.trans h')).2
    exact hps.unique (by decide) (by decide) hparts
  constructor
  · intro hf
    cases hf with
    | unbalanced hb =>
      refine absurd ((balanced_trim after).mp ?_) hb
      rw [h]
      exact hinner.wrap (by decide)
    | unopened hne => exact absurd (by rw [h]; rfl) hne
    | trailing h' hb hne =>
      exact absurd hinner (not_balanced_of_trailing hb hne (List.cons.inj (h.symm.trans h')).2)
    | empty h' hs hq hb =>
      obtain rfl := hsame h' hs
      exact ⟨_, hq, Or.inl hb⟩
    | nested h' hs hq hb =>
      obtain rfl := hsame h' hs
      exact ⟨_, hq, Or.inr hb⟩
  · rintro ⟨q, hq, hb | hb⟩
    · exact .empty h hparts hq hb
    · exact .nested h hparts hq hb

/-- **A clause is undecided where it has a fault.** -/
theorem clauseArgs_ok {after : List Char} (hok : ∀ q, IsArg q after → ∃ r, f (trimList q) = .ok r) :
    ∃ r, clauseArgs f after = .ok r ∧
      (r = none ↔ Fault (fun q => f (trimList q) = .ok none) after) := by
  by_cases hbal : Balanced '[' ']' after
  swap
  · refine ⟨none, clauseArgs_unpaired fun inner h hb => hbal ((balanced_trim after).mp ?_),
      iff_of_true rfl (.unbalanced hbal)⟩
    rw [h]
    exact hb.wrap (by decide)
  have htrim := (balanced_trim after).mpr hbal
  by_cases hhead : (trimList after).head? = some '['
  swap
  · refine ⟨none, clauseArgs_unpaired fun inner h _ => hhead ?_, iff_of_true rfl (.unopened hhead)⟩
    rw [h]
    rfl
  obtain ⟨xs, hxs⟩ := List.head?_eq_some_iff.mp hhead
  rw [hxs, Brackets.Balanced, depthAfter, if_pos rfl] at htrim
  obtain ⟨inner, more, rfl, hinner⟩ := exists_match (by decide) htrim (Nat.le_refl 0)
  by_cases hmore : more = []
  swap
  · refine ⟨none, clauseArgs_unpaired fun inner' h => ?_, iff_of_true rfl (.trailing hxs hinner hmore)⟩
    exact not_balanced_of_trailing hinner hmore (List.cons.inj (h.symm.trans hxs)).2
  subst hmore
  obtain ⟨parts, hparts⟩ := exists_isSplit (s := ',') (by decide) (by decide) hinner
  rw [clauseArgs_pair hxs, fault_pair_iff hxs hparts]
  by_cases hblank : ∃ q ∈ parts, Blank q
  · obtain ⟨q, hq, hb⟩ := hblank
    exact ⟨none, parseArgs_blank hparts hq hb, iff_of_true rfl ⟨q, hq, Or.inl hb⟩⟩
  · push Not at hblank
    obtain ⟨r, hr, hnone⟩ := @parseAll_ok _ f (parts.map trimList) fun p hp => by
      obtain ⟨q, hq, rfl⟩ := List.mem_map.mp hp
      exact hok q ⟨inner, parts, hxs, hparts, hq⟩
    refine ⟨r, (parseArgs_parts hparts hblank).trans hr, hnone.trans ?_⟩
    simp only [List.mem_map, exists_exists_and_eq_and]
    exact exists_congr fun q => and_congr_right fun hq => (or_iff_right (hblank q hq)).symm

/-! ## 4. A parse has a result -/

theorem Clause.suffix {text after : List Char} (h : Clause text after) : after <:+ text := by
  cases h with
  | @mk b w b' o after => exact ⟨b ++ (w ++ b' ++ o), by simp⟩

/-- An argument is a part of the text, and a shorter one. -/
theorem IsArg.part {text after q : List Char} (hq : IsArg q after) (h : Clause text after) :
    q.length < text.length ∧ q ⊆ text := by
  obtain ⟨inner, parts, htrim, hparts, hmem⟩ := hq
  have hlen := (hparts.length_le hmem).trans_lt (show inner.length < (trimList after).length by
    rw [htrim, List.length_cons, List.length_append]
    omega)
  refine ⟨hlen.trans_le ((length_trimList_le after).trans h.suffix.length_le), fun c hc => ?_⟩
  refine h.suffix.subset (mem_of_mem_trimList ?_)
  rw [htrim]
  exact List.mem_cons_of_mem _ (List.mem_append_left _ ((hparts.isInfix hmem).subset hc))

theorem IsArg.narrow {text after q : List Char} (hq : IsArg q after) (h : Clause text after)
    (hn : Narrow text) : Narrow q := by
  cases hn with
  | mk _ hargs =>
    obtain ⟨inner, parts, htrim, hparts, hmem⟩ := hq
    exact hargs h htrim hparts hmem

/-- A text without wide white space is cut inside no character. -/
theorem Narrow.of_all : ∀ (n : ℕ) {text : List Char}, text.length < n →
    (∀ c ∈ text, isWhitespace c = true → c.utf8Size = 1) → Narrow text
  | 0, _, hlen, _ => absurd hlen (Nat.not_lt_zero _)
  | n + 1, text, hlen, hall => by
    refine .mk ?_ fun hc htrim hparts hmem => ?_
    · unfold narrow
      rw [Option.all_eq_true]
      intro c hc
      have hmem := (List.dropWhile_suffix _).subset (List.mem_of_head? hc)
      have hwhite := List.head?_dropWhile_not (fun c => !isWhitespace c) (trimList text)
      rw [hc] at hwhite
      exact beq_iff_eq.mpr (hall c (mem_of_mem_trimList hmem) (by simpa using hwhite))
    · have hpart := IsArg.part ⟨_, _, htrim, hparts, hmem⟩ hc
      exact Narrow.of_all n (Nat.lt_of_lt_of_le hpart.1 (Nat.le_of_lt_succ hlen))
        fun c hcq => hall c (hpart.2 hcq)

variable {scope : TypeScope} {text first rest : List Char}

/-- The object behind a keyword. -/
theorem objectOf_classify (hne : trimList text ≠ []) (h : splitFirst text = .ok (first, rest))
    (hobj : String.ofList (lowerAscii (stripLength first)) ∈ objectKeywords) :
    ∃ p id, scope.classifyTypeText text = .ok p ∧ scope.objectOf p = some id := by
  unfold TypeScope.classifyTypeText
  simp only [if_neg hne, h, bind, Except.bind, pure, Except.pure]
  generalize String.ofList (lowerAscii (stripLength first)) = word at hobj
  simp only [objectKeywords, List.mem_cons, List.not_mem_nil, or_false] at hobj
  rcases hobj with rfl | rfl | rfl | rfl | rfl | rfl | rfl | rfl
  all_goals exact ⟨_, _, rfl, rfl⟩

/-- A parse reads a text without the blanks around it. -/
theorem parseGenericArg_congr {x y : List Char} (h : trimList x = trimList y) (fuel : ℕ) :
    scope.parseGenericArg fuel x = scope.parseGenericArg fuel y := by
  cases fuel with
  | zero => rfl
  | succ fuel =>
    unfold TypeScope.parseGenericArg TypeScope.classifyTypeText splitGenericClause baseKeyword
    rw [h, splitFirst_congr h]

theorem parseGenericArg_trim (x : List Char) (fuel : ℕ) :
    scope.parseGenericArg fuel (trimList x) = scope.parseGenericArg fuel x := by
  refine parseGenericArg_congr ?_ fuel
  rcases blank_or_pad x with hx | ⟨b, y, b', rfl, hb, hy, hb'⟩
  · rw [hx.trim, blank_nil.trim]
  · rw [trimList_pad hb hy hb', hy.trim]

/-- A plain text with a clause, as a generic argument. -/
theorem Plain.arg_clause {after : List Char} (h : Plain text first rest)
    (hof : afterOfWord rest = some (trimList after)) (fuel : ℕ) :
    scope.parseGenericArg (fuel + 1) text = (clauseArgs (scope.parseGenericArg fuel) after).map
      (·.map (.generic (baseKeyword first))) := by
  rw [h.parseGenericArg, hof, Option.map_some, clauseArgs]
  cases clauseInner (trimList after) <;> rfl

/-- A plain text with a clause, as a whole type. -/
theorem Plain.canonical_clause {after : List Char} (h : Plain text first rest)
    (harray : splitArrayType text = .notArray) (hof : afterOfWord rest = some (trimList after))
    (fuel : ℕ) :
    scope.canonical (fuel + 1) text = (clauseArgs (scope.parseGenericArg fuel) after).map
      (·.map (.generic (baseKeyword first))) := by
  rw [h.canonical harray, hof, Option.map_some, clauseArgs]
  cases clauseInner (trimList after) <;> rfl

/-- **Every narrow text is read**, with fuel for its length. -/
theorem parseGenericArg_ok : ∀ (fuel : ℕ) (text : List Char), Narrow text → text.length < fuel →
    ∃ r, scope.parseGenericArg fuel text = .ok r
  | 0, _, _, hfuel => absurd hfuel (Nat.not_lt_zero _)
  | fuel + 1, text, hn, hfuel => by
    by_cases hblank : Blank text
    · exact ⟨none, by rw [TypeScope.parseGenericArg, if_pos hblank.trim]; rfl⟩
    have hne : trimList text ≠ [] := fun h => hblank (trimList_eq_nil_iff.mp h)
    obtain ⟨first, rest, hsplit, -⟩ := splitFirst_narrow hn hblank
    by_cases hobj : String.ofList (lowerAscii (stripLength first)) ∈ objectKeywords
    · obtain ⟨p, id, hp, hid⟩ := @objectOf_classify scope _ _ _ hne hsplit hobj
      refine ⟨id.map .object, ?_⟩
      rw [TypeScope.parseGenericArg]
      simp only [if_neg hne, hp, hid, bind, Except.bind, pure, Except.pure]
    · have hplain : Plain text first rest := ⟨hne, hsplit, hobj⟩
      cases hof : afterOfWord rest with
      | none => exact ⟨_, by rw [hplain.parseGenericArg, hof]; rfl⟩
      | some x =>
        obtain ⟨after, hc, rfl⟩ := clause_of_read hplain hn hof
        obtain ⟨r, hr, -⟩ := clauseArgs_ok (f := scope.parseGenericArg fuel) fun q hq => by
          rw [parseGenericArg_trim]
          exact parseGenericArg_ok fuel q (hq.narrow hc hn)
            (Nat.lt_of_lt_of_le (hq.part hc).1 (Nat.le_of_lt_succ hfuel))
        exact ⟨_, by rw [hplain.arg_clause hof, hr]; rfl⟩

/-! ## 5. Undecided texts -/

/-- What is read of a clause whose arguments are read. -/
theorem clause_faults {after : List Char} {fuel : ℕ} (hc : Clause text after) (hn : Narrow text)
    (hfuel : text.length ≤ fuel) :
    ∃ r, clauseArgs (scope.parseGenericArg fuel) after = .ok r ∧
      (r = none ↔ Fault (fun q => scope.parseGenericArg fuel q = .ok none) after) := by
  have hok := clauseArgs_ok (f := scope.parseGenericArg fuel) fun q (hq : IsArg q after) => by
    rw [parseGenericArg_trim]
    exact parseGenericArg_ok fuel q (hq.narrow hc hn) (Nat.lt_of_lt_of_le (hq.part hc).1 hfuel)
  simpa only [parseGenericArg_trim] using hok

/-- A type is undecided where what it is made of is. -/
theorem map_none_iff {α β : Type} {make : α → β} {result : Except Stop (Option α)} :
    result.map (·.map make) = .ok none ↔ result = .ok none := by
  rcases result with e | _ | vs
  · exact iff_of_false (fun h => nomatch h) fun h => nomatch h
  · exact iff_of_true rfl rfl
  · exact iff_of_false (fun h => nomatch h) fun h => nomatch h

/-- **A malformed text is undecided**, as a generic argument. -/
theorem arg_undecided : ∀ (fuel : ℕ) (text : List Char), Narrow text → text.length < fuel →
    Malformed text → scope.parseGenericArg fuel text = .ok none
  | 0, _, _, hfuel, _ => absurd hfuel (Nat.not_lt_zero _)
  | fuel + 1, text, hn, hfuel, hm => by
    obtain ⟨after, hc, hfault⟩ := hm.fault
    obtain ⟨w, rest, hplain, hof⟩ := hc.read hn
    have hle := Nat.le_of_lt_succ hfuel
    obtain ⟨r, hr, hnone⟩ := @clause_faults scope _ _ _ hc hn hle
    obtain rfl := hnone.mpr (hfault.mono fun q hq _ hbad =>
      arg_undecided fuel q (hq.narrow hc hn) (Nat.lt_of_lt_of_le (hq.part hc).1 hle) hbad)
    rw [hplain.arg_clause hof, hr]
    rfl

/-- **An undecided text is malformed**, if it names no object. -/
theorem malformed_of_arg : ∀ (fuel : ℕ) (text : List Char), Narrow text → text.length < fuel →
    ¬ Blank text → ¬ Named text → scope.parseGenericArg fuel text = .ok none → Malformed text
  | 0, _, _, hfuel, _, _, _ => absurd hfuel (Nat.not_lt_zero _)
  | fuel + 1, text, hn, hfuel, hblank, hnamed, hparse => by
    obtain ⟨first, rest, hsplit, -⟩ := splitFirst_narrow hn hblank
    have hplain : Plain text first rest :=
      ⟨fun h => hblank (trimList_eq_nil_iff.mp h), hsplit, fun h => hnamed (.here hsplit h)⟩
    cases hof : afterOfWord rest with
    | none =>
      rw [hplain.parseGenericArg, hof] at hparse
      cases hparse
    | some x =>
      obtain ⟨after, hc, rfl⟩ := clause_of_read hplain hn hof
      have hle := Nat.le_of_lt_succ hfuel
      obtain ⟨r, hr, hnone⟩ := @clause_faults scope _ _ _ hc hn hle
      rw [hplain.arg_clause hof, map_none_iff, hr] at hparse
      obtain rfl := Except.ok.inj hparse
      refine ((hnone.mp rfl).mono fun q hq hq' hbad => ?_).malformed hc
      refine malformed_of_arg fuel q (hq.narrow hc hn) (Nat.lt_of_lt_of_le (hq.part hc).1 hle) hq' ?_
        hbad
      obtain ⟨inner, parts, htrim, hparts, hmem⟩ := hq
      exact fun h => hnamed (.arg hc htrim hparts hmem h)

/-! ## 6. The parse -/

/-- **A malformed text is undecided**, as a whole type. -/
theorem canonical_undecided {text : List Char} {fuel : ℕ} (hn : Narrow text)
    (hfuel : text.length ≤ fuel) (harray : splitArrayType text = .notArray) (hm : Malformed text) :
    scope.canonical (fuel + 1) text = .ok none := by
  obtain ⟨after, hc, hfault⟩ := hm.fault
  obtain ⟨w, rest, hplain, hof⟩ := hc.read hn
  obtain ⟨r, hr, hnone⟩ := @clause_faults scope _ _ _ hc hn hfuel
  obtain rfl := hnone.mpr (hfault.mono fun q hq _ hbad =>
    arg_undecided _ q (hq.narrow hc hn) (Nat.lt_of_lt_of_le (hq.part hc).1 hfuel) hbad)
  rw [hplain.canonical_clause harray hof, hr]
  rfl

/-- **An undecided text is malformed**, if it names no object. -/
theorem malformed_of_canonical {text : List Char} {fuel : ℕ} (hn : Narrow text)
    (hfuel : text.length ≤ fuel) (harray : splitArrayType text = .notArray) (hblank : ¬ Blank text)
    (hnamed : ¬ Named text) (hparse : scope.canonical (fuel + 1) text = .ok none) :
    Malformed text := by
  obtain ⟨first, rest, hsplit, -⟩ := splitFirst_narrow hn hblank
  have hplain : Plain text first rest :=
    ⟨fun h => hblank (trimList_eq_nil_iff.mp h), hsplit, fun h => hnamed (.here hsplit h)⟩
  cases hof : afterOfWord rest with
  | none =>
    rw [hplain.canonical harray, hof] at hparse
    cases hparse
  | some x =>
    obtain ⟨after, hc, rfl⟩ := clause_of_read hplain hn hof
    obtain ⟨r, hr, hnone⟩ := @clause_faults scope _ _ _ hc hn hfuel
    rw [hplain.canonical_clause harray hof, map_none_iff, hr] at hparse
    obtain rfl := Except.ok.inj hparse
    refine ((hnone.mp rfl).mono fun q hq hq' hbad => ?_).malformed hc
    refine malformed_of_arg _ q (hq.narrow hc hn) (Nat.lt_of_lt_of_le (hq.part hc).1 hfuel) hq' ?_ hbad
    obtain ⟨inner, parts, htrim, hparts, hmem⟩ := hq
    exact fun h => hnamed (.arg hc htrim hparts hmem h)

theorem arrayElem_eq {dims after dims' elem : List Char} (h : arrayElem dims after = .array dims' elem) :
    elem ≠ [] ∧ ∃ rest, elem = trimList rest ∧ rest <:+ after := by
  match after, h with
  | a :: b :: rest, h =>
    unfold arrayElem at h
    dsimp only at h
    split at h
    · split at h
      · cases h
      · rename_i hne
        obtain ⟨-, rfl⟩ := ArrayShape.array.inj h
        exact ⟨fun h => hne (Or.inr (Or.inl h)), rest, rfl, [a, b], rfl⟩
    · cases h

/-- The element of an array is a part of its text, and a shorter one. -/
theorem splitArrayType_elem {text dims elem : List Char} (h : splitArrayType text = .array dims elem) :
    ¬ Blank elem ∧ elem.length < text.length ∧ elem ⊆ text := by
  unfold splitArrayType at h
  dsimp only at h
  split at h
  · split at h
    · rename_i rest hrest
      split at h
      · cases h
      · rename_i c after hafter
        obtain ⟨hne, rest', rfl, hsuffix⟩ := arrayElem_eq h
        have hbracket : after <:+ (trimList text).drop 5 := by
          have h₁ : c :: after <:+ rest := hafter ▸ List.dropWhile_suffix _
          have h₂ : '[' :: rest <:+ (trimList text).drop 5 := hrest ▸ List.dropWhile_suffix _
          exact ((List.suffix_cons c after).trans h₁).trans ((List.suffix_cons '[' rest).trans h₂)
        have hall : rest' <:+ (trimList text).drop 5 :=
          (hsuffix.trans (List.dropWhile_suffix _)).trans hbracket
        have hlen := hall.length_le
        have htrim := length_trimList_le text
        have hpos : 0 < rest'.length := by
          by_contra hzero
          have hnil : rest' = [] := List.eq_nil_of_length_eq_zero (by omega)
          exact hne (by rw [hnil]; rfl)
        rw [List.length_drop] at hlen
        have hsolid := trimList_solid fun hb => hne (Blank.trim hb)
        refine ⟨fun hb => hne (hsolid.trim.symm.trans hb.trim), (length_trimList_le rest').trans_lt (by omega), fun d hd => ?_⟩
        exact mem_of_mem_trimList (List.mem_of_mem_drop (hall.subset (mem_of_mem_trimList hd)))
    · cases h
  · cases h

/-- The same of a type text. -/
theorem NarrowType.of_all : ∀ (n : ℕ) {text : List Char}, text.length < n →
    (∀ c ∈ text, isWhitespace c = true → c.utf8Size = 1) → NarrowType text
  | 0, _, hlen, _ => absurd hlen (Nat.not_lt_zero _)
  | n + 1, text, hlen, hall => by
    cases harray : splitArrayType text with
    | notArray => exact .clause harray (.of_all (n + 1) hlen hall)
    | malformed => exact .shape harray
    | array dims elem =>
      obtain ⟨-, hshort, hsub⟩ := splitArrayType_elem harray
      exact .element harray (.of_all n (Nat.lt_of_lt_of_le hshort (Nat.le_of_lt_succ hlen))
        fun c hc => hall c (hsub hc))

/-- **Which texts are undecided.** -/
theorem canonical_none : ∀ (fuel : ℕ) (text : List Char), NarrowType text → text.length < fuel →
    (MalformedType text → scope.canonical fuel text = .ok none) ∧
    (¬ NamedType text → scope.canonical fuel text = .ok none → Blank text ∨ MalformedType text)
  | 0, _, _, hfuel => absurd hfuel (Nat.not_lt_zero _)
  | fuel + 1, text, hn, hfuel => by
    have hle := Nat.le_of_lt_succ hfuel
    by_cases hblank : Blank text
    · have hparse : scope.canonical (fuel + 1) text = .ok none := by
        rw [TypeScope.canonical, if_pos hblank.trim]
        rfl
      exact ⟨fun _ => hparse, fun _ _ => Or.inl hblank⟩
    have hne : trimList text ≠ [] := fun h => hblank (trimList_eq_nil_iff.mp h)
    cases harray : splitArrayType text with
    | notArray =>
      have hn : Narrow text := by
        cases hn with
        | clause _ hn => exact hn
        | shape h => cases harray.symm.trans h
        | element h _ => cases harray.symm.trans h
      refine ⟨fun hm => ?_, fun hnamed hparse => Or.inr (.clause harray ?_)⟩
      · cases hm with
        | clause _ hm => exact canonical_undecided hn hle harray hm
        | shape h => cases harray.symm.trans h
        | element h _ => cases harray.symm.trans h
      · exact malformed_of_canonical hn hle harray hblank (fun h => hnamed (.plain harray h)) hparse
    | malformed =>
      refine ⟨fun _ => ?_, fun _ _ => Or.inr (.shape harray)⟩
      rw [TypeScope.canonical]
      simp only [if_neg hne, harray, pure, Except.pure]
    | array dims elem =>
      obtain ⟨hne', hlen, -⟩ := splitArrayType_elem harray
      have hn : NarrowType elem := by
        cases hn with
        | clause h _ => cases harray.symm.trans h
        | shape h => cases harray.symm.trans h
        | element h hn =>
          obtain ⟨-, rfl⟩ := ArrayShape.array.inj (harray.symm.trans h)
          exact hn
      have hparse : scope.canonical (fuel + 1) text =
          (scope.canonical fuel elem).map (·.map (.array (String.ofList dims))) := by
        rw [TypeScope.canonical]
        simp only [if_neg hne, harray, bind, Except.bind, pure, Except.pure]
        cases scope.canonical fuel elem <;> rfl
      obtain ⟨hfrom, hto⟩ := canonical_none fuel elem hn (by omega)
      rw [hparse, map_none_iff]
      refine ⟨fun hm => ?_, fun hnamed h => Or.inr (.element harray ?_)⟩
      · cases hm with
        | clause h _ => cases harray.symm.trans h
        | shape h => cases harray.symm.trans h
        | element h hm =>
          obtain ⟨-, rfl⟩ := ArrayShape.array.inj (harray.symm.trans h)
          exact hfrom hm
      · exact (hto (fun h => hnamed (.element harray h)) h).resolve_left hne'

/-- **What the parse of a declared type promises.**  A rendering is read as the canonical type of its term
exactly if no blank cuts it; the canonical types tell terms apart, but for a length of the whole type; and
the texts without a type are the malformed ones, where nothing names an object. -/
theorem dispatchCanonicalTypeText_faithful (scope : TypeScope) :
    (∀ (t : TypeTerm) {a p : Bool} {r b b' : List Char}, Renders a p t r → Blank b → Blank b' →
      (scope.dispatchCanonicalTypeText (String.ofList (b ++ r ++ b')) = .ok (some t.canonical) ↔
        p = true)) ∧
    (∀ t t' : TypeTerm, t.canonical = t'.canonical ↔ t.unsized = t'.unsized) ∧
    ∀ text : List Char, NarrowType text →
      (MalformedType text → scope.dispatchCanonicalTypeText (String.ofList text) = .ok none) ∧
      (¬ NamedType text → scope.dispatchCanonicalTypeText (String.ofList text) = .ok none →
        Blank text ∨ MalformedType text) := by
  refine ⟨fun t _ _ _ _ _ hr hb hb' => canonical_of_renders t hr hb hb', canonical_inj,
    fun text hn => ?_⟩
  unfold TypeScope.dispatchCanonicalTypeText
  rw [String.toList_ofList]
  exact canonical_none _ text hn (Nat.lt_succ_self _)

/-- A program without objects. -/
def noObjects : TypeScope := ⟨fun _ _ => .unresolved, Char.toLower, fun _ _ => rfl⟩

def listWord : Keyword := ⟨['l', 'i', 's', 't'], by decide, forall_mem_of_all (by decide), by decide, by decide⟩

def codeWord : Keyword := ⟨['c', 'o', 'd', 'e'], by decide, forall_mem_of_all (by decide), by decide, by decide⟩

/-- A list of codes of a length. -/
def codeList (d : Digits) : TypeTerm := .generic listWord (.one (.scalar codeWord (some d)))

/-- `List of [Code[..]]` with `b` at the length. -/
def codeListText (b : List Char) (d : Digits) : List Char :=
  ['L', 'i', 's', 't'] ++ [' '] ++ (['o', 'f'] ++ [' '] ++ ('[' :: ([] ++
    (['C', 'o', 'd', 'e'] ++ [] ++ ('[' :: (b ++ d.chars ++ b ++ [']']))) ++ [] ++ [']'])))

theorem codeList_renders {b : List Char} (hb : Blank b) (d : Digits) :
    Renders (b ++ b).isEmpty (b ++ b).isEmpty (codeList d) (codeListText b d) := by
  have hcode : Renders (b ++ b).isEmpty (narrow (b ++ b)) (.scalar codeWord (some d))
      (['C', 'o', 'd', 'e'] ++ [] ++ ('[' :: (b ++ d.chars ++ b ++ [']']))) :=
    .sized (by rfl) blank_nil hb hb
  have hspace : Blank [' '] := by decide
  exact .generic (by rfl) hspace (List.cons_ne_nil _ _) (by rfl) hspace blank_nil (.one hcode) blank_nil

def ten : Digits := ⟨['1', '0'], by decide, forall_mem_of_all (by decide)⟩

def twenty : Digits := ⟨['2', '0'], by decide, forall_mem_of_all (by decide)⟩

/-- A list of codes without blanks is read, and a clause that is not closed is not. -/
theorem dispatchCanonicalTypeText_faithful_codes :
    noObjects.dispatchCanonicalTypeText "List of [Code[10]]" = .ok (some (codeList ten).canonical) ∧
    noObjects.dispatchCanonicalTypeText "List of [Code[10]" = .ok none := by
  obtain ⟨hread, -, hnone⟩ := dispatchCanonicalTypeText_faithful noObjects
  constructor
  · have hr := (hread (codeList ten) (codeList_renders blank_nil ten) blank_nil blank_nil).mpr rfl
    exact hr
  · have hnarrow : NarrowType "List of [Code[10]".toList :=
      .of_all _ (Nat.lt_succ_self _) (forall_mem_of_all (by decide +kernel))
    refine (hnone "List of [Code[10]".toList hnarrow).1 (.clause (by decide +kernel) ?_)
    have hclause : Clause "List of [Code[10]".toList " [Code[10]".toList :=
      Clause.mk (b := []) (w := ['L', 'i', 's', 't']) (o := ['o', 'f']) blank_nil (by decide)
        (forall_mem_of_all (by decide)) (by decide) (by decide : Blank [' ']) (by decide) (by rfl)
        fun c hc => Or.inl (by rw [← Option.some.inj hc]; decide)
    exact .unbalanced hclause (by decide)

/-- **Blanks at a length lose it.**  `List of [Code[ 10 ]]` and `List of [Code[10]]` are renderings of one
type and have different canonical types, and `List of [Code[ 20 ]]` has that of the first. -/
theorem dispatchCanonicalTypeText_length_lost :
    (∃ a p, Renders a p (codeList ten) "List of [Code[10]]".toList) ∧
    (∃ a p, Renders a p (codeList ten) "List of [Code[ 10 ]]".toList) ∧
    (∃ a p, Renders a p (codeList twenty) "List of [Code[ 20 ]]".toList) ∧
    (codeList ten).argType ≠ (codeList twenty).argType ∧
    noObjects.dispatchCanonicalTypeText "List of [Code[10]]" ≠
      noObjects.dispatchCanonicalTypeText "List of [Code[ 10 ]]" ∧
    noObjects.dispatchCanonicalTypeText "List of [Code[ 10 ]]" =
      noObjects.dispatchCanonicalTypeText "List of [Code[ 20 ]]" := by
  have hspace : Blank [' '] := by decide
  refine ⟨⟨_, _, codeList_renders blank_nil ten⟩, ⟨_, _, codeList_renders hspace ten⟩,
    ⟨_, _, codeList_renders hspace twenty⟩, by decide, by decide +kernel, by decide +kernel⟩

end AlSem.Resolve
