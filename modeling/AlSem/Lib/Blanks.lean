/-
# Blanks around a text

Texts made of white space, and texts with none at either end: what `trim` removes and what it leaves.
-/
import AlSem.Lib.Text
import Mathlib.Data.List.DropRight

namespace Text

/-- Nothing but white space. -/
def Blank (b : List Char) : Prop := ∀ c ∈ b, isWhitespace c = true

/-- A check of every character of a text. -/
theorem forall_mem_of_all {p : Char → Prop} [DecidablePred p] {l : List Char}
    (h : (l.all fun c => p c) = true) : ∀ c ∈ l, p c :=
  fun c hc => of_decide_eq_true (List.all_eq_true.mp h c hc)

instance (b : List Char) : Decidable (Blank b) :=
  decidable_of_iff (b.all isWhitespace = true) List.all_eq_true

/-- A text that starts and ends with something else. -/
structure Solid (x : List Char) : Prop where
  first : ∃ c xs, x = c :: xs ∧ isWhitespace c = false
  last : ∃ xs c, x = xs ++ [c] ∧ isWhitespace c = false

theorem blank_nil : Blank [] := fun _ h => absurd h List.not_mem_nil

theorem Blank.append {a b : List Char} (ha : Blank a) (hb : Blank b) : Blank (a ++ b) := by
  intro c hc
  rcases List.mem_append.mp hc with h | h
  · exact ha c h
  · exact hb c h

theorem Solid.ne_nil {x : List Char} (h : Solid x) : x ≠ [] := by
  obtain ⟨c, xs, rfl, -⟩ := h.first
  exact List.cons_ne_nil c xs

/-- What starts and ends solid is solid. -/
theorem Solid.join {x y : List Char} (hx : Solid x) (hy : Solid y) (m : List Char) :
    Solid (x ++ m ++ y) := by
  obtain ⟨c, xs, rfl, hc⟩ := hx.first
  obtain ⟨ys, d, rfl, hd⟩ := hy.last
  exact ⟨⟨c, xs ++ m ++ (ys ++ [d]), by simp, hc⟩, ⟨c :: xs ++ m ++ ys, d, by simp, hd⟩⟩

theorem solid_of_all {x : List Char} (hne : x ≠ []) (h : ∀ c ∈ x, isWhitespace c = false) :
    Solid x := by
  refine ⟨?_, x.dropLast, x.getLast hne, (List.dropLast_append_getLast hne).symm,
    h _ (List.getLast_mem hne)⟩
  cases x with
  | nil => exact absurd rfl hne
  | cons c xs => exact ⟨c, xs, rfl, h c List.mem_cons_self⟩

theorem solid_singleton {c : Char} (h : isWhitespace c = false) : Solid [c] :=
  solid_of_all (List.cons_ne_nil c []) fun d hd => by rwa [List.mem_singleton.mp hd]

theorem Blank.trimStart {b : List Char} (hb : Blank b) (x : List Char) :
    trimStartList (b ++ x) = trimStartList x := by
  induction b with
  | nil => rfl
  | cons c b ih =>
    rw [List.cons_append, trimStartList, List.dropWhile_cons_of_pos (hb c List.mem_cons_self)]
    exact ih fun d hd => hb d (List.mem_cons_of_mem _ hd)

theorem Blank.trimEnd {b : List Char} (hb : Blank b) (x : List Char) :
    trimEndList (x ++ b) = trimEndList x := by
  have hrev : Blank b.reverse := fun c hc => hb c (List.mem_reverse.mp hc)
  unfold trimEndList trimEndBy
  rw [List.reverse_append]
  exact congrArg List.reverse (hrev.trimStart x.reverse)

theorem Solid.trimStart {x : List Char} (hx : Solid x) (y : List Char) :
    trimStartList (x ++ y) = x ++ y := by
  obtain ⟨c, xs, rfl, hc⟩ := hx.first
  rw [List.cons_append, trimStartList, List.dropWhile_cons_of_neg (by rw [hc]; exact Bool.false_ne_true)]

theorem Solid.trimEnd_prepend {x : List Char} (hx : Solid x) (a : List Char) :
    trimEndList (a ++ x) = a ++ x := by
  obtain ⟨xs, c, rfl, hc⟩ := hx.last
  unfold trimEndList trimEndBy
  rw [← List.append_assoc, List.reverse_append, List.reverse_singleton, List.singleton_append,
    List.dropWhile_cons_of_neg (by rw [hc]; exact Bool.false_ne_true), List.reverse_cons,
    List.reverse_reverse]

theorem Solid.trimEnd {x : List Char} (hx : Solid x) : trimEndList x = x := hx.trimEnd_prepend []

/-- **`trim` removes the blanks** around a solid text. -/
theorem trimList_pad {b x b' : List Char} (hb : Blank b) (hx : Solid x) (hb' : Blank b') :
    trimList (b ++ x ++ b') = x := by
  rw [trimList, List.append_assoc, hb.trimStart, hx.trimStart, hb'.trimEnd, hx.trimEnd]

theorem Solid.trim {x : List Char} (hx : Solid x) : trimList x = x := by
  have h := trimList_pad blank_nil hx blank_nil
  rwa [List.nil_append, List.append_nil] at h

theorem Blank.trim {b : List Char} (hb : Blank b) : trimList b = [] := by
  have h := hb.trimStart []
  rw [List.append_nil] at h
  rw [trimList, h]
  rfl

theorem Blank.trim_append {b : List Char} (hb : Blank b) (x : List Char) :
    trimList (b ++ x) = trimList x := by
  rw [trimList, hb.trimStart]
  rfl

/-- Behind a solid text only the rest is trimmed. -/
theorem Solid.trimEnd_append {x : List Char} (hx : Solid x) (y : List Char) :
    trimEndList (x ++ y) = x ++ trimEndList y := by
  unfold trimEndList trimEndBy
  rw [List.reverse_append, List.dropWhile_append]
  split
  · rename_i h
    rw [List.isEmpty_iff] at h
    rw [h]
    simpa [trimEndList, trimEndBy] using hx.trimEnd
  · rw [List.reverse_append, List.reverse_reverse]

/-- Every text is blank, or blanks around a solid text. -/
theorem blank_or_pad (cs : List Char) :
    Blank cs ∨ ∃ b x b', cs = b ++ x ++ b' ∧ Blank b ∧ Solid x ∧ Blank b' := by
  by_cases hblank : Blank cs
  · exact Or.inl hblank
  right
  have hstart : cs.dropWhile isWhitespace ≠ [] := fun h =>
    hblank fun c hc => List.dropWhile_eq_nil_iff.mp h c hc
  have hfirst := List.head_dropWhile_not isWhitespace hstart
  have hsplit := (List.takeWhile_append_dropWhile (p := isWhitespace) (l := cs)).symm
  generalize hy : cs.dropWhile isWhitespace = y at hstart hfirst hsplit
  have hend : y.rdropWhile isWhitespace ≠ [] := fun h => by
    have := List.rdropWhile_eq_nil_iff.mp h _ (List.head_mem hstart)
    rw [hfirst] at this
    exact Bool.false_ne_true this
  have hlast := List.rdropWhile_last_not isWhitespace y hend
  have hjoin : y = y.rdropWhile isWhitespace ++ (y.rtakeWhile isWhitespace) :=
    List.rdropWhile_append_rtakeWhile.symm
  refine ⟨cs.takeWhile isWhitespace, y.rdropWhile isWhitespace, y.rtakeWhile isWhitespace, ?_,
    fun c hc => List.mem_takeWhile_imp hc, ⟨?_, ?_⟩, fun c hc => List.mem_rtakeWhile_imp hc⟩
  · rw [List.append_assoc, ← hjoin]
    exact hsplit
  · cases hx : y.rdropWhile isWhitespace with
    | nil => exact absurd hx hend
    | cons c xs =>
      refine ⟨c, xs, rfl, ?_⟩
      rw [hx] at hjoin
      generalize y.rtakeWhile isWhitespace = tail at hjoin
      subst hjoin
      exact hfirst
  · refine ⟨_, _, (List.dropLast_append_getLast hend).symm, ?_⟩
    exact Bool.eq_false_of_not_eq_true hlast

theorem Blank.trim_append_right {b : List Char} (hb : Blank b) (x : List Char) :
    trimList (x ++ b) = trimList x := by
  rcases blank_or_pad x with hx | ⟨a, y, a', rfl, ha, hy, ha'⟩
  · rw [hx.trim_append, hb.trim, hx.trim]
  · rw [List.append_assoc, trimList_pad ha hy (ha'.append hb), trimList_pad ha hy ha']

/-- It does not matter which end is trimmed first. -/
theorem trimStart_trimEnd (x : List Char) : trimStartList (trimEndList x) = trimList x := by
  rcases blank_or_pad x with hx | ⟨a, y, a', rfl, ha, hy, ha'⟩
  · have hnil : trimEndList x = [] := by
      have := hx.trimEnd []
      rwa [List.nil_append] at this
    rw [hnil, hx.trim]
    rfl
  · have hstart := hy.trimStart []
    rw [List.append_nil] at hstart
    rw [ha'.trimEnd, trimList_pad ha hy ha', hy.trimEnd_prepend, ha.trimStart, hstart]

theorem trimList_eq_nil_iff {cs : List Char} : trimList cs = [] ↔ Blank cs := by
  refine ⟨fun h => ?_, Blank.trim⟩
  rcases blank_or_pad cs with hb | ⟨b, x, b', rfl, hb, hx, hb'⟩
  · exact hb
  · rw [trimList_pad hb hx hb'] at h
    exact absurd h hx.ne_nil

/-- What `trim` leaves is nothing or solid. -/
theorem trimList_solid {cs : List Char} (h : ¬ Blank cs) : Solid (trimList cs) := by
  rcases blank_or_pad cs with hb | ⟨b, x, b', rfl, hb, hx, hb'⟩
  · exact absurd hb h
  · rwa [trimList_pad hb hx hb']

theorem length_trimList_le (cs : List Char) : (trimList cs).length ≤ cs.length := by
  rcases blank_or_pad cs with hb | ⟨b, x, b', rfl, hb, hx, hb'⟩
  · rw [hb.trim]
    exact Nat.zero_le _
  · rw [trimList_pad hb hx hb']
    simp only [List.length_append]
    omega

theorem mem_of_mem_trimList {cs : List Char} {c : Char} (h : c ∈ trimList cs) : c ∈ cs := by
  rcases blank_or_pad cs with hb | ⟨b, x, b', rfl, hb, hx, hb'⟩
  · rw [hb.trim] at h
    exact absurd h List.not_mem_nil
  · rw [trimList_pad hb hx hb'] at h
    exact List.mem_append_left _ (List.mem_append_right _ h)

end Text
