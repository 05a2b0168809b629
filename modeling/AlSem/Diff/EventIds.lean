/-
# Event ids and their identities

An event id is a publisher object, a name and a hash with `::` between them; the passes compare the
first two, joined again, as an event's identity.  An identity determines both (`identity_inj`), and
a renamed event id is read as the renamed publisher object with the same name
(`parse_renameEventId`).
-/
import AlSem.Diff.RenameIndexes

namespace AlSem.Diff

open AlSem.Snapshot PairSplit

/-- Every part of a text is clean: it can stand in front of a separator. -/
def Separable (s : String) : Prop := ∀ p ∈ eventParts s, Clean ':' p

theorem separable_of_clean {s : String} (h : Clean ':' s.toList) : Separable s := clean_parts h

theorem toList_identity (object name : String) :
    (object ++ "::" ++ name).toList = object.toList ++ ':' :: ':' :: name.toList := by
  rw [String.toList_append, String.toList_append, List.append_assoc]
  rfl

/-- The parts of an identity. -/
theorem eventParts_identity {object : String} (h : Separable object) (name : String) :
    eventParts (object ++ "::" ++ name) = eventParts object ++ eventParts name := by
  unfold eventParts
  rw [toList_identity]
  exact split_append h _

theorem eq_of_eventParts {s t : String} (h : eventParts s = eventParts t) : s = t :=
  String.toList_inj.mp (split_injective h)

/-- **An identity determines its object and its name.** -/
theorem identity_inj {object object' name name' : String} (h : Separable object)
    (h' : Separable object') (hn : Whole ':' name.toList) (hn' : Whole ':' name'.toList)
    (heq : object ++ "::" ++ name = object' ++ "::" ++ name') : object = object' ∧ name = name' := by
  have hparts : eventParts object ++ [name.toList] = eventParts object' ++ [name'.toList] := by
    have hsplit := congrArg eventParts heq
    rw [eventParts_identity h, eventParts_identity h'] at hsplit
    unfold eventParts at hsplit ⊢
    rwa [hn, hn'] at hsplit
  obtain ⟨hobject, hname⟩ := List.append_inj' hparts rfl
  exact ⟨eq_of_eventParts hobject, String.toList_inj.mp (List.cons.inj hname).1⟩

/-! ## 1. The three parts -/

section

variable {e : String}

theorem parse_of_three (h : 3 ≤ (eventParts e).length) :
    parseEventIdentity e =
      ⟨String.ofList (join ':' ((eventParts e).take ((eventParts e).length - 2))),
        String.ofList ((eventParts e)[(eventParts e).length - 2]?.getD [])⟩ := by
  unfold parseEventIdentity
  exact if_neg (Nat.not_lt.mpr h)

/-- The parts of the publisher object are not the last. -/
theorem clean_of_mem_take {p : List Char}
    (h : p ∈ (eventParts e).take ((eventParts e).length - 2)) : Clean ':' p := by
  refine clean_of_mem_dropLast (s := e.toList) ?_
  rw [List.dropLast_eq_take]
  have hle : (eventParts e).length - 2 ≤ (eventParts e).length - 1 := by omega
  exact List.take_subset_take_left _ hle h

/-- The parts of the publisher object are the first parts of the id. -/
theorem eventParts_publisherObject (h : 3 ≤ (eventParts e).length) :
    eventParts (publisherObject e) = (eventParts e).take ((eventParts e).length - 2) := by
  have hne : (eventParts e).take ((eventParts e).length - 2) ≠ [] := by
    intro hnil
    have hlen := congrArg List.length hnil
    rw [List.length_take, List.length_nil] at hlen
    omega
  unfold publisherObject
  rw [parse_of_three h]
  unfold eventParts at hne ⊢
  rw [String.toList_ofList]
  exact split_join hne (fun p hp => whole_of_mem_split (List.mem_of_mem_take hp))
    fun p hp => clean_of_mem_take (List.mem_of_mem_dropLast hp)

/-- The publisher object can stand in front of a separator. -/
theorem separable_publisherObject (h : 3 ≤ (eventParts e).length) :
    Separable (publisherObject e) := by
  intro p hp
  rw [eventParts_publisherObject h] at hp
  exact clean_of_mem_take hp

/-- The parts of an id: those of its publisher object, its name and its hash. -/
theorem eventParts_eq (h : 3 ≤ (eventParts e).length) :
    ∃ name hash, eventParts e = eventParts (publisherObject e) ++ [name, hash] ∧
      (parseEventIdentity e).eventName = String.ofList name ∧ Whole ':' name ∧ Clean ':' name ∧
      Whole ':' hash := by
  obtain ⟨n, hn⟩ : ∃ n, (eventParts e).length = n + 2 := ⟨_, (Nat.sub_add_cancel (by omega)).symm⟩
  have hdrop : ((eventParts e).drop n).length = 2 := by
    rw [List.length_drop]
    omega
  obtain ⟨name, hash, hrest⟩ := List.length_eq_two.mp hdrop
  have happ : eventParts e = (eventParts e).take n ++ [name, hash] := by
    rw [← hrest, List.take_append_drop]
  have hmem : ∀ p ∈ [name, hash], Whole ':' p := by
    intro p hp
    rw [← hrest] at hp
    exact whole_of_mem_split (List.mem_of_mem_drop hp)
  have hname : (eventParts e)[n]? = some name := by
    rw [happ, List.getElem?_append_right (by rw [List.length_take]; omega), List.length_take]
    simp [hn]
  refine ⟨name, hash, ?_, ?_, hmem name (by simp), ?_, hmem hash (by simp)⟩
  · rw [eventParts_publisherObject h, hn, Nat.add_sub_cancel]
    exact happ
  · rw [parse_of_three h, hn, Nat.add_sub_cancel, hname]
    rfl
  · refine clean_of_mem_dropLast (s := e.toList) ?_
    unfold eventParts at happ
    rw [happ, List.dropLast_append_of_ne_nil (List.cons_ne_nil _ _)]
    exact List.mem_append_right _ (by simp)

/-- What follows the publisher object is split into the name and the hash. -/
theorem eventParts_rest {object : List (List Char)} {name hash : List Char}
    (hparts : eventParts e = object ++ [name, hash]) (hname : Whole ':' name)
    (hclean : Clean ':' name) (hhash : Whole ':' hash) :
    eventParts (String.ofList (join ':' ((eventParts e).drop ((eventParts e).length - 2)))) =
      [name, hash] := by
  have hdrop : (eventParts e).drop ((eventParts e).length - 2) = [name, hash] := by
    rw [hparts, List.length_append]
    exact List.drop_left
  rw [hdrop]
  unfold eventParts
  rw [String.toList_ofList]
  refine split_join (List.cons_ne_nil _ _) ?_ ?_
  · intro p hp
    rcases List.mem_pair.mp hp with rfl | rfl
    · exact hname
    · exact hhash
  · intro p hp
    rw [List.mem_singleton.mp hp]
    exact hclean

theorem whole_eventName (h : 3 ≤ (eventParts e).length) :
    Whole ':' (parseEventIdentity e).eventName.toList := by
  obtain ⟨name, hash, -, hparse, hwhole, -, -⟩ := eventParts_eq h
  rw [hparse, String.toList_ofList]
  exact hwhole

/-! ## 2. Renaming -/

variable (ρ : String → String)

/-- An id whose publisher object stays is what it was. -/
theorem renameEventId_of_eq (h : ρ (publisherObject e) = publisherObject e) :
    renameEventId ρ e = e := by
  unfold renameEventId
  dsimp only
  by_cases hlen : (eventParts e).length < 3
  · rw [if_pos hlen]
  · have hlen := Nat.not_lt.mp hlen
    rw [if_neg (Nat.not_lt.mpr hlen), h]
    obtain ⟨name, hash, hparts, -, hwhole, hclean, hhash⟩ := eventParts_eq hlen
    refine eq_of_eventParts ?_
    rw [eventParts_identity (separable_publisherObject hlen),
      eventParts_rest hparts hwhole hclean hhash, ← hparts]

/-- **A renamed event id is read as the renamed publisher object with the same name.** -/
theorem parse_renameEventId (h : 3 ≤ (eventParts e).length)
    (hclean : ρ (publisherObject e) ≠ publisherObject e →
      Clean ':' (ρ (publisherObject e)).toList) :
    parseEventIdentity (renameEventId ρ e) =
      ⟨ρ (publisherObject e), (parseEventIdentity e).eventName⟩ := by
  by_cases hsame : ρ (publisherObject e) = publisherObject e
  · rw [renameEventId_of_eq ρ hsame, hsame]
    rfl
  · obtain ⟨name, hash, hparts, hname, hwhole, hcl, hhash⟩ := eventParts_eq h
    have hsep := separable_of_clean (hclean hsame)
    have hnew : eventParts (renameEventId ρ e) =
        eventParts (ρ (publisherObject e)) ++ [name, hash] := by
      unfold renameEventId
      dsimp only
      rw [if_neg (Nat.not_lt.mpr h), eventParts_identity hsep,
        eventParts_rest hparts hwhole hcl hhash]
    have hpos : 0 < (eventParts (ρ (publisherObject e))).length :=
      List.length_pos_of_ne_nil (split_ne_nil _)
    have hlen : (eventParts (renameEventId ρ e)).length =
        (eventParts (ρ (publisherObject e))).length + 2 := by
      rw [hnew, List.length_append]
      rfl
    rw [parse_of_three (by omega), hlen, Nat.add_sub_cancel, hnew, List.take_left,
      List.getElem?_append_right (Nat.le_refl _), Nat.sub_self, hname]
    unfold eventParts
    rw [join_split, String.ofList_toList]
    rfl

/-- An id is renamed exactly when its publisher object is. -/
theorem renameEventId_eq_iff (h : 3 ≤ (eventParts e).length)
    (hclean : ρ (publisherObject e) ≠ publisherObject e →
      Clean ':' (ρ (publisherObject e)).toList) :
    renameEventId ρ e = e ↔ ρ (publisherObject e) = publisherObject e := by
  constructor
  · intro heq
    have hparse := parse_renameEventId ρ h hclean
    rw [heq] at hparse
    exact (congrArg EventIdentity.publisherObject hparse).symm
  · exact renameEventId_of_eq ρ

end

end AlSem.Diff
