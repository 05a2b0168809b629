/-
# Rung-1 patching against a wholesale rebuild

After every rung-1 batch the callers are those of a rebuild whatever was saved; the reference
counts, and with them the declarations, are those of a rebuild as long as no save declares an id
twice that its file did not declare before: `build_decl_multiplicity` counts such a file once, the
patch once for each declaration, and the count never comes down again (`applyRung1Core_rebuilt`).

Each save is followed through the counts' excess over the declaring files (`Counts`), which only
grows (`Counts.patch`), so a run is right exactly when the excess stays nought.
-/
import AlSem.Lsp.IndexSpec

namespace AlSem.Lsp

variable {RoutineNodeId : Type} [LinearOrder RoutineNodeId]

/-! ## 1. The callers -/

/-- The references of all files but one. -/
theorem allRefs_erase (edgesByFile : EdgesByFile RoutineNodeId)
    (eventEdges : List (LspEdge RoutineNodeId)) (vp : VirtualPath) (t : RoutineNodeId) :
    (allRefs edgesByFile eventEdges t).filter (fun r => r.file ≠ vp.1) =
      allRefs (edgesByFile.erase vp) eventEdges t := by
  unfold allRefs
  rw [List.filter_append, HashMap.entries_erase]
  congr 1
  · generalize edgesByFile.entries = l
    induction l with
    | nil => rfl
    | cons f l ih =>
      rw [List.flatMap_cons, List.filter_append, ih]
      by_cases hf : f.1 = vp
      · have hnone : (fileRefs f.1.1 f.2 t).filter (fun r => r.file ≠ vp.1) = [] := by
          rw [List.filter_eq_nil_iff]
          intro r hr
          simp [file_of_mem_fileRefs hr, hf]
        rw [hnone, List.filter_cons_of_neg (by simp [hf]), List.nil_append]
      · have hall : (fileRefs f.1.1 f.2 t).filter (fun r => r.file ≠ vp.1) = fileRefs f.1.1 f.2 t := by
          rw [List.filter_eq_self]
          intro r hr
          have hne : f.1.1 ≠ vp.1 := fun heq => hf (Subtype.ext heq)
          simp [file_of_mem_fileRefs hr, hne]
        rw [hall, List.filter_cons_of_pos (by simp [hf]), List.flatMap_cons]
  · rw [List.filter_eq_self]
    intro r hr
    simp [file_of_mem_fileRefs hr, vp.ne_eventEdgesKey.symm]

theorem allRefs_insert (edgesByFile : EdgesByFile RoutineNodeId)
    (eventEdges : List (LspEdge RoutineNodeId)) (vp : VirtualPath)
    (edges : List (LspEdge RoutineNodeId)) (t : RoutineNodeId) :
    (allRefs (edgesByFile.insert vp edges) eventEdges t).Perm
      (allRefs (edgesByFile.erase vp) eventEdges t ++ fileRefs vp.1 edges t) := by
  unfold allRefs
  rw [AList.entries_insert, List.flatMap_cons, List.append_assoc]
  exact List.perm_append_comm

/-- A file without an edge to a target is in none of its references. -/
theorem file_ne_of_mem_allRefs {edgesByFile : EdgesByFile RoutineNodeId}
    {eventEdges : List (LspEdge RoutineNodeId)} {vp : VirtualPath} {t : RoutineNodeId}
    (ht : t ∉ targetsOf ((edgesByFile.lookup vp).getD [])) {r : EdgeRef}
    (hr : r ∈ allRefs edgesByFile eventEdges t) : r.file ≠ vp.1 := by
  unfold allRefs at hr
  rcases List.mem_append.mp hr with hr | hr
  · obtain ⟨f, hf, hr⟩ := List.mem_flatMap.mp hr
    rw [file_of_mem_fileRefs hr]
    intro heq
    obtain rfl := Subtype.ext heq
    rw [AList.mem_lookup_iff.mpr hf, Option.getD_some] at ht
    have hnone : fileRefs f.1.1 f.2 t = [] := fileRefs_eq_nil fun e he hmem =>
      ht (List.mem_flatMap.mpr ⟨e, he, hmem⟩)
    rw [hnone] at hr
    cases hr
  · rw [file_of_mem_fileRefs hr]
    exact vp.ne_eventEdgesKey.symm

/-- Taking a file out of the lists of some targets. -/
theorem getList_foldl_retain (p : EdgeRef → Bool) (targets : List RoutineNodeId)
    (inc : HashMap RoutineNodeId (List EdgeRef)) (t : RoutineNodeId) :
    HashMap.getList (targets.foldl (fun inc t => HashMap.retain inc t p) inc) t =
      if t ∈ targets then (HashMap.getList inc t).filter p else HashMap.getList inc t := by
  induction targets generalizing inc with
  | nil => simp
  | cons t' targets ih =>
    rw [List.foldl_cons, ih, HashMap.getList_retain]
    by_cases ht : t = t'
    · subst ht
      simp
    · simp [ht]

theorem noEmpty_foldl_retain {p : EdgeRef → Bool} (targets : List RoutineNodeId)
    {inc : HashMap RoutineNodeId (List EdgeRef)} (h : HashMap.NoEmpty inc) :
    HashMap.NoEmpty (targets.foldl (fun inc t => HashMap.retain inc t p) inc) := by
  induction targets generalizing inc with
  | nil => exact h
  | cons t targets ih => exact ih (h.retain t p)

/-- **The callers are the references.** -/
structure Callers (incoming : HashMap RoutineNodeId (List EdgeRef))
    (edgesByFile : EdgesByFile RoutineNodeId) (eventEdges : List (LspEdge RoutineNodeId)) : Prop where
  refs : ∀ t, (HashMap.getList incoming t).Perm (allRefs edgesByFile eventEdges t)
  noEmpty : HashMap.NoEmpty incoming

theorem buildIncoming_callers (edgesByFile : EdgesByFile RoutineNodeId)
    (eventEdges : List (LspEdge RoutineNodeId)) :
    Callers (buildIncoming edgesByFile eventEdges).1 edgesByFile eventEdges :=
  ⟨fun t => by rw [getList_buildIncoming], noEmpty_buildIncoming _ _⟩

/-- **A file's edges replaced.** -/
theorem Callers.patch {incoming : HashMap RoutineNodeId (List EdgeRef)}
    {edgesByFile : EdgesByFile RoutineNodeId} {eventEdges : List (LspEdge RoutineNodeId)}
    (h : Callers incoming edgesByFile eventEdges) (vp : VirtualPath)
    (edges : List (LspEdge RoutineNodeId)) :
    Callers (patchIncoming vp ((edgesByFile.lookup vp).getD []) edges incoming)
      (edgesByFile.insert vp edges) eventEdges := by
  refine ⟨fun t => ?_, noEmpty_pushFile (noEmpty_foldl_retain _ h.noEmpty) _ _⟩
  unfold patchIncoming
  rw [getList_pushFile, getList_foldl_retain]
  refine List.Perm.trans (List.Perm.append_right _ ?_) (allRefs_insert _ _ _ _ _).symm
  rw [← allRefs_erase]
  have hkept := (h.refs t).filter fun r : EdgeRef => decide (r.file ≠ vp.1)
  split
  · exact hkept
  · rename_i ht
    refine List.Perm.trans (List.Perm.of_eq ?_) hkept
    refine (List.filter_eq_self.mpr fun r hr => decide_eq_true ?_).symm
    exact file_ne_of_mem_allRefs ht ((h.refs t).mem_iff.mp hr)

/-- The callers of what neither list targets stay. -/
theorem getList_patchIncoming_ne {vp : VirtualPath} {old new : List (LspEdge RoutineNodeId)}
    {incoming : HashMap RoutineNodeId (List EdgeRef)} {t : RoutineNodeId} (hold : t ∉ targetsOf old)
    (hnew : t ∉ targetsOf new) :
    HashMap.getList (patchIncoming vp old new incoming) t = HashMap.getList incoming t := by
  unfold patchIncoming
  rw [getList_pushFile, getList_foldl_retain, if_neg hold]
  have hnone : fileRefs vp.1 new t = [] := fileRefs_eq_nil fun e he hmem =>
    hnew (List.mem_flatMap.mpr ⟨e, he, hmem⟩)
  rw [hnone, List.append_nil]

/-! ## 2. The reference counts -/

theorem mem_droppedIds {old new : List (DeclEntry RoutineNodeId)} {id : RoutineNodeId} :
    id ∈ droppedIds old new ↔ id ∈ idsOf old ∧ id ∉ idsOf new := by
  unfold droppedIds
  rw [List.mem_filter, List.mem_dedup]
  simp

theorem nodup_droppedIds (old new : List (DeclEntry RoutineNodeId)) : (droppedIds old new).Nodup :=
  (List.nodup_dedup _).filter _

section Decls

variable {decls : DeclsByFile RoutineNodeId} {vp : VirtualPath}

/-- One id's count goes down by one. -/
theorem getD_removeDecl (ix : DeclIndex RoutineNodeId) (id k : RoutineNodeId) :
    ((removeDecl decls vp ix id).2.lookup k).getD 0 =
      (ix.2.lookup k).getD 0 - if k = id then 1 else 0 := by
  have hcount : ∀ count, ix.2.lookup id = some count → ((ix.2.insert id (count - 1)).lookup k).getD 0 =
      (ix.2.lookup k).getD 0 - if k = id then 1 else 0 := by
    intro count hl
    by_cases hk : k = id
    · subst hk
      simp [hl]
    · simp [AList.lookup_insert_ne hk, hk]
  unfold removeDecl
  cases hl : ix.2.lookup id with
  | none =>
    by_cases hk : k = id
    · subst hk
      simp [hl]
    · simp [hk]
  | some count =>
    dsimp only
    split
    · rename_i hzero
      by_cases hk : k = id
      · subst hk
        simp [hl, hzero]
      · simp [AList.lookup_erase_ne hk, hk]
    · split
      · split <;> exact hcount count hl
      · exact hcount count hl

theorem pos_removeDecl {ix : DeclIndex RoutineNodeId} (hpos : ∀ k, ix.2.lookup k ≠ some 0)
    (id : RoutineNodeId) : ∀ k, (removeDecl decls vp ix id).2.lookup k ≠ some 0 := by
  have hcount : ∀ count, count - 1 ≠ 0 → ∀ k, (ix.2.insert id (count - 1)).lookup k ≠ some 0 := by
    intro count hne k
    by_cases hk : k = id
    · rw [hk, AList.lookup_insert]
      simpa using hne
    · rw [AList.lookup_insert_ne hk]
      exact hpos k
  intro k
  unfold removeDecl
  cases hl : ix.2.lookup id with
  | none => exact hpos k
  | some count =>
    dsimp only
    split
    · by_cases hk : k = id
      · rw [hk, AList.lookup_erase]
        simp
      · rw [AList.lookup_erase_ne hk]
        exact hpos k
    · rename_i hne
      split
      · split <;> exact hcount count hne k
      · exact hcount count hne k

theorem getD_foldl_removeDecl {ids : List RoutineNodeId} (hnd : ids.Nodup)
    (ix : DeclIndex RoutineNodeId) (k : RoutineNodeId) :
    ((ids.foldl (removeDecl decls vp) ix).2.lookup k).getD 0 =
      (ix.2.lookup k).getD 0 - if k ∈ ids then 1 else 0 := by
  induction ids generalizing ix with
  | nil => rfl
  | cons id ids ih =>
    obtain ⟨hnot, hnd⟩ := List.nodup_cons.mp hnd
    rw [List.foldl_cons, ih hnd, getD_removeDecl]
    by_cases hk : k = id
    · subst hk
      simp [hnot]
    · simp [hk]

theorem pos_foldl_removeDecl {ids : List RoutineNodeId} {ix : DeclIndex RoutineNodeId}
    (hpos : ∀ k, ix.2.lookup k ≠ some 0) :
    ∀ k, (ids.foldl (removeDecl decls vp) ix).2.lookup k ≠ some 0 := by
  induction ids generalizing ix with
  | nil => exact hpos
  | cons id ids ih => exact ih (pos_removeDecl hpos id)

/-- Each new declaration of an id that the file had not counts once more. -/
theorem getD_foldl_addDecl (oldIds : List RoutineNodeId) (new : List (DeclEntry RoutineNodeId))
    (ix : DeclIndex RoutineNodeId) (k : RoutineNodeId) :
    ((new.foldl (addDecl oldIds) ix).2.lookup k).getD 0 =
      (ix.2.lookup k).getD 0 + if k ∈ oldIds then 0 else (idsOf new).count k := by
  induction new generalizing ix with
  | nil => simp [idsOf]
  | cons d new ih =>
    rw [List.foldl_cons, ih]
    have hids : idsOf (d :: new) = d.id :: idsOf new := rfl
    unfold addDecl
    dsimp only
    rw [hids, List.count_cons]
    by_cases hold : oldIds.contains d.id = true
    · rw [if_pos hold]
      by_cases hk : k ∈ oldIds
      · rw [if_pos hk, if_pos hk]
      · have hne : d.id ≠ k := fun heq => hk (heq ▸ List.contains_iff_mem.mp hold)
        rw [if_neg hk, if_neg hk, if_neg (by simpa using hne), Nat.add_zero]
    · rw [if_neg hold, HashMap.getD_bump]
      by_cases hk : k = d.id
      · subst hk
        have hnot : d.id ∉ oldIds := fun h => hold (List.contains_iff_mem.mpr h)
        rw [if_neg hnot, if_neg hnot, if_pos rfl, if_pos (by simp)]
        omega
      · have hne : (d.id == k) = false := by simpa using Ne.symm hk
        rw [if_neg hk, hne, Nat.add_zero, if_neg Bool.false_ne_true, Nat.add_zero]

theorem pos_foldl_addDecl {oldIds : List RoutineNodeId} {new : List (DeclEntry RoutineNodeId)}
    {ix : DeclIndex RoutineNodeId} (hpos : ∀ k, ix.2.lookup k ≠ some 0) :
    ∀ k, (new.foldl (addDecl oldIds) ix).2.lookup k ≠ some 0 := by
  induction new generalizing ix with
  | nil => exact hpos
  | cons d new ih =>
    refine ih ?_
    unfold addDecl
    dsimp only
    split
    · exact hpos
    · exact pos_bump hpos d.id

/-- What a save counts too often: the further declarations of an id its file had not. -/
def excess (old new : List (DeclEntry RoutineNodeId)) (id : RoutineNodeId) : ℕ :=
  if id ∈ idsOf old then 0 else (idsOf new).count id - 1

theorem declaring_insert (decls : DeclsByFile RoutineNodeId) (vp : VirtualPath)
    (new : List (DeclEntry RoutineNodeId)) (id : RoutineNodeId) :
    declaring (decls.insert vp new) id =
      declaring (decls.erase vp) id + if id ∈ idsOf new then 1 else 0 := by
  unfold declaring
  rw [HashMap.count_insert]
  simp only [List.contains_iff_mem]

theorem declaring_eq_erase (decls : DeclsByFile RoutineNodeId) (vp : VirtualPath)
    (id : RoutineNodeId) :
    declaring decls id =
      declaring (decls.erase vp) id + if id ∈ idsOf ((decls.lookup vp).getD []) then 1 else 0 := by
  unfold declaring
  rw [HashMap.count_eq_erase _ _ vp]
  congr 1
  cases decls.lookup vp with
  | none => simp [idsOf]
  | some l => simp

/-- **A file's declarations replaced**: the counts' excess grows by the save's. -/
theorem Counts.patch {byId : HashMap RoutineNodeId (DeclEntry RoutineNodeId)}
    {mult : HashMap RoutineNodeId ℕ} {x : RoutineNodeId → ℕ} (h : Counts mult decls x)
    (vp : VirtualPath) (new : List (DeclEntry RoutineNodeId)) :
    Counts (patchDecls decls vp ((decls.lookup vp).getD []) new (byId, mult)).2
      (decls.insert vp new) fun id => x id + excess ((decls.lookup vp).getD []) new id := by
  refine ⟨pos_foldl_addDecl (pos_foldl_removeDecl h.pos), fun id => ?_⟩
  unfold patchDecls excess
  rw [getD_foldl_addDecl, getD_foldl_removeDecl (nodup_droppedIds _ _), h.eq, declaring_insert,
    declaring_eq_erase decls vp]
  by_cases hold : id ∈ idsOf ((decls.lookup vp).getD [])
  · by_cases hnew : id ∈ idsOf new
    · have hdrop : id ∉ droppedIds ((decls.lookup vp).getD []) new := fun hd =>
        (mem_droppedIds.mp hd).2 hnew
      simp only [if_pos hold, if_pos hnew, if_neg hdrop]
      omega
    · simp only [if_pos hold, if_neg hnew, if_pos (mem_droppedIds.mpr ⟨hold, hnew⟩)]
      omega
  · have hdrop : id ∉ droppedIds ((decls.lookup vp).getD []) new := fun hd =>
      hold (mem_droppedIds.mp hd).1
    simp only [if_neg hold, if_neg hdrop]
    by_cases hnew : id ∈ idsOf new
    · have hpos : 0 < (idsOf new).count id := List.count_pos_iff.mpr hnew
      rw [if_pos hnew]
      omega
    · rw [if_neg hnew, List.count_eq_zero_of_not_mem hnew]
      omega

/-! ## 3. The declarations -/

/-- Every declaration carries its file's path. -/
def Pathed (decls : DeclsByFile RoutineNodeId) : Prop :=
  ∀ vp l, decls.lookup vp = some l → ∀ d ∈ l, d.virtualPath = vp.1

omit [LinearOrder RoutineNodeId] in
theorem Pathed.insert (h : Pathed decls) {new : List (DeclEntry RoutineNodeId)}
    (hnew : ∀ d ∈ new, d.virtualPath = vp.1) : Pathed (decls.insert vp new) := by
  intro vp' l hl d hd
  by_cases hvp : vp' = vp
  · subst hvp
    rw [AList.lookup_insert] at hl
    obtain rfl := Option.some.inj hl
    exact hnew d hd
  · rw [AList.lookup_insert_ne hvp] at hl
    exact h vp' l hl d hd

/-- A declaration of an id in a file other than `vp`. -/
def Elsewhere (decls : DeclsByFile RoutineNodeId) (vp : VirtualPath) (id : RoutineNodeId)
    (d : DeclEntry RoutineNodeId) : Prop :=
  d.id = id ∧ ∃ f l, f ≠ vp ∧ decls.lookup f = some l ∧ d ∈ l

/-- Another declaring file has an entry, and only such a file has. -/
theorem otherDecl_spec {id : RoutineNodeId} :
    (∀ d, otherDecl decls vp id = some d → Elsewhere decls vp id d) ∧
      (otherDecl decls vp id = none → declaring (decls.erase vp) id = 0) := by
  unfold otherDecl
  constructor
  · intro d hd
    obtain ⟨f, hf, hfind⟩ := List.exists_of_findSome?_eq_some hd
    obtain ⟨hf, hne⟩ := List.mem_filter.mp hf
    have hid := @List.find?_some _ (fun d : DeclEntry RoutineNodeId => decide (d.id = id)) _ _ hfind
    exact ⟨of_decide_eq_true hid, f.1, f.2, of_decide_eq_true hne,
      AList.mem_lookup_iff.mpr hf, List.mem_of_find?_eq_some hfind⟩
  · intro hnone
    rw [← HashMap.entries_erase, List.findSome?_eq_none_iff] at hnone
    by_contra hpos
    obtain ⟨f, l, hl, hid⟩ := declaring_pos_iff.mp (Nat.pos_of_ne_zero hpos)
    have hfind := hnone ⟨f, l⟩ (AList.mem_lookup_iff.mp hl)
    obtain ⟨d, hd, rfl⟩ := List.mem_map.mp hid
    exact List.find?_eq_none.mp hfind d hd (decide_eq_true rfl)

theorem Elsewhere.declaring_pos {id : RoutineNodeId} {d : DeclEntry RoutineNodeId}
    (h : Elsewhere decls vp id d) : 0 < declaring (decls.erase vp) id := by
  obtain ⟨rfl, f, l, hne, hl, hd⟩ := h
  exact declaring_pos_iff.mpr ⟨f, l, by rw [AList.lookup_erase_ne hne, hl], List.mem_map_of_mem hd⟩

/-- What an id's entry may be once the file `vp` has dropped it. -/
def Dropped (decls : DeclsByFile RoutineNodeId) (vp : VirtualPath) (id : RoutineNodeId)
    (entry : Option (DeclEntry RoutineNodeId)) : Prop :=
  (entry = none ∧ declaring (decls.erase vp) id = 0) ∨ ∃ d, entry = some d ∧ Elsewhere decls vp id d

theorem removeDecl_ne {ix : DeclIndex RoutineNodeId} {id k : RoutineNodeId} (hk : k ≠ id) :
    (removeDecl decls vp ix id).1.lookup k = ix.1.lookup k ∧
      (removeDecl decls vp ix id).2.lookup k = ix.2.lookup k := by
  unfold removeDecl
  cases ix.2.lookup id with
  | none => exact ⟨rfl, rfl⟩
  | some count =>
    dsimp only
    split
    · exact ⟨AList.lookup_erase_ne hk, AList.lookup_erase_ne hk⟩
    · split
      · split
        · exact ⟨AList.lookup_insert_ne hk, AList.lookup_insert_ne hk⟩
        · exact ⟨rfl, AList.lookup_insert_ne hk⟩
      · exact ⟨rfl, AList.lookup_insert_ne hk⟩

/-- **An id the file drops**: with an exact count it goes when no other file declares it, and has an
entry of another file otherwise. -/
theorem removeDecl_self {byId : HashMap RoutineNodeId (DeclEntry RoutineNodeId)}
    (hbyId : ById byId decls) (hpathed : Pathed decls) {ix : DeclIndex RoutineNodeId}
    {id : RoutineNodeId} (hentry : ix.1.lookup id = byId.lookup id)
    (hcount : (ix.2.lookup id).getD 0 = declaring decls id)
    (hold : id ∈ idsOf ((decls.lookup vp).getD [])) :
    Dropped decls vp id ((removeDecl decls vp ix id).1.lookup id) := by
  have hfiles := declaring_eq_erase decls vp id
  rw [if_pos hold] at hfiles
  unfold removeDecl
  cases hl : ix.2.lookup id with
  | none =>
    rw [hl, Option.getD_none] at hcount
    omega
  | some count =>
    rw [hl, Option.getD_some] at hcount
    dsimp only
    split
    · refine Or.inl ⟨AList.lookup_erase _ _, ?_⟩
      omega
    · rename_i hne
      split
      · obtain ⟨hsome, hnone⟩ := @otherDecl_spec _ _ decls vp id
        split
        · rename_i d hd
          exact Or.inr ⟨d, AList.lookup_insert _, hsome d hd⟩
        · rename_i hd
          have := hnone hd
          omega
      · rename_i hwinner
        obtain ⟨d, hd⟩ := (hbyId.declared id).mpr (by omega)
        obtain ⟨hid, f, l, hlf, hmem⟩ := hbyId.entry id d hd
        refine Or.inr ⟨d, hentry.trans hd, hid, f, l, fun hf => hwinner ?_, hlf, hmem⟩
        rw [hentry, hd]
        exact decide_eq_true (hf ▸ hpathed f l hlf d hmem)

theorem foldl_removeDecl_ne {ids : List RoutineNodeId} {ix : DeclIndex RoutineNodeId}
    {k : RoutineNodeId} (hk : k ∉ ids) :
    (ids.foldl (removeDecl decls vp) ix).1.lookup k = ix.1.lookup k ∧
      (ids.foldl (removeDecl decls vp) ix).2.lookup k = ix.2.lookup k := by
  induction ids generalizing ix with
  | nil => exact ⟨rfl, rfl⟩
  | cons id ids ih =>
    obtain ⟨hne, hk⟩ := not_or.mp (fun h => hk (List.mem_cons.mpr h))
    obtain ⟨h₁, h₂⟩ := @ih (removeDecl decls vp ix id) hk
    obtain ⟨h₁', h₂'⟩ := @removeDecl_ne _ _ decls vp ix id k hne
    exact ⟨h₁.trans h₁', h₂.trans h₂'⟩

/-- Every id the file drops. -/
theorem foldl_removeDecl_mem {byId : HashMap RoutineNodeId (DeclEntry RoutineNodeId)}
    (hbyId : ById byId decls) (hpathed : Pathed decls) {ids : List RoutineNodeId} (hnd : ids.Nodup)
    (hold : ∀ id ∈ ids, id ∈ idsOf ((decls.lookup vp).getD [])) {ix : DeclIndex RoutineNodeId}
    (hentry : ∀ id ∈ ids, ix.1.lookup id = byId.lookup id)
    (hcount : ∀ id ∈ ids, (ix.2.lookup id).getD 0 = declaring decls id) :
    ∀ id ∈ ids, Dropped decls vp id ((ids.foldl (removeDecl decls vp) ix).1.lookup id) := by
  induction ids generalizing ix with
  | nil => exact fun _ h => absurd h List.not_mem_nil
  | cons id ids ih =>
    obtain ⟨hnot, hnd⟩ := List.nodup_cons.mp hnd
    intro k hk
    rw [List.foldl_cons]
    rcases List.mem_cons.mp hk with rfl | hk
    · rw [(foldl_removeDecl_ne hnot).1]
      exact removeDecl_self hbyId hpathed (hentry _ List.mem_cons_self)
        (hcount _ List.mem_cons_self) (hold _ List.mem_cons_self)
    · refine ih hnd (fun id hid => hold id (List.mem_cons_of_mem _ hid)) (fun id' hid => ?_)
        (fun id' hid => ?_) k hk
      · have hne : id' ≠ id := fun heq => hnot (heq ▸ hid)
        rw [(removeDecl_ne hne).1]
        exact hentry id' (List.mem_cons_of_mem _ hid)
      · have hne : id' ≠ id := fun heq => hnot (heq ▸ hid)
        rw [(removeDecl_ne hne).2]
        exact hcount id' (List.mem_cons_of_mem _ hid)

theorem foldl_addDecl_fst (oldIds : List RoutineNodeId) (new : List (DeclEntry RoutineNodeId))
    (ix : DeclIndex RoutineNodeId) :
    (new.foldl (addDecl oldIds) ix).1 = new.foldl (fun byId d => byId.insert d.id d) ix.1 := by
  induction new generalizing ix with
  | nil => rfl
  | cons d new ih => exact ih _

omit [LinearOrder RoutineNodeId] in
/-- An entry of another file is one of the new map's. -/
theorem lookup_insert_of_elsewhere {id : RoutineNodeId} {d : DeclEntry RoutineNodeId}
    (h : Elsewhere decls vp id d) (new : List (DeclEntry RoutineNodeId)) :
    d.id = id ∧ ∃ f l, (decls.insert vp new).lookup f = some l ∧ d ∈ l := by
  obtain ⟨hid, f, l, hne, hl, hd⟩ := h
  exact ⟨hid, f, l, by rw [AList.lookup_insert_ne hne, hl], hd⟩

/-- **A file's declarations replaced**, the counts exact. -/
theorem ById.patch {byId : HashMap RoutineNodeId (DeclEntry RoutineNodeId)}
    {mult : HashMap RoutineNodeId ℕ} (h : ById byId decls) (hpathed : Pathed decls)
    (hcounts : Counts mult decls fun _ => 0) (vp : VirtualPath)
    (new : List (DeclEntry RoutineNodeId)) :
    ById (patchDecls decls vp ((decls.lookup vp).getD []) new (byId, mult)).1
      (decls.insert vp new) := by
  have hdropped : ∀ id ∈ droppedIds ((decls.lookup vp).getD []) new, Dropped decls vp id
      (((droppedIds ((decls.lookup vp).getD []) new).foldl (removeDecl decls vp)
        (byId, mult)).1.lookup id) :=
    foldl_removeDecl_mem h hpathed (nodup_droppedIds _ _) (fun id hid => (mem_droppedIds.mp hid).1)
      (fun _ _ => rfl) (fun id _ => (hcounts.eq id).trans (Nat.add_zero _))
  -- what stands under an id that the new list has not
  have hother : ∀ id, id ∉ idsOf new → Dropped decls vp id
      (((droppedIds ((decls.lookup vp).getD []) new).foldl (removeDecl decls vp)
        (byId, mult)).1.lookup id) := by
    intro id hnew
    by_cases hold : id ∈ idsOf ((decls.lookup vp).getD [])
    · exact hdropped id (mem_droppedIds.mpr ⟨hold, hnew⟩)
    · rw [(foldl_removeDecl_ne fun hd => hold (mem_droppedIds.mp hd).1).1]
      have hfiles := declaring_eq_erase decls vp id
      rw [if_neg hold, Nat.add_zero] at hfiles
      cases hl : byId.lookup id with
      | none =>
        refine Or.inl ⟨rfl, hfiles ▸ ?_⟩
        by_contra hpos
        obtain ⟨d, hd⟩ := (h.declared id).mpr (Nat.pos_of_ne_zero hpos)
        rw [hl] at hd
        cases hd
      | some d =>
        obtain ⟨hid, f, l, hlf, hmem⟩ := h.entry id d hl
        refine Or.inr ⟨d, rfl, hid, f, l, fun hf => hold ?_, hlf, hmem⟩
        subst hf
        rw [hlf, Option.getD_some, ← hid]
        exact List.mem_map_of_mem hmem
  unfold patchDecls
  rw [foldl_addDecl_fst]
  refine ⟨fun id => ?_, fun id d hd => ?_⟩
  · obtain ⟨hnot, hmem⟩ := lookup_foldl_insert new
      ((droppedIds ((decls.lookup vp).getD []) new).foldl (removeDecl decls vp) (byId, mult)).1 id
    rw [declaring_insert]
    by_cases hnew : id ∈ idsOf new
    · obtain ⟨d, -, -, hd⟩ := hmem hnew
      rw [if_pos hnew]
      exact ⟨fun _ => Nat.succ_pos _, fun _ => ⟨d, hd⟩⟩
    · rw [hnot hnew, if_neg hnew, Nat.add_zero]
      rcases hother id hnew with ⟨hnone, hzero⟩ | ⟨d, hd, helse⟩
      · rw [hnone, hzero]
        simp
      · exact ⟨fun _ => helse.declaring_pos, fun _ => ⟨d, hd⟩⟩
  · obtain ⟨hnot, hmem⟩ := lookup_foldl_insert new
      ((droppedIds ((decls.lookup vp).getD []) new).foldl (removeDecl decls vp) (byId, mult)).1 id
    by_cases hnew : id ∈ idsOf new
    · obtain ⟨d', hd', hid, hlookup⟩ := hmem hnew
      obtain rfl := Option.some.inj (hlookup.symm.trans hd)
      exact ⟨hid, vp, new, AList.lookup_insert _, hd'⟩
    · rw [hnot hnew] at hd
      rcases hother id hnew with ⟨hnone, -⟩ | ⟨d', hd', helse⟩
      · rw [hnone] at hd
        cases hd
      · obtain rfl := Option.some.inj (hd'.symm.trans hd)
        exact lookup_insert_of_elsewhere helse new

/-- The entry of an id neither list declares stays. -/
theorem lookup_patchDecls_ne {old new : List (DeclEntry RoutineNodeId)}
    {ix : DeclIndex RoutineNodeId} {id : RoutineNodeId} (hdropped : id ∉ droppedIds old new)
    (hnew : id ∉ idsOf new) : (patchDecls decls vp old new ix).1.lookup id = ix.1.lookup id := by
  unfold patchDecls
  rw [foldl_addDecl_fst, (lookup_foldl_insert new _ id).1 hnew, (foldl_removeDecl_ne hdropped).1]

end Decls

/-! ## 4. The batch -/

/-- **The saves declare no id twice that their file did not declare before**, each looked at behind
the saves before it. -/
def FreshSaves (decls : DeclsByFile RoutineNodeId) : List (Save RoutineNodeId) → Prop
  | [] => True
  | sv :: saves =>
    (∀ id, id ∉ idsOf ((decls.lookup sv.vp).getD []) → (idsOf sv.decls).count id ≤ 1) ∧
      FreshSaves (decls.insert sv.vp sv.decls) saves

/-- The declarations behind some saves. -/
def declsAfter (decls : DeclsByFile RoutineNodeId) (saves : List (Save RoutineNodeId)) :
    DeclsByFile RoutineNodeId :=
  saves.foldl (fun decls sv => decls.insert sv.vp sv.decls) decls

/-- What the saves count too often. -/
def excessOf (decls : DeclsByFile RoutineNodeId) : List (Save RoutineNodeId) → RoutineNodeId → ℕ
  | [], _ => 0
  | sv :: saves, id =>
    excess ((decls.lookup sv.vp).getD []) sv.decls id +
      excessOf (decls.insert sv.vp sv.decls) saves id

theorem freshSaves_append (decls : DeclsByFile RoutineNodeId) (as bs : List (Save RoutineNodeId)) :
    FreshSaves decls (as ++ bs) ↔ FreshSaves decls as ∧ FreshSaves (declsAfter decls as) bs := by
  induction as generalizing decls with
  | nil => simp [FreshSaves, declsAfter]
  | cons sv as ih =>
    exact (and_congr_right fun _ => ih _).trans and_assoc.symm

/-- **Fresh saves are those without an excess.** -/
theorem freshSaves_iff (decls : DeclsByFile RoutineNodeId) (saves : List (Save RoutineNodeId)) :
    FreshSaves decls saves ↔ ∀ id, excessOf decls saves id = 0 := by
  induction saves generalizing decls with
  | nil => exact ⟨fun _ _ => rfl, fun _ => trivial⟩
  | cons sv saves ih =>
    unfold FreshSaves excessOf
    rw [ih]
    simp only [Nat.add_eq_zero_iff, forall_and]
    refine and_congr_left fun _ => forall_congr' fun id => ?_
    unfold excess
    by_cases hold : id ∈ idsOf ((decls.lookup sv.vp).getD [])
    · simp [hold]
    · simp only [hold, not_false_eq_true, true_implies, if_false]
      omega

/-- **What the work holds**: the callers, the counts with their excess, and the declarations as long
as there is none. -/
structure Working (eventEdges : List (LspEdge RoutineNodeId)) (x : RoutineNodeId → ℕ)
    (w : Rung1Work RoutineNodeId) : Prop where
  callers : Callers w.incoming w.edgesByFile eventEdges
  counts : Counts w.mult w.declsByFile x
  pathed : Pathed w.declsByFile
  byId : (∀ id, x id = 0) → ById w.declById w.declsByFile

/-- **One save.** -/
theorem Working.applySave {eventEdges : List (LspEdge RoutineNodeId)} {x : RoutineNodeId → ℕ}
    {w : Rung1Work RoutineNodeId} (h : Working eventEdges x w) (sv : Save RoutineNodeId) :
    Working eventEdges
      (fun id => x id + excess ((w.declsByFile.lookup sv.vp).getD []) sv.decls id)
      (applySave w sv) where
  callers := h.callers.patch sv.vp sv.edges
  counts := h.counts.patch sv.vp sv.decls
  pathed := h.pathed.insert sv.paths
  byId hx := by
    have hzero : ∀ id, x id = 0 := fun id => (Nat.add_eq_zero_iff.mp (hx id)).1
    have hcounts : Counts w.mult w.declsByFile fun _ => 0 :=
      ⟨h.counts.pos, fun id => (h.counts.eq id).trans (by rw [hzero])⟩
    exact (h.byId hzero).patch h.pathed hcounts sv.vp sv.decls

/-- **Every save of a batch.** -/
theorem Working.foldl_applySave {eventEdges : List (LspEdge RoutineNodeId)}
    {x : RoutineNodeId → ℕ} {w : Rung1Work RoutineNodeId} (h : Working eventEdges x w)
    (saves : List (Save RoutineNodeId)) :
    Working eventEdges (fun id => x id + excessOf w.declsByFile saves id)
      (saves.foldl AlSem.Lsp.applySave w) := by
  induction saves generalizing x w with
  | nil => exact h
  | cons sv saves ih =>
    rw [List.foldl_cons]
    have hrest := ih (h.applySave sv)
    have hx : (fun id => x id + excessOf w.declsByFile (sv :: saves) id) = fun id =>
        x id + excess ((w.declsByFile.lookup sv.vp).getD []) sv.decls id +
          excessOf (AlSem.Lsp.applySave w sv).declsByFile saves id := by
      funext id
      exact (Nat.add_assoc _ _ _).symm
    rw [hx]
    exact hrest

theorem declsByFile_foldl_applySave (w : Rung1Work RoutineNodeId) (saves : List (Save RoutineNodeId)) :
    (saves.foldl applySave w).declsByFile = declsAfter w.declsByFile saves := by
  induction saves generalizing w with
  | nil => rfl
  | cons sv saves ih => exact ih _

/-- An id that no save affects has the callers and the entry it had. -/
theorem not_affected {eventEdges : List (LspEdge RoutineNodeId)} {x : RoutineNodeId → ℕ}
    {w : Rung1Work RoutineNodeId} (h : Working eventEdges x w) (saves : List (Save RoutineNodeId))
    {id : RoutineNodeId} (hid : id ∉ (saves.foldl applySave w).affected) :
    id ∉ w.affected ∧ (saves.foldl applySave w).incoming.lookup id = w.incoming.lookup id ∧
      (saves.foldl applySave w).declById.lookup id = w.declById.lookup id := by
  induction saves generalizing x w with
  | nil => exact ⟨hid, rfl, rfl⟩
  | cons sv saves ih =>
    rw [List.foldl_cons] at hid ⊢
    have hsave := h.applySave sv
    obtain ⟨hnot, hincoming, hentry⟩ := ih hsave hid
    have hnot' : id ∉ w.affected ∪ ((droppedIds ((w.declsByFile.lookup sv.vp).getD [])
        sv.decls).toFinset ∪ (idsOf sv.decls).toFinset) ∪
        ((targetsOf ((w.edgesByFile.lookup sv.vp).getD [])).toFinset ∪
          (targetsOf sv.edges).toFinset) := hnot
    simp only [Finset.mem_union, List.mem_toFinset, not_or] at hnot'
    obtain ⟨⟨hw, hdropped, hnew⟩, hold, htargets⟩ := hnot'
    refine ⟨hw, hincoming.trans ?_, hentry.trans (lookup_patchDecls_ne hdropped hnew)⟩
    exact hsave.callers.noEmpty.lookup_eq h.callers.noEmpty (getList_patchIncoming_ne hold htargets)

/-! ## 5. The run -/

/-- **The indexes are those of a wholesale build**, and what changed is in the delta. -/
structure Patched (prev next : LspSnapshot RoutineNodeId) (delta : Rung1Delta RoutineNodeId)
    (mult : HashMap RoutineNodeId ℕ) : Prop where
  events : next.wsEventEdges = prev.wsEventEdges
  incoming : ∀ t, (HashMap.getList next.wsIncoming t).Perm
    (HashMap.getList (buildIncoming next.edgesByFile next.wsEventEdges).1 t)
  noEmpty : ∀ t, next.wsIncoming.lookup t ≠ some []
  mult : ∀ id, mult.lookup id = (buildDeclMultiplicity next.declsByFile).lookup id
  declared : ∀ id, (∃ d, next.declById.lookup id = some d) ↔
    ∃ vp l, next.declsByFile.lookup vp = some l ∧ id ∈ idsOf l
  entry : ∀ id d, next.declById.lookup id = some d →
    d.id = id ∧ ∃ vp l, next.declsByFile.lookup vp = some l ∧ d ∈ l
  affected : ∀ id, next.wsIncoming.lookup id ≠ prev.wsIncoming.lookup id ∨
    next.declById.lookup id ≠ prev.declById.lookup id → id ∈ delta.affectedIds

/-- **A snapshot as published with its indexes built.** -/
structure Published (cur : LspSnapshot RoutineNodeId) : Prop where
  incoming : cur.wsIncoming = (buildIncoming cur.edgesByFile cur.wsEventEdges).1
  declById : cur.declById = buildDeclById cur.declsByFile
  pathed : Pathed cur.declsByFile

/-- **Each batch of a run patches as a rebuild would.** -/
def AllPatched (cur : LspSnapshot RoutineNodeId) (mult : Option (HashMap RoutineNodeId ℕ)) :
    List (List (Save RoutineNodeId)) → Prop
  | [] => True
  | saves :: batches =>
    Patched cur (applyRung1Core cur saves mult).1 (applyRung1Core cur saves mult).2.1
        (applyRung1Core cur saves mult).2.2 ∧
      AllPatched (applyRung1Core cur saves mult).1 (some (applyRung1Core cur saves mult).2.2) batches

/-- The work before a batch is in order. -/
def Ready (cur : LspSnapshot RoutineNodeId) (mult : Option (HashMap RoutineNodeId ℕ)) : Prop :=
  Working cur.wsEventEdges (fun _ => 0) (startWork cur mult)

/-- **A batch patches as a rebuild would exactly when its saves are fresh.** -/
theorem patched_iff {cur : LspSnapshot RoutineNodeId} {mult : Option (HashMap RoutineNodeId ℕ)}
    (h : Ready cur mult) (saves : List (Save RoutineNodeId)) :
    Patched cur (applyRung1Core cur saves mult).1 (applyRung1Core cur saves mult).2.1
      (applyRung1Core cur saves mult).2.2 ↔ FreshSaves cur.declsByFile saves := by
  have hwork := h.foldl_applySave saves
  have hbuilt := buildDeclMultiplicity_counts (saves.foldl applySave (startWork cur mult)).declsByFile
  rw [freshSaves_iff]
  constructor
  · intro hpatched id
    have hcount := hwork.counts.eq id
    have hmult : (saves.foldl applySave (startWork cur mult)).mult.lookup id = _ := hpatched.mult id
    rw [hmult] at hcount
    have heq := hbuilt.eq id
    have hzero : (0 : ℕ) + excessOf cur.declsByFile saves id = 0 := by
      have hsame := hcount.symm.trans heq
      exact Nat.add_left_cancel hsame
    omega
  · intro hfresh
    have hx : ∀ id, 0 + excessOf (startWork cur mult).declsByFile saves id = 0 := fun id => by
      rw [Nat.zero_add]
      exact hfresh id
    refine ⟨rfl, fun t => ?_, hwork.callers.noEmpty, fun id => ?_, fun id => ?_,
      (hwork.byId hx).entry, fun id hid => ?_⟩
    · rw [getList_buildIncoming]
      exact hwork.callers.refs t
    · refine lookup_eq_of_getD (hwork.counts.pos id) (hbuilt.pos id) ?_
      have hsame : declaring (saves.foldl applySave (startWork cur mult)).declsByFile id +
          (0 + excessOf (startWork cur mult).declsByFile saves id) =
          declaring (saves.foldl applySave (startWork cur mult)).declsByFile id + 0 := by rw [hx]
      exact ((hwork.counts.eq id).trans hsame).trans (hbuilt.eq id).symm
    · rw [← declaring_pos_iff]
      exact (hwork.byId hx).declared id
    · refine (Finset.mem_sort _).mpr (by_contra fun hnot => ?_)
      obtain ⟨-, hincoming, hentry⟩ := not_affected h saves hnot
      rcases hid with hid | hid
      · exact hid hincoming
      · exact hid hentry

/-- The work after a fresh batch is in order. -/
theorem Ready.next {cur : LspSnapshot RoutineNodeId} {mult : Option (HashMap RoutineNodeId ℕ)}
    (h : Ready cur mult) {saves : List (Save RoutineNodeId)}
    (hfresh : FreshSaves cur.declsByFile saves) :
    Ready (applyRung1Core cur saves mult).1 (some (applyRung1Core cur saves mult).2.2) := by
  have hwork := h.foldl_applySave saves
  have hx : (fun id => 0 + excessOf (startWork cur mult).declsByFile saves id) = fun _ => 0 := by
    funext id
    rw [Nat.zero_add]
    exact (freshSaves_iff _ _).mp hfresh id
  rw [hx] at hwork
  exact ⟨hwork.callers, hwork.counts, hwork.pathed, hwork.byId⟩

theorem Published.ready {cur : LspSnapshot RoutineNodeId} (h : Published cur)
    {mult : Option (HashMap RoutineNodeId ℕ)}
    (hmult : mult = none ∨ mult = some (buildDeclMultiplicity cur.declsByFile)) : Ready cur mult := by
  have hcounts : mult.getD (buildDeclMultiplicity cur.declsByFile) =
      buildDeclMultiplicity cur.declsByFile := by
    rcases hmult with rfl | rfl <;> rfl
  refine ⟨?_, ?_, h.pathed, fun _ => ?_⟩
  · unfold startWork
    dsimp only
    rw [h.incoming]
    exact buildIncoming_callers _ _
  · unfold startWork
    dsimp only
    rw [hcounts]
    exact buildDeclMultiplicity_counts _
  · unfold startWork
    dsimp only
    rw [h.declById]
    exact buildDeclById_byId _

theorem Ready.allPatched_iff (batches : List (List (Save RoutineNodeId))) :
    ∀ {cur : LspSnapshot RoutineNodeId} {mult : Option (HashMap RoutineNodeId ℕ)}, Ready cur mult →
      (AllPatched cur mult batches ↔ FreshSaves cur.declsByFile batches.flatten) := by
  induction batches with
  | nil => exact fun _ => Iff.rfl
  | cons saves batches ih =>
    intro cur mult h
    rw [List.flatten_cons, freshSaves_append, AllPatched, patched_iff h saves]
    refine and_congr_right fun hfresh => ?_
    rw [ih (h.next hfresh)]
    have hdecls : (applyRung1Core cur saves mult).1.declsByFile = declsAfter cur.declsByFile saves :=
      declsByFile_foldl_applySave _ _
    rw [hdecls]

/-- **Rung-1 patching equals a wholesale rebuild, exactly when no save newly declares an id twice.**
From a published snapshot, after every batch of a run the callers, the reference counts and the
declarations are those of a rebuild and the delta names what changed, if and only if every id that a
save declares more than once was in the list its file had before. -/
theorem applyRung1Core_rebuilt (cur : LspSnapshot RoutineNodeId) (hcur : Published cur)
    (mult : Option (HashMap RoutineNodeId ℕ))
    (hmult : mult = none ∨ mult = some (buildDeclMultiplicity cur.declsByFile))
    (batches : List (List (Save RoutineNodeId))) :
    AllPatched cur mult batches ↔ FreshSaves cur.declsByFile batches.flatten :=
  (hcur.ready hmult).allPatched_iff batches

/-- A file of the workspace. -/
def someFile : VirtualPath := ⟨"a.al", by decide⟩

/-- A declaration of routine `0` in it. -/
def someDecl : DeclEntry ℕ where
  id := 0
  name := "F"
  origin := ⟨"procedure", (0, 1), (0, 0), (0, 1)⟩
  nameOrigin := ⟨"identifier", (0, 1), (0, 0), (0, 1)⟩
  virtualPath := "a.al"

/-- The file with the routine declared `n` times. -/
def saveOf (n : ℕ) : Save ℕ where
  vp := someFile
  edges := []
  decls := List.replicate n someDecl
  paths d hd := by
    rw [List.eq_of_mem_replicate hd]
    rfl

/-- The file, published with nothing in it. -/
def oneFile : LspSnapshot ℕ where
  generation := 0
  edgesByFile := (∅ : EdgesByFile ℕ).insert someFile []
  wsEventEdges := []
  wsIncoming := ∅
  wsPublisherFanout := ∅
  declsByFile := (∅ : DeclsByFile ℕ).insert someFile []
  declById := ∅

theorem oneFile_published : Published oneFile where
  incoming := rfl
  declById := rfl
  pathed vp l hl d hd := by
    have hmem := AList.mem_lookup_iff.mp hl
    obtain rfl : l = [] := by
      have heq : (⟨vp, l⟩ : Σ _ : VirtualPath, List (DeclEntry ℕ)) = ⟨someFile, []⟩ :=
        List.mem_singleton.mp hmem
      cases heq
      rfl
    cases hd

/-- The routine declared once, calling itself, then a routine of a dependency and itself again. -/
def callingSave : Save ℕ :=
  { saveOf 1 with
    edges := [⟨0, [.routine 0], 1⟩, ⟨0, [.abi "other", .routine 0], 2⟩] }

/-- The routine comes with its calls and goes: every batch patches as a rebuild would, and the
calls are found under their target as long as they are there. -/
theorem applyRung1Core_rebuilt_once :
    AllPatched oneFile none [[callingSave], [saveOf 1, callingSave], [saveOf 0]] ∧
      (applyRung1Core oneFile [callingSave] none).1.wsIncoming.lookup 0 =
        some [⟨"a.al", 0⟩, ⟨"a.al", 1⟩] ∧
      ((applyRung1Core oneFile [callingSave, saveOf 0] none).1.wsIncoming.lookup 0).getD [] = [] := by
  refine ⟨?_, by decide, by decide⟩
  rw [applyRung1Core_rebuilt oneFile oneFile_published none (Or.inl rfl)]
  refine ⟨fun id _ => ?_, fun id _ => ?_, fun id _ => ?_, fun id _ => ?_, trivial⟩
  · exact List.count_le_length
  · exact List.count_le_length
  · exact List.count_le_length
  · exact Nat.zero_le 1

/-- **Declared twice, then dropped**: the count of one file is two, and behind the second batch the
index keeps a routine that no file declares. -/
theorem applyRung1Core_phantom :
    ¬ AllPatched oneFile none [[saveOf 2], [saveOf 0]] ∧
      (applyRung1Core oneFile [saveOf 2] none).2.2.lookup 0 = some 2 ∧
      (buildDeclMultiplicity (applyRung1Core oneFile [saveOf 2] none).1.declsByFile).lookup 0 =
        some 1 ∧
      (applyRung1Core (applyRung1Core oneFile [saveOf 2] none).1 [saveOf 0]
        (some (applyRung1Core oneFile [saveOf 2] none).2.2)).1.declById.lookup 0 = some someDecl ∧
      (applyRung1Core (applyRung1Core oneFile [saveOf 2] none).1 [saveOf 0]
        (some (applyRung1Core oneFile [saveOf 2] none).2.2)).1.declsByFile.lookup someFile = some [] := by
  have htwo : (applyRung1Core oneFile [saveOf 2] none).2.2.lookup 0 = some 2 := by decide
  have hone : (buildDeclMultiplicity (applyRung1Core oneFile [saveOf 2] none).1.declsByFile).lookup 0 =
      some 1 := by decide
  refine ⟨fun h => ?_, htwo, hone, by decide, by decide⟩
  have hmult := h.1.mult 0
  rw [htwo, hone] at hmult
  cases hmult

end AlSem.Lsp
