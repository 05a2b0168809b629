/-
# What the derived indexes hold

Each index as a closed form of the files' contributions: a target's edges are the references of
every file's edges to it (`getList_buildIncoming`), an id's count is the number of files that
declare it (`buildDeclMultiplicity_counts`), and an id's declaration is one of a file's that
declares it (`buildDeclById_byId`).
-/
import AlSem.Lsp.RungOne

namespace AlSem.Lsp

section Incoming

variable {RoutineNodeId : Type} [DecidableEq RoutineNodeId]

/-! ## 1. An edge's targets -/

/-- The first occurrences of a list's elements, behind those already seen. -/
theorem nodup_foldl_seen {l seen : List RoutineNodeId} (h : seen.Nodup) :
    (l.foldl (fun seen t => if seen.contains t then seen else seen ++ [t]) seen).Nodup := by
  induction l generalizing seen with
  | nil => exact h
  | cons t l ih =>
    rw [List.foldl_cons]
    split
    · exact ih h
    · rename_i hnot
      refine ih (h.append (List.nodup_singleton t) ?_)
      rw [List.disjoint_singleton]
      simpa using hnot

theorem nodup_edgeTargets (e : LspEdge RoutineNodeId) : (edgeTargets e).Nodup :=
  nodup_foldl_seen List.nodup_nil

/-! ## 2. The callers -/

/-- The references of a file's edges to a target. -/
def fileRefs (file : String) (edges : List (LspEdge RoutineNodeId)) (t : RoutineNodeId) :
    List EdgeRef :=
  (edges.zipIdx.filter fun e => (edgeTargets e.1).contains t).map fun e => { file, idx := e.2 }

theorem file_of_mem_fileRefs {file : String} {edges : List (LspEdge RoutineNodeId)}
    {t : RoutineNodeId} {r : EdgeRef} (h : r ∈ fileRefs file edges t) : r.file = file := by
  obtain ⟨e, -, rfl⟩ := List.mem_map.mp h
  rfl

/-- A file without an edge to the target has no reference to it. -/
theorem fileRefs_eq_nil {file : String} {edges : List (LspEdge RoutineNodeId)} {t : RoutineNodeId}
    (h : ∀ e ∈ edges, t ∉ edgeTargets e) : fileRefs file edges t = [] := by
  unfold fileRefs
  rw [List.map_eq_nil_iff, List.filter_eq_nil_iff]
  intro e he hmem
  exact h e.1 (List.mem_of_getElem? (List.mem_zipIdx_iff_getElem?.mp he))
    (List.contains_iff_mem.mp hmem)

theorem getList_foldl_push {targets : List RoutineNodeId} (hnd : targets.Nodup) (r : EdgeRef)
    (inc : HashMap RoutineNodeId (List EdgeRef)) (t : RoutineNodeId) :
    HashMap.getList (targets.foldl (fun inc t => inc.push t r) inc) t =
      HashMap.getList inc t ++ if t ∈ targets then [r] else [] := by
  induction targets generalizing inc with
  | nil => simp
  | cons t' targets ih =>
    obtain ⟨hnot, hnd⟩ := List.nodup_cons.mp hnd
    rw [List.foldl_cons, ih hnd, HashMap.getList_push]
    by_cases ht : t = t'
    · subst ht
      simp [hnot]
    · simp [ht]

theorem getList_pushEdgeTargets (inc : HashMap RoutineNodeId (List EdgeRef))
    (e : LspEdge RoutineNodeId) (file : String) (idx : ℕ) (t : RoutineNodeId) :
    HashMap.getList (pushEdgeTargets inc e file idx) t =
      HashMap.getList inc t ++ if t ∈ edgeTargets e then [⟨file, idx⟩] else [] :=
  getList_foldl_push (nodup_edgeTargets e) _ inc t

/-- **A file's edges add its references.** -/
theorem getList_pushFile (inc : HashMap RoutineNodeId (List EdgeRef)) (file : String)
    (edges : List (LspEdge RoutineNodeId)) (t : RoutineNodeId) :
    HashMap.getList (pushFile inc file edges) t =
      HashMap.getList inc t ++ fileRefs file edges t := by
  unfold pushFile fileRefs
  generalize edges.zipIdx = l
  induction l generalizing inc with
  | nil => simp
  | cons e l ih =>
    rw [List.foldl_cons, ih, getList_pushEdgeTargets, List.append_assoc]
    congr 1
    by_cases ht : t ∈ edgeTargets e.1
    · have hc : (edgeTargets e.1).contains t = true := List.contains_iff_mem.mpr ht
      rw [if_pos ht, List.filter_cons, if_pos hc]
      rfl
    · have hc : ¬ (edgeTargets e.1).contains t = true := fun h => ht (List.contains_iff_mem.mp h)
      rw [if_neg ht, List.filter_cons, if_neg hc]
      rfl

theorem noEmpty_pushFile {inc : HashMap RoutineNodeId (List EdgeRef)} (h : HashMap.NoEmpty inc)
    (file : String) (edges : List (LspEdge RoutineNodeId)) :
    HashMap.NoEmpty (pushFile inc file edges) := by
  unfold pushFile
  generalize edges.zipIdx = l
  induction l generalizing inc with
  | nil => exact h
  | cons e l ih =>
    rw [List.foldl_cons]
    refine ih ?_
    unfold pushEdgeTargets
    generalize edgeTargets e.1 = targets
    induction targets generalizing inc with
    | nil => exact h
    | cons t targets ih' => exact ih' (h.push t _)

/-- Every reference to a target. -/
def allRefs (edgesByFile : EdgesByFile RoutineNodeId) (eventEdges : List (LspEdge RoutineNodeId))
    (t : RoutineNodeId) : List EdgeRef :=
  (edgesByFile.entries.flatMap fun f => fileRefs f.1.1 f.2 t) ++ fileRefs eventEdgesKey eventEdges t

/-- **A target's callers are the references to it.** -/
theorem getList_buildIncoming (edgesByFile : EdgesByFile RoutineNodeId)
    (eventEdges : List (LspEdge RoutineNodeId)) (t : RoutineNodeId) :
    HashMap.getList (buildIncoming edgesByFile eventEdges).1 t = allRefs edgesByFile eventEdges t := by
  have hfiles : ∀ (l : List (Σ _ : VirtualPath, List (LspEdge RoutineNodeId)))
      (inc : HashMap RoutineNodeId (List EdgeRef)),
      HashMap.getList (l.foldl (fun inc f => pushFile inc f.1.1 f.2) inc) t =
        HashMap.getList inc t ++ l.flatMap fun f => fileRefs f.1.1 f.2 t := by
    intro l
    induction l with
    | nil => simp
    | cons f l ih =>
      intro inc
      rw [List.foldl_cons, ih, getList_pushFile, List.flatMap_cons, List.append_assoc]
  unfold buildIncoming allRefs
  dsimp only
  rw [getList_pushFile, hfiles, HashMap.getList_empty, List.nil_append]

theorem noEmpty_buildIncoming (edgesByFile : EdgesByFile RoutineNodeId)
    (eventEdges : List (LspEdge RoutineNodeId)) :
    HashMap.NoEmpty (buildIncoming edgesByFile eventEdges).1 := by
  have hfiles : ∀ (l : List (Σ _ : VirtualPath, List (LspEdge RoutineNodeId)))
      (inc : HashMap RoutineNodeId (List EdgeRef)), HashMap.NoEmpty inc →
      HashMap.NoEmpty (l.foldl (fun inc f => pushFile inc f.1.1 f.2) inc) := by
    intro l
    induction l with
    | nil => exact fun _ h => h
    | cons f l ih => exact fun inc h => ih _ (noEmpty_pushFile h _ _)
  exact noEmpty_pushFile (hfiles _ _ HashMap.noEmpty_empty) _ _

end Incoming

section Decls

variable {RoutineNodeId : Type} [LinearOrder RoutineNodeId]

/-! ## 3. The reference counts -/

/-- How many files declare an id. -/
def declaring (decls : DeclsByFile RoutineNodeId) (id : RoutineNodeId) : ℕ :=
  HashMap.count (fun ds => (idsOf ds).contains id) decls

theorem declaring_pos_iff {decls : DeclsByFile RoutineNodeId} {id : RoutineNodeId} :
    0 < declaring decls id ↔ ∃ vp l, decls.lookup vp = some l ∧ id ∈ idsOf l := by
  unfold declaring
  rw [HashMap.count_pos_iff]
  simp only [List.contains_iff_mem]

/-- **The counts are the declaring files' numbers and an excess**; no count is zero. -/
structure Counts (mult : HashMap RoutineNodeId ℕ) (decls : DeclsByFile RoutineNodeId)
    (x : RoutineNodeId → ℕ) : Prop where
  pos : ∀ id, mult.lookup id ≠ some 0
  eq : ∀ id, (mult.lookup id).getD 0 = declaring decls id + x id

/-- Counts without a zero are told by their values. -/
theorem lookup_eq_of_getD {m m' : HashMap RoutineNodeId ℕ} {id : RoutineNodeId}
    (h : m.lookup id ≠ some 0) (h' : m'.lookup id ≠ some 0)
    (heq : (m.lookup id).getD 0 = (m'.lookup id).getD 0) : m.lookup id = m'.lookup id := by
  cases hl : m.lookup id <;> cases hl' : m'.lookup id <;> simp_all

theorem pos_bump {m : HashMap RoutineNodeId ℕ} (h : ∀ id, m.lookup id ≠ some 0)
    (k : RoutineNodeId) : ∀ id, (HashMap.bump m k 1).lookup id ≠ some 0 := by
  intro id
  unfold HashMap.bump
  by_cases hk : id = k
  · rw [hk, AList.lookup_insert]
    simp
  · rw [AList.lookup_insert_ne hk]
    exact h id

/-- A file counts each of its ids once. -/
theorem countFile_spec {m : HashMap RoutineNodeId ℕ} (hpos : ∀ id, m.lookup id ≠ some 0)
    (decls : List (DeclEntry RoutineNodeId)) :
    (∀ id, (countFile m decls).lookup id ≠ some 0) ∧
      ∀ id, ((countFile m decls).lookup id).getD 0 =
        (m.lookup id).getD 0 + if (idsOf decls).contains id then 1 else 0 := by
  have hfold : ∀ (l : List (DeclEntry RoutineNodeId)) (s : HashMap RoutineNodeId ℕ × List RoutineNodeId),
      (∀ id, s.1.lookup id ≠ some 0) →
      (∀ id, (l.foldl (fun s d => if s.2.contains d.id then s
          else (HashMap.bump s.1 d.id 1, d.id :: s.2)) s).1.lookup id ≠ some 0) ∧
        ∀ id, ((l.foldl (fun s d => if s.2.contains d.id then s
          else (HashMap.bump s.1 d.id 1, d.id :: s.2)) s).1.lookup id).getD 0 =
            (s.1.lookup id).getD 0 + if id ∈ idsOf l ∧ id ∉ s.2 then 1 else 0 := by
    intro l
    induction l with
    | nil => exact fun s h => ⟨h, fun id => by simp [idsOf]⟩
    | cons d l ih =>
      intro s h
      rw [List.foldl_cons]
      split
      · rename_i hseen
        obtain ⟨hp, heq⟩ := ih s h
        refine ⟨hp, fun id => (heq id).trans ?_⟩
        have hmem : d.id ∈ s.2 := List.contains_iff_mem.mp hseen
        by_cases hid : id = d.id
        · subst hid
          simp [hmem]
        · simp [idsOf, hid]
      · rename_i hseen
        obtain ⟨hp, heq⟩ := ih (HashMap.bump s.1 d.id 1, d.id :: s.2) (pos_bump h _)
        refine ⟨hp, fun id => (heq id).trans ?_⟩
        have hmem : d.id ∉ s.2 := fun hc => hseen (List.contains_iff_mem.mpr hc)
        rw [HashMap.getD_bump]
        by_cases hid : id = d.id
        · subst hid
          simp [idsOf, hmem]
        · simp [idsOf, hid]
  obtain ⟨hp, heq⟩ := hfold decls (m, []) hpos
  exact ⟨hp, fun id => (heq id).trans (by simp)⟩

/-- **The built counts have no excess.** -/
theorem buildDeclMultiplicity_counts (decls : DeclsByFile RoutineNodeId) :
    Counts (buildDeclMultiplicity decls) decls fun _ => 0 := by
  have hfold : ∀ (l : List (Σ _ : VirtualPath, List (DeclEntry RoutineNodeId)))
      (m : HashMap RoutineNodeId ℕ), (∀ id, m.lookup id ≠ some 0) →
      (∀ id, (l.foldl (fun mult f => countFile mult f.2) m).lookup id ≠ some 0) ∧
        ∀ id, ((l.foldl (fun mult f => countFile mult f.2) m).lookup id).getD 0 =
          (m.lookup id).getD 0 + l.countP fun f => (idsOf f.2).contains id := by
    intro l
    induction l with
    | nil => exact fun m h => ⟨h, fun id => rfl⟩
    | cons f l ih =>
      intro m h
      obtain ⟨hp, hone⟩ := countFile_spec h f.2
      obtain ⟨hp', hall⟩ := ih _ hp
      refine ⟨hp', fun id => ?_⟩
      rw [List.foldl_cons, hall, hone, List.countP_cons]
      omega
  obtain ⟨hp, heq⟩ := hfold decls.entries ∅ fun id h => by cases h
  refine ⟨hp, fun id => (heq id).trans ?_⟩
  rw [Nat.add_zero]
  exact Nat.zero_add _

/-! ## 4. The declarations -/

/-- **The index has exactly the declared ids, each with an entry of a file's list.** -/
structure ById (byId : HashMap RoutineNodeId (DeclEntry RoutineNodeId))
    (decls : DeclsByFile RoutineNodeId) : Prop where
  declared : ∀ id, (∃ d, byId.lookup id = some d) ↔ 0 < declaring decls id
  entry : ∀ id d, byId.lookup id = some d → d.id = id ∧ ∃ vp l, decls.lookup vp = some l ∧ d ∈ l

/-- What a list of declarations leaves under an id: its last declaration of the id. -/
theorem lookup_foldl_insert (l : List (DeclEntry RoutineNodeId))
    (byId : HashMap RoutineNodeId (DeclEntry RoutineNodeId)) (id : RoutineNodeId) :
    (id ∉ idsOf l → (l.foldl (fun byId d => byId.insert d.id d) byId).lookup id = byId.lookup id) ∧
      (id ∈ idsOf l → ∃ d ∈ l, d.id = id ∧
        (l.foldl (fun byId d => byId.insert d.id d) byId).lookup id = some d) := by
  induction l using List.reverseRecOn with
  | nil => exact ⟨fun _ => rfl, fun h => absurd h List.not_mem_nil⟩
  | append_singleton l d ih =>
    rw [List.foldl_append, List.foldl_cons, List.foldl_nil]
    have hids : idsOf (l ++ [d]) = idsOf l ++ [d.id] := List.map_append
    rw [hids]
    by_cases hid : id = d.id
    · subst hid
      refine ⟨fun h => absurd (by simp) h, fun _ => ⟨d, by simp, rfl, AList.lookup_insert _⟩⟩
    · rw [AList.lookup_insert_ne hid]
      refine ⟨fun h => ih.1 (by simpa [hid] using h), fun h => ?_⟩
      obtain ⟨d', hd', heq, hlookup⟩ := ih.2 (by simpa [hid] using h)
      exact ⟨d', List.mem_append_left _ hd', heq, hlookup⟩

/-- **The built index.** -/
theorem buildDeclById_byId (decls : DeclsByFile RoutineNodeId) : ById (buildDeclById decls) decls := by
  have hflat : ∀ (l : List (Σ _ : VirtualPath, List (DeclEntry RoutineNodeId)))
      (byId : HashMap RoutineNodeId (DeclEntry RoutineNodeId)),
      l.foldl (fun byId f => f.2.foldl (fun byId d => byId.insert d.id d) byId) byId =
        (l.flatMap Sigma.snd).foldl (fun byId d => byId.insert d.id d) byId := by
    intro l
    induction l with
    | nil => exact fun _ => rfl
    | cons f l ih => exact fun byId => by rw [List.foldl_cons, ih, List.flatMap_cons, List.foldl_append]
  have hids : ∀ id, id ∈ idsOf (decls.entries.flatMap Sigma.snd) ↔ 0 < declaring decls id := by
    intro id
    rw [declaring_pos_iff]
    simp only [idsOf, List.mem_map, List.mem_flatMap]
    constructor
    · rintro ⟨d, ⟨f, hf, hd⟩, rfl⟩
      exact ⟨f.1, f.2, AList.mem_lookup_iff.mpr hf, d, hd, rfl⟩
    · rintro ⟨vp, l, hl, d, hd, rfl⟩
      exact ⟨d, ⟨⟨vp, l⟩, AList.mem_lookup_iff.mp hl, hd⟩, rfl⟩
  unfold buildDeclById
  rw [hflat]
  refine ⟨fun id => ?_, fun id d hd => ?_⟩
  · obtain ⟨hnot, hmem⟩ := lookup_foldl_insert (decls.entries.flatMap Sigma.snd) ∅ id
    rw [← hids]
    constructor
    · rintro ⟨d, hd⟩
      by_contra hno
      rw [hnot hno] at hd
      cases hd
    · intro h
      obtain ⟨d, -, -, hd⟩ := hmem h
      exact ⟨d, hd⟩
  · obtain ⟨hnot, hmem⟩ := lookup_foldl_insert (decls.entries.flatMap Sigma.snd) ∅ id
    by_cases hid : id ∈ idsOf (decls.entries.flatMap Sigma.snd)
    · obtain ⟨d', hd', heq, hlookup⟩ := hmem hid
      obtain rfl := Option.some.inj (hlookup.symm.trans hd)
      obtain ⟨f, hf, hdf⟩ := List.mem_flatMap.mp hd'
      exact ⟨heq, f.1, f.2, AList.mem_lookup_iff.mpr hf, hdf⟩
    · rw [hnot hid] at hd
      cases hd

end Decls

end AlSem.Lsp
