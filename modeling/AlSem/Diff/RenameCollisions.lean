/-
# The collisions of an overlay are reported

`gate/diff/renames.rs`, `build_rename_table` and `validate_overlay_against_snapshots`.  Two live old
ids on one key are either both renamed there, which is an overlap, or one is renamed to the other,
which nothing moves away: that is the entry's collision.
-/
import AlSem.Diff.RenameIndexes

namespace AlSem.Diff

/-! ## 1. The entries of the table -/

variable {overlay : RenameOverlay} {oldIds newIds : List String}

/-- The overlay's entries that move their id. -/
def keptEntries (overlay : RenameOverlay) : List (String × String) :=
  overlay.entries.filter fun e => e.1 != e.2

theorem mem_keptEntries {e : String × RenameEntry} (he : e ∈ (buildRenameTable overlay).1) :
    (e.1, e.2.newId) ∈ keptEntries overlay := by
  obtain ⟨kept, hkept, heq⟩ := List.mem_map.mp (IndexMap.mem_ofEntries he)
  obtain ⟨hid, hentry⟩ := Prod.mk.inj heq
  rw [← hid, ← hentry]
  exact hkept

theorem ne_of_mem_table {e : String × RenameEntry} (he : e ∈ (buildRenameTable overlay).1) :
    e.1 ≠ e.2.newId := by
  have hmoves := (List.mem_filter.mp (mem_keptEntries he)).2
  simpa using hmoves

/-- An id without an entry stays. -/
theorem normalize_of_not_containsKey {id : String} {table : RenameTable}
    (h : IndexMap.containsKey table id = false) : normalize id table = id := by
  unfold IndexMap.containsKey at h
  rw [Option.isSome_eq_false_iff, Option.isNone_iff_eq_none] at h
  unfold normalize
  rw [h]

theorem nodup_table (overlay : RenameOverlay) :
    ((buildRenameTable overlay).1.map Prod.fst).Nodup :=
  IndexMap.nodup_ofEntries _

theorem normalize_of_mem {e : String × RenameEntry} (he : e ∈ (buildRenameTable overlay).1) :
    normalize e.1 (buildRenameTable overlay).1 = e.2.newId := by
  unfold normalize
  rw [IndexMap.get_of_mem (nodup_table overlay) he]

/-- An id has an entry or none. -/
theorem entry_or_stays (overlay : RenameOverlay) (id : String) :
    (∃ entry, (id, entry) ∈ (buildRenameTable overlay).1) ∨
      IndexMap.containsKey (buildRenameTable overlay).1 id = false := by
  cases hkey : IndexMap.containsKey (buildRenameTable overlay).1 id with
  | true => exact .inl (IndexMap.containsKey_iff.mp hkey)
  | false => exact .inr rfl

/-! ## 2. Completeness -/

/-- Two entries with one target make an overlap. -/
theorem overlap_reported {a b : String} {ea eb : RenameEntry}
    (ha : (a, ea) ∈ (buildRenameTable overlay).1) (hb : (b, eb) ∈ (buildRenameTable overlay).1)
    (hne : a ≠ b) (htarget : ea.newId = eb.newId) :
    ∃ olds, a ∈ olds ∧ b ∈ olds ∧
      overlapDiagnostic ea.newId olds ∈ (buildRenameTable overlay).2 := by
  have hgroup : ∀ {id : String} {entry : RenameEntry}, (id, entry) ∈ (buildRenameTable overlay).1 →
      (entry.newId, id) ∈ (keptEntries overlay).map fun e => (e.2, e.1) :=
    fun h => List.mem_map.mpr ⟨_, mem_keptEntries h, rfl⟩
  have hkey := IndexMap.containsKey_groupEntries (hgroup ha)
  obtain ⟨olds, holds⟩ := IndexMap.containsKey_iff.mp hkey
  have hget := IndexMap.get_of_mem (IndexMap.nodup_groupEntries _) holds
  have hmem : ∀ {id : String}, (ea.newId, id) ∈ (keptEntries overlay).map (fun e => (e.2, e.1)) →
      id ∈ olds := by
    intro id h
    have hid := IndexMap.mem_get_groupEntries.mpr h
    rwa [hget] at hid
  have hina : a ∈ olds := hmem (hgroup ha)
  have hinb : b ∈ olds := hmem (htarget ▸ hgroup hb)
  have hlength : olds.length > 1 := by
    rcases olds with _ | ⟨x, _ | ⟨y, olds⟩⟩
    · cases hina
    · exact absurd ((List.mem_singleton.mp hina).trans (List.mem_singleton.mp hinb).symm) hne
    · exact Nat.succ_lt_succ (Nat.succ_pos _)
  refine ⟨olds, hina, hinb, List.mem_append_right _ ?_⟩
  exact List.mem_filterMap.mpr ⟨_, holds, if_pos hlength⟩

/-- An entry onto a live id that stays makes a collision. -/
theorem collision_reported {a b : String} {ea : RenameEntry}
    (hea : (a, ea) ∈ (buildRenameTable overlay).1) (ha : a ∈ oldIds) (hb : b ∈ oldIds)
    (htarget : ea.newId = b) (hstays : IndexMap.containsKey (buildRenameTable overlay).1 b = false) :
    collision a b ∈
      validateOverlayAgainstSnapshots (buildRenameTable overlay).1 oldIds newIds := by
  refine List.mem_flatMap.mpr ⟨(a, ea), hea, List.mem_append_right _ ?_⟩
  dsimp only
  rw [htarget, if_pos]
  · exact List.mem_singleton_self _
  · rw [hstays, List.contains_iff_mem.mpr ha, List.contains_iff_mem.mpr hb]
    rfl

/-! ## 3. Soundness -/

theorem kind_of_stale (staleId reason : String) :
    (stale staleId reason).kind ≠ "rename-overlay-collision" := by
  unfold stale
  dsimp only
  decide

/-- A reported collision is an entry's. -/
theorem entry_of_collision {table : RenameTable} {d : DiffDiagnostic}
    (hd : d ∈ validateOverlayAgainstSnapshots table oldIds newIds)
    (hkind : d.kind = "rename-overlay-collision") :
    ∃ e ∈ table, d = collision e.1 e.2.newId ∧ e.1 ∈ oldIds ∧ e.2.newId ∈ oldIds ∧
      IndexMap.containsKey table e.2.newId = false := by
  obtain ⟨e, he, hd⟩ := List.mem_flatMap.mp hd
  have hstale : ∀ {b : Bool} {staleId reason : String},
      d ∉ (if b then [] else [stale staleId reason]) := by
    intro b staleId reason hmem
    cases b with
    | true => cases hmem
    | false =>
      rw [if_neg Bool.false_ne_true, List.mem_singleton] at hmem
      exact kind_of_stale staleId reason (hmem ▸ hkind)
  rcases List.mem_append.mp hd with hd | hd
  · rcases List.mem_append.mp hd with hd | hd
    · exact absurd hd hstale
    · exact absurd hd hstale
  · by_cases hcond : (oldIds.contains e.1 && oldIds.contains e.2.newId &&
        !IndexMap.containsKey table e.2.newId) = true
    · rw [if_pos hcond, List.mem_singleton] at hd
      rw [Bool.and_eq_true, Bool.and_eq_true, Bool.not_eq_true'] at hcond
      exact ⟨e, he, hd, List.contains_iff_mem.mp hcond.1.1, List.contains_iff_mem.mp hcond.1.2,
        hcond.2⟩
    · rw [if_neg hcond] at hd
      cases hd

/-! ## 4. Every collision is reported, and only collisions are -/

/-- **Every collision a rename overlay creates is reported**, and each reported one is a collision:
the table's hop is the overlay's; two live old ids that normalize to one id have an overlap that names
it, or one of them has an entry onto the other and that entry's collision; and a reported collision
names two live old ids on one key. -/
theorem rename_collisions_reported (overlay : RenameOverlay) (oldIds newIds : List String) :
    (∀ id, normalize id (buildRenameTable overlay).1 = overlay.apply id) ∧
    (∀ a ∈ oldIds, ∀ b ∈ oldIds, a ≠ b →
      normalize a (buildRenameTable overlay).1 = normalize b (buildRenameTable overlay).1 →
        (∃ olds, a ∈ olds ∧ b ∈ olds ∧
          overlapDiagnostic (normalize a (buildRenameTable overlay).1) olds ∈
            (buildRenameTable overlay).2) ∨
        ∃ e ∈ (buildRenameTable overlay).1, (e.1 = a ∧ e.2.newId = b ∨ e.1 = b ∧ e.2.newId = a) ∧
          collision e.1 e.2.newId ∈
            validateOverlayAgainstSnapshots (buildRenameTable overlay).1 oldIds newIds) ∧
    ∀ d ∈ validateOverlayAgainstSnapshots (buildRenameTable overlay).1 oldIds newIds,
      d.kind = "rename-overlay-collision" →
        ∃ a b, d = collision a b ∧ a ∈ oldIds ∧ b ∈ oldIds ∧ a ≠ b ∧
          normalize a (buildRenameTable overlay).1 = normalize b (buildRenameTable overlay).1 := by
  refine ⟨normalize_buildRenameTable overlay, ?_, ?_⟩
  · intro a ha b hb hne heq
    rcases entry_or_stays overlay a with ⟨ea, hea⟩ | hstaysa
    · rw [normalize_of_mem hea] at heq ⊢
      rcases entry_or_stays overlay b with ⟨eb, heb⟩ | hstaysb
      · rw [normalize_of_mem heb] at heq
        exact .inl (overlap_reported hea heb hne heq)
      · rw [normalize_of_not_containsKey hstaysb] at heq
        refine .inr ⟨(a, ea), hea, .inl ⟨rfl, heq⟩, ?_⟩
        dsimp only at heq ⊢
        rw [heq]
        exact collision_reported hea ha hb heq hstaysb
    · rw [normalize_of_not_containsKey hstaysa] at heq ⊢
      rcases entry_or_stays overlay b with ⟨eb, heb⟩ | hstaysb
      · rw [normalize_of_mem heb] at heq
        refine .inr ⟨(b, eb), heb, .inr ⟨rfl, heq.symm⟩, ?_⟩
        dsimp only at heq ⊢
        rw [← heq]
        exact collision_reported heb hb ha heq.symm hstaysa
      · rw [normalize_of_not_containsKey hstaysb] at heq
        exact absurd heq hne
  · intro d hd hkind
    obtain ⟨e, he, rfl, hold, htarget, hstays⟩ := entry_of_collision hd hkind
    refine ⟨e.1, e.2.newId, rfl, hold, htarget, ne_of_mem_table he, ?_⟩
    rw [normalize_of_mem he, normalize_of_not_containsKey hstays]

/-- `a` and `b` go to one new id, and `c` onto the live `d`. -/
def collidingOverlay : RenameOverlay where
  entries := [("a", "x"), ("b", "x"), ("c", "d")]
  nodup := by decide

/-- Both are told. -/
theorem rename_collisions_reported_both :
    (∃ olds, "a" ∈ olds ∧ "b" ∈ olds ∧
      overlapDiagnostic "x" olds ∈ (buildRenameTable collidingOverlay).2) ∧
    collision "c" "d" ∈ validateOverlayAgainstSnapshots (buildRenameTable collidingOverlay).1
      ["a", "b", "c", "d"] ["x", "d"] := by
  obtain ⟨hnormalize, hreported, -⟩ :=
    rename_collisions_reported collidingOverlay ["a", "b", "c", "d"] ["x", "d"]
  have ha : normalize "a" (buildRenameTable collidingOverlay).1 = "x" := hnormalize "a"
  have hb : normalize "b" (buildRenameTable collidingOverlay).1 = "x" := hnormalize "b"
  have hc : normalize "c" (buildRenameTable collidingOverlay).1 = "d" := hnormalize "c"
  have hd : normalize "d" (buildRenameTable collidingOverlay).1 = "d" := hnormalize "d"
  constructor
  · rcases hreported "a" (by simp) "b" (by simp) (by decide) (ha.trans hb.symm) with h | ⟨e, he, h, -⟩
    · rwa [ha] at h
    · -- neither has an entry onto the other
      have hmem := (List.mem_filter.mp (mem_keptEntries he)).1
      rcases h with ⟨h₁, h₂⟩ | ⟨h₁, h₂⟩ <;> rw [h₁, h₂] at hmem <;> simp [collidingOverlay] at hmem
  · rcases hreported "c" (by simp) "d" (by simp) (by decide) (hc.trans hd.symm) with
      ⟨olds, -, -, h⟩ | ⟨e, he, ⟨h₁, h₂⟩ | ⟨h₁, h₂⟩, h⟩
    · -- the one overlap is of `x`
      rw [hc] at h
      have heq : overlapDiagnostic "d" olds = overlapDiagnostic "x" ["a", "b"] := List.mem_singleton.mp h
      simp only [overlapDiagnostic, DiffDiagnostic.mk.injEq, List.cons.injEq, Prod.mk.injEq, true_and,
        and_true, Snapshot.CborValue.array.injEq] at heq
      exact absurd (List.append_inj' heq rfl).2 (by simp)
    · rwa [h₁, h₂] at h
    · have hmem := (List.mem_filter.mp (mem_keptEntries he)).1
      rw [h₁, h₂] at hmem
      simp [collidingOverlay] at hmem

end AlSem.Diff
