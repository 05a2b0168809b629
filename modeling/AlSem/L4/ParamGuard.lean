/-
# Parameter guards

`param_guard.rs`: the values a routine's boolean parameters must have for a site to run, and
their transfer across a call.  A requirement list is sorted and short; a list that grows past
`maxReqs` is dropped, which makes the fact unconditional.
-/
import AlSem.Lib.HashMap
import AlSem.Model.Workspace

namespace AlSem.L4

open AlSem.Model

/-- A parameter index and the value it must have. -/
abbrev Req := ℕ × Bool

/-- Longer requirement lists are dropped. -/
def maxReqs : ℕ := 4

/-- A routine's guard frame: its usable guard parameters, and what each guarded site requires. -/
structure FrameGuards where
  usable : List ℕ
  bySite : HashMap String (List Req)

/-- What a site requires, nothing when it has no entry. -/
def FrameGuards.site (f : FrameGuards) (id : String) : List Req := f.bySite.getList id

/-- `(u32, bool)` order. -/
def reqLe (a b : Req) : Bool := decide (a.1 < b.1 ∨ a.1 = b.1 ∧ a.2 ≤ b.2)

/-- Add one requirement, `none` when the list requires the opposite value. -/
def addReq (out : List Req) (r : Req) : Option (List Req) :=
  match out.find? fun w => w.1 = r.1 with
  | some w => if w.2 ≠ r.2 then none else some out
  | none => some (out ++ [r])

/-- The sorted union of two requirement lists, `none` when they require opposite values of one
parameter. -/
def conjoin (a b : List Req) : Option (List Req) :=
  (b.foldlM addReq a).map fun out =>
    let out := out.mergeSort reqLe
    if maxReqs < out.length then [] else out

/-- One requirement across a call: a literal argument agrees or contradicts, a usable parameter of
the caller takes it over, anything else drops it. -/
def acrossReq (cs : PCallSite) (callerFrame : Option FrameGuards) (out : List Req) (r : Req) :
    Option (List Req) :=
  let text := cs.argumentTexts[r.1]?.map fun t => Text.toAsciiLowercase (Text.trim t)
  if text = some "true" ∨ text = some "false" then
    if decide (text = some "true") ≠ r.2 then none else some out
  else
    let source := (cs.argumentBindings.find? fun b =>
      decide (b.parameterIndex = r.1) && decide (b.sourceKind = "parameter")).bind
        (·.sourceParameterIndex)
    match source, callerFrame with
    | some j, some f => if f.usable.contains j then conjoin out [(j, r.2)] else some out
    | _, _ => some out

/-- A callee's requirements across one call, in the caller's frame. -/
def acrossEdge (reqs : List Req) (cs : PCallSite) (callerFrame : Option FrameGuards) :
    Option (List Req) :=
  reqs.foldlM (acrossReq cs callerFrame) []

/-! ## Requirement lists are drawn from a frame -/

/-- Every requirement a frame can state. -/
def FrameGuards.literals (f : FrameGuards) : List Req :=
  f.usable.flatMap (fun i => [(i, true), (i, false)]) ++ f.bySite.entries.flatMap Sigma.snd

theorem FrameGuards.mem_literals_of_usable {f : FrameGuards} {i : ℕ} (hi : i ∈ f.usable) (v : Bool) :
    (i, v) ∈ f.literals := by
  refine List.mem_append_left _ (List.mem_flatMap.mpr ⟨i, hi, ?_⟩)
  cases v <;> simp

theorem FrameGuards.site_subset (f : FrameGuards) (id : String) : f.site id ⊆ f.literals := by
  intro r hr
  obtain ⟨e, he, -, hmem⟩ := HashMap.mem_of_mem_getList hr
  exact List.mem_append_right _ (List.mem_flatMap.mpr ⟨e, he, hmem⟩)

theorem addReq_subset {out out' : List Req} {r : Req} (h : addReq out r = some out') :
    out' ⊆ out ++ [r] := by
  unfold addReq at h
  split at h
  · split at h
    · simp at h
    · obtain rfl := Option.some.inj h
      exact List.subset_append_left _ _
  · obtain rfl := Option.some.inj h
    exact List.Subset.refl _

theorem foldlM_addReq_subset : ∀ {b out out' : List Req}, b.foldlM addReq out = some out' →
    out' ⊆ out ++ b
  | [], out, out', h => by
    obtain rfl : out = out' := Option.some.inj h
    simp
  | r :: b, out, out', h => by
    rw [List.foldlM_cons] at h
    obtain ⟨mid, hmid, hrest⟩ := Option.bind_eq_some_iff.mp h
    intro x hx
    rcases List.mem_append.mp (foldlM_addReq_subset hrest hx) with hx | hx
    · rcases List.mem_append.mp (addReq_subset hmid hx) with hx | hx
      · exact List.mem_append_left _ hx
      · rw [List.mem_singleton] at hx
        subst hx
        exact List.mem_append_right _ List.mem_cons_self
    · exact List.mem_append_right _ (List.mem_cons_of_mem _ hx)

/-- **A conjunction is short and states nothing new.** -/
theorem conjoin_spec {a b out : List Req} (h : conjoin a b = some out) :
    out.length ≤ maxReqs ∧ out ⊆ a ++ b := by
  unfold conjoin at h
  obtain ⟨mid, hmid, rfl⟩ := Option.map_eq_some_iff.mp h
  dsimp only
  split
  · exact ⟨Nat.zero_le _, List.nil_subset _⟩
  · rename_i hlen
    refine ⟨not_lt.mp hlen, fun x hx => ?_⟩
    exact foldlM_addReq_subset hmid ((List.mergeSort_perm _ _).mem_iff.mp hx)

theorem acrossReq_subset {cs : PCallSite} {frame : Option FrameGuards} {L out out' : List Req}
    {r : Req} (hL : ∀ f, frame = some f → f.literals ⊆ L) (hout : out ⊆ L)
    (h : acrossReq cs frame out r = some out') : out' ⊆ L := by
  unfold acrossReq at h
  dsimp only at h
  split at h
  · split at h
    · simp at h
    · obtain rfl := Option.some.inj h
      exact hout
  · split at h
    · rename_i j f _
      split at h
      · rename_i hj
        intro x hx
        rcases List.mem_append.mp ((conjoin_spec h).2 hx) with hx | hx
        · exact hout hx
        · rw [List.mem_singleton] at hx
          subst hx
          exact hL f rfl (f.mem_literals_of_usable (List.contains_iff_mem.mp hj) _)
      · obtain rfl := Option.some.inj h
        exact hout
    · obtain rfl := Option.some.inj h
      exact hout

/-- **What crosses a call is stated by the caller's frame.** -/
theorem acrossEdge_subset {cs : PCallSite} {frame : Option FrameGuards} {L : List Req}
    (hL : ∀ f, frame = some f → f.literals ⊆ L) {reqs out : List Req}
    (h : acrossEdge reqs cs frame = some out) : out ⊆ L := by
  have hfold : ∀ (reqs : List Req) {acc out : List Req}, acc ⊆ L →
      reqs.foldlM (acrossReq cs frame) acc = some out → out ⊆ L := by
    intro reqs
    induction reqs with
    | nil =>
      intro acc out hacc h
      obtain rfl : acc = out := Option.some.inj h
      exact hacc
    | cons r reqs ih =>
      intro acc out hacc h
      rw [List.foldlM_cons] at h
      obtain ⟨mid, hmid, hrest⟩ := Option.bind_eq_some_iff.mp h
      exact ih (acrossReq_subset hL hacc hmid) hrest
  exact hfold reqs (List.nil_subset _) h

end AlSem.L4
