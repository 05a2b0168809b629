/-
# The artifacts of a revision

The keys and values a revision's store holds, what a value satisfies, and the fill of the det: a
refill keeps what the det it replaces covered only when the snapshot it reads holds what the wider
mask needs.  The contents of an artifact are left out, but for the det's mask.
-/
import Mathlib.Data.BitVec
import AlSem.Resident.Prepare

namespace AlSem.Resident

/-! ## 1. Keys, values, requirements -/

abbrev Mask := BitVec 32

namespace substrate

def SUMMARIES : Mask := 1#32 <<< 0
def CORE_SUMMARIES : Mask := 1#32 <<< 1
def TRANSACTION_SPANS : Mask := 1#32 <<< 2
def CLOSED_WORLD_TEMP : Mask := 1#32 <<< 3

end substrate

/-- What one run of detectors is keyed by. -/
structure RunKey where
  detectors : List String
  demanded : Mask
  scopePrimary : Bool
  deriving DecidableEq

/-- A key of a revision's artifact store; a set of subjects is its sorted list. -/
inductive ArtifactKey where
  | ordering
  | rules
  | fold
  | l4
  | raw (subjects : List String)
  | treeBase
  | tree (subjects : List String)
  | det
  | run (key : RunKey) (ordering rules : Bool)
  | witness (root : String) (includeReads : Bool)
  | explainIndexes
  | sited
  deriving DecidableEq

def ArtifactKey.phase : ArtifactKey → ℕ
  | .ordering | .rules | .fold | .l4 | .explainIndexes | .sited => 0
  | .raw _ | .det | .treeBase => 1
  | .run .. | .tree _ => 2
  | .witness .. => 3

instance : StoreKey ArtifactKey := ⟨ArtifactKey.phase⟩

/-- The owned detector substrates; `demanded` is the mask they were harvested at. -/
structure DetectorArtifacts where
  demanded : Mask
  deriving DecidableEq

inductive ArtifactValue where
  | ordering
  | rules
  | fold
  | l4
  | raw
  | treeBase
  | tree
  | det (d : DetectorArtifacts)
  | run
  | witness
  | explainIndexes
  | sited
  deriving DecidableEq

structure Artifact where
  value : ArtifactValue

/-- A det satisfies the masks within its own; any other artifact satisfies every mask. -/
def Artifact.satisfies (a : Artifact) (mask : Mask) : Bool :=
  match a.value with
  | .det d => mask &&& ~~~d.demanded == 0
  | _ => true

instance : StoreValue Artifact Mask := ⟨Artifact.satisfies⟩

/-! ## 2. The det's fill -/

def masks (mask bits : Mask) : Bool := mask &&& bits != 0

/-- The snapshot holds what a det of `mask` reads. -/
def readable (s : Snapshot ArtifactKey Artifact) (mask : Mask) : Bool :=
  (!masks mask (substrate.SUMMARIES ||| substrate.TRANSACTION_SPANS) || (s.get .fold).isSome)
    && (!masks mask substrate.CORE_SUMMARIES || (s.get .l4).isSome)

/-- The mask that also keeps what the existing det covered. -/
def wider (existing : Option Artifact) (req : Mask) : Option Mask :=
  existing.bind fun a =>
    match a.value with
    | .det d => some (d.demanded ||| req)
    | _ => none

/-- The mask a det is filled at. -/
def detMask (cx : FillCx ArtifactKey Artifact Mask) : Mask :=
  ((wider cx.existing cx.req).filter fun m => readable cx.snapshot m).getD cx.req

/-- `harvest_detector_artifacts`, as far as its mask. -/
def harvest (mask : Mask) : DetectorArtifacts := ⟨mask⟩

/-- The `Det` arm of `Revision::fill`. -/
def fillDet (cx : FillCx ArtifactKey Artifact Mask) : FillEnd Artifact :=
  let mask := detMask cx
  let caps : Except String Unit :=
    if masks mask (substrate.SUMMARIES ||| substrate.TRANSACTION_SPANS) then
      match (cx.snapshot.get .fold).map Artifact.value with
      | some .fold => .ok ()
      | _ => .error "the det needs the fold, which is not published"
    else .ok ()
  let l4 : Except String Unit :=
    if masks mask substrate.CORE_SUMMARIES then
      match (cx.snapshot.get .l4).map Artifact.value with
      | some .l4 => .ok ()
      | _ => .error "the det needs l4, which is not published"
    else .ok ()
  match caps, l4 with
  | .error why, _ => .err why
  | .ok _, .error why => .err why
  | .ok _, .ok _ => .ok ⟨.det (harvest mask)⟩

/-- What a fill reads of the request's plan: the runs it names, and the witnesses' batch. -/
structure FillPlan where
  names : RunKey → Bool
  fillWitness : FillCx ArtifactKey Artifact Mask → FillEnd Artifact

/-- Whether the snapshot holds `value` at `key`. -/
def holds (s : Snapshot ArtifactKey Artifact) (key : ArtifactKey) (value : ArtifactValue) : Bool :=
  decide ((s.get key).map Artifact.value = some value)

def holdsDet (s : Snapshot ArtifactKey Artifact) : Bool :=
  match (s.get .det).map Artifact.value with
  | some (.det _) => true
  | _ => false

/-- `Revision::fill`: the prerequisites each arm reads, and the errors where one is missing. -/
def fill (plan : FillPlan) (cx : FillCx ArtifactKey Artifact Mask) : FillEnd Artifact :=
  match cx.key with
  | .witness _ _ => plan.fillWitness cx
  | .sited =>
    .err ("the sited graph is built with the revision's program and cannot be "
      ++ "filled after it (the session builds it on its next refresh)")
  | .explainIndexes => .ok ⟨.explainIndexes⟩
  | .ordering => .ok ⟨.ordering⟩
  | .rules => .ok ⟨.rules⟩
  | .fold => .ok ⟨.fold⟩
  | .l4 => .ok ⟨.l4⟩
  | .raw _ =>
    if holds cx.snapshot .fold .fold then .ok ⟨.raw⟩
    else .err "raw facts need the fold, which is not published"
  | .treeBase =>
    if holds cx.snapshot .fold .fold then .ok ⟨.treeBase⟩
    else .err "the tree base needs the fold, which is not published"
  | .tree scope =>
    if !holds cx.snapshot .fold .fold then .err "a tree needs the fold, which is not published"
    else if !holds cx.snapshot .treeBase .treeBase then
      .err "a tree needs the tree base, which is not published"
    else if !holds cx.snapshot (.raw scope) .raw then .err "a tree's raw facts are missing"
    else .ok ⟨.tree⟩
  | .det => fillDet cx
  | .run key _ _ =>
    if !holdsDet cx.snapshot then .err "a run needs the det, which is not published"
    else if plan.names key then .ok ⟨.run⟩
    else .err "a run the request's plan does not name"

theorem fillDet_ok {cx : FillCx ArtifactKey Artifact Mask} {v : Artifact}
    (h : (fillDet cx).caught = .ok v) : v = ⟨.det ⟨detMask cx⟩⟩ := by
  unfold fillDet at h
  dsimp only at h
  split at h <;> simp [FillEnd.caught] at h
  exact h.symm

theorem within_or_right (a b : Mask) : a &&& ~~~(b ||| a) = 0 := by
  ext i hi
  simp
  tauto

theorem within_or_left (a b : Mask) : a &&& ~~~(a ||| b) = 0 := by
  rw [BitVec.or_comm]
  exact within_or_right a b

theorem within_trans {a b c : Mask} (hab : a &&& ~~~b = 0) (hbc : b &&& ~~~c = 0) :
    a &&& ~~~c = 0 := by
  ext i hi
  have h1 := congrArg (fun m : Mask => m[i]) hab
  have h2 := congrArg (fun m : Mask => m[i]) hbc
  simp at h1 h2 ⊢
  tauto

/-- **A det's fill satisfies what it was asked for.** -/
theorem fillDet_satisfies {cx : FillCx ArtifactKey Artifact Mask} {v : Artifact}
    (h : (fillDet cx).caught = .ok v) : v.satisfies cx.req = true := by
  rw [fillDet_ok h]
  simp only [Artifact.satisfies, detMask, beq_iff_eq]
  cases hw : (wider cx.existing cx.req).filter fun m => readable cx.snapshot m with
  | none => simp
  | some m =>
    obtain ⟨hm, -⟩ := Option.filter_eq_some_iff.mp hw
    obtain ⟨a, -, ha⟩ := Option.bind_eq_some_iff.mp hm
    split at ha
    · obtain rfl := Option.some.inj ha
      exact within_or_right _ _
    · cases ha

/-! ## 3. Runs of a revision's store -/

/-- A plan that names every run and asks for no witness. -/
def runsOnly : FillPlan := ⟨fun _ => true, fun _ => .err "no witness is planned"⟩

/-- `n` steps of worker `w`, its fills the revision's. -/
def turns (w n : ℕ) : List (Event ArtifactKey Artifact Mask) :=
  List.replicate n (.step w { fill := fill runsOnly })

/-- The needs of a plan that runs `detectors` at `demanded`, its det's substrates apart. -/
def runNeeds (detectors : List String) (demanded : Mask) : List (ArtifactKey × Mask) :=
  [(.det, demanded), (.run ⟨detectors, demanded, true⟩ false false, 0)]

end AlSem.Resident
