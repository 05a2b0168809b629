/-
# The equations of an evaluation

What the variables of a routine may hold under its inputs, as the least solution of equations: a tracked
variable starts with its input, each fact whose conditions may hold adds its value, and a call adds what the
callee's own solution leaves in the parameter, under what the arguments hold.  A routine that is not
sensitive has its summary as its solution.

A value is the set of tables a variable may hold.  Anything is every table, and a table no name is known
for; a name that is not tracked, an input that is not given and a call that cannot be followed hold anything.

Every right-hand side grows with what it reads (`equations`), and what the code computes from larger values
is larger (§3).
-/
import AlSem.L5.RecrefFlow
import AlSem.Lib.KeyedSystem
import Mathlib.Data.Set.Lattice

namespace AlSem.L5.RecrefFlow

open AlSem.Model

/-! ## 1. What a value stands for -/

/-- The tables a variable may hold; `none` is a table no name is known for. -/
abbrev Held := Set (Option String)

/-- Anything is every table. -/
def held : Val → Held
  | none => Set.univ
  | some s => {x | ∃ t ∈ s, x = some t}

theorem held_unionVal (a b : Val) : held (unionVal a b) = held a ∪ held b := by
  cases a with
  | none => exact (Set.univ_union _).symm
  | some s =>
    cases b with
    | none => exact (Set.union_univ _).symm
    | some t =>
      ext x
      simp only [unionVal, held, Finset.mem_union, Set.mem_union, Set.mem_ofPred_eq]
      constructor
      · rintro ⟨y, hy | hy, rfl⟩
        exacts [.inl ⟨y, hy, rfl⟩, .inr ⟨y, hy, rfl⟩]
      · rintro (⟨y, hy, rfl⟩ | ⟨y, hy, rfl⟩)
        exacts [⟨y, .inl hy, rfl⟩, ⟨y, .inr hy, rfl⟩]

/-- What a valuation says of a name: anything where it has no entry. -/
def heldOf (vals : Vals) (v : String) : Held := held ((vals.lookup v).getD none)

/-- What a list of inputs says of a key: what its entry says, anything where it has none. -/
def heldIn {κ : Type*} (l : List (κ × Val)) (k : κ) : Held := {x | ∀ v, (k, v) ∈ l → x ∈ held v}

theorem heldIn_le_find {κ : Type*} [DecidableEq κ] (l : List (κ × Val)) (k : κ) :
    heldIn l k ⊆ held ((l.find? fun e => e.1 = k).bind Prod.snd) := by
  intro x hx
  cases hfind : l.find? fun e => e.1 = k with
  | none => trivial
  | some e =>
    have hk : e.1 = k := by simpa using List.find?_some hfind
    exact hx e.2 (hk ▸ List.mem_of_find?_eq_some hfind)

variable {n : ℕ}

/-- **What a routine is evaluated under**: what its parameters and its instance's globals may hold. -/
structure Setting (n : ℕ) where
  routine : Fin n
  params : ℕ → Held
  globals : String → Held

instance : Preorder (Setting n) where
  le a b := a.routine = b.routine ∧ a.params ≤ b.params ∧ a.globals ≤ b.globals
  le_refl _ := ⟨rfl, le_rfl, le_rfl⟩
  le_trans _ _ _ h h' := ⟨h.1.trans h'.1, h.2.1.trans h'.2.1, h.2.2.trans h'.2.2⟩

def EvalKey.setting (key : EvalKey n) : Setting n where
  routine := key.routine
  params := heldIn key.inputs
  globals := heldIn key.globals

/-! ## 2. The equations -/

variable (F : RecRefFlow n)

def atomHeld (k : Setting n) : Atom → Held
  | .table t => {some t}
  | .unset => {some ""}
  | .param i => k.params i
  | .global g => k.globals g
  | .top => Set.univ

def atomsHeld (k : Setting n) (atoms : Atoms) : Held := {x | ∃ a ∈ atoms, x ∈ atomHeld k a}

/-- What a name holds at the start. -/
def initialHeld (k : Setting n) (v : String) : Held :=
  match (F.facts k.routine).tracked.lookup v with
  | some (.param i) => k.params i
  | some .localVar => {some ""}
  | some .global => Set.univ
  | none => Set.univ

/-- What a text holds when the variables hold `w`. -/
def textHeld (k : Setting n) (w : String → Held) (text : String) : Held :=
  match (F.facts k.routine).tracked.lookup (lc text) with
  | some .global => k.globals (lc text)
  | some _ => w (lc text)
  | none => held (untrackedVal F k.routine (lc text))

/-- The condition may hold. -/
def CondMay (k : Setting n) (w : String → Held) (c : Cond) : Prop :=
  none ∈ textHeld F k w c.varName ∨
    ∃ t, some t ∈ textHeld F k w c.varName ∧ c.tables.contains t = c.mustIn

def partHeld (k : Setting n) (w : String → Held) : Part → Held
  | .copy text => textHeld F k w text
  | .atoms a => atomsHeld k a

/-- What the argument bound to the parameter `name` at position `j` holds. -/
def argHeld (k : Setting n) (w : String → Held) (cs : PCallSite) (publisher : Option Routine)
    (name : String) (j : ℕ) : Held :=
  match argText cs publisher name j with
  | some text => textHeld F k w text
  | none => Set.univ

/-- What a call runs under. -/
def calleeSetting (k : Setting n) (w : String → Held) (cs : PCallSite) (t : Fin n)
    (publisher : Option Routine) : Setting n where
  routine := t
  params j := {x | ∀ name, (F.facts t).tracked.lookup name = some (.param j) →
    x ∈ argHeld F k w cs publisher name j}
  globals g := if ownInstance F k.routine t cs publisher then k.globals g else Set.univ

/-- What callee `t` leaves in its parameter `p`, beyond what the argument holds. -/
def calleeHeld (σ : Setting n →o (String → Held)) (k : Setting n) (w : String → Held)
    (cs : PCallSite) (t : Fin n) (p : ModelParameter) (publisher : Option Routine) : Held :=
  if !(F.routines t).bodyAvailable || (F.routines t).parseIncomplete then Set.univ
  else if (F.facts t).tracked.lookup (lc p.name) = none then
    if p.isRecord then ∅ else Set.univ
  else if keepsByValue (F.facts t) p then ∅
  else σ (calleeSetting F k w cs t publisher) (lc p.name)

/-- What the loaded subscribers of publisher `pb` leave in their parameter `pname`. -/
def subscribersHeld (σ : Setting n →o (String → Held)) (k : Setting n) (w : String → Held)
    (cs : PCallSite) (pb : Routine) (pname : String) (ss : List (Fin n)) : Held :=
  {x | ∃ s ∈ ss, ∃ sp, ((F.routines s).parameters.find? fun p => lc p.name = pname) = some sp ∧
    x ∈ calleeHeld F σ k w cs s sp (some pb)}

/-- What a target of a call leaves at position `pos`. -/
def targetHeld (σ : Setting n →o (String → Held)) (k : Setting n) (w : String → Held)
    (cs : PCallSite) (pos : ℕ) (t : Fin n) : Held :=
  match (F.routines t).parameters.find? fun p => p.index = pos with
  | none => Set.univ
  | some p =>
    if isPublisher (F.routines t) then
      subscribersHeld F σ k w cs (F.routines t) (lc p.name) (F.subscribers.getList t)
    else calleeHeld F σ k w cs t p none

/-- What a call leaves in the variable passed to it. -/
def outHeld (σ : Setting n →o (String → Held)) (k : Setting n) (w : String → Held)
    (f : PassedFact (F.routines k.routine)) : Held :=
  let r := F.routines k.routine
  let cs := r.callSites.get f.callSite
  if F.openSites.contains cs.id then Set.univ
  else
    match F.targets.lookup cs.id with
    | none =>
      if !writesArguments cs && (F.builtinSites.contains cs.id || keepsUnresolved r cs) then ∅
      else Set.univ
    | some ts => {x | ∃ t ∈ ts, x ∈ targetHeld F σ k w cs f.position t}

/-- What the facts of a routine add to a variable. -/
def factsHeld (σ : Setting n →o (String → Held)) (k : Setting n) (w : String → Held) (v : String) :
    Held :=
  {x | (∃ f ∈ (F.facts k.routine).fixed, f.varName = v ∧ (∀ c ∈ f.conds, CondMay F k w c) ∧
      x ∈ partHeld F k w f.part) ∨
    ∃ f ∈ (F.facts k.routine).passed, f.varName = v ∧ (∀ c ∈ f.conds, CondMay F k w c) ∧
      x ∈ outHeld F σ k w f}

/-- What the summary of a routine says of a name. -/
def summaryHeld (k : Setting n) (v : String) : Held :=
  match (F.summaries k.routine).lookup v with
  | some atoms => atomsHeld k atoms
  | none => initialHeld F k v

section Mono

variable {F} {k l : Setting n} {w u : String → Held} {σ τ : Setting n →o (String → Held)}

theorem atomHeld_mono (h : k ≤ l) (a : Atom) : atomHeld k a ⊆ atomHeld l a := by
  cases a with
  | param i => exact h.2.1 i
  | global g => exact h.2.2 g
  | table t => exact subset_rfl
  | unset => exact subset_rfl
  | top => exact subset_rfl

theorem atomsHeld_mono (h : k ≤ l) (atoms : Atoms) : atomsHeld k atoms ⊆ atomsHeld l atoms :=
  fun _ ⟨a, ha, hx⟩ => ⟨a, ha, atomHeld_mono h a hx⟩

theorem initialHeld_mono (h : k ≤ l) (v : String) : initialHeld F k v ⊆ initialHeld F l v := by
  obtain ⟨i, p, g⟩ := k
  obtain ⟨j, q, g'⟩ := l
  obtain ⟨rfl, hp, -⟩ := h
  unfold initialHeld
  dsimp only
  cases (F.facts i).tracked.lookup v with
  | none => exact subset_rfl
  | some kind =>
    cases kind with
    | param j => exact hp j
    | localVar => exact subset_rfl
    | global => exact subset_rfl

theorem textHeld_mono (h : k ≤ l) (hw : w ≤ u) (text : String) :
    textHeld F k w text ⊆ textHeld F l u text := by
  obtain ⟨i, p, g⟩ := k
  obtain ⟨j, q, g'⟩ := l
  obtain ⟨rfl, -, hg⟩ := h
  unfold textHeld
  dsimp only
  cases (F.facts i).tracked.lookup (lc text) with
  | none => exact subset_rfl
  | some kind =>
    cases kind with
    | global => exact hg _
    | param j => exact hw _
    | localVar => exact hw _

theorem CondMay.mono (h : k ≤ l) (hw : w ≤ u) {c : Cond} (hc : CondMay F k w c) :
    CondMay F l u c :=
  hc.imp (fun hx => textHeld_mono h hw _ hx) fun ⟨t, hx, ht⟩ => ⟨t, textHeld_mono h hw _ hx, ht⟩

theorem partHeld_mono (h : k ≤ l) (hw : w ≤ u) (part : Part) :
    partHeld F k w part ⊆ partHeld F l u part := by
  cases part with
  | copy text => exact textHeld_mono h hw text
  | atoms a => exact atomsHeld_mono h a

theorem calleeSetting_mono (h : k ≤ l) (hw : w ≤ u) (cs : PCallSite) (t : Fin n)
    (publisher : Option Routine) :
    calleeSetting F k w cs t publisher ≤ calleeSetting F l u cs t publisher := by
  refine ⟨rfl, fun j x hx name hname => ?_, fun g => ?_⟩
  · have hx' := hx name hname
    unfold argHeld at hx' ⊢
    cases harg : argText cs publisher name j with
    | none => trivial
    | some text =>
      rw [harg] at hx'
      exact textHeld_mono h hw text hx'
  · unfold calleeSetting
    dsimp only
    rw [h.1]
    split
    · exact h.2.2 g
    · exact le_rfl

theorem calleeHeld_mono (h : k ≤ l) (hw : w ≤ u) (hσ : σ ≤ τ) (cs : PCallSite) (t : Fin n)
    (p : ModelParameter) (publisher : Option Routine) :
    calleeHeld F σ k w cs t p publisher ⊆ calleeHeld F τ l u cs t p publisher := by
  unfold calleeHeld
  split
  · exact subset_rfl
  · split
    · exact subset_rfl
    · split
      · exact subset_rfl
      · calc σ (calleeSetting F k w cs t publisher) (lc p.name)
            ≤ σ (calleeSetting F l u cs t publisher) (lc p.name) :=
              σ.mono (calleeSetting_mono h hw cs t publisher) _
          _ ≤ τ (calleeSetting F l u cs t publisher) (lc p.name) := hσ _ _

theorem targetHeld_mono (h : k ≤ l) (hw : w ≤ u) (hσ : σ ≤ τ) (cs : PCallSite) (pos : ℕ)
    (t : Fin n) : targetHeld F σ k w cs pos t ⊆ targetHeld F τ l u cs pos t := by
  unfold targetHeld
  cases (F.routines t).parameters.find? fun p => p.index = pos with
  | none => exact subset_rfl
  | some p =>
    dsimp only
    split
    · rintro x ⟨s, hs, sp, hsp, hx⟩
      exact ⟨s, hs, sp, hsp, calleeHeld_mono h hw hσ cs s sp _ hx⟩
    · exact calleeHeld_mono h hw hσ cs t p none

theorem factsHeld_mono (h : k ≤ l) (hw : w ≤ u) (hσ : σ ≤ τ) (v : String) :
    factsHeld F σ k w v ⊆ factsHeld F τ l u v := by
  have hk := h
  obtain ⟨i, p, g⟩ := k
  obtain ⟨j, q, g'⟩ := l
  obtain ⟨rfl, -, -⟩ := h
  rintro x (⟨f, hf, hv, hc, hx⟩ | ⟨f, hf, hv, hc, hx⟩)
  · exact .inl ⟨f, hf, hv, fun c hm => (hc c hm).mono hk hw, partHeld_mono hk hw f.part hx⟩
  · refine .inr ⟨f, hf, hv, fun c hm => (hc c hm).mono hk hw, ?_⟩
    unfold outHeld at hx ⊢
    dsimp only at hx ⊢
    split
    · trivial
    · rw [if_neg ‹_›] at hx
      split at hx
      · exact hx
      · obtain ⟨t, ht, hx⟩ := hx
        exact ⟨t, ht, targetHeld_mono hk hw hσ _ _ t hx⟩

theorem summaryHeld_mono (h : k ≤ l) (v : String) : summaryHeld F k v ⊆ summaryHeld F l v := by
  unfold summaryHeld
  rw [h.1]
  cases (F.summaries l.routine).lookup v with
  | none => exact initialHeld_mono h v
  | some atoms => exact atomsHeld_mono h atoms

end Mono

/-- **The equations**: what a routine's variables hold under a setting, given what they hold so far and
what the routines leave under each setting. -/
def equations : KeyedSystem (Setting n) (String → Held) where
  rhs k w σ v :=
    if F.sensitive k.routine then initialHeld F k v ∪ factsHeld F σ k w v else summaryHeld F k v
  mono {k l w u σ τ} h hw hσ v := by
    dsimp only
    rw [h.1]
    split
    · exact Set.union_subset_union (initialHeld_mono h v) (factsHeld_mono h hw hσ v)
    · exact summaryHeld_mono h v

/-! ## 3. The code's values and theirs -/

section Values

variable {F} {key : EvalKey n} {vals : Vals}

/-- Atoms read under known inputs. -/
theorem eval_sound {params : List (ℕ × TSet)} {globals : List (String × TSet)} {k : Setting n}
    (hparams : ∀ i s, (params.find? fun e => e.1 = i) = some s → k.params i ⊆ held (some s.2))
    (hglobals : ∀ g s, (globals.find? fun e => e.1 = g) = some s → k.globals g ⊆ held (some s.2))
    (atoms : Atoms) : atomsHeld k atoms ⊆ held (eval atoms params globals) := by
  -- every atom taken so far is in the set
  suffices h : ∀ (rest : Atoms) (out : TSet) (s : TSet), rest.foldlM (fun out a =>
      match a with
      | .table t => some (insert t out)
      | .unset => some (insert "" out)
      | .param i => (params.find? fun e => e.1 = i).map fun e => out ∪ e.2
      | .global g => (globals.find? fun e => e.1 = g).map fun e => out ∪ e.2
      | .top => none) out = some s →
      out ⊆ s ∧ atomsHeld k rest ⊆ held (some s) by
    cases heval : eval atoms params globals with
    | none => exact Set.subset_univ _
    | some s => exact (h atoms ∅ s heval).2
  intro rest
  induction rest with
  | nil =>
    intro out s h
    obtain rfl : out = s := Option.some.inj h
    exact ⟨subset_rfl, fun x ⟨a, ha, _⟩ => absurd ha List.not_mem_nil⟩
  | cons a rest ih =>
    intro out s h
    rw [List.foldlM_cons] at h
    obtain ⟨out', hout, h⟩ := Option.bind_eq_some_iff.mp h
    obtain ⟨hsub, hrest⟩ := ih out' s h
    have hone : out ⊆ out' ∧ atomHeld k a ⊆ held (some out') := by
      cases a with
      | table t =>
        obtain rfl := Option.some.inj hout
        exact ⟨Finset.subset_insert _ _, fun x hx => ⟨t, Finset.mem_insert_self _ _, hx⟩⟩
      | unset =>
        obtain rfl := Option.some.inj hout
        exact ⟨Finset.subset_insert _ _, fun x hx => ⟨"", Finset.mem_insert_self _ _, hx⟩⟩
      | param i =>
        obtain ⟨e, he, rfl⟩ := Option.map_eq_some_iff.mp hout
        refine ⟨Finset.subset_union_left, fun x hx => ?_⟩
        obtain ⟨t, ht, rfl⟩ := hparams i e he hx
        exact ⟨t, Finset.mem_union_right _ ht, rfl⟩
      | global g =>
        obtain ⟨e, he, rfl⟩ := Option.map_eq_some_iff.mp hout
        refine ⟨Finset.subset_union_left, fun x hx => ?_⟩
        obtain ⟨t, ht, rfl⟩ := hglobals g e he hx
        exact ⟨t, Finset.mem_union_right _ ht, rfl⟩
      | top => cases hout
    refine ⟨hone.1.trans hsub, fun x ⟨b, hb, hx⟩ => ?_⟩
    rcases List.mem_cons.mp hb with rfl | hb
    · obtain ⟨t, ht, rfl⟩ := hone.2 hx
      exact ⟨t, hsub ht, rfl⟩
    · exact hrest ⟨b, hb, hx⟩

/-- What `eval_val` finds under a key is one of its inputs. -/
theorem heldIn_le_known {κ : Type*} [DecidableEq κ] {l : List (κ × Val)} {k : κ} {e : κ × TSet}
    (h : ((l.filterMap fun e => e.2.map fun s => (e.1, s)).find? fun e => e.1 = k) = some e) :
    heldIn l k ⊆ held (some e.2) := by
  have hk : e.1 = k := by simpa using List.find?_some h
  obtain ⟨e', he', heq⟩ := List.mem_filterMap.mp (List.mem_of_find?_eq_some h)
  obtain ⟨s, hs, rfl⟩ := Option.map_eq_some_iff.mp heq
  intro x hx
  have hmem : (k, some s) ∈ l := by
    rw [← hk, ← hs]
    exact he'
  exact hx _ hmem

theorem evalVal_sound (atoms : Atoms) :
    atomsHeld key.setting atoms ⊆ held (evalVal atoms key.inputs key.globals) :=
  eval_sound (fun _ _ h => heldIn_le_known h) (fun _ _ h => heldIn_le_known h) atoms

theorem valOfText_sound (text : String) :
    textHeld F key.setting (heldOf vals) text ⊆ held (valOfText F key vals text) := by
  unfold textHeld valOfText EvalKey.setting
  dsimp only
  cases (F.facts key.routine).tracked.lookup (lc text) with
  | none => exact subset_rfl
  | some kind =>
    cases kind with
    | global => exact heldIn_le_find _ _
    | param i => exact subset_rfl
    | localVar => exact subset_rfl

/-- Conditions that may hold are taken to hold. -/
theorem condsHold_of_may {conds : List Cond}
    (h : ∀ c ∈ conds, CondMay F key.setting (heldOf vals) c) : condsHold F key vals conds = true := by
  unfold condsHold
  rw [List.all_eq_true]
  intro c hc
  cases hval : valOfText F key vals c.varName with
  | none => rfl
  | some s =>
    have hsub : textHeld F key.setting (heldOf vals) c.varName ⊆ held (valOfText F key vals c.varName) :=
      valOfText_sound c.varName
    rw [hval] at hsub
    rcases h c hc with hx | ⟨t, hx, ht⟩
    · obtain ⟨_, _, h⟩ := hsub hx
      cases h
    · obtain ⟨t', ht', h⟩ := hsub hx
      obtain rfl := Option.some.inj h
      exact decide_eq_true ⟨t, ht', ht⟩

theorem initialVals_lookup (v : String) :
    (initialVals F key).lookup v = ((F.facts key.routine).tracked.lookup v).bind fun
      | .param i => some ((key.inputs.find? fun e => e.1 = i).bind Prod.snd)
      | .localVar => some (some {""})
      | .global => none :=
  HashMap.lookup_filterMapValues _ _ _

theorem initialVals_sound (v : String) :
    initialHeld F key.setting v ⊆ heldOf (initialVals F key) v := by
  unfold heldOf initialHeld EvalKey.setting
  rw [initialVals_lookup]
  dsimp only
  cases (F.facts key.routine).tracked.lookup v with
  | none => exact subset_rfl
  | some kind =>
    cases kind with
    | param i => exact heldIn_le_find _ _
    | localVar => exact fun x hx => ⟨"", Finset.mem_singleton_self _, hx⟩
    | global => exact subset_rfl

/-- **A call is evaluated under no less than its setting.** -/
theorem calleeKey_sound (cs : PCallSite) (t : Fin n) (publisher : Option Routine) :
    calleeSetting F key.setting (heldOf vals) cs t publisher ≤
      (calleeKey F key vals cs t publisher).setting := by
  refine ⟨rfl, fun j x hx v hv => ?_, fun g x hx v hv => ?_⟩
  · obtain ⟨e, he, heq⟩ := List.mem_filterMap.mp ((List.mem_insertionSort _).mp hv)
    obtain ⟨name, kind⟩ := e
    cases kind with
    | localVar => cases heq
    | global => cases heq
    | param i =>
      obtain ⟨rfl, rfl⟩ := Prod.mk.inj (Option.some.inj heq)
      have harg := hx name (AList.mem_lookup_iff.mpr he)
      unfold argHeld at harg
      cases htext : argText cs publisher name i with
      | none => trivial
      | some text =>
        rw [htext] at harg
        exact valOfText_sound text harg
  · unfold calleeSetting at hx
    dsimp only at hx
    unfold calleeKey at hv
    dsimp only at hv
    split at hv
    · rw [if_pos ‹_›] at hx
      exact hx v hv
    · exact absurd hv List.not_mem_nil

/-- The summary's values. -/
theorem summaryVals_lookup (v : String) :
    (summaryVals F key).lookup v =
      match (F.summaries key.routine).lookup v with
      | some atoms => some (evalVal atoms key.inputs key.globals)
      | none => (initialVals F key).lookup v := by
  have hnd := (F.summaries key.routine).nodupKeys
  unfold summaryVals
  have h : ∀ (l : List (Sigma fun _ : String => Atoms)) (m : Vals), l.NodupKeys →
      (l.foldl (fun vals e => vals.insert e.1 (evalVal e.2 key.inputs key.globals)) m).lookup v =
        match l.dlookup v with
        | some atoms => some (evalVal atoms key.inputs key.globals)
        | none => m.lookup v := by
    intro l
    induction l with
    | nil => intro m _; rfl
    | cons e l ih =>
      intro m hnd
      obtain ⟨hnot, hrest⟩ := List.nodupKeys_cons.mp hnd
      rw [List.foldl_cons, ih _ hrest]
      by_cases hv : v = e.1
      · subst hv
        rw [List.dlookup_eq_none.mpr hnot, AList.lookup_insert, List.dlookup_cons_eq]
      · rw [List.dlookup_cons_ne _ _ hv, AList.lookup_insert_ne hv]
  exact h _ _ hnd

theorem summaryVals_sound : summaryHeld F key.setting ≤ heldOf (summaryVals F key) := by
  intro v
  unfold summaryHeld heldOf
  rw [summaryVals_lookup]
  have hroutine : key.setting.routine = key.routine := rfl
  rw [hroutine]
  cases (F.summaries key.routine).lookup v with
  | none => exact initialVals_sound v
  | some atoms => exact evalVal_sound atoms

theorem allTop_sound (v : String) : heldOf (allTop F key.routine) v = Set.univ := by
  unfold heldOf allTop
  rw [HashMap.lookup_mapValues]
  cases (F.facts key.routine).tracked.lookup v with
  | none => rfl
  | some _ => rfl

end Values

end AlSem.L5.RecrefFlow
