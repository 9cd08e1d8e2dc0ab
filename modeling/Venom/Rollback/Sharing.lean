import Venom.Rollback
import Mathlib.Logic.Function.Basic

/-! # Several containers, one state file

Mount threads and processes share the local rollback state.  None of them locks it: a
call loads the whole map, decides on its copy, and an update writes the whole copy back.
Here the steps of any number of containers interleave.

A write loses what other processes have written since the load.  When every process
writes back a copy that is still the content of the file, baselines neither decrease nor
disappear.
-/

namespace Venom.Rollback

open Venom.Crypto (Bytes)
open Venom.Library (HashMap)

/-- Containers with distinct ids. -/
structure Containers (ι : Type) where
  containerId : ι → Bytes 16
  distinct : Function.Injective containerId

/-- The calls that touch the state file. -/
inductive Call
  | create
  /-- The generation the allocation block of the file to be opened has. -/
  | «open» (generation : Nat)
  | flush
  | reset

/-- What the process of a container is doing. -/
inductive Phase
  /-- The container has not been created. -/
  | absent
  | closed
  | mounted (generation : Nat)
  /-- Between the load and the next step of a call.  The store has this generation. -/
  | loaded (call : Call) (generation : Nat) (copy : RollbackState)

/-- The state file and the processes. -/
structure Device (ι : Type) where
  stateFile : RollbackState
  phase : ι → Phase

inductive Event (ι : Type)
  | load (i : ι) (call : Call)
  | check (i : ι)
  | update (i : ι)
  | reset (i : ι)
  /-- The state file cannot be written and stays as it is.  The call ends with an error. -/
  | fail (i : ι)
  /-- The process ends, in the middle of a call or not. -/
  | close (i : ι)

/-- The generation a call goes on with: `create` and `flush` have just saved the free list. -/
def Phase.begin : Phase → Call → Option Nat
  | .absent, .create => some 1
  | .closed, .open generation => some generation
  | .mounted generation, .flush => some ((generation + 1) % 2 ^ 64)
  | .mounted generation, .reset => some generation
  | _, _ => none

namespace Device

variable {ι : Type}

/-- The generation stored for a container. -/
def baseline (c : Containers ι) (d : Device ι) (i : ι) : Option Nat :=
  d.stateFile.baseline (c.containerId i)

/-- No container is mounted, and none that has yet to be created has a baseline. -/
def Initial (c : Containers ι) (d : Device ι) : Prop :=
  ∀ i, d.phase i = .closed ∨ d.phase i = .absent ∧ d.baseline c i = none

/-- A baseline neither decreases nor disappears. -/
def Survives (c : Containers ι) (d d' : Device ι) (i : ι) : Prop :=
  ∀ stored, d.baseline c i = some stored → ∃ stored', d'.baseline c i = some stored' ∧ stored ≤ stored'

/-! ## The invariant -/

/-- What a process knows of the baseline of its own container. -/
def Knows (stored : Option Nat) (containerId : Bytes 16) : Phase → Prop
  | .absent => stored = none
  | .closed => True
  | .mounted gen => ∀ v, stored = some v → v ≤ gen
  -- The generation read from the file has yet to be checked against the copy.
  | .loaded (.open _) _ copy => copy.baseline containerId = stored
  | .loaded _ gen _ => ∀ v, stored = some v → v ≤ gen

def Inv (c : Containers ι) (d : Device ι) : Prop :=
  ∀ j, Knows (d.baseline c j) (c.containerId j) (d.phase j)

variable {c : Containers ι} {d d' : Device ι} {i j : ι}

theorem Initial.inv (h : Initial c d) : Inv c d := by
  intro j
  rcases h j with hp | ⟨hp, hnone⟩
  · rw [hp]; exact trivial
  · rw [hp]; exact hnone

theorem Survives.refl (c : Containers ι) (d : Device ι) (j : ι) : Survives c d d j :=
  fun v hv => ⟨v, hv, Nat.le_refl v⟩

theorem Survives.trans {d'' : Device ι} (h : Survives c d d' j) (h' : Survives c d' d'' j) :
    Survives c d d'' j := by
  intro v hv
  obtain ⟨v', hv', hle⟩ := h v hv
  obtain ⟨v'', hv'', hle'⟩ := h' v' hv'
  exact ⟨v'', hv'', Nat.le_trans hle hle'⟩

theorem Survives.of_eq (h : d'.baseline c j = d.baseline c j) : Survives c d d' j :=
  fun v hv => ⟨v, h.trans hv, Nat.le_refl v⟩

/-- Writing an undisturbed copy changes the entry of `i` only. -/
theorem baseline_updated_other (hne : j ≠ i) (gen : Nat) :
    (d.stateFile.updated (c.containerId i) gen).baseline (c.containerId j) = d.baseline c j := by
  rw [RollbackState.baseline_updated, if_neg fun he => hne (c.distinct he)]
  rfl

theorem baseline_removed_other (hne : j ≠ i) :
    (d.stateFile.removed (c.containerId i)).baseline (c.containerId j) = d.baseline c j := by
  rw [RollbackState.baseline_removed, if_neg fun he => hne (c.distinct he)]
  rfl

theorem baseline_updated_self (d : Device ι) (gen : Nat) :
    (d.stateFile.updated (c.containerId i) gen).baseline (c.containerId i) = some gen := by
  rw [RollbackState.baseline_updated, if_pos rfl]

/-! ## Steps -/

variable [DecidableEq ι]

def setPhase (d : Device ι) (i : ι) (p : Phase) : Device ι :=
  { d with phase := Function.update d.phase i p }

def step (c : Containers ι) (d : Device ι) : Event ι → Option (Device ι)
  | .load i call =>
    (d.phase i).begin call |>.map fun gen => d.setPhase i (.loaded call gen d.stateFile)
  | .check i =>
    match d.phase i with
    | .loaded (.open _) gen copy =>
      match copy.check (c.containerId i) gen with
      | .ok () => some (d.setPhase i (.mounted gen))
      | .error _ => some (d.setPhase i .closed)
    | _ => none
  | .update i =>
    match d.phase i with
    | .loaded .create gen copy | .loaded .flush gen copy =>
      some { d.setPhase i (.mounted gen) with stateFile := copy.updated (c.containerId i) gen }
    | _ => none
  | .reset i =>
    match d.phase i with
    | .loaded .reset gen copy =>
      some { d.setPhase i (.mounted gen) with stateFile := copy.removed (c.containerId i) }
    | _ => none
  | .fail i =>
    match d.phase i with
    | .loaded .create _ _ => some (d.setPhase i .closed)
    -- The allocation block of a flush has been written: its generation stays raised.
    | .loaded .flush gen _ | .loaded .reset gen _ => some (d.setPhase i (.mounted gen))
    | _ => none
  | .close i =>
    match d.phase i with
    | .absent => none
    | _ => some (d.setPhase i .closed)

def run (c : Containers ι) (d : Device ι) (events : List (Event ι)) : Option (Device ι) :=
  events.foldlM (step c) d

/-- A process writes back a copy only while the file still has the content it loaded, and
    no flush makes the generation wrap. -/
def Undisturbed (d : Device ι) : Event ι → Prop
  | .load i .flush => ∀ gen, d.phase i = .mounted gen → gen + 1 < 2 ^ 64
  | .update i | .reset i => ∀ call gen copy, d.phase i = .loaded call gen copy → copy = d.stateFile
  | _ => True

/-- All steps of a run are undisturbed. -/
def RunUndisturbed (c : Containers ι) : Device ι → List (Event ι) → Prop
  | _, [] => True
  | d, e :: es => Undisturbed d e ∧ ∀ d', step c d e = some d' → RunUndisturbed c d' es

@[simp] theorem phase_setPhase (d : Device ι) (i j : ι) (p : Phase) :
    (d.setPhase i p).phase j = if j = i then p else d.phase j := Function.update_apply _ _ _ _

@[simp] theorem baseline_setPhase (c : Containers ι) (d : Device ι) (i j : ι) (p : Phase) :
    (d.setPhase i p).baseline c j = d.baseline c j := rfl

/-- What a step of the process of `i` can do. -/
inductive Moves (c : Containers ι) (d : Device ι) (i : ι) : Device ι → Event ι → Prop
  | load {call : Call} {gen : Nat} (h : (d.phase i).begin call = some gen) :
      Moves c d i (d.setPhase i (.loaded call gen d.stateFile)) (.load i call)
  | accepted {g gen : Nat} {copy : RollbackState} (hp : d.phase i = .loaded (.open g) gen copy)
      (h : copy.check (c.containerId i) gen = .ok ()) :
      Moves c d i (d.setPhase i (.mounted gen)) (.check i)
  | refused {g gen : Nat} {copy : RollbackState} (hp : d.phase i = .loaded (.open g) gen copy) :
      Moves c d i (d.setPhase i .closed) (.check i)
  | update {call : Call} {gen : Nat} {copy : RollbackState} (hcall : call = .create ∨ call = .flush)
      (hp : d.phase i = .loaded call gen copy) :
      Moves c d i { d.setPhase i (.mounted gen) with
        stateFile := copy.updated (c.containerId i) gen } (.update i)
  | reset {gen : Nat} {copy : RollbackState} (hp : d.phase i = .loaded .reset gen copy) :
      Moves c d i { d.setPhase i (.mounted gen) with
        stateFile := copy.removed (c.containerId i) } (.reset i)
  | failed {call : Call} {gen : Nat} {copy : RollbackState} (hcall : call = .flush ∨ call = .reset)
      (hp : d.phase i = .loaded call gen copy) :
      Moves c d i (d.setPhase i (.mounted gen)) (.fail i)
  | uncreated {gen : Nat} {copy : RollbackState} (hp : d.phase i = .loaded .create gen copy) :
      Moves c d i (d.setPhase i .closed) (.fail i)
  | close (hp : d.phase i ≠ .absent) : Moves c d i (d.setPhase i .closed) (.close i)

theorem step_moves {e : Event ι} (h : step c d e = some d') : ∃ i, Moves c d i d' e := by
  cases e with
  | load i call =>
    obtain ⟨gen, hgen, rfl⟩ := Option.map_eq_some_iff.mp h
    exact ⟨i, .load hgen⟩
  | check i =>
    refine ⟨i, ?_⟩
    unfold step at h
    cases hp : d.phase i with
    | loaded call gen copy =>
      cases call with
      | «open» g =>
        simp only [hp] at h
        cases hcheck : copy.check (c.containerId i) gen with
        | ok u => simp only [hcheck] at h; cases h; exact .accepted hp hcheck
        | error err => simp only [hcheck] at h; cases h; exact .refused hp
      | create | flush | reset => simp [hp] at h
    | absent | closed | mounted => simp [hp] at h
  | update i =>
    refine ⟨i, ?_⟩
    unfold step at h
    cases hp : d.phase i with
    | loaded call gen copy =>
      cases call with
      | create => simp only [hp] at h; cases h; exact .update (.inl rfl) hp
      | flush => simp only [hp] at h; cases h; exact .update (.inr rfl) hp
      | «open» | reset => simp [hp] at h
    | absent | closed | mounted => simp [hp] at h
  | reset i =>
    refine ⟨i, ?_⟩
    unfold step at h
    cases hp : d.phase i with
    | loaded call gen copy =>
      cases call with
      | reset => simp only [hp] at h; cases h; exact .reset hp
      | create | «open» | flush => simp [hp] at h
    | absent | closed | mounted => simp [hp] at h
  | fail i =>
    refine ⟨i, ?_⟩
    unfold step at h
    cases hp : d.phase i with
    | loaded call gen copy =>
      cases call with
      | create => simp only [hp] at h; cases h; exact .uncreated hp
      | flush => simp only [hp] at h; cases h; exact .failed (.inl rfl) hp
      | reset => simp only [hp] at h; cases h; exact .failed (.inr rfl) hp
      | «open» => simp [hp] at h
    | absent | closed | mounted => simp [hp] at h
  | close i =>
    refine ⟨i, ?_⟩
    unfold step at h
    cases hp : d.phase i with
    | absent => simp [hp] at h
    | closed | mounted | loaded => simp only [hp] at h; cases h; exact .close (by simp [hp])

/-- The process that begins a call keeps knowing its baseline. -/
theorem Knows.begin {stored : Option Nat} {containerId : Bytes 16} {p : Phase} {call : Call}
    {gen : Nat} {copy : RollbackState} (h : Knows stored containerId p)
    (hbegin : p.begin call = some gen) (hcopy : copy.baseline containerId = stored)
    (hwrap : call = .flush → ∀ g, p = .mounted g → g + 1 < 2 ^ 64) :
    Knows stored containerId (.loaded call gen copy) := by
  cases p with
  | absent =>
    cases call with
    | create => intro v hv; cases h.symm.trans hv
    | «open» | flush | reset => cases hbegin
  | closed =>
    cases call with
    | «open» => exact hcopy
    | create | flush | reset => cases hbegin
  | mounted g =>
    cases call with
    | flush =>
      intro v hv
      have hlt := hwrap rfl g rfl
      have hgen : (g + 1) % 2 ^ 64 = gen := Option.some.inj hbegin
      rw [Nat.mod_eq_of_lt hlt] at hgen
      have := h v hv
      omega
    | reset =>
      have hgen : g = gen := Option.some.inj hbegin
      rw [← hgen]
      exact h
    | create | «open» => cases hbegin
  | loaded => cases call <;> cases hbegin

/-- A step that leaves the state file alone. -/
theorem inv_setPhase {p : Phase} (h : Inv c d)
    (hp : Knows (d.baseline c i) (c.containerId i) p) : Inv c (d.setPhase i p) := by
  intro j
  rw [baseline_setPhase, phase_setPhase]
  by_cases hj : j = i
  · rw [if_pos hj, hj]; exact hp
  · rw [if_neg hj]; exact h j

/-- A step that writes the entry of `i` only. -/
theorem inv_write {p : Phase} {r : RollbackState} (h : Inv c d)
    (hother : ∀ j, j ≠ i → r.baseline (c.containerId j) = d.baseline c j)
    (hp : Knows (r.baseline (c.containerId i)) (c.containerId i) p) :
    Inv c { d.setPhase i p with stateFile := r } := by
  intro j
  change Knows (r.baseline (c.containerId j)) (c.containerId j) ((d.setPhase i p).phase j)
  rw [phase_setPhase]
  by_cases hj : j = i
  · rw [if_pos hj, hj]; exact hp
  · rw [if_neg hj, hother j hj]; exact h j

theorem inv_step {e : Event ι} (h : Inv c d) (hstep : step c d e = some d')
    (hcond : Undisturbed d e) : Inv c d' := by
  obtain ⟨i, hmoves⟩ := step_moves hstep
  have hi := h i
  cases hmoves with
  | @load call gen hbegin =>
    refine inv_setPhase h (hi.begin hbegin rfl ?_)
    rintro rfl
    exact hcond
  | @accepted g gen copy hp hcheck =>
    rw [hp] at hi
    refine inv_setPhase h fun v hv => ?_
    exact RollbackState.check_eq_ok.mp hcheck v (Eq.trans hi hv)
  | refused hp => exact inv_setPhase h trivial
  | @update call gen copy hcall hp =>
    rw [hcond call gen copy hp]
    refine inv_write h (fun j hj => baseline_updated_other hj gen) fun v hv => ?_
    rw [baseline_updated_self, Option.some.injEq] at hv
    exact Nat.le_of_eq hv.symm
  | @reset gen copy hp =>
    rw [hcond _ gen copy hp]
    refine inv_write h (fun j hj => baseline_removed_other hj) fun v hv => ?_
    rw [RollbackState.baseline_removed, if_pos rfl] at hv
    cases hv
  | @failed call gen copy hcall hp =>
    rw [hp] at hi
    refine inv_setPhase h ?_
    rcases hcall with rfl | rfl
    · exact hi
    · exact hi
  | uncreated hp => exact inv_setPhase h trivial
  | close hp => exact inv_setPhase h trivial

theorem survives_step {e : Event ι} (h : Inv c d) (hstep : step c d e = some d')
    (hcond : Undisturbed d e) (hreset : e ≠ .reset j) : Survives c d d' j := by
  obtain ⟨i, hmoves⟩ := step_moves hstep
  cases hmoves with
  | load | accepted | refused | failed | uncreated | close => exact .of_eq rfl
  | @update call gen copy hcall hp =>
    rw [hcond call gen copy hp]
    by_cases hj : j = i
    · subst hj
      have hknows := h j
      rw [hp] at hknows
      intro v hv
      refine ⟨gen, baseline_updated_self d gen, ?_⟩
      rcases hcall with rfl | rfl
      · exact hknows v hv
      · exact hknows v hv
    · exact .of_eq (baseline_updated_other hj gen)
  | @reset gen copy hp =>
    rw [hcond _ gen copy hp]
    exact .of_eq (baseline_removed_other fun hj => hreset (by rw [hj]))

/-! ## Runs -/

theorem run_cons {e : Event ι} {es : List (Event ι)} :
    run c d (e :: es) = some d' ↔ ∃ d₁, step c d e = some d₁ ∧ run c d₁ es = some d' := by
  unfold run
  rw [List.foldlM_cons]
  exact Option.bind_eq_some_iff

theorem inv_run {es : List (Event ι)} (h : Inv c d) (hrun : run c d es = some d')
    (hcond : RunUndisturbed c d es) : Inv c d' := by
  induction es generalizing d with
  | nil => cases hrun; exact h
  | cons e es ih =>
    obtain ⟨d₁, hstep, hrest⟩ := run_cons.mp hrun
    exact ih (inv_step h hstep hcond.1) hrest (hcond.2 d₁ hstep)

theorem survives_run {es : List (Event ι)} (h : Inv c d) (hrun : run c d es = some d')
    (hcond : RunUndisturbed c d es) (hreset : .reset j ∉ es) : Survives c d d' j := by
  induction es generalizing d with
  | nil => cases hrun; exact .refl _ _ _
  | cons e es ih =>
    obtain ⟨d₁, hstep, hrest⟩ := run_cons.mp hrun
    have hhead := List.ne_of_not_mem_cons hreset
    have htail := List.not_mem_of_not_mem_cons hreset
    exact (survives_step h hstep hcond.1 (Ne.symm hhead)).trans
      (ih (inv_step h hstep hcond.1) hrest (hcond.2 d₁ hstep) htail)

/-- In every run in which each process writes back a copy that is still the content of the
    file, the generation stored for a container neither decreases nor disappears from any
    point on, unless it is reset. -/
theorem baselines_survive (c : Containers ι) {d₀ d d' : Device ι} {es es' : List (Event ι)}
    (hinit : Initial c d₀) (hrun : run c d₀ es = some d) (hrun' : run c d es' = some d')
    (hcond : RunUndisturbed c d₀ es) (hcond' : RunUndisturbed c d es') (j : ι)
    (hreset : .reset j ∉ es') : Survives c d d' j :=
  survives_run (inv_run hinit.inv hrun hcond) hrun' hcond' hreset

/-! ## Two containers -/

/-- Two containers whose ids differ in every byte. -/
def pair : Containers Bool where
  containerId b := ⟨List.replicate 16 (if b then 1 else 0), by simp⟩
  distinct a b h := by
    have hbytes := congrArg List.Vector.toList h
    cases a <;> cases b <;> simp at hbytes ⊢

/-- Both have been unmounted with generation 1. -/
def unmounted : Device Bool where
  stateFile := ((⟨.empty⟩ : RollbackState).updated (pair.containerId false) 1).updated
    (pair.containerId true) 1
  phase _ := .closed

def mount (b : Bool) : List (Event Bool) := [.load b (.open 1), .check b]

/-- A flush of one container fails.  It is flushed again after the other one. -/
def turns : List (Event Bool) :=
  [.load false .flush, .fail false, .load true .flush, .update true, .load false .flush, .update false]

theorem RunUndisturbed.cons {d₁ : Device ι} {e : Event ι} {es : List (Event ι)} (he : Undisturbed d e)
    (hstep : step c d e = some d₁) (hrest : RunUndisturbed c d₁ es) : RunUndisturbed c d (e :: es) :=
  ⟨he, fun _ h => Option.some.inj (hstep.symm.trans h) ▸ hrest⟩

/-- Both are mounted and flushed in turn. -/
theorem baselines_survive_turns :
    ∃ d d', run pair unmounted (mount false ++ mount true) = some d ∧ run pair d turns = some d' ∧
      d.baseline pair true = some 1 ∧ d'.baseline pair true = some 2 ∧ Survives pair d d' true := by
  have hload : ∀ {d : Device Bool} {b : Bool} {gen : Nat}, d.phase b = .mounted gen →
      gen + 1 < 2 ^ 64 → Undisturbed d (.load b .flush) := by
    intro d b gen hp hlt g hg
    cases hp.symm.trans hg
    exact hlt
  have hupdate : ∀ {d : Device Bool} {b : Bool} {gen : Nat},
      d.phase b = .loaded .flush gen d.stateFile → Undisturbed d (.update b) := by
    intro d b gen hp call g copy hg
    cases hp.symm.trans hg
    rfl
  refine ⟨_, _, rfl, rfl, by decide +kernel, by decide +kernel, ?_⟩
  refine baselines_survive pair (fun i => .inl rfl)
    (show run pair unmounted (mount false ++ mount true) = some _ from rfl)
    (show run pair _ turns = some _ from rfl) ?_ ?_ true (by simp [turns])
  · exact .cons trivial rfl (.cons trivial rfl (.cons trivial rfl (.cons trivial rfl trivial)))
  · refine .cons (hload rfl (by decide)) rfl (.cons trivial rfl ?_)
    refine .cons (hload rfl (by decide)) rfl (.cons (hupdate rfl) rfl ?_)
    exact .cons (hload rfl (by decide)) rfl (.cons (hupdate rfl) rfl trivial)

/-- Both are mounted, both load the file, and then both write their copy. -/
def race : List (Event Bool) :=
  [.load false .flush, .load true .flush, .update false, .update true]

/-- The baseline of the first container falls back to what it was. -/
theorem lost_update : ¬ ∀ (ι : Type) [DecidableEq ι] (c : Containers ι) (d₀ d d' : Device ι)
    (es es' : List (Event ι)) (j : ι), Initial c d₀ → run c d₀ es = some d →
    run c d es' = some d' → .reset j ∉ es' → Survives c d d' j := by
  intro h
  have hrace := h Bool pair unmounted _ _ (mount false ++ mount true ++ race.take 3) (race.drop 3)
    false (fun i => .inl rfl) rfl rfl (by simp [race])
  obtain ⟨stored, hstored, hle⟩ := hrace 2 (by decide +kernel)
  cases hstored.symm.trans (show _ = some 1 by decide +kernel)
  omega

end Device

end Venom.Rollback
