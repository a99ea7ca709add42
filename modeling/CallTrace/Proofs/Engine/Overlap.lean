import CallTrace.Proofs.Engine.Sessions
import Mathlib.Logic.Function.Basic

/-!
Reloads that overlap. A reload reads the source and the settings, loads the files as they are then,
and puts the analysis in, each in one step; between its steps the files may change and other reloads
go on. Whoever swaps last decides which analysis stays: that is the one of the latest load where the
swaps come in the order of the loads.
-/

namespace CallTrace

inductive Stage where
  | entered (source : Source) (settings : Settings)
  | loaded (number : Nat) (analysis : Analysis)

inductive Action where
  | change (files : Files)
  | enter (reload : Nat)
  | load (reload : Nat)
  | swap (reload : Nat)

/-- An engine that reloads share. Loads that succeed are numbered as they come, from the one that
made the engine; what each of them has seen is kept, and which of them is in use. -/
structure Shared where
  files : Files
  engine : Engine
  stages : Nat → Option Stage
  seen : List Files
  current : Nat

namespace Shared

def start (files : Files) (engine : Engine) : Shared where
  files
  engine
  stages _ := none
  seen := [files]
  current := 0

def setStage (s : Shared) (reload : Nat) (stage : Option Stage) : Shared :=
  { s with stages := Function.update s.stages reload stage }

@[simp] theorem setStage_same (s : Shared) (reload : Nat) (stage : Option Stage) :
    (s.setStage reload stage).stages reload = stage :=
  Function.update_self ..

theorem setStage_other (s : Shared) {reload other : Nat} (h : other ≠ reload)
    (stage : Option Stage) : (s.setStage reload stage).stages other = s.stages other :=
  Function.update_of_ne h ..

theorem forall_setStage {s : Shared} {reload : Nat} {stage : Option Stage} {p : Stage → Prop}
    (hstages : ∀ other st, s.stages other = some st → p st) (hstage : ∀ st ∈ stage, p st) :
    ∀ other st, (s.setStage reload stage).stages other = some st → p st := by
  intro other st hst
  by_cases hsame : other = reload
  · subst hsame
    exact hstage st ((setStage_same s other stage).symm.trans hst)
  · exact hstages other st ((setStage_other s hsame stage).symm.trans hst)

/-- One step. A load that fails, or finds nothing to load, is the end of its reload. -/
inductive Step (s : Shared) : Action → Shared → Prop where
  | change (files : Files) : Step s (.change files) { s with files }
  | enter {reload : Nat} (hstage : s.stages reload = none) :
      Step s (.enter reload)
        (s.setStage reload (some (.entered s.engine.source s.engine.settings)))
  | load {reload : Nat} {source : Source} {settings : Settings} {analysis : Analysis}
      (hstage : s.stages reload = some (.entered source settings))
      (hload : source.load s.files settings = .ok (some analysis)) :
      Step s (.load reload)
        { s.setStage reload (some (.loaded s.seen.length analysis)) with
          seen := s.seen ++ [s.files] }
  | giveUp {reload : Nat} {source : Source} {settings : Settings}
      (hstage : s.stages reload = some (.entered source settings))
      (hload : ∀ analysis, source.load s.files settings ≠ .ok (some analysis)) :
      Step s (.load reload) (s.setStage reload none)
  | swap {reload number : Nat} {analysis : Analysis}
      (hstage : s.stages reload = some (.loaded number analysis)) :
      Step s (.swap reload)
        { s.setStage reload none with
          engine := s.engine.install (some analysis)
          current := number }

inductive Run (allowed : Shared → Action → Prop) : Shared → List Action → Shared → Prop where
  | nil (s : Shared) : Run allowed s [] s
  | cons {s next last : Shared} {action : Action} {rest : List Action}
      (hallowed : allowed s action) (hstep : Step s action next)
      (hrest : Run allowed next rest last) : Run allowed s (action :: rest) last

namespace Run

variable {allowed : Shared → Action → Prop} {motive : Shared → Prop}
  {s last : Shared} {actions : List Action}

theorem preserves
    (hstep : ∀ {s action next}, allowed s action → motive s → Step s action next → motive next)
    (hrun : Run allowed s actions last) (hs : motive s) : motive last := by
  induction hrun with
  | nil => exact hs
  | cons hallowed hnext _ ih => exact ih (hstep hallowed hs hnext)

theorem imp {others : Shared → Action → Prop}
    (hstep : ∀ {s action next}, allowed s action → motive s → Step s action next → motive next)
    (hallows : ∀ {s action}, allowed s action → motive s → others s action)
    (hrun : Run allowed s actions last) (hs : motive s) : Run others s actions last := by
  induction hrun with
  | nil => exact .nil _
  | cons hallowed hnext _ ih =>
      exact .cons (hallows hallowed hs) hnext (ih (hstep hallowed hs hnext))

end Run

def Free (_ : Shared) (_ : Action) : Prop :=
  True

theorem Run.free {allowed : Shared → Action → Prop} {s last : Shared} {actions : List Action}
    (hrun : Run allowed s actions last) : Run Free s actions last :=
  hrun.imp (motive := fun _ => True) (fun _ _ _ => trivial) (fun _ _ => trivial) trivial

/-- The analysis in use is not replaced by that of an earlier load. -/
def InOrder (s : Shared) (action : Action) : Prop :=
  ∀ reload number analysis, action = .swap reload →
    s.stages reload = some (.loaded number analysis) → s.current ≤ number

/-- Nothing is loaded as long as a reload that has loaded has yet to swap. -/
def Apart (s : Shared) (action : Action) : Prop :=
  ∀ reload, action = .load reload →
    ∀ other number analysis, s.stages other ≠ some (.loaded number analysis)

def Settled (s : Shared) : Prop :=
  ∀ reload, s.stages reload = none

end Shared

def Engine.Gave (engine : Engine) (seen : List Files) (number : Nat) (analysis : Analysis) : Prop :=
  ∃ files, seen[number]? = some files ∧
    engine.source.load files engine.settings = .ok (some analysis)

theorem Engine.Gave.lt {engine : Engine} {seen : List Files} {number : Nat} {analysis : Analysis}
    (h : engine.Gave seen number analysis) : number < seen.length := by
  obtain ⟨files, hfiles, -⟩ := h
  exact (List.getElem?_eq_some_iff.mp hfiles).1

theorem Engine.Gave.more {engine : Engine} {seen : List Files} {number : Nat} {analysis : Analysis}
    (h : engine.Gave seen number analysis) (files : Files) :
    engine.Gave (seen ++ [files]) number analysis := by
  have hlt := h.lt
  obtain ⟨found, hfound, hload⟩ := h
  exact ⟨found, by rw [List.getElem?_append_left hlt, hfound], hload⟩

def Stage.Sound (engine : Engine) (seen : List Files) : Stage → Prop
  | .entered source settings => source = engine.source ∧ settings = engine.settings
  | .loaded number analysis => engine.Gave seen number analysis

theorem Stage.Sound.more {engine : Engine} {seen : List Files} {stage : Stage}
    (h : stage.Sound engine seen) (files : Files) : stage.Sound engine (seen ++ [files]) := by
  cases stage with
  | entered source settings => exact h
  | loaded number analysis => exact Engine.Gave.more h files

def Stage.Newest (seen : List Files) : Stage → Prop
  | .entered _ _ => True
  | .loaded number _ => seen.length = number + 1

namespace Shared

/-- Source and settings are those of the engine at the start, and every analysis that is in use or
about to be was given by a load. -/
structure Sound (engine : Engine) (s : Shared) : Prop where
  source : s.engine.source = engine.source
  settings : s.engine.settings = engine.settings
  stages : ∀ reload stage, s.stages reload = some stage → stage.Sound engine s.seen
  current : engine.Gave s.seen s.current s.engine.analysis

theorem sound_start {files : Files} {engine : Engine} (h : engine.LoadedFrom files) :
    Sound engine (start files engine) where
  source := rfl
  settings := rfl
  stages := nofun
  current := ⟨files, rfl, h.load_eq⟩

theorem Sound.step {engine : Engine} {s next : Shared} {action : Action} (hs : Sound engine s)
    (hstep : Step s action next) : Sound engine next := by
  cases hstep with
  | change files => exact { hs with }
  | enter hstage =>
      refine { hs with stages := forall_setStage hs.stages ?_ }
      rintro st ⟨⟩
      exact ⟨hs.source, hs.settings⟩
  | load hstage hload =>
      obtain ⟨rfl, rfl⟩ := hs.stages _ _ hstage
      have hmore := fun other st hst => (hs.stages other st hst).more s.files
      refine ⟨hs.source, hs.settings, forall_setStage hmore ?_, hs.current.more s.files⟩
      rintro st ⟨⟩
      exact ⟨s.files, List.getElem?_concat_length, hload⟩
  | giveUp hstage hload => exact { hs with stages := forall_setStage hs.stages nofun }
  | swap hstage =>
      exact ⟨hs.source, hs.settings, forall_setStage hs.stages nofun, hs.stages _ _ hstage⟩

def Pending (s : Shared) : Prop :=
  ∀ number, s.current < number → number < s.seen.length →
    ∃ reload analysis, s.stages reload = some (.loaded number analysis)

theorem pending_start (files : Files) (engine : Engine) : (start files engine).Pending := by
  intro number hcurrent hlength
  have hone : number < 1 := hlength
  omega

/-- What one reload does leaves the loads of the others pending. -/
theorem setStage_loaded {s : Shared} {reload other number : Nat} {analysis : Analysis}
    (hother : s.stages other = some (.loaded number analysis))
    (hreload : s.stages reload ≠ some (.loaded number analysis)) (stage : Option Stage) :
    (s.setStage reload stage).stages other = some (.loaded number analysis) := by
  rw [setStage_other, hother]
  rintro rfl
  exact hreload hother

theorem Pending.setStage {s : Shared} (hs : s.Pending) {reload : Nat}
    (hreload : ∀ number analysis, s.stages reload ≠ some (.loaded number analysis))
    (stage : Option Stage) : (s.setStage reload stage).Pending := by
  intro number hcurrent hlength
  obtain ⟨other, analysis, hother⟩ := hs number hcurrent hlength
  exact ⟨other, analysis, setStage_loaded hother (hreload number analysis) stage⟩

theorem Pending.step {s next : Shared} {action : Action} (hs : s.Pending)
    (horder : InOrder s action) (hstep : Step s action next) : next.Pending := by
  cases hstep with
  | change files => exact hs
  | enter hstage => exact hs.setStage (by simp [hstage]) _
  | load hstage hload =>
      intro number hcurrent hlength
      rw [List.length_append, List.length_singleton] at hlength
      rcases Nat.lt_succ_iff_lt_or_eq.mp hlength with hbefore | rfl
      · exact hs.setStage (by simp [hstage]) _ number hcurrent hbefore
      · exact ⟨_, _, setStage_same ..⟩
  | giveUp hstage hload => exact hs.setStage (by simp [hstage]) _
  | swap hstage =>
      intro number hcurrent hlength
      have hbefore := horder _ _ _ rfl hstage
      obtain ⟨other, analysis, hother⟩ := hs number (hbefore.trans_lt hcurrent) hlength
      refine ⟨other, analysis, setStage_loaded hother ?_ _⟩
      rw [hstage]
      rintro ⟨⟩
      exact lt_irrefl _ hcurrent

theorem Pending.current_eq {engine : Engine} {s : Shared} (hs : s.Pending)
    (hsound : Sound engine s) (hsettled : s.Settled) : s.seen.length = s.current + 1 := by
  have hlt := hsound.current.lt
  by_contra hne
  obtain ⟨reload, analysis, hstage⟩ := hs (s.current + 1) (by omega) (by omega)
  rw [hsettled reload] at hstage
  cases hstage

def Newest (s : Shared) : Prop :=
  ∀ reload stage, s.stages reload = some stage → stage.Newest s.seen

theorem Newest.step {s next : Shared} {action : Action} (hs : s.Newest) (hapart : Apart s action)
    (hstep : Step s action next) : next.Newest := by
  cases hstep with
  | change files => exact hs
  | enter hstage =>
      refine forall_setStage hs ?_
      rintro st ⟨⟩
      trivial
  | load hstage hload =>
      refine forall_setStage (fun other st hst => ?_) ?_
      · cases st with
        | entered => trivial
        | loaded number analysis => exact absurd hst (hapart _ rfl other number analysis)
      · rintro st ⟨⟩
        exact List.length_append
  | giveUp hstage hload => exact forall_setStage hs nofun
  | swap hstage => exact forall_setStage hs nofun

theorem Newest.inOrder {engine : Engine} {s : Shared} (hs : s.Newest) (hsound : Sound engine s)
    (action : Action) : InOrder s action := by
  intro reload number analysis _ hstage
  have hlength : s.seen.length = number + 1 := hs reload _ hstage
  have hlt := hsound.current.lt
  omega

variable {files : Files} {engine : Engine} {actions : List Action} {s : Shared}

theorem sound_run (hstart : engine.LoadedFrom files) {allowed : Shared → Action → Prop}
    (hrun : Run allowed (start files engine) actions s) : Sound engine s :=
  hrun.preserves (fun _ hsound hstep => hsound.step hstep) (sound_start hstart)

theorem pending_run (hrun : Run InOrder (start files engine) actions s) : s.Pending :=
  hrun.preserves (fun horder hpending hstep => hpending.step horder hstep)
    (pending_start files engine)

theorem inOrder_of_apart (hstart : engine.LoadedFrom files)
    (hrun : Run Apart (start files engine) actions s) :
    Run InOrder (start files engine) actions s := by
  refine hrun.imp (motive := fun s => Sound engine s ∧ s.Newest) ?_ ?_
    ⟨sound_start hstart, nofun⟩
  · rintro s action next hapart ⟨hsound, hnewest⟩ hstep
    exact ⟨hsound.step hstep, hnewest.step hapart hstep⟩
  · rintro s action - ⟨hsound, hnewest⟩
    exact hnewest.inOrder hsound action

/-- A reload whose steps nothing interrupts puts in what the files give. -/
theorem exists_run_alone {reload : Nat} (hidle : s.stages reload = none) {analysis : Analysis}
    (hload : s.engine.source.load s.files s.engine.settings = .ok (some analysis)) :
    ∃ last, Run Free s [.enter reload, .load reload, .swap reload] last ∧
      s.engine.reload s.files = .ok last.engine ∧ last.stages = s.stages := by
  refine ⟨_, .cons trivial (.enter hidle) <| .cons trivial (.load (setStage_same ..) hload) <|
    .cons trivial (.swap (setStage_same ..)) <| .nil _,
    Engine.reload_eq_ok.mpr ⟨_, hload, rfl⟩, ?_⟩
  simp only [setStage, Function.update_idem]
  rw [← hidle, Function.update_eq_self]

/-- Reloads that overlap. Source and settings stay, and the analysis in use is always a whole one,
given by the load that was swapped in last for the files it has seen. Where no swap replaces an
analysis by that of an earlier load, the latest load is in use when all reloads have ended; and no
swap does so where nothing is loaded between a load and its swap. From any state on, a reload that
nothing interrupts puts in what the files give then. -/
theorem overlapping_reloads (hstart : engine.LoadedFrom files)
    (hrun : Run Free (start files engine) actions s) :
    s.engine.source = engine.source ∧ s.engine.settings = engine.settings ∧
    engine.Gave s.seen s.current s.engine.analysis ∧
    (Run InOrder (start files engine) actions s → s.Settled →
      ∃ latest, s.seen.getLast? = some latest ∧
        engine.source.load latest engine.settings = .ok (some s.engine.analysis)) ∧
    (Run Apart (start files engine) actions s → Run InOrder (start files engine) actions s) ∧
    ∀ reload analysis, s.stages reload = none →
      engine.source.load s.files engine.settings = .ok (some analysis) →
      ∃ last, Run Free s [.enter reload, .load reload, .swap reload] last ∧
        s.engine.reload s.files = .ok last.engine ∧ last.stages = s.stages := by
  have hsound := sound_run hstart hrun
  refine ⟨hsound.source, hsound.settings, hsound.current, ?_, inOrder_of_apart hstart, ?_⟩
  · intro hinOrder hsettled
    have hlength := (pending_run hinOrder).current_eq hsound hsettled
    obtain ⟨latest, hlatest, hload⟩ := hsound.current
    refine ⟨latest, ?_, hload⟩
    rw [List.getLast?_eq_getElem?, hlength, Nat.add_sub_cancel, hlatest]
  · intro reload analysis hidle hload
    rw [← hsound.source, ← hsound.settings] at hload
    exact exists_run_alone hidle hload

/-- Two reloads enter at once, but the second loads only after the first has swapped. -/
def takingTurns (second : Files) : List Action :=
  [.enter 0, .enter 1, .load 0, .swap 0, .change second, .load 1, .swap 1]

theorem exists_run_takingTurns {first second : Files} {old new : Analysis}
    (hold : engine.source.load first engine.settings = .ok (some old))
    (hnew : engine.source.load second engine.settings = .ok (some new)) :
    ∃ s, Run Apart (start first engine) (takingTurns second) s ∧ s.Settled ∧
      s.seen = [first, first, second] := by
  refine ⟨_, .cons nofun (.enter rfl) <| .cons nofun (.enter rfl) <|
    .cons ?_ (.load rfl hold) <| .cons nofun (.swap rfl) <| .cons nofun (.change second) <|
    .cons ?_ (.load rfl hnew) <| .cons nofun (.swap rfl) <| .nil _, ?_, rfl⟩
  · rintro _ - (_ | _ | _) <;> nofun
  · rintro _ - (_ | _ | _) <;> nofun
  · rintro (_ | _ | _) <;> rfl

/-- A reload that has loaded waits, while the files change and another one loads and swaps. -/
def overtaking (second : Files) : List Action :=
  [.enter 0, .load 0, .change second, .enter 1, .load 1, .swap 1, .swap 0]

theorem exists_run_overtaking {first second : Files} {old new : Analysis}
    (hold : engine.source.load first engine.settings = .ok (some old))
    (hnew : engine.source.load second engine.settings = .ok (some new)) :
    ∃ s, Run Free (start first engine) (overtaking second) s ∧ s.Settled ∧
      s.seen = [first, first, second] ∧ s.engine.analysis = old := by
  refine ⟨_, .cons trivial (.enter rfl) <| .cons trivial (.load rfl hold) <|
    .cons trivial (.change second) <| .cons trivial (.enter rfl) <|
    .cons trivial (.load rfl hnew) <| .cons trivial (.swap rfl) <| .cons trivial (.swap rfl) <|
    .nil _, ?_, rfl, rfl⟩
  rintro (_ | _ | _) <;> rfl

end Shared

def sharedJob : Shared :=
  .start (jobFiles "fetch") (jobEngine "fetch")

theorem overlapping_reloads_job :
    ∃ s, Shared.Run Shared.Free sharedJob (Shared.takingTurns (jobFiles "store")) s ∧
      s.Settled ∧ s.engine.analysis = (jobEngine "store").analysis := by
  obtain ⟨s, hapart, hsettled, hseen⟩ :=
    Shared.exists_run_takingTurns loadedFrom_fetch.load_eq load_store
  have hfree := hapart.free
  obtain ⟨-, -, -, hlatest, hinOrder, -⟩ := Shared.overlapping_reloads loadedFrom_fetch hfree
  obtain ⟨latest, hlast, hload⟩ := hlatest (hinOrder hapart) hsettled
  simp only [hseen, List.getLast?_cons_cons, List.getLast?_singleton, Option.some.injEq] at hlast
  subst hlast
  exact ⟨s, hfree, hsettled, Option.some.inj (Except.ok.inj (hload.symm.trans load_store))⟩

/-- Both loads succeed and both reloads end, but the engine is left with the older facts; those that
the latest load has seen are lost. -/
theorem reload_lost_to_older :
    ∃ s, Shared.Run Shared.Free sharedJob (Shared.overtaking (jobFiles "store")) s ∧
      s.Settled ∧ s.seen = [jobFiles "fetch", jobFiles "fetch", jobFiles "store"] ∧
      (jobEngine "fetch").source.load (jobFiles "store") (jobEngine "fetch").settings =
        .ok (some (jobEngine "store").analysis) ∧
      s.engine.analysis = (jobEngine "fetch").analysis ∧
      s.engine.analysis ≠ (jobEngine "store").analysis := by
  obtain ⟨s, hrun, hsettled, hseen, hanalysis⟩ :=
    Shared.exists_run_overtaking loadedFrom_fetch.load_eq load_store
  refine ⟨s, hrun, hsettled, hseen, load_store, hanalysis, ?_⟩
  rw [hanalysis]
  decide +kernel

end CallTrace
