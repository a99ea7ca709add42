import CallTrace.Engine.Report
import CallTrace.Proofs.Engine.Loading
import CallTrace.Proofs.Json.Reading

/-!
Sessions with one engine: files change, questions are asked, snapshots are saved, and the engine is
loaded again, one after the other. Through all of it the engine has what its source gave when it was
last loaded.
-/

namespace CallTrace

open Json

inductive Question where
  | settings
  | health
  | summary
  | entryPoints
  | cycles
  | relations
  | tree (signature : String) (depth : Option Nat)
  | trees (depth : Option Nat)
  | snapshot (depth : Option Nat)

namespace Engine

def answer (engine : Engine) : Question → Except EngineError Value
  | .settings => .ok engine.settings.toJson
  | .health => .ok engine.health
  | .summary => .ok engine.summaryReport
  | .entryPoints => .ok engine.entryPointsReport
  | .cycles => .ok engine.cyclesReport
  | .relations => .ok engine.relationsReport
  | .tree signature depth => engine.treeReport signature depth
  | .trees depth => engine.treesReport depth
  | .snapshot depth => engine.snapshotReport depth

@[simp] theorem source_install (engine : Engine) (loaded : Option Analysis) :
    (engine.install loaded).source = engine.source := by
  cases loaded <;> rfl

@[simp] theorem settings_install (engine : Engine) (loaded : Option Analysis) :
    (engine.install loaded).settings = engine.settings := by
  cases loaded <;> rfl

theorem install_install (engine : Engine) (first second : Option Analysis) :
    (engine.install first).install second = engine.install (second.or first) := by
  cases first <;> cases second <;> rfl

theorem reload_eq_ok {files : Files} {engine next : Engine} :
    engine.reload files = .ok next ↔
      ∃ loaded, engine.source.load files engine.settings = .ok loaded ∧
        engine.install loaded = next :=
  map_eq_ok

/-- An engine is up to date with files where loading it from them again changes nothing. -/
def UpToDate (engine : Engine) (files : Files) : Prop :=
  engine.reload files = .ok engine

theorem upToDate_of_reload {files : Files} {engine next : Engine}
    (h : engine.reload files = .ok next) : next.UpToDate files := by
  obtain ⟨loaded, hload, rfl⟩ := reload_eq_ok.mp h
  refine reload_eq_ok.mpr ⟨loaded, ?_, ?_⟩
  · rw [source_install, settings_install, hload]
  · rw [install_install, Option.or_self]

inductive LoadedFrom (files : Files) (engine : Engine) : Prop where
  | facts {path : String} {settings : Settings}
      (h : Engine.loadFacts files path settings = .ok engine)
  | snapshot {path : String} {settings : Settings}
      (h : Engine.loadSnapshot files path settings = .ok engine)

namespace LoadedFrom

variable {files : Files} {engine : Engine} (h : engine.LoadedFrom files)

include h

theorem load_eq : engine.source.load files engine.settings = .ok (some engine.analysis) := by
  cases h with
  | facts h =>
      obtain ⟨analysis, hanalysis, rfl⟩ := loadFacts_eq_ok.mp h
      exact map_eq_ok.mpr ⟨analysis, hanalysis, rfl⟩
  | snapshot h =>
      obtain ⟨analysis, hanalysis, rfl⟩ := loadSnapshot_eq_ok.mp h
      exact map_eq_ok.mpr ⟨analysis, hanalysis, rfl⟩

theorem upToDate : engine.UpToDate files :=
  reload_eq_ok.mpr ⟨_, h.load_eq, rfl⟩

theorem exists_analysis {others : Files} {loaded : Option Analysis}
    (hload : engine.source.load others engine.settings = .ok loaded) :
    ∃ analysis, loaded = some analysis := by
  cases h with
  | facts h =>
      obtain ⟨_, _, rfl⟩ := loadFacts_eq_ok.mp h
      obtain ⟨analysis, -, rfl⟩ := map_eq_ok.mp hload
      exact ⟨analysis, rfl⟩
  | snapshot h =>
      obtain ⟨_, _, rfl⟩ := loadSnapshot_eq_ok.mp h
      obtain ⟨analysis, -, rfl⟩ := map_eq_ok.mp hload
      exact ⟨analysis, rfl⟩

theorem load_error_iff {others : Files} :
    (∃ e, engine.source.load others engine.settings = .error e) ↔
      engine.source.Unloadable others := by
  cases h with
  | facts h =>
      obtain ⟨analysis, hanalysis, rfl⟩ := loadFacts_eq_ok.mp h
      rw [← Source.facts_unloadable_iff (analyseFacts_eq_ok.mp hanalysis).1]
      exact exists_congr fun e => map_eq_error
  | snapshot h =>
      obtain ⟨-, -, rfl⟩ := loadSnapshot_eq_ok.mp h
      rw [← Source.snapshot_unloadable_iff]
      exact exists_congr fun e => map_eq_error

end LoadedFrom

end Engine

inductive Event where
  /-- From now on the files are these. -/
  | change (files : Files)
  | ask (question : Question)
  | save (path : String) (depth : Option Nat)
  | reload

structure Session where
  files : Files
  engine : Engine

namespace Session

/-- A reload that fails leaves the engine that is there. -/
def step (session : Session) : Event → Session
  | .change files => { session with files }
  | .ask _ => session
  | .save path depth =>
      { session with files := (session.engine.saveSnapshot session.files path depth).2 }
  | .reload =>
      match session.engine.reload session.files with
      | .ok engine => { session with engine }
      | .error _ => session

def reply (session : Session) : Event → Except EngineError Value
  | .change _ => .ok .null
  | .ask question => session.engine.answer question
  | .save path depth =>
      (session.engine.saveSnapshot session.files path depth).1.map Snapshot.toJson
  | .reload => (session.engine.reload session.files).map Engine.health

def after (session : Session) (events : List Event) : Session :=
  events.foldl step session

def replies (session : Session) : List Event → List (Except EngineError Value)
  | [] => []
  | event :: rest => session.reply event :: (session.step event).replies rest

def loadedBy (session : Session) (loaded : Files) : Event → Files
  | .reload =>
      match session.engine.reload session.files with
      | .ok _ => session.files
      | .error _ => loaded
  | _ => loaded

def lastLoaded (session : Session) (loaded : Files) : List Event → Files
  | [] => loaded
  | event :: rest => (session.step event).lastLoaded (session.loadedBy loaded event) rest

theorem step_of_reloaded {session : Session} {engine : Engine}
    (h : session.engine.reload session.files = .ok engine) :
    session.step .reload = { session with engine } := by
  simp only [step, h]

theorem step_of_failed {session : Session} {e : EngineError}
    (h : session.engine.reload session.files = .error e) : session.step .reload = session := by
  simp only [step, h]

/-- All that an event can do to the engine is to put in another analysis. -/
theorem exists_install (session : Session) (event : Event) :
    ∃ loaded, (session.step event).engine = session.engine.install loaded := by
  cases event with
  | reload =>
      cases hreload : session.engine.reload session.files with
      | error e => exact ⟨none, by rw [step_of_failed hreload, Engine.install]⟩
      | ok engine =>
          obtain ⟨loaded, -, rfl⟩ := Engine.reload_eq_ok.mp hreload
          exact ⟨loaded, by rw [step_of_reloaded hreload]⟩
  | _ => exact ⟨none, rfl⟩

theorem upToDate_step {session : Session} {loaded : Files}
    (h : session.engine.UpToDate loaded) (event : Event) :
    (session.step event).engine.UpToDate (session.loadedBy loaded event) := by
  cases event with
  | reload =>
      cases hreload : session.engine.reload session.files with
      | error e =>
          simp only [step, loadedBy, hreload]
          exact h
      | ok engine =>
          simp only [step, loadedBy, hreload]
          exact Engine.upToDate_of_reload hreload
  | _ => exact h

theorem after_append (session : Session) (before later : List Event) :
    session.after (before ++ later) = (session.after before).after later :=
  List.foldl_append

theorem replies_append (session : Session) (before later : List Event) :
    session.replies (before ++ later) =
      session.replies before ++ (session.after before).replies later := by
  induction before generalizing session with
  | nil => rfl
  | cons event rest ih =>
      rw [List.cons_append, replies, replies, ih, List.cons_append]
      rfl

theorem exists_install_after (session : Session) (events : List Event) :
    ∃ loaded, (session.after events).engine = session.engine.install loaded := by
  induction events generalizing session with
  | nil => exact ⟨none, rfl⟩
  | cons event rest ih =>
      obtain ⟨first, hfirst⟩ := session.exists_install event
      obtain ⟨second, hsecond⟩ := ih (session.step event)
      rw [hfirst, Engine.install_install] at hsecond
      exact ⟨second.or first, hsecond⟩

theorem source_after (session : Session) (events : List Event) :
    (session.after events).engine.source = session.engine.source := by
  obtain ⟨loaded, hloaded⟩ := session.exists_install_after events
  rw [hloaded, Engine.source_install]

theorem settings_after (session : Session) (events : List Event) :
    (session.after events).engine.settings = session.engine.settings := by
  obtain ⟨loaded, hloaded⟩ := session.exists_install_after events
  rw [hloaded, Engine.settings_install]

theorem upToDate_after {session : Session} {loaded : Files}
    (h : session.engine.UpToDate loaded) (events : List Event) :
    (session.after events).engine.UpToDate (session.lastLoaded loaded events) := by
  induction events generalizing session loaded with
  | nil => exact h
  | cons event rest ih => exact ih (upToDate_step h event)

/-- A reload that fails could as well not have been asked for. -/
theorem after_failed {session : Session} {e : EngineError}
    (h : session.engine.reload session.files = .error e) (later : List Event) :
    session.after (.reload :: later) = session.after later ∧
      session.replies (.reload :: later) = .error e :: session.replies later := by
  constructor
  · rw [after, List.foldl_cons, step_of_failed h]
    rfl
  · rw [replies, reply, h, step_of_failed h]
    rfl

/-- The analysis that answers is the one the files gave at the last load that succeeded. -/
theorem engine_after {session : Session} (hstart : session.engine.LoadedFrom session.files)
    (events : List Event) :
    ∃ analysis,
      session.engine.source.load (session.lastLoaded session.files events)
        session.engine.settings = .ok (some analysis) ∧
      (session.after events).engine = { session.engine with analysis } := by
  obtain ⟨loaded, hload, hinstall⟩ :=
    Engine.reload_eq_ok.mp (upToDate_after hstart.upToDate events)
  rw [source_after, settings_after] at hload
  obtain ⟨analysis, rfl⟩ := hstart.exists_analysis hload
  refine ⟨analysis, hload, ?_⟩
  rw [← hinstall, Engine.install, source_after, settings_after]

/-- A prebuilt analysis stays, whatever happens. -/
theorem prebuilt_after (analysis : Analysis) (settings : Settings) (files : Files)
    (events : List Event) :
    (after ⟨files, .ofAnalysis analysis settings⟩ events).engine =
      .ofAnalysis analysis settings := by
  induction events generalizing files with
  | nil => rfl
  | cons event rest ih => cases event <;> exact ih _

/-- Loading again is all or nothing. In a session that starts with an engine made from a file,
source and settings stay, and every question is answered from the analysis that the source gives for
the files of the last load that succeeded. A reload fails exactly where the files have nothing the
source can be loaded from; it gives the error of that, and all that follows is as if it had not been
asked for. An engine made from a prebuilt analysis stays as it is, and its reloads succeed. -/
theorem reload_all_or_nothing {session : Session}
    (hstart : session.engine.LoadedFrom session.files) (events : List Event) :
    (∃ analysis,
      session.engine.source.load (session.lastLoaded session.files events)
        session.engine.settings = .ok (some analysis) ∧
      (session.after events).engine = { session.engine with analysis } ∧
      ∀ question, (session.after events).reply (.ask question) =
        Engine.answer { session.engine with analysis } question) ∧
    ((∃ e, (session.after events).reply .reload = .error e) ↔
      session.engine.source.Unloadable (session.after events).files) ∧
    (∀ e, session.engine.source.load (session.after events).files session.engine.settings =
        .error e → ∀ later,
      session.after (events ++ .reload :: later) = session.after (events ++ later) ∧
      session.replies (events ++ .reload :: later) =
        session.replies events ++ .error e :: (session.after events).replies later) ∧
    ∀ analysis settings files,
      (after ⟨files, .ofAnalysis analysis settings⟩ events).engine =
        .ofAnalysis analysis settings ∧
      (after ⟨files, .ofAnalysis analysis settings⟩ events).reply .reload =
        .ok (Engine.ofAnalysis analysis settings).health := by
  have herror : ∀ e, (session.after events).engine.reload (session.after events).files = .error e ↔
      session.engine.source.load (session.after events).files session.engine.settings =
        .error e := by
    intro e
    rw [Engine.reload, map_eq_error, source_after, settings_after]
  refine ⟨?_, ?_, ?_, ?_⟩
  · obtain ⟨analysis, hload, hengine⟩ := engine_after hstart events
    refine ⟨analysis, hload, hengine, fun question => ?_⟩
    rw [reply, hengine]
  · rw [← hstart.load_error_iff]
    exact exists_congr fun e => map_eq_error.trans (herror e)
  · intro e hfailed later
    obtain ⟨hafter, hreplies⟩ := after_failed ((herror e).mpr hfailed) later
    rw [after_append, after_append, replies_append, hafter, hreplies]
    exact ⟨rfl, rfl⟩
  · intro analysis settings files
    have hengine := prebuilt_after analysis settings files events
    refine ⟨hengine, ?_⟩
    rw [reply, hengine]
    rfl

end Session

def nightJob (step : String) : ClassDecl where
  name := "NightJob"
  methods := [{ name := "run", calls := [step ++ "()"] }]

def jobFiles (step : String) : Files :=
  .ofFacts "NightJob.java" [nightJob step]

def jobEngine (step : String) : Engine :=
  .ofFacts "NightJob.java" [nightJob step]

theorem analyseFacts_fetch :
    analyseFacts (jobFiles "fetch") {} "facts.json" = .ok (jobEngine "fetch").analysis :=
  analyseFacts_ofFacts (by decide +kernel)

theorem analyseFacts_store :
    analyseFacts (jobFiles "store") {} "facts.json" = .ok (jobEngine "store").analysis :=
  analyseFacts_ofFacts (by decide +kernel)

theorem loadedFrom_fetch : (jobEngine "fetch").LoadedFrom (jobFiles "fetch") :=
  .facts (Engine.loadFacts_eq_ok.mpr ⟨_, analyseFacts_fetch, rfl⟩)

theorem load_store :
    (jobEngine "fetch").source.load (jobFiles "store") (jobEngine "fetch").settings =
      .ok (some (jobEngine "store").analysis) :=
  map_eq_ok.mpr ⟨_, analyseFacts_store, rfl⟩

theorem reload_gone (step : String) :
    (jobEngine step).reload {} = .error (.openFacts "facts.json") :=
  rfl

def lostFile (second : Files) : List Event :=
  [.change {}, .reload, .ask .cycles, .change second, .reload, .change {}]

theorem after_lostFile {first second : Files} {engine next : Engine} {e : EngineError}
    (hgone : engine.reload {} = .error e) (hnext : engine.reload second = .ok next) :
    (Session.after ⟨first, engine⟩ (lostFile second)).files = {} ∧
      Session.lastLoaded ⟨first, engine⟩ first (lostFile second) = second := by
  simp only [lostFile, Session.after, List.foldl_cons, List.foldl_nil, Session.lastLoaded,
    Session.loadedBy, Session.step, hgone, hnext, and_self]

def jobSession : Session :=
  ⟨jobFiles "fetch", jobEngine "fetch"⟩

theorem reload_all_or_nothing_job :
    (jobSession.after (lostFile (jobFiles "store"))).engine = jobEngine "store" ∧
    (∃ e, (jobSession.after (lostFile (jobFiles "store"))).reply .reload = .error e) ∧
    ∀ later, jobSession.after (lostFile (jobFiles "store") ++ .reload :: later) =
      jobSession.after (lostFile (jobFiles "store") ++ later) := by
  have hstart : jobSession.engine.LoadedFrom jobSession.files := loadedFrom_fetch
  obtain ⟨hfiles, hlast⟩ := after_lostFile (reload_gone "fetch")
    (Engine.reload_eq_ok.mpr ⟨_, load_store, rfl⟩)
  have hgone : jobSession.engine.source.load
      (jobSession.after (lostFile (jobFiles "store"))).files jobSession.engine.settings =
        .error (.openFacts "facts.json") := by
    rw [jobSession, hfiles]
    rfl
  obtain ⟨⟨analysis, hload, hengine, -⟩, hfails, hlater, -⟩ :=
    Session.reload_all_or_nothing hstart (lostFile (jobFiles "store"))
  refine ⟨?_, hfails.mpr (hstart.load_error_iff.mp ⟨_, hgone⟩),
    fun later => (hlater _ hgone later).1⟩
  rw [jobSession, hlast] at hload
  have hanalysis := Option.some.inj (Except.ok.inj (load_store.symm.trans hload))
  rw [hengine, ← hanalysis]
  rfl

end CallTrace
