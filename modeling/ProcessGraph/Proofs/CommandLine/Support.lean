import Mathlib.Data.List.Permutation
import ProcessGraph.CommandLine.Run
import ProcessGraph.Proofs.Catalog.Loading
import ProcessGraph.Proofs.Catalog.ProcessIds
import ProcessGraph.Proofs.Graph.FailedCalls
import ProcessGraph.Proofs.Graph.Runs

/-!
# Which processes there are

A process is looked up in three places: by a builder that calls it, by a catalog that is asked for
it, and by the command that tells which processes are supported. All of them split an id with a
namespace in the same way (`Catalog.LooksUp`).

Main statement: these lookups agree (`lookups_agree`). The command makes a builder, so that it has
nothing to tell about an empty catalog, which no builder can be made for.
-/

set_option autoImplicit false

namespace ProcessGraph

/-! ## Calls without arguments -/

namespace Build

variable {ws : Workspace} {b : BuilderRef} {id : String}

/-- A call without arguments declares nothing, so that it succeeds if there is such a process. -/
theorem invoke_of_has (h : (ws.catalogOf b).has (splitProcessId id).1 (splitProcessId id).2) :
    ∃ n now, (invoke b id .null).run ws = (.ok n, now) := by
  obtain ⟨spec, found⟩ := Option.isSome_iff_exists.1 h
  have found : (ws.catalogOf b).get? (callKey id none).1 (callKey id none).2 = some spec := found
  exact invoke_of_declareAll found rfl rfl

theorem invoke_of_not_has (h : ¬ (ws.catalogOf b).has (splitProcessId id).1 (splitProcessId id).2) :
    (invoke b id .null).run ws =
      (.error (.processNotFound (splitProcessId id).1 (splitProcessId id).2), ws) := by
  have missing : (ws.catalogOf b).get? (callKey id none).1 (callKey id none).2 = none :=
    Option.not_isSome_iff_eq_none.1 h
  exact invoke_of_missing missing

/-- A namespace may be given behind the id or by itself. -/
theorem invoke_qualified (plain : '@' ∉ id.toList) (b : BuilderRef) (space : String)
    (arguments description : Value) :
    invoke b (id ++ "@" ++ space) arguments description =
      invoke b id arguments description (some space) := by
  rw [invoke_eq, invoke_eq]
  rw [show callKey (id ++ "@" ++ space) none = callKey id (some space) from
    splitProcessId_append plain space]

end Build

/-! ## Catalogs and builders -/

/-- What looking up an id comes to. -/
structure Catalog.LooksUp (c : Catalog) (id : String) : Prop where
  /-- The id is split at the first `@`, and its parts make up the id. -/
  parts : '@' ∉ (splitProcessId id).1.toList ∧
    Failure.qualified (splitProcessId id).1 (splitProcessId id).2 = id
  /-- A builder for the catalog calls what the catalog has. -/
  found {ws : Workspace} {b : BuilderRef} (same : ws.catalogOf b = c) :
    c.has (splitProcessId id).1 (splitProcessId id).2 ↔
      ∃ n now, (Build.invoke b id .null).run ws = (.ok n, now)
  missing {ws : Workspace} {b : BuilderRef} (same : ws.catalogOf b = c) :
    ¬ c.has (splitProcessId id).1 (splitProcessId id).2 ↔
      ∃ name space now,
        (Build.invoke b id .null).run ws = (.error (.processNotFound name space), now)
  /-- Instead of an `@` the namespace can be given by itself. -/
  qualified (plain : '@' ∉ id.toList) (b : BuilderRef) (space : String)
    (arguments description : Value) :
    Build.invoke b (id ++ "@" ++ space) arguments description =
      Build.invoke b id arguments description (some space)

theorem Catalog.looksUp (c : Catalog) (id : String) : c.LooksUp id where
  parts := splitProcessId_eq_iff.1 rfl
  found := by
    rintro ws b rfl
    refine ⟨Build.invoke_of_has, fun ⟨n, now, run⟩ => ?_⟩
    by_contra absent
    rw [Build.invoke_of_not_has absent] at run
    cases run
  missing := by
    rintro ws b rfl
    refine ⟨fun absent => ⟨_, _, _, Build.invoke_of_not_has absent⟩, fun ⟨_, _, _, run⟩ has => ?_⟩
    obtain ⟨n, now, called⟩ := Build.invoke_of_has has
    rw [called] at run
    cases run
  qualified := Build.invoke_qualified

/-! ## The command -/

namespace CommandLine

variable {c : Catalog} {env : Environment} {logging : Log.Logging} {verbose : Bool} {path : String}
  {processes : List String}

/-- What the command leaves behind if it tells about the processes of a catalog. The rows are those
that are handed to the table; what is written shows them on a console that is wide enough, if no
cell has markup (`Table`). -/
structure Tells (c : Catalog) (processes : List String) (o : Outcome) : Prop where
  output : o.output = (supportTable c processes).text
  /-- Every process has a row of its own, in the order in which they are given. -/
  rows : List.Forall₂ (fun process row => row = [(splitProcessId process).1,
      ((splitProcessId process).2.filter (· ≠ "")).getD "-",
      if c.has (splitProcessId process).1 (splitProcessId process).2 then "supported"
      else "missing"])
    processes (supportTable c processes).rows
  ending : o.ending = .exit
    (if ∀ process ∈ processes, c.has (splitProcessId process).1 (splitProcessId process).2 then 0
      else 1)
  report : o.report = ""

section
variable {i : Invocation}

theorem run_of_ok {output : String} {status : Nat}
    (done : (i.command.run logging.files env).1 = .ok (output, status)) :
    (i.run logging env).ending = .exit status ∧ (i.run logging env).output = output ∧
      (i.run logging env).report = "" := by
  unfold Invocation.run
  rcases run : i.command.run logging.files env with ⟨r, records⟩
  rw [run] at done
  cases done
  exact ⟨rfl, rfl, rfl⟩

/-- A failure is reported, or ends the program. -/
theorem run_of_error {e : Failure} (failed : (i.command.run logging.files env).1 = .error e) :
    (i.run logging env).ending = (if e.isBuildFailure then .exit 1 else .broken e) ∧
      (i.run logging env).output = "" ∧
      (i.run logging env).report = (if e.isBuildFailure then reportText e else "") := by
  unfold Invocation.run
  rcases run : i.command.run logging.files env with ⟨r, records⟩
  rw [run] at failed
  cases failed
  by_cases known : e.isBuildFailure
  · simp only [if_pos known, and_self]
  · simp only [if_neg known, and_self]

end

/-- A builder is made for a catalog that is not empty, if its settings can be read. -/
theorem run_newBuilder_fst (id : Value) (ws : Workspace) : ((newBuilder c id env).run ws).1 =
    if c = [] then .error .emptyCatalog
    else (Settings.ofEnvironment env).map fun _ => ⟨ws.builders.size⟩ := by
  have made : (Build.newCatalog c).run ws =
      (.ok ⟨ws.catalogs.size⟩, { ws with catalogs := ws.catalogs.push c }) := rfl
  have pushed : ({ ws with catalogs := ws.catalogs.push c } : Workspace).catalog
      ⟨ws.catalogs.size⟩ = c := Arena.get_push_size ..
  unfold newBuilder
  rw [run_bind_of_ok made]
  show ((Build.createBuilder _ id none none env).run { ws with catalogs := _ }).1 = _
  unfold Build.createBuilder
  dsimp only
  rw [pure_bind, Build.run_get_bind, pushed]
  by_cases empty : c = []
  · rw [if_pos empty, if_pos (List.length_eq_zero_iff.2 empty)]
    rfl
  · rw [if_neg empty, if_neg (mt List.length_eq_zero_iff.1 empty)]
    cases Settings.ofEnvironment env <;> rfl

theorem run_runCheck_fst (w : World Unit) : ((Command.runCheck c env processes).run w).1 =
    ((newBuilder c .null env).run w.workspace).1.map fun _ =>
      ((supportTable c processes).text, if processes.all (isSupported c) then 0 else 1) := by
  unfold Command.runCheck
  rw [run_bind_state]
  rcases run : (newBuilder c .null env).run w.workspace with ⟨e | b, now⟩
  · rw [Run.run_liftM, run]
    rfl
  · rw [Run.run_liftM, run]
    rfl

theorem run_check_fst (loaded : (Catalog.load logging.files path).1 = .ok c) (env : Environment)
    (processes : List String) :
    ((Command.check path processes).run logging.files env).1 =
      if c = [] then .error .emptyCatalog
      else (Settings.ofEnvironment env).map fun _ =>
        ((supportTable c processes).text, if processes.all (isSupported c) then 0 else 1) := by
  rcases load : Catalog.load logging.files path with ⟨r, records⟩
  rw [load] at loaded
  cases loaded
  unfold Command.run
  rw [show (Command.check path processes).catalog = path from rfl, load]
  show ((Command.runCheck c env processes).run ⟨{}, ()⟩).1 = _
  rw [run_runCheck_fst, run_newBuilder_fst]
  by_cases empty : c = []
  · rw [if_pos empty, if_pos empty]
    rfl
  · rw [if_neg empty, if_neg empty]
    cases Settings.ofEnvironment env <;> rfl

theorem isSupported_eq (c : Catalog) (process : String) : isSupported c process =
    c.has (splitProcessId process).1 (splitProcessId process).2 := rfl

theorem supportRow_eq (c : Catalog) (process : String) : supportRow c process =
    [(splitProcessId process).1, ((splitProcessId process).2.filter (· ≠ "")).getD "-",
      if c.has (splitProcessId process).1 (splitProcessId process).2 then "supported"
      else "missing"] := by
  unfold supportRow
  rcases splitProcessId process with ⟨name, none | space⟩
  · rfl
  · by_cases empty : space = "" <;> simp [empty, Option.filter]

theorem tells_run (loaded : (Catalog.load logging.files path).1 = .ok c) (nonempty : c ≠ [])
    {settings : Settings} (read : Settings.ofEnvironment env = .ok settings) :
    Tells c processes (Invocation.run logging env ⟨verbose, .check path processes⟩) := by
  have result := run_check_fst loaded env processes
  rw [if_neg nonempty, read] at result
  obtain ⟨ending, output, report⟩ := run_of_ok (i := ⟨verbose, .check path processes⟩) result
  refine ⟨output, ?_, ?_, report⟩
  · show List.Forall₂ _ processes (processes.map (supportRow c))
    rw [List.forall₂_map_right_iff, List.forall₂_same]
    exact fun process _ => supportRow_eq c process
  · simp only [ending, List.all_eq_true, isSupported_eq]

/-- No builder is made for an empty catalog, which is reported. -/
theorem run_check_empty (loaded : (Catalog.load logging.files path).1 = .ok []) :
    let o := Invocation.run logging env ⟨verbose, .check path processes⟩
    o.ending = .exit 1 ∧ o.output = "" ∧ o.report = reportText .emptyCatalog :=
  run_of_error (i := ⟨verbose, .check path processes⟩) (run_check_fst loaded env processes)

/-! ## Main statement -/

/-- **All lookups agree on which processes there are**, and the command tells so about catalogs that
builders can be made for. -/
theorem lookups_agree (c : Catalog) :
    (∀ id, c.LooksUp id) ∧
    ∀ (logging : Log.Logging) (env : Environment) (verbose : Bool) (path : String)
      (processes : List String), (Catalog.load logging.files path).1 = .ok c →
      (c ≠ [] → (∃ settings, Settings.ofEnvironment env = .ok settings) →
        Tells c processes (Invocation.run logging env ⟨verbose, .check path processes⟩)) ∧
      (c = [] →
        let o := Invocation.run logging env ⟨verbose, .check path processes⟩
        o.ending = .exit 1 ∧ o.output = "" ∧ o.report = reportText .emptyCatalog) := by
  refine ⟨c.looksUp, fun logging env verbose path processes loaded => ⟨?_, ?_⟩⟩
  · rintro nonempty ⟨settings, read⟩
    exact tells_run loaded nonempty read
  · rintro rfl
    exact run_check_empty loaded

/-! ## Two catalogs -/

/-- Loggers above a single file. -/
def loggingAbove (text : String) : Log.Logging := .initial ⟨[(["c.json"], text.toUTF8)], []⟩

def twoProcesses : String := "[\x7b\"id\": \"add\"\x7d, \x7b\"id\": \"ndvi\"\x7d]"

/-- The document in the file is the only thing that matters. -/
theorem load_loggingAbove {text : String} {v : Value} {c : Catalog}
    (read : Json.read text = .ok v) (described : (Catalog.ofValue v).1 = .ok c) :
    (Catalog.load (loggingAbove text).files "c.json").1 = .ok c :=
  Catalog.load_eq_ok_iff.2 ⟨by decide, text, v, by rfl, read, described⟩

theorem load_twoProcesses : (Catalog.load (loggingAbove twoProcesses).files "c.json").1 =
    .ok [((none, "add"), [(.str "id", .str "add")]),
      ((none, "ndvi"), [(.str "id", .str "ndvi")])] := by
  have read : Json.read twoProcesses = .ok (.list [.dict [(.str "id", .str "add")],
      .dict [(.str "id", .str "ndvi")]]) := by cbv
  exact load_loggingAbove read (by rfl)

theorem load_noProcesses : (Catalog.load (loggingAbove "[]").files "c.json").1 = .ok [] := by
  have read : Json.read "[]" = .ok (.list []) := by cbv
  exact load_loggingAbove read (by rfl)

/-- A process in a namespace is missing where there is only one without. -/
theorem lookups_agree_twoProcesses :
    let o := Invocation.run (loggingAbove twoProcesses) []
      ⟨false, .check "c.json" ["add", "ndvi@vito", "ndvi"]⟩
    o.ending = .exit 1 ∧
    o.output = (Table.mk "Process support" ["Process", "Namespace", "Status"]
      [["add", "-", "supported"], ["ndvi", "vito", "missing"],
        ["ndvi", "-", "supported"]]).text := by
  have read : ∃ settings, Settings.ofEnvironment [] = .ok settings := ⟨_, rfl⟩
  have tells := ((lookups_agree _).2 _ [] false _ ["add", "ndvi@vito", "ndvi"]
    load_twoProcesses).1 nofun read
  exact ⟨tells.ending.trans (by decide +kernel), tells.output.trans (by rfl)⟩

/-- The command does not tell about the empty catalog, nor with a setting that cannot be read. -/
theorem check_untold :
    ((Catalog.load (loggingAbove "[]").files "c.json").1 = .ok [] ∧
      ¬ Tells [] ["add"] (Invocation.run (loggingAbove "[]") [] ⟨false, .check "c.json" ["add"]⟩)) ∧
    ∃ c, (Catalog.load (loggingAbove twoProcesses).files "c.json").1 = .ok c ∧
      ¬ Tells c ["add"] (Invocation.run (loggingAbove twoProcesses)
        [("PROCGRAPH_ID_STEM_LENGTH", "oops")] ⟨false, .check "c.json" ["add"]⟩) := by
  constructor
  · refine ⟨load_noProcesses, fun tells => ?_⟩
    have written := (run_check_empty load_noProcesses).2.1.symm.trans tells.output
    exact absurd written (by decide +kernel)
  · refine ⟨_, load_twoProcesses, fun tells => ?_⟩
    have unread : Settings.ofEnvironment [("PROCGRAPH_ID_STEM_LENGTH", "oops")] =
        .error .badText := by rfl
    have result := run_check_fst load_twoProcesses [("PROCGRAPH_ID_STEM_LENGTH", "oops")] ["add"]
    rw [if_neg nofun, unread] at result
    have broken := (run_of_error (i := ⟨false, .check "c.json" ["add"]⟩) result).1
    rw [tells.ending] at broken
    cases broken

end CommandLine

end ProcessGraph
