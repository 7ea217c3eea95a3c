import ProcessGraph.Log.Setup

/-!
# Loggers that are configured again and again

Loggers may be configured and reset in any order, for any levels and environments, and records may
be logged in between (`Log.Call`). Handlers are attached to loggers that have none and stay until
these are reset. A level that cannot be resolved is refused before anything is changed
(`run_configuring`); a file that cannot be opened is passed over.

So what the loggers have come to depends on two things only (`Logging.At`): the level that was
resolved last since they were reset, and the file that could be opened when they were configured
first since then. Each call keeps this (`Logging.At.step`).

Main statement: after any calls the handlers are in order, and a record is written once wherever it
belongs (`calls_keep_order`).
-/

set_option autoImplicit false

namespace ProcessGraph

/-! ## Files that are appended to -/

namespace Files

variable {f g : Files} {p : Path}

theorem get?_write (f : Files) (p : Path) (bytes : ByteArray) (q : Place) :
    Dictionary.get? q (f.write p bytes).contents =
      if q = p.place then some bytes else Dictionary.get? q f.contents :=
  Dictionary.get?_insert ..

/-- A file that is opened for writing at its end keeps its contents, and a new one is empty. -/
theorem get?_openAtEnd (opened : f.openAtEnd p = .ok g) (q : Place) :
    Dictionary.get? q g.contents =
      if q = p.place then some ((Dictionary.get? p.place f.contents).getD ByteArray.empty)
      else Dictionary.get? q f.contents := by
  unfold openAtEnd at opened
  dsimp only at opened
  split at opened
  · cases opened
  split at opened
  · cases opened
  split at opened
  · rename_i there
    obtain ⟨bytes, found⟩ := Option.isSome_iff_exists.1 there
    cases opened
    split
    · rename_i same
      rw [same, found, Option.getD_some]
    · rfl
  · rename_i missing
    have missing : Dictionary.get? p.place f.contents = none :=
      Option.not_isSome_iff_eq_none.1 missing
    cases opened
    rw [get?_write, missing, Option.getD_none]

theorem isFile_openAtEnd (opened : f.openAtEnd p = .ok g) : g.isFile p.place := by
  unfold isFile Dictionary.contains
  rw [get?_openAtEnd opened, if_pos rfl, Option.isSome_some]

/-- Appending changes the file at the path and no other. -/
theorem get?_append (f : Files) (p : Path) (text : String) (q : Place) :
    Dictionary.get? q (f.append p text).contents =
      if q = p.place then (Dictionary.get? p.place f.contents).map (· ++ text.toUTF8)
      else Dictionary.get? q f.contents := by
  unfold append
  split
  · rename_i bytes found
    rw [get?_write, found, Option.map_some]
  · rename_i missing
    rw [missing, Option.map_none]
    split
    · rename_i same
      rw [same, missing]
    · rfl

theorem isFile_append (f : Files) (p : Path) (text : String) (q : Place) :
    (f.append p text).isFile q = f.isFile q := by
  unfold isFile Dictionary.contains
  rw [get?_append]
  split
  · rename_i same
    rw [same, Option.isSome_map]
  · rfl

end Files

namespace Log

/-! ## Calls -/

/-- A step on the loggers. What it has changed before it fails stays changed. -/
abbrev Setting := ExceptT Failure (StateM Logging)

/-- Attaching handlers, one after the other. -/
def attaching (level : Int) (env : Environment) : Setting Unit := do
  modify fun l => { l with setup.propagates := false }
  modify fun l => { l with setup.handlers := l.setup.handlers ++ [.stream level] }
  match Dictionary.get? "PROCGRAPH_DEBUG_LOG" env with
  | none => pure ()
  | some name => unless name = "" do modify fun l => l.attachFile name

/-- Configuring, one change after the other. -/
def configuring (objectName : Value → String) (given : Value) (env : Environment) :
    Setting Unit := do
  let level ← ExceptT.mk (pure (resolveLevel objectName given env))
  if (← get).setup.handlers = [] then
    attaching level env
  else
    modify fun l =>
      { l with setup.handlers := l.setup.handlers.map (Handler.setStreamLevel level) }
  modify fun l => l.setLevel level

/-- What is done with the loggers. -/
inductive Call where
  | configure (given : Value) (env : Environment)
  | reset
  | log (r : Record)

namespace Call

variable (objectName : Value → String)

def step : Call → Setting Unit
  | configure given env => configuring objectName given env
  | reset => modify Logging.reset
  | log r => modify fun l => l.emit r

/-- The level that has been resolved last since the loggers were reset, if it was `old` before the
call. -/
def resolved (old : Option Int) : Call → Option Int
  | configure given env =>
    match resolveLevel objectName given env with
    | .ok level => some level
    | .error _ => old
  | reset => none
  | log _ => old

end Call

/-- The loggers after calls, one after the other. Those that fail do not end the sequence. -/
def Logging.after (objectName : Value → String) (l : Logging) (calls : List Call) : Logging :=
  calls.foldl (fun l c => ((c.step objectName).run l).2) l

/-- The level that calls have resolved last since they have reset the loggers, if there is one. -/
def resolvedBy (objectName : Value → String) (calls : List Call) : Option Int :=
  calls.foldl (Call.resolved objectName) none

theorem run_attaching (level : Int) (env : Environment) {l : Logging}
    (bare : l.setup.handlers = []) :
    (attaching level env).run l = (.ok (), l.attach level env) := by
  obtain ⟨⟨n, propagates, handlers⟩, files, stream⟩ := l
  cases bare
  unfold attaching Logging.attach
  cases Dictionary.get? "PROCGRAPH_DEBUG_LOG" env with
  | none => rfl
  | some name =>
    by_cases empty : name = ""
    · rw [empty]
      rfl
    · dsimp only
      rw [if_neg empty, if_neg empty]
      rfl

/-- A failure to configure comes before all changes, so it leaves the loggers as they were. -/
theorem run_configuring (objectName : Value → String) (given : Value) (env : Environment)
    (l : Logging) :
    (configuring objectName given env).run l =
      match l.configure objectName given env with
      | .ok now => (.ok (), now)
      | .error e => (.error e, l) := by
  unfold configuring Logging.configure
  rw [run_bind_state]
  cases resolveLevel objectName given env with
  | error e => rfl
  | ok level =>
    show (if l.setup.handlers = [] then
        attaching level env >>= fun _ => modify fun l => l.setLevel level
      else _ : Setting Unit).run l =
        (.ok (), Logging.setLevel (if l.setup.handlers = [] then _ else _) level)
    by_cases bare : l.setup.handlers = []
    · rw [if_pos bare, if_pos bare, run_bind_state, run_attaching level env bare]
      rfl
    · rw [if_neg bare, if_neg bare]
      rfl

/-! ## Records -/

namespace Logging

theorem handle_stream (r : Record) (l : Logging) (n : Int) :
    handle r l (.stream n) =
      { l with stream := l.stream ++ if n ≤ r.level then [r] else [] } := by
  by_cases reached : n ≤ r.level <;> simp [handle, Handler.level, reached]

theorem handle_file {r : Record} {m : Int} (reached : m ≤ r.level) (l : Logging) (path : Path) :
    handle r l (.file m path) = { l with files := l.files.append path (r.line ++ "\n") } := by
  simp [handle, Handler.level, reached]

/-- What no handler changes is as it was when a record has been logged. -/
theorem emit_keeps {α : Type} (field : Logging → α) {r : Record}
    (kept : ∀ l h, field (handle r l h) = field l) (l : Logging) :
    field (l.emit r) = field l := by
  have all (handlers : List Handler) (l : Logging) :
      field (handlers.foldl (handle r) l) = field l := by
    induction handlers generalizing l with
    | nil => rfl
    | cons h handlers ih => exact (ih _).trans (kept l h)
  unfold emit
  split
  · exact all _ l
  · rfl

theorem setup_emit (l : Logging) (r : Record) : (l.emit r).setup = l.setup := by
  refine emit_keeps Logging.setup (fun l h => ?_) l
  unfold handle
  split
  · cases h <;> rfl
  · rfl

/-- Files are written, but not made. -/
theorem isFile_emit (l : Logging) (r : Record) (q : Place) :
    (l.emit r).files.isFile q = l.files.isFile q := by
  refine emit_keeps (fun l => l.files.isFile q) (fun l h => ?_) l
  unfold handle
  split
  · cases h with
    | stream n => rfl
    | file n path => exact l.files.isFile_append path _ q
  · rfl

end Logging

/-! ## What calls come to -/

/-- Loggers with a handler for the error stream and maybe one for a file, which gets everything. -/
def Setup.configured (n : Int) (file : Option Path) : Setup where
  level := if file.isSome then debugLevel else n
  propagates := false
  handlers := .stream n :: file.toList.map (.file debugLevel)

namespace Logging

/-- What the loggers are when a level has been resolved last since they were reset, or none has. -/
inductive At (l : Logging) : Option Int → Prop where
  | unconfigured (setup : l.setup = .initial) : l.At none
  | configured {n : Int} (file : Option Path) (setup : l.setup = .configured n file)
      (opened : ∀ path ∈ file, l.files.isFile path.place) : l.At (some n)

end Logging

/-- From the level `debugLevel` on, zero does not come up and a level means what it says. -/
theorem Setup.enables_iff {s : Setup} {level : Int} (low : debugLevel ≤ s.level)
    (shown : debugLevel ≤ level) : s.enables level ↔ s.level ≤ level := by
  have positive : (0 : Int) < debugLevel := by decide
  have set : s.level ≠ 0 := by omega
  have shown : 0 < level := by omega
  simp [enables, effectiveLevel, set, shown]

namespace Logging

/-- A record from the level `debugLevel` on is written by the handler for the error stream if it
reaches its level, and by the one for a file in any case. -/
theorem emit_configured {l : Logging} {n : Int} {file : Option Path} {r : Record}
    (setup : l.setup = .configured n file) (low : debugLevel ≤ n)
    (below : isBelowRoot r.logger) (shown : debugLevel ≤ r.level) :
    l.emit r = { l with
      stream := l.stream ++ if n ≤ r.level then [r] else []
      files := file.elim l.files fun path => l.files.append path (r.line ++ "\n") } := by
  obtain ⟨s, files, stream⟩ := l
  cases setup
  unfold emit
  cases file with
  | none =>
    have enabled : (Setup.configured n none).enables r.level ↔ n ≤ r.level :=
      Setup.enables_iff low shown
    by_cases reached : n ≤ r.level
    · rw [if_pos ⟨below, enabled.2 reached⟩]
      exact handle_stream r _ n
    · rw [if_neg fun written => reached (enabled.1 written.2), if_neg reached, List.append_nil]
      rfl
  | some path =>
    have enabled : (Setup.configured n (some path)).enables r.level :=
      (Setup.enables_iff (Int.le_refl _) shown).2 shown
    rw [if_pos ⟨below, enabled⟩]
    show handle r (handle r _ (.stream n)) (.file debugLevel path) = _
    rw [handle_stream, handle_file shown]
    rfl

/-! ## One call -/

theorem at_attach (l : Logging) (level : Int) (env : Environment) :
    ((l.attach level env).setLevel level).At (some level) := by
  unfold attach
  cases Dictionary.get? "PROCGRAPH_DEBUG_LOG" env with
  | none => exact .configured none rfl nofun
  | some name =>
    by_cases empty : name = ""
    · simp only [empty, if_true]
      exact .configured none rfl nofun
    · simp only [empty, if_false]
      unfold attachFile
      dsimp only
      split
      · rename_i files opened
        exact .configured (some (Path.ofString name)) rfl fun path same => by
          cases same
          exact Files.isFile_openAtEnd opened
      · refine .configured none ?_ nofun
        unfold setLevel
        rw [setup_emit]
        rfl

theorem at_setStreamLevel {l : Logging} {n : Int} {file : Option Path}
    (setup : l.setup = .configured n file) (opened : ∀ path ∈ file, l.files.isFile path.place)
    (level : Int) :
    (Logging.setLevel { l with
      setup.handlers := l.setup.handlers.map (Handler.setStreamLevel level) } level).At
        (some level) := by
  refine .configured file ?_ opened
  unfold setLevel
  rw [setup]
  cases file with
  | none => rfl
  | some path => rfl

variable {objectName : Value → String} {given : Value} {env : Environment}

/-- Configuring takes the level that has been resolved. -/
theorem At.configure {l : Logging} {old : Option Int} (h : l.At old) {level : Int}
    (resolved : resolveLevel objectName given env = .ok level) :
    ∃ now, l.configure objectName given env = .ok now ∧ now.At (some level) := by
  unfold Logging.configure
  rw [resolved]
  refine ⟨_, rfl, ?_⟩
  cases h with
  | unconfigured setup =>
    have bare : l.setup.handlers = [] := by rw [setup]; rfl
    rw [if_pos bare]
    exact at_attach l level env
  | configured file setup opened =>
    have attached : l.setup.handlers ≠ [] := by rw [setup]; exact List.cons_ne_nil _ _
    rw [if_neg attached]
    exact at_setStreamLevel setup opened level

theorem configure_of_error (l : Logging) {e : Failure}
    (refused : resolveLevel objectName given env = .error e) :
    l.configure objectName given env = .error e := by
  unfold Logging.configure
  rw [refused]
  rfl

theorem At.emit {l : Logging} {old : Option Int} (h : l.At old) (r : Record) :
    (l.emit r).At old := by
  cases h with
  | unconfigured setup => exact .unconfigured ((l.setup_emit r).trans setup)
  | configured file setup opened =>
    exact .configured file ((l.setup_emit r).trans setup) fun path same =>
      (l.isFile_emit r path.place).trans (opened path same)

/-- What a call makes of the loggers. -/
theorem At.step {l : Logging} {old : Option Int} (h : l.At old) (c : Call) :
    Logging.At ((c.step objectName).run l).2 (c.resolved objectName old) := by
  cases c with
  | configure given env =>
    unfold Call.step Call.resolved
    dsimp only
    rw [run_configuring]
    cases found : resolveLevel objectName given env with
    | error e =>
      rw [configure_of_error l found]
      exact h
    | ok level =>
      obtain ⟨now, configured, new⟩ := h.configure found
      rw [configured]
      exact new
  | reset => exact .unconfigured rfl
  | log r => exact h.emit r

/-- What calls make of the loggers, by induction on the calls: each finds the loggers as the ones
before have left them. -/
theorem At.after {l : Logging} {old : Option Int} (h : l.At old) (calls : List Call) :
    (l.after objectName calls).At (calls.foldl (Call.resolved objectName) old) := by
  induction calls generalizing l old with
  | nil => exact h
  | cons c calls ih => exact ih (h.step c)

end Logging

/-! ## The order of handlers -/

/-- Where a record is written: to the error stream, once and only if it reaches the level, and once
to the file of each handler for a file. -/
structure Logging.Writes (l : Logging) (n : Int) (r : Record) : Prop where
  setup : (l.emit r).setup = l.setup
  stream : (l.emit r).stream = l.stream ++ if n ≤ r.level then [r] else []
  file : ∀ m path, .file m path ∈ l.setup.handlers →
    ∃ bytes, Dictionary.get? path.place l.files.contents = some bytes ∧
      Dictionary.get? path.place (l.emit r).files.contents =
        some (bytes ++ (r.line ++ "\n").toUTF8)
  others : ∀ q, (∀ m path, .file m path ∈ l.setup.handlers → q ≠ path.place) →
    Dictionary.get? q (l.emit r).files.contents = Dictionary.get? q l.files.contents

/-- Loggers whose handlers are in order, for the level that has been resolved last. -/
structure Logging.InOrder (l : Logging) (resolved : Option Int) : Prop where
  handlers : l.setup.handlers = [] ∨ (∃ n, l.setup.handlers = [.stream n]) ∨
    ∃ n m path, l.setup.handlers = [.stream n, .file m path]
  propagates : l.setup.propagates ↔ l.setup.handlers = []
  attached : l.setup.handlers = [] ↔ resolved = none
  stream : ∀ n, resolved = some n → ∃ others, l.setup.handlers = .stream n :: others
  level : ∀ n, resolved = some n →
    l.setup.level = if l.setup.handlers.any Handler.isFile then debugLevel else n
  records : ∀ n, resolved = some n → debugLevel ≤ n → ∀ r : Record, isBelowRoot r.logger →
    debugLevel ≤ r.level → l.Writes n r

theorem Logging.writes_configured {l : Logging} {n : Int} {file : Option Path}
    (setup : l.setup = .configured n file) (opened : ∀ path ∈ file, l.files.isFile path.place)
    (low : debugLevel ≤ n) {r : Record} (below : isBelowRoot r.logger)
    (shown : debugLevel ≤ r.level) : l.Writes n r := by
  have written := emit_configured setup low below shown
  refine ⟨l.setup_emit r, by rw [written], fun m path listed => ?_, fun q other => ?_⟩
  · rw [setup] at listed
    cases file with
    | none => simp [Setup.configured] at listed
    | some path' =>
      obtain ⟨-, rfl⟩ : m = debugLevel ∧ path = path' := by simpa [Setup.configured] using listed
      obtain ⟨bytes, found⟩ := Option.isSome_iff_exists.1 (opened path rfl)
      refine ⟨bytes, found, ?_⟩
      rw [written]
      show Dictionary.get? path.place (l.files.append path _).contents = _
      rw [Files.get?_append, if_pos rfl, found, Option.map_some]
  · rw [written]
    cases file with
    | none => rfl
    | some path =>
      have other : q ≠ path.place := other debugLevel path (by simp [setup, Setup.configured])
      show Dictionary.get? q (l.files.append path _).contents = _
      rw [Files.get?_append, if_neg other]

theorem Logging.At.inOrder {l : Logging} {resolved : Option Int} (h : l.At resolved) :
    l.InOrder resolved := by
  cases h with
  | unconfigured setup =>
    have bare : l.setup.handlers = [] := by rw [setup]; rfl
    have passes : l.setup.propagates = true := by rw [setup]; rfl
    exact ⟨.inl bare, by simp [bare, passes], by simp [bare], nofun, nofun, nofun⟩
  | @configured n file setup opened =>
    refine ⟨?_, ?_, ?_, ?_, ?_, ?_⟩
    · rw [setup]
      cases file with
      | none => exact .inr (.inl ⟨n, rfl⟩)
      | some path => exact .inr (.inr ⟨n, debugLevel, path, rfl⟩)
    · simp [setup, Setup.configured]
    · simp [setup, Setup.configured]
    · rintro _ ⟨⟩
      exact ⟨_, by rw [setup]; rfl⟩
    · rintro _ ⟨⟩
      rw [setup]
      cases file <;> rfl
    · rintro _ ⟨⟩ low r below shown
      exact writes_configured setup opened low below shown

/-- **What configuring comes to.** After any calls the handlers are in order for the level that was
resolved last. Configuring once more either is refused, because no level can be resolved, and has
changed nothing by then; or it succeeds, and the handlers are in order for the new level. -/
theorem calls_keep_order (objectName : Value → String) {l now : Logging}
    (bare : l.setup = .initial) (calls : List Call) (reached : l.after objectName calls = now) :
    now.InOrder (resolvedBy objectName calls) ∧
    ∀ given env,
      (∀ e, resolveLevel objectName given env = .error e →
        now.configure objectName given env = .error e ∧
        (configuring objectName given env).run now = (.error e, now)) ∧
      ∀ level, resolveLevel objectName given env = .ok level →
        ∃ next, now.configure objectName given env = .ok next ∧
          (configuring objectName given env).run now = (.ok (), next) ∧
          next.InOrder (some level) := by
  have whole : now.At (resolvedBy objectName calls) :=
    reached ▸ (Logging.At.unconfigured bare).after calls
  refine ⟨whole.inOrder, fun given env => ⟨fun e refused => ?_, fun level resolved => ?_⟩⟩
  · have failed := now.configure_of_error refused
    exact ⟨failed, by rw [run_configuring, failed]⟩
  · obtain ⟨next, configured, new⟩ := whole.configure resolved
    exact ⟨next, configured, by rw [run_configuring, configured], new.inOrder⟩

/-- A name that is no level, a file that is opened for the level `info`, a record, a new level, and
once more the name. -/
def reconfigured : List Call :=
  [.configure (.str "loud") [],
   .configure .null
     [("PROCGRAPH_LOG_LEVEL", " info\n"), ("PROCGRAPH_DEBUG_LOG", "logs/./debug.log")],
   .log (.debug builderLogger "Added node add1 (add)"),
   .configure (.int 40) [],
   .configure (.str "loud") []]

/-- After this a warning goes to the file only. -/
theorem calls_keep_order_reconfigured :
    let l := (Logging.initial .empty).after Value.typeName reconfigured
    let r := Record.warning commandLogger "late"
    (∃ others, l.setup.handlers = .stream 40 :: others) ∧ l.setup.level = debugLevel ∧
      (l.emit r).stream = l.stream ∧
      (∃ bytes, Dictionary.get? ["logs", "debug.log"] (l.emit r).files.contents =
        some (bytes ++ (r.line ++ "\n").toUTF8)) ∧
      (configuring Value.typeName (.str "loud") []).run l =
        (.error (.unknownLogLevel "loud"), l) := by
  intro l r
  have bare : (Logging.initial .empty).setup = .initial := rfl
  have reached : (Logging.initial .empty).after Value.typeName reconfigured = l := rfl
  obtain ⟨order, once_more⟩ := calls_keep_order Value.typeName bare reconfigured reached
  have resolved : resolvedBy Value.typeName reconfigured = some 40 := by decide +kernel
  have handlers : l.setup.handlers =
      [.stream 40, .file debugLevel ⟨"", ["logs", "debug.log"]⟩] := by decide +kernel
  have files : l.setup.handlers.any Handler.isFile = true := by rw [handlers]; rfl
  have written := order.records 40 resolved (by decide) r (by decide +kernel) (by decide)
  have unknown : namedLevel? "loud" = none := by decide +kernel
  have refused : resolveLevel Value.typeName (.str "loud") [] =
      .error (.unknownLogLevel "loud") := by
    simp [resolveLevel, levelOf, Value.display, unknown]
  refine ⟨order.stream 40 resolved, ?_, ?_, ?_, ((once_more _ _).1 _ refused).2⟩
  · rw [order.level 40 resolved, if_pos files]
  · exact written.stream.trans (List.append_nil _)
  · obtain ⟨bytes, -, new⟩ := written.file debugLevel ⟨"", ["logs", "debug.log"]⟩
      (by rw [handlers]; simp)
    exact ⟨bytes, new⟩

end Log

end ProcessGraph
