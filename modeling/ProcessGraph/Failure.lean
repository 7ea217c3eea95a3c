import ProcessGraph.Formula.SyntaxError
import ProcessGraph.Value.Literal

/-!
# Failures

Why an operation on catalogs, formulas or graphs fails. Most causes come with a message; the others
are misuses of values that speak for themselves.
-/

set_option autoImplicit false

namespace ProcessGraph

/-- Why a file is not read or written. -/
inductive FileFault where
  | missing
  | notADirectory
  | isADirectory
deriving DecidableEq, Inhabited

/-- The number and the text of a fault, with the path in quotes. -/
def FileFault.message (path : String) : FileFault → String
  | missing => "[Errno 2] No such file or directory: " ++ Text.quoted path
  | notADirectory => "[Errno 20] Not a directory: " ++ Text.quoted path
  | isADirectory => "[Errno 21] Is a directory: " ++ Text.quoted path

inductive Failure where
  -- Formulas
  | malformedFormula (e : Formula.SyntaxError)
  | formulaWithoutBuilder
  /-- The formula does not end in a node. -/
  | formulaWithoutNode (text : String)
  | unknownNode (id : String)
  /-- Dollars without a label or index behind them. -/
  | missingElement (name : String)
  | unsupportedOperator (op : String)
  /-- The process of an operator has less than two parameters. -/
  | operatorArity (op : String)
  -- Catalogs
  | notACatalog
  | emptyCatalog
  | notASpecification (typeName : String)
  | specificationWithoutId
  | unreadableCatalog (path : String) (fault : FileFault)
  | malformedCatalog (path : String)
  -- Nodes and callbacks
  | processNotFound (process : String) (space : Option String)
  | tooManyArguments (process : String) (given available : Nat)
  | argumentsOfType (typeName : String)
  | foreignNode (id process : String)
  | callbackResult (argument process typeName : String)
  | foreignCallbackResult (argument process : String)
  -- Parameters and elements
  | negativeIndex (index : Int)
  | readOnlyElement (key parameter : String)
  | notIterable (parameter : String)
  | noDefault (parameter : String)
  -- Builders
  | unknownAttribute (name : String)
  | hiddenAttribute (name : String)
  -- Logging
  | unknownLogLevel (level : String)
  -- Misused values
  /-- A value of the wrong type. -/
  | wrongType
  /-- A value without the operation that is asked for. -/
  | noOperation
  /-- A name that nothing is stored under. -/
  | missingName
  /-- A text that does not write what it should write. -/
  | badText
  /-- Bytes that are no text. -/
  | undecodable
  /-- Callbacks are nested too deeply. -/
  | tooDeep
deriving DecidableEq, Inhabited

namespace Failure

/-- What messages call a process. -/
def qualified (process : String) : Option String → String
  | none => process
  | some space => process ++ "@" ++ space

/-- The warning and the error about a write to an element say the same. -/
def readOnlyMessage (key parameter : String) : String :=
  "Simplified array access is read-only, can't set '" ++ key ++ "' on '" ++ parameter ++ "'"

/-- The message of a failure, if it has one. -/
def message? : Failure → Option String
  | malformedFormula e => some e.message
  | formulaWithoutBuilder => some "No builder set for formula, call set_builder() first"
  | formulaWithoutNode text => some ("Invalid formula specified: " ++ text)
  | unknownNode id => some ("Formula refers to unknown node '" ++ id ++ "'")
  | missingElement name => some ("Missing label or index after '" ++ name ++ "'")
  | unsupportedOperator op => some ("Operator " ++ op ++ " not supported")
  | operatorArity op =>
    some ("Process for operator " ++ op ++ " must have at least two parameters")
  | notACatalog =>
    some "Processes are invalid; must be a list or an object with a 'processes' list."
  | emptyCatalog =>
    some "Processes are invalid; at least one process specification is required."
  | notASpecification typeName =>
    some ("Process specification must be an object, got " ++ typeName)
  | specificationWithoutId => some "Process specification must have a non-empty string 'id'"
  | unreadableCatalog path fault =>
    some ("Error reading process catalog " ++ path ++ ": " ++ fault.message path)
  | malformedCatalog path => some ("Process catalog " ++ path ++ " is not valid JSON")
  | processNotFound process space =>
    some ("Process doesn't exist: " ++ qualified process space)
  | tooManyArguments process given available =>
    some ("More arguments specified than parameters available for process '" ++ process ++ "': " ++
      toString given ++ " given, " ++ toString available ++ " available.")
  | argumentsOfType typeName =>
    some ("Arguments must be a list or a dict, got " ++ typeName)
  | foreignNode id process =>
    some ("Node '" ++ id ++ "' used as argument of process '" ++ process ++
      "' belongs to another process graph; use callback parameters to pass data into callbacks")
  | callbackResult argument process typeName =>
    some ("Callback for '" ++ argument ++ "' of process '" ++ process ++
      "' must return a process node, got " ++ typeName)
  | foreignCallbackResult argument process =>
    some ("Callback for '" ++ argument ++ "' of process '" ++ process ++
      "' must return a node created with the builder passed to it")
  | negativeIndex index => some ("Array index must not be negative: " ++ toString index)
  | readOnlyElement key parameter => some (readOnlyMessage key parameter)
  | notIterable parameter =>
    some ("Callback parameter '" ++ parameter ++
      "' is not iterable, access elements by label or index")
  | noDefault parameter => some ("Parameter '" ++ parameter ++ "' has no default value")
  | unknownAttribute name => some ("'GraphBuilder' object has no attribute '" ++ name ++ "'")
  | hiddenAttribute name => some name
  | unknownLogLevel level => some ("Unknown log level: " ++ level)
  | wrongType => none
  | noOperation => none
  | missingName => none
  | badText => none
  | undecodable => none
  | tooDeep => none

/-- Does the failure say that building a graph went wrong, and not that a value was misused? The
command line reports these and passes on the others. -/
def isBuildFailure : Failure → Bool
  | malformedFormula _ | formulaWithoutBuilder | formulaWithoutNode _ | unknownNode _
  | missingElement _ | unsupportedOperator _ | operatorArity _ | notACatalog | emptyCatalog
  | notASpecification _ | specificationWithoutId | unreadableCatalog .. | malformedCatalog _
  | processNotFound .. | tooManyArguments .. | foreignNode .. | callbackResult ..
  | foreignCallbackResult .. | readOnlyElement .. => true
  | _ => false

end Failure

/-! ## Steps that can fail -/

theorem exists_of_map_eq_ok {α β : Type} {x : Except Failure α} {f : α → β} {y : β}
    (h : x.map f = .ok y) : ∃ a, x = .ok a ∧ f a = y := by
  cases x with
  | error e => cases h
  | ok a => exact ⟨a, rfl, Except.ok.inj h⟩

section
variable {S α β : Type} {s now : S}

/-- What a step has changed before it fails stays changed, and the steps behind it are left out. -/
theorem run_bind_state (step : ExceptT Failure (StateM S) α)
    (f : α → ExceptT Failure (StateM S) β) (s : S) :
    (step >>= f).run s =
      match step.run s with
      | (.ok a, now) => (f a).run now
      | (.error e, now) => (.error e, now) := by
  rcases h : step.run s with ⟨e | a, now⟩ <;>
    simp only [bind, ExceptT.bind, ExceptT.run, ExceptT.mk, StateT.bind] <;>
    rw [show step s = _ from h] <;> rfl

variable {step : ExceptT Failure (StateM S) α} {f : α → ExceptT Failure (StateM S) β}

theorem run_bind_of_ok {a : α} (h : step.run s = (.ok a, now)) :
    (step >>= f).run s = (f a).run now := by
  rw [run_bind_state, h]

theorem run_bind_eq_ok {b : β} (h : (step >>= f).run s = (.ok b, now)) :
    ∃ a mid, step.run s = (.ok a, mid) ∧ (f a).run mid = (.ok b, now) := by
  rw [run_bind_state] at h
  rcases run : step.run s with ⟨e | a, mid⟩ <;> rw [run] at h
  · cases h
  · exact ⟨a, mid, rfl, h⟩

theorem run_bind_eq_error {e : Failure} (h : (step >>= f).run s = (.error e, now)) :
    step.run s = (.error e, now) ∨
      ∃ a mid, step.run s = (.ok a, mid) ∧ (f a).run mid = (.error e, now) := by
  rw [run_bind_state] at h
  rcases run : step.run s with ⟨e' | a, mid⟩ <;> rw [run] at h
  · cases h
    exact .inl rfl
  · exact .inr ⟨a, mid, rfl, h⟩

/-- What both steps leave behind is left behind by the sequence: an invariant, a relation to the
state where they start, and what holds of a result. -/
theorem bind_ensures {I : S → Prop} {R : S → S → Prop} {P : α → S → Prop} {Q : β → S → Prop}
    (trans : ∀ {mid last}, R s mid → R mid last → R s last)
    (h : I (step.run s).2 ∧ R s (step.run s).2 ∧ ∀ a, (step.run s).1 = .ok a → P a (step.run s).2)
    (hf : ∀ a mid, I mid → R s mid → P a mid → I ((f a).run mid).2 ∧ R mid ((f a).run mid).2 ∧
      ∀ b, ((f a).run mid).1 = .ok b → Q b ((f a).run mid).2) :
    I ((step >>= f).run s).2 ∧ R s ((step >>= f).run s).2 ∧
      ∀ b, ((step >>= f).run s).1 = .ok b → Q b ((step >>= f).run s).2 := by
  obtain ⟨hi, hr, hp⟩ := h
  rw [run_bind_state]
  rcases run : step.run s with ⟨e | a, mid⟩ <;> rw [run] at hi hr hp
  · exact ⟨hi, hr, nofun⟩
  · obtain ⟨hi', hr', hq⟩ := hf a mid hi hr (hp a rfl)
    exact ⟨hi', trans hr hr', hq⟩

end

end ProcessGraph
