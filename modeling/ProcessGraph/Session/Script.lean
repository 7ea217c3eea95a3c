import ProcessGraph.Formula.Tree
import ProcessGraph.Settings

/-!
# Scripts

A script is a sequence of steps on named objects: builders, nodes, parameters, catalogs. Callbacks
in a script are scripts themselves, with parameters. All names live in one table.
-/

set_option autoImplicit false

namespace ProcessGraph.Session

/-- Where the settings of a new builder come from. -/
inductive SettingsSource where
  | given (g : Settings.Given)
  | environment (env : Environment)
  | parent
deriving Inhabited

/-- Names of callback parameters that a script registers. -/
inductive RegisteredNames where
  | fixed (names : List Value)
  | ifTrue (argument : String) (names otherwise : List Value)
deriving Inhabited

mutual

/-- An expression for a value. -/
inductive Expr where
  | scalar (s : Scalar)
  | list (items : List Expr)
  | tuple (items : List Expr)
  | dict (entries : List (String × Expr))
  | variable (name : String)
  /-- A new parameter with the given fields. -/
  | parameter (fields : List (String × Expr))
  /-- A new formula. -/
  | formula (text : String)
  | callback (script : Script)

/-- A function: it takes the builder if that has a name, the named parameters, and the rest of the
arguments if that has a name. -/
inductive Script where
  | mk (builder : Option String) (parameters : List String) (rest : Option String)
      (steps : List Step) (result : Expr)

inductive Step where
  /-- An action; its result is stored under a name if one is given. -/
  | act (name : Option String) (action : Action)
  /-- Steps that are undone if one of them fails. -/
  | atomic (name : Option String) (on : String) (steps : List Step)

/-- What a step does. Most actions are on the builder named `on` or the object named `object`. -/
inductive Action where
  | builder (processes : Expr) (id : Value) (settings : SettingsSource) (parent : Option String)
  | registry (processes : Option Expr)
  | registryAdd (on : String) (spec : Expr) (space : Option String)
  | registryGet (on id : String) (space : Option String)
  | registryAll (on : String) (space : Option String)
  | registryHas (on id : String) (space : Option String)
  | registryContains (on id : String)
  | registryState (on : String)
  | invoke (on id : String) (arguments : Option Expr) (description : Value)
      (space : Option String)
  | call (on id : String) (arguments : List Expr) (named : List (String × Expr))
  | shortcut (on id : String)
  | hasShortcut (on id : String)
  | shortcutNames (on : String)
  | math (on text : String)
  | compile (on text : String) (asResult : Bool)
  | formula (text : String)
  | generate (formula : String) (on : Option String) (asResult : Bool)
  | tree (on : String) (tree : Formula.Tree)
  | operator (on op : String) (left right : Expr)
  | resolve (on name : String)
  | parameter (fields : List (String × Expr))
  | parameterInfo (object : String)
  | parameterDefault (object : String)
  | literal (object : String)
  | addParameter (on : String) (parameter : Expr) (onRoot : Bool)
  | parameters (on : String)
  | generateId (on name : String)
  | addSpecification (on : String) (spec : Expr) (space : Option String)
  | specification (on id : String) (space : Option String)
  | supports (on id : String) (space : Option String)
  | state (on : String)
  | node (object : String)
  | nodeWithId (on id : String)
  | setDescription (object : String) (description : Value)
  | setResult (object : String) (result : Value)
  | callbackNames (object argument : String)
  | callbackBuilder (object argument : String)
  | register (process : String) (names : RegisteredNames)
  | child (on node argument : String)
  | setParent (on node argument : String)
  | callbackParameter (on : String) (name : Value)
  | parentParameters (on : String)
  | element (object : String) (key : Expr)
  | item (object : String) (key : Expr)
  | setItem (object : String) (key value : Expr)
  | deleteItem (object : String) (key : Expr)
  | iterate (object : String)
  | same (first second : String)
  | root (on : String)
  | hierarchy (on : String)
  | setMetadata (on field : String) (value : Expr)
  | getMetadata (on field : String)
  | document (object : String)

end

instance : Inhabited Expr := ⟨.scalar .null⟩
instance : Inhabited Script := ⟨.mk none [] none [] default⟩
instance : Inhabited Action := ⟨.formula ""⟩
instance : Inhabited Step := ⟨.act none default⟩

namespace Script

def builder : Script → Option String
  | .mk b _ _ _ _ => b

def parameters : Script → List String
  | .mk _ ps _ _ _ => ps

def rest : Script → Option String
  | .mk _ _ r _ _ => r

def steps : Script → List Step
  | .mk _ _ _ s _ => s

def result : Script → Expr
  | .mk _ _ _ _ e => e

/-- The names of the parameters that every call must fill. -/
def required (s : Script) : List String := s.builder.toList ++ s.parameters

end Script

end ProcessGraph.Session
