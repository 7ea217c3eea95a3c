import ProcessGraph.Graph.Document
import ProcessGraph.Graph.Shortcut

/-!
# Programs of clients

A client works on builders by commands, whose operands are values that it was given or has got from
earlier commands. It sees ids of nodes, failures and documents, and what it does next may depend on
all of them, but not on how the workspace numbers its objects: a `Program` is a tree that branches
on what has been seen. The functions given for callbacks are programs, too; they do the same
whenever they are called in the same way.
-/

set_option autoImplicit false

namespace ProcessGraph.Client

/-- A value that the client was given, or one of those that it has got so far. -/
inductive Operand where
  | given (v : Value)
  | got (i : Nat)

inductive Command where
  | list (items : List Operand)
  | tuple (items : List Operand)
  | dict (entries : List (Scalar × Operand))
  | parameter (p : Parameter)
  | formula (text : String)
  | invoke (b : Operand) (process : String) (arguments : Operand) (description : Value)
      (space : Option String)
  | shortcut (b : Operand) (name : String) (arguments : List Operand)
      (named : List (Scalar × Operand))
  | math (b : Operand) (text : String)
  | callbackParameter (b : Operand) (name : Value)
  | element (a : Operand) (key : Scalar)
  | generateId (b : Operand) (name : String)
  /-- Declares a parameter on the root, or on the builder itself. -/
  | addParameter (b : Operand) (declaration : Value.Entries) (onRoot : Bool)
  | setResult (n : Operand) (result : Value)
  | setDescription (n : Operand) (description : Value)
  | setMetadata (b : Operand) (field : String) (v : Value)
  | setParent (b n : Operand) (argument : Scalar)

inductive Program where
  /-- Returns a value and reports on what has been seen. -/
  | finish (result : Operand) (report : Value)
  | fail (e : Failure)
  | command (c : Command) (next : Except Failure Value → Program)
  | document (object : Operand) (next : Except Failure Value → Program)
  /-- A new function; its body may depend on how many arguments it gets. -/
  | function (positional : Nat) (variadic : Bool) (captured : List Operand) (body : Nat → Program)
      (next : Program)
  | atomic (b : Operand) (body : Program) (next : Except Failure Value → Program)

structure Closure where
  body : Nat → Program
  captured : List Value

/-- The functions that have been made, and the values that the client has got so far. -/
structure Host where
  closures : List Closure := []
  values : List Value := []

/-- What came of a command: a value for later commands, and what is seen of it. -/
structure Reply where
  value : Value
  seen : Value := .null

/-! ## Commands -/

namespace Operand

variable (values : List Value)

def eval : Operand → Except Failure Value
  | given v => .ok v
  | got i =>
    match values[i]? with
    | some v => .ok v
    | none => .error .missingName

def builder (o : Operand) : Except Failure BuilderRef := do
  match ← o.eval values with
  | .builder b => return b
  | _ => throw .noOperation

def node (o : Operand) : Except Failure NodeRef := do
  match ← o.eval values with
  | .node n => return n
  | _ => throw .noOperation

def access (o : Operand) : Except Failure AccessRef := do
  match ← o.eval values with
  | .access a => return a
  | _ => throw .noOperation

def evalAll (os : List Operand) : Except Failure (List Value) := os.mapM (eval values)

def evalEntries : List (Scalar × Operand) → Except Failure Value.Entries
  | [] => return []
  | (k, o) :: d => do
    let v ← o.eval values
    let e ← evalEntries d
    return (k, v) :: e

end Operand

/-- A node is seen by its id. -/
def replyNode (n : NodeRef) : Build Reply := do
  return ⟨.node n, .str ((← get).node n).id⟩

def Command.run (values : List Value) : Command → Build Reply
  | list items => do
    return { value := .list (← Build.ofExcept (Operand.evalAll values items)) }
  | tuple items => do
    return { value := .tuple (← Build.ofExcept (Operand.evalAll values items)) }
  | dict entries => do
    return { value := .dict (← Build.ofExcept (Operand.evalEntries values entries)) }
  | parameter p => do
    return { value := .parameter (← Build.newParameter p) }
  | formula text => do
    return { value := .formula (← Build.createFormula text) }
  | invoke b process arguments description space => do
    let b ← Build.ofExcept (b.builder values)
    let v ← Build.ofExcept (arguments.eval values)
    replyNode (← Build.invoke b process v description space)
  | shortcut b name arguments named => do
    let b ← Build.ofExcept (b.builder values)
    let vs ← Build.ofExcept (Operand.evalAll values arguments)
    let d ← Build.ofExcept (Operand.evalEntries values named)
    match ← Build.ofExcept ((← get).findAttribute b name) with
    | .shortcut process specification =>
      replyNode (← Build.callShortcut b process specification vs d)
    | .own _ => throw .noOperation
  | math b text => do
    let b ← Build.ofExcept (b.builder values)
    replyNode (← Build.math b text)
  | callbackParameter b name => do
    let b ← Build.ofExcept (b.builder values)
    return { value := .access (← Build.callbackParameter b name) }
  | element a key => do
    let a ← Build.ofExcept (a.access values)
    replyNode (← Build.elementAt a key.toValue)
  | generateId b name => do
    let b ← Build.ofExcept (b.builder values)
    let id ← Build.generateId b name
    return ⟨.str id, .str id⟩
  | addParameter b declaration onRoot => do
    let b ← Build.ofExcept (b.builder values)
    Build.addParameter b declaration onRoot
    return { value := .null }
  | setResult n result => do
    let n ← Build.ofExcept (n.node values)
    Build.setResult n result
    return { value := .null }
  | setDescription n description => do
    let n ← Build.ofExcept (n.node values)
    Build.setDescription n description
    return { value := .null }
  | setMetadata b field v => do
    let b ← Build.ofExcept (b.builder values)
    Build.setMetadata b field v
    return { value := .null }
  | setParent b n argument => do
    let b ← Build.ofExcept (b.builder values)
    let n ← Build.ofExcept (n.node values)
    Build.setParent b n argument
    return { value := .null }

/-! ## Programs -/

/-- Tries a step, keeps the value that it gives, and goes on with what is seen of it. -/
def attempt (step : Run Host Reply) : Run Host (Except Failure Value) :=
  ExceptT.mk fun w =>
    match step.run w with
    | (.ok r, now) =>
      (.ok (.ok r.seen), { now with host.values := now.host.values ++ [r.value] })
    | (.error e, now) => (.ok (.error e), now)

/-- The document of a builder or a node, of which nothing is kept. -/
def replyDocument (documents : Documents Host) : Value → Run Host Reply
  | .builder b => do return ⟨.null, ← documents.builder b⟩
  | .node n => do return ⟨.null, ← documents.node n⟩
  | _ => throw .noOperation

/-- Adds a function, and a value for it. -/
def Host.define (host : Host) (positional : Nat) (variadic : Bool) (c : Closure) : Host where
  closures := host.closures ++ [c]
  values := host.values ++ [.callback ⟨host.closures.length, positional, variadic⟩]

def Program.run (documents : Documents Host) : Program → Run Host Reply
  | finish result report => do
    let v ← Build.ofExcept (result.eval (← Run.host).values)
    return ⟨v, report⟩
  | fail e => throw e
  | command c next => do
    let seen ← attempt do c.run (← Run.host).values
    run documents (next seen)
  | document object next => do
    let seen ← attempt do
      replyDocument documents (← Build.ofExcept (object.eval (← Run.host).values))
    run documents (next seen)
  | function positional variadic captured body next => do
    let vs ← Build.ofExcept (Operand.evalAll (← Run.host).values captured)
    Run.changeHost fun host => host.define positional variadic ⟨body, vs⟩
    run documents next
  | atomic b body next => do
    let seen ← attempt do
      let b ← Build.ofExcept (b.builder (← Run.host).values)
      Run.atomically b (run documents body)
    run documents (next seen)

/-- Calls a function: its body gets what the function captured and the arguments, and the caller
keeps its own values. -/
def call (documents : Documents Host) (f : Callback) (arguments : List Value) : Run Host Value :=
  ExceptT.mk fun w =>
    match w.host.closures[f.handle]? with
    | none => (.error .wrongType, w)
    | some c =>
      let (result, now) := ((c.body arguments.length).run documents).run
        { w with host.values := c.captured ++ arguments }
      (result.map Reply.value, { now with host.values := w.host.values })

/-- Documents with callbacks nested at most `n` deep. -/
def documents : Nat → Documents Host := Documents.within call

/-! ## What programs make use of -/

/-- The values that clients may be given, and the declarations that they may make on the root. -/
structure Scope where
  known : Value → Prop
  admits : Value.Entries → Prop
  /-- Clients may change what is said about nodes and builders: flags, descriptions, metadata, and
  the node and argument that a builder is for. -/
  changes : Prop

section
variable (S : Scope)

def Operand.Respects : Operand → Prop
  | given v => S.known v
  | got _ => True

def Command.Respects : Command → Prop
  | list items | tuple items => ∀ o ∈ items, o.Respects S
  | dict entries => ∀ p ∈ entries, p.2.Respects S
  | parameter p => p.isDeclarable → S.admits p.declaration
  | formula _ => True
  | invoke b _ arguments _ _ => b.Respects S ∧ arguments.Respects S
  | shortcut b _ arguments named =>
    b.Respects S ∧ (∀ o ∈ arguments, o.Respects S) ∧ ∀ p ∈ named, p.2.Respects S
  | math b _ | callbackParameter b _ | element b _ | generateId b _ => b.Respects S
  | addParameter b declaration onRoot => b.Respects S ∧ (onRoot → S.admits declaration)
  | setResult n _ | setDescription n _ => S.changes ∧ n.Respects S
  | setMetadata b _ _ => S.changes ∧ b.Respects S
  | setParent b n _ => S.changes ∧ b.Respects S ∧ n.Respects S

/-- Whatever the program has seen, it stays in the scope. -/
def Program.Respects : Program → Prop
  | finish result _ => result.Respects S
  | fail _ => True
  | command c next => c.Respects S ∧ ∀ seen, (next seen).Respects
  | document object next => object.Respects S ∧ ∀ seen, (next seen).Respects
  | function _ _ captured body next =>
    (∀ o ∈ captured, o.Respects S) ∧ (∀ n, (body n).Respects) ∧ next.Respects
  | atomic b body next => b.Respects S ∧ body.Respects ∧ ∀ seen, (next seen).Respects

structure Closure.Respects (c : Closure) : Prop where
  body : ∀ n, (c.body n).Respects S
  captured : ∀ v ∈ c.captured, S.known v

end

end ProcessGraph.Client
