import ProcessGraph.Graph.Invocation

/-!
# Array elements

The element of a callback parameter under a key is a node, made on the first access and remembered.
Elements cannot be written.
-/

set_option autoImplicit false

namespace ProcessGraph.Build

/-- The node for an element of a callback parameter. -/
def element (a : AccessRef) (key : ElementKey) : Build NodeRef := do
  let ws ← get
  let access := ws.access a
  match Dictionary.get? key access.elements with
  | some n => return n
  | none =>
    let process := (ws.builder access.builder).settings.arrayElementProcess
    let n ← invoke access.builder process
      (.object [("data", .parameter access.parameter), (key.argument, key.toValue)])
    change fun ws => ws.modifyAccess a fun access =>
      { access with elements := Dictionary.insert key n access.elements }
    let ws ← get
    log (.debug Log.parameterLogger ("Array access " ++ key.argument ++ "=" ++
      ws.literal key.toValue ++ " on '" ++ ws.display (ws.accessParameter a).name ++ "' -> " ++
      (ws.node n).id))
    return n

/-- The node for the element that a value names. -/
def elementAt (a : AccessRef) (key : Value) : Build NodeRef := do
  let key ← ofExcept (ElementKey.ofValue (← get).objectName key)
  element a key

/-- Refuses to write an element: a failure in strict builders, a warning in others. -/
def writeElement (a : AccessRef) (key : Value) : Build Unit := do
  let ws ← get
  let key := ws.display key
  let name := ws.display (ws.accessParameter a).name
  if (ws.builder (ws.access a).builder).settings.strictArrayAccess then
    throw (.readOnlyElement key name)
  let message := Failure.readOnlyMessage key name
  log (.warning Log.parameterLogger message)
  change fun ws => { ws with warnings := ws.warnings ++ [message] }

end ProcessGraph.Build
