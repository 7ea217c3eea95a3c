import ProcessGraph.Catalog.Basic
import ProcessGraph.Files
import ProcessGraph.Json.Reader

/-!
# Loading catalogs

A catalog file is a JSON document in UTF-8: a list of specifications, or an object with such a list
under `processes`.
-/

set_option autoImplicit false

namespace ProcessGraph.Catalog

/-- The JSON document in a file. -/
def document (files : Files) (path : Path) : Except Failure Value :=
  if path.toString.toList.contains '\x00' then .error .badText
  else
    match files.find path with
    | .error fault => .error (.unreadableCatalog path.toString fault)
    | .ok bytes =>
      match String.fromUTF8? bytes with
      | none => .error .undecodable
      | some text =>
        match Json.read text with
        | .ok v => .ok v
        | .error .malformed => .error (.malformedCatalog path.toString)
        | .error .oversizedInteger => .error .badText

/-- The catalog in a file, and what is logged while it is loaded. -/
def load (files : Files) (path : String) : Except Failure Catalog × List Log.Record :=
  let path := Path.ofString path
  match document files path with
  | .error e => (.error e, [])
  | .ok v =>
    match ofValue v with
    | (.ok c, records) =>
      (.ok c, records ++ [.debug Log.catalogLogger ("Loaded " ++ toString c.length ++
        " process specifications from " ++ path.toString)])
    | r => r

end ProcessGraph.Catalog
