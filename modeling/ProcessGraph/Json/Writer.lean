import ProcessGraph.Value.Basic
import ProcessGraph.Number.Shortest

/-!
# JSON text

Writes data as JSON, either compactly or with line breaks and indentation. Only quotes,
backslashes and the characters below U+0020 are escaped. Infinities and NaN keep their names.
-/

set_option autoImplicit false

namespace ProcessGraph.Json

/-- One character of a string. -/
def escapeChar (c : Char) : List Char :=
  if c = '"' then ['\\', '"']
  else if c = '\\' then ['\\', '\\']
  else if c = '\n' then ['\\', 'n']
  else if c = '\r' then ['\\', 'r']
  else if c = '\t' then ['\\', 't']
  else if c = '\x08' then ['\\', 'b']
  else if c = '\x0c' then ['\\', 'f']
  else if c.toNat < 0x20 then '\\' :: 'u' :: Text.hexadecimal 4 c.toNat
  else [c]

/-- A string in double quotes. -/
def quote (s : String) : String :=
  String.ofList ('"' :: s.toList.flatMap escapeChar ++ ['"'])

/-- The text of a scalar. -/
def scalarText : Scalar → String
  | .null => "null"
  | .bool true => "true"
  | .bool false => "false"
  | .int n => toString n
  | .float x => Binary64.text Binary64.documentNames x
  | .str s => quote s

/-- The text of a key: every key is written as a string. -/
def keyText : Scalar → String
  | .str s => quote s
  | k => quote (scalarText k)

/-- Where blanks and line breaks go. -/
structure Layout where
  /-- What stands before an item or a closing bracket at a depth. -/
  lineBreak : Nat → String
  /-- What stands between a key and its value. -/
  colon : String

/-- No blanks at all. -/
def compactLayout : Layout := ⟨fun _ => "", ":"⟩

/-- One item a line, each level `width` blanks deeper. -/
def indentedLayout (width : Nat) : Layout :=
  ⟨fun depth => String.ofList ('\n' :: List.replicate (depth * width) ' '), ": "⟩

variable (layout : Layout)

/-- Items between brackets; without items nothing stands between them. -/
def enclose (opening closing : String) (depth : Nat) (items : List String) : String :=
  if items.isEmpty then opening ++ closing
  else
    opening ++ layout.lineBreak (depth + 1) ++
      ("," ++ layout.lineBreak (depth + 1)).intercalate items ++
      layout.lineBreak depth ++ closing

mutual

/-- The text of data at a depth. Objects of a workspace have no JSON text and are written as
null. -/
def text (depth : Nat) : Value → String
  | .null => scalarText .null
  | .bool b => scalarText (.bool b)
  | .int n => scalarText (.int n)
  | .float x => scalarText (.float x)
  | .str s => scalarText (.str s)
  | .list vs => enclose layout "[" "]" depth (texts (depth + 1) vs)
  | .tuple vs => enclose layout "[" "]" depth (texts (depth + 1) vs)
  | .dict d => enclose layout "\x7b" "\x7d" depth (entryTexts (depth + 1) d)
  | _ => scalarText .null

def texts (depth : Nat) : List Value → List String
  | [] => []
  | v :: vs => text depth v :: texts depth vs

def entryTexts (depth : Nat) : List (Scalar × Value) → List String
  | [] => []
  | (k, v) :: d => (keyText k ++ layout.colon ++ text depth v) :: entryTexts depth d

end

/-- The text of data without blanks. -/
def compact (v : Value) : String := text compactLayout 0 v

/-- The text of data with one item a line; a negative width indents by nothing. -/
def indented (width : Int) (v : Value) : String := text (indentedLayout width.toNat) 0 v

end ProcessGraph.Json
