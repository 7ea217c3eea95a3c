import ProcessGraph.Failure

/-!
# Files

A directory tree in memory: files with their contents, by the place where they are. Paths are
written without empty and `.` components. Every directory on the way to a file exists. There are
no links, so `..` leads back to where one came from.
-/

set_option autoImplicit false

namespace ProcessGraph

/-- A path in its normal form. -/
structure Path where
  /-- The slashes at the start: none, one or two. -/
  root : String
  components : List String
deriving DecidableEq, Inhabited

/-- Where a walk along a path has come to: the components below the working directory, or, after a
slash, below the root. -/
abbrev Place := List String

namespace Place

/-- The working directory. -/
def working : Place := []

/-- The root of all directories. -/
def root : Place := ["/"]

/-- The working directory, the root, and what is known of the directories above them. -/
def isAbove (p : Place) : Bool := p = root || p.all (· = "..")

/-- The place that a component leads to from a directory. The root is above itself. -/
def step (directory : Place) (component : String) : Place :=
  if component = ".." then
    if directory = root then root
    else if directory.isAbove then directory ++ [component]
    else directory.dropLast
  else directory ++ [component]

/-- The places that components lead to one after the other. -/
def walked (directory : Place) : List String → List Place
  | [] => []
  | c :: cs => directory.step c :: walked (directory.step c) cs

end Place

namespace Path

/-- The parts of a text between slashes. -/
def splitSlashes : List Char → List (List Char)
  | [] => [[]]
  | c :: cs =>
    if c = '/' then [] :: splitSlashes cs
    else
      match splitSlashes cs with
      | part :: parts => (c :: part) :: parts
      | [] => [[c]]

/-- The normal form of a path. Two slashes at the start are kept, more of them are one. -/
def ofString (s : String) : Path :=
  let cs := s.toList
  let slashes := (cs.takeWhile (· = '/')).length
  let root := if slashes = 0 then "" else if slashes = 2 then "//" else "/"
  ⟨root, ((splitSlashes cs).map String.ofList).filter fun part => part ≠ "" && part ≠ "."⟩

def toString (p : Path) : String :=
  if p.root = "" ∧ p.components = [] then "." else p.root ++ "/".intercalate p.components

/-- Where the path starts. -/
def start (p : Path) : Place := if p.root = "" then Place.working else Place.root

/-- The places on the way to the path, the path itself last. -/
def places (p : Path) : List Place := p.start.walked p.components

/-- Where the path leads. -/
def place (p : Path) : Place := p.places.getLastD p.start

end Path

/-- Files by their places, and directories that may be empty. -/
structure Files where
  contents : Dictionary Place ByteArray
  directories : List Place
deriving Inhabited

namespace Files

def empty : Files := ⟨[], []⟩

def isFile (f : Files) (p : Place) : Bool := Dictionary.contains p f.contents

/-- Directories are those that are known from the start and those on the way to something. -/
def isDirectory (f : Files) (p : Place) : Bool :=
  p.isAbove || f.directories.contains p ||
    f.contents.any fun file => p.isPrefixOf file.1 && p.length < file.1.length

/-- What is found by walking from a directory. Every component but the last must lead to a
directory. -/
def walk (f : Files) (directory : Place) : List String → Except FileFault ByteArray
  | [] => .error .isADirectory
  | [c] =>
    let place := directory.step c
    match Dictionary.get? place f.contents with
    | some bytes => .ok bytes
    | none => if f.isDirectory place then .error .isADirectory else .error .missing
  | c :: rest =>
    let place := directory.step c
    if f.isDirectory place then walk f place rest
    else if f.isFile place then .error .notADirectory
    else .error .missing

/-- What is found at a path. -/
def find (f : Files) (p : Path) : Except FileFault ByteArray := f.walk p.start p.components

/-- Puts a file at the end of a path. -/
def write (f : Files) (p : Path) (bytes : ByteArray) : Files :=
  { f with contents := Dictionary.insert p.place bytes f.contents }

/-- Opens a file for writing at its end, creating it and the directories on the way to it. -/
def openAtEnd (f : Files) (p : Path) : Except FileFault Files :=
  let made : Files := { f with directories := f.directories ++ p.places.dropLast }
  if p.places.dropLast.any f.isFile then .error .notADirectory
  else if f.isDirectory p.place then .error .isADirectory
  else if f.isFile p.place then .ok made
  else .ok (made.write p ByteArray.empty)

/-- Appends a text to a file that is there. -/
def append (f : Files) (p : Path) (text : String) : Files :=
  match Dictionary.get? p.place f.contents with
  | some bytes => f.write p (bytes ++ text.toUTF8)
  | none => f

end Files

end ProcessGraph
