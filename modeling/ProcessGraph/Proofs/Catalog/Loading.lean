import ProcessGraph.Catalog.Loading
import ProcessGraph.Proofs.Json.OversizedIntegers

/-!
# How loading a catalog ends

A catalog is loaded from a file in some steps: the path is looked up, the bytes are read as text,
the text as JSON, and the document as a list of specifications. Most faults are reported as faults
of the catalog (`Failure.isCatalogFailure`), but three pass through: a null character in the path,
bytes that are no text, and an integer with too many digits.

Main statement: these three are all there are (`load_ends`). So a file with text in which digits are
not too many in a row is loaded, or a fault of the catalog is reported (`LoadsFrom.reported`).
-/

set_option autoImplicit false

namespace ProcessGraph

/-- Does the failure say that something is wrong with a catalog or its file? -/
def Failure.isCatalogFailure : Failure → Bool
  | notACatalog | emptyCatalog | notASpecification _ | specificationWithoutId
  | unreadableCatalog .. | malformedCatalog _ => true
  | _ => false

/-! ## Characters of paths -/

namespace Path

variable {c : Char}

theorem splitSlashes_ne_nil (cs : List Char) : splitSlashes cs ≠ [] := by
  unfold splitSlashes
  split
  · nofun
  · split
    · nofun
    · split <;> nofun

/-- A path and its parts have the same characters, slashes apart. -/
theorem mem_splitSlashes_iff (hc : c ≠ '/') (cs : List Char) :
    (∃ part ∈ splitSlashes cs, c ∈ part) ↔ c ∈ cs := by
  induction cs with
  | nil => simp [splitSlashes]
  | cons x cs ih =>
    unfold splitSlashes
    rw [List.mem_cons, ← ih]
    split
    · rename_i slash
      simp [slash, hc]
    · split
      · rename_i part parts whole
        simp [whole, or_assoc]
      · rename_i none
        exact absurd none (splitSlashes_ne_nil cs)

theorem mem_intercalate_iff (hc : c ≠ '/') (parts : List String) :
    c ∈ ("/".intercalate parts).toList ↔ ∃ part ∈ parts, c ∈ part.toList := by
  induction parts with
  | nil => simp
  | cons part parts ih =>
    by_cases last : parts = []
    · simp [last]
    · rw [String.intercalate_cons_of_ne_nil last, String.toList_append, List.mem_append, ih]
      simp [hc]

/-- The normal form of a path has the same characters, slashes and points apart. -/
theorem mem_toString_iff (slash : c ≠ '/') (point : c ≠ '.') (s : String) :
    c ∈ (ofString s).toString.toList ↔ c ∈ s.toList := by
  have parts : (∃ part ∈ (ofString s).components, c ∈ part.toList) ↔ c ∈ s.toList := by
    rw [← mem_splitSlashes_iff slash s.toList]
    constructor
    · rintro ⟨part, kept, mem⟩
      obtain ⟨chars, within, rfl⟩ := List.mem_map.1 (List.mem_filter.1 kept).1
      exact ⟨chars, within, by simpa using mem⟩
    · rintro ⟨chars, within, mem⟩
      have mem : c ∈ (String.ofList chars).toList := by simpa using mem
      -- A part that is left out has only points.
      have kept : String.ofList chars ≠ "" ∧ String.ofList chars ≠ "." := by
        constructor <;> intro left <;> rw [left] at mem <;> simp [point] at mem
      exact ⟨_, List.mem_filter.2 ⟨List.mem_map_of_mem within, by simpa using kept⟩, mem⟩
  have root : c ∉ (ofString s).root.toList := by
    unfold ofString
    dsimp only
    split
    · simp
    · split <;> simp [slash]
  rw [← parts]
  unfold toString
  split
  · rename_i empty
    simp [empty.2, point]
  · rw [String.toList_append, List.mem_append, or_iff_right root, mem_intercalate_iff slash]

end Path

/-! ## What comes of loading -/

namespace Catalog

variable {files : Files} {path : String}

theorem checkedId_fails {v : Value} {e : Failure} (h : checkedId v = .error e) :
    e.isCatalogFailure := by
  unfold checkedId at h
  split at h
  · split at h
    · split at h <;> cases h
      rfl
    · cases h
      rfl
  · cases h
    rfl

theorem addAll_fails {specs : List Value} {c : Catalog} {records : List Log.Record} {e : Failure}
    (h : (addAll specs c records).1 = .error e) : e.isCatalogFailure := by
  induction specs generalizing c records with
  | nil => cases h
  | cons spec specs ih =>
    unfold addAll at h
    split at h
    · exact ih h
    · rename_i refused
      cases h
      unfold add at refused
      cases checked : checkedId spec with
      | error e =>
        rw [checked] at refused
        cases refused
        exact checkedId_fails checked
      | ok r =>
        rw [checked] at refused
        cases refused

/-- If a value describes no catalog, something is wrong with the catalog. -/
theorem ofValue_fails {v : Value} {e : Failure} (h : (ofValue v).1 = .error e) :
    e.isCatalogFailure := by
  unfold ofValue at h
  split at h
  · exact addAll_fails h
  · rename_i refused
    cases h
    unfold specifications at refused
    split at refused
    · cases refused
    · cases refused
    · cases refused
    · split at refused <;> cases refused
      rfl
    · cases refused
      rfl

theorem fromUTF8?_eq_some {bytes : ByteArray} {text : String}
    (h : String.fromUTF8? bytes = some text) : bytes = text.toUTF8 := by
  unfold String.fromUTF8? at h
  split at h
  · cases h
    rfl
  · cases h

theorem fromUTF8?_eq_none_iff {bytes : ByteArray} :
    String.fromUTF8? bytes = none ↔ ¬ bytes.IsValidUTF8 := by
  unfold String.fromUTF8?
  split
  · rename_i valid
    exact ⟨nofun, fun invalid => absurd valid invalid⟩
  · rename_i invalid
    exact ⟨fun _ => invalid, fun _ => rfl⟩

theorem fromUTF8?_toUTF8 (text : String) : String.fromUTF8? text.toUTF8 = some text := by
  unfold String.fromUTF8?
  rw [String.toUTF8_eq_toByteArray, dif_pos text.isValidUTF8]
  rfl

/-- What is read from a file, or why nothing is: at each step the first fault counts. -/
inductive ReadFrom (files : Files) (path : String) : Except Failure Value → Prop where
  | nullCharacter (h : '\x00' ∈ path.toList) : ReadFrom files path (.error .badText)
  | unreadable {fault : FileFault} (plain : '\x00' ∉ path.toList)
      (found : files.find (.ofString path) = .error fault) :
      ReadFrom files path (.error (.unreadableCatalog (Path.ofString path).toString fault))
  | undecodable {bytes : ByteArray} (plain : '\x00' ∉ path.toList)
      (found : files.find (.ofString path) = .ok bytes) (invalid : ¬ bytes.IsValidUTF8) :
      ReadFrom files path (.error .undecodable)
  | malformed {text : String} (plain : '\x00' ∉ path.toList)
      (found : files.find (.ofString path) = .ok text.toUTF8)
      (refused : Json.read text = .error .malformed) :
      ReadFrom files path (.error (.malformedCatalog (Path.ofString path).toString))
  | oversized {text : String} (plain : '\x00' ∉ path.toList)
      (found : files.find (.ofString path) = .ok text.toUTF8)
      (refused : Json.read text = .error .oversizedInteger) :
      ReadFrom files path (.error .badText)
  | value {text : String} {v : Value} (plain : '\x00' ∉ path.toList)
      (found : files.find (.ofString path) = .ok text.toUTF8) (read : Json.read text = .ok v) :
      ReadFrom files path (.ok v)

section
variable (files : Files) (path : String)

theorem contains_nullCharacter : (Path.ofString path).toString.toList.contains '\x00' = true ↔
    '\x00' ∈ path.toList := by
  rw [List.contains_iff_mem, Path.mem_toString_iff (by decide) (by decide)]

theorem readFrom_document : ReadFrom files path (document files (.ofString path)) := by
  unfold document
  split
  · rename_i h
    exact .nullCharacter ((contains_nullCharacter path).1 h)
  · rename_i h
    have plain : '\x00' ∉ path.toList := fun h' => h ((contains_nullCharacter path).2 h')
    split
    · rename_i found
      exact .unreadable plain found
    · rename_i bytes found
      split
      · rename_i none
        exact .undecodable plain found (fromUTF8?_eq_none_iff.1 none)
      · rename_i text decoded
        rw [fromUTF8?_eq_some decoded] at found
        split
        · rename_i read
          exact .value plain found read
        · rename_i refused
          exact .malformed plain found refused
        · rename_i refused
          exact .oversized plain found refused

end

theorem ReadFrom.document_eq {r : Except Failure Value} (h : ReadFrom files path r) :
    document files (.ofString path) = r := by
  unfold document
  cases h with
  | nullCharacter h => rw [if_pos ((contains_nullCharacter path).2 h)]
  | unreadable plain found => rw [if_neg (mt (contains_nullCharacter path).1 plain), found]
  | undecodable plain found invalid =>
    rw [if_neg (mt (contains_nullCharacter path).1 plain), found]
    dsimp only
    rw [fromUTF8?_eq_none_iff.2 invalid]
  | malformed plain found refused | oversized plain found refused | value plain found refused =>
    rw [if_neg (mt (contains_nullCharacter path).1 plain), found]
    dsimp only
    rw [fromUTF8?_toUTF8]
    dsimp only
    rw [refused]

/-- What is wrong with the document is wrong with the file. -/
theorem load_fst (files : Files) (path : String) :
    (load files path).1 = document files (.ofString path) >>= fun v => (ofValue v).1 := by
  unfold load
  dsimp only
  cases document files (.ofString path) with
  | error e => rfl
  | ok v =>
    dsimp only
    split
    · rename_i described
      exact (congrArg Prod.fst described).symm
    · rfl

/-! ## Main statement -/

/-- How loading a catalog ends. -/
structure LoadsFrom (files : Files) (path : String) : Prop where
  /-- A catalog that is loaded is what the document in the file describes. -/
  loaded_iff {c : Catalog} : (load files path).1 = .ok c ↔ '\x00' ∉ path.toList ∧
    ∃ text v, files.find (.ofString path) = .ok text.toUTF8 ∧ Json.read text = .ok v ∧
      (ofValue v).1 = .ok c
  /-- There are two failures that are none of the catalog. -/
  failed {e : Failure} (h : (load files path).1 = .error e) :
    e.isCatalogFailure ∨ e = .undecodable ∨ e = .badText
  undecodable_iff : (load files path).1 = .error .undecodable ↔ '\x00' ∉ path.toList ∧
    ∃ bytes, files.find (.ofString path) = .ok bytes ∧ ¬ bytes.IsValidUTF8
  badText_iff : (load files path).1 = .error .badText ↔ '\x00' ∈ path.toList ∨
    ∃ text, files.find (.ofString path) = .ok text.toUTF8 ∧
      Json.read text = .error .oversizedInteger
  /-- If the path is a text without null character, and the file holds text in which there are not
  too many digits in a row, there are no other failures than those of the catalog. Left out are the
  recursion limit of the interpreter, which documents with deeply nested values exceed, and paths
  with characters that the file system cannot encode. -/
  reported (plain : '\x00' ∉ path.toList)
    (text : ∀ bytes, files.find (.ofString path) = .ok bytes →
      ∃ text : String, bytes = text.toUTF8 ∧ ¬ Json.HasLongNumeral text.toList) :
    (∃ c, (load files path).1 = .ok c) ∨ ∃ e, (load files path).1 = .error e ∧ e.isCatalogFailure

section
variable {e : Failure}

theorem load_eq_of_error (h : ReadFrom files path (.error e)) : (load files path).1 = .error e := by
  rw [load_fst, h.document_eq]
  rfl

theorem load_eq_of_value {v : Value} (h : ReadFrom files path (.ok v)) :
    (load files path).1 = (ofValue v).1 := by
  rw [load_fst, h.document_eq]
  rfl

/-- Why loading fails: nothing can be read, or something is wrong with the catalog. -/
theorem readFrom_of_load_eq_error (h : (load files path).1 = .error e) :
    ReadFrom files path (.error e) ∨ e.isCatalogFailure := by
  have step := readFrom_document files path
  rw [load_fst] at h
  cases read : document files (.ofString path) with
  | error e' =>
    rw [read] at h step
    cases h
    exact .inl step
  | ok v =>
    rw [read] at h
    exact .inr (ofValue_fails h)

theorem load_eq_undecodable_iff : (load files path).1 = .error .undecodable ↔
    '\x00' ∉ path.toList ∧
      ∃ bytes, files.find (.ofString path) = .ok bytes ∧ ¬ bytes.IsValidUTF8 := by
  constructor
  · intro h
    rcases readFrom_of_load_eq_error h with step | step <;> cases step
    rename_i bytes plain found invalid
    exact ⟨plain, bytes, found, invalid⟩
  · rintro ⟨plain, bytes, found, invalid⟩
    exact load_eq_of_error (.undecodable plain found invalid)

theorem load_eq_badText_iff : (load files path).1 = .error .badText ↔ '\x00' ∈ path.toList ∨
    ∃ text, files.find (.ofString path) = .ok text.toUTF8 ∧
      Json.read text = .error .oversizedInteger := by
  constructor
  · intro h
    rcases readFrom_of_load_eq_error h with step | step <;> cases step
    · rename_i h
      exact .inl h
    · rename_i text plain found refused
      exact .inr ⟨text, found, refused⟩
  · intro h
    by_cases plain : '\x00' ∈ path.toList
    · exact load_eq_of_error (.nullCharacter plain)
    · obtain ⟨text, found, refused⟩ := h.resolve_left plain
      exact load_eq_of_error (.oversized plain found refused)

theorem load_eq_ok_iff {c : Catalog} : (load files path).1 = .ok c ↔ '\x00' ∉ path.toList ∧
    ∃ text v, files.find (.ofString path) = .ok text.toUTF8 ∧ Json.read text = .ok v ∧
      (ofValue v).1 = .ok c := by
  constructor
  · intro h
    have step := readFrom_document files path
    rw [load_fst] at h
    cases read : document files (.ofString path) with
    | error e =>
      rw [read] at h
      cases h
    | ok v =>
      rw [read] at h step
      cases step with
      | value plain found read => exact ⟨plain, _, v, found, read, h⟩
  · rintro ⟨plain, text, v, found, read, described⟩
    exact (load_eq_of_value (.value plain found read)).trans described

end

/-- **Loading a catalog gives a catalog or reports a fault of the catalog**, or one of the faults
that pass through. -/
theorem load_ends (files : Files) (path : String) : LoadsFrom files path where
  loaded_iff := load_eq_ok_iff
  failed h := by
    rcases readFrom_of_load_eq_error h with step | fault
    · cases step with
      | nullCharacter | oversized => exact .inr (.inr rfl)
      | undecodable => exact .inr (.inl rfl)
      | unreadable | malformed => exact .inl rfl
    · exact .inl fault
  undecodable_iff := load_eq_undecodable_iff
  badText_iff := load_eq_badText_iff
  reported plain text := by
    cases ends : (load files path).1 with
    | ok c => exact .inl ⟨c, rfl⟩
    | error e =>
      refine .inr ⟨e, rfl, ?_⟩
      rcases readFrom_of_load_eq_error ends with step | fault
      · cases step with
        | nullCharacter h => exact absurd h plain
        | undecodable _ found invalid =>
          obtain ⟨text, rfl, -⟩ := text _ found
          exact absurd text.isValidUTF8 invalid
        | oversized _ found refused =>
          obtain ⟨text, same, short⟩ := text _ found
          obtain rfl := String.toByteArray_inj.1 same
          exact absurd (Json.read_oversized refused) short
        | unreadable | malformed => rfl
      · exact fault

/-- A byte that begins a character is followed by a quote: this is no text. -/
example : (load ⟨[(["bin.json"], ⟨#[0x5b, 0x22, 0xc3, 0x22, 0x5d]⟩)], []⟩ "bin.json").1 =
    .error .undecodable := by rfl

end Catalog

end ProcessGraph
