import ProcessGraph.Proofs.Graph.SharedElements
import ProcessGraph.Proofs.Text.Numerals

/-!
# Keys of elements

A text is the key of an index if it spells the index (`ElementKey.Spells`), and of a label
otherwise. A text spells a number if it is its numeral, where the digits behind the first may be of
any script and a line break at the end does not count; in ASCII without line breaks this is the
decimal numeral and nothing else (`ElementKey.spells_iff_of_ascii`). Texts that spell numbers with
more than 4300 digits are refused (`ElementKey.ofText_of_spells`). Two keys share a node if and only
if they denote the same element (`Workspace.elements_addressedByKeys`).
-/

set_option autoImplicit false

namespace ProcessGraph

namespace ElementKey

/-- The text spells the number: a numeral, with a line break at the end perhaps. -/
def Spells (s : String) (n : Nat) : Prop :=
  ∃ cs, (s.toList = cs ∨ s.toList = cs ++ ['\n']) ∧ Text.IsNumeral cs n

/-- The elements that numbers which are not negative and texts stand for. -/
inductive Denotes : Value → ElementKey → Prop where
  | number (n : Nat) : Denotes (.int n) (.index n)
  | numeral {s : String} {n : Nat} (h : Spells s n) : Denotes (.str s) (.index n)
  | text {s : String} (h : ∀ n, ¬ Spells s n) : Denotes (.str s) (.label s)

/-! ## Texts that spell numbers -/

section
variable {s : String} {n m : Nat}

theorem withoutLineBreak_of_isNumeral {cs : List Char} (h : Text.IsNumeral cs n)
    (hs : s.toList = cs ∨ s.toList = cs ++ ['\n']) : withoutLineBreak s.toList = cs := by
  unfold withoutLineBreak
  rcases hs with hs | hs
  · rw [hs, if_neg fun last => ?_]
    exact h.not_blank _ (List.mem_of_getLast? last) (by decide)
  · rw [hs, List.getLast?_concat, if_pos rfl, List.dropLast_concat]

theorem spells_iff_isNumeral : Spells s n ↔ Text.IsNumeral (withoutLineBreak s.toList) n := by
  constructor
  · rintro ⟨cs, hs, h⟩
    rwa [withoutLineBreak_of_isNumeral h hs]
  · refine fun h => ⟨_, ?_, h⟩
    unfold withoutLineBreak
    split
    · rename_i last
      obtain ⟨cs, hcs⟩ := List.getLast?_eq_some_iff.1 last
      rw [hcs, List.dropLast_concat]
      exact .inr rfl
    · exact .inl rfl

theorem Spells.unique (h : Spells s n) (h' : Spells s m) : n = m :=
  (spells_iff_isNumeral.1 h).unique (spells_iff_isNumeral.1 h')

theorem spells_toString (n : Nat) : Spells (toString n) n := ⟨_, .inl rfl, .refl n⟩

/-- In ASCII without line breaks, a number is spelled by its decimal numeral only. -/
theorem spells_iff_of_ascii (ascii : ∀ c ∈ s.toList, c.toNat < 128 ∧ c ≠ '\n') :
    Spells s n ↔ s = toString n := by
  constructor
  · rintro ⟨cs, rfl | hs, h⟩
    · exact String.toList_injective (h.eq_of_ascii fun c hc => (ascii c hc).1)
    · exact absurd rfl (ascii '\n' (hs ▸ List.mem_concat_self)).2
  · rintro rfl
    exact spells_toString n

theorem isIndex_iff : isIndex s ↔ ∃ n, Spells s n := by
  simp only [spells_iff_isNumeral]
  unfold isIndex
  constructor
  · intro h
    split at h
    · rename_i zero
      exact ⟨0, zero ▸ .refl 0⟩
    · rename_i c cs _ hcs
      simp only [Bool.and_eq_true, decide_eq_true_eq, List.all_eq_true] at h
      rw [hcs]
      exact Text.isNumeral_of_digits h.1.1 h.1.2 h.2
    · cases h
  · rintro ⟨n, h⟩
    rcases h.shape with zero | ⟨c, cs, hcs, one, nine, digits⟩
    · rw [zero]
      rfl
    · rw [hcs]
      split
      · rfl
      · rename_i same
        cases same
        simp only [Bool.and_eq_true, decide_eq_true_eq, List.all_eq_true]
        exact ⟨⟨one, nine⟩, digits⟩
      · rename_i none
        cases none

/-! ## Keys of texts -/

theorem ofText_of_spells (h : Spells s n) :
    ofText s = if (toString n).length ≤ Text.maxIntegerDigits then .ok (.index n)
      else .error .badText := by
  have index := isIndex_iff.2 ⟨n, h⟩
  obtain ⟨cs, hs, numeral⟩ := h
  unfold ofText
  rw [if_pos index, numeral.readInteger?_eq hs]
  by_cases small : (toString n).length ≤ Text.maxIntegerDigits
  · simp only [if_pos small, Int.toNat_natCast]
  · simp only [if_neg small]

theorem ofText_of_not_spells (h : ∀ n, ¬ Spells s n) : ofText s = .ok (.label s) := by
  unfold ofText
  rw [if_neg fun index => ?_]
  obtain ⟨n, hn⟩ := isIndex_iff.1 index
  exact h n hn

end

/-! ## What keys denote -/

section
variable {v : Value} {k k' : ElementKey}

theorem Denotes.unique (h : Denotes v k) (h' : Denotes v k') : k = k' := by
  cases h with
  | number => cases h'; rfl
  | numeral h =>
    cases h' with
    | numeral h' => rw [h.unique h']
    | text none => exact absurd h (none _)
  | text none =>
    cases h' with
    | numeral h' => exact absurd h' (none _)
    | text => rfl

theorem exists_denotes_text (s : String) : ∃ k, Denotes (.str s) k := by
  by_cases h : ∃ n, Spells s n
  · obtain ⟨n, h⟩ := h
    exact ⟨_, .numeral h⟩
  · exact ⟨_, .text (not_exists.1 h)⟩

theorem ofValue_natCast (name : Value → String) (n : Nat) :
    ofValue name (.int n) = .ok (.index n) := by
  unfold ofValue
  dsimp only
  rw [if_neg (Int.not_lt.2 (Int.natCast_nonneg n)), Int.toNat_natCast]

theorem ofValue_str (name : Value → String) (s : String) : ofValue name (.str s) = ofText s := rfl

/-- Where a key is read, it is what the value denotes. -/
theorem Denotes.eq_of_ofValue {name : Value → String} (h : Denotes v k)
    (read : ofValue name v = .ok k') : k = k' := by
  cases h with
  | number n =>
    rw [ofValue_natCast] at read
    exact Except.ok.inj read
  | numeral h =>
    rw [ofValue_str, ofText_of_spells h] at read
    split at read <;> cases read
    rfl
  | text none =>
    rw [ofValue_str, ofText_of_not_spells none] at read
    exact Except.ok.inj read

end

end ElementKey

namespace Workspace

variable {ws now : Workspace} {a : AccessRef}

/-! ## Accesses by key -/

/-- A node accesses one element. -/
theorem IsElement.key_eq {access : ArrayAccess} {k k' : ElementKey} {n : NodeRef}
    (h : ws.IsElement access k n) (h' : ws.IsElement access k' n) : k = k' := by
  have same := h.arguments.symm.trans h'.arguments
  cases k <;> cases k' <;> simp_all [ElementKey.argument, ElementKey.toValue]

theorem run_elementAt_ok {key : Value} {k : ElementKey}
    (read : ElementKey.ofValue ws.objectName key = .ok k) :
    (Build.elementAt a key).run ws = (Build.element a k).run ws := by
  unfold Build.elementAt
  rw [Build.run_get_bind, read]
  rfl

theorem run_elementAt_error {key : Value} {e : Failure}
    (refused : ElementKey.ofValue ws.objectName key = .error e) :
    (Build.elementAt a key).run ws = (.error e, ws) := by
  unfold Build.elementAt
  rw [Build.run_get_bind, refused]
  rfl

/-- The elements of a callback parameter and the keys that address them. -/
structure AddressedByKeys (ws : Workspace) (a : AccessRef) : Prop where
  /-- A number is the index itself. -/
  number : ∀ n : Nat, (Build.elementAt a (.int n)).run ws = (Build.element a (.index n)).run ws
  /-- A text that spells a number is an index, but too many digits are refused. -/
  numeral : ∀ s n, ElementKey.Spells s n → (Build.elementAt a (.str s)).run ws =
    if (toString n).length ≤ Text.maxIntegerDigits then (Build.element a (.index n)).run ws
    else (.error .badText, ws)
  /-- Every other text is the label itself. -/
  label : ∀ s, (∀ n, ¬ ElementKey.Spells s n) →
    (Build.elementAt a (.str s)).run ws = (Build.element a (.label s)).run ws
  /-- An ASCII text without line breaks spells a number if and only if it is its numeral. -/
  ascii : ∀ s n, (∀ c ∈ s.toList, c.toNat < 128 ∧ c ≠ '\n') →
    (ElementKey.Spells s n ↔ s = toString n)
  /-- Every text denotes one element. -/
  text : ∀ s, ∃! k, ElementKey.Denotes (.str s) k
  /-- The node that an access gives reads the element that the key denotes, and no other. -/
  addressed : ∀ {key : Value} {k : ElementKey} {n : NodeRef} {after : Workspace},
    ElementKey.Denotes key k → (Build.elementAt a key).run ws = (.ok n, after) →
    ∀ k', after.IsElement (after.access a) k' n ↔ k' = k
  /-- Two accesses, whatever is done between them, give one node if and only if their keys denote
  the same element. -/
  shared : ∀ {key key' : Value} {k k' : ElementKey} {n n' : NodeRef} {after later last : Workspace},
    ElementKey.Denotes key k → ElementKey.Denotes key' k' →
    (Build.elementAt a key).run ws = (.ok n, after) → after.Steps later →
    (Build.elementAt a key').run later = (.ok n', last) → (n = n' ↔ k = k')

section
variable (wf : ws.WellFormed) (ha : a.index < ws.accesses.size)
include wf ha

/-- What an access by a key gives: a node for the element that the key denotes, which is
remembered. -/
theorem elementAt_of_denotes {key : Value} {k : ElementKey} {n : NodeRef}
    (denotes : ElementKey.Denotes key k) (run : (Build.elementAt a key).run ws = (.ok n, now)) :
    now.IsElement (now.access a) k n ∧ Dictionary.get? k (now.access a).elements = some n := by
  obtain ⟨k', read, is, remembered⟩ := elementAt_eq_ok wf ha run
  rw [denotes.eq_of_ofValue read]
  exact ⟨is, remembered⟩

theorem appends_elementAt {key : Value} {result : Except Failure NodeRef}
    (run : (Build.elementAt a key).run ws = (result, now)) : ws.Appends now := by
  have op : ws.Operation ((Build.elementAt a key).run ws).2 := .element ha key
  rw [run] at op
  exact op.appends wf

theorem shared_iff {key key' : Value} {k k' : ElementKey} {n n' : NodeRef}
    {later last : Workspace} (denotes : ElementKey.Denotes key k)
    (denotes' : ElementKey.Denotes key' k') (run : (Build.elementAt a key).run ws = (.ok n, now))
    (steps : now.Steps later) (run' : (Build.elementAt a key').run later = (.ok n', last)) :
    n = n' ↔ k = k' := by
  have first := appends_elementAt wf ha run
  obtain ⟨made, history⟩ := steps.history first.wellFormed
  have between := history.appends first.wellFormed
  have ha₁ := Nat.lt_of_lt_of_le ha first.grows.accesses
  have ha₂ := Nat.lt_of_lt_of_le ha₁ between.grows.accesses
  have second := appends_elementAt between.wellFormed ha₂ run'
  have ha₃ := Nat.lt_of_lt_of_le ha₂ second.grows.accesses
  -- The node of the first access is still remembered after the second one.
  have remembered : Dictionary.get? k (last.access a).elements = some n := by
    have early := (elementAt_of_denotes wf ha denotes run).2
    have kept := history.keepsElements first.wellFormed a ha₁ k n early
    exact keepsElements_elementAt between.wellFormed ha₂ run' a ha₂ k n kept
  obtain ⟨is', remembered'⟩ := elementAt_of_denotes between.wellFormed ha₂ denotes' run'
  constructor
  · rintro rfl
    have is := (second.wellFormed.access a ha₃).elements k n (Dictionary.mem_of_get? remembered)
    exact is.key_eq is'
  · rintro rfl
    exact Option.some.inj (remembered.symm.trans remembered')

end

/-- In every workspace, keys address the elements that they denote, and keys that denote different
elements never share a node. -/
theorem elements_addressedByKeys (h : ws.Reachable) (ha : a.index < ws.accesses.size) :
    AddressedByKeys ws a where
  number n := run_elementAt_ok (ElementKey.ofValue_natCast _ n)
  numeral s n spells := by
    have read := ElementKey.ofText_of_spells spells
    split at read
    · rename_i small
      rw [if_pos small]
      exact run_elementAt_ok read
    · rename_i large
      rw [if_neg large]
      exact run_elementAt_error read
  label s none := run_elementAt_ok (ElementKey.ofText_of_not_spells none)
  ascii s n ascii := ElementKey.spells_iff_of_ascii ascii
  text s := by
    obtain ⟨k, hk⟩ := ElementKey.exists_denotes_text s
    exact ⟨k, hk, fun k' hk' => hk'.unique hk⟩
  addressed denotes run k' := by
    have is := (elementAt_of_denotes h.wellFormed ha denotes run).1
    refine ⟨fun is' => is'.key_eq is, ?_⟩
    rintro rfl
    exact is
  shared denotes denotes' run steps run' :=
    shared_iff h.wellFormed ha denotes denotes' run steps run'

/-- An element has been accessed by a numeral with a line break behind it. -/
def numeralAccessed : Workspace := ((Build.elementAt ⟨0⟩ (.str "1\n")).run elements).2

/-- Then another one has been accessed by digits behind a zero. -/
def labelAccessed : Workspace := ((Build.elementAt ⟨0⟩ (.str "01")).run numeralAccessed).2

/-- A line break behind the numeral does not count, but a zero in front of it does. -/
theorem elements_addressedByKeys_lineBreak :
    elements.Reachable ∧ (⟨0⟩ : AccessRef).index < elements.accesses.size ∧
    ElementKey.Denotes (.str "1\n") (.index 1) ∧ ElementKey.Denotes (.str "01") (.label "01") ∧
    ∃ n m, n ≠ m ∧
      (Build.elementAt ⟨0⟩ (.str "1\n")).run elements = (.ok n, numeralAccessed) ∧
      (Build.elementAt ⟨0⟩ (.str "01")).run numeralAccessed = (.ok m, labelAccessed) ∧
      ((Build.elementAt ⟨0⟩ (.int 1)).run labelAccessed).1 = .ok n := by
  have ha : (⟨0⟩ : AccessRef).index < elements.accesses.size := by decide +kernel
  have index : ElementKey.Denotes (.str "1\n") (.index 1) := .numeral ⟨['1'], .inr rfl, .refl 1⟩
  have label : ElementKey.Denotes (.str "01") (.label "01") :=
    .text fun n spells => absurd (ElementKey.isIndex_iff.2 ⟨n, spells⟩) (by decide +kernel)
  have keyed := elements_addressedByKeys reachable_elements ha
  obtain ⟨n, first⟩ : ∃ n, (Build.elementAt ⟨0⟩ (.str "1\n")).run elements =
      (.ok n, numeralAccessed) := Build.exists_of_isOk (by decide +kernel)
  obtain ⟨m, second⟩ : ∃ m, (Build.elementAt ⟨0⟩ (.str "01")).run numeralAccessed =
      (.ok m, labelAccessed) := Build.exists_of_isOk (by decide +kernel)
  obtain ⟨n', third⟩ : ∃ n', (Build.elementAt ⟨0⟩ (.int 1)).run labelAccessed = (.ok n', _) :=
    Build.exists_of_isOk (by decide +kernel)
  have steps : numeralAccessed.Steps labelAccessed :=
    .operation (.refl _) (.element (by decide +kernel) _)
  obtain rfl : n = n' := (keyed.shared index (.number 1) first steps third).2 rfl
  have different : n ≠ m := fun same =>
    nomatch (keyed.shared index label first (.refl _) second).1 same
  exact ⟨reachable_elements, ha, index, label, n, m, different, first, second, by rw [third]⟩

end Workspace

end ProcessGraph
