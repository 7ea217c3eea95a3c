import ProcessGraph.Text.Integer

/-!
# Numerals

The decimal numeral of a number is its digits without leading zeros, `toString n`. Characters are
taken for this numeral if the first one is the same and the others are its digits in any script
(`IsNumeral`). They are numerals of one number only (`IsNumeral.unique`), and what is read from them
is this number, unless it has too many digits (`IsNumeral.readInteger?`). A zero alone and digits
that start with an ASCII digit from one to nine are all the numerals there are (`isNumeral_zero`,
`isNumeral_of_digits`, `IsNumeral.shape`).
-/

set_option autoImplicit false

namespace ProcessGraph.Text

/-! ## Digits -/

/-- A digit stands less than ten places behind the zero of its script. -/
theorem exists_zero_of_digit {c : Char} {d : Nat} (h : decimalDigit? c = some d) :
    ∃ z ∈ digitZeros, c.toNat = z + d ∧ d < 10 := by
  unfold decimalDigit? at h
  obtain ⟨z, found, rfl⟩ := Option.map_eq_some_iff.1 h
  have place := List.find?_some found
  simp only [Bool.and_eq_true, decide_eq_true_eq] at place
  exact ⟨z, List.mem_of_find?_eq_some found, by omega, by omega⟩

theorem decimalDigit?_lt {c : Char} {d : Nat} (h : decimalDigit? c = some d) : d < 10 := by
  obtain ⟨-, -, -, lt⟩ := exists_zero_of_digit h
  exact lt

theorem decimalDigit?_digitChar {d : Nat} (h : d < 10) :
    decimalDigit? (Nat.digitChar d) = some d := by
  have all : ∀ d < 10, decimalDigit? (Nat.digitChar d) = some d := by decide +kernel
  exact all d h

theorem eq_digitChar {c : Char} {d : Nat} (place : c.toNat = 48 + d) (lt : d < 10) :
    c = Nat.digitChar d := by
  rw [← Char.toNat_inj, Nat.toNat_digitChar_of_lt_ten lt, place]

/-- Of the ASCII characters, those of `Nat.digitChar` are the digits. -/
theorem eq_digitChar_of_ascii {c : Char} {d : Nat} (ascii : c.toNat < 128)
    (h : decimalDigit? c = some d) : c = Nat.digitChar d := by
  have zero : ∀ z ∈ digitZeros, z < 128 → z = 48 := by decide +kernel
  obtain ⟨z, mem, place, lt⟩ := exists_zero_of_digit h
  obtain rfl := zero z mem (by omega)
  exact eq_digitChar place lt

/-- Of the ASCII texts, one has given digits. -/
theorem eq_map_digitChar {cs : List Char} {ds : List Nat} (ascii : ∀ c ∈ cs, c.toNat < 128)
    (h : cs.map decimalDigit? = ds.map some) : cs = ds.map Nat.digitChar := by
  induction cs generalizing ds with
  | nil =>
    obtain rfl : ds = [] := by simpa using h.symm
    rfl
  | cons c cs ih =>
    obtain _ | ⟨d, ds⟩ := ds
    · cases h
    simp only [List.map_cons, List.cons.injEq] at h
    obtain ⟨first, ascii⟩ := List.forall_mem_cons.1 ascii
    rw [List.map_cons, ← eq_digitChar_of_ascii first h.1, ← ih ascii h.2]

theorem lt_of_isDigit {c : Char} (h : c.isDigit) : c.toNat < 128 :=
  Nat.lt_of_le_of_lt (Char.isDigit_iff_toNat.1 h).2 (by decide)

/-- The value of an ASCII digit is its distance from the zero. -/
theorem decimalDigit?_of_isDigit {c : Char} (ascii : c.isDigit) :
    decimalDigit? c = some (c.toNat - '0'.toNat) := by
  have place : 48 ≤ c.toNat ∧ c.toNat ≤ 57 := Char.isDigit_iff_toNat.1 ascii
  have lt : c.toNat - 48 < 10 := by omega
  rw [eq_digitChar (Nat.add_sub_cancel' place.1).symm lt, decimalDigit?_digitChar lt,
    Nat.toNat_digitChar_of_lt_ten lt]
  exact congrArg some (Nat.add_sub_cancel_left 48 _).symm

theorem not_blank_of_digit {c : Char} {d : Nat} (h : decimalDigit? c = some d) : ¬ isBlank c := by
  have apart : ∀ b ∈ blanks, ∀ z ∈ digitZeros, b < z ∨ z + 10 ≤ b := by decide +kernel
  obtain ⟨z, mem, place, lt⟩ := exists_zero_of_digit h
  intro blank
  have := apart c.toNat (List.contains_iff_mem.1 blank) z mem
  omega

/-- The digit values of a text of digits. -/
theorem digitValues?_eq {cs : List Char} {ds : List Nat} (some : cs ≠ [])
    (h : cs.map decimalDigit? = ds.map Option.some) : digitValues? cs = Option.some ds := by
  have underscore : decimalDigit? '_' = none := by decide +kernel
  induction cs generalizing ds with
  | nil => exact absurd rfl some
  | cons c cs ih =>
    obtain _ | ⟨d, ds⟩ := ds
    · cases h
    simp only [List.map_cons, List.cons.injEq] at h
    obtain ⟨first, rest⟩ := h
    cases cs with
    | nil =>
      obtain rfl : ds = [] := by simpa using rest.symm
      simp [digitValues?, first]
    | cons c' cs =>
      have later := ih (List.cons_ne_nil c' cs) rest
      have ne : c' ≠ '_' := by
        rintro rfl
        cases ds <;> simp [underscore] at rest
      rw [digitValues?]
      · simp [first, later]
      · exact List.cons_ne_nil c' cs
      · exact fun cs' e => ne (List.cons.inj e).1

/-- What stands in front of characters of the class, without any itself, is what is kept. -/
theorem trimBoth_append {p : Char → Bool} {cs after : List Char} (some : cs ≠ [])
    (inner : ∀ c ∈ cs, ¬ p c) (outer : ∀ c ∈ after, p c) : trimBoth p (cs ++ after) = cs := by
  have front : (cs ++ after).dropWhile p = cs ++ after := by
    obtain ⟨c, cs, rfl⟩ := List.exists_cons_of_ne_nil some
    exact List.dropWhile_cons_of_neg (inner c List.mem_cons_self)
  have back : cs.reverse.dropWhile p = cs.reverse := by
    obtain ⟨c, rest, h⟩ := List.exists_cons_of_ne_nil (List.reverse_ne_nil_iff.2 some)
    rw [h]
    exact List.dropWhile_cons_of_neg (inner c (List.mem_reverse.1 (h ▸ List.mem_cons_self)))
  unfold trimBoth
  rw [front, List.reverse_append,
    List.dropWhile_append_of_pos fun c hc => outer c (List.mem_reverse.1 hc), back,
    List.reverse_reverse]

/-! ## Numerals -/

theorem toList_toString (n : Nat) : (toString n).toList = Nat.toDigits 10 n := by simp

theorem isDigit_of_mem_toDigits (n : Nat) : ∀ c ∈ Nat.toDigits 10 n, c.isDigit :=
  fun _ hc => Nat.isDigit_of_mem_toDigits (by decide) (by decide) hc

/-- Digits behind a positive number. -/
theorem toDigits_foldl {ds : List Nat} (small : ∀ d ∈ ds, d < 10) {n : Nat} (hn : 0 < n) :
    Nat.toDigits 10 (ds.foldl (fun n d => 10 * n + d) n) =
      Nat.toDigits 10 n ++ ds.map Nat.digitChar := by
  induction ds generalizing n with
  | nil => simp
  | cons d ds ih =>
    obtain ⟨hd, small⟩ := List.forall_mem_cons.1 small
    rw [List.foldl_cons, ih small (by omega), ← Nat.toDigits_append_toDigits (by decide) hn hd,
      Nat.toDigits_of_lt_base hd, List.append_assoc, List.map_cons, List.singleton_append]

/-- Digits that do not start with a zero are the numeral of their number. -/
theorem toDigits_ofDigitValues {d : Nat} {ds : List Nat} (hd : 0 < d)
    (small : ∀ x ∈ d :: ds, x < 10) :
    Nat.toDigits 10 (ofDigitValues (d :: ds)) = (d :: ds).map Nat.digitChar := by
  obtain ⟨lt, small⟩ := List.forall_mem_cons.1 small
  have start : ofDigitValues (d :: ds) = ds.foldl (fun n d => 10 * n + d) d := by
    simp [ofDigitValues]
  rw [start, toDigits_foldl small hd, Nat.toDigits_of_lt_base lt, List.map_cons,
    List.singleton_append]

/-- Digits behind a number are read as their ASCII digits are. -/
theorem foldl_eq_ofDigitChars {cs : List Char} (ascii : ∀ c ∈ cs, c.isDigit) {ds : List Nat}
    (h : cs.map decimalDigit? = ds.map some) (n : Nat) :
    ds.foldl (fun n d => 10 * n + d) n = Nat.ofDigitChars 10 cs n := by
  induction cs generalizing ds n with
  | nil =>
    obtain rfl : ds = [] := by simpa using h.symm
    rfl
  | cons c cs ih =>
    obtain _ | ⟨d, ds⟩ := ds
    · cases h
    simp only [List.map_cons, List.cons.injEq] at h
    obtain ⟨first, ascii⟩ := List.forall_mem_cons.1 ascii
    have value : d = c.toNat - '0'.toNat :=
      Option.some.inj (h.1.symm.trans (decimalDigit?_of_isDigit first))
    rw [List.foldl_cons, Nat.ofDigitChars_cons, ih ascii h.2, value]

/-- The number is read from its numeral. -/
theorem ofDigitValues_eq {n : Nat} {ds : List Nat}
    (h : (toString n).toList.map decimalDigit? = ds.map some) : ofDigitValues ds = n := by
  rw [toList_toString] at h
  rw [ofDigitValues, foldl_eq_ofDigitChars (isDigit_of_mem_toDigits n) h,
    Nat.ofDigitChars_toDigits (by decide) (by decide)]

/-- The numeral of a positive number does not start with a zero. -/
theorem head?_toDigits {n : Nat} (hn : 0 < n) :
    ∃ d, 0 < d ∧ d < 10 ∧ (Nat.toDigits 10 n).head? = some (Nat.digitChar d) := by
  induction n using Nat.strongRecOn with
  | ind n ih =>
    by_cases lt : n < 10
    · exact ⟨n, hn, lt, by rw [Nat.toDigits_of_lt_base lt, List.head?_cons]⟩
    · obtain ⟨d, pos, small, head⟩ := ih (n / 10) (by omega) (by omega)
      refine ⟨d, pos, small, ?_⟩
      rw [Nat.toDigits_of_base_le (by decide) (by omega), List.head?_append, head, Option.some_or]

/-! ## Characters that are taken for a numeral -/

/-- The characters are the numeral of the number, with digits of any script behind the first. -/
structure IsNumeral (cs : List Char) (n : Nat) : Prop where
  head : cs.head? = (toString n).toList.head?
  digits : cs.map decimalDigit? = (toString n).toList.map decimalDigit?

namespace IsNumeral

variable {cs : List Char} {n m : Nat}

theorem refl (n : Nat) : IsNumeral (toString n).toList n := ⟨rfl, rfl⟩

theorem ne_nil (h : IsNumeral cs n) : cs ≠ [] := by
  rintro rfl
  have none := h.head.symm
  rw [toList_toString, List.head?_nil, List.head?_eq_none_iff] at none
  exact Nat.toDigits_ne_nil none

theorem length (h : IsNumeral cs n) : cs.length = (toString n).length := by
  have same := congrArg List.length h.digits
  rwa [List.length_map, List.length_map, String.length_toList] at same

/-- The digits' values. -/
theorem values (h : IsNumeral cs n) :
    ∃ ds, cs.map decimalDigit? = ds.map some ∧ ofDigitValues ds = n := by
  have own : (toString n).toList.map decimalDigit? =
      ((toString n).toList.map fun c => c.toNat - '0'.toNat).map some := by
    rw [List.map_map, toList_toString]
    exact List.map_congr_left fun c hc => decimalDigit?_of_isDigit (isDigit_of_mem_toDigits n c hc)
  exact ⟨_, h.digits.trans own, ofDigitValues_eq own⟩

theorem unique (h : IsNumeral cs n) (h' : IsNumeral cs m) : n = m := by
  obtain ⟨ds, hds, rfl⟩ := h.values
  exact ofDigitValues_eq (h'.digits.symm.trans hds)

theorem not_blank (h : IsNumeral cs n) : ∀ c ∈ cs, ¬ isBlank c := by
  obtain ⟨ds, hds, -⟩ := h.values
  intro c hc
  have mem : decimalDigit? c ∈ ds.map some := hds ▸ List.mem_map_of_mem hc
  obtain ⟨d, -, hd⟩ := List.mem_map.1 mem
  exact not_blank_of_digit hd.symm

/-- In ASCII a number has no other numeral than its own. -/
theorem eq_of_ascii (h : IsNumeral cs n) (ascii : ∀ c ∈ cs, c.toNat < 128) :
    cs = (toString n).toList := by
  obtain ⟨ds, hds, -⟩ := h.values
  have own : ∀ c ∈ (toString n).toList, c.toNat < 128 := fun c hc => by
    rw [toList_toString] at hc
    exact lt_of_isDigit (isDigit_of_mem_toDigits n c hc)
  rw [eq_map_digitChar ascii hds, eq_map_digitChar own (h.digits.symm.trans hds)]

/-- A numeral is a zero, or a digit from one to nine and digits behind it. -/
theorem shape (h : IsNumeral cs n) :
    cs = ['0'] ∨ ∃ d ds, cs = d :: ds ∧ '1' ≤ d ∧ d ≤ '9' ∧
      ∀ c ∈ ds, (decimalDigit? c).isSome := by
  have digitChars : ∀ d < 10, 0 < d → '1' ≤ Nat.digitChar d ∧ Nat.digitChar d ≤ '9' := by decide
  obtain ⟨ds, hds, -⟩ := h.values
  obtain ⟨c, cs, rfl⟩ := List.exists_cons_of_ne_nil h.ne_nil
  have head := h.head
  rw [toList_toString, List.head?_cons] at head
  rcases Nat.eq_zero_or_pos n with rfl | pos
  · left
    have one := h.length
    rw [Nat.toDigits_zero] at head
    cases head
    rw [List.eq_nil_of_length_eq_zero (Nat.succ.inj one)]
  · right
    obtain ⟨d, hd, lt, first⟩ := head?_toDigits pos
    rw [first] at head
    cases head
    refine ⟨_, cs, rfl, (digitChars d lt hd).1, (digitChars d lt hd).2, fun c hc => ?_⟩
    have mem : decimalDigit? c ∈ ds.map some :=
      hds ▸ List.mem_map_of_mem (List.mem_cons_of_mem _ hc)
    obtain ⟨v, -, hv⟩ := List.mem_map.1 mem
    rw [← hv]
    rfl

/-- What is read from a numeral. -/
theorem readNatural?_eq (h : IsNumeral cs n) :
    readNatural? cs = if (toString n).length ≤ maxIntegerDigits then some n else none := by
  obtain ⟨ds, hds, value⟩ := h.values
  have size : ds.length = (toString n).length := by
    rw [← h.length, ← List.length_map decimalDigit?, hds, List.length_map]
  unfold readNatural?
  rw [digitValues?_eq h.ne_nil hds]
  show (if ds.length ≤ maxIntegerDigits then some (ofDigitValues ds) else none) = _
  rw [value, size]

/-- A line break behind the numeral is dropped. -/
theorem readInteger?_eq (h : IsNumeral cs n) {s : String}
    (hs : s.toList = cs ∨ s.toList = cs ++ ['\n']) :
    readInteger? s = if (toString n).length ≤ maxIntegerDigits then some (n : Int) else none := by
  have trimmed : trimBoth (fun c => isBlank c && !isRecordSeparator c) s.toList = cs := by
    have inner : ∀ c ∈ cs, ¬ (isBlank c && !isRecordSeparator c) := fun c hc blank =>
      h.not_blank c hc (Bool.and_eq_true_iff.1 blank).1
    rcases hs with hs | hs <;> rw [hs]
    · have kept := trimBoth_append h.ne_nil inner (List.forall_mem_nil _)
      rwa [List.append_nil] at kept
    · exact trimBoth_append h.ne_nil inner (List.forall_mem_singleton.2 (by decide))
  have minus : decimalDigit? '-' = none := by decide +kernel
  have plus : decimalDigit? '+' = none := by decide +kernel
  obtain ⟨ds, hds, -⟩ := h.values
  have read : readInteger? s = (readNatural? cs).map fun n => (n : Int) := by
    unfold readInteger?
    rw [trimmed]
    split
    · cases ds <;> simp [minus] at hds
    · cases ds <;> simp [plus] at hds
    · rfl
  rw [read, h.readNatural?_eq]
  split <;> rfl

end IsNumeral

/-- Digits that start with an ASCII digit from one to nine are a numeral. -/
theorem isNumeral_of_digits {c : Char} {cs : List Char} (one : '1' ≤ c) (nine : c ≤ '9')
    (all : ∀ x ∈ cs, (decimalDigit? x).isSome) : ∃ n, IsNumeral (c :: cs) n := by
  obtain ⟨ds, hds⟩ : ∃ ds, cs.map decimalDigit? = List.map some ds := by
    induction cs with
    | nil => exact ⟨[], rfl⟩
    | cons x cs ih =>
      obtain ⟨isDigit, all⟩ := List.forall_mem_cons.1 all
      obtain ⟨d, hd⟩ := Option.isSome_iff_exists.1 isDigit
      obtain ⟨ds, hds⟩ := ih all
      exact ⟨d :: ds, by rw [List.map_cons, List.map_cons, hd, hds]⟩
  have ascii : 49 ≤ c.toNat ∧ c.toNat ≤ 57 := ⟨one, nine⟩
  have first : decimalDigit? c = some (c.toNat - 48) :=
    decimalDigit?_of_isDigit (Char.isDigit_iff_toNat.2 ⟨Nat.le_of_succ_le one, nine⟩)
  have values : (c :: cs).map decimalDigit? = ((c.toNat - 48) :: ds).map some := by
    rw [List.map_cons, List.map_cons, first, hds]
  have small : ∀ d ∈ (c.toNat - 48) :: ds, d < 10 := by
    intro d hd
    have mem : some d ∈ (c :: cs).map decimalDigit? := values ▸ List.mem_map_of_mem hd
    obtain ⟨x, -, hx⟩ := List.mem_map.1 mem
    exact decimalDigit?_lt hx
  have pos : 0 < c.toNat - 48 := by omega
  have numeral := toDigits_ofDigitValues pos small
  refine ⟨ofDigitValues ((c.toNat - 48) :: ds), ?_, ?_⟩
  · rw [toList_toString, numeral, List.map_cons, List.head?_cons, List.head?_cons,
      ← eq_digitChar_of_ascii (by omega) first]
  · rw [toList_toString, numeral, values, List.map_map]
    exact List.map_congr_left fun d hd => (decimalDigit?_digitChar (small d hd)).symm

/-! ## Parts of numerals -/

/-- The first digits of the numeral of a positive number are the numeral of one, too. -/
theorem exists_numeral_of_append {cs ds : List Char} {n : Nat} (hn : 0 < n) (some : cs ≠ [])
    (h : (toString n).toList = cs ++ ds) : ∃ k, 0 < k ∧ cs = (toString k).toList := by
  have all : ∀ c ∈ cs ++ ds, c.isDigit := by
    rw [← h, toList_toString]
    exact isDigit_of_mem_toDigits n
  obtain ⟨c, cs, rfl⟩ := List.exists_cons_of_ne_nil some
  have first : '1' ≤ c ∧ c ≤ '9' := by
    have digitChars : ∀ d < 10, 0 < d → '1' ≤ Nat.digitChar d ∧ Nat.digitChar d ≤ '9' := by decide
    obtain ⟨d, hd, lt, head⟩ := head?_toDigits hn
    rw [← toList_toString, h] at head
    cases head
    exact digitChars d lt hd
  obtain ⟨k, numeral⟩ := isNumeral_of_digits first.1 first.2 fun x hx => by
    rw [decimalDigit?_of_isDigit (all x (List.mem_append_left _ (List.mem_cons_of_mem _ hx)))]
    rfl
  have ascii : ∀ x ∈ c :: cs, x.toNat < 128 := fun x hx =>
    lt_of_isDigit (all x (List.mem_append_left _ hx))
  refine ⟨k, Nat.pos_of_ne_zero fun zero => ?_, numeral.eq_of_ascii ascii⟩
  have head := numeral.head
  rw [zero] at head
  cases head
  exact absurd first.1 (by decide)

/-- A numeral behind that of a positive number is the numeral of a number that is no smaller. -/
theorem exists_numeral_append {k : Nat} (hk : 0 < k) (n : Nat) :
    ∃ v, n ≤ v ∧ (toString v).toList = (toString k).toList ++ (toString n).toList := by
  simp only [toList_toString]
  induction n using Nat.strongRecOn with
  | ind n ih =>
    by_cases lt : n < 10
    · exact ⟨10 * k + n, by omega, (Nat.toDigits_append_toDigits (by decide) hk lt).symm⟩
    · obtain ⟨v, le, digits⟩ := ih (n / 10) (by omega)
      have last : n % 10 < 10 := Nat.mod_lt n (by decide)
      refine ⟨10 * v + n % 10, by omega, ?_⟩
      rw [← Nat.toDigits_append_toDigits (by decide) (by omega) last, digits, List.append_assoc,
        Nat.toDigits_append_toDigits (by decide) (by omega) last, Nat.div_add_mod]

end ProcessGraph.Text
