import MeteredWasm.CommandLine.Command
import MeteredWasm.Proofs.Names

/-!
# Names and numbers on the command line

The command line turns a number into the name that it packs, and the text of a name back into the
number; which of the two is asked for, it tells from the word it is given. A word made of digits is a
number, and some names are made of digits.

* `CommandLine.IsNumeral`, `CommandLine.word64?_decimal`: decimal numbers and how they are read;
* `CommandLine.run_name`: the program on a word that is no option;
* `CommandLine.convert_both_ways`: the names that are turned back into their number.
-/

namespace MeteredWasm

/-! ## §1 Characters of names -/

namespace Name

theorem symbol_mem : ∀ d < 32, symbol d ∈ alphabet := by
  decide +kernel

/-- The text of a name is the front of its symbols. -/
theorem toList_text_prefix (n : Name) : n.text.toList <+: n.places.map symbol := by
  have htext : n.text = String.ofList ((n.places.map symbol).rdropWhile (· == '.')) := rfl
  rw [htext, String.toList_ofList]
  exact List.rdropWhile_prefix _ _

theorem mem_alphabet_of_mem_text {n : Name} {c : Char} (h : c ∈ n.text.toList) : c ∈ alphabet := by
  obtain ⟨d, hd, rfl⟩ := List.mem_map.mp (n.toList_text_prefix.subset h)
  exact symbol_mem d ((fits_places n).digit_lt d hd)

theorem length_text_le (n : Name) : n.text.toList.length ≤ 13 := by
  have h := n.toList_text_prefix.length_le
  rwa [List.length_map, (fits_places n).length_eq] at h

/-- A number with fewer digits than there is room for starts with a zero. -/
theorem digits_of_lt {count n : Nat} (h : n < 32 ^ count) :
    digits (count + 1) n = 0 :: digits count n := by
  induction count generalizing n with
  | zero =>
    obtain rfl : n = 0 := by simpa using h
    rfl
  | succ count ih =>
    -- the last digit is set apart, the zero in front is that of the others
    have hfront : n / 32 < 32 ^ count := Nat.div_lt_of_lt_mul (by rwa [Nat.pow_succ'] at h)
    rw [digits, ih hfront, List.cons_append]
    rfl

/-- The text of a small number starts with a dot, if it is not empty. -/
theorem head?_text_of_lt {n : Name} {c : Char} (h : n.value.toNat < 2 ^ 59)
    (hc : n.text.toList.head? = some c) : c = '.' := by
  have hplaces : n.places = 0 :: (digits 11 (n.value.toNat / 16) ++ [n.value.toNat % 16]) := by
    rw [places, digits_of_lt (by omega), List.cons_append]
  have hprefix := n.toList_text_prefix
  rw [hplaces, List.map_cons] at hprefix
  cases htext : n.text.toList with
  | nil =>
    rw [htext] at hc
    cases hc
  | cons first rest =>
    rw [htext] at hc hprefix
    cases hc
    exact (List.cons_prefix_cons.mp hprefix).1

end Name

/-! ## §2 Decimal numbers -/

namespace CommandLine

open Name (alphabet)

/-- Some digits, and nothing else. -/
def IsNumeral (text : List Char) : Prop :=
  text ≠ [] ∧ ∀ c ∈ text, c.isDigit = true

theorem refused_iff (text : List Char) :
    (text.isEmpty || !text.all Char.isDigit) = true ↔ ¬IsNumeral text := by
  unfold IsNumeral
  rw [Bool.or_eq_true, List.isEmpty_iff, Bool.not_eq_true', ← Bool.not_eq_true, List.all_eq_true,
    not_and_or, not_not]

theorem IsNumeral.digits?_eq {text : List Char} (h : IsNumeral text) :
    digits? text = some (Nat.ofDigitChars 10 text 0) := by
  have hvalue : text.foldl (fun n c => n * 10 + (c.toNat - '0'.toNat)) 0 =
      Nat.ofDigitChars 10 text 0 := by
    unfold Nat.ofDigitChars
    congr 1
    funext n c
    rw [Nat.mul_comm]
  unfold digits?
  rw [if_neg fun hrefused => (refused_iff text).mp hrefused h, hvalue]

theorem digits?_eq_none {text : List Char} (h : ¬IsNumeral text) : digits? text = none :=
  if_pos ((refused_iff text).mpr h)

/-- A number of so many digits is less than a one with as many zeros. -/
theorem ofDigitChars_lt {text : List Char} (h : ∀ c ∈ text, c.isDigit = true) :
    Nat.ofDigitChars 10 text 0 < 10 ^ text.length := by
  induction text using List.reverseRecOn with
  | nil => exact Nat.one_pos
  | append_singleton text c ih =>
    -- the last digit counts once, and all others ten times as much
    obtain ⟨htext, hc⟩ := List.forall_mem_append.mp h
    have hfront := ih htext
    have hlast : c.toNat ≤ '9'.toNat :=
      (Char.isDigit_iff_toNat.mp (hc c (List.mem_singleton_self c))).2
    have hnine : '9'.toNat - '0'.toNat = 9 := rfl
    rw [Nat.ofDigitChars_append, Nat.ofDigitChars_cons, Nat.ofDigitChars_nil, List.length_append,
      List.length_singleton, Nat.pow_succ]
    omega

theorem isNumeral_decimal (n : Nat) : IsNumeral (toString n).toList := by
  have hchars : (toString n).toList = Nat.toDigits 10 n := Nat.toList_repr
  rw [hchars]
  exact ⟨Nat.toDigits_ne_nil, fun c hc => Nat.isDigit_of_mem_toDigits (by decide) (by decide) hc⟩

theorem digits?_decimal (n : Nat) : digits? (toString n).toList = some n := by
  have hchars : (toString n).toList = Nat.toDigits 10 n := Nat.toList_repr
  rw [(isNumeral_decimal n).digits?_eq, hchars, Nat.ofDigitChars_toDigits (by decide) (by decide)]

/-- Without a plus sign a word is a number as it stands. -/
theorem word64?_eq {text : String} (h : text.toList.head? ≠ some '+') :
    word64? text = (digits? text.toList).bind fun n =>
      if n < 2 ^ 64 then some (UInt64.ofNat n) else none := by
  unfold word64?
  split
  next rest hplus =>
    rw [hplus] at h
    exact absurd rfl h
  next =>
    dsimp only
    cases digits? text.toList <;> rfl

theorem head?_decimal {n : Nat} {c : Char} (h : (toString n).toList.head? = some c) :
    c.isDigit = true :=
  (isNumeral_decimal n).2 c (List.mem_of_head? h)

theorem word64?_decimal (n : UInt64) : word64? (toString n.toNat) = some n := by
  have hplus : (toString n.toNat).toList.head? ≠ some '+' := fun h => nomatch head?_decimal h
  rw [word64?_eq hplus, digits?_decimal, Option.bind_some, if_pos n.toNat_lt, UInt64.ofNat_toNat]

/-! ## §3 Words that are no options -/

theorem addWord_operand {verb : Verb} {s : Scan} {text : String} (hwaiting : s.waiting = none)
    (h : text.toList.head? ≠ some '-') : s.addWord verb text = s.addOperand verb text := by
  have hdash (rest : List Char) : text.toList ≠ '-' :: rest := by
    intro htext
    rw [htext] at h
    exact h rfl
  unfold Scan.addWord
  split_ifs
  · rfl
  · -- only words that start with a dash are anything else
    rw [hwaiting]
    split
    case h_1 | h_2 | h_3 | h_4 => exact absurd ‹text.toList = '-' :: _› (hdash _)
    case h_5 => contradiction
    case h_6 => rfl

theorem parse_name {text : String} (h : text.toList.head? ≠ some '-') :
    parse ["name", text] = .ok (.name text) := by
  have hoperand : Scan.start.addOperand .name text = .ok { Scan.start with operand := some text } := by
    unfold Scan.addOperand
    rw [if_neg]
    simp [Scan.start]
  have hwords : [text].foldlM (Scan.addWord .name) Scan.start =
      .ok { Scan.start with operand := some text } := by
    rw [List.foldlM_cons, addWord_operand rfl h, hoperand]
    rfl
  show ([text].foldlM (Scan.addWord .name) Scan.start >>= fun s => s.command .name) = _
  rw [hwords]
  rfl

/-- What the program does with a word that is no option. -/
theorem run_name (read : String → Option (List UInt8)) {text : String}
    (h : text.toList.head? ≠ some '-') :
    run read ["name", text] =
      outcomeOf (fun converted => .print (converted ++ "\n")) (convertName text) := by
  unfold run
  rw [parse_name h]
  rfl

theorem Outcome.print_inj {text other : String} (h : Outcome.print text = Outcome.print other) :
    text = other :=
  Name.encode_inj (congrArg Outcome.output h)

/-! ## §4 Names that look like numbers -/

/-- No name starts with a sign. -/
theorem head?_text_ne (n : Name) {sign : Char} (h : sign ∉ alphabet) :
    n.text.toList.head? ≠ some sign := fun hhead =>
  h (Name.mem_alphabet_of_mem_text (List.mem_of_head? hhead))

theorem word64?_text (n : Name) :
    word64? n.text = (digits? n.text.toList).bind fun k =>
      if k < 2 ^ 64 then some (UInt64.ofNat k) else none :=
  word64?_eq (head?_text_ne n (by decide))

theorem convertName_decimal (v : UInt64) : convertName (toString v.toNat) = .ok (Name.mk v).text := by
  unfold convertName
  rw [word64?_decimal]

/-- The text of a name that is no number is turned back. -/
theorem convertName_text {n : Name} (h : ¬IsNumeral n.text.toList) :
    convertName n.text = .ok (toString n.value.toNat) := by
  have hparse : Name.parse n.text = .ok n := Name.parse_eq_ok.mpr rfl
  unfold convertName
  rw [word64?_text, digits?_eq_none h, Option.bind_none]
  dsimp only
  rw [hparse]
  rfl

/-- The text of a name that is a number is turned into the name of a small number. -/
theorem convertName_numeral {n : Name} (h : IsNumeral n.text.toList) :
    ∃ m : Name, m.value.toNat < 2 ^ 59 ∧ convertName n.text = .ok m.text := by
  -- thirteen decimal digits do not reach the first place of a name
  have hsmall : Nat.ofDigitChars 10 n.text.toList 0 < 10 ^ 13 :=
    Nat.lt_of_lt_of_le (ofDigitChars_lt h.2) (Nat.pow_le_pow_right (by decide) n.length_text_le)
  have hword : Nat.ofDigitChars 10 n.text.toList 0 < 2 ^ 64 := by omega
  refine ⟨⟨UInt64.ofNat (Nat.ofDigitChars 10 n.text.toList 0)⟩, ?_, ?_⟩
  · rw [UInt64.toNat_ofNat_of_lt' hword]
    omega
  · unfold convertName
    rw [word64?_text, h.digits?_eq, Option.bind_some, if_pos hword]

/-- The name of a small number does not look like a number. -/
theorem text_ne_decimal {m : Name} (h : m.value.toNat < 2 ^ 59) (n : Nat) : m.text ≠ toString n := by
  intro htext
  obtain ⟨c, rest, hc⟩ := List.exists_cons_of_ne_nil (isNumeral_decimal n).1
  have hhead : (toString n).toList.head? = some c := by
    rw [hc]
    rfl
  -- the first character would be a digit and a dot
  have hdigit := head?_decimal hhead
  rw [← htext] at hhead
  rw [Name.head?_text_of_lt h hhead] at hdigit
  exact absurd hdigit (by decide)

/-! ## §5 Both ways -/

/-- A number is turned into its name, and the name is turned back into the number exactly if its text
is empty or has a character that is no digit. A name made of digits alone is taken for a number. -/
theorem convert_both_ways (read : String → Option (List UInt8)) (v : UInt64) :
    let text := (Name.mk v).text
    run read ["name", toString v.toNat] = .print (text ++ "\n") ∧
      (run read ["name", text] = .print (toString v.toNat ++ "\n") ↔
        text = "" ∨ ∃ c ∈ text.toList, c.isDigit = false) := by
  intro text
  have hdecimal : (toString v.toNat).toList.head? ≠ some '-' := fun h => nomatch head?_decimal h
  have htext : text.toList.head? ≠ some '-' := head?_text_ne (Name.mk v) (by decide)
  refine ⟨?_, ?_⟩
  · rw [run_name read hdecimal, convertName_decimal]
    rfl
  · have hnumber : (text = "" ∨ ∃ c ∈ text.toList, c.isDigit = false) ↔
        ¬IsNumeral text.toList := by
      rw [IsNumeral, not_and_or, not_not, String.toList_eq_nil_iff]
      simp only [not_forall, Bool.not_eq_true, exists_prop]
    rw [run_name read htext, hnumber]
    constructor
    · intro hprint hnumeral
      obtain ⟨m, hsmall, hconvert⟩ := convertName_numeral hnumeral
      rw [hconvert] at hprint
      have hsame := (String.append_left_inj _).mp (Outcome.print_inj hprint)
      exact text_ne_decimal hsmall v.toNat hsame
    · intro h
      rw [convertName_text h]
      rfl

/-- The name of `2 ^ 59` is the digit one, which is taken for a number. -/
theorem convert_one_way :
    let program := run fun _ => none
    program ["name", "576460752303423488"] = .print "1\n" ∧
      program ["name", "1"] = .print "............1\n" ∧
      program ["name", "1"] ≠ .print "576460752303423488\n" := by
  intro program
  have hback : program ["name", "1"] = .print "............1\n" := rfl
  refine ⟨rfl, hback, ?_⟩
  rw [hback]
  intro hprint
  exact absurd (Outcome.print_inj hprint) (by decide)

end CommandLine

end MeteredWasm
