import Mathlib.Data.List.DropRight
import Mathlib.Tactic.Ring
import MeteredWasm.Name

/-!
# Texts and words of names

A word is a number in a mixed base: twelve digits of base 32 and a last one of base 16. Its text
shows these digits as symbols, without the zeros at the end. So texts are compared as words are,
every word has one text, and a text that is read is the text of the word it is read as.

* `Name.ofDigits_digits`, `Name.digits_ofDigits`: a number and its digits;
* `Name.isSpelling_text`: what the text of a name looks like;
* `Name.codes_lt_codes`: texts in order have codes in order;
* `Name.parse_exact`: what is accepted, what is refused, and the order.
-/

namespace MeteredWasm.Name

/-! ## §1 Numbers in base 32 -/

theorem ofDigits_concat (ds : List Nat) (d : Nat) :
    ofDigits (ds ++ [d]) = ofDigits ds * 32 + d := by
  simp [ofDigits]

theorem ofDigits_cons (d : Nat) (ds : List Nat) :
    ofDigits (d :: ds) = d * 32 ^ ds.length + ofDigits ds := by
  induction ds using List.reverseRecOn with
  | nil => simp [ofDigits]
  | append_singleton ds last ih =>
    rw [← List.cons_append, ofDigits_concat, ofDigits_concat, ih, List.length_append,
      List.length_singleton, Nat.pow_succ]
    ring

theorem ofDigits_lt {ds : List Nat} (h : ∀ d ∈ ds, d < 32) : ofDigits ds < 32 ^ ds.length := by
  induction ds with
  | nil => simp [ofDigits]
  | cons d ds ih =>
    obtain ⟨hd, hds⟩ := List.forall_mem_cons.mp h
    have hrest := ih hds
    have hfirst : d * 32 ^ ds.length ≤ 31 * 32 ^ ds.length := Nat.mul_le_mul_right _ (by omega)
    rw [ofDigits_cons, List.length_cons, Nat.pow_succ]
    omega

/-- Numbers with as many digits are compared digit by digit, from the front. -/
theorem ofDigits_lt_ofDigits {ds es : List Nat} (hlength : ds.length = es.length)
    (hds : ∀ d ∈ ds, d < 32) (h : ds < es) : ofDigits ds < ofDigits es := by
  induction ds generalizing es with
  | nil =>
    obtain rfl := List.eq_nil_of_length_eq_zero hlength.symm
    cases h
  | cons d ds ih =>
    obtain ⟨e, es, rfl⟩ := List.exists_cons_of_length_eq_add_one hlength.symm
    have hrest : ds.length = es.length := by simpa using hlength
    obtain ⟨-, hds⟩ := List.forall_mem_cons.mp hds
    rw [ofDigits_cons, ofDigits_cons, hrest]
    rcases List.cons_lt_cons_iff.mp h with hfirst | ⟨rfl, hsame⟩
    · -- the digits behind are worth less than one in front
      have hbound := ofDigits_lt hds
      have hcarry : (d + 1) * 32 ^ es.length ≤ e * 32 ^ es.length :=
        Nat.mul_le_mul_right _ hfirst
      rw [hrest] at hbound
      rw [Nat.add_mul] at hcarry
      omega
    · exact Nat.add_lt_add_left (ih hrest hds hsame) _

theorem length_digits (count n : Nat) : (digits count n).length = count := by
  induction count generalizing n with
  | zero => rfl
  | succ count ih => rw [digits, List.length_append, ih, List.length_singleton]

theorem digits_lt {count n d : Nat} (h : d ∈ digits count n) : d < 32 := by
  induction count generalizing n with
  | zero => cases h
  | succ count ih =>
    rcases List.mem_append.mp h with hfront | hlast
    · exact ih hfront
    · rw [List.mem_singleton.mp hlast]
      exact Nat.mod_lt n (by decide)

/-- A number is that of its digits, if it has no more. -/
theorem ofDigits_digits {count n : Nat} (h : n < 32 ^ count) : ofDigits (digits count n) = n := by
  induction count generalizing n with
  | zero =>
    obtain rfl : n = 0 := by simpa using h
    rfl
  | succ count ih =>
    have hfront : n / 32 < 32 ^ count := Nat.div_lt_of_lt_mul (by rwa [Nat.pow_succ'] at h)
    rw [digits, ofDigits_concat, ih hfront]
    omega

/-- The digits of a number are those it was made of. -/
theorem digits_ofDigits {ds : List Nat} (h : ∀ d ∈ ds, d < 32) :
    digits ds.length (ofDigits ds) = ds := by
  induction ds using List.reverseRecOn with
  | nil => rfl
  | append_singleton ds d ih =>
    obtain ⟨hds, hd⟩ := List.forall_mem_append.mp h
    have hd := hd d (List.mem_singleton_self d)
    rw [List.length_append, List.length_singleton, digits, ofDigits_concat,
      show (ofDigits ds * 32 + d) / 32 = ofDigits ds by omega,
      show (ofDigits ds * 32 + d) % 32 = d by omega, ih hds]

/-! ## §2 The places of a word -/

/-- The thirteen digits of a word. -/
def places (n : Name) : List Nat :=
  digits 12 (n.value.toNat / 16) ++ [n.value.toNat % 16]

/-- Thirteen digits of base 32, the last of them of base 16. -/
structure Fits (ds : List Nat) : Prop where
  length_eq : ds.length = 13
  digit_lt : ∀ d ∈ ds, d < 32
  last_lt : ∀ d, ds[12]? = some d → d < 16

/-- The word with the given digits. -/
def ofPlaces (ds : List Nat) : Name :=
  ⟨UInt64.ofNat (ofDigits (ds.take 12) * 16 + ds.getD 12 0 % 16)⟩

theorem Fits.exists_eq {ds : List Nat} (h : Fits ds) :
    ∃ front last, ds = front ++ [last] ∧ front.length = 12 ∧ (∀ d ∈ front, d < 32) ∧
      last < 16 := by
  obtain ⟨front, last, rfl⟩ :=
    (List.eq_nil_or_concat' ds).resolve_left (List.ne_nil_of_length_eq_add_one h.length_eq)
  have hlength : front.length = 12 := by simpa using h.length_eq
  refine ⟨front, last, rfl, hlength, (List.forall_mem_append.mp h.digit_lt).1, h.last_lt _ ?_⟩
  rw [← hlength, List.getElem?_concat_length]

theorem fits_places (n : Name) : Fits n.places where
  length_eq := by rw [places, List.length_append, length_digits, List.length_singleton]
  digit_lt := by
    refine List.forall_mem_append.mpr ⟨fun _ => digits_lt, fun d hd => ?_⟩
    rw [List.mem_singleton.mp hd]
    omega
  last_lt := by
    intro d hd
    have hlength := length_digits 12 (n.value.toNat / 16)
    rw [places, List.getElem?_append_right hlength.le, hlength] at hd
    cases hd
    exact Nat.mod_lt _ (by decide)

theorem value_ofPlaces {front : List Nat} {last : Nat} (hlength : front.length = 12)
    (hfront : ∀ d ∈ front, d < 32) (hlast : last < 16) :
    (ofPlaces (front ++ [last])).value.toNat = ofDigits front * 16 + last := by
  have hbound := ofDigits_lt hfront
  rw [hlength] at hbound
  have htake : (front ++ [last]).take 12 = front := by
    rw [← hlength, List.take_left]
  have hget : (front ++ [last]).getD 12 0 = last := by
    rw [← hlength, List.getD_eq_getElem?_getD, List.getElem?_concat_length, Option.getD_some]
  show (UInt64.ofNat (ofDigits ((front ++ [last]).take 12) * 16 +
    (front ++ [last]).getD 12 0 % 16)).toNat = _
  rw [htake, hget, Nat.mod_eq_of_lt hlast, UInt64.toNat_ofNat_of_lt']
  show _ < 2 ^ 64
  omega

theorem places_ofPlaces {ds : List Nat} (h : Fits ds) : (ofPlaces ds).places = ds := by
  obtain ⟨front, last, rfl, hlength, hfront, hlast⟩ := h.exists_eq
  have hdigits := digits_ofDigits hfront
  rw [hlength] at hdigits
  rw [places, value_ofPlaces hlength hfront hlast,
    show (ofDigits front * 16 + last) / 16 = ofDigits front by omega,
    show (ofDigits front * 16 + last) % 16 = last by omega, hdigits]

theorem ofPlaces_places (n : Name) : ofPlaces n.places = n := by
  have hvalue : (ofPlaces n.places).value.toNat = n.value.toNat := by
    have hsize : n.value.toNat / 16 < 32 ^ 12 := by
      have := n.value.toNat_lt
      omega
    rw [places, value_ofPlaces (length_digits 12 _) (fun _ => digits_lt) (Nat.mod_lt _ (by decide)),
      ofDigits_digits hsize]
    omega
  have hword := UInt64.toNat_inj.mp hvalue
  generalize ofPlaces n.places = other at hword
  obtain ⟨value⟩ := other
  exact congrArg Name.mk hword

/-- Words are compared place by place, from the front. -/
theorem value_lt_of_places_lt {v w : Name} (h : v.places < w.places) : v.value < w.value := by
  have hlength : v.places.length = w.places.length := by
    rw [(fits_places v).length_eq, (fits_places w).length_eq]
  have hlt := ofDigits_lt_ofDigits hlength (fits_places v).digit_lt h
  have hsize (n : Name) : n.value.toNat / 16 < 32 ^ 12 := by
    have := n.value.toNat_lt
    omega
  rw [places, places, ofDigits_concat, ofDigits_concat, ofDigits_digits (hsize v),
    ofDigits_digits (hsize w)] at hlt
  rw [UInt64.lt_iff_toNat_lt]
  omega

/-! ## §3 Symbols as bytes -/

/-- The bytes of the symbols. -/
def symbolBytes : List UInt8 :=
  Text.Utf8.encode ".12345abcdefghijklmnopqrstuvwxyz"

/-- The bytes of the symbols that may stand in the last place. -/
def lastBytes : List UInt8 :=
  Text.Utf8.encode ".12345abcdefghij"

/-- The byte of a dot. -/
def dot : UInt8 := 0x2E

/-- The byte of a symbol. -/
def symbolByte (digit : Nat) : UInt8 :=
  UInt8.ofNat (symbol digit).toNat

theorem symbol_facts : ∀ d < 32, (symbol d).toNat < 128 ∧ symbolByte d ∈ symbolBytes ∧
    code (symbolByte d) = d ∧ (symbol d = '.' ↔ d = 0) ∧ (d < 16 → symbolByte d ∈ lastBytes) := by
  decide +kernel

theorem code_lt_of_mem : ∀ b ∈ symbolBytes, code b < 32 ∧ (b ∈ lastBytes → code b < 16) := by
  decide +kernel

/-- Symbols are ordered as their codes are. -/
theorem code_lt_code : ∀ b ∈ symbolBytes, ∀ b' ∈ symbolBytes, b < b' → code b < code b' := by
  decide +kernel

theorem eq_dot_of_code : ∀ b ∈ symbolBytes, code b = 0 → b = dot := by
  decide +kernel

theorem symbolByte_code : ∀ b ∈ symbolBytes, symbolByte (code b) = b := by
  decide +kernel

theorem encode_ofList {cs : List Char} (h : ∀ c ∈ cs, c.toNat < 128) :
    Text.Utf8.encode (String.ofList cs) = cs.map fun c => UInt8.ofNat c.toNat := by
  have hchars : ∀ cs : List Char, (∀ c ∈ cs, c.toNat < 128) →
      cs.flatMap String.utf8EncodeChar = cs.map fun c => UInt8.ofNat c.toNat := by
    intro cs hcs
    induction cs with
    | nil => rfl
    | cons c cs ih =>
      obtain ⟨hc, hcs⟩ := List.forall_mem_cons.mp hcs
      have hone : c.utf8Size = 1 := Char.utf8Size_eq_one_iff.mpr (Nat.le_of_lt_succ hc)
      rw [List.flatMap_cons, ih hcs, String.utf8EncodeChar_eq_singleton hone]
      rfl
  show (String.ofList cs).toByteArray.data.toList = _
  rw [String.toByteArray_ofList, List.utf8Encode, List.data_toByteArray, hchars cs h]

theorem length_encode (text : String) : (Text.Utf8.encode text).length = text.utf8ByteSize := by
  rw [← String.size_toByteArray]
  rfl

theorem encode_inj {text other : String} (h : Text.Utf8.encode text = Text.Utf8.encode other) :
    text = other :=
  String.toByteArray_inj.mp (ByteArray.ext (Array.toList_inj.mp h))

/-! ## §4 Digits without the zeros at the end -/

/-- Digits without the zeros at the end. -/
def trim (ds : List Nat) : List Nat :=
  ds.rdropWhile (· == 0)

/-- Digits filled up with zeros to a number of places. -/
def fill : Nat → List Nat → List Nat
  | 0, _ => []
  | count + 1, [] => 0 :: fill count []
  | count + 1, d :: ds => d :: fill count ds

theorem take_append_zeros {count zeros : Nat} (ds : List Nat) (h : count ≤ zeros) :
    (ds ++ List.replicate zeros 0).take count = fill count ds := by
  induction count generalizing zeros ds with
  | zero => rw [List.take_zero, fill]
  | succ count ih =>
    cases ds with
    | nil =>
      obtain ⟨zeros, rfl⟩ : ∃ fewer, zeros = fewer + 1 := ⟨zeros - 1, by omega⟩
      rw [List.nil_append, List.replicate_succ, List.take_succ_cons, fill,
        ← ih [] (Nat.le_of_succ_le_succ h), List.nil_append]
    | cons d ds =>
      rw [List.cons_append, List.take_succ_cons, fill, ih ds (by omega)]

theorem codes_eq_fill (bytes : List UInt8) : codes bytes = fill 13 (bytes.map code) :=
  take_append_zeros _ (Nat.le_refl 13)

theorem fill_eq_append {count : Nat} {ds : List Nat} (h : ds.length ≤ count) :
    fill count ds = ds ++ List.replicate (count - ds.length) 0 := by
  induction count generalizing ds with
  | zero =>
    obtain rfl := List.eq_nil_of_length_eq_zero (Nat.le_zero.mp h)
    rfl
  | succ count ih =>
    cases ds with
    | nil =>
      have hrest : fill count [] = List.replicate count 0 := ih (Nat.zero_le count)
      rw [fill, hrest]
      rfl
    | cons d ds =>
      rw [List.length_cons] at h
      rw [fill, ih (Nat.le_of_succ_le_succ h), List.length_cons, List.cons_append,
        Nat.add_sub_add_right]

theorem trim_append_zeros (ds : List Nat) (zeros : Nat) :
    trim (ds ++ List.replicate zeros 0) = trim ds := by
  induction zeros with
  | zero => rw [List.replicate_zero, List.append_nil]
  | succ zeros ih =>
    rw [List.replicate_succ', ← List.append_assoc, trim, List.rdropWhile_concat_pos _ _ _ rfl]
    exact ih

theorem trim_eq_self {ds : List Nat} (h : ds.getLast? ≠ some 0) : trim ds = ds := by
  refine List.rdropWhile_eq_self_iff.mpr fun hne hzero => h ?_
  rw [List.getLast?_eq_some_getLast hne, beq_iff_eq.mp hzero]

theorem length_trim_le (ds : List Nat) : (trim ds).length ≤ ds.length :=
  (List.rdropWhile_prefix _ ds).length_le

theorem mem_of_mem_trim {ds : List Nat} {d : Nat} (h : d ∈ trim ds) : d ∈ ds :=
  (List.rdropWhile_prefix _ ds).subset h

theorem getElem?_of_trim {ds : List Nat} {place d : Nat} (h : (trim ds)[place]? = some d) :
    ds[place]? = some d := by
  obtain ⟨zeros, hzeros⟩ : trim ds <+: ds := List.rdropWhile_prefix _ ds
  obtain ⟨hplace, -⟩ := List.getElem?_eq_some_iff.mp h
  rw [← hzeros, List.getElem?_append_left hplace]
  exact h

theorem getLast?_trim (ds : List Nat) : (trim ds).getLast? ≠ some 0 := by
  intro h
  have hne : trim ds ≠ [] := by
    intro hnil
    rw [hnil] at h
    cases h
  rw [List.getLast?_eq_some_getLast hne] at h
  exact List.rdropWhile_last_not _ ds hne (beq_iff_eq.mpr (Option.some.inj h))

/-- Filling up undoes trimming. -/
theorem fill_trim (ds : List Nat) : fill ds.length (trim ds) = ds := by
  have hsplit : trim ds ++ ds.rtakeWhile (· == 0) = ds := List.rdropWhile_append_rtakeWhile
  have hzero : ∀ d ∈ ds.rtakeWhile (· == 0), d = 0 := fun d hd =>
    beq_iff_eq.mp (List.mem_rtakeWhile_imp (p := (· == 0)) hd)
  have hzeros := List.eq_replicate_of_mem hzero
  have hlength := congrArg List.length hsplit
  rw [List.length_append] at hlength
  rw [fill_eq_append (length_trim_le ds), ← hlength, Nat.add_sub_cancel_left, ← hzeros, hsplit]

/-- Trimming undoes filling up. -/
theorem trim_fill {count : Nat} {ds : List Nat} (hlength : ds.length ≤ count)
    (hlast : ds.getLast? ≠ some 0) : trim (fill count ds) = ds := by
  rw [fill_eq_append hlength, trim_append_zeros, trim_eq_self hlast]

/-- Zeros come first: digits that end in another digit are greater than none. -/
theorem fill_nil_lt {count : Nat} {ds : List Nat} (hne : ds ≠ []) (hlength : ds.length ≤ count)
    (hlast : ds.getLast? ≠ some 0) : fill count [] < fill count ds := by
  induction ds generalizing count with
  | nil => exact absurd rfl hne
  | cons d ds ih =>
    obtain ⟨count, rfl⟩ := Nat.exists_eq_add_one_of_ne_zero (n := count) (by
      rw [List.length_cons] at hlength
      omega)
    rw [fill, fill, List.cons_lt_cons_iff]
    by_cases hd : d = 0
    · subst hd
      have hne : ds ≠ [] := by
        rintro rfl
        exact hlast rfl
      rw [List.getLast?_cons_of_ne_nil hne] at hlast
      exact .inr ⟨rfl, ih hne (Nat.le_of_succ_le_succ hlength) hlast⟩
    · exact .inl (Nat.pos_of_ne_zero hd)

/-- Filling up keeps the order of trimmed digits. -/
theorem fill_lt_fill {count : Nat} {ds es : List Nat} (hlength : es.length ≤ count)
    (hlast : es.getLast? ≠ some 0) (h : ds < es) : fill count ds < fill count es := by
  induction es generalizing count ds with
  | nil => cases h
  | cons e es ih =>
    cases ds with
    | nil => exact fill_nil_lt (List.cons_ne_nil e es) hlength hlast
    | cons d ds =>
      obtain ⟨count, rfl⟩ := Nat.exists_eq_add_one_of_ne_zero (n := count) (by
        rw [List.length_cons] at hlength
        omega)
      rw [fill, fill, List.cons_lt_cons_iff]
      rcases List.cons_lt_cons_iff.mp h with hfirst | ⟨rfl, hrest⟩
      · exact .inl hfirst
      · have hne : es ≠ [] := by
          rintro rfl
          cases hrest
        rw [List.getLast?_cons_of_ne_nil hne] at hlast
        exact .inr ⟨rfl, ih (Nat.le_of_succ_le_succ hlength) hlast hrest⟩

/-! ## §5 The text of a name -/

theorem rdropWhile_map_symbol {ds : List Nat} (h : ∀ d ∈ ds, d < 32) :
    (ds.map symbol).rdropWhile (· == '.') = (trim ds).map symbol := by
  induction ds using List.reverseRecOn with
  | nil => rfl
  | append_singleton ds d ih =>
    obtain ⟨hds, hd⟩ := List.forall_mem_append.mp h
    have hdot := (symbol_facts d (hd d (List.mem_singleton_self d))).2.2.2.1
    rw [List.map_append, List.map_singleton, trim]
    by_cases hzero : d = 0
    · have hsymbol : (symbol d == '.') = true := beq_iff_eq.mpr (hdot.mpr hzero)
      rw [List.rdropWhile_concat_pos (· == '.') _ _ hsymbol,
        List.rdropWhile_concat_pos (· == 0) _ _ (beq_iff_eq.mpr hzero), ih hds, trim]
    · have hsymbol : ¬(symbol d == '.') = true := fun h => hzero (hdot.mp (beq_iff_eq.mp h))
      rw [List.rdropWhile_concat_neg (· == '.') _ _ hsymbol,
        List.rdropWhile_concat_neg (· == 0) _ _ (fun h => hzero (beq_iff_eq.mp h)),
        List.map_append, List.map_singleton]

/-- The bytes of a text are the symbols of the trimmed digits. -/
theorem encode_text (n : Name) : Text.Utf8.encode n.text = (trim n.places).map symbolByte := by
  have hplaces := (fits_places n).digit_lt
  have htext : n.text = String.ofList ((n.places.map symbol).rdropWhile (· == '.')) := rfl
  rw [htext, rdropWhile_map_symbol hplaces, encode_ofList, List.map_map]
  · rfl
  · intro c hc
    obtain ⟨d, hd, rfl⟩ := List.mem_map.mp hc
    exact (symbol_facts d (hplaces d (mem_of_mem_trim hd))).1

theorem map_code_symbolByte {ds : List Nat} (h : ∀ d ∈ ds, d < 32) :
    (ds.map symbolByte).map code = ds := by
  rw [List.map_map]
  exact (List.map_congr_left fun d hd => (symbol_facts d (h d hd)).2.2.1).trans (List.map_id ds)

theorem map_code_text (n : Name) : (Text.Utf8.encode n.text).map code = trim n.places := by
  rw [encode_text, map_code_symbolByte fun d hd => (fits_places n).digit_lt d (mem_of_mem_trim hd)]

/-- Packing the text of a name gives the name back. -/
theorem pack_text (n : Name) : pack n.text = n := by
  have hcodes : codes (Text.Utf8.encode n.text) = n.places := by
    rw [codes_eq_fill, map_code_text, ← (fits_places n).length_eq, fill_trim]
  have hpack : pack n.text = ofPlaces (codes (Text.Utf8.encode n.text)) := rfl
  rw [hpack, hcodes, ofPlaces_places]

/-- What a text must be to spell a name: at most thirteen symbols without a dot at the end, of which
the thirteenth is one of the first sixteen. -/
structure IsSpelling (text : String) : Prop where
  short : (Text.Utf8.encode text).length ≤ 13
  symbols : ∀ b ∈ Text.Utf8.encode text, b ∈ symbolBytes
  ended : (Text.Utf8.encode text).getLast? ≠ some dot
  last : ∀ b, (Text.Utf8.encode text)[12]? = some b → b ∈ lastBytes

/-- The text of a name is a spelling. -/
theorem isSpelling_text (n : Name) : IsSpelling n.text where
  short := by
    rw [encode_text, List.length_map, ← (fits_places n).length_eq]
    exact length_trim_le _
  symbols := by
    intro b hb
    rw [encode_text] at hb
    obtain ⟨d, hd, rfl⟩ := List.mem_map.mp hb
    exact (symbol_facts d ((fits_places n).digit_lt d (mem_of_mem_trim hd))).2.1
  ended := by
    intro h
    have hcode := congrArg (Option.map code) h
    rw [← List.getLast?_map, map_code_text] at hcode
    exact getLast?_trim n.places hcode
  last := by
    intro b hb
    rw [encode_text, List.getElem?_map] at hb
    obtain ⟨d, hd, rfl⟩ := Option.map_eq_some_iff.mp hb
    have hsmall := (fits_places n).last_lt d (getElem?_of_trim hd)
    exact (symbol_facts d (by omega)).2.2.2.2 hsmall

theorem IsSpelling.getLast?_codes {text : String} (h : IsSpelling text) :
    ((Text.Utf8.encode text).map code).getLast? ≠ some 0 := by
  intro hzero
  rw [List.getLast?_map] at hzero
  obtain ⟨b, hb, hcode⟩ := Option.map_eq_some_iff.mp hzero
  have hdot := eq_dot_of_code b (h.symbols b (List.mem_of_getLast? hb)) hcode
  exact h.ended (hdot ▸ hb)

/-- The codes of a spelling are the places of a word. -/
theorem IsSpelling.fits {text : String} (h : IsSpelling text) :
    Fits (codes (Text.Utf8.encode text)) := by
  have hshort : ((Text.Utf8.encode text).map code).length ≤ 13 := by
    rw [List.length_map]
    exact h.short
  rw [codes_eq_fill, fill_eq_append hshort]
  refine ⟨?_, List.forall_mem_append.mpr ⟨?_, ?_⟩, ?_⟩
  · rw [List.length_append, List.length_replicate, Nat.add_sub_of_le hshort]
  · intro d hd
    obtain ⟨b, hb, rfl⟩ := List.mem_map.mp hd
    exact (code_lt_of_mem b (h.symbols b hb)).1
  · intro d hd
    rw [List.eq_of_mem_replicate hd]
    decide
  · intro d hd
    rcases Nat.lt_or_ge 12 ((Text.Utf8.encode text).map code).length with hplace | hplace
    · rw [List.getElem?_append_left hplace, List.getElem?_map] at hd
      obtain ⟨b, hb, rfl⟩ := Option.map_eq_some_iff.mp hd
      exact (code_lt_of_mem b (h.symbols b (List.mem_of_getElem? hb))).2 (h.last b hb)
    · rw [List.getElem?_append_right hplace] at hd
      rw [List.eq_of_mem_replicate (List.mem_of_getElem? hd)]
      decide

/-- A spelling is the text of the word it packs into. -/
theorem IsSpelling.text_pack {text : String} (h : IsSpelling text) : (pack text).text = text := by
  have hpack : pack text = ofPlaces (codes (Text.Utf8.encode text)) := rfl
  have hshort : ((Text.Utf8.encode text).map code).length ≤ 13 := by
    rw [List.length_map]
    exact h.short
  apply encode_inj
  rw [encode_text, hpack, places_ofPlaces h.fits, codes_eq_fill,
    trim_fill hshort h.getLast?_codes, List.map_map]
  exact (List.map_congr_left fun b hb => symbolByte_code b (h.symbols b hb)).trans
    (List.map_id _)

/-! ## §6 The order of texts -/

theorem map_code_lt {bs cs : List UInt8} (hbs : ∀ b ∈ bs, b ∈ symbolBytes)
    (hcs : ∀ c ∈ cs, c ∈ symbolBytes) (h : bs < cs) : bs.map code < cs.map code := by
  induction cs generalizing bs with
  | nil => cases h
  | cons c cs ih =>
    cases bs with
    | nil => exact List.nil_lt_cons _ _
    | cons b bs =>
      rw [List.forall_mem_cons] at hbs hcs
      rw [List.map_cons, List.map_cons, List.cons_lt_cons_iff]
      rcases List.cons_lt_cons_iff.mp h with hfirst | ⟨rfl, hrest⟩
      · exact .inl (code_lt_code b hbs.1 c hcs.1 hfirst)
      · exact .inr ⟨rfl, ih hbs.2 hcs.2 hrest⟩

/-- Texts in order have words in order. -/
theorem value_lt_of_text_lt {v w : Name}
    (h : Text.Utf8.encode v.text < Text.Utf8.encode w.text) : v.value < w.value := by
  apply value_lt_of_places_lt
  have hcodes := map_code_lt (isSpelling_text v).symbols (isSpelling_text w).symbols h
  rw [map_code_text, map_code_text] at hcodes
  have hfill := fill_lt_fill (length_trim_le w.places) (getLast?_trim w.places) hcodes
  rwa [fill_trim, (fits_places w).length_eq, ← (fits_places v).length_eq, fill_trim] at hfill

/-- Words are compared as their texts are, byte by byte. -/
theorem value_lt_iff (v w : Name) :
    v.value < w.value ↔ Text.Utf8.encode v.text < Text.Utf8.encode w.text := by
  refine ⟨fun h => ?_, value_lt_of_text_lt⟩
  by_contra hnot
  by_cases hless : Text.Utf8.encode w.text < Text.Utf8.encode v.text
  · exact UInt64.lt_irrefl _ (UInt64.lt_trans h (value_lt_of_text_lt hless))
  · have htext := encode_inj (Std.Trichotomous.trichotomous _ _ hnot hless)
    rw [← pack_text v, htext, pack_text] at h
    exact UInt64.lt_irrefl _ h

/-! ## §7 Reading -/

/-- A text is read as the name whose text it is. -/
theorem parse_eq_ok {text : String} {n : Name} : parse text = .ok n ↔ n.text = text := by
  constructor
  · intro h
    unfold parse at h
    split at h
    · cases h
    · simp only at h
      split at h
      · cases h
        assumption
      · cases h
  · rintro rfl
    have hshort : ¬13 < n.text.utf8ByteSize := by
      rw [← length_encode]
      exact Nat.not_lt.mpr (isSpelling_text n).short
    simp only [parse, if_neg hshort, pack_text, if_true]

/-- A text that is not read is no spelling, whatever is reported. -/
theorem parse_eq_error {text : String} {fault : Fault} (h : parse text = .error fault) :
    fault.kind? = some .invalidName := by
  unfold parse at h
  split at h
  · cases h
    rfl
  · simp only at h
    split at h
    · cases h
    · cases h
      rfl

theorem exists_text_eq {text : String} : (∃ n : Name, n.text = text) ↔ IsSpelling text := by
  constructor
  · rintro ⟨n, rfl⟩
    exact isSpelling_text n
  · intro h
    exact ⟨pack text, h.text_pack⟩

/-- What is read is the spellings, each as the one word whose text it is; every other text is
refused as no name; and words are ordered as their texts are. -/
theorem parse_exact :
    (∀ text n, parse text = .ok n ↔ n.text = text) ∧
    (∀ text, (∃ n, parse text = .ok n) ↔ IsSpelling text) ∧
    (∀ text, (∃ fault, parse text = .error fault ∧ fault.kind? = some .invalidName) ↔
      ¬IsSpelling text) ∧
    ∀ v w : Name, v.value < w.value ↔ Text.Utf8.encode v.text < Text.Utf8.encode w.text := by
  have hread (text : String) : (∃ n, parse text = .ok n) ↔ IsSpelling text := by
    simp only [parse_eq_ok, exists_text_eq]
  refine ⟨fun text n => parse_eq_ok, hread, fun text => ?_, value_lt_iff⟩
  rw [← hread text]
  constructor
  · rintro ⟨fault, hfault, -⟩ ⟨n, hn⟩
    rw [hfault] at hn
    cases hn
  · intro hnot
    cases hparse : parse text with
    | ok n => exact absurd ⟨n, hparse⟩ hnot
    | error fault => exact ⟨fault, rfl, parse_eq_error hparse⟩

end MeteredWasm.Name
