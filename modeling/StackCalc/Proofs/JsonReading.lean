/-
Reading JSON back.

The reader takes one document off the front of a text and returns it with the rest.  It does
not know how documents are written here: the next character decides what it reads, and it
takes escapes that nothing writes.

A document that was written without blanks is read back from the front of any text that goes
on after it, so long as it does not go on with a digit, since a number has no end of its own.
Inside a document every part is followed by a comma, a colon or a bracket, so the condition is
met there.
-/
import StackCalc.Text.Json

namespace StackCalc

namespace Json

/-! ### The reader -/

/-- The value of a hexadecimal digit. -/
def hexValue? (c : Char) : Option Nat :=
  if c.isDigit then some (c.toNat - '0'.toNat)
  else if 'a' ≤ c ∧ c ≤ 'f' then some (c.toNat - 'a'.toNat + 10)
  else if 'A' ≤ c ∧ c ≤ 'F' then some (c.toNat - 'A'.toNat + 10)
  else none

/-- The character with a number in hexadecimal.  The halves of a pair are no characters. -/
def numbered? (digits : List Char) : Option Char := do
  let n ← digits.foldlM (fun n c => (hexValue? c).map (16 * n + ·)) 0
  if n.isValidChar then some (Char.ofNat n) else none

/-- What a character stands for behind a backslash. -/
def escaped? (c : Char) : Option Char :=
  if c = '"' ∨ c = '\\' ∨ c = '/' then some c
  else if c = 'b' then some (Char.ofNat 0x08)
  else if c = 'f' then some (Char.ofNat 0x0C)
  else if c = 'n' then some '\n'
  else if c = 'r' then some '\r'
  else if c = 't' then some '\t'
  else none

/-- Puts a character in front of the text that was read. -/
def prepend (c : Char) (read : List Char × List Char) : List Char × List Char :=
  (c :: read.1, read.2)

/-- Reads a string to its closing quote. -/
def readText : List Char → Option (List Char × List Char)
  | [] => none
  | '\\' :: 'u' :: a :: b :: c :: d :: rest => do
    let x ← numbered? [a, b, c, d]
    (readText rest).map (prepend x)
  | '\\' :: c :: rest => do
    let x ← escaped? c
    (readText rest).map (prepend x)
  | c :: rest =>
    if c = '"' then some ([], rest)
    else if c = '\\' ∨ c.toNat < 0x20 then none
    else (readText rest).map (prepend c)

/-- Reads a number. -/
def readNumber (cs : List Char) : Option (Json × List Char) :=
  let digits := cs.takeWhile Char.isDigit
  if digits = [] then none
  else some (.num (Nat.ofDigitChars 10 digits 0), cs.dropWhile Char.isDigit)

mutual

/-- Reads a document.  No part of it is deeper than the limit. -/
def readValue : Nat → List Char → Option (Json × List Char)
  | 0, _ => none
  | _ + 1, 'n' :: 'u' :: 'l' :: 'l' :: rest => some (null, rest)
  | _ + 1, 't' :: 'r' :: 'u' :: 'e' :: rest => some (bool true, rest)
  | _ + 1, 'f' :: 'a' :: 'l' :: 's' :: 'e' :: rest => some (bool false, rest)
  | _ + 1, '"' :: rest => (readText rest).map fun read => (str (String.ofList read.1), read.2)
  | _ + 1, '[' :: ']' :: rest => some (arr [], rest)
  | limit + 1, '[' :: rest => (readItems limit rest).map fun read => (arr read.1, read.2)
  | _ + 1, '\x7b' :: '\x7d' :: rest => some (obj [], rest)
  | limit + 1, '\x7b' :: rest => (readFields limit rest).map fun read => (obj read.1, read.2)
  | _ + 1, cs => readNumber cs

/-- Reads the items of an array to its closing bracket. -/
def readItems : Nat → List Char → Option (List Json × List Char)
  | 0, _ => none
  | limit + 1, cs => do
    let (item, rest) ← readValue limit cs
    match rest with
    | ',' :: rest => (readItems limit rest).map fun read => (item :: read.1, read.2)
    | ']' :: rest => some ([item], rest)
    | _ => none

/-- Reads the fields of an object to its closing brace. -/
def readFields : Nat → List Char → Option (List (String × Json) × List Char)
  | 0, _ => none
  | limit + 1, '"' :: cs => do
    let (name, rest) ← readText cs
    match rest with
    | ':' :: rest =>
      let (value, rest) ← readValue limit rest
      match rest with
      | ',' :: rest =>
        (readFields limit rest).map fun read => ((String.ofList name, value) :: read.1, read.2)
      | '\x7d' :: rest => some ([(String.ofList name, value)], rest)
      | _ => none
    | _ => none
  | _ + 1, _ => none

end

/-- Reads a text that is a document and nothing else. -/
def read? (text : String) : Option Json :=
  match readValue text.length text.toList with
  | some (j, []) => some j
  | _ => none

/-! ### Strings -/

theorem readText_escaped {c x : Char} (h : escaped? c = some x) (rest : List Char) :
    readText ('\\' :: c :: rest) = (readText rest).map (prepend x) := by
  have hc : c ≠ 'u' := by
    rintro rfl
    simp [escaped?] at h
  rw [readText]
  · simp [h]
  · intro a b d e rest' hu
    exact absurd hu hc

theorem readText_numbered {a b c d x : Char} (h : numbered? [a, b, c, d] = some x)
    (rest : List Char) :
    readText ('\\' :: 'u' :: a :: b :: c :: d :: rest) = (readText rest).map (prepend x) := by
  rw [readText, h]
  rfl

theorem readText_plain {c : Char} (hquote : c ≠ '"') (hslash : c ≠ '\\')
    (hcontrol : ¬ c.toNat < 0x20) (rest : List Char) :
    readText (c :: rest) = (readText rest).map (prepend c) := by
  rw [readText]
  · simp [hquote, hslash, hcontrol]
  · intro a b d e rest' hc _
    exact absurd hc hslash
  · intro c' rest' hc _
    exact absurd hc hslash

theorem numbered?_hexByte :
    ∀ n < 0x20, numbered? ('0' :: '0' :: hexByte n) = some (Char.ofNat n) := by
  decide

theorem escapeChar_of_notMem {c : Char}
    (h : c ∉ ['"', '\\', '\x08', '\x0c', '\n', '\r', '\t']) :
    escapeChar c =
      if c.toNat < 0x20 then '\\' :: 'u' :: '0' :: '0' :: hexByte c.toNat else [c] := by
  have hcode : ∀ {x : Char}, c ≠ x → c.toNat ≠ x.toNat :=
    fun hne heq => hne (Char.toNat_inj.mp heq)
  simp only [List.mem_cons, List.not_mem_nil, or_false, not_or] at h
  obtain ⟨hquote, hslash, hback, hfeed, hline, hreturn, htab⟩ := h
  have hback : c.toNat ≠ 0x08 := hcode hback
  have hfeed : c.toNat ≠ 0x0C := hcode hfeed
  simp [escapeChar, hquote, hslash, hback, hfeed, hline, hreturn, htab]

/-- A character of a string is read back. -/
theorem readText_escapeChar (c : Char) (rest : List Char) :
    readText (escapeChar c ++ rest) = (readText rest).map (prepend c) := by
  by_cases hshort : c ∈ ['"', '\\', '\x08', '\x0c', '\n', '\r', '\t']
  · -- Each of these has one character for it behind the backslash.
    simp only [List.mem_cons, List.not_mem_nil, or_false] at hshort
    rcases hshort with rfl | rfl | rfl | rfl | rfl | rfl | rfl
    all_goals exact readText_escaped rfl rest
  · rw [escapeChar_of_notMem hshort]
    simp only [List.mem_cons, not_or] at hshort
    by_cases hcontrol : c.toNat < 0x20
    · have hread := numbered?_hexByte c.toNat hcontrol
      rw [c.ofNat_toNat] at hread
      rw [if_pos hcontrol]
      exact readText_numbered hread rest
    · rw [if_neg hcontrol]
      exact readText_plain hshort.1 hshort.2.1 hcontrol rest

/-- A string is read back. -/
theorem readText_flatMap_escapeChar (cs rest : List Char) :
    readText (cs.flatMap escapeChar ++ '"' :: rest) = some (cs, rest) := by
  induction cs with
  | nil => simp [readText]
  | cons c cs ih =>
      rw [List.flatMap_cons, List.append_assoc, readText_escapeChar, ih]
      rfl

/-! ### Numbers -/

/-- The text does not start with a digit. -/
def NoDigit (rest : List Char) : Prop :=
  ∀ c ∈ rest.head?, c.isDigit = false

theorem noDigit_cons {c : Char} (h : c.isDigit = false) (rest : List Char) :
    NoDigit (c :: rest) := by
  intro x hx
  obtain rfl := Option.some.inj hx
  exact h

/-- A number is read back. -/
theorem readNumber_toString (n : Nat) {rest : List Char} (h : NoDigit rest) :
    readNumber ((toString n).toList ++ rest) = some (.num n, rest) := by
  have hdigits : ∀ c ∈ Nat.toDigits 10 n, c.isDigit = true :=
    fun c hc => Nat.isDigit_of_mem_toDigits (by omega) (by omega) hc
  have hstop : rest.takeWhile Char.isDigit = [] ∧ rest.dropWhile Char.isDigit = rest := by
    cases rest with
    | nil => exact ⟨rfl, rfl⟩
    | cons c rest => simp [h c rfl]
  have htake : ((toString n).toList ++ rest).takeWhile Char.isDigit = Nat.toDigits 10 n := by
    rw [Nat.toString_eq_ofList_toDigits, String.toList_ofList,
      List.takeWhile_append_of_pos hdigits, hstop.1, List.append_nil]
  have hdrop : ((toString n).toList ++ rest).dropWhile Char.isDigit = rest := by
    rw [Nat.toString_eq_ofList_toDigits, String.toList_ofList,
      List.dropWhile_append_of_pos hdigits, hstop.2]
  simp only [readNumber, htake, hdrop]
  rw [if_neg Nat.toDigits_ne_nil, Nat.ofDigitChars_toDigits (by omega) (by omega)]

/-! ### Documents -/

theorem toList_quote (s : String) :
    (quote s).toList = '"' :: (s.toList.flatMap escapeChar ++ ['"']) := by
  simp [quote]

theorem toList_compact_arr (items : List Json) :
    (arr items).compact.toList = '[' :: ((compactItems items).toList ++ [']']) := by
  simp [compact]

theorem toList_compact_obj (fields : List (String × Json)) :
    (obj fields).compact.toList = '\x7b' :: ((compactFields fields).toList ++ ['\x7d']) := by
  simp [compact]

theorem toList_compactItems (j k : Json) (items : List Json) :
    (compactItems (j :: k :: items)).toList =
      j.compact.toList ++ ',' :: (compactItems (k :: items)).toList := by
  simp [compactItems]

theorem toList_compactFields_single (name : String) (j : Json) :
    (compactFields [(name, j)]).toList =
      '"' :: (name.toList.flatMap escapeChar ++ '"' :: ':' :: j.compact.toList) := by
  simp [compactFields, toList_quote]

theorem toList_compactFields (name : String) (j : Json) (field : String × Json)
    (fields : List (String × Json)) :
    (compactFields ((name, j) :: field :: fields)).toList =
      '"' :: (name.toList.flatMap escapeChar ++ '"' :: ':' ::
        (j.compact.toList ++ ',' :: (compactFields (field :: fields)).toList)) := by
  simp [compactFields, toList_quote]

/-- What starts with a digit is a number. -/
theorem readValue_digit {d : Char} (h : d.isDigit = true) (limit : Nat) (cs : List Char) :
    readValue (limit + 1) (d :: cs) = readNumber (d :: cs) := by
  rw [readValue]
  all_goals
    intro rest heq
    obtain ⟨rfl, -⟩ := List.cons.inj heq
    exact absurd h (by decide)

/-- A bracket opens an array that has items unless it is closed at once. -/
theorem readValue_bracket {c : Char} (h : c ≠ ']') (limit : Nat) (cs : List Char) :
    readValue (limit + 1) ('[' :: c :: cs) =
      (readItems limit (c :: cs)).map fun read => (arr read.1, read.2) := by
  rw [readValue]
  intro rest heq
  exact h (List.cons.inj heq).1

theorem exists_digits (n : Nat) :
    ∃ d ds, (toString n).toList = d :: ds ∧ d.isDigit = true := by
  obtain ⟨d, ds, hds⟩ := List.exists_cons_of_ne_nil (@Nat.toDigits_ne_nil n 10)
  refine ⟨d, ds, ?_, ?_⟩
  · rw [Nat.toString_eq_ofList_toDigits, String.toList_ofList, hds]
  · exact Nat.isDigit_of_mem_toDigits (by omega) (by omega) (hds ▸ List.mem_cons_self)

/-- A document does not start with the bracket that ends an array. -/
theorem exists_compact_cons (j : Json) :
    ∃ c cs, j.compact.toList = c :: cs ∧ c ≠ ']' := by
  cases j with
  | null => exact ⟨_, _, rfl, by decide⟩
  | bool b => cases b <;> exact ⟨_, _, rfl, by decide⟩
  | num n =>
      obtain ⟨d, ds, hds, hd⟩ := exists_digits n
      refine ⟨d, ds, by rw [compact, hds], ?_⟩
      rintro rfl
      exact absurd hd (by decide)
  | str s => exact ⟨_, _, by rw [compact, toList_quote], by decide⟩
  | arr items => exact ⟨_, _, toList_compact_arr items, by decide⟩
  | obj fields => exact ⟨_, _, toList_compact_obj fields, by decide⟩

theorem exists_compactItems_cons (j : Json) (items : List Json) :
    ∃ c cs, (compactItems (j :: items)).toList = c :: cs ∧ c ≠ ']' := by
  obtain ⟨c, cs, hcs, hc⟩ := exists_compact_cons j
  cases items with
  | nil => exact ⟨c, cs, by rw [compactItems, hcs], hc⟩
  | cons k items => exact ⟨c, _, by rw [toList_compactItems, hcs, List.cons_append], hc⟩

theorem exists_compactFields_cons (field : String × Json) (fields : List (String × Json)) :
    ∃ cs, (compactFields (field :: fields)).toList = '"' :: cs := by
  cases fields with
  | nil => exact ⟨_, toList_compactFields_single field.1 field.2⟩
  | cons next fields => exact ⟨_, toList_compactFields field.1 field.2 next fields⟩

/-- What is written on no more characters than the limit is read back. -/
structure ReadsBack (limit : Nat) : Prop where
  value : ∀ (j : Json) (rest : List Char), j.compact.toList.length ≤ limit → NoDigit rest →
    readValue limit (j.compact.toList ++ rest) = some (j, rest)
  items : ∀ (j : Json) (items : List Json) (rest : List Char),
    (compactItems (j :: items)).toList.length < limit →
    readItems limit ((compactItems (j :: items)).toList ++ ']' :: rest) = some (j :: items, rest)
  fields : ∀ (field : String × Json) (fields : List (String × Json)) (rest : List Char),
    (compactFields (field :: fields)).toList.length < limit →
    readFields limit ((compactFields (field :: fields)).toList ++ '\x7d' :: rest) =
      some (field :: fields, rest)

namespace ReadsBack

variable {limit : Nat} (h : ReadsBack limit)
include h

theorem items_succ (j : Json) (items : List Json) (rest : List Char)
    (hlimit : (compactItems (j :: items)).toList.length < limit + 1) :
    readItems (limit + 1) ((compactItems (j :: items)).toList ++ ']' :: rest) =
      some (j :: items, rest) := by
  cases items with
  | nil =>
      rw [compactItems] at hlimit ⊢
      rw [readItems, h.value j _ (by omega) (noDigit_cons (by decide) rest)]
      rfl
  | cons k items =>
      rw [toList_compactItems] at hlimit ⊢
      simp only [List.length_append, List.length_cons] at hlimit
      rw [List.append_assoc, List.cons_append, readItems,
        h.value j _ (by omega) (noDigit_cons (by decide) _)]
      simp only [Option.bind_eq_bind, Option.bind_some]
      rw [h.items k items rest (by omega)]
      rfl

theorem fields_succ (field : String × Json) (fields : List (String × Json)) (rest : List Char)
    (hlimit : (compactFields (field :: fields)).toList.length < limit + 1) :
    readFields (limit + 1) ((compactFields (field :: fields)).toList ++ '\x7d' :: rest) =
      some (field :: fields, rest) := by
  obtain ⟨name, j⟩ := field
  cases fields with
  | nil =>
      rw [toList_compactFields_single] at hlimit ⊢
      simp only [List.length_append, List.length_cons] at hlimit
      rw [List.cons_append, List.append_assoc, List.cons_append, List.cons_append, readFields,
        readText_flatMap_escapeChar]
      simp only [Option.bind_eq_bind, Option.bind_some]
      rw [h.value j _ (by omega) (noDigit_cons (by decide) rest)]
      simp
  | cons next fields =>
      rw [toList_compactFields] at hlimit ⊢
      simp only [List.length_append, List.length_cons] at hlimit
      simp only [List.cons_append, List.append_assoc]
      rw [readFields, readText_flatMap_escapeChar]
      simp only [Option.bind_eq_bind, Option.bind_some]
      rw [h.value j _ (by omega) (noDigit_cons (by decide) _)]
      simp only [Option.bind_some]
      rw [h.fields next fields rest (by omega)]
      simp

theorem value_succ (j : Json) (rest : List Char)
    (hlimit : j.compact.toList.length ≤ limit + 1) (hrest : NoDigit rest) :
    readValue (limit + 1) (j.compact.toList ++ rest) = some (j, rest) := by
  cases j with
  | null => rfl
  | bool b => cases b <;> rfl
  | num n =>
      obtain ⟨d, ds, hds, hd⟩ := exists_digits n
      rw [compact, hds, List.cons_append, readValue_digit hd, ← List.cons_append, ← hds]
      exact readNumber_toString n hrest
  | str s =>
      rw [compact, toList_quote, List.cons_append, List.append_assoc, List.singleton_append,
        readValue, readText_flatMap_escapeChar]
      simp
  | arr items =>
      cases items with
      | nil => rfl
      | cons j items =>
          rw [toList_compact_arr] at hlimit ⊢
          simp only [List.length_cons, List.length_append, List.length_nil] at hlimit
          have hread := h.items j items rest (by omega)
          obtain ⟨c, cs, hcs, hc⟩ := exists_compactItems_cons j items
          rw [List.cons_append, List.append_assoc, List.singleton_append, hcs, List.cons_append,
            readValue_bracket hc, ← List.cons_append, ← hcs, hread]
          rfl
  | obj fields =>
      cases fields with
      | nil => rfl
      | cons field fields =>
          rw [toList_compact_obj] at hlimit ⊢
          simp only [List.length_cons, List.length_append, List.length_nil] at hlimit
          have hread := h.fields field fields rest (by omega)
          obtain ⟨cs, hcs⟩ := exists_compactFields_cons field fields
          rw [List.cons_append, List.append_assoc, List.singleton_append]
          rw [hcs, List.cons_append] at hread ⊢
          rw [readValue, hread]
          · rfl
          · simp

end ReadsBack

theorem readsBack (limit : Nat) : ReadsBack limit := by
  induction limit with
  | zero =>
      refine ⟨?_, ?_, ?_⟩
      · intro j rest hlimit _
        obtain ⟨c, cs, hcs, -⟩ := exists_compact_cons j
        rw [hcs] at hlimit
        cases hlimit
      · intro j items rest hlimit
        cases hlimit
      · intro field fields rest hlimit
        cases hlimit
  | succ limit ih => exact ⟨ih.value_succ, ih.items_succ, ih.fields_succ⟩

/-- **A document is read back from its compact text.** -/
theorem read?_compact (j : Json) : read? j.compact = some j := by
  have hrest : NoDigit [] := by
    intro c hc
    cases hc
  have hread := (readsBack j.compact.length).value j [] (Nat.le_refl _) hrest
  rw [List.append_nil] at hread
  rw [read?, hread]

theorem compact_inj {j k : Json} (h : j.compact = k.compact) : j = k := by
  have hread := read?_compact j
  rw [h, read?_compact] at hread
  exact (Option.some.inj hread).symm

end Json

end StackCalc
