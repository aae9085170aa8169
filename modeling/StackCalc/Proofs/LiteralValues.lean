/-
Every literal that is scanned names its value.

The scanner sees to the shape of a literal and the reader to its value, and between them the
ticks are dropped.  What is left of an integer is digits, because it starts with one and goes on
with digits and ticks only.  So it is read as the number that the digits name, and the one thing
that can be wrong with it is its size.  The reader stops counting once a number is too large,
which changes its value but not that it is too large.

A double starts with a digit and has another right behind its point.  So there are digits left
on both sides of the point however many ticks are dropped, and it is always read as some double.
-/
import StackCalc.Proofs.IntegerArithmetic
import StackCalc.Proofs.Literals

namespace StackCalc

/-! ### Integers -/

/-- The number that a text names in decimal, however large it is, when its ticks are dropped. -/
def decimalValue (text : String) : Nat :=
  Nat.ofDigitChars 10 (Value.withoutTicks text) 0

theorem digitsValue_withoutTicks (text : String) :
    digitsValue (Value.withoutTicks text) = decimalValue text := rfl

theorem isDigits_cons {d : Char} {ds : List Char} (hd : d.isDigit = true)
    (hds : ∀ c ∈ ds, c.isDigit = true) : isDigits (d :: ds) = true := by
  simp only [isDigits, List.isEmpty_cons, Bool.not_false, Bool.true_and, List.all_eq_true]
  exact List.forall_mem_cons.mpr ⟨hd, hds⟩

/-- What is left of an integer without its ticks is digits. -/
theorem IsLexeme.isDigits_withoutTicks {text : String}
    (h : IsLexeme (.number .integer) text.toList) : isDigits (Value.withoutTicks text) = true := by
  unfold Value.withoutTicks
  generalize text.toList = cs at h
  cases h with
  | @integer d ds hd hds =>
      have htick : d ≠ '\'' := by
        rintro rfl
        exact absurd hd (by decide)
      rw [List.filter_cons_of_pos (by simpa using htick)]
      exact isDigits_cons hd (isDigit_of_mem_filter hds)

/-- Digits have no sign in front of them. -/
theorem readInt?_of_isDigits {ds : List Char} (h : isDigits ds = true) (bound : Nat) :
    readInt? bound ds = some (valueUpTo bound ds : Int) := by
  have hsign : splitSign ds = (false, ds) := by
    simp only [isDigits, Bool.and_eq_true, Bool.not_eq_true', List.isEmpty_eq_false_iff] at h
    obtain ⟨d, rest, rfl⟩ := List.exists_cons_of_ne_nil h.1
    exact splitSign_of_digit (List.all_eq_true.mp h.2 d List.mem_cons_self) rest
  unfold readInt?
  simp only [hsign, h, if_true, Bool.false_eq_true, if_false]

namespace Value

theorem exists_ofLiteral_of_le {text : String} (h : isDigits (withoutTicks text) = true)
    (hle : decimalValue text ≤ 2147483647) :
    ∃ n : Int32, n.toInt = decimalValue text ∧
      ofLiteral (.number .integer) text = .ok (.integer n) := by
  have hbound : digitsValue (withoutTicks text) ≤ magnitudeBound :=
    Nat.le_trans hle (by decide)
  have hword : InWord (decimalValue text : Int) := by
    unfold InWord
    omega
  refine ⟨Int32.ofInt (decimalValue text), toInt_ofInt hword, ?_⟩
  simp only [ofLiteral, integerOf?, readInt?_of_isDigits h, valueUpTo_of_le hbound,
    digitsValue_withoutTicks, Option.bind_some, (inRange_iff _).mpr hword, if_true,
    Option.elim_some]

/-- A number that is too large is still too large when the reader stops counting. -/
theorem ofLiteral_of_lt {text : String} (h : isDigits (withoutTicks text) = true)
    (hlt : 2147483647 < decimalValue text) :
    ofLiteral (.number .integer) text = .error (.invalidLiteral .integer text) := by
  have habove : 2147483647 < valueUpTo magnitudeBound (withoutTicks text) := by
    by_cases hbound : digitsValue (withoutTicks text) ≤ magnitudeBound
    · rw [valueUpTo_of_le hbound]
      exact hlt
    · exact Nat.lt_trans (by decide) (lt_valueUpTo (Nat.not_le.mp hbound))
  have hrange : ¬ inRange (valueUpTo magnitudeBound (withoutTicks text) : Int) = true := by
    rw [inRange_iff]
    unfold InWord
    omega
  simp only [ofLiteral, integerOf?, readInt?_of_isDigits h, Option.bind_some, if_neg hrange,
    Option.elim_none]

end Value

/-! ### Doubles -/

/-- A double without its ticks is digits, a point and digits. -/
theorem IsLexeme.exists_digits_point_digits {text : String}
    (h : IsLexeme (.number .double) text.toList) :
    ∃ whole fraction, Value.withoutTicks text = whole ++ '.' :: fraction ∧
      isDigits whole = true ∧ isDigits fraction = true := by
  obtain ⟨d, ds, f, fs, htext, hd, hds, hfs⟩ := h.exists_withoutTicks
  rw [String.ofList_toList] at htext
  obtain ⟨hf, hfs⟩ := List.forall_mem_cons.mp hfs
  exact ⟨d :: ds, f :: fs, htext, isDigits_cons hd hds, isDigits_cons hf hfs⟩

/-! ### Tokens -/

namespace Token

/-- A token other than a string is written as its literal. -/
theorem Placed.isLexeme {source : String} {t : Token} (h : t.Placed source)
    (hkind : t.kind ≠ .string) : IsLexeme t.kind t.literal.toList := by
  have hlexeme := h.lexeme
  unfold written at hlexeme
  split at hlexeme
  · rename_i hstring
    exact absurd hstring hkind
  · exact hlexeme

/-- **Scanned literals have the values that they name.**  An integer without its ticks is digits
and has the value that they name, or is refused as it stands when that value has more than 32
bits.  A double without its ticks is digits, a point and digits, so it always has a value, and so
have the two truth values and every string. -/
theorem ofLiteral_of_scan {source : String} {ts : List Token} (h : scan source = .ok ts)
    {t : Token} (ht : t ∈ ts) :
    (t.kind = .number .integer →
      isDigits (Value.withoutTicks t.literal) = true ∧
      (decimalValue t.literal ≤ 2147483647 →
        ∃ n : Int32, n.toInt = decimalValue t.literal ∧
          Value.ofLiteral (.number .integer) t.literal = .ok (.integer n)) ∧
      (2147483647 < decimalValue t.literal →
        Value.ofLiteral (.number .integer) t.literal =
          .error (.invalidLiteral .integer t.literal))) ∧
    (t.kind = .number .double →
      (∃ whole fraction, Value.withoutTicks t.literal = whole ++ '.' :: fraction ∧
        isDigits whole = true ∧ isDigits fraction = true) ∧
      ∃ x, Value.ofLiteral (.number .double) t.literal = .ok (.double x)) ∧
    (t.kind = .keyword .trueWord → Value.ofLiteral .bool t.literal = .ok (.bool true)) ∧
    (t.kind = .keyword .falseWord → Value.ofLiteral .bool t.literal = .ok (.bool false)) ∧
    (t.kind = .string → Value.ofLiteral .string t.literal = .ok (.string t.literal)) := by
  have hplaced := placed_of_scan h t ht
  refine ⟨?_, ?_, ?_, ?_, ?_⟩
  · intro hkind
    have hlexeme := hplaced.isLexeme (by simp [hkind])
    rw [hkind] at hlexeme
    have hdigits := hlexeme.isDigits_withoutTicks
    exact ⟨hdigits, Value.exists_ofLiteral_of_le hdigits, Value.ofLiteral_of_lt hdigits⟩
  · intro hkind
    have hlexeme := hplaced.isLexeme (by simp [hkind])
    rw [hkind] at hlexeme
    refine ⟨hlexeme.exists_digits_point_digits, ?_⟩
    obtain ⟨v, hv⟩ := hlexeme.exists_double
    have htag := Value.tag_ofLiteral hv
    cases v with
    | double x => exact ⟨x, hv⟩
    | _ => cases htag
  · intro hkind
    have hlexeme := hplaced.isLexeme (by simp [hkind])
    rw [hkind] at hlexeme
    rw [hlexeme.eq_spelling]
    rfl
  · intro hkind
    have hlexeme := hplaced.isLexeme (by simp [hkind])
    rw [hkind] at hlexeme
    rw [hlexeme.eq_spelling]
    rfl
  · intro _
    rfl

/-- Ticks at every place where they can stand, zeros in front, and the first integer that is too
large. -/
def tickedText : String :=
  "1''.0' 0'0'7 2'147'483'648 2147483647 \"'\" true"

def tickedTokens : List Token :=
  [⟨.number .double, "1''.0'", ⟨⟨1, 1⟩, ⟨0, 6⟩⟩⟩, ⟨.number .integer, "0'0'7", ⟨⟨1, 8⟩, ⟨7, 12⟩⟩⟩,
    ⟨.number .integer, "2'147'483'648", ⟨⟨1, 14⟩, ⟨13, 26⟩⟩⟩,
    ⟨.number .integer, "2147483647", ⟨⟨1, 28⟩, ⟨27, 37⟩⟩⟩, ⟨.string, "'", ⟨⟨1, 39⟩, ⟨38, 41⟩⟩⟩,
    ⟨.keyword .trueWord, "true", ⟨⟨1, 43⟩, ⟨42, 46⟩⟩⟩]

theorem ofLiteral_tickedText :
    scan tickedText = .ok tickedTokens ∧
      (∃ x, Value.ofLiteral (.number .double) "1''.0'" = .ok (.double x)) ∧
      (∃ n : Int32, n.toInt = 7 ∧ Value.ofLiteral (.number .integer) "0'0'7" = .ok (.integer n)) ∧
      Value.ofLiteral (.number .integer) "2'147'483'648" =
        .error (.invalidLiteral .integer "2'147'483'648") ∧
      (∃ n : Int32, n.toInt = 2147483647 ∧
        Value.ofLiteral (.number .integer) "2147483647" = .ok (.integer n)) ∧
      Value.ofLiteral .string "'" = .ok (.string "'") ∧
      Value.ofLiteral .bool "true" = .ok (.bool true) := by
  have hscan : scan tickedText = .ok tickedTokens := by decide +kernel
  have hread : ∀ index (hlt : index < tickedTokens.length), _ :=
    fun index hlt => ofLiteral_of_scan hscan (List.getElem_mem hlt)
  have hseven := ((hread 1 (by decide)).1 rfl).2.1 (by decide)
  rw [show decimalValue tickedTokens[1].literal = 7 by decide] at hseven
  have hlargest := ((hread 3 (by decide)).1 rfl).2.1 (by decide)
  rw [show decimalValue tickedTokens[3].literal = 2147483647 by decide] at hlargest
  exact ⟨hscan, ((hread 0 (by decide)).2.1 rfl).2, hseven,
    ((hread 2 (by decide)).1 rfl).2.2 (by decide), hlargest, (hread 4 (by decide)).2.2.2.2 rfl,
    (hread 5 (by decide)).2.2.1 rfl⟩

end Token

end StackCalc
