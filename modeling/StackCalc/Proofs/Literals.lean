/-
The values of literals that were scanned.

The scanner decides what a literal is by its shape, and the value is read from its text
afterwards.  The shapes leave little that can go wrong.  A string is its text, a truth value
is one of two words, and a double without its ticks has digits on both sides of one point,
which is always read as some double.  Only an integer can be refused, for having too many
digits.
-/
import StackCalc.Proofs.GrammarTree
import StackCalc.Proofs.Tiling
import StackCalc.Value.Literal

namespace StackCalc

open Grammar

/-! ### Doubles -/

theorem splitSign_of_digit {d : Char} (hd : d.isDigit = true) (cs : List Char) :
    splitSign (d :: cs) = (false, d :: cs) := by
  unfold splitSign
  split
  · rename_i heq
    obtain ⟨rfl, -⟩ := List.cons.inj heq
    exact absurd hd (by decide)
  · rename_i heq
    obtain ⟨rfl, -⟩ := List.cons.inj heq
    exact absurd hd (by decide)
  · rfl

theorem takeWhile_digits {ds : List Char} (hds : ∀ c ∈ ds, c.isDigit = true) (rest : List Char) :
    (ds ++ '.' :: rest).takeWhile Char.isDigit = ds ∧
      (ds ++ '.' :: rest).dropWhile Char.isDigit = '.' :: rest := by
  constructor
  · rw [List.takeWhile_append_of_pos hds]
    simp
  · rw [List.dropWhile_append_of_pos hds]
    simp

/-- Digits, a point and digits are a double. -/
theorem exists_readDouble? {d : Char} {ds fs : List Char} (hd : d.isDigit = true)
    (hds : ∀ c ∈ ds, c.isDigit = true) (hfs : ∀ c ∈ fs, c.isDigit = true) :
    ∃ x, readDouble? (d :: ds ++ '.' :: fs) = some x := by
  have hwhole : ∀ c ∈ d :: ds, c.isDigit = true := List.forall_mem_cons.mpr ⟨hd, hds⟩
  obtain ⟨htake, hdrop⟩ := takeWhile_digits hwhole fs
  have hfraction : fs.dropWhile Char.isDigit = [] := by
    simpa using @List.dropWhile_append_of_pos _ Char.isDigit fs [] hfs
  have hmagnitude : ∃ x, readMagnitude? (d :: ds ++ '.' :: fs) = some x := by
    unfold readMagnitude?
    simp only [htake, hdrop, hfraction, readExponent?]
    split
    · exact ⟨_, rfl⟩
    · split
      · exact ⟨_, rfl⟩
      · exact ⟨_, rfl⟩
  obtain ⟨x, hx⟩ := hmagnitude
  refine ⟨x, ?_⟩
  unfold readDouble?
  rw [List.cons_append, splitSign_of_digit hd]
  simp only [← List.cons_append, hx]
  rfl

/-- What is left of the digits of a number without its ticks. -/
theorem isDigit_of_mem_filter {cs : List Char} (h : ∀ c ∈ cs, isNumberChar c = true) :
    ∀ c ∈ cs.filter (fun c => c != '\''), c.isDigit = true := by
  intro c hc
  obtain ⟨hmem, htick⟩ := List.mem_filter.mp hc
  have hnumber := h c hmem
  unfold isNumberChar at hnumber
  simp_all

/-- The text of a double without its ticks has a digit on both sides of its one point. -/
theorem IsLexeme.exists_withoutTicks {text : List Char} (h : IsLexeme (.number .double) text) :
    ∃ d ds f fs, Value.withoutTicks (String.ofList text) = d :: ds ++ '.' :: (f :: fs) ∧
      d.isDigit = true ∧ (∀ c ∈ ds, c.isDigit = true) ∧ ∀ c ∈ f :: fs, c.isDigit = true := by
  cases h with
  | @double d f ds fs hd hds hf hfs =>
      have htick : ∀ {c : Char}, c.isDigit = true → (c != '\'') = true := by
        intro c hc
        rw [bne_iff_ne]
        rintro rfl
        exact absurd hc (by decide)
      refine ⟨d, ds.filter (fun c => c != '\''), f, fs.filter (fun c => c != '\''), ?_, hd,
        isDigit_of_mem_filter hds, List.forall_mem_cons.mpr ⟨hf, isDigit_of_mem_filter hfs⟩⟩
      simp [Value.withoutTicks, htick hd, htick hf]

/-! ### Tokens -/

theorem IsLexeme.exists_double {text : String} (h : IsLexeme (.number .double) text.toList) :
    ∃ v, Value.ofLiteral (.number .double) text = .ok v := by
  obtain ⟨d, ds, f, fs, htext, hd, hds, hfs⟩ := h.exists_withoutTicks
  obtain ⟨x, hx⟩ := exists_readDouble? hd hds hfs
  rw [String.ofList_toList] at htext
  refine ⟨.double x, ?_⟩
  simp only [Value.ofLiteral, htext, hx]

theorem IsLexeme.eq_spelling {k : Keyword} {text : String}
    (h : IsLexeme (.keyword k) text.toList) : text = k.spelling := by
  rw [← String.toList_inj]
  generalize text.toList = cs at h
  cases h with
  | keyword k => rfl

theorem Value.ofLiteral_integer_error {text : String} {x : ValueError}
    (h : Value.ofLiteral (.number .integer) text = .error x) : x = .invalidLiteral .integer text := by
  simp only [Value.ofLiteral] at h
  cases hv : Value.integerOf? text with
  | none =>
      rw [hv] at h
      exact (Except.error.inj h).symm
  | some v =>
      rw [hv] at h
      cases h

/-- **The only literal of a scanned text without a value is an integer.** -/
theorem kind_of_ofLiteral_error {source : String} {t : Token} (ht : t.Placed source)
    {kind : LiteralKind} {text : String} (hterminal : terminalOf t = .literal kind text)
    {x : ValueError} (h : Value.ofLiteral kind text = .error x) :
    t.kind = .number .integer ∧ x = .invalidLiteral .integer t.literal := by
  have hlexeme := ht.lexeme
  unfold terminalOf at hterminal
  unfold Token.written at hlexeme
  split at hterminal
  · rename_i n hkind
    obtain ⟨rfl, rfl⟩ := Terminal.literal.inj hterminal
    cases n with
    | integer => exact ⟨hkind, Value.ofLiteral_integer_error h⟩
    | double =>
        simp only [hkind] at hlexeme
        obtain ⟨v, hv⟩ := hlexeme.exists_double
        rw [hv] at h
        cases h
  · obtain ⟨rfl, rfl⟩ := Terminal.literal.inj hterminal
    cases h
  · rename_i hkind
    obtain ⟨rfl, rfl⟩ := Terminal.literal.inj hterminal
    simp only [hkind] at hlexeme
    rw [hlexeme.eq_spelling] at h
    cases h
  · rename_i hkind
    obtain ⟨rfl, rfl⟩ := Terminal.literal.inj hterminal
    simp only [hkind] at hlexeme
    rw [hlexeme.eq_spelling] at h
    cases h
  · simp at hterminal

end StackCalc
