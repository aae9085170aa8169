/-
Listings that look the same are of the same code.

A listing leaves things out.  The operand of an instruction has no column for its line, a line is
replaced by a bar where it repeats, and values are printed without quotes.  For code that was
compiled nothing is lost by that but the types of the constants.  Both bytes of a constant come
from one line, the operand is the number of constants before it, and the bar stands for a line
that has been read already.

So a listing is read from the front: if two chunks look alike up to an instruction, equal rows for
it say that they look alike behind it.  A row ends at its newline, and the only thing in a row
that could hold another one is a string, which came from a token and so does not.
-/
import Mathlib.Logic.Relation
import StackCalc.Proofs.Boundaries
import StackCalc.Proofs.DecidedRuns
import StackCalc.Proofs.LoweringErrors
import StackCalc.Proofs.PolishReading
import StackCalc.Proofs.PrintedIntegers

namespace StackCalc

open Relation

/-! ### Printed values -/

theorem newline_notMem_toDigits (n : Nat) : '\n' ∉ Nat.toDigits 10 n := by
  simpa using (isLexeme_toString n).newline_notMem

theorem Decimal.newline_notMem_positional (d : Decimal) : '\n' ∉ d.positional.toList := by
  have hdigits := (isLexeme_toString d.digits).newline_notMem
  unfold positional
  by_cases hwhole : 0 ≤ d.exponent
  · simp [hwhole, newline_notMem_toDigits, List.mem_replicate]
  · simp only [hwhole, if_false]
    split
    · rw [String.toList_ofList, List.mem_append, List.mem_cons]
      rintro (htaken | hpoint | hdropped)
      · exact hdigits (List.mem_of_mem_take htaken)
      · exact absurd hpoint (by decide)
      · exact hdigits (List.mem_of_mem_drop hdropped)
    · simp [newline_notMem_toDigits, List.mem_replicate]

theorem newline_notMem_doubleText (x : Float) : '\n' ∉ (doubleText x).toList := by
  have hsign : ∀ (negative : Prop) [Decidable negative],
      '\n' ∉ (if negative then "-" else "").toList := by
    intro negative _
    by_cases h : negative
    · simp [h]
    · simp [h]
  unfold doubleText
  simp only
  split
  · split
    · simp [hsign]
    · simp
  · split
    · split
      · simp [hsign]
      · simp [hsign, Decimal.newline_notMem_positional]
    · simp [hsign, Decimal.newline_notMem_positional]

namespace Value

/-- Only a string can be printed with a newline. -/
theorem newline_notMem_text {v : Value} (h : ∀ s, v = .string s → '\n' ∉ s.toList) :
    '\n' ∉ v.text.toList := by
  cases v with
  | double x => exact newline_notMem_doubleText x
  | integer n =>
      show '\n' ∉ (toString n.toInt).toList
      cases n.toInt with
      | ofNat m => exact (isLexeme_toString m).newline_notMem
      | negSucc m =>
          show '\n' ∉ ("-" ++ toString (m + 1)).toList
          simp [newline_notMem_toDigits]
  | bool b => cases b <;> decide
  | string s => exact h s rfl

theorem newline_notMem_ofLiteral {kind : LiteralKind} {text : String} {v : Value}
    (h : ofLiteral kind text = .ok v) (htext : '\n' ∉ text.toList) : '\n' ∉ v.text.toList := by
  refine newline_notMem_text ?_
  rintro s rfl
  have htag := tag_ofLiteral h
  cases kind with
  | number n => cases n <;> cases htag
  | string =>
      obtain rfl := Value.string.inj (Except.ok.inj h)
      exact htext
  | bool => cases htag

end Value

/-! ### Instructions as they are shown -/

namespace Chunk

/-- What the listing of a chunk shows for the constant that is added to it. -/
def constantBody (c : Chunk) (v : Value) : String :=
  padRight 16 Opcode.constant.mnemonic ++ " " ++
    (toString c.constants.size ++ " " ++ ("'" ++ v.text))

/-- `c'` is `c` with one instruction added for a line, and this is what a listing shows for it
behind its columns. -/
inductive Emits (c : Chunk) : UInt16 → String → Chunk → Prop
  | plain {op : Opcode} (line : UInt16) (hop : op.action ≠ .push) :
      Emits c line op.mnemonic (c.push op line)
  | constant {v : Value} (line : UInt16) (hroom : c.constants.size < maxConstants)
      (htext : '\n' ∉ v.text.toList) :
      Emits c line (c.constantBody v) (c.withConstant .constant v line)

/-- `c'` is `c` with instructions added. -/
def Grows : Chunk → Chunk → Prop :=
  ReflTransGen fun c c' => ∃ line body, c.Emits line body c'

theorem Extends.size_le {c d : Chunk} (h : c.Extends d) : c.size ≤ d.size := by
  simpa [size] using h.code.length_le

namespace Emits

variable {c c' d : Chunk} {line : UInt16} {body : String}

theorem extends_start (h : c.Emits line body c') : c.Extends c' := by
  cases h with
  | plain line hop => exact .push c _ line
  | constant line hroom htext => exact .withConstant c _ _ line

theorem covered (h : c.Emits line body c') (hc : c.Covered) : c'.Covered := by
  cases h with
  | plain line hop => exact hc.push _ line
  | constant line hroom htext => exact hc.withConstant _ _ line

theorem size_lt (h : c.Emits line body c') : c.size < c'.size := by
  cases h with
  | plain line hop => simp [push_eq]
  | constant line hroom htext => simp

theorem newline_notMem (h : c.Emits line body c') : '\n' ∉ body.toList := by
  cases h with
  | @plain op line hop => cases op <;> decide
  | constant line hroom htext =>
      simp [constantBody, padRight, repeated, Opcode.mnemonic, htext, newline_notMem_toDigits,
        List.mem_replicate]

/-- The instruction is recorded for its line. -/
theorem lineAt (h : c.Emits line body c') (hc : c.Covered) : c'.lineAt c.size = line := by
  rw [Chunk.lineAt, LineTable.lineAt_eq, ← hc.length_eq]
  cases h with
  | plain line hop => simp [push_eq]
  | constant line hroom htext => simp

/-- In the listing of a chunk that goes on, the instruction is shown as it should be, and the
next one is shown behind it. -/
theorem shown (h : c.Emits line body c') (hd : c'.Extends d) :
    d.body c.size = body ∧ c.size + d.listedWidth c.size = c'.size := by
  cases h with
  | @plain op line hop =>
      have hbyte := hd.getElem?_code (code_push c op line)
      refine ⟨by rw [body_eq hbyte (Opcode.ofByte?_toByte op), if_neg hop], ?_⟩
      rw [listedWidth_of_not_push hbyte (Opcode.ofByte?_toByte op) hop, push_eq, size_pushByte]
  | @constant v line hroom htext =>
      have hbyte := hd.getElem?_code (code_withConstant c .constant v line)
      have hplace := hd.getElem?_code (place_withConstant c .constant v line)
      have hvalue := hd.getElem?_constants (constant_withConstant hroom .constant v line)
      have hpush : Opcode.constant.action = .push := rfl
      refine ⟨?_, ?_⟩
      · rw [body_eq hbyte (Opcode.ofByte?_toByte _), if_pos hpush]
        simp only [constantText, hplace, hvalue]
        rw [toNat_place hroom]
        rfl
      · rw [listedWidth_of_push hbyte (Opcode.ofByte?_toByte _) hpush (by simp [hplace]),
          size_withConstant]

end Emits

theorem Grows.extends_start {c d : Chunk} (h : c.Grows d) : c.Extends d := by
  induction h with
  | refl => exact .refl c
  | tail _ hstep ih =>
      obtain ⟨line, body, hstep⟩ := hstep
      exact ih.trans hstep.extends_start

/-! ### Rows -/

/-- What the column for lines shows besides blanks, for an instruction that is added. -/
def lineMark (c : Chunk) (line : UInt16) : String :=
  if 0 < c.size ∧ line = c.lineAt (c.size - 1) then "|" else toString line.toNat

/-- The row of a listing for an instruction that is added. -/
def IsRow (c : Chunk) (line : UInt16) (body : String) (row : List Char) : Prop :=
  ∃ blanks, row = (fourDigits c.size).toList ++ ' ' :: (List.replicate blanks ' ' ++
    ((c.lineMark line).toList ++ ' ' :: (body.toList ++ ['\n'])))

/-- The column for lines compares with the byte before, which is the last one of the old chunk. -/
theorem Emits.lineColumn {c c' d : Chunk} {line : UInt16} {body : String}
    (h : c.Emits line body c') (hc : c.Covered) (hd : c'.Extends d) :
    ∃ blanks, d.lineColumn c.size = repeated blanks ' ' ++ c.lineMark line := by
  have hline : d.lineAt c.size = line := by
    rw [hd.lineAt (h.covered hc) h.size_lt, h.lineAt hc]
  have hbefore : 0 < c.size → d.lineAt (c.size - 1) = c.lineAt (c.size - 1) := by
    intro hpos
    exact (h.extends_start.trans hd).lineAt hc (Nat.sub_one_lt_of_lt hpos)
  unfold Chunk.lineColumn lineMark
  by_cases hsame : 0 < c.size ∧ line = c.lineAt (c.size - 1)
  · rw [if_pos hsame, hline, hbefore hsame.1, if_pos hsame]
    exact ⟨3, by decide⟩
  · have hdiffer : ¬ (0 < c.size ∧ line = d.lineAt (c.size - 1)) := by
      rintro ⟨hpos, heq⟩
      rw [hbefore hpos] at heq
      exact hsame ⟨hpos, heq⟩
    rw [if_neg hsame, hline, if_neg hdiffer]
    exact ⟨_, rfl⟩

theorem Emits.isRow {c c' d : Chunk} {line : UInt16} {body : String}
    (h : c.Emits line body c') (hc : c.Covered) (hd : c'.Extends d) :
    c.IsRow line body (d.instructionLine c.size).toList := by
  obtain ⟨blanks, hcolumn⟩ := h.lineColumn hc hd
  refine ⟨blanks, ?_⟩
  simp [instructionLine, linePieces, hcolumn, (h.shown hd).1, repeated]

/-- The rows of a listing from an offset on. -/
def rowsFrom (d : Chunk) (offset : Nat) : List Char :=
  (d.listedFrom offset).flatMap fun place => (d.instructionLine place).toList

theorem toList_listing (d : Chunk) (title : String) :
    (d.listing title).toList = ("== " ++ title ++ " ==\n").toList ++ d.rowsFrom 0 := by
  rw [listing, linesFrom_eq, String.toList_append, String.toList_join, List.flatMap_map]
  rfl

/-- An instruction has the first row, and the rest are of what was added behind it. -/
theorem Emits.rowsFrom {c c' d : Chunk} {line : UInt16} {body : String}
    (h : c.Emits line body c') (hc : c.Covered) (hd : c'.Extends d) :
    ∃ row, c.IsRow line body row ∧ d.rowsFrom c.size = row ++ d.rowsFrom c'.size := by
  refine ⟨_, h.isRow hc hd, ?_⟩
  have hlt : c.size < d.size := Nat.lt_of_lt_of_le h.size_lt hd.size_le
  rw [Chunk.rowsFrom, listedFrom_of_lt hlt, List.flatMap_cons, (h.shown hd).2]
  rfl

/-! ### Chunks that look alike -/

/-- The chunks differ at most in the types of their constants. -/
structure LooksLike (c c' : Chunk) : Prop where
  code : c.code = c'.code
  lines : c.lines = c'.lines
  constants : c.constants.map Value.text = c'.constants.map Value.text

namespace LooksLike

variable {c c' : Chunk} {line line' : UInt16}

theorem refl (c : Chunk) : c.LooksLike c := ⟨rfl, rfl, rfl⟩

theorem size_eq (h : c.LooksLike c') : c.size = c'.size :=
  congrArg Array.size h.code

theorem size_constants (h : c.LooksLike c') : c.constants.size = c'.constants.size := by
  simpa using congrArg Array.size h.constants

theorem lineAt (h : c.LooksLike c') (i : Nat) : c.lineAt i = c'.lineAt i :=
  congrArg (LineTable.lineAt · i) h.lines

theorem pushByte (h : c.LooksLike c') (b : UInt8) (line : UInt16) :
    (c.pushByte b line).LooksLike (c'.pushByte b line) :=
  ⟨congrArg (Array.push · b) h.code, congrArg (LineTable.push · line) h.lines, h.constants⟩

theorem withConstant (h : c.LooksLike c') (op : Opcode) {v v' : Value} (hv : v.text = v'.text)
    (line : UInt16) : (c.withConstant op v line).LooksLike (c'.withConstant op v' line) := by
  have hpool : ({ c with constants := c.constants.push v } : Chunk).LooksLike
      { c' with constants := c'.constants.push v' } :=
    ⟨h.code, h.lines, by simp [h.constants, hv]⟩
  rw [Chunk.withConstant, Chunk.withConstant, h.size_constants]
  exact (hpool.pushByte _ line).pushByte _ line

/-- A bar or a number in the column for lines tells the line, if the lines before are known. -/
theorem line_eq_of_mark (h : c.LooksLike c') (hmark : c.lineMark line = c'.lineMark line') :
    line = line' := by
  have hbar : ∀ n : Nat, "|" ≠ toString n := by
    intro n hn
    have hmem : '|' ∈ (toString n).toList := by
      rw [← hn]
      decide
    exact absurd (isDigit_of_mem_toString hmem) (by decide)
  unfold lineMark at hmark
  rw [← h.size_eq, ← h.lineAt] at hmark
  by_cases hsame : 0 < c.size ∧ line = c.lineAt (c.size - 1)
  · rw [if_pos hsame] at hmark
    by_cases hsame' : 0 < c.size ∧ line' = c.lineAt (c.size - 1)
    · rw [hsame.2, hsame'.2]
    · rw [if_neg hsame'] at hmark
      exact absurd hmark (hbar _)
  · rw [if_neg hsame] at hmark
    by_cases hsame' : 0 < c.size ∧ line' = c.lineAt (c.size - 1)
    · rw [if_pos hsame'] at hmark
      exact absurd hmark.symm (hbar _)
    · rw [if_neg hsame'] at hmark
      have hvalue := congrArg decimalValue hmark
      rw [decimalValue_toString, decimalValue_toString] at hvalue
      exact UInt16.toNat_inj.mp hvalue

end LooksLike

/-- The mark is a word of its own. -/
theorem exists_lineMark (c : Chunk) (line : UInt16) :
    ∃ x xs, (c.lineMark line).toList = x :: xs ∧ x ≠ ' ' ∧ ' ' ∉ x :: xs := by
  have hblank : ∀ n : Nat, ' ' ∉ (toString n).toList := fun n hmem =>
    absurd (isDigit_of_mem_toString hmem) (by decide)
  unfold lineMark
  split
  · exact ⟨'|', [], rfl, by decide, by decide⟩
  · obtain ⟨x, xs, htext, hx⟩ := Json.exists_digits line.toNat
    refine ⟨x, xs, htext, ?_, htext ▸ hblank _⟩
    rintro rfl
    exact absurd hx (by decide)

/-- What a row says is known where it ends. -/
theorem IsRow.unique {c c' : Chunk} {line line' : UInt16} {body body' : String}
    {row row' rest rest' : List Char} (h : c.IsRow line body row) (h' : c'.IsRow line' body' row')
    (hlooks : c.LooksLike c') (hbody : '\n' ∉ body.toList) (hbody' : '\n' ∉ body'.toList)
    (heq : row ++ rest = row' ++ rest') : line = line' ∧ body = body' ∧ rest = rest' := by
  obtain ⟨blanks, hrow⟩ := h
  obtain ⟨blanks', hrow'⟩ := h'
  obtain ⟨x, xs, hmark, hx, hword⟩ := c.exists_lineMark line
  obtain ⟨x', xs', hmark', hx', hword'⟩ := c'.exists_lineMark line'
  rw [hrow, hrow', ← hlooks.size_eq] at heq
  simp only [List.append_assoc, List.cons_append, List.nil_append, hmark, hmark'] at heq
  obtain ⟨-, heq⟩ := List.cons.inj (List.append_cancel_left heq)
  -- The blanks end at the mark, the mark at the next blank, and the rest at the newline.
  have hblanks : ∀ n, ∀ a ∈ List.replicate n ' ', (a != ' ') = false := by
    intro n a ha
    rw [List.eq_of_mem_replicate ha]
    rfl
  obtain ⟨-, heq⟩ := append_inj_of_stop (hblanks blanks) (hblanks blanks')
    (by simpa using hx) (by simpa using hx') heq
  obtain ⟨hmarks, heq⟩ := append_cons_inj_of_stop hword hword' heq
  obtain ⟨htext, hrest⟩ := append_cons_inj_of_stop hbody hbody' heq
  rw [← hmark, ← hmark', String.toList_inj] at hmarks
  exact ⟨hlooks.line_eq_of_mark hmarks, String.toList_inj.mp htext, hrest⟩

theorem mnemonic_inj {op op' : Opcode} (h : op.mnemonic = op'.mnemonic) : op = op' := by
  revert h
  cases op <;> cases op' <;> decide

/-- A mnemonic by itself is not taken for one with an operand. -/
theorem mnemonic_ne_constantBody (op : Opcode) (c : Chunk) (v : Value) :
    op.mnemonic ≠ c.constantBody v := by
  intro h
  have hblank : ' ' ∉ op.mnemonic.toList := by cases op <;> decide
  rw [h, constantBody] at hblank
  simp at hblank

/-- **An instruction that is shown alike in chunks that look alike keeps them alike.** -/
theorem LooksLike.emits {c c' d d' : Chunk} {line : UInt16} {body : String} (h : c.LooksLike c')
    (hc : c.Emits line body d) (hc' : c'.Emits line body d') : d.LooksLike d' := by
  generalize hbody : body = other at hc'
  cases hc with
  | @plain op line hop =>
      cases hc' with
      | plain line hop' =>
          rw [mnemonic_inj hbody]
          exact h.pushByte _ line
      | constant line hroom htext => exact absurd hbody (mnemonic_ne_constantBody _ _ _)
  | @constant v line hroom htext =>
      cases hc' with
      | plain line hop => exact absurd hbody.symm (mnemonic_ne_constantBody _ _ _)
      | constant line hroom' htext' =>
          rw [constantBody, constantBody, h.size_constants, String.append_right_inj,
            String.append_right_inj, String.append_right_inj] at hbody
          exact h.withConstant .constant hbody line

/-- **Equal rows to the end are of chunks that look alike to the end.** -/
theorem LooksLike.grows {c c' d d' : Chunk} (h : c.LooksLike c') (hc : c.Covered) (hc' : c'.Covered)
    (hgrows : c.Grows d) (hgrows' : c'.Grows d')
    (hrows : d.rowsFrom c.size = d'.rowsFrom c'.size) : d.LooksLike d' := by
  have hstop : ∀ d : Chunk, d.rowsFrom d.size = [] := by
    intro d
    rw [rowsFrom, listedFrom_of_le (Nat.le_refl _), List.flatMap_nil]
  -- A row is not empty, so neither listing ends before the other.
  have hrow : ∀ {c : Chunk} {line body row rest}, c.IsRow line body row → row ++ rest ≠ [] := by
    rintro c line body row rest ⟨blanks, hrow⟩
    simp [hrow]
  induction hgrows using ReflTransGen.head_induction_on generalizing c' with
  | refl =>
      rcases hgrows'.cases_head with rfl | ⟨c₁', ⟨line', body', hstep'⟩, hgrows'⟩
      · exact h
      · obtain ⟨row, hisrow, heq⟩ := hstep'.rowsFrom hc' (Grows.extends_start hgrows')
        rw [hstop, heq] at hrows
        exact absurd hrows.symm (hrow hisrow)
  | @head c c₁ hstep hgrows ih =>
      obtain ⟨line, body, hstep⟩ := hstep
      obtain ⟨row, hisrow, heq⟩ := hstep.rowsFrom hc (Grows.extends_start hgrows)
      rcases hgrows'.cases_head with rfl | ⟨c₁', ⟨line', body', hstep'⟩, hgrows'⟩
      · rw [hstop, heq] at hrows
        exact absurd hrows (hrow hisrow)
      · obtain ⟨row', hisrow', heq'⟩ := hstep'.rowsFrom hc' (Grows.extends_start hgrows')
        rw [heq, heq'] at hrows
        obtain ⟨rfl, rfl, hrest⟩ := hisrow.unique hisrow' h hstep.newline_notMem
          hstep'.newline_notMem hrows
        exact ih (h.emits hstep hstep') (hstep.covered hc) (hstep'.covered hc') hgrows' hrest

end Chunk

/-! ### Compiled code -/

theorem Token.mem_written (t : Token) {c : Char} (h : c ∈ t.literal.toList) :
    c ∈ t.written.toList := by
  unfold written
  split
  · simp [h]
  · exact h

/-- Lowering adds instructions one by one. -/
theorem Expr.Lowered.grows {e : Expr} {c c' : Chunk} (h : Lowered e c c')
    (hliterals : ∀ s kind text, .literal s kind text ∈ e.nodes → '\n' ∉ text.toList) :
    c.Grows c' := by
  induction h with
  | @literal s kind text c line v hline hv hroom =>
      have htext := hliterals s kind text (by simp [nodes])
      exact .single ⟨line, _, .constant line hroom (Value.newline_notMem_ofLiteral hv htext)⟩
  | plus _ _ _ ih =>
      exact ih fun s kind text hmem => hliterals s kind text (by simp [nodes, hmem])
  | @unary s op u e c c' line _ _ _ ih =>
      refine .tail (ih fun s kind text hmem => hliterals s kind text (by simp [nodes, hmem])) ?_
      exact ⟨line, _, .plain line (by simp)⟩
  | @binary s level op b l r c c₁ c₂ line _ _ _ _ ihl ihr =>
      refine .tail (.trans
        (ihl fun s kind text hmem => hliterals s kind text (by simp [nodes, hmem]))
        (ihr fun s kind text hmem => hliterals s kind text (by simp [nodes, hmem]))) ?_
      exact ⟨line, _, .plain line (by simp)⟩
  | grouping _ ih =>
      exact ih fun s kind text hmem => hliterals s kind text (by simp [nodes, hmem])
  | primary _ ih =>
      exact ih fun s kind text hmem => hliterals s kind text (by simp [nodes, hmem])

namespace Chunk

theorem grows_of_ofSource {source : String} {c : Chunk} (h : Chunk.ofSource source = .ok c) :
    empty.Grows c := by
  obtain ⟨ts, e, hscan, hparse, hlower⟩ := ofSource_eq_ok h
  obtain ⟨c₁, hlowered, rfl⟩ := Expr.lowered_of_lower hlower
  refine .tail (hlowered.grows ?_) ⟨0, _, .plain 0 (by decide)⟩
  intro s kind text hmem
  obtain ⟨⟨body, tail, hderives, -, rfl⟩, -, -⟩ := Parser.program_of_ofTokens hparse
  obtain ⟨t, ht, -, hterminal⟩ := hderives.exists_literal hmem
  have hplaced := Token.placed_of_scan hscan t (by simp [ht])
  obtain ⟨rfl, -⟩ := literal_of_terminalOf hterminal
  exact fun hline => hplaced.lexeme.newline_notMem (t.mem_written hline)

/-- **Listings that look the same are of the same code.**  If two texts compile and are listed
alike under one title, they have the same bytes, the same line table entry by entry and so the
same line for every byte, and as many constants, which are printed the same place by place. -/
theorem eq_of_listing_eq {source source' title : String} {c c' : Chunk}
    (h : Chunk.ofSource source = .ok c) (h' : Chunk.ofSource source' = .ok c')
    (hlisting : c.listing title = c'.listing title) :
    c.code = c'.code ∧
    c.lines.runs.map LineRun.pack = c'.lines.runs.map LineRun.pack ∧
    (∀ i, c.lineAt i = c'.lineAt i) ∧
    c.constants.size = c'.constants.size ∧
    ∀ i : Nat, c.constants[i]?.map Value.text = c'.constants[i]?.map Value.text := by
  have hrows : c.rowsFrom 0 = c'.rowsFrom 0 := by
    have htext := congrArg String.toList hlisting
    rw [toList_listing, toList_listing] at htext
    exact List.append_cancel_left htext
  have hlooks := (LooksLike.refl empty).grows covered_empty covered_empty (grows_of_ofSource h)
    (grows_of_ofSource h') hrows
  refine ⟨hlooks.code, by rw [hlooks.lines], hlooks.lineAt, hlooks.size_constants, ?_⟩
  intro i
  rw [← Array.getElem?_map, ← Array.getElem?_map, hlooks.constants]

/-- An integer and a string that is printed like it are listed alike, and only the pools differ. -/
theorem listing_quotedOne :
    ∃ c c', Chunk.ofSource "1\n+ 2" = .ok c ∧ Chunk.ofSource "\"1\"\n +2 ." = .ok c' ∧
      c.listing "sum" = c'.listing "sum" ∧ c.constants ≠ c'.constants ∧
      c.code = c'.code ∧ ∀ i : Nat, c.lineAt i = c'.lineAt i := by
  have h : Chunk.ofSource "1\n+ 2" = .ok ⟨#[1, 0, 1, 1, 4, 0], #[.integer 1, .integer 2],
      ⟨#[⟨1, 2⟩, ⟨2, 3⟩, ⟨0, 1⟩]⟩⟩ := by
    decide +kernel
  have h' : Chunk.ofSource "\"1\"\n +2 ." = .ok ⟨#[1, 0, 1, 1, 4, 0], #[.string "1", .integer 2],
      ⟨#[⟨1, 2⟩, ⟨2, 3⟩, ⟨0, 1⟩]⟩⟩ := by
    decide +kernel
  have hsame := eq_of_listing_eq h h' (show listing _ "sum" = listing _ "sum" by decide +kernel)
  exact ⟨_, _, h, h', by decide +kernel, by simp, hsame.1, hsame.2.2.1⟩

end Chunk

end StackCalc
