import Blockscript.Proofs.Number.Bits
import Blockscript.Proofs.Number.Digits
import Blockscript.Proofs.Grammar.Nodes
import Blockscript.Proofs.Scan.Spacing
import Blockscript.Proofs.Session.Single

/-!
# Numbers read back

The text of a number without a sign is one token, and its value is the number. The text of a number with a sign is a minus in front of such a token, and negation gives the number again. So a printed number is an expression whose value is that number, and two numbers with one text are the same.
-/

namespace Blockscript

open Scan Grammar Number

variable {text : String} {kind : Kind} {literal : Option Value}

/-! ### Reading -/

/-- A text of the lexicon is read as its token alone. -/
theorem readFrom_of_spells (h : Spells text.toList (.token kind literal)) (line offset : Nat) :
    ∃ lines, readFrom line offset text.toList =
      .ok ⟨[⟨kind, text, ⟨line, ⟨offset, offset + text.length⟩⟩, literal⟩], lines⟩ := by
  have hspaced : Spaced [] := by simp [Spaced]
  have hread := (h.taken hspaced).readFrom line offset
  rw [List.append_nil, readFrom] at hread
  refine ⟨line + text.toList.count '\n', hread.trans ?_⟩
  simp [Except.map, Reading.behind, Part.tokens, String.length_toList]

theorem scan_of_spells (h : Spells text.toList (.token kind literal)) :
    scan text = .ok [⟨kind, text, ⟨1, ⟨0, text.length⟩⟩, literal⟩] := by
  obtain ⟨lines, hread⟩ := readFrom_of_spells h 1 0
  rw [Nat.zero_add] at hread
  exact scan_ok_iff_read.2 ⟨lines, hread⟩

theorem scan_minus_of_spells (h : Spells text.toList (.token kind literal)) :
    scan ("-" ++ text) = .ok [⟨.subtract, "-", ⟨1, ⟨0, 1⟩⟩, none⟩,
      ⟨kind, text, ⟨1, ⟨1, 1 + text.length⟩⟩, literal⟩] := by
  have hminus : Part.Taken ⟨['-'], .token .subtract none⟩ text.toList := ⟨'-', [], rfl, piece_of_single rfl _⟩
  have hfirst : readFrom 1 0 (['-'] ++ text.toList) =
      (readFrom 1 1 text.toList).map (Reading.behind [⟨.subtract, "-", ⟨1, ⟨0, 1⟩⟩, none⟩]) := hminus.readFrom 1 0
  obtain ⟨lines, hread⟩ := readFrom_of_spells h 1 1
  rw [hread] at hfirst
  refine scan_ok_iff_read.2 ⟨lines, ?_⟩
  rw [Scan.read, String.toList_append]
  exact hfirst

/-! ### Running -/

/-- A program that is one expression answers its value. -/
theorem interpret_of_derives {source : String} {ts : List Token} {e : Expr} {value : Value}
    (hscan : scan source = .ok ts) (hderives : Derives .unary ts e) (hassign : e.isAssign = false)
    (hvalue : (e.eval .fresh).result = .ok value) : interpret source = .ok [value] := by
  obtain ⟨hresult, -⟩ := Session.fresh.interpret_of_parse hscan (parseProgram_of_derives hderives.toAssignment)
  rw [interpret, hresult, Stmt.execAll_singleton, (Stmt.exec_expression e _ _).1, hvalue, hassign]
  rfl

/-! ### Texts of numbers -/

/-- The text of a finite number is that of its pattern, with a sign in front if it has one. -/
theorem text_number {x : Float} (hfinite : pattern x < infinity) :
    (Value.number x).text = (if x.toBits.toNat < signBit then "" else "-") ++ magnitudeText (pattern x) := by
  rw [pattern] at hfinite
  simp only [Value.text, Number.text]
  rw [if_neg (Nat.not_lt_of_lt hfinite), if_neg hfinite.ne]
  rfl

/-- Without a sign the text is one token. -/
theorem scan_text_of_lt {x : Float} (h : x.abs < 1e21) (hsign : x.toBits.toNat < signBit) :
    let text := (Value.number x).text
    scan text = .ok [⟨.number, text, ⟨1, ⟨0, text.length⟩⟩, some (.number x)⟩] := by
  have hfinite := pattern_lt_of_abs_lt h
  have hspells := spells_magnitudeText hfinite (units_lt_of_abs_lt h)
  rw [ofBits_pattern hsign] at hspells
  rw [text_number hfinite, if_pos hsign, String.empty_append]
  exact scan_of_spells hspells

/-- With a sign it is a minus and the token of the negative. -/
theorem scan_text_of_le {x : Float} (h : x.abs < 1e21) (hsign : signBit ≤ x.toBits.toNat) :
    ∃ y digits, -y = x ∧ (Value.number x).text = "-" ++ digits ∧
      scan (Value.number x).text = .ok [⟨.subtract, "-", ⟨1, ⟨0, 1⟩⟩, none⟩,
        ⟨.number, digits, ⟨1, ⟨1, 1 + digits.length⟩⟩, some (.number y)⟩] := by
  have hfinite := pattern_lt_of_abs_lt h
  have hspells := spells_magnitudeText hfinite (units_lt_of_abs_lt h)
  rw [text_number hfinite, if_neg (Nat.not_lt.2 hsign)]
  exact ⟨_, _, neg_ofBits_pattern hsign hfinite, rfl, scan_minus_of_spells hspells⟩

theorem interpret_text {x : Float} (h : x.abs < 1e21) : interpret (Value.number x).text = .ok [.number x] := by
  rcases Nat.lt_or_ge x.toBits.toNat signBit with hsign | hsign
  · exact interpret_of_derives (scan_text_of_lt h hsign) (.tightest (.literal (.number rfl rfl))) rfl rfl
  · obtain ⟨y, digits, hneg, -, hscan⟩ := scan_text_of_le h hsign
    rw [← hneg] at hscan ⊢
    exact interpret_of_derives hscan (.unary (.inr rfl) (.tightest (.literal (.number rfl rfl)))) rfl rfl

/-- **A printed number reads back.** Take any number less than `10 ^ 21` in size, so neither infinite nor undefined. Its text, run as a program, answers that number alone, with the sign of zero kept. If the sign bit is clear, the whole text is one token, which has this number as its value; otherwise it is a minus and such a token, and the number is the negative of its value. So different numbers have different texts. -/
theorem printed_number_reads_back :
    (∀ x : Float, x.abs < 1e21 →
      let text := (Value.number x).text
      interpret text = .ok [.number x] ∧
        (x.toBits.toNat < signBit →
          scan text = .ok [⟨.number, text, ⟨1, ⟨0, text.length⟩⟩, some (.number x)⟩]) ∧
        (signBit ≤ x.toBits.toNat → ∃ y digits, -y = x ∧ text = "-" ++ digits ∧
          scan text = .ok [⟨.subtract, "-", ⟨1, ⟨0, 1⟩⟩, none⟩,
            ⟨.number, digits, ⟨1, ⟨1, 1 + digits.length⟩⟩, some (.number y)⟩])) ∧
    (∀ x y : Float, x.abs < 1e21 → y.abs < 1e21 → (Value.number x).text = (Value.number y).text → x = y) := by
  refine ⟨fun x h => ⟨interpret_text h, scan_text_of_lt h, scan_text_of_le h⟩, ?_⟩
  intro x y hx hy htext
  have hread := interpret_text hx
  rw [htext, interpret_text hy] at hread
  cases hread
  rfl

/-- The sum of a tenth and two tenths, which is the number after three tenths, and the negative of zero. -/
theorem printed_number_reads_back_inexact :
    let x : Float := 0.1 + 0.2
    let y : Float := .ofBits 0x3fd3333333333334
    let text := "0.30000000000000004"
    x.abs < 1e21 ∧ y.abs < 1e21 ∧ (-0.0 : Float).abs < 1e21 ∧
      (Value.number x).text = text ∧ (Value.number y).text = text ∧ x = y ∧
      x.toBits.toNat < signBit ∧ scan text = .ok [⟨.number, text, ⟨1, ⟨0, 19⟩⟩, some (.number x)⟩] ∧
      (Value.number (-0.0)).text = "-0" ∧ interpret "-0" = .ok [.number (-0.0)] := by
  intro x y text
  have hx : x.abs < 1e21 := by decide +kernel
  have hy : y.abs < 1e21 := by decide +kernel
  have hzero : (-0.0 : Float).abs < 1e21 := by decide +kernel
  have hxtext : (Value.number x).text = text := by decide +kernel
  have hytext : (Value.number y).text = text := by decide +kernel
  have hztext : (Value.number (-0.0)).text = "-0" := by decide +kernel
  have hsign : x.toBits.toNat < signBit := by decide +kernel
  obtain ⟨hreads, hinjective⟩ := printed_number_reads_back
  have hscan := (hreads x hx).2.1 hsign
  have hinterpret := (hreads (-0.0) hzero).1
  have hlength : text.length = 19 := by decide
  rw [hxtext, hlength] at hscan
  rw [hztext] at hinterpret
  exact ⟨hx, hy, hzero, hxtext, hytext, hinjective x y hx hy (hxtext.trans hytext.symm), hsign, hscan, hztext,
    hinterpret⟩

end Blockscript
