import Blockscript.Proofs.Scan.Excerpts
import Blockscript.Proofs.Scan.Refusals

/-!
# Texts that go on

A piece ends in front of a character that does not belong to it, so it stays the same if the text goes on behind that character. Only a piece at the very end of a text may become longer. Of the refusals only that of an open string depends on what follows, since its closing quote may still come.

So a text that is refused for another reason is refused in the same way whatever is written behind it. A text behind a line break is read or refused as it is on its own, since the piece that takes the break ends with it.
-/

namespace Blockscript.Scan

variable {c : Char} {cs : List Char}

/-! ### Pieces of longer texts -/

/-- What is found at the front of a text is settled: a piece that ends before the text does, or a refusal that no further quote can mend. -/
def Settled (cs : List Char) : Except Refusal Piece → Prop
  | .ok p => p.after < cs.length
  | .error r => r.problem ≠ .unterminatedString

theorem head?_append_of_length_lt {front rest : List Char} (h : front.length < (front ++ rest).length)
    (more : List Char) : (rest ++ more).head? = rest.head? := by
  apply List.head?_append_of_ne_nil
  rintro rfl
  rw [List.append_nil] at h
  exact Nat.lt_irrefl _ h

theorem paired_append {plain withEquals : Kind} (hpaired : paired? c = some (plain, withEquals))
    (h : Settled cs (piece c cs)) (more : List Char) : piece c (cs ++ more) = piece c cs := by
  have hne : cs ≠ [] := by
    rintro rfl
    rw [piece_of_paired hpaired] at h
    exact Nat.not_lt_zero _ h
  rw [piece_of_paired hpaired, piece_of_paired hpaired, List.head?_append_of_ne_nil _ hne]

theorem slash_append (h : Settled cs (piece '/' cs)) (more : List Char) : piece '/' (cs ++ more) = piece '/' cs := by
  cases cs with
  | nil => exact absurd h (Nat.not_lt_zero _)
  | cons d cs =>
      by_cases hcomment : d = '/'
      · subst hcomment
        rcases exists_run_of_ne '\n' cs with hopen | ⟨text, rest, rfl, htext⟩
        · have hlt : 1 + commentLength cs < cs.length + 1 := h
          rw [commentLength_open hopen] at hlt
          omega
        · have hlength : commentLength (text ++ '\n' :: rest ++ more) = commentLength (text ++ '\n' :: rest) := by
            rw [List.append_assoc, List.cons_append, commentLength_line htext, commentLength_line htext]
          exact congrArg (fun length => (.ok ⟨1 + length, .blank⟩ : Except Refusal Piece)) hlength
      · have hhead : ∀ more, (d :: cs ++ more).head? ≠ some '/' := by simp [hcomment]
        rw [piece_slash, piece_slash, if_neg (hhead more), if_neg]
        simpa using hhead []

theorem stringPiece_append (h : Settled cs (stringPiece cs)) (more : List Char) :
    stringPiece (cs ++ more) = stringPiece cs := by
  rcases exists_run_of_ne '"' cs with hopen | ⟨inside, rest, rfl, hinside⟩
  · rw [stringPiece_open hopen] at h
    exact absurd rfl h
  · rw [List.append_assoc, List.cons_append, stringPiece_closed hinside, stringPiece_closed hinside]

theorem numberPiece_append (hc : c.isDigit = true) (h : Settled cs (numberPiece c cs)) (more : List Char) :
    numberPiece c (cs ++ more) = numberPiece c cs := by
  rcases number_shapes cs with ⟨whole, rest, rfl, hwhole, hstop, hpoint⟩ |
    ⟨whole, fraction, rest, rfl, hwhole, hfraction, hstop, hpoint⟩ | ⟨whole, fraction, rest, rfl, hwhole, hfraction⟩
  · rw [numberPiece_whole hc hwhole hstop hpoint] at h ⊢
    have hhead := head?_append_of_length_lt h more
    rw [List.append_assoc]
    exact numberPiece_whole hc hwhole (hhead ▸ hstop) (hhead ▸ hpoint)
  · rw [numberPiece_fraction hc hwhole hfraction hstop hpoint] at h ⊢
    have hlt : (whole ++ '.' :: fraction).length < (whole ++ '.' :: fraction ++ rest).length := by
      simp only [Settled, List.length_append, List.length_cons] at h ⊢
      omega
    have hhead := head?_append_of_length_lt hlt more
    rw [List.append_assoc, List.cons_append, List.append_assoc]
    exact numberPiece_fraction hc hwhole hfraction (hhead ▸ hstop) (hhead ▸ hpoint)
  · rw [List.append_assoc, List.cons_append, List.append_assoc, List.cons_append,
      numberPiece_repeated c hwhole hfraction, numberPiece_repeated c hwhole hfraction]

theorem wordPiece_append (h : (wordPiece c cs).after < cs.length) (more : List Char) :
    wordPiece c (cs ++ more) = wordPiece c cs := by
  obtain ⟨run, rest, rfl, hrun, hstop⟩ := exists_run isWordChar cs
  rw [wordPiece_eq c hrun hstop] at h ⊢
  have hhead := head?_append_of_length_lt h more
  rw [List.append_assoc]
  exact wordPiece_eq c hrun (hhead ▸ hstop)

/-- What is settled stays as it is when the text goes on. -/
theorem piece_append (h : Settled cs (piece c cs)) (more : List Char) : piece c (cs ++ more) = piece c cs := by
  rcases first_sorts c with hblank | ⟨kind, hsingle⟩ | ⟨plain, withEquals, hpaired⟩ | rfl | rfl | hdigit | halpha |
    hunlisted
  · rw [piece_of_isBlank hblank, piece_of_isBlank hblank]
  · rw [piece_of_single hsingle, piece_of_single hsingle]
  · exact paired_append hpaired h more
  · exact slash_append h more
  · exact stringPiece_append h more
  · rw [piece_of_isDigit hdigit] at h ⊢
    rw [piece_of_isDigit hdigit]
    exact numberPiece_append hdigit h more
  · rw [piece_of_isAlpha halpha] at h ⊢
    rw [piece_of_isAlpha halpha, wordPiece_append h]
  · rw [hunlisted.piece, hunlisted.piece]

/-- A part with something behind it is still taken when the text goes on. -/
theorem Part.Taken.append {part : Part} {rest : List Char} (h : part.Taken rest) (hne : rest ≠ [])
    (more : List Char) : part.Taken (rest ++ more) := by
  obtain ⟨c, text, htext, hpiece⟩ := h
  have hsettled : Settled (text ++ rest) (piece c (text ++ rest)) := by
    rw [hpiece]
    show text.length < (text ++ rest).length
    rw [List.length_append]
    exact Nat.lt_add_of_pos_right (List.length_pos_iff.2 hne)
  refine ⟨c, text, htext, ?_⟩
  rw [← List.append_assoc, piece_append hsettled, hpiece]

/-- A refused text is refused in the same way when it goes on, unless the refusal is that of an open string. -/
theorem readFrom_append_refused {line offset : Nat} {source : List Char} {m : Misread}
    (h : readFrom line offset source = .error m) (hclosed : m.problem ≠ .unterminatedString) (more : List Char) :
    readFrom line offset (source ++ more) = .error m := by
  cases source with
  | nil =>
      rw [readFrom] at h
      cases h
  | cons c cs =>
      obtain ⟨r, hpiece⟩ | ⟨part, rest, hsplit, -, htaken, hshorter⟩ := refused_or_taken c cs
      · rw [readFrom, hpiece] at h
        obtain rfl := Except.error.inj h
        have hsettled : Settled cs (piece c cs) := by
          rw [hpiece]
          exact hclosed
        rw [List.cons_append, readFrom, piece_append hsettled, hpiece]
      · rw [← hsplit, htaken.readFrom_error_iff] at h
        have hne : rest ≠ [] := by
          rintro rfl
          rw [readFrom] at h
          cases h
        rw [← hsplit, List.append_assoc, (htaken.append hne more).readFrom_error_iff]
        exact readFrom_append_refused h hclosed more
termination_by source.length

end Blockscript.Scan

namespace Blockscript

open Scan

/-- The same lexical fault at a moved place. An unexpected character is quoted with its offset, which moves as well. -/
inductive Fault.Requoted (m : Move) : Fault → Fault → Prop
  | character (place : Place) (c : Char) :
      Requoted m (.lexical place ((Problem.unexpectedCharacter c).message place.span.start))
        (.lexical (m.place place) ((Problem.unexpectedCharacter c).message (m.place place).span.start))
  | other (place : Place) {message : String}
      (plain : ∀ c offset, message ≠ (Problem.unexpectedCharacter c).message offset) :
      Requoted m (.lexical place message) (.lexical (m.place place) message)

theorem Scan.unexpectedCharacter_message_ne {message : String} {i : Nat} {d e : Char}
    (hmessage : message.toList[i]? = some d) (hquote : "Unexpected character '".toList[i]? = some e) (hne : d ≠ e)
    (text : String) (c : Char) (offset : Nat) :
    message ++ text ≠ (Problem.unexpectedCharacter c).message offset := by
  have hsplit : (Problem.unexpectedCharacter c).message offset =
      "Unexpected character '" ++ (c.toString ++ ("' at " ++ toString offset)) :=
    String.append_assoc.trans String.append_assoc
  rw [hsplit]
  exact append_ne_append hmessage hquote hne _ _

theorem Scan.Misread.requoted (x : Misread) (m : Move) : x.fault.Requoted m (m.misread x).fault := by
  obtain ⟨place, problem⟩ := x
  have hfirst : "Unexpected character '".toList[0]? = some 'U' := by decide
  have hnumber : ∀ text c offset,
      "Invalid number format: " ++ text ≠ (Problem.unexpectedCharacter c).message offset :=
    unexpectedCharacter_message_ne (show "Invalid number format: ".toList[0]? = some 'I' by decide) hfirst (by decide)
  cases problem with
  | unexpectedCharacter c => exact .character place c
  | unterminatedString =>
      have hthird : "Unexpected character '".toList[2]? = some 'e' := by decide
      have hmessage : "Unterminated string".toList[2]? = some 't' := by decide
      refine .other place fun c offset => ?_
      exact unexpectedCharacter_message_ne hmessage hthird (by decide) "" c offset
  | repeatedPoint text =>
      refine .other place fun c offset => ?_
      show "Invalid number format: " ++ "multiple decimal points in '" ++ text ++ "'" ≠ _
      rw [String.append_assoc, String.append_assoc]
      exact hnumber _ c offset
  | unreadableNumber text =>
      refine .other place fun c offset => ?_
      show "Invalid number format: " ++ "'" ++ text ++ "'" ≠ _
      rw [String.append_assoc, String.append_assoc]
      exact hnumber _ c offset

/-- A text behind a line break is refused as it is on its own, one line further down. -/
theorem scan_break_refused {a b : String} {as : List Token} {fault : Fault} (ha : scan a = .ok as)
    (hb : scan b = .error fault) :
    ∃ fault', scan (a ++ "\n" ++ b) = .error fault' ∧ fault.Requoted (.below a) fault' := by
  obtain ⟨x, hread, rfl⟩ := scan_error_iff_read.1 hb
  refine ⟨((Move.below a).misread x).fault, ?_, x.requoted (.below a)⟩
  rw [scan, read_break ha, hread]
  rfl

theorem scan_append_refused {a : String} {fault : Fault} (ha : scan a = .error fault)
    (hclosed : ∀ place, fault ≠ .lexical place "Unterminated string") (text : String) :
    scan (a ++ text) = .error fault := by
  obtain ⟨x, hread, rfl⟩ := scan_error_iff_read.1 ha
  have hproblem : x.problem ≠ .unterminatedString := by
    intro hopen
    apply hclosed x.place
    rw [Misread.fault, hopen]
    rfl
  refine scan_error_iff_read.2 ⟨x, ?_, rfl⟩
  rw [Scan.read, String.toList_append]
  exact readFrom_append_refused hread hproblem text.toList

/-- **Texts are read line by line.** Where two texts are read, the one on the line below the other is read as the tokens of both, with the places of the second moved. Where the lower one is refused, both together are refused for the same reason at the moved place. A text that is refused stays refused in the same way whatever is written behind it, unless a string is left open. -/
theorem scan_respects_line_breaks :
    (∀ a b as bs, scan a = .ok as → scan b = .ok bs →
      scan (a ++ "\n" ++ b) = .ok (as ++ bs.map (Move.below a).token)) ∧
    (∀ a b as fault, scan a = .ok as → scan b = .error fault →
      ∃ fault', scan (a ++ "\n" ++ b) = .error fault' ∧ fault.Requoted (.below a) fault') ∧
    (∀ a fault, scan a = .error fault → (∀ place, fault ≠ .lexical place "Unterminated string") →
      ∀ text, scan (a ++ text) = .error fault) := by
  refine ⟨?_, ?_, ?_⟩
  · intro a b as bs ha hb
    exact scan_break ha hb
  · intro a b as fault ha hb
    exact scan_break_refused ha hb
  · intro a fault ha hclosed text
    exact scan_append_refused ha hclosed text

/-- The break belongs to the comment in front of it, the question mark is quoted with another offset, and the quote behind a second point changes nothing. -/
theorem scan_respects_line_breaks_after_comment :
    let unexpected := (Problem.unexpectedCharacter '?').message 1
    let repeated := "Invalid number format: multiple decimal points in '" ++ "1.2." ++ "'"
    scan ("x//" ++ "\n" ++ "y") = .ok [⟨.identifier, "x", ⟨1, ⟨0, 1⟩⟩, none⟩, ⟨.identifier, "y", ⟨2, ⟨4, 5⟩⟩, none⟩] ∧
    (∃ fault', scan ("x//" ++ "\n" ++ "y?") = .error fault' ∧
      Fault.Requoted (.below "x//") (.lexical ⟨1, ⟨1, 2⟩⟩ unexpected) fault') ∧
    scan ("1.2." ++ "\"") = .error (.lexical ⟨1, ⟨0, 4⟩⟩ repeated) := by
  intro unexpected repeated
  have hx : scan "x//" = .ok [⟨.identifier, "x", ⟨1, ⟨0, 1⟩⟩, none⟩] := by decide +kernel
  have hy : scan "y" = .ok [⟨.identifier, "y", ⟨1, ⟨0, 1⟩⟩, none⟩] := by decide +kernel
  have hquestion : scan "y?" = .error (.lexical ⟨1, ⟨1, 2⟩⟩ unexpected) := by decide +kernel
  have hpoint : scan "1.2." = .error (.lexical ⟨1, ⟨0, 4⟩⟩ repeated) := by decide +kernel
  have hclosed : ∀ place, Fault.lexical ⟨1, ⟨0, 4⟩⟩ repeated ≠ .lexical place "Unterminated string" := by
    intro place heq
    exact absurd (Fault.lexical.inj heq).2 (by decide)
  exact ⟨scan_respects_line_breaks.1 _ _ _ _ hx hy, scan_respects_line_breaks.2.1 _ _ _ _ hx hquestion,
    scan_respects_line_breaks.2.2 _ _ hpoint hclosed _⟩

end Blockscript
