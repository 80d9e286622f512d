import Blockscript.Script
import Blockscript.Proofs.Scan.Excerpts
import Blockscript.Proofs.Scan.Refusals

/-!
# Lines

Lines are counted while a text is read, by the line breaks in each part that is taken: alone, at the end of a comment or inside a string. A token or a refusal gets the line on which its part begins, so a string that goes on behind a break has the line of its opening quote, and what follows it has a later one.

Whatever the parts are, the line of a place is one more than the line breaks in front of it, and the last line is one more than all of them. That is the number of lines that a log shows.
-/

namespace Blockscript

open Scan

theorem Scan.read_lines {source : String} {r : Reading} (h : Scan.read source = .ok r) :
    r.lines = 1 + source.toList.count '\n' := by
  obtain ⟨parts, -, -, rfl⟩ := readFrom_cut h
  rfl

theorem Scan.read_refused_line {source : String} {x : Misread} (h : Scan.read source = .error x) :
    x.place.line = 1 + linesBefore source x.place.span.start := by
  obtain ⟨parts, c, cs, r, hsource, -, -, rfl⟩ := readFrom_refused h
  rw [linesBefore, hsource, Nat.zero_add, List.take_left]

theorem Session.events_withTokens {α : Type} (s : Session) {source : String} {r : Reading}
    (next : List Token → Run α) (h : Scan.read source = .ok r) :
    (s.withTokens source next).events = .scanned r.tokens.length r.lines :: (next r.tokens).events := by
  rw [Session.withTokens, h]

/-- **Lines count line breaks.** Every token of a text that is read, and the fault of a text that is not, has the line on which its range begins: one more than the line breaks in front. Whoever reads a text, to run it, to evaluate it or to list its tokens, first logs the number of tokens and one more than the number of all line breaks. -/
theorem lines_count_breaks (source : String) :
    (∀ ts, scan source = .ok ts → ∀ t ∈ ts, t.line = 1 + linesBefore source t.span.start) ∧
    (∀ fault, scan source = .error fault → ∃ place message, fault = .lexical place message ∧
      place.line = 1 + linesBefore source place.span.start) ∧
    (∀ ts, scan source = .ok ts →
      let logged := Event.scanned ts.length (1 + source.toList.count '\n')
      (∀ s : Session, (s.interpret source).events.head? = some logged ∧
        (s.evaluate source).events.head? = some logged) ∧
      ∀ name, (runScript source name).transcript.head? = some (.log logged) ∧
        (listTokens source name).transcript.head? = some (.log logged)) := by
  refine ⟨?_, ?_, ?_⟩
  · intro ts hscan t ht
    exact (scan_stands hscan t ht).line
  · intro fault hscan
    obtain ⟨x, hread, rfl⟩ := scan_error_iff_read.1 hscan
    exact ⟨x.place, _, rfl, read_refused_line hread⟩
  · intro ts hscan logged
    obtain ⟨lines, hread⟩ := scan_ok_iff_read.1 hscan
    obtain rfl : lines = 1 + source.toList.count '\n' := read_lines hread
    have hinterpret : ∀ s : Session, (s.interpret source).events.head? = some logged := by
      intro s
      rw [Session.interpret, s.events_withTokens _ hread]
      rfl
    refine ⟨fun s => ⟨hinterpret s, ?_⟩, fun name => ⟨?_, ?_⟩⟩
    · rw [Session.evaluate, s.events_withTokens _ hread]
      rfl
    · obtain ⟨more, hevents⟩ := List.head?_eq_some_iff.1 (hinterpret .fresh)
      rw [runScript, hevents]
      rfl
    · rw [listTokens, hread]
      rfl

/-- A string over two lines begins on the first, and the name and the refused character behind it are on the second. -/
theorem lines_count_breaks_in_string :
    let string : Token := ⟨.string, "\"a\n\"", ⟨1, ⟨0, 4⟩⟩, some (.string "a\n")⟩
    let name : Token := ⟨.identifier, "x", ⟨2, ⟨4, 5⟩⟩, none⟩
    scan "\"a\n\"x" = .ok [string, name] ∧ string.line = 1 + linesBefore "\"a\n\"x" 0 ∧
      name.line = 1 + linesBefore "\"a\n\"x" 4 ∧
      (Session.fresh.interpret "\"a\n\"x").events.head? = some (.scanned 2 2) ∧
      ∃ place message, scan "\"a\n\"#" = .error (.lexical place message) ∧
        place.line = 1 + linesBefore "\"a\n\"#" place.span.start := by
  intro string name
  have hscan : scan "\"a\n\"x" = .ok [string, name] := by decide +kernel
  have hrefused : scan "\"a\n\"#" = .error (Misread.fault ⟨⟨2, ⟨4, 5⟩⟩, .unexpectedCharacter '#'⟩) := by
    decide +kernel
  obtain ⟨htokens, -, hlogged⟩ := lines_count_breaks "\"a\n\"x"
  obtain ⟨place, message, hfault, hline⟩ := (lines_count_breaks "\"a\n\"#").2.1 _ hrefused
  refine ⟨hscan, htokens _ hscan string (by simp), htokens _ hscan name (by simp), ((hlogged _ hscan).1 .fresh).1,
    place, message, ?_, hline⟩
  rw [hrefused, hfault]

end Blockscript
