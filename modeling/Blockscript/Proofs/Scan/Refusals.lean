import Blockscript.Proofs.Scan.Parts

/-!
# Texts that are refused

A text that is not read is cut into parts up to the place that its fault names. The parts are the longest ones at their places in the whole text, so the text before that place is read on its own, and at the place stands something that no part can begin with: a character of no sort, a quote that is never closed, or a number that goes on behind a second point.

The text of a number that ends before a second point is always decimal, so it has a value.
-/

namespace Blockscript.Scan

variable {c : Char} {cs : List Char}

/-! ### What is refused at the front of a text -/

/-- The characters besides letters and digits that begin a part. -/
def marks : List Char :=
  [' ', '\t', '\r', '\n', ';', ',', '\x7b', '\x7d', '(', ')', '+', '-', '*', '|', '<', '>', '=', '!', '/', '"']

/-- Why there is no piece at the front of a text. -/
inductive Refuses : Char → List Char → Refusal → Prop
  | unexpected {c : Char} {cs : List Char} (unmarked : c ∉ marks) (unworded : c.isAlphanum = false) :
      Refuses c cs ⟨.unexpectedCharacter c, 1⟩
  | unterminated {cs : List Char} (unclosed : '"' ∉ cs) : Refuses '"' cs ⟨.unterminatedString, cs.length + 1⟩
  | repeated {c : Char} {whole fraction rest : List Char} (first : c.isDigit = true)
      (decimal : ∀ d ∈ whole, d.isDigit = true) (decimal' : ∀ d ∈ fraction, d.isDigit = true) :
      Refuses c (whole ++ '.' :: (fraction ++ '.' :: rest))
        ⟨.repeatedPoint (String.ofList (c :: whole ++ '.' :: fraction ++ ['.'])),
          (c :: whole ++ '.' :: fraction ++ ['.']).length⟩

/-- No text of the lexicon begins with a character that is neither a mark nor a letter or digit. -/
theorem Spells.head?_ne {text : List Char} {content : Content} (h : Spells text content) (hmark : c ∉ marks)
    (hword : c.isAlphanum = false) : text.head? ≠ some c := by
  intro hhead
  obtain ⟨more, rfl⟩ := List.head?_eq_some_iff.1 hhead
  rcases h.first_cases with hlisted | ⟨entry, hsign, hfirst⟩ | ⟨rfl, -⟩ | halphanum
  · have hmarks : ∀ d ∈ [' ', '\t', '\r', '\n', '/'], d ∈ marks := by simp [marks]
    exact hmark (hmarks c hlisted)
  · have hmarks : ∀ entry ∈ signs, ∀ d ∈ entry.1.head?, d ∈ marks := by simp [signs, marks]
    exact hmark (hmarks entry hsign c hfirst)
  · exact hmark (by decide)
  · rw [hword] at halphanum
    cases halphanum

theorem numberPiece_refuses {r : Refusal} (hc : c.isDigit = true) (h : numberPiece c cs = .error r) :
    Refuses c cs r := by
  rcases number_shapes cs with ⟨whole, rest, rfl, hwhole, hstop, hpoint⟩ |
    ⟨whole, fraction, rest, rfl, hwhole, hfraction, hstop, hpoint⟩ | ⟨whole, fraction, rest, rfl, hwhole, hfraction⟩
  · rw [numberPiece_whole hc hwhole hstop hpoint] at h
    cases h
  · rw [numberPiece_fraction hc hwhole hfraction hstop hpoint] at h
    cases h
  · rw [numberPiece_repeated c hwhole hfraction] at h
    cases h
    exact .repeated hc hwhole hfraction

theorem stringPiece_refuses {r : Refusal} (h : stringPiece cs = .error r) : Refuses '"' cs r := by
  rcases exists_run_of_ne '"' cs with hopen | ⟨inside, rest, rfl, hinside⟩
  · rw [stringPiece_open hopen] at h
    cases h
    exact .unterminated hopen
  · rw [stringPiece_closed hinside] at h
    cases h

theorem Unlisted.unmarked (h : Unlisted c) : c ∉ marks := by
  have hmarks : ∀ d ∈ marks, isBlank d = true ∨ (single? d).isSome = true ∨ (paired? d).isSome = true ∨ d = '/' ∨
      d = '"' := by simp [marks, isBlank, single?, paired?]
  intro hmark
  rcases hmarks c hmark with hblank | hsingle | hpaired | hslash | hquote
  · rw [h.blank] at hblank
    cases hblank
  · rw [h.single] at hsingle
    cases hsingle
  · rw [h.paired] at hpaired
    cases hpaired
  · exact h.slash hslash
  · exact h.quote hquote

theorem piece_refuses {r : Refusal} (h : piece c cs = .error r) : Refuses c cs r := by
  rcases first_sorts c with hblank | ⟨kind, hsingle⟩ | ⟨plain, withEquals, hpaired⟩ | rfl | rfl | hdigit | halpha |
    hunlisted
  · rw [piece_of_isBlank hblank] at h
    cases h
  · rw [piece_of_single hsingle] at h
    cases h
  · rw [piece_of_paired hpaired] at h
    split at h <;> cases h
  · rw [piece_slash] at h
    split at h <;> cases h
  · exact stringPiece_refuses h
  · rw [piece_of_isDigit hdigit] at h
    exact numberPiece_refuses hdigit h
  · rw [piece_of_isAlpha halpha] at h
    cases h
  · rw [hunlisted.piece] at h
    obtain rfl := Except.error.inj h
    exact .unexpected hunlisted.unmarked (Bool.or_eq_false_iff.2 ⟨hunlisted.alpha, hunlisted.digit⟩)

/-! ### What is read before -/

/-- Every part fits where it stands, with `rest` behind the last one. -/
def CutBefore (rest : List Char) : List Part → Prop
  | [] => True
  | part :: more => part.Fits (join more ++ rest) ∧ CutBefore rest more

/-- Parts that fit in a text fit as well where the text ends with them. -/
theorem CutBefore.cut {rest : List Char} {parts : List Part} (h : CutBefore rest parts) : Cut parts := by
  induction parts with
  | nil => trivial
  | cons part more ih => exact ⟨h.1.left, ih h.2⟩

/-- A text that is refused is cut up to the place of the refusal. -/
theorem readFrom_refused {line offset : Nat} {source : List Char} {m : Misread}
    (h : readFrom line offset source = .error m) :
    ∃ parts c cs r, source = join parts ++ c :: cs ∧ CutBefore (c :: cs) parts ∧ Refuses c cs r ∧
      m = ⟨⟨line + (join parts).count '\n',
        ⟨offset + (join parts).length, offset + (join parts).length + r.width⟩⟩, r.problem⟩ := by
  cases source with
  | nil =>
      rw [readFrom] at h
      cases h
  | cons c cs =>
      obtain ⟨r, hpiece⟩ | ⟨part, rest, hsplit, hfits, htaken, hshorter⟩ := refused_or_taken c cs
      · rw [readFrom, hpiece] at h
        exact ⟨[], c, cs, r, rfl, trivial, piece_refuses hpiece, (Except.error.inj h).symm⟩
      · rw [← hsplit, htaken.readFrom_error_iff] at h
        obtain ⟨parts, d, ds, r, rfl, hcut, hrefuses, rfl⟩ := readFrom_refused h
        refine ⟨part :: parts, d, ds, r, ?_, ⟨hfits, hcut⟩, hrefuses, ?_⟩
        · rw [join_cons, List.append_assoc, hsplit]
        · rw [join_cons, List.count_append, List.length_append]
          simp only [Nat.add_assoc]
termination_by source.length

/-! ### The three faults of reading -/

/-- The range is that of a character with which no text of the lexicon begins. -/
def UnexpectedAt (source : String) (span : Span) (message : String) : Prop :=
  ∃ c, source.toList[span.start]? = some c ∧ c ∉ marks ∧ c.isDigit = false ∧ c.isAlpha = false ∧
    (∀ text content, Spells text content → text.head? ≠ some c) ∧ span.stop = span.start + 1 ∧
    message = "Unexpected character '" ++ c.toString ++ "' at " ++ toString span.start

/-- The range goes from a quote to the end of the source, and no other quote stands in it. -/
def UnterminatedAt (source : String) (span : Span) (message : String) : Prop :=
  source.toList[span.start]? = some '"' ∧ '"' ∉ source.toList.drop (span.start + 1) ∧ span.stop = source.length ∧
    message = "Unterminated string"

/-- The range is that of digits, a point, perhaps more digits, and a second point. -/
def RepeatedPointAt (source : String) (span : Span) (message : String) : Prop :=
  span.stop ≤ source.length ∧ (∃ digits places, digits ≠ [] ∧ (∀ c ∈ digits, c.isDigit = true) ∧
      (∀ c ∈ places, c.isDigit = true) ∧ (excerpt source span).toList = digits ++ '.' :: places ++ ['.']) ∧
    message = "Invalid number format: multiple decimal points in '" ++ excerpt source span ++ "'"

section

variable {source : String} {span : Span} {message : String}

theorem RepeatedPointAt.first (h : RepeatedPointAt source span message) :
    ∃ c, source.toList[span.start]? = some c ∧ c.isDigit = true := by
  obtain ⟨-, ⟨digits, places, hne, hdigits, -, htext⟩, -⟩ := h
  obtain ⟨first, more, rfl⟩ := List.exists_cons_of_ne_nil hne
  rw [excerpt, String.toList_ofList, List.extract_eq_take_drop] at htext
  have hhead := congrArg List.head? htext
  rw [List.head?_take, List.head?_drop] at hhead
  refine ⟨first, ?_, hdigits first List.mem_cons_self⟩
  split at hhead
  · cases hhead
  · exact hhead

theorem UnexpectedAt.not_unterminated (h : UnexpectedAt source span message) : ¬UnterminatedAt source span message := by
  rintro ⟨hquote, -⟩
  obtain ⟨c, hc, hmark, -⟩ := h
  obtain rfl : c = '"' := Option.some.inj (hc.symm.trans hquote)
  exact hmark (by decide)

theorem UnexpectedAt.not_repeatedPoint (h : UnexpectedAt source span message) :
    ¬RepeatedPointAt source span message := by
  intro hrepeated
  obtain ⟨c, hc, -, hdigit, -⟩ := h
  obtain ⟨d, hd, hdigit'⟩ := hrepeated.first
  obtain rfl : c = d := Option.some.inj (hc.symm.trans hd)
  rw [hdigit] at hdigit'
  cases hdigit'

theorem UnterminatedAt.not_repeatedPoint (h : UnterminatedAt source span message) :
    ¬RepeatedPointAt source span message := by
  intro hrepeated
  obtain ⟨d, hd, hdigit⟩ := hrepeated.first
  obtain rfl : '"' = d := Option.some.inj (h.1.symm.trans hd)
  exact absurd hdigit (by decide)

end

/-- What a refusal says about the source in which it is met. -/
theorem Refuses.fault {source : String} {front : List Char} {r : Refusal} (h : Refuses c cs r)
    (hsource : source.toList = front ++ c :: cs) :
    let span : Span := ⟨front.length, front.length + r.width⟩
    let message := r.problem.message front.length
    UnexpectedAt source span message ∨ UnterminatedAt source span message ∨ RepeatedPointAt source span message := by
  intro span message
  have hfirst : source.toList[front.length]? = some c := by
    rw [hsource, List.getElem?_append_right (Nat.le_refl _), Nat.sub_self]
    rfl
  have hlength : source.length = front.length + (cs.length + 1) := by
    rw [← String.length_toList, hsource, List.length_append, List.length_cons]
  cases h with
  | unexpected unmarked unworded =>
      obtain ⟨halpha, hdigit⟩ := Bool.or_eq_false_iff.1 unworded
      exact .inl ⟨c, hfirst, unmarked, hdigit, halpha, fun text content h => h.head?_ne unmarked unworded, rfl, rfl⟩
  | unterminated unclosed =>
      refine .inr (.inl ⟨hfirst, ?_, hlength.symm, rfl⟩)
      rwa [hsource, ← List.drop_drop, List.drop_left]
  | @repeated _ whole fraction rest first decimal decimal' =>
      have hsplit : c :: (whole ++ '.' :: (fraction ++ '.' :: rest)) = c :: whole ++ '.' :: fraction ++ ['.'] ++ rest := by
        simp
      have htext : (excerpt source span).toList = c :: whole ++ '.' :: fraction ++ ['.'] := by
        rw [excerpt, String.toList_ofList, hsource, hsplit, List.extract_eq_take_drop, List.drop_left,
          Nat.add_sub_cancel_left, List.take_left]
      refine .inr (.inr ⟨?_, ⟨c :: whole, fraction, List.cons_ne_nil _ _, ?_, decimal', htext⟩, ?_⟩)
      · rw [hlength, ← List.length_cons, hsplit, List.length_append]
        exact Nat.add_le_add_left (Nat.le_add_right _ _) _
      · exact List.forall_mem_cons.2 ⟨first, decimal⟩
      · have hquoted : excerpt source span = String.ofList (c :: whole ++ '.' :: fraction ++ ['.']) := by
          rw [← htext, String.ofList_toList]
        rw [hquoted]
        rfl

/-- Texts that differ in a character differ whatever follows. -/
theorem append_ne_append {a b : String} {i : Nat} {c d : Char} (ha : a.toList[i]? = some c)
    (hb : b.toList[i]? = some d) (hne : c ≠ d) (x y : String) : a ++ x ≠ b ++ y := by
  intro heq
  have hchar := congrArg (fun text : String => text.toList[i]?) heq
  simp only [String.toList_append, List.getElem?_append_left (List.getElem?_eq_some_iff.1 ha).1,
    List.getElem?_append_left (List.getElem?_eq_some_iff.1 hb).1, ha, hb, Option.some.injEq] at hchar
  exact hne hchar

/-- No refusal comes from a number without a value. -/
theorem Refuses.message_ne {r : Refusal} (h : Refuses c cs r) (offset : Nat) (text : String) :
    r.problem.message offset ≠ "Invalid number format: '" ++ text ++ "'" := by
  have hfirst : "Invalid number format: '".toList[0]? = some 'I' := by decide
  have hquote : "Invalid number format: '".toList[23]? = some '\'' := by decide
  rw [String.append_assoc]
  cases h with
  | unexpected _ _ =>
      have hother : "Unexpected character '".toList[0]? = some 'U' := by decide
      show "Unexpected character '" ++ c.toString ++ "' at " ++ toString offset ≠ _
      rw [String.append_assoc, String.append_assoc]
      exact append_ne_append hother hfirst (by decide) _ _
  | unterminated _ =>
      have hother : "Unterminated string".toList[0]? = some 'U' := by decide
      show "Unterminated string" ++ "" ≠ _
      exact append_ne_append hother hfirst (by decide) _ _
  | repeated _ _ _ =>
      have hother : "Invalid number format: multiple decimal points in '".toList[23]? = some 'm' := by decide
      show "Invalid number format: multiple decimal points in '" ++ _ ++ "'" ≠ _
      rw [String.append_assoc]
      exact append_ne_append hother hquote (by decide) _ _

end Blockscript.Scan

namespace Blockscript

open Scan

/-- The text of a source before an offset. -/
def textBefore (source : String) (offset : Nat) : String :=
  String.ofList (source.toList.take offset)

/-- **A text is refused where its parts end.** A text that is not read has a lexical fault. Up to the start of its range the text is cut into parts, each the longest in the whole text, and that much of it is read. There stands either a character with which no part begins, or a quote that no other quote follows, or a number with a second point, and never two of these; the range and the message are as each of them demands. A number without a value is never met. -/
theorem scan_refuses_where_parts_end {source : String} {fault : Fault} (h : scan source = .error fault) :
    ∃ line span message, fault = .lexical ⟨line, span⟩ message ∧
      (∃ parts, join parts = source.toList.take span.start ∧ CutBefore (source.toList.drop span.start) parts ∧
        scan (textBefore source span.start) = .ok (tokensFrom 1 0 parts)) ∧
      (UnexpectedAt source span message ∨ UnterminatedAt source span message ∨ RepeatedPointAt source span message) ∧
      ¬(UnexpectedAt source span message ∧ UnterminatedAt source span message) ∧
      ¬(UnexpectedAt source span message ∧ RepeatedPointAt source span message) ∧
      ¬(UnterminatedAt source span message ∧ RepeatedPointAt source span message) ∧
      ∀ text, message ≠ "Invalid number format: '" ++ text ++ "'" := by
  rw [scan, Scan.read] at h
  cases hread : readFrom 1 0 source.toList with
  | ok reading => simp [hread] at h
  | error m =>
      simp only [hread] at h
      obtain ⟨parts, c, cs, r, hsource, hcut, hrefuses, hm⟩ := readFrom_refused hread
      rw [Nat.zero_add] at hm
      have htake : source.toList.take (join parts).length = join parts := by rw [hsource, List.take_left]
      have hdrop : source.toList.drop (join parts).length = c :: cs := by rw [hsource, List.drop_left]
      have hbefore : scan (textBefore source (join parts).length) = .ok (tokensFrom 1 0 parts) := by
        refine scan_eq_ok_iff.2 ⟨parts, ?_, hcut.cut, rfl⟩
        rw [textBefore, String.toList_ofList, htake]
      refine ⟨1 + (join parts).count '\n', ⟨(join parts).length, (join parts).length + r.width⟩,
        r.problem.message (join parts).length, ?_, ⟨parts, htake.symm, ?_, hbefore⟩, hrefuses.fault hsource,
        fun h => h.1.not_unterminated h.2, fun h => h.1.not_repeatedPoint h.2, fun h => h.1.not_repeatedPoint h.2,
        hrefuses.message_ne (join parts).length⟩
      · rw [← Except.error.inj h, hm]
        rfl
      · rw [hdrop]
        exact hcut

/-- A quote in a comment is passed over, and the number on the next line is refused up to its second point. -/
theorem scan_refuses_second_point :
    let source := "x//\"\n12.5.7"
    let message := "Invalid number format: multiple decimal points in '" ++ "12.5." ++ "'"
    scan source = .error (.lexical ⟨2, ⟨5, 10⟩⟩ message) ∧ (∃ ts, scan (textBefore source 5) = .ok ts) ∧
      RepeatedPointAt source ⟨5, 10⟩ message ∧ ¬UnterminatedAt source ⟨5, 10⟩ message := by
  intro source message
  have hscan : scan source = .error (.lexical ⟨2, ⟨5, 10⟩⟩ message) := by decide +kernel
  obtain ⟨line, span, text, hfault, ⟨parts, -, -, hbefore⟩, hcases, -, -, hapart, -⟩ := scan_refuses_where_parts_end hscan
  cases hfault
  have hrepeated : RepeatedPointAt source ⟨5, 10⟩ message := by
    rcases hcases with ⟨-, -, -, -, -, -, hstop, -⟩ | ⟨hquote, -⟩ | hrepeated
    · cases hstop
    · exact absurd hquote (by decide)
    · exact hrepeated
  exact ⟨hscan, ⟨_, hbefore⟩, hrepeated, fun h => hapart ⟨h, hrepeated⟩⟩

end Blockscript
