import Mathlib.Data.List.TakeWhile
import Blockscript.Proofs.Scan.Lexicon

/-!
# Recognising pieces

The piece that is taken from the front of a text is in the lexicon, and no text of the lexicon that begins there is longer. The first character decides which rule can apply, so each rule has an equation for the characters it begins with; behind the first character stands a run of characters of one sort, and the piece ends with the run.

Where no piece is taken although the text begins with one, a number stands there with a point behind it, and no piece begins with a point.
-/

namespace Blockscript.Scan

variable {c : Char} {kind : Kind} {content : Content} {text more rest : List Char}

/-! ### Runs of characters -/

theorem takeWhile_run {p : Char → Bool} {run : List Char} (hrun : ∀ c ∈ run, p c = true)
    (hstop : ∀ c ∈ rest.head?, p c = false) : (run ++ rest).takeWhile p = run := by
  rw [List.takeWhile_append_of_pos hrun]
  cases rest with
  | nil => exact List.append_nil run
  | cons c rest => rw [List.takeWhile_cons_of_neg (by simp [hstop c rfl]), List.append_nil]

theorem dropWhile_run {p : Char → Bool} {run : List Char} (hrun : ∀ c ∈ run, p c = true)
    (hstop : ∀ c ∈ rest.head?, p c = false) : (run ++ rest).dropWhile p = rest := by
  rw [List.dropWhile_append_of_pos hrun]
  cases rest with
  | nil => rfl
  | cons c rest => rw [List.dropWhile_cons_of_neg (by simp [hstop c rfl])]

theorem exists_run (p : Char → Bool) (cs : List Char) :
    ∃ run rest, cs = run ++ rest ∧ (∀ c ∈ run, p c = true) ∧ ∀ c ∈ rest.head?, p c = false := by
  refine ⟨cs.takeWhile p, cs.dropWhile p, List.takeWhile_append_dropWhile.symm, ?_, ?_⟩
  · intro c hc
    exact List.mem_takeWhile_imp hc
  · intro c hc
    have hnot := List.head?_dropWhile_not p cs
    rw [hc] at hnot
    exact hnot

theorem exists_run_of_ne (stop : Char) (cs : List Char) :
    stop ∉ cs ∨ ∃ run rest, cs = run ++ stop :: rest ∧ stop ∉ run := by
  by_cases hmem : stop ∈ cs
  · obtain ⟨run, rest, hcs, hrun⟩ := List.eq_append_cons_of_mem hmem
    exact .inr ⟨run, rest, hcs, hrun⟩
  · exact .inl hmem

theorem forall_ne {stop : Char} (h : stop ∉ text) : ∀ c ∈ text, (c != stop) = true := by
  intro c hc
  rw [bne_iff_ne]
  intro heq
  exact h (heq ▸ hc)

/-! ### Comments and strings -/

theorem commentLength_open (h : '\n' ∉ text) : commentLength text = text.length := by
  have hstop : ∀ c ∈ ([] : List Char).head?, (c != '\n') = false := by simp
  have hdrop := dropWhile_run (forall_ne h) hstop
  rw [List.append_nil] at hdrop
  rw [commentLength, hdrop]

theorem commentLength_line (h : '\n' ∉ text) : commentLength (text ++ '\n' :: rest) = text.length + 1 := by
  have hstop : ∀ c ∈ ('\n' :: rest).head?, (c != '\n') = false := by simp
  rw [commentLength, dropWhile_run (forall_ne h) hstop, takeWhile_run (forall_ne h) hstop]

theorem le_commentLength (h : '\n' ∉ text) (rest : List Char) : text.length ≤ commentLength (text ++ rest) := by
  rcases exists_run_of_ne '\n' rest with hrest | ⟨run, after, rfl, hrun⟩
  · rw [commentLength_open (List.not_mem_append h hrest), List.length_append]
    omega
  · rw [← List.append_assoc, commentLength_line (List.not_mem_append h hrun), List.length_append]
    omega

theorem forall_not_isQuote (h : '"' ∉ text) : ∀ c ∈ text, (!isQuote c) = true :=
  forall_ne h

theorem stringPiece_closed (h : '"' ∉ text) : stringPiece (text ++ '"' :: rest) =
    .ok ⟨text.length + 1, .token .string (some (.string (String.ofList text)))⟩ := by
  have hstop : ∀ c ∈ ('"' :: rest).head?, (!isQuote c) = false := by simp [isQuote]
  rw [stringPiece, dropWhile_run (forall_not_isQuote h) hstop, takeWhile_run (forall_not_isQuote h) hstop]

theorem stringPiece_open (h : '"' ∉ text) : stringPiece text = .error ⟨.unterminatedString, text.length + 1⟩ := by
  have hstop : ∀ c ∈ ([] : List Char).head?, (!isQuote c) = false := by simp
  have hdrop := dropWhile_run (forall_not_isQuote h) hstop
  rw [List.append_nil] at hdrop
  rw [stringPiece, hdrop]

/-! ### Numbers and words -/

section Numbers

variable {whole fraction : List Char}

theorem isDigit_point : ∀ c ∈ ('.' :: rest).head?, c.isDigit = false := by
  simp

theorem numberToken_whole (hc : c.isDigit = true) (hwhole : ∀ d ∈ whole, d.isDigit = true) :
    numberToken c whole = .ok ⟨whole.length, .token .number (some (numberValue (c :: whole) []))⟩ := by
  have hdigits : ∀ d ∈ c :: whole, d.isDigit = true := List.forall_mem_cons.2 ⟨hc, hwhole⟩
  have hstop : ∀ d ∈ ([] : List Char).head?, d.isDigit = false := by simp
  have htake := takeWhile_run hdigits hstop
  have hdrop := dropWhile_run hdigits hstop
  rw [List.append_nil] at htake hdrop
  simp only [numberToken, readNumber?, htake, hdrop, if_neg (List.cons_ne_nil c whole)]

theorem numberToken_fraction (hc : c.isDigit = true) (hwhole : ∀ d ∈ whole, d.isDigit = true)
    (hfraction : ∀ d ∈ fraction, d.isDigit = true) : numberToken c (whole ++ '.' :: fraction) =
      .ok ⟨whole.length + 1 + fraction.length, .token .number (some (numberValue (c :: whole) fraction))⟩ := by
  have hdigits : ∀ d ∈ c :: whole, d.isDigit = true := List.forall_mem_cons.2 ⟨hc, hwhole⟩
  have hread : readNumber? (c :: whole ++ '.' :: fraction) = some (numberValue (c :: whole) fraction) := by
    rw [readNumber?, takeWhile_run hdigits isDigit_point, dropWhile_run hdigits isDigit_point]
    exact if_pos ⟨rfl, List.all_eq_true.2 hfraction, List.cons_ne_nil c _⟩
  have hlength : (whole ++ '.' :: fraction).length = whole.length + 1 + fraction.length := by
    rw [List.length_append, List.length_cons]
    omega
  rw [numberToken, ← List.cons_append, hread, hlength]

theorem numberPiece_whole (hc : c.isDigit = true) (hwhole : ∀ d ∈ whole, d.isDigit = true)
    (hstop : ∀ d ∈ rest.head?, d.isDigit = false) (hpoint : rest.head? ≠ some '.') :
    numberPiece c (whole ++ rest) =
      .ok ⟨whole.length, .token .number (some (numberValue (c :: whole) []))⟩ := by
  rw [numberPiece, takeWhile_run hwhole hstop, dropWhile_run hwhole hstop, ← numberToken_whole hc hwhole]
  cases rest with
  | nil => rfl
  | cons d rest =>
      have hd : isPoint d = false := by
        rw [isPoint, beq_eq_false_iff_ne]
        intro heq
        exact hpoint (heq ▸ rfl)
      simp only [hd]
      rfl

theorem head?_any_isPoint : rest.head?.any isPoint = decide (rest.head? = some '.') := by
  cases rest with
  | nil => rfl
  | cons c rest => simp [isPoint, beq_eq_decide]

theorem numberPiece_fraction (hc : c.isDigit = true) (hwhole : ∀ d ∈ whole, d.isDigit = true)
    (hfraction : ∀ d ∈ fraction, d.isDigit = true) (hstop : ∀ d ∈ rest.head?, d.isDigit = false)
    (hpoint : rest.head? ≠ some '.') :
    numberPiece c (whole ++ '.' :: (fraction ++ rest)) = .ok ⟨whole.length + 1 + fraction.length,
      .token .number (some (numberValue (c :: whole) fraction))⟩ := by
  rw [numberPiece, takeWhile_run hwhole isDigit_point, dropWhile_run hwhole isDigit_point]
  simp only [takeWhile_run hfraction hstop, dropWhile_run hfraction hstop, head?_any_isPoint, decide_eq_true_eq,
    if_neg hpoint]
  exact numberToken_fraction hc hwhole hfraction

theorem numberPiece_repeated (first : Char) (hwhole : ∀ c ∈ whole, c.isDigit = true)
    (hfraction : ∀ c ∈ fraction, c.isDigit = true) :
    numberPiece first (whole ++ '.' :: (fraction ++ '.' :: rest)) =
      .error ⟨.repeatedPoint (String.ofList (first :: whole ++ '.' :: fraction ++ ['.'])),
        (first :: whole ++ '.' :: fraction ++ ['.']).length⟩ := by
  rw [numberPiece, takeWhile_run hwhole isDigit_point, dropWhile_run hwhole isDigit_point]
  simp only [takeWhile_run hfraction isDigit_point, dropWhile_run hfraction isDigit_point]
  rfl

/-- Digits, then possibly a point and digits, then possibly a second point. -/
theorem number_shapes (cs : List Char) :
    (∃ whole rest, cs = whole ++ rest ∧ (∀ c ∈ whole, c.isDigit = true) ∧
      (∀ c ∈ rest.head?, c.isDigit = false) ∧ rest.head? ≠ some '.') ∨
    (∃ whole fraction rest, cs = whole ++ '.' :: (fraction ++ rest) ∧ (∀ c ∈ whole, c.isDigit = true) ∧
      (∀ c ∈ fraction, c.isDigit = true) ∧ (∀ c ∈ rest.head?, c.isDigit = false) ∧ rest.head? ≠ some '.') ∨
    (∃ whole fraction rest, cs = whole ++ '.' :: (fraction ++ '.' :: rest) ∧ (∀ c ∈ whole, c.isDigit = true) ∧
      ∀ c ∈ fraction, c.isDigit = true) := by
  obtain ⟨whole, after, rfl, hwhole, hstop⟩ := exists_run Char.isDigit cs
  by_cases hpoint : after.head? = some '.'
  · obtain ⟨after, rfl⟩ := List.head?_eq_some_iff.1 hpoint
    obtain ⟨fraction, rest, rfl, hfraction, hstop'⟩ := exists_run Char.isDigit after
    by_cases hpoint' : rest.head? = some '.'
    · obtain ⟨rest, rfl⟩ := List.head?_eq_some_iff.1 hpoint'
      exact .inr (.inr ⟨whole, fraction, rest, rfl, hwhole, hfraction⟩)
    · exact .inr (.inl ⟨whole, fraction, rest, rfl, hwhole, hfraction, hstop', hpoint'⟩)
  · exact .inl ⟨whole, after, rfl, hwhole, hstop, hpoint⟩

end Numbers

theorem wordPiece_eq (first : Char) (hmore : ∀ c ∈ more, isWordChar c = true)
    (hstop : ∀ c ∈ rest.head?, isWordChar c = false) : wordPiece first (more ++ rest) =
      ⟨more.length, .token (wordKind (String.ofList (first :: more))) none⟩ := by
  rw [wordPiece, takeWhile_run hmore hstop]

/-! ### First characters -/

theorem isBlank_iff : isBlank c = true ↔ c ∈ [' ', '\t', '\r', '\n'] := by
  simp [isBlank, or_assoc]

theorem single?_eq_some (h : single? c = some kind) : ([c], kind) ∈ signs ∧ isBlank c = false := by
  unfold single? at h
  split at h <;> cases h <;> decide

theorem paired?_eq_some {plain withEquals : Kind} (h : paired? c = some (plain, withEquals)) :
    ([c], plain) ∈ signs ∧ ([c, '='], withEquals) ∈ signs ∧ isBlank c = false ∧ single? c = none := by
  unfold paired? at h
  split at h <;> cases h <;> decide

theorem piece_of_isBlank (h : isBlank c = true) (cs : List Char) : piece c cs = .ok ⟨0, .blank⟩ := by
  rw [piece, if_pos h]

theorem piece_of_single (h : single? c = some kind) (cs : List Char) :
    piece c cs = .ok ⟨0, .token kind none⟩ := by
  rw [piece, (single?_eq_some h).2, h]
  rfl

theorem piece_of_paired {plain withEquals : Kind} (h : paired? c = some (plain, withEquals)) (cs : List Char) :
    piece c cs = if cs.head? = some '=' then .ok ⟨1, .token withEquals none⟩ else .ok ⟨0, .token plain none⟩ := by
  obtain ⟨-, -, hblank, hsingle⟩ := paired?_eq_some h
  rw [piece, hblank, hsingle, h]
  rfl

theorem piece_slash (cs : List Char) : piece '/' cs =
    if cs.head? = some '/' then .ok ⟨1 + commentLength cs.tail, .blank⟩ else .ok ⟨0, .token .divide none⟩ :=
  rfl

theorem piece_quote (cs : List Char) : piece '"' cs = stringPiece cs :=
  rfl

/-- Letters and digits begin no sign, no string and no white space. -/
theorem unlisted_of_isAlphanum (h : c.isAlphanum = true) : isBlank c = false ∧ single? c = none ∧
    paired? c = none ∧ c ≠ '/' ∧ isQuote c = false := by
  refine ⟨?_, ?_, ?_, ?_, ?_⟩
  · rw [Bool.eq_false_iff, Ne, isBlank_iff]
    intro hc
    have hblanks : [' ', '\t', '\r', '\n'].all (fun c => !c.isAlphanum) = true := by decide
    have hfalse := List.all_eq_true.1 hblanks c hc
    rw [h] at hfalse
    cases hfalse
  · unfold single?
    split <;> first | rfl | exact absurd h (by decide)
  · unfold paired?
    split <;> first | rfl | exact absurd h (by decide)
  · rintro rfl
    exact absurd h (by decide)
  · rw [isQuote, beq_eq_false_iff_ne]
    rintro rfl
    exact absurd h (by decide)

theorem piece_of_isAlphanum (h : c.isAlphanum = true) (cs : List Char) : piece c cs =
    if c.isDigit then numberPiece c cs else .ok (wordPiece c cs) := by
  obtain ⟨hblank, hsingle, hpaired, hslash, hquote⟩ := unlisted_of_isAlphanum h
  rw [piece, hblank, hsingle, hpaired, if_neg hslash, hquote]
  by_cases hdigit : c.isDigit = true
  · rw [hdigit]
    rfl
  · have halpha : c.isAlpha = true := by
      rw [Char.isAlphanum, Bool.or_eq_true] at h
      exact h.resolve_right hdigit
    rw [Bool.eq_false_iff.2 hdigit, halpha]
    rfl

theorem piece_of_isDigit (h : c.isDigit = true) (cs : List Char) : piece c cs = numberPiece c cs := by
  rw [piece_of_isAlphanum (by rw [Char.isAlphanum, h, Bool.or_true]), if_pos h]

theorem isDigit_of_isAlpha (h : c.isAlpha = true) : c.isDigit = false := by
  rw [Bool.eq_false_iff]
  intro hdigit
  delta Char.isAlpha Char.isUpper Char.isLower at h
  simp only [Char.isDigit, Bool.or_eq_true, Bool.and_eq_true, decide_eq_true_eq, UInt32.le_iff_toNat_le,
    ge_iff_le] at h hdigit
  have hnine : '9'.val.toNat = 57 := rfl
  have hupper : 'A'.val.toNat = 65 := rfl
  have hlower : 'a'.val.toNat = 97 := rfl
  omega

theorem piece_of_isAlpha (h : c.isAlpha = true) (cs : List Char) : piece c cs = .ok (wordPiece c cs) := by
  rw [piece_of_isAlphanum (by rw [Char.isAlphanum, h, Bool.true_or]), isDigit_of_isAlpha h]
  rfl

/-- A character with which no piece begins. -/
structure Unlisted (c : Char) : Prop where
  blank : isBlank c = false
  single : single? c = none
  paired : paired? c = none
  slash : c ≠ '/'
  quote : c ≠ '"'
  digit : c.isDigit = false
  alpha : c.isAlpha = false

theorem Unlisted.piece (h : Unlisted c) (cs : List Char) :
    piece c cs = .error ⟨.unexpectedCharacter c, 1⟩ := by
  have hquote : isQuote c = false := beq_eq_false_iff_ne.2 h.quote
  rw [Scan.piece, h.blank, h.single, h.paired, if_neg h.slash, hquote, h.digit, h.alpha]
  rfl

/-- The first character decides which rule applies. -/
theorem first_sorts (c : Char) : isBlank c = true ∨ (∃ kind, single? c = some kind) ∨
    (∃ plain withEquals, paired? c = some (plain, withEquals)) ∨ c = '/' ∨ c = '"' ∨ c.isDigit = true ∨
    c.isAlpha = true ∨ Unlisted c := by
  by_cases hblank : isBlank c = true
  · exact .inl hblank
  cases hsingle : single? c with
  | some kind => exact .inr (.inl ⟨kind, rfl⟩)
  | none =>
      cases hpaired : paired? c with
      | some kinds => exact .inr (.inr (.inl ⟨kinds.1, kinds.2, rfl⟩))
      | none =>
          by_cases hslash : c = '/'
          · exact .inr (.inr (.inr (.inl hslash)))
          by_cases hquote : c = '"'
          · exact .inr (.inr (.inr (.inr (.inl hquote))))
          by_cases hdigit : c.isDigit = true
          · exact .inr (.inr (.inr (.inr (.inr (.inl hdigit)))))
          by_cases halpha : c.isAlpha = true
          · exact .inr (.inr (.inr (.inr (.inr (.inr (.inl halpha))))))
          rw [Bool.not_eq_true] at hblank hdigit halpha
          exact .inr (.inr (.inr (.inr (.inr (.inr (.inr
            ⟨hblank, hsingle, hpaired, hslash, hquote, hdigit, halpha⟩))))))

/-! ### Pieces are in the lexicon -/

/-- A piece is spelled by the first character and as many others as the piece says. -/
def Takes (c : Char) (cs : List Char) (p : Piece) : Prop :=
  ∃ more rest, cs = more ++ rest ∧ p.after = more.length ∧ Spells (c :: more) p.content

theorem takes_first {cs : List Char} (h : Spells [c] content) : Takes c cs ⟨0, content⟩ :=
  ⟨[], cs, rfl, rfl, h⟩

theorem numberPiece_takes {cs : List Char} {p : Piece} (hc : c.isDigit = true) (h : numberPiece c cs = .ok p) :
    Takes c cs p := by
  have hdigits : ∀ {whole : List Char}, (∀ d ∈ whole, d.isDigit = true) → ∀ d ∈ c :: whole, d.isDigit = true :=
    fun hwhole => List.forall_mem_cons.2 ⟨hc, hwhole⟩
  rcases number_shapes cs with ⟨whole, rest, rfl, hwhole, hstop, hpoint⟩ |
    ⟨whole, fraction, rest, rfl, hwhole, hfraction, hstop, hpoint⟩ | ⟨whole, fraction, rest, rfl, hwhole, hfraction⟩
  · rw [numberPiece_whole hc hwhole hstop hpoint] at h
    cases h
    exact ⟨whole, rest, rfl, rfl, .whole (List.cons_ne_nil _ _) (hdigits hwhole)⟩
  · rw [numberPiece_fraction hc hwhole hfraction hstop hpoint] at h
    cases h
    refine ⟨whole ++ '.' :: fraction, rest, by simp, ?_, ?_⟩
    · simp only [List.length_append, List.length_cons]
      omega
    · exact .fraction (List.cons_ne_nil _ _) (hdigits hwhole) hfraction
  · rw [numberPiece_repeated c hwhole hfraction] at h
    cases h

theorem wordPiece_takes (hc : c.isAlpha = true) (cs : List Char) : Takes c cs (wordPiece c cs) := by
  obtain ⟨more, rest, rfl, hmore, hstop⟩ := exists_run isWordChar cs
  rw [wordPiece_eq c hmore hstop]
  exact ⟨more, rest, rfl, rfl, spells_word (isWord_cons_iff.2 ⟨hc, hmore⟩)⟩

theorem stringPiece_takes {cs : List Char} {p : Piece} (h : stringPiece cs = .ok p) : Takes '"' cs p := by
  rcases exists_run_of_ne '"' cs with hopen | ⟨inside, rest, rfl, hinside⟩
  · rw [stringPiece_open hopen] at h
    cases h
  · rw [stringPiece_closed hinside] at h
    cases h
    exact ⟨inside ++ ['"'], rest, by simp, by simp, .string hinside⟩

theorem slash_takes {cs : List Char} {p : Piece} (h : piece '/' cs = .ok p) : Takes '/' cs p := by
  rw [piece_slash] at h
  by_cases hcomment : cs.head? = some '/'
  · rw [if_pos hcomment] at h
    cases h
    obtain ⟨cs, rfl⟩ := List.head?_eq_some_iff.1 hcomment
    rcases exists_run_of_ne '\n' cs with hopen | ⟨text, rest, rfl, htext⟩
    · refine ⟨'/' :: cs, [], (List.append_nil _).symm, ?_, .comment hopen⟩
      rw [List.tail_cons, commentLength_open hopen, List.length_cons, Nat.add_comm]
    · refine ⟨'/' :: text ++ ['\n'], rest, by simp, ?_, .commentLine htext⟩
      show 1 + commentLength (text ++ '\n' :: rest) = ('/' :: text ++ ['\n']).length
      rw [commentLength_line htext, List.length_append, List.length_cons, List.length_singleton]
      omega
  · rw [if_neg hcomment] at h
    cases h
    exact takes_first (.sign (by decide))

theorem paired_takes {plain withEquals : Kind} {cs : List Char} {p : Piece}
    (hpaired : paired? c = some (plain, withEquals)) (h : piece c cs = .ok p) : Takes c cs p := by
  obtain ⟨hplain, hequals, -⟩ := paired?_eq_some hpaired
  rw [piece_of_paired hpaired] at h
  by_cases hhead : cs.head? = some '='
  · rw [if_pos hhead] at h
    cases h
    obtain ⟨rest, rfl⟩ := List.head?_eq_some_iff.1 hhead
    exact ⟨['='], rest, rfl, rfl, .sign hequals⟩
  · rw [if_neg hhead] at h
    cases h
    exact takes_first (.sign hplain)

theorem piece_takes {cs : List Char} {p : Piece} (h : piece c cs = .ok p) : Takes c cs p := by
  rcases first_sorts c with hblank | ⟨kind, hsingle⟩ | ⟨plain, withEquals, hpaired⟩ | rfl | rfl | hdigit | halpha |
    hunlisted
  · rw [piece_of_isBlank hblank] at h
    cases h
    exact takes_first (.space (isBlank_iff.1 hblank))
  · rw [piece_of_single hsingle] at h
    cases h
    exact takes_first (.sign (single?_eq_some hsingle).1)
  · exact paired_takes hpaired h
  · exact slash_takes h
  · exact stringPiece_takes h
  · rw [piece_of_isDigit hdigit] at h
    exact numberPiece_takes hdigit h
  · rw [piece_of_isAlpha halpha] at h
    cases h
    exact wordPiece_takes halpha cs
  · rw [hunlisted.piece] at h
    cases h

/-! ### Texts of the lexicon are recognised -/

/-- A piece reaches at least as far as a text, and says what the text says if it reaches no further. -/
structure Covers (p : Piece) (more : List Char) (content : Content) : Prop where
  reaches : more.length ≤ p.after
  agrees : p.after = more.length → p.content = content

theorem covers_of_eq {after : Nat} (h : after = more.length) : Covers ⟨after, content⟩ more content :=
  ⟨Nat.le_of_eq h.symm, fun _ => rfl⟩

theorem covers_of_lt {p : Piece} (h : more.length < p.after) : Covers p more content :=
  ⟨Nat.le_of_lt h, fun heq => absurd heq (Nat.ne_of_gt h)⟩

/-- A number that reaches at least as far as a text stands there, and a point behind it. -/
def Pointed (cs more : List Char) : Prop :=
  ∃ text value rest, cs = text ++ '.' :: rest ∧ Spells text (.token .number value) ∧ more.length < text.length

/-- What is found at the front of a text that begins with one of the lexicon. -/
def Recognised (c : Char) (more rest : List Char) (content : Content) : Prop :=
  (∃ p, piece c (more ++ rest) = .ok p ∧ Covers p more content) ∨
    (∃ r, piece c (more ++ rest) = .error r) ∧ Pointed (c :: (more ++ rest)) more

theorem sign_cases (h : (text, kind) ∈ signs) :
    (∃ c, text = [c] ∧ single? c = some kind) ∨ (∃ c withEquals, text = [c] ∧ paired? c = some (kind, withEquals)) ∨
    (∃ c plain, text = [c, '='] ∧ paired? c = some (plain, kind)) ∨ (text = ['/'] ∧ kind = .divide) := by
  simp only [signs, List.mem_cons, Prod.mk.injEq, List.not_mem_nil, or_false] at h
  rcases h with ⟨rfl, rfl⟩ | ⟨rfl, rfl⟩ | ⟨rfl, rfl⟩ | ⟨rfl, rfl⟩ | ⟨rfl, rfl⟩ | ⟨rfl, rfl⟩ | ⟨rfl, rfl⟩ |
    ⟨rfl, rfl⟩ | ⟨rfl, rfl⟩ | ⟨rfl, rfl⟩ | ⟨rfl, rfl⟩ | ⟨rfl, rfl⟩ | ⟨rfl, rfl⟩ | ⟨rfl, rfl⟩ | ⟨rfl, rfl⟩ |
    ⟨rfl, rfl⟩ | ⟨rfl, rfl⟩ | ⟨rfl, rfl⟩ | ⟨rfl, rfl⟩ <;> simp [single?, paired?]

theorem recognised_sign (h : (c :: more, kind) ∈ signs) : Recognised c more rest (.token kind none) := by
  rcases sign_cases h with ⟨d, heq, hsingle⟩ | ⟨d, withEquals, heq, hpaired⟩ | ⟨d, plain, heq, hpaired⟩ | ⟨heq, rfl⟩
  · obtain ⟨rfl, rfl⟩ := List.cons.inj heq
    exact .inl ⟨_, piece_of_single hsingle _, covers_of_eq rfl⟩
  · obtain ⟨rfl, rfl⟩ := List.cons.inj heq
    refine .inl ?_
    rw [piece_of_paired hpaired]
    split
    · exact ⟨_, rfl, covers_of_lt Nat.zero_lt_one⟩
    · exact ⟨_, rfl, covers_of_eq rfl⟩
  · obtain ⟨rfl, rfl⟩ := List.cons.inj heq
    refine .inl ?_
    rw [piece_of_paired hpaired]
    exact ⟨_, rfl, covers_of_eq rfl⟩
  · obtain ⟨rfl, rfl⟩ := List.cons.inj heq
    refine .inl ?_
    rw [piece_slash]
    split
    · exact ⟨_, rfl, covers_of_lt (Nat.lt_of_lt_of_le Nat.zero_lt_one (Nat.le_add_right _ _))⟩
    · exact ⟨_, rfl, covers_of_eq rfl⟩

theorem recognised_comment (h : '\n' ∉ text) : Recognised '/' ('/' :: text) rest .blank := by
  refine .inl ⟨_, rfl, ?_, fun _ => rfl⟩
  have hle := le_commentLength h rest
  show text.length + 1 ≤ 1 + commentLength (text ++ rest)
  omega

theorem recognised_commentLine (h : '\n' ∉ text) : Recognised '/' ('/' :: text ++ ['\n']) rest .blank := by
  refine .inl ⟨⟨1 + commentLength (text ++ '\n' :: rest), .blank⟩, ?_, covers_of_eq ?_⟩
  · rw [List.append_assoc]
    rfl
  · rw [commentLength_line h, List.length_append, List.length_cons, List.length_singleton]
    omega

theorem recognised_string (h : '"' ∉ text) : Recognised '"' (text ++ ['"']) rest
    (.token .string (some (.string (String.ofList text)))) := by
  refine .inl ⟨⟨text.length + 1, _⟩, ?_, covers_of_eq ?_⟩
  · rw [List.append_assoc, piece_quote, List.singleton_append, stringPiece_closed h]
  · rw [List.length_append, List.length_singleton]

theorem recognised_whole {whole : List Char} (hc : c.isDigit = true) (hwhole : ∀ d ∈ whole, d.isDigit = true) :
    Recognised c whole rest (.token .number (some (numberValue (c :: whole) []))) := by
  rw [Recognised, piece_of_isDigit hc]
  rcases number_shapes rest with ⟨run, rest, rfl, hrun, hstop, hpoint⟩ |
    ⟨run, fraction, rest, rfl, hrun, hfraction, hstop, hpoint⟩ | ⟨run, fraction, rest, rfl, hrun, hfraction⟩
  all_goals
    have hlonger : ∀ d ∈ whole ++ run, d.isDigit = true := List.forall_mem_append.2 ⟨hwhole, hrun⟩
    rw [← List.append_assoc]
  · refine .inl ⟨_, numberPiece_whole hc hlonger hstop hpoint, ?_, ?_⟩
    · simp
    · intro hlength
      have hrun : run = [] := by simpa using hlength
      rw [hrun, List.append_nil]
  · refine .inl ⟨_, numberPiece_fraction hc hlonger hfraction hstop hpoint, covers_of_lt ?_⟩
    simp only [List.length_append]
    omega
  · refine .inr ⟨⟨_, numberPiece_repeated c hlonger hfraction⟩, c :: (whole ++ run) ++ '.' :: fraction, _, rest, ?_,
      .fraction (List.cons_ne_nil _ _) (List.forall_mem_cons.2 ⟨hc, hlonger⟩) hfraction, ?_⟩
    · simp
    · simp only [List.length_append, List.length_cons]
      omega

theorem recognised_fraction {whole places : List Char} (hc : c.isDigit = true)
    (hwhole : ∀ d ∈ whole, d.isDigit = true) (hplaces : ∀ d ∈ places, d.isDigit = true) :
    Recognised c (whole ++ '.' :: places) rest (.token .number (some (numberValue (c :: whole) places))) := by
  rw [Recognised, piece_of_isDigit hc]
  obtain ⟨run, rest, rfl, hrun, hstop⟩ := exists_run Char.isDigit rest
  have hlonger : ∀ d ∈ places ++ run, d.isDigit = true := List.forall_mem_append.2 ⟨hplaces, hrun⟩
  have hsplit : whole ++ '.' :: places ++ (run ++ rest) = whole ++ '.' :: (places ++ run ++ rest) := by simp
  rw [hsplit]
  by_cases hpoint : rest.head? = some '.'
  · obtain ⟨rest, rfl⟩ := List.head?_eq_some_iff.1 hpoint
    refine .inr ⟨⟨_, numberPiece_repeated c hwhole hlonger⟩, c :: whole ++ '.' :: (places ++ run), _, rest, ?_,
      .fraction (List.cons_ne_nil _ _) (List.forall_mem_cons.2 ⟨hc, hwhole⟩) hlonger, ?_⟩
    · simp
    · simp only [List.length_append, List.length_cons]
      omega
  · refine .inl ⟨_, numberPiece_fraction hc hwhole hlonger hstop hpoint, ?_, ?_⟩
    · simp only [List.length_append, List.length_cons]
      omega
    · intro hlength
      have hrun : run = [] := by
        simp only [List.length_append, List.length_cons] at hlength
        exact List.eq_nil_of_length_eq_zero (by omega)
      rw [hrun, List.append_nil]

theorem recognised_word (h : isWord (c :: more) = true) :
    Recognised c more rest (.token (wordKind (String.ofList (c :: more))) none) := by
  obtain ⟨hc, hmore⟩ := isWord_cons_iff.1 h
  obtain ⟨run, rest, rfl, hrun, hstop⟩ := exists_run isWordChar rest
  have hlonger : ∀ d ∈ more ++ run, isWordChar d = true := List.forall_mem_append.2 ⟨hmore, hrun⟩
  refine .inl ⟨wordPiece c (more ++ run ++ rest), ?_, ?_, ?_⟩
  · rw [piece_of_isAlpha hc, List.append_assoc]
  · rw [wordPiece_eq c hlonger hstop]
    simp
  · rw [wordPiece_eq c hlonger hstop]
    intro hlength
    have hrun : run = [] := by simpa using hlength
    rw [hrun, List.append_nil]

theorem Spells.recognised (h : Spells (c :: more) content) (rest : List Char) : Recognised c more rest content := by
  generalize htext : c :: more = text at h
  cases h with
  | space listed =>
      obtain ⟨rfl, rfl⟩ := List.cons.inj htext
      exact .inl ⟨_, piece_of_isBlank (isBlank_iff.2 listed) _, covers_of_eq rfl⟩
  | comment inline =>
      obtain ⟨rfl, rfl⟩ := List.cons.inj htext
      exact recognised_comment inline
  | commentLine inline =>
      obtain ⟨rfl, rfl⟩ := List.cons.inj htext
      exact recognised_commentLine inline
  | sign listed => exact recognised_sign (htext ▸ listed)
  | string unquoted =>
      obtain ⟨rfl, rfl⟩ := List.cons.inj htext
      exact recognised_string unquoted
  | whole nonempty decimal =>
      subst htext
      obtain ⟨hc, hwhole⟩ := List.forall_mem_cons.1 decimal
      exact recognised_whole hc hwhole
  | @fraction digits places nonempty decimal decimal' =>
      obtain ⟨first, whole, rfl⟩ := List.exists_cons_of_ne_nil nonempty
      obtain ⟨rfl, rfl⟩ := List.cons.inj htext
      obtain ⟨hc, hwhole⟩ := List.forall_mem_cons.1 decimal
      exact recognised_fraction hc hwhole decimal'
  | keyword listed =>
      subst htext
      rw [← wordKind_of_keyword listed]
      exact recognised_word (isWord_of_keyword listed)
  | name letter continued free =>
      obtain ⟨rfl, rfl⟩ := List.cons.inj htext
      rw [← wordKind_of_free free]
      refine recognised_word (isWord_cons_iff.2 ⟨letter, fun d hd => ?_⟩)
      simpa [isWordChar] using continued d hd

/-! ### Longest pieces -/

/-- The text of a part determines what it contributes. -/
theorem Spells.content_unique {content' : Content} (h : Spells text content) (h' : Spells text content') :
    content = content' := by
  obtain ⟨c, more, rfl⟩ := List.exists_cons_of_ne_nil h.ne_nil
  have hagrees : ∀ {other : Content}, Spells (c :: more) other → ∃ p, piece c more = .ok p ∧ p.content = other := by
    intro other hother
    have hrecognised := hother.recognised []
    rw [Recognised, List.append_nil] at hrecognised
    rcases hrecognised with ⟨p, hp, hreaches, hcontent⟩ | ⟨-, number, value, rest, hsplit, -, hlength⟩
    · obtain ⟨taken, rest, hmore, hafter, -⟩ := piece_takes hp
      refine ⟨p, hp, hcontent ?_⟩
      have hlength := congrArg List.length hmore
      rw [List.length_append] at hlength
      omega
    · have hlength' := congrArg List.length hsplit
      rw [List.length_append, List.length_cons, List.length_cons] at hlength'
      omega
  obtain ⟨p, hp, hcontent⟩ := hagrees h
  obtain ⟨p', hp', hcontent'⟩ := hagrees h'
  rw [hp] at hp'
  rw [← hcontent, Except.ok.inj hp', hcontent']

namespace Part.Fits

variable {part part' : Part} {rest' : List Char}

theorem unique (h : part.Fits rest) (h' : part'.Fits rest') (heq : part.text ++ rest = part'.text ++ rest') :
    part = part' ∧ rest = rest' := by
  have hle : part.text.length ≤ part'.text.length := by
    apply h'.longest _ _ h.spelled
    rw [← heq]
    exact List.prefix_append _ _
  have hge : part'.text.length ≤ part.text.length := by
    apply h.longest _ _ h'.spelled
    rw [heq]
    exact List.prefix_append _ _
  obtain ⟨htext, hrest⟩ := List.append_inj heq (Nat.le_antisymm hle hge)
  obtain ⟨text, content⟩ := part
  obtain ⟨text', content'⟩ := part'
  obtain rfl : text = text' := htext
  obtain rfl : content = content' := h.spelled.content_unique h'.spelled
  exact ⟨rfl, hrest⟩

end Part.Fits

theorem fits_of_piece {cs : List Char} {p : Piece} (h : piece c cs = .ok p) :
    Part.Fits ⟨c :: cs.take p.after, p.content⟩ (cs.drop p.after) := by
  obtain ⟨more, rest, rfl, hafter, hspells⟩ := piece_takes h
  rw [hafter, List.take_left, List.drop_left]
  refine ⟨hspells, ?_⟩
  intro text content htext hprefix
  obtain ⟨first, other, rfl⟩ := List.exists_cons_of_ne_nil htext.ne_nil
  obtain ⟨tail, htail⟩ := hprefix
  obtain ⟨rfl, hsplit⟩ : first = c ∧ other ++ tail = more ++ rest := List.cons.inj htail
  rcases htext.recognised tail with ⟨p', hp', hcovers⟩ | ⟨⟨r, hr⟩, -⟩
  · have hsame : p' = p := by
      rw [hsplit] at hp'
      exact Except.ok.inj (hp'.symm.trans h)
    have hreaches := hcovers.reaches
    rw [hsame, hafter] at hreaches
    exact Nat.succ_le_succ hreaches
  · rw [hsplit] at hr
    cases h.symm.trans hr

theorem piece_of_fits (h : Part.Fits ⟨c :: more, content⟩ rest) (hpoint : rest.head? ≠ some '.') :
    piece c (more ++ rest) = .ok ⟨more.length, content⟩ := by
  rcases h.spelled.recognised rest with ⟨p, hp, hreaches, hagrees⟩ | ⟨-, number, value, tail, hsplit, hnumber, hlength⟩
  · obtain ⟨taken, tail, hsplit, hafter, htaken⟩ := piece_takes hp
    have hle : (c :: taken).length ≤ (c :: more).length := by
      apply h.longest _ _ htaken
      show c :: taken <+: c :: (more ++ rest)
      rw [hsplit]
      exact List.prefix_append (c :: taken) tail
    have hlength : p.after = more.length := by
      rw [List.length_cons, List.length_cons] at hle
      omega
    have hcontent : p.content = content := hagrees hlength
    rw [hp, ← hlength, ← hcontent]
  · have hle : number.length ≤ (c :: more).length := by
      apply h.longest _ _ hnumber
      show number <+: c :: (more ++ rest)
      rw [hsplit]
      exact List.prefix_append _ _
    have hsame : number.length = (c :: more).length := by
      rw [List.length_cons] at hle ⊢
      omega
    have hrest := (List.append_inj (hsplit.symm.trans (List.cons_append).symm) hsame).2
    rw [← hrest] at hpoint
    exact absurd rfl hpoint

end Blockscript.Scan
