import Blockscript.Proofs.Move
import Blockscript.Proofs.Scan.Parts

/-!
# Texts cut out and joined

A part that fits in a text fits as well where less follows it. So the text from the beginning of one token to the end of another is read as the tokens between them, moved to the front.

Behind a line break a text is read as if nothing stood before it, and the text in front of the break is read as if it ended there: only a comment could go on, and it takes the break and nothing more.
-/

namespace Blockscript

open Scan

/-- The same reading at moved places. -/
def Move.reading (m : Move) (r : Reading) : Reading :=
  ⟨r.tokens.map m.token, m.line r.lines⟩

/-- The same refusal at the moved place. -/
def Move.misread (m : Move) (x : Misread) : Misread :=
  ⟨m.place x.place, x.problem⟩

theorem Move.reading_cons (m : Move) (text : List Char) (place : Place) (content : Content) (r : Reading) :
    m.reading (r.cons text place content) = (m.reading r).cons text (m.place place) content := by
  cases content <;> rfl

end Blockscript

namespace Blockscript.Scan

open Grammar

variable {line offset : Nat}

theorem tokensFrom_forward (line offset lines characters : Nat) (parts : List Part) :
    tokensFrom (line + lines) (offset + characters) parts =
      (tokensFrom line offset parts).map (Move.forward lines characters).token := by
  induction parts generalizing line offset with
  | nil => rfl
  | cons part rest ih =>
      have hpart : part.tokens ⟨line + lines, ⟨offset + characters, offset + characters + part.text.length⟩⟩ =
          (part.tokens ⟨line, ⟨offset, offset + part.text.length⟩⟩).map (Move.forward lines characters).token := by
        rw [Nat.add_right_comm, Part.tokens, Part.tokens]
        cases part.content <;> rfl
      rw [tokensFrom, tokensFrom, hpart, List.map_append, ← ih, Nat.add_right_comm line, Nat.add_right_comm offset]

theorem readFrom_forward (line offset lines characters : Nat) (source : List Char) :
    readFrom (line + lines) (offset + characters) source =
      ((readFrom line offset source).map (Move.forward lines characters).reading).mapError
        (Move.forward lines characters).misread := by
  cases source with
  | nil =>
      rw [readFrom, readFrom]
      rfl
  | cons c cs =>
      have hplace : ∀ width, (⟨line + lines, ⟨offset + characters, offset + characters + width⟩⟩ : Place) =
          (Move.forward lines characters).place ⟨line, ⟨offset, offset + width⟩⟩ := by
        intro width
        rw [Nat.add_right_comm]
        rfl
      rw [readFrom, readFrom]
      cases hpiece : piece c cs with
      | error r =>
          simp only [hplace]
          rfl
      | ok p =>
          have ih := readFrom_forward (line + (c :: cs.take p.after).count '\n')
            (offset + (c :: cs.take p.after).length) lines characters (cs.drop p.after)
          rw [Nat.add_right_comm line, Nat.add_right_comm offset] at ih
          simp only [hplace, ih]
          cases readFrom (line + (c :: cs.take p.after).count '\n') (offset + (c :: cs.take p.after).length)
              (cs.drop p.after) with
          | error m => rfl
          | ok r => exact congrArg Except.ok (Move.reading_cons _ _ _ _ r).symm
termination_by source.length

/-! ### Cutting out -/

/-- The tokens from one to another are those of the parts from the first to the last of them. -/
theorem exists_parts_between {parts : List Part} {before ts after : List Token} (hts : ts ≠ [])
    (h : tokensFrom line offset parts = before ++ ts ++ after) :
    ∃ front middle back, parts = front ++ middle ++ back ∧
      tokensFrom (line + (join front).count '\n') (offset + (join front).length) middle = ts ∧
      cover ts = ⟨offset + (join front).length, offset + (join front).length + (join middle).length⟩ := by
  obtain ⟨t, more, rfl⟩ := List.exists_cons_of_ne_nil hts
  rw [List.append_assoc, List.cons_append] at h
  obtain ⟨front, part, back, rfl, -, htoken, hback⟩ := divides_of_tokensFrom h
  have hplace := (Part.of_mem_tokens (htoken ▸ List.mem_singleton_self t)).2.1
  have hjoin : join (front ++ [part]) = join front ++ part.text := by simp
  rw [hjoin, List.count_append, List.length_append, ← Nat.add_assoc, ← Nat.add_assoc] at hback
  rcases List.eq_nil_or_concat' more with rfl | ⟨between, u, rfl⟩
  · refine ⟨front, [part], back, by simp, ?_, ?_⟩
    · rw [tokensFrom, tokensFrom, List.append_nil]
      exact htoken
    · rw [cover_singleton, Token.span, hplace, join_cons, join_nil, List.append_nil]
      rfl
  · rw [List.append_assoc, List.singleton_append] at hback
    obtain ⟨front', part', back', rfl, hfront', htoken', -⟩ := divides_of_tokensFrom hback
    have hplace' := (Part.of_mem_tokens (htoken' ▸ List.mem_singleton_self u)).2.1
    refine ⟨front, part :: front' ++ [part'], back', by simp, ?_, ?_⟩
    · rw [List.cons_append, tokensFrom, tokensFrom_append, hfront', tokensFrom, tokensFrom, List.append_nil]
      exact congrArg₂ (fun first last => first ++ (between ++ last)) htoken htoken'
    · rw [← List.cons_append, cover_between, Token.span, Token.span, hplace, hplace']
      simp only [placeAfter, Span.through, join_append, join_cons, join_nil, List.append_nil, List.length_append,
        Nat.add_assoc]

/-! ### Joining -/

namespace Spells

variable {text more : List Char} {content : Content}

/-- A line break stands alone, ends a comment or lies in a string. -/
theorem break_cases (h : Spells text content) (hbreak : '\n' ∈ text) :
    text = ['\n'] ∨ (∃ inline, text = '/' :: '/' :: inline ++ ['\n'] ∧ '\n' ∉ inline) ∨
      ∃ inside, text = '"' :: inside ++ ['"'] ∧ '"' ∉ inside := by
  have hdigits : ∀ {digits : List Char}, (∀ c ∈ digits, c.isDigit = true) → '\n' ∉ digits := by
    intro digits hdecimal hmem
    exact absurd (hdecimal _ hmem) (by decide)
  have hword : isWord text = true → '\n' ∉ text := by
    intro hword hmem
    obtain ⟨c, more, rfl⟩ := List.exists_cons_of_ne_nil h.ne_nil
    obtain ⟨hfirst, hmore⟩ := isWord_cons_iff.1 hword
    rcases List.mem_cons.1 hmem with rfl | hmem
    · exact absurd hfirst (by decide)
    · exact absurd (hmore _ hmem) (by decide)
  cases h with
  | space _ =>
      obtain rfl := List.mem_singleton.1 hbreak
      exact .inl rfl
  | comment inline => simp [inline] at hbreak
  | commentLine inline => exact .inr (.inl ⟨_, rfl, inline⟩)
  | sign listed =>
      have hsigns : ∀ entry ∈ signs, '\n' ∉ entry.1 := by decide
      exact absurd hbreak (hsigns _ listed)
  | string unquoted => exact .inr (.inr ⟨_, rfl, unquoted⟩)
  | whole _ decimal => exact absurd hbreak (hdigits decimal)
  | fraction _ decimal decimal' => simp [hdigits decimal, hdigits decimal'] at hbreak
  | keyword listed => exact absurd hbreak (hword (isWord_of_keyword listed))
  | name letter continued _ =>
      refine absurd hbreak (hword (isWord_cons_iff.2 ⟨letter, fun c hc => ?_⟩))
      simpa [isWordChar] using continued c hc

end Spells

theorem eq_of_last_stop {stop : Char} {run front back : List Char} (hrun : stop ∉ run)
    (h : front ++ stop :: back = run ++ [stop]) : front = run ∧ back = [] := by
  rcases List.eq_nil_or_concat' back with rfl | ⟨between, last, rfl⟩
  · exact ⟨List.append_cancel_right h, rfl⟩
  · have hsplit : (front ++ stop :: between) ++ [last] = run ++ [stop] := by simpa using h
    have hmem : stop ∈ run := by
      rw [← (List.append_inj' hsplit rfl).1]
      exact List.mem_append_right front List.mem_cons_self
    exact absurd hmem hrun

/-- A comment without its line break. -/
def Part.IsOpen (part : Part) : Prop :=
  ∃ inline, part.text = '/' :: '/' :: inline ∧ '\n' ∉ inline

/-- Only a comment at the end of a text can take a line break that is put behind it. -/
theorem Part.Fits.before_break {part : Part} {rest : List Char} (h : part.Fits rest)
    (hopen : rest = [] → ¬part.IsOpen) (more : List Char) : part.Fits (rest ++ '\n' :: more) := by
  refine ⟨h.spelled, ?_⟩
  intro text content htext hprefix
  rw [← List.append_assoc] at hprefix
  obtain ⟨tail, htail⟩ := hprefix
  rcases List.append_eq_append_iff.1 htail with ⟨mid, hmid, -⟩ | ⟨mid, htextMid, hmid⟩
  · apply h.longest _ _ htext
    rw [hmid]
    exact List.prefix_append _ _
  cases mid with
  | nil =>
      have hwhole : text = part.text ++ rest := htextMid.trans (List.append_nil _)
      exact h.longest _ _ htext (hwhole ▸ List.prefix_rfl)
  | cons c mid =>
      obtain ⟨rfl, -⟩ := List.cons.inj hmid
      have hbreak : '\n' ∈ text := by
        rw [htextMid]
        exact List.mem_append_right _ List.mem_cons_self
      obtain ⟨first, others, hpart⟩ := List.exists_cons_of_ne_nil h.spelled.ne_nil
      rcases htext.break_cases hbreak with heq | ⟨inline, heq, hinline⟩ | ⟨inside, heq, hinside⟩
      · rw [heq, hpart] at htextMid
        simp at htextMid
      · have hnotin : '\n' ∉ '/' :: '/' :: inline := by simp [hinline]
        obtain ⟨hall, -⟩ := eq_of_last_stop hnotin (htextMid.symm.trans heq)
        have hle := h.longest _ _ (.comment hinline) (hall ▸ List.prefix_rfl)
        have hlength := congrArg List.length hall
        rw [List.length_append] at hlength
        have hrest : rest = [] := List.eq_nil_of_length_eq_zero (by omega)
        rw [hrest, List.append_nil] at hall
        exact absurd ⟨inline, hall, hinline⟩ (hopen hrest)
      · rw [htextMid, hpart] at heq
        obtain ⟨rfl, hothers⟩ : first = '"' ∧ others ++ rest ++ '\n' :: mid = inside ++ ['"'] := List.cons.inj heq
        have hspelled := h.spelled
        rw [hpart] at hspelled
        obtain ⟨inside', rfl, -⟩ := hspelled.quote_cases
        have hlast := (eq_of_last_stop hinside (by simpa using hothers)).2
        simp at hlast

theorem taken_commentLine {inline : List Char} (h : '\n' ∉ inline) (rest : List Char) :
    Part.Taken ⟨'/' :: '/' :: inline ++ ['\n'], .blank⟩ rest := by
  refine ⟨'/', '/' :: inline ++ ['\n'], rfl, ?_⟩
  have hsplit : '/' :: inline ++ ['\n'] ++ rest = '/' :: (inline ++ '\n' :: rest) := by simp
  have hlength : ('/' :: inline ++ ['\n']).length = 1 + (inline.length + 1) := by simp [Nat.add_comm]
  rw [hsplit, hlength, ← commentLength_line h]
  rfl

theorem Cut.head?_break_ne_point {front : List Part} (h : Cut front) (rest : List Char) :
    (join front ++ '\n' :: rest).head? ≠ some '.' := by
  have hfront := h.head?_ne_point
  cases hjoin : join front with
  | nil => simp
  | cons c cs => rwa [hjoin] at hfront

/-- In front of a line break a text is read as it is on its own, and behind the break as if nothing stood before it. -/
theorem Cut.readFrom_break {front : List Part} (h : Cut front) (line offset : Nat) (rest : List Char) :
    Scan.readFrom line offset (join front ++ '\n' :: rest) =
      (Scan.readFrom (line + ((join front).count '\n' + 1)) (offset + ((join front).length + 1)) rest).map
        (Reading.behind (tokensFrom line offset front)) := by
  induction front generalizing line offset with
  | nil => exact (taken_blank rfl rest).readFrom line offset
  | cons part front ih =>
      obtain ⟨hfits, hcut⟩ := h
      by_cases hopen : front = [] ∧ part.IsOpen
      · obtain ⟨rfl, inline, htext, hinline⟩ := hopen
        have hspelled := hfits.spelled
        rw [htext] at hspelled
        have hcontent : part.content = .blank := hspelled.content_unique (.comment hinline)
        have hread := (taken_commentLine hinline rest).readFrom line offset
        rw [← htext] at hread
        simpa [tokensFrom, Part.tokens, hcontent, Nat.add_assoc] using hread
      · have hnotOpen : join front = [] → ¬part.IsOpen := by
          intro hnil hpart
          have hempty : Cut ([] : List Part) := trivial
          exact hopen ⟨hcut.unique hempty hnil, hpart⟩
        have htaken := (hfits.before_break hnotOpen rest).taken (hcut.head?_break_ne_point rest)
        rw [join_cons, List.append_assoc, htaken.readFrom, ih hcut, List.count_append, List.length_append]
        simp only [Nat.add_assoc, tokensFrom]
        cases Scan.readFrom (line + (part.text.count '\n' + ((join front).count '\n' + 1)))
            (offset + (part.text.length + ((join front).length + 1))) rest with
        | error m => rfl
        | ok r => simp [Except.map, Reading.behind]

end Blockscript.Scan

namespace Blockscript

open Scan Grammar

/-- The line breaks of a source in front of an offset. -/
def linesBefore (source : String) (offset : Nat) : Nat :=
  (source.toList.take offset).count '\n'

/-- The text from the first of some tokens to the last of them is read as these tokens. -/
theorem scan_excerpt {source : String} {before ts after : List Token} (hts : ts ≠ [])
    (h : scan source = .ok (before ++ ts ++ after)) :
    ∃ us, scan (excerpt source (cover ts)) = .ok us ∧
      ts = us.map (Move.forward (linesBefore source (cover ts).start) (cover ts).start).token := by
  obtain ⟨parts, hjoin, hcut, htokens⟩ := scan_eq_ok_iff.1 h
  obtain ⟨front, middle, back, rfl, hmiddle, hcover⟩ := exists_parts_between hts htokens.symm
  rw [Nat.zero_add] at hcover hmiddle
  rw [join_append, join_append, List.append_assoc] at hjoin
  have htext : (excerpt source (cover ts)).toList = join middle := by
    rw [excerpt, String.toList_ofList, hcover, ← hjoin, List.extract, List.drop_left, Nat.add_sub_cancel_left,
      List.take_left]
  have hlines : linesBefore source (cover ts).start = (join front).count '\n' := by
    rw [linesBefore, hcover, ← hjoin, List.take_left]
  refine ⟨tokensFrom 1 0 middle, scan_eq_ok_iff.2 ⟨middle, htext.symm, hcut.left.right, rfl⟩, ?_⟩
  rw [hlines, hcover, ← tokensFrom_forward, Nat.zero_add]
  exact hmiddle.symm

/-- What a text does to the places of the text on the next line. -/
def Move.below (source : String) : Move :=
  .forward (source.toList.count '\n' + 1) (source.length + 1)

/-- Behind a line break a text is read as it is on its own, one line further down. -/
theorem read_break {a : String} {as : List Token} (ha : scan a = .ok as) (b : String) :
    Scan.read (a ++ "\n" ++ b) = (((Scan.read b).map (Move.below a).reading).mapError (Move.below a).misread).map
      (Reading.behind as) := by
  obtain ⟨front, hfront, hcut, rfl⟩ := scan_eq_ok_iff.1 ha
  have hsource : (a ++ "\n" ++ b).toList = join front ++ '\n' :: b.toList := by
    rw [hfront, String.toList_append, String.toList_append, List.append_assoc]
    rfl
  rw [Scan.read, Scan.read, hsource, hcut.readFrom_break, readFrom_forward, hfront, Move.below, String.length_toList]

/-- Texts on both sides of a line break are read as they are on their own. -/
theorem scan_break {a b : String} {as bs : List Token} (ha : scan a = .ok as) (hb : scan b = .ok bs) :
    scan (a ++ "\n" ++ b) = .ok (as ++ bs.map (Move.below a).token) := by
  obtain ⟨lines, hread⟩ := scan_ok_iff_read.1 hb
  rw [scan, read_break ha, hread]
  rfl

end Blockscript
