import Blockscript.Proofs.Scan.Recognition

/-!
# Texts are read part by part

A text is read without a fault exactly if it can be cut into parts that fit, and then its tokens are those of the parts. There is only one such cut, since every part is determined by the text from its beginning on. So each character belongs to one part, and the tokens lie apart and in the order of the text.
-/

namespace Blockscript.Scan

variable {line offset : Nat}

theorem Reading.cons_eq (part : Part) (place : Place) (r : Reading) :
    Reading.cons part.text place part.content r = ⟨part.tokens place ++ r.tokens, r.lines⟩ := by
  obtain ⟨text, content⟩ := part
  cases content <;> rfl

theorem Cut.head?_ne_point {parts : List Part} (h : Cut parts) : (join parts).head? ≠ some '.' := by
  cases parts with
  | nil => simp
  | cons part rest =>
      have hspelled := h.1.spelled
      obtain ⟨c, more, htext⟩ := List.exists_cons_of_ne_nil hspelled.ne_nil
      have hhead := hspelled.head?_ne_point
      rw [htext] at hhead
      rw [join_cons, htext]
      exact hhead

/-- The part is the piece that is taken where `rest` follows it. -/
def Part.Taken (part : Part) (rest : List Char) : Prop :=
  ∃ c more, part.text = c :: more ∧ piece c (more ++ rest) = .ok ⟨more.length, part.content⟩

theorem Part.Fits.taken {part : Part} {rest : List Char} (h : part.Fits rest) (hpoint : rest.head? ≠ some '.') :
    part.Taken rest := by
  obtain ⟨text, content⟩ := part
  obtain ⟨c, more, rfl⟩ := List.exists_cons_of_ne_nil h.spelled.ne_nil
  exact ⟨c, more, rfl, piece_of_fits h hpoint⟩

theorem taken_blank {c : Char} (h : isBlank c = true) (rest : List Char) : Part.Taken ⟨[c], .blank⟩ rest :=
  ⟨c, [], rfl, piece_of_isBlank h rest⟩

/-- What is read behind some tokens. -/
def Reading.behind (ts : List Token) (r : Reading) : Reading :=
  ⟨ts ++ r.tokens, r.lines⟩

/-- A part that is taken is read, and then what follows it. -/
theorem Part.Taken.readFrom {part : Part} {rest : List Char} (h : part.Taken rest) (line offset : Nat) :
    readFrom line offset (part.text ++ rest) =
      (readFrom (line + part.text.count '\n') (offset + part.text.length) rest).map
        (Reading.behind (part.tokens ⟨line, ⟨offset, offset + part.text.length⟩⟩)) := by
  obtain ⟨c, more, htext, hpiece⟩ := h
  rw [htext, List.cons_append, Scan.readFrom, hpiece]
  simp only [List.take_left, List.drop_left, ← htext]
  cases Scan.readFrom (line + part.text.count '\n') (offset + part.text.length) rest with
  | error m => rfl
  | ok r => exact congrArg Except.ok (Reading.cons_eq part _ r)

theorem Part.Taken.readFrom_error_iff {part : Part} {rest : List Char} {m : Misread} (h : part.Taken rest)
    (line offset : Nat) : Scan.readFrom line offset (part.text ++ rest) = .error m ↔
      Scan.readFrom (line + part.text.count '\n') (offset + part.text.length) rest = .error m := by
  rw [h.readFrom]
  cases Scan.readFrom (line + part.text.count '\n') (offset + part.text.length) rest with
  | error m' => rfl
  | ok r => simp [Except.map]

/-- What stands in front is refused, or it is a part that fits and is taken. -/
theorem refused_or_taken (c : Char) (cs : List Char) :
    (∃ r, piece c cs = .error r) ∨
    ∃ (part : Part) (rest : List Char), part.text ++ rest = c :: cs ∧ part.Fits rest ∧ part.Taken rest ∧
      rest.length < (c :: cs).length := by
  cases hpiece : piece c cs with
  | error r => exact .inl ⟨r, rfl⟩
  | ok p =>
      obtain ⟨more, rest, rfl, hafter, -⟩ := piece_takes hpiece
      have hfits := fits_of_piece hpiece
      rw [hafter, List.take_left, List.drop_left] at hfits
      refine .inr ⟨⟨c :: more, p.content⟩, rest, rfl, hfits, ⟨c, more, rfl, ?_⟩, ?_⟩
      · rw [hpiece, ← hafter]
      · rw [List.length_cons, List.length_append]
        omega

/-- What is read is cut into parts. -/
theorem readFrom_cut {line offset : Nat} {source : List Char} {r : Reading} (h : readFrom line offset source = .ok r) :
    ∃ parts, join parts = source ∧ Cut parts ∧
      r = ⟨tokensFrom line offset parts, line + source.count '\n'⟩ := by
  cases source with
  | nil =>
      rw [readFrom] at h
      exact ⟨[], rfl, trivial, (Except.ok.inj h).symm⟩
  | cons c cs =>
      obtain ⟨refusal, hpiece⟩ | ⟨part, rest, hsplit, hfits, htaken, hshorter⟩ := refused_or_taken c cs
      · rw [readFrom, hpiece] at h
        cases h
      · rw [← hsplit, htaken.readFrom] at h
        cases hrest : readFrom (line + part.text.count '\n') (offset + part.text.length) rest with
        | error m =>
            rw [hrest] at h
            cases h
        | ok more =>
            obtain ⟨parts, hjoin, hcut, rfl⟩ := readFrom_cut hrest
            rw [hrest] at h
            refine ⟨part :: parts, ?_, ⟨?_, hcut⟩, ?_⟩
            · rw [join_cons, hjoin, hsplit]
            · rwa [hjoin]
            · rw [← Except.ok.inj h, ← hsplit, List.count_append, ← Nat.add_assoc]
              rfl
termination_by source.length

/-- What is cut into parts is read. -/
theorem Cut.readFrom {parts : List Part} (h : Cut parts) (line offset : Nat) :
    readFrom line offset (join parts) =
      .ok ⟨tokensFrom line offset parts, line + (join parts).count '\n'⟩ := by
  induction parts generalizing line offset with
  | nil =>
      rw [join_nil, Scan.readFrom]
      rfl
  | cons part rest ih =>
      obtain ⟨hfits, hcut⟩ := h
      rw [join_cons, (hfits.taken hcut.head?_ne_point).readFrom, ih hcut, List.count_append, ← Nat.add_assoc]
      rfl

theorem Cut.unique {parts parts' : List Part} (h : Cut parts) (h' : Cut parts') (heq : join parts = join parts') :
    parts = parts' := by
  induction parts generalizing parts' with
  | nil =>
      cases parts' with
      | nil => rfl
      | cons part' rest' =>
          rw [join_cons] at heq
          exact absurd (List.append_eq_nil_iff.1 heq.symm).1 h'.1.spelled.ne_nil
  | cons part rest ih =>
      cases parts' with
      | nil =>
          rw [join_cons] at heq
          exact absurd (List.append_eq_nil_iff.1 heq).1 h.1.spelled.ne_nil
      | cons part' rest' =>
          rw [join_cons, join_cons] at heq
          obtain ⟨rfl, hrest⟩ := h.1.unique h'.1 heq
          rw [ih h.2 h'.2 hrest]

/-! ### Tokens of parts -/

namespace Spells

variable {text : List Char} {kind : Kind} {literal : Option Value}

/-- Strings and numbers have a value, and no other token has one. -/
theorem literal_isSome_iff (h : Spells text (.token kind literal)) :
    literal.isSome = true ↔ kind = .string ∨ kind = .number := by
  cases h with
  | sign listed =>
      have hsigns : ∀ entry ∈ signs, ¬(entry.2 = .string ∨ entry.2 = .number) := by decide
      simp [hsigns _ listed]
  | string _ | whole _ _ | fraction _ _ _ => simp
  | keyword listed =>
      have hwords : ∀ entry ∈ keywords, ¬(entry.2 = .string ∨ entry.2 = .number) := by decide
      simp [hwords _ listed]
  | name _ _ _ => simp

theorem kind_ne (h : Spells text (.token kind literal)) : kind ≠ .ignore ∧ kind ≠ .undefined := by
  cases h with
  | sign listed =>
      have hsigns : ∀ entry ∈ signs, entry.2 ≠ .ignore ∧ entry.2 ≠ .undefined := by decide
      exact hsigns _ listed
  | string _ | whole _ _ | fraction _ _ _ => simp
  | keyword listed =>
      have hwords : ∀ entry ∈ keywords, entry.2 ≠ .ignore ∧ entry.2 ≠ .undefined := by decide
      exact hwords _ listed
  | name _ _ _ => simp

end Spells

/-- Where a text stands behind another one. -/
def placeAfter (line offset : Nat) (front text : List Char) : Place :=
  ⟨line + front.count '\n', ⟨offset + front.length, offset + front.length + text.length⟩⟩

theorem placeAfter_append (front middle text : List Char) :
    placeAfter line offset (front ++ middle) text =
      placeAfter (line + front.count '\n') (offset + front.length) middle text := by
  simp only [placeAfter, List.count_append, List.length_append, Nat.add_assoc]

/-- A token is that of a part, and the tokens on either side of it are those of the parts there. -/
def Divides (line offset : Nat) (parts : List Part) (before : List Token) (t : Token) (after : List Token) : Prop :=
  ∃ front part back, parts = front ++ part :: back ∧ tokensFrom line offset front = before ∧
    part.tokens (placeAfter line offset (join front) part.text) = [t] ∧
    tokensFrom (line + (join (front ++ [part])).count '\n') (offset + (join (front ++ [part])).length) back = after

theorem Divides.cons {part : Part} {rest : List Part} {before after : List Token} {t : Token}
    (h : Divides (line + part.text.count '\n') (offset + part.text.length) rest before t after) :
    Divides line offset (part :: rest) (part.tokens ⟨line, ⟨offset, offset + part.text.length⟩⟩ ++ before) t after := by
  obtain ⟨front, other, back, rfl, hfront, htoken, hback⟩ := h
  refine ⟨part :: front, other, back, rfl, ?_, ?_, ?_⟩
  · rw [tokensFrom, hfront]
  · rw [← htoken, join_cons, placeAfter_append]
  · rw [← hback, List.cons_append, join_cons, List.count_append, List.length_append, Nat.add_assoc, Nat.add_assoc]

theorem divides_of_tokensFrom {parts : List Part} {before after : List Token} {t : Token}
    (h : tokensFrom line offset parts = before ++ t :: after) : Divides line offset parts before t after := by
  induction parts generalizing line offset before with
  | nil => simp [tokensFrom] at h
  | cons part rest ih =>
      rw [tokensFrom] at h
      cases hcontent : part.content with
      | blank =>
          have hnone : part.tokens ⟨line, ⟨offset, offset + part.text.length⟩⟩ = [] := by
            rw [Part.tokens, hcontent]
          rw [hnone, List.nil_append] at h
          have hdivides := (ih h).cons
          rwa [hnone, List.nil_append] at hdivides
      | token kind literal =>
          have hone : ∀ place, part.tokens place = [⟨kind, String.ofList part.text, place, literal⟩] := by
            intro place
            rw [Part.tokens, hcontent]
          rw [hone, List.singleton_append] at h
          cases before with
          | nil =>
              obtain ⟨rfl, hrest⟩ := List.cons.inj h
              exact ⟨[], part, rest, rfl, rfl, hone _, by simpa using hrest⟩
          | cons u before =>
              obtain ⟨rfl, hrest⟩ := List.cons.inj h
              have hdivides := (ih hrest).cons
              rwa [hone, List.singleton_append] at hdivides

theorem Part.of_mem_tokens {part : Part} {place : Place} {t : Token} (h : t ∈ part.tokens place) :
    t.lexeme = String.ofList part.text ∧ t.place = place ∧ part.content = .token t.kind t.literal := by
  obtain ⟨text, content⟩ := part
  cases content with
  | blank => cases h
  | token kind literal =>
      obtain rfl := List.mem_singleton.1 h
      exact ⟨rfl, rfl, rfl⟩

theorem exists_part_of_mem {parts : List Part} {t : Token} (h : t ∈ tokensFrom line offset parts) :
    ∃ front part back, parts = front ++ part :: back ∧ t.lexeme = String.ofList part.text ∧
      t.place = placeAfter line offset (join front) part.text ∧ part.content = .token t.kind t.literal := by
  obtain ⟨before, after, hsplit⟩ := List.append_of_mem h
  obtain ⟨front, part, back, hparts, -, htoken, -⟩ := divides_of_tokensFrom hsplit
  exact ⟨front, part, back, hparts, Part.of_mem_tokens (htoken ▸ List.mem_singleton_self t)⟩

theorem le_start_of_mem {parts : List Part} {t : Token} (h : t ∈ tokensFrom line offset parts) :
    offset ≤ t.span.start := by
  obtain ⟨front, part, back, -, -, hplace, -⟩ := exists_part_of_mem h
  rw [Token.span, hplace]
  exact Nat.le_add_right _ _

theorem tokensFrom_pairwise (parts : List Part) :
    (tokensFrom line offset parts).Pairwise fun t u => t.span.stop ≤ u.span.start := by
  induction parts generalizing line offset with
  | nil => exact .nil
  | cons part rest ih =>
      rw [tokensFrom, List.pairwise_append]
      refine ⟨?_, ih, ?_⟩
      · rw [Part.tokens]
        split <;> simp
      · intro t ht u hu
        rw [Token.span, (Part.of_mem_tokens ht).2.1]
        exact le_start_of_mem hu

end Blockscript.Scan

namespace Blockscript

open Scan

theorem scan_ok_iff_read {source : String} {ts : List Token} :
    scan source = .ok ts ↔ ∃ lines, Scan.read source = .ok ⟨ts, lines⟩ := by
  rw [scan]
  cases Scan.read source with
  | error x => simp
  | ok r =>
      obtain ⟨tokens, lines⟩ := r
      simp

theorem scan_error_iff_read {source : String} {fault : Fault} :
    scan source = .error fault ↔ ∃ x, Scan.read source = .error x ∧ x.fault = fault := by
  rw [scan]
  cases Scan.read source <;> simp

theorem scan_eq_ok_iff {source : String} {ts : List Token} : scan source = .ok ts ↔
    ∃ parts, join parts = source.toList ∧ Cut parts ∧ ts = tokensFrom 1 0 parts := by
  rw [scan_ok_iff_read, Scan.read]
  constructor
  · rintro ⟨lines, hread⟩
    obtain ⟨parts, hjoin, hcut, hreading⟩ := readFrom_cut hread
    exact ⟨parts, hjoin, hcut, congrArg Reading.tokens hreading⟩
  · rintro ⟨parts, hjoin, hcut, rfl⟩
    exact ⟨_, hjoin ▸ hcut.readFrom 1 0⟩

/-- The text of a source between two offsets. -/
def excerpt (source : String) (span : Span) : String :=
  String.ofList (source.toList.extract span.start span.stop)

/-- A token stands in a source: it has the text of its range, which the lexicon has with its kind and value, and the line on which the range begins. -/
structure Token.Stands (t : Token) (source : String) : Prop where
  nonempty : t.span.start < t.span.stop
  inside : t.span.stop ≤ source.length
  lexeme : t.lexeme = excerpt source t.span
  spelled : Spells t.lexeme.toList (.token t.kind t.literal)
  line : t.line = 1 + (source.toList.take t.span.start).count '\n'

theorem stands_of_mem {source : String} {parts : List Part} {t : Token} (hjoin : join parts = source.toList)
    (hcut : Cut parts) (h : t ∈ tokensFrom 1 0 parts) : t.Stands source := by
  obtain ⟨front, part, back, rfl, hlexeme, hplace, hcontent⟩ := exists_part_of_mem h
  have hspelled := hcut.right.1.spelled
  have hpos := List.length_pos_of_ne_nil hspelled.ne_nil
  have hspan : t.span = ⟨(join front).length, (join front).length + part.text.length⟩ := by
    rw [Token.span, hplace, placeAfter, Nat.zero_add]
  rw [join_append, join_cons] at hjoin
  constructor
  · rw [hspan]
    exact Nat.lt_add_of_pos_right hpos
  · rw [hspan, ← String.length_toList, ← hjoin, List.length_append, List.length_append]
    exact Nat.add_le_add_left (Nat.le_add_right _ _) _
  · rw [hlexeme, excerpt, hspan, ← hjoin, List.extract, List.drop_left, Nat.add_sub_cancel_left, List.take_left]
  · rw [hlexeme, String.toList_ofList, ← hcontent]
    exact hspelled
  · rw [Token.line, hplace, hspan, ← hjoin, List.take_left]
    rfl

theorem scan_stands {source : String} {ts : List Token} (h : scan source = .ok ts) : ∀ t ∈ ts, t.Stands source := by
  obtain ⟨parts, hjoin, hcut, rfl⟩ := scan_eq_ok_iff.1 h
  intro t ht
  exact stands_of_mem hjoin hcut ht

/-- **Texts are read by the lexicon.** A text is read as some tokens exactly if it can be cut into parts, each the longest text of the lexicon at its place, and the tokens are those of the parts. The cut is unique. Every token that is read has the text of its own range, a value exactly if it is a string or a number, and no kind that stands for no word; ranges are not empty and follow one another. -/
theorem scan_accepts_lexicon (source : String) :
    (∀ ts, scan source = .ok ts ↔
      ∃ parts, join parts = source.toList ∧ Cut parts ∧ ts = tokensFrom 1 0 parts) ∧
    (∀ parts parts', join parts = source.toList → join parts' = source.toList → Cut parts → Cut parts' →
      parts = parts') ∧
    (∀ ts, scan source = .ok ts → (∀ t ∈ ts, t.Stands source ∧ t.kind ≠ .ignore ∧ t.kind ≠ .undefined ∧
        (t.literal.isSome = true ↔ t.kind = .string ∨ t.kind = .number)) ∧
      ts.Pairwise fun t u => t.span.stop ≤ u.span.start) := by
  refine ⟨fun ts => scan_eq_ok_iff, ?_, ?_⟩
  · intro parts parts' hjoin hjoin' hcut hcut'
    exact hcut.unique hcut' (hjoin.trans hjoin'.symm)
  · intro ts hscan
    obtain ⟨parts, hjoin, hcut, rfl⟩ := scan_eq_ok_iff.1 hscan
    refine ⟨?_, tokensFrom_pairwise parts⟩
    intro t ht
    have hstands := stands_of_mem hjoin hcut ht
    exact ⟨hstands, hstands.spelled.kind_ne.1, hstands.spelled.kind_ne.2, hstands.spelled.literal_isSome_iff⟩

/-- A point belongs to the number before it, and a comment may end with the text. -/
theorem scan_point_and_comment :
    let ts : List Token := [⟨.number, "7.", ⟨1, ⟨0, 2⟩⟩, some (numberValue ['7'] [])⟩,
      ⟨.lessThan, "<", ⟨1, ⟨2, 3⟩⟩, none⟩, ⟨.identifier, "x", ⟨2, ⟨4, 5⟩⟩, none⟩]
    scan "7.<\nx//" = .ok ts ∧ (∀ t ∈ ts, t.Stands "7.<\nx//") := by
  intro ts
  have hnumber : Part.Fits ⟨['7', '.'], .token .number (some (numberValue ['7'] []))⟩ ['<', '\n', 'x', '/', '/'] :=
    fits_of_piece (show piece '7' ['.', '<', '\n', 'x', '/', '/'] = .ok ⟨1, _⟩ from rfl)
  have hless : Part.Fits ⟨['<'], .token .lessThan none⟩ ['\n', 'x', '/', '/'] :=
    fits_of_piece (show piece '<' ['\n', 'x', '/', '/'] = .ok ⟨0, _⟩ from rfl)
  have hbreak : Part.Fits ⟨['\n'], .blank⟩ ['x', '/', '/'] :=
    fits_of_piece (show piece '\n' ['x', '/', '/'] = .ok ⟨0, _⟩ from rfl)
  have hname : Part.Fits ⟨['x'], .token .identifier none⟩ ['/', '/'] :=
    fits_of_piece (show piece 'x' ['/', '/'] = .ok ⟨0, _⟩ from rfl)
  have hcomment : Part.Fits ⟨['/', '/'], .blank⟩ [] :=
    fits_of_piece (show piece '/' ['/'] = .ok ⟨1, _⟩ from rfl)
  have hcut : Cut [⟨['7', '.'], .token .number (some (numberValue ['7'] []))⟩, ⟨['<'], .token .lessThan none⟩,
      ⟨['\n'], .blank⟩, ⟨['x'], .token .identifier none⟩, ⟨['/', '/'], .blank⟩] :=
    ⟨hnumber, hless, hbreak, hname, hcomment, trivial⟩
  have hscan : scan "7.<\nx//" = .ok ts := ((scan_accepts_lexicon _).1 ts).2 ⟨_, rfl, hcut, rfl⟩
  exact ⟨hscan, fun t ht => (((scan_accepts_lexicon _).2.2 ts hscan).1 t ht).1⟩

end Blockscript
