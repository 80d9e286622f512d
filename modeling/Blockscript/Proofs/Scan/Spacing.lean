import Blockscript.Proofs.Scan.Parts
import Blockscript.Proofs.Session.Places

/-!
# Spacing

The text of a token is taken as one piece wherever white space or the end of the text follows it, since no piece that begins as a token does goes on behind white space, except for a string, and a string ends with its quote. So the texts of tokens can be written down again with any white space between them: each is read as it was, and the white space adds nothing.
-/

namespace Blockscript.Scan

variable {c : Char} {text rest : List Char}

/-! ### Pieces before white space -/

/-- White space or nothing stands in front. -/
def Spaced (rest : List Char) : Prop :=
  ∀ c ∈ rest.head?, isBlank c = true

theorem spaced_append {gap : List Char} (h : ∀ c ∈ gap, isBlank c = true) (hrest : gap = [] → rest = []) :
    Spaced (gap ++ rest) := by
  intro c hc
  cases gap with
  | nil =>
      rw [hrest rfl] at hc
      cases hc
  | cons d gap =>
      obtain rfl := Option.some.inj hc
      exact h d List.mem_cons_self

namespace Spaced

theorem forall_head? {p : Char → Bool} (h : Spaced rest) (hp : [' ', '\t', '\r', '\n'].all (!p ·) = true) :
    ∀ c ∈ rest.head?, p c = false := by
  intro c hc
  simpa using List.all_eq_true.1 hp c (isBlank_iff.1 (h c hc))

theorem head?_ne (h : Spaced rest) (hc : isBlank c = false) : rest.head? ≠ some c := by
  intro hhead
  rw [h c hhead] at hc
  cases hc

end Spaced

theorem taken_sign {kind : Kind} (h : (text, kind) ∈ signs) (hrest : Spaced rest) :
    Part.Taken ⟨text, .token kind none⟩ rest := by
  rcases sign_cases h with ⟨c, rfl, hsingle⟩ | ⟨c, withEquals, rfl, hpaired⟩ | ⟨c, plain, rfl, hpaired⟩ | ⟨rfl, rfl⟩
  · exact ⟨c, [], rfl, piece_of_single hsingle _⟩
  · refine ⟨c, [], rfl, ?_⟩
    rw [piece_of_paired hpaired, List.nil_append, if_neg (hrest.head?_ne rfl)]
    rfl
  · refine ⟨c, ['='], rfl, ?_⟩
    rw [piece_of_paired hpaired, List.singleton_append, if_pos List.head?_cons]
    rfl
  · refine ⟨'/', [], rfl, ?_⟩
    rw [piece_slash, List.nil_append, if_neg (hrest.head?_ne rfl)]
    rfl

theorem taken_word {first : Char} {more : List Char} (h : isWord (first :: more) = true) (hrest : Spaced rest) :
    Part.Taken ⟨first :: more, .token (wordKind (String.ofList (first :: more))) none⟩ rest := by
  obtain ⟨hfirst, hmore⟩ := isWord_cons_iff.1 h
  refine ⟨first, more, rfl, ?_⟩
  rw [piece_of_isAlpha hfirst, wordPiece_eq first hmore (hrest.forall_head? (by decide))]

theorem taken_whole {digits : List Char} (hne : digits ≠ []) (hdigits : ∀ c ∈ digits, c.isDigit = true)
    (hrest : Spaced rest) : Part.Taken ⟨digits, .token .number (some (numberValue digits []))⟩ rest := by
  obtain ⟨first, whole, rfl⟩ := List.exists_cons_of_ne_nil hne
  obtain ⟨hfirst, hwhole⟩ := List.forall_mem_cons.1 hdigits
  refine ⟨first, whole, rfl, ?_⟩
  rw [piece_of_isDigit hfirst]
  exact numberPiece_whole hfirst hwhole (hrest.forall_head? (by decide)) (hrest.head?_ne rfl)

theorem taken_fraction {digits places : List Char} (hne : digits ≠ []) (hdigits : ∀ c ∈ digits, c.isDigit = true)
    (hplaces : ∀ c ∈ places, c.isDigit = true) (hrest : Spaced rest) :
    Part.Taken ⟨digits ++ '.' :: places, .token .number (some (numberValue digits places))⟩ rest := by
  obtain ⟨first, whole, rfl⟩ := List.exists_cons_of_ne_nil hne
  obtain ⟨hfirst, hwhole⟩ := List.forall_mem_cons.1 hdigits
  refine ⟨first, whole ++ '.' :: places, rfl, ?_⟩
  have hlength : (whole ++ '.' :: places).length = whole.length + 1 + places.length := by
    rw [List.length_append, List.length_cons]
    omega
  rw [piece_of_isDigit hfirst, List.append_assoc, List.cons_append, hlength]
  exact numberPiece_fraction hfirst hwhole hplaces (hrest.forall_head? (by decide)) (hrest.head?_ne rfl)

theorem taken_string {inside : List Char} (h : '"' ∉ inside) (rest : List Char) :
    Part.Taken ⟨'"' :: inside ++ ['"'], .token .string (some (.string (String.ofList inside)))⟩ rest := by
  refine ⟨'"', inside ++ ['"'], rfl, ?_⟩
  rw [piece_quote, List.append_assoc, List.singleton_append, stringPiece_closed h, List.length_append,
    List.length_singleton]

/-- The text of a token is one piece where white space or nothing follows it. -/
theorem Spells.taken {kind : Kind} {literal : Option Value} (h : Spells text (.token kind literal))
    (hrest : Spaced rest) : Part.Taken ⟨text, .token kind literal⟩ rest := by
  cases h with
  | sign listed => exact taken_sign listed hrest
  | string unquoted => exact taken_string unquoted rest
  | whole nonempty decimal => exact taken_whole nonempty decimal hrest
  | fraction nonempty decimal decimal' => exact taken_fraction nonempty decimal decimal' hrest
  | keyword listed =>
      have hword := isWord_of_keyword listed
      rw [← wordKind_of_keyword listed]
      cases text with
      | nil => cases hword
      | cons first more => exact taken_word hword hrest
  | @name first more letter continued free =>
      have hword : isWord (first :: more) = true := by
        refine isWord_cons_iff.2 ⟨letter, fun c hc => ?_⟩
        simpa [isWordChar] using continued c hc
      rw [← wordKind_of_free free]
      exact taken_word hword hrest

/-! ### Respaced texts -/

/-- White space adds nothing. -/
theorem readFrom_blanks {gap : List Char} (h : ∀ c ∈ gap, isBlank c = true) (line offset : Nat) (rest : List Char) :
    readFrom line offset (gap ++ rest) = readFrom (line + gap.count '\n') (offset + gap.length) rest := by
  induction gap generalizing line offset with
  | nil => rfl
  | cons c gap ih =>
      obtain ⟨hc, hgap⟩ := List.forall_mem_cons.1 h
      have hread := (taken_blank hc (gap ++ rest)).readFrom line offset
      have hcount : [c].count '\n' + gap.count '\n' = (c :: gap).count '\n' := by
        rw [← List.count_append, List.singleton_append]
      have hlength : [c].length + gap.length = (c :: gap).length := by
        rw [← List.length_append, List.singleton_append]
      rw [ih hgap, Nat.add_assoc, Nat.add_assoc, hcount, hlength] at hread
      rw [List.cons_append, ← List.singleton_append, hread]
      cases readFrom (line + (c :: gap).count '\n') (offset + (c :: gap).length) rest <;> rfl

end Blockscript.Scan

namespace Blockscript

open Scan

/-- A text of spaces, tabs and line ends. -/
def Blank (text : String) : Prop :=
  ∀ c ∈ text.toList, c ∈ [' ', '\t', '\r', '\n']

/-- The texts of tokens, each with a gap behind it. -/
def respaced : List Token → List String → String
  | [], _ => ""
  | _ :: _, [] => ""
  | t :: ts, gap :: gaps => t.lexeme ++ gap ++ respaced ts gaps

theorem toList_respaced_cons (t : Token) (ts : List Token) (gap : String) (gaps : List String) :
    (respaced (t :: ts) (gap :: gaps)).toList = t.lexeme.toList ++ (gap.toList ++ (respaced ts gaps).toList) := by
  rw [respaced, String.toList_append, String.toList_append, List.append_assoc]

theorem Blank.forall_isBlank {text : String} (h : Blank text) : ∀ c ∈ text.toList, isBlank c = true := by
  intro c hc
  exact isBlank_iff.2 (h c hc)

theorem readFrom_respaced {ts : List Token} {gaps : List String}
    (hspelled : ∀ t ∈ ts, Spells t.lexeme.toList (.token t.kind t.literal)) (hblank : ∀ gap ∈ gaps, Blank gap)
    (hlength : gaps.length = ts.length) (hjoints : ∀ gap ∈ gaps.dropLast, gap ≠ "") (line offset : Nat) :
    ∃ r, readFrom line offset (respaced ts gaps).toList = .ok r ∧ ts.Forall₂ Token.Alike r.tokens := by
  induction ts generalizing gaps line offset with
  | nil =>
      rw [respaced]
      exact ⟨⟨[], line⟩, by rw [String.toList_empty, readFrom], .nil⟩
  | cons t ts ih =>
      cases gaps with
      | nil => cases hlength
      | cons gap gaps =>
          obtain ⟨hhead, hspelled⟩ := List.forall_mem_cons.1 hspelled
          obtain ⟨hgap, hblank⟩ := List.forall_mem_cons.1 hblank
          have hlength : gaps.length = ts.length := Nat.succ.inj hlength
          have hspaced : Spaced (gap.toList ++ (respaced ts gaps).toList) := by
            apply spaced_append hgap.forall_isBlank
            intro hempty
            cases gaps with
            | nil =>
                obtain rfl := List.eq_nil_of_length_eq_zero hlength.symm
                rfl
            | cons other gaps => exact absurd (String.toList_eq_nil_iff.1 hempty) (hjoints gap List.mem_cons_self)
          have hjoints : ∀ gap ∈ gaps.dropLast, gap ≠ "" := by
            intro other hother
            cases gaps with
            | nil => cases hother
            | cons next gaps => exact hjoints other (List.mem_cons_of_mem gap hother)
          have htaken := (hhead.taken hspaced).readFrom line offset
          obtain ⟨r, hread, halike⟩ := ih hspelled hblank hlength hjoints
            (line + t.lexeme.toList.count '\n' + gap.toList.count '\n')
            (offset + t.lexeme.toList.length + gap.toList.length)
          rw [readFrom_blanks hgap.forall_isBlank, hread] at htaken
          rw [toList_respaced_cons, htaken]
          refine ⟨_, rfl, .cons ⟨rfl, ?_, rfl⟩ halike⟩
          exact (String.ofList_toList).symm

/-- **Spacing does not matter.** The texts of the tokens that were read, written one after another with white space between each two of them, and with or without white space in front and at the end, are read as the same tokens in the same order, at other places. -/
theorem scan_respaced {source : String} {ts : List Token} (h : scan source = .ok ts) {lead : String}
    {gaps : List String} (hlead : Blank lead) (hblank : ∀ gap ∈ gaps, Blank gap) (hlength : gaps.length = ts.length)
    (hjoints : ∀ gap ∈ gaps.dropLast, gap ≠ "") :
    ∃ us, scan (lead ++ respaced ts gaps) = .ok us ∧ ts.Forall₂ Token.Alike us := by
  have hspelled : ∀ t ∈ ts, Spells t.lexeme.toList (.token t.kind t.literal) :=
    fun t ht => (scan_stands h t ht).spelled
  obtain ⟨r, hread, halike⟩ := readFrom_respaced hspelled hblank hlength hjoints
    (1 + lead.toList.count '\n') (0 + lead.toList.length)
  refine ⟨r.tokens, ?_, halike⟩
  rw [scan, Scan.read, String.toList_append, readFrom_blanks hlead.forall_isBlank, hread]

/-- A sign of two characters, a slash beside a quote, and a string with a line break and slashes in it. -/
theorem scan_respaced_around_string :
    let ts : List Token := [⟨.notEqual, "!=", ⟨1, ⟨0, 2⟩⟩, none⟩, ⟨.divide, "/", ⟨1, ⟨2, 3⟩⟩, none⟩,
      ⟨.string, "\"\n//\"", ⟨1, ⟨3, 8⟩⟩, some (.string "\n//")⟩, ⟨.identifier, "x", ⟨2, ⟨8, 9⟩⟩, none⟩]
    scan "!=/\"\n//\"x" = .ok ts ∧
      ∃ us, scan ("\n" ++ respaced ts [" ", "\t", "\r\n", ""]) = .ok us ∧ ts.Forall₂ Token.Alike us := by
  intro ts
  have hscan : scan "!=/\"\n//\"x" = .ok ts := by decide +kernel
  exact ⟨hscan, scan_respaced hscan (by simp [Blank]) (by simp [Blank]) rfl (by simp)⟩

end Blockscript
