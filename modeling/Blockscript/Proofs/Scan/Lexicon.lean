import Mathlib.Data.List.Basic
import Blockscript.Scan

/-!
# The lexicon

The texts that may stand as a piece of a source: white space and comments, which contribute nothing, and the texts of tokens, each with the kind and the value that it stands for. The tables and rules here say nothing about how a piece is found.

A source is cut into parts where every part is the longest text of the lexicon at its place. A comment without its line break is in the lexicon, but it is the longest only where the source ends.
-/

namespace Blockscript.Scan

/-- Operators and punctuation. -/
def signs : List (List Char × Kind) :=
  [([';'], .semicolon), ([','], .comma), (['\x7b'], .leftBrace), (['\x7d'], .rightBrace),
    (['('], .leftParen), ([')'], .rightParen), (['+'], .add), (['-'], .subtract), (['*'], .multiply),
    (['/'], .divide), (['|'], .or), (['<'], .lessThan), (['<', '='], .lessEqual), (['>'], .greaterThan),
    (['>', '='], .greaterEqual), (['='], .assign), (['=', '='], .equivalent), (['!'], .not),
    (['!', '='], .notEqual)]

def keywords : List (String × Kind) :=
  [("if", .ifWord), ("else", .elseWord), ("for", .forWord), ("while", .whileWord), ("true", .trueWord),
    ("false", .falseWord), ("fun", .funWord), ("return", .returnWord), ("var", .varWord),
    ("print", .printWord), ("null", .nullWord)]

/-- The texts of the lexicon, and what each contributes. -/
inductive Spells : List Char → Content → Prop
  | space {c : Char} (listed : c ∈ [' ', '\t', '\r', '\n']) : Spells [c] .blank
  | comment {text : List Char} (inline : '\n' ∉ text) : Spells ('/' :: '/' :: text) .blank
  | commentLine {text : List Char} (inline : '\n' ∉ text) : Spells ('/' :: '/' :: text ++ ['\n']) .blank
  | sign {text : List Char} {kind : Kind} (listed : (text, kind) ∈ signs) : Spells text (.token kind none)
  | string {inside : List Char} (unquoted : '"' ∉ inside) :
      Spells ('"' :: inside ++ ['"']) (.token .string (some (.string (String.ofList inside))))
  | whole {digits : List Char} (nonempty : digits ≠ []) (decimal : ∀ c ∈ digits, c.isDigit = true) :
      Spells digits (.token .number (some (numberValue digits [])))
  | fraction {digits places : List Char} (nonempty : digits ≠ []) (decimal : ∀ c ∈ digits, c.isDigit = true)
      (decimal' : ∀ c ∈ places, c.isDigit = true) :
      Spells (digits ++ '.' :: places) (.token .number (some (numberValue digits places)))
  | keyword {text : List Char} {kind : Kind} (listed : (String.ofList text, kind) ∈ keywords) :
      Spells text (.token kind none)
  | name {first : Char} {more : List Char} (letter : first.isAlpha = true)
      (continued : ∀ c ∈ more, c.isAlphanum = true ∨ c = '_')
      (free : ∀ kind, (String.ofList (first :: more), kind) ∉ keywords) :
      Spells (first :: more) (.token .identifier none)

/-- A part of a source. -/
structure Part where
  text : List Char
  content : Content
deriving DecidableEq

namespace Part

/-- The part is in the lexicon, and nothing longer is that begins at the same place. -/
structure Fits (part : Part) (rest : List Char) : Prop where
  spelled : Spells part.text part.content
  longest : ∀ text content, Spells text content → text <+: part.text ++ rest → text.length ≤ part.text.length

/-- The token of a part at a place, if it is one. -/
def tokens (part : Part) (place : Place) : List Token :=
  match part.content with
  | .blank => []
  | .token kind literal => [⟨kind, String.ofList part.text, place, literal⟩]

end Part

/-- The text of parts one after another. -/
def join (parts : List Part) : List Char :=
  parts.flatMap Part.text

/-- Every part fits where it stands. -/
def Cut : List Part → Prop
  | [] => True
  | part :: rest => part.Fits (join rest) ∧ Cut rest

/-- The tokens of parts that begin at a line and an offset. -/
def tokensFrom (line offset : Nat) : List Part → List Token
  | [] => []
  | part :: rest =>
    part.tokens ⟨line, ⟨offset, offset + part.text.length⟩⟩ ++
      tokensFrom (line + part.text.count '\n') (offset + part.text.length) rest

@[simp] theorem join_nil : join [] = [] := rfl

@[simp] theorem join_cons (part : Part) (rest : List Part) : join (part :: rest) = part.text ++ join rest :=
  List.flatMap_cons

@[simp] theorem join_append (front back : List Part) : join (front ++ back) = join front ++ join back :=
  List.flatMap_append

theorem tokensFrom_append (line offset : Nat) (front back : List Part) :
    tokensFrom line offset (front ++ back) = tokensFrom line offset front ++
      tokensFrom (line + (join front).count '\n') (offset + (join front).length) back := by
  induction front generalizing line offset with
  | nil => simp [tokensFrom]
  | cons part front ih =>
      rw [List.cons_append, tokensFrom, tokensFrom, ih, join_cons, List.count_append, List.length_append,
        List.append_assoc, Nat.add_assoc, Nat.add_assoc]

/-- A part that fits fits as well where less follows it. -/
theorem Part.Fits.left {part : Part} {rest more : List Char} (h : part.Fits (rest ++ more)) : part.Fits rest := by
  refine ⟨h.spelled, ?_⟩
  intro text content htext hprefix
  apply h.longest text content htext
  rw [← List.append_assoc]
  exact hprefix.trans (List.prefix_append _ _)

namespace Cut

variable {front back : List Part}

theorem left (h : Cut (front ++ back)) : Cut front := by
  induction front with
  | nil => trivial
  | cons part front ih =>
      rw [List.cons_append] at h
      obtain ⟨hfits, hrest⟩ := h
      rw [join_append] at hfits
      exact ⟨hfits.left, ih hrest⟩

theorem right (h : Cut (front ++ back)) : Cut back := by
  induction front with
  | nil => exact h
  | cons part front ih => exact ih h.2

end Cut

/-! ### First characters -/

/-- The texts of names and keywords. -/
def isWord : List Char → Bool
  | [] => false
  | first :: more => first.isAlpha && more.all isWordChar

theorem isWord_cons_iff {first : Char} {more : List Char} :
    isWord (first :: more) = true ↔ first.isAlpha = true ∧ ∀ c ∈ more, isWordChar c = true := by
  rw [isWord, Bool.and_eq_true, List.all_eq_true]

theorem isWord_of_keyword {text : List Char} {kind : Kind} (h : (String.ofList text, kind) ∈ keywords) :
    isWord text = true := by
  have hwords : ∀ entry ∈ keywords, isWord entry.1.toList = true := by decide
  have hword := hwords _ h
  rwa [String.toList_ofList] at hword

theorem wordKind_of_keyword {text : String} {kind : Kind} (h : (text, kind) ∈ keywords) : wordKind text = kind := by
  have hkinds : ∀ entry ∈ keywords, wordKind entry.1 = entry.2 := by decide
  exact hkinds _ h

theorem wordKind_of_free {text : String} (h : ∀ kind, (text, kind) ∉ keywords) : wordKind text = .identifier := by
  unfold wordKind
  split <;> simp_all [keywords]

theorem keyword_of_wordKind {text : String} (h : wordKind text ≠ .identifier) : (text, wordKind text) ∈ keywords := by
  unfold wordKind at *
  split at h <;> simp_all [keywords]

/-- The rules for names and for keywords are one rule for words. -/
theorem spells_word {first : Char} {more : List Char} (h : isWord (first :: more) = true) :
    Spells (first :: more) (.token (wordKind (String.ofList (first :: more))) none) := by
  by_cases hkind : wordKind (String.ofList (first :: more)) = .identifier
  · obtain ⟨hletter, hmore⟩ := isWord_cons_iff.1 h
    rw [hkind]
    refine .name hletter (fun c hc => ?_) fun kind hlisted => ?_
    · simpa [isWordChar] using hmore c hc
    · have hidentifier : ∀ entry ∈ keywords, entry.2 ≠ .identifier := by decide
      exact hidentifier _ hlisted ((wordKind_of_keyword hlisted).symm.trans hkind)
  · exact .keyword (keyword_of_wordKind hkind)

namespace Spells

variable {text : List Char} {content : Content}

theorem ne_nil (h : Spells text content) : text ≠ [] := by
  cases h with
  | sign listed =>
      rintro rfl
      simp [signs] at listed
  | whole nonempty _ => exact nonempty
  | keyword listed =>
      rintro rfl
      cases isWord_of_keyword listed
  | _ => simp

/-- Which characters a text of the lexicon begins with. A quote begins a string and nothing else. -/
theorem first_cases {c : Char} {more : List Char} (h : Spells (c :: more) content) :
    c ∈ [' ', '\t', '\r', '\n', '/'] ∨ (∃ entry ∈ signs, entry.1.head? = some c) ∨
      (c = '"' ∧ ∃ inside, more = inside ++ ['"'] ∧ '"' ∉ inside) ∨ c.isAlphanum = true := by
  have hdigit : ∀ {digits rest : List Char}, digits ≠ [] → (∀ d ∈ digits, d.isDigit = true) →
      c :: more = digits ++ rest → c.isAlphanum = true := by
    intro digits rest hdigits hdecimal heq
    obtain ⟨first, others, rfl⟩ := List.exists_cons_of_ne_nil hdigits
    obtain ⟨rfl, -⟩ := List.cons.inj heq
    rw [Char.isAlphanum, hdecimal c List.mem_cons_self, Bool.or_true]
  have hword : isWord (c :: more) = true → c.isAlphanum = true := by
    intro hword
    rw [Char.isAlphanum, (isWord_cons_iff.1 hword).1, Bool.true_or]
  generalize htext : c :: more = text at h
  cases h with
  | space listed =>
      obtain ⟨rfl, -⟩ := List.cons.inj htext
      exact .inl (List.mem_append_left ['/'] listed)
  | comment _ | commentLine _ =>
      obtain ⟨rfl, -⟩ := List.cons.inj htext
      exact .inl (by decide)
  | sign listed =>
      subst htext
      exact .inr (.inl ⟨_, listed, rfl⟩)
  | string unquoted =>
      obtain ⟨rfl, rfl⟩ := List.cons.inj htext
      exact .inr (.inr (.inl ⟨rfl, _, rfl, unquoted⟩))
  | whole nonempty decimal =>
      exact .inr (.inr (.inr (hdigit nonempty decimal (htext.trans (List.append_nil _).symm))))
  | fraction nonempty decimal _ => exact .inr (.inr (.inr (hdigit nonempty decimal htext)))
  | keyword listed =>
      subst htext
      exact .inr (.inr (.inr (hword (isWord_of_keyword listed))))
  | name letter _ _ =>
      obtain ⟨rfl, -⟩ := List.cons.inj htext
      rw [Char.isAlphanum, letter, Bool.true_or]
      exact .inr (.inr (.inr rfl))

/-- No text of the lexicon begins with a point. -/
theorem head?_ne_point (h : Spells text content) : text.head? ≠ some '.' := by
  intro hhead
  obtain ⟨more, rfl⟩ := List.head?_eq_some_iff.1 hhead
  rcases h.first_cases with hlisted | hsign | ⟨hquote, -⟩ | halphanum
  · exact absurd hlisted (by decide)
  · exact absurd hsign (by decide)
  · exact absurd hquote (by decide)
  · exact absurd halphanum (by decide)

theorem quote_cases {more : List Char} (h : Spells ('"' :: more) content) :
    ∃ inside, more = inside ++ ['"'] ∧ '"' ∉ inside := by
  rcases h.first_cases with hlisted | hsign | ⟨-, hinside⟩ | halphanum
  · exact absurd hlisted (by decide)
  · exact absurd hsign (by decide)
  · exact hinside
  · exact absurd halphanum (by decide)

end Spells

end Blockscript.Scan
