import Mathlib.Data.List.Basic
import Blockscript.Text.Bytes

/-!
# The lines of a stream of bytes

A stream is divided after every line feed, and bytes behind the last one are a line as well. There is one way to do so, and it is the one in which a stream is cut.
-/

namespace Blockscript.Text

/-- A stream and its lines. -/
inductive Divided : List UInt8 → List (List UInt8) → Prop
  | nil : Divided [] []
  | last {line : List UInt8} (nonempty : line ≠ []) (inline : 10 ∉ line) : Divided line [line]
  | next {line rest : List UInt8} {lines : List (List UInt8)} (inline : 10 ∉ line) (more : Divided rest lines) :
      Divided (line ++ 10 :: rest) ((line ++ [10]) :: lines)

theorem splitLines_next {line : List UInt8} (h : 10 ∉ line) (rest : List UInt8) :
    splitLines (line ++ 10 :: rest) = (line ++ [10]) :: splitLines rest := by
  induction line with
  | nil => rw [List.nil_append, splitLines, if_pos rfl, List.nil_append]
  | cons b line ih =>
      obtain ⟨hb, hline⟩ : 10 ≠ b ∧ 10 ∉ line := List.ne_and_not_mem_of_not_mem_cons h
      rw [List.cons_append, splitLines, if_neg (Ne.symm hb), ih hline, List.cons_append]

theorem splitLines_last {line : List UInt8} (hne : line ≠ []) (h : 10 ∉ line) : splitLines line = [line] := by
  induction line with
  | nil => exact absurd rfl hne
  | cons b line ih =>
      obtain ⟨hb, hline⟩ : 10 ≠ b ∧ 10 ∉ line := List.ne_and_not_mem_of_not_mem_cons h
      rw [splitLines, if_neg (Ne.symm hb)]
      cases line with
      | nil => rfl
      | cons c line => rw [ih (List.cons_ne_nil c line) hline]

theorem divided_splitLines (bytes : List UInt8) : Divided bytes (splitLines bytes) := by
  induction bytes with
  | nil => exact .nil
  | cons b rest ih =>
      by_cases hb : b = 10
      · rw [splitLines, if_pos hb, hb]
        have hempty : (10 : UInt8) ∉ [] := List.not_mem_nil
        exact Divided.next hempty ih
      · rw [splitLines, if_neg hb]
        generalize splitLines rest = lines at ih
        cases ih with
        | nil => exact .last (List.cons_ne_nil b []) (by simpa using Ne.symm hb)
        | last _ inline => exact .last (List.cons_ne_nil b rest) (by simp [inline, Ne.symm hb])
        | @next line _ _ inline more =>
            have hline : 10 ∉ b :: line := by simp [inline, Ne.symm hb]
            exact Divided.next hline more

theorem splitLines_eq_iff {bytes : List UInt8} {lines : List (List UInt8)} :
    splitLines bytes = lines ↔ Divided bytes lines := by
  constructor
  · rintro rfl
    exact divided_splitLines bytes
  · intro h
    induction h with
    | nil => rfl
    | last nonempty inline => exact splitLines_last nonempty inline
    | next inline _ ih => rw [splitLines_next inline, ih]

end Blockscript.Text
