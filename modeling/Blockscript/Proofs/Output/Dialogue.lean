import Blockscript.Dialogue
import Blockscript.Proofs.Output.Exit
import Blockscript.Proofs.Text.Lines

/-!
# The course of a dialogue

A dialogue reads its input line by line and runs the text of each in the session that the one before has left, until a line ends it or no line is left. Whatever a line does in the session, the next line is prompted for; so what is shown depends on the lines up to the first that ends the dialogue, and on nothing behind it.
-/

namespace Blockscript.Dialogue

/-- A line that ends a dialogue, and what is written then. -/
inductive Ends (line : List UInt8) : Emission → Prop
  | unreadable (bytes : Text.decode? line = none) : Ends line unreadable
  | farewell {text : String} (bytes : Text.decode? line = some text)
      (word : Text.trim text = "exit" ∨ Text.trim text = "quit") : Ends line farewell

/-- A line that does not, and its text without white space at both ends. -/
def Holds (line : List UInt8) (text : String) : Prop :=
  ∃ whole, Text.decode? line = some whole ∧ Text.trim whole = text ∧ text ≠ "exit" ∧ text ≠ "quit"

/-- What is shown for a text in a session, and the session that it leaves. A text that succeeds shows its values, each on a line, and one that fails shows one report. -/
inductive Answers : Session → String → Transcript → Session → Prop
  | nothing {s : Session} : Answers s "" [] s
  | values {s : Session} {text : String} {values : List Value} (nonempty : text ≠ "")
      (succeeds : (s.interpret text).result = .ok values) :
      Answers s text ((s.interpret text).events.map .log ++ values.map fun value => .out (value.text ++ "\n"))
        (s.interpret text).session
  | fault {s : Session} {text : String} {fault : Fault} {place : Place} (nonempty : text ≠ "")
      (fails : (s.interpret text).result = .error fault) (located : fault.place? = some place) :
      Answers s text ((s.interpret text).events.map .log ++ [.report (fault.diagnostic place text none)])
        (s.interpret text).session

/-- What is shown for texts that follow one another in one session, with a prompt in front of each. -/
inductive Course : Session → List String → Transcript → Prop
  | done {s : Session} : Course s [] []
  | next {s s' : Session} {text : String} {texts : List String} {shown more : Transcript}
      (answer : Answers s text shown s') (others : Course s' texts more) :
      Course s (text :: texts) (prompt :: shown ++ more)

variable {s : Session} {line : List UInt8} {closing : Emission}

/-! ### Single lines -/

theorem isExit_iff {text : String} : isExit text = true ↔ text = "exit" ∨ text = "quit" := by
  simp [isExit]

theorem reply_of_ends (h : Ends line closing) (s : Session) : reply s line = ⟨[closing], none⟩ := by
  cases h with
  | unreadable bytes => rw [reply, bytes]
  | @farewell text bytes word =>
      have hne : Text.trim text ≠ "" := by
        intro hempty
        rw [hempty] at word
        revert word
        decide
      simp only [reply, bytes, if_neg hne, if_pos (isExit_iff.2 word)]

theorem reply_of_holds {text : String} (h : Holds line text) (hreached : s.Reached 0) :
    ∃ shown s', reply s line = ⟨shown, some s'⟩ ∧ Answers s text shown s' ∧ s'.Reached 0 := by
  obtain ⟨whole, hbytes, rfl, hexit, hquit⟩ := h
  have hgo : ¬isExit (Text.trim whole) = true := fun hword => (isExit_iff.1 hword).elim hexit hquit
  simp only [reply, hbytes]
  by_cases hempty : Text.trim whole = ""
  · rw [if_pos hempty, hempty]
    exact ⟨_, _, rfl, .nothing, hreached⟩
  · rw [if_neg hempty, if_neg hgo]
    refine ⟨_, _, rfl, ?_, hreached.interpret _⟩
    cases hresult : (s.interpret (Text.trim whole)).result with
    | ok values => exact .values hempty hresult
    | error fault =>
        obtain ⟨place, hplace⟩ := hreached.located hresult
        rw [printed, Fault.report, hplace]
        exact .fault hempty hresult hplace

theorem ends_or_holds (line : List UInt8) : (∃ closing, Ends line closing) ∨ ∃ text, Holds line text := by
  cases hbytes : Text.decode? line with
  | none => exact .inl ⟨_, .unreadable hbytes⟩
  | some whole =>
      by_cases hword : Text.trim whole = "exit" ∨ Text.trim whole = "quit"
      · exact .inl ⟨_, .farewell hbytes hword⟩
      · obtain ⟨hexit, hquit⟩ := not_or.1 hword
        exact .inr ⟨_, whole, hbytes, rfl, hexit, hquit⟩

/-! ### Whole dialogues -/

/-- The lines in front are answered, and then there is none left or the next one ends the dialogue. -/
def Closes (lines front : List (List UInt8)) (closing : Emission) : Prop :=
  (lines = front ∧ closing = ended) ∨ ∃ line rest, lines = front ++ line :: rest ∧ Ends line closing

theorem goOn_follows (lines : List (List UInt8)) (hreached : s.Reached 0) :
    ∃ front texts shown closing, Closes lines front closing ∧ front.Forall₂ Holds texts ∧ Course s texts shown ∧
      goOn s lines = shown ++ [prompt, closing] := by
  induction lines generalizing s with
  | nil => exact ⟨[], [], [], ended, .inl ⟨rfl, rfl⟩, .nil, .done, rfl⟩
  | cons line rest ih =>
      obtain ⟨closing, hends⟩ | ⟨text, hholds⟩ := ends_or_holds line
      · refine ⟨[], [], [], closing, .inr ⟨line, rest, rfl, hends⟩, .nil, .done, ?_⟩
        rw [goOn, reply_of_ends hends]
        rfl
      · obtain ⟨shown, s', hreply, hanswers, hreached'⟩ := reply_of_holds hholds hreached
        obtain ⟨front, texts, more, closing, hcloses, hfront, hcourse, hmore⟩ := ih hreached'
        refine ⟨line :: front, text :: texts, prompt :: shown ++ more, closing, ?_, .cons hholds hfront,
          .next hanswers hcourse, ?_⟩
        · obtain ⟨rfl, hclosing⟩ | ⟨last, behind, rfl, hends⟩ := hcloses
          · exact .inl ⟨rfl, hclosing⟩
          · exact .inr ⟨last, behind, rfl, hends⟩
        · simp only [goOn, hreply, hmore, List.append_assoc]

theorem goOn_of_ends (h : Ends line closing) (front rest rest' : List (List UInt8)) (s : Session) :
    goOn s (front ++ line :: rest) = goOn s (front ++ line :: rest') := by
  induction front generalizing s with
  | nil =>
      rw [List.nil_append, List.nil_append, goOn, goOn, reply_of_ends h]
  | cons first front ih =>
      rw [List.cons_append, List.cons_append, goOn, goOn]
      cases (reply s first).next with
      | none => rfl
      | some next => simp only [ih]

/-! ### Prompts -/

theorem line_ne_prompt (text : String) : text ++ "\n" ≠ "> " := by
  intro h
  have hlast := congrArg (fun line : String => line.toList.getLast?) h
  simp at hlast

theorem Answers.count_prompt {text : String} {shown : Transcript} {s' : Session} (h : Answers s text shown s') :
    shown.count prompt = 0 := by
  rw [List.count_eq_zero]
  cases h with
  | nothing => exact List.not_mem_nil
  | values _ _ => simp [prompt, line_ne_prompt]
  | fault _ _ _ => simp [prompt]

theorem Course.count_prompt {texts : List String} {shown : Transcript} (h : Course s texts shown) :
    shown.count prompt = texts.length := by
  induction h with
  | done => rfl
  | next answer _ ih =>
      rw [List.cons_append, List.count_cons_self, List.count_append, answer.count_prompt, ih, Nat.zero_add,
        List.length_cons]

theorem Closes.ne_prompt {lines front : List (List UInt8)} (h : Closes lines front closing) : closing ≠ prompt := by
  obtain ⟨-, rfl⟩ | ⟨line, rest, -, hends⟩ := h
  · decide
  · cases hends <;> decide

/-- **A dialogue runs its lines in one session and always ends.** An input is divided into lines after its line feeds. Up to the first that is no text or asks to stop, each line is prompted for and answered in the session that those before have left, with its values or with one report; then the last prompt stands in front of what is written for that line, or of a line break where the input ends. So there is a prompt behind every line that is answered, whether it fails or not, and inputs that have the same lines up to one that ends the dialogue show the same. -/
theorem dialogue_answers_lines :
    (∀ input, ∃ lines front texts shown closing, Text.Divided input lines ∧ Closes lines front closing ∧
      front.Forall₂ Holds texts ∧ Course .fresh texts shown ∧
      transcript input = .out banner :: shown ++ [prompt, closing] ∧
      (transcript input).count prompt = texts.length + 1) ∧
    (∀ input input' front line rest rest' closing, Text.Divided input (front ++ line :: rest) →
      Text.Divided input' (front ++ line :: rest') → Ends line closing → transcript input = transcript input') := by
  constructor
  · intro input
    obtain ⟨front, texts, shown, closing, hcloses, hfront, hcourse, hshown⟩ :=
      goOn_follows (Text.splitLines input) .fresh
    have htranscript : transcript input = .out banner :: shown ++ [prompt, closing] := by
      rw [transcript, hshown, List.cons_append]
    refine ⟨_, front, texts, shown, closing, Text.divided_splitLines input, hcloses, hfront, hcourse, htranscript, ?_⟩
    have hbanner : Emission.out banner ≠ prompt := by decide
    have hclosing : closing ≠ prompt := hcloses.ne_prompt
    rw [htranscript, List.cons_append, List.count_cons_of_ne hbanner, List.count_append, hcourse.count_prompt,
      List.count_cons_self, List.count_singleton, if_neg (by simpa using hclosing)]
  · intro input input' front line rest rest' closing hlines hlines' hends
    rw [transcript, transcript, Text.splitLines_eq_iff.2 hlines, Text.splitLines_eq_iff.2 hlines']
    rw [goOn_of_ends hends front rest rest']

/-- A negated null fails, and the line behind it says ` exit`. What follows is no text at all, or nothing. -/
theorem dialogue_answers_lines_before_exit :
    let failing : List UInt8 := [45, 110, 117, 108, 108, 10]
    let exit : List UInt8 := [32, 101, 120, 105, 116, 10]
    Ends exit farewell ∧ Text.Divided (failing ++ exit ++ [255, 10, 255]) ([failing] ++ exit :: [[255, 10], [255]]) ∧
      transcript (failing ++ exit ++ [255, 10, 255]) = transcript (failing ++ exit) := by
  intro failing exit
  have hbytes : Text.decode? [32, 101, 120, 105, 116, 10] = some " exit\n" := by decide +kernel
  have hends : Ends exit farewell := .farewell hbytes (.inl (by decide +kernel))
  have hlines : Text.Divided (failing ++ exit ++ [255, 10, 255]) ([failing] ++ exit :: [[255, 10], [255]]) :=
    Text.splitLines_eq_iff.1 (by decide)
  have hlines' : Text.Divided (failing ++ exit) ([failing] ++ exit :: []) := Text.splitLines_eq_iff.1 (by decide)
  exact ⟨hends, hlines, dialogue_answers_lines.2 _ _ _ _ _ _ _ hlines hlines' hends⟩

end Blockscript.Dialogue
