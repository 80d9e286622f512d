import Mathlib.Data.List.Basic
import Blockscript.Script

/-!
# What a transcript shows

The text on each channel and the reports of a transcript are those of its parts one after another. Log lines add to none of them, a printed value is a line of output, and a fault that has a place is one report and no text.
-/

namespace Blockscript

namespace Transcript

/-- The text on the two channels, and the reports. -/
structure Shows (t : Transcript) (shown said : String) (diagnostics : List Diagnostic) : Prop where
  output : t.output = shown
  errors : t.errors = said
  reports : t.reports = diagnostics

theorem output_append (t u : Transcript) : output (t ++ u) = output t ++ output u := by
  induction t with
  | nil => exact String.empty_append.symm
  | cons e t ih =>
      cases e with
      | out text => exact (congrArg (text ++ ·) ih).trans String.append_assoc.symm
      | _ => exact ih

theorem errors_append (t u : Transcript) : errors (t ++ u) = errors t ++ errors u := by
  induction t with
  | nil => exact String.empty_append.symm
  | cons e t ih =>
      cases e with
      | err text => exact (congrArg (text ++ ·) ih).trans String.append_assoc.symm
      | _ => exact ih

namespace Shows

variable {t u : Transcript} {shown said shown' said' : String} {diagnostics diagnostics' : List Diagnostic}

theorem append (h : t.Shows shown said diagnostics) (h' : u.Shows shown' said' diagnostics') :
    Shows (t ++ u) (shown ++ shown') (said ++ said') (diagnostics ++ diagnostics') := by
  refine ⟨?_, ?_, ?_⟩
  · rw [output_append, h.output, h'.output]
  · rw [errors_append, h.errors, h'.errors]
  · rw [Transcript.reports, List.filterMap_append]
    exact congrArg₂ (· ++ ·) h.reports h'.reports

theorem out (text : String) : Shows [.out text] text "" [] :=
  ⟨String.append_empty, rfl, rfl⟩

theorem err (text : String) : Shows [.err text] "" text [] :=
  ⟨rfl, String.append_empty, rfl⟩

theorem report (diagnostic : Diagnostic) : Shows [.report diagnostic] "" "" [diagnostic] :=
  ⟨rfl, rfl, rfl⟩

/-- Log lines stand on no channel. -/
theorem logged (events : List Event) (h : u.Shows shown said diagnostics) :
    Shows (events.map .log ++ u) shown said diagnostics := by
  induction events with
  | nil => exact h
  | cons event events ih => exact ⟨ih.output, ih.errors, ih.reports⟩

theorem lines {α : Type} (items : List α) (text : α → String) :
    Shows (items.map fun item => .out (text item)) (String.join (items.map text)) "" [] := by
  induction items with
  | nil => exact ⟨rfl, rfl, rfl⟩
  | cons item items ih =>
      rw [List.map_cons, List.map_cons, String.join_cons, ← List.singleton_append]
      exact (Shows.out (text item)).append ih

/-- How much is logged does not change what is shown. -/
theorem atVerbosity (h : t.Shows shown said diagnostics) (verbosity : Nat) :
    Shows (t.atVerbosity verbosity) shown said diagnostics := by
  induction t generalizing shown said diagnostics with
  | nil => exact h
  | cons e t ih =>
      obtain ⟨rfl, rfl, rfl⟩ := h
      have hrest : Shows (Transcript.atVerbosity t verbosity) (Transcript.output t) (Transcript.errors t)
          (Transcript.reports t) := ih ⟨rfl, rfl, rfl⟩
      cases e with
      | log event =>
          by_cases hlogged : event.detail.verbosity ≤ verbosity
          · rw [Transcript.atVerbosity, List.filter_cons_of_pos (by simpa using hlogged)]
            exact ⟨hrest.output, hrest.errors, hrest.reports⟩
          · rw [Transcript.atVerbosity, List.filter_cons_of_neg (by simpa using hlogged)]
            exact ⟨hrest.output, hrest.errors, hrest.reports⟩
      | out text => exact (Shows.out text).append hrest
      | err text => exact (Shows.err text).append hrest
      | report diagnostic => exact (Shows.report diagnostic).append hrest

end Shows

end Transcript

/-- A fault that has a place is reported once, and nothing is written. -/
theorem printed_error_shows {fault : Fault} {place : Place} (source : String) (name : Option String)
    (h : fault.place? = some place) :
    Transcript.Shows (printed source name (.error fault)) "" "" [fault.diagnostic place source name] := by
  rw [printed, Fault.report, h]
  exact .report _

end Blockscript
