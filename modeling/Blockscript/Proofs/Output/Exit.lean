import Blockscript.Launch
import Blockscript.Proofs.Output.Channels
import Blockscript.Proofs.Output.Shown
import Blockscript.Proofs.Session.Causes
import Blockscript.Proofs.Session.Places

/-!
# Output and exit status

A script prints when it has succeeded as a whole, and then everything that it has to print; otherwise it reports its fault and prints nothing. The exit status says which of the two has happened, and whether there was a text to run at all.
-/

namespace Blockscript

/-! ### Scripts -/

theorem Session.Reached.located {s : Session} {depth : Nat} (h : s.Reached depth) {source : String} {fault : Fault}
    (hfault : (s.interpret source).result = .error fault) : ∃ place, fault.place? = some place := by
  apply Option.isSome_iff_exists.1
  obtain ⟨handles, frames, hrealises, -⟩ := h.realises
  obtain ⟨refusal, hplace, hresult, -⟩ | ⟨program, hresult, -⟩ := s.interpret_cases source
  · obtain rfl : refusal = fault := Except.error.inj (hresult.symm.trans hfault)
    exact hplace
  · rw [hresult] at hfault
    exact (Stmt.execAll_tidy program hrealises).located fault hfault

theorem runScript_shows_fault {source : String} {fault : Fault} (name : Option String)
    (h : interpret source = .error fault) :
    ∃ place, fault.place? = some place ∧
      (runScript source name).transcript.Shows "" "" [fault.diagnostic place source name] := by
  obtain ⟨place, hplace⟩ := Session.Reached.fresh.located h
  refine ⟨place, hplace, ?_⟩
  rw [runScript]
  apply Transcript.Shows.logged
  rw [show (Session.fresh.interpret source).result = .error fault from h]
  exact printed_error_shows source name hplace

theorem runScript_succeeded_iff {source : String} {name : Option String} :
    (runScript source name).succeeded = true ↔ ∃ values, interpret source = .ok values := by
  change (interpret source).isOk = true ↔ _
  cases interpret source with
  | error fault => simp [Except.isOk, Except.toBool]
  | ok values => simp [Except.isOk, Except.toBool]

theorem listTokens_failed_iff {source : String} {name : Option String} :
    (listTokens source name).succeeded = false ↔ ∃ m, Scan.read source = .error m := by
  rw [listTokens]
  cases Scan.read source with
  | error m => simp
  | ok reading => simp

/-! ### The program -/

namespace Invocation

variable {i : Invocation} {entry : String → Entry} {input : List UInt8} {source name : String}

/-- An invocation comes to have a source text, under a name. -/
inductive Obtains (i : Invocation) (entry : String → Entry) : String → String → Prop
  | file {path source : String} {bytes : List UInt8} (mode : i.mode = .file path) (found : entry path = .file bytes)
      (text : Text.decode? bytes = some source) : Obtains i entry source path
  | eval {source : String} (mode : i.mode = .eval source) : Obtains i entry source "<eval>"

/-- What is done with the source text. -/
def outcome (i : Invocation) (source name : String) : Outcome :=
  if i.tokensOnly then listTokens source (some name) else runScript source (some name)

theorem run_of_obtains (h : i.Obtains entry source name) : i.run entry input = .ofOutcome (i.outcome source name) := by
  cases h with
  | file mode found text => simp only [run, mode, runEntry, found, text, runSource, outcome]
  | eval mode => simp only [run, mode, runSource, outcome]

theorem run_of_lacking {path : String} (input : List UInt8) (hmode : i.mode = .file path)
    (hlacks : ∀ bytes, entry path = .file bytes → Text.decode? bytes = none) :
    ∃ message, i.run entry input = ⟨1, [.err message]⟩ := by
  simp only [run, hmode]
  cases hentry : entry path with
  | missing => exact ⟨_, rfl⟩
  | folder => exact ⟨_, rfl⟩
  | unreadable reason => exact ⟨_, rfl⟩
  | file bytes =>
      rw [runEntry, hlacks bytes hentry]
      exact ⟨_, rfl⟩

theorem run_of_dialogue (entry : String → Entry) (input : List UInt8) (hmode : i.mode = .dialogue) :
    i.run entry input = ⟨0, Dialogue.transcript input⟩ := by
  simp only [run, hmode]
  rfl

/-- An invocation has a text to run, or it lacks the text of its file, or it is a dialogue. -/
theorem obtains_cases (i : Invocation) (entry : String → Entry) :
    (∃ source name, i.Obtains entry source name) ∨
    (∃ path, i.mode = .file path ∧ ∀ bytes, entry path = .file bytes → Text.decode? bytes = none) ∨
    i.mode = .dialogue := by
  cases hmode : i.mode with
  | file path =>
      by_cases hlacks : ∀ bytes, entry path = .file bytes → Text.decode? bytes = none
      · exact .inr (.inl ⟨path, rfl, hlacks⟩)
      · push Not at hlacks
        obtain ⟨bytes, hentry, htext⟩ := hlacks
        obtain ⟨source, hsource⟩ := Option.ne_none_iff_exists'.1 htext
        exact .inl ⟨source, path, .file hmode hentry hsource⟩
  | eval source => exact .inl ⟨source, "<eval>", .eval hmode⟩
  | dialogue => exact .inr (.inr rfl)

/-- A text that is at fault is reported and nothing is printed. -/
theorem outcome_failed (i : Invocation) (h : (i.outcome source name).succeeded = false) :
    ∃ diagnostic, (i.outcome source name).transcript.Shows "" "" [diagnostic] := by
  rw [outcome] at h ⊢
  by_cases htokens : i.tokensOnly = true
  · rw [if_pos htokens] at h ⊢
    obtain ⟨m, hread⟩ := listTokens_failed_iff.1 h
    rw [listTokens, hread]
    exact ⟨_, .report _⟩
  · rw [if_neg htokens] at h ⊢
    cases hresult : interpret source with
    | error fault =>
        obtain ⟨place, -, hshows⟩ := runScript_shows_fault (some name) hresult
        exact ⟨_, hshows⟩
    | ok values =>
        rw [runScript_succeeded_iff.2 ⟨values, hresult⟩] at h
        cases h

theorem status_ofOutcome_eq (o : Outcome) :
    (o.succeeded = true ∧ (Exit.ofOutcome o).status = 0) ∨ (o.succeeded = false ∧ (Exit.ofOutcome o).status = 2) := by
  obtain ⟨succeeded, transcript⟩ := o
  cases succeeded with
  | true => exact .inl ⟨rfl, rfl⟩
  | false => exact .inr ⟨rfl, rfl⟩

/-- The ways to end: well, or with nothing printed because there is no text or because it is at fault. -/
theorem run_ends (i : Invocation) (entry : String → Entry) (input : List UInt8) :
    (i.run entry input).status = 0 ∨
    ((∃ path, i.mode = .file path ∧ ∀ bytes, entry path = .file bytes → Text.decode? bytes = none) ∧
      (i.run entry input).status = 1 ∧ Transcript.output (i.run entry input).transcript = "") ∨
    ((∃ source name, i.Obtains entry source name ∧ (i.outcome source name).succeeded = false) ∧
      (i.run entry input).status = 2 ∧ Transcript.output (i.run entry input).transcript = "") := by
  obtain ⟨source, name, hobtains⟩ | ⟨path, hmode, hlacks⟩ | hmode := i.obtains_cases entry
  · rw [run_of_obtains hobtains]
    obtain ⟨-, hstatus⟩ | ⟨hfailed, hstatus⟩ := status_ofOutcome_eq (i.outcome source name)
    · exact .inl hstatus
    · obtain ⟨diagnostic, hshows⟩ := i.outcome_failed hfailed
      exact .inr (.inr ⟨⟨source, name, hobtains, hfailed⟩, hstatus, hshows.output⟩)
  · obtain ⟨message, hrun⟩ := run_of_lacking input hmode hlacks
    rw [hrun]
    exact .inr (.inl ⟨⟨path, hmode, hlacks⟩, rfl, rfl⟩)
  · rw [run_of_dialogue entry input hmode]
    exact .inl rfl

theorem status_run_eq_one_iff : (i.run entry input).status = 1 ↔
    ∃ path, i.mode = .file path ∧ ∀ bytes, entry path = .file bytes → Text.decode? bytes = none := by
  constructor
  · intro h
    obtain hzero | ⟨hlacking, -⟩ | ⟨-, htwo, -⟩ := i.run_ends entry input
    · cases hzero.symm.trans h
    · exact hlacking
    · cases htwo.symm.trans h
  · rintro ⟨path, hmode, hlacks⟩
    obtain ⟨message, hrun⟩ := run_of_lacking input hmode hlacks
    rw [hrun]

end Invocation

theorem launch_of_accepted {arguments : List String} {i : Invocation} (h : Invocation.ofArguments arguments = .ok i)
    (entry : String → Entry) (input : List UInt8) : launch arguments entry input =
      ⟨(i.run entry input).status, (i.run entry input).transcript.atVerbosity i.verbosity⟩ := by
  rw [launch, h]

end Blockscript
