import Blockscript.Proofs.Output.Exit

/-!
# Invocations written as arguments

An invocation that can be asked for is written as arguments, and reading these gives the invocation back. It does not matter what its text looks like: a path stands behind the separator, and a source text is attached to its option.

What is read can be asked for. Only one option asks for tokens, and what it asks for stays asked for; so tokens are to be listed exactly if this option stands in front of the separator. The final checks then see to it that there is a text to list the tokens of.
-/

namespace Blockscript

/-- The arguments that ask for a mode. -/
def Mode.arguments : Mode → List String
  | .file path => ["--", path]
  | .eval source => ["--eval=" ++ source]
  | .dialogue => []

namespace Invocation

/-- What can be asked for: the tokens of a dialogue cannot be listed, and verbosity goes only so far. -/
structure Meaningful (i : Invocation) : Prop where
  listed : i.tokensOnly = true → i.mode ≠ .dialogue
  limited : i.verbosity ≤ maxVerbosity

/-- One way to ask for an invocation. -/
def arguments (i : Invocation) : List String :=
  List.replicate i.verbosity "-v" ++ (if i.tokensOnly then ["--tokens"] else []) ++ i.mode.arguments

/-! ### Reading what is written -/

theorem Shape.ofArgument_eval (source : String) :
    Shape.ofArgument ("--eval=" ++ source) = .long "eval" (some source) := by
  rw [Shape.ofArgument, String.toList_append]
  simp

namespace Draft

variable {d : Draft}

theorem read_verbose (d : Draft) (rest : List String) : d.read .nothing ("-v" :: rest) =
    Draft.read { d with verbosity := min (d.verbosity + 1) maxVerbosity } .nothing rest := by
  rw [Draft.read.eq_4 d "-v" rest .nothing ['v'] (by decide)]
  rfl

theorem read_verboses {n : Nat} (h : d.verbosity + n ≤ maxVerbosity) (rest : List String) :
    d.read .nothing (List.replicate n "-v" ++ rest) =
      Draft.read { d with verbosity := d.verbosity + n } .nothing rest := by
  induction n generalizing d with
  | zero => rfl
  | succ n ih =>
      have hone : min (d.verbosity + 1) maxVerbosity = d.verbosity + 1 := Nat.min_eq_left (by omega)
      rw [List.replicate_succ, List.cons_append, read_verbose, hone, ih (by simp only; omega)]
      simp only [Nat.add_assoc, Nat.add_comm 1 n]

theorem read_tokens (h : d.tokens = false) (rest : List String) :
    d.read .nothing ("--tokens" :: rest) = Draft.read { d with tokens := true } .nothing rest := by
  have hflag : d.setFlag .tokens = .ok { d with tokens := true } := by
    rw [setFlag, h]
    rfl
  have hlong : d.readLong .nothing "tokens" none = .ok ({ d with tokens := true }, .nothing) := by
    show (d.setFlag .tokens >>= fun d => .ok (d, Pending.nothing)) = _
    rw [hflag]
    rfl
  rw [Draft.read.eq_3 d "--tokens" rest .nothing "tokens" none (by decide), hlong]
  rfl

theorem read_file (h : d.file = none) (path : String) :
    d.read .nothing ["--", path] = .ok { d with file := some path } := by
  rw [Draft.read.eq_2 d "--" [path] .nothing (by decide), readPlain, setFile, h]
  rfl

theorem read_eval (h : d.eval = none) (source : String) :
    d.read .nothing ["--eval=" ++ source] = .ok { d with eval := some source } := by
  have hlong : d.readLong .nothing "eval" (some source) = .ok ({ d with eval := some source }, .nothing) := by
    show (d.setEval source >>= fun d => .ok (d, Pending.nothing)) = _
    rw [setEval, h]
    rfl
  rw [Draft.read.eq_3 d _ [] .nothing "eval" (some source) (Shape.ofArgument_eval source), hlong]
  rfl

end Draft

/-- What has been given once an invocation has been asked for. -/
def draft (i : Invocation) : Draft where
  file := match i.mode with
    | .file path => some path
    | _ => none
  eval := match i.mode with
    | .eval source => some source
    | _ => none
  tokens := i.tokensOnly
  verbosity := i.verbosity

theorem read_arguments {i : Invocation} (h : i.verbosity ≤ maxVerbosity) :
    Draft.read {} .nothing i.arguments = .ok i.draft := by
  obtain ⟨mode, tokensOnly, verbosity⟩ := i
  have hverboses (rest : List String) : Draft.read {} .nothing (List.replicate verbosity "-v" ++ rest) =
      Draft.read { verbosity := verbosity } .nothing rest := by
    rw [Draft.read_verboses (by simpa using h)]
    simp
  have htokens (rest : List String) :
      Draft.read { verbosity := verbosity } .nothing ((if tokensOnly then ["--tokens"] else []) ++ rest) =
        Draft.read { tokens := tokensOnly, verbosity := verbosity } .nothing rest := by
    cases tokensOnly with
    | false => rfl
    | true => exact Draft.read_tokens rfl rest
  rw [arguments, List.append_assoc, hverboses, htokens]
  cases mode with
  | file path => exact Draft.read_file rfl path
  | eval source => exact Draft.read_eval rfl source
  | dialogue => rfl

theorem check_draft {i : Invocation} (h : i.tokensOnly = true → i.mode ≠ .dialogue) : i.draft.check = .ok () := by
  obtain ⟨mode, tokensOnly, verbosity⟩ := i
  cases mode with
  | file path => simp [Draft.check, draft]
  | eval source => simp [Draft.check, draft]
  | dialogue =>
      cases tokensOnly with
      | false => rfl
      | true => exact absurd rfl (h rfl)

theorem mode_draft (i : Invocation) : i.draft.mode = i.mode := by
  obtain ⟨mode, tokensOnly, verbosity⟩ := i
  cases mode <;> rfl

theorem ofArguments_arguments {i : Invocation} (h : i.Meaningful) : ofArguments i.arguments = .ok i := by
  rw [ofArguments, read_arguments h.limited]
  show (i.draft.check >>= fun _ => .ok ⟨i.draft.mode, i.tokensOnly, i.verbosity⟩) = .ok i
  rw [check_draft h.listed, mode_draft]
  rfl

/-! ### What is read -/

theorem exists_of_bind_ok {ε α β : Type} {x : Except ε α} {f : α → Except ε β} {b : β} (h : x >>= f = .ok b) :
    ∃ a, x = .ok a ∧ f a = .ok b := by
  cases x with
  | error e => cases h
  | ok a => exact ⟨a, rfl, h⟩

theorem Shape.eq_of_separator {argument : String} (h : Shape.ofArgument argument = .separator) : argument = "--" := by
  rw [Shape.ofArgument] at h
  split at h
  case h_1 hlist => exact String.ext hlist
  case h_2 =>
      split at h <;> cases h
  all_goals cases h

theorem Shape.eq_of_long {argument name : String} (h : Shape.ofArgument argument = .long name none) :
    argument = "--" ++ name := by
  rw [Shape.ofArgument] at h
  split at h
  case h_2 cs _ hlist =>
      split at h
      case h_1 hrest =>
          have happend := List.takeWhile_append_dropWhile (p := (· != '=')) (l := cs)
          rw [hrest, List.append_nil] at happend
          injection h with hname
          rw [← hname, happend]
          exact String.ext (by simp [hlist])
      case h_2 => cases h
  all_goals cases h

theorem Opt.ofLong?_eq_tokens_iff {name : String} : Opt.ofLong? name = some (.flag .tokens) ↔ name = "tokens" := by
  constructor
  · intro h
    unfold Opt.ofLong? at h
    split at h <;> cases h
    rfl
  · rintro rfl
    rfl

theorem Opt.ofShort?_ne_tokens (c : Char) : Opt.ofShort? c ≠ some (.flag .tokens) := by
  unfold Opt.ofShort?
  split <;> simp

/-- The option that asks for tokens stands in front of the separator. -/
def asksTokens (arguments : List String) : Bool :=
  (arguments.takeWhile (· != "--")).contains "--tokens"

theorem asksTokens_cons {argument : String} (h : argument ≠ "--") (rest : List String) :
    asksTokens (argument :: rest) = (("--tokens" == argument) || asksTokens rest) := by
  have htrue : (argument != "--") = true := bne_iff_ne.2 h
  rw [asksTokens, List.takeWhile_cons, if_pos htrue, List.contains_cons, asksTokens]

theorem asksTokens_cons_of_ne {argument : String} {shape : Shape} (h : Shape.ofArgument argument = shape)
    (hseparator : shape ≠ .separator) (hlong : shape ≠ .long "tokens" none) (rest : List String) :
    asksTokens (argument :: rest) = asksTokens rest := by
  rw [asksTokens_cons, beq_eq_false_iff_ne.2, Bool.false_or]
  · rintro rfl
    exact hlong (h.symm.trans (by decide))
  · rintro rfl
    exact hseparator (h.symm.trans (by decide))

namespace Draft

/-- What some reading makes of a draft: tokens may have been asked for, and verbosity keeps to its limit. -/
structure Becomes (asked : Bool) (d d' : Draft) : Prop where
  tokens : d'.tokens = (d.tokens || asked)
  verbosity : d.verbosity ≤ maxVerbosity → d'.verbosity ≤ maxVerbosity

variable {d d' : Draft} {pending pending' : Pending}

theorem Becomes.of_eq (htokens : d'.tokens = d.tokens) (hverbosity : d'.verbosity = d.verbosity) :
    d.Becomes false d' :=
  ⟨htokens.trans (Bool.or_false _).symm, fun h => hverbosity ▸ h⟩

theorem Becomes.trans {asked asked' : Bool} {d'' : Draft} (h : d.Becomes asked d') (h' : d'.Becomes asked' d'') :
    d.Becomes (asked || asked') d'' where
  tokens := by rw [h'.tokens, h.tokens, Bool.or_assoc]
  verbosity hlimit := h'.verbosity (h.verbosity hlimit)

theorem setEval_becomes {source : String} (h : d.setEval source = .ok d') : d.Becomes false d' := by
  rw [setEval] at h
  split at h <;> cases h
  exact .of_eq rfl rfl

theorem settle_becomes (h : d.settle pending = .ok d') : d.Becomes false d' := by
  cases pending with
  | nothing =>
      cases h
      exact .of_eq rfl rfl
  | missing => cases h
  | text source => exact setEval_becomes h

theorem setFlag_becomes {f : Flag} (h : d.setFlag f = .ok d') : d.Becomes (f = .tokens) d' := by
  cases f with
  | interactive =>
      rw [setFlag] at h
      split at h <;> cases h
      exact .of_eq rfl rfl
  | tokens =>
      rw [setFlag] at h
      split at h <;> cases h
      exact ⟨(Bool.or_true _).symm, id⟩
  | verbose =>
      cases h
      exact ⟨(Bool.or_false _).symm, fun _ => Nat.min_le_right _ _⟩
  | help => cases h
  | version => cases h

theorem setFile_becomes {path : String} (h : d.setFile pending path = .ok d') : d.Becomes false d' := by
  rw [setFile] at h
  split at h
  case h_1 => cases h
  case h_2 =>
      obtain ⟨settled, hsettle, hfile⟩ := exists_of_bind_ok h
      cases hfile
      exact (settle_becomes hsettle).trans (.of_eq rfl rfl)

theorem readGroup_becomes {letters : List Char} (h : d.readGroup pending letters = .ok (d', pending')) :
    d.Becomes false d' := by
  induction letters generalizing d pending with
  | nil =>
      cases h
      exact .of_eq rfl rfl
  | cons c rest ih =>
      rw [readGroup] at h
      split at h
      case h_1 => cases h
      case h_2 f hc =>
          obtain ⟨settled, hsettle, h⟩ := exists_of_bind_ok h
          obtain ⟨flagged, hflag, hrest⟩ := exists_of_bind_ok h
          have hf : f ≠ .tokens := by
            rintro rfl
            exact Opt.ofShort?_ne_tokens c hc
          have hbecomes := setFlag_becomes hflag
          rw [decide_eq_false hf] at hbecomes
          exact (settle_becomes hsettle).trans (hbecomes.trans (ih hrest))
      case h_3 =>
          obtain ⟨settled, hsettle, h⟩ := exists_of_bind_ok h
          refine (settle_becomes hsettle).trans ?_
          split at h
          case h_1 =>
              cases h
              exact .of_eq rfl rfl
          all_goals
              obtain ⟨evaluated, heval, h⟩ := exists_of_bind_ok h
              cases h
              exact setEval_becomes heval

theorem readLong_becomes {name : String} {value : Option String}
    (h : d.readLong pending name value = .ok (d', pending')) :
    d.Becomes (Opt.ofLong? name = some (.flag .tokens)) d' := by
  unfold readLong at h
  split at h
  case h_1 => cases h
  case h_2 => cases h
  case h_3 f hname =>
      obtain ⟨settled, hsettle, h⟩ := exists_of_bind_ok h
      obtain ⟨flagged, hflag, h⟩ := exists_of_bind_ok h
      cases h
      simp only [hname, Option.some.injEq, Opt.flag.injEq]
      exact (settle_becomes hsettle).trans (setFlag_becomes hflag)
  case h_4 hname =>
      obtain ⟨settled, hsettle, h⟩ := exists_of_bind_ok h
      obtain ⟨evaluated, heval, h⟩ := exists_of_bind_ok h
      cases h
      simp only [hname, Option.some.injEq, reduceCtorEq]
      exact (settle_becomes hsettle).trans (setEval_becomes heval)
  case h_5 hname =>
      obtain ⟨settled, hsettle, h⟩ := exists_of_bind_ok h
      cases h
      simp only [hname, Option.some.injEq, reduceCtorEq]
      exact settle_becomes hsettle

theorem readPlain_becomes {paths : List String} (h : d.readPlain pending paths = .ok d') : d.Becomes false d' := by
  induction paths generalizing d pending with
  | nil => exact settle_becomes h
  | cons path rest ih =>
      obtain ⟨filed, hfile, hrest⟩ := exists_of_bind_ok h
      exact (setFile_becomes hfile).trans (ih hrest)

/-- Of the options with a long name only the one for tokens asks for them, and it has no value. -/
theorem asksTokens_of_long {argument name : String} {value : Option String}
    (hshape : Shape.ofArgument argument = .long name value)
    (h : d.readLong pending name value = .ok (d', pending')) (rest : List String) :
    asksTokens (argument :: rest) = (decide (Opt.ofLong? name = some (.flag .tokens)) || asksTokens rest) := by
  by_cases hname : name = "tokens"
  · subst hname
    cases value with
    | none =>
        obtain rfl := Shape.eq_of_long hshape
        exact asksTokens_cons (by decide) rest
    | some source => cases h
  · rw [decide_eq_false (mt Opt.ofLong?_eq_tokens_iff.1 hname), Bool.false_or]
    exact asksTokens_cons_of_ne hshape (by simp) (by simp [hname]) rest

theorem read_becomes {arguments : List String} (h : d.read pending arguments = .ok d') :
    d.Becomes (asksTokens arguments) d' := by
  induction arguments generalizing d pending with
  | nil => exact settle_becomes h
  | cons argument rest ih =>
      rw [Draft.read.eq_def] at h
      simp only at h
      split at h
      case h_1 hshape =>
          obtain rfl := Shape.eq_of_separator hshape
          exact readPlain_becomes h
      case h_2 hshape =>
          obtain ⟨⟨given, pending'⟩, hlong, hrest⟩ := exists_of_bind_ok h
          rw [asksTokens_of_long hshape hlong]
          exact (readLong_becomes hlong).trans (ih hrest)
      case h_3 hshape =>
          obtain ⟨⟨given, pending'⟩, hgroup, hrest⟩ := exists_of_bind_ok h
          rw [asksTokens_cons_of_ne hshape (by simp) (by simp)]
          exact (readGroup_becomes hgroup).trans (ih hrest)
      case h_4 hshape =>
          rw [asksTokens_cons_of_ne hshape (by simp) (by simp)]
          exact ih h
      case h_5 hshape _ =>
          obtain ⟨filed, hfile, hrest⟩ := exists_of_bind_ok h
          rw [asksTokens_cons_of_ne hshape (by simp) (by simp)]
          exact (setFile_becomes hfile).trans (ih hrest)

/-- A draft that passes the checks does not ask for the tokens of a dialogue. -/
theorem mode_of_check (h : d.check = .ok ()) (htokens : d.tokens = true) : d.mode ≠ .dialogue := by
  obtain ⟨file, eval, interactive, tokens, verbosity⟩ := d
  obtain rfl : tokens = true := htokens
  cases interactive with
  | true => cases file <;> cases eval <;> cases h
  | false =>
      cases file with
      | some path => nofun
      | none =>
          cases eval with
          | some source => nofun
          | none => cases h

end Draft

variable {i : Invocation} {arguments : List String}

theorem ofArguments_tokensOnly (h : ofArguments arguments = .ok i) : i.tokensOnly = asksTokens arguments := by
  obtain ⟨d, hread, h⟩ := exists_of_bind_ok h
  obtain ⟨-, -, h⟩ := exists_of_bind_ok h
  cases h
  exact (Draft.read_becomes hread).tokens

theorem ofArguments_meaningful (h : ofArguments arguments = .ok i) : i.Meaningful := by
  obtain ⟨d, hread, h⟩ := exists_of_bind_ok h
  obtain ⟨⟨⟩, hcheck, h⟩ := exists_of_bind_ok h
  cases h
  exact ⟨Draft.mode_of_check hcheck, (Draft.read_becomes hread).verbosity (Nat.zero_le _)⟩

/-- The program lists the tokens of its text if it is asked to, unless there is no text. -/
theorem launch_lists_tokens (h : ofArguments arguments = .ok i) (htokens : i.tokensOnly = true)
    (entry : String → Entry) (input : List UInt8) :
    (∃ source name, i.Obtains entry source name ∧ launch arguments entry input =
      ⟨(Exit.ofOutcome (listTokens source (some name))).status,
        (listTokens source (some name)).transcript.atVerbosity i.verbosity⟩) ∨
    ((launch arguments entry input).status = 1 ∧
      ∃ path, i.mode = .file path ∧ ∀ bytes, entry path = .file bytes → Text.decode? bytes = none) := by
  rw [launch_of_accepted h]
  have hmode := (ofArguments_meaningful h).listed htokens
  obtain ⟨source, name, hobtains⟩ | hlacks | hdialogue := i.obtains_cases entry
  · rw [run_of_obtains hobtains, outcome, if_pos htokens]
    exact .inl ⟨source, name, hobtains, rfl⟩
  · exact .inr ⟨status_run_eq_one_iff.2 hlacks, hlacks⟩
  · exact absurd hdialogue hmode

/-- **Command lines ask for what can be asked for.** Every command line that is accepted is read as an invocation that can be asked for. Tokens are to be listed exactly if the option for it stands in front of the separator, and then the program does list the tokens of its text, or it ends because the file with the text is not there or is no text. Conversely every invocation that can be asked for, whatever its text, is read from the arguments that are written for it. -/
theorem command_lines_ask_for_meaningful :
    (∀ words i, ofCommandLine words = .ok i →
      i.Meaningful ∧ i.tokensOnly = asksTokens words.tail ∧
      (i.tokensOnly = true → ∀ entry input,
        (∃ source name, i.Obtains entry source name ∧ launch words.tail entry input =
          ⟨(Exit.ofOutcome (listTokens source (some name))).status,
            (listTokens source (some name)).transcript.atVerbosity i.verbosity⟩) ∨
        ((launch words.tail entry input).status = 1 ∧
          ∃ path, i.mode = .file path ∧ ∀ bytes, entry path = .file bytes → Text.decode? bytes = none))) ∧
    (∀ (i : Invocation) (program : String), i.Meaningful → ofCommandLine (program :: i.arguments) = .ok i) := by
  constructor
  · intro words i h
    exact ⟨ofArguments_meaningful h, ofArguments_tokensOnly h, launch_lists_tokens h⟩
  · intro i program h
    exact ofArguments_arguments h

/-- A source text that is the separator, of which tokens are to be listed, and a file with the name of an option. -/
theorem command_lines_ask_for_dashed :
    let i : Invocation := ⟨.eval "--", true, 2⟩
    let j : Invocation := ⟨.file "--tokens", false, 0⟩
    let words := ["", "-v", "-v", "--tokens", "--eval=--"]
    i.Meaningful ∧ j.Meaningful ∧ ofCommandLine words = .ok i ∧ ofCommandLine ["", "--", "--tokens"] = .ok j ∧
      asksTokens words.tail = true ∧ asksTokens ["--", "--tokens"] = false ∧
      ∃ source name, i.Obtains (fun _ => .missing) source name := by
  intro i j words
  have hi : i.Meaningful := ⟨fun _ => nofun, by decide⟩
  have hj : j.Meaningful := ⟨nofun, by decide⟩
  obtain ⟨hread, hwritten⟩ := command_lines_ask_for_meaningful
  have hwords : ofCommandLine words = .ok i := hwritten i "" hi
  have hpath : ofCommandLine ["", "--", "--tokens"] = .ok j := hwritten j "" hj
  obtain ⟨-, hasks, hlists⟩ := hread words i hwords
  obtain ⟨-, hsilent, -⟩ := hread _ j hpath
  refine ⟨hi, hj, hwords, hpath, hasks.symm, hsilent.symm, ?_⟩
  obtain ⟨source, name, hobtains, -⟩ | ⟨-, path, hmode, -⟩ := hlists rfl (fun _ => .missing) []
  · exact ⟨source, name, hobtains⟩
  · cases hmode

end Invocation

end Blockscript
