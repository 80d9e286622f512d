import Mathlib.Data.Finset.Union
import Blockscript.Proofs.Session.Refinement

/-!
# Undefined variables are foreseen

An assignment needs a declaration that stands before it, in its block or in a block around it. Whether it has one is seen from the program alone, because every operand is evaluated, a block that ends takes its names with it, and a name is bound only after its initializer.

A program that lacks such a declaration somewhere never succeeds. It need not come as far as the assignment, but if it ends for an undefined variable, then for the first one that lacks its declaration.
-/

namespace Blockscript

/-! ### Declarations before assignments -/

/-- A name is assigned in an expression, at any depth. -/
def Expr.Assigns (name : Token) : Expr → Prop
  | .literal _ _ => False
  | .grouping inner _ => inner.Assigns name
  | .unary _ right _ => right.Assigns name
  | .binary left _ right _ => left.Assigns name ∨ right.Assigns name
  | .reference _ => False
  | .assign target value _ => name = target ∨ value.Assigns name

/-- An expression stands in a statement of a program. Listed are the statements before that one, in its block and in the blocks around it. -/
inductive Stmt.Stands : List Stmt → List Stmt → Expr → Prop
  | expression {e : Expr} {span : Span} {rest : List Stmt} : Stands (.expression e span :: rest) [] e
  | initializer {name : Token} {e : Expr} {span : Span} {rest : List Stmt} : Stands (.var name (some e) span :: rest) [] e
  | inside {body before rest : List Stmt} {span : Span} {e : Expr} (h : Stands body before e) :
      Stands (.block body span :: rest) before e
  | later {stmt : Stmt} {before rest : List Stmt} {e : Expr} (h : Stands rest before e) :
      Stands (stmt :: rest) (stmt :: before) e

/-- The name that a statement declares in its block. -/
def Stmt.declares : Stmt → List String
  | .var name _ _ => [name.lexeme]
  | _ => []

/-- Every assigned name is declared by a statement that stands before, in the same block or around it. -/
def WellScoped (program : List Stmt) : Prop :=
  ∀ before e name, Stmt.Stands program before e → e.Assigns name →
    ∃ declared initializer span, Stmt.var declared initializer span ∈ before ∧ declared.lexeme = name.lexeme

/-- The assigned names of an expression that are not among the visible ones, in the order of evaluation. -/
def Expr.undeclared (visible : List String) : Expr → List Token
  | .literal _ _ => []
  | .grouping inner _ => inner.undeclared visible
  | .unary _ right _ => right.undeclared visible
  | .binary left _ right _ => left.undeclared visible ++ right.undeclared visible
  | .reference _ => []
  | .assign name value _ => value.undeclared visible ++ if name.lexeme ∈ visible then [] else [name]

def Expr.undeclaredOptional (visible : List String) : Option Expr → List Token
  | some e => e.undeclared visible
  | none => []

mutual

/-- The assigned names of a statement that are declared nowhere before, in the order of evaluation. -/
def Stmt.undeclared (visible : List String) : Stmt → List Token
  | .expression e _ => e.undeclared visible
  | .var _ initializer _ => Expr.undeclaredOptional visible initializer
  | .block body _ => Stmt.undeclaredAll visible body

def Stmt.undeclaredAll (visible : List String) : List Stmt → List Token
  | [] => []
  | stmt :: rest => stmt.undeclared visible ++ Stmt.undeclaredAll (stmt.declares ++ visible) rest

end

theorem Expr.mem_undeclared_iff {visible : List String} {t : Token} (e : Expr) :
    t ∈ e.undeclared visible ↔ e.Assigns t ∧ t.lexeme ∉ visible := by
  induction e with
  | literal value span => simp [undeclared, Assigns]
  | grouping inner span ih => exact ih
  | unary operator right span ih => exact ih
  | binary left operator right span ihleft ihright =>
      rw [undeclared, List.mem_append, ihleft, ihright, Assigns, or_and_right]
  | reference name => simp [undeclared, Assigns]
  | assign name value span ih =>
      rw [undeclared, List.mem_append, ih, Assigns, or_and_right, or_comm]
      apply or_congr_left
      by_cases hvisible : name.lexeme ∈ visible
      · rw [if_pos hvisible]
        constructor
        · intro h
          cases h
        · rintro ⟨rfl, h⟩
          exact absurd hvisible h
      · rw [if_neg hvisible, List.mem_singleton]
        constructor
        · rintro rfl
          exact ⟨rfl, hvisible⟩
        · exact And.left

/-- The statements before an expression, for one that stands in the first statement or in a later one. -/
theorem Stmt.stands_cons_iff {stmt : Stmt} {rest before : List Stmt} {e : Expr} :
    Stands (stmt :: rest) before e ↔ Stands [stmt] before e ∨ ∃ more, before = stmt :: more ∧ Stands rest more e := by
  constructor
  · intro h
    cases h with
    | expression => exact .inl .expression
    | initializer => exact .inl .initializer
    | inside h => exact .inl (.inside h)
    | later h => exact .inr ⟨_, rfl, h⟩
  · rintro (h | ⟨more, rfl, h⟩)
    · cases h with
      | expression => exact .expression
      | initializer => exact .initializer
      | inside h => exact .inside h
      | later h => cases h
    · exact .later h

mutual

theorem Stmt.mem_undeclared_iff {visible : List String} {t : Token} (stmt : Stmt) :
    t ∈ stmt.undeclared visible ↔
      ∃ before e, Stands [stmt] before e ∧ e.Assigns t ∧ t.lexeme ∉ before.flatMap declares ++ visible := by
  cases stmt with
  | expression e span =>
      rw [undeclared, e.mem_undeclared_iff]
      constructor
      · intro h
        exact ⟨[], e, .expression, h⟩
      · rintro ⟨before, e', hstands, h⟩
        cases hstands with
        | expression => exact h
        | later hnone => cases hnone
  | var name initializer span =>
      rw [undeclared]
      constructor
      · intro h
        cases initializer with
        | none => cases h
        | some e => exact ⟨[], e, .initializer, e.mem_undeclared_iff.1 h⟩
      · rintro ⟨before, e, hstands, h⟩
        cases hstands with
        | initializer => exact e.mem_undeclared_iff.2 h
        | later hnone => cases hnone
  | block body span =>
      rw [undeclared, Stmt.mem_undeclaredAll_iff body]
      constructor
      · rintro ⟨before, e, hstands, h⟩
        exact ⟨before, e, .inside hstands, h⟩
      · rintro ⟨before, e, hstands, h⟩
        cases hstands with
        | inside hinside => exact ⟨before, e, hinside, h⟩
        | later hnone => cases hnone

theorem Stmt.mem_undeclaredAll_iff {visible : List String} {t : Token} (program : List Stmt) :
    t ∈ undeclaredAll visible program ↔
      ∃ before e, Stands program before e ∧ e.Assigns t ∧ t.lexeme ∉ before.flatMap declares ++ visible := by
  cases program with
  | nil =>
      rw [undeclaredAll]
      constructor
      · intro h
        cases h
      · rintro ⟨before, e, hstands, -⟩
        cases hstands
  | cons stmt rest =>
      have hvisible : ∀ before : List Stmt, t.lexeme ∈ (stmt :: before).flatMap declares ++ visible ↔
          t.lexeme ∈ before.flatMap declares ++ (stmt.declares ++ visible) := by
        intro before
        simp only [List.flatMap_cons, List.mem_append, or_assoc, or_left_comm]
      rw [undeclaredAll, List.mem_append, Stmt.mem_undeclared_iff stmt, Stmt.mem_undeclaredAll_iff rest]
      constructor
      · rintro (⟨before, e, hstands, h⟩ | ⟨before, e, hstands, hassigns, hundeclared⟩)
        · exact ⟨before, e, stands_cons_iff.2 (.inl hstands), h⟩
        · exact ⟨stmt :: before, e, .later hstands, hassigns, mt (hvisible before).1 hundeclared⟩
      · rintro ⟨before, e, hstands, hassigns, hundeclared⟩
        obtain hfirst | ⟨more, rfl, hrest⟩ := stands_cons_iff.1 hstands
        · exact .inl ⟨before, e, hfirst, hassigns, hundeclared⟩
        · exact .inr ⟨more, e, hrest, hassigns, mt (hvisible more).2 hundeclared⟩

end

theorem Stmt.mem_flatMap_declares_iff {name : String} {before : List Stmt} :
    name ∈ before.flatMap declares ↔
      ∃ declared initializer span, Stmt.var declared initializer span ∈ before ∧ declared.lexeme = name := by
  rw [List.mem_flatMap]
  constructor
  · rintro ⟨stmt, hstmt, hname⟩
    cases stmt with
    | var declared initializer span => exact ⟨declared, initializer, span, hstmt, (List.mem_singleton.1 hname).symm⟩
    | _ => cases hname
  · rintro ⟨declared, initializer, span, hstmt, rfl⟩
    exact ⟨_, hstmt, List.mem_singleton_self _⟩

theorem wellScoped_iff {program : List Stmt} : WellScoped program ↔ Stmt.undeclaredAll [] program = [] := by
  rw [List.eq_nil_iff_forall_not_mem]
  constructor
  · intro h t ht
    obtain ⟨before, e, hstands, hassigns, hundeclared⟩ := (Stmt.mem_undeclaredAll_iff program).1 ht
    rw [List.append_nil, Stmt.mem_flatMap_declares_iff] at hundeclared
    exact hundeclared (h before e t hstands hassigns)
  · intro h before e name hstands hassigns
    by_contra hundeclared
    rw [← Stmt.mem_flatMap_declares_iff, ← List.append_nil (before.flatMap _)] at hundeclared
    exact h name ((Stmt.mem_undeclaredAll_iff program).2 ⟨before, e, hstands, hassigns, hundeclared⟩)

instance (program : List Stmt) : Decidable (WellScoped program) :=
  decidable_of_iff _ wellScoped_iff.symm

/-! ### Names of frames -/

namespace Frames

/-- The names that the frames hold. -/
def names (frames : Frames) : List (Finset String) :=
  frames.map Finmap.keys

@[simp] theorem names_nil : names [] = [] := rfl

@[simp] theorem names_cons (frame : Frame) (outer : Frames) : names (frame :: outer) = frame.keys :: names outer := rfl

/-- The names of frames after declarations in the innermost one. -/
def declared (names : List String) : List (Finset String) → List (Finset String)
  | [] => []
  | frame :: outer => (names.toFinset ∪ frame) :: outer

@[simp] theorem declared_nil (frames : List (Finset String)) : declared [] frames = frames := by
  cases frames with
  | nil => rfl
  | cons frame outer => simp [declared]

theorem declared_declared (first second : List String) (frames : List (Finset String)) :
    declared second (declared first frames) = declared (first ++ second) frames := by
  cases frames with
  | nil => rfl
  | cons frame outer =>
      rw [declared, declared, declared, List.toFinset_append, ← Finset.union_assoc,
        Finset.union_comm second.toFinset first.toFinset]

theorem keys_insert (frame : Frame) (name : String) (value : Value) :
    (frame.insert name value).keys = {name} ∪ frame.keys := by
  ext other
  rw [Finmap.mem_keys, Finmap.mem_insert, Finset.mem_union, Finset.mem_singleton, Finmap.mem_keys]

theorem names_define (name : String) (value : Value) (frames : Frames) :
    (define name value frames).names = declared [name] frames.names := by
  cases frames with
  | nil => rfl
  | cons frame outer => simp [define, declared, keys_insert]

theorem names_assign? {name : String} {value : Value} {frames after : Frames}
    (h : assign? name value frames = some after) : after.names = frames.names := by
  induction frames generalizing after with
  | nil => cases h
  | cons frame outer ih =>
      rw [assign?] at h
      split at h
      case isTrue hbound =>
          obtain rfl := Option.some.inj h
          have hkeys : {name} ⊆ frame.keys := Finset.singleton_subset_iff.2 (Finmap.mem_keys.2 hbound)
          rw [names_cons, names_cons, keys_insert, Finset.union_eq_right.2 hkeys]
      case isFalse =>
          obtain ⟨rest, hrest, rfl⟩ := Option.map_eq_some_iff.1 h
          rw [names_cons, names_cons, ih hrest]

theorem assign?_eq_none_iff (name : String) (value : Value) (frames : Frames) :
    assign? name value frames = none ↔ ¬∃ frame ∈ frames.names, name ∈ frame := by
  induction frames with
  | nil => simp [assign?]
  | cons frame outer ih =>
      rw [assign?, names_cons, List.exists_mem_cons_iff, Finmap.mem_keys, not_or, ← ih]
      by_cases hbound : name ∈ frame <;> simp [hbound]

/-- There is an innermost frame, and the visible names are those of all frames. -/
structure Shows (frames : Frames) (visible : List String) : Prop where
  ne_nil : frames ≠ []
  mem_iff : ∀ name, name ∈ visible ↔ ∃ frame ∈ frames.names, name ∈ frame

theorem shows_fresh : fresh.Shows [] where
  ne_nil := List.cons_ne_nil _ _
  mem_iff := by simp [fresh]

namespace Shows

variable {frames after : Frames} {visible names : List String}

theorem inside (h : frames.Shows visible) : Shows (∅ :: frames) visible where
  ne_nil := List.cons_ne_nil _ _
  mem_iff name := by
    rw [h.mem_iff, names_cons, List.exists_mem_cons_iff, Finmap.keys_empty]
    simp

theorem declare (h : frames.Shows visible) (hafter : after.names = declared names frames.names) :
    after.Shows (names ++ visible) := by
  obtain ⟨hne, hmem⟩ := h
  obtain ⟨frame, outer, rfl⟩ := List.exists_cons_of_ne_nil hne
  rw [names_cons, declared] at hafter
  constructor
  · rintro rfl
    cases hafter
  · intro name
    rw [List.mem_append, hmem, hafter, names_cons, List.exists_mem_cons_iff, List.exists_mem_cons_iff,
      Finset.mem_union, List.mem_toFinset, or_assoc]

end Shows

end Frames

/-! ### Outcomes -/

/-- What is foreseen of a meaning. It succeeds only if no assigned name lacks its declaration, and the innermost frame then gains the declared names. It ends for an undefined variable only at the first name that lacks a declaration. -/
structure Meaning.Foreseen {α : Type} (m : Meaning α) (frames : Frames) (undeclared : List Token)
    (declared : List String) : Prop where
  ok : ∀ value after, m.outcome frames = (.ok value, after) →
    undeclared = [] ∧ after.names = Frames.declared declared frames.names
  undefined : ∀ place name after, m.outcome frames = (.error (.undefinedVariable place name), after) →
    ∃ t, undeclared.head? = some t ∧ t.place = place ∧ t.lexeme = name

namespace Meaning.Foreseen

variable {α β : Type} {m : Meaning α} {frames : Frames} {undeclared undeclared' : List Token}
  {visible declared declared' : List String}

theorem pure (value : α) (frames : Frames) : Foreseen (Pure.pure value : Meaning α) frames [] [] where
  ok := by
    intro value' after h
    obtain ⟨-, rfl⟩ := Prod.mk.inj h
    simp
  undefined := by
    intro place name after h
    cases h

/-- What is foreseen of one meaning after another. -/
theorem bind {next : α → Meaning β} (h : m.Foreseen frames undeclared declared)
    (hnext : ∀ value after, after.names = Frames.declared declared frames.names →
      (next value).Foreseen after undeclared' declared') :
    (m >>= next).Foreseen frames (undeclared ++ undeclared') (declared ++ declared') := by
  generalize houtcome : m.outcome frames = outcome
  obtain ⟨result, after⟩ := outcome
  cases result with
  | error fault =>
      have hbind := Meaning.outcome_bind_error houtcome next
      constructor
      · intro value after' h'
        rw [hbind] at h'
        cases h'
      · intro place name after' h'
        rw [hbind] at h'
        cases h'
        obtain ⟨t, ht, hplace, hname⟩ := h.undefined place name after houtcome
        exact ⟨t, by rw [List.head?_append, ht, Option.some_or], hplace, hname⟩
  | ok value =>
      have hbind := Meaning.outcome_bind_ok houtcome next
      obtain ⟨hundeclared, hnames⟩ := h.ok value after houtcome
      have hafter := hnext value after hnames
      rw [hundeclared, List.nil_append]
      constructor
      · intro value' after' h'
        obtain ⟨hundeclared', hnames'⟩ := hafter.ok value' after' (hbind.symm.trans h')
        exact ⟨hundeclared', by rw [hnames', hnames, Frames.declared_declared]⟩
      · intro place name after' h'
        exact hafter.undefined place name after' (hbind.symm.trans h')

/-- A last step that neither assigns nor declares. -/
theorem andFinally {next : α → Meaning β} (h : m.Foreseen frames undeclared declared)
    (hnext : ∀ value after, (next value).Foreseen after [] []) :
    (m >>= next).Foreseen frames undeclared declared := by
  have hbind := h.bind fun value after _ => hnext value after
  rwa [List.append_nil, List.append_nil] at hbind

theorem ofExcept {result : Except Fault α} (hresult : ∀ place name, result ≠ .error (.undefinedVariable place name))
    (frames : Frames) : Foreseen (liftExcept result : Meaning α) frames [] [] := by
  cases result with
  | ok value => exact .pure value frames
  | error fault =>
      constructor
      · intro value after h
        cases h
      · intro place name after h
        obtain ⟨hfault, -⟩ := Prod.mk.inj h
        exact absurd hfault (hresult place name)

theorem read (name : String) (frames : Frames) : (Meaning.read name).Foreseen frames [] [] where
  ok := by
    intro value after h
    rw [outcome_read] at h
    obtain ⟨-, rfl⟩ := Prod.mk.inj h
    simp
  undefined := by
    intro place name' after h
    rw [outcome_read] at h
    cases h

theorem write (h : frames.Shows visible) (name : Token) (value : Value) :
    (Meaning.write name value).Foreseen frames (if name.lexeme ∈ visible then [] else [name]) [] := by
  have hnone := Frames.assign?_eq_none_iff name.lexeme value frames
  rw [← h.mem_iff] at hnone
  cases hassign : Frames.assign? name.lexeme value frames with
  | none =>
      have houtcome := outcome_write_none hassign
      rw [if_neg (hnone.1 hassign)]
      constructor
      · intro value' after h'
        rw [houtcome] at h'
        cases h'
      · intro place name' after h'
        rw [houtcome] at h'
        cases h'
        exact ⟨name, rfl, rfl, rfl⟩
  | some frames' =>
      have houtcome := outcome_write_some hassign
      have hvisible : name.lexeme ∈ visible := by
        by_contra hvisible
        rw [hnone.2 hvisible] at hassign
        cases hassign
      rw [if_pos hvisible]
      constructor
      · intro value' after h'
        rw [houtcome] at h'
        obtain ⟨-, rfl⟩ := Prod.mk.inj h'
        rw [Frames.names_assign? hassign, Frames.declared_nil]
        exact ⟨rfl, rfl⟩
      · intro place name' after h'
        rw [houtcome] at h'
        cases h'

theorem declare (name : String) (value : Value) (frames : Frames) :
    (Meaning.declare name value).Foreseen frames [] [name] where
  ok := by
    intro value' after h
    obtain ⟨-, rfl⟩ := Prod.mk.inj h
    exact ⟨rfl, Frames.names_define name value frames⟩
  undefined := by
    intro place name' after h
    cases h

/-- The names of a block end with it. -/
theorem inBlock (h : m.Foreseen (∅ :: frames) undeclared declared) : m.inBlock.Foreseen frames undeclared [] := by
  constructor
  · intro value after h'
    obtain ⟨hresult, rfl⟩ := Prod.mk.inj h'
    obtain ⟨hundeclared, hnames⟩ := h.ok value (m.outcome (∅ :: frames)).2 (Prod.ext hresult rfl)
    refine ⟨hundeclared, ?_⟩
    rw [Frames.declared_nil, Frames.names, List.map_tail, ← Frames.names, hnames]
    rfl
  · intro place name after h'
    obtain ⟨hresult, -⟩ := Prod.mk.inj h'
    exact h.undefined place name (m.outcome (∅ :: frames)).2 (Prod.ext hresult rfl)

end Meaning.Foreseen

theorem Operator.mistyped_ne (operator : Token) (operands : List Value) (place : Place) (name : String) :
    mistyped operator operands ≠ .undefinedVariable place name := by
  intro h
  cases h

theorem Expr.meaning_foreseen (e : Expr) {frames : Frames} {visible : List String} (h : frames.Shows visible) :
    e.meaning.Foreseen frames (e.undeclared visible) [] := by
  induction e generalizing frames with
  | literal value span => exact .pure value frames
  | grouping inner span ih => exact ih h
  | unary operator right span ih =>
      apply (ih h).andFinally
      intro value after
      apply Meaning.Foreseen.ofExcept
      intro place name herror
      exact Operator.mistyped_ne _ _ place name (Operator.applyUnary_error herror).symm
  | binary left operator right span ihleft ihright =>
      apply (ihleft h).bind
      intro a after hafter
      apply (ihright (h.declare hafter)).andFinally
      intro b after'
      apply Meaning.Foreseen.ofExcept
      intro place name herror
      exact Operator.mistyped_ne _ _ place name (Operator.applyBinary_error herror).symm
  | reference name => exact .read name.lexeme frames
  | assign name inner span ih =>
      apply (ih h).bind
      intro value after hafter
      exact .write (h.declare hafter) name value

theorem Expr.meaningOptional_foreseen (e : Option Expr) {frames : Frames} {visible : List String}
    (h : frames.Shows visible) :
    (Expr.meaningOptional e).Foreseen frames (Expr.undeclaredOptional visible e) [] := by
  cases e with
  | none => exact .pure Value.null frames
  | some e => exact e.meaning_foreseen h

mutual

theorem Stmt.meaning_foreseen (stmt : Stmt) {frames : Frames} {visible : List String} (h : frames.Shows visible) :
    stmt.meaning.Foreseen frames (stmt.undeclared visible) stmt.declares := by
  cases stmt with
  | expression e span =>
      rw [Stmt.meaning_expression]
      apply (e.meaning_foreseen h).andFinally
      intro value after
      exact .pure _ after
  | var name initializer span =>
      rw [Stmt.meaning]
      have hvalue := (Expr.meaningOptional_foreseen initializer h).bind fun value after _ =>
        (Meaning.Foreseen.declare name.lexeme value after).andFinally fun _ after' => .pure ([] : List Value) after'
      rw [List.append_nil] at hvalue
      exact hvalue
  | block body span => exact (Stmt.meaningAll_foreseen body h.inside).inBlock

theorem Stmt.meaningAll_foreseen (program : List Stmt) {frames : Frames} {visible : List String}
    (h : frames.Shows visible) :
    (Stmt.meaningAll program).Foreseen frames (Stmt.undeclaredAll visible program) (program.flatMap declares) := by
  cases program with
  | nil => exact .pure [] frames
  | cons stmt rest =>
      rw [Stmt.meaningAll]
      apply (Stmt.meaning_foreseen stmt h).bind
      intro values after hafter
      apply (Stmt.meaningAll_foreseen rest (h.declare hafter)).andFinally
      intro more after'
      exact .pure _ after'

end

/-- **Undefined variables are foreseen.** A program is run in a fresh session. If every name that it assigns is declared before, it does not end for an undefined variable; if one is not, it fails; and if it ends for an undefined variable, the fault has the text and the place of the first name in the order of evaluation that is assigned without a declaration. -/
theorem scoping_foresees_undefined (program : List Stmt) :
    let result := (Stmt.execAll program Session.fresh).result
    (WellScoped program → ∀ place name, result ≠ .error (.undefinedVariable place name)) ∧
      (¬WellScoped program → ∃ fault, result = .error fault) ∧
      ∀ place name, result = .error (.undefinedVariable place name) →
        ∃ t, (Stmt.undeclaredAll [] program).head? = some t ∧ t.place = place ∧ t.lexeme = name := by
  intro result
  have hforeseen := Stmt.meaningAll_foreseen program Frames.shows_fresh
  have hresult : result = ((Stmt.meaningAll program).outcome Frames.fresh).1 :=
    (Stmt.execAll_simulates program Session.fresh_realises).result
  have hundefined : ∀ place name, result = .error (.undefinedVariable place name) →
      ∃ t, (Stmt.undeclaredAll [] program).head? = some t ∧ t.place = place ∧ t.lexeme = name := by
    intro place name h
    exact hforeseen.undefined place name _ (Prod.ext (hresult.symm.trans h) rfl)
  refine ⟨?_, ?_, hundefined⟩
  · intro hscoped place name h
    obtain ⟨t, ht, -⟩ := hundefined place name h
    rw [wellScoped_iff.1 hscoped] at ht
    cases ht
  · intro hscoped
    cases h : (Stmt.execAll program Session.fresh).result with
    | error fault => exact ⟨fault, h⟩
    | ok values =>
        obtain ⟨hnone, -⟩ := hforeseen.ok values _ (Prod.ext (hresult.symm.trans h) rfl)
        exact absurd (wellScoped_iff.2 hnone) hscoped

/-- An inner block may assign what is declared around it. A declaration counts neither behind its block nor in its own initializer, so the second program ends at the name that the last declaration assigns. -/
theorem scoping_foresees_undefined_in_initializer :
    let x (start : Nat) : Token := ⟨.identifier, "x", ⟨1, ⟨start, start + 1⟩⟩, none⟩
    let assigned (start : Nat) : Expr := .assign (x start) (.literal .null ⟨start + 2, start + 6⟩) ⟨start, start + 6⟩
    let within : List Stmt := [.var (x 4) none ⟨0, 6⟩, .block [.expression (assigned 7) ⟨7, 13⟩] ⟨6, 14⟩]
    let outside : List Stmt := [.block [.var (x 5) none ⟨1, 7⟩] ⟨0, 8⟩,
      .var (x 12) (some (assigned 14)) ⟨8, 21⟩, .expression (assigned 21) ⟨21, 27⟩]
    (WellScoped within ∧ ∀ place name, (Stmt.execAll within .fresh).result ≠ .error (.undefinedVariable place name)) ∧
      (¬WellScoped outside ∧ ∃ fault, (Stmt.execAll outside .fresh).result = .error fault) ∧
      (Stmt.execAll outside .fresh).result = .error (.undefinedVariable ⟨1, ⟨14, 15⟩⟩ "x") ∧
      ∃ t, (Stmt.undeclaredAll [] outside).head? = some t ∧ t.place = ⟨1, ⟨14, 15⟩⟩ ∧ t.lexeme = "x" := by
  intro x assigned within outside
  have hwithin : WellScoped within := by decide
  have houtside : ¬WellScoped outside := by decide
  have hresult : (Stmt.execAll outside .fresh).result = .error (.undefinedVariable ⟨1, ⟨14, 15⟩⟩ "x") := by decide
  obtain ⟨-, herror, hfirst⟩ := scoping_foresees_undefined outside
  exact ⟨⟨hwithin, (scoping_foresees_undefined within).1 hwithin⟩, ⟨houtside, herror houtside⟩, hresult,
    hfirst _ _ hresult⟩

end Blockscript
