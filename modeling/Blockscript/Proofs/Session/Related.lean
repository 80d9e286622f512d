import Blockscript.Session.Eval

/-!
# Two runs side by side

The same piece of a program is run in two sessions that differ in something it should not notice. What they have in common is a relation, and the runs keep it if they have the same outcome and leave related sessions.

For expressions this comes down to two questions, as a session is only asked what a name reads as and to assign to a name: whether the names read the same in related sessions, and whether assignments to them have the same outcome and keep the relation.
-/

namespace Blockscript

/-- The names that an expression reads or assigns. -/
def Expr.names : Expr → List String
  | .literal _ _ => []
  | .grouping inner _ => inner.names
  | .unary _ right _ => right.names
  | .binary left _ right _ => left.names ++ right.names
  | .reference name => [name.lexeme]
  | .assign name value _ => name.lexeme :: value.names

/-- Two runs have the same outcome and leave related sessions. -/
structure Run.Related {α : Type} (R : Session → Session → Prop) (run run' : Run α) : Prop where
  result : run.result = run'.result
  session : R run.session run'.session

namespace Run.Related

variable {α β : Type} {R : Session → Session → Prop} {run run' : Run α} {s s' : Session}

theorem done (value : α) (h : R s s') : (Run.done value s).Related R (.done value s') :=
  ⟨rfl, h⟩

theorem failed (fault : Fault) (h : R s s') : (Run.failed fault s : Run α).Related R (.failed fault s') :=
  ⟨rfl, h⟩

theorem ofExcept (result : Except Fault α) (h : R s s') :
    (Run.ofExcept result s).Related R (.ofExcept result s') :=
  ⟨rfl, h⟩

theorem andThen {next next' : α → Session → Run β} (h : run.Related R run')
    (hnext : ∀ value s s', R s s' → (next value s).Related R (next' value s')) :
    (run.andThen next).Related R (run'.andThen next') := by
  cases hrun : run.result with
  | error fault =>
      have hrun' := h.result.symm.trans hrun
      rw [andThen_of_error hrun, andThen_of_error hrun']
      exact ⟨rfl, h.session⟩
  | ok value =>
      have hrun' := h.result.symm.trans hrun
      have hafter := hnext value run.session run'.session h.session
      rw [andThen_of_ok hrun, andThen_of_ok hrun']
      exact ⟨hafter.result, hafter.session⟩

end Run.Related

/-- In related sessions the given names read the same, and assignments to them have the same outcome and keep the sessions related. -/
structure Session.Congruence (names : List String) (R : Session → Session → Prop) : Prop where
  get? : ∀ s s' name, R s s' → name ∈ names → s.store.get? s.current name = s'.store.get? s'.current name
  assign : ∀ s s' (name : Token) value, R s s' → name.lexeme ∈ names →
    (s.assign name value).Related R (s'.assign name value)

theorem Expr.eval_related {names : List String} {R : Session → Session → Prop} (hR : Session.Congruence names R)
    (e : Expr) (hnames : e.names ⊆ names) {s s' : Session} (h : R s s') : (e.eval s).Related R (e.eval s') := by
  induction e generalizing s s' with
  | literal value span => exact .done value h
  | grouping inner span ih => exact ih hnames h
  | unary operator right span ih =>
      apply Run.Related.andThen (ih hnames h)
      intro value t t' ht
      exact .ofExcept _ ht
  | binary left operator right span ihleft ihright =>
      obtain ⟨hleft, hright⟩ := List.append_subset.1 hnames
      apply Run.Related.andThen (ihleft hleft h)
      intro a t t' ht
      apply Run.Related.andThen (ihright hright ht)
      intro b u u' hu
      exact .ofExcept _ hu
  | reference name =>
      have hread := hR.get? s s' name.lexeme h (hnames (List.mem_singleton_self _))
      rw [Expr.eval, Expr.eval, hread]
      cases s'.store.get? s'.current name.lexeme <;> exact ⟨rfl, h⟩
  | assign name inner span ih =>
      obtain ⟨hname, hinner⟩ := List.cons_subset.1 hnames
      apply Run.Related.andThen (ih hinner h)
      intro value t t' ht
      exact hR.assign t t' name value ht hname

end Blockscript
