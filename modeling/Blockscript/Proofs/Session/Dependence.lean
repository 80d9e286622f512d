import Blockscript.Proofs.Session.Footprint
import Blockscript.Proofs.Session.Related

/-!
# What an evaluation depends on

From an existing scope of a store an expression sees nothing but what its names read as. Where its names read the same from two scopes, even of two stores, the evaluations have the same outcome and leave the names reading the same. The scopes may lie at different depths, bind the names in different places, and see any other names.

An assignment is no exception: it is refused where the name cannot be read, and otherwise the name reads as the new value and all others as before.
-/

namespace Blockscript

/-- What an assignment does to what is read from its own scope. -/
theorem Store.WellFormed.assign_reads {st : Store} (h : st.WellFormed) {scope : Handle} (hlive : st.live scope = true)
    (name : Token) (value : Value) :
    (st.get? scope name.lexeme = none ∧
      st.assign scope name value = .error (.undefinedVariable name.place name.lexeme)) ∨
    ∃ after, (st.get? scope name.lexeme).isSome = true ∧ st.assign scope name value = .ok after ∧ after.WellFormed ∧
      after.live scope = true ∧
      ∀ other, after.get? scope other = if other = name.lexeme then some value else st.get? scope other := by
  obtain ⟨hended, -⟩ | ⟨-, hread, hassign⟩ | ⟨target, -, hread, hresolve, hassign⟩ := h.assign_cases scope name value
  · rw [hlive] at hended
    cases hended
  · exact .inl ⟨hread, hassign⟩
  · refine .inr ⟨_, hread, hassign, h.bindAt target name.lexeme value, (st.live_bindAt ..).trans hlive, ?_⟩
    intro other
    rw [h.get?_bindAt_resolved hresolve]
    simp only [and_true]

/-- In the current scopes of two sessions, which exist, the given names read the same. -/
structure Session.ReadsAlike (names : List String) (s s' : Session) : Prop where
  wellFormed : s.store.WellFormed
  wellFormed' : s'.store.WellFormed
  live : s.store.live s.current = true
  live' : s'.store.live s'.current = true
  get? : ∀ name ∈ names, s.store.get? s.current name = s'.store.get? s'.current name

theorem Session.Congruence.readsAlike (names : List String) : Congruence names (ReadsAlike names) where
  get? _ _ name h hname := h.get? name hname
  assign := by
    intro s s' name value h hname
    have hread := h.get? name.lexeme hname
    rw [Session.assign, Session.assign]
    obtain ⟨hnone, hassign⟩ | ⟨after, hsome, hassign, hafter⟩ := h.wellFormed.assign_reads h.live name value
    · obtain ⟨-, hassign'⟩ | ⟨_, hsome', -⟩ := h.wellFormed'.assign_reads h.live' name value
      · rw [hassign, hassign']
        exact .failed _ h
      · rw [← hread, hnone] at hsome'
        cases hsome'
    · obtain ⟨hnone', -⟩ | ⟨after', -, hassign', hafter'⟩ := h.wellFormed'.assign_reads h.live' name value
      · rw [hread, hnone'] at hsome
        cases hsome
      · obtain ⟨hwell, hlive, hget⟩ := hafter
        obtain ⟨hwell', hlive', hget'⟩ := hafter'
        rw [hassign, hassign']
        refine .done value ⟨hwell, hwell', hlive, hlive', ?_⟩
        intro other hother
        rw [hget, hget', h.get? other hother]

namespace Client

/-- **An evaluation depends on its own names only.** Take two stores after any legal requests, and in each an existing scope. If the names of an expression read the same from both scopes, the expression has the same value or the same fault in both, and its names read the same again afterwards. -/
theorem evaluation_depends_on_names {requests requests' : List (Request Handle)} (legal : fresh.Legal requests)
    (legal' : fresh.Legal requests') {scope scope' : Handle} (hlive : (fresh.after requests).store.live scope = true)
    (hlive' : (fresh.after requests').store.live scope' = true) (e : Expr)
    (hread : ∀ name ∈ e.names,
      (fresh.after requests).store.get? scope name = (fresh.after requests').store.get? scope' name) :
    let run := (fresh.after requests).store.eval scope e
    let run' := (fresh.after requests').store.eval scope' e
    run.result = run'.result ∧
      ∀ name ∈ e.names, run.session.store.get? scope name = run'.session.store.get? scope' name := by
  intro run run'
  have hwell := (fresh_sound.after legal).wellFormed
  have hwell' := (fresh_sound.after legal').wellFormed
  have hbefore : Session.ReadsAlike e.names ⟨(fresh.after requests).store, scope⟩
      ⟨(fresh.after requests').store, scope'⟩ :=
    ⟨hwell, hwell', hlive, hlive', hread⟩
  obtain ⟨hresult, hafter⟩ := e.eval_related (.readsAlike e.names) (List.Subset.refl _) hbefore
  refine ⟨hresult, ?_⟩
  intro name hname
  have hsame := hafter.get? name hname
  rw [(e.eval_assignsOnly _).current, (e.eval_assignsOnly _).current] at hsame
  exact hsame

/-- In one store both names are bound in the global scope. In the other one they are bound in different scopes outside of the current one, and one of them shadows another binding. The expression assigns a truth value and then fails to negate it. -/
theorem evaluation_depends_on_names_shadowed :
    let requests : List (Request Handle) := [.define .global "x" (.bool true), .define .global "y" .null]
    let requests' : List (Request Handle) := [.define .global "x" .null, .push .global, .define ⟨1, 1⟩ "y" .null,
      .push ⟨1, 1⟩, .define ⟨2, 2⟩ "x" (.bool true), .define ⟨2, 2⟩ "z" .null, .push ⟨2, 2⟩]
    let x (start : Nat) : Token := ⟨.identifier, "x", ⟨1, ⟨start, start + 1⟩⟩, none⟩
    let y (start : Nat) : Token := ⟨.identifier, "y", ⟨1, ⟨start, start + 1⟩⟩, none⟩
    let plus : Token := ⟨.add, "+", ⟨1, ⟨5, 6⟩⟩, none⟩
    let minus : Token := ⟨.subtract, "-", ⟨1, ⟨6, 7⟩⟩, none⟩
    let e : Expr := .binary (.grouping (.assign (y 1) (.reference (x 3)) ⟨1, 4⟩) ⟨0, 5⟩) plus
      (.unary minus (.reference (y 7)) ⟨6, 8⟩) ⟨0, 8⟩
    let run := (fresh.after requests).store.eval .global e
    let run' := (fresh.after requests').store.eval ⟨3, 3⟩ e
    fresh.Legal requests ∧ fresh.Legal requests' ∧
      (∀ name ∈ e.names,
        (fresh.after requests).store.get? .global name = (fresh.after requests').store.get? ⟨3, 3⟩ name) ∧
      run.result = .error (.invalidType ⟨1, ⟨6, 7⟩⟩ "-" [.bool true]) ∧ run.result = run'.result ∧
      run.session.store.get? .global "y" = run'.session.store.get? ⟨3, 3⟩ "y" := by
  intro requests requests' x y plus minus e run run'
  have hlegal : fresh.Legal requests := by decide
  have hlegal' : fresh.Legal requests' := by decide
  have hread : ∀ name ∈ e.names,
      (fresh.after requests).store.get? .global name = (fresh.after requests').store.get? ⟨3, 3⟩ name := by decide
  obtain ⟨hresult, hafter⟩ := evaluation_depends_on_names hlegal hlegal' (by decide) (by decide) e hread
  exact ⟨hlegal, hlegal', hread, by decide, hresult, hafter "y" (by decide)⟩

end Client

end Blockscript
