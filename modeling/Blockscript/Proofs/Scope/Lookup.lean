import Blockscript.Proofs.Scope.Client

/-!
# Looking names up

A name is looked for in a scope itself and then, along the link, in the scope around it. `get?_eq_or` says so in one equation, and everything that is seen from a scope follows from it by going outwards, since links lead to smaller generations.

Binding a name in one scope changes what that scope binds the name to, and no link. So an assignment, which binds a name where it is bound already, changes what is read from exactly those scopes in which the name is resolved to the same scope.
-/

namespace Blockscript

namespace Scope

theorem resolve?_map {f : Scope → Scope} (hhandle : ∀ s, (f s).handle = s.handle)
    (henclosing : ∀ s, (f s).enclosing = s.enclosing) {name : String} {scopes : List Scope}
    (hcontains : ∀ s ∈ scopes, (f s).bindings.contains name = s.bindings.contains name) (handle : Handle) :
    resolve? name handle (scopes.map f) = resolve? name handle scopes := by
  induction scopes generalizing handle with
  | nil => rfl
  | cons top older ih =>
      have holder : ∀ start, resolve? name start (older.map f) = resolve? name start older :=
        ih fun s hs => hcontains s (List.mem_cons_of_mem top hs)
      simp only [List.map_cons, resolve?, hhandle, henclosing, hcontains top List.mem_cons_self, holder]

end Scope

namespace Store

/-- The value to which a scope itself binds a name. -/
def own? (st : Store) (handle : Handle) (name : String) : Option Value :=
  (st.find? handle).bind fun s => s.bindings.get? name

theorem live_of_own? {st : Store} {handle : Handle} {name : String} (hown : (st.own? handle name).isSome = true) :
    st.live handle = true := by
  rw [own?, Option.isSome_bind] at hown
  rw [live]
  exact Option.isSome_of_any hown

section BindAt

variable (st : Store) (target handle : Handle) (name other : String) (value : Value)

theorem find?_bindAt :
    (st.bindAt target name value).find? handle = (st.find? handle).map (Scope.bindAt target name value) :=
  Scope.find?_map (Scope.handle_bindAt target name value) handle st.scopes

theorem live_bindAt : (st.bindAt target name value).live handle = st.live handle := by
  rw [live, live, find?_bindAt, Option.isSome_map]

theorem enclosing_bindAt : (st.bindAt target name value).enclosing handle = st.enclosing handle := by
  rw [enclosing, enclosing, find?_bindAt, Option.bind_map]
  apply Option.bind_congr
  intro s _
  exact Scope.enclosing_bindAt target name value s

theorem own?_bindAt_self (h : st.live target = true) : (st.bindAt target name value).own? target name = some value := by
  obtain ⟨s, hfind⟩ := Option.isSome_iff_exists.1 h
  rw [own?, find?_bindAt, hfind, Option.map_some, Option.bind_some, Scope.bindAt,
    if_pos (Scope.handle_of_find? hfind), Bindings.get?_insert, if_pos rfl]

theorem own?_bindAt_of_ne (h : ¬(handle = target ∧ other = name)) :
    (st.bindAt target name value).own? handle other = st.own? handle other := by
  rw [own?, own?, find?_bindAt, Option.bind_map]
  apply Option.bind_congr
  intro s hs
  rw [Function.comp_apply, Scope.bindAt, Scope.handle_of_find? hs]
  by_cases hhandle : handle = target
  · have hother : other ≠ name := fun hother => h ⟨hhandle, hother⟩
    rw [if_pos hhandle, Bindings.get?_insert, if_neg hother]
  · rw [if_neg hhandle]

theorem isSome_own?_bindAt (hown : (st.own? target name).isSome = true) :
    ((st.bindAt target name value).own? handle other).isSome = (st.own? handle other).isSome := by
  by_cases hself : handle = target ∧ other = name
  · rw [hself.1, hself.2, st.own?_bindAt_self target name value (live_of_own? hown), hown, Option.isSome_some]
  · rw [st.own?_bindAt_of_ne target handle name other value hself]

end BindAt

namespace WellFormed

variable {st : Store} {handle scope target : Handle} {name : String}

theorem get?_eq_bind (h : st.WellFormed) (handle : Handle) (name : String) :
    st.get? handle name = (st.resolve? handle name).bind fun target => st.own? target name :=
  h.get?_eq handle name

/-- What is seen from a scope is what it binds itself or, failing that, what is seen from the scope around it. -/
theorem get?_eq_or (h : st.WellFormed) (handle : Handle) (name : String) :
    st.get? handle name =
      (st.own? handle name).or ((st.enclosing handle).bind fun outer => st.get? outer name) := by
  rw [h.get?_eq_bind, h.resolve?_eq, own?, enclosing]
  cases hfind : st.find? handle with
  | none => rfl
  | some s =>
      rw [Option.bind_some, Option.bind_some, Option.bind_some]
      cases hbound : s.bindings.get? name with
      | some value =>
          have hcontains : s.bindings.contains name = true := by rw [Bindings.contains, hbound, Option.isSome_some]
          rw [if_pos hcontains, Option.bind_some, own?, hfind, Option.bind_some, hbound, Option.some_or]
      | none =>
          have hcontains : s.bindings.contains name = false := by rw [Bindings.contains, hbound, Option.isSome_none]
          rw [hcontains, if_neg Bool.false_ne_true, Option.none_or, Option.bind_assoc]
          apply Option.bind_congr
          intro outer _
          exact (h.get?_eq_bind outer name).symm

theorem own?_of_resolve? (h : st.WellFormed) (hresolve : st.resolve? handle name = some target) :
    (st.own? target name).isSome = true := by
  obtain ⟨s, hs, rfl, hbound⟩ := Scope.exists_of_resolve? hresolve
  rw [own?, find?, h.ordered.find?_eq_some hs, Option.bind_some]
  exact hbound

theorem isSome_get?_iff (h : st.WellFormed) (handle : Handle) (name : String) :
    (st.get? handle name).isSome = true ↔ ∃ target, st.resolve? handle name = some target := by
  rw [h.get?_eq_bind]
  constructor
  · intro hsome
    obtain ⟨value, hvalue⟩ := Option.isSome_iff_exists.1 hsome
    obtain ⟨target, htarget, -⟩ := Option.bind_eq_some_iff.1 hvalue
    exact ⟨target, htarget⟩
  · rintro ⟨target, htarget⟩
    rw [htarget, Option.bind_some]
    exact h.own?_of_resolve? htarget

/-! ### Assignments -/

/-- An assignment fails through a handle whose scope has ended, and where the name is resolved to no scope. Otherwise it binds the name in the scope to which the name is resolved. -/
theorem assign_cases (h : st.WellFormed) (scope : Handle) (name : Token) (value : Value) :
    (st.live scope = false ∧ st.get? scope name.lexeme = none ∧
      st.assign scope name value = .error .releasedScope) ∨
    (st.live scope = true ∧ st.get? scope name.lexeme = none ∧
      st.assign scope name value = .error (.undefinedVariable name.place name.lexeme)) ∨
    (∃ target, st.live scope = true ∧ (st.get? scope name.lexeme).isSome = true ∧
      st.resolve? scope name.lexeme = some target ∧
      st.assign scope name value = .ok (st.bindAt target name.lexeme value)) := by
  have hassign := h.assign_eq scope name value
  cases hlive : st.live scope with
  | false =>
      rw [hlive, if_neg Bool.false_ne_true] at hassign
      exact .inl ⟨rfl, (h.ended hlive).get? name.lexeme, hassign⟩
  | true =>
      rw [hlive, if_pos rfl] at hassign
      cases hresolve : st.resolve? scope name.lexeme with
      | none =>
          rw [hresolve] at hassign
          refine .inr (.inl ⟨rfl, ?_, hassign⟩)
          rw [h.get?_eq_bind, hresolve, Option.bind_none]
      | some target =>
          rw [hresolve] at hassign
          exact .inr (.inr ⟨target, rfl, (h.isSome_get?_iff scope name.lexeme).2 ⟨target, hresolve⟩, rfl, hassign⟩)

/-- Binding a name where it is bound already changes no resolution. -/
theorem resolve?_bindAt (h : st.WellFormed) (hown : (st.own? target name).isSome = true) (value : Value)
    (handle : Handle) (other : String) :
    (st.bindAt target name value).resolve? handle other = st.resolve? handle other := by
  apply Scope.resolve?_map (Scope.handle_bindAt target name value) (Scope.enclosing_bindAt target name value)
  intro s hs
  rw [Scope.bindAt]
  by_cases hhandle : s.handle = target
  · rw [if_pos hhandle, Bindings.contains_insert]
    by_cases hother : other = name
    · rw [← hhandle, own?, find?, h.ordered.find?_eq_some hs, Option.bind_some] at hown
      rw [hother, Bindings.contains, hown, Bool.or_true]
    · rw [beq_eq_false_iff_ne.2 hother, Bool.false_or]
  · rw [if_neg hhandle]

/-- What is read after an assignment. -/
theorem get?_bindAt_resolved (h : st.WellFormed) (hresolve : st.resolve? scope name = some target) (value : Value)
    (handle : Handle) (other : String) :
    (st.bindAt target name value).get? handle other =
      if other = name ∧ st.resolve? handle name = st.resolve? scope name then some value
      else st.get? handle other := by
  have hown := h.own?_of_resolve? hresolve
  rw [(h.bindAt target name value).get?_eq_bind, h.get?_eq_bind, h.resolve?_bindAt hown]
  by_cases hread : other = name ∧ st.resolve? handle name = st.resolve? scope name
  · rw [if_pos hread, hread.1, hread.2, hresolve, Option.bind_some]
    exact st.own?_bindAt_self target name value (live_of_own? hown)
  · rw [if_neg hread]
    apply Option.bind_congr
    intro found hfound
    apply own?_bindAt_of_ne
    rintro ⟨rfl, rfl⟩
    exact hread ⟨rfl, hfound.trans hresolve.symm⟩

end WellFormed

end Store

namespace Client

/-- **Assigning and reading agree on the scope of a name.** After any legal requests a name can be assigned from a scope exactly if it can be read from there. An assignment is refused for the scope if it has ended and for the name otherwise, and a refused one changes nothing. One that is done changes what is read from the scopes that resolve the name as the given one does; it changes no other reading, no scope, no link, and no scope's set of names. -/
theorem assign_changes_what_get_reads {requests : List (Request Handle)} (legal : fresh.Legal requests)
    (scope : Handle) (name : Token) (value : Value) :
    let c := fresh.after requests
    let answer := c.ask (.assign scope name value)
    (answer.2 = .done ↔ (c.store.get? scope name.lexeme).isSome = true) ∧
      (answer.2 = .refused .releasedScope ↔ c.store.live scope = false) ∧
      (answer.2 = .refused (.undefinedVariable name.place name.lexeme) ↔
        c.store.live scope = true ∧ c.store.get? scope name.lexeme = none) ∧
      (answer.2 ≠ .done → answer.1 = c) ∧
      (answer.2 = .done →
        (∀ handle other, answer.1.store.get? handle other =
          if other = name.lexeme ∧
              c.store.resolve? handle name.lexeme = c.store.resolve? scope name.lexeme then some value
          else c.store.get? handle other) ∧
        ∀ handle, answer.1.store.live handle = c.store.live handle ∧
          answer.1.store.enclosing handle = c.store.enclosing handle ∧
          ∀ other, (answer.1.store.own? handle other).isSome = (c.store.own? handle other).isSome) := by
  intro c answer
  have hwell : c.store.WellFormed := (fresh_sound.after legal).wellFormed
  have hanswer : answer = c.ask (.assign scope name value) := rfl
  rw [ask, Store.serve] at hanswer
  obtain ⟨hlive, hget, hassign⟩ | ⟨hlive, hget, hassign⟩ | ⟨target, hlive, hget, hresolve, hassign⟩ :=
    hwell.assign_cases scope name value
  · rw [hassign, Reply.ofChange] at hanswer
    rw [hanswer, hlive, hget]
    simp [Reply.names]
  · rw [hassign, Reply.ofChange] at hanswer
    rw [hanswer, hlive, hget]
    simp [Reply.names]
  · rw [hassign, Reply.ofChange] at hanswer
    have hread : c.store.get? scope name.lexeme ≠ none := Option.isSome_iff_ne_none.1 hget
    rw [hanswer, hlive, hget]
    refine ⟨by simp, by simp, by simp [hread], by simp, fun _ => ⟨?_, ?_⟩⟩
    · intro handle other
      exact hwell.get?_bindAt_resolved hresolve value handle other
    · intro handle
      refine ⟨c.store.live_bindAt target handle name.lexeme value,
        c.store.enclosing_bindAt target handle name.lexeme value, ?_⟩
      intro other
      exact c.store.isSome_own?_bindAt target handle name.lexeme other value (hwell.own?_of_resolve? hresolve)

/-- Inside the global scope lie two scopes that bind a name and a third one without it; the second has ended. An assignment from inside the first scope reaches the first scope alone. -/
theorem assign_changes_what_get_reads_nested :
    let requests : List (Request Handle) := [.define .global "x" .null, .push .global, .define ⟨1, 1⟩ "x" .null,
      .push ⟨1, 1⟩, .push .global, .define ⟨3, 3⟩ "x" .null, .push ⟨2, 2⟩, .pop ⟨3, 3⟩]
    let c := fresh.after requests
    let answer := c.ask (.assign ⟨2, 2⟩ ⟨.identifier, "x", ⟨1, ⟨0, 1⟩⟩, none⟩ (.bool true))
    fresh.Legal requests ∧ answer.2 = .done ∧ answer.1.store.get? ⟨1, 1⟩ "x" = some (.bool true) ∧
      answer.1.store.get? .global "x" = c.store.get? .global "x" ∧
      (c.ask (.assign ⟨3, 3⟩ ⟨.identifier, "x", ⟨1, ⟨0, 1⟩⟩, none⟩ .null)).2 = .refused .releasedScope := by
  intro requests c answer
  have hlegal : fresh.Legal requests := by decide
  obtain ⟨hdone, -, -, -, heffect⟩ :=
    assign_changes_what_get_reads hlegal ⟨2, 2⟩ ⟨.identifier, "x", ⟨1, ⟨0, 1⟩⟩, none⟩ (.bool true)
  obtain ⟨-, hended, -⟩ := assign_changes_what_get_reads hlegal ⟨3, 3⟩ ⟨.identifier, "x", ⟨1, ⟨0, 1⟩⟩, none⟩ .null
  have hassigned : answer.2 = .done := hdone.2 (by decide)
  obtain ⟨hread, -⟩ := heffect hassigned
  refine ⟨hlegal, hassigned, ?_, ?_, hended.2 (by decide)⟩
  · rw [hread, if_pos (by decide)]
  · rw [hread, if_neg (by decide)]

end Client

end Blockscript
