import Blockscript.Proofs.Scope.Identity
import Blockscript.Proofs.Scope.Lookup

/-!
# Where definitions are seen

A definition is seen from the scopes whose links lead to it, unless a scope on the way binds the same name. Nothing else changes with it.

A scope that was opened last lies on top of all others. While it exists, the scopes below it can neither end nor gain a name, as long as no request defines through their handles or assigns. So when it ends, the store is what it was before the scope was opened, up to the generations that have been given out since.
-/

namespace Blockscript

namespace Store

/-- Links lead from one scope outwards to another. The scopes that are passed on the way are listed, and the one that is reached is not among them. -/
inductive Path (st : Store) : Handle → List Handle → Handle → Prop
  | here {scope : Handle} (live : st.live scope = true) : Path st scope [] scope
  | outward {handle outer scope : Handle} {passed : List Handle} (link : st.enclosing handle = some outer)
      (rest : Path st outer passed scope) : Path st handle (handle :: passed) scope

/-- Links lead from one scope outwards to another, and none of the scopes before that one binds the name. -/
def Unshadowed (st : Store) (name : String) (handle scope : Handle) : Prop :=
  ∃ passed, st.Path handle passed scope ∧ ∀ inner ∈ passed, st.own? inner name = none

theorem Path.bindAt {st : Store} {handle scope : Handle} {passed : List Handle} (h : st.Path handle passed scope)
    (target : Handle) (name : String) (value : Value) :
    (st.bindAt target name value).Path handle passed scope := by
  induction h with
  | here live => exact .here ((st.live_bindAt target _ name value).trans live)
  | outward link _ ih => exact .outward ((st.enclosing_bindAt target _ name value).trans link) ih

namespace WellFormed

variable {st : Store} {handle outer scope : Handle} {name other : String}

theorem generation_lt_of_enclosing (h : st.WellFormed) (hlink : st.enclosing handle = some outer) :
    outer.generation < handle.generation := by
  obtain ⟨s, hfind, henclosing⟩ := Option.bind_eq_some_iff.1 hlink
  have hlt := h.ordered.linked s (Scope.mem_of_find? hfind) outer henclosing
  rw [Scope.handle_of_find? hfind] at hlt
  exact hlt

/-- The scopes on the way to another one are newer than it. -/
theorem generation_le_of_path (h : st.WellFormed) {passed : List Handle} (hpath : st.Path handle passed scope) :
    scope.generation ≤ handle.generation ∧ ∀ inner ∈ passed, scope.generation < inner.generation := by
  induction hpath with
  | here _ => simp
  | outward link _ ih =>
      have hlt := h.generation_lt_of_enclosing link
      refine ⟨by omega, ?_⟩
      intro inner hinner
      rcases List.mem_cons.1 hinner with rfl | hinner
      · omega
      · exact ih.2 inner hinner

theorem get?_of_unshadowed (h : st.WellFormed) (hseen : st.Unshadowed name handle scope) :
    st.get? handle name = st.get? scope name := by
  obtain ⟨passed, hpath, hpassed⟩ := hseen
  induction hpath with
  | here _ => rfl
  | @outward handle outer _ passed link _ ih =>
      rw [h.get?_eq_or, hpassed handle List.mem_cons_self, Option.none_or, link, Option.bind_some]
      apply ih
      intro inner hinner
      exact hpassed inner (List.mem_cons_of_mem handle hinner)

theorem get?_bindAt_of_unshadowed (h : st.WellFormed) (hlive : st.live scope = true) (value : Value)
    (hseen : st.Unshadowed name handle scope) :
    (st.bindAt scope name value).get? handle name = some value := by
  obtain ⟨passed, hpath, hpassed⟩ := hseen
  have hafter := h.bindAt scope name value
  have hseen : (st.bindAt scope name value).Unshadowed name handle scope := by
    refine ⟨passed, hpath.bindAt scope name value, ?_⟩
    intro inner hinner
    have hlt := (h.generation_le_of_path hpath).2 inner hinner
    rw [own?_bindAt_of_ne]
    · exact hpassed inner hinner
    · rintro ⟨rfl, -⟩
      omega
  rw [hafter.get?_of_unshadowed hseen, hafter.get?_eq_or, st.own?_bindAt_self scope name value hlive,
    Option.some_or]

theorem get?_bindAt_of_not_unshadowed (h : st.WellFormed) (hlive : st.live scope = true) (value : Value)
    (handle : Handle) (hseen : ¬(other = name ∧ st.Unshadowed name handle scope)) :
    (st.bindAt scope name value).get? handle other = st.get? handle other := by
  induction hn : handle.generation using Nat.strong_induction_on generalizing handle with
  | _ n ih =>
      subst hn
      rw [(h.bindAt scope name value).get?_eq_or, h.get?_eq_or, enclosing_bindAt, own?_bindAt_of_ne]
      · cases hown : st.own? handle other with
        | some value => rfl
        | none =>
            rw [Option.none_or, Option.none_or]
            apply Option.bind_congr
            intro outer hlink
            apply ih outer.generation (h.generation_lt_of_enclosing hlink) outer _ rfl
            rintro ⟨rfl, passed, hpath, hpassed⟩
            refine hseen ⟨rfl, handle :: passed, .outward hlink hpath, ?_⟩
            intro inner hinner
            rcases List.mem_cons.1 hinner with rfl | hinner
            · exact hown
            · exact hpassed inner hinner
      · rintro ⟨rfl, rfl⟩
        exact hseen ⟨rfl, [], .here hlive, by simp⟩

end WellFormed

/-! ### What lies below a scope -/

/-- A scope is open, and the given scopes lie below it. -/
def LiesOn (st : Store) (scope : Handle) (base : List Scope) : Prop :=
  ∃ s, s.handle = scope ∧ s :: base <:+ st.scopes

namespace LiesOn

variable {st : Store} {scope : Handle} {base : List Scope}

theorem push (h : st.LiesOn scope base) (enclosing : Handle) : (st.push enclosing).LiesOn scope base := by
  obtain ⟨s, hs, hsuffix⟩ := h
  exact ⟨s, hs, hsuffix.trans (List.suffix_cons _ _)⟩

/-- A scope that another one's end does not end keeps what lies below it. -/
theorem pop (h : st.LiesOn scope base) (hwell : st.WellFormed) (handle : Handle)
    (hlive : (st.pop handle).live scope = true) : (st.pop handle).LiesOn scope base := by
  obtain ⟨s, rfl, hsuffix⟩ := h
  refine ⟨s, rfl, ?_⟩
  obtain ⟨t, ht, hhandle⟩ := live_iff.1 hlive
  rw [Store.pop] at ht ⊢
  split at ht
  case isFalse hpop => rwa [if_neg hpop]
  case isTrue hpop =>
      rw [if_pos hpop]
      rcases List.suffix_or_suffix_of_suffix hsuffix (Scope.below_suffix handle st.scopes) with hsub | hsub
      · exact hsub
      · rcases List.suffix_cons_iff.1 hsub with heq | hbelow
        · exact heq ▸ List.suffix_rfl
        · obtain ⟨newer, hscopes⟩ := hsuffix
          have hordered := hwell.ordered
          rw [← hscopes] at hordered
          have hlt := hordered.of_append.generation_lt (hbelow.subset ht)
          rw [hhandle] at hlt
          omega

theorem bindAt (h : st.LiesOn scope base) {handle : Handle} (hbase : ∀ s ∈ base, s.handle ≠ handle) (name : String)
    (value : Value) : (st.bindAt handle name value).LiesOn scope base := by
  obtain ⟨s, hs, hsuffix⟩ := h
  have hmap : base.map (Scope.bindAt handle name value) = base := by
    calc base.map (Scope.bindAt handle name value)
        = base.map id := List.map_congr_left fun s hs => Scope.bindAt_of_ne (hbase s hs)
      _ = base := List.map_id base
  refine ⟨s.bindAt handle name value, (Scope.handle_bindAt handle name value s).trans hs, ?_⟩
  have hmapped := hsuffix.map (Scope.bindAt handle name value)
  rw [List.map_cons, hmap] at hmapped
  exact hmapped

/-- The end of a scope leaves what lies below it. -/
theorem below_eq (h : st.LiesOn scope base) (hwell : st.WellFormed) : Scope.below scope st.scopes = base := by
  obtain ⟨s, rfl, hsuffix⟩ := h
  have hfind := hwell.ordered.find?_eq_some (hsuffix.subset List.mem_cons_self)
  obtain ⟨newer, hscopes⟩ := Scope.eq_append_below hfind
  obtain ⟨newer', hscopes'⟩ := hsuffix
  have hplaced := hwell.placed
  have hplaced' := hwell.placed
  rw [hscopes] at hplaced
  rw [← hscopes'] at hplaced'
  have hlength : (Scope.below s.handle st.scopes).length = base.length :=
    hplaced.of_append.1.symm.trans hplaced'.of_append.1
  have heq : newer ++ s :: Scope.below s.handle st.scopes = newer' ++ s :: base := hscopes.symm.trans hscopes'.symm
  have hlengths := congrArg List.length heq
  simp only [List.length_append, List.length_cons] at hlengths
  have htails := (List.append_inj heq (by omega)).2
  exact (List.cons.inj htails).2

end LiesOn

end Store

/-- A request that assigns nothing, and defines through none of the given handles. -/
def Request.Spares (handles : List Handle) : Request Handle → Prop
  | .define scope _ _ => scope ∉ handles
  | .assign _ _ _ => False
  | _ => True

instance Request.decidableSpares (handles : List Handle) : (request : Request Handle) → Decidable (request.Spares handles)
  | .define scope _ _ => inferInstanceAs (Decidable (scope ∉ handles))
  | .assign _ _ _ => .isFalse id
  | .push _ | .pop _ | .get _ _ | .enclosing _ | .live _ => .isTrue trivial

namespace Client

variable {c : Client} {scope : Handle} {base : List Scope} {handles : List Handle}

theorem Sound.ask_liesOn (h : c.Sound) {request : Request Handle} (hspares : request.Spares handles)
    (hbase : ∀ s ∈ base, s.handle ∈ handles) (hlies : c.store.LiesOn scope base)
    (hlive : (c.ask request).1.store.live scope = true) : (c.ask request).1.store.LiesOn scope base := by
  cases request with
  | push handle => exact hlies.push handle
  | pop handle => exact hlies.pop h.wellFormed handle hlive
  | define handle name value =>
      rw [Client.ask, Store.serve, h.wellFormed.define_eq]
      cases c.store.live handle with
      | false => exact hlies
      | true =>
          apply hlies.bindAt
          rintro s hs rfl
          exact hspares (hbase s hs)
  | assign _ _ _ => exact hspares.elim
  | get _ _ => exact hlies
  | enclosing _ => exact hlies
  | live _ => exact hlies

theorem Sound.after_liesOn (h : c.Sound) {requests : List (Request Handle)} (legal : c.Legal requests)
    (hissued : scope ∈ c.handles) (hspares : ∀ request ∈ requests, request.Spares handles)
    (hbase : ∀ s ∈ base, s.handle ∈ handles) (hlies : c.store.LiesOn scope base)
    (hlive : (c.after requests).store.live scope = true) : (c.after requests).store.LiesOn scope base := by
  induction requests generalizing c with
  | nil => exact hlies
  | cons request rest ih =>
      have hask := h.ask legal.1
      have hissued' := c.handles_subset_ask request hissued
      have hnow := hask.live_of_live_after legal.2 hissued' hlive
      apply ih hask legal.2 hissued' (fun other hother => hspares other (List.mem_cons_of_mem request hother)) _ hlive
      exact h.ask_liesOn (hspares request List.mem_cons_self) hbase hlies hnow

/-- Opening a scope and ending it gives back the scopes that there were, whatever is done inside of it. -/
theorem Sound.scopes_pop_eq (h : c.Sound) {enclosing : Handle} (henclosing : enclosing ∈ c.handles)
    {requests : List (Request Handle)} (legal : (c.ask (.push enclosing)).1.Legal requests)
    (hspares : ∀ request ∈ requests, request.Spares c.handles)
    (hlive : ((c.ask (.push enclosing)).1.after requests).store.live c.store.nextHandle = true) :
    (((c.ask (.push enclosing)).1.after requests).ask (.pop c.store.nextHandle)).1.store.scopes = c.store.scopes := by
  have hpush : (c.ask (.push enclosing)).1.Sound := h.push henclosing
  have hafter := (hpush.after legal).wellFormed
  have hlies : (c.ask (.push enclosing)).1.store.LiesOn c.store.nextHandle c.store.scopes :=
    ⟨⟨c.store.nextHandle, some enclosing, .empty⟩, rfl, List.suffix_rfl⟩
  have hlies' := hpush.after_liesOn legal List.mem_cons_self hspares h.scopes hlies hlive
  have hindex : 0 < c.store.nextHandle.index := by
    obtain ⟨s, hs, -⟩ := Store.live_iff.1 h.wellFormed.live_global
    exact List.length_pos_of_mem hs
  have hpop : ((c.ask (.push enclosing)).1.after requests).store.canPop c.store.nextHandle = true := by
    rw [Store.canPop, hlive, Bool.and_true]
    exact decide_eq_true hindex
  show (Store.pop _ _).scopes = _
  rw [Store.pop, if_pos hpop]
  exact hlies'.below_eq hafter

/-- **Definitions shadow and end.** After any legal requests, a definition in an existing scope is read from those scopes whose links lead to it past no other binding of the name, and all other readings stay. If a scope is opened and ended, and meanwhile definitions are made in it or in newer scopes only and nothing is assigned, then every scope that existed before exists afterwards and reads as before. -/
theorem definitions_shadow_and_end {requests : List (Request Handle)} (legal : fresh.Legal requests) :
    let c := fresh.after requests
    (∀ scope name value, c.store.live scope = true →
      let answer := c.ask (.define scope name value)
      answer.2 = .done ∧ ∀ handle other,
        (other = name ∧ c.store.Unshadowed name handle scope → answer.1.store.get? handle other = some value) ∧
        (¬(other = name ∧ c.store.Unshadowed name handle scope) →
          answer.1.store.get? handle other = c.store.get? handle other)) ∧
    (∀ enclosing scope between, enclosing ∈ c.handles →
      let opened := c.ask (.push enclosing)
      let inside := opened.1.after between
      let ended := (inside.ask (.pop scope)).1
      opened.2 = .opened scope → opened.1.Legal between → (∀ request ∈ between, request.Spares c.handles) →
        inside.store.live scope = true → ∀ handle, c.store.live handle = true →
          ended.store.live handle = true ∧ ∀ name, ended.store.get? handle name = c.store.get? handle name) := by
  intro c
  have hsound : c.Sound := fresh_sound.after legal
  have hwell := hsound.wellFormed
  constructor
  · intro scope name value hlive answer
    have hanswer : answer = c.ask (.define scope name value) := rfl
    rw [ask, Store.serve, hwell.define_eq, if_pos hlive, Reply.ofChange] at hanswer
    rw [hanswer]
    refine ⟨rfl, fun handle other => ⟨?_, ?_⟩⟩
    · rintro ⟨rfl, hseen⟩
      exact hwell.get?_bindAt_of_unshadowed hlive value hseen
    · exact hwell.get?_bindAt_of_not_unshadowed hlive value handle
  · intro enclosing scope between henclosing opened inside ended hopened hbetween hspares hlive handle hhandle
    obtain rfl : c.store.nextHandle = scope := Reply.opened.inj hopened
    have hscopes : ended.store.scopes = c.store.scopes := hsound.scopes_pop_eq henclosing hbetween hspares hlive
    constructor
    · rw [Store.live, Store.find?, hscopes]
      exact hhandle
    · intro name
      rw [Store.get?, Store.get?, hscopes]

/-- A definition in the middle one of three scopes is read from the innermost one. A fourth scope is then opened on the global one; while it exists, names are bound in it and inside of it, and others try to end. -/
theorem definitions_shadow_and_end_nested :
    let requests : List (Request Handle) := [.define .global "x" .null, .push .global, .push ⟨1, 1⟩]
    let between : List (Request Handle) := [.define ⟨3, 3⟩ "x" (.bool false), .push ⟨3, 3⟩, .define ⟨4, 4⟩ "y" .null,
      .pop .global, .pop ⟨4, 4⟩, .push ⟨4, 4⟩]
    let c := fresh.after requests
    let opened := c.ask (.push .global)
    let ended := ((opened.1.after between).ask (.pop ⟨3, 3⟩)).1
    fresh.Legal requests ∧ opened.1.Legal between ∧
      (c.ask (.define ⟨1, 1⟩ "x" (.bool true))).1.store.get? ⟨2, 2⟩ "x" = some (.bool true) ∧
      ended.store.live ⟨2, 2⟩ = true ∧ ended.store.get? ⟨2, 2⟩ "x" = c.store.get? ⟨2, 2⟩ "x" := by
  intro requests between c opened ended
  have hlegal : fresh.Legal requests := by decide
  have hbetween : opened.1.Legal between := by decide
  obtain ⟨hdefine, hrun⟩ := definitions_shadow_and_end hlegal
  have hseen : c.store.Unshadowed "x" ⟨2, 2⟩ ⟨1, 1⟩ :=
    ⟨[⟨2, 2⟩], .outward (by decide) (.here (by decide)), by decide⟩
  have hspares : ∀ request ∈ between, request.Spares c.handles := by decide
  obtain ⟨hlive, hread⟩ :=
    hrun .global ⟨3, 3⟩ between (by decide) rfl hbetween hspares (by decide) ⟨2, 2⟩ (by decide)
  obtain ⟨-, hanswer⟩ := hdefine ⟨1, 1⟩ "x" (.bool true) (by decide)
  exact ⟨hlegal, hbetween, (hanswer ⟨2, 2⟩ "x").1 ⟨rfl, hseen⟩, hlive, hread "x"⟩

end Client

end Blockscript
