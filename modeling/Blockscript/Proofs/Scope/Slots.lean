import Blockscript.Proofs.Scope.Identity
import Blockscript.Proofs.Scope.Lookup

/-!
# Slots and searches

A store can be seen as a row of slots, the oldest scope standing in the first one. Along the row generations increase, and every scope but the first has a link to a smaller generation. Such a link may lead to a scope that has ended, whatever stands in its slot now; if it leads to one that exists, then this one stands in an earlier slot. A link to a scope that existed when the link was made stays of this kind, since the scope cannot end before the one that is linked to it.

Reading and assigning search for a name from slot to slot. Nothing in the search itself says that it ends; but it goes down the row, and where it comes to the first slot there is no link to follow.
-/

namespace Blockscript

namespace Scope

/-- Along the slots generations increase. -/
theorem Ordered.index_lt_iff {scopes : List Scope} (h : Ordered scopes) (hplaced : Placed scopes) {s t : Scope}
    (hs : s ∈ scopes) (ht : t ∈ scopes) :
    s.handle.index < t.handle.index ↔ s.handle.generation < t.handle.generation := by
  induction scopes with
  | nil => simp at hs
  | cons top older ih =>
      have hnewest : ∀ u ∈ older, u.handle.index < top.handle.index ∧ u.handle.generation < top.handle.generation := by
        intro u hu
        have hlt := hplaced.2.index_lt hu
        exact ⟨by rw [hplaced.1]; exact hlt, h.generation_lt hu⟩
      rcases List.mem_cons.1 hs with rfl | hs' <;> rcases List.mem_cons.1 ht with rfl | ht'
      · simp
      · have hlt := hnewest t ht'
        omega
      · have hlt := hnewest s hs'
        omega
      · exact ih h.tail hplaced.2 hs' ht'

end Scope

namespace Store

/-- How a search for a name went: the slots in which it found a scope, and the scope that binds the name, if it came to one. -/
structure Search where
  visited : List Nat
  holder : Option Handle

/-- The scope in the slot of a handle, if it is the one that the handle names. -/
def lookUp (st : Store) (handle : Handle) : Option Scope :=
  (Scope.slot? handle.index st.scopes).filter (·.handle.generation = handle.generation)

/-- Goes from scope to scope until one binds the name, for so many rounds at most. A search that takes more has no result, so one that goes on for ever has none for any number. -/
def search (st : Store) (name : String) : Nat → Option Handle → Option Search
  | _, none => some ⟨[], none⟩
  | 0, some _ => none
  | rounds + 1, some handle =>
    match st.lookUp handle with
    | none => some ⟨[], none⟩
    | some s =>
      if s.bindings.contains name then some ⟨[handle.index], some handle⟩
      else do
        let rest ← st.search name rounds s.enclosing
        return ⟨handle.index :: rest.visited, rest.holder⟩

/-- Every scope but the global one has a link. -/
def Linked (st : Store) : Prop :=
  ∀ s ∈ st.scopes, s.handle ≠ .global → ∃ outer, s.enclosing = some outer

theorem fresh_linked : fresh.Linked := by
  intro s hs hne
  exact absurd (congrArg Scope.handle (List.mem_singleton.1 hs)) hne

namespace Linked

variable {st : Store}

theorem push (h : st.Linked) (enclosing : Handle) : (st.push enclosing).Linked := by
  intro s hs hne
  rcases List.mem_cons.1 hs with rfl | hs
  · exact ⟨enclosing, rfl⟩
  · exact h s hs hne

theorem pop (h : st.Linked) (handle : Handle) : (st.pop handle).Linked :=
  fun s hs hne => h s (mem_of_mem_pop hs) hne

theorem bindAt (h : st.Linked) (handle : Handle) (name : String) (value : Value) :
    (st.bindAt handle name value).Linked := by
  intro t ht hne
  obtain ⟨s, hs, rfl⟩ := List.mem_map.1 ht
  rw [Scope.handle_bindAt] at hne
  rw [Scope.enclosing_bindAt]
  exact h s hs hne

end Linked

theorem push_live {st : Store} {handle : Handle} (h : st.live handle = true) (enclosing : Handle) :
    (st.push enclosing).live handle = true := by
  obtain ⟨s, hs, hhandle⟩ := live_iff.1 h
  exact live_iff.2 ⟨s, List.mem_cons_of_mem _ hs, hhandle⟩

namespace WellFormed

variable {st : Store}

theorem lookUp_eq (h : st.WellFormed) (handle : Handle) : st.lookUp handle = st.find? handle :=
  (h.find?_eq_slot handle).symm

/-! ### Slots -/

theorem slot?_zero (h : st.WellFormed) :
    ∃ s, Scope.slot? 0 st.scopes = some s ∧ s.handle.generation = 0 ∧ s.enclosing = none := by
  obtain ⟨b, hlast⟩ := h.global
  exact ⟨_, h.placed.slot?_eq_some_iff.2 ⟨List.mem_of_getLast? hlast, rfl⟩, rfl, rfl⟩

theorem enclosing_of_index_zero (h : st.WellFormed) {s : Scope} (hs : s ∈ st.scopes) (hindex : s.handle.index = 0) :
    s.enclosing = none := by
  obtain ⟨t, ht, -, hlink⟩ := h.slot?_zero
  rw [h.placed.slot?_eq_some_iff.2 ⟨hs, hindex⟩] at ht
  rw [Option.some.inj ht, hlink]

/-- A link to a scope that exists leads to an earlier slot. -/
theorem index_lt_of_link (h : st.WellFormed) {s : Scope} (hs : s ∈ st.scopes) {outer : Handle}
    (hlink : s.enclosing = some outer) (hlive : st.live outer = true) : outer.index < s.handle.index := by
  obtain ⟨t, ht, rfl⟩ := live_iff.1 hlive
  exact (h.ordered.index_lt_iff h.placed ht hs).2 (h.ordered.linked s hs _ hlink)

/-! ### Searches -/

section

variable {name : String} {rounds : Nat}

theorem search_of_ended (h : st.WellFormed) {handle : Handle} (hended : st.find? handle = none) (name : String)
    (rounds : Nat) : st.search name (rounds + 1) (some handle) = some ⟨[], none⟩ := by
  rw [search, h.lookUp_eq, hended]

theorem search_of_bound (h : st.WellFormed) {s : Scope} (hs : s ∈ st.scopes)
    (hbound : s.bindings.contains name = true) (rounds : Nat) :
    st.search name (rounds + 1) (some s.handle) = some ⟨[s.handle.index], some s.handle⟩ := by
  rw [search, h.lookUp_eq, find?, h.ordered.find?_eq_some hs]
  simp only [if_pos hbound]

theorem search_of_unbound (h : st.WellFormed) {s : Scope} (hs : s ∈ st.scopes)
    (hbound : s.bindings.contains name = false) {rest : Search} (hrest : st.search name rounds s.enclosing = some rest) :
    st.search name (rounds + 1) (some s.handle) = some ⟨s.handle.index :: rest.visited, rest.holder⟩ := by
  rw [search, h.lookUp_eq, find?, h.ordered.find?_eq_some hs]
  simp only [hbound, hrest]
  rfl

end

/-- A search in a scope that exists takes no more rounds than there are slots up to this one, as links lead to earlier slots. -/
theorem search_ends (h : st.WellFormed) (name : String) {s : Scope} (hs : s ∈ st.scopes) :
    ∃ r, (∀ rounds, s.handle.index < rounds → st.search name rounds (some s.handle) = some r) ∧
      r.holder = st.resolve? s.handle name ∧ r.visited.Pairwise (· > ·) ∧ ∀ slot ∈ r.visited, slot ≤ s.handle.index := by
  induction hn : s.handle.index using Nat.strong_induction_on generalizing s with
  | _ n ih =>
      subst hn
      have hresolve := h.resolve?_eq s.handle name
      rw [find?, h.ordered.find?_eq_some hs, Option.bind_some] at hresolve
      rw [hresolve]
      cases hbound : s.bindings.contains name with
      | true =>
          refine ⟨⟨[s.handle.index], some s.handle⟩, fun rounds hrounds => ?_, rfl, by simp, by simp⟩
          obtain ⟨rounds, rfl⟩ := Nat.exists_eq_add_one_of_ne_zero (Nat.ne_zero_of_lt hrounds)
          exact h.search_of_bound hs hbound rounds
      | false =>
          rw [if_neg Bool.false_ne_true]
          have hstep {rest : Search}
              (hrest : ∀ rounds, s.handle.index ≤ rounds → st.search name rounds s.enclosing = some rest) (rounds : Nat)
              (hrounds : s.handle.index < rounds) :
              st.search name rounds (some s.handle) = some ⟨s.handle.index :: rest.visited, rest.holder⟩ := by
            obtain ⟨rounds, rfl⟩ := Nat.exists_eq_add_one_of_ne_zero (Nat.ne_zero_of_lt hrounds)
            exact h.search_of_unbound hs hbound (hrest rounds (Nat.le_of_lt_succ hrounds))
          cases hlink : s.enclosing with
          | none =>
              have hrest (rounds : Nat) : st.search name rounds s.enclosing = some ⟨[], none⟩ := by
                rw [hlink, search]
              exact ⟨_, hstep fun rounds _ => hrest rounds, rfl, by simp, by simp⟩
          | some outer =>
              rw [Option.bind_some]
              cases hfind : st.find? outer with
              | none =>
                  have hlive : st.live outer = false := by rw [live, hfind]; rfl
                  have hindex : s.handle.index ≠ 0 := fun hzero => by
                    cases (h.enclosing_of_index_zero hs hzero).symm.trans hlink
                  have hrest (rounds : Nat) (hrounds : s.handle.index ≤ rounds) :
                      st.search name rounds s.enclosing = some ⟨[], none⟩ := by
                    obtain ⟨rounds, rfl⟩ := Nat.exists_eq_add_one_of_ne_zero (show rounds ≠ 0 by omega)
                    rw [hlink, h.search_of_ended hfind]
                  exact ⟨_, hstep hrest, (h.resolve?_of_not_live hlive name).symm, by simp, by simp⟩
              | some t =>
                  have ht : t ∈ st.scopes := Scope.mem_of_find? hfind
                  obtain rfl := Scope.handle_of_find? hfind
                  have hlt := h.index_lt_of_link hs hlink (live_iff.2 ⟨t, ht, rfl⟩)
                  obtain ⟨r, hr, hholder, hvisited, hslots⟩ := ih _ hlt ht rfl
                  rw [← hlink] at hr
                  refine ⟨_, hstep fun rounds hrounds => hr rounds (Nat.lt_of_lt_of_le hlt hrounds), hholder, ?_, ?_⟩
                  · exact List.pairwise_cons.2 ⟨fun slot hslot => Nat.lt_of_le_of_lt (hslots slot hslot) hlt, hvisited⟩
                  · intro slot hslot
                    rcases List.mem_cons.1 hslot with rfl | hslot
                    · exact Nat.le_refl _
                    · exact Nat.le_of_lt (Nat.lt_of_le_of_lt (hslots slot hslot) hlt)

/-- Every search ends, after at most as many rounds as there are scopes, and gives the answers of reading and assigning. -/
theorem exists_search (h : st.WellFormed) (handle : Handle) (name : String) :
    ∃ r, (∀ rounds, st.scopes.length ≤ rounds → st.search name rounds (some handle) = some r) ∧
      r.visited.Pairwise (· > ·) ∧
      st.get? handle name = (r.holder.bind fun target => st.own? target name) ∧
      ∀ token value, token.lexeme = name → st.assign handle token value =
        if st.live handle then
          match r.holder with
          | some target => .ok (st.bindAt target name value)
          | none => .error (.undefinedVariable token.place name)
        else .error .releasedScope := by
  have hends : ∃ r, (∀ rounds, st.scopes.length ≤ rounds → st.search name rounds (some handle) = some r) ∧
      r.holder = st.resolve? handle name ∧ r.visited.Pairwise (· > ·) := by
    cases hfind : st.find? handle with
    | none =>
        have hlive : st.live handle = false := by rw [live, hfind]; rfl
        refine ⟨⟨[], none⟩, fun rounds hrounds => ?_, (h.resolve?_of_not_live hlive name).symm, by simp⟩
        obtain ⟨s, hs, -⟩ := live_iff.1 h.live_global
        have hlength := List.length_pos_of_mem hs
        obtain ⟨rounds, rfl⟩ := Nat.exists_eq_add_one_of_ne_zero (show rounds ≠ 0 by omega)
        exact h.search_of_ended hfind name rounds
    | some s =>
        have hs := Scope.mem_of_find? hfind
        obtain rfl := Scope.handle_of_find? hfind
        obtain ⟨r, hr, hholder, hvisited, -⟩ := h.search_ends name hs
        exact ⟨r, fun rounds hrounds => hr rounds (Nat.lt_of_lt_of_le (h.placed.index_lt hs) hrounds), hholder, hvisited⟩
  obtain ⟨r, hr, hholder, hvisited⟩ := hends
  refine ⟨r, hr, hvisited, ?_, ?_⟩
  · rw [hholder, h.get?_eq_bind]
  · rintro token value rfl
    rw [hholder]
    exact h.assign_eq handle token value

end WellFormed

end Store

namespace Client

variable {c : Client} {requests : List (Request Handle)}

theorem Sound.ask_linked (h : c.Sound) (hlinked : c.store.Linked) (request : Request Handle) :
    (c.ask request).1.store.Linked := by
  obtain ⟨handle, rfl, hask⟩ | ⟨handle, rfl, hask⟩ | ⟨handle, name, value, hask⟩ | hask := h.ask_cases request
  · rw [hask]
    exact hlinked.push handle
  · rw [hask]
    exact hlinked.pop handle
  · rw [hask]
    exact hlinked.bindAt handle name value
  · rw [hask]
    exact hlinked

theorem Sound.after_linked (h : c.Sound) (hlinked : c.store.Linked) (legal : c.Legal requests) :
    (c.after requests).store.Linked := by
  induction requests generalizing c with
  | nil => exact hlinked
  | cons request rest ih => exact ih (h.ask legal.1) (h.ask_linked hlinked request) legal.2

/-- A scope does not end before a newer one. -/
theorem Sound.live_ask_of_newer (h : c.Sound) (request : Request Handle) {handle newer : Handle}
    (hlt : handle.generation < newer.generation) (hlive : c.store.live handle = true)
    (hnewer : (c.ask request).1.store.live newer = true) : (c.ask request).1.store.live handle = true := by
  obtain ⟨scope, rfl, hask⟩ | ⟨scope, rfl, hask⟩ | ⟨scope, name, value, hask⟩ | hask := h.ask_cases request
  · rw [hask]
    exact Store.push_live hlive scope
  · rw [hask] at hnewer ⊢
    by_cases hpop : c.store.canPop scope = true
    · simp only [h.wellFormed.live_pop hpop, Bool.and_eq_true, decide_eq_true_iff] at hnewer ⊢
      exact ⟨hlive, Nat.lt_trans hlt hnewer.2⟩
    · rw [Store.pop, if_neg hpop]
      exact hlive
  · rw [hask]
    exact (c.store.live_bindAt scope handle name value).trans hlive
  · rw [hask]
    exact hlive

theorem Sound.live_after_of_newer (h : c.Sound) (legal : c.Legal requests) {handle newer : Handle}
    (hlt : handle.generation < newer.generation) (hissued : newer ∈ c.handles) (hlive : c.store.live handle = true)
    (hnewer : (c.after requests).store.live newer = true) : (c.after requests).store.live handle = true := by
  induction requests generalizing c with
  | nil => exact hlive
  | cons request rest ih =>
      have hask := h.ask legal.1
      have hissued' := c.handles_subset_ask request hissued
      have hnow := hask.live_of_live_after legal.2 hissued' hnewer
      exact ih hask legal.2 hissued' (h.live_ask_of_newer request hlt hlive hnow) hnewer

/-- **Slots stay in order, and searches end.** After any legal requests the global scope stands in the first slot, with generation zero and no link. Along the slots generations increase, up to the next one to be given out, and every scope but the first has a link to a smaller generation, which leads to an earlier slot if it leads to a scope at all. A scope that is opened inside an existing one is linked to an existing one for as long as it exists itself. So a search for a name, from whichever handle, goes down the slots and ends after at most as many rounds as there are scopes; what it comes to is what is read and what is assigned. -/
theorem slots_ordered_and_searches_end (legal : fresh.Legal requests) :
    let c := fresh.after requests
    (∃ s, Scope.slot? 0 c.store.scopes = some s ∧ s.handle.generation = 0 ∧ s.enclosing = none) ∧
    (∀ i j s t, i < j → Scope.slot? i c.store.scopes = some s → Scope.slot? j c.store.scopes = some t →
      s.handle.generation < t.handle.generation) ∧
    (∀ i s, Scope.slot? i c.store.scopes = some s → s.handle.generation < c.store.nextGeneration ∧
      (i ≠ 0 → ∃ outer, s.enclosing = some outer ∧ outer.generation < s.handle.generation ∧
        (c.store.live outer = true → outer.index < i))) ∧
    (∀ enclosing ∈ c.handles, c.store.live enclosing = true →
      ∀ more, (c.ask (.push enclosing)).1.Legal more →
        let later := ((c.ask (.push enclosing)).1.after more).store
        later.live c.store.nextHandle = true →
          later.enclosing c.store.nextHandle = some enclosing ∧ later.live enclosing = true) ∧
    (∀ handle name, ∃ r,
      (∀ rounds, c.store.scopes.length ≤ rounds → c.store.search name rounds (some handle) = some r) ∧
      r.visited.Pairwise (· > ·) ∧
      c.store.get? handle name = (r.holder.bind fun target => c.store.own? target name) ∧
      ∀ token value, token.lexeme = name → c.store.assign handle token value =
        if c.store.live handle then
          match r.holder with
          | some target => .ok (c.store.bindAt target name value)
          | none => .error (.undefinedVariable token.place name)
        else .error .releasedScope) := by
  intro c
  have hsound : c.Sound := fresh_sound.after legal
  have hwell := hsound.wellFormed
  have hslot (i : Nat) (s : Scope) :
      Scope.slot? i c.store.scopes = some s ↔ s ∈ c.store.scopes ∧ s.handle.index = i :=
    hwell.placed.slot?_eq_some_iff
  refine ⟨hwell.slot?_zero, ?_, ?_, ?_, hwell.exists_search⟩
  · intro i j s t hlt hs ht
    obtain ⟨hmem, rfl⟩ := (hslot i s).1 hs
    obtain ⟨hmem', rfl⟩ := (hslot j t).1 ht
    exact (hwell.ordered.index_lt_iff hwell.placed hmem hmem').1 hlt
  · intro i s hs
    obtain ⟨hmem, rfl⟩ := (hslot i s).1 hs
    refine ⟨hwell.bounded s hmem, fun hne => ?_⟩
    have hlinked : c.store.Linked := fresh_sound.after_linked Store.fresh_linked legal
    obtain ⟨outer, hlink⟩ := hlinked s hmem fun hglobal => hne (congrArg Handle.index hglobal)
    exact ⟨outer, hlink, hwell.ordered.linked s hmem outer hlink, hwell.index_lt_of_link hmem hlink⟩
  · intro enclosing henclosing hlive more hmore later hlater
    have hpush : (c.ask (.push enclosing)).1.Sound := hsound.push henclosing
    obtain ⟨t, ht⟩ := Option.isSome_iff_exists.1 hlater
    have hlink := hsound.enclosing_after_push henclosing hmore ht
    refine ⟨by rw [Store.enclosing, ht, Option.bind_some, hlink], ?_⟩
    have hlt := hsound.bounded enclosing henclosing
    exact hpush.live_after_of_newer hmore hlt List.mem_cons_self (Store.push_live hlive enclosing) hlater

/-- A scope is linked to one that has ended, whose slot another one has taken, and this one is linked to the first. -/
theorem slots_ordered_and_searches_end_reused :
    let requests : List (Request Handle) :=
      [.push .global, .push ⟨1, 1⟩, .pop ⟨1, 1⟩, .push ⟨2, 2⟩, .push ⟨1, 3⟩]
    let c := fresh.after requests
    fresh.Legal requests ∧ c.store.live ⟨1, 3⟩ = true ∧ c.store.enclosing ⟨1, 3⟩ = some ⟨2, 2⟩ ∧
      (∃ r, c.store.search "x" 3 (some ⟨2, 4⟩) = some r ∧ r.visited.Pairwise (· > ·)) ∧
      (c.ask (.push ⟨1, 3⟩)).1.store.enclosing ⟨3, 5⟩ = some ⟨1, 3⟩ := by
  intro requests c
  have hlegal : fresh.Legal requests := by decide
  obtain ⟨-, -, -, hlinks, hsearches⟩ := slots_ordered_and_searches_end hlegal
  obtain ⟨r, hr, hvisited, -⟩ := hsearches ⟨2, 4⟩ "x"
  obtain ⟨hlink, -⟩ := hlinks ⟨1, 3⟩ (by decide) (by decide) [] trivial (by decide)
  exact ⟨hlegal, by decide, by decide, ⟨r, hr 3 (by decide), hvisited⟩, hlink⟩

end Client

end Blockscript
