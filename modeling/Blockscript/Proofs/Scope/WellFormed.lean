import Blockscript.Proofs.Scope.Order

/-!
# Well-formed stores

The scopes of a store are ordered by their generations, each is numbered by the scopes below it, and at the bottom lies the global scope. A handle then names what stands in the place of its number, provided that the generations agree. Every operation keeps a store well-formed, whichever handle it is given, as long as no link leads to a generation that is not yet given out.
-/

namespace Blockscript

namespace Scope

/-- Every scope is numbered by the scopes below it. -/
def Placed : List Scope → Prop
  | [] => True
  | s :: older => s.handle.index = older.length ∧ Placed older

theorem Placed.of_append {newer older : List Scope} (h : Placed (newer ++ older)) : Placed older := by
  induction newer with
  | nil => exact h
  | cons s newer ih => exact ih h.2

theorem Placed.map {scopes : List Scope} (h : Placed scopes) {f : Scope → Scope}
    (hf : ∀ s, (f s).handle = s.handle) : Placed (scopes.map f) := by
  induction scopes with
  | nil => trivial
  | cons s older ih => exact ⟨by rw [hf, List.length_map, h.1], ih h.2⟩

/-- The scope in the place of the given number, the oldest scope standing in place zero. -/
def slot? (index : Nat) (scopes : List Scope) : Option Scope :=
  scopes.reverse[index]?

theorem slot?_cons (index : Nat) (top : Scope) (older : List Scope) :
    slot? index (top :: older) = if index = older.length then some top else slot? index older := by
  rw [slot?, List.reverse_cons, List.getElem?_append, List.length_reverse]
  by_cases hlt : index < older.length
  · rw [if_pos hlt, if_neg (by omega), slot?]
  · rw [if_neg hlt]
    by_cases heq : index = older.length
    · simp [heq]
    · rw [if_neg heq, slot?, List.getElem?_eq_none (by simp; omega),
        List.getElem?_eq_none (by simp; omega)]

theorem Placed.index_lt {scopes : List Scope} (h : Placed scopes) {s : Scope} (hs : s ∈ scopes) :
    s.handle.index < scopes.length := by
  induction scopes with
  | nil => simp at hs
  | cons top older ih =>
      rw [List.length_cons]
      rcases List.mem_cons.1 hs with rfl | hs
      · rw [h.1]
        omega
      · have hlt := ih h.2 hs
        omega

theorem Placed.slot?_eq_some_iff {scopes : List Scope} (h : Placed scopes) {s : Scope} {index : Nat} :
    slot? index scopes = some s ↔ s ∈ scopes ∧ s.handle.index = index := by
  induction scopes with
  | nil => simp [slot?]
  | cons top older ih =>
      obtain ⟨htop, hrest⟩ := h
      rw [slot?_cons, List.mem_cons]
      by_cases heq : index = older.length
      · rw [if_pos heq, Option.some.injEq]
        constructor
        · rintro rfl
          exact ⟨.inl rfl, htop.trans heq.symm⟩
        · rintro ⟨rfl | hs, hindex⟩
          · rfl
          · have hlt := hrest.index_lt hs
            omega
      · rw [if_neg heq, ih hrest]
        constructor
        · rintro ⟨hs, hindex⟩
          exact ⟨.inr hs, hindex⟩
        · rintro ⟨rfl | hs, hindex⟩
          · omega
          · exact ⟨hs, hindex⟩

/-- What lies below a scope is the rest of the stack behind it. -/
theorem eq_append_below {handle : Handle} {scopes : List Scope} {s : Scope}
    (h : find? handle scopes = some s) :
    ∃ newer, scopes = newer ++ s :: below handle scopes := by
  induction scopes with
  | nil => simp [find?] at h
  | cons top older ih =>
      rw [find?_cons] at h
      by_cases htop : top.handle = handle
      · rw [if_pos htop] at h
        obtain rfl := Option.some.inj h
        exact ⟨[], by rw [below, if_pos htop, List.nil_append]⟩
      · rw [if_neg htop] at h
        obtain ⟨newer, hnewer⟩ := ih h
        refine ⟨top :: newer, ?_⟩
        rw [below, if_neg htop, List.cons_append, ← hnewer]

theorem below_suffix (handle : Handle) (scopes : List Scope) : below handle scopes <:+ scopes := by
  induction scopes with
  | nil => exact List.suffix_rfl
  | cons s older ih =>
      rw [below]
      split
      · exact List.suffix_cons s older
      · exact ih.trans (List.suffix_cons s older)

theorem Ordered.of_append {newer older : List Scope} (h : Ordered (newer ++ older)) : Ordered older := by
  induction newer with
  | nil => exact h
  | cons s newer ih => exact ih h.tail

/-- Below a scope lie the ones with smaller generations. -/
theorem Ordered.mem_below_iff {scopes : List Scope} (h : Ordered scopes) {handle : Handle} {s : Scope}
    (hfind : find? handle scopes = some s) {t : Scope} :
    t ∈ below handle scopes ↔ t ∈ scopes ∧ t.handle.generation < handle.generation := by
  obtain ⟨newer, hscopes⟩ := eq_append_below hfind
  obtain rfl := handle_of_find? hfind
  generalize below s.handle scopes = older at hscopes ⊢
  subst hscopes
  constructor
  · intro ht
    exact ⟨List.mem_append_right newer (List.mem_cons_of_mem s ht), h.of_append.generation_lt ht⟩
  · rintro ⟨ht, hlt⟩
    have hnewer := (List.pairwise_append.1 h.newer).2.2
    rcases List.mem_append.1 ht with ht | ht
    · have hgt := hnewer t ht s List.mem_cons_self
      omega
    · rcases List.mem_cons.1 ht with rfl | ht
      · omega
      · exact ht

end Scope

namespace Store

/-- What holds of the scopes of a store after every use of it. -/
structure WellFormed (st : Store) : Prop where
  ordered : Scope.Ordered st.scopes
  placed : Scope.Placed st.scopes
  bounded : ∀ s ∈ st.scopes, s.handle.generation < st.nextGeneration
  global : ∃ b, st.scopes.getLast? = some ⟨.global, none, b⟩

theorem fresh_wellFormed : fresh.WellFormed where
  ordered := ⟨List.pairwise_singleton _ _, by simp [fresh]⟩
  placed := ⟨rfl, trivial⟩
  bounded := by simp [fresh, Handle.global]
  global := ⟨.empty, rfl⟩

theorem live_iff {st : Store} {handle : Handle} :
    st.live handle = true ↔ ∃ s ∈ st.scopes, s.handle = handle := by
  simp [live, find?, Scope.find?, List.find?_isSome]

namespace WellFormed

variable {st : Store}

/-- A handle names what stands in its place, if the generations agree. -/
theorem find?_eq_slot (h : st.WellFormed) (handle : Handle) :
    st.find? handle =
      (Scope.slot? handle.index st.scopes).filter (·.handle.generation = handle.generation) := by
  ext s
  rw [Option.filter_eq_some_iff, h.placed.slot?_eq_some_iff, decide_eq_true_iff]
  constructor
  · intro hfind
    have hs := Scope.mem_of_find? hfind
    obtain rfl := Scope.handle_of_find? hfind
    exact ⟨⟨hs, rfl⟩, rfl⟩
  · rintro ⟨⟨hs, hindex⟩, hgeneration⟩
    have hhandle : s.handle = handle := by
      rcases hh : s.handle with ⟨index, generation⟩
      rw [hh] at hindex hgeneration
      cases handle
      simp_all
    rw [← hhandle]
    exact h.ordered.find?_eq_some hs

theorem live_global (h : st.WellFormed) : st.live .global = true := by
  obtain ⟨b, hlast⟩ := h.global
  exact live_iff.2 ⟨_, List.mem_of_getLast? hlast, rfl⟩

/-- Only the global scope stands in place zero. -/
theorem handle_eq_global (h : st.WellFormed) {s : Scope} (hs : s ∈ st.scopes) (hindex : s.handle.index = 0) :
    s.handle = .global := by
  obtain ⟨b, hlast⟩ := h.global
  have hlowest := h.placed.slot?_eq_some_iff.2 ⟨List.mem_of_getLast? hlast, rfl⟩
  have hfound := h.placed.slot?_eq_some_iff.2 ⟨hs, hindex⟩
  rw [show Handle.index (Scope.handle ⟨.global, none, b⟩) = 0 from rfl, hfound] at hlowest
  rw [Option.some.inj hlowest]

theorem push (h : st.WellFormed) {enclosing : Handle} (hlt : enclosing.generation < st.nextGeneration) :
    (st.push enclosing).WellFormed where
  ordered := by
    refine ⟨List.pairwise_cons.2 ⟨h.bounded, h.ordered.newer⟩, ?_⟩
    intro s hs outer houter
    rcases List.mem_cons.1 hs with rfl | hs
    · obtain rfl := Option.some.inj houter
      exact hlt
    · exact h.ordered.linked s hs outer houter
  placed := ⟨rfl, h.placed⟩
  bounded := by
    intro s hs
    rcases List.mem_cons.1 hs with rfl | hs
    · exact Nat.lt_succ_self st.nextGeneration
    · exact Nat.lt_succ_of_lt (h.bounded s hs)
  global := by
    obtain ⟨b, hlast⟩ := h.global
    refine ⟨b, ?_⟩
    rw [Store.push, List.getLast?_cons, hlast]
    rfl

theorem pop (h : st.WellFormed) (handle : Handle) : (st.pop handle).WellFormed := by
  rw [Store.pop]
  split
  case isFalse => exact h
  case isTrue hpop =>
      rw [canPop, Bool.and_eq_true, decide_eq_true_iff] at hpop
      obtain ⟨hindex, hlive⟩ := hpop
      obtain ⟨s, hfind⟩ := Option.isSome_iff_exists.1 hlive
      obtain ⟨newer, hscopes⟩ := Scope.eq_append_below hfind
      have hordered := h.ordered
      have hplaced := h.placed
      obtain ⟨b, hlast⟩ := h.global
      rw [hscopes] at hordered hplaced hlast
      have hs : s.handle.index = (Scope.below handle st.scopes).length := hplaced.of_append.1
      rw [Scope.handle_of_find? hfind] at hs
      refine ⟨hordered.of_append.tail, hplaced.of_append.2, ?_, b, ?_⟩
      · intro t ht
        exact h.bounded t ((h.ordered.mem_below_iff hfind).1 ht).1
      · obtain ⟨t, older, hbelow⟩ := List.exists_cons_of_length_pos (hs ▸ hindex)
        rw [hbelow, List.getLast?_append, List.getLast?_cons_cons] at hlast
        show (Scope.below handle st.scopes).getLast? = _
        rw [hbelow]
        cases hlower : (t :: older).getLast? with
        | none => simp at hlower
        | some lowest =>
            rw [hlower, Option.some_or] at hlast
            exact hlast

end WellFormed

/-- Ending a scope leaves those that were opened before it. -/
theorem WellFormed.live_pop {st : Store} (h : st.WellFormed) {handle : Handle}
    (hpop : st.canPop handle = true) (other : Handle) :
    (st.pop handle).live other = (st.live other && decide (other.generation < handle.generation)) := by
  have hlive : st.live handle = true := (Bool.and_eq_true _ _ ▸ hpop).2
  obtain ⟨s, hfind⟩ := Option.isSome_iff_exists.1 hlive
  rw [Bool.eq_iff_iff, Bool.and_eq_true, decide_eq_true_iff, live_iff, live_iff, Store.pop, if_pos hpop]
  constructor
  · rintro ⟨t, ht, rfl⟩
    obtain ⟨hmem, hlt⟩ := (h.ordered.mem_below_iff hfind).1 ht
    exact ⟨⟨t, hmem, rfl⟩, hlt⟩
  · rintro ⟨⟨t, hmem, rfl⟩, hlt⟩
    exact ⟨t, (h.ordered.mem_below_iff hfind).2 ⟨hmem, hlt⟩, rfl⟩

theorem mem_of_mem_pop {st : Store} {handle : Handle} {s : Scope} (hs : s ∈ (st.pop handle).scopes) :
    s ∈ st.scopes := by
  rw [pop] at hs
  split at hs
  · exact (Scope.below_suffix handle st.scopes).subset hs
  · exact hs

/-- The store with a name bound in the scope of `handle`. -/
def bindAt (st : Store) (handle : Handle) (name : String) (value : Value) : Store :=
  { st with scopes := st.scopes.map (Scope.bindAt handle name value) }

/-- The handle of the scope to which a name is resolved, as seen from a scope. -/
def resolve? (st : Store) (handle : Handle) (name : String) : Option Handle :=
  Scope.resolve? name handle st.scopes

namespace WellFormed

variable {st : Store}

theorem bindAt (h : st.WellFormed) (handle : Handle) (name : String) (value : Value) :
    (st.bindAt handle name value).WellFormed where
  ordered := h.ordered.map (Scope.handle_bindAt handle name value) (Scope.enclosing_bindAt handle name value)
  placed := h.placed.map (Scope.handle_bindAt handle name value)
  bounded := by
    intro t ht
    obtain ⟨s, hs, rfl⟩ := List.mem_map.1 ht
    rw [Scope.handle_bindAt]
    exact h.bounded s hs
  global := by
    obtain ⟨b, hlast⟩ := h.global
    rw [Store.bindAt, List.getLast?_map, hlast, Option.map_some, Scope.bindAt]
    split
    · exact ⟨_, rfl⟩
    · exact ⟨b, rfl⟩

theorem define_eq (h : st.WellFormed) (handle : Handle) (name : String) (value : Value) :
    st.define handle name value =
      if st.live handle then .ok (st.bindAt handle name value) else .error .releasedScope := by
  rw [Store.define, h.ordered.define?_eq, live, find?]
  cases Scope.find? handle st.scopes <;> rfl

theorem assign_eq (h : st.WellFormed) (handle : Handle) (name : Token) (value : Value) :
    st.assign handle name value =
      if st.live handle then
        match st.resolve? handle name.lexeme with
        | some target => .ok (st.bindAt target name.lexeme value)
        | none => .error (.undefinedVariable name.place name.lexeme)
      else .error .releasedScope := by
  rw [Store.assign, h.ordered.assign?_eq, resolve?]
  cases Scope.resolve? name.lexeme handle st.scopes <;> rfl

theorem get?_eq (h : st.WellFormed) (handle : Handle) (name : String) :
    st.get? handle name = (st.resolve? handle name).bind fun target =>
      (st.find? target).bind fun s => s.bindings.get? name :=
  h.ordered.get?_eq name handle

theorem resolve?_eq (h : st.WellFormed) (handle : Handle) (name : String) :
    st.resolve? handle name = (st.find? handle).bind fun s =>
      if s.bindings.contains name then some handle
      else s.enclosing.bind fun outer => st.resolve? outer name :=
  h.ordered.resolve?_eq name handle

end WellFormed

/-- Through a handle whose scope has ended nothing is seen and nothing is changed. -/
structure Ended (st : Store) (handle : Handle) : Prop where
  get? : ∀ name, st.get? handle name = none
  enclosing : st.enclosing handle = none
  define : ∀ name value, st.define handle name value = .error .releasedScope
  assign : ∀ name value, st.assign handle name value = .error .releasedScope
  pop : st.pop handle = st

theorem WellFormed.resolve?_of_not_live {st : Store} (h : st.WellFormed) {handle : Handle}
    (hlive : st.live handle = false) (name : String) : st.resolve? handle name = none := by
  rw [h.resolve?_eq, Option.isSome_eq_false_iff.1 hlive |> Option.isNone_iff_eq_none.1]
  rfl

theorem WellFormed.ended {st : Store} (h : st.WellFormed) {handle : Handle}
    (hlive : st.live handle = false) : st.Ended handle where
  get? name := by
    rw [h.get?_eq, h.resolve?_of_not_live hlive]
    rfl
  enclosing := by
    rw [Store.enclosing, Option.isSome_eq_false_iff.1 hlive |> Option.isNone_iff_eq_none.1]
    rfl
  define name value := by
    rw [h.define_eq, hlive]
    rfl
  assign name value := by
    rw [h.assign_eq, hlive]
    rfl
  pop := by
    rw [Store.pop, canPop, hlive, Bool.and_false]
    rfl

end Store

end Blockscript
