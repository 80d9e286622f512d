import Blockscript.Proofs.Scope.Registry

/-!
# Handles name scopes for ever

A store keeps its scopes in places that are used again and again, and tells their users apart by generations. A registry gives every scope a number of its own. Both answer every sequence of requests alike, a handle standing for the number that is its generation.

The store and the registry are compared after every request. They agree on which of the handles given out so far name an existing scope, and existing scopes agree in their links and bindings.
-/

namespace Blockscript

namespace Client

/-- A store and a registry after the same requests. -/
structure Tracks (c : Client) (r : Registry) : Prop where
  sound : c.Sound
  count : r.count = c.store.nextGeneration
  alive : ∀ handle ∈ c.handles, r.alive handle.generation = c.store.live handle
  parent : ∀ s ∈ c.store.scopes,
    (r.parent s.handle.generation).map Fin.val = s.enclosing.map Handle.generation
  bindings : ∀ s ∈ c.store.scopes, s.bindings.Agrees (r.bindings s.handle.generation)

theorem fresh_tracks : fresh.Tracks .fresh where
  sound := fresh_sound
  count := rfl
  alive := by
    intro handle hhandle
    obtain rfl := List.mem_singleton.1 hhandle
    rfl
  parent := by
    intro s hs
    obtain rfl := List.mem_singleton.1 hs
    rfl
  bindings := by
    intro s hs
    obtain rfl := List.mem_singleton.1 hs
    exact Bindings.agrees_empty

namespace Tracks

variable {c : Client} {r : Registry} {handle : Handle}

/-! ### Questions -/

/-- Both come to the same scope along links, which lead to smaller generations. -/
theorem holder?_eq (h : c.Tracks r) (hhandle : handle ∈ c.handles) (name : String) :
    r.holder? handle.generation name = (c.store.resolve? handle name).map Handle.generation := by
  induction hn : handle.generation using Nat.strong_induction_on generalizing handle with
  | _ n ih =>
      subst hn
      have halive := h.alive handle hhandle
      rw [h.sound.wellFormed.resolve?_eq]
      cases hfind : c.store.find? handle with
      | none =>
          rw [Store.live, hfind] at halive
          rw [Registry.holder?_of_ended halive]
          rfl
      | some s =>
          have hs : s ∈ c.store.scopes := Scope.mem_of_find? hfind
          have hsh : s.handle = handle := Scope.handle_of_find? hfind
          have hparent := h.parent s hs
          have hbindings := (h.bindings s hs).contains_eq name
          rw [Store.live, hfind] at halive
          rw [hsh] at hparent hbindings
          rw [Registry.holder?_of_alive halive, Option.bind_some, hbindings]
          by_cases hbound : name ∈ r.bindings handle.generation
          · rw [if_pos hbound, decide_eq_true hbound, if_pos rfl, Option.map_some]
          · rw [if_neg hbound, decide_eq_false hbound, if_neg Bool.false_ne_true]
            cases henclosing : s.enclosing with
            | none =>
                rw [henclosing, Option.map_none, Option.map_eq_none_iff] at hparent
                rw [hparent]
                rfl
            | some outer =>
                rw [henclosing, Option.map_some, Option.map_eq_some_iff] at hparent
                obtain ⟨id, hid, hval⟩ := hparent
                have hlt := h.sound.wellFormed.ordered.linked s hs outer henclosing
                rw [hsh] at hlt
                rw [hid, Option.bind_some, Option.bind_some, hval]
                exact ih _ hlt (h.sound.links s hs outer henclosing) rfl

theorem get?_eq (h : c.Tracks r) (hhandle : handle ∈ c.handles) (name : String) :
    r.get? handle.generation name = c.store.get? handle name := by
  rw [Registry.get?, h.holder?_eq hhandle, h.sound.wellFormed.get?_eq, Option.bind_map]
  refine Option.bind_congr fun target htarget => ?_
  obtain ⟨s, hs, rfl, -⟩ := Scope.exists_of_resolve? htarget
  rw [Store.find?, h.sound.wellFormed.ordered.find?_eq_some hs, Option.bind_some, h.bindings s hs]
  rfl

theorem enclosing_eq (h : c.Tracks r) (hhandle : handle ∈ c.handles) :
    r.enclosing handle.generation = (c.store.enclosing handle).map Handle.generation := by
  rw [Registry.enclosing, h.alive handle hhandle, Store.live, Store.enclosing]
  cases hfind : c.store.find? handle with
  | none => rfl
  | some s =>
      have hparent := h.parent s (Scope.mem_of_find? hfind)
      rw [Scope.handle_of_find? hfind] at hparent
      rw [Option.bind_some, ← hparent]
      rfl

/-! ### Changes -/

theorem count_nextHandle (h : c.Tracks r) : r.count = c.store.nextHandle.generation := h.count

theorem generation_ne_count (h : c.Tracks r) (hhandle : handle ∈ c.handles) :
    handle.generation ≠ r.count := by
  rw [h.count]
  exact Nat.ne_of_lt (h.sound.bounded handle hhandle)

theorem push (h : c.Tracks r) (hhandle : handle ∈ c.handles) :
    Tracks ⟨c.store.push handle, c.store.nextHandle :: c.handles⟩ (r.push handle.generation) where
  sound := h.sound.push hhandle
  count := congrArg (· + 1) h.count
  alive := by
    intro k hk
    rw [Store.live, Store.find?, Store.push, Scope.find?_cons]
    rcases List.mem_cons.1 hk with rfl | hk
    · rw [if_pos rfl, ← h.count_nextHandle]
      exact r.alive_push_self
    · have hne := h.generation_ne_count hk
      rw [r.alive_push_of_ne hne, if_neg (by rintro rfl; exact hne h.count_nextHandle.symm)]
      exact h.alive k hk
  parent := by
    intro s hs
    rcases List.mem_cons.1 hs with rfl | hs
    · have hlt := h.sound.bounded handle hhandle
      rw [← h.count] at hlt
      show Option.map Fin.val ((r.push handle.generation).parent c.store.nextHandle.generation) = _
      rw [← h.count_nextHandle, r.parent_push_self hlt]
      rfl
    · rw [r.parent_push_of_ne (h.generation_ne_count (h.sound.scopes s hs))]
      exact h.parent s hs
  bindings := by
    intro s hs
    rcases List.mem_cons.1 hs with rfl | hs
    · show Bindings.empty.Agrees ((r.push handle.generation).bindings c.store.nextHandle.generation)
      rw [← h.count_nextHandle, r.bindings_push_self]
      exact Bindings.agrees_empty
    · rw [r.bindings_push_of_ne (h.generation_ne_count (h.sound.scopes s hs))]
      exact h.bindings s hs

/-- Among existing scopes only the global one stands in place zero, and only it has generation zero. -/
theorem canPop_iff (h : c.Tracks r) (hhandle : handle ∈ c.handles) :
    c.store.canPop handle = true ↔ handle.generation ≠ 0 ∧ r.alive handle.generation = true := by
  rw [h.alive handle hhandle, Store.canPop, Bool.and_eq_true, decide_eq_true_iff, and_congr_left_iff]
  intro hlive
  obtain ⟨s, hfind⟩ := Option.isSome_iff_exists.1 hlive
  constructor
  · intro hindex hzero
    have heq := h.sound.unique handle hhandle .global h.sound.global hzero
    rw [heq] at hindex
    exact Nat.lt_irrefl 0 hindex
  · intro hgeneration
    rw [Nat.pos_iff_ne_zero]
    intro hindex
    have heq := h.sound.wellFormed.handle_eq_global (Scope.mem_of_find? hfind)
    rw [Scope.handle_of_find? hfind] at heq
    rw [heq hindex] at hgeneration
    exact hgeneration rfl

theorem pop (h : c.Tracks r) (hhandle : handle ∈ c.handles) :
    Tracks ⟨c.store.pop handle, c.handles⟩ (r.pop handle.generation) := by
  have hsound := h.sound.pop handle
  have hcan := h.canPop_iff hhandle
  rw [Store.pop] at hsound ⊢
  rw [Registry.pop]
  by_cases hpop : c.store.canPop handle = true
  · rw [if_pos hpop] at hsound ⊢
    rw [if_pos (hcan.1 hpop)]
    refine ⟨hsound, h.count, ?_, ?_, ?_⟩
    · intro k hk
      have hlive := h.sound.wellFormed.live_pop hpop k
      rw [Store.pop, if_pos hpop] at hlive
      show (r.alive k.generation && decide (k.generation < handle.generation)) = _
      rw [hlive, h.alive k hk]
    · intro s hs
      exact h.parent s ((Scope.below_suffix handle c.store.scopes).subset hs)
    · intro s hs
      exact h.bindings s ((Scope.below_suffix handle c.store.scopes).subset hs)
  · rw [if_neg hpop, if_neg (mt hcan.2 hpop)]
    exact h

theorem bindAt (h : c.Tracks r) (hhandle : handle ∈ c.handles) (name : String) (value : Value) :
    Tracks ⟨c.store.bindAt handle name value, c.handles⟩ (r.bind handle.generation name value) where
  sound := h.sound.bindAt handle name value
  count := h.count
  alive := by
    intro k hk
    rw [Store.live, Store.find?, Store.bindAt, Scope.find?_map (Scope.handle_bindAt handle name value),
      Option.isSome_map]
    exact h.alive k hk
  parent := by
    intro t ht
    obtain ⟨s, hs, rfl⟩ := List.mem_map.1 ht
    rw [Scope.handle_bindAt, Scope.enclosing_bindAt]
    exact h.parent s hs
  bindings := by
    intro t ht
    obtain ⟨s, hs, rfl⟩ := List.mem_map.1 ht
    rw [Scope.handle_bindAt, Scope.bindAt]
    by_cases heq : s.handle = handle
    · rw [if_pos heq, ← heq, r.bindings_bind_self]
      exact (h.bindings s hs).insert name value
    · have hne : s.handle.generation ≠ handle.generation := fun hgen =>
        heq (h.sound.unique _ (h.sound.scopes s hs) _ hhandle hgen)
      rw [if_neg heq, r.bindings_bind_of_ne hne]
      exact h.bindings s hs

/-! ### Requests -/

theorem ask (h : c.Tracks r) {request : Request Handle} (hscope : request.scope ∈ c.handles) :
    (r.serve (request.map Handle.generation)).2 = (c.ask request).2.map Handle.generation ∧
      (c.ask request).1.Tracks (r.serve (request.map Handle.generation)).1 := by
  cases request with
  | push handle => exact ⟨congrArg Reply.opened h.count, h.push hscope⟩
  | pop handle => exact ⟨rfl, h.pop hscope⟩
  | define handle name value =>
      simp only [Client.ask, Store.serve, Registry.serve, Request.map, Registry.define,
        h.alive handle hscope, h.sound.wellFormed.define_eq]
      cases c.store.live handle with
      | false => exact ⟨rfl, h⟩
      | true => exact ⟨rfl, h.bindAt hscope name value⟩
  | assign handle name value =>
      have hholder : r.holder? handle.generation name.lexeme =
          (c.store.resolve? handle name.lexeme).map Handle.generation :=
        h.holder?_eq hscope name.lexeme
      simp only [Client.ask, Store.serve, Registry.serve, Request.map, Registry.assign,
        h.alive handle hscope, h.sound.wellFormed.assign_eq, hholder]
      cases c.store.live handle with
      | false => exact ⟨rfl, h⟩
      | true =>
          cases hresolve : c.store.resolve? handle name.lexeme with
          | none => exact ⟨rfl, h⟩
          | some target =>
              obtain ⟨s, hs, rfl, -⟩ := Scope.exists_of_resolve? hresolve
              exact ⟨rfl, h.bindAt (h.sound.scopes s hs) name.lexeme value⟩
  | get handle name => exact ⟨congrArg Reply.found (h.get?_eq hscope name), h⟩
  | enclosing handle => exact ⟨congrArg Reply.link (h.enclosing_eq hscope), h⟩
  | live handle => exact ⟨congrArg Reply.liveness (h.alive handle hscope), h⟩

theorem replies_eq (h : c.Tracks r) {requests : List (Request Handle)} (legal : c.Legal requests) :
    r.replies (requests.map (Request.map Handle.generation)) =
      (c.replies requests).map (Reply.map Handle.generation) := by
  induction requests generalizing c r with
  | nil => rfl
  | cons request rest ih =>
      obtain ⟨hreply, htracks⟩ := h.ask legal.1
      rw [List.map_cons, Registry.replies, Client.replies, List.map_cons, hreply, ih htracks legal.2]

end Tracks

/-! ### Handles that have ended -/

variable {c : Client} {requests : List (Request Handle)} {handle : Handle}

theorem Sound.not_live_after (h : c.Sound) (legal : c.Legal requests) (hhandle : handle ∈ c.handles)
    (hlive : c.store.live handle = false) : (c.after requests).store.live handle = false := by
  rw [Store.live, Option.isSome_eq_false_iff, Option.isNone_iff_eq_none]
  cases hfind : (c.after requests).store.find? handle with
  | none => rfl
  | some t =>
      obtain ⟨s, hs, -⟩ := h.find?_after legal hhandle hfind
      rw [Store.live, hs] at hlive
      exact absurd hlive (by simp)

/-- A scope that exists has existed since its handle was given out. -/
theorem Sound.live_of_live_after (h : c.Sound) (legal : c.Legal requests) (hhandle : handle ∈ c.handles)
    (hlive : (c.after requests).store.live handle = true) : c.store.live handle = true := by
  by_contra hended
  have hlater := h.not_live_after legal hhandle (Bool.not_eq_true _ ▸ hended)
  rw [hlater] at hlive
  exact Bool.false_ne_true hlive

/-- A scope whose link leads to no existing scope has only its own names. -/
theorem Sound.get?_of_link_ended (h : c.Sound) {outer : Handle} (houter : c.store.live outer = false)
    (hlink : ∀ s, c.store.find? handle = some s → s.enclosing = some outer) (name : String) :
    c.store.get? handle name = (c.store.find? handle).bind fun s => s.bindings.get? name := by
  rw [h.wellFormed.get?_eq, h.wellFormed.resolve?_eq]
  cases hfind : c.store.find? handle with
  | none => rfl
  | some s =>
      rw [Option.bind_some, Option.bind_some, hlink s hfind, Option.bind_some,
        h.wellFormed.resolve?_of_not_live houter]
      cases hbound : s.bindings.get? name with
      | none => rw [if_neg (by rw [Bindings.contains, hbound]; simp), Option.bind_none]
      | some value =>
          rw [if_pos (by rw [Bindings.contains, hbound]; rfl), Option.bind_some, hfind, Option.bind_some,
            hbound]

/-- A scope keeps the link with which it was opened. -/
theorem Sound.enclosing_after_push (h : c.Sound) (hhandle : handle ∈ c.handles)
    (legal : (c.ask (.push handle)).1.Legal requests) {t : Scope}
    (ht : ((c.ask (.push handle)).1.after requests).store.find? c.store.nextHandle = some t) :
    t.enclosing = some handle := by
  have hpush : (c.ask (.push handle)).1.Sound := h.push hhandle
  obtain ⟨s, hs, hlink⟩ := hpush.find?_after legal List.mem_cons_self ht
  have hnew : (c.ask (.push handle)).1.store.find? c.store.nextHandle =
      some ⟨c.store.nextHandle, some handle, .empty⟩ := by
    show Scope.find? _ (_ :: _) = _
    rw [Scope.find?_cons, if_pos rfl]
  rw [hnew] at hs
  rw [hlink, ← Option.some.inj hs]

theorem Sound.get?_after_push_ended (h : c.Sound) (hhandle : handle ∈ c.handles)
    (hlive : c.store.live handle = false) (legal : (c.ask (.push handle)).1.Legal requests) (name : String) :
    ((c.ask (.push handle)).1.after requests).store.get? c.store.nextHandle name =
      (((c.ask (.push handle)).1.after requests).store.find? c.store.nextHandle).bind fun s =>
        s.bindings.get? name := by
  have hpush : (c.ask (.push handle)).1.Sound := h.push hhandle
  have hlegal : c.Legal [.push handle] := ⟨hhandle, trivial⟩
  have hended : (c.ask (.push handle)).1.store.live handle = false := h.not_live_after hlegal hhandle hlive
  have hlater := hpush.not_live_after legal (c.handles_subset_ask _ hhandle) hended
  exact (hpush.after legal).get?_of_link_ended hlater (fun t ht => h.enclosing_after_push hhandle legal ht) name

/-- **Places are used again, handles are not.** After any legal requests the store has given the replies of a registry, a handle standing for its generation, and no two handles have the same one. A handle names what stands in its place if the generations agree. The global scope exists. A handle whose scope has ended has no effect, never names a scope again, and a scope opened inside it sees its own names only. -/
theorem legal_replies_indistinguishable (legal : fresh.Legal requests) :
    let c := fresh.after requests
    Registry.fresh.replies (requests.map (Request.map Handle.generation)) =
        (fresh.replies requests).map (Reply.map Handle.generation) ∧
      (∀ handle ∈ c.handles, ∀ other ∈ c.handles, handle.generation = other.generation → handle = other) ∧
      (∀ handle, c.store.find? handle = (Scope.slot? handle.index c.store.scopes).filter
        (·.handle.generation = handle.generation)) ∧
      c.store.live .global = true ∧
      ∀ handle ∈ c.handles, c.store.live handle = false →
        c.store.Ended handle ∧
        (∀ more, c.Legal more → (c.after more).store.live handle = false) ∧
        ∀ more name, (c.ask (.push handle)).1.Legal more →
          ((c.ask (.push handle)).1.after more).store.get? c.store.nextHandle name =
            (((c.ask (.push handle)).1.after more).store.find? c.store.nextHandle).bind fun s =>
              s.bindings.get? name := by
  intro c
  have hsound : c.Sound := fresh_sound.after legal
  refine ⟨fresh_tracks.replies_eq legal, hsound.unique, hsound.wellFormed.find?_eq_slot,
    hsound.wellFormed.live_global, ?_⟩
  intro handle hhandle hlive
  refine ⟨hsound.wellFormed.ended hlive, ?_, ?_⟩
  · intro more hmore
    exact hsound.not_live_after hmore hhandle hlive
  · intro more name hmore
    exact hsound.get?_after_push_ended hhandle hlive hmore name

/-- Two scopes end, a third one takes the place of the first, and a fourth is opened inside the second. The third has the name `x`, and the others are asked for it and to assign to it. -/
def reusedPlace : List (Request Handle) :=
  let x : Token := ⟨.identifier, "x", ⟨1, ⟨0, 1⟩⟩, none⟩
  [.push .global, .define ⟨1, 1⟩ "x" .null, .push ⟨1, 1⟩, .pop ⟨1, 1⟩, .push .global,
    .define ⟨1, 3⟩ "x" (.bool true), .get ⟨1, 3⟩ "x", .assign ⟨1, 3⟩ x (.bool false), .get ⟨1, 3⟩ "x",
    .get ⟨1, 1⟩ "x", .assign ⟨1, 1⟩ x .null, .push ⟨2, 2⟩, .get ⟨2, 4⟩ "x", .assign ⟨2, 4⟩ x .null]

theorem reusedPlace_indistinguishable :
    fresh.Legal reusedPlace ∧ (fresh.after reusedPlace).store.live ⟨1, 1⟩ = false ∧
      fresh.replies reusedPlace =
        [.opened ⟨1, 1⟩, .done, .opened ⟨2, 2⟩, .done, .opened ⟨1, 3⟩,
          .done, .found (some (.bool true)), .done, .found (some (.bool false)),
          .found none, .refused .releasedScope, .opened ⟨2, 4⟩, .found none,
          .refused (.undefinedVariable ⟨1, ⟨0, 1⟩⟩ "x")] ∧
      Registry.fresh.replies (reusedPlace.map (Request.map Handle.generation)) =
        (fresh.replies reusedPlace).map (Reply.map Handle.generation) ∧
      (fresh.after reusedPlace).store.Ended ⟨1, 1⟩ := by
  have hlegal : fresh.Legal reusedPlace := by decide
  have hlive : (fresh.after reusedPlace).store.live ⟨1, 1⟩ = false := by decide
  obtain ⟨hreplies, -, -, -, hended⟩ := legal_replies_indistinguishable hlegal
  exact ⟨hlegal, hlive, by decide, hreplies, (hended ⟨1, 1⟩ (by decide) hlive).1⟩

end Client

end Blockscript
