import Blockscript.Proofs.Scope.WellFormed

/-!
# Uses of a store

A client of a store opens and ends scopes, binds, assigns and reads names, and asks for links and for whether a scope still exists. It names scopes by the handles it has been given: the global one, and one for each scope that it opened. It may use a handle long after the scope has ended.

Requests and replies do not say what names a scope, so that another store can answer the same requests under other names.
-/

namespace Blockscript

/-- What is asked of a store whose scopes are named by `ι`. -/
inductive Request (ι : Type) where
  | push (scope : ι)
  | pop (scope : ι)
  | define (scope : ι) (name : String) (value : Value)
  | assign (scope : ι) (name : Token) (value : Value)
  | get (scope : ι) (name : String)
  | enclosing (scope : ι)
  | live (scope : ι)
deriving DecidableEq

inductive Reply (ι : Type) where
  | opened (scope : ι)
  | done
  | refused (fault : Fault)
  | found (value : Option Value)
  | link (scope : Option ι)
  | liveness (live : Bool)
deriving DecidableEq

namespace Request

variable {ι κ : Type}

/-- The scope that a request names. -/
def scope : Request ι → ι
  | push scope | pop scope | define scope _ _ | assign scope _ _ | get scope _ | enclosing scope | live scope => scope

/-- The same request under another name for the scope. -/
def map (f : ι → κ) : Request ι → Request κ
  | push scope => push (f scope)
  | pop scope => pop (f scope)
  | define scope name value => define (f scope) name value
  | assign scope name value => assign (f scope) name value
  | get scope name => get (f scope) name
  | enclosing scope => enclosing (f scope)
  | live scope => live (f scope)

end Request

namespace Reply

variable {ι κ σ : Type}

def map (f : ι → κ) : Reply ι → Reply κ
  | opened scope => opened (f scope)
  | done => done
  | refused fault => refused fault
  | found value => found value
  | link scope => link (scope.map f)
  | liveness live => liveness live

/-- The name that a reply gives to a new scope. -/
def names : Reply ι → List ι
  | opened scope => [scope]
  | _ => []

/-- The state after a change that can be refused, and the reply. -/
def ofChange (before : σ) : Except Fault σ → σ × Reply ι
  | .ok after => (after, done)
  | .error fault => (before, refused fault)

end Reply

/-- Answers a request. -/
def Store.serve (st : Store) : Request Handle → Store × Reply Handle
  | .push handle => (st.push handle, .opened st.nextHandle)
  | .pop handle => (st.pop handle, .done)
  | .define handle name value => Reply.ofChange st (st.define handle name value)
  | .assign handle name value => Reply.ofChange st (st.assign handle name value)
  | .get handle name => (st, .found (st.get? handle name))
  | .enclosing handle => (st, .link (st.enclosing handle))
  | .live handle => (st, .liveness (st.live handle))

/-- A store together with the handles that it has given out. -/
structure Client where
  store : Store
  handles : List Handle
deriving DecidableEq

namespace Client

def fresh : Client := ⟨.fresh, [.global]⟩

def ask (c : Client) (request : Request Handle) : Client × Reply Handle :=
  (⟨(c.store.serve request).1, (c.store.serve request).2.names ++ c.handles⟩, (c.store.serve request).2)

/-- The state after all of the requests. -/
def after (c : Client) : List (Request Handle) → Client
  | [] => c
  | request :: rest => (c.ask request).1.after rest

/-- The replies to requests one after another. -/
def replies (c : Client) : List (Request Handle) → List (Reply Handle)
  | [] => []
  | request :: rest => (c.ask request).2 :: (c.ask request).1.replies rest

/-- Every request names a scope by a handle that has been given out before it. -/
def Legal (c : Client) : List (Request Handle) → Prop
  | [] => True
  | request :: rest => request.scope ∈ c.handles ∧ (c.ask request).1.Legal rest

instance decidableLegal (c : Client) : (requests : List (Request Handle)) → Decidable (c.Legal requests)
  | [] => .isTrue trivial
  | request :: rest =>
    have := decidableLegal (c.ask request).1 rest
    inferInstanceAs (Decidable (request.scope ∈ c.handles ∧ (c.ask request).1.Legal rest))

theorem handles_subset_ask (c : Client) (request : Request Handle) :
    c.handles ⊆ (c.ask request).1.handles :=
  List.subset_append_right _ _

/-- What holds of a store and of the handles that it has given out: no two of them have the same generation, and they name all scopes and all links. -/
structure Sound (c : Client) : Prop where
  wellFormed : c.store.WellFormed
  bounded : ∀ handle ∈ c.handles, handle.generation < c.store.nextGeneration
  unique : ∀ handle ∈ c.handles, ∀ other ∈ c.handles, handle.generation = other.generation → handle = other
  global : .global ∈ c.handles
  scopes : ∀ s ∈ c.store.scopes, s.handle ∈ c.handles
  links : ∀ s ∈ c.store.scopes, ∀ outer, s.enclosing = some outer → outer ∈ c.handles

theorem fresh_sound : fresh.Sound where
  wellFormed := Store.fresh_wellFormed
  bounded := by simp [fresh, Store.fresh, Handle.global]
  unique := by simp [fresh]
  global := List.mem_cons_self
  scopes := by simp [fresh, Store.fresh]
  links := by simp [fresh, Store.fresh]

namespace Sound

variable {c : Client}

theorem push (h : c.Sound) {handle : Handle} (hhandle : handle ∈ c.handles) :
    Sound ⟨c.store.push handle, c.store.nextHandle :: c.handles⟩ where
  wellFormed := h.wellFormed.push (h.bounded handle hhandle)
  bounded := by
    intro k hk
    rcases List.mem_cons.1 hk with rfl | hk
    · exact Nat.lt_succ_self _
    · exact Nat.lt_succ_of_lt (h.bounded k hk)
  unique := by
    intro k hk l hl heq
    rcases List.mem_cons.1 hk with rfl | hk <;> rcases List.mem_cons.1 hl with rfl | hl
    · rfl
    · exact absurd heq (Nat.ne_of_gt (h.bounded l hl))
    · exact absurd heq (Nat.ne_of_lt (h.bounded k hk))
    · exact h.unique k hk l hl heq
  global := List.mem_cons_of_mem _ h.global
  scopes := by
    intro s hs
    rcases List.mem_cons.1 hs with rfl | hs
    · exact List.mem_cons_self
    · exact List.mem_cons_of_mem _ (h.scopes s hs)
  links := by
    intro s hs outer houter
    rcases List.mem_cons.1 hs with rfl | hs
    · obtain rfl := Option.some.inj houter
      exact List.mem_cons_of_mem _ hhandle
    · exact List.mem_cons_of_mem _ (h.links s hs outer houter)

/-- No new scope and no new link appears. -/
theorem of_scopes (h : c.Sound) {st : Store} (hst : st.WellFormed)
    (hnext : st.nextGeneration = c.store.nextGeneration)
    (hscopes : ∀ t ∈ st.scopes, ∃ s ∈ c.store.scopes, t.handle = s.handle ∧ t.enclosing = s.enclosing) :
    Sound ⟨st, c.handles⟩ where
  wellFormed := hst
  bounded := by
    intro k hk
    rw [hnext]
    exact h.bounded k hk
  unique := h.unique
  global := h.global
  scopes := by
    intro t ht
    obtain ⟨s, hs, hhandle, -⟩ := hscopes t ht
    rw [hhandle]
    exact h.scopes s hs
  links := by
    intro t ht outer houter
    obtain ⟨s, hs, -, hlink⟩ := hscopes t ht
    exact h.links s hs outer (hlink ▸ houter)

theorem pop (h : c.Sound) (handle : Handle) : Sound ⟨c.store.pop handle, c.handles⟩ := by
  refine h.of_scopes (h.wellFormed.pop handle) ?_ fun t ht => ⟨t, ?_, rfl, rfl⟩
  · rw [Store.pop]
    split <;> rfl
  · exact Store.mem_of_mem_pop ht

theorem bindAt (h : c.Sound) (handle : Handle) (name : String) (value : Value) :
    Sound ⟨c.store.bindAt handle name value, c.handles⟩ := by
  refine h.of_scopes (h.wellFormed.bindAt handle name value) rfl fun t ht => ?_
  obtain ⟨s, hs, rfl⟩ := List.mem_map.1 ht
  exact ⟨s, hs, Scope.handle_bindAt _ _ _ s, Scope.enclosing_bindAt _ _ _ s⟩

theorem ask_cases (h : c.Sound) (request : Request Handle) :
    (∃ handle, request = .push handle ∧
      (c.ask request).1 = ⟨c.store.push handle, c.store.nextHandle :: c.handles⟩) ∨
    (∃ handle, request = .pop handle ∧ (c.ask request).1 = ⟨c.store.pop handle, c.handles⟩) ∨
    (∃ handle name value, (c.ask request).1 = ⟨c.store.bindAt handle name value, c.handles⟩) ∨
    (c.ask request).1 = c := by
  cases request with
  | push handle => exact .inl ⟨handle, rfl, rfl⟩
  | pop handle => exact .inr (.inl ⟨handle, rfl, rfl⟩)
  | define handle name value =>
      have hdefine := h.wellFormed.define_eq handle name value
      by_cases hlive : c.store.live handle = true
      · rw [if_pos hlive] at hdefine
        exact .inr (.inr (.inl ⟨handle, name, value, by rw [ask, Store.serve, hdefine]; rfl⟩))
      · rw [if_neg hlive] at hdefine
        exact .inr (.inr (.inr (by rw [ask, Store.serve, hdefine]; rfl)))
  | assign handle name value =>
      have hassign := h.wellFormed.assign_eq handle name value
      by_cases hlive : c.store.live handle = true
      · rw [if_pos hlive] at hassign
        cases hresolve : c.store.resolve? handle name.lexeme with
        | some target =>
            rw [hresolve] at hassign
            exact .inr (.inr (.inl ⟨target, name.lexeme, value, by rw [ask, Store.serve, hassign]; rfl⟩))
        | none =>
            rw [hresolve] at hassign
            exact .inr (.inr (.inr (by rw [ask, Store.serve, hassign]; rfl)))
      · rw [if_neg hlive] at hassign
        exact .inr (.inr (.inr (by rw [ask, Store.serve, hassign]; rfl)))
  | get handle name => exact .inr (.inr (.inr rfl))
  | enclosing handle => exact .inr (.inr (.inr rfl))
  | live handle => exact .inr (.inr (.inr rfl))

theorem ask (h : c.Sound) {request : Request Handle} (hscope : request.scope ∈ c.handles) :
    (c.ask request).1.Sound := by
  obtain ⟨handle, rfl, hask⟩ | ⟨handle, rfl, hask⟩ | ⟨handle, name, value, hask⟩ | hask := h.ask_cases request
  · rw [hask]
    exact h.push hscope
  · rw [hask]
    exact h.pop handle
  · rw [hask]
    exact h.bindAt handle name value
  · rw [hask]
    exact h

/-- Whatever is asked, a handle given out before names no other scope than it did: one with the same link, or none. -/
theorem find?_ask (h : c.Sound) (request : Request Handle) {handle : Handle} (hhandle : handle ∈ c.handles)
    {t : Scope} (ht : (c.ask request).1.store.find? handle = some t) :
    ∃ s, c.store.find? handle = some s ∧ t.enclosing = s.enclosing := by
  obtain ⟨scope, rfl, hask⟩ | ⟨scope, rfl, hask⟩ | ⟨scope, name, value, hask⟩ | hask := h.ask_cases request
  · rw [hask, Store.find?, Store.push, Scope.find?_cons, if_neg] at ht
    · exact ⟨t, ht, rfl⟩
    · intro heq
      have hlt := h.bounded handle hhandle
      rw [← heq] at hlt
      exact Nat.lt_irrefl _ hlt
  · rw [hask] at ht
    have hmem := Store.mem_of_mem_pop (Scope.mem_of_find? ht)
    obtain rfl := Scope.handle_of_find? ht
    exact ⟨t, h.wellFormed.ordered.find?_eq_some hmem, rfl⟩
  · rw [hask, Store.find?, Store.bindAt, Scope.find?_map (Scope.handle_bindAt scope name value)] at ht
    obtain ⟨s, hs, rfl⟩ := Option.map_eq_some_iff.1 ht
    exact ⟨s, hs, Scope.enclosing_bindAt scope name value s⟩
  · rw [hask] at ht
    exact ⟨t, ht, rfl⟩

end Sound

section Run

variable {c : Client} {requests : List (Request Handle)}

theorem Sound.after (h : c.Sound) (legal : c.Legal requests) : (c.after requests).Sound := by
  induction requests generalizing c with
  | nil => exact h
  | cons request rest ih => exact ih (h.ask legal.1) legal.2

theorem Sound.find?_after (h : c.Sound) (legal : c.Legal requests) {handle : Handle}
    (hhandle : handle ∈ c.handles) {t : Scope} (ht : (c.after requests).store.find? handle = some t) :
    ∃ s, c.store.find? handle = some s ∧ t.enclosing = s.enclosing := by
  induction requests generalizing c with
  | nil => exact ⟨t, ht, rfl⟩
  | cons request rest ih =>
      obtain ⟨u, hu, hlink⟩ := ih (h.ask legal.1) legal.2 (c.handles_subset_ask request hhandle) ht
      obtain ⟨s, hs, hlink'⟩ := h.find?_ask request hhandle hu
      exact ⟨s, hs, hlink.trans hlink'⟩

end Run

end Client

end Blockscript
