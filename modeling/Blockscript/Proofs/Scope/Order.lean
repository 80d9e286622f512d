import Mathlib.Data.List.Basic
import Blockscript.Scope.Store

/-!
# The order of scopes

On the stack of a store newer scopes have greater generations, and the link of a scope leads to a smaller generation than its own. So every handle names at most one scope, and a search along the links may start again from the top of the stack at each link, without meeting a scope that it has left behind.

A name is resolved to the first scope along the links that binds it. Reading and assigning a name are both reading and binding it in the scope to which it is resolved.
-/

namespace Blockscript

namespace Scope

/-- Newer scopes have greater generations, and links lead to smaller ones. -/
structure Ordered (scopes : List Scope) : Prop where
  newer : scopes.Pairwise fun s t => t.handle.generation < s.handle.generation
  linked : ∀ s ∈ scopes, ∀ outer, s.enclosing = some outer → outer.generation < s.handle.generation

/-- The handle of the first scope that binds a name, from `handle` outwards. -/
def resolve? (name : String) : Handle → List Scope → Option Handle
  | _, [] => none
  | handle, s :: older =>
    if s.handle = handle then
      if s.bindings.contains name then some handle
      else s.enclosing.bind fun outer => resolve? name outer older
    else resolve? name handle older

/-- Binds a name in the scope that `handle` names, if there is one. -/
def bindAt (handle : Handle) (name : String) (value : Value) (s : Scope) : Scope :=
  if s.handle = handle then { s with bindings := s.bindings.insert name value } else s

theorem bindAt_of_ne {handle : Handle} {name : String} {value : Value} {s : Scope}
    (h : s.handle ≠ handle) : s.bindAt handle name value = s := by
  rw [bindAt, if_neg h]

@[simp] theorem handle_bindAt (handle : Handle) (name : String) (value : Value) (s : Scope) :
    (s.bindAt handle name value).handle = s.handle := by
  unfold bindAt
  split <;> rfl

@[simp] theorem enclosing_bindAt (handle : Handle) (name : String) (value : Value) (s : Scope) :
    (s.bindAt handle name value).enclosing = s.enclosing := by
  unfold bindAt
  split <;> rfl

theorem find?_cons (handle : Handle) (s : Scope) (older : List Scope) :
    find? handle (s :: older) = if s.handle = handle then some s else find? handle older := by
  by_cases h : s.handle = handle <;> simp [find?, h]

theorem handle_of_find? {handle : Handle} {scopes : List Scope} {s : Scope}
    (h : find? handle scopes = some s) : s.handle = handle := by
  simpa using List.find?_some h

theorem mem_of_find? {handle : Handle} {scopes : List Scope} {s : Scope}
    (h : find? handle scopes = some s) : s ∈ scopes :=
  List.mem_of_find?_eq_some h

theorem find?_map {f : Scope → Scope} (hf : ∀ s, (f s).handle = s.handle) (handle : Handle)
    (scopes : List Scope) : find? handle (scopes.map f) = (find? handle scopes).map f := by
  simp only [find?, List.find?_map, Function.comp_def, hf]

namespace Ordered

variable {s : Scope} {older scopes : List Scope} {handle : Handle}

theorem tail (h : Ordered (s :: older)) : Ordered older where
  newer := (List.pairwise_cons.1 h.newer).2
  linked t ht := h.linked t (List.mem_cons_of_mem s ht)

theorem generation_lt (h : Ordered (s :: older)) {t : Scope} (ht : t ∈ older) :
    t.handle.generation < s.handle.generation :=
  (List.pairwise_cons.1 h.newer).1 t ht

theorem map (h : Ordered scopes) {f : Scope → Scope} (hhandle : ∀ s, (f s).handle = s.handle)
    (henclosing : ∀ s, (f s).enclosing = s.enclosing) : Ordered (scopes.map f) where
  newer := by
    rw [List.pairwise_map]
    simpa only [hhandle] using h.newer
  linked := by
    intro t ht outer houter
    obtain ⟨s, hs, rfl⟩ := List.mem_map.1 ht
    rw [henclosing] at houter
    rw [hhandle]
    exact h.linked s hs outer houter

/-- Different scopes have different handles. -/
theorem find?_eq_some (h : Ordered scopes) (hs : s ∈ scopes) : find? s.handle scopes = some s := by
  induction scopes with
  | nil => simp at hs
  | cons top older ih =>
      rw [find?_cons]
      rcases List.mem_cons.1 hs with rfl | hs
      · rw [if_pos rfl]
      · have hlt := h.generation_lt hs
        rw [if_neg fun heq => by rw [heq] at hlt; omega]
        exact ih h.tail hs

/-- The scope around the one that `handle` names is not the newest one. -/
theorem handle_ne_of_linked (h : Ordered (s :: older)) {t : Scope} (ht : t ∈ s :: older)
    {outer : Handle} (houter : t.enclosing = some outer) : s.handle ≠ outer := by
  have hlink := h.linked t ht outer houter
  intro heq
  rcases List.mem_cons.1 ht with rfl | ht
  · rw [heq] at hlink
    omega
  · have hlt := h.generation_lt ht
    rw [heq] at hlt
    omega

/-- Along a link the search can start again from the newest scope. -/
theorem resolve?_cons_of_linked (h : Ordered (s :: older)) {t : Scope} (ht : t ∈ s :: older)
    {outer : Handle} (houter : t.enclosing = some outer) (name : String) :
    resolve? name outer (s :: older) = resolve? name outer older := by
  rw [resolve?, if_neg (h.handle_ne_of_linked ht houter)]

theorem resolve?_eq (h : Ordered scopes) (name : String) (handle : Handle) :
    resolve? name handle scopes = (find? handle scopes).bind fun s =>
      if s.bindings.contains name then some handle
      else s.enclosing.bind fun outer => resolve? name outer scopes := by
  induction scopes with
  | nil => rfl
  | cons top older ih =>
      rw [find?_cons]
      by_cases htop : top.handle = handle
      · rw [resolve?, if_pos htop, if_pos htop, Option.bind_some]
        cases henclosing : top.enclosing with
        | none => rfl
        | some outer =>
            rw [Option.bind_some, Option.bind_some,
              h.resolve?_cons_of_linked List.mem_cons_self henclosing]
      · rw [resolve?, if_neg htop, if_neg htop, ih h.tail]
        cases hfind : find? handle older with
        | none => rfl
        | some t =>
            have ht : t ∈ top :: older := List.mem_cons_of_mem top (mem_of_find? hfind)
            rw [Option.bind_some, Option.bind_some]
            cases henclosing : t.enclosing with
            | none => rfl
            | some outer =>
                rw [Option.bind_some, Option.bind_some, h.resolve?_cons_of_linked ht henclosing]

end Ordered

theorem exists_of_resolve? {name : String} {handle target : Handle} {scopes : List Scope}
    (h : resolve? name handle scopes = some target) :
    ∃ s ∈ scopes, s.handle = target ∧ s.bindings.contains name = true := by
  induction scopes generalizing handle with
  | nil => simp [resolve?] at h
  | cons top older ih =>
      rw [resolve?] at h
      split at h
      case isTrue htop =>
          split at h
          case isTrue hbound =>
              exact ⟨top, List.mem_cons_self, htop.trans (Option.some.inj h), hbound⟩
          case isFalse =>
              obtain ⟨outer, -, hresolve⟩ := Option.bind_eq_some_iff.1 h
              obtain ⟨s, hs, hfound⟩ := ih hresolve
              exact ⟨s, List.mem_cons_of_mem top hs, hfound⟩
      case isFalse =>
          obtain ⟨s, hs, hfound⟩ := ih h
          exact ⟨s, List.mem_cons_of_mem top hs, hfound⟩

namespace Ordered

variable {top : Scope} {older scopes : List Scope}

theorem handle_ne_of_resolve? (h : Ordered (top :: older)) {name : String} {handle target : Handle}
    (hresolve : resolve? name handle older = some target) : top.handle ≠ target := by
  obtain ⟨s, hs, rfl, -⟩ := exists_of_resolve? hresolve
  have hlt := h.generation_lt hs
  intro heq
  rw [heq] at hlt
  omega

theorem get?_eq (h : Ordered scopes) (name : String) (handle : Handle) :
    get? name handle scopes = (resolve? name handle scopes).bind fun target =>
      (find? target scopes).bind fun s => s.bindings.get? name := by
  induction scopes generalizing handle with
  | nil => rfl
  | cons top older ih =>
      have hrest : ∀ start, get? name start older = (resolve? name start older).bind fun target =>
          (find? target (top :: older)).bind fun s => s.bindings.get? name := by
        intro start
        rw [ih h.tail]
        refine Option.bind_congr fun target htarget => ?_
        rw [find?_cons, if_neg (h.handle_ne_of_resolve? htarget)]
      rw [get?, resolve?]
      split
      case isTrue htop =>
          cases hbound : top.bindings.get? name with
          | some value =>
              rw [if_pos (by rw [Bindings.contains, hbound]; rfl), Option.bind_some, find?_cons,
                if_pos htop, Option.bind_some, hbound]
          | none =>
              rw [if_neg (by rw [Bindings.contains, hbound]; simp)]
              cases top.enclosing with
              | none => rfl
              | some outer => exact hrest outer
      case isFalse => exact hrest handle

theorem map_bindAt_eq (h : Ordered (top :: older)) (name : String) (value : Value) :
    older.map (bindAt top.handle name value) = older := by
  calc older.map (bindAt top.handle name value)
      = older.map id := List.map_congr_left fun s hs => by
        have hlt := h.generation_lt hs
        exact bindAt_of_ne fun heq => by rw [heq] at hlt; omega
    _ = older := List.map_id older

theorem define?_eq (h : Ordered scopes) (name : String) (value : Value) (handle : Handle) :
    define? name value handle scopes =
      (find? handle scopes).map fun _ => scopes.map (bindAt handle name value) := by
  induction scopes with
  | nil => rfl
  | cons top older ih =>
      rw [define?, find?_cons]
      by_cases htop : top.handle = handle
      · subst htop
        rw [if_pos rfl, if_pos rfl, Option.map_some, List.map_cons, bindAt, if_pos rfl,
          h.map_bindAt_eq]
      · rw [if_neg htop, if_neg htop, ih h.tail, Option.map_map]
        refine Option.map_congr fun s _ => ?_
        rw [Function.comp_apply, List.map_cons, bindAt_of_ne htop]

theorem assign?_eq (h : Ordered scopes) (name : String) (value : Value) (handle : Handle) :
    assign? name value handle scopes =
      (resolve? name handle scopes).map fun target => scopes.map (bindAt target name value) := by
  induction scopes generalizing handle with
  | nil => rfl
  | cons top older ih =>
      have hrest : ∀ start, (assign? name value start older).map (top :: ·) =
          (resolve? name start older).map fun target =>
            (top :: older).map (bindAt target name value) := by
        intro start
        rw [ih h.tail, Option.map_map]
        refine Option.map_congr fun target htarget => ?_
        rw [Function.comp_apply, List.map_cons, bindAt_of_ne (h.handle_ne_of_resolve? htarget)]
      rw [assign?, resolve?]
      split
      case isTrue htop =>
          subst htop
          cases top.bindings.contains name with
          | true =>
              rw [if_pos rfl, Option.map_some, List.map_cons, bindAt, if_pos rfl, h.map_bindAt_eq]
          | false =>
              rw [if_neg Bool.false_ne_true]
              cases top.enclosing with
              | none => rfl
              | some outer => exact hrest outer
      case isFalse => exact hrest handle

end Ordered

end Scope

end Blockscript
