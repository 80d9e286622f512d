import Blockscript.Proofs.Grammar.Cursor
import Blockscript.Proofs.Grammar.Programs

/-!
# Runs of a parser with a cursor

A run from a state is followed from step to step, along with where the cursor stands and what it has done. A walk that does what a parser of the grammar does leaves the cursor before the tokens that the parser leaves. For each thing that a walk can begin with there is one rule here, which says what is then to be shown of the rest.
-/

namespace Blockscript.Grammar.Cursor

variable {α β : Type}

/-- A run from a state ends, with a value or not, and leaves another state. -/
def Comes (w : Walk α) (s : State) (r : Except Halt α) (s' : State) : Prop :=
  StateT.run (ExceptT.run w) s = some (r, s')

/-- The run ends with the fault of a misparse. -/
abbrev Misses (w : Walk α) (s : State) (m : Misparse) (s' : State) : Prop :=
  Comes w s (.error (.fault m.fault)) s'

namespace Comes

variable {w : Walk α} {f : α → Walk β} {s s' s'' : State} {a : α}

theorem pure (a : α) (s : State) : Comes (pure a) s (.ok a) s := rfl

theorem get (s : State) : Comes get s (.ok s) s := rfl

theorem set (s s' : State) : Comes (set s') s (.ok ()) s' := rfl

theorem bind {r : Except Halt β} (h : Comes w s (.ok a) s') (h' : Comes (f a) s' r s'') : Comes (w >>= f) s r s'' := by
  rw [Comes, ExceptT.run_bind, StateT.run_bind, h]
  exact h'

theorem bind_error {e : Halt} (h : Comes w s (.error e) s') : Comes (w >>= f) s (.error e) s' := by
  rw [Comes, ExceptT.run_bind, StateT.run_bind, h]
  rfl

end Comes

/-! ### Where the cursor stands -/

/-- The state once the token under the cursor has been passed and read. -/
def State.pass (s : State) : State := s.move.mark (.lookedBack s.move.cursor)

/-- The cursor stands before the given tokens, which are all that are left. -/
def State.Before (ts us : List Token) (s : State) : Prop :=
  ∃ passed, ts = passed ++ us ∧ s.cursor = passed.length

/-- The cursor stands right behind a token. -/
def State.Behind (ts : List Token) (t : Token) (s : State) : Prop :=
  ∃ passed us, ts = passed ++ t :: us ∧ s.cursor = passed.length + 1

namespace State

variable {ts us us' : List Token} {t : Token} {s s' : State}

theorem start_before (ts : List Token) : start.Before ts ts :=
  ⟨[], rfl, rfl⟩

theorem Before.cursor_add (h : s.Before ts us) : s.cursor + us.length = ts.length := by
  obtain ⟨passed, rfl, hcursor⟩ := h
  rw [hcursor, List.length_append]

theorem Before.mark (h : s.Before ts us) (m : Mark) : (s.mark m).Before ts us := h

theorem Before.getElem? (h : s.Before ts us) : ts[s.cursor]? = us.head? := by
  obtain ⟨passed, rfl, hcursor⟩ := h
  rw [hcursor, List.getElem?_append_right (Nat.le_refl _), Nat.sub_self, List.head?_eq_getElem?]

theorem Before.move (h : s.Before ts (t :: us)) : s.move.Before ts us := by
  obtain ⟨passed, rfl, hcursor⟩ := h
  exact ⟨passed ++ [t], by simp, by rw [State.move, hcursor, List.length_append, List.length_singleton]⟩

theorem Before.pass (h : s.Before ts (t :: us)) : s.pass.Before ts us :=
  h.move

theorem Before.behind (h : s.Before ts (t :: us)) : s.move.Behind ts t := by
  obtain ⟨passed, hts, hcursor⟩ := h
  exact ⟨passed, us, hts, congrArg (· + 1) hcursor⟩

theorem Behind.mark (h : s.Behind ts t) (m : Mark) : (s.mark m).Behind ts t := h

/-- Once tokens have been passed, the cursor stands behind the last of them. -/
theorem Before.behind_last {ps : List Token} (h : s.Before ts (ps ++ us)) (h' : s'.Before ts us)
    (hlast : ps.getLast? = some t) : s'.Behind ts t := by
  obtain ⟨passed, rfl, hcursor⟩ := h
  obtain ⟨passed', hts, hcursor'⟩ := h'
  obtain ⟨front, rfl⟩ := List.getLast?_eq_some_iff.1 hlast
  have hpassed : passed ++ (front ++ [t]) = passed' := List.append_cancel_right (by rw [← hts, List.append_assoc])
  refine ⟨passed ++ front, us, by simp, ?_⟩
  rw [hcursor', ← hpassed]
  simp only [List.length_append, List.length_singleton, Nat.add_assoc]

end State

/-! ### What the cursor has done -/

/-- Tokens are read behind the first one only, and what is found has tokens. -/
def Mark.Sound : Mark → Prop
  | moved _ | began _ => True
  | lookedBack cursor => 0 < cursor
  | found start cursor => start < cursor

/-- The cursor has kept to the tokens and never gone back, and what is marked is sound. -/
structure State.Sound (ts : List Token) (s : State) : Prop where
  inside : s.cursor ≤ ts.length
  passed : ∀ m ∈ s.log, m.cursor ≤ s.cursor
  onward : s.log.Pairwise fun later earlier => earlier.cursor ≤ later.cursor
  marks : ∀ m ∈ s.log, m.Sound

/-- One state is left for another one, with the cursor no further back. -/
structure State.Leads (ts : List Token) (s s' : State) : Prop where
  onward : s.cursor ≤ s'.cursor
  sound : s.Sound ts → s'.Sound ts

namespace State

variable {ts us : List Token} {t : Token} {s s' s'' : State}

theorem start_sound (ts : List Token) : start.Sound ts where
  inside := Nat.zero_le _
  passed := by simp [start]
  onward := List.Pairwise.nil
  marks := by simp [start]

theorem Leads.rfl : s.Leads ts s :=
  ⟨Nat.le_refl _, id⟩

theorem Leads.trans (h : s.Leads ts s') (h' : s'.Leads ts s'') : s.Leads ts s'' :=
  ⟨Nat.le_trans h.onward h'.onward, fun hs => h'.sound (h.sound hs)⟩

/-- The cursor is set, and a mark tells where. -/
theorem leads_log (m : Mark) (hmark : m.Sound) (honward : s.cursor ≤ m.cursor)
    (hinside : s.cursor ≤ ts.length → m.cursor ≤ ts.length) : s.Leads ts ⟨m.cursor, m :: s.log⟩ where
  onward := honward
  sound h := {
    inside := hinside h.inside
    passed := by
      intro m' hm
      rcases List.mem_cons.1 hm with rfl | hm
      · exact Nat.le_refl _
      · exact Nat.le_trans (h.passed m' hm) honward
    onward := List.pairwise_cons.2 ⟨fun earlier hm => Nat.le_trans (h.passed earlier hm) honward, h.onward⟩
    marks := by
      intro m' hm
      rcases List.mem_cons.1 hm with rfl | hm
      · exact hmark
      · exact h.marks m' hm }

theorem leads_began (s : State) : s.Leads ts (s.mark (.began s.cursor)) :=
  leads_log (.began s.cursor) trivial (Nat.le_refl _) id

theorem leads_found {start : Nat} (h : start < s.cursor) : s.Leads ts (s.mark (.found start s.cursor)) :=
  leads_log (.found start s.cursor) h (Nat.le_refl _) id

theorem Behind.leads (h : s.Behind ts t) : s.Leads ts (s.mark (.lookedBack s.cursor)) := by
  obtain ⟨passed, us, -, hcursor⟩ := h
  exact leads_log (.lookedBack s.cursor) (by rw [Mark.Sound, hcursor]; omega) (Nat.le_refl _) id

theorem Before.leads (h : s.Before ts (t :: us)) : s.Leads ts s.move := by
  have hlength := h.cursor_add
  rw [List.length_cons] at hlength
  exact leads_log (.moved (s.cursor + 1)) trivial (Nat.le_succ _) fun _ => by rw [Mark.cursor]; omega

end State

/-! ### Single steps -/

section

variable {ts us : List Token} {t : Token} {s : State} {kinds : Kind → Bool} {problem : Problem}

theorem comes_peek (h : s.Before ts us) : Comes (peek ts) s (.ok us.head?) s := by
  rw [← h.getElem?]
  rfl

theorem comes_previous (h : s.Behind ts t) : Comes (previous ts) s (.ok t) (s.mark (.lookedBack s.cursor)) := by
  obtain ⟨passed, us, rfl, hcursor⟩ := h
  have hget : (passed ++ t :: us)[passed.length]? = some t := by simp
  refine (Comes.get s).bind ((Comes.set s _).bind ?_)
  simp only [hcursor, hget]
  exact .pure t _

theorem comes_advance (h : s.Before ts (t :: us)) : Comes (advance ts) s (.ok ()) s.move := by
  have hlength := h.cursor_add
  rw [List.length_cons] at hlength
  refine (Comes.get s).bind ?_
  simp only [if_pos (show s.cursor < ts.length by omega)]
  exact .set s _

theorem comes_accept (h : s.Before ts (t :: us)) (hkind : kinds t.kind = true) :
    Comes (accept ts kinds) s (.ok true) s.move := by
  refine (comes_peek h).bind ?_
  simp only [List.head?_cons, hkind, if_true]
  exact (comes_advance h).bind (.pure true _)

theorem comes_accept_not (h : s.Before ts us) (hkind : ∀ t ∈ us.head?, kinds t.kind = false) :
    Comes (accept ts kinds) s (.ok false) s := by
  refine (comes_peek h).bind ?_
  cases us with
  | nil => exact .pure false s
  | cons t us =>
      simp only [List.head?_cons, hkind t rfl]
      exact .pure false s

/-- Every token ends at an offset that can be counted on. -/
def Countable (ts : List Token) : Prop :=
  ∀ t ∈ ts, t.span.stop < greatestOffset

instance (ts : List Token) : Decidable (Countable ts) :=
  inferInstanceAs (Decidable (∀ t ∈ ts, t.span.stop < greatestOffset))

theorem refuse_misses (place : Place) (problem : Problem) (s : State) :
    Misses (refuse place problem : Walk α) s ⟨place, problem⟩ s := rfl

theorem refuseAtEnd_misses (hts : Countable ts) (problem : Problem) (s : State) :
    Misses (refuseAtEnd ts problem : Walk α) s ⟨endPlace ts, problem⟩ s := by
  have hend : Comes (endSpan ts) s (.ok (endPlace ts).span) s := by
    rw [endSpan, endPlace]
    cases hlast : ts.getLast? with
    | none => exact .pure _ s
    | some t =>
        simp only [if_pos (hts t (List.mem_of_getLast? hlast))]
        exact .pure _ s
  have hline : lastLine ts = (endPlace ts).line := by
    rw [lastLine, endPlace]
    cases ts.getLast? <;> rfl
  refine hend.bind ?_
  rw [hline]
  exact refuse_misses _ problem s

end

/-! ### Doing what a parser does -/

/-- From a state, a walk does what a parser does that gives the answer: it ends with the same fault, or with a value that matches the one of the answer, and leaves the cursor before the tokens that are left. -/
def PerformsAs (ts : List Token) (s : State) (matches' : State → β → α → Prop) (w : Walk β) {n : Nat}
    (answer : Answer α n) : Prop :=
  (∃ m s', answer = .error m ∧ Misses w s m s' ∧ s.Leads ts s') ∨
  ∃ value rest shorter s' value', answer = .ok ⟨value, rest, shorter⟩ ∧ Comes w s (.ok value') s' ∧
    matches' s' value' value ∧ s.Leads ts s' ∧ s'.Before ts rest

/-- A walk does what a parser does, with the same value. -/
abbrev Performs (ts : List Token) (s : State) (w : Walk α) {n : Nat} (answer : Answer α n) : Prop :=
  PerformsAs ts s (fun _ value' value => value = value') w answer

namespace PerformsAs

variable {ts us rest : List Token} {t : Token} {γ : Type} {s s' : State} {matches' : State → β → α → Prop} {n : Nat}
  {answer : Answer α n} {w : Walk γ} {f : γ → Walk β}

theorem fail {m : Misparse} {w : Walk β} (h : Misses w s m s') (hleads : s.Leads ts s') :
    PerformsAs ts s matches' w (.error m : Answer α n) :=
  .inl ⟨m, s', rfl, h, hleads⟩

theorem refused (place : Place) (problem : Problem) :
    PerformsAs ts s matches' (refuse place problem) (.error ⟨place, problem⟩ : Answer α n) :=
  fail (refuse_misses place problem s) .rfl

theorem ends {value : α} {value' : β} {w : Walk β} (shorter : rest.length < n) (h : Comes w s (.ok value') s')
    (hmatches : matches' s' value' value) (hleads : s.Leads ts s') (hrest : s'.Before ts rest) :
    PerformsAs ts s matches' w (.ok ⟨value, rest, shorter⟩ : Answer α n) :=
  .inr ⟨value, rest, shorter, s', value', rfl, h, hmatches, hleads, hrest⟩

theorem done {value : α} {value' : β} (shorter : rest.length < n) (hmatches : matches' s value' value)
    (h : s.Before ts rest) : PerformsAs ts s matches' (pure value') (.ok ⟨value, rest, shorter⟩ : Answer α n) :=
  ends shorter (.pure value' s) hmatches .rfl h

/-- A first part is over, and the rest does what the parser does. -/
theorem after {a : γ} (hfirst : Comes w s (.ok a) s') (hleads : s.Leads ts s')
    (h : PerformsAs ts s' matches' (f a) answer) : PerformsAs ts s matches' (w >>= f) answer := by
  obtain ⟨m, s'', rfl, hmisses, hleads'⟩ | ⟨value, rest, shorter, s'', value', rfl, hcomes, hmatches, hleads', hrest⟩ := h
  · exact .inl ⟨m, s'', rfl, hfirst.bind hmisses, hleads.trans hleads'⟩
  · exact .inr ⟨value, rest, shorter, s'', value', rfl, hfirst.bind hcomes, hmatches, hleads.trans hleads', hrest⟩

/-- A first part fails. -/
theorem failed {m : Misparse} (h : Misses w s m s') (hleads : s.Leads ts s') :
    PerformsAs ts s matches' (w >>= f) (.error m : Answer α n) :=
  fail h.bind_error hleads

/-- A first part does what another parser does, which is then at fault for both, or has its value and its rest used. -/
theorem followed {δ : Type} {k : Nat} {first : Answer δ k} {matched : State → γ → δ → Prop}
    (h : PerformsAs ts s matched w first) (hfault : ∀ m, first = .error m → answer = .error m)
    (hthen : ∀ value rest shorter s' value', first = .ok ⟨value, rest, shorter⟩ → matched s' value' value →
      s'.Before ts rest → PerformsAs ts s' matches' (f value') answer) :
    PerformsAs ts s matches' (w >>= f) answer := by
  obtain ⟨m, s', hfirst, hmisses, hleads⟩ | ⟨value, rest, shorter, s', value', hfirst, hcomes, hmatched, hleads, hrest⟩ := h
  · rw [hfault m hfirst]
    exact failed hmisses hleads
  · exact after hcomes hleads (hthen value rest shorter s' value' hfirst hmatched hrest)

/-- A walk does what another parser does, of which both have the same rest. -/
theorem relayed {δ : Type} {k : Nat} {w : Walk β} {first : Answer δ k} {matched : State → β → δ → Prop}
    (h : PerformsAs ts s matched w first) (hfault : ∀ m, first = .error m → answer = .error m)
    (hthen : ∀ value rest shorter s' value', first = .ok ⟨value, rest, shorter⟩ → matched s' value' value →
      ∃ value'', Yields answer value'' rest ∧ matches' s' value' value'') :
    PerformsAs ts s matches' w answer := by
  obtain ⟨m, s', hfirst, hmisses, hleads⟩ | ⟨value, rest, shorter, s', value', hfirst, hcomes, hmatched, hleads, hrest⟩ := h
  · rw [hfault m hfirst]
    exact fail hmisses hleads
  · obtain ⟨value'', ⟨shorter', rfl⟩, hmatches⟩ := hthen value rest shorter s' value' hfirst hmatched
    exact ends shorter' hcomes hmatches hleads hrest

/-- A walk does what another parser does, whose value and rest are given as they are. -/
theorem handedOn {k : Nat} {w : Walk α} {first : Answer α k} (h : Performs ts s w first)
    (hfault : ∀ m, first = .error m → answer = .error m)
    (hyields : ∀ p, first = .ok p → Yields answer p.value p.rest) : Performs ts s w answer := by
  refine relayed h hfault ?_
  rintro value rest shorter s' _ hfirst rfl
  exact ⟨_, hyields _ hfirst, rfl⟩

theorem look {f : Option Token → Walk β} (h : s.Before ts us) (h' : PerformsAs ts s matches' (f us.head?) answer) :
    PerformsAs ts s matches' (peek ts >>= f) answer :=
  after (comes_peek h) .rfl h'

theorem lookBack {f : Token → Walk β} (h : s.Behind ts t)
    (h' : PerformsAs ts (s.mark (.lookedBack s.cursor)) matches' (f t) answer) :
    PerformsAs ts s matches' (previous ts >>= f) answer :=
  after (comes_previous h) h.leads h'

/-- The token that has just been passed is read. -/
theorem passed {f : Token → Walk β} (h : s.Before ts (t :: us)) (h' : PerformsAs ts s.pass matches' (f t) answer) :
    PerformsAs ts s.move matches' (previous ts >>= f) answer :=
  lookBack h.behind h'

section

variable {kinds : Kind → Bool} {yes no : Walk β}

theorem accepted (h : s.Before ts (t :: us)) (hkind : kinds t.kind = true)
    (h' : PerformsAs ts s.move matches' yes answer) :
    PerformsAs ts s matches' (do if ← accept ts kinds then yes else no) answer := by
  refine after (comes_accept h hkind) h.leads ?_
  rw [if_pos rfl]
  exact h'

theorem not_accepted (h : s.Before ts us) (hkind : ∀ t ∈ us.head?, kinds t.kind = false)
    (h' : PerformsAs ts s matches' no answer) :
    PerformsAs ts s matches' (do if ← accept ts kinds then yes else no) answer := by
  refine after (comes_accept_not h hkind) .rfl ?_
  rw [if_neg Bool.false_ne_true]
  exact h'

end

section

variable {kind : Kind} {problem : Problem} {f : Token → Walk β}

theorem consumed (h : s.Before ts (t :: us)) (hkind : t.kind = kind)
    (h' : PerformsAs ts s.pass matches' (f t) answer) :
    PerformsAs ts s matches' (consume ts kind problem >>= f) answer := by
  have hconsume : Comes (consume ts kind problem) s (.ok t) s.pass := by
    have haccept : Comes (accept ts (· == kind)) s (.ok true) s.move := comes_accept h (beq_iff_eq.2 hkind)
    rw [consume]
    refine haccept.bind ?_
    rw [if_pos rfl]
    exact comes_previous h.behind
  exact after hconsume (h.leads.trans h.behind.leads) h'

theorem not_consumed (h : s.Before ts (t :: us)) (hkind : t.kind ≠ kind) :
    PerformsAs ts s matches' (consume ts kind problem >>= f) (.error ⟨t.place, problem⟩ : Answer α n) := by
  have haccept : Comes (accept ts (· == kind)) s (.ok false) s :=
    comes_accept_not h (forall_head (beq_eq_false_iff_ne.2 hkind))
  refine failed ?_ (.rfl : s.Leads ts s)
  rw [consume, refuseHere]
  refine haccept.bind ?_
  rw [if_neg Bool.false_ne_true]
  exact (comes_peek h).bind (refuse_misses t.place problem s)

theorem not_consumed_end (hts : Countable ts) (h : s.Before ts []) :
    PerformsAs ts s matches' (consume ts kind problem >>= f) (.error ⟨endPlace ts, problem⟩ : Answer α n) := by
  refine failed ?_ (.rfl : s.Leads ts s)
  rw [consume, refuseHere]
  refine (comes_accept_not h (by simp)).bind ?_
  rw [if_neg Bool.false_ne_true]
  exact (comes_peek h).bind (refuseAtEnd_misses hts problem s)

end

/-- A walk between the marks of a beginning and an end. -/
theorem watched (hus : s.Before ts us) {w : Walk α} {answer : Answer α us.length}
    (h : Performs ts (s.mark (.began s.cursor)) w answer) :
    Performs ts s (do let start ← noteBegun; let value ← w; noteFound start; return value) answer := by
  have hbegun : Comes noteBegun s (.ok s.cursor) (s.mark (.began s.cursor)) := rfl
  refine after hbegun (State.leads_began s) ?_
  obtain ⟨m, s', rfl, hmisses, hleads⟩ | ⟨value, rest, shorter, s', value', rfl, hcomes, rfl, hleads, hrest⟩ := h
  · exact failed hmisses hleads
  · have hlength := hus.cursor_add
    have hlength' := hrest.cursor_add
    have hfound : Comes (noteFound s.cursor) s' (.ok ()) (s'.mark (.found s.cursor s'.cursor)) := rfl
    exact after hcomes hleads (after hfound (State.leads_found (by omega)) (done shorter rfl hrest))

end PerformsAs

end Blockscript.Grammar.Cursor
