import Blockscript.Proofs.Grammar.Programs
import Blockscript.Proofs.Scan.Excerpts

/-!
# The nodes of a program

The expressions and statements of a program are its nodes. The tokens of a program contain those of every node next to each other, and the tokens of a node contain those of its children one after another. An expression below an operator is derived in a tighter stratum, but what is derived in any stratum is an expression on its own.

Where tokens lie apart and in order, so do the ranges of nodes: children lie inside their parent and do not overlap.
-/

namespace Blockscript

open Grammar

/-- An expression or a statement. -/
inductive Node where
  | expr (e : Expr)
  | stmt (s : Stmt)

namespace Node

def span : Node → Span
  | expr e => e.span
  | stmt s => s.span

def move (m : Move) : Node → Node
  | expr e => expr (m.expr e)
  | stmt s => stmt (m.stmt s)

/-- The nodes right below a node, in the order of the source. -/
def children : Node → List Node
  | expr (.literal _ _) => []
  | expr (.grouping inner _) => [expr inner]
  | expr (.unary _ right _) => [expr right]
  | expr (.binary left _ right _) => [expr left, expr right]
  | expr (.reference _) => []
  | expr (.assign _ value _) => [expr value]
  | stmt (.expression e _) => [expr e]
  | stmt (.var _ initializer _) => initializer.toList.map expr
  | stmt (.block body _) => body.map stmt

/-- The nodes of a program at any depth. -/
inductive Occurs (program : List Stmt) : Node → Prop
  | root {s : Stmt} (h : s ∈ program) : Occurs program (stmt s)
  | child {parent node : Node} (above : Occurs program parent) (h : node ∈ parent.children) : Occurs program node

/-- The tokens that a node is parsed from on its own. -/
def From (ts : List Token) : Node → Prop
  | expr e => Derives .assignment ts e
  | stmt s => Segments [ts] [s]

/-- The tokens of nodes one after another, with other tokens around them. -/
inductive Spread : List Token → List Node → Prop
  | nil {ts : List Token} : Spread ts []
  | skip {t : Token} {ts : List Token} {nodes : List Node} (h : Spread ts nodes) : Spread (t :: ts) nodes
  | next {ts rest : List Token} {node : Node} {nodes : List Node} (first : node.From ts) (others : Spread rest nodes) :
      Spread (ts ++ rest) (node :: nodes)

end Node

/-! ### Tokens of nodes -/

namespace Grammar

theorem Derives.of_chain {level : Level} {ts : List Token} {e : Expr} (h : Derives (.chain level) ts e) :
    Derives .assignment ts e := by
  have hequality : ∀ {ts e}, Derives (.chain .equality) ts e → Derives .assignment ts e :=
    fun h => .loosest (.operand .or h)
  have hcomparison : ∀ {ts e}, Derives (.chain .comparison) ts e → Derives .assignment ts e :=
    fun h => hequality (.operand .equality h)
  have hterm : ∀ {ts e}, Derives (.chain .term) ts e → Derives .assignment ts e :=
    fun h => hcomparison (.operand .comparison h)
  cases level with
  | or => exact .loosest h
  | equality => exact hequality h
  | comparison => exact hcomparison h
  | term => exact hterm h
  | factor => exact hterm (.operand .term h)

/-- What is derived in any stratum is an expression on its own. -/
theorem Derives.toAssignment {stratum : Stratum} {ts : List Token} {e : Expr} (h : Derives stratum ts e) :
    Derives .assignment ts e := by
  have hunary : ∀ {ts e}, Derives .unary ts e → Derives .assignment ts e :=
    fun h => Derives.of_chain (.operand .factor h)
  cases stratum with
  | assignment => exact h
  | chain level => exact h.of_chain
  | unary => exact hunary h
  | primary => exact hunary (.tightest h)

end Grammar

namespace Node

variable {ts rest : List Token} {node : Node} {nodes : List Node}

theorem Spread.last {stratum : Stratum} {e : Expr} (h : Derives stratum ts e) (rest : List Token) :
    Spread (ts ++ rest) [expr e] := by
  have hfirst : From ts (expr e) := h.toAssignment
  exact .next hfirst .nil

theorem spread_expr {stratum : Stratum} {e : Expr} (h : Derives stratum ts e) : Spread ts (children (expr e)) := by
  induction h with
  | assign _ _ right _ =>
      have hvalue := Spread.last right []
      rw [List.append_nil] at hvalue
      exact .skip (.skip hvalue)
  | loosest _ ih | operand _ _ ih | tightest _ ih => exact ih
  | @binary _ _ _ ls _ _ l _ _ left _ right _ _ =>
      have hfirst : From ls (expr l) := left.toAssignment
      have hsecond := Spread.last right []
      rw [List.append_nil] at hsecond
      exact .next hfirst (.skip hsecond)
  | unary _ right _ =>
      have hoperand := Spread.last right []
      rw [List.append_nil] at hoperand
      exact .skip hoperand
  | literal _ | name _ => exact .nil
  | grouping _ _ inner _ => exact .skip (Spread.last inner _)

theorem spread_segments {segments : List (List Token)} {p : List Stmt} (h : Segments segments p) :
    Spread segments.flatten (p.map stmt) := by
  induction h with
  | nil => exact .nil
  | declaration opens target value closes _ ih => exact .next (.declaration opens target value closes .nil) ih
  | block opens inner closes _ _ ih => exact .next (.block opens inner closes .nil) ih
  | closed tree closes _ ih => exact .next (.closed tree closes .nil) ih
  | bare tree _ _ ih => exact .next (.bare tree (by simp) .nil) ih

theorem Spread.append (h : Spread ts nodes) (rest : List Token) : Spread (ts ++ rest) nodes := by
  induction h with
  | nil => exact .nil
  | skip _ ih => exact .skip ih
  | next first _ ih =>
      rw [List.append_assoc]
      exact .next first ih

theorem spread_stmt {s : Stmt} (h : Segments [ts] [s]) : Spread ts (children (stmt s)) := by
  cases h with
  | declaration _ _ value _ _ =>
      refine .skip (.skip ?_)
      cases value with
      | absent => exact .nil
      | present _ right => exact .skip (Spread.last right _)
  | block _ inner _ _ => exact .skip ((spread_segments inner).append _)
  | closed tree _ _ => exact Spread.last tree _
  | bare tree _ _ =>
      have hwhole := Spread.last tree []
      rwa [List.append_nil] at hwhole

theorem Spread.exists_from (h : Spread ts nodes) (hnode : node ∈ nodes) :
    ∃ before ps after, ts = before ++ ps ++ after ∧ node.From ps := by
  induction h with
  | nil => cases hnode
  | @skip t ts nodes _ ih =>
      obtain ⟨before, ps, after, rfl, hfrom⟩ := ih hnode
      exact ⟨t :: before, ps, after, rfl, hfrom⟩
  | @next ps rest first nodes hfirst _ ih =>
      rcases List.mem_cons.1 hnode with rfl | hnode
      · exact ⟨[], ps, rest, rfl, hfirst⟩
      · obtain ⟨before, qs, after, rfl, hfrom⟩ := ih hnode
        exact ⟨ps ++ before, qs, after, by simp, hfrom⟩

namespace From

theorem spread (h : node.From ts) : Spread ts node.children := by
  cases node with
  | expr e => exact spread_expr h
  | stmt s => exact spread_stmt h

theorem ne_nil (h : node.From ts) : ts ≠ [] := by
  cases node with
  | expr e => exact Derives.ne_nil h
  | stmt s =>
      cases h with
      | declaration _ _ _ _ _ | block _ _ _ _ | closed _ _ _ => simp
      | bare tree _ _ => exact tree.ne_nil

theorem span_eq (h : node.From ts) : node.span = cover ts := by
  cases node with
  | expr e => exact Derives.span_eq h
  | stmt s =>
      cases h with
      | declaration _ _ _ _ _ | block _ _ _ _ | closed _ _ _ | bare _ _ _ => rfl

theorem move (m : Move) (h : node.From ts) : (node.move m).From (ts.map m.token) := by
  cases node with
  | expr e => exact Derives.move m h
  | stmt s => exact Segments.move m h

theorem unique {m n : Move} (h : node.From ts) (h' : ((node.move m).move n).From ts) :
    (node.move m).move n = node := by
  cases node with
  | expr e => exact congrArg expr (Derives.unique h' h)
  | stmt s => exact congrArg stmt (List.cons.inj (Segments.unique h' h rfl).2).1

end From

/-- The tokens of a node stand next to each other among those of the program. -/
theorem Occurs.exists_from {program : List Stmt} (h : Occurs program node) (hparse : parseProgram ts = .ok program) :
    ∃ before ps after, ts = before ++ ps ++ after ∧ node.From ps := by
  induction h with
  | root hroot =>
      obtain ⟨segments, rfl, hsegments⟩ := parseProgram_eq_ok_iff.1 hparse
      exact (spread_segments hsegments).exists_from (List.mem_map_of_mem hroot)
  | child _ hchild ih =>
      obtain ⟨before, ps, after, rfl, hparent⟩ := ih
      obtain ⟨before', qs, after', rfl, hfrom⟩ := hparent.spread.exists_from hchild
      exact ⟨before ++ before', qs, after' ++ after, by simp, hfrom⟩

end Node

/-! ### Ranges of nodes -/

theorem Grammar.exists_cover {ts : List Token} (hts : ts ≠ []) :
    ∃ first ∈ ts, ∃ last ∈ ts, cover ts = first.span.through last.span := by
  refine ⟨ts.head hts, List.head_mem hts, ts.getLast hts, List.getLast_mem hts, ?_⟩
  rw [cover, List.head?_eq_some_head hts, List.getLast?_eq_some_getLast hts]

/-- Tokens with ranges that are not empty and follow one another. -/
structure Ordered (ts : List Token) : Prop where
  nonempty : ∀ t ∈ ts, t.span.start < t.span.stop
  apart : ts.Pairwise fun t u => t.span.stop ≤ u.span.start

namespace Ordered

variable {ls rs before ts after : List Token}

theorem left (h : Ordered (ls ++ rs)) : Ordered ls :=
  ⟨fun t ht => h.nonempty t (List.mem_append_left rs ht), (List.pairwise_append.1 h.apart).1⟩

theorem right (h : Ordered (ls ++ rs)) : Ordered rs :=
  ⟨fun t ht => h.nonempty t (List.mem_append_right ls ht), (List.pairwise_append.1 h.apart).2.1⟩

theorem tail {t : Token} (h : Ordered (t :: ts)) : Ordered ts :=
  ⟨fun u hu => h.nonempty u (List.mem_cons_of_mem t hu), (List.pairwise_cons.1 h.apart).2⟩

theorem mem_cover {t : Token} (h : Ordered ts) (ht : t ∈ ts) :
    (cover ts).start ≤ t.span.start ∧ t.span.stop ≤ (cover ts).stop := by
  induction ts generalizing t with
  | nil => cases ht
  | cons u more ih =>
      obtain ⟨hbefore, -⟩ := List.pairwise_cons.1 h.apart
      by_cases hne : more = []
      · subst hne
        obtain rfl := List.mem_singleton.1 ht
        exact ⟨Nat.le_refl _, Nat.le_refl _⟩
      rw [cover_cons hne, Span.start_through, Span.stop_through]
      rcases List.mem_cons.1 ht with rfl | ht
      · obtain ⟨v, hv⟩ := List.exists_mem_of_ne_nil more hne
        have hstop := (ih h.tail hv).2
        have hv' := h.nonempty v (List.mem_cons_of_mem _ hv)
        have hle := hbefore v hv
        exact ⟨Nat.le_refl _, by omega⟩
      · have hu := h.nonempty u List.mem_cons_self
        have hle := hbefore t ht
        exact ⟨by omega, (ih h.tail ht).2⟩

theorem start_cover_lt (h : Ordered ts) (hts : ts ≠ []) : (cover ts).start < (cover ts).stop := by
  obtain ⟨t, ht⟩ := List.exists_mem_of_ne_nil ts hts
  have hcover := h.mem_cover ht
  have hlt := h.nonempty t ht
  omega

theorem cover_within (h : Ordered (before ++ ts ++ after)) (hts : ts ≠ []) :
    (cover (before ++ ts ++ after)).start ≤ (cover ts).start ∧
      (cover ts).stop ≤ (cover (before ++ ts ++ after)).stop := by
  obtain ⟨first, hfirst, last, hlast, hcover⟩ := exists_cover hts
  have hsub : ts ⊆ before ++ ts ++ after := (List.infix_append before ts after).subset
  rw [hcover, Span.start_through, Span.stop_through]
  exact ⟨(h.mem_cover (hsub hfirst)).1, (h.mem_cover (hsub hlast)).2⟩

theorem cover_before (h : Ordered (ls ++ rs)) (hls : ls ≠ []) (hts : ts ≠ []) (hsub : ts ⊆ rs) :
    (cover ls).stop ≤ (cover ts).start := by
  obtain ⟨_, _, last, hlast, hcover⟩ := exists_cover hls
  obtain ⟨first, hfirst, _, _, hcover'⟩ := exists_cover hts
  rw [hcover, hcover', Span.stop_through, Span.start_through]
  exact (List.pairwise_append.1 h.apart).2.2 last hlast first (hsub hfirst)

end Ordered

namespace Node

variable {ts : List Token} {node : Node} {nodes : List Node}

/-- Nodes that stand one after another. -/
def Disjoint (nodes : List Node) : Prop :=
  nodes.Pairwise fun left right => left.span.stop ≤ right.span.start

theorem Spread.disjoint (h : Spread ts nodes) (hts : Ordered ts) : Disjoint nodes := by
  induction h with
  | nil => exact .nil
  | skip _ ih => exact ih hts.tail
  | next hfirst hothers ih =>
      refine List.pairwise_cons.2 ⟨?_, ih hts.right⟩
      intro other hother
      obtain ⟨before, ps, after, rfl, hfrom⟩ := hothers.exists_from hother
      rw [hfirst.span_eq, hfrom.span_eq]
      exact hts.cover_before hfirst.ne_nil hfrom.ne_nil (List.infix_append before ps after).subset

theorem From.within (h : node.From ts) (hts : Ordered ts) {child : Node} (hchild : child ∈ node.children) :
    node.span.start ≤ child.span.start ∧ child.span.stop ≤ node.span.stop := by
  obtain ⟨before, ps, after, rfl, hfrom⟩ := h.spread.exists_from hchild
  rw [h.span_eq, hfrom.span_eq]
  exact hts.cover_within hfrom.ne_nil

/-- A text is read as this node and nothing else. -/
def Reads (text : String) : Node → Prop
  | expr e => ∃ ts, scan text = .ok ts ∧ parseExpression ts = .ok e
  | stmt s => ∃ ts, scan text = .ok ts ∧ parseProgram ts = .ok [s]

theorem From.reads {text : String} (h : node.From ts) (hscan : scan text = .ok ts) : node.Reads text := by
  cases node with
  | expr e => exact ⟨ts, hscan, parseExpression_ok_iff.2 h⟩
  | stmt s => exact ⟨ts, hscan, parseProgram_eq_ok_iff.2 ⟨[ts], by simp, h⟩⟩

/-- The range of a node holds its own text. Read alone it is the same node, with the lines and characters before it taken off; as it comes back when they are put on again, none of its places lies before its range. Its children stand in the range one after another. -/
structure Denotes (node : Node) (source : String) : Prop where
  nonempty : node.span.start < node.span.stop
  inside : node.span.stop ≤ source.length
  alone : (node.move (.back (linesBefore source node.span.start) node.span.start)).Reads (excerpt source node.span)
  restored : (node.move (.back (linesBefore source node.span.start) node.span.start)).move
    (.forward (linesBefore source node.span.start) node.span.start) = node
  within : ∀ child ∈ node.children, node.span.start ≤ child.span.start ∧ child.span.stop ≤ node.span.stop
  disjoint : Disjoint node.children

end Node

theorem scan_ordered {source : String} {ts : List Token} (h : scan source = .ok ts) :
    Ordered ts ∧ ∀ t ∈ ts, t.span.stop ≤ source.length := by
  obtain ⟨parts, hjoin, hcut, rfl⟩ := scan_eq_ok_iff.1 h
  have hstands : ∀ t ∈ Scan.tokensFrom 1 0 parts, t.Stands source := fun t ht => stands_of_mem hjoin hcut ht
  exact ⟨⟨fun t ht => (hstands t ht).nonempty, Scan.tokensFrom_pairwise parts⟩, fun t ht => (hstands t ht).inside⟩

theorem Node.From.denotes {source : String} {before ts after : List Token} {node : Node} (h : node.From ts)
    (hscan : scan source = .ok (before ++ ts ++ after)) : node.Denotes source := by
  obtain ⟨hordered, hinside⟩ := scan_ordered hscan
  have hts : Ordered ts := hordered.left.right
  obtain ⟨us, hus, hmoved⟩ := scan_excerpt h.ne_nil hscan
  rw [← h.span_eq] at hus hmoved
  have hback : ts.map (Move.back (linesBefore source node.span.start) node.span.start).token = us := by
    rw [hmoved, List.map_map]
    exact List.map_id'' (Move.back_forward_token _ _) us
  have halone := h.move (Move.back (linesBefore source node.span.start) node.span.start)
  rw [hback] at halone
  have hrestored := halone.move (Move.forward (linesBefore source node.span.start) node.span.start)
  rw [← hmoved] at hrestored
  refine ⟨?_, ?_, halone.reads hus, h.unique hrestored, fun child hchild => h.within hts hchild, h.spread.disjoint hts⟩
  · rw [h.span_eq]
    exact hts.start_cover_lt h.ne_nil
  · obtain ⟨_, _, last, hlast, hcover⟩ := exists_cover h.ne_nil
    rw [h.span_eq, hcover]
    exact hinside last ((List.infix_append before ts after).subset hlast)

/-- **Ranges denote their own text.** Every expression and every statement of a parsed program, at any depth, covers a text that is read as that expression or that statement alone. -/
theorem parsed_nodes_denote_excerpts {source : String} {ts : List Token} {program : List Stmt}
    (hscan : scan source = .ok ts) (hparse : parseProgram ts = .ok program) :
    (∀ node, Node.Occurs program node → node.Denotes source) ∧ Node.Disjoint (program.map .stmt) := by
  constructor
  · intro node hoccurs
    obtain ⟨before, ps, after, rfl, hfrom⟩ := hoccurs.exists_from hparse
    exact hfrom.denotes hscan
  · obtain ⟨segments, rfl, hsegments⟩ := parseProgram_eq_ok_iff.1 hparse
    exact (Node.spread_segments hsegments).disjoint (scan_ordered hscan).1

theorem negation_in_block_denotes_line :
    let minus : Token := ⟨.subtract, "-", ⟨2, ⟨2, 3⟩⟩, none⟩
    let a : Token := ⟨.identifier, "a", ⟨2, ⟨3, 4⟩⟩, none⟩
    let ts : List Token := [⟨.leftBrace, "\x7b", ⟨1, ⟨0, 1⟩⟩, none⟩, minus, a, ⟨.semicolon, ";", ⟨2, ⟨4, 5⟩⟩, none⟩,
      ⟨.rightBrace, "\x7d", ⟨2, ⟨5, 6⟩⟩, none⟩]
    let negation : Expr := .ofUnary minus (.reference a)
    let program : List Stmt := [.block [.expression negation ⟨2, 5⟩] ⟨0, 6⟩]
    scan "\x7b\n-a;\x7d" = .ok ts ∧ parseProgram ts = .ok program ∧ Node.Occurs program (.expr negation) ∧
      (Node.expr negation).Denotes "\x7b\n-a;\x7d" := by
  intro minus a ts negation program
  have hscan : scan "\x7b\n-a;\x7d" = .ok ts := by decide +kernel
  have hparse : parseProgram ts = .ok program := by decide +kernel
  have hoccurs : Node.Occurs program (.expr negation) :=
    .child (.child (.root List.mem_cons_self) List.mem_cons_self) List.mem_cons_self
  exact ⟨hscan, hparse, hoccurs, (parsed_nodes_denote_excerpts hscan hparse).1 _ hoccurs⟩

end Blockscript
