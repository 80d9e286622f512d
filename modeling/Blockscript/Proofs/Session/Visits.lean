import Blockscript.Proofs.Grammar.Nodes
import Blockscript.Session.Eval

/-!
# What a run comes to

A run goes from a statement to the expressions in it and from an operation to its operands, each after everything before it has succeeded. So it comes to some of the nodes of its program, and to each of them in a session of its own.

What a run does is done at one of these nodes: if a node does something only by itself or by having a node right below do it, then going down from node to node ends at one that does it by itself.
-/

namespace Blockscript

/-- One of some statements has its turn, after those before it have succeeded. -/
inductive Stmt.Turn : List Stmt → Session → Stmt → Session → Prop
  | first {stmt : Stmt} {rest : List Stmt} {s : Session} : Turn (stmt :: rest) s stmt s
  | later {before stmt : Stmt} {rest : List Stmt} {s s' : Session} {values : List Value}
      (done : (before.exec s).result = .ok values) (h : Turn rest (before.exec s).session stmt s') :
      Turn (before :: rest) s stmt s'

theorem Stmt.Turn.mem {program : List Stmt} {stmt : Stmt} {s s' : Session} (h : Turn program s stmt s') :
    stmt ∈ program := by
  induction h with
  | first => exact List.mem_cons_self
  | later _ _ ih => exact List.mem_cons_of_mem _ ih

namespace Node

/-- To run one node in a session, another one right below it is run in a session. -/
inductive Runs : Node → Session → Node → Session → Prop
  | grouping {inner : Expr} {span : Span} {s : Session} : Runs (.expr (.grouping inner span)) s (.expr inner) s
  | operand {operator : Token} {right : Expr} {span : Span} {s : Session} :
      Runs (.expr (.unary operator right span)) s (.expr right) s
  | left {left : Expr} {operator : Token} {right : Expr} {span : Span} {s : Session} :
      Runs (.expr (.binary left operator right span)) s (.expr left) s
  | right {left : Expr} {operator : Token} {right : Expr} {span : Span} {s : Session} {value : Value}
      (done : (left.eval s).result = .ok value) :
      Runs (.expr (.binary left operator right span)) s (.expr right) (left.eval s).session
  | value {name : Token} {inner : Expr} {span : Span} {s : Session} :
      Runs (.expr (.assign name inner span)) s (.expr inner) s
  | expression {e : Expr} {span : Span} {s : Session} : Runs (.stmt (.expression e span)) s (.expr e) s
  | initializer {name : Token} {e : Expr} {span : Span} {s : Session} :
      Runs (.stmt (.var name (some e) span)) s (.expr e) s
  | block {body : List Stmt} {stmt : Stmt} {span : Span} {s s' : Session} (turn : Stmt.Turn body s.enter stmt s') :
      Runs (.stmt (.block body span)) s (.stmt stmt) s'

/-- The nodes that the run of a program comes to, and the sessions in which it does. -/
inductive Visited (program : List Stmt) (s : Session) : Node → Session → Prop
  | root {stmt : Stmt} {s' : Session} (turn : Stmt.Turn program s stmt s') : Visited program s (.stmt stmt) s'
  | child {parent node : Node} {s' s'' : Session} (above : Visited program s parent s')
      (h : parent.Runs s' node s'') : Visited program s node s''

variable {program : List Stmt} {node child : Node} {s s' : Session}

theorem Runs.mem_children (h : node.Runs s child s') : child ∈ node.children := by
  cases h with
  | right _ => exact List.mem_cons_of_mem _ List.mem_cons_self
  | block turn => exact List.mem_map_of_mem turn.mem
  | _ => exact List.mem_cons_self

theorem Runs.sizeOf_lt (h : node.Runs s child s') : sizeOf child < sizeOf node := by
  cases h with
  | block turn =>
      have hlt := List.sizeOf_lt_of_mem turn.mem
      simp only [stmt.sizeOf_spec, Stmt.block.sizeOf_spec]
      omega
  | _ =>
      simp only [expr.sizeOf_spec, stmt.sizeOf_spec, Expr.grouping.sizeOf_spec, Expr.unary.sizeOf_spec,
        Expr.binary.sizeOf_spec, Expr.assign.sizeOf_spec, Stmt.expression.sizeOf_spec, Stmt.var.sizeOf_spec,
        Option.some.sizeOf_spec]
      omega

theorem Visited.occurs (h : Visited program s node s') : Occurs program node := by
  induction h with
  | root turn => exact .root turn.mem
  | child _ hruns ih => exact .child ih hruns.mem_children

/-- What a node does itself or has a node right below do, is done by some node itself. A node is larger than the ones right below it, so the way down ends. -/
theorem Visited.exists_source {P Q : Node → Session → Prop}
    (step : ∀ node s, P node s → Q node s ∨ ∃ child s', node.Runs s child s' ∧ P child s') {node : Node} {s' : Session}
    (hnode : Visited program s node s') (h : P node s') : ∃ source s'', Visited program s source s'' ∧ Q source s'' := by
  rcases step node s' h with hhere | ⟨child, s'', hruns, hchild⟩
  · exact ⟨node, s', hnode, hhere⟩
  · have hlt := hruns.sizeOf_lt
    exact exists_source step (hnode.child hruns) hchild
termination_by sizeOf node

end Node

end Blockscript
