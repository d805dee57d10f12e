import NilGuard.Go.Tree

/-!
Walks over trees. The parts of a tree are `Node`s, and a `Descent` says which nodes are entered from
a node, always smaller ones. A walk lists a node and then all that is reached below it, in order.
-/

namespace NilGuard.Go

/-- A part of a tree. An identifier comes with the span of what it occurs in. -/
inductive Node where
  | block (block : Block)
  | stmt (stmt : Stmt)
  | expr (expr : Expr)
  | clause (clause : Clause)
  | ident (id : IdentId) (span : Span)

namespace Node

def ofBlock (b : Block) : List Node :=
  b.stmts.map .stmt

def ofSpec (span : Span) : Spec → List Node
  | .mk names values => names.map (.ident · span) ++ values.map .expr

def ofStmt : Stmt → List Node
  | .block _ body => [.block body]
  | .ifStmt _ init cond body orElse =>
    init.toList.map .stmt ++ [.expr cond, .block body] ++ orElse.toList.map .stmt
  | .returnStmt _ values => values.map .expr
  | .assign _ _ targets values => targets.map .expr ++ values.map .expr
  | .step _ target _ => [.expr target]
  | .expr _ value => [.expr value]
  | .send _ channel value => [.expr channel, .expr value]
  | .vars span specs => specs.flatMap (ofSpec span)
  | .go _ call => [.expr call]
  | .defer _ call => [.expr call]
  | .loop _ init cond post body =>
    init.toList.map .stmt ++ cond.toList.map .expr ++ post.toList.map .stmt ++ [.block body]
  | .range _ key value _ subject body =>
    key.toList.map .expr ++ value.toList.map .expr ++ [.expr subject, .block body]
  | .switch span init newName tag clauses =>
    init.toList.map .stmt ++ newName.toList.map (.ident · span) ++ tag.toList.map .expr
      ++ clauses.map .clause
  | .select _ clauses => clauses.map .clause
  | .labeled _ _ inner => [.stmt inner]
  | .jump .. => []
  | .empty _ => []
  | .raw _ parts => parts.map .expr

def ofExpr : Expr → List Node
  | .ident span id => [.ident id span]
  | .literal .. => []
  | .unary _ _ operand => [.expr operand]
  | .binary _ _ left right => [.expr left, .expr right]
  | .call _ callee args => .expr callee :: args.map .expr
  | .selector _ operand _ => [.expr operand]
  | .paren _ inner => [.expr inner]
  | .closure _ body => [.block body]
  | .keyed _ key value => [.expr key, .expr value]
  | .group _ parts => parts.map .expr

/-- The parts of a node in the order in which the source has them. -/
def children : Node → List Node
  | .block b => ofBlock b
  | .stmt s => ofStmt s
  | .expr e => ofExpr e
  | .clause (.mk values comm body) =>
    values.map .expr ++ comm.toList.map .stmt ++ [.block body]
  | .ident .. => []

/-- How large a node is. -/
noncomputable def size : Node → Nat
  | .block b => sizeOf b
  | .stmt s => sizeOf s
  | .expr e => sizeOf e
  | .clause c => sizeOf c
  | .ident .. => 0

@[simp] theorem size_block (b : Block) : (block b).size = sizeOf b := rfl

@[simp] theorem size_stmt (s : Stmt) : (stmt s).size = sizeOf s := rfl

@[simp] theorem size_expr (e : Expr) : (expr e).size = sizeOf e := rfl

@[simp] theorem size_clause (c : Clause) : (clause c).size = sizeOf c := rfl

@[simp] theorem size_ident (id : IdentId) (span : Span) : (ident id span).size = 0 := rfl

theorem size_lt_of_mem_map_expr {es : List Expr} {n : Node} (h : n ∈ es.map .expr) :
    n.size < sizeOf es := by
  obtain ⟨e, he, rfl⟩ := List.mem_map.mp h
  exact List.sizeOf_lt_of_mem he

theorem size_lt_of_mem_map_stmt {ss : List Stmt} {n : Node} (h : n ∈ ss.map .stmt) :
    n.size < sizeOf ss := by
  obtain ⟨s, hs, rfl⟩ := List.mem_map.mp h
  exact List.sizeOf_lt_of_mem hs

theorem size_lt_of_mem_map_clause {cs : List Clause} {n : Node} (h : n ∈ cs.map .clause) :
    n.size < sizeOf cs := by
  obtain ⟨c, hc, rfl⟩ := List.mem_map.mp h
  exact List.sizeOf_lt_of_mem hc

theorem size_lt_of_mem_opt_expr {e : Option Expr} {n : Node} (h : n ∈ e.toList.map .expr) :
    n.size < sizeOf e := by
  cases e <;> simp at h
  subst h; simp

theorem size_lt_of_mem_opt_stmt {s : Option Stmt} {n : Node} (h : n ∈ s.toList.map .stmt) :
    n.size < sizeOf s := by
  cases s <;> simp at h
  subst h; simp

theorem size_of_mem_ident {ids : List IdentId} {span : Span} {n : Node}
    (h : n ∈ ids.map (.ident · span)) : n.size = 0 := by
  obtain ⟨id, _, rfl⟩ := List.mem_map.mp h
  rfl

theorem size_lt_of_mem_ofSpec {span : Span} {spec : Spec} {n : Node} (h : n ∈ ofSpec span spec) :
    n.size < sizeOf spec := by
  obtain ⟨names, values⟩ := spec
  simp only [Spec.mk.sizeOf_spec]
  rcases List.mem_append.mp h with h | h
  · have := size_of_mem_ident h; omega
  · have := size_lt_of_mem_map_expr h; omega

theorem size_lt_of_mem_ofBlock {b : Block} {n : Node} (h : n ∈ ofBlock b) : n.size < sizeOf b := by
  obtain ⟨span, stmts⟩ := b
  have := size_lt_of_mem_map_stmt h
  simp only [Block.mk.sizeOf_spec, Block.stmts] at this ⊢
  omega

theorem size_lt_of_mem_ofExpr {e : Expr} {n : Node} (h : n ∈ ofExpr e) : n.size < sizeOf e := by
  cases e <;> simp only [ofExpr, List.mem_cons, List.not_mem_nil, or_false] at h
  case ident => subst h; simp only [size_ident, Expr.ident.sizeOf_spec]; omega
  case unary => subst h; simp only [size_expr, Expr.unary.sizeOf_spec]; omega
  case selector => subst h; simp only [size_expr, Expr.selector.sizeOf_spec]; omega
  case paren => subst h; simp only [size_expr, Expr.paren.sizeOf_spec]; omega
  case closure => subst h; simp only [size_block, Expr.closure.sizeOf_spec]; omega
  case binary =>
    rcases h with rfl | rfl <;> simp only [size_expr, Expr.binary.sizeOf_spec] <;> omega
  case keyed => rcases h with rfl | rfl <;> simp only [size_expr, Expr.keyed.sizeOf_spec] <;> omega
  case call =>
    simp only [Expr.call.sizeOf_spec]
    rcases h with rfl | h
    · simp only [size_expr]; omega
    · have := size_lt_of_mem_map_expr h; omega
  case group =>
    have := size_lt_of_mem_map_expr h
    simp only [Expr.group.sizeOf_spec]
    omega

theorem size_lt_of_mem_ofStmt {s : Stmt} {n : Node} (h : n ∈ ofStmt s) : n.size < sizeOf s := by
  cases s <;>
    simp only [ofStmt, List.mem_append, List.mem_cons, List.not_mem_nil, or_false, or_assoc] at h
  case block => subst h; simp only [size_block, Stmt.block.sizeOf_spec]; omega
  case step => subst h; simp only [size_expr, Stmt.step.sizeOf_spec]; omega
  case expr => subst h; simp only [size_expr, Stmt.expr.sizeOf_spec]; omega
  case go => subst h; simp only [size_expr, Stmt.go.sizeOf_spec]; omega
  case defer => subst h; simp only [size_expr, Stmt.defer.sizeOf_spec]; omega
  case labeled => subst h; simp only [size_stmt, Stmt.labeled.sizeOf_spec]; omega
  case send => rcases h with rfl | rfl <;> simp only [size_expr, Stmt.send.sizeOf_spec] <;> omega
  case returnStmt =>
    have := size_lt_of_mem_map_expr h
    simp only [Stmt.returnStmt.sizeOf_spec]
    omega
  case raw => have := size_lt_of_mem_map_expr h; simp only [Stmt.raw.sizeOf_spec]; omega
  case select => have := size_lt_of_mem_map_clause h; simp only [Stmt.select.sizeOf_spec]; omega
  case assign =>
    simp only [Stmt.assign.sizeOf_spec]
    rcases h with h | h <;> have := size_lt_of_mem_map_expr h <;> omega
  case vars =>
    obtain ⟨spec, hspec, h⟩ := List.mem_flatMap.mp h
    have := size_lt_of_mem_ofSpec h
    have := List.sizeOf_lt_of_mem hspec
    simp only [Stmt.vars.sizeOf_spec]
    omega
  case ifStmt =>
    simp only [Stmt.ifStmt.sizeOf_spec]
    rcases h with h | rfl | rfl | h
    · have := size_lt_of_mem_opt_stmt h; omega
    · simp only [size_expr]; omega
    · simp only [size_block]; omega
    · have := size_lt_of_mem_opt_stmt h; omega
  case loop =>
    simp only [Stmt.loop.sizeOf_spec]
    rcases h with h | h | h | rfl
    · have := size_lt_of_mem_opt_stmt h; omega
    · have := size_lt_of_mem_opt_expr h; omega
    · have := size_lt_of_mem_opt_stmt h; omega
    · simp only [size_block]; omega
  case range =>
    simp only [Stmt.range.sizeOf_spec]
    rcases h with h | h | rfl | rfl
    · have := size_lt_of_mem_opt_expr h; omega
    · have := size_lt_of_mem_opt_expr h; omega
    · simp only [size_expr]; omega
    · simp only [size_block]; omega
  case switch =>
    simp only [Stmt.switch.sizeOf_spec]
    rcases h with h | h | h | h
    · have := size_lt_of_mem_opt_stmt h; omega
    · have := size_of_mem_ident h; omega
    · have := size_lt_of_mem_opt_expr h; omega
    · have := size_lt_of_mem_map_clause h; omega

theorem size_lt_of_mem_children {n m : Node} (h : m ∈ n.children) : m.size < n.size := by
  cases n with
  | block b => exact size_lt_of_mem_ofBlock h
  | stmt s => exact size_lt_of_mem_ofStmt h
  | expr e => exact size_lt_of_mem_ofExpr h
  | clause c =>
    obtain ⟨values, comm, body⟩ := c
    simp only [children, List.mem_append, List.mem_cons, List.not_mem_nil, or_false, or_assoc] at h
    simp only [size_clause, Clause.mk.sizeOf_spec]
    rcases h with h | h | rfl
    · have := size_lt_of_mem_map_expr h; omega
    · have := size_lt_of_mem_opt_stmt h; omega
    · simp only [size_block]; omega
  | ident => simp [children] at h

end Node

/-- Which nodes are entered from a node. -/
structure Descent where
  next : Node → List Node
  size_lt : ∀ n, ∀ m ∈ next n, m.size < n.size

namespace Descent

/-- A node and all that is reached from it, each node before what is below it. -/
def walk (d : Descent) (n : Node) : List Node :=
  n :: (d.next n).attach.flatMap fun ⟨m, _⟩ => d.walk m
termination_by n.size
decreasing_by exact d.size_lt n m (by assumption)

/-- Enters everything. -/
def full : Descent where
  next := Node.children
  size_lt _ _ h := Node.size_lt_of_mem_children h

/-- Enters nothing below the nodes that fail a test. -/
def below (d : Descent) (enter : Node → Bool) : Descent where
  next n := if enter n then d.next n else []
  size_lt n m h := by
    split at h
    · exact d.size_lt n m h
    · simp at h

theorem walk_eq (d : Descent) (n : Node) : d.walk n = n :: (d.next n).flatMap d.walk := by
  rw [walk]
  conv => rhs; rw [← List.attach_map_subtype_val (d.next n), List.flatMap_map]

end Descent

/-- The node at the top of a declaration, if it has a tree. -/
def Decl.root? : Decl → Option Node
  | .func _ _ body => body.map .block
  | .vars stmt => some (.stmt stmt)

/-- The nodes at the top of a file. -/
def File.roots (f : File) : List Node :=
  f.decls.filterMap Decl.root?

end NilGuard.Go
