import NilGuard.Go.Grammar.Basic
import NilGuard.Go.Word

/-!
Renamings of tokens and of trees. A renaming replaces some names by `nil`; the text around them
moves, so spans change with it. A tree is renamed name by name and span by span.
-/

namespace NilGuard.Go

/-- Which names become `nil`, and where the offsets and columns of a text move. -/
structure Renaming where
  marked : Span → Bool
  start : Nat → Nat
  stop : Nat → Nat
  /-- The new column on a line. -/
  column : Nat → Nat → Nat
  start_zero : start 0 = 0
  stop_zero : stop 0 = 0
  column_zero : column 0 0 = 0

namespace Renaming

/-- The renaming that changes nothing. -/
def same : Renaming where
  marked _ := false
  start := id
  stop := id
  column _ := id
  start_zero := rfl
  stop_zero := rfl
  column_zero := rfl

variable (σ : Renaming)

def span (s : Span) : Span :=
  ⟨σ.start s.start, σ.stop s.stop, s.line, σ.column s.line s.column⟩

def name (n : Name) : Name :=
  ⟨if σ.marked n.span then nilName else n.text, σ.span n.span⟩

def token (t : Token) : Token :=
  { t with text := if t.kind == .name && σ.marked t.span then nilName else t.text
           span := σ.span t.span }

/-- A span from one part to another moves with the two parts, since only its ends are moved. -/
@[simp] theorem span_upTo (a b : Span) : σ.span (a.upTo b) = (σ.span a).upTo (σ.span b) := rfl

/-- The span that stands for no text is not moved. This is what the laws at zero are for. -/
@[simp] theorem span_default : σ.span default = default := by
  show (⟨σ.start 0, σ.stop 0, 0, σ.column 0 0⟩ : Span) = ⟨0, 0, 0, 0⟩
  rw [σ.start_zero, σ.stop_zero, σ.column_zero]

@[simp] theorem kind_token (t : Token) : (σ.token t).kind = t.kind := rfl

@[simp] theorem fresh_token (t : Token) : (σ.token t).fresh = t.fresh := rfl

@[simp] theorem span_token (t : Token) : (σ.token t).span = σ.span t.span := rfl

@[simp] theorem span_name (n : Name) : (σ.name n).span = σ.span n.span := rfl

/-- Only a name can get another text. -/
theorem text_token {t : Token} (h : t.kind ≠ .name) : (σ.token t).text = t.text := by
  simp [token, h]

/-- No name becomes a keyword or an operator, so looking for one of these has the same outcome. -/
@[simp] theorem is_token (t : Token) (text : String) : (σ.token t).is text = t.is text := by
  by_cases h : t.kind = .name
  · rw [Token.is, Token.is, kind_token, h]; rfl
  · simp [Token.is, σ.text_token h]

/-- A token is a name after a renaming exactly if it was one, and then it is the renamed name. -/
@[simp] theorem name?_token (t : Token) : (σ.token t).name? = t.name?.map σ.name := by
  by_cases h : t.kind = .name <;> simp [Token.name?, h, token, name]

/-! ### Trees -/

mutual

def expr : Surface.Expr → Surface.Expr
  | .ident n => .ident (σ.name n)
  | .literal s => .literal (σ.span s)
  | .unary s op e => .unary (σ.span s) op (expr e)
  | .binary s op l r => .binary (σ.span s) op (expr l) (expr r)
  | .call s c es => .call (σ.span s) (expr c) (exprs es)
  | .selector s e n => .selector (σ.span s) (expr e) (σ.name n)
  | .paren s e => .paren (σ.span s) (expr e)
  | .closure s ns b => .closure (σ.span s) (ns.map σ.name) (block b)
  | .keyed s k v => .keyed (σ.span s) (expr k) (expr v)
  | .group s es => .group (σ.span s) (exprs es)
  | .typeName n => .typeName (σ.name n)
  | .key n => .key (σ.name n)
  | .either n t v => .either (σ.name n) (expr t) (expr v)

def exprs : List Surface.Expr → List Surface.Expr
  | [] => []
  | e :: es => expr e :: exprs es

def optExpr : Option Surface.Expr → Option Surface.Expr
  | none => none
  | some e => some (expr e)

def block : Surface.Block → Surface.Block
  | .mk s ss => .mk (σ.span s) (stmts ss)

def stmts : List Surface.Stmt → List Surface.Stmt
  | [] => []
  | s :: ss => stmt s :: stmts ss

def optStmt : Option Surface.Stmt → Option Surface.Stmt
  | none => none
  | some s => some (stmt s)

def spec : Surface.Spec → Surface.Spec
  | .mk ns es => .mk (ns.map σ.name) (exprs es)

def specs : List Surface.Spec → List Surface.Spec
  | [] => []
  | x :: xs => spec x :: specs xs

def clause : Surface.Clause → Surface.Clause
  | .mk s es comm ss => .mk (σ.span s) (exprs es) (optStmt comm) (stmts ss)

def clauses : List Surface.Clause → List Surface.Clause
  | [] => []
  | x :: xs => clause x :: clauses xs

def stmt : Surface.Stmt → Surface.Stmt
  | .block b => .block (block b)
  | .ifStmt s init cond body orElse =>
    .ifStmt (σ.span s) (optStmt init) (expr cond) (block body) (optStmt orElse)
  | .returnStmt s es => .returnStmt (σ.span s) (exprs es)
  | .assign s op ts vs => .assign (σ.span s) op (exprs ts) (exprs vs)
  | .step s e up => .step (σ.span s) (expr e) up
  | .expr e => .expr (expr e)
  | .send s c v => .send (σ.span s) (expr c) (expr v)
  | .vars s kind xs => .vars (σ.span s) kind (specs xs)
  | .go s e => .go (σ.span s) (expr e)
  | .defer s e => .defer (σ.span s) (expr e)
  | .loop s init cond post body =>
    .loop (σ.span s) (optStmt init) (optExpr cond) (optStmt post) (block body)
  | .range s ts define subject body =>
    .range (σ.span s) (exprs ts) define (expr subject) (block body)
  | .switch s init newName tag cs =>
    .switch (σ.span s) (optStmt init) (optExpr newName) (optExpr tag) (clauses cs)
  | .select s cs => .select (σ.span s) (clauses cs)
  | .labeled s label inner => .labeled (σ.span s) (σ.name label) (stmt inner)
  | .jump s word => .jump (σ.span s) word
  | .empty s => .empty (σ.span s)

end

attribute [simp] expr block spec clause stmt

@[simp] def decl : Surface.Decl → Surface.Decl
  | .func s method n params body =>
    .func (σ.span s) method (σ.name n) (params.map σ.name) (body.map σ.block)
  | .vars s kind xs => .vars (σ.span s) kind (xs.map σ.spec)

@[simp] def item : Surface.Item → Surface.Item
  | .decl d => .decl (σ.decl d)
  | .stmt s => .stmt (σ.stmt s)

/-- Lists have functions of their own for the recursion. They rename the entries one by one. -/
@[simp] theorem exprs_eq_map (es : List Surface.Expr) : σ.exprs es = es.map σ.expr := by
  induction es with
  | nil => rfl
  | cons e es ih => rw [exprs, ih, List.map_cons]

@[simp] theorem stmts_eq_map (ss : List Surface.Stmt) : σ.stmts ss = ss.map σ.stmt := by
  induction ss with
  | nil => rfl
  | cons s ss ih => rw [stmts, ih, List.map_cons]

@[simp] theorem specs_eq_map (xs : List Surface.Spec) : σ.specs xs = xs.map σ.spec := by
  induction xs with
  | nil => rfl
  | cons x xs ih => rw [specs, ih, List.map_cons]

@[simp] theorem clauses_eq_map (cs : List Surface.Clause) : σ.clauses cs = cs.map σ.clause := by
  induction cs with
  | nil => rfl
  | cons c cs ih => rw [clauses, ih, List.map_cons]

@[simp] theorem optExpr_eq_map (e : Option Surface.Expr) : σ.optExpr e = e.map σ.expr := by
  cases e <;> rfl

@[simp] theorem optStmt_eq_map (s : Option Surface.Stmt) : σ.optStmt s = s.map σ.stmt := by
  cases s <;> rfl

/-- A renamed expression stands where the old one is moved to. -/
@[simp] theorem span_expr (e : Surface.Expr) : (σ.expr e).span = σ.span e.span := by
  cases e with
  | either n t v => exact span_expr t
  | _ => rfl

@[simp] theorem span_block (b : Surface.Block) : (σ.block b).span = σ.span b.span := by
  cases b; rfl

/-- A renamed statement stands where the old one is moved to. -/
@[simp] theorem span_stmt (s : Surface.Stmt) : (σ.stmt s).span = σ.span s.span := by
  cases s with
  | block b => exact σ.span_block b
  | expr e => exact σ.span_expr e
  | _ => rfl

end Renaming

/-- What a renaming acts on. -/
class Renamable (α : Type) where
  rename : Renaming → α → α

export Renamable (rename)

section
variable {α β : Type} [Renamable α] [Renamable β]

instance : Renamable Unit := ⟨fun _ => id⟩

instance : Renamable Bool := ⟨fun _ => id⟩

instance : Renamable BindingKind := ⟨fun _ => id⟩

instance : Renamable UnaryOp := ⟨fun _ => id⟩

instance : Renamable BinaryOp := ⟨fun _ => id⟩

instance : Renamable Span := ⟨Renaming.span⟩

instance : Renamable Name := ⟨Renaming.name⟩

instance : Renamable Token := ⟨Renaming.token⟩

instance : Renamable Surface.Expr := ⟨Renaming.expr⟩

instance : Renamable Surface.Block := ⟨Renaming.block⟩

instance : Renamable Surface.Spec := ⟨Renaming.spec⟩

instance : Renamable Surface.Clause := ⟨Renaming.clause⟩

instance : Renamable Surface.Stmt := ⟨Renaming.stmt⟩

instance : Renamable Surface.Decl := ⟨Renaming.decl⟩

instance : Renamable Surface.Item := ⟨Renaming.item⟩

instance : Renamable (List α) := ⟨fun σ => List.map (rename σ)⟩

instance : Renamable (Option α) := ⟨fun σ => Option.map (rename σ)⟩

instance : Renamable (α × β) := ⟨fun σ => Prod.map (rename σ) (rename σ)⟩

variable (σ : Renaming)

@[simp] theorem rename_bool (b : Bool) : rename σ b = b := rfl

/-- For each type `rename` is the function that was given for it, so the lemmas above apply to
it. -/
@[simp] theorem rename_span : (rename σ : Span → Span) = σ.span := rfl

@[simp] theorem rename_name : (rename σ : Name → Name) = σ.name := rfl

@[simp] theorem rename_token : (rename σ : Token → Token) = σ.token := rfl

@[simp] theorem rename_expr : (rename σ : Surface.Expr → Surface.Expr) = σ.expr := rfl

@[simp] theorem rename_block : (rename σ : Surface.Block → Surface.Block) = σ.block := rfl

@[simp] theorem rename_spec : (rename σ : Surface.Spec → Surface.Spec) = σ.spec := rfl

@[simp] theorem rename_clause : (rename σ : Surface.Clause → Surface.Clause) = σ.clause := rfl

@[simp] theorem rename_stmt : (rename σ : Surface.Stmt → Surface.Stmt) = σ.stmt := rfl

@[simp] theorem rename_decl : (rename σ : Surface.Decl → Surface.Decl) = σ.decl := rfl

@[simp] theorem rename_item : (rename σ : Surface.Item → Surface.Item) = σ.item := rfl

/-- Lists, options and pairs are renamed entry by entry. -/
@[simp] theorem rename_list : (rename σ : List α → List α) = List.map (rename σ) := rfl

@[simp] theorem rename_none : rename σ (none : Option α) = none := rfl

@[simp] theorem rename_some (a : α) : rename σ (some a) = some (rename σ a) := rfl

@[simp] theorem toList_rename (o : Option α) : (rename σ o).toList = o.toList.map (rename σ) := by
  cases o <;> rfl

@[simp] theorem rename_mk (a : α) (b : β) : rename σ (a, b) = (rename σ a, rename σ b) := rfl

end

end NilGuard.Go
