import NilGuard.Proofs.Confluence

/-!
Outlines. The outline of a tree is the tree without its spans and without the text of literals,
fields and labels. Guards, writes and reads depend only on outlines and on what identifiers are, so
two files with the same outline and the same identifiers, up to where these stand, have the same
findings.
-/

namespace NilGuard.Go

namespace Outline

mutual

def expr : Expr → Expr
  | .ident _ id => .ident default id
  | .literal .. => .literal default ""
  | .unary _ op operand => .unary default op (expr operand)
  | .binary _ op left right => .binary default op (expr left) (expr right)
  | .call _ callee args => .call default (expr callee) (exprs args)
  | .selector _ operand _ => .selector default (expr operand) ""
  | .paren _ inner => .paren default (expr inner)
  | .closure _ body => .closure default (block body)
  | .keyed _ key value => .keyed default (expr key) (expr value)
  | .group _ parts => .group default (exprs parts)

def exprs : List Expr → List Expr
  | [] => []
  | e :: es => expr e :: exprs es

def optExpr : Option Expr → Option Expr
  | none => none
  | some e => some (expr e)

def block : Block → Block
  | .mk _ ss => .mk default (stmts ss)

def stmts : List Stmt → List Stmt
  | [] => []
  | s :: ss => stmt s :: stmts ss

def optStmt : Option Stmt → Option Stmt
  | none => none
  | some s => some (stmt s)

def spec : Spec → Spec
  | .mk names values => .mk names (exprs values)

def specs : List Spec → List Spec
  | [] => []
  | x :: xs => spec x :: specs xs

def clause : Clause → Clause
  | .mk values comm body => .mk (exprs values) (optStmt comm) (block body)

def clauses : List Clause → List Clause
  | [] => []
  | c :: cs => clause c :: clauses cs

def stmt : Stmt → Stmt
  | .block _ body => .block default (block body)
  | .ifStmt _ init cond body orElse =>
    .ifStmt default (optStmt init) (expr cond) (block body) (optStmt orElse)
  | .returnStmt _ values => .returnStmt default (exprs values)
  | .assign _ op targets values => .assign default op (exprs targets) (exprs values)
  | .step _ target up => .step default (expr target) up
  | .expr _ value => .expr default (expr value)
  | .send _ channel value => .send default (expr channel) (expr value)
  | .vars _ xs => .vars default (specs xs)
  | .go _ call => .go default (expr call)
  | .defer _ call => .defer default (expr call)
  | .loop _ init cond post body =>
    .loop default (optStmt init) (optExpr cond) (optStmt post) (block body)
  | .range _ key value define subject body =>
    .range default (optExpr key) (optExpr value) define (expr subject) (block body)
  | .switch _ init newName tag cs =>
    .switch default (optStmt init) newName (optExpr tag) (clauses cs)
  | .select _ cs => .select default (clauses cs)
  | .labeled _ _ inner => .labeled default "" (stmt inner)
  | .jump _ word => .jump default word
  | .empty _ => .empty default
  | .raw _ parts => .raw default (exprs parts)

end

attribute [simp] expr block spec clause stmt

@[simp] theorem exprs_eq_map (es : List Expr) : exprs es = es.map expr := by
  induction es with
  | nil => rfl
  | cons e es ih => rw [exprs, ih, List.map_cons]

@[simp] theorem stmts_eq_map (ss : List Stmt) : stmts ss = ss.map stmt := by
  induction ss with
  | nil => rfl
  | cons s ss ih => rw [stmts, ih, List.map_cons]

@[simp] theorem specs_eq_map (xs : List Spec) : specs xs = xs.map spec := by
  induction xs with
  | nil => rfl
  | cons x xs ih => rw [specs, ih, List.map_cons]

@[simp] theorem clauses_eq_map (cs : List Clause) : clauses cs = cs.map clause := by
  induction cs with
  | nil => rfl
  | cons c cs ih => rw [clauses, ih, List.map_cons]

@[simp] theorem optExpr_eq_map (e : Option Expr) : optExpr e = e.map expr := by
  cases e <;> rfl

@[simp] theorem optStmt_eq_map (s : Option Stmt) : optStmt s = s.map stmt := by
  cases s <;> rfl

@[simp] theorem stmts_block (b : Block) : (block b).stmts = b.stmts.map stmt := by
  obtain ⟨span, ss⟩ := b
  simp [Block.stmts]

/-- The outline of a part of a tree. -/
@[simp] def node : Node → Node
  | .block b => .block (block b)
  | .stmt s => .stmt (stmt s)
  | .expr e => .expr (expr e)
  | .clause c => .clause (clause c)
  | .ident id _ => .ident id default

theorem ofStmt_stmt (s : Stmt) : Node.ofStmt (stmt s) = (Node.ofStmt s).map node := by
  cases s with
  | vars span xs =>
    simp only [stmt, specs_eq_map, Node.ofStmt, List.flatMap_map, List.map_flatMap]
    refine List.flatMap_congr fun x _ => ?_
    obtain ⟨names, values⟩ := x
    simp [Node.ofSpec, Function.comp_def]
  | _ => simp [Node.ofStmt, Function.comp_def, Option.toList_map]

/-- The parts of an outline are the outlines of the parts. -/
theorem children_node (n : Node) : (node n).children = n.children.map node := by
  cases n with
  | block b => simp [Node.children, Node.ofBlock, Function.comp_def]
  | stmt s => exact ofStmt_stmt s
  | expr e => cases e <;> simp [Node.children, Node.ofExpr, Function.comp_def]
  | clause c =>
    obtain ⟨values, comm, body⟩ := c
    simp [Node.children, Function.comp_def, Option.toList_map]
  | ident id span => rfl

/-- A path leads to the outline of what it leads to. -/
theorem follow_node (n : Node) (path : List Nat) :
    (node n).follow path = (n.follow path).map node := by
  induction path generalizing n with
  | nil => rfl
  | cons i path ih =>
    rw [Node.follow_cons, Node.follow_cons, children_node, List.getElem?_map]
    cases n.children[i]? with
    | none => rfl
    | some m => exact ih m

/-- A walk that enters outlines as it enters trees. -/
theorem walk_node {d : Descent} (hd : ∀ n, d.next (node n) = (d.next n).map node) (n : Node) :
    d.walk (node n) = (d.walk n).map node := by
  induction n using Descent.walk.induct d with
  | case1 n ih =>
    rw [Descent.walk_eq, Descent.walk_eq, hd, List.map_cons, List.flatMap_map, List.map_flatMap]
    exact congrArg _ (List.flatMap_congr ih)

theorem laterArgs?_stmt (s : Stmt) : laterArgs? (stmt s) = (laterArgs? s).map (List.map expr) := by
  cases s with
  | go span call | defer span call =>
    cases call with
    | call cspan callee args => cases callee <;> simp [laterArgs?]
    | _ => rfl
  | _ => rfl

/-- What runs later is seen from the outline. -/
theorem next_inPlace (n : Node) : inPlace.next (node n) = (inPlace.next n).map node := by
  cases n with
  | stmt s =>
    simp only [inPlace, node, laterArgs?_stmt]
    cases laterArgs? s with
    | none => exact ofStmt_stmt s
    | some args => simp [Function.comp_def]
  | block b => exact children_node (.block b)
  | expr e => exact children_node (.expr e)
  | clause c => exact children_node (.clause c)
  | ident id span => rfl

/-! ### Guards and reads -/

variable (f : File) (b : BindingId)

theorem isVariable_expr (e : Expr) : isVariable f b (expr e) = isVariable f b e := by
  cases e <;> rfl

theorem writesHere_node (n : Node) : writesHere f b (node n) = writesHere f b n := by
  cases n with
  | stmt s => cases s <;> simp [writesHere, List.any_map, Function.comp_def, isVariable_expr]
  | expr e =>
    cases e with
    | unary span op operand => cases op <;> simp [writesHere, isVariable_expr]
    | _ => rfl
  | _ => rfl

/-- Whether a statement writes a variable is seen from its outline. -/
theorem writes_stmt (s : Stmt) : writes f b (stmt s) = writes f b s := by
  have hwalk := walk_node next_inPlace (.stmt s)
  rw [node] at hwalk
  rw [writes, writes, hwalk, List.any_map]
  exact congrArg _ (funext (writesHere_node f b))

theorem occurrences_stmt (s : Stmt) : occurrences f b (stmt s) = occurrences f b s := by
  have hwalk := walk_node next_inPlace (.stmt s)
  rw [node] at hwalk
  rw [occurrences, occurrences, hwalk, List.filterMap_map]
  refine List.filterMap_congr fun n _ => ?_
  cases n <;> rfl

/-- So are the identifiers that are read first. -/
theorem firstReads_map (ss : List Stmt) : firstReads f b (ss.map stmt) = firstReads f b ss := by
  induction ss with
  | nil => rfl
  | cons s ss ih => simp only [List.map_cons, firstReads, writes_stmt, occurrences_stmt, ih]

theorem endsInReturn_block (body : Block) : endsInReturn (block body) = endsInReturn body := by
  rw [endsInReturn, endsInReturn, stmts_block, List.getLast?_map]
  cases body.stmts.getLast? with
  | none => rfl
  | some s => cases s <;> rfl

theorem nilComparison?_expr (e : Expr) : nilComparison? f (expr e) = nilComparison? f e := by
  cases e with
  | binary span op left right =>
    cases op with
    | ne =>
      cases left with
      | ident => cases right <;> rfl
      | _ => rfl
    | _ => rfl
  | _ => rfl

/-- A guard is known by the outline of its condition and of its body. -/
theorem guarded?_expr (cond : Expr) (body : Block) :
    guarded? f (expr cond) (block body) = guarded? f cond body := by
  rw [guarded?, guarded?, endsInReturn_block, nilComparison?_expr]

end Outline

/-! ### Files -/

/-- What an identifier is, and the line it stands on. -/
def Ident.onLine (x : Ident) : String × Option BindingId × Nat :=
  (x.name, x.binding, x.span.line)

namespace File

/-- Two files have the same outline, and the same identifiers on the same lines. -/
structure Alike (f g : File) : Prop where
  tree?_eq : ∀ i, (f.tree? i).map Outline.node = (g.tree? i).map Outline.node
  idents_eq : ∀ i : Nat, f.idents[i]?.map Ident.onLine = g.idents[i]?.map Ident.onLine

namespace Alike

variable {f g : File}

theorem symm (h : f.Alike g) : g.Alike f :=
  ⟨fun i => (h.tree?_eq i).symm, fun i => (h.idents_eq i).symm⟩

theorem exists_ident (h : f.Alike g) {i : Nat} {x : Ident} (hx : f.idents[i]? = some x) :
    ∃ y, g.idents[i]? = some y ∧ y.name = x.name ∧ y.binding = x.binding ∧
      y.span.line = x.span.line := by
  have hi := h.idents_eq i
  rw [hx, Option.map_some, eq_comm, Option.map_eq_some_iff] at hi
  obtain ⟨y, hy, hline⟩ := hi
  simp only [Ident.onLine, Prod.mk.injEq] at hline
  exact ⟨y, hy, hline⟩

theorem refersTo_eq (h : f.Alike g) : f.refersTo = g.refersTo := by
  funext i b
  have hi := congrArg (Option.any fun x => x.2.1 == some b) (h.idents_eq i)
  rw [Option.any_map, Option.any_map] at hi
  exact hi

theorem isNil_eq (h : f.Alike g) : f.isNil = g.isNil := by
  funext i
  have hi := congrArg (Option.any fun x => x.1 == nilName) (h.idents_eq i)
  rw [Option.any_map, Option.any_map] at hi
  exact hi

theorem binding_eq (h : f.Alike g) (i : Nat) :
    (f.idents[i]?.getD default).binding = (g.idents[i]?.getD default).binding := by
  cases hx : f.idents[i]? with
  | none =>
    have hi := h.idents_eq i
    rw [hx, Option.map_none, eq_comm, Option.map_eq_none_iff] at hi
    rw [hi]
  | some x =>
    obtain ⟨y, hy, -, hbinding, -⟩ := h.exists_ident hx
    rw [hy, Option.getD_some, Option.getD_some, hbinding]

theorem nilComparison?_eq (h : f.Alike g) (e : Expr) : nilComparison? f e = nilComparison? g e := by
  unfold nilComparison?
  rw [h.isNil_eq]

/-- What a condition guards in one file it guards in the other. -/
theorem guarded?_eq_ok (h : f.Alike g) {cond : Expr} {body : Block} {o : Option BindingId}
    (hf : guarded? f cond body = .ok o) : guarded? g cond body = .ok o := by
  rw [guarded?, h.nilComparison?_eq] at hf
  rw [guarded?]
  split at hf
  · next hreturn =>
    rw [if_pos hreturn]
    cases hcomparison : nilComparison? g cond with
    | none => rwa [hcomparison] at hf
    | some vn =>
      simp only [hcomparison, h.binding_eq] at hf ⊢
      split at hf
      · cases hf
      · cases hf
      · next hn hv => simpa [hn, hv] using hf
  · next hreturn => rwa [if_neg hreturn]

theorem firstReads_eq (h : f.Alike g) (b : BindingId) (ss : List Stmt) :
    firstReads f b ss = firstReads g b ss :=
  firstReads_congr (fun i => congrFun (congrFun h.refersTo_eq i) b) ss

/-! #### Guards in the same places -/

theorem follow_eq (h : f.Alike g) (path : List Nat) :
    (f.follow path).map Outline.node = (g.follow path).map Outline.node := by
  cases path with
  | nil => rfl
  | cons i path =>
    have hi := h.tree?_eq i
    rw [File.follow, File.follow]
    cases hm : f.tree? i with
    | none =>
      rw [hm, Option.map_none, eq_comm, Option.map_eq_none_iff] at hi
      rw [hi]
    | some m =>
      rw [hm, Option.map_some, eq_comm, Option.map_eq_some_iff] at hi
      obtain ⟨n, hn, hnode⟩ := hi
      rw [hn, Option.bind_some, Option.bind_some, ← Outline.follow_node, ← Outline.follow_node,
        hnode]

theorem exists_follow (h : f.Alike g) {path : List Nat} {m : Node} (hm : f.follow path = some m) :
    ∃ n, g.follow path = some n ∧ Outline.node n = Outline.node m := by
  have hpath := h.follow_eq path
  rw [hm, Option.map_some, eq_comm, Option.map_eq_some_iff] at hpath
  exact hpath

/-- Files that are alike have the same searched blocks, up to where things stand. -/
theorem exists_scans (h : f.Alike g) {path : List Nat} {b : Block} (hb : f.Scans path b) :
    ∃ b', g.Scans path b' ∧ Outline.block b' = Outline.block b := by
  rw [File.scans_iff] at hb
  obtain ⟨n, hn, hnode⟩ := h.exists_follow hb.1
  cases n with
  | block b' =>
    refine ⟨b', File.scans_iff.mpr ⟨hn, fun c hc => ?_⟩, by simpa using hnode⟩
    -- What is no case in one file is none in the other.
    obtain ⟨m, hm, hnode⟩ := h.symm.exists_follow hc
    cases m with
    | clause c' => exact hb.2 c' hm
    | _ => simp at hnode
  | _ => simp at hnode

/-- So they have the same conditionals, with the same statements behind them. -/
theorem exists_ifStmt (h : f.Alike g) {path : List Nat} {b : Block} (hb : f.Scans path b) {k : Nat}
    {span : Span} {init : Option Stmt} {cond : Expr} {body : Block} {orElse : Option Stmt}
    (hk : b.stmts[k]? = some (.ifStmt span init cond body orElse)) :
    ∃ b' span' init' cond' body' orElse', g.Scans path b' ∧
      b'.stmts[k]? = some (.ifStmt span' init' cond' body' orElse') ∧
      Outline.expr cond' = Outline.expr cond ∧ Outline.block body' = Outline.block body ∧
      (orElse'.toList ++ b'.stmts.drop (k + 1)).map Outline.stmt =
        (orElse.toList ++ b.stmts.drop (k + 1)).map Outline.stmt := by
  obtain ⟨b', hb', hblock⟩ := h.exists_scans hb
  have hstmts := congrArg Block.stmts hblock
  rw [Outline.stmts_block, Outline.stmts_block] at hstmts
  have hget := congrArg (·[k]?) hstmts
  simp only [List.getElem?_map, hk, Option.map_some, Option.map_eq_some_iff] at hget
  obtain ⟨s, hs, hstmt⟩ := hget
  cases s with
  | ifStmt span' init' cond' body' orElse' =>
    simp only [Outline.stmt, Outline.optStmt_eq_map, Stmt.ifStmt.injEq, true_and] at hstmt
    refine ⟨b', span', init', cond', body', orElse', hb', hs, hstmt.2.1, hstmt.2.2.1, ?_⟩
    rw [List.map_append, List.map_append, List.map_drop, List.map_drop, hstmts, ← Option.toList_map,
      ← Option.toList_map, hstmt.2.2.2]
  | _ => simp at hstmt

theorem guarded?_of_outline (h : f.Alike g) {cond cond' : Expr} {body body' : Block}
    (hcond : Outline.expr cond' = Outline.expr cond)
    (hbody : Outline.block body' = Outline.block body) {o : Option BindingId}
    (hf : guarded? f cond body = .ok o) : guarded? g cond' body' = .ok o := by
  rw [← Outline.guarded?_expr, hcond, hbody, Outline.guarded?_expr]
  exact h.guarded?_eq_ok hf

/-- What a guard proves nil in one file a guard in the same place proves nil in the other. -/
theorem exists_guard (h : f.Alike g) {path : List Nat} {k : Nat} {gd : Guard}
    (hgd : f.HasGuard path k gd) {i : IdentId} (hi : gd.ProvesNil f i) :
    ∃ gd', g.HasGuard path k gd' ∧ gd'.ProvesNil g i := by
  obtain ⟨b, span, init, cond, body, orElse, hb, hk, hguarded, -, hrem⟩ := hgd
  obtain ⟨b', span', init', cond', body', orElse', hb', hk', hcond, hbody, hrem'⟩ :=
    h.exists_ifStmt hb hk
  refine ⟨⟨gd.binding, cond'.span, orElse'.toList ++ b'.stmts.drop (k + 1)⟩,
    ⟨b', span', init', cond', body', orElse', hb', hk', h.guarded?_of_outline hcond hbody hguarded,
      rfl, rfl⟩, ?_⟩
  rw [← Guard.mem_reads, Guard.reads] at hi ⊢
  rwa [← Outline.firstReads_map, hrem', Outline.firstReads_map, ← hrem, ← h.firstReads_eq]

/-! #### Findings -/

/-- A finding has the line of its identifier, which stays. -/
theorem line_eq (h : f.Alike g) {x y : Finding} (hx : x ∈ f.raw) (hy : y ∈ g.raw)
    (hident : x.ident = y.ident) : x.line = y.line := by
  obtain ⟨a, ha, hxa⟩ := span_of_mem_raw hx
  obtain ⟨b, hb, hyb⟩ := span_of_mem_raw hy
  obtain ⟨b', hb', -, -, hline⟩ := h.exists_ident ha
  rw [hident, hb, Option.some.injEq] at hb'
  rw [Finding.line, Finding.line, hxa, hyb, hb', hline]

/-- Files that are alike have findings on the same lines. -/
theorem exists_findings (h : f.Alike g) {xs : List Finding} (hxs : findings f = .ok xs) :
    ∃ ys, findings g = .ok ys ∧ ∀ y ∈ ys, ∃ x ∈ xs, x.line = y.line := by
  cases hys : findings g with
  | error fault =>
    obtain ⟨path, b, span, init, cond, body, orElse, hb, hmem, hguarded⟩ :=
      exists_of_findings_error hys
    obtain ⟨k, hk⟩ := List.mem_iff_getElem?.mp hmem
    obtain ⟨b', span', init', cond', body', orElse', hb', hk', hcond, hbody, -⟩ :=
      h.symm.exists_ifStmt hb hk
    cases hguarded' : guarded? f cond' body' with
    | error fault' =>
      exact absurd hguarded' (guarded?_of_findings hxs hb' (List.mem_of_getElem? hk'))
    | ok o =>
      rw [h.guarded?_of_outline hcond.symm hbody.symm hguarded'] at hguarded
      cases hguarded
  | ok ys =>
    refine ⟨ys, rfl, fun y hy => ?_⟩
    have hy := mem_raw_of_findings hys hy
    obtain ⟨path, k, gd, hgd, hi, -⟩ := mem_raw.mp hy
    obtain ⟨gd', hgd', hi'⟩ := h.symm.exists_guard hgd hi
    obtain ⟨x, hx, hident⟩ := exists_mem_findings hxs hgd' hi'
    exact ⟨x, hx, h.line_eq (mem_raw_of_findings hxs hx) hy hident⟩

end Alike

end File

end NilGuard.Go
