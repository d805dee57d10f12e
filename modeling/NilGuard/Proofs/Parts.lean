import NilGuard.Go.Node

/-!
The parts of a tree. `Node.Part` tells what stands where in a node: it has one constructor for each
field of the tree, and the number of a part is how many parts stand in front of it. It does not
mention any walk. A walk goes by `Node.children`, which lists exactly the parts in the order of
their numbers (`Node.part_iff`), and by `File.roots`, which lists exactly the trees of the
declarations (`File.mem_roots`).

`Node.At` and `File.At` tell what stands at a path, the numbers of the parts to take.
-/

namespace NilGuard.Go

/-! ### Entries of the lists that children are put together from -/

section

variable {α β : Type} {i : Nat} {b : β}

theorem getElem?_append_eq_some {l l' : List β} : (l ++ l')[i]? = some b ↔
    l[i]? = some b ∨ ∃ j, i = l.length + j ∧ l'[j]? = some b := by
  constructor
  · intro h
    rcases Nat.lt_or_ge i l.length with hi | hi
    · exact .inl (by rwa [List.getElem?_append_left hi] at h)
    · rw [List.getElem?_append_right hi] at h
      exact .inr ⟨i - l.length, by omega, h⟩
  · rintro (h | ⟨j, rfl, h⟩)
    · rw [List.getElem?_append_left (List.getElem?_eq_some_iff.mp h).1, h]
    · rw [List.getElem?_append_right (Nat.le_add_right ..), Nat.add_sub_cancel_left, h]

theorem getElem?_cons_eq_some {a : β} {l : List β} : (a :: l)[i]? = some b ↔
    i = 0 ∧ a = b ∨ ∃ j, i = 1 + j ∧ l[j]? = some b := by
  rw [← List.singleton_append, getElem?_append_eq_some]
  simp [List.getElem?_singleton, and_comm]

theorem getElem?_toList_eq_some {o : Option β} : o.toList[i]? = some b ↔ i = 0 ∧ o = some b := by
  cases o <;> simp [List.getElem?_singleton]

/-- An entry of joined lists stands in one of them, behind all the lists in front of that one. -/
theorem getElem?_flatMap_eq_some {l : List α} {g : α → List β} : (l.flatMap g)[i]? = some b ↔
    ∃ before a after j, l = before ++ a :: after ∧
      i = (before.flatMap g).length + j ∧ (g a)[j]? = some b := by
  induction l generalizing i with
  | nil => simp
  | cons a l ih =>
    rw [List.flatMap_cons, getElem?_append_eq_some]
    constructor
    · rintro (h | ⟨j, rfl, h⟩)
      · exact ⟨[], a, l, i, rfl, by simp, h⟩
      · obtain ⟨before, a', after, k, rfl, rfl, hk⟩ := ih.mp h
        exact ⟨a :: before, a', after, k, rfl, by simp [Nat.add_assoc], hk⟩
    · rintro ⟨before, a', after, j, hl, rfl, h⟩
      cases before with
      | nil =>
        obtain ⟨rfl, rfl⟩ := List.cons.inj hl
        exact .inl (by simpa using h)
      | cons c before =>
        obtain ⟨rfl, rfl⟩ := List.cons.inj hl
        exact .inr ⟨_, by simp [Nat.add_assoc], ih.mpr ⟨before, a', after, j, rfl, rfl, h⟩⟩

end

/-- How many names and values the lines of a declaration have. -/
def Spec.count : List Spec → Nat
  | [] => 0
  | .mk names values :: specs => names.length + values.length + count specs

namespace Node

/-- A node has another one as its part of a number. -/
inductive Part : Node → Nat → Node → Prop where
  | blockStmt {span : Span} {stmts : List Stmt} {i : Nat} {s : Stmt} (h : stmts[i]? = some s) :
      Part (.block (.mk span stmts)) i (.stmt s)
  -- Statements.
  | nested {span : Span} {body : Block} : Part (.stmt (.block span body)) 0 (.block body)
  | ifInit {span : Span} {init : Stmt} {cond : Expr} {body : Block} {orElse : Option Stmt} :
      Part (.stmt (.ifStmt span (some init) cond body orElse)) 0 (.stmt init)
  | ifCond {span : Span} {init : Option Stmt} {cond : Expr} {body : Block} {orElse : Option Stmt} :
      Part (.stmt (.ifStmt span init cond body orElse)) init.toList.length (.expr cond)
  | ifBody {span : Span} {init : Option Stmt} {cond : Expr} {body : Block} {orElse : Option Stmt} :
      Part (.stmt (.ifStmt span init cond body orElse)) (init.toList.length + 1) (.block body)
  | ifElse {span : Span} {init : Option Stmt} {cond : Expr} {body : Block} {orElse : Stmt} :
      Part (.stmt (.ifStmt span init cond body (some orElse))) (init.toList.length + 2)
        (.stmt orElse)
  | returned {span : Span} {values : List Expr} {i : Nat} {e : Expr} (h : values[i]? = some e) :
      Part (.stmt (.returnStmt span values)) i (.expr e)
  | target {span : Span} {op : AssignOp} {targets values : List Expr} {i : Nat} {e : Expr}
      (h : targets[i]? = some e) : Part (.stmt (.assign span op targets values)) i (.expr e)
  | assigned {span : Span} {op : AssignOp} {targets values : List Expr} {i : Nat} {e : Expr}
      (h : values[i]? = some e) :
      Part (.stmt (.assign span op targets values)) (targets.length + i) (.expr e)
  | stepTarget {span : Span} {target : Expr} {up : Bool} :
      Part (.stmt (.step span target up)) 0 (.expr target)
  | value {span : Span} {value : Expr} : Part (.stmt (.expr span value)) 0 (.expr value)
  | channel {span : Span} {channel value : Expr} :
      Part (.stmt (.send span channel value)) 0 (.expr channel)
  | sent {span : Span} {channel value : Expr} :
      Part (.stmt (.send span channel value)) 1 (.expr value)
  | declaredName {span : Span} {before after : List Spec} {names : List IdentId}
      {values : List Expr} {i : Nat} {id : IdentId} (h : names[i]? = some id) :
      Part (.stmt (.vars span (before ++ .mk names values :: after)))
        (Spec.count before + i) (.ident id span)
  | declaredValue {span : Span} {before after : List Spec} {names : List IdentId}
      {values : List Expr} {i : Nat} {e : Expr} (h : values[i]? = some e) :
      Part (.stmt (.vars span (before ++ .mk names values :: after)))
        (Spec.count before + (names.length + i)) (.expr e)
  | goCall {span : Span} {call : Expr} : Part (.stmt (.go span call)) 0 (.expr call)
  | deferCall {span : Span} {call : Expr} : Part (.stmt (.defer span call)) 0 (.expr call)
  | loopInit {span : Span} {init : Stmt} {cond : Option Expr} {post : Option Stmt} {body : Block} :
      Part (.stmt (.loop span (some init) cond post body)) 0 (.stmt init)
  | loopCond {span : Span} {init : Option Stmt} {cond : Expr} {post : Option Stmt} {body : Block} :
      Part (.stmt (.loop span init (some cond) post body)) init.toList.length (.expr cond)
  | loopPost {span : Span} {init : Option Stmt} {cond : Option Expr} {post : Stmt} {body : Block} :
      Part (.stmt (.loop span init cond (some post) body))
        (init.toList.length + cond.toList.length) (.stmt post)
  | loopBody {span : Span} {init : Option Stmt} {cond : Option Expr} {post : Option Stmt}
      {body : Block} : Part (.stmt (.loop span init cond post body))
        (init.toList.length + cond.toList.length + post.toList.length) (.block body)
  | rangeKey {span : Span} {key : Expr} {value : Option Expr} {define : Bool} {subject : Expr}
      {body : Block} : Part (.stmt (.range span (some key) value define subject body)) 0 (.expr key)
  | rangeValue {span : Span} {key : Option Expr} {value : Expr} {define : Bool} {subject : Expr}
      {body : Block} : Part (.stmt (.range span key (some value) define subject body))
        key.toList.length (.expr value)
  | rangeSubject {span : Span} {key value : Option Expr} {define : Bool} {subject : Expr}
      {body : Block} : Part (.stmt (.range span key value define subject body))
        (key.toList.length + value.toList.length) (.expr subject)
  | rangeBody {span : Span} {key value : Option Expr} {define : Bool} {subject : Expr}
      {body : Block} : Part (.stmt (.range span key value define subject body))
        (key.toList.length + value.toList.length + 1) (.block body)
  | switchInit {span : Span} {init : Stmt} {newName : Option IdentId} {tag : Option Expr}
      {clauses : List Clause} :
      Part (.stmt (.switch span (some init) newName tag clauses)) 0 (.stmt init)
  | switchName {span : Span} {init : Option Stmt} {newName : IdentId} {tag : Option Expr}
      {clauses : List Clause} : Part (.stmt (.switch span init (some newName) tag clauses))
        init.toList.length (.ident newName span)
  | switchTag {span : Span} {init : Option Stmt} {newName : Option IdentId} {tag : Expr}
      {clauses : List Clause} : Part (.stmt (.switch span init newName (some tag) clauses))
        (init.toList.length + newName.toList.length) (.expr tag)
  | switchClause {span : Span} {init : Option Stmt} {newName : Option IdentId} {tag : Option Expr}
      {clauses : List Clause} {i : Nat} {c : Clause} (h : clauses[i]? = some c) :
      Part (.stmt (.switch span init newName tag clauses))
        (init.toList.length + newName.toList.length + tag.toList.length + i) (.clause c)
  | selectClause {span : Span} {clauses : List Clause} {i : Nat} {c : Clause}
      (h : clauses[i]? = some c) : Part (.stmt (.select span clauses)) i (.clause c)
  | labeled {span : Span} {label : String} {s : Stmt} :
      Part (.stmt (.labeled span label s)) 0 (.stmt s)
  | rawPart {span : Span} {parts : List Expr} {i : Nat} {e : Expr} (h : parts[i]? = some e) :
      Part (.stmt (.raw span parts)) i (.expr e)
  -- Cases.
  | caseValue {values : List Expr} {comm : Option Stmt} {body : Block} {i : Nat} {e : Expr}
      (h : values[i]? = some e) : Part (.clause (.mk values comm body)) i (.expr e)
  | caseComm {values : List Expr} {comm : Stmt} {body : Block} :
      Part (.clause (.mk values (some comm) body)) values.length (.stmt comm)
  | caseBody {values : List Expr} {comm : Option Stmt} {body : Block} :
      Part (.clause (.mk values comm body)) (values.length + comm.toList.length) (.block body)
  -- Expressions.
  | identifier {span : Span} {id : IdentId} : Part (.expr (.ident span id)) 0 (.ident id span)
  | unaryOperand {span : Span} {op : UnaryOp} {operand : Expr} :
      Part (.expr (.unary span op operand)) 0 (.expr operand)
  | left {span : Span} {op : BinaryOp} {left right : Expr} :
      Part (.expr (.binary span op left right)) 0 (.expr left)
  | right {span : Span} {op : BinaryOp} {left right : Expr} :
      Part (.expr (.binary span op left right)) 1 (.expr right)
  | callee {span : Span} {callee : Expr} {args : List Expr} :
      Part (.expr (.call span callee args)) 0 (.expr callee)
  | argument {span : Span} {callee : Expr} {args : List Expr} {i : Nat} {e : Expr}
      (h : args[i]? = some e) : Part (.expr (.call span callee args)) (1 + i) (.expr e)
  | selected {span : Span} {operand : Expr} {field : String} :
      Part (.expr (.selector span operand field)) 0 (.expr operand)
  | inner {span : Span} {inner : Expr} : Part (.expr (.paren span inner)) 0 (.expr inner)
  | literalBody {span : Span} {body : Block} : Part (.expr (.closure span body)) 0 (.block body)
  | key {span : Span} {key value : Expr} : Part (.expr (.keyed span key value)) 0 (.expr key)
  | keyedValue {span : Span} {key value : Expr} :
      Part (.expr (.keyed span key value)) 1 (.expr value)
  | grouped {span : Span} {parts : List Expr} {i : Nat} {e : Expr} (h : parts[i]? = some e) :
      Part (.expr (.group span parts)) i (.expr e)

/-! ### Children are parts -/

theorem length_flatMap_ofSpec (span : Span) (specs : List Spec) :
    (specs.flatMap (ofSpec span)).length = Spec.count specs := by
  induction specs with
  | nil => rfl
  | cons spec specs ih =>
    obtain ⟨names, values⟩ := spec
    rw [List.flatMap_cons, List.length_append, ih, ofSpec, List.length_append, List.length_map,
      List.length_map, Spec.count]

theorem getElem?_ofSpec_eq_some {span : Span} {names : List IdentId} {values : List Expr} {i : Nat}
    {m : Node} : (ofSpec span (.mk names values))[i]? = some m ↔
      (∃ id, names[i]? = some id ∧ .ident id span = m) ∨
      ∃ j, i = names.length + j ∧ ∃ e, values[j]? = some e ∧ .expr e = m := by
  simp [ofSpec, getElem?_append_eq_some]

/-- The parts of a variable declaration are those of its lines, one line after the other. -/
theorem getElem?_vars_eq_some {span : Span} {specs : List Spec} {i : Nat} {m : Node} :
    (ofStmt (.vars span specs))[i]? = some m ↔ ∃ before names values after j,
      specs = before ++ .mk names values :: after ∧ i = Spec.count before + j ∧
        (ofSpec span (.mk names values))[j]? = some m := by
  simp only [ofStmt, getElem?_flatMap_eq_some, length_flatMap_ofSpec]
  constructor
  · rintro ⟨before, ⟨names, values⟩, after, j, h⟩
    exact ⟨before, names, values, after, j, h⟩
  · rintro ⟨before, names, values, after, j, h⟩
    exact ⟨before, _, after, j, h⟩

/-- Every part is listed, at its number. -/
theorem getElem?_children_of_part {n m : Node} {i : Nat} (h : n.Part i m) :
    n.children[i]? = some m := by
  cases h
  case declaredName before after names values i id h =>
    refine getElem?_vars_eq_some.mpr ⟨before, names, values, after, i, rfl, rfl, ?_⟩
    exact getElem?_ofSpec_eq_some.mpr (.inl ⟨id, h, rfl⟩)
  case declaredValue before after names values i e h =>
    refine getElem?_vars_eq_some.mpr ⟨before, names, values, after, _, rfl, rfl, ?_⟩
    exact getElem?_ofSpec_eq_some.mpr (.inr ⟨i, rfl, e, h, rfl⟩)
  all_goals
    simp_all [children, ofBlock, ofStmt, ofExpr, Block.stmts, getElem?_append_eq_some,
      getElem?_cons_eq_some, Nat.add_assoc]

theorem part_of_getElem?_ofStmt {s : Stmt} {m : Node} {i : Nat} (h : (ofStmt s)[i]? = some m) :
    (Node.stmt s).Part i m := by
  cases s
  case vars span specs =>
    obtain ⟨before, names, values, after, j, rfl, rfl, hj⟩ := getElem?_vars_eq_some.mp h
    rcases getElem?_ofSpec_eq_some.mp hj with ⟨id, hid, rfl⟩ | ⟨j, rfl, e, he, rfl⟩
    · exact .declaredName hid
    · exact .declaredValue he
  all_goals
    simp only [ofStmt, getElem?_append_eq_some, getElem?_cons_eq_some, getElem?_toList_eq_some,
      List.getElem?_map, Option.map_eq_some_iff, List.getElem?_nil, List.length_map,
      List.length_append, reduceCtorEq, and_false, exists_false, or_false] at h
  case block => obtain ⟨rfl, rfl⟩ := h; exact .nested
  case step => obtain ⟨rfl, rfl⟩ := h; exact .stepTarget
  case expr => obtain ⟨rfl, rfl⟩ := h; exact .value
  case go => obtain ⟨rfl, rfl⟩ := h; exact .goCall
  case defer => obtain ⟨rfl, rfl⟩ := h; exact .deferCall
  case labeled => obtain ⟨rfl, rfl⟩ := h; exact .labeled
  case returnStmt => obtain ⟨e, he, rfl⟩ := h; exact .returned he
  case select => obtain ⟨c, hc, rfl⟩ := h; exact .selectClause hc
  case raw => obtain ⟨e, he, rfl⟩ := h; exact .rawPart he
  case send =>
    rcases h with ⟨rfl, rfl⟩ | ⟨_, rfl, rfl, rfl⟩
    · exact .channel
    · exact .sent
  case assign =>
    rcases h with ⟨e, he, rfl⟩ | ⟨j, rfl, e, he, rfl⟩
    · exact .target he
    · exact .assigned he
  case ifStmt =>
    rcases h with (⟨_, ⟨rfl, rfl⟩, rfl⟩ | ⟨_, rfl, ⟨rfl, rfl⟩ | ⟨_, rfl, rfl, rfl⟩⟩) |
      ⟨_, rfl, _, ⟨rfl, rfl⟩, rfl⟩
    · exact .ifInit
    · exact .ifCond
    · exact .ifBody
    · exact .ifElse
  case loop =>
    rcases h with ((⟨_, ⟨rfl, rfl⟩, rfl⟩ | ⟨_, rfl, _, ⟨rfl, rfl⟩, rfl⟩) |
      ⟨_, rfl, _, ⟨rfl, rfl⟩, rfl⟩) | ⟨_, rfl, rfl, rfl⟩
    · exact .loopInit
    · exact .loopCond
    · exact .loopPost
    · exact .loopBody
  case range =>
    rcases h with (⟨_, ⟨rfl, rfl⟩, rfl⟩ | ⟨_, rfl, _, ⟨rfl, rfl⟩, rfl⟩) |
      ⟨_, rfl, ⟨rfl, rfl⟩ | ⟨_, rfl, rfl, rfl⟩⟩
    · exact .rangeKey
    · exact .rangeValue
    · exact .rangeSubject
    · exact .rangeBody
  case switch =>
    rcases h with ((⟨_, ⟨rfl, rfl⟩, rfl⟩ | ⟨_, rfl, _, ⟨rfl, rfl⟩, rfl⟩) |
      ⟨_, rfl, _, ⟨rfl, rfl⟩, rfl⟩) | ⟨j, rfl, c, hc, rfl⟩
    · exact .switchInit
    · exact .switchName
    · exact .switchTag
    · exact .switchClause hc

theorem part_of_getElem?_ofExpr {e : Expr} {m : Node} {i : Nat} (h : (ofExpr e)[i]? = some m) :
    (Node.expr e).Part i m := by
  cases e <;>
    simp only [ofExpr, getElem?_cons_eq_some, List.getElem?_map, Option.map_eq_some_iff,
      List.getElem?_nil, reduceCtorEq, and_false, exists_false, or_false] at h
  case ident => obtain ⟨rfl, rfl⟩ := h; exact .identifier
  case unary => obtain ⟨rfl, rfl⟩ := h; exact .unaryOperand
  case selector => obtain ⟨rfl, rfl⟩ := h; exact .selected
  case paren => obtain ⟨rfl, rfl⟩ := h; exact .inner
  case closure => obtain ⟨rfl, rfl⟩ := h; exact .literalBody
  case group => obtain ⟨e, he, rfl⟩ := h; exact .grouped he
  case binary =>
    rcases h with ⟨rfl, rfl⟩ | ⟨_, rfl, rfl, rfl⟩
    · exact .left
    · exact .right
  case keyed =>
    rcases h with ⟨rfl, rfl⟩ | ⟨_, rfl, rfl, rfl⟩
    · exact .key
    · exact .keyedValue
  case call =>
    rcases h with ⟨rfl, rfl⟩ | ⟨j, rfl, e, he, rfl⟩
    · exact .callee
    · exact .argument he

/-- Children are the parts in the order of their numbers: child `i` is part `i`. -/
theorem part_iff {n m : Node} {i : Nat} : n.Part i m ↔ n.children[i]? = some m := by
  refine ⟨getElem?_children_of_part, fun h => ?_⟩
  cases n with
  | block b =>
    obtain ⟨span, stmts⟩ := b
    rw [children, ofBlock, List.getElem?_map, Option.map_eq_some_iff] at h
    obtain ⟨s, hs, rfl⟩ := h
    exact .blockStmt hs
  | stmt s => exact part_of_getElem?_ofStmt h
  | expr e => exact part_of_getElem?_ofExpr h
  | clause c =>
    obtain ⟨values, comm, body⟩ := c
    simp only [children, getElem?_append_eq_some, getElem?_cons_eq_some, getElem?_toList_eq_some,
      List.getElem?_map, Option.map_eq_some_iff, List.getElem?_nil, List.length_map,
      List.length_append, reduceCtorEq, and_false, exists_false, or_false] at h
    rcases h with (⟨e, he, rfl⟩ | ⟨_, rfl, _, ⟨rfl, rfl⟩, rfl⟩) | ⟨_, rfl, rfl, rfl⟩
    · exact .caseValue he
    · exact .caseComm
    · exact .caseBody
  | ident => simp [children] at h

/-! ### Paths from a node -/

/-- What stands at a path from a node. -/
inductive At : Node → List Nat → Node → Prop where
  | here {n : Node} : At n [] n
  | step {n k m : Node} {i : Nat} {path : List Nat} (hpart : n.Part i k) (hrest : At k path m) :
      At n (i :: path) m

/-- The node that is reached by taking the child of each number in turn. -/
def follow : Node → List Nat → Option Node
  | n, [] => some n
  | n, i :: path => n.children[i]?.bind (follow · path)

@[simp] theorem follow_nil (n : Node) : n.follow [] = some n := rfl

@[simp] theorem follow_cons (n : Node) (i : Nat) (path : List Nat) :
    n.follow (i :: path) = n.children[i]?.bind (follow · path) := rfl

/-- A path is followed piece by piece. -/
theorem follow_append (n : Node) (p q : List Nat) :
    n.follow (p ++ q) = (n.follow p).bind (·.follow q) := by
  induction p generalizing n with
  | nil => rfl
  | cons i p ih =>
    cases hm : n.children[i]? with
    | none => simp [hm]
    | some m => simp [hm, ih]

/-- Taking children leads to what stands at a path. -/
theorem at_iff {n m : Node} {path : List Nat} : n.At path m ↔ n.follow path = some m := by
  constructor
  · intro h
    induction h with
    | here => rfl
    | step hpart _ ih => rw [follow_cons, part_iff.mp hpart, Option.bind_some, ih]
  · intro h
    induction path generalizing n with
    | nil =>
      cases h
      exact .here
    | cons i path ih =>
      obtain ⟨k, hk, hm⟩ := Option.bind_eq_some_iff.mp h
      exact .step (part_iff.mpr hk) (ih hm)

end Node

/-! ### Paths from the top of a file -/

namespace File

/-- A declaration has a tree: the body of a function, or the statement that declares variables. -/
inductive Tree (f : File) : Nat → Node → Prop where
  | func {i : Nat} {span : Span} {name : String} {body : Block}
      (h : f.decls[i]? = some (.func span name (some body))) : Tree f i (.block body)
  | vars {i : Nat} {stmt : Stmt} (h : f.decls[i]? = some (.vars stmt)) : Tree f i (.stmt stmt)

/-- The tree of the declaration of a number. -/
def tree? (f : File) (i : Nat) : Option Node :=
  f.decls[i]?.bind Decl.root?

theorem tree_iff {f : File} {i : Nat} {n : Node} : f.Tree i n ↔ f.tree? i = some n := by
  constructor
  · intro h
    cases h with
    | func h => simp [tree?, h, Decl.root?]
    | vars h => simp [tree?, h, Decl.root?]
  · intro h
    obtain ⟨d, hd, hn⟩ := Option.bind_eq_some_iff.mp h
    cases d with
    | func span name body =>
      obtain ⟨body, rfl, rfl⟩ := Option.map_eq_some_iff.mp hn
      exact .func hd
    | vars stmt =>
      cases hn
      exact .vars hd

theorem mem_roots_of_tree? {f : File} {i : Nat} {n : Node} (h : f.tree? i = some n) :
    n ∈ f.roots := by
  obtain ⟨d, hd, hn⟩ := Option.bind_eq_some_iff.mp h
  exact List.mem_filterMap.mpr ⟨d, List.mem_of_getElem? hd, hn⟩

/-- The roots of a file are the trees of its declarations. -/
theorem mem_roots {f : File} {n : Node} : n ∈ f.roots ↔ ∃ i, f.Tree i n := by
  constructor
  · intro h
    obtain ⟨d, hd, hn⟩ := List.mem_filterMap.mp h
    obtain ⟨i, hi⟩ := List.mem_iff_getElem?.mp hd
    exact ⟨i, tree_iff.mpr (by rw [tree?, hi, Option.bind_some, hn])⟩
  · rintro ⟨i, h⟩
    exact mem_roots_of_tree? (tree_iff.mp h)

/-- What stands at a path that begins with the number of a declaration. -/
inductive At (f : File) : List Nat → Node → Prop where
  | intro {i : Nat} {root m : Node} {path : List Nat} (htree : f.Tree i root)
      (hat : root.At path m) : At f (i :: path) m

/-- The node at a path that begins with the number of a declaration. -/
def follow (f : File) : List Nat → Option Node
  | [] => none
  | i :: path => (f.tree? i).bind (·.follow path)

/-- What stands at a path of a file is what the path leads to. -/
theorem at_iff {f : File} {path : List Nat} {m : Node} :
    f.At path m ↔ f.follow path = some m := by
  constructor
  · rintro ⟨htree, hat⟩
    rw [follow, tree_iff.mp htree, Option.bind_some, Node.at_iff.mp hat]
  · intro h
    cases path with
    | nil => cases h
    | cons i path =>
      obtain ⟨root, hroot, hm⟩ := Option.bind_eq_some_iff.mp h
      exact .intro (tree_iff.mpr hroot) (Node.at_iff.mpr hm)

end File

end NilGuard.Go
