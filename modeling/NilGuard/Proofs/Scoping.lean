import NilGuard.Proofs.Events

/-!
What the parts of a tree do to scopes. The acts of a part are its names in the order in which they
take effect, with a scope around those that have one of their own: a function with its parameters,
named results and body, a block, a conditional, a loop, a switch, a case. So the acts say where a
name is declared and what is declared before it, and nothing about bindings.
-/

namespace NilGuard.Go

open Surface (Word roleOf)

/-- What a part of a tree does with a name, or what it does inside a scope of its own. -/
inductive Act where
  /-- A name in an expression. -/
  | value (name : Name)
  /-- A name on the left of `:=`. -/
  | target (name : Name)
  | declare (kind : BindingKind) (name : Name)
  /-- A name that the file declares, where it is declared. -/
  | use (name : Name)
  | scope (acts : List Act)

namespace Act

mutual

def events : Act → List Event
  | .value name => [.value name]
  | .target name => [.target name]
  | .declare kind name => [.declare kind name]
  | .use name => [.use name]
  | .scope acts => .enter :: (allEvents acts ++ [.leave])

/-- The events of acts one after the other. -/
def allEvents : List Act → List Event
  | [] => []
  | a :: as => a.events ++ allEvents as

end

@[simp] theorem allEvents_nil : allEvents [] = [] := by rw [allEvents]

@[simp] theorem allEvents_cons (a : Act) (as : List Act) :
    allEvents (a :: as) = a.events ++ allEvents as := by rw [allEvents]

/-- Acts one after the other have their events one after the other. -/
@[simp] theorem allEvents_append (as bs : List Act) :
    allEvents (as ++ bs) = allEvents as ++ allEvents bs := by
  induction as with
  | nil => simp
  | cons a as ih => simp [ih]

/-- The events of acts that make an identifier. -/
def made (as : List Act) : List Event :=
  Event.taking (allEvents as)

/-- The words that acts make identifiers for. -/
def words (as : List Act) : List Word :=
  Event.words (allEvents as)

@[simp] theorem made_nil : made [] = [] := by simp [made, Event.taking]

@[simp] theorem made_append (as bs : List Act) : made (as ++ bs) = made as ++ made bs := by
  simp [made, Event.taking_append]

/-- Entering and leaving a scope makes no identifier. -/
@[simp] theorem made_scope (as : List Act) : made [.scope as] = made as := by
  simp [made, events, Event.taking, Event.word?]

/-- Every identifier that acts make is for one word. -/
theorem length_made (as : List Act) : (made as).length = (words as).length :=
  Event.length_taking _

@[simp] theorem words_nil : words [] = [] := by simp [words]

@[simp] theorem words_append (as bs : List Act) : words (as ++ bs) = words as ++ words bs := by
  simp [words]

@[simp] theorem words_value (name : Name) (as : List Act) :
    words (.value name :: as) = ⟨.value, name⟩ :: words as := by
  simp [words, events, Event.words, Event.word?]

/-- A name on the left of `:=` is a word of the role that its text has there. -/
@[simp] theorem words_target (name : Name) (as : List Act) :
    words (.target name :: as) = ⟨roleOf .target name, name⟩ :: words as := by
  simp [words, events, Event.words, Event.word?]

@[simp] theorem words_declare (kind : BindingKind) (name : Name) (as : List Act) :
    words (.declare kind name :: as) = ⟨.declared, name⟩ :: words as := by
  simp [words, events, Event.words, Event.word?]

@[simp] theorem words_use (name : Name) (as : List Act) :
    words (.use name :: as) = ⟨.declared, name⟩ :: words as := by
  simp [words, events, Event.words, Event.word?]

/-- A scope hides no words. -/
@[simp] theorem words_scope (as bs : List Act) :
    words (.scope as :: bs) = words as ++ words bs := by
  simp [words, events, Event.words, List.filterMap_cons, Event.word?]

@[simp] theorem words_map_declare (kind : BindingKind) (names : List Name) :
    words (names.map (.declare kind)) = Surface.declaredWords names := by
  induction names with
  | nil => simp [Surface.declaredWords]
  | cons name names ih => simpa [Surface.declaredWords] using ih

/-- The file has its names already, but at the place of the declaration each is a word again. -/
@[simp] theorem words_map_use (names : List Name) :
    words (names.map .use) = Surface.declaredWords names := by
  induction names with
  | nil => simp [Surface.declaredWords]
  | cons name names ih => simpa [Surface.declaredWords] using ih

end Act

namespace Surface

/-- What a target of a range loop does that declares its targets. There `nil` is the literal. -/
def rangeAct (name : Name) : Act :=
  if name.text == nilName then .value name else .declare .var name

variable (text : Span → String)

mutual

/-- The acts of an expression. What `text` says about a span is the name that a type switch declares
there. -/
def exprActs : Expr → List Act
  | .ident name => [.value name]
  | .literal _ => []
  | .unary _ _ operand => exprActs operand
  | .binary _ _ left right => exprActs left ++ exprActs right
  | .call _ callee args => exprActs callee ++ exprsActs args
  | .selector _ operand _ => exprActs operand
  | .paren _ inner => exprActs inner
  | .closure _ params body => [.scope (params.map (.declare .param) ++ blockActs body)]
  | .keyed _ key value => exprActs key ++ exprActs value
  | .group _ parts => exprsActs parts
  | .typeName _ => []
  | .key name => if name.text == nilName then [.value name] else []
  | .either name asType asValue =>
    if name.text == nilName then exprActs asValue else exprActs asType

def exprsActs : List Expr → List Act
  | [] => []
  | e :: es => exprActs e ++ exprsActs es

/-- The acts of targets, where `bare` is what a bare name does. -/
def targetsActs (bare : Name → Act) : List Expr → List Act
  | [] => []
  | .ident name :: es => bare name :: targetsActs bare es
  | e :: es => exprActs e ++ targetsActs bare es

/-- The acts of a block in the scope at hand. -/
def blockActs : Block → List Act
  | .mk _ stmts => stmtsActs stmts

def stmtsActs : List Stmt → List Act
  | [] => []
  | s :: ss => stmtActs s ++ stmtsActs ss

def optStmtActs : Option Stmt → List Act
  | none => []
  | some s => stmtActs s

def optExprActs : Option Expr → List Act
  | none => []
  | some e => exprActs e

/-- Values come before the names that their line declares. -/
def specsActs (kind : BindingKind) : List Spec → List Act
  | [] => []
  | .mk names values :: specs =>
    exprsActs values ++ names.map (.declare kind) ++ specsActs kind specs

def clausesActs : List Clause → List Act
  | [] => []
  | .mk _ values comm stmts :: cs =>
    .scope (exprsActs values ++ optStmtActs comm ++ stmtsActs stmts) :: clausesActs cs

def stmtActs : Stmt → List Act
  | .block body => [.scope (blockActs body)]
  | .ifStmt _ init cond body orElse =>
    [.scope (optStmtActs init ++ exprActs cond ++ [.scope (blockActs body)] ++ optStmtActs orElse)]
  | .returnStmt _ values => exprsActs values
  | .assign _ op targets values =>
    exprsActs values ++ if op == .define then targetsActs .target targets else exprsActs targets
  | .step _ target _ => exprActs target
  | .expr value => exprActs value
  | .send _ channel value => exprActs channel ++ exprActs value
  | .vars _ kind specs => specsActs kind specs
  | .go _ call => exprActs call
  | .defer _ call => exprActs call
  | .loop _ init cond post body =>
    [.scope (optStmtActs init ++ optExprActs cond ++ optStmtActs post ++ [.scope (blockActs body)])]
  | .range _ targets define subject body =>
    [.scope (exprActs subject
      ++ (if define then targetsActs rangeAct targets else exprsActs targets)
      ++ [.scope (blockActs body)])]
  | .switch _ init newName tag clauses =>
    [.scope (optStmtActs init ++ optExprActs tag
      ++ (newName.toList.map fun e => .declare .var ⟨text e.span, e.span⟩) ++ clausesActs clauses)]
  | .select _ clauses => clausesActs clauses
  | .labeled _ _ stmt => stmtActs stmt
  | .jump .. => []
  | .empty _ => []

end

/-- Targets act one after the other, bare names as well as other expressions. -/
theorem targetsActs_cons (bare : Name → Act) (e : Expr) (es : List Expr) :
    targetsActs text bare (e :: es) = targetsActs text bare [e] ++ targetsActs text bare es := by
  cases e <;> simp [targetsActs]

theorem targetsWords_cons (role : Role) (e : Expr) (es : List Expr) :
    targetsWords text role (e :: es) = targetsWords text role [e] ++ targetsWords text role es := by
  cases e <;> simp [targetsWords]

/-- The lines of a declaration of the file, whose names the file has already. -/
def globalsActs : List Spec → List Act
  | [] => []
  | .mk names values :: specs => exprsActs text values ++ names.map .use ++ globalsActs specs

def declActs : Decl → List Act
  | .func _ _ _ params body =>
    [.scope (params.map (.declare .param) ++ (body.map (blockActs text)).getD [])]
  | .vars _ _ specs => globalsActs text specs

/-- The acts of the declarations of a file. -/
def declsActs (decls : List Decl) : List Act :=
  decls.flatMap (declActs text)

/-! ### Words -/

/-- Whether a word becomes an identifier. -/
def Word.isIdent (w : Word) : Bool :=
  match w.role with
  | .value | .target | .declared => true
  | .field | .type => false

/-- The words that become identifiers. -/
def identWords (ws : List Word) : List Word :=
  ws.filter Word.isIdent

@[simp] theorem identWords_nil : identWords [] = [] := rfl

@[simp] theorem identWords_append (ws ws' : List Word) :
    identWords (ws ++ ws') = identWords ws ++ identWords ws' :=
  List.filter_append ..

@[simp] theorem identWords_cons (w : Word) (ws : List Word) :
    identWords (w :: ws) = (if w.isIdent then [w] else []) ++ identWords ws := by
  cases h : w.isIdent <;> simp [identWords, h]

/-- What is declared becomes an identifier. -/
@[simp] theorem identWords_declaredWords (names : List Name) :
    identWords (declaredWords names) = declaredWords names := by
  simp [identWords, declaredWords, Word.isIdent]

/-- The words of targets, when a bare name does what its role says. -/
theorem words_targetsActs {text : Span → String} {bare : Name → Act} {role : Role}
    (hbare : ∀ name, Act.words [bare name] = identWords [⟨roleOf role name, name⟩]) {es : List Expr}
    (hes : ∀ e ∈ es, (Act.words (exprActs text e)).Perm (identWords (exprWords text e))) :
    (Act.words (targetsActs text bare es)).Perm (identWords (targetsWords text role es)) := by
  induction es with
  | nil => simp [targetsActs, targetsWords]
  | cons e es ih =>
    obtain ⟨he, htail⟩ := List.forall_mem_cons.mp hes
    have htail := ih htail
    cases e with
    | ident name =>
      rw [targetsActs, targetsWords, ← List.singleton_append, Act.words_append, hbare,
        ← List.singleton_append (l := targetsWords text role es), identWords_append]
      exact htail.append_left _
    | _ =>
      simp only [targetsActs, targetsWords, Act.words_append, identWords_append]
      exact he.append htail

/-- A bare name on the left of `:=` takes the word that its role says. -/
theorem words_target_bare (name : Name) :
    Act.words [.target name] = identWords [⟨roleOf .target name, name⟩] := by
  unfold roleOf
  split <;> simp_all [Word.isIdent, roleOf]

/-- A target of a range loop is declared, unless it is `nil`, which is read as a value. -/
theorem words_rangeAct (name : Name) :
    Act.words [rangeAct name] = identWords [⟨roleOf .declared name, name⟩] := by
  unfold rangeAct roleOf
  split <;> simp [Word.isIdent]

mutual

/-- The acts of an expression take its words, in some order. -/
theorem words_exprActs (text : Span → String) (e : Expr) :
    (Act.words (exprActs text e)).Perm (identWords (exprWords text e)) := by
  cases e with
  | ident name => simp [exprActs, exprWords, Word.isIdent]
  | literal span => simp [exprActs, exprWords]
  | unary span op operand => simpa [exprActs, exprWords] using words_exprActs text operand
  | binary span op left right =>
    simpa [exprActs, exprWords] using (words_exprActs text left).append (words_exprActs text right)
  | call span callee args =>
    simpa [exprActs, exprWords] using (words_exprActs text callee).append
      (words_exprsActs text args)
  | selector span operand field => simpa [exprActs, exprWords] using words_exprActs text operand
  | paren span inner => simpa [exprActs, exprWords] using words_exprActs text inner
  | closure span params body =>
    simpa [exprActs, exprWords] using (words_blockActs text body).append_left (declaredWords params)
  | keyed span key value =>
    simpa [exprActs, exprWords] using (words_exprActs text key).append (words_exprActs text value)
  | group span parts => simpa [exprActs, exprWords] using words_exprsActs text parts
  | typeName name => simp [exprActs, exprWords, Word.isIdent]
  | key name =>
    by_cases h : name.text = nilName <;> simp [exprActs, exprWords, roleOf, h, Word.isIdent]
  | either name asType asValue =>
    by_cases h : name.text = nilName
    · simpa [exprActs, exprWords, h] using words_exprActs text asValue
    · simpa [exprActs, exprWords, h, Word.isIdent] using words_exprActs text asType

theorem words_exprsActs (text : Span → String) (es : List Expr) :
    (Act.words (exprsActs text es)).Perm (identWords (exprsWords text es)) := by
  cases es with
  | nil => simp [exprsActs, exprsWords]
  | cons e es =>
    simpa [exprsActs, exprsWords] using (words_exprActs text e).append (words_exprsActs text es)

theorem words_blockActs (text : Span → String) (b : Block) :
    (Act.words (blockActs text b)).Perm (identWords (blockWords text b)) := by
  obtain ⟨span, stmts⟩ := b
  simpa [blockActs, blockWords] using words_stmtsActs text stmts

theorem words_stmtsActs (text : Span → String) (ss : List Stmt) :
    (Act.words (stmtsActs text ss)).Perm (identWords (stmtsWords text ss)) := by
  cases ss with
  | nil => simp [stmtsActs, stmtsWords]
  | cons s ss =>
    simpa [stmtsActs, stmtsWords] using (words_stmtActs text s).append (words_stmtsActs text ss)

theorem words_optStmtActs (text : Span → String) (s : Option Stmt) :
    (Act.words (optStmtActs text s)).Perm (identWords (optStmtWords text s)) := by
  cases s with
  | none => simp [optStmtActs, optStmtWords]
  | some s => simpa [optStmtActs, optStmtWords] using words_stmtActs text s

theorem words_optExprActs (text : Span → String) (e : Option Expr) :
    (Act.words (optExprActs text e)).Perm (identWords (optExprWords text e)) := by
  cases e with
  | none => simp [optExprActs, optExprWords]
  | some e => simpa [optExprActs, optExprWords] using words_exprActs text e

theorem words_specsActs (text : Span → String) (kind : BindingKind) (specs : List Spec) :
    (Act.words (specsActs text kind specs)).Perm (identWords (specsWords text specs)) := by
  cases specs with
  | nil => simp [specsActs, specsWords]
  | cons spec specs =>
    obtain ⟨names, values⟩ := spec
    simp only [specsActs, specsWords, Act.words_append, Act.words_map_declare, identWords_append,
      identWords_declaredWords]
    exact (((words_exprsActs text values).append_right _).trans List.perm_append_comm).append
      (words_specsActs text kind specs)

theorem words_clausesActs (text : Span → String) (cs : List Clause) :
    (Act.words (clausesActs text cs)).Perm (identWords (clausesWords text cs)) := by
  cases cs with
  | nil => simp [clausesActs, clausesWords]
  | cons c cs =>
    obtain ⟨span, values, comm, stmts⟩ := c
    simp only [clausesActs, clausesWords, Act.words_scope, Act.words_append, identWords_append]
    exact (((words_exprsActs text values).append (words_optStmtActs text comm)).append
      (words_stmtsActs text stmts)).append (words_clausesActs text cs)

/-- The acts of a statement take its words. The order is another one where values are resolved
before what they are given to. -/
theorem words_stmtActs (text : Span → String) (s : Stmt) :
    (Act.words (stmtActs text s)).Perm (identWords (stmtWords text s)) := by
  cases s with
  | block body => simpa [stmtActs, stmtWords] using words_blockActs text body
  | ifStmt span init cond body orElse =>
    simp only [stmtActs, stmtWords, Act.words_scope, Act.words_append, Act.words_nil,
      identWords_append, List.append_nil]
    exact (((words_optStmtActs text init).append (words_exprActs text cond)).append
      (words_blockActs text body)).append (words_optStmtActs text orElse)
  | returnStmt span values => simpa [stmtActs, stmtWords] using words_exprsActs text values
  | assign span op targets values =>
    have htargets : (Act.words (if op == .define then targetsActs text .target targets
        else exprsActs text targets)).Perm (identWords (if op == .define
          then targetsWords text .target targets else exprsWords text targets)) := by
      split
      · exact words_targetsActs words_target_bare fun e _ => words_exprActs text e
      · exact words_exprsActs text targets
    simp only [stmtActs, stmtWords, Act.words_append, identWords_append]
    exact ((words_exprsActs text values).append htargets).trans List.perm_append_comm
  | step span target up => simpa [stmtActs, stmtWords] using words_exprActs text target
  | expr value => simpa [stmtActs, stmtWords] using words_exprActs text value
  | send span channel value =>
    simpa [stmtActs, stmtWords] using (words_exprActs text channel).append
      (words_exprActs text value)
  | vars span kind specs => simpa [stmtActs, stmtWords] using words_specsActs text kind specs
  | go span call => simpa [stmtActs, stmtWords] using words_exprActs text call
  | defer span call => simpa [stmtActs, stmtWords] using words_exprActs text call
  | loop span init cond post body =>
    simp only [stmtActs, stmtWords, Act.words_scope, Act.words_append, Act.words_nil,
      identWords_append, List.append_nil]
    exact (((words_optStmtActs text init).append (words_optExprActs text cond)).append
      (words_optStmtActs text post)).append (words_blockActs text body)
  | range span targets define subject body =>
    have htargets : (Act.words (if define then targetsActs text rangeAct targets
        else exprsActs text targets)).Perm (identWords (if define
          then targetsWords text .declared targets else exprsWords text targets)) := by
      split
      · exact words_targetsActs words_rangeAct fun e _ => words_exprActs text e
      · exact words_exprsActs text targets
    simp only [stmtActs, stmtWords, Act.words_scope, Act.words_append, Act.words_nil,
      identWords_append, List.append_nil]
    exact (((words_exprActs text subject).append htargets).trans List.perm_append_comm).append
      (words_blockActs text body)
  | switch span init newName tag clauses =>
    have hnew : Act.words (newName.toList.map fun e => .declare .var ⟨text e.span, e.span⟩) =
        identWords (newName.toList.map fun e => (⟨.declared, text e.span, e.span⟩ : Word)) := by
      cases newName <;> simp [Word.isIdent]
    simp only [stmtActs, stmtWords, Act.words_scope, Act.words_append, Act.words_nil,
      identWords_append, List.append_nil, hnew, List.append_assoc]
    refine (words_optStmtActs text init).append ?_
    simp only [← List.append_assoc]
    exact (((words_optExprActs text tag).append_right _).trans List.perm_append_comm).append
      (words_clausesActs text clauses)
  | select span clauses => simpa [stmtActs, stmtWords] using words_clausesActs text clauses
  | labeled span label stmt => simpa [stmtActs, stmtWords] using words_stmtActs text stmt
  | jump span word => simp [stmtActs, stmtWords]
  | empty span => simp [stmtActs, stmtWords]

end

/-- So do the declarations of the file. -/
theorem words_globalsActs (text : Span → String) (specs : List Spec) :
    (Act.words (globalsActs text specs)).Perm (identWords (specsWords text specs)) := by
  induction specs with
  | nil => simp [globalsActs, specsWords]
  | cons spec specs ih =>
    obtain ⟨names, values⟩ := spec
    simp only [globalsActs, specsWords, Act.words_append, Act.words_map_use, identWords_append,
      identWords_declaredWords]
    exact (((words_exprsActs text values).append_right _).trans List.perm_append_comm).append ih

theorem words_declActs (text : Span → String) (d : Decl) :
    (Act.words (declActs text d)).Perm (identWords (declWords text d)) := by
  cases d with
  | func span method name params body =>
    cases body with
    | none => simp [declActs, declWords]
    | some body =>
      simpa [declActs, declWords] using (words_blockActs text body).append_left
        (declaredWords params)
  | vars span kind specs => exact words_globalsActs text specs

theorem words_declsActs (text : Span → String) (decls : List Decl) :
    (Act.words (declsActs text decls)).Perm (identWords (decls.flatMap (declWords text))) := by
  induction decls with
  | nil => simp [declsActs]
  | cons d decls ih =>
    simpa [declsActs] using (words_declActs text d).append ih

end Surface

end NilGuard.Go
