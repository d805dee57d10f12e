import NilGuard.Go.Grammar.Stmts
import NilGuard.Proofs.Grammar.Exprs

/-!
Statements and declarations on renamed tokens.
-/

namespace NilGuard.Go.Surface

variable {σ : Renaming} {text : Span → String} {u v w : List Token}

/-! ### Words of lists -/

section
variable (text : Span → String)

/-- The words of a list are those of its entries one after the other. -/
@[simp] theorem stmtsWords_eq (ss : List Stmt) :
    stmtsWords text ss = ss.flatMap (stmtWords text) := by
  induction ss with
  | nil => rfl
  | cons s ss ih => rw [stmtsWords, ih, List.flatMap_cons]

@[simp] theorem optStmtWords_eq (s : Option Stmt) :
    optStmtWords text s = s.toList.flatMap (stmtWords text) := by
  cases s <;> simp [optStmtWords]

@[simp] theorem optExprWords_eq (e : Option Expr) :
    optExprWords text e = e.toList.flatMap (exprWords text) := by
  cases e <;> simp [optExprWords]

/-- The words of one line of a declaration. -/
def specWords : Spec → List Word
  | .mk names values => declaredWords names ++ exprsWords text values

@[simp] theorem specsWords_eq (xs : List Spec) :
    specsWords text xs = xs.flatMap (specWords text) := by
  induction xs with
  | nil => rfl
  | cons x xs ih => cases x; simp [specsWords, specWords, ih]

/-- The words of one case. -/
def clauseWords : Clause → List Word
  | .mk _ values comm stmts =>
    exprsWords text values ++ optStmtWords text comm ++ stmtsWords text stmts

@[simp] theorem clausesWords_eq (cs : List Clause) :
    clausesWords text cs = cs.flatMap (clauseWords text) := by
  induction cs with
  | nil => rfl
  | cons c cs ih => cases c; simp [clausesWords, clauseWords, ih]

end

attribute [local simp] stmtWords

theorem Pieces.exprsWords {es : List Expr} (h : Pieces (ExprAt text) u es) :
    Covers text u (es.flatMap (exprWords text)) :=
  h.covers fun _ _ he => he.covers

/-- Targets stand where the expressions stand that they were read as. -/
theorem Pieces.targetsWords {es : List Expr} (h : Pieces (ExprAt text) u es) (role : Role) :
    Covers text u (targetsWords text role es) := by
  induction es generalizing u with
  | nil => simpa [Surface.targetsWords] using Covers.none u
  | cons e es ih =>
    obtain ⟨before, used, rest, rfl, he, hes⟩ := h.uncons
    refine Covers.skip_left ?_ before
    cases e with
    | ident n =>
      have hn : Covers text used [⟨.value, n⟩] := by simpa [exprWords] using he.covers
      simpa [Surface.targetsWords] using (hn.recast_head (roleOf role n)).append (ih hes)
    | _ => simpa [Surface.targetsWords] using he.covers.append (ih hes)

namespace Grammar

open NilGuard.Reader

variable {g : Rules} {cx : Context}

theorem exprList_tracks (hg : g.Track σ text) (cx : Context) :
    Tracks σ (exprList g cx) (exprList g cx) (Pieces (ExprAt text)) :=
  (commaList_tracks cx (expr_tracks hg cx)).mono fun _ _ h => h.pieces

@[simp] theorem lastSpan_default (σ : Renaming) (es : List Expr) :
    lastSpan default (es.map σ.expr) = σ.span (lastSpan default es) := by
  rw [← lastSpan_map, σ.span_default]

@[simp] theorem listSpan_map (σ : Renaming) (es : List Expr) :
    listSpan (es.map σ.expr) = σ.span (listSpan es) := by
  rw [listSpan, listSpan, lastSpan_default]
  cases es <;> simp

/-! ### Simple statements -/

/-- The words of the guard of a type switch that a statement may be. -/
def guardWords (text : Span → String) (x : Option Expr × Expr) : List Word :=
  (x.1.toList.map fun e => ⟨.declared, text e.span, e.span⟩) ++ exprWords text x.2

/-- A simple statement that was read from tokens. It may be the guard of a type switch instead. -/
structure SimpleAt (text : Span → String) (used : List Token) (s : Stmt) : Prop where
  covers : Covers text used (stmtWords text s)
  guard : ∀ x, guardParts s = some x → Covers text used (guardWords text x)

theorem SimpleAt.expr {e : Expr} (h : ExprAt text u e) : SimpleAt text u (.expr e) := by
  refine ⟨by simpa using h.covers, fun x hx => ?_⟩
  cases hx
  simpa [guardWords] using h.covers

/-- An assignment is the guard of a type switch only if it has one value. Its first target is the
new name. -/
theorem guardParts_assign {s : Span} {op : AssignOp} {targets values : List Expr}
    {x : Option Expr × Expr} (h : guardParts (.assign s op targets values) = some x) :
    ∃ value, values = [value] ∧ x = (targets.head?, value) := by
  unfold guardParts at h
  split at h
  · rename_i heq
    cases heq
  · rename_i heq
    cases heq
    cases h
    exact ⟨_, rfl, rfl⟩
  · cases h

/-- An assignment has its targets and values among the tokens, in whichever role the targets are
read. -/
theorem SimpleAt.assign {s : Span} {op : AssignOp} {targets values : List Expr}
    (ht : Pieces (ExprAt text) u targets) (hv : Pieces (ExprAt text) v values) :
    SimpleAt text (u ++ v) (.assign s op targets values) := by
  refine ⟨?_, fun x hx => ?_⟩
  · rw [stmtWords, exprsWords_eq, exprsWords_eq]
    refine .append ?_ hv.exprsWords
    split
    · exact ht.targetsWords .target
    · exact ht.exprsWords
  · obtain ⟨value, rfl, rfl⟩ := guardParts_assign hx
    refine Covers.append ?_ (by simpa using hv.exprsWords)
    cases targets with
    | nil => exact .none u
    | cons e es =>
      obtain ⟨before, used, rest, rfl, he, -⟩ := ht.uncons
      exact (Covers.several used e.span he.spansIn (.none rest)).skip_left before

/-- Behind the first expressions an operator decides between an assignment, a step and a send. It is
no name, so the renaming leaves it as it is. -/
theorem simpleRest_tracks (hg : g.Track σ text) (cx : Context) {targets : List Expr}
    (ht : Pieces (ExprAt text) u targets) :
    Tracks σ (simpleRest g cx targets) (simpleRest g cx (targets.map σ.expr))
      fun used s => SimpleAt text (u ++ used) s := by
  refine (ahead_tracks cx).bind fun _ o ho => ?_
  obtain rfl := ho
  have hop :
      ((rename σ o).bind fun t => if t.kind == .operator then AssignOp.ofToken? t.text else none) =
      o.bind fun t => if t.kind == .operator then AssignOp.ofToken? t.text else none := by
    cases o with
    | none => rfl
    | some t =>
      by_cases hkind : t.kind = .operator
      · simp [hkind, σ.text_token]
      · simp [hkind]
  rw [hop]
  cases o.bind fun t => if t.kind == .operator then AssignOp.ofToken? t.text else none with
  | some op =>
    refine next_tracks.bind fun v _ _ => (exprList_tracks hg cx).bind fun w values hvalues =>
      .pure ?_ (by simp)
    simpa using SimpleAt.assign ht (hvalues.skip_left v)
  | none =>
    match targets with
    | [] | _ :: _ :: _ => exact .failure
    | [e] =>
      have he : ExprAt text u e := by
        obtain ⟨before, used, rest, rfl, he, -⟩ := ht.uncons
        exact (he.skip_right rest).skip_left before
      have hexpr := SimpleAt.expr he
      cases o with
      | none => exact .pure (by simpa using hexpr) (by simp)
      | some t =>
        refine .cond (by simp) (fun _ => ?step) fun _ => .cond (by simp) (fun _ => ?send) fun _ =>
          .pure (by simpa using hexpr) (by simp)
        case step =>
          refine next_tracks.bind fun v _ _ => .pure ⟨?_, fun _ hx => by cases hx⟩ (by simp)
          simpa using he.covers.skip_right v
        case send =>
          refine next_tracks.bind fun v _ _ => (expr_tracks hg cx).bind fun w value hvalue =>
            .pure ⟨?_, fun _ hx => by cases hx⟩ (by simp)
          simpa using he.covers.append (hvalue.covers.skip_left v)

theorem simple_tracks (hg : g.Track σ text) (cx : Context) :
    Tracks σ (simple g cx) (simple g cx) (SimpleAt text) :=
  (exprList_tracks hg cx).bind fun _ _ h => simpleRest_tracks hg cx h

/-! ### Declarations -/

/-- One item, or several in parentheses. -/
theorem declared_tracks {α : Type} [Renamable α] {item : Reader (α × Span)}
    {Q : List Token → α → Prop} (hitem : Tracks σ item item fun used x => Q used x.1) :
    Tracks σ (declared item) (declared item) fun used x => Pieces Q used x.1 := by
  refine (isAhead_tracks .inner "(").bind fun _ b hb => ?_
  obtain rfl := hb
  refine .cond .rfl (fun _ => ?_) fun _ => ?_
  · refine next_tracks.bind fun u _ _ => (itemList_tracks [")"] hitem).bind fun v items hitems =>
      (expect_tracks ")").bind fun w last _ => .pure ?_ (by simp [Function.comp_def, rename])
    have hpieces : Pieces Q v (items.map (·.1)) := hitems.map fun _ _ h => h
    simpa using (hpieces.skip_left u).skip_right w
  · refine hitem.bind fun u x hx => .pure ?_ (by simp [rename])
    simpa using Pieces.one hx

/-- In constants a comma in front of a later name is kept as a name. It is no name among the tokens,
so it is not renamed. -/
theorem laterName_tracks (text : Span → String) (kind : BindingKind) :
    Tracks σ (laterName kind) (laterName kind)
      fun used o => o.elim (used = []) (DeclaresAt text used) := by
  refine (accept_tracks .outer ",").bind fun u o ho => ?_
  cases o with
  | none => exact .pure (by simpa using ho.1) rfl
  | some comma =>
    obtain ⟨rfl, hmarked⟩ := ho
    have hcomma : Name.mk (σ.token comma).text (σ.token comma).span = σ.name
        ⟨comma.text, comma.span⟩ := by
      simp [Renaming.name, Renaming.token, hmarked comma rfl]
    refine name_tracks.bind fun v n hn => .pure ?_ ?_
    · have hmark : DeclaresAt text [comma] [⟨comma.text, comma.span⟩] :=
        Covers.word comma .declared (.inr rfl) .nil
      have hname := hmark.append (hn.declares text)
      rw [List.append_nil]
      show DeclaresAt text ([comma] ++ v) _
      split
      · exact hname
      · exact Covers.skip_left (hn.declares text) [comma]
    · dsimp only [rename_token]
      rw [hcomma]
      cases kind <;> rfl

theorem specNames_tracks (text : Span → String) (kind : BindingKind) :
    Tracks σ (specNames kind) (specNames kind) (DeclaresAt text) := by
  refine name_tracks.bind fun u n hn => ((laterName_tracks text kind).many fun _ h => h).bind
    fun v names hnames => .pure ?_ (by simp [List.map_flatten])
  have hlater : DeclaresAt text v names.flatten := by
    have hcovers := hnames.covers fun _ _ h => h
    rw [DeclaresAt, declaredWords, List.map_flatten]
    exact hcovers
  simpa using (hn.declares text).append hlater

theorem typeHere_tracks (hg : g.Track σ text) :
    Tracks σ (typeHere g) (typeHere g) fun _ _ => True := by
  refine (typeAhead_tracks .outer).bind fun _ b _ => .cond .rfl (fun _ => ?_) fun _ => .pure ⟨⟩ rfl
  exact (type_tracks hg .outer).map (fun _ => rfl) fun _ _ _ => ⟨⟩

/-- The bodies of the function literals in the values of a line of a declaration. -/
def specBodies : Spec → List Block
  | .mk _ values => values.flatMap exprBodies

/-- A line of a declaration that was read from tokens. -/
structure SpecAt (text : Span → String) (used : List Token) (x : Spec) : Prop where
  covers : Covers text used (specWords text x)
  bodies : Pieces (BlockAt text) used (specBodies x)

/-- A line of a declaration. A variable has a type or values, a constant has values or neither. -/
theorem spec_tracks (hg : g.Track σ text) (kind : BindingKind) :
    Tracks σ (spec g kind) (spec g kind) fun used x => SpecAt text used x.1 := by
  refine (specNames_tracks text kind).bind fun u names hnames =>
    (typeHere_tracks hg).bind fun v type _ =>
    (accept_tracks .outer "=").bind fun w o _ => ?_
  have halone : SpecAt text (u ++ (v ++ (w ++ []))) (.mk names []) :=
    ⟨by simpa [specWords, exprsWords] using Covers.skip_right hnames (v ++ w), .none _⟩
  cases o with
  | some t =>
    refine (exprList_tracks hg .outer).bind fun x values hvalues => .pure ⟨?_, ?_⟩ (by simp)
    · simpa [specWords] using Covers.append hnames (hvalues.exprsWords.skip_left (v ++ w))
    · have hbodies := hvalues.flatMap fun _ _ he => he.bodies
      simpa [specBodies] using hbodies.skip_left (u ++ v ++ w)
  | none =>
    cases type with
    | some t =>
      cases kind with
      | const => exact .failure
      | _ => exact .pure halone (by simp)
    | none =>
      cases kind with
      | const =>
        refine .pure halone ?_
        cases h : names.getLast? <;> simp [h]
      | _ => exact .failure

/-- A declaration of variables or constants has its lines one after the other, and its kind is never
that of a name from outside. -/
theorem vars_tracks (hg : g.Track σ text) :
    Tracks σ (vars g) (vars g)
      fun used x => Pieces (SpecAt text) used x.2.2 ∧ x.2.1 ≠ .external := by
  refine next_tracks.bind fun u t _ => (Tracks.require (by simp)).bind fun v _ _ => ?_
  simp only [rename_token, Renaming.is_token]
  refine (declared_tracks (Q := SpecAt text) (spec_tracks hg _)).bind fun w x hx =>
    .pure ⟨?_, ?_⟩ (by simp [rename])
  · simpa using hx.skip_left (u ++ v)
  · dsimp only
    split <;> simp

theorem typeDefinition_tracks (hg : g.Track σ text) :
    Tracks σ (typeDefinition g) (typeDefinition g) fun _ _ => True :=
  (accept_tracks .outer "=").bind fun _ _ _ => (type_tracks hg .outer).mono fun _ _ _ => ⟨⟩

theorem typeSpec_tracks (hg : g.Track σ text) :
    Tracks σ (typeSpec g) (typeSpec g) fun _ _ => True := by
  refine name_tracks.bind fun _ _ _ => Tracks.bind (Q := fun _ _ => True) (.orElse ?_ ?_)
    fun _ e _ => .pure ⟨⟩ (by simp [rename])
  · exact (typeParams_tracks hg).bind fun _ _ _ => typeDefinition_tracks hg
  · exact typeDefinition_tracks hg

theorem typeDecl_tracks (hg : g.Track σ text) :
    Tracks σ (typeDecl g) (typeDecl g) fun _ _ => True :=
  (expect_tracks "type").bind fun _ _ _ =>
    (declared_tracks (Q := fun _ _ => True) (typeSpec_tracks hg)).bind fun _ _ _ => .pure ⟨⟩ rfl

/-! ### Compound statements -/

/-- The header of a statement has one simple statement, or two with a semicolon between them. -/
theorem headerPair_tracks (hg : g.Track σ text) :
    Tracks σ (headerPair g) (headerPair g) fun used x => ∃ v w, used = v ++ w ∧
      SimpleAt text v x.1 ∧
      Pieces (SimpleAt text) w (x.2.bind id).toList := by
  refine (simple_tracks hg .heading).bind fun u s hs => (accept_tracks .heading ";").bind
    fun v o ho => ?_
  cases o with
  | none => exact .pure ⟨u, v, by simp, hs, .none v⟩ (by simp)
  | some t =>
    refine (isAhead_tracks .heading _).bind fun w b _ => .cond .rfl (fun _ => ?_) fun _ => ?_
    · exact .pure ⟨u, v ++ w, by simp, hs, .none _⟩ (by simp)
    · refine (simple_tracks hg .heading).bind fun x s' hs' =>
        .pure ⟨u, v ++ w ++ x, by simp, hs, ?_⟩ (by simp)
      exact (Pieces.one hs').skip_left (v ++ w)

@[simp] theorem asExpr?_stmt (σ : Renaming) (s : Stmt) :
    asExpr? (σ.stmt s) = (asExpr? s).map σ.expr := by
  cases s <;> rfl

theorem SimpleAt.asExpr {s : Stmt} (h : SimpleAt text u s) {e : Expr} (he : asExpr? s = some e) :
    Covers text u (exprWords text e) := by
  cases s with
  | expr e' => cases he; simpa using h.covers
  | _ => cases he

theorem asExpr?_bind (σ : Renaming) (s : Option Stmt) :
    (rename σ s).bind asExpr? = (s.bind asExpr?).map σ.expr := by
  cases s <;> simp

/-- What is an expression by itself keeps its place when it is taken for a condition. -/
theorem covers_of_asExpr {s : Option Stmt} (h : Pieces (SimpleAt text) u s.toList) {e : Expr}
    (he : s.bind asExpr? = some e) : Covers text u (exprWords text e) := by
  obtain ⟨s, rfl, he⟩ := Option.bind_eq_some_iff.mp he
  obtain ⟨before, used, after, rfl, hs⟩ := h.exists_of_mem (Option.mem_toList.mpr rfl)
  exact ((hs.asExpr he).skip_right after).skip_left before

/-- The words of a statement and an expression in a header. -/
def headerWords (text : Span → String) (x : Option Stmt × Expr) : List Word :=
  optStmtWords text x.1 ++ exprWords text x.2

/-- The last simple statement of the header is the condition. -/
theorem ifHeader_tracks (hg : g.Track σ text) :
    Tracks σ (ifHeader g) (ifHeader g) fun used x => Covers text used (headerWords text x) := by
  refine (headerPair_tracks hg).bind fun u x hx => ?_
  obtain ⟨first, second⟩ := x
  obtain ⟨v, w, rfl, hfirst, hsecond⟩ := hx
  cases second with
  | none =>
    simp only [rename_mk, rename_none, rename_stmt, asExpr?_stmt]
    cases he : asExpr? first with
    | none => exact .failure
    | some e =>
      refine .pure ?_ rfl
      simpa [headerWords, optStmtWords] using (hfirst.asExpr he).skip_right w
  | some second =>
    simp only [rename_mk, rename_some, asExpr?_bind]
    cases he : second.bind asExpr? with
    | none => exact .failure
    | some e =>
      refine .pure ?_ rfl
      simpa [headerWords] using hfirst.covers.append (covers_of_asExpr hsecond he)

/-- What follows `else` is another conditional or a block. -/
theorem elseBranch_tracks (hg : g.Track σ text) :
    Tracks σ (elseBranch g) (elseBranch g) fun used s => Covers text used (stmtWords text s) := by
  refine (isAhead_tracks .inner "if").bind fun _ b hb => ?_
  obtain rfl := hb
  refine .cond .rfl (fun _ => hg.stmt) fun _ => hg.block.map (fun _ => rfl) fun _ b hb => ?_
  simpa using hb.covers

theorem ifStmt_tracks (hg : g.Track σ text) :
    Tracks σ (ifStmt g) (ifStmt g) fun used s => Covers text used (stmtWords text s) := by
  refine (expect_tracks "if").bind fun u t _ => (ifHeader_tracks hg).bind fun v x hx =>
    hg.block.bind fun w body hbody => (accept_tracks .outer "else").bind fun y o _ => ?_
  have hthen := (Covers.append hx hbody.covers).skip_left u
  cases o with
  | none =>
    refine .pure ?_ (by simp [rename])
    simpa [headerWords] using hthen.skip_right y
  | some t' =>
    refine (elseBranch_tracks hg).bind fun z s hs => .pure ?_ (by simp [rename])
    simpa [headerWords] using hthen.append (hs.skip_left y)

/-- The targets are read before `range`, so they stand in front of the tokens that are taken
here. -/
theorem rangeRest_tracks (hg : g.Track σ text) (first : Span) {targets : List Expr}
    (ht : Pieces (ExprAt text) u targets) (define : Bool) :
    Tracks σ (rangeRest g first targets define)
      (rangeRest g (σ.span first) (targets.map σ.expr) define)
      fun used s => Covers text (u ++ used) (stmtWords text s) := by
  refine (expect_tracks "range").bind fun v _ _ => (expr_tracks hg .heading).bind
    fun w subject hs =>
    hg.block.bind fun x body hbody => .pure ?_ (by simp)
  have htargets : Covers text u
      (if define then targetsWords text .declared targets else exprsWords text targets) := by
    split
    · exact ht.targetsWords .declared
    · simpa using ht.exprsWords
  simpa using htargets.append ((hs.covers.append hbody.covers).skip_left v)

theorem unlessAhead_tracks {α : Type} [Renamable α] {p p' : Reader α} {Q : List Token → α → Prop}
    (stop : String) (hp : Tracks σ p p' Q) :
    Tracks σ (unlessAhead stop p) (unlessAhead stop p') fun used o => Pieces Q used o.toList := by
  refine (isAhead_tracks .heading stop).bind fun _ b hb => ?_
  obtain rfl := hb
  exact .cond .rfl (fun _ => .pure (by exact .nil) rfl) fun _ =>
    hp.map (fun _ => rfl) fun _ _ h => .one h

/-- The three parts of a loop, of which the first has been read. -/
theorem loopRest_tracks (hg : g.Track σ text) (first : Span) {init : Option Stmt}
    (hinit : Covers text u (optStmtWords text init)) :
    Tracks σ (loopRest g first init) (loopRest g (σ.span first) (init.map σ.stmt))
      fun used s => Covers text (u ++ used) (stmtWords text s) := by
  refine (expect_tracks ";").bind fun v _ _ =>
    (unlessAhead_tracks ";" (expr_tracks hg .heading)).bind fun w cond hcond =>
    (expect_tracks ";").bind fun x _ _ =>
    (unlessAhead_tracks _ (simple_tracks hg .heading)).bind fun y post hpost =>
    hg.block.bind fun z body hbody => .pure ?_ (by simp [rename])
  have hpost := hpost.covers fun _ _ h => h.covers
  have hrest := (hcond.exprsWords.skip_left v).append ((hpost.append hbody.covers).skip_left x)
  simpa using hinit.append hrest

/-- A loop is read in six ways. Which one it is, is seen from keywords, semicolons and braces. -/
theorem forStmt_tracks (hg : g.Track σ text) :
    Tracks σ (forStmt g) (forStmt g) fun used s => Covers text used (stmtWords text s) := by
  refine (expect_tracks "for").bind fun u t _ => (isAhead_tracks .heading _).look fun _ =>
    .cond .rfl (fun _ => ?forever) fun _ => (isAhead_tracks .heading "range").look fun _ =>
    .cond .rfl (fun _ => ?range) fun _ => (isAhead_tracks .heading ";").look fun _ =>
    .cond .rfl (fun _ => ?clauses) fun _ => (exprList_tracks hg .heading).bind fun v targets ht =>
    (follows_tracks _).look fun _ => (follows_tracks _).look fun _ =>
    .cond .rfl (fun _ => ?rangeTargets) fun _ =>
    (simpleRest_tracks hg .heading ht).bind fun w init hinit =>
    (isAhead_tracks .heading ";").look fun _ =>
    .cond .rfl (fun _ => ?initClauses) fun _ => ?condition
  case forever =>
    refine hg.block.bind fun v body hbody => .pure ?_ (by simp)
    simpa using hbody.covers.skip_left u
  case range =>
    exact (rangeRest_tracks hg t.span .nil false).mono fun v s hs => hs.skip_left u
  case clauses =>
    have hnone : Covers text [] (optStmtWords text none) := .nil
    exact (loopRest_tracks hg t.span hnone).mono fun v s hs => hs.skip_left u
  case rangeTargets =>
    refine next_tracks.bind fun w op _ => ?_
    rw [rename_token, Renaming.is_token]
    refine (rangeRest_tracks hg t.span (ht.skip_right w) _).mono fun x s hs => ?_
    simpa using hs.skip_left u
  case initClauses =>
    have hsome : Covers text (v ++ w) (optStmtWords text (some init)) := by
      simpa using hinit.covers
    refine (loopRest_tracks hg t.span hsome).mono fun x s hs => ?_
    simpa using hs.skip_left u
  case condition =>
    rw [rename_stmt, asExpr?_stmt]
    cases he : asExpr? init with
    | none => exact .failure
    | some e =>
      refine hg.block.bind fun x body hbody => .pure ?_ (by simp)
      simpa using ((hinit.asExpr he).append hbody.covers).skip_left u

/-- The words of the header of a case. -/
def caseWords (text : Span → String) (x : List Expr × Option Stmt) : List Word :=
  exprsWords text x.1 ++ optStmtWords text x.2

theorem clauseHeader_tracks {header : Reader (List Expr × Option Stmt)} (t : Token)
    (hheader : Tracks σ header header fun used x => Covers text used (caseWords text x)) :
    Tracks σ (clauseHeader header t) (clauseHeader header (σ.token t))
      fun used x => Covers text used (caseWords text x) := by
  refine .cond (by simp) (fun _ => hheader) fun _ => (Tracks.require (by simp)).bind fun u _ _ => ?_
  exact .pure (by exact .none _) rfl

/-- Cases end at the brace that closes them. -/
theorem clause_tracks (hg : g.Track σ text) {header : Reader (List Expr × Option Stmt)}
    (hheader : Tracks σ header header fun used x => Covers text used (caseWords text x)) :
    Tracks σ (clause g header) (clause g header)
      fun used o => o.elim (used = []) fun c => Covers text used (clauseWords text c) := by
  refine (isAhead_tracks .inner _).look fun _ => .cond .rfl (fun _ => .pure (by rfl) rfl) fun _ =>
    next_tracks.bind fun u t _ => (clauseHeader_tracks t hheader).bind fun v x hx =>
    (expect_tracks ":").bind fun w colon _ => (itemList_tracks stmtClosers hg.stmt).bind
    fun y ss hss =>
    .pure ?_ ?_
  · have hstmts := hss.covers fun _ _ h => h
    have hclause := (Covers.append hx (hstmts.skip_left w)).skip_left u
    simpa [clauseWords, caseWords] using hclause
  · cases h : ss.getLast? <;> simp [rename, h]

theorem clauses_tracks (hg : g.Track σ text) {header : Reader (List Expr × Option Stmt)}
    (hheader : Tracks σ header header fun used x => Covers text used (caseWords text x)) :
    Tracks σ (clauses g header) (clauses g header)
      fun used x => Covers text used (clausesWords text x.1) := by
  refine (expect_tracks _).bind fun u _ _ => ((clause_tracks hg hheader).many fun _ h => h).bind
    fun v cs hcs => (expect_tracks _).bind fun w last _ => .pure ?_ (by simp)
  have hclauses := hcs.covers fun _ _ h => h
  simpa using (hclauses.skip_left u).skip_right w

theorem switchHeader_tracks (hg : g.Track σ text) :
    Tracks σ (switchHeader g) (switchHeader g) fun used x => ∃ v w, used = v ++ w ∧
      Covers text v (optStmtWords text x.1) ∧ Pieces (SimpleAt text) w x.2.toList := by
  refine (isAhead_tracks .heading _).look fun _ => .cond .rfl (fun _ => ?_) fun _ => ?_
  · exact .pure ⟨[], [], rfl, .nil, .nil⟩ rfl
  · refine (headerPair_tracks hg).bind fun u x hx => ?_
    obtain ⟨first, second⟩ := x
    obtain ⟨v, w, rfl, hfirst, hsecond⟩ := hx
    cases second with
    | none => exact .pure ⟨[], v ++ w, by simp, .nil, (Pieces.one hfirst).skip_right w⟩ rfl
    | some second => exact .pure ⟨v, w, by simp, by simpa using hfirst.covers, hsecond⟩ rfl

/-- A renamed statement is the guard of a type switch if the statement is, with the renamed
parts. -/
theorem guardParts_stmt (σ : Renaming) (s : Stmt) :
    guardParts (σ.stmt s) = (guardParts s).map fun x => (x.1.map σ.expr, σ.expr x.2) := by
  cases s with
  | assign s op targets values =>
    match op, values with
    | .define, [value] => cases targets <;> simp [guardParts]
    | .define, [] | .define, _ :: _ :: _ => simp [guardParts]
    | .assign, _ | .compound, _ => simp [guardParts]
  | _ => simp [guardParts]

/-- The guard of a type switch has been read as a simple statement. Its words are those of the new
name and of the value. -/
theorem typeSwitch_tracks (hg : g.Track σ text) (first : Span) {init tag : Option Stmt}
    (hinit : Covers text u (optStmtWords text init)) (htag : Pieces (SimpleAt text) v tag.toList) :
    Tracks σ (typeSwitch g first init tag)
      (typeSwitch g (σ.span first) (init.map σ.stmt) (tag.map σ.stmt))
      fun used s => Covers text (u ++ (v ++ used)) (stmtWords text s) := by
  have hparts : (tag.map σ.stmt).bind guardParts =
      (tag.bind guardParts).map fun x => (x.1.map σ.expr, σ.expr x.2) := by
    cases tag <;> simp [guardParts_stmt]
  unfold typeSwitch
  rw [hparts]
  cases hguard : tag.bind guardParts with
  | none => exact .failure
  | some x =>
    obtain ⟨newName, value⟩ := x
    have hwords : Covers text v (guardWords text (newName, value)) := by
      obtain ⟨s, rfl, hs⟩ := Option.bind_eq_some_iff.mp hguard
      obtain ⟨before, used, after, rfl, hat⟩ := htag.exists_of_mem (Option.mem_toList.mpr rfl)
      exact ((hat.guard _ hs).skip_right after).skip_left before
    refine next_tracks.bind fun a _ _ => next_tracks.bind fun b _ _ => next_tracks.bind fun c _ _ =>
      next_tracks.bind fun d _ _ => (clauses_tracks hg ?_).bind fun y cs hcs =>
      .pure ?_ (by simp [rename])
    · refine (commaList_tracks .inner (type_tracks hg .inner)).bind fun z _ _ => .pure ?_ rfl
      exact .none _
    · have hrest := Covers.skip_left hcs (a ++ b ++ c ++ d)
      have hall := hinit.append (hwords.append hrest)
      simpa [guardWords] using hall

theorem valueSwitch_tracks (hg : g.Track σ text) (first : Span) {init tag : Option Stmt}
    (hinit : Covers text u (optStmtWords text init)) (htag : Pieces (SimpleAt text) v tag.toList) :
    Tracks σ (valueSwitch g first init tag)
      (valueSwitch g (σ.span first) (init.map σ.stmt) (tag.map σ.stmt))
      fun used s => Covers text (u ++ (v ++ used)) (stmtWords text s) := by
  have hvalue : (tag.map σ.stmt).bind asExpr? = (tag.bind asExpr?).map σ.expr := asExpr?_bind σ tag
  have hwords : Covers text v (optExprWords text (tag.bind asExpr?)) := by
    cases he : tag.bind asExpr? with
    | none => exact .none v
    | some e => exact covers_of_asExpr htag he
  unfold valueSwitch
  rw [hvalue]
  refine (Tracks.require (by rw [Option.isSome_map, Option.isSome_map])).bind fun w _ _ =>
    (clauses_tracks hg ?_).bind fun y cs hcs => .pure ?_ (by simp [rename])
  · refine (exprList_tracks hg .inner).bind fun z values hvalues => .pure ?_ rfl
    simpa [caseWords, optStmtWords] using hvalues.exprsWords
  · have hall := hinit.append (hwords.append (Covers.skip_left hcs w))
    simpa using hall

theorem switchStmt_tracks (hg : g.Track σ text) :
    Tracks σ (switchStmt g) (switchStmt g) fun used s => Covers text used (stmtWords text s) := by
  refine (expect_tracks "switch").bind fun u t _ => (switchHeader_tracks hg).bind fun _ x hx =>
    (follows_tracks _).look fun _ => ?_
  obtain ⟨v, w, rfl, hinit, htag⟩ := hx
  refine .cond .rfl (fun _ => ?_) fun _ => ?_
  · refine (typeSwitch_tracks hg t.span hinit htag).mono fun y s hs => ?_
    simpa using hs.skip_left u
  · refine (valueSwitch_tracks hg t.span hinit htag).mono fun y s hs => ?_
    simpa using hs.skip_left u

/-- Whether a statement sends or receives does not depend on names. -/
theorem communicates_stmt (σ : Renaming) (s : Stmt) : communicates (σ.stmt s) = communicates s := by
  cases s with
  | assign s op targets values =>
    match values with
    | [] | [_] | _ :: _ :: _ => simp [communicates]
  | _ => simp [communicates]

theorem communication_tracks (hg : g.Track σ text) :
    Tracks σ (communication g) (communication g) fun used x =>
      Covers text used (caseWords text x) := by
  refine (exprList_tracks hg .inner).bind fun u targets ht =>
    (simpleRest_tracks hg .inner ht).bind fun v s hs =>
    (Tracks.require (by simp [communicates_stmt])).bind fun w _ _ => .pure ?_ rfl
  simpa [caseWords] using hs.covers.skip_right w

theorem selectStmt_tracks (hg : g.Track σ text) :
    Tracks σ (selectStmt g) (selectStmt g) fun used s => Covers text used (stmtWords text s) := by
  refine (expect_tracks "select").bind fun u t _ =>
    (clauses_tracks hg (communication_tracks hg)).bind
    fun v x hx => .pure ?_ (by simp [rename])
  simpa using Covers.skip_left hx u

/-! ### Statements -/

theorem returnStmt_tracks (hg : g.Track σ text) :
    Tracks σ (returnStmt g) (returnStmt g) fun used s => Covers text used (stmtWords text s) := by
  refine (expect_tracks "return").bind fun u t _ => (ahead_tracks .outer).look fun o => ?_
  have hnone : Covers text (u ++ []) (stmtWords text (.returnStmt t.span [])) := by
    simpa using Covers.none u
  cases o with
  | none => exact .pure hnone (by simp)
  | some t' =>
    refine .cond (by simp) (fun _ => .pure hnone (by simp)) fun _ => ?_
    refine (exprList_tracks hg .outer).bind fun v values hvalues => .pure ?_ (by simp)
    simpa using hvalues.exprsWords.skip_left u

/-- A jump has no words, since a label is none. -/
theorem jump_tracks (text : Span → String) :
    Tracks σ jump jump fun used s => Covers text used (stmtWords text s) := by
  refine next_tracks.bind fun u t _ => (Tracks.require (by simp)).bind fun v _ hkind =>
    (ahead_tracks .outer).look fun o => ?_
  have htext : (rename σ t).text = t.text := σ.text_token (by simp [eq_of_beq hkind.2])
  have hlabel : ((rename σ o).any fun t => t.kind == .name) = o.any fun t => t.kind == .name := by
    cases o <;> simp
  rw [htext, hlabel]
  refine .cond (by simp) (fun _ => ?_) fun _ => .cond (by simp) (fun _ => ?_) fun _ => ?_
  · exact .pure (by simpa using Covers.none _) (by simp)
  · exact name_tracks.bind fun w n _ => .pure (by simpa using Covers.none _) (by simp)
  · exact .pure (by simpa using Covers.none _) (by simp)

theorem labeledStmt_tracks (hg : g.Track σ text) :
    Tracks σ (labeledStmt g) (labeledStmt g) fun used s => Covers text used (stmtWords text s) := by
  refine name_tracks.bind fun u label _ => (expect_tracks ":").bind fun v colon _ =>
    (ahead_tracks .inner).look fun o => .cond (by cases o <;> simp) (fun _ => ?_) fun _ => ?_
  · exact .pure (by simpa using Covers.none _) (by simp)
  · refine hg.stmt.bind fun w s hs => .pure ?_ (by simp)
    simpa using hs.skip_left (u ++ v)

/-- A label is known by the colon behind a name. -/
theorem labelAhead_tracks : Tracks σ labelAhead labelAhead fun used _ => used = [] := by
  refine look_tracks isLabel (fun _ => rfl) (fun _ => rfl) fun ts _ => ?_
  rcases ts with _ | ⟨t, _ | ⟨u, ts⟩⟩
  iterate 2 rfl
  simp [isLabel]

theorem varsStmt_tracks (hg : g.Track σ text) :
    Tracks σ (varsStmt g) (varsStmt g) fun used s => Covers text used (stmtWords text s) :=
  (vars_tracks hg).bind fun _ _ hx => .pure (by simpa using hx.1.covers fun _ _ h => h.covers)
    (by simp [rename])

theorem callStmt_tracks (hg : g.Track σ text) :
    Tracks σ (callStmt g) (callStmt g) fun used s => Covers text used (stmtWords text s) := by
  refine next_tracks.bind fun u t _ => (expr_tracks hg .outer).bind fun v e he => ?_
  have hcovers := he.covers.skip_left u
  refine .cond (by simp) (fun _ => ?_) fun _ => ?_
  · exact .pure (by simpa using hcovers) (by simp)
  · exact .pure (by simpa using hcovers) (by simp)

/-- A statement is read from renamed tokens as it is from the tokens. Its first token decides
how. -/
theorem stmt_tracks (hg : g.Track σ text) :
    Tracks σ (stmt g) (stmt g) fun used s => Covers text used (stmtWords text s) := by
  have hsimple : Tracks σ (simple g .outer) (simple g .outer)
      fun used s => Covers text used (stmtWords text s) :=
    (simple_tracks hg .outer).mono fun _ _ h => h.covers
  refine peek_tracks.look fun o => ?_
  cases o with
  | none => exact .failure
  | some t =>
    refine .cond (by simp) (fun hkind => ?keyword) fun _ =>
      .cond (by simp) (fun _ => ?empty) fun _ =>
      .cond (by simp) (fun _ => ?block) fun _ => labelAhead_tracks.look fun _ =>
      .cond .rfl (fun _ => labeledStmt_tracks hg) fun _ => hsimple
    case keyword =>
      have htext : (rename σ t).text = t.text := σ.text_token (by simp [eq_of_beq hkind])
      rw [htext]
      split
      case h_1 | h_2 => exact varsStmt_tracks hg
      case h_3 => exact (typeDecl_tracks hg).bind fun u s _ => .pure (by simpa using .none _) rfl
      case h_4 => exact returnStmt_tracks hg
      case h_5 | h_6 => exact callStmt_tracks hg
      case h_7 => exact ifStmt_tracks hg
      case h_8 => exact forStmt_tracks hg
      case h_9 => exact switchStmt_tracks hg
      case h_10 => exact selectStmt_tracks hg
      case h_11 | h_12 | h_13 | h_14 => exact jump_tracks text
      case h_15 => exact hsimple
    case empty =>
      exact next_tracks.bind fun u t _ => .pure (by simpa using Covers.none _) (by simp)
    case block =>
      refine hg.block.map (fun _ => rfl) fun _ b hb => ?_
      simpa using hb.covers

/-- A block ends with the token that closes it. -/
theorem block_tracks (hg : g.Track σ text) : Tracks σ (block g) (block g) (BlockAt text) := by
  refine (expect_tracks _).bind fun u first hfirst => (itemList_tracks _ (stmt_tracks hg)).bind
    fun v ss hss => (expect_tracks _).bind fun w last hlast => .pure ⟨?_, ?_⟩ (by simp)
  · have hstmts := hss.covers fun _ _ h => h
    exact ⟨u ++ v, last, by simp [hlast.1], by simpa [blockWords] using hstmts.skip_left u⟩
  · simpa [Block.span, hfirst.1, hlast.1] using (SpansIn.single first).upTo_skip v (.single last)

end Grammar

end NilGuard.Go.Surface
