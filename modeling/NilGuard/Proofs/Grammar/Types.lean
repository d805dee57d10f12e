import NilGuard.Go.Grammar.Types
import NilGuard.Proofs.Grammar.Basic

/-!
Types and signatures on renamed tokens.
-/

namespace NilGuard.Go.Surface

variable {σ : Renaming} {text : Span → String}

@[simp] theorem exprsWords_eq (text : Span → String) (es : List Expr) :
    exprsWords text es = es.flatMap (exprWords text) := by
  induction es with
  | nil => rfl
  | cons e es ih => rw [exprsWords, ih, List.flatMap_cons]

/-! ### Expressions among tokens -/

mutual

/-- The bodies of the function literals in an expression, without those inside of other bodies. -/
def exprBodies : Expr → List Block
  | .closure _ _ body => [body]
  | .unary _ _ operand => exprBodies operand
  | .binary _ _ left right => exprBodies left ++ exprBodies right
  | .call _ callee args => exprBodies callee ++ exprsBodies args
  | .selector _ operand _ => exprBodies operand
  | .paren _ inner => exprBodies inner
  | .keyed _ key value => exprBodies key ++ exprBodies value
  | .group _ parts => exprsBodies parts
  | .either name asType asValue =>
    if name.text == nilName then exprBodies asValue else exprBodies asType
  | .ident _ | .literal _ | .typeName _ | .key _ => []

def exprsBodies : List Expr → List Block
  | [] => []
  | e :: es => exprBodies e ++ exprsBodies es

end

@[simp] theorem exprsBodies_eq (es : List Expr) : exprsBodies es = es.flatMap exprBodies := by
  induction es with
  | nil => rfl
  | cons e es ih => rw [exprsBodies, ih, List.flatMap_cons]

/-- A block that was read from tokens. The last token closes it, and its words are in front of
that. -/
structure BlockAt (text : Span → String) (used : List Token) (b : Block) : Prop where
  closed : ∃ inside last, used = inside ++ [last] ∧ Covers text inside (blockWords text b)
  spansIn : SpansIn used b.span

/-- The words of a block stand in front of its last token, so they stand among all of its tokens. -/
theorem BlockAt.covers {used : List Token} {b : Block} (h : BlockAt text used b) :
    Covers text used (blockWords text b) := by
  obtain ⟨inside, last, rfl, hinside⟩ := h.closed
  exact hinside.skip_right [last]

/-- An expression or a type that was read from tokens. -/
structure ExprAt (text : Span → String) (used : List Token) (e : Expr) : Prop where
  covers : Covers text used (exprWords text e)
  spansIn : SpansIn used e.span
  bodies : Pieces (BlockAt text) used (exprBodies e)

/-- A group has the words and the bodies of its parts. -/
theorem ExprAt.group {ts : List Token} {s : Span} {es : List Expr}
    (hes : Pieces (ExprAt text) ts es) (hs : SpansIn ts s) : ExprAt text ts (.group s es) :=
  ⟨by simpa [exprWords] using hes.covers fun _ _ he => he.covers, hs,
    by simpa [exprBodies] using hes.flatMap fun _ _ he => he.bodies⟩

theorem ExprAt.literal {ts : List Token} {s : Span} (hs : SpansIn ts s) :
    ExprAt text ts (.literal s) :=
  ⟨by simpa [exprWords] using Covers.none ts, hs, by simpa [exprBodies] using Pieces.none ts⟩

/-- A span up to the last of several expressions that follow it. -/
theorem SpansIn.upTo_lastSpan {u us : List Token} {s : Span} {es : List Expr} (hs : SpansIn u s)
    (hes : Pieces (ExprAt text) us es) : SpansIn (u ++ us) (s.upTo (Grammar.lastSpan s es)) := by
  unfold Grammar.lastSpan
  cases hlast : es.getLast? with
  | none => exact hs.append_right us
  | some e =>
    obtain ⟨before, used, after, rfl, he⟩ := hes.exists_of_mem (List.mem_of_getLast? hlast)
    exact hs.upTo_skip before (he.spansIn.append_right after)

namespace Grammar

open NilGuard.Reader

/-- From the opening to the closing bracket is a span among the tokens. -/
theorem Between.spansIn {α : Type} {Q : List Token → α → Prop} {used : List Token}
    {x : Span × List α × Span} (h : Between Q used x) : SpansIn used (x.1.upTo x.2.2) := by
  obtain ⟨t, mid, t', rfl, ht, ht', -⟩ := h
  rw [ht, ht']
  exact (SpansIn.single t).upTo_skip mid (.single t')

theorem Between.pieces {α : Type} {Q : List Token → α → Prop} {used : List Token}
    {x : Span × List α × Span} (h : Between Q used x) : Pieces Q used x.2.1 := by
  obtain ⟨t, mid, t', rfl, -, -, hitems⟩ := h
  exact .skip t (hitems.skip_right [t'])

/-- The rules for what is nested take renamed tokens as they take the tokens. -/
structure Rules.Track (σ : Renaming) (text : Span → String) (g : Rules) : Prop where
  type : ∀ cx, Tracks σ (g.type cx) (g.type cx) (ExprAt text)
  expr : ∀ cx, Tracks σ (g.expr cx) (g.expr cx) (ExprAt text)
  elements : Tracks σ g.elements g.elements (ExprAt text)
  stmt : Tracks σ g.stmt g.stmt fun used s => Covers text used (stmtWords text s)
  block : Tracks σ g.block g.block (BlockAt text)
  typed : ∀ ts, (typedArguments g ts).isSome = true → TypedAhead ts

variable {g : Rules}

/-! ### Names of types -/

/-- Whether a type comes next is seen from two tokens at most, and what is looked for is kept. -/
theorem typeAhead_tracks (cx : Context) :
    Tracks σ (typeAhead cx) (typeAhead cx) fun used _ => used = [] := by
  refine (ahead_tracks cx).bind fun _ o ho => ?_
  cases o with
  | none => exact .pure (by simpa using ho) rfl
  | some t =>
    refine .cond (by simp) (fun _ => ?_) fun _ => .pure (by simpa using ho) (by simp)
    exact (follows_tracks _).mono fun _ _ h => by simp [ho, h]

@[simp] theorem lastSpan_map (σ : Renaming) (s : Span) (es : List Expr) :
    lastSpan (σ.span s) (es.map σ.expr) = σ.span (lastSpan s es) := by
  unfold lastSpan
  cases h : es.getLast? <;> simp [h, σ.span_expr]

theorem typeUnion_tracks (hg : g.Track σ text) (cx : Context) :
    Tracks σ (typeUnion g cx) (typeUnion g cx) (ExprAt text) := by
  refine (hg.type cx).bind fun u e he => (more_tracks cx "|" (hg.type cx)).bind fun us es hes => ?_
  refine .pure (.group ?_ ?_) (by simp)
  · simpa using hes.cons he
  · simpa using he.spansIn.upTo_lastSpan hes

theorem typeArgs_tracks (hg : g.Track σ text) :
    Tracks σ (typeArgs g) (typeArgs g) (ExprAt text) := by
  refine (enclosed_tracks "[" "]" (typeUnion_tracks hg .inner)).bind fun u x hx => ?_
  obtain ⟨first, args, last⟩ := x
  refine (Tracks.require (by simp)).bind fun v _ hv => .pure (.group ?_ ?_) (by simp)
  · simpa [hv.1] using hx.pieces
  · simpa [hv.1] using hx.spansIn

theorem qualifiedName_tracks (text : Span → String) (cx : Context) :
    Tracks σ (qualifiedName cx) (qualifiedName cx) (ExprAt text) := by
  refine name_tracks.bind fun u n hn => (accept_tracks cx ".").bind fun v o ho => ?_
  cases o with
  | none => exact .pure (.literal (by simpa [ho] using hn.spansIn)) (by simp)
  | some t =>
    refine name_tracks.bind fun w field hfield => .pure (.group ?_ ?_) (by simp)
    · simpa using ((Pieces.one (Q := ExprAt text) (.literal hn.spansIn)).skip_right v).append
        (.one (.literal hfield.spansIn))
    · simpa using hn.spansIn.upTo_skip v hfield.spansIn

/-- The name of a type, with arguments in brackets if they can be read as such. -/
theorem typeName_tracks (hg : g.Track σ text) (cx : Context) :
    Tracks σ (typeName g cx) (typeName g cx) (ExprAt text) := by
  refine (qualifiedName_tracks text cx).bind fun u e he =>
    (isAhead_tracks cx "[").bind fun v b hv => ?_
  obtain rfl := hv
  refine .cond .rfl (fun _ => ?_) fun _ => .pure (by simpa using he) (by simp)
  refine (typeArgs_tracks hg).attempt.bind fun w o ho => ?_
  cases o with
  | none => exact .pure (by simpa [show w = [] from ho] using he) (by simp)
  | some args =>
    have hargs : ExprAt text w args := ho
    refine .pure (.group ?_ ?_) (by simp)
    · simpa using (Pieces.one he).append (Pieces.one hargs)
    · simpa using he.spansIn.upTo hargs.spansIn

/-! ### Parameters -/

instance : Renamable Param where
  rename σ
    | .bare n => .bare (σ.name n)
    | .typed n => .typed (σ.name n)
    | .variadic n => .variadic (n.map σ.name)
    | .type => .type

/-- The names in an entry of a parameter list. -/
def Param.ownNames : Param → List Name
  | .bare n | .typed n => [n]
  | .variadic n => n.toList
  | .type => []

/-- A list of parameters declares no names but those of its entries. -/
theorem Param.names_sublist (waiting : List Name) (ps : List Param) :
    (Param.names waiting ps).Sublist (waiting ++ ps.flatMap Param.ownNames) := by
  induction ps generalizing waiting with
  | nil => exact List.nil_sublist _
  | cons p ps ih =>
    cases p with
    | bare n => simpa [names, ownNames] using ih (waiting ++ [n])
    | typed n => simpa [names, ownNames] using ih []
    | variadic n =>
      refine .trans ?_ (List.sublist_append_right waiting _)
      simpa [names, ownNames] using ih []
    | type =>
      refine .trans ?_ (List.sublist_append_right waiting _)
      simpa [names, ownNames] using ih []

/-- A renaming keeps the kinds of the entries, and only these decide which names are declared. -/
theorem Param.names_map (σ : Renaming) (waiting : List Name) (ps : List Param) :
    Param.names (waiting.map σ.name) (ps.map (rename σ)) = (Param.names waiting ps).map σ.name := by
  induction ps generalizing waiting with
  | nil => rfl
  | cons p ps ih =>
    have hnil := ih []
    cases p with
    | bare n => simpa [names, rename] using ih (waiting ++ [n])
    | typed n => simpa [names, rename] using hnil
    | variadic n => cases n <;> simpa [names, rename] using hnil
    | type => simpa [names, rename] using hnil

/-- Names that are declared among tokens. -/
def DeclaresAt (text : Span → String) (used : List Token) (names : List Name) : Prop :=
  Covers text used (declaredWords names)

theorem DeclaresAt.none (ts : List Token) : DeclaresAt text ts [] :=
  Covers.none ts

theorem DeclaresAt.append {ts ts' : List Token} {ns ns' : List Name} (h : DeclaresAt text ts ns)
    (h' : DeclaresAt text ts' ns') : DeclaresAt text (ts ++ ts') (ns ++ ns') := by
  simpa [DeclaresAt, declaredWords] using Covers.append h h'

theorem DeclaresAt.skip_right {ts : List Token} {ns : List Name} (h : DeclaresAt text ts ns)
    (after : List Token) : DeclaresAt text (ts ++ after) ns :=
  Covers.skip_right h after

theorem NameAt.declares {used : List Token} {n : Name} (h : NameAt σ used n)
    (text : Span → String) :
    DeclaresAt text used [n] :=
  h.covers text (.inr rfl)

theorem paramEnds_tracks : Tracks σ paramEnds paramEnds fun _ _ => True := by
  refine (isAhead_tracks .inner ",").bind fun _ b _ =>
    (isAhead_tracks .inner ")").bind fun _ c _ => ?_
  exact (Tracks.require .rfl).mono fun _ _ _ => ⟨⟩

/-- An entry is read in the first of four ways that fits, with and without the renaming. -/
theorem param_tracks (hg : g.Track σ text) :
    Tracks σ (param g) (param g) fun used p => DeclaresAt text used p.ownNames := by
  refine .orElse ?variadic (.orElse ?typed (.orElse ?bare ?type))
  case variadic =>
    refine name_tracks.attempt.bind fun u o ho => (expect_tracks "...").bind fun v _ _ =>
      (hg.type .inner).bind fun w _ _ => .pure ?_ rfl
    cases o with
    | none => exact .none _
    | some n =>
      have hn : NameAt σ u n := ho
      exact (hn.declares text).skip_right _
  case typed =>
    refine name_tracks.bind fun u n hn => (hg.type .inner).bind fun v _ _ =>
      paramEnds_tracks.bind fun w _ _ => .pure ?_ rfl
    exact (hn.declares text).skip_right _
  case bare =>
    refine name_tracks.bind fun u n hn => paramEnds_tracks.bind fun w _ _ => .pure ?_ rfl
    exact (hn.declares text).skip_right _
  case type =>
    exact (hg.type .inner).bind fun u _ _ => .pure (by exact .none _) rfl

/-- The names of a signature, with its span. -/
structure SignatureAt (text : Span → String) (used : List Token) (x : List Name × Span) : Prop where
  declares : DeclaresAt text used x.1
  spansIn : SpansIn used x.2

theorem params_tracks (hg : g.Track σ text) :
    Tracks σ (params g) (params g) (SignatureAt text) := by
  refine (enclosed_tracks "(" ")" (param_tracks hg)).bind fun u x hx => ?_
  obtain ⟨first, ps, last⟩ := x
  refine .pure ⟨?_, by simpa using hx.spansIn⟩ (by simpa using Param.names_map σ [] ps)
  have hps : DeclaresAt text u (ps.flatMap Param.ownNames) := by
    rw [DeclaresAt, declaredWords, List.map_flatMap]
    exact hx.pieces.covers fun _ _ h => h
  rw [List.append_nil]
  exact Covers.sublist hps ((Param.names_sublist [] ps).map _)

/-- A signature declares its parameters and its named results. -/
theorem signature_tracks (hg : g.Track σ text) (cx : Context) :
    Tracks σ (signature g cx) (signature g cx) (SignatureAt text) := by
  refine (params_tracks hg).bind fun u x hx => (isAhead_tracks cx "(").bind fun _ b hb => ?_
  obtain ⟨names, span⟩ := x
  obtain rfl := hb
  refine .cond .rfl (fun _ => ?_) fun _ => (typeAhead_tracks cx).bind fun _ c hc => ?_
  · refine (params_tracks hg).bind fun v y hy => ?_
    obtain ⟨results, last⟩ := y
    refine .pure ⟨?_, ?_⟩ (by simp)
    · simpa using hx.declares.append hy.declares
    · simpa using hx.spansIn.upTo hy.spansIn
  · obtain rfl := hc
    refine .cond .rfl (fun _ => ?_) fun _ => .pure (by simpa using hx) (by simp)
    refine (hg.type cx).bind fun v e he => .pure ⟨?_, ?_⟩ (by simp)
    · simpa using hx.declares.skip_right v
    · simpa using hx.spansIn.upTo he.spansIn

theorem typeParams_tracks (hg : g.Track σ text) :
    Tracks σ (typeParams g) (typeParams g) fun _ _ => True := by
  refine (enclosed_tracks (Q := fun _ _ => True) "[" "]" ?_).bind fun u x hx => ?_
  · refine (commaList_tracks .inner name_tracks).bind fun _ _ _ => ?_
    exact (typeUnion_tracks hg .inner).bind fun _ _ _ => .pure ⟨⟩ rfl
  · obtain ⟨first, ps, last⟩ := x
    exact (Tracks.require (by simp)).mono fun _ _ _ => ⟨⟩

/-! ### Structs and interfaces -/

theorem sameLine_tracks : Tracks σ sameLine sameLine fun _ _ => True := by
  refine (ahead_tracks .outer).bind fun _ o _ => (Tracks.require ?_).mono fun _ _ _ => ⟨⟩
  cases o <;> simp

/-- A result that is left out. -/
theorem Tracks.discard {α : Type} [Renamable α] {p p' : Reader α} {Q : List Token → α → Prop}
    (hp : Tracks σ p p' Q) : Tracks σ (discard p) (discard p') fun _ _ => True :=
  hp.map (fun _ => rfl) fun _ _ _ => ⟨⟩

theorem field_tracks (hg : g.Track σ text) : Tracks σ (field g) (field g) fun _ _ => True := by
  refine Tracks.bind (Q := fun _ _ => True) (.orElse ?_ ?_) fun _ _ _ => ?_
  · refine (commaList_tracks .outer name_tracks).bind fun _ _ _ =>
      sameLine_tracks.bind fun _ _ _ => ?_
    exact (hg.type .outer).discard
  · exact (accept_tracks .inner "*").bind fun _ _ _ => (typeName_tracks hg .outer).discard
  · refine (ahead_tracks .outer).bind fun _ o _ => .cond ?_ (fun _ => ?_) fun _ => .pure ⟨⟩ rfl
    · cases o <;> simp
    · exact next_tracks.discard

theorem element_tracks (hg : g.Track σ text) : Tracks σ (element g) (element g) fun _ _ => True :=
  .orElse (name_tracks.bind fun _ _ _ => (signature_tracks hg .outer).discard)
    (typeUnion_tracks hg .outer).discard

/-- What a struct or an interface has is not kept. Only the place is. -/
theorem members_tracks {item : Reader Unit} {Q : List Token → Unit → Prop}
    (hitem : Tracks σ item item Q) :
    Tracks σ (members item) (members item) SpansIn := by
  refine (expect_tracks _).bind fun _ _ _ => (itemList_tracks _ hitem).bind fun _ _ _ => ?_
  refine (expect_tracks _).bind fun _ t ht => .pure ?_ rfl
  simpa [ht.1] using ((SpansIn.single t).append_left _).append_left _

/-! ### Types -/

theorem elementType_tracks (hg : g.Track σ text) (cx : Context) :
    Tracks σ (elementType g cx) (elementType g cx) (ExprAt text) := by
  refine (ahead_tracks cx).bind fun _ o ho => (Tracks.require ?_).bind fun _ _ h => ?_
  · cases o <;> simp
  · exact (hg.type cx).mono fun _ _ he => by simpa [ho, h.1] using he

/-- A type that begins with a keyword or an arrow. Those with fields or methods are kept as a place
only. -/
theorem keywordType_tracks (hg : g.Track σ text) (cx : Context) :
    Tracks σ (keywordType g cx) (keywordType g cx) (ExprAt text) := by
  refine next_tracks.bind fun _ t ht => ?_
  obtain rfl := ht.1
  have hfirst := SpansIn.single t
  refine .cond (by simp) (fun _ => ?struct) fun _ => .cond (by simp) (fun _ => ?interface) fun _ =>
    .cond (by simp) (fun _ => ?func) fun _ => .cond (by simp) (fun _ => ?map) fun _ =>
    .cond (by simp) (fun _ => ?chan) fun _ => .cond (by simp) (fun _ => ?arrow) fun _ => .failure
  case struct =>
    refine (members_tracks (field_tracks hg)).bind fun u s hs => ?_
    exact .pure (.literal (by simpa using hfirst.upTo hs)) (by simp)
  case interface =>
    refine (members_tracks (element_tracks hg)).bind fun u s hs => ?_
    exact .pure (.literal (by simpa using hfirst.upTo hs)) (by simp)
  case func =>
    refine (signature_tracks hg cx).bind fun u x hx => ?_
    exact .pure (.literal (by simpa using hfirst.upTo hx.spansIn)) (by simp)
  case map =>
    refine (expect_tracks "[").bind fun u _ _ => (hg.type .inner).bind fun v key hkey =>
      (expect_tracks "]").bind fun w _ _ => (elementType_tracks hg cx).bind fun x value hvalue =>
      .pure (.group ?_ ?_) (by simp)
    · simpa using ((Pieces.one hkey).append ((Pieces.one hvalue).skip_left w)).skip_left (t :: u)
    · simpa using hfirst.upTo_skip (u ++ v ++ w) hvalue.spansIn
  case chan =>
    refine (accept_tracks .inner "<-").bind fun u _ _ => (hg.type cx).bind fun v value hvalue =>
      .pure (.group ?_ ?_) (by simp)
    · simpa using (Pieces.one hvalue).skip_left (t :: u)
    · simpa using hfirst.upTo_skip u hvalue.spansIn
  case arrow =>
    refine (expect_tracks "chan").bind fun u _ _ => (hg.type cx).bind fun v value hvalue =>
      .pure (.group ?_ ?_) (by simp)
    · simpa using (Pieces.one hvalue).skip_left (t :: u)
    · simpa using hfirst.upTo_skip u hvalue.spansIn

/-- Slices, arrays, and arrays whose length is counted. -/
theorem bracketType_tracks (hg : g.Track σ text) (cx : Context) (openLength : Bool) :
    Tracks σ (bracketType g cx openLength) (bracketType g cx openLength) (ExprAt text) := by
  refine (expect_tracks "[").bind fun _ t ht => (accept_tracks .inner "]").bind fun u o _ => ?_
  obtain rfl := ht.1
  have hfirst := SpansIn.single t
  refine .cond (by cases o <;> simp) (fun _ => ?slice) fun _ => (follows_tracks _).bind fun v b _ =>
    .cond (by simp) (fun _ => ?counted) fun _ => ?array
  case slice =>
    refine (elementType_tracks hg cx).bind fun v e he => .pure (.group ?_ ?_) (by simp)
    · simpa using (Pieces.one he).skip_left (t :: u)
    · simpa using hfirst.upTo_skip u he.spansIn
  case counted =>
    refine next_tracks.bind fun w _ _ => next_tracks.bind fun x _ _ =>
      (elementType_tracks hg cx).bind fun y e he => .pure (.group ?_ ?_) (by simp)
    · simpa using (Pieces.one he).skip_left (t :: (u ++ v ++ w ++ x))
    · simpa using hfirst.upTo_skip (u ++ v ++ w ++ x) he.spansIn
  case array =>
    refine (hg.expr .inner).bind fun w length hlength => (expect_tracks "]").bind fun x _ _ =>
      (elementType_tracks hg cx).bind fun y e he => .pure (.group ?_ ?_) (by simp)
    · simpa using ((Pieces.one hlength).append ((Pieces.one he).skip_left x)).skip_left
        (t :: (u ++ v))
    · simpa using hfirst.upTo_skip (u ++ v ++ w ++ x) he.spansIn

/-- A type is read from renamed tokens as it is from the tokens. -/
theorem type_tracks (hg : g.Track σ text) (cx : Context) :
    Tracks σ (type g cx) (type g cx) (ExprAt text) := by
  refine peek_tracks.bind fun _ o ho => ?_
  obtain rfl := ho
  cases o with
  | none => exact .failure
  | some t =>
    refine .cond (by simp) (fun _ => typeName_tracks hg cx) fun _ =>
      .cond (by simp) (fun _ => bracketType_tracks hg cx false) fun _ =>
      .cond (by simp) (fun _ => ?prefixed) fun _ => .cond (by simp) (fun _ => ?parens) fun _ =>
      keywordType_tracks hg cx
    case prefixed =>
      refine next_tracks.bind fun _ first hfirst => (hg.type cx).bind fun u e he =>
        .pure (.group ?_ ?_) (by simp)
      · simpa using (Pieces.one he).skip_left _
      · simpa [hfirst.1] using (SpansIn.single first).upTo he.spansIn
    case parens =>
      refine next_tracks.bind fun _ first hfirst => (hg.type .inner).bind fun u e he =>
        (expect_tracks ")").bind fun _ last hlast => .pure (.group ?_ ?_) (by simp)
      · simpa using ((Pieces.one he).skip_right _).skip_left _
      · simpa [hfirst.1, hlast.1] using (SpansIn.single first).upTo_skip u (SpansIn.single last)

end Grammar

end NilGuard.Go.Surface
