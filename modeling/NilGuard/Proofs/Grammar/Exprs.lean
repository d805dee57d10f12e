import NilGuard.Go.Grammar.Exprs
import NilGuard.Proofs.Grammar.Types

/-!
Expressions on renamed tokens.
-/

namespace NilGuard.Go.Surface

variable {σ : Renaming} {text : Span → String} {u v w : List Token} {s : Span} {e e' : Expr}
  {es : List Expr}

/-! ### Expressions from their parts -/

namespace ExprAt

/-- An expression stands among more tokens as well. -/
theorem skip_left (h : ExprAt text u e) (before : List Token) : ExprAt text (before ++ u) e :=
  ⟨h.covers.skip_left before, h.spansIn.append_left before, h.bodies.skip_left before⟩

theorem skip_right (h : ExprAt text u e) (after : List Token) : ExprAt text (u ++ after) e :=
  ⟨h.covers.skip_right after, h.spansIn.append_right after, h.bodies.skip_right after⟩

theorem ident {n : Name} (h : Grammar.NameAt σ u n) (hn : n.text ∉ ["true", "false", "iota"]) :
    ExprAt text u (.ident n) :=
  ⟨by simpa [exprWords] using h.covers text (.inl hn),
    h.spansIn, by simpa [exprBodies] using Pieces.none u⟩

theorem unary (h : ExprAt text u e) (hs : SpansIn u s) (op : UnaryOp) :
    ExprAt text u (.unary s op e) :=
  ⟨by simpa [exprWords] using h.covers, hs, by simpa [exprBodies] using h.bodies⟩

theorem binary (h : ExprAt text u e) (h' : ExprAt text v e') (op : BinaryOp) :
    ExprAt text (u ++ v) (.binary (e.span.upTo e'.span) op e e') :=
  ⟨by simpa [exprWords] using h.covers.append h'.covers, h.spansIn.upTo h'.spansIn,
    by simpa [exprBodies] using h.bodies.append h'.bodies⟩

theorem call (h : ExprAt text u e) (hes : Pieces (ExprAt text) v es) (hs : SpansIn (u ++ v) s) :
    ExprAt text (u ++ v) (.call s e es) :=
  ⟨by simpa [exprWords] using h.covers.append (hes.covers fun _ _ he => he.covers), hs,
    by simpa [exprBodies] using h.bodies.append (hes.flatMap fun _ _ he => he.bodies)⟩

theorem keyed (h : ExprAt text u e) (h' : ExprAt text v e') :
    ExprAt text (u ++ v) (.keyed (e.span.upTo e'.span) e e') :=
  ⟨by simpa [exprWords] using h.covers.append h'.covers, h.spansIn.upTo h'.spansIn,
    by simpa [exprBodies] using h.bodies.append h'.bodies⟩

/-- A bare name before a colon is a key, at the same place. -/
theorem asKey (h : ExprAt text u e) : ExprAt text u e.asKey := by
  cases e with
  | ident n =>
    have hn : Covers text u [⟨.value, n⟩] := by simpa [exprWords] using h.covers
    exact ⟨by simpa [Expr.asKey, exprWords] using hn.recast_head _, h.spansIn, Pieces.none u⟩
  | _ => exact h

/-- What was read as a value has the same place when it is taken for a type. -/
theorem asType (h : ExprAt text u e) (he : e.asType? = some e') : ExprAt text u e' := by
  fun_cases Expr.asType? e with
  | case1 n =>
    cases he
    have hn : Covers text u [⟨.value, n⟩] := by simpa [exprWords] using h.covers
    exact ⟨by simpa [exprWords] using hn.recast_head .type, h.spansIn, Pieces.none u⟩
  | case2 span qualifier field =>
    cases he
    exact ⟨by simpa [exprWords] using Covers.none u,
      h.spansIn, by simpa [exprBodies] using Pieces.none u⟩
  | case3 => simp [Expr.asType?] at he

/-- Of two readings both cover the tokens. The name alone is an operand that takes part in both. -/
theorem reading {asType : Expr → Expr} (h : ExprAt text u e)
    (hvalue : ExprAt text v e') (htype : ∀ base, ExprAt text u base → ExprAt text v (asType base))
    (hwords : ∀ n s, exprWords text (asType (.typeName n)) =
      ⟨.type, n⟩ :: exprWords text (asType (.literal s))) :
    ExprAt text v (e.reading asType e') := by
  fun_cases Expr.reading e asType e' with
  | case1 n =>
    have hliteral := htype (.literal n.span) (.literal h.spansIn)
    refine ⟨?_, hliteral.spansIn, ?_⟩
    · rw [exprWords]
      split
      · exact hvalue.covers
      · rw [← hwords]
        exact (htype (.typeName n) (h.asType rfl)).covers
    · rw [exprBodies]
      split
      · exact hvalue.bodies
      · exact hliteral.bodies
  | case2 _ _ type hn => exact htype type (h.asType hn)
  | case3 => exact hvalue

end ExprAt

/-! ### Renamed parts -/

@[simp] theorem asKey_expr (σ : Renaming) (e : Expr) : (σ.expr e).asKey = σ.expr e.asKey := by
  cases e <;> rfl

@[simp] theorem asType?_expr (σ : Renaming) (e : Expr) :
    (σ.expr e).asType? = e.asType?.map σ.expr := by
  cases e with
  | selector s e n => cases e <;> simp [Expr.asType?]
  | _ => rfl

/-- An operand that may be a type keeps both of its readings, and both are renamed. -/
theorem reading_expr (σ : Renaming) (e : Expr) {asType asType' : Expr → Expr} {value value' : Expr}
    (h : ∀ base, asType' (σ.expr base) = σ.expr (asType base)) (hvalue : value' = σ.expr value) :
    (σ.expr e).reading asType' value' = σ.expr (e.reading asType value) := by
  subst hvalue
  cases e with
  | ident n => simpa [Expr.reading] using h (.literal n.span)
  | selector s e n => cases e <;> simp [Expr.reading, Expr.asType?, ← h]
  | _ => simp [Expr.reading, Expr.asType?]

namespace Grammar

open NilGuard.Reader

variable {g : Rules} {cx : Context}

/-! ### Composite literals -/

theorem elementValue_tracks (hg : g.Track σ text) :
    Tracks σ (elementValue g) (elementValue g) (ExprAt text) := by
  refine (isAhead_tracks .inner _).bind fun _ b hb => ?_
  obtain rfl := hb
  exact .cond .rfl (fun _ => hg.elements) fun _ => hg.expr .inner

theorem keyedValue_tracks (hg : g.Track σ text) :
    Tracks σ (keyedValue g) (keyedValue g) (ExprAt text) := by
  refine (elementValue_tracks hg).bind fun u e he =>
    (accept_tracks .inner ":").bind fun v o ho => ?_
  cases o with
  | none => exact .pure (by simpa [ho] using he) (by simp)
  | some t =>
    refine (elementValue_tracks hg).bind fun w e' he' => .pure ?_ (by simp)
    have hkey : e.asKey.span = e.span := by cases e <;> rfl
    simpa [hkey] using he.asKey.keyed (he'.skip_left v)

theorem elements_tracks (hg : g.Track σ text) :
    Tracks σ (elements g) (elements g) (ExprAt text) := by
  refine (enclosed_tracks _ _ (keyedValue_tracks hg)).bind fun u x hx => ?_
  refine .pure (.group ?_ ?_) (by simp)
  · simpa using hx.pieces
  · simpa using hx.spansIn

/-- The elements of a literal stand behind its type, which was read before. -/
theorem composite_tracks (hg : g.Track σ text) {type : Expr} (ht : ExprAt text u type) :
    Tracks σ (composite g type) (composite g (σ.expr type)) fun used e =>
      ExprAt text (u ++ used) e := by
  refine (elements_tracks hg).bind fun v e he => .pure (.group ?_ ?_) (by simp)
  · simpa using (Pieces.one ht).append (.one he)
  · simpa using ht.spansIn.upTo he.spansIn

/-! ### Calls -/

theorem argument_tracks (hg : g.Track σ text) :
    Tracks σ (argument g) (argument g) fun used x => ExprAt text used x.1 := by
  refine (hg.expr .inner).bind fun u e he => (accept_tracks .inner "...").bind fun v o ho => ?_
  cases o with
  | none => exact .pure (by simpa [ho] using he) (by simp)
  | some dots =>
    refine .pure (.group ?_ ?_) (by simp)
    · simpa using (Pieces.one he).skip_right v
    · simpa [ho] using he.spansIn.upTo (.single dots)

/-- The arguments of a call, without whether they are spread. -/
theorem Between.arguments {x : Span × List (Expr × Bool) × Span}
    (hx : Between (fun used x => ExprAt text used x.1) u x) :
    Pieces (ExprAt text) u (x.2.1.map (·.1)) :=
  hx.pieces.map fun _ _ h => h

theorem Between.spansIn_last {α : Type} {Q : List Token → α → Prop} {x : Span × List α × Span}
    (hx : Between Q u x) : SpansIn u x.2.2 := by
  obtain ⟨t, mid, t', rfl, -, ht', -⟩ := hx
  rw [ht']
  exact (SpansIn.single t').append_left (t :: mid)

theorem conversion_tracks (hg : g.Track σ text) {type : Expr} (ht : ExprAt text u type) :
    Tracks σ (conversion g type) (conversion g (σ.expr type)) fun used e =>
      ExprAt text (u ++ used) e := by
  refine (expect_tracks "(").bind fun v _ _ => (hg.expr .inner).bind fun w e he =>
    (accept_tracks .inner ",").bind fun x _ _ => (expect_tracks ")").bind fun y last hlast =>
    .pure (.group ?_ ?_) (by simp)
  · simpa using (Pieces.one ht).append (((Pieces.one he).skip_right (x ++ y)).skip_left v)
  · simpa [hlast.1] using ht.spansIn.upTo_skip (v ++ w ++ x) (.single last)

theorem call_tracks (hg : g.Track σ text) {callee : Expr} (hc : ExprAt text u callee) :
    Tracks σ (call g callee) (call g (σ.expr callee)) fun used e => ExprAt text (u ++ used) e := by
  refine (enclosed_tracks "(" ")" (argument_tracks hg)).bind fun v x hx => .pure ?_ ?_
  · simpa using hc.call hx.arguments (hc.spansIn.upTo hx.spansIn_last)
  · simp [Function.comp_def]

theorem laterArgument_tracks (hg : g.Track σ text) :
    Tracks σ (laterArgument g) (laterArgument g)
      fun used o => o.elim (used = []) fun e => Pieces (ExprAt text) used [e] := by
  refine (follows_tracks _).bind fun _ b hb => ?_
  obtain rfl := hb
  refine .cond .rfl (fun _ => .pure (by rfl) rfl) fun _ => (accept_tracks .inner ",").bind
    fun v o ho => ?_
  cases o with
  | none => exact .pure (by simpa using ho) rfl
  | some t =>
    refine (hg.expr .inner).bind fun w e he => .pure ?_ rfl
    simpa using (Pieces.one he).skip_left v

/-- Arguments of which the first is a type. -/
theorem typedArguments_tracks (hg : g.Track σ text) :
    Tracks σ (typedArguments g) (typedArguments g)
      fun used x => Pieces (ExprAt text) used x.1 ∧ SpansIn used x.2 := by
  refine (expect_tracks "(").bind fun u _ _ => (hg.type .inner).bind fun v type ht =>
    ((laterArgument_tracks hg).many fun _ h => h).bind fun w es hes =>
    (accept_tracks .inner ",").bind fun x _ _ => (expect_tracks ")").bind fun y last hlast =>
    .pure ⟨?_, ?_⟩ (by simp)
  · simpa using ((Pieces.cons ht hes.join).skip_right (x ++ y)).skip_left u
  · simpa [hlast.1] using (SpansIn.single last).append_left (u ++ v ++ w ++ x)

/-- A renamed name is an identifier before and after. -/
theorem named_name {n : Name} (h : NameAt σ u n) : named (σ.name n) = σ.expr (named n) := by
  obtain ⟨t, -, -, rfl, ht⟩ := h
  by_cases hmarked : σ.marked t.span = true
  · have htext := (ht hmarked).2
    simp only [List.mem_cons, List.not_mem_nil, or_false, not_or] at htext
    simp [named, Renaming.name, hmarked, nilName, htext]
  · simp only [named, Renaming.name, hmarked, Bool.false_eq_true, if_false]
    split <;> simp [Renaming.name, hmarked]

theorem named_at {n : Name} (h : NameAt σ u n) : ExprAt text u (named n) := by
  unfold named
  split
  · exact .literal h.spansIn
  · next hn => exact .ident h (by simpa using hn)

theorem typeCall_tracks (hg : g.Track σ text) :
    Tracks σ (typeCall g) (typeCall g) (ExprAt text) := by
  refine name_tracks.bind fun u n hn => (typedArguments_tracks hg).attempt.bind fun v o ho => ?_
  have hcallee : ExprAt text u (named n) := named_at hn
  rw [rename_name, named_name hn]
  cases o with
  | none =>
    obtain rfl : v = [] := ho
    exact .pure (by simpa using hcallee) rfl
  | some x =>
    obtain ⟨hargs, hspan⟩ : Pieces (ExprAt text) v x.1 ∧ SpansIn v x.2 := ho
    exact .pure (by simpa using hcallee.call hargs (hcallee.spansIn.upTo hspan)) (by simp)

theorem namedOnly_tracks :
    Tracks σ (do return named (← name)) (do return named (← name)) (ExprAt text) :=
  name_tracks.bind fun _ _ hn => .pure (by simpa using named_at hn) (named_name hn)

/-- A call of a function that takes a type is seen as before, unless the function is renamed. -/
theorem isTypeCall_map (σ : Renaming) (cx : Context) (ts : List Token) :
    isTypeCall cx (ts.map σ.token) = isTypeCall cx ts ∨
      isTypeCall cx (ts.map σ.token) = false ∧ isTypeCall cx ts = true ∧
        ∃ t after, ts = t :: after ∧ σ.marked t.span = true ∧ t.text ∈ ["new", "make"] := by
  rcases ts with _ | ⟨t, _ | ⟨u, _ | ⟨v, ts⟩⟩⟩
  iterate 3 exact .inl rfl
  simp only [List.map_cons, isTypeCall, Renaming.kind_token, Renaming.is_token,
    Renaming.fresh_token]
  by_cases hrenamed : t.kind = .name ∧ σ.marked t.span = true
  · have hnil : (σ.token t).text = nilName := by simp [Renaming.token, hrenamed]
    rw [hnil]
    by_cases htext : t.text ∈ ["new", "make"]
    · refine (Bool.eq_false_or_eq_true _).elim (fun hcall => .inr ⟨by simp [nilName], hcall, ?_⟩)
        fun hnone => .inl (by rw [hnone]; simp [nilName])
      exact ⟨t, _, rfl, hrenamed.2, htext⟩
    · exact .inl (by simp_all [nilName])
  · have hsame : (σ.token t).text = t.text := by simp [Renaming.token, hrenamed]
    exact .inl (by rw [hsame])

/-- Without a type as its first argument only the name of a call is taken. -/
theorem typeCall_of_not_typed {t : Token} {after : List Token} (h : typedArguments g after = none) :
    typeCall g (t :: after) = (do return named (← name) : Reader Expr) (t :: after) := by
  have hattempt : attempt (typedArguments g) after = some (none, after) := by
    have hnone : (some <$> typedArguments g) after = none := by simp [Functor.map, StateT.map, h]
    simp only [attempt, HOrElse.hOrElse, OrElse.orElse, Alternative.orElse, StateT.orElse, hnone]
    rfl
  have hname : name (t :: after) = t.name?.map (·, after) := by
    show (liftM t.name? : Reader Name) after = _
    cases t.name? <;> rfl
  simp only [typeCall, Bind.bind, StateT.bind, hname]
  cases t.name? with
  | none => rfl
  | some n => simp [hattempt]

/-- Where the function of a call is renamed the arguments do not read as a type, so the name alone
is taken before and after. -/
theorem nameOperand_tracks (hg : g.Track σ text) (cx : Context) :
    Tracks σ (nameOperand g cx) (nameOperand g cx) (ExprAt text) := by
  intro ts hts
  have hrun : ∀ us, nameOperand g cx us =
      if isTypeCall cx us then typeCall g us else (do return named (← name) : Reader Expr) us := by
    intro us
    show (if isTypeCall cx us then typeCall g else do return named (← name) : Reader Expr) us = _
    split <;> rfl
  have hname : TracksAt σ ts _ _ (ExprAt text) := namedOnly_tracks ts hts
  unfold TracksAt at hname ⊢
  rw [hrun, hrun]
  rcases isTypeCall_map σ cx ts with hsame | ⟨hafter, hbefore, t, after, rfl, hmarked, htext⟩
  · rw [hsame]
    cases isTypeCall cx ts with
    | true => exact typeCall_tracks hg ts hts
    | false => exact hname
  · have hnone : typedArguments g after = none := by
      by_contra hsome
      have htyped := hg.typed after (Option.isSome_iff_ne_none.mpr hsome)
      exact (hts [] t after rfl hmarked).2.2 ⟨htext, htyped⟩
    rw [hafter, hbefore, if_pos rfl, typeCall_of_not_typed hnone]
    exact hname

/-! ### Brackets -/

theorem bound_tracks (hg : g.Track σ text) :
    Tracks σ (bound g) (bound g) fun used o => Pieces (ExprAt text) used o.toList := by
  refine (isAhead_tracks .inner ":").bind fun u b _ => (isAhead_tracks .inner "]").bind fun v c _ =>
    .cond .rfl (fun _ => .pure (by exact .none _) rfl) fun _ => ?_
  refine (hg.expr .inner).bind fun w e he => .pure ?_ rfl
  simpa using ((Pieces.one he).skip_left v).skip_left u

/-- An index, or a slice with two or three bounds. -/
theorem index_tracks (hg : g.Track σ text) {operand : Expr} (h : ExprAt text u operand) :
    Tracks σ (index g operand) (index g (σ.expr operand)) fun used e =>
      ExprAt text (u ++ used) e := by
  refine (expect_tracks "[").bind fun a _ _ => (bound_tracks hg).bind fun b low hlow =>
    (accept_tracks .inner ":").bind fun c o _ => ?_
  cases o with
  | none =>
    cases low with
    | none => exact .failure
    | some i =>
      refine (expect_tracks "]").bind fun d last hlast => .pure (.group ?_ ?_) (by simp)
      · simpa using (Pieces.one h).append ((hlow.skip_left a).skip_right (c ++ d))
      · simpa [hlast.1] using h.spansIn.upTo_skip (a ++ b ++ c) (.single last)
  | some t =>
    refine (bound_tracks hg).bind fun d high hhigh =>
      (accept_tracks .inner ":").bind fun e o _ => ?_
    cases o with
    | none =>
      refine (expect_tracks "]").bind fun f last hlast => .pure (.group ?_ ?_) (by simp)
      · simpa using (Pieces.one h).append ((hlow.skip_left a).append
          ((hhigh.skip_left c).skip_right (e ++ f)))
      · simpa [hlast.1] using h.spansIn.upTo_skip (a ++ b ++ c ++ d ++ e) (.single last)
    | some t' =>
      cases high with
      | none => exact .failure
      | some high =>
        refine (hg.expr .inner).bind fun f limit hlimit =>
          (expect_tracks "]").bind fun j last hlast => .pure (.group ?_ ?_) (by simp)
        · simpa using (Pieces.one h).append ((hlow.skip_left a).append ((hhigh.skip_left c).append
            (((Pieces.one hlimit).skip_left e).skip_right j)))
        · simpa [hlast.1] using h.spansIn.upTo_skip (a ++ b ++ c ++ d ++ e ++ f) (.single last)

/-- Types in brackets that were read from tokens. -/
structure TypesAt (text : Span → String) (used : List Token) (x : Span × List Expr) : Prop where
  types : Pieces (ExprAt text) used x.2
  spansIn : SpansIn used x.1

theorem typeList_tracks (hg : g.Track σ text) :
    Tracks σ (typeList g) (typeList g) (TypesAt text) := by
  refine (enclosed_tracks "[" "]" (hg.type .inner)).bind fun u x hx =>
    (Tracks.require (by simp)).bind fun v _ hv => .pure ⟨?_, ?_⟩ (by simp)
  · simpa [hv.1] using hx.pieces
  · simpa [hv.1] using hx.spansIn

theorem TypesAt.instantiated {span : Span} {types : List Expr} (h : TypesAt text v (span, types))
    {base : Expr} (hbase : ExprAt text u base) :
    ExprAt text (u ++ v) (instantiated base span types) := by
  refine .group ((Pieces.one hbase).append
    (.one (.group (h.types.map fun _ t ht => ?_) h.spansIn))) ?_
  · exact .group (.one ht) ht.spansIn
  · exact hbase.spansIn.upTo h.spansIn

theorem TypesAt.instantiation {last : Span} {types : List Expr} (h : TypesAt text v (last, types))
    {base : Expr} (hbase : ExprAt text u base) :
    ExprAt text (u ++ v) (instantiation base last types) :=
  .group (.cons hbase h.types) (hbase.spansIn.upTo h.spansIn)

@[simp] theorem rename_types (σ : Renaming) (x : Span × List Expr) :
    rename σ x = (σ.span x.1, x.2.map σ.expr) := rfl

@[simp] theorem instantiated_expr (σ : Renaming) (base : Expr) (span : Span) (types : List Expr) :
    instantiated (σ.expr base) (σ.span span) (types.map σ.expr) =
      σ.expr (instantiated base span types) := by
  simp [instantiated, Function.comp_def]

@[simp] theorem instantiation_expr (σ : Renaming) (base : Expr) (last : Span) (types : List Expr) :
    instantiation (σ.expr base) (σ.span last) (types.map σ.expr) =
      σ.expr (instantiation base last types) := by
  simp [instantiation]

theorem soleArgument_map (σ : Renaming) (args : List (Expr × Bool)) :
    soleArgument (args.map (rename σ)) = (soleArgument args).map σ.expr := by
  match args with
  | [] | [(_, true)] | [(_, false)] => rfl
  | _ :: _ :: _ => simp [soleArgument]

theorem eq_of_soleArgument {args : List (Expr × Bool)} (h : soleArgument args = some e) :
    args.map (·.1) = [e] := by
  match args, h with
  | [(_, false)], h => cases h; rfl

/-- A call behind types in brackets may be a conversion instead, if it has one argument. Both
readings are kept. -/
theorem genericCall_tracks (hg : g.Track σ text) {operand : Expr} (h : ExprAt text u operand)
    {span : Span} {types : List Expr} (htypes : TypesAt text v (span, types)) :
    Tracks σ (genericCall g operand span types)
      (genericCall g (σ.expr operand) (σ.span span) (types.map σ.expr))
      fun used e => ExprAt text (u ++ (v ++ used)) e := by
  refine (enclosed_tracks "(" ")" (argument_tracks hg)).bind fun w x hx => ?_
  obtain ⟨first, args, last⟩ := x
  have hvalue : ExprAt text (u ++ (v ++ w)) (.call (operand.span.upTo last) operand
      (args.map (·.1))) :=
    h.call (hx.arguments.skip_left v) (h.spansIn.upTo_skip v hx.spansIn_last)
  simp only [rename_mk, rename_list, soleArgument_map]
  cases hsole : soleArgument args with
  | none => exact .pure (by simpa using hvalue) (by simp [Function.comp_def])
  | some e =>
    refine .pure ?_ ?_
    · rw [List.append_nil]
      refine h.reading hvalue (fun base hbase => .group ?_ ?_) fun n s => ?_
      · have hinst := htypes.instantiated hbase
        have hargs : Pieces (ExprAt text) w [e] := eq_of_soleArgument hsole ▸ hx.arguments
        simpa using (Pieces.one hinst).append hargs
      · exact hbase.spansIn.upTo_skip v hx.spansIn_last
      · simp [exprWords, instantiated]
    · exact reading_expr σ operand (fun base => by simp) (by simp [Function.comp_def])

instance : Renamable Behind := ⟨fun _ => id⟩

theorem typesAhead_tracks (hg : g.Track σ text) (cx : Context) :
    Tracks σ (typesAhead g cx) (typesAhead g cx) fun _ _ => True := by
  refine (typeList_tracks hg).bind fun _ _ _ => (isAhead_tracks cx "(").bind fun _ b _ =>
    .cond .rfl (fun _ => .pure ⟨⟩ rfl) fun _ => (isAhead_tracks cx _).bind fun _ c _ =>
    .cond .rfl (fun _ => .pure ⟨⟩ rfl) fun _ => (isAhead_tracks cx "[").bind fun _ d _ =>
    .cond .rfl (fun _ => ?_) fun _ => .pure ⟨⟩ rfl
  refine (typeList_tracks hg).attempt.bind fun _ o _ => ?_
  cases o with
  | none => exact .pure ⟨⟩ rfl
  | some x => exact (isAhead_tracks cx "(").bind fun _ b _ => .pure ⟨⟩ rfl

theorem typeListPair_tracks (hg : g.Track σ text) :
    Tracks σ (typeListPair g) (typeListPair g)
      fun used x => ∃ v w, used = v ++ w ∧ TypesAt text v x.1 ∧ TypesAt text w x.2 :=
  (typeList_tracks hg).bind fun v _ hv => (typeList_tracks hg).bind fun w _ hw =>
    .pure ⟨v, w, by simp, hv, hw⟩ rfl

theorem indexPair_tracks (hg : g.Track σ text) {operand : Expr} (h : ExprAt text u operand) :
    Tracks σ (indexPair g operand) (indexPair g (σ.expr operand))
      fun used e => ExprAt text (u ++ used) e :=
  (index_tracks hg h).bind fun _ _ he => (index_tracks hg he).mono fun _ _ he' => by
    simpa using he'

theorem bracketPair_tracks (hg : g.Track σ text) {operand base : Expr} (h : ExprAt text u operand)
    (hbase : ExprAt text u base) :
    Tracks σ (bracketPair g operand base) (bracketPair g (σ.expr operand) (σ.expr base))
      fun used e => ExprAt text (u ++ used) e := by
  refine ((typeListPair_tracks hg).both (indexPair_tracks hg h)).bind fun used x hx => ?_
  obtain ⟨⟨⟨span, types⟩, ⟨last, more⟩⟩, value⟩ := x
  obtain ⟨⟨v, w, rfl, hv, hw⟩, hvalue⟩ := hx
  have htype : ∀ base, ExprAt text u base →
      ExprAt text (u ++ (v ++ w)) (instantiation (instantiated base span types) last more) := by
    intro base hbase
    simpa using hw.instantiation (hv.instantiated hbase)
  cases value with
  | none => exact .pure (by simpa using htype base hbase) (by simp)
  | some value =>
    refine .pure ?_ (reading_expr σ operand (by simp) rfl)
    rw [List.append_nil]
    refine h.reading (hvalue value rfl) htype fun n s => ?_
    simp [exprWords, instantiated, instantiation]

/-- Brackets behind an operand are tried as types and as an index. A reader gives up at the same
token with and without the renaming, so the same of them is taken. -/
theorem brackets_tracks (hg : g.Track σ text) (cx : Context) {operand : Expr}
    (h : ExprAt text u operand) :
    Tracks σ (brackets g cx operand) (brackets g cx (σ.expr operand))
      fun used e => ExprAt text (u ++ used) e := by
  refine (typesAhead_tracks hg cx).lookahead.bind fun _ o ho => ?_
  obtain rfl := ho
  simp only [asType?_expr, List.nil_append]
  have hindex := index_tracks hg h
  match o, htype : operand.asType? with
  | none, _ | some .composite, none | some .brackets, none | some .other, none => exact hindex
  | some .call, _ =>
    exact (typeList_tracks hg).bind fun v x hx => genericCall_tracks hg h hx
  | some .composite, some base =>
    refine (typeList_tracks hg).bind fun v x hx => ?_
    simpa using composite_tracks hg (hx.instantiated (h.asType htype))
  | some .brackets, some base => exact bracketPair_tracks hg h (h.asType htype)
  | some .other, some base =>
    refine hindex.orElse ((typeList_tracks hg).bind fun v x hx => .pure ?_ (by simp))
    simpa using hx.instantiation (h.asType htype)

/-! ### Operands -/

theorem typeOperand_tracks (hg : g.Track σ text) (cx : Context) {type : Expr}
    (ht : ExprAt text u type) (literal : Bool) :
    Tracks σ (typeOperand g cx type literal) (typeOperand g cx (σ.expr type) literal)
      fun used e => ExprAt text (u ++ used) e := by
  refine (isAhead_tracks cx _).bind fun _ b hb => ?_
  obtain rfl := hb
  exact .cond .rfl (fun _ => composite_tracks hg ht) fun _ => conversion_tracks hg ht

/-- A function literal declares its parameters and has its own body. -/
theorem function_tracks (hg : g.Track σ text) (cx : Context) :
    Tracks σ (function g cx) (function g cx) (ExprAt text) := by
  refine (expect_tracks "func").bind fun u first hfirst => (signature_tracks hg .inner).bind
    fun v x hx =>
    (isAhead_tracks .inner _).bind fun w b hb => ?_
  obtain rfl := hfirst.1
  obtain rfl := hb
  refine .cond .rfl (fun _ => ?_) fun _ => ?_
  · refine hg.block.bind fun w body hbody => .pure ⟨?_, ?_, ?_⟩ (by simp)
    · simpa [exprWords] using (Covers.append hx.declares hbody.covers).skip_left [first]
    · simpa [Expr.span] using (SpansIn.single first).upTo_skip v hbody.spansIn
    · simpa [exprBodies] using (Pieces.one hbody).skip_left (first :: v)
  · have htype : ExprAt text ([first] ++ v) (.literal (first.span.upTo x.2)) :=
      .literal ((SpansIn.single first).upTo hx.spansIn)
    simpa using typeOperand_tracks hg cx htype false

theorem parenthesized_tracks (hg : g.Track σ text) (cx : Context) :
    Tracks σ (parenthesized g cx) (parenthesized g cx) (ExprAt text) := by
  refine .orElse ?_ ?_
  · refine (expect_tracks "(").bind fun u first hfirst => (hg.expr .inner).bind fun v e he =>
      (expect_tracks ")").bind fun w last hlast => .pure ⟨?_, ?_, ?_⟩ (by simp)
    · simpa [exprWords] using (he.covers.skip_left u).skip_right w
    · simpa [Expr.span, hfirst.1, hlast.1] using (SpansIn.single first).upTo_skip v (.single last)
    · simpa [exprBodies] using (he.bodies.skip_left u).skip_right w
  · refine (expect_tracks "(").bind fun u first hfirst => (hg.type .inner).bind fun v e he =>
      (expect_tracks ")").bind fun w last hlast => ?_
    obtain rfl := hfirst.1
    obtain rfl := hlast.1
    have htype : ExprAt text ([first] ++ (v ++ [last])) (.group (first.span.upTo last.span) [e]) :=
      .group (((Pieces.one he).skip_right _).skip_left _) ((SpansIn.single first).upTo_skip
        v (.single last))
    simpa using typeOperand_tracks hg cx htype false

/-- An operand is chosen by its first token. The text of a name matters only where a type is given
to it, and there it is not renamed. -/
theorem operand_tracks (hg : g.Track σ text) (cx : Context) :
    Tracks σ (operand g cx) (operand g cx) (ExprAt text) := by
  refine peek_tracks.bind fun _ o ho => ?_
  obtain rfl := ho
  cases o with
  | none => exact .failure
  | some t =>
    refine .cond (by simp) (fun _ => nameOperand_tracks hg cx) fun _ =>
      .cond (by simp) (fun _ => ?literal) fun _ =>
      .cond (by simp) (fun _ => parenthesized_tracks hg cx) fun _ =>
      .cond (by simp) (fun _ => function_tracks hg cx) fun _ =>
      .cond (by simp) (fun _ => ?bracket) fun _ => ?keyword
    case literal =>
      refine next_tracks.bind fun _ t ht => .pure (.literal ?_) (by simp)
      simpa [ht.1] using SpansIn.single t
    case bracket =>
      exact (bracketType_tracks hg cx true).bind fun _ _ he => typeOperand_tracks hg cx he true
    case keyword =>
      refine (keywordType_tracks hg cx).bind fun _ _ he => ?_
      simpa using typeOperand_tracks hg cx he _

theorem selection_tracks (hg : g.Track σ text) (h : ExprAt text u e) :
    Tracks σ (selection g e) (selection g (σ.expr e)) fun used e => ExprAt text (u ++ used) e := by
  refine (expect_tracks ".").bind fun v _ _ => (accept_tracks .inner "(").bind fun w o _ => ?_
  cases o with
  | some t =>
    refine (hg.type .inner).bind fun x type ht => (expect_tracks ")").bind fun y last hlast =>
      .pure (.group ?_ ?_) (by simp)
    · simpa using (Pieces.one h).append (((Pieces.one ht).skip_right y).skip_left (v ++ w))
    · simpa [hlast.1] using h.spansIn.upTo_skip (v ++ w ++ x) (.single last)
  | none =>
    refine name_tracks.bind fun x field hfield => .pure ⟨?_, ?_, ?_⟩ (by simp)
    · simpa [exprWords] using h.covers.skip_right (v ++ w ++ x)
    · simpa [Expr.span] using h.spansIn.upTo_skip (v ++ w) hfield.spansIn
    · simpa [exprBodies] using h.bodies.skip_right (v ++ w ++ x)

/-- What follows an operand takes at least one token, or there is no suffix. -/
theorem suffix_tracks (hg : g.Track σ text) (cx : Context) (h : ExprAt text u e) :
    Tracks σ (suffix g cx e) (suffix g cx (σ.expr e))
      fun used o => o.elim (used = []) (ExprAt text (u ++ used)) := by
  have hsome : ∀ {p p' : Reader Expr}, Tracks σ p p' (fun used e => ExprAt text (u ++ used) e) →
      Tracks σ (some <$> p) (some <$> p') fun used o =>
      o.elim (used = []) (ExprAt text (u ++ used)) :=
    fun hp => hp.map (fun _ => rfl) fun _ _ h => h
  refine (ahead_tracks cx).bind fun _ o ho => ?_
  obtain rfl := ho
  cases o with
  | none => exact .pure (by rfl) rfl
  | some t =>
    refine .cond (by simp) (fun _ => (follows_tracks _).bind fun _ b hb => ?dot) fun _ =>
      .cond (by simp) (fun _ => hsome (call_tracks hg h)) fun _ =>
      .cond (by simp) (fun _ => hsome (brackets_tracks hg cx h)) fun _ =>
      .cond (by simp) (fun _ => ?brace) fun _ => .pure (by rfl) rfl
    case dot =>
      obtain rfl := hb
      exact .cond .rfl (fun _ => .pure (by rfl) rfl) fun _ => hsome (selection_tracks hg h)
    case brace =>
      rw [asType?_expr]
      cases htype : e.asType? with
      | none => exact .pure (by rfl) rfl
      | some type => exact hsome (composite_tracks hg (h.asType htype))

/-! ### Operators -/

theorem unaryOp_tracks :
    Tracks σ unaryOp unaryOp fun used o => o.elim (used = []) fun x => SpansIn used x.2 := by
  refine peek_tracks.bind fun _ o ho => ?_
  obtain rfl := ho
  cases o with
  | none => exact .pure (by rfl) rfl
  | some t =>
    refine (follows_tracks _).bind fun _ b hb => ?_
    obtain rfl := hb
    by_cases hkind : t.kind = .operator
    · refine .cond (by simp) (fun _ => .pure (by rfl) rfl) fun _ => ?_
      have htext : (rename σ t).text = t.text := σ.text_token (by simp [hkind])
      rw [htext]
      cases UnaryOp.ofToken? t.text with
      | none => exact .pure (by rfl) rfl
      | some op =>
        refine next_tracks.bind fun _ t ht => .pure ?_ rfl
        simpa [ht.1] using SpansIn.single t
    · exact .cond (by simp) (fun _ => .pure (by rfl) rfl) fun h => absurd (by simp [hkind]) h

theorem unary_at {ops : List (UnaryOp × Span)}
    (hops : Pieces (fun used x => SpansIn used x.2) v ops) (h : ExprAt text u e) :
    ExprAt text (v ++ u) (ops.foldr (fun (op, span) e => .unary (span.upTo e.span) op e) e) := by
  induction hops with
  | nil => exact h
  | skip t _ ih => exact ih.skip_left [t]
  | cons hop _ ih =>
    rw [List.append_assoc]
    exact (ih.skip_left _).unary (hop.upTo ih.spansIn) _

theorem unary_expr (σ : Renaming) (ops : List (UnaryOp × Span)) (e : Expr) :
    (ops.map (rename σ)).foldr (fun (op, span) e => .unary (span.upTo e.span) op e) (σ.expr e) =
      σ.expr (ops.foldr (fun (op, span) e => .unary (span.upTo e.span) op e) e) := by
  induction ops with
  | nil => rfl
  | cons op ops ih =>
    rw [List.map_cons, List.foldr_cons, ih]
    simp [rename]

theorem unary_tracks (hg : g.Track σ text) (cx : Context) :
    Tracks σ (unary g cx) (unary g cx) (ExprAt text) := by
  refine (unaryOp_tracks.many fun _ h => h).bind fun u ops hops =>
    (operand_tracks hg cx).bind fun v e he =>
    (Tracks.iterate (fun _ _ h => suffix_tracks hg cx h) he).bind fun w e' he' =>
    .pure ?_ (unary_expr σ ops e')
  simpa using unary_at hops he'

/-- An operator with the operand behind it, which was read from tokens. -/
def OperandAt (text : Span → String) (used : List Token) (x : BinaryOp × Expr) : Prop :=
  ExprAt text used x.2

/-- Joining operands keeps each of them on its tokens. -/
theorem joinLevel_at (level : Nat) {rest : List (BinaryOp × Expr)} (h : ExprAt text u e)
    (hrest : Pieces (OperandAt text) v rest) :
    ∃ u' v', u ++ v = u' ++ v' ∧ ExprAt text u' (joinLevel level e rest).1 ∧
      Pieces (OperandAt text) v' (joinLevel level e rest).2 := by
  induction rest generalizing u v e with
  | nil => exact ⟨u, v, rfl, h, hrest⟩
  | cons x rest ih =>
    obtain ⟨op, right⟩ := x
    obtain ⟨before, used, v, rfl, hright, hrest⟩ := hrest.uncons
    rw [joinLevel]
    split
    · have hjoined : ExprAt text (u ++ (before ++ used)) (joined op e right) :=
        h.binary (hright.skip_left before) op
      simpa using ih hjoined hrest
    · obtain ⟨u', v', heq, hright', hrest'⟩ := ih hright hrest
      refine ⟨u, before ++ (u' ++ v'), by rw [heq], h, ?_⟩
      have hright' : OperandAt text u' (op, (joinLevel level right rest).1) := hright'
      exact (Pieces.cons hright' hrest').skip_left before

theorem joinLevel_map (σ : Renaming) (level : Nat) (e : Expr) (rest : List (BinaryOp × Expr)) :
    joinLevel level (σ.expr e) (rest.map (rename σ)) = rename σ (joinLevel level e rest) := by
  induction rest generalizing e with
  | nil => rfl
  | cons x rest ih =>
    obtain ⟨op, right⟩ := x
    have hjoined : joined op (σ.expr e) (σ.expr right) = σ.expr (joined op e right) := by
      simp [joined]
    rw [List.map_cons, rename_mk, joinLevel, joinLevel]
    simp only [rename_expr, hjoined, ih, show rename σ op = op from rfl]
    split <;> rfl

/-- One level of precedence after the other. -/
theorem joinLevels_at (levels : List Nat) {x : Expr × List (BinaryOp × Expr)}
    (h : ExprAt text u x.1) (hrest : Pieces (OperandAt text) v x.2) :
    ∃ u' v', u ++ v = u' ++ v' ∧
      ExprAt text u' (levels.foldl (fun (e, rest) level => joinLevel level e rest) x).1 := by
  induction levels generalizing x u v with
  | nil => exact ⟨u, v, rfl, h⟩
  | cons level levels ih =>
    obtain ⟨u', v', heq, h', hrest'⟩ := joinLevel_at level h hrest
    rw [heq]
    exact ih h' hrest'

/-- Operators are joined level by level. Each join covers what its operands cover. -/
theorem joinAll_at {rest : List (BinaryOp × Expr)} (h : ExprAt text u e)
    (hrest : Pieces (OperandAt text) v rest) :
    ExprAt text (u ++ v) (joinAll e rest) := by
  obtain ⟨u', v', heq, hjoin⟩ := joinLevels_at [5, 4, 3, 2, 1] (x := (e, rest)) h hrest
  rw [heq]
  exact hjoin.skip_right v'

/-- Levels belong to operators, so a renamed list of operands is joined to the renamed tree. -/
theorem joinAll_map (σ : Renaming) (e : Expr) (rest : List (BinaryOp × Expr)) :
    joinAll (σ.expr e) (rest.map (rename σ)) = σ.expr (joinAll e rest) := by
  have hlevels : ∀ (levels : List Nat) (x : Expr × List (BinaryOp × Expr)),
      levels.foldl (fun (e, rest) level => joinLevel level e rest) (rename σ x) =
        rename σ (levels.foldl (fun (e, rest) level => joinLevel level e rest) x) := by
    intro levels
    induction levels with
    | nil => exact fun _ => rfl
    | cons level levels ih =>
      intro x
      rw [List.foldl_cons, List.foldl_cons, ← ih]
      exact congrArg (levels.foldl _) (joinLevel_map σ level x.1 x.2)
  exact congrArg Prod.fst (hlevels [5, 4, 3, 2, 1] (e, rest))

theorem binaryOp_tracks (hg : g.Track σ text) (cx : Context) :
    Tracks σ (binaryOp g cx) (binaryOp g cx)
      fun used o => o.elim (used = []) fun x => Pieces (OperandAt text) used [x] := by
  refine (ahead_tracks cx).bind fun _ o ho => ?_
  obtain rfl := ho
  cases o with
  | none => exact .pure (by rfl) rfl
  | some t =>
    have htext :
        (if (rename σ t).kind == .operator then BinaryOp.ofToken? (rename σ t).text else none) =
        if t.kind == .operator then BinaryOp.ofToken? t.text else none := by
      by_cases hkind : t.kind = .operator
      · rw [show (rename σ t).text = t.text from σ.text_token (by simp [hkind])]
        rfl
      · simp [hkind]
    dsimp only [rename_some]
    rw [htext]
    cases if t.kind == .operator then BinaryOp.ofToken? t.text else none with
    | none => exact .pure (by rfl) rfl
    | some op =>
      refine next_tracks.bind fun u _ _ => (unary_tracks hg cx).bind fun v e he => .pure ?_ rfl
      have hoperand : OperandAt text v (op, e) := he
      simpa using (Pieces.one hoperand).skip_left u

/-- An expression is read from renamed tokens as it is from the tokens. -/
theorem expr_tracks (hg : g.Track σ text) (cx : Context) :
    Tracks σ (expr g cx) (expr g cx) (ExprAt text) := by
  refine (unary_tracks hg cx).bind fun u e he => ((binaryOp_tracks hg cx).many fun _ h => h).bind
    fun v rest hrest => .pure ?_ (joinAll_map σ e rest)
  simpa using joinAll_at he hrest.join

end Grammar

end NilGuard.Go.Surface
