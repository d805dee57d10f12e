import NilGuard.Proofs.Idents

/-!
Bodies of functions. Whatever stands in a block of the tree was read from the body of a function,
and a body is closed by a brace. So behind every identifier in a block there is a token of the
source.
-/

namespace NilGuard.Go

open Resolver (spanText)
open Surface (Word exprBodies exprsBodies declBodies blockWords)

/-! ### Blocks in a tree -/

namespace Node

/-- Every identifier in a block at or below the nodes was made for a word of one of the bodies. -/
def Bodied (text : Span → String) (n : Nat) (as : List Act) (ns : List Node)
    (bodies : List Surface.Block) :
    Prop :=
  ∀ k ∈ ns, ∀ b, Node.block b ∈ Descent.full.walk k → ∀ i ∈ (Node.block b).ids,
    ∃ body ∈ bodies, ∃ w ∈ blockWords text body, MadeFor n as i w

namespace Bodied

variable {text : Span → String} {n : Nat} {as as' : List Act} {ns ns' : List Node}
  {bodies bodies' : List Surface.Block}

theorem nil (as : List Act) (bodies : List Surface.Block) : Bodied text n as [] bodies := by
  rintro k ⟨⟩

/-- Parts one after the other have their blocks inside of the bodies of one or the other. -/
theorem append (h : Bodied text n as ns bodies)
    (h' : Bodied text (n + (Act.made as).length) as' ns' bodies') :
    Bodied text n (as ++ as') (ns ++ ns') (bodies ++ bodies') := by
  intro k hk b hb i hi
  rcases List.mem_append.mp hk with hk | hk
  · obtain ⟨body, hbody, w, hw, hmade⟩ := h k hk b hb i hi
    exact ⟨body, List.mem_append_left _ hbody, w, hw, hmade.append_right as'⟩
  · obtain ⟨body, hbody, w, hw, hmade⟩ := h' k hk b hb i hi
    exact ⟨body, List.mem_append_right _ hbody, w, hw, hmade.append_left⟩

theorem scope (h : Bodied text n as ns bodies) : Bodied text n [.scope as] ns bodies := by
  intro k hk b hb i hi
  obtain ⟨body, hbody, w, hw, hmade⟩ := h k hk b hb i hi
  exact ⟨body, hbody, w, hw, by simpa [MadeFor] using hmade⟩

theorem subset (h : Bodied text n as ns bodies) (hns : ns' ⊆ ns) : Bodied text n as ns' bodies :=
  fun k hk => h k (hns hk)

theorem of_children {k : Node} (hk : ∀ b, k ≠ .block b) (h : Bodied text n as k.children bodies) :
    Bodied text n as [k] bodies := by
  rintro _ (_ | ⟨_, ⟨⟩⟩) b hb
  rw [Descent.walk_eq] at hb
  rcases List.mem_cons.mp hb with rfl | hb
  · exact absurd rfl (hk b)
  · obtain ⟨m, hm, hb⟩ := List.mem_flatMap.mp hb
    exact h m hm b hb

/-- An expression is no block. -/
theorem expr {e : Expr} (h : Bodied text n as (ofExpr e) bodies) :
    Bodied text n as [.expr e] bodies :=
  .of_children (fun _ => by simp) h

theorem idents (is : List IdentId) (span : Span) (bodies : List Surface.Block) :
    Bodied text n as (is.map (.ident · span)) bodies := by
  intro k hk b hb
  obtain ⟨i, -, rfl⟩ := List.mem_map.mp hk
  simp [Descent.walk_eq, Descent.full, children] at hb

/-- The words of a body are those of the block that was made of it. -/
theorem of_built {b : Block} {body : Surface.Block}
    (h : Built n as [.block b] (blockWords text body)) :
    Bodied text n as [.block b] [body] := by
  rintro _ (_ | ⟨_, ⟨⟩⟩) b' hb' i hi
  have hi : i ∈ [Node.block b].flatMap ids := by simpa using ids_subset hb' hi
  obtain ⟨ws, hws, hsub⟩ := List.sublistForall₂_iff.mp h.spells
  obtain ⟨j, hj, rfl⟩ := List.mem_iff_getElem.mp hi
  obtain ⟨hlength, hget⟩ := List.forall₂_iff_get.mp hws
  exact ⟨body, List.mem_singleton_self _, _, hsub.subset (List.get_mem ws ⟨j, hlength ▸ hj⟩),
    hget j hj (hlength ▸ hj)⟩

end Bodied

end Node

namespace Resolver

open Node (Bodied)
open Surface (exprActs exprsActs globalsActs declActs declsActs)

variable {src : List Char}

mutual

/-- The blocks in a resolved expression are inside of the bodies of its function literals. -/
theorem resolveExpr_bodied (e : Surface.Expr) : ∀ {n : Nat},
    Makes src n (resolveExpr e) (exprActs (spanText src) e)
      fun e' => Bodied (spanText src) n (exprActs (spanText src) e) [.expr e'] (exprBodies e) := by
  intro n
  cases e with
  | ident name =>
    rw [resolveExpr, exprActs]
    exact .bind_pure (exprIdent_makes name) fun i _ => .expr (.idents [i] name.span _)
  | literal span =>
    rw [resolveExpr, exprActs]
    exact .bind_pure (textOf_makes span) fun _ _ => .expr (.nil _ _)
  | unary span op operand =>
    rw [resolveExpr, exprActs, exprBodies]
    exact .bind_pure (resolveExpr_bodied operand) fun _ h => .expr h
  | binary span op left right =>
    rw [resolveExpr, exprActs, exprBodies]
    exact .bind (resolveExpr_bodied left) fun _ hl =>
      .bind_pure (resolveExpr_bodied right) fun _ hr =>
      .expr (hl.append hr)
  | call span callee args =>
    rw [resolveExpr, exprActs, exprBodies]
    exact .bind (resolveExpr_bodied callee) fun _ hc =>
      .bind_pure (resolveExprs_bodied args) fun _ ha =>
      .expr (hc.append ha)
  | selector span operand field =>
    rw [resolveExpr, exprActs, exprBodies]
    exact .bind_pure (resolveExpr_bodied operand) fun _ h => .expr h
  | paren span inner =>
    rw [resolveExpr, exprActs, exprBodies]
    exact .bind_pure (resolveExpr_bodied inner) fun _ h => .expr h
  | closure span params body =>
    rw [resolveExpr, exprActs, exprBodies]
    exact .inScope (.bind (declareAll_makes .param params) fun _ _ =>
      .bind_pure (resolveBody_makes body) fun _ h =>
        .scope (.expr ((Bodied.nil _ []).append (.of_built h))))
  | keyed span key value =>
    rw [resolveExpr, exprActs, exprBodies]
    exact .bind (resolveExpr_bodied key) fun _ hk =>
      .bind_pure (resolveExpr_bodied value) fun _ hv =>
      .expr (hk.append hv)
  | group span parts =>
    rw [resolveExpr, exprActs, exprBodies]
    exact .bind_pure (resolveExprs_bodied parts) fun _ h => .expr h
  | typeName name =>
    rw [resolveExpr, exprActs]
    exact .pure (.expr (.nil _ _))
  | key name =>
    rw [resolveExpr, exprActs]
    split
    · exact .bind_pure (exprIdent_makes name) fun i _ => .expr (.idents [i] name.span _)
    · exact .pure (.expr (.nil _ _))
  | either name asType asValue =>
    rw [resolveExpr, exprActs, exprBodies]
    split
    · exact resolveExpr_bodied asValue
    · exact resolveExpr_bodied asType

theorem resolveExprs_bodied (es : List Surface.Expr) : ∀ {n : Nat},
    Makes src n (resolveExprs es) (exprsActs (spanText src) es)
      fun es' => Bodied (spanText src) n (exprsActs (spanText src) es) (es'.map .expr)
      (exprsBodies es) := by
  intro n
  cases es with
  | nil =>
    rw [resolveExprs, exprsActs]
    exact .pure (.nil _ _)
  | cons e es =>
    rw [resolveExprs, exprsActs, exprsBodies]
    exact .bind (resolveExpr_bodied e) fun _ he => .bind_pure (resolveExprs_bodied es) fun _ hes =>
      he.append hes

end

theorem resolveGlobals_bodied (specs : List Surface.Spec) (r : Resolver) (span : Span) :
    Bodied (spanText r.source) r.idents.size (globalsActs (spanText r.source) specs)
      ((resolveGlobals specs r).1.flatMap (Node.ofSpec span))
      (specs.flatMap Surface.Grammar.specBodies) := by
  induction specs generalizing r with
  | nil => exact .nil _ _
  | cons spec specs ih =>
    obtain ⟨names, values⟩ := spec
    obtain ⟨hvalues, -, hbodied⟩ := resolveExprs_bodied values r rfl rfl
    have hnames := useAll_eq names (r.steps (Act.allEvents (exprsActs (spanText r.source) values)))
    have hrest := ih ((r.steps (Act.allEvents (exprsActs (spanText r.source) values))).steps
      (Act.allEvents (names.map .use)))
    rw [resolveGlobals_cons, hvalues, hnames, globalsActs, List.append_assoc]
    simp only [source_steps, size_acts] at hrest ⊢
    rw [Surface.exprsBodies_eq] at hbodied
    generalize List.range' _ _ = is
    refine (hbodied.append ((Bodied.idents is span []).append hrest)).subset fun k hk => ?_
    simp only [List.flatMap_cons, Node.ofSpec, List.mem_append] at hk ⊢
    tauto

theorem resolveDecl_bodied (d : Surface.Decl) (r : Resolver) :
    Bodied (spanText r.source) r.idents.size (declActs (spanText r.source) d)
      (resolveDecl d r).1.root?.toList (declBodies d) := by
  cases d with
  | func span method name params body =>
    have hmakes : Makes r.source r.idents.size (resolveDecl (.func span method name params body))
        (declActs (spanText r.source) (.func span method name params body))
        fun d => Bodied (spanText r.source) r.idents.size (declActs (spanText r.source)
          (.func span method name params body)) d.root?.toList body.toList := by
      rw [declActs]
      refine .inScope (.bind (declareAll_makes .param params) fun _ _ => ?_)
      cases body with
      | none => exact .pure (.nil _ _)
      | some body =>
        exact .bind_pure (resolveBody_makes body) fun _ h =>
          .scope ((Bodied.nil _ []).append (.of_built h))
    exact (hmakes r rfl rfl).2.2
  | vars span kind specs =>
    exact .of_children (fun _ => by simp) (resolveGlobals_bodied specs r span)

theorem resolveDecls_bodied (ds : List Surface.Decl) (r : Resolver) :
    Bodied (spanText r.source) r.idents.size (declsActs (spanText r.source) ds)
      ((resolveDecls ds r).1.filterMap Decl.root?) (ds.flatMap declBodies) := by
  induction ds generalizing r with
  | nil => exact .nil _ _
  | cons d ds ih =>
    have hd := (resolveDecl_steps d r).1
    have hrest := ih (r.steps (Act.allEvents (declActs (spanText r.source) d)))
    rw [resolveDecls_cons, hd, declsActs, List.flatMap_cons, List.flatMap_cons,
      filterMap_root?_cons]
    simp only [source_steps, size_acts] at hrest
    exact (resolveDecl_bodied d r).append hrest

end Resolver

/-! ### Behind an identifier -/

/-- A token stands behind every word of a body. -/
theorem Surface.BlockAt.exists_behind {text : Span → String} {p : Position} {cs : List Char}
    {used : List Token} {body : Surface.Block} (h : Surface.BlockAt text used body)
    (hlaid : Laid p cs used) {w : Word} (hw : w ∈ blockWords text body) :
    ∃ t ∈ used, w.name.span.stop ≤ t.span.start := by
  obtain ⟨inside, last, rfl, hinside⟩ := h.closed
  obtain ⟨before, first, rest, rfl, t, ht, hspan⟩ := hinside.spansIn hw
  refine ⟨last, by simp, ?_⟩
  rw [hspan]
  exact (List.pairwise_append.mp hlaid.pairwise_stop).2.2 t (List.mem_append_right before ht) last
    (by simp)

/-- Behind every identifier in a block there is a token, since a brace closes the body around it. -/
theorem File.Origin.exists_behind {f : File} {path source : String} {decls : List Surface.Decl}
    {ts : List Token} {es : List Event} (h : f.Origin path source decls ts es) {root : Node}
    (hroot : root ∈ f.roots) {b : Block} (hb : Node.block b ∈ Descent.full.walk root) {i : Nat}
    (hi : i ∈ (Node.block b).ids) {y : Ident} (hy : f.idents[i]? = some y) :
    ∃ t ∈ ts, y.span.stop ≤ t.span.start := by
  have hbodied : Node.Bodied (spanText source.toList) 0 (Surface.sourceActs source decls) f.roots
      (decls.flatMap declBodies) := by
    rw [File.roots, h.decls_eq]
    exact Resolver.resolveDecls_bodied decls (.start source.toList decls)
  obtain ⟨body, hbody, w, hw, j, rfl, hj⟩ := hbodied root hroot b hb i hi
  have hname : w.name = ⟨y.name, y.span⟩ := by
    have hnames := congrArg (·[j]?) h.map_idents
    have hwords : (Event.words es)[j]? = some w := by rw [h.events_eq]; exact hj
    rw [Nat.zero_add] at hy
    simpa [hy, hwords, eq_comm] using hnames
  have hbodies : Surface.Pieces (Surface.BlockAt (spanText source.toList)) ts
      (decls.flatMap declBodies) :=
    h.pieces.flatMap fun _ _ hd => hd.bodies
  obtain ⟨before, used, after, rfl, hused⟩ := hbodies.exists_of_mem hbody
  have hlaid := h.laid.sublist
    ((List.sublist_append_left used after).trans (List.sublist_append_right before _))
  obtain ⟨t, ht, hstop⟩ := hused.exists_behind hlaid hw
  exact ⟨t, by simp [ht], by rwa [hname] at hstop⟩

end NilGuard.Go
