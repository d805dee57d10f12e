import Mathlib
import NilGuard.Go.Resolve
import NilGuard.Proofs.Grammar.Stmts

/-!
Whole files on renamed tokens. The words of a file stand among its tokens, and a file whose names
are renamed safely reads as the renamed file.
-/

namespace NilGuard.Go.Surface

variable {σ : Renaming} {text : Span → String} {u : List Token}

/-! ### Declarations among tokens -/

/-- The words of a declaration, with the name of a function that is known in the whole file. -/
def declNames (text : Span → String) : Decl → List Word
  | .func span method n params body =>
    (if method then [] else [⟨.declared, n⟩]) ++ declWords text (.func span method n params body)
  | .vars span kind specs => declWords text (.vars span kind specs)

theorem declWords_sublist (text : Span → String) (d : Decl) :
    (declWords text d).Sublist (declNames text d) := by
  cases d with
  | func => exact List.sublist_append_right _ _
  | vars => exact .refl _

/-- The bodies of the functions in a declaration, without those inside of other bodies. -/
def declBodies : Decl → List Block
  | .func _ _ _ _ body => body.toList
  | .vars _ _ specs => specs.flatMap Grammar.specBodies

/-- What is known of a declaration and the tokens it was read from: its words and the bodies of its
functions stand among them, and what it declares is not taken as declared outside. -/
structure DeclAt (text : Span → String) (used : List Token) (d : Decl) : Prop where
  covers : Covers text used (declNames text d)
  known : ∀ x ∈ d.globals, x.2 ≠ .external
  bodies : Pieces (BlockAt text) used (declBodies d)

/-- What is known of an item and the tokens it was read from. -/
def ItemAt (text : Span → String) (used : List Token) : Item → Prop
  | .decl d => DeclAt text used d
  | .stmt s => Covers text used (stmtWords text s)

/-- Of items that may be missing, those that are there. -/
theorem Pieces.reduceOption {α : Type} {Q : List Token → α → Prop} {ts : List Token}
    {os : List (Option α)}
    (h : Pieces (fun used o => ∀ x, o = some x → Q used x) ts os) :
    Pieces Q ts os.reduceOption := by
  induction h with
  | nil => exact .nil
  | skip t _ ih => exact .skip t ih
  | @cons used ts o os ho _ ih =>
    cases o with
    | none => exact ih.skip_left used
    | some x => exact .cons (ho x rfl) ih

/-- The declarations among items. -/
theorem Pieces.decls {text : Span → String} {ts : List Token} {items : List Item}
    (h : Pieces (ItemAt text) ts items) :
    Pieces (DeclAt text) ts (items.filterMap Item.decl?) := by
  induction h with
  | nil => exact .nil
  | skip t _ ih => exact .skip t ih
  | @cons used ts x items hx _ ih =>
    cases x with
    | decl d => exact .cons hx ih
    | stmt s => exact ih.skip_left used

namespace Grammar

open NilGuard.Reader

variable {g : Rules}

theorem rules_track (σ : Renaming) (text : Span → String) (n : Nat) : (rules n).Track σ text := by
  induction n with
  | zero =>
    exact ⟨fun _ => .failure, fun _ => .failure, .failure, .failure, .failure, fun _ h => ⟨0, h⟩⟩
  | succ n ih =>
    exact ⟨type_tracks ih, expr_tracks ih, elements_tracks ih, stmt_tracks ih, block_tracks ih,
      fun _ h => ⟨n + 1, h⟩⟩

/-! ### Imports -/

theorem importSpec_tracks : Tracks σ importSpec importSpec fun _ _ => True := by
  refine next_tracks.bind fun _ t _ => .cond (by simp) (fun _ => ?_) fun _ => ?_
  · exact next_tracks.bind fun _ path _ => (Tracks.require (by simp)).mono fun _ _ _ => ⟨⟩
  · exact (Tracks.require (by simp)).mono fun _ _ _ => ⟨⟩

theorem importDecl_tracks : Tracks σ importDecl importDecl fun _ _ => True := by
  refine (expect_tracks "import").bind fun _ _ _ => Tracks.discard (declared_tracks
    (Q := fun _ _ => True) (importSpec_tracks.bind fun _ _ _ => .pure ⟨⟩ (by simp [rename])))

/-! ### Functions -/

theorem func_globals {span : Span} {method : Bool} {n : Name} {params : List Name}
    {body : Option Block} :
    ∀ x ∈ (Decl.func span method n params body).globals, x.2 ≠ .external := by
  intro x hx
  rw [Decl.globals] at hx
  split at hx
  · cases hx
  · obtain rfl := List.mem_singleton.mp hx
    simp

theorem funcRest_tracks (hg : g.Track σ text) (first : Span) (method : Bool) {receiver : List Name}
    (n : Name) (hnames : Covers text u ((if method then [] else [⟨.declared, n⟩]) ++
      declaredWords receiver)) :
    Tracks σ (funcRest g first method receiver n)
      (funcRest g (σ.span first) method (receiver.map σ.name) (σ.name n))
      fun used d => DeclAt text (u ++ used) d := by
  refine (signature_tracks hg .outer).bind fun v x hx => (isAhead_tracks .outer _).look fun _ =>
    .cond .rfl (fun _ => ?_) fun _ => .pure ⟨?_, func_globals, .none _⟩ (by simp)
  · refine (block_tracks hg).bind fun w body hbody => .pure ⟨?_, func_globals, ?_⟩ (by simp)
    · have hall := Covers.append (hnames.append hx.declares) hbody.covers
      simpa [declNames, declWords, declaredWords] using hall
    · simpa [declBodies] using (Pieces.one hbody).skip_left (u ++ v)
  · have hall := hnames.append hx.declares
    simpa [declNames, declWords, declaredWords] using hall

theorem typeParamsHere_tracks (hg : g.Track σ text) :
    Tracks σ (typeParamsHere g) (typeParamsHere g) fun _ _ => True :=
  (isAhead_tracks .outer "[").look fun _ => .cond .rfl (fun _ => typeParams_tracks hg) fun _ =>
    .pure ⟨⟩ rfl

theorem func_tracks (hg : g.Track σ text) :
    Tracks σ (func g) (func g) fun used d => DeclAt text used d := by
  refine (expect_tracks "func").bind fun u first _ => (isAhead_tracks .inner "(").look fun _ =>
    .cond .rfl (fun _ => ?_) fun _ => ?_
  · refine (params_tracks hg).bind fun v x hx => name_tracks.bind fun w n _ => ?_
    have hreceiver : Covers text (u ++ (v ++ w)) (declaredWords x.1) :=
      (hx.declares.skip_right w).skip_left u
    refine (funcRest_tracks hg first.span true n (by simpa using hreceiver)).mono fun y d hd => ?_
    simpa using hd
  · refine name_tracks.bind fun v n hn => (typeParamsHere_tracks hg).bind fun w _ _ => ?_
    have hname : Covers text (u ++ (v ++ w)) (declaredWords [n]) :=
      ((hn.declares text).skip_right w).skip_left u
    refine (funcRest_tracks hg first.span false n (by simpa [declaredWords] using hname)).mono
      fun y d hd => ?_
    simpa using hd

/-! ### Files -/

theorem item_tracks (hg : g.Track σ text) :
    Tracks σ (item g) (item g) fun used o => ∀ x, o = some x → ItemAt text used x := by
  have hstmt : Tracks σ (Item.stmt <$> stmt g) (Item.stmt <$> stmt g) (ItemAt text) :=
    (stmt_tracks hg).map (fun _ => rfl) fun _ _ h => h
  have hdecl : Tracks σ (Item.decl <$> func g) (Item.decl <$> func g) (ItemAt text) :=
    (func_tracks hg).map (fun _ => rfl) fun _ _ h => h
  refine peek_tracks.look fun o => ?_
  cases o with
  | none => exact .failure
  | some t =>
    refine .cond (by simp) (fun _ => ?package) fun _ => .cond (by simp) (fun _ => ?imports) fun _ =>
      .cond (by simp) (fun _ => ?func) fun _ => .cond (by simp) (fun _ => ?vars) fun _ => ?stmt
    case package =>
      exact next_tracks.bind fun _ _ _ => name_tracks.bind fun _ _ _ => .pure (by simp) rfl
    case imports => exact importDecl_tracks.bind fun _ _ _ => .pure (by simp) rfl
    case func => exact (hdecl.orElse hstmt).map (fun _ => rfl) fun _ _ h => by simpa using h
    case vars =>
      refine (vars_tracks hg).bind fun v x hx => .pure ?_ (by simp [rename])
      rintro _ ⟨⟩
      refine ⟨?_, fun y hy => ?_, ?_⟩
      · simpa [declNames, declWords] using hx.1.covers fun _ _ h => h.covers
      · obtain ⟨z, -, rfl⟩ := List.mem_map.mp hy
        exact hx.2
      · simpa [declBodies] using hx.1.flatMap fun _ _ h => h.bodies
    case stmt => exact (stmt_tracks hg).bind fun v s hs => .pure (by simpa [ItemAt] using hs) rfl

theorem atEnd_tracks : Tracks σ (atEnd : Reader Unit) atEnd fun used _ => used = [] := by
  intro ts _
  cases ts with
  | nil => exact .inr ⟨[], ⟨⟩, [], rfl, rfl, rfl, rfl⟩
  | cons t ts => exact .inl ⟨rfl, rfl⟩

theorem file_tracks (hg : g.Track σ text) : Tracks σ (file g) (file g) (Pieces (ItemAt text)) := by
  refine (itemList_tracks [] (item_tracks hg)).bind fun u items hitems => atEnd_tracks.look fun _ =>
    .pure ?_ ?_
  · rw [List.append_nil]
    exact hitems.reduceOption
  · exact List.reduceOption_map

/-- A file takes all tokens. -/
theorem rest_of_file {ts rest : List Token} {items : List Item}
    (h : file g ts = some (items, rest)) :
    rest = [] := by
  obtain ⟨⟨read, mid⟩, -, h⟩ := Option.bind_eq_some_iff.mp h
  obtain ⟨⟨⟨⟩, mid'⟩, hend, h⟩ := Option.bind_eq_some_iff.mp h
  cases mid with
  | nil => cases hend; cases h; rfl
  | cons t ts => cases hend

/-- A file whose names are renamed safely reads as the renamed file, or not at all. -/
theorem file_renamed (text : Span → String) (n : Nat) {ts : List Token} (hts : Safe σ ts) :
    ((file (rules n)).run ts = none ∧ (file (rules n)).run (ts.map σ.token) = none) ∨
      ∃ items, (file (rules n)).run ts = some (items, []) ∧
        (file (rules n)).run (ts.map σ.token) = some (items.map σ.item, []) ∧
        Pieces (ItemAt text) ts items := by
  rcases file_tracks (rules_track σ text n) ts hts with
    h | ⟨used, items, rest, hused, hrun, hrun', hQ⟩
  · exact .inl h
  · obtain rfl := rest_of_file hrun
    rw [List.append_nil] at hused
    exact .inr ⟨items, hrun, hrun', hused ▸ hQ⟩

end Grammar

/-! ### Declarations of a source -/

theorem Decl.exists_of_ofSource? {source : List Char} {decls : List Decl}
    (h : Decl.ofSource? source = some decls) :
    ∃ ts items, tokens source = some ts ∧
      (Grammar.file (Grammar.rules (ts.length + 1))).run ts = some (items, []) ∧
      items.all Item.sound = true ∧ decls = items.filterMap Item.decl? := by
  simp only [Decl.ofSource?, Option.bind_eq_bind, Option.bind_eq_some_iff] at h
  obtain ⟨ts, hts, ⟨items, rest⟩, hitems, ⟨⟩, hsound, hdecls⟩ := h
  obtain rfl := Grammar.rest_of_file hitems
  exact ⟨ts, items, hts, hitems, by simpa [guard] using hsound, by simpa using hdecls.symm⟩

/-- The declarations of a source stand among its tokens. -/
theorem Decl.pieces_of_ofSource? {source : List Char} {decls : List Decl}
    (h : Decl.ofSource? source = some decls) (text : Span → String) :
    ∃ ts, tokens source = some ts ∧ Pieces (DeclAt text) ts decls := by
  obtain ⟨ts, items, hts, hrun, -, rfl⟩ := exists_of_ofSource? h
  refine ⟨ts, hts, ?_⟩
  obtain ⟨hnone, -⟩ | ⟨items', hrun', -, hpieces⟩ :=
    Grammar.file_renamed text (ts.length + 1) (Grammar.safe_same ts)
  · simp [hrun] at hnone
  · obtain rfl : items' = items := by simpa [hrun] using hrun'.symm
    exact hpieces.decls

end NilGuard.Go.Surface
