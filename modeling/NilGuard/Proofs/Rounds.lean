import NilGuard.Proofs.Fixing
import NilGuard.Proofs.Idents

/-!
Rounds of fixing, as seen from the file they start with. After some rounds a file is the first one
with some identifiers turned into the nil literal (`Renamed`). A read that is found then was bound
from the beginning, to what an earlier identifier is bound to, so it is a name in the source; and it
is found in one round only.
-/

namespace NilGuard

open Go

/-! ### Walks -/

/-- A descent that enters only what can be reached reaches only what can be reached. -/
theorem Go.Descent.walk_subset {d : Descent}
    (h : ∀ n, ∀ m ∈ d.next n, m ∈ full.walk n) (n : Node) : d.walk n ⊆ full.walk n := by
  intro m hm
  induction hm using mem_walk_induction with
  | self => exact full.mem_walk_self m
  | step n k hk _ ih => exact walk_trans (h n k hk) ih

theorem Go.Node.mem_walk_of_follow {n m : Node} {path : List Nat} (h : n.follow path = some m) :
    m ∈ Descent.full.walk n := by
  induction path generalizing n with
  | nil =>
    cases h
    exact Descent.full.mem_walk_self m
  | cons i path ih =>
    rw [follow_cons, Option.bind_eq_some_iff] at h
    obtain ⟨k, hk, h⟩ := h
    exact Descent.walk_trans (Descent.mem_walk_of_next (List.mem_of_getElem? hk)) (ih h)

theorem Go.File.mem_walk_of_follow {f : File} {path : List Nat} {n : Node}
    (h : f.follow path = some n) :
    ∃ root ∈ f.roots, n ∈ Descent.full.walk root := by
  cases path with
  | nil => cases h
  | cons j path =>
    rw [File.follow, Option.bind_eq_some_iff] at h
    obtain ⟨root, hroot, h⟩ := h
    exact ⟨root, File.mem_roots_of_tree? hroot, Node.mem_walk_of_follow h⟩

/-- A searched block is below a root. -/
theorem Go.File.Scans.mem_walk {f : File} {path : List Nat} {b : Block} (h : f.Scans path b) :
    ∃ root ∈ f.roots, Node.block b ∈ Descent.full.walk root :=
  mem_walk_of_follow h.follow_eq

theorem inPlace_subset (n : Node) : inPlace.walk n ⊆ Descent.full.walk n := by
  refine Descent.walk_subset (fun n m hm => ?_) n
  cases n with
  | stmt s =>
    simp only [inPlace] at hm
    split at hm
    · next args hargs =>
      obtain ⟨e, he, rfl⟩ := List.mem_map.mp hm
      -- The call is below the statement, and its arguments are below the call.
      have hcall : ∃ span callee, Node.expr (.call span callee args) ∈ (Node.stmt s).children := by
        unfold laterArgs? at hargs
        split at hargs <;> cases hargs <;> exact ⟨_, _, List.mem_singleton_self _⟩
      obtain ⟨span, callee, hcall⟩ := hcall
      refine Descent.walk_trans (Descent.mem_walk_of_next hcall) (Descent.mem_walk_of_next ?_)
      exact List.mem_cons_of_mem _ (List.mem_map_of_mem he)
    · exact Descent.mem_walk_of_next hm
  | _ => exact Descent.mem_walk_of_next hm

/-- An occurrence in a statement has its number there. -/
theorem mem_ids_of_occurrences {f : File} {b : BindingId} {s : Stmt} {i : IdentId}
    (h : i ∈ occurrences f b s) : i ∈ (Node.stmt s).ids := by
  obtain ⟨n, hn, hi⟩ := List.mem_filterMap.mp h
  obtain ⟨⟨span, rfl⟩, -⟩ := occurrence?_eq_some.mp hi
  exact List.mem_filterMap.mpr ⟨_, inPlace_subset _ hn, rfl⟩

/-- The variable of a comparison has its number in it. -/
theorem mem_ids_of_nilComparison? {f : File} {cond : Expr} {left right : IdentId}
    (h : nilComparison? f cond = some (left, right)) : left ∈ (Node.expr cond).ids := by
  obtain ⟨⟨_, hleft⟩, -⟩ := sides_mem_children h
  exact Node.ids_subset (Descent.mem_walk_of_next hleft) Node.id_mem_ids

/-! ### Renamed files -/

/-- A file that differs from another one only in that some identifiers are the nil literal. -/
structure Renamed (f : File) (ids : List IdentId) (g : File) : Prop where
  path_eq : g.path = f.path
  source_eq : g.source = f.source
  decls_eq : g.decls = f.decls
  bindings_eq : g.bindings = f.bindings
  idents_eq : ∀ i, g.idents[i]? =
    if i ∈ ids then f.idents[i]?.map fun x => { x with name := nilName, binding := none }
    else f.idents[i]?

namespace Renamed

variable {f g : File} {ids : List IdentId}

theorem refl (f : File) : Renamed f [] f :=
  ⟨rfl, rfl, rfl, rfl, fun i => by simp⟩

theorem rename (h : Renamed f ids g) (i : IdentId) :
    Renamed f (ids ++ [i]) (g.rename i nilName) where
  path_eq := h.path_eq
  source_eq := h.source_eq
  decls_eq := h.decls_eq
  bindings_eq := h.bindings_eq
  idents_eq j := by
    rw [File.getElem?_rename, h.idents_eq]
    by_cases hj : i = j
    · subst hj
      by_cases hi : i ∈ ids <;> simp [hi, Function.comp_def]
    · have hmem : j ∈ ids ++ [i] ↔ j ∈ ids := by simp [Ne.symm hj]
      simp [hj, hmem]

theorem roots_eq (h : Renamed f ids g) : g.roots = f.roots := by
  rw [File.roots, h.decls_eq]
  rfl

theorem tree?_eq (h : Renamed f ids g) (i : Nat) : g.tree? i = f.tree? i := by
  rw [File.tree?, h.decls_eq]
  rfl

/-- What is not the nil literal is as it was. -/
theorem of_isNamed (h : Renamed f ids g) {i : IdentId} (hi : g.isNamed i = true) :
    i ∉ ids ∧ g.idents[i]? = f.idents[i]? := by
  have hmem : i ∉ ids := by
    intro hmem
    rw [File.isNamed, h.idents_eq, if_pos hmem] at hi
    cases hx : f.idents[i]? <;> simp [hx, Ident.isNil] at hi
  exact ⟨hmem, by rw [h.idents_eq, if_neg hmem]⟩

/-- What is bound is as it was. -/
theorem of_binding (h : Renamed f ids g) {i : IdentId} {x : Ident} {b : BindingId}
    (hx : g.idents[i]? = some x) (hb : x.binding = some b) : f.idents[i]? = some x := by
  rw [h.idents_eq] at hx
  split at hx
  · obtain ⟨y, -, rfl⟩ := Option.map_eq_some_iff.mp hx
    cases hb
  · exact hx

theorem startsDistinct (h : Renamed f ids g) (hf : f.StartsDistinct) : g.StartsDistinct := by
  have hspan : ∀ {i : IdentId} {x : Ident}, g.idents[i]? = some x →
      ∃ y, f.idents[i]? = some y ∧ y.span = x.span := by
    intro i x hx
    rw [h.idents_eq] at hx
    split at hx
    · obtain ⟨y, hy, rfl⟩ := Option.map_eq_some_iff.mp hx
      exact ⟨y, hy, rfl⟩
    · exact ⟨x, hx, rfl⟩
  intro i j x y hx hy hxy
  obtain ⟨x', hx', hxspan⟩ := hspan hx
  obtain ⟨y', hy', hyspan⟩ := hspan hy
  exact hf i j x' y' hx' hy' (by rw [hxspan, hyspan, hxy])

/-- A pass over different names renames all of them. -/
theorem foldl_fixOne (h : Renamed f ids g) (n : Nat) {xs : List Finding}
    (hnamed : ∀ x ∈ xs, g.isNamed x.ident = true) (hxs : xs.Pairwise fun x y => x.ident ≠ y.ident) :
    Renamed f (ids ++ xs.map (·.ident)) (xs.foldl NilGuard.fixOne (g, n)).1 ∧
      (xs.foldl NilGuard.fixOne (g, n)).2 = n + xs.length := by
  induction xs generalizing g ids n with
  | nil => exact ⟨by simpa using h, rfl⟩
  | cons x xs ih =>
    obtain ⟨hx, hrest⟩ := List.forall_mem_cons.mp hnamed
    obtain ⟨hne, hxs⟩ := List.pairwise_cons.mp hxs
    have hstep : fixOne (g, n) x = (g.rename x.ident nilName, n + 1) := by simp [fixOne, hx]
    have hnamed' : ∀ y ∈ xs, (g.rename x.ident nilName).isNamed y.ident = true := by
      intro y hy
      rw [File.isNamed, File.getElem?_rename, if_neg (hne y hy)]
      exact hrest y hy
    rw [List.foldl_cons, hstep]
    obtain ⟨hrenamed, hcount⟩ := ih (h.rename x.ident) (n + 1) hnamed' hxs
    refine ⟨by simpa using hrenamed, ?_⟩
    rw [hcount, List.length_cons]
    omega

end Renamed

/-! ### What is found in a renamed file -/

/-- A finding is about a name of the source. Its identifier stands in a block and shares its binding
with an earlier one. -/
structure Traced (f : File) (x : Finding) (y : Ident) (t : Token) : Prop where
  ident_eq : f.idents[x.ident]? = some y
  file_eq : x.file = f.path
  span_eq : x.span = y.span
  name_eq : x.name = y.name
  not_nil : y.isNil = false
  token_kind : t.kind = .name
  token_plain : t.text ∉ ["true", "false", "iota"]
  token_text : t.text = y.name
  token_span : t.span = y.span
  shared : ∃ (v : Nat) (z : Ident) (b : BindingId), v < x.ident ∧ f.idents[v]? = some z ∧
    z.binding = some b ∧ y.binding = some b
  inBlock : ∃ root ∈ f.roots, ∃ b, Node.block b ∈ Descent.full.walk root ∧
    x.ident ∈ (Node.block b).ids

/-- A guard and what it proves nil stand in one block, and the variable of the guard comes first. -/
theorem exists_variable {g : File} {path : List Nat} {k : Nat} {gd : Guard} {i : IdentId}
    (hroots : ∀ m ∈ g.roots, ∀ n ∈ Descent.full.walk m, n.InOrder) (hg : g.HasGuard path k gd)
    (hi : gd.ProvesNil g i) :
    ∃ root ∈ g.roots, ∃ b, Node.block b ∈ Descent.full.walk root ∧ i ∈ (Node.block b).ids ∧
      ∃ (v : Nat) (z : Ident), v < i ∧ g.idents[v]? = some z ∧ z.binding = some gd.binding := by
  obtain ⟨b, span, init, cond, body, orElse, hscans, hget, hguarded, -, hrem⟩ := hg
  obtain ⟨before, s, after, hsplit, -, -, hoccurs⟩ := hi
  obtain ⟨v, right, z, hcomparison, hz, -, hzb⟩ := exists_of_guarded? hguarded
  obtain ⟨root, hroot, hb⟩ := hscans.mem_walk
  have hstmt : ∀ t ∈ b.stmts, Node.stmt t ∈ Descent.full.walk (.block b) := fun t ht =>
    Descent.mem_walk_of_next (List.mem_map_of_mem ht)
  have hif := hstmt _ (List.mem_of_getElem? hget)
  have hcond : Node.expr cond ∈ Descent.full.walk (.stmt (.ifStmt span init cond body orElse)) :=
    Descent.mem_walk_of_next (by simp [Descent.full, Node.children, Node.ofStmt])
  have hv := mem_ids_of_nilComparison? hcomparison
  have his := mem_ids_of_occurrences hoccurs
  have hs : s ∈ orElse.toList ++ b.stmts.drop (k + 1) := by rw [← hrem, hsplit]; simp
  refine ⟨root, hroot, b, hb, ?_, v, z, ?_, hz, hzb⟩
  · rcases List.mem_append.mp hs with hs | hs
    · have helse : Node.stmt s ∈ Descent.full.walk (.stmt (.ifStmt span init cond body orElse)) :=
        Descent.mem_walk_of_next (by
          have hs := Option.mem_toList.mp hs
          simp [Descent.full, Node.children, Node.ofStmt, hs])
      exact Node.ids_subset (Descent.walk_trans hif helse) his
    · exact Node.ids_subset (hstmt s (List.mem_of_mem_drop hs)) his
  · rcases List.mem_append.mp hs with hs | hs
    · have horder := hroots root hroot _ (Descent.walk_trans hb hif)
      exact horder s (Option.mem_toList.mp hs) v hv i his
    · have horder : b.stmts.Pairwise fun s t => Node.Before (.stmt s) (.stmt t) :=
        hroots root hroot _ hb
      obtain ⟨hk, hget⟩ := List.getElem?_eq_some_iff.mp hget
      have hrest := List.rel_of_pairwise_cons
        (List.drop_eq_getElem_cons hk ▸ horder.sublist (List.drop_sublist k _)) hs
      rw [hget] at hrest
      exact hrest v (Node.ids_subset hcond hv) i his

theorem Go.File.Origin.exists_traced {f g : File} {path source : String} {decls : List Surface.Decl}
    {ts : List Token} {es : List Event} (h : f.Origin path source decls ts es) {ids : List IdentId}
    (hg : Renamed f ids g) (hagree : g.NamesAgree) {x : Finding} (hx : x ∈ g.raw) :
    ∃ y, ∃ t ∈ ts, Traced f x y t ∧
      ∃ w ∈ decls.flatMap (Surface.declWords (Resolver.spanText source.toList)),
        w.name = ⟨y.name, y.span⟩ ∧ (w.role = .value ∨ w.role = .target) := by
  obtain ⟨_, _, gd, hguard, hi, hxi⟩ := mem_raw.mp hx
  obtain ⟨root, hroot, b, hb, hib, v, z, hlt, hz, hzb⟩ :=
    exists_variable (fun m hm => h.rooted.inOrder m (hg.roots_eq ▸ hm)) hguard hi
  obtain ⟨y, hy, hyb⟩ := File.refersTo_iff.mp hi.refersTo
  have hz := hg.of_binding hz hzb
  have hname : x.name = y.name ∧ x.span = y.span ∧ x.file = g.path := by
    rw [hxi]
    simp [findingOf, hy]
  have hnil : y.isNil = false := by
    simpa [File.isNamed, hy] using (hi.isNamed hagree hguard).1
  have hy := hg.of_binding hy hyb
  obtain ⟨w, hw, hwname, hrole⟩ := h.exists_operand (hg.roots_eq ▸ hroot) hb hib hlt hz hy hzb hyb
  obtain ⟨t, ht, ⟨hkind, hplain⟩, htoken⟩ :=
    h.covers.exists_token hw (by rcases hrole with h | h <;> simp [h])
  rw [hwname, Name.mk.injEq] at htoken
  exact ⟨y, t, ht, ⟨hy, hname.2.2.trans hg.path_eq, hname.2.1, hname.1, hnil, hkind, hplain,
    htoken.1.symm, htoken.2.symm, ⟨v, z, _, hlt, hz, hzb, hyb⟩, root, hg.roots_eq ▸ hroot, b, hb,
    hib⟩, w, hw, hwname, hrole⟩

/-! ### Passes -/

/-- After some passes a file is the first one with what they fixed renamed. Each identifier is fixed
once, and was found in a renamed file. -/
theorem Passes.renamed {marker : String} {f g g' : File} {ids : List IdentId} {xs ys : List Finding}
    {rounds : List (List Finding)} (h : Passes marker g xs rounds g' ys) (hg : Renamed f ids g)
    (hids : ids.Nodup) (hf : f.StartsDistinct) (hagree : g.NamesAgree)
    (hxs : openFindings marker g = .ok xs) :
    Renamed f (ids ++ rounds.flatten.map (·.ident)) g' ∧
      (ids ++ rounds.flatten.map (·.ident)).Nodup ∧
      namedCount g' + rounds.flatten.length = namedCount g ∧
      ∀ x ∈ rounds.flatten, ∃ ids' g'', Renamed f ids' g'' ∧ g''.NamesAgree ∧ x ∈ g''.raw := by
  induction h generalizing ids with
  | refl g xs => exact ⟨by simpa using hg, by simpa using hids, rfl, by simp⟩
  | @pass g g' xs ys zs rounds hne hpos hopen hrest ih =>
    have hnamed : ∀ x ∈ xs, g.isNamed x.ident = true := fun x hx =>
      (isNamed_of_open hagree hxs hx).1
    have hpairwise : xs.Pairwise fun x y => x.ident ≠ y.ident := by
      obtain ⟨found, hfound, rfl⟩ := exists_of_openFindings hxs
      exact (findings_pairwise (hg.startsDistinct hf) hfound).sublist List.filter_sublist
    obtain ⟨hrenamed, hcount⟩ := hg.foldl_fixOne 0 hnamed hpairwise
    have hnodup : (ids ++ xs.map (·.ident)).Nodup := by
      refine List.nodup_append.mpr ⟨hids, List.pairwise_map.mpr hpairwise, fun i hi j hj hij => ?_⟩
      obtain ⟨x, hx, rfl⟩ := List.mem_map.mp hj
      exact (hg.of_isNamed (hnamed x hx)).1 (hij ▸ hi)
    obtain ⟨hg', hnodup', hcount', htraced⟩ := ih hrenamed hnodup (hagree.fix xs) hopen
    have hfix := namedCount_fix g xs
    have hlength : (fix g xs).2 = xs.length := by simpa [fix] using hcount
    refine ⟨by simpa using hg', by simpa using hnodup', ?_, fun x hx => ?_⟩
    · rw [List.flatten_cons, List.length_append]
      omega
    · rcases List.mem_append.mp (List.flatten_cons ▸ hx) with hx | hx
      · exact ⟨ids, g, hg, hagree, mem_raw_of_openFindings hxs hx⟩
      · exact htraced x hx

end NilGuard
