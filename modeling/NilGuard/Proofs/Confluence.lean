import NilGuard.Proofs.Faults

/-!
Fixing in any order. A step turns some of what is found into `nil`. What a guard of any file on the
way proves is replaced in every file where nothing is found, so all runs that end there end in one
file (`fixing_confluent`).

A guard whose variable is turned into `nil` is a guard no more. But its variable was found behind an
earlier guard of the same binding, and that one stands around it or before it in the same block
(`File.around_or_before`), so it proves what the later guard proved.
-/

namespace NilGuard

namespace Go

/-! ### Paths to identifiers -/

theorem index_eq_of_mem_flatMap {l : List α} {g : α → List β} (h : (l.flatMap g).Nodup) {x y : Nat}
    {a b : α} (ha : l[x]? = some a) (hb : l[y]? = some b) {i : β} (hia : i ∈ g a) (hib : i ∈ g b) :
    x = y := by
  have hdisjoint := (List.nodup_flatMap.mp h).2
  obtain ⟨hx, rfl⟩ := List.getElem?_eq_some_iff.mp ha
  obtain ⟨hy, rfl⟩ := List.getElem?_eq_some_iff.mp hb
  rcases Nat.lt_trichotomy x y with hlt | heq | hlt
  · exact absurd hib (List.pairwise_iff_getElem.mp hdisjoint x y hx hy hlt hia)
  · exact heq
  · exact absurd hia (List.pairwise_iff_getElem.mp hdisjoint y x hy hx hlt hib)

namespace Node

theorem nodup_children {n : Node} (h : n.ids.Nodup) : (n.children.flatMap ids).Nodup := by
  rw [ids_eq] at h
  exact h.of_append_right

theorem nodup_of_follow {n m : Node} {p : List Nat} (h : n.ids.Nodup) (hm : n.follow p = some m) :
    m.ids.Nodup := by
  induction p generalizing n with
  | nil => cases hm; exact h
  | cons x p ih =>
    obtain ⟨k, hk, hm⟩ := Option.bind_eq_some_iff.mp hm
    exact ih ((List.nodup_flatMap.mp (nodup_children h)).1 k (List.mem_of_getElem? hk)) hm

/-- Of two nodes that share an identifier one is below the other. -/
theorem isPrefix_or_isPrefix {n a b : Node} (h : n.ids.Nodup) {p q : List Nat}
    (ha : n.follow p = some a) (hb : n.follow q = some b) {i : IdentId} (hia : i ∈ a.ids)
    (hib : i ∈ b.ids) : p <+: q ∨ q <+: p := by
  induction p generalizing n q with
  | nil => exact .inl (List.nil_prefix)
  | cons x p ih =>
    cases q with
    | nil => exact .inr (List.nil_prefix)
    | cons y q =>
      obtain ⟨m, hm, ha⟩ := Option.bind_eq_some_iff.mp ha
      obtain ⟨k, hk, hb⟩ := Option.bind_eq_some_iff.mp hb
      obtain rfl : x = y := index_eq_of_mem_flatMap (nodup_children h) hm hk
        (ids_subset (mem_walk_of_follow ha) hia) (ids_subset (mem_walk_of_follow hb) hib)
      obtain rfl : m = k := by simpa [hm] using hk
      simp only [List.prefix_cons_inj]
      exact ih ((List.nodup_flatMap.mp (nodup_children h)).1 m (List.mem_of_getElem? hm)) ha hb

end Node

namespace File

theorem follow_append (f : File) {p : List Nat} (hp : p ≠ []) (q : List Nat) :
    f.follow (p ++ q) = (f.follow p).bind (·.follow q) := by
  cases p with
  | nil => exact absurd rfl hp
  | cons x p =>
    cases hm : f.tree? x with
    | none => simp [follow, hm]
    | some m => simp [follow, hm, Node.follow_append]

theorem ne_nil_of_follow {f : File} {p : List Nat} {m : Node} (h : f.follow p = some m) :
    p ≠ [] := by
  rintro rfl
  cases h

theorem nodup_of_follow {f : File} {m : Node} {p : List Nat} (h : (f.roots.flatMap Node.ids).Nodup)
    (hm : f.follow p = some m) : m.ids.Nodup := by
  cases p with
  | nil => cases hm
  | cons x p =>
    obtain ⟨root, hroot, hm⟩ := Option.bind_eq_some_iff.mp hm
    exact Node.nodup_of_follow ((List.nodup_flatMap.mp h).1 root (mem_roots_of_tree? hroot)) hm

/-- An identifier is in the tree of one declaration. -/
theorem index_eq_of_tree? {f : File} (h : (f.roots.flatMap Node.ids).Nodup) {x y : Nat} {a b : Node}
    (ha : f.tree? x = some a) (hb : f.tree? y = some b) {i : IdentId} (hia : i ∈ a.ids)
    (hib : i ∈ b.ids) : x = y := by
  rw [roots, List.filterMap_eq_flatMap_toList, List.flatMap_assoc] at h
  obtain ⟨d, hd, hda⟩ := Option.bind_eq_some_iff.mp ha
  obtain ⟨e, he, heb⟩ := Option.bind_eq_some_iff.mp hb
  exact index_eq_of_mem_flatMap h hd he (by simpa [hda] using hia) (by simpa [heb] using hib)

theorem isPrefix_or_isPrefix {f : File} (h : (f.roots.flatMap Node.ids).Nodup) {a b : Node}
    {p q : List Nat} (ha : f.follow p = some a) (hb : f.follow q = some b) {i : IdentId}
    (hia : i ∈ a.ids) (hib : i ∈ b.ids) : p <+: q ∨ q <+: p := by
  cases p with
  | nil => cases ha
  | cons x p =>
    cases q with
    | nil => cases hb
    | cons y q =>
      obtain ⟨m, hm, ha⟩ := Option.bind_eq_some_iff.mp ha
      obtain ⟨k, hk, hb⟩ := Option.bind_eq_some_iff.mp hb
      obtain rfl : x = y := index_eq_of_tree? h hm hk
        (Node.ids_subset (Node.mem_walk_of_follow ha) hia)
        (Node.ids_subset (Node.mem_walk_of_follow hb) hib)
      obtain rfl : m = k := by simpa [hm] using hk
      simp only [List.prefix_cons_inj]
      have hids := (List.nodup_flatMap.mp h).1 m (mem_roots_of_tree? hm)
      exact Node.isPrefix_or_isPrefix hids ha hb hia hib

end File

end Go

open Go

/-! ### What runs in place -/

/-- An identifier runs in place in a node. -/
def Go.Node.Runs (n : Node) (i : IdentId) : Prop :=
  ∃ span, Node.ident i span ∈ inPlace.walk n

namespace Go.Node.Runs

variable {n m : Node} {i : IdentId}

theorem mem_ids (h : n.Runs i) : i ∈ n.ids := by
  obtain ⟨span, h⟩ := h
  exact List.mem_filterMap.mpr ⟨_, inPlace_subset _ h, rfl⟩

theorem trans (hm : m ∈ inPlace.walk n) (h : m.Runs i) : n.Runs i := by
  obtain ⟨span, h⟩ := h
  exact ⟨span, Descent.walk_trans hm h⟩

/-- An identifier runs in place in a node that is none in what is entered next. -/
theorem exists_next (h : n.Runs i) : n.id? = some i ∨ ∃ m ∈ inPlace.next n, m.Runs i := by
  obtain ⟨span, h⟩ := h
  rw [Descent.walk_eq] at h
  rcases List.mem_cons.mp h with rfl | h
  · exact .inl rfl
  · obtain ⟨m, hm, h⟩ := List.mem_flatMap.mp h
    exact .inr ⟨m, hm, span, h⟩

end Go.Node.Runs

theorem mem_occurrences {f : File} {b : BindingId} {s : Stmt} {i : IdentId} :
    i ∈ occurrences f b s ↔ (Node.stmt s).Runs i ∧ f.refersTo i b = true := by
  simp only [occurrences, List.mem_filterMap, Node.Runs]
  constructor
  · rintro ⟨n, hn, hi⟩
    obtain ⟨⟨span, rfl⟩, hrefers⟩ := occurrence?_eq_some.mp hi
    exact ⟨⟨span, hn⟩, hrefers⟩
  · rintro ⟨⟨span, hn⟩, hi⟩
    exact ⟨_, hn, occurrence?_eq_some.mpr ⟨⟨span, rfl⟩, hi⟩⟩

/-- A node with an identifier that runs in place runs in place itself. Only a call may not, of which
the arguments alone are entered. -/
theorem Go.Node.Runs.mem_walk {n a : Node} {i : IdentId} (h : n.Runs i) (hids : n.ids.Nodup)
    {p : List Nat} (ha : n.follow p = some a) (hia : i ∈ a.ids)
    (hcall : ∀ span callee args, a ≠ .expr (.call span callee args)) :
    a ∈ inPlace.walk n := by
  induction hsize : n.size using Nat.strongRecOn generalizing n p with
  | ind size ih =>
    subst hsize
    cases p with
    | nil =>
      cases ha
      exact inPlace.mem_walk_self _
    | cons x p =>
      obtain ⟨m, hm, ha⟩ := Option.bind_eq_some_iff.mp ha
      have hnodup := Node.nodup_children hids
      have him : i ∈ m.ids := Node.ids_subset (Node.mem_walk_of_follow ha) hia
      have hid : n.id? ≠ some i := by
        intro hid
        cases n with
        | ident => simp [Node.children] at hm
        | _ => cases hid
      obtain ⟨k, hk, hrun⟩ := h.exists_next.resolve_left hid
      -- Where all parts of a node are entered, the part that is entered here is the one with the
      -- node.
      have hpart : k ∈ n.children → a ∈ inPlace.walk n := by
        intro hmem
        obtain ⟨y, hy⟩ := List.mem_iff_getElem?.mp hmem
        obtain rfl : x = y := index_eq_of_mem_flatMap hnodup hm hy him hrun.mem_ids
        obtain rfl : m = k := by simpa [hm] using hy
        have hmnodup := (List.nodup_flatMap.mp hnodup).1 m hmem
        exact Descent.walk_trans (Descent.mem_walk_of_next hk)
          (ih _ (Node.size_lt_of_mem_children hmem) hrun hmnodup ha rfl)
      cases n with
      | stmt s =>
        cases hargs : laterArgs? s with
        | none => exact hpart (by simpa [inPlace, hargs, Node.children] using hk)
        | some args =>
          -- Of the call only the arguments are entered, so the node is in one of them.
          obtain ⟨span, span', body, hchildren⟩ := exists_of_laterArgs? hargs
          obtain rfl : m = .expr (.call span (.closure span' body) args) := by
            simpa [hchildren] using List.mem_of_getElem? hm
          have hkargs : k ∈ args.map Node.expr := by simpa [inPlace, hargs] using hk
          have hkmem : k ∈ (Node.expr (.call span (.closure span' body) args)).children :=
            List.mem_cons_of_mem _ hkargs
          cases p with
          | nil =>
            cases ha
            exact absurd rfl (hcall _ _ _)
          | cons z p =>
            obtain ⟨m', hm', ha⟩ := Option.bind_eq_some_iff.mp ha
            obtain ⟨y, hy⟩ := List.mem_iff_getElem?.mp hkmem
            have hcallnodup := Node.nodup_children
              ((List.nodup_flatMap.mp hnodup).1 _ (List.mem_of_getElem? hm))
            obtain rfl : z = y := index_eq_of_mem_flatMap hcallnodup hm' hy
              (Node.ids_subset (Node.mem_walk_of_follow ha) hia) hrun.mem_ids
            obtain rfl : m' = k := by simpa [hm'] using hy
            exact Descent.walk_trans (Descent.mem_walk_of_next hk)
              (ih _ (inPlace.size_lt _ _ hk) hrun ((List.nodup_flatMap.mp hcallnodup).1 _ hkmem)
                ha rfl)
      | _ => exact hpart hk

/-! ### Statements behind a guard -/

namespace Go.File

variable {f : File} {path : List Nat} {b : Block} {k : Nat} {span : Span} {init : Option Stmt}
  {cond : Expr}
  {body : Block} {orElse : Option Stmt}

theorem follow_stmt (hb : f.follow path = some (.block b)) {s : Stmt} (hs : b.stmts[k]? = some s) :
    f.follow (path ++ [k]) = some (.stmt s) := by
  simp [follow_append f (ne_nil_of_follow hb), hb, Node.children, Node.ofBlock, hs]

/-- A statement behind a guard is what runs instead of the body, or follows in the block. -/
theorem exists_follow (hb : f.follow path = some (.block b))
    (hif : b.stmts[k]? = some (.ifStmt span init cond body orElse)) {before after : List Stmt}
    {s : Stmt} (h : orElse.toList ++ b.stmts.drop (k + 1) = before ++ s :: after) :
    ∃ p, f.follow p = some (.stmt s) ∧ ((∃ x, p = path ++ [k, x]) ∨
      ∃ j, k < j ∧ p = path ++ [j] ∧ b.stmts[j]? = some s ∧ after = b.stmts.drop (j + 1)) := by
  have hnext : ∀ {before after}, b.stmts.drop (k + 1) = before ++ s :: after →
      ∃ j, k < j ∧ b.stmts[j]? = some s ∧ after = b.stmts.drop (j + 1) := by
    intro before after h
    refine ⟨k + 1 + before.length, by omega, ?_, ?_⟩
    · rw [← List.getElem?_drop, h]
      simp
    · rw [Nat.add_assoc, ← List.drop_drop, h]
      simp
  cases orElse with
  | none =>
    obtain ⟨j, hj, hs, hafter⟩ := hnext h
    exact ⟨_, follow_stmt hb hs, .inr ⟨j, hj, rfl, hs, hafter⟩⟩
  | some t =>
    cases before with
    | cons u before =>
      obtain ⟨j, hj, hs, hafter⟩ := hnext (List.cons.inj h).2
      exact ⟨_, follow_stmt hb hs, .inr ⟨j, hj, rfl, hs, hafter⟩⟩
    | nil =>
      obtain ⟨rfl, -⟩ := List.cons.inj h
      refine ⟨path ++ [k, init.toList.length + 2], ?_, .inl ⟨_, rfl⟩⟩
      have hfollow := follow_stmt hb hif
      rw [List.append_cons, follow_append f (ne_nil_of_follow hfollow), hfollow]
      cases init <;> rfl

/-- What stands below a conditional and has its variable is the conditional itself, if it is a
statement. -/
theorem eq_nil_of_follow {s : Stmt} {p : List Nat} {v l r : IdentId} {cspan lspan rspan : Span}
    (hids : (Node.stmt (.ifStmt span init (.binary cspan .ne (.ident lspan l) (.ident rspan r)) body
      orElse)).ids.Nodup)
    (hs : (Node.stmt (.ifStmt span init (.binary cspan .ne (.ident lspan l) (.ident rspan r)) body
      orElse)).follow p = some (.stmt s))
    (hv : v ∈ (Node.stmt s).ids) (hcond : v ∈ [l, r]) : p = [] := by
  cases p with
  | nil => rfl
  | cons x p =>
    obtain ⟨m, hm, hs⟩ := Option.bind_eq_some_iff.mp hs
    have hmem : Node.expr (.binary cspan .ne (.ident lspan l) (.ident rspan r)) ∈
        (Node.stmt (.ifStmt span init
          (.binary cspan .ne (.ident lspan l) (.ident rspan r)) body orElse)).children := by
      simp [Node.children, Node.ofStmt]
    obtain ⟨y, hy⟩ := List.mem_iff_getElem?.mp hmem
    have hcond : v ∈ (Node.expr (.binary cspan .ne (.ident lspan l) (.ident rspan r))).ids := by
      simpa [Node.ids_eq, Node.id?, Node.children, Node.ofExpr] using hcond
    obtain rfl : x = y := index_eq_of_mem_flatMap (Node.nodup_children hids) hm hy
      (Node.ids_subset (Node.mem_walk_of_follow hs) hv) hcond
    obtain rfl : m = _ := by simpa [hm] using hy
    -- Below the condition there are only expressions.
    have hwalk := Node.mem_walk_of_follow hs
    simp [Descent.walk_eq, Descent.full, Node.children, Node.ofExpr] at hwalk

/-- A guard that proves the variable of another guard stands around that one, or before it in the
same block. -/
theorem around_or_before {path' : List Nat} {b' : Block} {k' : Nat} {span' : Span}
    {init' : Option Stmt} {cond' : Expr} {body' : Block} {orElse' : Option Stmt} {v l r : IdentId}
    {cspan lspan rspan : Span} (hids : (f.roots.flatMap Node.ids).Nodup)
    (hb : f.follow path = some (.block b))
    (hif : b.stmts[k]? = some
      (.ifStmt span init (.binary cspan .ne (.ident lspan l) (.ident rspan r)) body orElse))
    (hv : v ∈ [l, r]) (hb' : f.follow path' = some (.block b'))
    (hif' : b'.stmts[k']? = some (.ifStmt span' init' cond' body' orElse'))
    {before after : List Stmt} {s : Stmt}
    (hs : orElse'.toList ++ b'.stmts.drop (k' + 1) = before ++ s :: after)
    (hrun : (Node.stmt s).Runs v) :
    (path'.length < path.length ∧
      ∀ t ∈ orElse.toList ++ b.stmts.drop (k + 1), Node.stmt t ∈ inPlace.walk (.stmt s)) ∨
    (path' = path ∧ k' < k ∧ after = b.stmts.drop (k + 1) ∧
      ∀ t ∈ orElse.toList, Node.stmt t ∈ inPlace.walk (.stmt s)) := by
  obtain ⟨p, hp, hplace⟩ := exists_follow hb' hif' hs
  have hifp := follow_stmt hb hif
  have hvif : v ∈ (Node.stmt (.ifStmt span init
      (.binary cspan .ne (.ident lspan l) (.ident rspan r)) body orElse)).ids := by
    refine Node.ids_subset (Descent.mem_walk_of_next
      (m := .expr (.binary cspan .ne (.ident lspan l) (.ident rspan r)))
      (by simp [Descent.full, Node.children, Node.ofStmt])) ?_
    simpa [Node.ids_eq, Node.id?, Node.children, Node.ofExpr] using hv
  have helse : ∀ t ∈ orElse.toList, Node.stmt t ∈ inPlace.walk (.stmt (.ifStmt span init
      (.binary cspan .ne (.ident lspan l) (.ident rspan r)) body orElse)) := by
    intro t ht
    refine Descent.mem_walk_of_next ?_
    simp [inPlace, laterArgs?, Node.ofStmt, Option.mem_toList.mp ht]
  have hcases : p <+: path ∨ p = path ++ [k] := by
    rcases isPrefix_or_isPrefix hids hp hifp hrun.mem_ids hvif with h | ⟨q, rfl⟩
    · rcases List.prefix_concat_iff.mp h with h | h
      · exact .inr h
      · exact .inl h
    · rw [follow_append f (ne_nil_of_follow hifp), hifp, Option.bind_some] at hp
      rw [eq_nil_of_follow (nodup_of_follow hids hifp) hp hrun.mem_ids hv]
      exact .inr (List.append_nil _)
  rcases hcases with ⟨q, rfl⟩ | rfl
  · -- The block of the conditional is inside the statement.
    left
    have hfollow := hb
    rw [follow_append f (ne_nil_of_follow hp), hp, Option.bind_some] at hfollow
    have hvb : v ∈ (Node.block b).ids :=
      Node.ids_subset
        (Descent.mem_walk_of_next (List.mem_map_of_mem (List.mem_of_getElem? hif))) hvif
    have hblock := hrun.mem_walk (nodup_of_follow hids hp) hfollow hvb (by simp)
    refine ⟨?_, fun t ht => Descent.walk_trans hblock ?_⟩
    · rcases hplace with ⟨x, rfl⟩ | ⟨j, -, rfl, -, -⟩ <;>
        simp only [List.length_append, List.length_cons] <;> omega
    · rcases List.mem_append.mp ht with ht | ht
      · exact Descent.walk_trans (Descent.mem_walk_of_next
          (List.mem_map_of_mem (List.mem_of_getElem? hif))) (helse t ht)
      · exact Descent.mem_walk_of_next (List.mem_map_of_mem (List.mem_of_mem_drop ht))
  · right
    rcases hplace with ⟨x, hx⟩ | ⟨j, hj, hx, -, hafter⟩
    · -- The path to a block does not end at a conditional.
      have hx : path ++ [k] = (path' ++ [k']) ++ [x] := by simpa using hx
      obtain ⟨rfl, -⟩ := List.append_inj' hx rfl
      rw [follow_stmt hb' hif'] at hb
      cases hb
    · obtain ⟨rfl, hkj⟩ := List.append_inj' hx rfl
      obtain rfl := List.singleton_injective hkj
      obtain rfl : b = b' := by simpa [hb] using hb'
      obtain rfl : s = _ := by simpa [hifp] using hp.symm
      exact ⟨rfl, hj, hafter, helse⟩

end Go.File

/-! ### Guards of renamed files -/

section Fewer

/-! With fewer identifiers for a variable there are fewer writes and fewer reads. -/

variable {f g : File} {b : BindingId} (hfewer : ∀ i, g.refersTo i b = true → f.refersTo i b = true)

include hfewer

theorem writes_fewer {s : Stmt} (h : writes f b s = false) : writes g b s = false := by
  rw [← Bool.not_eq_true] at h ⊢
  intro hg
  obtain ⟨p, n, hn, hwrites⟩ := writes_iff.mp hg
  refine h (writes_iff.mpr ⟨p, n, hn, ?_⟩)
  cases hwrites with
  | assign htarget hi => exact .assign htarget (hfewer _ hi)
  | address hi => exact .address (hfewer _ hi)

theorem occurrences_fewer {s : Stmt} (h : occurrences f b s = []) : occurrences g b s = [] := by
  rw [List.eq_nil_iff_forall_not_mem] at h ⊢
  intro i hi
  obtain ⟨hruns, hrefers⟩ := mem_occurrences.mp hi
  exact h i (mem_occurrences.mpr ⟨hruns, hfewer i hrefers⟩)

end Fewer

/-- A guard sees a statement and what is behind it, if the variable is not met before and not
written in the statement. -/
def Guard.Sees (g : Guard) (f : File) (s : Stmt) (after : List Stmt) : Prop :=
  ∃ before, g.remainder = before ++ s :: after ∧
    (∀ t ∈ before, writes f g.binding t = false ∧ occurrences f g.binding t = []) ∧
    writes f g.binding s = false

theorem Guard.provesNil_iff {g : Guard} {f : File} {i : IdentId} :
    g.ProvesNil f i ↔ ∃ s after, g.Sees f s after ∧ i ∈ occurrences f g.binding s := by
  constructor
  · rintro ⟨before, s, after, hsplit, hbefore, hwrites, hi⟩
    exact ⟨s, after, ⟨before, hsplit, hbefore, hwrites⟩, hi⟩
  · rintro ⟨s, after, ⟨before, hsplit, hbefore, hwrites⟩, hi⟩
    exact ⟨before, s, after, hsplit, hbefore, hwrites, hi⟩

theorem Guard.Sees.fewer {f g : File} {gd : Guard} {s : Stmt} {after : List Stmt}
    (h : gd.Sees f s after)
    (hfewer : ∀ i, g.refersTo i gd.binding = true → f.refersTo i gd.binding = true) :
    gd.Sees g s after := by
  obtain ⟨before, hsplit, hbefore, hwrites⟩ := h
  exact ⟨before, hsplit, fun t ht => ⟨writes_fewer hfewer (hbefore t ht).1,
    occurrences_fewer hfewer (hbefore t ht).2⟩, writes_fewer hfewer hwrites⟩

/-- A read that is still there is still proved. -/
theorem Guard.ProvesNil.fewer {f g : File} {gd : Guard} {i : IdentId} (h : gd.ProvesNil f i)
    (hfewer : ∀ i, g.refersTo i gd.binding = true → f.refersTo i gd.binding = true)
    (hi : g.refersTo i gd.binding = true) : gd.ProvesNil g i := by
  obtain ⟨s, after, hsees, hread⟩ := Guard.provesNil_iff.mp h
  exact Guard.provesNil_iff.mpr
    ⟨s, after, hsees.fewer hfewer, mem_occurrences.mpr ⟨(mem_occurrences.mp hread).1, hi⟩⟩

/-- A guard around another one proves what that one proves. -/
theorem Guard.Sees.provesNil_of_around {f : File} {gd gd' : Guard} {s : Stmt} {after : List Stmt}
    {i : IdentId} (h : gd'.Sees f s after) (hbinding : gd'.binding = gd.binding)
    (haround : ∀ t ∈ gd.remainder, Node.stmt t ∈ inPlace.walk (.stmt s)) (hi : gd.ProvesNil f i) :
    gd'.ProvesNil f i := by
  obtain ⟨before, t, rest, hsplit, -, -, hread⟩ := hi
  obtain ⟨hruns, hrefers⟩ := mem_occurrences.mp hread
  have ht : t ∈ gd.remainder := by rw [hsplit]; simp
  exact Guard.provesNil_iff.mpr
    ⟨s, after, h, mem_occurrences.mpr ⟨hruns.trans (haround t ht), hbinding ▸ hrefers⟩⟩

/-- A guard before another one proves something if that one does: a read in the other guard, or else
what the other guard proves. -/
theorem Guard.Sees.provesNil_of_before {f : File} {gd gd' : Guard} {s : Stmt}
    {front after : List Stmt} {i : IdentId} (h : gd'.Sees f s after)
    (hbinding : gd'.binding = gd.binding) (hrem : gd.remainder = front ++ after)
    (hfront : ∀ t ∈ front, Node.stmt t ∈ inPlace.walk (.stmt s)) (hi : gd.ProvesNil f i) :
    ∃ j, gd'.ProvesNil f j := by
  by_cases hreads : occurrences f gd'.binding s = []
  swap
  · obtain ⟨j, hj⟩ := List.exists_mem_of_ne_nil _ hreads
    exact ⟨j, Guard.provesNil_iff.mpr ⟨s, after, h, hj⟩⟩
  obtain ⟨before, hsplit, hbefore, hwrites⟩ := h
  obtain ⟨before', t, rest, hsplit', hbefore', hwrites', hread⟩ := hi
  rw [← hbinding] at hbefore' hwrites' hread
  -- Then the other guard proves nothing in front of what both see.
  have hbehind : ∀ mid, before' = front ++ mid → after = mid ++ t :: rest → gd'.ProvesNil f i := by
    rintro mid rfl rfl
    refine ⟨before ++ s :: mid, t,
      rest, by rw [hsplit, List.append_assoc, List.cons_append], ?_, hwrites', hread⟩
    exact List.forall_mem_append.mpr ⟨hbefore, List.forall_mem_cons.mpr
      ⟨⟨hwrites, hreads⟩, fun u hu => hbefore' u (List.mem_append_right _ hu)⟩⟩
  rw [hrem] at hsplit'
  rcases List.append_eq_append_iff.mp hsplit' with ⟨mid, hmid, hafter⟩ | ⟨mid, hmid, hrest⟩
  · exact ⟨i, hbehind mid hmid hafter⟩
  · cases mid with
    | nil => exact ⟨i, hbehind [] (by simpa using hmid.symm) hrest.symm⟩
    | cons u mid =>
      obtain rfl := (List.cons.inj hrest).1
      obtain ⟨hruns, hrefers⟩ := mem_occurrences.mp hread
      have hmem := mem_occurrences.mpr ⟨hruns.trans (hfront t (by rw [hmid]; simp)), hrefers⟩
      rw [hreads] at hmem
      cases hmem

namespace Renamed

variable {f g h : File} {ids ids' : List IdentId}

theorem follow_eq (hg : Renamed f ids g) (path : List Nat) : g.follow path = f.follow path := by
  cases path with
  | nil => rfl
  | cons i path => rw [File.follow, hg.tree?_eq, File.follow]

theorem at_iff (hg : Renamed f ids g) {path : List Nat} {m : Node} :
    g.At path m ↔ f.At path m := by
  rw [File.at_iff, hg.follow_eq, File.at_iff]

theorem scans_iff (hg : Renamed f ids g) {path : List Nat} {b : Block} :
    g.Scans path b ↔ f.Scans path b := by
  simp only [File.Scans, hg.at_iff]

theorem refersTo_iff (hg : Renamed f ids g) {i : IdentId} {b : BindingId} :
    g.refersTo i b = true ↔ i ∉ ids ∧ f.refersTo i b = true := by
  rw [File.refersTo, hg.idents_eq]
  by_cases hi : i ∈ ids
  · cases f.idents[i]? <;> simp [hi]
  · simp [hi, File.refersTo]

theorem getElem?_eq (hg : Renamed f ids g) (hh : Renamed f ids' h) (hsub : ids ⊆ ids') {i : IdentId}
    (hi : i ∉ ids') : h.idents[i]? = g.idents[i]? := by
  rw [hg.idents_eq, hh.idents_eq, if_neg hi, if_neg fun hmem => hi (hsub hmem)]

/-- The nil literal stays the nil literal, and stays unbound. -/
theorem nil_stays (hg : Renamed f ids g) (hh : Renamed f ids' h) (hsub : ids ⊆ ids') {n : IdentId}
    (hn : g.isNil n = true) (hb : (g.idents[n]?.getD default).binding = none) :
    h.isNil n = true ∧ (h.idents[n]?.getD default).binding = none := by
  by_cases hi : n ∈ ids'
  · have hsome : ∃ x, f.idents[n]? = some x := by
      cases hx : f.idents[n]? with
      | some x => exact ⟨x, rfl⟩
      | none => simp [File.isNil, hg.idents_eq, hx] at hn
    obtain ⟨x, hx⟩ := hsome
    simp [File.isNil, hh.idents_eq, hi, hx, Ident.isNil]
  · rw [File.isNil, hg.getElem?_eq hh hsub hi]
    exact ⟨hn, hb⟩

/-- A condition whose variable is still there still guards it. -/
theorem guarded?_stays (hg : Renamed f ids g) (hh : Renamed f ids' h) (hsub : ids ⊆ ids')
    {cond : Expr} {body : Block} {b : BindingId} (hguarded : guarded? g cond body = .ok (some b))
    {v n : IdentId} (hcomparison : nilComparison? g cond = some (v, n)) (hlast : v ∉ ids') :
    guarded? h cond body = .ok (some b) := by
  obtain ⟨hreturn, v', n', hcomparison', hv, hn⟩ := guarded?_eq_some.mp hguarded
  obtain ⟨rfl, rfl⟩ : v = v' ∧ n = n' := by simpa [hcomparison] using hcomparison'
  obtain ⟨hvnil, hnnil, hsides⟩ := nilComparison?_eq_some.mp hcomparison
  obtain ⟨hnnil', hn'⟩ := hg.nil_stays hh hsub hnnil hn
  have hsame := hg.getElem?_eq hh hsub hlast
  refine guarded?_eq_some.mpr
    ⟨hreturn, v, n, nilComparison?_eq_some.mpr ⟨?_, hnnil', hsides⟩, ?_, hn'⟩
  · rw [File.isNil, hsame]; exact hvnil
  · rw [hsame]; exact hv

/-- A condition that guards a variable still does so if and only if the variable was not renamed. -/
theorem guarded?_iff (hg : Renamed f ids g) {cond : Expr} {body : Block} {b : BindingId}
    (hguarded : guarded? f cond body = .ok (some b)) {v n : IdentId}
    (hcomparison : nilComparison? f cond = some (v, n)) :
    guarded? g cond body = .ok (some b) ↔ g.idents[v]? = f.idents[v]? := by
  have hrefl := Renamed.refl f
  by_cases hv : v ∈ ids
  swap
  · have hstays := hrefl.guarded?_stays hg (List.nil_subset _) hguarded hcomparison hv
    exact iff_of_true hstays (hrefl.getElem?_eq hg (List.nil_subset _) hv)
  obtain ⟨-, v', n', hcomparison', hbinding, hunbound⟩ := guarded?_eq_some.mp hguarded
  obtain ⟨rfl, rfl⟩ : v = v' ∧ n = n' := by simpa [hcomparison] using hcomparison'
  obtain ⟨hvnil, hnnil, span, lspan, l, rspan, r, rfl, hsides⟩ :=
    nilComparison?_eq_some.mp hcomparison
  obtain ⟨x, hx⟩ : ∃ x, f.idents[v]? = some x := by
    cases hx : f.idents[v]? with
    | some x => exact ⟨x, rfl⟩
    | none => rw [hx] at hbinding; cases hbinding
  rw [hx] at hbinding
  have hrenamed : g.idents[v]? = some { x with name := nilName, binding := none } := by
    simp [hg.idents_eq, hv, hx]
  refine iff_of_false (fun hstill => ?_) fun hsame => ?_
  · -- Both sides are `nil` now, so nothing is compared with it.
    have hboth : g.isNil v = true ∧ g.isNil n = true :=
      ⟨by simp [File.isNil, hrenamed, Ident.isNil],
        (hrefl.nil_stays hg (List.nil_subset _) hnnil hunbound).1⟩
    obtain ⟨-, v', n', hcomparison', -⟩ := guarded?_eq_some.mp hstill
    rcases hsides with hsides | hsides <;> cases hsides <;>
      simp [nilComparison?, hboth] at hcomparison'
  · rw [hrenamed, hx, Option.some.injEq] at hsame
    rw [← hsame] at hbinding
    cases hbinding

/-- A guard whose variable is still there is still a guard. -/
theorem hasGuard (hg : Renamed f ids g) (hh : Renamed f ids' h) (hsub : ids ⊆ ids')
    {path : List Nat} {k : Nat} {gd : Guard} {b : Block} {span : Span} {init : Option Stmt}
    {cond : Expr} {body : Block} {orElse : Option Stmt} (hscans : f.Scans path b)
    (hif : b.stmts[k]? = some (.ifStmt span init cond body orElse))
    (hguarded : guarded? g cond body = .ok (some gd.binding)) {v n : IdentId}
    (hcomparison : nilComparison? g cond = some (v, n)) (hspan : gd.span = cond.span)
    (hrem : gd.remainder = orElse.toList ++ b.stmts.drop (k + 1)) (hlast : v ∉ ids') :
    h.HasGuard path k gd :=
  ⟨b, span, init, cond, body, orElse, hh.scans_iff.mpr hscans, hif,
    hg.guarded?_stays hh hsub hguarded hcomparison hlast, hspan, hrem⟩

end Renamed

/-! ### What was found on the way -/

/-- A file that was reached from another one. What was renamed on the way was found on the way, with
less renamed than in the end. -/
structure Reached (f : File) (ids : List IdentId) (g : File) : Prop extends Renamed f ids g where
  agree : g.NamesAgree
  found : ∀ i ∈ ids, ∃ ids' h path k gd, ids' ⊆ ids ∧ Renamed f ids' h ∧ h.HasGuard path k gd ∧
    gd.ProvesNil h i

/-- A guard that proves the variable of another guard has its binding. -/
theorem Renamed.binding_eq {f g h : File} {ids ids' : List IdentId} (hg : Renamed f ids g)
    (hh : Renamed f ids' h) {v : IdentId} {b : BindingId}
    (hv : (g.idents[v]?.getD default).binding = some b) {gd : Guard} (hproves : gd.ProvesNil h v) :
    gd.binding = b := by
  obtain ⟨x, hx, hxb⟩ := File.refersTo_iff.mp (hh.refersTo_iff.mp hproves.refersTo).2
  cases hy : g.idents[v]? with
  | none => rw [hy] at hv; cases hv
  | some y =>
    rw [hy] at hv
    obtain rfl : x = y := by simpa [hx] using hg.of_binding hy hv
    simpa [hxb] using hv

/-- A guard of a file on the way that proves something in the end is there in the end, or an earlier
guard of a file on the way does so. -/
theorem Reached.exists_earlier {f g last : File} {ids all : List IdentId}
    (hlast : Reached f all last) (hids : (f.roots.flatMap Node.ids).Nodup) (hg : Renamed f ids g)
    (hsub : ids ⊆ all) {path : List Nat} {k : Nat} {gd : Guard} (hguard : g.HasGuard path k gd)
    {i : IdentId} (hi : gd.ProvesNil last i) :
    last.HasGuard path k gd ∨ ∃ ids' h path' k' gd' j, ids' ⊆ all ∧ Renamed f ids' h ∧
      h.HasGuard path' k' gd' ∧ gd'.ProvesNil last j ∧
      (path'.length < path.length ∨ path' = path ∧ k' < k) := by
  obtain ⟨b, span, init, cond, body, orElse, hscans, hif, hguarded, hspan, hrem⟩ := hguard
  obtain ⟨-, v, n, hcomparison, hv, -⟩ := guarded?_eq_some.mp hguarded
  have hscans := hg.scans_iff.mp hscans
  by_cases hvall : v ∈ all
  swap
  · exact .inl (hg.hasGuard hlast.toRenamed hsub hscans hif hguarded hcomparison hspan hrem hvall)
  -- The variable was found behind another guard, which proves the same.
  obtain ⟨ids', h, path', k', gd', hsub', hh, hguard', hproves⟩ := hlast.found v hvall
  have hbinding := hg.binding_eq hh hv hproves
  obtain ⟨s, after, hsees, hread⟩ := Guard.provesNil_iff.mp hproves
  have hsees : gd'.Sees last s after := hsees.fewer fun j hj => by
    obtain ⟨hall, hj⟩ := hlast.refersTo_iff.mp hj
    exact hh.refersTo_iff.mpr ⟨fun hmem => hall (hsub' hmem), hj⟩
  obtain ⟨b', span', init', cond', body', orElse', hscans', hif', -, -, hrem'⟩ := id hguard'
  have hscans' := hh.scans_iff.mp hscans'
  obtain ⟨-, -, cspan, lspan, l, rspan, r, rfl, hsides⟩ := nilComparison?_eq_some.mp hcomparison
  have hvmem : v ∈ [l, r] := by rcases hsides with hsides | hsides <;> cases hsides <;> simp
  obtain ⟨before, hsplit, -⟩ := id hsees
  rcases File.around_or_before hids hscans.follow_eq hif hvmem hscans'.follow_eq hif'
    (hrem' ▸ hsplit)
    (mem_occurrences.mp hread).1 with ⟨hlt, haround⟩ | ⟨heq, hlt, rfl, hfront⟩
  · exact .inr ⟨ids', h, path', k', gd', i, hsub', hh, hguard',
      hsees.provesNil_of_around hbinding (hrem ▸ haround) hi, .inl hlt⟩
  · obtain ⟨j, hj⟩ := hsees.provesNil_of_before hbinding hrem hfront hi
    exact .inr ⟨ids', h, path', k', gd', j, hsub', hh, hguard', hj, .inr ⟨heq, hlt⟩⟩

/-- Where nothing is found, no guard of a file on the way proves anything. -/
theorem Reached.not_provesNil {f g last : File} {ids all : List IdentId}
    (hlast : Reached f all last) (hnone : findings last = .ok [])
    (hids : (f.roots.flatMap Node.ids).Nodup) (hg : Renamed f ids g) (hsub : ids ⊆ all)
    {path : List Nat} {k : Nat} {gd : Guard} (hguard : g.HasGuard path k gd) {i : IdentId} :
    ¬ gd.ProvesNil last i := by
  intro hi
  rcases hlast.exists_earlier hids hg hsub hguard hi with
    hstill | ⟨ids', h, path', k', gd', j, hsub', hh, hguard', hj, hearlier⟩
  · obtain ⟨x, hx, -⟩ := exists_mem_findings hnone hstill hi
    cases hx
  · exact hlast.not_provesNil hnone hids hh hsub' hguard' hj
termination_by (path.length, k)
decreasing_by
  rcases hearlier with hlt | ⟨rfl, hlt⟩
  · exact .left _ _ hlt
  · exact .right _ hlt

/-! ### Runs -/

/-- Some of what is found is replaced. -/
def FixStep (f g : File) : Prop :=
  ∃ xs ys, findings f = .ok xs ∧ ys ≠ [] ∧ ys ⊆ xs ∧ g = (fix f ys).1

/-- A pass renames some of what it is given. -/
theorem Renamed.exists_foldl_fixOne {f g : File} {ids : List IdentId} (h : Renamed f ids g)
    (n : Nat) (xs : List Finding) : ∃ new, new ⊆ xs.map (·.ident) ∧
      Renamed f (ids ++ new) (xs.foldl fixOne (g, n)).1 := by
  induction xs generalizing g ids n with
  | nil => exact ⟨[], List.nil_subset _, by simpa using h⟩
  | cons x xs ih =>
    rw [List.foldl_cons, List.map_cons]
    obtain ⟨-, hstep⟩ | ⟨-, hstep⟩ := fixOne_cases g n x
    · obtain ⟨new, hnew, hrenamed⟩ := ih (h.rename x.ident) (n + 1)
      rw [hstep]
      exact ⟨x.ident :: new, List.cons_subset_cons _ hnew, by simpa using hrenamed⟩
    · obtain ⟨new, hnew, hrenamed⟩ := ih h n
      rw [hstep]
      exact ⟨new, List.subset_cons_of_subset _ hnew, hrenamed⟩

theorem exists_renamed_fix (f : File) (xs : List Finding) :
    ∃ ids, ids ⊆ xs.map (·.ident) ∧ Renamed f ids (fix f xs).1 :=
  (Renamed.refl f).exists_foldl_fixOne 0 xs

/-- A step renames what a guard proves. -/
theorem Reached.step {f g g' : File} {ids : List IdentId} (h : Reached f ids g)
    (hstep : FixStep g g') :
    ∃ new, Reached f (ids ++ new) g' ∧ ∀ i ∈ new, ∃ path k gd, g.HasGuard path k gd ∧
      gd.ProvesNil g i := by
  obtain ⟨xs, ys, hxs, -, hsub, rfl⟩ := hstep
  obtain ⟨new, hnew, hrenamed⟩ := h.toRenamed.exists_foldl_fixOne 0 ys
  have hproved : ∀ i ∈ new, ∃ path k gd, g.HasGuard path k gd ∧ gd.ProvesNil g i := by
    intro i hi
    obtain ⟨y, hy, rfl⟩ := List.mem_map.mp (hnew hi)
    obtain ⟨path, k, gd, hgd, hi, -⟩ := mem_raw.mp (mem_raw_of_findings hxs (hsub hy))
    exact ⟨path, k, gd, hgd, hi⟩
  refine ⟨new, ⟨hrenamed, h.agree.fix ys, fun i hi => ?_⟩, hproved⟩
  rcases List.mem_append.mp hi with hi | hi
  · obtain ⟨ids', h', path, k, gd, hsub', hrest⟩ := h.found i hi
    exact ⟨ids', h', path, k, gd, fun j hj => List.mem_append_left _ (hsub' hj), hrest⟩
  · obtain ⟨path, k, gd, hgd, hi⟩ := hproved i hi
    exact ⟨ids, g, path, k, gd, List.subset_append_left .., h.toRenamed, hgd, hi⟩

theorem exists_reached {f g : File} (hf : f.NamesAgree) (h : Relation.ReflTransGen FixStep f g) :
    ∃ ids, Reached f ids g := by
  induction h with
  | refl => exact ⟨[], .refl f, hf, by simp⟩
  | tail _ hstep ih =>
    obtain ⟨ids, h⟩ := ih
    obtain ⟨new, h, -⟩ := h.step hstep
    exact ⟨_, h⟩

/-- What is renamed on any run is renamed wherever nothing is found. -/
theorem exists_reached_subset {f g last : File} {all : List IdentId}
    (hids : (f.roots.flatMap Node.ids).Nodup) (hf : f.NamesAgree) (hlast : Reached f all last)
    (hnone : findings last = .ok []) (h : Relation.ReflTransGen FixStep f g) :
    ∃ ids, Reached f ids g ∧ ids ⊆ all := by
  induction h with
  | refl => exact ⟨[], ⟨.refl f, hf, by simp⟩, by simp⟩
  | @tail g g' _ hstep ih =>
    obtain ⟨ids, hg, hsub⟩ := ih
    obtain ⟨new, hg', hnew⟩ := hg.step hstep
    refine ⟨_, hg', List.append_subset.mpr ⟨hsub, fun i hi => ?_⟩⟩
    obtain ⟨path, k, gd, hgd, hproves⟩ := hnew i hi
    by_contra hall
    have hrefers : ∀ {j}, last.refersTo j gd.binding = true ↔ j ∉ all ∧
        f.refersTo j gd.binding = true :=
      hlast.refersTo_iff
    -- A read that was left is proved still.
    refine hlast.not_provesNil hnone hids hg.toRenamed hsub hgd (hproves.fewer (fun j hj => ?_) ?_)
    · exact hg.refersTo_iff.mpr ⟨fun hmem => (hrefers.mp hj).1 (hsub hmem), (hrefers.mp hj).2⟩
    · exact hrefers.mpr ⟨hall, (hg.refersTo_iff.mp hproves.refersTo).2⟩

/-- Two runs that end where nothing is found end in one file. -/
theorem eq_of_runs {f f₁ f₂ : File} (hids : (f.roots.flatMap Node.ids).Nodup) (hf : f.NamesAgree)
    (h₁ : Relation.ReflTransGen FixStep f f₁) (hnone₁ : findings f₁ = .ok [])
    (h₂ : Relation.ReflTransGen FixStep f f₂) (hnone₂ : findings f₂ = .ok []) : f₁ = f₂ := by
  obtain ⟨all, hall⟩ := exists_reached hf h₂
  obtain ⟨ids₁, hids₁, hsub₁⟩ := exists_reached_subset hids hf hall hnone₂ h₁
  obtain ⟨ids₂, hids₂, hsub₂⟩ := exists_reached_subset hids hf hids₁ hnone₁ h₂
  have hidents : f₁.idents = f₂.idents := by
    refine Array.ext_getElem? fun i => ?_
    by_cases hi : i ∈ ids₁
    · rw [hids₁.idents_eq, hall.idents_eq, if_pos hi, if_pos (hsub₁ hi)]
    · rw [hids₁.idents_eq, hids₂.idents_eq, if_neg hi, if_neg fun hmem => hi (hsub₂ hmem)]
  have hpath := hids₁.path_eq.trans hids₂.path_eq.symm
  have hsource := hids₁.source_eq.trans hids₂.source_eq.symm
  have hdecls := hids₁.decls_eq.trans hids₂.decls_eq.symm
  have hbindings := hids₁.bindings_eq.trans hids₂.bindings_eq.symm
  cases f₁
  cases f₂
  cases hidents
  cases hpath
  cases hsource
  cases hdecls
  cases hbindings
  rfl

/-! ### Faults on the way -/

/-- Where there are findings no conditional in a searched block is at fault. -/
theorem guarded?_of_findings {f : File} {xs : List Finding} (h : findings f = .ok xs)
    {path : List Nat} {b : Block} (hscans : f.Scans path b) {span : Span} {init : Option Stmt}
    {cond : Expr} {body : Block} {orElse : Option Stmt}
    (hif : Stmt.ifStmt span init cond body orElse ∈ b.stmts) {e : Fault} :
    guarded? f cond body ≠ .error e := by
  intro hguarded
  obtain ⟨k, hk⟩ := List.mem_iff_getElem?.mp hif
  obtain ⟨e', he'⟩ :=
    File.FaultAt.exists_error ⟨b, span, init, cond, body, orElse, hscans, hk, hguarded⟩
  rw [h] at he'
  cases he'

/-- A fault on the way stays until the end. -/
theorem Reached.guarded?_error {f g last : File} {ids all : List IdentId}
    (hlast : Reached f all last) (hg : Renamed f ids g) (hsub : ids ⊆ all) {cond : Expr}
    {body : Block} {e : Fault}
    (hliteral : ∀ span i, Node.expr (.ident span i) ∈ (Node.expr cond).children →
      ∀ x, f.idents[i]? = some x → x.name = nilName → x.binding = none)
    (h : guarded? g cond body = .error e) : ∃ e', guarded? last cond body = .error e' := by
  cases h ▸ guardedAs_guarded? g cond body with
  | @nilBound v n c hreturn hcomparison hn =>
    -- A bound nil literal was there from the beginning.
    obtain ⟨-, hnnil, -⟩ := nilComparison?_eq_some.mp hcomparison
    obtain ⟨y, hy, hynil⟩ : ∃ y, g.idents[n]? = some y ∧ y.isNil = true := by
      simpa [File.isNil, Option.any_eq_true] using hnnil
    rw [hy, Option.getD_some] at hn
    obtain ⟨-, span, hmem⟩ := sides_mem_children hcomparison
    have hnone := hliteral span n hmem y (hg.of_binding hy hn) (by simpa [Ident.isNil] using hynil)
    rw [hnone] at hn
    cases hn
  | @unbound v n hreturn hcomparison hn hv =>
    obtain ⟨hvnil, hnnil, hsides⟩ := nilComparison?_eq_some.mp hcomparison
    have hvall : v ∉ all := by
      intro hvall
      obtain ⟨ids', g', _, _, gd, hsub', hg', -, hproves⟩ := hlast.found v hvall
      obtain ⟨x, hx, hxb⟩ := File.refersTo_iff.mp (hg'.refersTo_iff.mp hproves.refersTo).2
      by_cases hvids : v ∈ ids
      · simp [File.isNil, hg.idents_eq, hvids, hx, Ident.isNil] at hvnil
      · simp [hg.idents_eq, hvids, hx, hxb] at hv
    have hsame := hg.getElem?_eq hlast.toRenamed hsub hvall
    obtain ⟨hnnil', hn'⟩ := hg.nil_stays hlast.toRenamed hsub hnnil hn
    have hcomparison' : nilComparison? last cond = some (v, n) :=
      nilComparison?_eq_some.mpr ⟨by rw [File.isNil, hsame]; exact hvnil, hnnil', hsides⟩
    rw [← hsame] at hv
    simp only [guarded?, hreturn, hcomparison', hn', hv, if_true]
    exact ⟨_, rfl⟩

/-! ### Passes as runs -/

theorem openFindings_eq {marker : String} {f : File} (h : ∀ xs, unsuppressed marker f xs = xs) :
    openFindings marker f = findings f := by
  unfold openFindings
  cases findings f with
  | error e => rfl
  | ok xs => exact congrArg Except.ok (h xs)

/-- Where nothing is suppressed, passes are steps. -/
theorem Passes.run {marker : String} {f g : File} {xs ys : List Finding}
    {rounds : List (List Finding)} (h : Passes marker f xs rounds g ys)
    (hplain : ∀ zs, unsuppressed marker f zs = zs) (hxs : findings f = .ok xs) :
    Relation.ReflTransGen FixStep f g ∧ findings g = .ok ys ∧
      ∀ zs, unsuppressed marker g zs = zs := by
  induction h with
  | refl f xs => exact ⟨.refl, hxs, hplain⟩
  | @pass f g xs ys zs rounds hne hpos hopen _ ih =>
    have hplain' : ∀ zs, unsuppressed marker (fix f xs).1 zs = zs := by
      intro zs
      rw [unsuppressed, source_fix]
      exact hplain zs
    rw [openFindings_eq hplain'] at hopen
    obtain ⟨hrun, hrest⟩ := ih hplain' hopen
    exact ⟨.head ⟨xs, xs, hxs, hne, List.Subset.refl xs, rfl⟩ hrun, hrest⟩

/-- Fixing is confluent. Steps that each replace some of what is found, in any order and number, end
in one file if they end where nothing is found, and with nothing suppressed this is the file that
fixing everything at once ends in. -/
theorem fixing_confluent {f f₁ f₂ : File} (hids : (f.roots.flatMap Node.ids).Nodup)
    (hagree : f.NamesAgree)
    (hliteral : ∀ root ∈ f.roots, ∀ span i, Node.expr (.ident span i) ∈ Descent.full.walk root →
      ∀ x, f.idents[i]? = some x → x.name = nilName → x.binding = none)
    (h₁ : Relation.ReflTransGen FixStep f f₁) (hnone₁ : findings f₁ = .ok [])
    (h₂ : Relation.ReflTransGen FixStep f f₂) (hnone₂ : findings f₂ = .ok []) :
    f₁ = f₂ ∧ ∀ marker, (∀ xs, unsuppressed marker f xs = xs) → ∃ xs fixed, findings f = .ok xs ∧
      fixAll marker f xs = .ok fixed ∧ fixed.file = f₁ := by
  refine ⟨eq_of_runs hids hagree h₁ hnone₁ h₂ hnone₂, fun marker hplain => ?_⟩
  obtain ⟨all, hlast⟩ := exists_reached hagree h₁
  have hok : ∀ g, Relation.ReflTransGen FixStep f g → ∀ e, findings g ≠ .error e := by
    intro g hrun e he
    obtain ⟨ids, hg, hsub⟩ := exists_reached_subset hids hagree hlast hnone₁ hrun
    obtain ⟨path, b, span, init, cond, body, orElse, hscans, hif, hguarded⟩ :=
      exists_of_findings_error he
    have hscans := hg.scans_iff.mp hscans
    obtain ⟨root, hroot, hcond⟩ := hscans.cond_mem_walk hif
    obtain ⟨e', he'⟩ := hlast.guarded?_error hg.toRenamed hsub
      (fun span i hi => hliteral root hroot span i
        (Descent.walk_trans hcond (Descent.mem_walk_of_next hi))) hguarded
    exact guarded?_of_findings hnone₁ (hlast.scans_iff.mpr hscans) hif he'
  cases hxs : findings f with
  | error e => exact absurd hxs (hok f .refl e)
  | ok xs =>
    refine ⟨xs, ?_⟩
    obtain ⟨rounds, fixed, hpasses, hfixed, -⟩ | ⟨rounds, g, ys, e, hpasses, hys, hopen, -⟩ :=
      exists_last_pass hagree ((openFindings_eq hplain).trans hxs)
    · obtain ⟨hrun, hnone, -⟩ := hpasses.run hplain hxs
      exact ⟨fixed, rfl, hfixed, eq_of_runs hids hagree hrun hnone h₁ hnone₁⟩
    · -- One more step leads to a fault.
      obtain ⟨hrun, hys', hplain'⟩ := hpasses.run hplain hxs
      have hstep : FixStep g (fix g ys).1 := ⟨ys, ys, hys', hys, List.Subset.refl ys, rfl⟩
      rw [openFindings_eq fun zs => by rw [unsuppressed, source_fix]; exact hplain' zs] at hopen
      exact absurd hopen (hok _ (hrun.tail hstep) e)

/-- The empty marker suppresses nothing. -/
theorem unsuppressed_empty (f : File) (xs : List Finding) : unsuppressed "" f xs = xs := by
  refine List.filter_eq_self.mpr fun x _ => ?_
  cases Text.line? f.source.toList x.line <;> rfl

/-- The read in the inner one of the nested guards. Without it that guard is none. -/
def innerRead : Finding := ⟨"p.go", 2, "e", 0, ⟨41, 42, 4, 4⟩, ⟨15, 23, 2, 4⟩⟩

/-- The read behind the nested guards. -/
def lastRead : Finding := ⟨"p.go", 4, "e", 0, ⟨62, 63, 5, 1⟩, ⟨15, 23, 2, 4⟩⟩

/-- The file after the reads are replaced one by one. -/
def nestedAfter (xs : List Finding) : File :=
  xs.foldl (fun f x => (fix f [x]).1) nestedGuards

theorem findings_nestedAfter :
    findings (nestedAfter [innerRead]) = .ok [lastRead] ∧
    findings (nestedAfter [innerRead, lastRead]) = .ok [] ∧
    findings (nestedAfter [lastRead]) = .ok [innerRead] ∧
    findings (nestedAfter [lastRead, innerRead]) = .ok [] :=
  ⟨by cbv, by cbv, by cbv, by cbv⟩

theorem run_nestedAfter {x y : Finding} (hx : x ∈ [innerRead, lastRead])
    (hy : findings (nestedAfter [x]) = .ok [y]) :
    Relation.ReflTransGen FixStep nestedGuards (nestedAfter [x, y]) := by
  refine .tail (.single ⟨_, [x], findings_nestedGuards, by simp, ?_, rfl⟩)
    ⟨_, [y], hy, by simp, List.Subset.refl _, rfl⟩
  simpa [innerRead, lastRead] using hx

theorem fixing_confluent_nestedGuards :
    Relation.ReflTransGen FixStep nestedGuards (nestedAfter [innerRead, lastRead]) ∧
    Relation.ReflTransGen FixStep nestedGuards (nestedAfter [lastRead, innerRead]) ∧
    nestedAfter [innerRead, lastRead] = nestedAfter [lastRead, innerRead] ∧
    ∃ xs fixed, findings nestedGuards = .ok xs ∧ fixAll "" nestedGuards xs = .ok fixed ∧
      fixed.file = nestedAfter [innerRead, lastRead] := by
  obtain ⟨hinner, hfirst, hlast, hsecond⟩ := findings_nestedAfter
  have hids : nestedGuards.roots.flatMap Node.ids = [0, 1, 2, 3, 4] := by cbv
  have hagree : nestedGuards.NamesAgree := by
    unfold File.NamesAgree
    simp [nestedGuards]
  have hliteral : ∀ x ∈ nestedGuards.idents, x.name = nilName → x.binding = none := by
    simp [nestedGuards, nilName]
  have hrun := run_nestedAfter (by simp) hinner
  have hrun' := run_nestedAfter (by simp) hlast
  obtain ⟨heq, hloop⟩ := fixing_confluent (by rw [hids]; decide) hagree
    (fun _ _ _ _ _ x hx => hliteral x (Array.mem_of_getElem? hx)) hrun hfirst hrun' hsecond
  exact ⟨hrun, hrun', heq, hloop "" (unsuppressed_empty nestedGuards)⟩

end NilGuard
