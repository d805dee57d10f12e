import NilGuard.Proofs.Confluence

/-!
What is found is read. An identifier is the target of a write where it stands alone to the left of
an assignment, as key or value of a range loop that assigns, or behind `&`. Where such an identifier
runs in place, so does the node that writes it (`Guard.ProvesNil.mem_walk_of_targets`), however deep
in a statement; a statement with a write of its variable ends what a guard proves, so the identifier
is neither found nor replaced (`assigned_not_found`).

Range loops are not known as writes. Their targets are found like reads, and replaced by `nil`.

So fixing replaces no identifier by which a statement is known to write: writes stay where they are,
and with them the guards whose variable is not replaced (`fixing_keeps_writes`).
-/

namespace NilGuard

namespace Go

/-- The identifier that an expression is. -/
def Expr.ident? : Expr → Option IdentId
  | .ident _ i => some i
  | _ => none

theorem Expr.ident?_eq_some {e : Expr} {i : IdentId} (h : e.ident? = some i) :
    ∃ span, e = .ident span i := by
  cases e with
  | ident span j =>
    cases h
    exact ⟨span, rfl⟩
  | _ => cases h

namespace Node

/-- The identifiers that a node by itself writes, or takes the address of. -/
def targets : Node → List IdentId
  | .stmt (.assign _ _ targets _) => targets.filterMap Expr.ident?
  | .stmt (.range _ key value false _ _) => (key.toList ++ value.toList).filterMap Expr.ident?
  | .expr (.unary _ .addr operand) => operand.ident?.toList
  | _ => []

/-- Whether a node is a range loop that assigns to its targets. -/
def rangeAssigns : Node → Bool
  | .stmt (.range _ _ _ define _ _) => !define
  | _ => false

theorem exists_child_of_targets {n : Node} {i : IdentId} (h : i ∈ n.targets) :
    ∃ span, Node.expr (.ident span i) ∈ n.children := by
  unfold targets at h
  split at h
  · next span op targets values =>
    obtain ⟨e, he, hi⟩ := List.mem_filterMap.mp h
    obtain ⟨span, rfl⟩ := Expr.ident?_eq_some hi
    exact ⟨span, List.mem_append_left _ (List.mem_map_of_mem he)⟩
  · next span key value subject body =>
    obtain ⟨e, he, hi⟩ := List.mem_filterMap.mp h
    obtain ⟨span, rfl⟩ := Expr.ident?_eq_some hi
    refine ⟨span, List.mem_append_left _ ?_⟩
    rw [← List.map_append]
    exact List.mem_map_of_mem he
  · next span operand =>
    obtain ⟨span, rfl⟩ := Expr.ident?_eq_some (Option.mem_toList.mp h)
    exact ⟨span, List.mem_singleton_self _⟩
  · cases h

theorem mem_ids_of_targets {n : Node} {i : IdentId} (h : i ∈ n.targets) : i ∈ n.ids := by
  obtain ⟨span, hspan⟩ := exists_child_of_targets h
  refine ids_subset (Descent.mem_walk_of_next hspan) ?_
  simp [ids_eq, id?, children, ofExpr]

theorem exists_follow_of_mem_walk {n m : Node} (h : m ∈ Descent.full.walk n) :
    ∃ p, n.follow p = some m := by
  induction h using Descent.mem_walk_induction with
  | self => exact ⟨[], rfl⟩
  | step n k hk _ ih =>
    obtain ⟨x, hx⟩ := List.mem_iff_getElem?.mp hk
    obtain ⟨p, hp⟩ := ih
    refine ⟨x :: p, ?_⟩
    rw [follow_cons, show n.children[x]? = some k from hx, Option.bind_some, hp]

/-- Below a node that writes an identifier there is no statement that has it. -/
theorem eq_nil_of_follow_stmt {n : Node} (hids : n.ids.Nodup) {i : IdentId} (hi : i ∈ n.targets)
    {p : List Nat} {s : Stmt} (hs : n.follow p = some (.stmt s)) (his : i ∈ (Node.stmt s).ids) :
    p = [] := by
  cases p with
  | nil => rfl
  | cons x p =>
    obtain ⟨m, hm, hs⟩ := Option.bind_eq_some_iff.mp hs
    obtain ⟨span, hspan⟩ := exists_child_of_targets hi
    obtain ⟨y, hy⟩ := List.mem_iff_getElem?.mp hspan
    have hitarget : i ∈ (Node.expr (.ident span i)).ids := by simp [ids_eq, id?, children, ofExpr]
    obtain rfl : x = y := index_eq_of_mem_flatMap (nodup_children hids) hm hy
      (ids_subset (mem_walk_of_follow hs) his) hitarget
    obtain rfl : m = .expr (.ident span i) := by simpa [hm] using hy
    have hwalk := mem_walk_of_follow hs
    simp [Descent.walk_eq, Descent.full, children, ofExpr] at hwalk

end Node

theorem File.exists_follow_of_mem_walk {f : File} {root n : Node} (hroot : root ∈ f.roots)
    (hn : n ∈ Descent.full.walk root) : ∃ p, f.follow p = some n := by
  obtain ⟨x, hx⟩ := mem_roots.mp hroot
  obtain ⟨p, hp⟩ := Node.exists_follow_of_mem_walk hn
  exact ⟨x :: p, by simp [follow, tree_iff.mp hx, hp]⟩

end Go

open Go

/-- What a node writes it is known to write, unless it is a range loop. -/
theorem writesHere_iff_targets {f : File} {b : BindingId} {n : Node} : writesHere f b n = true ↔
    n.rangeAssigns = false ∧ ∃ i ∈ n.targets, f.refersTo i b = true := by
  rw [writesHere_iff]
  constructor
  · intro h
    cases h with
    | assign htarget hi => exact ⟨rfl, _, List.mem_filterMap.mpr ⟨_, htarget, rfl⟩, hi⟩
    | address hi => exact ⟨rfl, _, List.mem_singleton_self _, hi⟩
  · rintro ⟨hn, i, hi, hb⟩
    unfold Node.targets at hi
    split at hi
    · next span op targets values =>
      obtain ⟨e, he, hi⟩ := List.mem_filterMap.mp hi
      obtain ⟨span, rfl⟩ := Expr.ident?_eq_some hi
      exact .assign he hb
    · cases hn
    · next span operand =>
      obtain ⟨span, rfl⟩ := Expr.ident?_eq_some (Option.mem_toList.mp hi)
      exact .address hb
    · cases hi

/-- What writes an identifier that a guard proves nil runs in the statement that has it. -/
theorem Guard.ProvesNil.mem_walk_of_targets {f : File} (hids : (f.roots.flatMap Node.ids).Nodup)
    {path : List Nat} {k : Nat} {g : Guard} (hg : f.HasGuard path k g) {i : IdentId}
    (h : g.ProvesNil f i) {q : List Nat} {n : Node} (hq : f.follow q = some n)
    (hi : i ∈ n.targets) :
    ∃ s, writes f g.binding s = false ∧ n ∈ inPlace.walk (.stmt s) := by
  obtain ⟨b, span, init, cond, body, orElse, hscans, hif, -, -, hrem⟩ := hg
  obtain ⟨before, s, after, hsplit, -, hwrites, hoccurs⟩ := h
  obtain ⟨p, hp, -⟩ := File.exists_follow hscans.follow_eq hif (hrem ▸ hsplit)
  have hrun := (mem_occurrences.mp hoccurs).1
  refine ⟨s, hwrites, ?_⟩
  rcases File.isPrefix_or_isPrefix hids hp hq hrun.mem_ids (Node.mem_ids_of_targets hi) with
    ⟨t, rfl⟩ | ⟨t, rfl⟩
  · rw [File.follow_append f (File.ne_nil_of_follow hp), hp, Option.bind_some] at hq
    refine hrun.mem_walk (File.nodup_of_follow hids hp) hq (Node.mem_ids_of_targets hi) ?_
    rintro span callee args rfl
    cases hi
  · rw [File.follow_append f (File.ne_nil_of_follow hq), hq, Option.bind_some] at hp
    obtain rfl := Node.eq_nil_of_follow_stmt (File.nodup_of_follow hids hq) hi hp hrun.mem_ids
    cases hp
    exact inPlace.mem_walk_self _

/-- No guard proves an identifier nil that is the target of an assignment or the operand of `&`. -/
theorem ident_ne_of_mem_raw {f : File} (hids : (f.roots.flatMap Node.ids).Nodup) {root n : Node}
    (hroot : root ∈ f.roots) (hn : n ∈ Descent.full.walk root) {i : IdentId} (hi : i ∈ n.targets)
    (hrange : n.rangeAssigns = false) {x : Finding} (hx : x ∈ f.raw) : x.ident ≠ i := by
  rintro rfl
  obtain ⟨path, k, g, hg, hproves, -⟩ := mem_raw.mp hx
  obtain ⟨q, hq⟩ := File.exists_follow_of_mem_walk hroot hn
  obtain ⟨s, hwrites, hmem⟩ := hproves.mem_walk_of_targets hids hg hq hi
  have hwrites' : writes f g.binding s = true :=
    List.any_eq_true.mpr ⟨n, hmem, writesHere_iff_targets.mpr ⟨hrange, x.ident, hi,
      hproves.refersTo⟩⟩
  rw [hwrites] at hwrites'
  cases hwrites'

/-- What is found is read. In a file that was read from a source no identifier is found that is the
target of an assignment or the operand of `&`, wherever it stands, and fixing leaves every such
identifier as it is. -/
theorem assigned_not_found (marker : String) {path source : String} {f : File}
    (hf : File.ofSource? path source = some f) {root n : Node} (hroot : root ∈ f.roots)
    (hn : n ∈ Descent.full.walk root) {i : IdentId} (hi : i ∈ n.targets)
    (hrange : n.rangeAssigns = false) :
    (∀ xs, findings f = .ok xs → ∀ x ∈ xs, x.ident ≠ i) ∧
    (∀ xs fixed, openFindings marker f = .ok xs → fixAll marker f xs = .ok fixed →
      fixed.file.idents[i]? = f.idents[i]?) := by
  have hids := (File.coherent_of_source hf).2.once
  obtain ⟨decls, ts, es, horigin⟩ := File.exists_origin hf
  have hagree := File.namesAgree_of_ofSource? hf
  refine ⟨fun xs hxs x hx => ident_ne_of_mem_raw hids hroot hn hi hrange
    (mem_raw_of_findings hxs hx), fun xs fixed hxs hfixed => ?_⟩
  obtain ⟨rounds, fixed', hpasses, hfixed', -⟩ | ⟨_, _, _, _, -, -, -, hfault⟩ :=
    exists_last_pass hagree hxs
  · obtain rfl : fixed' = fixed := by simpa [hfixed] using hfixed'.symm
    obtain ⟨hrenamed, -, -, hraw⟩ :=
      hpasses.renamed (.refl f) List.nodup_nil horigin.startsDistinct hagree hxs
    rw [hrenamed.idents_eq, if_neg]
    -- What is replaced was found in a file with the same tree.
    intro hmem
    obtain ⟨x, hx, hxi⟩ := List.mem_map.mp hmem
    obtain ⟨ids, g, hg, -, hxraw⟩ := hraw x hx
    exact ident_ne_of_mem_raw (hg.roots_eq ▸ hids) (hg.roots_eq ▸ hroot) hn hi hrange hxraw hxi
  · rw [hfixed] at hfault
    cases hfault

/-- A source with a guard, and behind it a range loop that assigns and an assignment. -/
def loopSource : String := "func f()\x7bif e!=nil\x7breturn\x7d\nfor e=range c\x7b\x7d\ne=c\x7d"

theorem tokens_loopSource : tokens loopSource.toList = some
    [⟨.keyword, "func", ⟨0, 4, 1, 1⟩, false⟩, ⟨.name, "f", ⟨5, 6, 1, 6⟩, false⟩,
     ⟨.operator, "(", ⟨6, 7, 1, 7⟩, false⟩, ⟨.operator, ")", ⟨7, 8, 1, 8⟩, false⟩,
     ⟨.operator, "\x7b", ⟨8, 9, 1, 9⟩, false⟩, ⟨.keyword, "if", ⟨9, 11, 1, 10⟩, false⟩,
     ⟨.name, "e", ⟨12, 13, 1, 13⟩, false⟩, ⟨.operator, "!=", ⟨13, 15, 1, 14⟩, false⟩,
     ⟨.name, "nil", ⟨15, 18, 1, 16⟩, false⟩, ⟨.operator, "\x7b", ⟨18, 19, 1, 19⟩, false⟩,
     ⟨.keyword, "return", ⟨19, 25, 1, 20⟩, false⟩, ⟨.operator, "\x7d", ⟨25, 26, 1, 26⟩, false⟩,
     ⟨.keyword, "for", ⟨27, 30, 2, 1⟩, true⟩, ⟨.name, "e", ⟨31, 32, 2, 5⟩, false⟩,
     ⟨.operator, "=", ⟨32, 33, 2, 6⟩, false⟩, ⟨.keyword, "range", ⟨33, 38, 2, 7⟩, false⟩,
     ⟨.name, "c", ⟨39, 40, 2, 13⟩, false⟩, ⟨.operator, "\x7b", ⟨40, 41, 2, 14⟩, false⟩,
     ⟨.operator, "\x7d", ⟨41, 42, 2, 15⟩, false⟩, ⟨.name, "e", ⟨43, 44, 3, 1⟩, true⟩,
     ⟨.operator, "=", ⟨44, 45, 3, 2⟩, false⟩, ⟨.name, "c", ⟨45, 46, 3, 3⟩, false⟩,
     ⟨.operator, "\x7d", ⟨46, 47, 3, 4⟩, false⟩] := by
  decide +kernel

/-- The statements of its tree. -/
def loopStmts : List Stmt :=
  [.ifStmt ⟨9, 26, 1, 10⟩ none
    (.binary ⟨12, 18, 1, 13⟩ .ne (.ident ⟨12, 13, 1, 13⟩ 0) (.ident ⟨15, 18, 1, 16⟩ 1))
    (.mk ⟨18, 26, 1, 19⟩ [.returnStmt ⟨19, 25, 1, 20⟩ []]) none,
   .range ⟨27, 42, 2, 1⟩ (some (.ident ⟨31, 32, 2, 5⟩ 3)) none false (.ident ⟨39, 40, 2, 13⟩ 2)
    (.mk ⟨40, 42, 2, 14⟩ []),
   .assign ⟨43, 46, 3, 1⟩ .assign [.ident ⟨43, 44, 3, 1⟩ 5] [.ident ⟨45, 46, 3, 3⟩ 4]]

/-- Its tree, with the key of the loop replaced or not. -/
def loopFile (replaced : Bool) : File where
  path := "p.go"
  source := loopSource
  decls := [.func ⟨0, 47, 1, 1⟩ "f" (some (.mk ⟨8, 47, 1, 9⟩ loopStmts))]
  idents := #[sampleRead false ⟨12, 13, 1, 13⟩, ⟨nilName, none, ⟨15, 18, 1, 16⟩⟩,
    ⟨"c", some 2, ⟨39, 40, 2, 13⟩⟩, sampleRead replaced ⟨31, 32, 2, 5⟩,
    ⟨"c", some 2, ⟨45, 46, 3, 3⟩⟩, sampleRead false ⟨43, 44, 3, 1⟩]
  bindings := #[⟨"f", .func, some ⟨5, 6, 1, 6⟩⟩, ⟨"e", .external, none⟩, ⟨"c", .external, none⟩]

theorem ofSource?_loopSource : File.ofSource? "p.go" loopSource = some (loopFile false) := by
  rw [File.ofSource?, Surface.Decl.ofSource?, tokens_loopSource]
  cbv

theorem mem_walk_loopStmts {s : Stmt} (hs : s ∈ loopStmts) :
    Node.stmt s ∈ Descent.full.walk (.block (.mk ⟨8, 47, 1, 9⟩ loopStmts)) :=
  Descent.mem_walk_of_next (List.mem_map_of_mem hs)

/-- The key of the loop is found. -/
theorem openFindings_loopFile : openFindings "afternil:ignore" (loopFile false) =
    .ok [sampleFinding 3 ⟨31, 32, 2, 5⟩] := by
  cbv

theorem fix_loopFile : fix (loopFile false) [sampleFinding 3 ⟨31, 32, 2, 5⟩] =
    (loopFile true, 1) := by
  cbv

theorem fixAll_loopFile : ∃ ds, fixAll "afternil:ignore" (loopFile false)
    [sampleFinding 3 ⟨31, 32, 2, 5⟩] = .ok ⟨loopFile true, 1, ds⟩ := by
  have hclosed : openFindings "afternil:ignore" (loopFile true) = .ok [] := by cbv
  have hlast : fixAll "afternil:ignore" (loopFile true) [] = .ok ⟨loopFile true, 0, []⟩ := by
    rw [fixAll]; rfl
  exact ⟨_, fixAll_of_pass fix_loopFile hclosed hlast⟩

/-- The target of the assignment is not found, though the variable of the guard is what it
writes. -/
theorem assigned_not_found_loopSource : ∃ root n xs fixed,
    File.ofSource? "p.go" loopSource = some (loopFile false) ∧ root ∈ (loopFile false).roots ∧
      n ∈ Descent.full.walk root ∧ 5 ∈ n.targets ∧ n.rangeAssigns = false ∧
      openFindings "afternil:ignore" (loopFile false) = .ok xs ∧
      fixAll "afternil:ignore" (loopFile false) xs = .ok fixed ∧ fixed.count = 1 ∧
      (∀ x ∈ xs, x.ident ≠ 5) ∧ fixed.file.idents[5]? = (loopFile false).idents[5]? := by
  obtain ⟨ds, hfixed⟩ := fixAll_loopFile
  have hroot : Node.block (.mk ⟨8, 47, 1, 9⟩ loopStmts) ∈ (loopFile false).roots :=
    List.mem_singleton_self _
  have hwalk := mem_walk_loopStmts (s := .assign ⟨43, 46, 3, 1⟩ .assign [.ident ⟨43, 44, 3, 1⟩ 5]
    [.ident ⟨45, 46, 3, 3⟩ 4]) (by simp [loopStmts])
  obtain ⟨hfindings, hfix⟩ := assigned_not_found "afternil:ignore" ofSource?_loopSource hroot hwalk
    (i := 5) (by simp [Node.targets, Expr.ident?]) rfl
  obtain ⟨found, hfound, hopen⟩ := exists_of_openFindings openFindings_loopFile
  refine ⟨_, _, _, _, ofSource?_loopSource, hroot, hwalk, by simp [Node.targets, Expr.ident?], rfl,
    openFindings_loopFile, hfixed, rfl, fun x hx => ?_, hfix _ _ openFindings_loopFile hfixed⟩
  exact hfindings found hfound x (List.mem_filter.mp (hopen ▸ hx)).1

/-- The key of the loop is a target of a write. It is found, and `nil` takes its place. -/
theorem range_target_found_loopSource : ∃ root n x fixed,
    File.ofSource? "p.go" loopSource = some (loopFile false) ∧ root ∈ (loopFile false).roots ∧
      n ∈ Descent.full.walk root ∧ x.ident ∈ n.targets ∧
      openFindings "afternil:ignore" (loopFile false) = .ok [x] ∧
      fixAll "afternil:ignore" (loopFile false) [x] = .ok fixed ∧
      fixed.file.render =
      "func f()\x7bif e!=nil\x7breturn\x7d\nfor nil=range c\x7b\x7d\ne=c\x7d" := by
  obtain ⟨ds, hfixed⟩ := fixAll_loopFile
  have hroot : Node.block (.mk ⟨8, 47, 1, 9⟩ loopStmts) ∈ (loopFile false).roots :=
    List.mem_singleton_self _
  have hwalk :=
    mem_walk_loopStmts (s := .range ⟨27, 42, 2, 1⟩ (some (.ident ⟨31, 32, 2, 5⟩ 3)) none false
    (.ident ⟨39, 40, 2, 13⟩ 2) (.mk ⟨40, 42, 2, 14⟩ [])) (by simp [loopStmts])
  refine ⟨_, _, sampleFinding 3 ⟨31, 32, 2, 5⟩, _, ofSource?_loopSource, hroot, hwalk, ?_,
    openFindings_loopFile, hfixed, by cbv⟩
  simp [Node.targets, Expr.ident?, sampleFinding]

/-! ### Writes and guards of a fixed file -/

/-- Where the identifiers that nodes write are kept, so are the writes. -/
theorem writes_eq_of_kept {f g : File} {b : BindingId} {s : Stmt}
    (h : ∀ n ∈ inPlace.walk (.stmt s), n.rangeAssigns = false → ∀ i ∈ n.targets,
      g.refersTo i b = f.refersTo i b) : writes g b s = writes f b s := by
  rw [Bool.eq_iff_iff, writes, List.any_eq_true, writes, List.any_eq_true]
  refine exists_congr fun n => and_congr_right fun hn => ?_
  rw [writesHere_iff_targets, writesHere_iff_targets]
  refine and_congr_right fun hrange => exists_congr fun i => and_congr_right fun hi => ?_
  rw [h n hn hrange i hi]

theorem writes_fix {f : File} (hids : (f.roots.flatMap Node.ids).Nodup) {xs : List Finding}
    (h : findings f = .ok xs) {p : List Nat} {s : Stmt} (hs : f.At p (.stmt s)) (b : BindingId) :
    writes (fix f xs).1 b s = writes f b s := by
  obtain ⟨ids, hsub, hrenamed⟩ := exists_renamed_fix f xs
  obtain ⟨root, hroot, hs⟩ := File.mem_walk_of_follow (File.at_iff.mp hs)
  refine writes_eq_of_kept fun n hn hrange i hi => ?_
  have hkept : i ∉ ids := by
    intro hmem
    obtain ⟨x, hx, hxi⟩ := List.mem_map.mp (hsub hmem)
    exact ident_ne_of_mem_raw hids hroot (Descent.walk_trans hs (inPlace_subset _ hn)) hi hrange
      (mem_raw_of_findings h hx) hxi
  rw [Bool.eq_iff_iff, hrenamed.refersTo_iff]
  exact and_iff_right hkept

/-- Fixing moves no write. Where every identifier stands once in the tree, replacing all that is
found leaves every statement in its place and writing what it wrote, also in a body that runs later;
every block ends in a return as it did; and a condition that guards a variable still guards it, if
and only if the variable in the condition was not itself replaced. -/
theorem fixing_keeps_writes {f : File} {xs : List Finding}
    (hids : (f.roots.flatMap Node.ids).Nodup) (h : findings f = .ok xs) :
    (∀ p s, f.At p (.stmt s) →
      (fix f xs).1.At p (.stmt s) ∧ ∀ b, writes (fix f xs).1 b s = writes f b s) ∧
    (∀ p body, f.At p (.block body) → ∃ body',
      (fix f xs).1.At p (.block body') ∧ endsInReturn body' = endsInReturn body) ∧
    (∀ p span init cond body orElse, f.At p (.stmt (.ifStmt span init cond body orElse)) →
      ∀ b v n, guarded? f cond body = .ok (some b) → nilComparison? f cond = some (v, n) →
        (guarded? (fix f xs).1 cond body = .ok (some b) ↔
          (fix f xs).1.idents[v]? = f.idents[v]?)) := by
  obtain ⟨ids, -, hrenamed⟩ := exists_renamed_fix f xs
  refine ⟨fun p s hs => ⟨?_, writes_fix hids h hs⟩, fun p body hbody => ⟨body, ?_, rfl⟩, ?_⟩
  · exact hrenamed.at_iff.mpr hs
  · exact hrenamed.at_iff.mpr hbody
  · rintro p span init cond body orElse - b v n hguarded hcomparison
    exact hrenamed.guarded?_iff hguarded hcomparison

/-- The key of a loop is replaced. The assignment behind it still writes the variable, and the guard
before it still guards it. -/
theorem fixing_keeps_writes_loopFile : ∃ s span init cond body orElse,
    ((loopFile false).roots.flatMap Node.ids).Nodup ∧
      findings (loopFile false) = .ok [sampleFinding 3 ⟨31, 32, 2, 5⟩] ∧
      fix (loopFile false) [sampleFinding 3 ⟨31, 32, 2, 5⟩] = (loopFile true, 1) ∧
      (loopFile false).At [0, 2] (.stmt s) ∧ writes (loopFile false) 1 s = true ∧
      (loopFile false).At [0, 0] (.stmt (.ifStmt span init cond body orElse)) ∧
      (loopFile false).At [0, 0, 1] (.block body) ∧ endsInReturn body = true ∧
      guarded? (loopFile false) cond body = .ok (some 1) ∧
      (loopFile true).At [0, 2] (.stmt s) ∧ writes (loopFile true) 1 s = true ∧
      (∃ body', (loopFile true).At [0, 0, 1] (.block body') ∧ endsInReturn body' = true) ∧
      guarded? (loopFile true) cond body = .ok (some 1) := by
  have hids : ((loopFile false).roots.flatMap Node.ids).Nodup := by
    have hids : (loopFile false).roots.flatMap Node.ids = [0, 1, 3, 2, 5, 4] := by cbv
    rw [hids]
    decide
  have hfound : findings (loopFile false) = .ok [sampleFinding 3 ⟨31, 32, 2, 5⟩] := by cbv
  have hguarded : guarded? (loopFile false)
      (.binary ⟨12, 18, 1, 13⟩ .ne (.ident ⟨12, 13, 1, 13⟩ 0) (.ident ⟨15, 18, 1, 16⟩ 1))
      (.mk ⟨18, 26, 1, 19⟩ [.returnStmt ⟨19, 25, 1, 20⟩ []]) = .ok (some 1) := by cbv
  have hwrites : writes (loopFile false) 1 (.assign ⟨43, 46, 3, 1⟩ .assign
      [.ident ⟨43, 44, 3, 1⟩ 5] [.ident ⟨45, 46, 3, 3⟩ 4]) = true := by cbv
  obtain ⟨hstmts, hblocks, hguards⟩ := fixing_keeps_writes hids hfound
  rw [fix_loopFile] at hstmts hblocks hguards
  have hassign := File.at_iff.mpr (rfl : (loopFile false).follow [0, 2] = _)
  have hif := File.at_iff.mpr (rfl : (loopFile false).follow [0, 0] = _)
  have hbody := File.at_iff.mpr (rfl : (loopFile false).follow [0, 0, 1] = _)
  obtain ⟨hstays, hsame⟩ := hstmts [0, 2] _ hassign
  have hguard := hguards [0, 0] _ _ _ _ _ hif 1 0 1 hguarded (by cbv)
  exact ⟨_, _, _, _, _, _, hids, hfound, fix_loopFile, hassign, hwrites, hif, hbody, rfl, hguarded,
    hstays, (hsame 1).trans hwrites, hblocks [0, 0, 1] _ hbody, hguard.mpr rfl⟩

end NilGuard
