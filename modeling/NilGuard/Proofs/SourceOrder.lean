import NilGuard.Proofs.Confluence

/-!
The order of walks. A walk over the declarations of a file meets the identifiers in the order in
which the source has them, though they are numbered in the order in which they take effect. A
descent that leaves nodes out keeps the order (`Descent.walk_sublist`), and so the occurrences of a
variable in a statement and what is proved nil come in the order of the source, each once
(`walk_in_source_order`).
-/

namespace NilGuard

namespace Go

/-! ### Walks inside walks -/

namespace Descent

/-- What is reached from a node that is reached comes in the same order. -/
theorem walk_sublist_of_mem {d : Descent} {n m : Node} (h : m ∈ d.walk n) :
    (d.walk m).Sublist (d.walk n) := by
  induction h using mem_walk_induction with
  | self => exact .refl _
  | step n k hk _ ih =>
    rw [d.walk_eq n]
    refine .cons _ (ih.trans ?_)
    rw [← List.flatMap_singleton d.walk k]
    exact (List.singleton_sublist.mpr hk).flatMap _

/-- A descent that leaves nodes out, or enters what is below them instead, keeps the order. -/
theorem walk_sublist {d : Descent}
    (h : ∀ n, ((d.next n).flatMap full.walk).Sublist ((full.next n).flatMap full.walk)) (n : Node) :
    (d.walk n).Sublist (full.walk n) := by
  induction n using Descent.walk.induct d with
  | case1 n ih =>
    have hnext : ∀ ms : List Node, (∀ m ∈ ms, m ∈ d.next n) →
        (ms.flatMap d.walk).Sublist (ms.flatMap full.walk) := by
      intro ms hms
      induction ms with
      | nil => exact .refl _
      | cons m ms ihms =>
        obtain ⟨hm, hms⟩ := List.forall_mem_cons.mp hms
        exact (ih m hm).append (ihms hms)
    rw [walk_eq, walk_eq]
    exact ((hnext _ fun _ hm => hm).trans (h n)).cons_cons n

end Descent

/-! ### Order in the source -/

/-- One identifier begins before another. -/
def File.Precedes (f : File) (i j : IdentId) : Prop :=
  ∃ x y, f.idents[i]? = some x ∧ f.idents[j]? = some y ∧ x.span.start < y.span.start

theorem File.nodup_of_precedes {f : File} {is : List IdentId} (h : is.Pairwise f.Precedes) :
    is.Nodup := by
  refine h.imp ?_
  rintro i _ ⟨x, y, hx, hy, hlt⟩ rfl
  rw [hx, Option.some.injEq] at hy
  exact Nat.lt_irrefl _ (hy ▸ hlt)

namespace File.Origin

variable {f : File} {path source : String} {decls : List Surface.Decl} {ts : List Token}
  {es : List Event}

/-- A walk over the declarations meets identifiers in the order of the words. -/
theorem spells (h : f.Origin path source decls ts es) :
    Node.Spells 0 (Surface.sourceActs source decls)
    f.roots (decls.flatMap (Surface.declWords (Resolver.spanText source.toList))) := by
  obtain ⟨-, -, hspells⟩ := Resolver.resolveDecls_steps decls (.start source.toList decls)
  rw [File.roots, h.decls_eq]
  exact hspells

theorem exists_ident (h : f.Origin path source decls ts es) {i : IdentId} {w : Surface.Word}
    (hi : Node.MadeFor 0 (Surface.sourceActs source decls) i w) :
    ∃ x, f.idents[i]? = some x ∧ x.span = w.name.span := by
  obtain ⟨j, hij, hj⟩ := hi
  obtain rfl : i = j := by rw [hij, Nat.zero_add]
  have hname := congrArg (·[i]?) h.map_idents
  have hword : (Event.words es)[i]? = some w := by rw [h.events_eq]; exact hj
  simp only [List.getElem?_map, Array.getElem?_toList, hword, Option.map_some] at hname
  obtain ⟨x, hx, hxname⟩ := Option.map_eq_some_iff.mp hname
  exact ⟨x, hx, by rw [← hxname]⟩

/-- A walk over the declarations meets identifiers in the order of the source. -/
theorem pairwise_precedes (h : f.Origin path source decls ts es) :
    (f.roots.flatMap Node.ids).Pairwise f.Precedes := by
  have hts : (ts.map (·.span.start)).Pairwise (· < ·) :=
    List.pairwise_map.mpr (h.laid.pairwise.imp fun ht => ht.1)
  have hwords := List.pairwise_map.mp (hts.sublist h.covers.starts_sublist)
  refine sublistForall_pairwise (fun i j w w' hi hj hlt => ?_) h.spells hwords
  obtain ⟨x, hx, hxspan⟩ := h.exists_ident hi
  obtain ⟨y, hy, hyspan⟩ := h.exists_ident hj
  exact ⟨x, y, hx, hy, by rw [hxspan, hyspan]; exact hlt⟩

end File.Origin

end Go

open Go

theorem inPlace_sublist (n : Node) : (inPlace.walk n).Sublist (Descent.full.walk n) := by
  refine Descent.walk_sublist (fun n => ?_) n
  cases n with
  | stmt s =>
    simp only [inPlace]
    split
    · next args hargs =>
      obtain ⟨span, span', body, hchildren⟩ := exists_of_laterArgs? hargs
      -- The arguments are the last part of the call.
      have hcall : (Descent.full.next (.stmt s)) =
          [.expr (.call span (.closure span' body) args)] := hchildren
      rw [hcall, List.flatMap_singleton, Descent.walk_eq]
      refine .cons _ ?_
      exact (List.sublist_cons_self _ _).flatMap _
    · exact .refl _
  | _ => exact .refl _

/-- Occurrences come in the order of a walk. -/
theorem occurrences_sublist (f : File) (b : BindingId) (s : Stmt) :
    (occurrences f b s).Sublist (Node.stmt s).ids := by
  have hsub := (inPlace_sublist (.stmt s)).filterMap Node.id?
  refine .trans ?_ hsub
  have hfilter : occurrence? f b = fun n => n.id?.bind (Option.guard fun i => f.refersTo i b) := by
    funext n
    cases n <;> rfl
  rw [occurrences, hfilter, ← List.filterMap_filterMap, List.filterMap_eq_filter]
  exact List.filter_sublist

/-- What is proved nil are the occurrences in one statement. -/
theorem firstReads_cases (f : File) (b : BindingId) (ss : List Stmt) :
    firstReads f b ss = [] ∨ ∃ s ∈ ss, firstReads f b ss = occurrences f b s := by
  induction ss with
  | nil => exact .inl rfl
  | cons s ss ih =>
    rw [firstReads]
    split
    · exact .inl rfl
    · split
      · rcases ih with h | ⟨t, ht, h⟩
        · exact .inl h
        · exact .inr ⟨t, List.mem_cons_of_mem s ht, h⟩
      · exact .inr ⟨s, List.mem_cons_self, rfl⟩

/-- Walks are in the order of the source. In a file that was read from a source a walk over the
declarations meets identifiers one after the other in the text. So do the occurrences of a variable
in any statement of the file, and what is proved nil behind a guard; and each is met once. -/
theorem walk_in_source_order {path source : String} {f : File}
    (hf : File.ofSource? path source = some f) :
    (f.roots.flatMap Node.ids).Pairwise f.Precedes ∧
    (∀ root ∈ f.roots, root.ids.Pairwise f.Precedes) ∧
    (∀ root ∈ f.roots, ∀ s, Node.stmt s ∈ Descent.full.walk root → ∀ b,
      (occurrences f b s).Pairwise f.Precedes ∧ (occurrences f b s).Nodup) ∧
    (∀ b ss, (∀ s ∈ ss, ∃ root ∈ f.roots, Node.stmt s ∈ Descent.full.walk root) →
      (firstReads f b ss).Pairwise f.Precedes ∧ (firstReads f b ss).Nodup) := by
  obtain ⟨decls, ts, es, horigin⟩ := File.exists_origin hf
  have hall := horigin.pairwise_precedes
  have hroot : ∀ root ∈ f.roots, root.ids.Pairwise f.Precedes := by
    intro root hroot
    refine hall.sublist ?_
    rw [← List.flatMap_singleton Node.ids root]
    exact (List.singleton_sublist.mpr hroot).flatMap _
  have hoccurs : ∀ root ∈ f.roots, ∀ s, Node.stmt s ∈ Descent.full.walk root → ∀ b,
      (occurrences f b s).Pairwise f.Precedes := by
    intro root hmem s hs b
    refine (hroot root hmem).sublist ((occurrences_sublist f b s).trans ?_)
    exact (Descent.walk_sublist_of_mem hs).filterMap _
  refine ⟨hall, hroot, fun root hmem s hs b => ?_, fun b ss hss => ?_⟩
  · exact ⟨hoccurs root hmem s hs b, File.nodup_of_precedes (hoccurs root hmem s hs b)⟩
  · rcases firstReads_cases f b ss with h | ⟨s, hs, h⟩
    · simp [h]
    · obtain ⟨root, hmem, hwalk⟩ := hss s hs
      rw [h]
      exact ⟨hoccurs root hmem s hwalk b, File.nodup_of_precedes (hoccurs root hmem s hwalk b)⟩

/-- A source that swaps two variables. The values take effect before the targets in front of
them. -/
def swapSource : String := "func f()\x7be,g=g,e\x7d"

theorem tokens_swapSource : tokens swapSource.toList = some
    [⟨.keyword, "func", ⟨0, 4, 1, 1⟩, false⟩, ⟨.name, "f", ⟨5, 6, 1, 6⟩, false⟩,
     ⟨.operator, "(", ⟨6, 7, 1, 7⟩, false⟩, ⟨.operator, ")", ⟨7, 8, 1, 8⟩, false⟩,
     ⟨.operator, "\x7b", ⟨8, 9, 1, 9⟩, false⟩, ⟨.name, "e", ⟨9, 10, 1, 10⟩, false⟩,
     ⟨.operator, ",", ⟨10, 11, 1, 11⟩, false⟩, ⟨.name, "g", ⟨11, 12, 1, 12⟩, false⟩,
     ⟨.operator, "=", ⟨12, 13, 1, 13⟩, false⟩, ⟨.name, "g", ⟨13, 14, 1, 14⟩, false⟩,
     ⟨.operator, ",", ⟨14, 15, 1, 15⟩, false⟩, ⟨.name, "e", ⟨15, 16, 1, 16⟩, false⟩,
     ⟨.operator, "\x7d", ⟨16, 17, 1, 17⟩, false⟩] := by
  decide +kernel

/-- Its statement. -/
def swapStmt : Stmt :=
  .assign ⟨9, 16, 1, 10⟩ .assign [.ident ⟨9, 10, 1, 10⟩ 2, .ident ⟨11, 12, 1, 12⟩ 3]
    [.ident ⟨13, 14, 1, 14⟩ 0, .ident ⟨15, 16, 1, 16⟩ 1]

/-- Its tree. -/
def swapFile : File where
  path := "p.go"
  source := swapSource
  decls := [.func ⟨0, 17, 1, 1⟩ "f" (some (.mk ⟨8, 17, 1, 9⟩ [swapStmt]))]
  idents := #[⟨"g", some 1, ⟨13, 14, 1, 14⟩⟩, ⟨"e", some 2, ⟨15, 16, 1, 16⟩⟩,
    ⟨"e", some 2, ⟨9, 10, 1, 10⟩⟩, ⟨"g", some 1, ⟨11, 12, 1, 12⟩⟩]
  bindings := #[⟨"f", .func, some ⟨5, 6, 1, 6⟩⟩, ⟨"g", .external, none⟩, ⟨"e", .external, none⟩]

theorem ofSource?_swapSource : File.ofSource? "p.go" swapSource = some swapFile := by
  rw [File.ofSource?, Surface.Decl.ofSource?, tokens_swapSource]
  cbv

/-- The walk meets the identifiers in the order of the source, which is not the order of their
numbers. -/
theorem walk_in_source_order_swapSource : File.ofSource? "p.go" swapSource = some swapFile ∧
    swapFile.roots.flatMap Node.ids = [2, 3, 0, 1] ∧ [2, 3, 0, 1].Pairwise swapFile.Precedes ∧
    occurrences swapFile 2 swapStmt = [2, 1] ∧ [2, 1].Pairwise swapFile.Precedes ∧
      [2, 1].Nodup := by
  obtain ⟨hall, -, hoccurs, -⟩ := walk_in_source_order ofSource?_swapSource
  have hroot : Node.block (.mk ⟨8, 17, 1, 9⟩ [swapStmt]) ∈ swapFile.roots :=
    List.mem_singleton_self _
  have hids : swapFile.roots.flatMap Node.ids = [2, 3, 0, 1] := by cbv
  have hoccurrences : occurrences swapFile 2 swapStmt = [2, 1] := by cbv
  obtain ⟨hprecedes, hnodup⟩ := hoccurs _ hroot swapStmt
    (Descent.mem_walk_of_next (List.mem_singleton_self _)) 2
  exact ⟨ofSource?_swapSource, hids, hids ▸ hall, hoccurrences, hoccurrences ▸ hprecedes,
    hoccurrences ▸ hnodup⟩

end NilGuard
