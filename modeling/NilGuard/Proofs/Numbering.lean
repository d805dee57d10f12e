import Mathlib
import NilGuard.Proofs.Scoping

/-!
Numbers and order of the identifiers in a tree. Identifiers are numbered as they take effect, values
before the names that their line declares. The nodes that acts gave have each number of the
identifiers made by the acts at most once, with larger numbers for what comes later in a block
(`Node.Numbered`). A walk over them meets the identifiers in the order of the words of the source
(`Node.Spells`), whatever the order of the numbers.
-/

namespace NilGuard.Go

open Surface (Word)

/-! ### Numbers in a tree -/

theorem Descent.mem_walk_self (d : Descent) (n : Node) : n ∈ d.walk n := by
  rw [walk_eq]
  exact List.mem_cons_self

theorem Descent.mem_walk_of_mem_next {d : Descent} {n k m : Node} (hk : k ∈ d.next n)
    (hm : m ∈ d.walk k) :
    m ∈ d.walk n := by
  rw [walk_eq]
  exact List.mem_cons_of_mem n (List.mem_flatMap.mpr ⟨k, hk, hm⟩)

theorem Descent.mem_walk_of_next {d : Descent} {n m : Node} (h : m ∈ d.next n) : m ∈ d.walk n :=
  mem_walk_of_mem_next h (d.mem_walk_self m)

/-- Induction on the way that a node is reached, from where it stands back to where the walk
begins. -/
@[elab_as_elim]
theorem Descent.mem_walk_induction {d : Descent} {m : Node} {motive : ∀ n, m ∈ d.walk n → Prop}
    (self : motive m (d.mem_walk_self m))
    (step : ∀ n k (hk : k ∈ d.next n) (hm : m ∈ d.walk k), motive k hm →
      motive n (mem_walk_of_mem_next hk hm))
    {n : Node} (h : m ∈ d.walk n) : motive n h := by
  induction n using Descent.walk.induct d with
  | case1 n ih =>
    have hcases := h
    rw [walk_eq] at hcases
    rcases List.mem_cons.mp hcases with rfl | hbelow
    · exact self
    · obtain ⟨k, hk, hm⟩ := List.mem_flatMap.mp hbelow
      exact step n k hk hm (ih k hk hm)

/-- What is reached from a node that is reached is reached. -/
theorem Descent.walk_trans {d : Descent} {n m k : Node} (h : m ∈ d.walk n) (hk : k ∈ d.walk m) :
    k ∈ d.walk n := by
  induction h using mem_walk_induction with
  | self => exact hk
  | step n n' hn' _ ih => exact mem_walk_of_mem_next hn' ih

namespace Node

/-- The number that a node is. -/
def id? : Node → Option IdentId
  | .ident id _ => some id
  | _ => none

/-- The numbers of the identifiers at and below a node. -/
def ids (n : Node) : List IdentId :=
  (Descent.full.walk n).filterMap id?

theorem ids_eq (n : Node) : n.ids = n.id?.toList ++ n.children.flatMap ids := by
  rw [ids, Descent.walk_eq, List.filterMap_cons, List.filterMap_flatMap]
  cases n.id? <;> rfl

theorem ids_subset {n m : Node} (h : m ∈ Descent.full.walk n) : m.ids ⊆ n.ids := by
  intro i hi
  obtain ⟨k, hk, hid⟩ := List.mem_filterMap.mp hi
  exact List.mem_filterMap.mpr ⟨k, Descent.walk_trans h hk, hid⟩

/-- All numbers in one node are below all numbers in another. -/
def Before (n m : Node) : Prop :=
  ∀ i : Nat, i ∈ n.ids → ∀ j : Nat, j ∈ m.ids → i < j

/-- The statements of a block are numbered in their order, and so are a condition and what runs when
it does not hold. -/
def InOrder : Node → Prop
  | .block b => b.stmts.Pairwise fun s t => Before (.stmt s) (.stmt t)
  | .stmt (.ifStmt _ _ cond _ orElse) => ∀ s ∈ orElse, Before (.expr cond) (.stmt s)
  | _ => True

/-- Nodes that acts gave, counting identifiers from `n` on. Each identifier that the acts made is at
most once at or below the nodes, statements are numbered in order, and an identifier that is an
expression was made for one. -/
structure Numbered (n : Nat) (as : List Act) (ns : List Node) : Prop where
  ids : (ns.flatMap ids).Subperm (List.range' n (Act.made as).length)
  inOrder : ∀ k ∈ ns, ∀ m ∈ Descent.full.walk k, m.InOrder
  operands : ∀ k ∈ ns, ∀ span (i : Nat), Node.expr (.ident span i) ∈ Descent.full.walk k →
    ∃ e, (Act.made as)[i - n]? = some e ∧ e.isOperand = true

theorem id_mem_ids {span : Span} {i : IdentId} : i ∈ (Node.expr (.ident span i)).ids := by
  simp [ids_eq, id?, children, ofExpr]

namespace Numbered

variable {n : Nat} {as as' : List Act} {ns ns' : List Node}

theorem mem (h : Numbered n as ns) {k : Node} (hk : k ∈ ns) {i : Nat} (hi : i ∈ k.ids) :
    n ≤ i ∧ i < n + (Act.made as).length := by
  have hmem := h.ids.subset (List.mem_flatMap.mpr ⟨k, hk, hi⟩)
  simpa [List.mem_range'_1] using hmem

theorem nodup (h : Numbered n as ns) : (ns.flatMap Node.ids).Nodup := by
  obtain ⟨is, hperm, hsub⟩ := h.ids
  exact hperm.nodup_iff.mp (.sublist hsub List.nodup_range')

theorem nil (as : List Act) : Numbered n as [] :=
  ⟨by simp, by simp, by simp⟩

theorem append (h : Numbered n as ns) (h' : Numbered (n + (Act.made as).length) as' ns') :
    Numbered n (as ++ as') (ns ++ ns') where
  ids := by
    rw [List.flatMap_append, Act.made_append, List.length_append, ← List.range'_append_1]
    exact h.ids.append h'.ids
  inOrder := List.forall_mem_append.mpr ⟨h.inOrder, h'.inOrder⟩
  operands k hk span i hi := by
    rw [Act.made_append]
    have hid := Node.ids_subset hi id_mem_ids
    rcases List.mem_append.mp hk with hk | hk
    · have hrange := h.mem hk hid
      rw [List.getElem?_append_left (by omega)]
      exact h.operands k hk span i hi
    · have hrange := h'.mem hk hid
      rw [List.getElem?_append_right (by omega), Nat.sub_sub]
      exact h'.operands k hk span i hi

theorem scope (h : Numbered n as ns) : Numbered n [.scope as] ns :=
  ⟨by simpa using h.ids, h.inOrder, by simpa using h.operands⟩

/-- Nodes that are left out or stand in another order. -/
theorem subperm (h : Numbered n as ns) (hns : ns'.Subperm ns) : Numbered n as ns' where
  ids := by
    obtain ⟨ms, hperm, hsub⟩ := hns
    exact (hperm.symm.flatMap_right _).subperm.trans ((hsub.flatMap _).subperm.trans h.ids)
  inOrder k hk := h.inOrder k (hns.subset hk)
  operands k hk := h.operands k (hns.subset hk)

theorem perm (h : Numbered n as ns) (hns : ns'.Perm ns) : Numbered n as ns' :=
  h.subperm hns.subperm

theorem of_children {k : Node} (hid : k.id? = none) (horder : k.InOrder)
    (hexpr : ∀ span i, k ≠ .expr (.ident span i)) (h : Numbered n as k.children) :
    Numbered n as [k] where
  ids := by
    rw [List.flatMap_singleton, ids_eq, hid]
    exact h.ids
  inOrder := by
    rintro _ (_ | ⟨_, ⟨⟩⟩) m hm
    rw [Descent.walk_eq] at hm
    rcases List.mem_cons.mp hm with rfl | hm
    · exact horder
    · obtain ⟨k', hk', hm⟩ := List.mem_flatMap.mp hm
      exact h.inOrder k' hk' m hm
  operands := by
    rintro _ (_ | ⟨_, ⟨⟩⟩) span i hi
    rw [Descent.walk_eq] at hi
    rcases List.mem_cons.mp hi with hi | hi
    · exact absurd hi.symm (hexpr span i)
    · obtain ⟨k', hk', hi⟩ := List.mem_flatMap.mp hi
      exact h.operands k' hk' span i hi

/-- An expression that is an identifier. -/
theorem ident {e : Event} (hmade : Act.made as = [e]) (he : e.isOperand = true) (span : Span) :
    Numbered n as [.expr (.ident span n)] where
  ids := by simp [ids_eq, id?, children, ofExpr, hmade, List.range'_one]
  inOrder := by
    rintro _ (_ | ⟨_, ⟨⟩⟩) m hm
    simp only [Descent.walk_eq, Descent.full, children, ofExpr, List.flatMap_cons, List.flatMap_nil,
      List.append_nil, List.mem_cons, List.not_mem_nil, or_false] at hm
    rcases hm with rfl | rfl <;> trivial
  operands := by
    rintro _ (_ | ⟨_, ⟨⟩⟩) span' i hi
    simp only [Descent.walk_eq, Descent.full, children, ofExpr, List.flatMap_cons, List.flatMap_nil,
      List.append_nil, List.mem_cons, List.not_mem_nil, or_false, reduceCtorEq, Node.expr.injEq,
      Expr.ident.injEq] at hi
    simp [hi.2, hmade, he]

/-- Identifiers that are no expressions. -/
theorem idents (span : Span) : Numbered n as
    ((List.range' n (Act.made as).length).map (.ident · span)) where
  ids := by
    have hids : ∀ i : Nat, (Node.ident i span).ids = [i] := by simp [ids_eq, id?, children]
    simp only [List.flatMap_map, hids, List.flatMap_singleton']
    exact .refl _
  inOrder k hk m hm := by
    obtain ⟨i, -, rfl⟩ := List.mem_map.mp hk
    simp only [Descent.walk_eq, Descent.full, children, List.flatMap_nil, List.mem_singleton] at hm
    rw [hm]
    trivial
  operands k hk span' i hi := by
    obtain ⟨j, -, rfl⟩ := List.mem_map.mp hk
    simp [Descent.walk_eq, Descent.full, children] at hi

/-- What acts give is numbered before what later acts give. -/
theorem before {m : Nat} (h : Numbered n as ns) (h' : Numbered m as' ns')
    (hm : n + (Act.made as).length ≤ m) {k k' : Node} (hk : k ∈ ns) (hk' : k' ∈ ns') :
    k.Before k' := by
  intro i hi j hj
  have hrange := h.mem hk hi
  have hrange' := h'.mem hk' hj
  omega

end Numbered

end Node

/-! ### Lists that follow part of another list -/

section SublistForall

variable {α β : Type} {R S : α → β → Prop} {as as' : List α} {bs bs' : List β}

theorem sublistForall_append (h : List.SublistForall₂ R as bs)
    (h' : List.SublistForall₂ R as' bs') :
    List.SublistForall₂ R (as ++ as') (bs ++ bs') := by
  obtain ⟨cs, hcs, hsub⟩ := List.sublistForall₂_iff.mp h
  obtain ⟨cs', hcs', hsub'⟩ := List.sublistForall₂_iff.mp h'
  exact List.sublistForall₂_iff.mpr ⟨cs ++ cs', List.rel_append hcs hcs', hsub.append hsub'⟩

theorem sublistForall_imp (hRS : ∀ a b, R a b → S a b) (h : List.SublistForall₂ R as bs) :
    List.SublistForall₂ S as bs := by
  induction h with
  | nil => exact .nil
  | cons hab _ ih => exact .cons (hRS _ _ hab) ih
  | cons_right _ ih => exact .cons_right ih

theorem sublistForall_trans (h : List.SublistForall₂ R as bs) (hbs : bs.Sublist bs') :
    List.SublistForall₂ R as bs' := by
  obtain ⟨cs, hcs, hsub⟩ := List.sublistForall₂_iff.mp h
  exact List.sublistForall₂_iff.mpr ⟨cs, hcs, hsub.trans hbs⟩

theorem sublistForall_sublist (h : List.SublistForall₂ R as bs) (has : as'.Sublist as) :
    List.SublistForall₂ R as' bs := by
  induction h generalizing as' with
  | nil =>
    rw [List.sublist_nil.mp has]
    exact .nil
  | cons hab _ ih =>
    cases has with
    | cons _ has => exact .cons_right (ih has)
    | cons_cons _ has => exact .cons hab (ih has)
  | cons_right _ ih => exact .cons_right (ih has)

/-- What follows part of an ordered list is ordered. -/
theorem sublistForall_pairwise {P : α → α → Prop} {Q : β → β → Prop}
    (hP : ∀ a a' b b', R a b → R a' b' → Q b b' → P a a') (h : List.SublistForall₂ R as bs)
    (hbs : bs.Pairwise Q) : as.Pairwise P := by
  obtain ⟨cs, hcs, hsub⟩ := List.sublistForall₂_iff.mp h
  have hpairwise := List.pairwise_iff_getElem.mp (hbs.sublist hsub)
  have hlength := hcs.length_eq
  refine List.pairwise_iff_getElem.mpr fun x y hx hy hxy => ?_
  exact hP _ _ _ _ (hcs.get hx (hlength ▸ hx)) (hcs.get hy (hlength ▸ hy))
    (hpairwise x y (hlength ▸ hx) (hlength ▸ hy) hxy)

end SublistForall

/-! ### Order of the words -/

namespace Node

/-- The identifier that acts make for a word, when identifiers are counted from `n` on. -/
def MadeFor (n : Nat) (as : List Act) (i : IdentId) (w : Word) : Prop :=
  ∃ j : Nat, i = n + j ∧ (Act.words as)[j]? = some w

/-- A walk over nodes that acts gave meets identifiers in the order of the given words. Some words
may have no identifier in the nodes. -/
def Spells (n : Nat) (as : List Act) (ns : List Node) (ws : List Word) : Prop :=
  List.SublistForall₂ (MadeFor n as) (ns.flatMap ids) ws

variable {n : Nat} {as as' : List Act}

theorem MadeFor.append_right {i : IdentId} {w : Word} (h : MadeFor n as i w) (as' : List Act) :
    MadeFor n (as ++ as') i w := by
  obtain ⟨j, rfl, hj⟩ := h
  refine ⟨j, rfl, ?_⟩
  rw [Act.words_append, List.getElem?_append_left (List.getElem?_eq_some_iff.mp hj).1, hj]

theorem MadeFor.append_left {i : IdentId} {w : Word}
    (h : MadeFor (n + (Act.made as).length) as' i w) :
    MadeFor n (as ++ as') i w := by
  obtain ⟨j, rfl, hj⟩ := h
  refine ⟨(Act.made as).length + j, Nat.add_assoc .., ?_⟩
  rw [Act.words_append, Act.length_made, List.getElem?_append_right (Nat.le_add_right ..),
    Nat.add_sub_cancel_left, hj]

namespace Spells

variable {ns ns' : List Node} {ws ws' : List Word}

theorem nil (as : List Act) (ws : List Word) : Spells n as [] ws :=
  List.SublistForall₂.nil

theorem append (h : Spells n as ns ws) (h' : Spells (n + (Act.made as).length) as' ns' ws') :
    Spells n (as ++ as') (ns ++ ns') (ws ++ ws') := by
  unfold Spells
  rw [List.flatMap_append]
  exact sublistForall_append (sublistForall_imp (fun _ _ h => h.append_right as') h)
    (sublistForall_imp (fun _ _ h => h.append_left) h')

/-- What takes effect first may stand second. -/
theorem swap (h : Spells n as ns ws) (h' : Spells (n + (Act.made as).length) as' ns' ws') :
    Spells n (as ++ as') (ns' ++ ns) (ws' ++ ws) := by
  unfold Spells
  rw [List.flatMap_append]
  exact sublistForall_append (sublistForall_imp (fun _ _ h => h.append_left) h')
    (sublistForall_imp (fun _ _ h => h.append_right as') h)

theorem scope (h : Spells n as ns ws) : Spells n [.scope as] ns ws :=
  sublistForall_imp (fun i w hi => by simpa [MadeFor] using hi) h

theorem of_children {k : Node} (hid : k.id? = none) (h : Spells n as k.children ws) :
    Spells n as [k] ws := by
  unfold Spells
  rwa [List.flatMap_singleton, ids_eq, hid]

/-- Identifiers one after the other, as acts make them. -/
theorem idents (span : Span) :
    Spells n as ((List.range' n (Act.made as).length).map (.ident · span)) (Act.words as) := by
  have hids : ∀ i : Nat, (Node.ident i span).ids = [i] := by simp [ids_eq, id?, children]
  unfold Spells
  simp only [List.flatMap_map, hids, List.flatMap_singleton']
  refine List.sublistForall₂_iff.mpr ⟨Act.words as, ?_, .refl _⟩
  refine List.forall₂_iff_get.mpr ⟨by simp [Act.length_made], fun j hj hj' => ⟨j, ?_, ?_⟩⟩
  · simp
  · simp

/-- An expression that is an identifier. -/
theorem ident {w : Word} (h : Act.words as = [w]) (span : Span) :
    Spells n as [.expr (.ident span n)] [w] := by
  have hids : [Node.expr (.ident span n)].flatMap ids = [n] := by
    simp [ids_eq, id?, children, ofExpr]
  unfold Spells
  rw [hids]
  exact .cons ⟨0, rfl, by simp [h]⟩ .nil

end Spells

/-- Nodes that acts gave: numbered as the acts count, and in the order of the given words. -/
structure Built (n : Nat) (as : List Act) (ns : List Node) (ws : List Word) : Prop extends
    Numbered n as ns where
  spells : Spells n as ns ws

namespace Built

variable {as'' : List Act} {ns ns' ns'' : List Node} {ws ws' ws'' : List Word}

theorem nil (as : List Act) (ws : List Word) : Built n as [] ws :=
  ⟨.nil as, .nil as ws⟩

theorem append (h : Built n as ns ws) (h' : Built (n + (Act.made as).length) as' ns' ws') :
    Built n (as ++ as') (ns ++ ns') (ws ++ ws') :=
  ⟨h.toNumbered.append h'.toNumbered, h.spells.append h'.spells⟩

/-- What takes effect first may stand second. -/
theorem swap (h : Built n as ns ws) (h' : Built (n + (Act.made as).length) as' ns' ws') :
    Built n (as ++ as') (ns' ++ ns) (ws' ++ ws) :=
  ⟨(h.toNumbered.append h'.toNumbered).perm List.perm_append_comm, h.spells.swap h'.spells⟩

theorem swap_append (h : Built n as ns ws) (h' : Built (n + (Act.made as).length) as' ns' ws')
    (h'' : Built (n + (Act.made as).length + (Act.made as').length) as'' ns'' ws'') :
    Built n (as ++ (as' ++ as'')) (ns' ++ ns ++ ns'') (ws' ++ ws ++ ws'') := by
  rw [← List.append_assoc]
  refine (h.swap h').append ?_
  rwa [Act.made_append, List.length_append, ← Nat.add_assoc]

theorem scope (h : Built n as ns ws) : Built n [.scope as] ns ws :=
  ⟨h.toNumbered.scope, h.spells.scope⟩

/-- Words that have no identifier. -/
theorem more (h : Built n as ns ws) (hws : ws.Sublist ws') : Built n as ns ws' :=
  ⟨h.toNumbered, sublistForall_trans h.spells hws⟩

/-- Nodes that are left out. -/
theorem fewer (h : Built n as ns ws) (hns : ns'.Sublist ns) : Built n as ns' ws :=
  ⟨h.toNumbered.subperm hns.subperm, sublistForall_sublist h.spells (hns.flatMap _)⟩

theorem of_children {k : Node} (hid : k.id? = none) (horder : k.InOrder)
    (hexpr : ∀ span i, k ≠ .expr (.ident span i)) (h : Built n as k.children ws) :
    Built n as [k] ws :=
  ⟨.of_children hid horder hexpr h.toNumbered, .of_children hid h.spells⟩

theorem expr {e : Expr} (hexpr : ∀ span i, e ≠ .ident span i) (h : Built n as (Node.ofExpr e) ws) :
    Built n as [.expr e] ws :=
  .of_children rfl trivial (by simpa using hexpr) h

theorem stmt {s : Stmt} (horder : (Node.stmt s).InOrder) (h : Built n as (Node.ofStmt s) ws) :
    Built n as [.stmt s] ws :=
  .of_children rfl horder (by simp) h

theorem block {b : Block} (horder : b.stmts.Pairwise fun s t => Before (.stmt s) (.stmt t))
    (h : Built n as (b.stmts.map .stmt) ws) : Built n as [.block b] ws :=
  .of_children rfl horder (by simp) h

/-- Identifiers one after the other, as acts make them. -/
theorem idents (span : Span) :
    Built n as ((List.range' n (Act.made as).length).map (.ident · span)) (Act.words as) :=
  ⟨.idents span, .idents span⟩

/-- An expression that is an identifier. -/
theorem ident {a : Act} {e : Event} {w : Word} (hevents : a.events = [e]) (he : e.isOperand = true)
    (hw : e.word? = some w) (span : Span) : Built n [a] [.expr (.ident span n)] [w] := by
  refine ⟨.ident (e := e) ?_ he span, .ident ?_ span⟩
  · simp [Act.made, hevents, Event.taking, hw]
  · simp [Act.words, hevents, Event.words, hw]

end Built

end Node

end NilGuard.Go
