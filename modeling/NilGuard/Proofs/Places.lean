import Mathlib.Data.List.Basic
import Mathlib.Data.List.Lex
import NilGuard.Finding
import NilGuard.Proofs.Parts

/-!
Places in a tree. A node stands at a path from the top of its file, the numbers of the parts to
take; a node comes before another in the order of a walk when its path is smaller in the order of a
dictionary.

The blocks that are searched for guards are all blocks of the file except the bodies of cases
(`File.Scans`). The search lists them in the order of their paths: `File.sites` is that list with
the paths written out (`map_snd_sites`, `mem_sites`, `sites_pairwise`).
-/

namespace NilGuard.Go

namespace Node

def block? : Node → Option Block
  | .block b => some b
  | _ => none

def isClause : Node → Bool
  | .clause _ => true
  | _ => false

theorem block?_eq_some {n : Node} {b : Block} : n.block? = some b ↔ n = .block b := by
  cases n <;> simp [block?]

theorem isClause_iff {n : Node} : n.isClause = true ↔ ∃ c, n = .clause c := by
  cases n <;> simp [isClause]

end Node

/-! ### Paths in a list of lists -/

/-- Puts the number of its list, counted from `k`, in front of every path. -/
def numbered (k : Nat) : List (List (List Nat × β)) → List (List Nat × β)
  | [] => []
  | l :: ls => l.map (fun x => (k :: x.1, x.2)) ++ numbered (k + 1) ls

/-- The paths of numbered lists begin with the number of the list. -/
theorem mem_numbered {k : Nat} {ls : List (List (List Nat × β))} {p : List Nat} {b : β} :
    (p, b) ∈ numbered k ls ↔ ∃ i q l, p = (k + i) :: q ∧ ls[i]? = some l ∧ (q, b) ∈ l := by
  induction ls generalizing k with
  | nil => simp [numbered]
  | cons l ls ih =>
    simp only [numbered, List.mem_append, List.mem_map, Prod.mk.injEq, Prod.exists, ih]
    constructor
    · rintro (⟨q, b', hq, rfl, rfl⟩ | ⟨i, q, l', rfl, hl, hq⟩)
      · exact ⟨0, q, l, rfl, rfl, hq⟩
      · exact ⟨i + 1, q, l', by rw [Nat.add_right_comm, Nat.add_assoc], hl, hq⟩
    · rintro ⟨i, q, l', rfl, hl, hq⟩
      cases i with
      | zero =>
        simp only [List.getElem?_cons_zero, Option.some.injEq] at hl
        subst hl
        exact .inl ⟨q, b, hq, rfl, rfl⟩
      | succ i => exact .inr ⟨i, q, l', by rw [Nat.add_right_comm, Nat.add_assoc], hl, hq⟩

theorem map_snd_numbered (k : Nat) (ls : List (List (List Nat × β))) :
    (numbered k ls).map (·.2) = ls.flatMap (·.map (·.2)) := by
  induction ls generalizing k with
  | nil => rfl
  | cons l ls ih => simp [numbered, ih, Function.comp_def]

/-- With the number in front, paths are in order if they are in each of the lists. -/
theorem numbered_pairwise {k : Nat} {ls : List (List (List Nat × β))}
    (h : ∀ l ∈ ls, l.Pairwise (·.1 < ·.1)) : (numbered k ls).Pairwise (·.1 < ·.1) := by
  induction ls generalizing k with
  | nil => exact .nil
  | cons l ls ih =>
    refine List.pairwise_append.mpr ⟨?_, ih fun l' hl' => h l' (List.mem_cons_of_mem _ hl'), ?_⟩
    · refine (h l List.mem_cons_self).map _ fun x y hxy => ?_
      exact List.cons_lt_cons_self.mpr hxy
    · rintro x hx ⟨p, b⟩ hy
      obtain ⟨⟨q, b'⟩, -, rfl⟩ := List.mem_map.mp hx
      obtain ⟨i, r, -, rfl, -, -⟩ := mem_numbered.mp hy
      exact List.cons_lt_cons_iff.mpr (.inl (by omega))

/-! ### Searched blocks below a node -/

namespace Node

/-- The searched blocks at and below a node with their paths. -/
def sites (n : Node) : List (List Nat × Block) :=
  n.block?.toList.map (([], ·)) ++ numbered 0 (n.children.attach.map fun ⟨m, _⟩ =>
    if n.isClause then m.sites.filter (·.1 ≠ []) else m.sites)
termination_by n.size
decreasing_by all_goals exact size_lt_of_mem_children (by assumption)

/-- The searched blocks below a node. The body of a case is not one of them. -/
def sitesBelow (n : Node) : List (List Nat × Block) :=
  numbered 0 (n.children.map fun m =>
    if n.isClause then m.sites.filter (·.1 ≠ []) else m.sites)

theorem sites_eq (n : Node) : n.sites = n.block?.toList.map (([], ·)) ++ n.sitesBelow := by
  rw [sites, sitesBelow]
  conv => rhs; rw [← List.attach_map_subtype_val n.children, List.map_map]
  rfl

theorem ne_nil_of_mem_sitesBelow {n : Node} {x : List Nat × Block} (h : x ∈ n.sitesBelow) :
    x.1 ≠ [] := by
  obtain ⟨i, q, -, hx, -, -⟩ := mem_numbered.mp h
  simp [hx]

/-- Leaving out the node itself leaves what is below it. -/
theorem filter_sites (n : Node) : n.sites.filter (·.1 ≠ []) = n.sitesBelow := by
  rw [sites_eq, List.filter_append, List.filter_eq_nil_iff.mpr, List.nil_append,
    List.filter_eq_self]
  · intro x hx
    simpa using ne_nil_of_mem_sitesBelow hx
  · intro x hx
    obtain ⟨b, -, rfl⟩ := List.mem_map.mp hx
    simp

/-- A searched block below a node is one of a child. Of a case it is not the body itself. -/
theorem cons_mem_sites {n : Node} {i : Nat} {q : List Nat} {b : Block} :
    (i :: q, b) ∈ n.sites ↔
      ∃ m, n.children[i]? = some m ∧ (q, b) ∈ m.sites ∧ (n.isClause → q ≠ []) := by
  rw [sites_eq, sitesBelow, List.mem_append, mem_numbered]
  constructor
  · rintro (h | ⟨j, q', l, hq, hl, hmem⟩)
    · simp at h
    · obtain ⟨rfl, rfl⟩ : i = 0 + j ∧ q = q' := by simpa using hq
      rw [List.getElem?_map, Option.map_eq_some_iff] at hl
      obtain ⟨m, hm, rfl⟩ := hl
      rw [Nat.zero_add]
      refine ⟨m, hm, ?_⟩
      split at hmem
      · rw [List.mem_filter] at hmem
        exact ⟨hmem.1, fun _ => by simpa using hmem.2⟩
      · next h => exact ⟨hmem, fun h' => absurd h' h⟩
  · rintro ⟨m, hm, hq, hn⟩
    refine .inr ⟨i, q, _, by rw [Nat.zero_add], by rw [List.getElem?_map, hm]; rfl, ?_⟩
    split
    · next h => exact List.mem_filter.mpr ⟨hq, by simpa using hn h⟩
    · exact hq

/-- The sites of a tree are the blocks in it, without those that are the body of a case. -/
theorem mem_sites {n : Node} {p : List Nat} {b : Block} :
    (p, b) ∈ n.sites ↔
      n.follow p = some (.block b) ∧ (p ≠ [] → ∀ c, n.follow p.dropLast ≠ some (.clause c)) := by
  induction p generalizing n with
  | nil =>
    have hbelow : ([], b) ∉ n.sitesBelow := fun h => ne_nil_of_mem_sitesBelow h rfl
    simp [sites_eq, hbelow, block?_eq_some]
  | cons i q ih =>
    rw [cons_mem_sites]
    constructor
    · rintro ⟨m, hm, hq, hn⟩
      obtain ⟨hfollow, hparent⟩ := ih.mp hq
      refine ⟨by simpa [hm] using hfollow, fun _ c => ?_⟩
      cases q with
      | nil =>
        rw [List.dropLast_singleton, follow_nil]
        rintro ⟨rfl⟩
        exact hn rfl rfl
      | cons j q => simpa [hm] using hparent (by simp) c
    · rintro ⟨hfollow, hparent⟩
      rw [follow_cons, Option.bind_eq_some_iff] at hfollow
      obtain ⟨m, hm, hfollow⟩ := hfollow
      refine ⟨m, hm, ih.mpr ⟨hfollow, fun hq c => ?_⟩, fun hn hq => ?_⟩
      · have := hparent (by simp) c
        rwa [List.dropLast_cons_of_ne_nil hq, follow_cons, hm, Option.bind_some] at this
      · subst hq
        obtain ⟨c, rfl⟩ := isClause_iff.mp hn
        exact hparent (by simp) c rfl

theorem sites_pairwise (n : Node) : n.sites.Pairwise (·.1 < ·.1) := by
  rw [sites_eq, List.pairwise_append]
  refine ⟨?_, ?_, ?_⟩
  · cases n.block? <;> simp
  · refine numbered_pairwise fun l hl => ?_
    obtain ⟨m, hm, rfl⟩ := List.mem_map.mp hl
    have := size_lt_of_mem_children hm
    split
    · exact (sites_pairwise m).filter _
    · exact sites_pairwise m
  · intro x hx y hy
    obtain ⟨b, -, rfl⟩ := List.mem_map.mp hx
    obtain ⟨i, q, -, hy, -, -⟩ := mem_numbered.mp hy
    rw [hy]
    exact List.nil_lt_cons ..
termination_by n.size

/-- A part of a case that is not its body is searched as a whole; of the body only the statements
are. -/
theorem map_snd_sites_of_mem_clause {values : List Expr} {comm : Option Stmt} {body : Block}
    (ih : ∀ m ∈ children (.clause (.mk values comm body)),
      m.sites.map (·.2) = (scanned.walk m).filterMap block?) :
    (Node.clause (.mk values comm body)).sitesBelow.map (·.2) =
      ((scanned.next (.clause (.mk values comm body))).flatMap scanned.walk).filterMap block? := by
  have hpart : ∀ m ∈ children (.clause (.mk values comm body)), m.block? = none →
      (m.sites.filter (·.1 ≠ [])).map (·.2) = (scanned.walk m).filterMap block? := by
    intro m hm hnone
    rw [filter_sites, ← ih m hm, sites_eq m, hnone]
    rfl
  have hbody : ((Node.block body).sites.filter (·.1 ≠ [])).map (·.2)
      = ((ofBlock body).flatMap scanned.walk).filterMap block? := by
    have h := ih (.block body) (by simp [children])
    rw [sites_eq, scanned.walk_eq] at h
    rw [filter_sites]
    simpa [block?, scanned, children] using h
  rw [sitesBelow, map_snd_numbered, List.flatMap_map]
  simp only [isClause, if_true, scanned, children, List.flatMap_append, List.flatMap_singleton,
    List.filterMap_append, hbody]
  congr 1
  rw [← List.flatMap_append, ← List.filterMap_append, ← List.flatMap_append,
    List.filterMap_flatMap]
  refine List.flatMap_congr fun m hm => hpart m (List.mem_append_left _ hm) ?_
  rcases List.mem_append.mp hm with hm | hm <;> obtain ⟨_, -, rfl⟩ := List.mem_map.mp hm <;> rfl

/-- The search meets the blocks in the order of their paths. -/
theorem map_snd_sites (n : Node) : n.sites.map (·.2) = (scanned.walk n).filterMap block? := by
  have ih : ∀ m ∈ n.children, m.sites.map (·.2) = (scanned.walk m).filterMap block? := by
    intro m hm
    have := size_lt_of_mem_children hm
    exact map_snd_sites m
  have hbelow : n.sitesBelow.map (·.2) =
      ((scanned.next n).flatMap scanned.walk).filterMap block? := by
    cases n with
    | clause c =>
      obtain ⟨values, comm, body⟩ := c
      exact map_snd_sites_of_mem_clause ih
    | _ =>
      rw [sitesBelow, map_snd_numbered, List.flatMap_map, List.filterMap_flatMap]
      exact List.flatMap_congr ih
  rw [sites_eq, List.map_append, hbelow, scanned.walk_eq, List.filterMap_cons]
  cases n <;> rfl
termination_by n.size

end Node

/-! ### Searched blocks of a file -/

namespace File

/-- A block of the tree, wherever it is, that is not the body of a case. -/
def Scans (f : File) (path : List Nat) (b : Block) : Prop :=
  f.At path (.block b) ∧ ∀ c, ¬ f.At path.dropLast (.clause c)

theorem scans_iff {f : File} {path : List Nat} {b : Block} : f.Scans path b ↔
    f.follow path = some (.block b) ∧ ∀ c, f.follow path.dropLast ≠ some (.clause c) := by
  simp only [Scans, at_iff, ne_eq]

theorem Scans.follow_eq {f : File} {path : List Nat} {b : Block} (h : f.Scans path b) :
    f.follow path = some (.block b) :=
  at_iff.mp h.1

/-- The searched blocks with their paths. -/
def sites (f : File) : List (List Nat × Block) :=
  numbered 0 (f.decls.map fun d => d.root?.toList.flatMap Node.sites)

theorem mem_sites {f : File} {p : List Nat} {b : Block} : (p, b) ∈ f.sites ↔ f.Scans p b := by
  rw [sites, mem_numbered, scans_iff]
  constructor
  · rintro ⟨i, q, l, rfl, hl, hq⟩
    rw [List.getElem?_map, Option.map_eq_some_iff] at hl
    obtain ⟨d, hd, rfl⟩ := hl
    obtain ⟨n, hn, hq⟩ := List.mem_flatMap.mp hq
    have htree : f.tree? i = some n := by rw [tree?, hd, Option.bind_some, Option.mem_toList.mp hn]
    obtain ⟨hfollow, hparent⟩ := Node.mem_sites.mp hq
    rw [Nat.zero_add]
    refine ⟨by simp [follow, htree, hfollow], fun c => ?_⟩
    cases q with
    | nil => simp [follow]
    | cons j q => simpa [follow, htree] using hparent (by simp) c
  · rintro ⟨hfollow, hparent⟩
    cases p with
    | nil => simp [follow] at hfollow
    | cons i q =>
      rw [follow, Option.bind_eq_some_iff] at hfollow
      obtain ⟨n, htree, hfollow⟩ := hfollow
      obtain ⟨d, hd, hn⟩ := Option.bind_eq_some_iff.mp htree
      refine ⟨i, q, _, by rw [Nat.zero_add], by rw [List.getElem?_map, hd]; rfl, ?_⟩
      refine List.mem_flatMap.mpr ⟨n, Option.mem_toList.mpr hn, Node.mem_sites.mpr ⟨hfollow, ?_⟩⟩
      intro hq c
      have := hparent c
      rwa [List.dropLast_cons_of_ne_nil hq, follow, htree, Option.bind_some] at this

theorem sites_pairwise (f : File) : f.sites.Pairwise (·.1 < ·.1) := by
  refine numbered_pairwise fun l hl => ?_
  obtain ⟨d, -, rfl⟩ := List.mem_map.mp hl
  cases d.root? with
  | none => exact .nil
  | some n => simpa using n.sites_pairwise

theorem map_snd_sites (f : File) : f.sites.map (·.2) = scannedBlocks f := by
  have hroots : f.roots = f.decls.flatMap (·.root?.toList) := List.filterMap_eq_flatMap_toList ..
  rw [sites, map_snd_numbered, List.flatMap_map, scannedBlocks, hroots, List.flatMap_assoc,
    List.filterMap_flatMap]
  refine List.flatMap_congr fun d _ => ?_
  rw [List.map_flatMap, List.filterMap_flatMap]
  refine List.flatMap_congr fun n _ => ?_
  rw [n.map_snd_sites]
  refine List.filterMap_congr fun m _ => ?_
  cases m <;> rfl

end File

end NilGuard.Go
