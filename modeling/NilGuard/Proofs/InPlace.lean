import NilGuard.Proofs.Places

/-!
What runs in place, by places. The places of a node are all nodes at and below it with their paths.
A walk meets them in the order of their paths (`map_snd_places`, `places_pairwise`), and what runs
in place are those that no path through a function literal called at another time leads to
(`map_snd_running`). So the writes and the occurrences of a variable in a statement are told by the
paths to them, without a walk.
-/

namespace NilGuard

namespace Go

namespace Node

/-! ### Places -/

/-- The nodes at and below a node with their paths. -/
def places (n : Node) : List (List Nat × Node) :=
  ([], n) :: numbered 0 (n.children.attach.map fun ⟨m, _⟩ => m.places)
termination_by n.size
decreasing_by exact size_lt_of_mem_children (by assumption)

theorem places_eq (n : Node) : n.places = ([], n) :: numbered 0 (n.children.map places) := by
  rw [places]
  conv => rhs; rw [← List.attach_map_subtype_val n.children, List.map_map]
  rfl

theorem mem_places {n m : Node} {p : List Nat} : (p, m) ∈ n.places ↔ n.follow p = some m := by
  induction p generalizing n with
  | nil =>
    have hbelow : ([], m) ∉ numbered 0 (n.children.map places) := by
      intro h
      obtain ⟨_, _, _, hnil, -⟩ := mem_numbered.mp h
      cases hnil
    simp [places_eq, hbelow, eq_comm]
  | cons i p ih =>
    rw [places_eq, List.mem_cons, mem_numbered, follow_cons, Option.bind_eq_some_iff]
    simp only [← ih, List.getElem?_map, Option.map_eq_some_iff]
    constructor
    · rintro (h | ⟨j, q, l, hq, ⟨k, hk, rfl⟩, hmem⟩)
      · cases h
      · obtain ⟨rfl, rfl⟩ := List.cons.inj hq
        exact ⟨k, by simpa using hk, hmem⟩
    · rintro ⟨k, hk, hmem⟩
      exact .inr ⟨i, p, _, by simp, ⟨k, hk, rfl⟩, hmem⟩

theorem places_pairwise (n : Node) : n.places.Pairwise (·.1 < ·.1) := by
  rw [places_eq, List.pairwise_cons]
  constructor
  · rintro ⟨p, m⟩ h
    obtain ⟨i, q, -, rfl, -, -⟩ := mem_numbered.mp h
    exact List.nil_lt_cons ..
  · refine numbered_pairwise fun l hl => ?_
    obtain ⟨m, hm, rfl⟩ := List.mem_map.mp hl
    have := size_lt_of_mem_children hm
    exact places_pairwise m
termination_by n.size

/-- A walk meets the nodes in the order of their paths. -/
theorem map_snd_places (n : Node) : n.places.map (·.2) = Descent.full.walk n := by
  rw [places_eq, List.map_cons, map_snd_numbered, List.flatMap_map, Descent.walk_eq]
  congr 1
  refine List.flatMap_congr fun m hm => ?_
  have := size_lt_of_mem_children hm
  exact map_snd_places m
termination_by n.size

end Node

end Go

open Go

/-! ### What runs in place -/

/-- A call that runs at another time. -/
theorem exists_of_laterArgs? {s : Stmt} {args : List Expr} (h : laterArgs? s = some args) :
    ∃ span span' body, (Node.stmt s).children =
      [.expr (.call span (.closure span' body) args)] := by
  unfold laterArgs? at h
  split at h <;> cases h <;> exact ⟨_, _, _, rfl⟩

namespace Go.Node

/-- Whether a node is a statement that calls a function literal at another time. -/
def callsLater : Node → Bool
  | .stmt s => (laterArgs? s).isSome
  | _ => false

/-- Whether a path leads from a statement to the call that it is, to what is called, or further into
that. -/
def leadsToCallee : List Nat → Bool
  | [0] => true
  | 0 :: 0 :: _ => true
  | _ => false

/-- Whether a path leaves what runs in place. -/
def leaves : Node → List Nat → Bool
  | _, [] => false
  | n, i :: p => n.callsLater && leadsToCallee (i :: p) || n.children[i]?.any (leaves · p)

theorem leaves_iff {n : Node} {p : List Nat} : n.leaves p = true ↔ ∃ q r m, p = q ++ r ∧
    n.follow q = some m ∧ m.callsLater = true ∧ leadsToCallee r = true := by
  induction p generalizing n with
  | nil =>
    simp only [leaves, Bool.false_eq_true, false_iff]
    rintro ⟨q, r, m, hp, -, -, hr⟩
    obtain ⟨-, rfl⟩ := List.append_eq_nil_iff.mp hp.symm
    cases hr
  | cons i p ih =>
    rw [leaves, Bool.or_eq_true, Bool.and_eq_true, Option.any_eq_true]
    constructor
    · rintro (⟨hn, hp⟩ | ⟨k, hk, h⟩)
      · exact ⟨[], i :: p, n, rfl, rfl, hn, hp⟩
      · obtain ⟨q, r, m, rfl, hm, hlater, hr⟩ := ih.mp h
        exact ⟨i :: q, r, m, rfl, by simp [hk, hm], hlater, hr⟩
    · rintro ⟨q, r, m, hp, hm, hlater, hr⟩
      cases q with
      | nil =>
        cases hm
        exact .inl ⟨hlater, by simpa [hp] using hr⟩
      | cons j q =>
        obtain ⟨rfl, rfl⟩ := List.cons.inj hp
        obtain ⟨k, hk, hm⟩ := Option.bind_eq_some_iff.mp hm
        exact .inr ⟨k, hk, ih.mpr ⟨q, r, m, rfl, hm, hlater, hr⟩⟩

/-- The places that run in place. -/
def running (n : Node) : List (List Nat × Node) :=
  n.places.filter fun x => !n.leaves x.1

/-- The places below nodes that are numbered from `k`, where one test decides for each of them. -/
theorem map_snd_filter_numbered (keep : List Nat → Bool) {ns : List Node} {k : Nat}
    (h : ∀ i m, ns[i]? = some m → ∀ p, keep ((k + i) :: p) = !m.leaves p) :
    ((numbered k (ns.map places)).filter fun x => keep x.1).map (·.2)
      = ns.flatMap fun m => m.running.map (·.2) := by
  induction ns generalizing k with
  | nil => rfl
  | cons n ns ih =>
    have hhead : ∀ p, keep (k :: p) = !n.leaves p := h 0 n rfl
    have htail := ih (k := k + 1) fun i m hm p => by
      rw [← h (i + 1) m hm p, Nat.add_right_comm, Nat.add_assoc]
    rw [List.map_cons, numbered, List.filter_append, List.map_append, htail, List.flatMap_cons,
      List.filter_map, List.map_map]
    simp only [Function.comp_def, hhead, running]

theorem running_eq (n : Node) : n.running = ([], n) ::
    (numbered 0 (n.children.map places)).filter fun x => !n.leaves x.1 := by
  rw [running, places_eq, List.filter_cons_of_pos (by simp [leaves])]

theorem exists_of_callsLater {n : Node} (h : n.callsLater = true) :
    ∃ s args, n = .stmt s ∧ laterArgs? s = some args := by
  cases n with
  | stmt s =>
    obtain ⟨args, hargs⟩ := Option.isSome_iff_exists.mp h
    exact ⟨s, args, rfl, hargs⟩
  | _ => cases h

theorem next_inPlace_of_callsLater {n : Node} (h : n.callsLater = false) :
    inPlace.next n = n.children := by
  cases n with
  | stmt s =>
    have hargs : laterArgs? s = none := by simpa [callsLater] using h
    simp [inPlace, children, hargs]
  | _ => rfl

/-- Of a call that runs at another time only the arguments are entered. -/
theorem map_snd_running_later {s : Stmt} {args : List Expr} (h : laterArgs? s = some args) :
    ((numbered 0 ((Node.stmt s).children.map places)).filter fun x => !(Node.stmt s).leaves x.1).map
      (·.2)
      = (args.map Node.expr).flatMap fun m => m.running.map (·.2) := by
  obtain ⟨span, span', body, hchildren⟩ := exists_of_laterArgs? h
  have hlater : (Node.stmt s).callsLater = true := by simp [callsLater, h]
  have harg : ∀ i m, (args.map Node.expr)[i]? = some m → ∀ p,
      (!(Node.stmt s).leaves (0 :: (1 + i) :: p)) = !m.leaves p := by
    intro i m hm p
    have hchild : (Node.expr (.call span (.closure span' body) args)).children[1 + i]? =
        some m := by
      rw [children, ofExpr, Nat.add_comm, List.getElem?_cons_succ, hm]
    simp [leaves, hchildren, hchild, callsLater, leadsToCallee]
  have hclosure : ∀ p, (Node.stmt s).leaves (0 :: 0 :: p) = true := by
    simp [leaves, hlater, leadsToCallee]
  have hcall : (Node.stmt s).leaves [0] = true := by simp [leaves, hlater, leadsToCallee]
  rw [hchildren, List.map_singleton, places_eq, children, ofExpr, List.map_cons]
  rw [← map_snd_filter_numbered (fun p => !(Node.stmt s).leaves (0 :: p)) harg]
  simp [numbered, List.filter_map, Function.comp_def, hclosure, hcall]

/-- What runs in place is entered in the order of the paths. -/
theorem map_snd_running (n : Node) : n.running.map (·.2) = inPlace.walk n := by
  have ih : ∀ m ∈ inPlace.next n, m.running.map (·.2) = inPlace.walk m := by
    intro m hm
    have := inPlace.size_lt n m hm
    exact map_snd_running m
  rw [running_eq, List.map_cons, Descent.walk_eq, ← List.flatMap_congr ih]
  congr 1
  cases hlater : n.callsLater with
  | false =>
    rw [next_inPlace_of_callsLater hlater]
    exact map_snd_filter_numbered (fun p => !n.leaves p) fun i m hm p => by
      simp [leaves, hlater, hm]
  | true =>
    obtain ⟨s, args, rfl, hargs⟩ := exists_of_callsLater hlater
    have hnext : inPlace.next (.stmt s) = args.map Node.expr := by simp [inPlace, hargs]
    rw [hnext, map_snd_running_later hargs]
termination_by n.size

theorem mem_running {n m : Node} {p : List Nat} :
    (p, m) ∈ n.running ↔ n.follow p = some m ∧ n.leaves p = false := by
  simp [running, mem_places]

/-! ### Bodies of calls at another time -/

/-- A path leads into the body of a function literal that a statement on the way calls by `go` or
`defer`. The call is the first part of the statement, the literal is the first part of the call, and
the body is the first part of the literal. -/
def InLaterBody (n : Node) (p : List Nat) : Prop :=
  ∃ q span callSpan literalSpan body args, q ++ [0, 0, 0] <+: p ∧
    (n.At q (.stmt (.go span (.call callSpan (.closure literalSpan body) args))) ∨
      n.At q (.stmt (.defer span (.call callSpan (.closure literalSpan body) args))))

/-- Whether a node is a call or a function literal. -/
def isCallee : Node → Bool
  | .expr (.call ..) => true
  | .expr (.closure ..) => true
  | _ => false

theorem callsLater_iff {n : Node} : n.callsLater = true ↔ ∃ span callSpan literalSpan body args,
    n = .stmt (.go span (.call callSpan (.closure literalSpan body) args)) ∨
      n = .stmt (.defer span (.call callSpan (.closure literalSpan body) args)) := by
  constructor
  · intro h
    obtain ⟨s, args, rfl, hargs⟩ := exists_of_callsLater h
    unfold laterArgs? at hargs
    split at hargs <;> cases hargs
    · exact ⟨_, _, _, _, _, .inl rfl⟩
    · exact ⟨_, _, _, _, _, .inr rfl⟩
  · rintro ⟨span, callSpan, literalSpan, body, args, rfl | rfl⟩ <;> rfl

theorem follow_callee {n : Node} (h : n.callsLater = true) : ∃ callSpan literalSpan body args,
    n.follow [0] = some (.expr (.call callSpan (.closure literalSpan body) args)) ∧
      ∀ r, n.follow (0 :: 0 :: r) = (Node.expr (.closure literalSpan body)).follow r := by
  obtain ⟨span, callSpan, literalSpan, body, args, rfl | rfl⟩ := callsLater_iff.mp h
  · exact ⟨callSpan, literalSpan, body, args, rfl, fun _ => rfl⟩
  · exact ⟨callSpan, literalSpan, body, args, rfl, fun _ => rfl⟩

/-- A path to the callee of a call at another time leads to the call, to the literal, or into its
body. -/
theorem isPrefix_of_leadsToCallee {n m : Node} {r : List Nat} (hn : n.callsLater = true)
    (hr : leadsToCallee r = true) (hm : n.follow r = some m) (hcallee : m.isCallee = false) :
    [0, 0, 0] <+: r := by
  obtain ⟨callSpan, literalSpan, body, args, hcall, hliteral⟩ := follow_callee hn
  unfold leadsToCallee at hr
  split at hr
  · rw [hcall] at hm
    cases hm
    cases hcallee
  · next r =>
    rw [hliteral] at hm
    cases r with
    | nil =>
      cases hm
      cases hcallee
    | cons i r =>
      -- the body is the only part of the literal
      obtain ⟨k, hk, -⟩ := Option.bind_eq_some_iff.mp hm
      obtain ⟨hi, -⟩ := List.getElem?_eq_some_iff.mp hk
      obtain rfl : i = 0 := by simpa [children, ofExpr] using hi
      exact ⟨r, rfl⟩
  · cases hr

theorem leaves_iff_inLaterBody {n m : Node} {p : List Nat} (hm : n.follow p = some m)
    (hcallee : m.isCallee = false) : n.leaves p = true ↔ n.InLaterBody p := by
  rw [leaves_iff]
  constructor
  · rintro ⟨q, r, k, rfl, hk, hlater, hr⟩
    rw [follow_append, hk, Option.bind_some] at hm
    have hbody := isPrefix_of_leadsToCallee hlater hr hm hcallee
    obtain ⟨span, callSpan, literalSpan, body, args, hk'⟩ := callsLater_iff.mp hlater
    refine ⟨q, span, callSpan, literalSpan, body, args, (List.prefix_append_right_inj q).mpr hbody,
      ?_⟩
    rcases hk' with rfl | rfl
    · exact .inl (at_iff.mpr hk)
    · exact .inr (at_iff.mpr hk)
  · rintro ⟨q, span, callSpan, literalSpan, body, args, ⟨r, rfl⟩, hq⟩
    have hlater : ∃ k, n.follow q = some k ∧ k.callsLater = true := by
      rcases hq with hq | hq
      · exact ⟨_, at_iff.mp hq, rfl⟩
      · exact ⟨_, at_iff.mp hq, rfl⟩
    obtain ⟨k, hk, hlater⟩ := hlater
    exact ⟨q, 0 :: 0 :: 0 :: r, k, by simp, hk, hlater, rfl⟩

/-- A node that is no call and no literal runs in place unless it is in the body of a call at
another time. -/
theorem mem_running_iff {n m : Node} {p : List Nat} (hcallee : m.isCallee = false) :
    (p, m) ∈ n.running ↔ n.At p m ∧ ¬ n.InLaterBody p := by
  rw [mem_running, ← Bool.not_eq_true, at_iff]
  refine and_congr_right fun hm => not_congr ?_
  exact leaves_iff_inLaterBody hm hcallee

end Go.Node

/-! ### Uses of a variable -/

/-- A node by itself writes a variable: it assigns to it, or takes its address. -/
inductive WritesAt (f : File) (b : BindingId) : Node → Prop where
  | assign {span : Span} {op : AssignOp} {targets values : List Expr} {targetSpan : Span}
      {i : IdentId} (htarget : .ident targetSpan i ∈ targets) (hi : f.refersTo i b = true) :
      WritesAt f b (.stmt (.assign span op targets values))
  | address {span operandSpan : Span} {i : IdentId} (hi : f.refersTo i b = true) :
      WritesAt f b (.expr (.unary span .addr (.ident operandSpan i)))

theorem WritesAt.isCallee_eq {f : File} {b : BindingId} {n : Node} (h : WritesAt f b n) :
    n.isCallee = false := by
  cases h <;> rfl

theorem isVariable_iff {f : File} {b : BindingId} {e : Expr} :
    isVariable f b e = true ↔ ∃ span i, e = .ident span i ∧ f.refersTo i b = true := by
  cases e <;> simp [isVariable]

theorem writesHere_iff {f : File} {b : BindingId} {n : Node} : writesHere f b n = true ↔
    WritesAt f b n := by
  constructor
  · intro h
    unfold writesHere at h
    split at h
    · obtain ⟨e, he, hvariable⟩ := List.any_eq_true.mp h
      obtain ⟨span, i, rfl, hi⟩ := isVariable_iff.mp hvariable
      exact .assign he hi
    · obtain ⟨span, i, rfl, hi⟩ := isVariable_iff.mp h
      exact .address hi
    · cases h
  · intro h
    cases h with
    | assign htarget hi => exact List.any_eq_true.mpr ⟨_, htarget, hi⟩
    | address hi => exact hi

theorem occurrence?_eq_some {f : File} {b : BindingId} {n : Node} {i : IdentId} :
    occurrence? f b n = some i ↔ (∃ span, n = .ident i span) ∧ f.refersTo i b = true := by
  constructor
  · intro h
    unfold occurrence? at h
    split at h
    · next j span =>
      split at h
      · next hj =>
        cases h
        exact ⟨⟨span, rfl⟩, hj⟩
      · cases h
    · cases h
  · rintro ⟨⟨span, rfl⟩, hi⟩
    simp [occurrence?, hi]

theorem writes_iff {f : File} {b : BindingId} {s : Stmt} : writes f b s = true ↔
    ∃ p n, (p, n) ∈ (Node.stmt s).running ∧ WritesAt f b n := by
  rw [writes, ← Node.map_snd_running, List.any_map, List.any_eq_true]
  simp only [Prod.exists, Function.comp_apply, writesHere_iff]

/-- The occurrences of a variable with their paths. -/
def occurrencesAt (f : File) (b : BindingId) (s : Stmt) : List (List Nat × IdentId) :=
  (Node.stmt s).running.filterMap fun x => (occurrence? f b x.2).map (x.1, ·)

theorem mem_occurrencesAt {f : File} {b : BindingId} {s : Stmt} {p : List Nat} {i : IdentId} :
    (p, i) ∈ occurrencesAt f b s ↔
      (∃ span, (p, .ident i span) ∈ (Node.stmt s).running) ∧ f.refersTo i b = true := by
  simp only [occurrencesAt, List.mem_filterMap, Prod.exists, Option.map_eq_some_iff, Prod.mk.injEq,
    occurrence?_eq_some]
  constructor
  · rintro ⟨p, n, hn, i, ⟨⟨span, rfl⟩, hi⟩, rfl, rfl⟩
    exact ⟨⟨span, hn⟩, hi⟩
  · rintro ⟨⟨span, hn⟩, hi⟩
    exact ⟨p, _, hn, i, ⟨⟨span, rfl⟩, hi⟩, rfl, rfl⟩

theorem map_snd_occurrencesAt (f : File) (b : BindingId) (s : Stmt) :
    (occurrencesAt f b s).map (·.2) = occurrences f b s := by
  rw [occurrences, ← Node.map_snd_running, List.filterMap_map, occurrencesAt, List.map_filterMap]
  simp [Function.comp_def]

theorem occurrencesAt_pairwise (f : File) (b : BindingId) (s : Stmt) :
    (occurrencesAt f b s).Pairwise (·.1 < ·.1) := by
  have hrunning : (Node.stmt s).running.Pairwise (·.1 < ·.1) := (Node.places_pairwise _).filter _
  refine hrunning.filterMap _ fun x y hxy x' hx' y' hy' => ?_
  obtain ⟨i, -, rfl⟩ := Option.map_eq_some_iff.mp hx'
  obtain ⟨j, -, rfl⟩ := Option.map_eq_some_iff.mp hy'
  exact hxy

/-- What a statement writes and reads in place. A walk meets the nodes of the statement in the order
of their paths. A variable is written exactly when, at a path that leads into no body of a call at
another time, there is an assignment to it or its address is taken. Its occurrences are those of its
identifiers that such paths lead to, in the order of the paths. -/
theorem uses_in_place (f : File) (b : BindingId) (s : Stmt) :
    (∃ all : List (List Nat × Node), all.map (·.2) = Descent.full.walk (.stmt s) ∧
      all.Pairwise (·.1 < ·.1) ∧ ∀ p n, (p, n) ∈ all ↔ (Node.stmt s).At p n) ∧
    (writes f b s = true ↔ ∃ p n, (Node.stmt s).At p n ∧ ¬ (Node.stmt s).InLaterBody p ∧
      WritesAt f b n) ∧
    ∃ ps : List (List Nat × IdentId), occurrences f b s = ps.map (·.2) ∧
      ps.Pairwise (·.1 < ·.1) ∧
      ∀ p i, (p, i) ∈ ps ↔ (∃ span, (Node.stmt s).At p (.ident i span)) ∧
        f.refersTo i b = true ∧ ¬ (Node.stmt s).InLaterBody p := by
  refine ⟨⟨_, Node.map_snd_places _, Node.places_pairwise _, fun p n => ?_⟩, ?_,
    occurrencesAt f b s, (map_snd_occurrencesAt f b s).symm, occurrencesAt_pairwise f b s,
    fun p i => ?_⟩
  · rw [Node.mem_places, Node.at_iff]
  · rw [writes_iff]
    constructor
    · rintro ⟨p, n, hn, hwrites⟩
      obtain ⟨hat, hbody⟩ := (Node.mem_running_iff hwrites.isCallee_eq).mp hn
      exact ⟨p, n, hat, hbody, hwrites⟩
    · rintro ⟨p, n, hat, hbody, hwrites⟩
      exact ⟨p, n, (Node.mem_running_iff hwrites.isCallee_eq).mpr ⟨hat, hbody⟩, hwrites⟩
  · rw [mem_occurrencesAt]
    constructor
    · rintro ⟨⟨span, hn⟩, hi⟩
      obtain ⟨hat, hbody⟩ := (Node.mem_running_iff rfl).mp hn
      exact ⟨⟨span, hat⟩, hi, hbody⟩
    · rintro ⟨⟨span, hat⟩, hi, hbody⟩
      exact ⟨⟨span, (Node.mem_running_iff rfl).mpr ⟨hat, hbody⟩⟩, hi⟩

end NilGuard
