import Mathlib.Data.List.Forall2
import NilGuard.Go.Grammar.File
import NilGuard.Proofs.Renaming

/-!
What a reader of tokens takes, and how it takes renamed tokens. `Tracks` says two things of a reader
at once: on renamed tokens it gives the renamed result, or fails where it failed before; and what it
takes and gives is as a predicate says. `Covers` is the predicate for words: the words of a tree
stand among the tokens it was read from, in their order, each on tokens of its own.
-/

namespace NilGuard.Go.Surface

/-! ### Words among tokens -/

/-- A span from one of some tokens up to the end of it or of a later one. -/
def SpansIn (ts : List Token) (s : Span) : Prop :=
  ∃ before first rest, ts = before ++ first :: rest ∧ ∃ last ∈ first :: rest,
    s = first.span.upTo last.span

namespace SpansIn

variable {ts ts' : List Token} {s s' : Span}

theorem single (t : Token) : SpansIn [t] t.span :=
  ⟨[], t, [], rfl, t, List.mem_singleton_self t, rfl⟩

theorem append_right (h : SpansIn ts s) (ts' : List Token) : SpansIn (ts ++ ts') s := by
  obtain ⟨before, first, rest, rfl, last, hlast, rfl⟩ := h
  exact ⟨before, first, rest ++ ts', by simp, last, List.mem_append_left ts' hlast, rfl⟩

theorem append_left (h : SpansIn ts s) (ts' : List Token) : SpansIn (ts' ++ ts) s := by
  obtain ⟨before, first, rest, rfl, last, hlast, rfl⟩ := h
  exact ⟨ts' ++ before, first, rest, by simp, last, hlast, rfl⟩

/-- A span from one part to a later one is among the tokens of both. -/
theorem upTo (h : SpansIn ts s) (h' : SpansIn ts' s') : SpansIn (ts ++ ts') (s.upTo s') := by
  obtain ⟨before, first, rest, rfl, last, hlast, rfl⟩ := h
  obtain ⟨before', first', rest', rfl, last', hlast', rfl⟩ := h'
  refine ⟨before, first, rest ++ (before' ++ first' :: rest'), by simp, last', ?_, rfl⟩
  exact List.mem_append_right (first :: rest) (List.mem_append_right before' hlast')

/-- Tokens that are read between two spans do not count. -/
theorem upTo_skip (h : SpansIn ts s) (mid : List Token) (h' : SpansIn ts' s') :
    SpansIn (ts ++ (mid ++ ts')) (s.upTo s') :=
  h.upTo (h'.append_left mid)

end SpansIn

/-- The words stand among the tokens in their order. A word is one token, a name that is no literal
unless it is declared, or it is declared by several tokens, and then `text` says how it is
spelled. -/
inductive Covers (text : Span → String) : List Token → List Word → Prop where
  | nil : Covers text [] []
  | skip (t : Token) {ts : List Token} {ws : List Word} (h : Covers text ts ws) :
      Covers text (t :: ts) ws
  | word (t : Token) (role : Role)
      (ht : t.kind = .name ∧ t.text ∉ ["true", "false", "iota"] ∨ role = .declared)
      {ts : List Token}
      {ws : List Word} (h : Covers text ts ws) :
      Covers text (t :: ts) (⟨role, t.text, t.span⟩ :: ws)
  | several (group : List Token) (s : Span) (hs : SpansIn group s) {ts : List Token}
      {ws : List Word} (h : Covers text ts ws) :
      Covers text (group ++ ts) (⟨.declared, text s, s⟩ :: ws)

namespace Covers

variable {text : Span → String} {ts ts' : List Token} {ws ws' : List Word}

theorem append (h : Covers text ts ws) (h' : Covers text ts' ws') :
    Covers text (ts ++ ts') (ws ++ ws') := by
  induction h with
  | nil => exact h'
  | skip t _ ih => exact .skip t ih
  | word t role ht _ ih => exact .word t role ht ih
  | several group s hs _ ih => rw [List.append_assoc]; exact .several group s hs ih

/-- Tokens without words. -/
theorem none (ts : List Token) : Covers text ts [] := by
  induction ts with
  | nil => exact .nil
  | cons t ts ih => exact .skip t ih

theorem skip_left (h : Covers text ts ws) (before : List Token) : Covers text (before ++ ts) ws :=
  (none before).append h

theorem skip_right (h : Covers text ts ws) (after : List Token) : Covers text (ts ++ after) ws := by
  simpa using h.append (none after)

theorem sublist (h : Covers text ts ws) (hsub : ws'.Sublist ws) : Covers text ts ws' := by
  induction h generalizing ws' with
  | nil => rw [List.sublist_nil.mp hsub]; exact .nil
  | skip t _ ih => exact .skip t (ih hsub)
  | word t role ht _ ih =>
    cases hsub with
    | cons _ hsub => exact .skip t (ih hsub)
    | cons_cons _ hsub => exact .word t role ht (ih hsub)
  | several group s hs _ ih =>
    cases hsub with
    | cons _ hsub => exact (ih hsub).skip_left group
    | cons_cons _ hsub => exact .several group s hs (ih hsub)

/-- A word that is used may be given another role. -/
def Recast (w w' : Word) : Prop :=
  w = w' ∨ w.role = .value ∧ w.name = w'.name

theorem recast (h : Covers text ts ws) (hws : List.Forall₂ Recast ws ws') : Covers text ts ws' := by
  induction h generalizing ws' with
  | nil => cases hws; exact .nil
  | skip t _ ih => exact .skip t (ih hws)
  | word t role ht _ ih =>
    cases hws with
    | @cons _ w' _ _ hw hws =>
      rcases hw with rfl | ⟨hrole, hname⟩
      · exact .word t role ht (ih hws)
      · obtain ⟨role', name⟩ := w'
        obtain rfl := hname
        refine .word t role' (.inl ?_) (ih hws)
        rcases ht with ht | rfl
        · exact ht
        · cases hrole
  | several group s hs _ ih =>
    cases hws with
    | cons hw hws =>
      rcases hw with rfl | ⟨hrole, -⟩
      · exact .several group s hs (ih hws)
      · cases hrole

/-- The first word may be given another role when it is used. -/
theorem recast_head {n : Name} (h : Covers text ts (⟨.value, n⟩ :: ws)) (role : Role) :
    Covers text ts (⟨role, n⟩ :: ws) :=
  h.recast (.cons (.inr ⟨rfl, rfl⟩) (List.forall₂_same.mpr fun _ _ => .inl rfl))

end Covers

/-! ### Items among tokens -/

/-- Items that were read one after the other, each from tokens as `Q` says, with other tokens
between them. -/
inductive Pieces {α : Type} (Q : List Token → α → Prop) : List Token → List α → Prop where
  | nil : Pieces Q [] []
  | skip (t : Token) {ts : List Token} {as : List α} (h : Pieces Q ts as) : Pieces Q (t :: ts) as
  | cons {used ts : List Token} {a : α} {as : List α} (ha : Q used a) (h : Pieces Q ts as) :
      Pieces Q (used ++ ts) (a :: as)

namespace Pieces

variable {α β : Type} {Q R : List Token → α → Prop} {ts ts' : List Token} {as as' : List α}

theorem append (h : Pieces Q ts as) (h' : Pieces Q ts' as') : Pieces Q (ts ++ ts') (as ++ as') := by
  induction h with
  | nil => exact h'
  | skip t _ ih => exact .skip t ih
  | cons ha _ ih => rw [List.append_assoc]; exact .cons ha ih

theorem none (ts : List Token) : Pieces Q ts [] := by
  induction ts with
  | nil => exact .nil
  | cons t ts ih => exact .skip t ih

theorem skip_left (h : Pieces Q ts as) (before : List Token) : Pieces Q (before ++ ts) as :=
  (none before).append h

theorem skip_right (h : Pieces Q ts as) (after : List Token) : Pieces Q (ts ++ after) as := by
  simpa using h.append (none after)

/-- The first item and the rest. -/
theorem uncons {a : α} (h : Pieces Q ts (a :: as)) :
    ∃ before used rest, ts = before ++ (used ++ rest) ∧ Q used a ∧ Pieces Q rest as := by
  generalize has : a :: as = items at h
  induction h with
  | nil => cases has
  | skip t _ ih =>
    obtain ⟨before, used, rest, rfl, hQ, hrest⟩ := ih has
    exact ⟨t :: before, used, rest, rfl, hQ, hrest⟩
  | cons hb h _ =>
    cases has
    exact ⟨[], _, _, rfl, hb, h⟩

theorem one {a : α} (h : Q ts a) : Pieces Q ts [a] := by
  simpa using cons h (none [])

/-- Items that were read with tokens around them. -/
theorem join (h : Pieces (fun used a => Pieces Q used [a]) ts as) : Pieces Q ts as := by
  induction h with
  | nil => exact .nil
  | skip t _ ih => exact .skip t ih
  | cons ha _ ih => exact ha.append ih

/-- Items of items. -/
theorem flatMap {f : α → List β} {R : List Token → β → Prop} (h : Pieces Q ts as)
    (hQ : ∀ used a, Q used a → Pieces R used (f a)) : Pieces R ts (as.flatMap f) := by
  induction h with
  | nil => exact .nil
  | skip t _ ih => exact .skip t ih
  | cons ha _ ih => exact (hQ _ _ ha).append ih

theorem map {f : α → β} {R : List Token → β → Prop} (h : Pieces Q ts as)
    (hQ : ∀ used a, Q used a → R used (f a)) : Pieces R ts (as.map f) := by
  induction h with
  | nil => exact .nil
  | skip t _ ih => exact .skip t ih
  | cons ha _ ih => exact .cons (hQ _ _ ha) ih

/-- Each of the pieces has tokens of its own. -/
theorem exists_of_mem {a : α} (h : Pieces Q ts as) (ha : a ∈ as) :
    ∃ before used after, ts = before ++ (used ++ after) ∧ Q used a := by
  induction as generalizing ts with
  | nil => cases ha
  | cons b as ih =>
    obtain ⟨before, used, rest, rfl, hQ, hrest⟩ := h.uncons
    rcases List.mem_cons.mp ha with rfl | ha
    · exact ⟨before, used, rest, rfl, hQ⟩
    · obtain ⟨before', used', after, rfl, hQ'⟩ := ih hrest ha
      exact ⟨before ++ (used ++ before'), used', after, by simp, hQ'⟩

/-- Words of pieces, put together. -/
theorem covers {text : Span → String} {words : α → List Word} (h : Pieces Q ts as)
    (hQ : ∀ used a, Q used a → Covers text used (words a)) : Covers text ts (as.flatMap words) := by
  induction h with
  | nil => exact .nil
  | skip t _ ih => exact .skip t ih
  | cons ha _ ih => exact (hQ _ _ ha).append ih

end Pieces

/-! ### Readers on renamed tokens -/

namespace Grammar

open NilGuard.Reader

/-- Arguments of which the first one reads as a type come next, however deep they nest. -/
def TypedAhead (ts : List Token) : Prop :=
  ∃ n, (typedArguments (rules n) ts).isSome = true

/-- A call of a function that takes a type, with a type as its first argument. -/
def CallsType : List Token → Prop
  | t :: after => t.text ∈ ["new", "make"] ∧ TypedAhead after
  | [] => False

/-- Renaming the tokens does not change what they are: only names are renamed, none of them stands
for a value by itself, and none is the function of a call that is given a type. -/
def Safe (σ : Renaming) (ts : List Token) : Prop :=
  ∀ before t after, ts = before ++ t :: after → σ.marked t.span = true →
    t.kind = .name ∧ t.text ∉ ["true", "false", "iota"] ∧ ¬ CallsType (t :: after)

theorem Safe.of_append {σ : Renaming} {ts ts' : List Token} (h : Safe σ (ts ++ ts')) : Safe σ ts' :=
  fun before t after hts => h (ts ++ before) t after (by rw [hts, List.append_assoc])

theorem safe_same (ts : List Token) : Safe .same ts :=
  fun _ _ _ _ h => by cases h

variable {σ : Renaming} {α β : Type} [Renamable α] [Renamable β]

/-- At the given tokens, one reader takes renamed tokens as another takes the tokens, and what it
takes and gives is as `Q` says. -/
def TracksAt (σ : Renaming) (ts : List Token) (p p' : Reader α) (Q : List Token → α → Prop) :
    Prop :=
  (p ts = none ∧ p' (ts.map σ.token) = none) ∨
    ∃ used a rest, ts = used ++ rest ∧ p ts = some (a, rest) ∧
      p' (ts.map σ.token) = some (rename σ a, rest.map σ.token) ∧ Q used a

/-- The same at all tokens that may be renamed. -/
def Tracks (σ : Renaming) (p p' : Reader α) (Q : List Token → α → Prop) : Prop :=
  ∀ ts, Safe σ ts → TracksAt σ ts p p' Q

namespace TracksAt

variable {ts : List Token}

theorem pure {a : α} {Q : List Token → α → Prop} (h : Q [] a) {a' : α} (ha : a' = rename σ a) :
    TracksAt σ ts (pure a) (pure a') Q :=
  .inr ⟨[], a, ts, rfl, rfl, by rw [ha]; rfl, h⟩

theorem failure {Q : List Token → α → Prop} : TracksAt σ ts failure failure Q :=
  .inl ⟨rfl, rfl⟩

theorem bind {p p' : Reader α} {k k' : α → Reader β} {Q : List Token → α → Prop}
    {R : List Token → β → Prop} (hp : TracksAt σ ts p p' Q)
    (hk : ∀ used a rest, ts = used ++ rest → Q used a →
      TracksAt σ rest (k a) (k' (rename σ a)) fun used' b => R (used ++ used') b) :
    TracksAt σ ts (p >>= k) (p' >>= k') R := by
  rcases hp with ⟨hp, hp'⟩ | ⟨used, a, rest, hts, hp, hp', hQ⟩
  · exact .inl ⟨by simp [Bind.bind, StateT.bind, hp], by simp [Bind.bind, StateT.bind, hp']⟩
  · have hrun : (p >>= k) ts = k a rest := by simp [Bind.bind, StateT.bind, hp]
    have hrun' : (p' >>= k') (ts.map σ.token) = k' (rename σ a) (rest.map σ.token) := by
      simp [Bind.bind, StateT.bind, hp']
    rcases hk used a rest hts hQ with ⟨hk, hk'⟩ | ⟨used', b, rest', hrest, hk, hk', hR⟩
    · exact .inl ⟨by rw [hrun, hk], by rw [hrun', hk']⟩
    · exact .inr ⟨used ++ used', b, rest', by rw [hts, hrest, List.append_assoc], by rw [hrun, hk],
        by rw [hrun', hk'], hR⟩

theorem orElse {p p' q q' : Reader α} {Q : List Token → α → Prop} (hp : TracksAt σ ts p p' Q)
    (hq : TracksAt σ ts q q' Q) : TracksAt σ ts (p <|> q) (p' <|> q') Q := by
  rcases hp with ⟨hp, hp'⟩ | ⟨used, a, rest, hts, hp, hp', hQ⟩
  · have hrun : (p <|> q) ts = q ts := by
      simp [HOrElse.hOrElse, OrElse.orElse, Alternative.orElse, StateT.orElse, hp]
    have hrun' : (p' <|> q') (ts.map σ.token) = q' (ts.map σ.token) := by
      simp [HOrElse.hOrElse, OrElse.orElse, Alternative.orElse, StateT.orElse, hp']
    unfold TracksAt
    rw [hrun, hrun']
    exact hq
  · exact .inr ⟨used, a, rest, hts,
      by simp [HOrElse.hOrElse, OrElse.orElse, Alternative.orElse, StateT.orElse, hp],
      by simp [HOrElse.hOrElse, OrElse.orElse, Alternative.orElse, StateT.orElse, hp'], hQ⟩

theorem mono {p p' : Reader α} {Q R : List Token → α → Prop} (hp : TracksAt σ ts p p' Q)
    (h : ∀ used a, Q used a → R used a) : TracksAt σ ts p p' R := by
  rcases hp with hp | ⟨used, a, rest, hts, hp, hp', hQ⟩
  · exact .inl hp
  · exact .inr ⟨used, a, rest, hts, hp, hp', h used a hQ⟩

end TracksAt

namespace Tracks

theorem pure {a : α} {Q : List Token → α → Prop} (h : Q [] a) {a' : α} (ha : a' = rename σ a) :
    Tracks σ (pure a) (pure a') Q :=
  fun _ _ => .pure h ha

theorem failure {Q : List Token → α → Prop} : Tracks σ failure failure Q :=
  fun _ _ => .failure

theorem bind {p p' : Reader α} {k k' : α → Reader β} {Q : List Token → α → Prop}
    {R : List Token → β → Prop} (hp : Tracks σ p p' Q)
    (hk : ∀ used a, Q used a → Tracks σ (k a) (k' (rename σ a)) fun used' b =>
      R (used ++ used') b) :
    Tracks σ (p >>= k) (p' >>= k') R :=
  fun ts hts => (hp ts hts).bind fun used a rest hused hQ =>
    hk used a hQ rest (Safe.of_append (hused ▸ hts))

/-- What only looks takes nothing. -/
theorem look {p p' : Reader α} {k k' : α → Reader β} {R : List Token → β → Prop}
    (hp : Tracks σ p p' fun used _ => used = [])
    (hk : ∀ a, Tracks σ (k a) (k' (rename σ a)) R) : Tracks σ (p >>= k) (p' >>= k') R :=
  hp.bind fun used a hused => by
    rw [hused]
    exact hk a

theorem orElse {p p' q q' : Reader α} {Q : List Token → α → Prop} (hp : Tracks σ p p' Q)
    (hq : Tracks σ q q' Q) : Tracks σ (p <|> q) (p' <|> q') Q :=
  fun ts hts => (hp ts hts).orElse (hq ts hts)

theorem mono {p p' : Reader α} {Q R : List Token → α → Prop} (hp : Tracks σ p p' Q)
    (h : ∀ used a, Q used a → R used a) : Tracks σ p p' R :=
  fun ts hts => (hp ts hts).mono h

theorem map {p p' : Reader α} {f f' : α → β} {Q : List Token → α → Prop}
    {R : List Token → β → Prop} (hp : Tracks σ p p' Q) (hf : ∀ a, f' (rename σ a) = rename σ (f a))
    (h : ∀ used a, Q used a → R used (f a)) : Tracks σ (f <$> p) (f' <$> p') R := by
  rw [map_eq_pure_bind, map_eq_pure_bind]
  exact hp.bind fun used a hQ => .pure (by simpa using h used a hQ) (hf a)

/-- A condition is tested alike on both sides and takes no token. -/
theorem require {c c' : Prop} [Decidable c] [Decidable c'] (h : c ↔ c') :
    Tracks σ (guard c) (guard c') fun used (_ : Unit) => used = [] ∧ c := by
  unfold guard
  by_cases hc : c
  · rw [if_pos hc, if_pos (h.mp hc)]
    exact .pure ⟨rfl, hc⟩ rfl
  · rw [if_neg hc, if_neg fun hc' => hc (h.mpr hc')]
    exact .failure

/-- A choice that does not depend on names. -/
theorem cond {c c' : Prop} [Decidable c] [Decidable c'] {p p' q q' : Reader α}
    {Q : List Token → α → Prop} (h : c' ↔ c) (hp : c → Tracks σ p p' Q)
    (hq : ¬ c → Tracks σ q q' Q) :
    Tracks σ (if c then p else q) (if c' then p' else q') Q := by
  by_cases hc : c
  · rw [if_pos hc, if_pos (h.mpr hc)]
    exact hp hc
  · rw [if_neg hc, if_neg fun hc' => hc (h.mp hc')]
    exact hq hc

theorem attempt {p p' : Reader α} {Q : List Token → α → Prop} (hp : Tracks σ p p' Q) :
    Tracks σ (attempt p) (attempt p') fun used o => o.elim (used = []) (Q used) :=
  .orElse (hp.map (fun _ => rfl) fun _ _ h => h) (.pure (by rfl) rfl)

end Tracks

namespace Tracks

theorem manyUpTo {p p' : Reader (Option α)} {Q : List Token → Option α → Prop}
    (hp : Tracks σ p p' Q) (hnone : ∀ used, Q used none → used = []) (n : Nat) :
    Tracks σ (manyUpTo p n) (manyUpTo p' n) (Pieces fun used a => Q used (some a)) := by
  induction n with
  | zero => exact .pure .nil rfl
  | succ n ih =>
    refine hp.bind fun used o hQ => ?_
    cases o with
    | none => exact .pure (by rw [hnone used hQ]; exact .nil) rfl
    | some a => exact ih.bind fun used' as has => .pure (by simpa using .cons hQ has) rfl

theorem many {p p' : Reader (Option α)} {Q : List Token → Option α → Prop} (hp : Tracks σ p p' Q)
    (hnone : ∀ used, Q used none → used = []) :
    Tracks σ (Reader.many p) (Reader.many p') (Pieces fun used a => Q used (some a)) := by
  intro ts hts
  have h := hp.manyUpTo hnone (ts.length + 1) ts hts
  have hrun : ∀ (q : Reader (Option α)) (us : List Token),
      Reader.many q us = Reader.manyUpTo q (us.length + 1) us := fun _ _ => rfl
  unfold TracksAt at h ⊢
  rw [hrun, hrun, List.length_map]
  exact h

theorem iterateUpTo {step step' : α → Reader (Option α)} {I : List Token → α → Prop}
    (hstep : ∀ used a, I used a → Tracks σ (step a) (step' (rename σ a))
      fun used' o => o.elim (used' = []) (I (used ++ used'))) (n : Nat) {used : List Token} {a : α}
    (ha : I used a) :
    Tracks σ (iterateUpTo step n a) (iterateUpTo step' n (rename σ a))
      fun used' b => I (used ++ used') b := by
  induction n generalizing used a with
  | zero => exact .pure (by simpa using ha) rfl
  | succ n ih =>
    refine (hstep used a ha).bind fun used' o ho => ?_
    cases o with
    | none => exact .pure (by rw [show used' = [] from ho]; simpa using ha) rfl
    | some b => exact (ih (show I (used ++ used') b from ho)).mono fun _ _ h => by simpa using h

theorem iterate {step step' : α → Reader (Option α)} {I : List Token → α → Prop}
    (hstep : ∀ used a, I used a → Tracks σ (step a) (step' (rename σ a))
      fun used' o => o.elim (used' = []) (I (used ++ used'))) {used : List Token} {a : α}
    (ha : I used a) :
    Tracks σ (Reader.iterate step a) (Reader.iterate step' (rename σ a)) fun used' b =>
      I (used ++ used') b := by
  intro ts hts
  have h := iterateUpTo hstep (ts.length + 1) ha ts hts
  have hrun : ∀ (step : α → Reader (Option α)) (a : α) (us : List Token),
      Reader.iterate step a us = Reader.iterateUpTo step (us.length + 1) a us := fun _ _ _ => rfl
  unfold TracksAt at h ⊢
  rw [hrun, hrun, List.length_map]
  exact h

theorem lookahead {p p' : Reader α} {Q : List Token → α → Prop} (hp : Tracks σ p p' Q) :
    Tracks σ (Reader.lookahead p) (Reader.lookahead p') fun used _ => used = [] := by
  intro ts hts
  have hrun : ∀ (q : Reader α) (us : List Token),
      Reader.lookahead q us = some ((q us).map (·.1), us) := fun _ _ => rfl
  rcases hp ts hts with ⟨hp, hp'⟩ | ⟨used, a, rest, -, hp, hp', -⟩
  · exact .inr ⟨[], none, ts, rfl, by rw [hrun, hp]; rfl, by rw [hrun, hp']; rfl, rfl⟩
  · exact .inr ⟨[], some a, ts, rfl, by rw [hrun, hp]; rfl, by rw [hrun, hp']; rfl, rfl⟩

/-- Two ways to read that leave equally many tokens take the same ones. -/
theorem both {p p' : Reader α} {q q' : Reader β} {Q : List Token → α → Prop}
    {R : List Token → β → Prop} (hp : Tracks σ p p' Q) (hq : Tracks σ q q' R) :
    Tracks σ (Reader.both p q) (Reader.both p' q')
      fun used x => Q used x.1 ∧ ∀ b, x.2 = some b → R used b := by
  intro ts hts
  rcases hp ts hts with ⟨hp, hp'⟩ | ⟨used, a, rest, hused, hp, hp', hQ⟩
  · exact .inl ⟨by simp [Reader.both, hp], by simp [Reader.both, hp']⟩
  rcases hq ts hts with ⟨hq, hq'⟩ | ⟨used', b, rest', hused', hq, hq', hR⟩
  · exact .inr ⟨used, (a, none), rest, hused, by simp [Reader.both, hp, hq],
      by simp [Reader.both, hp', hq'], hQ, fun _ h => by cases h⟩
  · refine .inr ⟨used, (a, if rest'.length = rest.length then some b else none), rest, hused,
      by simp [Reader.both, hp, hq], ?_, hQ, fun b' hb' => ?_⟩
    · simp only [Reader.both, hp', hq', List.length_map]
      split <;> rfl
    · obtain ⟨hlength, rfl⟩ : rest'.length = rest.length ∧ b = b' := by simpa using hb'
      rwa [(List.append_inj' (hused.symm.trans hused') hlength.symm).1]

end Tracks

end Grammar

end NilGuard.Go.Surface
