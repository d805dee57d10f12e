import Mathlib.Data.List.TakeWhile
import NilGuard.Go.Lexeme

/-!
What a pattern looks at. A pattern may look past what it takes, as a number does for an exponent, so
another text behind it may change what it takes. It does not for a steady pattern, if the text
behind changes only from a character on that the pattern never takes (`Steady.replace`). Numbers are
steady.
-/

namespace NilGuard.Text.Pattern

/-- A pattern that takes no less when there is more text, and takes the same when what it takes is
still there and the rest is cut short. -/
structure Steady (p : Pattern) : Prop where
  grows : ∀ {cs : List Char} {n : Nat}, p cs = some n → ∀ more, ∃ m, n ≤ m ∧ p (cs ++ more) = some m
  cut : ∀ {own seen more : List Char}, p (own ++ (seen ++ more)) = some own.length →
    p (own ++ seen) = some own.length

/-- A pattern never takes a character. -/
def Avoids (p : Pattern) (c : Char) : Prop :=
  ∀ ⦃cs : List Char⦄ ⦃n : Nat⦄, p cs = some n → c ∉ cs.take n

/-- A text that fits begins with a character of a class. -/
def Begins (p : Pattern) (ok : Char → Prop) : Prop :=
  ∀ ⦃cs : List Char⦄ ⦃n : Nat⦄, p cs = some n → ∃ c rest, cs = c :: rest ∧ ok c

/-- Of a text that fits nothing is taken and every text fits, or it begins with a character of a
class. -/
def MayBegin (p : Pattern) (ok : Char → Prop) : Prop :=
  ∀ ⦃cs : List Char⦄ ⦃n : Nat⦄, p cs = some n → (n = 0 ∧ ∀ ds, ∃ m, p ds = some m) ∨
    ∃ c rest, cs = c :: rest ∧ ok c

theorem Begins.mayBegin {p : Pattern} {ok : Char → Prop} (h : p.Begins ok) : p.MayBegin ok :=
  fun _ _ hn => .inr (h hn)

theorem Begins.mono {p : Pattern} {ok ok' : Char → Prop} (h : p.Begins ok)
    (hok : ∀ c, ok c → ok' c) :
    p.Begins ok' := by
  intro cs n hn
  obtain ⟨c, rest, rfl, hc⟩ := h hn
  exact ⟨c, rest, rfl, hok c hc⟩

namespace Avoids

variable {p : Pattern} {c : Char}

/-- The text that is taken ends before a character that is avoided. -/
theorem le_length (h : p.Avoids c) {cs rest : List Char} {n : Nat}
    (hn : p (cs ++ c :: rest) = some n) :
    n ≤ cs.length := by
  by_contra hlt
  refine h hn (List.mem_of_getElem? (i := cs.length) ?_)
  rw [List.getElem?_take_of_lt (by omega)]
  simp

end Avoids

namespace Steady

variable {p : Pattern} {c : Char}

/-- What a pattern takes stays when the text behind changes from an avoided character on. -/
theorem replace (h : p.Steady) (hc : p.Avoids c) {own common rest : List Char}
    (hown : p (own ++ (common ++ rest)) = some own.length) (rest' : List Char) :
    p (own ++ (common ++ c :: rest')) = some own.length := by
  have hcommon := h.cut hown
  obtain ⟨m, hle, hm⟩ := h.grows hcommon (c :: rest')
  have hm' := hc.le_length hm
  -- Whatever is taken now fits without the new text, too.
  have hsplit : (own ++ common).take m ++ ((own ++ common).drop m ++ c :: rest') =
      own ++ common ++ c :: rest' := by
    rw [← List.append_assoc, List.take_append_drop]
  have hlength : ((own ++ common).take m).length = m := by
    rw [List.length_take]
    omega
  have hshort := h.cut (show p ((own ++ common).take m ++ ((own ++ common).drop m ++ c :: rest')) =
    some ((own ++ common).take m).length by rw [hsplit, hlength, hm])
  rw [List.take_append_drop, hcommon, hlength, Option.some.injEq] at hshort
  rw [← List.append_assoc, hm, hshort]

/-- Where a steady pattern does not fit, it does not with the character put in what follows. -/
theorem replace_none (h : p.Steady) (hc : p.Avoids c) {common rest : List Char}
    (hnone : p (common ++ rest) = none) (rest' : List Char) : p (common ++ c :: rest') = none := by
  cases hn : p (common ++ c :: rest') with
  | none => rfl
  | some n =>
    have hle := hc.le_length hn
    have hlength : (common.take n).length = n := by
      rw [List.length_take]
      omega
    have hcut := h.cut (show p (common.take n ++ (common.drop n ++ c :: rest')) =
      some (common.take n).length by rw [← List.append_assoc, List.take_append_drop, hlength, hn])
    rw [List.take_append_drop] at hcut
    obtain ⟨m, -, hm⟩ := h.grows hcut rest
    rw [hnone] at hm
    cases hm

end Steady

/-! ### Patterns built from others -/

section
variable {ok : Char → Bool} {c : Char} {p q : Pattern}

theorem one_eq_some {cs : List Char} {n : Nat} :
    one ok cs = some n ↔ ∃ c rest, cs = c :: rest ∧ ok c = true ∧ n = 1 := by
  cases cs with
  | nil => simp [one]
  | cons c cs =>
    constructor
    · intro h
      simp only [one] at h
      split at h
      · next hc => exact ⟨c, cs, rfl, hc, (Option.some.inj h).symm⟩
      · cases h
    · rintro ⟨d, rest, heq, hd, rfl⟩
      obtain ⟨rfl, rfl⟩ := List.cons.inj heq
      simp [one, hd]

theorem steady_one : (one ok).Steady where
  grows h more := by
    obtain ⟨c, rest, rfl, hc, rfl⟩ := one_eq_some.mp h
    exact ⟨1, Nat.le_refl 1, one_eq_some.mpr ⟨c, rest ++ more, rfl, hc, rfl⟩⟩
  cut {own seen more} h := by
    obtain ⟨c, rest, hcs, hc, hlength⟩ := one_eq_some.mp h
    obtain ⟨d, rfl⟩ := List.length_eq_one_iff.mp hlength
    obtain ⟨rfl, -⟩ := List.cons.inj hcs
    exact one_eq_some.mpr ⟨d, seen, rfl, hc, rfl⟩

theorem avoids_one (h : ok c = false) : (one ok).Avoids c := by
  intro cs n hn
  obtain ⟨d, rest, rfl, hd, rfl⟩ := one_eq_some.mp hn
  rintro hmem
  obtain rfl : c = d := by simpa using hmem
  rw [h] at hd
  cases hd

theorem begins_one : (one ok).Begins fun c => ok c = true := by
  intro cs n hn
  obtain ⟨c, rest, rfl, hc, -⟩ := one_eq_some.mp hn
  exact ⟨c, rest, rfl, hc⟩

theorem andThen_eq_some {cs : List Char} {n : Nat} :
    andThen p q cs = some n ↔ ∃ a b, p cs = some a ∧ q (cs.drop a) = some b ∧ a + b = n := by
  simp only [andThen, Option.bind_eq_bind, Option.bind_eq_some_iff, Option.pure_def,
    Option.some.injEq]
  constructor
  · rintro ⟨a, ha, b, hb, rfl⟩
    exact ⟨a, b, ha, hb, rfl⟩
  · rintro ⟨a, b, ha, hb, rfl⟩
    exact ⟨a, ha, b, hb, rfl⟩

/-- Cutting short goes part by part. -/
theorem andThen_cut (hp : p.Steady) (hq : q.Steady) {own seen more : List Char}
    (h : andThen p q (own ++ (seen ++ more)) = some own.length) :
    andThen p q (own ++ seen) = some own.length := by
  obtain ⟨a, b, ha, hb, hlength⟩ := andThen_eq_some.mp h
  obtain ⟨first, second, rfl, rfl⟩ : ∃ first second, own = first ++ second ∧ first.length = a :=
    ⟨own.take a, own.drop a, (List.take_append_drop a own).symm, by rw [List.length_take]; omega⟩
  obtain rfl : b = second.length := by
    rw [List.length_append] at hlength
    omega
  rw [List.append_assoc, ← List.append_assoc second] at ha
  rw [List.append_assoc, List.drop_left] at hb
  refine andThen_eq_some.mpr ⟨first.length, second.length, ?_, ?_, by simp⟩
  · rw [List.append_assoc]
    exact hp.cut ha
  · rw [List.append_assoc, List.drop_left]
    exact hq.cut hb

/-- A pattern is steady with another one behind it that begins with what it avoids. -/
theorem steady_andThen (hp : p.Steady) (hq : q.Steady) (h : q.MayBegin p.Avoids) :
    (andThen p q).Steady where
  grows {cs n} hn more := by
    obtain ⟨a, b, ha, hb, rfl⟩ := andThen_eq_some.mp hn
    obtain ⟨a', hle, ha'⟩ := hp.grows ha more
    rcases h hb with ⟨rfl, htotal⟩ | ⟨c, rest, hdrop, hc⟩
    · obtain ⟨b', hb'⟩ := htotal ((cs ++ more).drop a')
      exact ⟨a' + b', by omega, andThen_eq_some.mpr ⟨a', b', ha', hb', rfl⟩⟩
    · -- What is taken ends before the second part, with more text as well.
      have hsplit : cs = cs.take a ++ c :: rest := by rw [← hdrop, List.take_append_drop]
      have hlt : a < cs.length := by
        by_contra hlt
        rw [List.drop_eq_nil_of_le (by omega)] at hdrop
        cases hdrop
      have hle' : a' ≤ a := by
        have hend := ha'
        rw [hsplit, List.append_assoc, List.cons_append] at hend
        have := hc.le_length hend
        rw [List.length_take] at this
        omega
      obtain rfl : a' = a := by omega
      obtain ⟨b', hle'', hb'⟩ := hq.grows hb more
      refine ⟨a' + b', by omega, andThen_eq_some.mpr ⟨a', b', ha', ?_, rfl⟩⟩
      rwa [List.drop_append_of_le_length (by omega)]
  cut := andThen_cut hp hq

/-- One character looks at nothing behind it. -/
theorem steady_one_andThen (hq : q.Steady) : (andThen (one ok) q).Steady where
  grows {cs n} hn more := by
    obtain ⟨a, b, ha, hb, rfl⟩ := andThen_eq_some.mp hn
    obtain ⟨c, rest, rfl, hc, rfl⟩ := one_eq_some.mp ha
    obtain ⟨b', hle, hb'⟩ := hq.grows hb more
    exact ⟨1 + b', by omega, andThen_eq_some.mpr
      ⟨1, b', one_eq_some.mpr ⟨c, rest ++ more, rfl, hc, rfl⟩, hb', rfl⟩⟩
  cut := andThen_cut steady_one hq

/-- What neither of two patterns takes is not taken by one after the other. -/
theorem avoids_andThen (hp : p.Avoids c) (hq : q.Avoids c) : (andThen p q).Avoids c := by
  intro cs n hn
  obtain ⟨a, b, ha, hb, rfl⟩ := andThen_eq_some.mp hn
  rw [List.take_add, List.mem_append]
  exact fun h => h.elim (hp ha) (hq hb)

theorem begins_andThen {ok : Char → Prop} (hp : p.Begins ok) : (andThen p q).Begins ok := by
  intro cs n hn
  obtain ⟨a, b, ha, -, -⟩ := andThen_eq_some.mp hn
  exact hp ha

/-- The longer of two matches is one of them and no shorter than the other. -/
theorem longer_eq_some {cs : List Char} {n : Nat} (h : longer p q cs = some n) :
    (p cs = some n ∨ q cs = some n) ∧
      (∀ m, p cs = some m → m ≤ n) ∧ ∀ m, q cs = some m → m ≤ n := by
  unfold longer at h
  split at h
  · next a b ha hb =>
    obtain rfl : max a b = n := by simpa using h
    refine ⟨?_, fun m hm => ?_, fun m hm => ?_⟩
    · rcases Nat.le_total a b with hle | hle
      · exact .inr (by rw [hb, Nat.max_eq_right hle])
      · exact .inl (by rw [ha, Nat.max_eq_left hle])
    · obtain rfl : a = m := by simpa [ha] using hm
      exact Nat.le_max_left ..
    · obtain rfl : b = m := by simpa [hb] using hm
      exact Nat.le_max_right ..
  · next a ha hb =>
    obtain rfl : a = n := by simpa using h
    exact ⟨.inl ha, fun m hm => by simp_all, fun m hm => by simp_all⟩
  · next ha => exact ⟨.inr h, fun m hm => by simp_all, fun m hm => by simp_all⟩

theorem longer_of_le {cs : List Char} {n : Nat} (h : p cs = some n ∨ q cs = some n)
    (hp : ∀ m, p cs = some m → m ≤ n) (hq : ∀ m, q cs = some m → m ≤ n) :
    longer p q cs = some n := by
  unfold longer
  cases ha : p cs with
  | none => simpa [ha] using h
  | some a =>
    have hle := hp a ha
    cases hb : q cs with
    | none => simpa [ha, hb] using h
    | some b =>
      have hle' := hq b hb
      have hmax : max a b = n := by
        rcases h with h | h
        · obtain rfl : a = n := by simpa [ha] using h
          exact Nat.max_eq_left hle'
        · obtain rfl : b = n := by simpa [hb] using h
          exact Nat.max_eq_right hle
      simp [hmax]

/-- The longer match of steady patterns is steady: seeing more, both can only grow. -/
theorem steady_longer (hp : p.Steady) (hq : q.Steady) : (longer p q).Steady where
  grows {cs n} hn more := by
    have hsome : ∀ {m}, p (cs ++ more) = some m ∨ q (cs ++ more) = some m →
        ∃ k, m ≤ k ∧ longer p q (cs ++ more) = some k := by
      intro m hm
      obtain ⟨k, hk⟩ : ∃ k, longer p q (cs ++ more) = some k := by
        unfold longer
        split
        · exact ⟨_, rfl⟩
        · exact ⟨_, rfl⟩
        · next hnone => exact ⟨m, hm.resolve_left (by simp [hnone])⟩
      obtain ⟨-, hle, hle'⟩ := longer_eq_some hk
      exact ⟨k, hm.elim (hle m) (hle' m), hk⟩
    rcases (longer_eq_some hn).1 with h | h
    · obtain ⟨m, hle, hm⟩ := hp.grows h more
      obtain ⟨k, hle', hk⟩ := hsome (.inl hm)
      exact ⟨k, by omega, hk⟩
    · obtain ⟨m, hle, hm⟩ := hq.grows h more
      obtain ⟨k, hle', hk⟩ := hsome (.inr hm)
      exact ⟨k, by omega, hk⟩
  cut {own seen more} h := by
    obtain ⟨hsome, hle, hle'⟩ := longer_eq_some h
    refine longer_of_le (hsome.imp hp.cut hq.cut) (fun m hm => ?_) fun m hm => ?_
    · obtain ⟨k, hmk, hk⟩ := hp.grows hm more
      have := hle k (by rwa [← List.append_assoc])
      omega
    · obtain ⟨k, hmk, hk⟩ := hq.grows hm more
      have := hle' k (by rwa [← List.append_assoc])
      omega

theorem avoids_longer (hp : p.Avoids c) (hq : q.Avoids c) : (longer p q).Avoids c :=
  fun _ _ hn => (longer_eq_some hn).1.elim (fun h => hp h) fun h => hq h

theorem steady_none : Steady fun _ => none where
  grows h := by cases h
  cut h := by cases h

theorem steady_zero : Steady fun _ => some 0 where
  grows h _ := ⟨0, by cases h; exact Nat.le_refl 0, rfl⟩
  cut h := h

theorem steady_optional (hp : p.Steady) : (optional p).Steady where
  grows {cs n} hn more := by
    cases h : p cs with
    | none =>
      obtain rfl : 0 = n := by simpa [optional, h] using hn
      exact ⟨_, Nat.zero_le _, rfl⟩
    | some k =>
      obtain rfl : k = n := by simpa [optional, h] using hn
      obtain ⟨m, hle, hm⟩ := hp.grows h more
      exact ⟨m, hle, by simp [optional, hm]⟩
  cut {own seen more} h := by
    cases hfull : p (own ++ (seen ++ more)) with
    | some k =>
      obtain rfl : k = own.length := by simpa [optional, hfull] using h
      simp [optional, hp.cut hfull]
    | none =>
      obtain rfl : own = [] := by simpa [optional, hfull, eq_comm] using h
      cases hseen : p ([] ++ seen) with
      | none =>
        rw [optional, hseen]
        rfl
      | some k =>
        obtain ⟨m, -, hm⟩ := hp.grows hseen more
        rw [List.nil_append] at hm
        rw [List.nil_append, hm] at hfull
        cases hfull

theorem avoids_optional (hp : p.Avoids c) : (optional p).Avoids c := by
  intro cs n hn
  cases h : p cs with
  | none =>
    obtain rfl : 0 = n := by simpa [optional, h] using hn
    simp
  | some k =>
    obtain rfl : k = n := by simpa [optional, h] using hn
    exact hp h

/-- What may be missing at the end. -/
theorem mayBegin_optional {ok : Char → Prop} (hp : p.Begins ok) :
    (sequence [optional p]).MayBegin ok := by
  intro cs n hn
  obtain ⟨a, b, ha, hb, rfl⟩ := andThen_eq_some.mp hn
  cases h : p cs with
  | some k => exact .inr (hp h)
  | none =>
    obtain rfl : 0 = a := by simpa [optional, h] using ha
    exact .inl ⟨by cases hb; rfl, fun ds => ⟨_, rfl⟩⟩

/-- A pattern that may be missing with another one behind it. -/
theorem begins_optional_andThen {ok : Char → Prop} (hp : p.Begins ok) (hq : q.Begins ok) :
    (andThen (optional p) q).Begins ok := by
  intro cs n hn
  obtain ⟨a, b, ha, hb, -⟩ := andThen_eq_some.mp hn
  cases h : p cs with
  | some k => exact hp h
  | none =>
    obtain rfl : 0 = a := by simpa [optional, h] using ha
    exact hq hb

variable {ps : List Pattern}

theorem steady_longest (h : ∀ p ∈ ps, p.Steady) : (longest ps).Steady := by
  induction ps with
  | nil => exact steady_none
  | cons p ps ih =>
    obtain ⟨hp, hps⟩ := List.forall_mem_cons.mp h
    exact steady_longer hp (ih hps)

theorem avoids_none : Avoids (fun _ => none) c := by
  intro cs n hn
  cases hn

theorem avoids_last (hp : p.Avoids c) : (sequence [p]).Avoids c :=
  avoids_andThen hp fun cs n hn => by
    cases hn
    simp

theorem steady_last (hp : p.Steady) : (sequence [p]).Steady :=
  steady_andThen hp steady_zero fun _ _ hn => .inl ⟨by cases hn; rfl, fun _ => ⟨0, rfl⟩⟩

end

end NilGuard.Text.Pattern

namespace NilGuard.Go.Lexeme

open Text.Pattern

/-! ### Digits -/

section Digits

variable {ok : Char → Bool} (hok : ok '_' = false)

include hok

theorem moreDigits_of_ok {d : Char} (hd : ok d = true) (cs : List Char) :
    moreDigits ok (d :: cs) = moreDigits ok cs + 1 := by
  have hne : d ≠ '_' := by
    rintro rfl
    rw [hok] at hd
    cases hd
  rw [moreDigits, if_pos hd]
  exact fun _ _ h _ => hne h

/-- Behind a first digit there is nothing to take, a digit, or an underscore with a digit. -/
theorem moreDigits_cases (cs : List Char) : moreDigits ok cs = 0 ∨
    (∃ d rest, cs = d :: rest ∧ ok d = true ∧ moreDigits ok cs = moreDigits ok rest + 1) ∨
    ∃ d rest, cs = '_' :: d :: rest ∧ ok d = true ∧ moreDigits ok cs = moreDigits ok rest + 2 := by
  rcases cs with _ | ⟨d, cs⟩
  · exact .inl rfl
  by_cases hd : ok d = true
  · exact .inr (.inl ⟨d, cs, rfl, hd, moreDigits_of_ok hok hd cs⟩)
  by_cases hunderscore : ∃ e rest, d = '_' ∧ cs = e :: rest ∧ ok e = true
  · obtain ⟨e, rest, rfl, rfl, he⟩ := hunderscore
    exact .inr (.inr ⟨e, rest, rfl, he, by rw [moreDigits, if_pos he]⟩)
  · refine .inl ?_
    unfold moreDigits
    split
    · next e rest heq =>
      obtain ⟨rfl, rfl⟩ := List.cons.inj heq
      exact if_neg fun he => hunderscore ⟨e, rest, rfl, rfl, he⟩
    · next e rest _ heq =>
      obtain ⟨rfl, rfl⟩ := List.cons.inj heq
      exact if_neg hd
    · rfl

theorem moreDigits_le_append (cs more : List Char) :
    moreDigits ok cs ≤ moreDigits ok (cs ++ more) := by
  induction hlength : cs.length using Nat.strongRecOn generalizing cs with
  | ind length ih =>
    subst hlength
    rcases moreDigits_cases hok cs with h | ⟨d, rest, rfl, hd, h⟩ | ⟨d, rest, rfl, hd, h⟩
    · omega
    · have := ih rest.length (by simp) rest rfl
      rw [h, List.cons_append, moreDigits_of_ok hok hd]
      omega
    · have := ih rest.length (by grind) rest rfl
      rw [h, List.cons_append, List.cons_append, moreDigits, if_pos hd]
      omega

theorem moreDigits_cut {own seen more : List Char}
    (h : moreDigits ok (own ++ (seen ++ more)) = own.length) :
    moreDigits ok (own ++ seen) = own.length := by
  induction hlength : own.length using Nat.strongRecOn generalizing own with
  | ind length ih =>
    subst hlength
    rcases own with _ | ⟨d, own⟩
    · have := moreDigits_le_append hok seen more
      simp only [List.nil_append, List.length_nil] at h ⊢
      omega
    rcases moreDigits_cases hok (d :: own ++ (seen ++ more)) with
      hzero | ⟨e, rest, heq, he, hmore⟩ | ⟨e, rest, heq, he, hmore⟩
    · rw [h] at hzero
      cases hzero
    · obtain ⟨rfl, hrest⟩ := List.cons.inj heq
      rw [h, ← hrest, List.length_cons, List.append_eq] at hmore
      rw [List.cons_append, moreDigits_of_ok hok he, List.length_cons,
        ih own.length (by simp) (by omega) rfl]
    · -- The underscore and its digit are taken together.
      obtain ⟨rfl, hown⟩ := List.cons.inj heq
      rw [h, List.length_cons] at hmore
      rcases own with _ | ⟨e', own⟩
      · simp at hmore
      · obtain ⟨rfl, hrest⟩ := List.cons.inj hown
        rw [List.length_cons, ← hrest, List.append_eq] at hmore
        rw [List.cons_append, List.cons_append, moreDigits, if_pos he, List.length_cons,
          List.length_cons, ih own.length (by grind) (by omega) rfl]

theorem not_mem_take_moreDigits {c : Char} (hc : ok c = false) (hne : c ≠ '_') (cs : List Char) :
    c ∉ cs.take (moreDigits ok cs) := by
  induction hlength : cs.length using Nat.strongRecOn generalizing cs with
  | ind length ih =>
    subst hlength
    have hne' : ∀ d, ok d = true → c ≠ d := by
      rintro d hd rfl
      rw [hc] at hd
      cases hd
    rcases moreDigits_cases hok cs with h | ⟨d, rest, rfl, hd, h⟩ | ⟨d, rest, rfl, hd, h⟩
    · simp [h]
    · have := ih rest.length (by simp) rest rfl
      simpa [h, hne' d hd] using this
    · have := ih rest.length (by grind) rest rfl
      simpa [h, hne' d hd, hne] using this

theorem steady_moreDigits : Steady fun cs => some (moreDigits ok cs) where
  grows {cs n} h more := by
    obtain rfl := Option.some.inj h
    exact ⟨_, moreDigits_le_append hok cs more, rfl⟩
  cut h := congrArg some (moreDigits_cut hok (Option.some.inj h))

theorem avoids_moreDigits {c : Char} (hc : ok c = false) (hne : c ≠ '_') :
    Avoids (fun cs => some (moreDigits ok cs)) c := by
  intro cs n hn
  obtain rfl := Option.some.inj hn
  exact not_mem_take_moreDigits hok hc hne cs

omit hok in
/-- Digits are one digit and then more. -/
theorem digits_eq : digits ok = .andThen (.one ok) fun cs => some (moreDigits ok cs) := by
  funext cs
  cases cs with
  | nil => rfl
  | cons c cs =>
    by_cases hc : ok c = true <;> simp [digits, Text.Pattern.andThen, Text.Pattern.one, hc,
      Nat.add_comm]

theorem steady_digits : (digits ok).Steady := by
  rw [digits_eq]
  exact steady_one_andThen (steady_moreDigits hok)

theorem avoids_digits {c : Char} (hc : ok c = false) (hne : c ≠ '_') : (digits ok).Avoids c := by
  rw [digits_eq]
  exact avoids_andThen (avoids_one hc) (avoids_moreDigits hok hc hne)

omit hok in
theorem begins_digits : (digits ok).Begins fun c => ok c = true := by
  rw [digits_eq]
  exact begins_andThen begins_one

end Digits

/-! ### Numbers -/

theorem avoids_oneOf {c : Char} {cs : List Char} (h : c ∉ cs) : (oneOf cs).Avoids c :=
  avoids_one (by simpa using h)

theorem begins_oneOf {cs : List Char} : (oneOf cs).Begins (· ∈ cs) := by
  intro ds n hn
  obtain ⟨c, rest, rfl, hc⟩ := begins_one hn
  exact ⟨c, rest, rfl, by simpa using hc⟩

/-- A character that is not in a class differs from those that are. -/
theorem not_mem_of_class {ok : Char → Bool} {cs : List Char} (h : cs.any ok = false) {c : Char}
    (hc : ok c = true) : c ∉ cs := by
  intro hmem
  exact List.any_eq_false.mp h c hmem hc

section
variable {ok : Char → Bool} (hok : ok '_' = false)

include hok

theorem steady_lastDigits : Steady (.sequence [digits ok]) :=
  steady_last (steady_digits hok)

/-- Digits behind an underscore that may be missing. -/
theorem steady_underscore_digits : Steady (.sequence [underscore, digits ok]) := by
  refine steady_andThen (steady_optional steady_one) (steady_lastDigits hok) (Begins.mayBegin ?_)
  refine begins_andThen (begins_digits.mono fun c hc => ?_)
  exact avoids_optional (avoids_oneOf (not_mem_of_class (by simpa using hok) hc))

omit hok in
theorem begins_underscore_digits :
    Begins (.sequence [underscore, digits ok]) fun c => c = '_' ∨ ok c = true := by
  refine begins_optional_andThen (begins_oneOf.mono fun c hc => ?_)
    (begins_andThen (begins_digits.mono fun c hc => .inr hc))
  exact .inl (by simpa using hc)

end

theorem isDigit_of_isHex {c : Char} (h : isHex c = false) : c.isDigit = false := by
  simp only [isHex, Bool.or_eq_false_iff] at h
  exact h.1.1

theorem isHex_of_isOctal {c : Char} (h : isOctal c = true) : isHex c = true := by
  simp only [isOctal, Bool.and_eq_true, decide_eq_true_eq] at h
  have hdigit : c.isDigit = true := by
    simp only [Char.isDigit, Bool.and_eq_true, decide_eq_true_eq]
    exact ⟨h.1, Nat.le_trans h.2 (by decide)⟩
  simp [isHex, hdigit]

/-- The marks in numbers that are no digits. -/
def numberMarks : List Char :=
  ['_', '.', '+', '-', 'x', 'X', 'o', 'O', 'p', 'P']

/-- A sign is no digit, so the sign of an exponent and its digits do not run into each other. -/
theorem steady_exponent {mark : List Char} : (exponent mark).Steady := by
  refine steady_one_andThen (steady_andThen (steady_optional steady_one) (steady_lastDigits rfl)
    (Begins.mayBegin ?_))
  refine begins_andThen (begins_digits.mono fun c hc => ?_)
  exact avoids_optional (avoids_oneOf (not_mem_of_class (by decide) hc))

theorem begins_exponent {mark : List Char} : (exponent mark).Begins (· ∈ mark) :=
  begins_andThen begins_oneOf

theorem steady_decimal : decimal.Steady :=
  steady_longer steady_one (steady_one_andThen (steady_moreDigits rfl))

theorem steady_integer : integer.Steady := by
  have hoctal : Steady (.sequence [.optional (oneOf ['o', 'O']), underscore, digits isOctal]) := by
    refine steady_andThen (steady_optional steady_one) (steady_underscore_digits (by decide))
      (begins_underscore_digits.mono fun c hc => ?_).mayBegin
    refine avoids_optional (avoids_oneOf ?_)
    rcases hc with rfl | hc
    · decide
    · exact not_mem_of_class (by decide) hc
  refine steady_longest fun p hp => ?_
  simp only [List.mem_cons, List.not_mem_nil, or_false] at hp
  rcases hp with rfl | rfl | rfl | rfl
  · exact steady_decimal
  · exact steady_one_andThen (steady_one_andThen (steady_underscore_digits (by decide)))
  · exact steady_one_andThen (steady_one_andThen (steady_underscore_digits (by decide)))
  · exact steady_one_andThen hoctal

section
variable {c : Char} (hhex : isHex c = false) (hmarks : c ∉ numberMarks)

include hhex hmarks

theorem avoids_classDigits {ok : Char → Bool} (hok : ok '_' = false)
    (h : ∀ d, ok d = true → isHex d = true) :
    (digits ok).Avoids c := by
  refine avoids_digits hok ?_ fun hc => hmarks (by simp [hc, numberMarks])
  cases hc : ok c with
  | false => rfl
  | true => rw [← hhex, h c hc]

theorem avoids_marks {cs : List Char}
    (h : cs.all (fun d => isHex d || numberMarks.contains d) = true) :
    (oneOf cs).Avoids c := by
  refine avoids_oneOf fun hc => ?_
  have hmark := List.all_eq_true.mp h c hc
  rw [hhex, Bool.false_or, List.contains_iff_mem] at hmark
  exact hmarks hmark

theorem avoids_exponent {mark : List Char}
    (h : mark.all (fun d => isHex d || numberMarks.contains d) = true) :
    (exponent mark).Avoids c :=
  avoids_andThen (avoids_marks hhex hmarks h)
    (avoids_andThen (avoids_optional (avoids_marks hhex hmarks (by decide)))
      (avoids_last (avoids_classDigits hhex hmarks rfl fun d hd => by simp [isHex, hd])))

/-- Digits behind an underscore that may be missing. -/
theorem avoids_underscore_digits {ok : Char → Bool} (hok : ok '_' = false)
    (h : ∀ d, ok d = true → isHex d = true) : Avoids (.sequence [underscore, digits ok]) c :=
  avoids_andThen (avoids_optional (avoids_marks hhex hmarks (by decide)))
    (avoids_last (avoids_classDigits hhex hmarks hok h))

theorem avoids_integer : integer.Avoids c := by
  have hdigit := isDigit_of_isHex hhex
  have hzero : (oneOf ['0']).Avoids c := avoids_marks hhex hmarks (by decide)
  have hdecimal : decimal.Avoids c := by
    refine avoids_longer hzero (avoids_andThen (avoids_one (by simp [hdigit]))
      (avoids_moreDigits rfl hdigit fun hc => hmarks ?_))
    simp [hc, numberMarks]
  have hbinary : ∀ d, (d == '0' || d == '1') = true → isHex d = true := by
    intro d hd
    rcases Bool.or_eq_true_iff.mp hd with hd | hd <;> rw [beq_iff_eq.mp hd] <;> rfl
  refine avoids_longer hdecimal (avoids_longer ?_ (avoids_longer ?_ (avoids_longer ?_ avoids_none)))
  · exact avoids_andThen hzero (avoids_andThen (avoids_marks hhex hmarks (by decide))
      (avoids_underscore_digits hhex hmarks (by decide) fun d hd => hd))
  · exact avoids_andThen hzero (avoids_andThen (avoids_marks hhex hmarks (by decide))
      (avoids_underscore_digits hhex hmarks (by decide) hbinary))
  · exact avoids_andThen hzero
      (avoids_andThen (avoids_optional (avoids_marks hhex hmarks (by decide)))
      (avoids_underscore_digits hhex hmarks (by decide) fun d hd => isHex_of_isOctal hd))

end

/-- The digits of a hexadecimal floating-point number. -/
def hexDigits : Text.Pattern :=
  .longest [
    .sequence [underscore, digits isHex, oneOf ['.'], .optional (digits isHex)],
    .sequence [underscore, digits isHex],
    .sequence [oneOf ['.'], digits isHex]]

theorem steady_hexDigits : hexDigits.Steady := by
  have hlast : Steady (.sequence [oneOf ['.'], .optional (digits isHex)]) :=
    steady_one_andThen (steady_last (steady_optional (steady_digits (by decide))))
  have hdigits : Steady (.sequence [digits isHex, oneOf ['.'], .optional (digits isHex)]) := by
    refine steady_andThen (steady_digits (by decide)) hlast
      (begins_andThen (begins_oneOf.mono fun c hc => ?_)).mayBegin
    obtain rfl := List.mem_singleton.mp hc
    exact avoids_digits (by decide) (by decide) (by decide)
  refine steady_longer ?_ (steady_longer (steady_underscore_digits (by decide)) (steady_longer
    (steady_one_andThen (steady_lastDigits (by decide))) steady_none))
  refine steady_andThen (steady_optional steady_one) hdigits
    (begins_andThen (begins_digits.mono fun c hc => ?_)).mayBegin
  exact avoids_optional (avoids_oneOf (not_mem_of_class (by decide) hc))

theorem avoids_hexDigits {c : Char} (hhex : isHex c = false) (hmarks : c ∉ ['_', '.']) :
    hexDigits.Avoids c := by
  have hunderscore : underscore.Avoids c :=
    avoids_optional (avoids_oneOf fun hc => hmarks (by simp_all))
  have hpoint : (oneOf ['.']).Avoids c := avoids_oneOf fun hc => hmarks (by simp_all)
  have hdigits : (digits isHex).Avoids c :=
    avoids_digits (by decide) hhex fun hc => hmarks (by simp [hc])
  exact avoids_longer (avoids_andThen hunderscore (avoids_andThen hdigits (avoids_andThen hpoint
      (avoids_last (avoids_optional hdigits)))))
    (avoids_longer (avoids_andThen hunderscore (avoids_last hdigits))
      (avoids_longer (avoids_andThen hpoint (avoids_last hdigits)) avoids_none))

theorem avoids_decimalDigits {c : Char} (h : c ∈ ['e', 'E', '.']) :
    (digits Char.isDigit).Avoids c := by
  simp only [List.mem_cons, List.not_mem_nil, or_false] at h
  rcases h with rfl | rfl | rfl <;> exact avoids_digits rfl rfl (by decide)

theorem steady_float : float.Steady := by
  have hdigits : (digits Char.isDigit).Steady := steady_digits rfl
  have hlast : Steady (.sequence [.optional (exponent ['e', 'E'])]) :=
    steady_last (steady_optional steady_exponent)
  refine steady_longer ?_ (steady_longer ?_ (steady_longer ?_ (steady_longer ?_ steady_none)))
  · refine steady_andThen hdigits
      (steady_one_andThen (steady_andThen (steady_optional hdigits) hlast
      (mayBegin_optional (begins_exponent.mono fun c hc => ?_))))
      (begins_andThen (begins_oneOf.mono fun c hc => ?_)).mayBegin
    · exact avoids_optional (avoids_decimalDigits (by grind))
    · exact avoids_decimalDigits (by grind)
  · refine steady_andThen hdigits (steady_last steady_exponent)
      (begins_andThen (begins_exponent.mono fun c hc => ?_)).mayBegin
    exact avoids_decimalDigits (by grind)
  · refine steady_one_andThen (steady_andThen hdigits hlast
      (mayBegin_optional (begins_exponent.mono fun c hc => ?_)))
    exact avoids_decimalDigits (by grind)
  · refine steady_one_andThen (steady_one_andThen (steady_andThen steady_hexDigits
      (steady_last steady_exponent)
      (begins_andThen (begins_exponent.mono fun c hc => ?_)).mayBegin))
    simp only [List.mem_cons, List.not_mem_nil, or_false] at hc
    rcases hc with rfl | rfl <;> exact avoids_hexDigits (by decide) (by decide)

theorem avoids_float {c : Char} (hhex : isHex c = false) (hmarks : c ∉ numberMarks) :
    float.Avoids c := by
  have hdigits : (digits Char.isDigit).Avoids c :=
    avoids_classDigits hhex hmarks rfl fun d hd => by simp [isHex, hd]
  have hpoint : (oneOf ['.']).Avoids c := avoids_marks hhex hmarks (by decide)
  have hexponent : (exponent ['e', 'E']).Avoids c := avoids_exponent hhex hmarks (by decide)
  refine avoids_longer ?_ (avoids_longer ?_ (avoids_longer ?_ (avoids_longer ?_ avoids_none)))
  · exact avoids_andThen hdigits (avoids_andThen hpoint (avoids_andThen (avoids_optional hdigits)
      (avoids_last (avoids_optional hexponent))))
  · exact avoids_andThen hdigits (avoids_last hexponent)
  · exact avoids_andThen hpoint (avoids_andThen hdigits (avoids_last (avoids_optional hexponent)))
  · refine avoids_andThen (avoids_marks hhex hmarks (by decide))
      (avoids_andThen (avoids_marks hhex hmarks (by decide))
        (avoids_andThen (avoids_hexDigits hhex fun hc => hmarks ?_)
          (avoids_last (avoids_exponent hhex hmarks (by decide)))))
    grind [numberMarks]

theorem steady_number : number.Steady := by
  have hdigits : (digits Char.isDigit).Steady := steady_digits rfl
  refine steady_longer steady_integer (steady_longer steady_float (steady_longer ?_ steady_none))
  refine steady_andThen
    (steady_longer hdigits (steady_longer steady_integer (steady_longer steady_float steady_none)))
    steady_one (begins_oneOf.mono fun c hc => ?_).mayBegin
  obtain rfl := List.mem_singleton.mp hc
  exact avoids_longer (avoids_digits rfl rfl (by decide))
    (avoids_longer (avoids_integer (by decide) (by decide))
      (avoids_longer (avoids_float (by decide) (by decide)) avoids_none))

/-- A number has no `n` in it. -/
theorem avoids_number : number.Avoids 'n' := by
  have hinteger : integer.Avoids 'n' := avoids_integer (by decide) (by decide)
  have hfloat : float.Avoids 'n' := avoids_float (by decide) (by decide)
  refine avoids_longer hinteger (avoids_longer hfloat (avoids_longer ?_ avoids_none))
  exact avoids_andThen (avoids_longer (avoids_digits rfl rfl (by decide)) (avoids_longer hinteger
    (avoids_longer hfloat avoids_none))) (avoids_oneOf (by decide))

end NilGuard.Go.Lexeme
