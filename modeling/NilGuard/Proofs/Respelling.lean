import Mathlib.Data.List.Find
import NilGuard.Go.Render
import NilGuard.Proofs.Layout
import NilGuard.Proofs.Numbers

/-!
Lexemes of a text in which some names are replaced by `nil`. What begins a lexeme looks behind it at
most up to where the next name begins, and there one name is as good as another
(`measure_of_veers`). So the new text has the lexemes of the old one, but for the names
(`lexemes_respell`).
-/

namespace NilGuard.Go

namespace Lexeme

open Text (isBlank)

/-! ### Where two texts begin to differ -/

/-- A name can begin with the character. -/
def Leads (c : Char) : Prop :=
  isNameStart c = true ∧ isBlank c = false

/-- Two texts are the same up to where a name begins, which is another name in the second text. -/
def Veers (cs ds : List Char) : Prop :=
  cs = ds ∨ ∃ common w rest rest', cs = common ++ w :: rest ∧ ds = common ++ 'n' :: rest' ∧ Leads w

theorem Leads.ne {w c : Char} (hw : Leads w) (hc : isNameStart c = false) : w ≠ c := by
  rintro rfl
  rw [hw.1] at hc
  cases hc

namespace Veers

variable {cs ds : List Char}

theorem append_left (h : Veers cs ds) (own : List Char) : Veers (own ++ cs) (own ++ ds) := by
  rcases h with rfl | ⟨common, w, rest, rest', rfl, rfl, hw⟩
  · exact .inl rfl
  · exact .inr ⟨own ++ common, w, rest, rest', by simp, by simp, hw⟩

/-- Both texts begin alike, or both with a name. -/
theorem head (h : Veers cs ds) :
    ds.head? = cs.head? ∨ ∃ w, Leads w ∧ cs.head? = some w ∧ ds.head? = some 'n' := by
  rcases h with rfl | ⟨common, w, rest, rest', rfl, rfl, hw⟩
  · exact .inl rfl
  · cases common with
    | nil => exact .inr ⟨w, hw, rfl, rfl⟩
    | cons c common => exact .inl rfl

theorem head_eq (h : Veers cs ds) {c : Char} (hc : isNameStart c = false) :
    ds.head? = some c ↔ cs.head? = some c := by
  rcases h.head with heq | ⟨w, hw, hcs, hds⟩
  · rw [heq]
  · rw [hcs, hds, Option.some.injEq, Option.some.injEq]
    have hn : Leads 'n' := ⟨rfl, rfl⟩
    exact ⟨fun h => absurd h (hn.ne hc), fun h => absurd h (hw.ne hc)⟩

/-- A class that has all beginnings of names or none ends at the same place in both texts. -/
theorem takeWhile_eq (h : Veers cs ds) {p : Char → Bool} (hp : ∀ w, Leads w → p w = p 'n')
    {own : List Char} (hown : ((own ++ cs).takeWhile p).length = own.length) :
    (own ++ cs).takeWhile p = own ∧ (own ++ ds).takeWhile p = own := by
  have htake : (own ++ cs).takeWhile p = own := by
    have hprefix := List.prefix_iff_eq_take.mp (List.takeWhile_prefix p (l := own ++ cs))
    rwa [hown, List.take_left] at hprefix
  have hall : ∀ c ∈ own, p c = true := by
    rw [← htake]
    exact List.all_eq_true.mp List.all_takeWhile
  rw [List.takeWhile_append_of_pos hall] at htake
  rw [List.takeWhile_append_of_pos hall, List.takeWhile_append_of_pos hall]
  have hcs : cs.takeWhile p = [] := by simpa using htake
  have hds : ds.takeWhile p = [] := by
    rcases h.head with heq | ⟨w, hw, hhead, hhead'⟩
    · cases cs with
      | nil => rw [List.head?_eq_none_iff.mp heq]; rfl
      | cons c cs =>
        obtain ⟨ds, rfl⟩ := List.head?_eq_some_iff.mp heq
        have hc : p c = false := by simpa [List.takeWhile_cons] using hcs
        simp [hc]
    · obtain ⟨rest, rfl⟩ := List.head?_eq_some_iff.mp hhead
      obtain ⟨rest', rfl⟩ := List.head?_eq_some_iff.mp hhead'
      have hw' : p w = false := by simpa [List.takeWhile_cons] using hcs
      rw [hp w hw] at hw'
      simp [hw']
  simp [hcs, hds]

/-- A text without beginnings of names is in front of both or of none. -/
theorem isPrefixOf_eq (h : Veers cs ds) {op : List Char} (hop : ∀ c ∈ op, isNameStart c = false) :
    op.isPrefixOf ds = op.isPrefixOf cs := by
  rcases h with rfl | ⟨common, w, rest, rest', rfl, rfl, hw⟩
  · rfl
  have hshort : ∀ {x : Char} {rest : List Char}, isNameStart x = true →
      (op <+: common ++ x :: rest ↔ op <+: common) := by
    intro x rest hx
    constructor
    · intro hprefix
      rcases List.prefix_or_prefix_of_prefix hprefix (List.prefix_append common (x :: rest))
        with h | ⟨t, rfl⟩
      · exact h
      · cases t with
        | nil => simp
        | cons y t =>
          obtain ⟨rest', heq⟩ := hprefix
          obtain rfl : y = x := by simpa using (congrArg (·[common.length]?) heq)
          rw [hop y (by simp)] at hx
          cases hx
    · exact fun hprefix => hprefix.trans (List.prefix_append common _)
  rw [Bool.eq_iff_iff, List.isPrefixOf_iff_prefix, List.isPrefixOf_iff_prefix, hshort rfl,
    hshort hw.1]

end Veers

/-! ### Quoted text and comments -/

section
variable {own cs : List Char}

/-- Digits that are asked for stand in front of what is no digit. -/
theorem hexAhead_append {c : Char} (hc : c ∈ own) (hhex : isHex c = false) (n : Nat)
    (cs ds : List Char) :
    hexAhead n (own ++ cs) = hexAhead n (own ++ ds) := by
  by_cases hle : n ≤ own.length
  · rw [hexAhead, hexAhead, List.take_append_of_le_length hle, List.take_append_of_le_length hle]
  · have hfalse : ∀ cs, hexAhead n (own ++ cs) = false := by
      intro cs
      have hmem : c ∈ (own ++ cs).take n := by
        rw [List.take_append, List.take_of_length_le (by omega)]
        exact List.mem_append_left _ hc
      rw [hexAhead, Bool.and_eq_false_iff, List.all_eq_false]
      exact .inr ⟨c, hmem, by simp [hhex]⟩
    rw [hfalse, hfalse]

theorem exists_of_append_eq_cons {c : Char} {rest : List Char} (h : own ++ cs = c :: rest)
    (hlength : 0 < own.length) : ∃ own', own = c :: own' ∧ own' ++ cs = rest := by
  rcases List.append_eq_cons_iff.mp h with ⟨rfl, -⟩ | ⟨own', rfl, hrest⟩
  · cases hlength
  · exact ⟨own', rfl, hrest.symm⟩

/-- A string ends with its quote, and what is behind the quote does not matter. -/
theorem stringRest_append (h : stringRest (own ++ cs) = some own.length) :
    '"' ∈ own ∧ ∀ ds, stringRest (own ++ ds) = some own.length := by
  generalize htext : own ++ cs = text at h
  fun_induction stringRest text generalizing own with
  | case1 rest =>
    have hlength := Option.some.inj h
    obtain ⟨own, rfl, -⟩ := exists_of_append_eq_cons htext (by omega)
    obtain rfl : own = [] := by simpa [eq_comm] using hlength
    exact ⟨by simp, fun ds => by simp [stringRest]⟩
  | case2 c rest fits hfits =>
    rename_i ih
    obtain ⟨n, hn, hlength⟩ := Option.map_eq_some_iff.mp h
    obtain ⟨own, rfl, htail⟩ := exists_of_append_eq_cons htext (by omega)
    obtain ⟨own, rfl, hrest⟩ := exists_of_append_eq_cons htail (by simp at hlength; omega)
    obtain rfl : n = own.length := by simpa using hlength
    obtain ⟨hquote, hown⟩ := ih hrest hn
    refine ⟨by simp [hquote], fun ds => ?_⟩
    have hhex : ∀ n, hexAhead n (own ++ ds) = hexAhead n rest := by
      intro n
      rw [← hrest]
      exact hexAhead_append hquote (by decide) n ds cs
    show stringRest ('\\' :: c :: (own ++ ds)) = _
    unfold stringRest
    simp only [hhex, hown ds]
    rw [if_pos hfits]
    rfl
  | case3 => cases h
  | case4 => cases h
  | case5 c rest hp hq hplain ih =>
    obtain ⟨n, hn, hlength⟩ := Option.map_eq_some_iff.mp h
    obtain ⟨own, rfl, hrest⟩ := exists_of_append_eq_cons htext (by omega)
    obtain rfl : n = own.length := by simpa using hlength
    obtain ⟨hquote, hown⟩ := ih hrest hn
    refine ⟨by simp [hquote], fun ds => ?_⟩
    rw [List.cons_append, stringRest, if_neg hplain, hown ds]
    · rfl
    · exact hp
    · rintro _ _ rfl _
      simp at hplain
  | case6 => cases h

theorem rawRest_append (h : rawRest (own ++ cs) = some own.length) (ds : List Char) :
    rawRest (own ++ ds) = some own.length := by
  generalize htext : own ++ cs = text at h
  fun_induction rawRest text generalizing own with
  | case1 rest =>
    have hlength := Option.some.inj h
    obtain ⟨own, rfl, -⟩ := exists_of_append_eq_cons htext (by omega)
    obtain rfl : own = [] := by simpa [eq_comm] using hlength
    simp [rawRest]
  | case2 c rest hplain ih =>
    obtain ⟨n, hn, hlength⟩ := Option.map_eq_some_iff.mp h
    obtain ⟨own, rfl, hrest⟩ := exists_of_append_eq_cons htext (by omega)
    obtain rfl : n = own.length := by simpa using hlength
    rw [List.cons_append, rawRest, ih hrest hn]
    · rfl
    · exact hplain
  | case3 => cases h

theorem commentRest_append (h : commentRest (own ++ cs) = some own.length) :
    2 ≤ own.length ∧ ∀ ds, commentRest (own ++ ds) = some own.length := by
  generalize htext : own ++ cs = text at h
  fun_induction commentRest text generalizing own with
  | case1 rest =>
    have hlength := Option.some.inj h
    obtain ⟨own, rfl, htail⟩ := exists_of_append_eq_cons htext (by omega)
    obtain ⟨own, rfl, -⟩ := exists_of_append_eq_cons htail (by simp at hlength; omega)
    obtain rfl : own = [] := by simpa [eq_comm] using hlength
    simp [commentRest]
  | case2 c rest hplain ih =>
    obtain ⟨n, hn, hlength⟩ := Option.map_eq_some_iff.mp h
    obtain ⟨own, rfl, hrest⟩ := exists_of_append_eq_cons htext (by omega)
    obtain rfl : n = own.length := by simpa using hlength
    obtain ⟨htwo, hown⟩ := ih hrest hn
    obtain ⟨d, own, rfl⟩ := List.exists_cons_of_length_pos (by omega : 0 < own.length)
    refine ⟨by simp, fun ds => ?_⟩
    rw [List.cons_append, commentRest, hown ds]
    · rfl
    · rintro _ rfl heq
      obtain ⟨rfl, -⟩ := List.cons.inj heq
      exact hplain (own ++ cs) rfl hrest.symm
  | case3 => cases h

/-- Digits that are asked for, with the closing quote behind them. -/
theorem runeDigits_append {n : Nat} (hn : n < own.length) (cs ds : List Char) :
    (hexAhead n (own ++ cs) && (own ++ cs)[n]? == some '\'') =
      (hexAhead n (own ++ ds) && (own ++ ds)[n]? == some '\'') := by
  have htake : ∀ es : List Char, (own ++ es).take n = own.take n := fun es =>
    List.take_append_of_le_length (Nat.le_of_lt hn)
  rw [hexAhead, hexAhead, htake, htake, List.getElem?_append_left hn, List.getElem?_append_left hn]

theorem runeRest_append (h : runeRest (own ++ cs) = some own.length) (ds : List Char) :
    runeRest (own ++ ds) = some own.length := by
  generalize htext : own ++ cs = text at h
  unfold runeRest at h
  split at h
  case h_1 | h_2 | h_3 =>
    split at h
    case isFalse => cases h
    case isTrue hdigits =>
      have hlength := Option.some.inj h
      obtain ⟨own, rfl, htail⟩ := exists_of_append_eq_cons htext (by omega)
      obtain ⟨own, rfl, hrest⟩ := exists_of_append_eq_cons htail (by simp at hlength; omega)
      rw [← hrest, runeDigits_append (by simp at hlength; omega) cs ds] at hdigits
      rw [List.cons_append, List.cons_append, runeRest, if_pos hdigits, ← h]
  case h_4 a tail _ _ _ =>
    split at h
    case isFalse => cases h
    case isTrue hmem =>
      have hlength := Option.some.inj h
      obtain ⟨own, rfl, htail⟩ := exists_of_append_eq_cons htext (by omega)
      obtain ⟨own, rfl, hrest⟩ := exists_of_append_eq_cons htail (by simp at hlength; omega)
      obtain ⟨own, rfl, -⟩ := exists_of_append_eq_cons hrest (by simp at hlength; omega)
      obtain rfl : own = [] := by simpa [eq_comm] using hlength
      show runeRest ('\\' :: a :: '\'' :: ds) = _
      rw [runeRest, if_pos hmem] <;> assumption
  case h_5 a b c tail _ _ _ _ =>
    split at h
    case isFalse => cases h
    case isTrue hmem =>
      have hlength := Option.some.inj h
      obtain ⟨own, rfl, htail⟩ := exists_of_append_eq_cons htext (by omega)
      obtain ⟨own, rfl, hb⟩ := exists_of_append_eq_cons htail (by simp at hlength; omega)
      obtain ⟨own, rfl, hc⟩ := exists_of_append_eq_cons hb (by simp at hlength; omega)
      obtain ⟨own, rfl, hrest⟩ := exists_of_append_eq_cons hc (by simp at hlength; omega)
      obtain ⟨own, rfl, -⟩ := exists_of_append_eq_cons hrest (by simp at hlength; omega)
      obtain rfl : own = [] := by simpa [eq_comm] using hlength
      show runeRest ('\\' :: a :: b :: c :: '\'' :: ds) = _
      rw [runeRest, if_pos hmem] <;> assumption
  case h_6 c tail _ _ =>
    split at h
    case isTrue => cases h
    case isFalse hplain =>
      have hlength := Option.some.inj h
      obtain ⟨own, rfl, hrest⟩ := exists_of_append_eq_cons htext (by omega)
      obtain ⟨own, rfl, -⟩ := exists_of_append_eq_cons hrest (by simp at hlength; omega)
      obtain rfl : own = [] := by simpa [eq_comm] using hlength
      show runeRest (c :: '\'' :: ds) = _
      have hc : c ≠ '\\' := by
        rintro rfl
        simp at hplain
      rw [runeRest, if_neg hplain]
      · rfl
      all_goals intros; exact hc ‹_›
  case h_7 => cases h

end

/-! ### The length of a lexeme -/

theorem number_of_veers (text : List Char) {cs ds : List Char} {n : Nat} (h : Veers cs ds)
    (hn : number (text ++ cs) = some n) (hle : n ≤ text.length) : number (text ++ ds) = some n := by
  rcases h with rfl | ⟨common, w, rest, rest', rfl, rfl, -⟩
  · exact hn
  obtain ⟨own, after, rfl, rfl⟩ : ∃ own after, text = own ++ after ∧ own.length = n :=
    ⟨text.take n, text.drop n, (List.take_append_drop n text).symm, by rw [List.length_take]; omega⟩
  rw [List.append_assoc, ← List.append_assoc after] at hn ⊢
  exact steady_number.replace avoids_number hn rest'

theorem number_none_of_veers (text : List Char) {cs ds : List Char} (h : Veers cs ds)
    (hn : number (text ++ cs) = none) : number (text ++ ds) = none := by
  rcases h with rfl | ⟨common, w, rest, rest', rfl, rfl, -⟩
  · exact hn
  rw [← List.append_assoc] at hn ⊢
  exact steady_number.replace_none avoids_number hn rest'

theorem find?_operators_of_veers {cs ds : List Char} (h : Veers cs ds) :
    (operators.find? fun op => op.toList.isPrefixOf ds) =
      operators.find? fun op => op.toList.isPrefixOf cs := by
  have hplain : operators.all (fun op => !op.toList.any isNameStart) = true := by decide
  refine List.find?_congr fun op hop => h.isPrefixOf_eq fun c hc => ?_
  have hop := List.all_eq_true.mp hplain op hop
  rw [Bool.not_eq_true', List.any_eq_false] at hop
  exact Bool.eq_false_iff.mpr (hop c hc)

/-- A lexeme that ends at a mark of its own is measured by where the mark is. -/
theorem map_kind_eq_some {rest rest' : Option Nat} {kind kind' : Kind} {n : Nat}
    (hrest : rest = some n → rest' = some n) (h : rest.map (kind, ·) = some (kind', n)) :
    rest'.map (kind, ·) = some (kind', n) := by
  obtain ⟨m, hm, heq⟩ := Option.map_eq_some_iff.mp h
  obtain ⟨rfl, rfl⟩ := Prod.mk.inj heq
  rw [hrest hm]
  rfl

/-- How long a lexeme is stays when the text behind it changes from a name on. -/
theorem measure_of_veers {c : Char} {own cs ds : List Char} {kind : Kind} (h : Veers cs ds)
    (hown : measure c (own ++ cs) = some (kind, own.length)) :
    measure c (own ++ ds) = some (kind, own.length) := by
  have hall := h.append_left own
  have hhead : ∀ d, isNameStart d = false →
      ((own ++ ds).head? == some d) = ((own ++ cs).head? == some d) := by
    intro d hd
    rw [Bool.eq_iff_iff, beq_iff_eq, beq_iff_eq]
    exact hall.head_eq hd
  unfold measure at hown ⊢
  rw [hhead '/' (by decide), hhead '*' (by decide)]
  by_cases hblank : isBlank c = true
  · rw [if_pos hblank] at hown ⊢
    obtain ⟨rfl, hlength⟩ : Kind.blank = kind ∧ _ := by simpa using hown
    rw [(h.takeWhile_eq (fun w hw => hw.2) hlength).2]
  rw [if_neg hblank] at hown ⊢
  by_cases hline : (c == '/' && (own ++ cs).head? == some '/') = true
  · rw [if_pos hline] at hown ⊢
    obtain ⟨rfl, hlength⟩ : Kind.comment = kind ∧ _ := by simpa using hown
    have hnewline : ∀ w, Leads w → (w != '\n') = ('n' != '\n') := by
      intro w hw
      simpa using hw.ne (c := '\n') (by decide)
    rw [(h.takeWhile_eq hnewline hlength).2]
  rw [if_neg hline] at hown ⊢
  by_cases hopen : (c == '/' && (own ++ cs).head? == some '*') = true
  · rw [if_pos hopen] at hown ⊢
    obtain ⟨n, hn, heq⟩ := Option.map_eq_some_iff.mp hown
    obtain ⟨rfl, hlength⟩ := Prod.mk.inj heq
    obtain ⟨d, own, rfl⟩ := List.exists_cons_of_length_pos (by omega : 0 < own.length)
    obtain rfl : n = own.length := by simpa using hlength
    rw [List.cons_append, List.drop_succ_cons, List.drop_zero] at hn ⊢
    rw [(commentRest_append hn).2 ds]
    rfl
  rw [if_neg hopen] at hown ⊢
  by_cases hname : isNameStart c = true
  · rw [if_pos hname] at hown ⊢
    obtain ⟨hkind, hlength⟩ := Prod.mk.inj (Option.some.inj hown)
    have hpart : ∀ w, Leads w → isNamePart w = isNamePart 'n' := by
      intro w hw
      rw [isNamePart, hw.1]
      rfl
    obtain ⟨htake, htake'⟩ := h.takeWhile_eq hpart hlength
    rw [htake] at hkind
    rw [htake', ← hkind]
  rw [if_neg hname] at hown ⊢
  by_cases hquote : (c == '"') = true
  · rw [if_pos hquote] at hown ⊢
    exact map_kind_eq_some (fun hn => (stringRest_append hn).2 ds) hown
  rw [if_neg hquote] at hown ⊢
  by_cases hraw : (c == '\x60') = true
  · rw [if_pos hraw] at hown ⊢
    exact map_kind_eq_some (fun hn => rawRest_append hn ds) hown
  rw [if_neg hraw] at hown ⊢
  by_cases hrune : (c == '\'') = true
  · rw [if_pos hrune] at hown ⊢
    exact map_kind_eq_some (fun hn => runeRest_append hn ds) hown
  rw [if_neg hrune] at hown ⊢
  cases hnumber : number (c :: (own ++ cs)) with
  | some n =>
    rw [hnumber] at hown
    obtain ⟨rfl, hlength⟩ := Prod.mk.inj (Option.some.inj hown)
    have hnumber' := number_of_veers (c :: own) h hnumber (by simp; omega)
    rw [List.cons_append] at hnumber'
    rw [hnumber', ← hlength]
  | none =>
    rw [hnumber] at hown
    have hnumber' := number_none_of_veers (c :: own) h hnumber
    have hoperator := find?_operators_of_veers (h.append_left (c :: own))
    rw [List.cons_append] at hnumber' hoperator
    rw [hnumber', hoperator]
    exact hown

/-! ### Respelling -/

/-- The lexemes with the marked names replaced by `nil`. The first of them begins at the given
offset, and names are marked by where they begin. -/
def respell (marks : Nat → Bool) : Nat → List Lexeme → List Lexeme
  | _, [] => []
  | n, l :: ls =>
    (if l.kind = .name ∧ marks n = true then ⟨.name, nilName.toList⟩ else l) ::
      respell marks (n + Text.byteLength l.text) ls

/-- The text of lexemes in a row. -/
def spelled (ls : List Lexeme) : List Char :=
  (ls.map (·.text)).flatten

@[simp] theorem spelled_nil : spelled [] = [] := rfl

@[simp] theorem spelled_cons (l : Lexeme) (ls : List Lexeme) :
    spelled (l :: ls) = l.text ++ spelled ls :=
  rfl

theorem leads_of_name {c : Char} {cs : List Char} {n : Nat} (h : measure c cs = some (.name, n)) :
    Leads c := by
  refine ⟨(measure_name h).1, ?_⟩
  unfold measure at h
  split at h
  · cases h
  · next hblank => simpa using hblank

theorem isNamePart_of_leads {w : Char} (hw : Leads w) : isNamePart w = true := by
  rw [isNamePart, hw.1]
  rfl

theorem takeWhile_drop (p : Char → Bool) (cs : List Char) :
    (cs.drop (cs.takeWhile p).length).takeWhile p = [] := by
  have hsplit := List.prefix_iff_eq_append.mp (List.takeWhile_prefix p (l := cs))
  have htake : (cs.takeWhile p ++ cs.drop (cs.takeWhile p).length).takeWhile p =
      cs.takeWhile p ++ (cs.drop (cs.takeWhile p).length).takeWhile p :=
    List.takeWhile_append_of_pos (List.all_eq_true.mp List.all_takeWhile)
  rw [hsplit] at htake
  simpa using htake

/-- In front of what is no part of a name, `nil` is a name. -/
theorem measure_nil {cs : List Char} (h : cs.takeWhile isNamePart = []) :
    measure 'n' ('i' :: 'l' :: cs) = some (.name, 2) := by
  have htake : ('i' :: 'l' :: cs).takeWhile isNamePart = ['i', 'l'] := by
    have hall : ∀ c ∈ ['i', 'l'], isNamePart c = true := List.all_eq_true.mp (by decide)
    rw [← List.singleton_append, ← List.singleton_append (l := cs), ← List.append_assoc,
      List.singleton_append, List.takeWhile_append_of_pos hall, h]
    rfl
  unfold measure
  rw [if_neg (by decide), if_neg (by simp), if_neg (by simp), if_pos (by decide), htake]
  rfl

theorem lexemes_cons {c : Char} {cs : List Char} {kind : Kind} {more : Nat} {rest : List Lexeme}
    (hm : measure c cs = some (kind, more)) (hrest : lexemes (cs.drop more) = some rest) :
    lexemes (c :: cs) = some (⟨kind, c :: cs.take more⟩ :: rest) := by
  rw [lexemes, hm]
  simp [hrest]

/-- The text with names replaced has the lexemes with names replaced. -/
theorem lexemes_respell (marks : Nat → Bool) {cs : List Char} {ls : List Lexeme}
    (h : lexemes cs = some ls) (n : Nat) :
    lexemes (spelled (respell marks n ls)) = some (respell marks n ls) ∧
      Veers cs (spelled (respell marks n ls)) := by
  fun_induction lexemes cs generalizing ls n with
  | case1 =>
    cases h
    exact ⟨by simp [respell, lexemes], .inl rfl⟩
  | case2 c cs ih =>
    simp only [Option.bind_eq_bind, Option.pure_def, Option.bind_eq_some_iff, Prod.exists,
      Option.some.injEq] at h
    obtain ⟨kind, more, hm, rest, hrest, rfl⟩ := h
    obtain ⟨hlexemes, hveers⟩ := ih more hrest (n + Text.byteLength (c :: cs.take more))
    rw [respell, spelled_cons]
    generalize respell marks _ rest = rest' at hlexemes hveers
    split
    · next hmarked =>
      -- A name ends where no name can go on, and there it ends in the new text as well.
      obtain ⟨rfl, -⟩ := hmarked
      obtain ⟨hstart, rfl⟩ := measure_name hm
      have hend : (spelled rest').takeWhile isNamePart = [] := by
        have hbegin : ∀ w, Leads w → isNamePart w = isNamePart 'n' := fun w hw => by
          rw [isNamePart_of_leads hw]
          rfl
        have hlength :
            (([] ++ cs.drop (cs.takeWhile isNamePart).length).takeWhile isNamePart).length =
            ([] : List Char).length := by simp [takeWhile_drop]
        exact (hveers.takeWhile_eq hbegin hlength).2
      exact ⟨lexemes_cons (measure_nil hend) hlexemes,
        .inr ⟨[], c, cs, 'i' :: 'l' :: spelled rest', rfl, rfl, leads_of_name hm⟩⟩
    · rcases Nat.le_total more cs.length with hle | hle
      · have hlength : (cs.take more).length = more := by rw [List.length_take]; omega
        have hm' := measure_of_veers hveers (show measure c (cs.take more ++ cs.drop more) =
          some (kind, (cs.take more).length) by rw [List.take_append_drop, hlength, hm])
        have htext := lexemes_cons hm' ((congrArg lexemes List.drop_left).trans hlexemes)
        rw [List.take_left] at htext
        refine ⟨htext, ?_⟩
        have hall := hveers.append_left (c :: cs.take more)
        rwa [List.cons_append, List.take_append_drop] at hall
      · -- Nothing is behind a lexeme that is longer than its text.
        have hdrop := List.drop_eq_nil_of_le hle
        rw [hdrop] at hveers
        have hnil : spelled rest' = [] := by
          rcases hveers with hnil | ⟨common, w, _, _, hnil, -, -⟩
          · exact hnil.symm
          · simp at hnil
        rw [hnil] at hlexemes ⊢
        have htext := lexemes_cons hm ((congrArg lexemes hdrop).trans hlexemes)
        rw [List.take_of_length_le hle] at htext ⊢
        rw [List.append_nil]
        exact ⟨htext, .inl rfl⟩

end Lexeme

/-! ### Tokens -/

open Lexeme (respell spelled)

/-- The second text is the first one with the marked names replaced by `nil`, and both are cut into
tokens alike. Each text begins at a point of its own. -/
inductive Respelled (marks : Nat → Bool) :
    Position → List Char → List Token → Position → List Char → List Token → Prop where
  | nil (p p' : Position) (cs : List Char) : Respelled marks p cs [] p' cs []
  | cons {p p' : Position} (gap word word' rest rest' : List Char) {t t' : Token}
      {ts ts' : List Token}
      (hword : word ≠ [] ∧ (t.kind = .name → ∀ c ∈ word, Lexeme.isNamePart c = true))
      (hword' : word' = if t.kind = .name ∧ marks t.span.start = true then nilName.toList else word)
      (ht : t = ⟨t.kind, String.ofList word, (p.after gap).spanOf word, t.fresh⟩)
      (ht' : t' = ⟨t.kind, String.ofList word', (p'.after gap).spanOf word', t.fresh⟩)
      (h : Respelled marks ((p.after gap).after word) rest ts
        ((p'.after gap).after word') rest' ts') :
      Respelled marks p (gap ++ (word ++ rest)) (t :: ts) p' (gap ++ (word' ++ rest')) (t' :: ts')

namespace Respelled

variable {marks : Nat → Bool} {p p' : Position} {cs cs' : List Char} {ts ts' : List Token}

theorem behind (gap : List Char) (h : Respelled marks (p.after gap) cs ts (p'.after gap) cs' ts') :
    Respelled marks p (gap ++ cs) ts p' (gap ++ cs') ts' := by
  cases h with
  | nil => exact .nil p p' _
  | cons gap' word word' rest rest' hword hword' ht ht' h =>
    rw [← List.append_assoc, ← List.append_assoc gap gap']
    refine .cons (gap ++ gap') word word' rest rest' hword hword' ?_ ?_ ?_
    · rwa [Position.after_append]
    · rwa [Position.after_append]
    · rwa [Position.after_append, Position.after_append]

end Respelled

theorem respelled_ofLexemes (marks : Nat → Bool) (p p' : Position) (fresh : Bool) {ls : List Lexeme}
    (h : ∀ l ∈ ls, l.Fits) :
    Respelled marks p (spelled ls) (Token.ofLexemes p fresh ls) p'
      (spelled (respell marks p.offset ls)) (Token.ofLexemes p' fresh
        (respell marks p.offset ls)) := by
  induction ls generalizing p p' fresh with
  | nil => exact .nil p p' _
  | cons l ls ih =>
    obtain ⟨hl, hls⟩ := List.forall_mem_cons.mp h
    have hoffset : p.offset + Text.byteLength l.text = (p.after l.text).offset := by simp
    have hskip : ∀ fresh', Respelled marks p (l.text ++ spelled ls)
        (Token.ofLexemes (p.after l.text) fresh' ls) p'
        (l.text ++ spelled (respell marks (p.after l.text).offset ls))
        (Token.ofLexemes (p'.after l.text) fresh' (respell marks (p.after l.text).offset ls)) :=
      fun fresh' => (ih (p.after l.text) (p'.after l.text) fresh' hls).behind l.text
    have htoken : ∀ kind word', l.kind = kind →
        (word' = if kind = .name ∧ marks p.offset = true then nilName.toList else l.text) →
        Respelled marks p (l.text ++ spelled ls)
        (⟨kind, String.ofList l.text, p.spanOf l.text, fresh⟩ ::
          Token.ofLexemes (p.after l.text) false ls) p'
        (word' ++ spelled (respell marks (p.after l.text).offset ls))
        (⟨kind, String.ofList word', p'.spanOf word', fresh⟩ ::
          Token.ofLexemes (p'.after word') false (respell marks (p.after l.text).offset ls)) := by
      rintro kind word' rfl hword'
      exact .cons [] l.text word' _ _ hl hword' rfl rfl
        (ih (p.after l.text) (p'.after word') false hls)
    rw [respell, Lexeme.spelled_cons, Lexeme.spelled_cons, hoffset, Token.ofLexemes]
    by_cases hmarked : l.kind = .name ∧ marks p.offset = true
    · rw [if_pos hmarked]
      simp only [hmarked.1]
      exact htoken .name nilName.toList hmarked.1 (by rw [if_pos ⟨rfl, hmarked.2⟩])
    · have hplain := htoken l.kind l.text rfl (by rw [if_neg hmarked])
      rw [if_neg hmarked]
      cases hkind : l.kind with
      | blank | comment =>
        simp only [Token.ofLexemes, hkind]
        exact hskip _
      | _ =>
        simp only [Token.ofLexemes, hkind] at hplain ⊢
        exact hplain

theorem Position.line_after (p : Position) (cs : List Char) :
    (p.after cs).line = p.line + cs.count '\n' := by
  induction cs generalizing p with
  | nil => rfl
  | cons c cs ih =>
    rw [after_cons, ih, next]
    by_cases hc : c = '\n'
    · rw [if_pos hc, hc, List.count_cons_self]
      dsimp only
      omega
    · rw [if_neg hc, List.count_cons_of_ne hc]

/-- A token and the one in its place. -/
structure Respells (marks : Nat → Bool) (t t' : Token) : Prop where
  kind_eq : t'.kind = t.kind
  fresh_eq : t'.fresh = t.fresh
  text_eq : t'.text = if t.kind = .name ∧ marks t.span.start = true then nilName else t.text
  line_eq : t'.span.line = t.span.line
  line_pos : 0 < t.span.line
  start_zero : t.span.start = 0 → t'.span.start = 0
  stop_pos : 0 < t.span.stop

theorem Respelled.respells {marks : Nat → Bool} {p p' : Position} {cs cs' : List Char}
    {ts ts' : List Token} (h : Respelled marks p cs ts p' cs' ts') (hline : p'.line = p.line)
    (hpos : 0 < p.line) (hzero : p.offset = 0 → p'.offset = 0) :
    List.Forall₂ (Respells marks) ts ts' := by
  induction h with
  | nil => exact .nil
  | @cons p p' gap word word' rest rest' t t' ts ts' hword hword' ht ht' h ih =>
    have hlength : 0 < Text.byteLength word := by
      obtain ⟨c, word, rfl⟩ := List.exists_cons_of_ne_nil hword.1
      have := c.utf8Size_pos
      rw [Text.byteLength_cons]
      omega
    have hnewlines : word'.count '\n' = word.count '\n' := by
      rw [hword']
      split
      · next hmarked =>
          rw [List.count_eq_zero.mpr (not_mem_of_isNamePart (hword.2 hmarked.1)).1]; rfl
      · rfl
    have hspan : t.span = (p.after gap).spanOf word := congrArg Token.span ht
    have htext : t.text = String.ofList word := congrArg Token.text ht
    refine .cons ⟨by rw [ht'], by rw [ht'], ?_, ?_, ?_, ?_, ?_⟩ (ih ?_ ?_ ?_)
    · rw [ht', hword', htext, apply_ite String.ofList, String.ofList_toList]
    · rw [ht', hspan]
      simp [Position.spanOf, Position.line_after, hline]
    · simp only [hspan, Position.spanOf, Position.line_after]
      omega
    · rw [ht', hspan]
      simp only [Position.spanOf, Position.offset_after]
      omega
    · simp only [hspan, Position.spanOf]
      omega
    · simp [Position.line_after, hline, hnewlines]
    · simp [Position.line_after]; omega
    · simp; omega

/-- Values that go with different keys are given by a function, which may be fixed at one key. -/
theorem exists_extension {α β κ γ : Type} {R : α → β → Prop} {l : List α} {l' : List β}
    (h : List.Forall₂ R l l') (key : α → κ) (hkey : l.Pairwise fun a b => key a ≠ key b)
    (val : β → γ) {k : κ} {v : γ} (hfixed : ∀ a b, R a b → key a = k → val b = v) :
    ∃ φ : κ → γ, φ k = v ∧ List.Forall₂ (fun a b => R a b ∧ φ (key a) = val b) l l' := by
  classical
  induction h with
  | nil => exact ⟨fun _ => v, rfl, .nil⟩
  | @cons a b l l' hab hrest ih =>
    obtain ⟨hne, hkey⟩ := List.pairwise_cons.mp hkey
    obtain ⟨φ, hφ, hall⟩ := ih hkey
    refine ⟨Function.update φ (key a) (val b), ?_, .cons ⟨hab, Function.update_self ..⟩ ?_⟩
    · by_cases hk : k = key a
      · rw [hk, Function.update_self]
        exact hfixed a b hab hk.symm
      · rw [Function.update_of_ne hk, hφ]
    · rw [List.forall₂_iff_zip] at hall ⊢
      refine ⟨hall.1, fun {c d} hcd => ?_⟩
      obtain ⟨hcd', hval⟩ := hall.2 hcd
      exact ⟨hcd', by rw [Function.update_of_ne (hne c (List.of_mem_zip hcd).1).symm, hval]⟩

/-- Tokens that are respelled one by one are renamed. -/
theorem exists_renaming {marks : Nat → Bool} {p : Position} {cs : List Char} {ts ts' : List Token}
    (hlaid : Laid p cs ts) (h : List.Forall₂ (Respells marks) ts ts') :
    ∃ σ : Renaming, ts' = ts.map σ.token ∧ ∀ s, σ.marked s = marks s.start := by
  obtain ⟨start, hstart, h⟩ := exists_extension h (·.span.start)
    (hlaid.pairwise.imp fun ht => Nat.ne_of_lt ht.1) (·.span.start) (k := 0) (v := 0)
    fun t t' ht => ht.start_zero
  obtain ⟨stop, hstop, h⟩ := exists_extension h (·.span.stop)
    (hlaid.pairwise_stop_lt.imp Nat.ne_of_lt) (·.span.stop) (k := 0) (v := 0)
    fun t t' ht hzero => absurd hzero (Nat.ne_of_gt ht.1.stop_pos)
  obtain ⟨column, hcolumn, h⟩ := exists_extension h (fun t => (t.span.line, t.span.column))
    (hlaid.pairwise.imp fun ht heq => by
      obtain ⟨hline, hcolumn⟩ := Prod.mk.inj heq
      omega) (·.span.column) (k := (0, 0)) (v := 0)
    fun t t' ht hzero => absurd (Prod.mk.inj hzero).1 (Nat.ne_of_gt ht.1.1.line_pos)
  refine ⟨⟨fun s => marks s.start, start, stop, fun line n => column (line, n), hstart, hstop,
    hcolumn⟩, ?_, fun s => rfl⟩
  refine (List.forall₂_eq_eq_eq ▸ List.forall₂_map_left_iff.mpr (h.imp fun t t' ht => ?_) :
    _ = _).symm
  obtain ⟨⟨⟨ht, hs⟩, he⟩, hc⟩ := ht
  obtain ⟨kind, text, ⟨_, _, _, _⟩, fresh⟩ := t'
  simp only [Renaming.token, Renaming.span, Token.mk.injEq, Span.mk.injEq]
  refine ⟨ht.kind_eq.symm, ?_, ⟨hs, he, ht.line_eq.symm, hc⟩, ht.fresh_eq.symm⟩
  exact .trans (by simp) ht.text_eq.symm

namespace Respelled

variable {marks : Nat → Bool} {p p' : Position} {cs cs' : List Char} {ts : List Token}
  {σ : Renaming}

theorem laid {ts' : List Token} (h : Respelled marks p cs ts p' cs' ts') : Laid p cs ts := by
  induction h with
  | nil p p' cs => exact .nil p cs
  | cons gap word word' rest rest' hword hword' ht ht' h ih =>
    exact .cons gap word rest (congrArg Token.text ht) (congrArg Token.span ht) hword.1 hword.2 ih

/-- The text up to the end of a token, when no name up to it is marked. -/
theorem exists_of_mem (h : Respelled marks p cs ts p' cs' (ts.map σ.token)) {t : Token}
    (ht : t ∈ ts)
    (hplain : ∀ u ∈ ts, u.span.start < t.span.stop → u.kind = .name → marks u.span.start = false) :
    ∃ text rest rest', cs = text ++ rest ∧ cs' = text ++ rest' ∧
      t.span.stop = p.offset + Text.byteLength text ∧
      σ.stop t.span.stop = p'.offset + Text.byteLength text := by
  generalize hts : ts.map σ.token = ts' at h
  have hlaid := h.laid
  induction h with
  | nil => cases ht
  | @cons p p' gap word word' rest rest' u u' us us' hword hword' hu hu' h ih =>
    obtain ⟨hfirst, hrest⟩ := List.cons.inj hts
    obtain ⟨hplain, hplain'⟩ := List.forall_mem_cons.mp hplain
    have hspan : u.span = (p.after gap).spanOf word := congrArg Token.span hu
    have hspan' : σ.span u.span = (p'.after gap).spanOf word' := by rw [← σ.span_token, hfirst, hu']
    have hsame : word' = word := by
      rw [hword', if_neg]
      rintro ⟨hkind, hmarked⟩
      rw [hplain (hlaid.first_lt_stop ht) hkind] at hmarked
      cases hmarked
    rw [hsame] at h hspan' ⊢
    rcases List.mem_cons.mp ht with rfl | ht
    · refine ⟨gap ++ word, rest, rest', by simp, by simp, ?_, ?_⟩
      · simp [hspan, Position.spanOf, Nat.add_assoc]
      · rw [show σ.stop t.span.stop = (σ.span t.span).stop from rfl, hspan']
        simp [Position.spanOf, Nat.add_assoc]
    · obtain ⟨text, after, after', rfl, rfl, hstop, hstop'⟩ := ih ht hplain' hrest h.laid
      refine ⟨gap ++ (word ++ text), after, after', by simp, by simp, ?_, ?_⟩
      · rw [hstop]
        simp only [Position.offset_after, Text.byteLength_append]
        omega
      · rw [hstop', hsame]
        simp only [Position.offset_after, Text.byteLength_append]
        omega

/-- The text from the first token up to the end of one, when no name between them is marked. -/
theorem exists_of_upTo {first last : Token} {later : List Token}
    (h : Respelled marks p cs (first :: later) p' cs' ((first :: later).map σ.token))
    (hlast : last ∈ first :: later) (hplain : ∀ t ∈ first :: later, t.span.start < last.span.stop →
      t.kind = .name → marks t.span.start = false) :
    ∃ gap text rest rest', cs = gap ++ (text ++ rest) ∧ cs' = gap ++ (text ++ rest') ∧
      first.span.start = p.offset + Text.byteLength gap ∧
      last.span.stop = first.span.start + Text.byteLength text ∧
      σ.start first.span.start = p'.offset + Text.byteLength gap ∧
      σ.stop last.span.stop = σ.start first.span.start + Text.byteLength text := by
  have hlaid := h.laid
  obtain ⟨hfirst, hlater⟩ := List.forall_mem_cons.mp hplain
  generalize hts : (first :: later).map σ.token = ts' at h
  cases h with
  | cons gap word word' rest rest' hword hword' ht ht' h =>
    obtain ⟨htoken, rfl⟩ := List.cons.inj hts
    have hspan : first.span = (p.after gap).spanOf word := congrArg Token.span ht
    have hspan' : σ.span first.span = (p'.after gap).spanOf word' := by
      rw [← σ.span_token, htoken, ht']
    have hsame : word' = word := by
      rw [hword', if_neg]
      rintro ⟨hkind, hmarked⟩
      rw [hfirst (hlaid.first_lt_stop hlast) hkind] at hmarked
      cases hmarked
    rw [hsame] at h hspan' ⊢
    have hstart : first.span.start = p.offset + Text.byteLength gap := by
      rw [hspan]
      simp [Position.spanOf]
    have hstart' : σ.start first.span.start = p'.offset + Text.byteLength gap := by
      rw [show σ.start first.span.start = (σ.span first.span).start from rfl, hspan']
      simp [Position.spanOf]
    rcases List.mem_cons.mp hlast with rfl | hlast
    · refine ⟨gap, word, rest, rest', rfl, rfl, hstart, ?_, hstart', ?_⟩
      · simp [hspan, Position.spanOf]
      · rw [hstart', show σ.stop last.span.stop = (σ.span last.span).stop from rfl, hspan']
        simp [Position.spanOf]
    · obtain ⟨text, after, after', rfl, rfl, hstop, hstop'⟩ := h.exists_of_mem hlast hlater
      refine ⟨gap, word ++ text, after, after', by simp, by simp, hstart, ?_, hstart', ?_⟩
      · rw [hstop, hstart]
        simp only [Position.offset_after, Text.byteLength_append]
        omega
      · rw [hstop', hstart']
        simp only [Position.offset_after, Text.byteLength_append]
        omega

/-- The text of a span in which no name is marked stays. -/
theorem exists_of_spansIn (h : Respelled marks p cs ts p' cs' (ts.map σ.token)) {s : Span}
    (hs : Surface.SpansIn ts s) (hplain : ∀ t ∈ ts, s.start ≤ t.span.start → t.span.start < s.stop →
      t.kind = .name → marks t.span.start = false) :
    ∃ before text rest before' rest', cs = before ++ (text ++ rest) ∧
      cs' = before' ++ (text ++ rest') ∧
      s.start = p.offset + Text.byteLength before ∧ s.stop = s.start + Text.byteLength text ∧
      σ.start s.start = p'.offset + Text.byteLength before' ∧
      σ.stop s.stop = σ.start s.start + Text.byteLength text := by
  obtain ⟨skipped, first, later, rfl, last, hlast, rfl⟩ := hs
  induction skipped generalizing p p' cs cs' with
  | nil =>
    have hle : ∀ t ∈ first :: later, first.span.start ≤ t.span.start := by
      intro t ht
      rcases List.mem_cons.mp ht with rfl | ht
      · exact Nat.le_refl _
      · exact Nat.le_of_lt (List.rel_of_pairwise_cons h.laid.pairwise ht).1
    obtain ⟨gap, text, rest, rest', htext⟩ := h.exists_of_upTo hlast fun t ht =>
      hplain t ht (hle t ht)
    exact ⟨gap, text, rest, gap, rest', htext⟩
  | cons u skipped ih =>
    obtain ⟨-, hplain⟩ := List.forall_mem_cons.mp hplain
    generalize hts : (u :: skipped ++ first :: later).map σ.token = ts' at h
    cases h with
    | cons gap word word' rest rest' hword hword' ht ht' h =>
      obtain ⟨-, rfl⟩ := List.cons.inj hts
      obtain ⟨before, text, after, before', after', rfl, rfl, hstart, hstop, hstart', hstop'⟩ :=
        ih h hplain
      refine ⟨gap ++ (word ++ before), text, after, gap ++ (word' ++ before'),
        after', by simp, by simp, ?_, hstop, ?_, hstop'⟩
      · rw [hstart]
        simp only [Position.offset_after, Text.byteLength_append]
        omega
      · rw [hstart']
        simp only [Position.offset_after, Text.byteLength_append]
        omega

end Respelled

/-- The lexemes behind the tokens of a source. A byte order mark may stand in front of them. -/
theorem exists_lexemes {source : List Char} {ts : List Token} (h : tokens source = some ts) :
    ∃ mark ls, source = mark ++ spelled ls ∧ (∀ l ∈ ls, l.Fits) ∧
      ts = Token.ofLexemes (({} : Position).after mark) false ls ∧
      ∀ marks, tokens (mark ++ spelled (respell marks (Text.byteLength mark) ls)) =
        some (Token.ofLexemes (({} : Position).after mark) false
          (respell marks (Text.byteLength mark) ls)) := by
  unfold tokens at h
  split at h
  · next cs =>
    obtain ⟨ls, hls, rfl⟩ := Option.map_eq_some_iff.mp h
    refine ⟨['\ufeff'], ls, ?_, Lexeme.fits_of_lexemes hls, rfl, fun marks => ?_⟩
    · rw [← flatten_text_of_lexemes hls]
      rfl
    · show (lexemes _).map _ = _
      rw [List.append_eq, List.nil_append, (Lexeme.lexemes_respell marks hls _).1]
      rfl
  · next hmark =>
    obtain ⟨ls, hls, rfl⟩ := Option.map_eq_some_iff.mp h
    refine ⟨[], ls, (flatten_text_of_lexemes hls).symm, Lexeme.fits_of_lexemes hls, rfl,
      fun marks => ?_⟩
    obtain ⟨hlexemes, hveers⟩ := Lexeme.lexemes_respell marks hls (Text.byteLength [])
    rw [List.nil_append]
    unfold tokens
    split
    · next cs hspelled =>
      -- A byte order mark is no name, so the source has it as well.
      have hhead := (hveers.head_eq (c := '\ufeff') (by decide)).mp (by rw [hspelled]; rfl)
      cases source with
      | nil => cases hhead
      | cons c source => exact (hmark source (by simpa using hhead)).elim
    · rw [hlexemes]
      rfl

/-! ### The text -/

/-- Edits at the marked names write the respelled text. What is in `gap` was passed without an
edit. -/
theorem applyEdits_respell {marks : Nat → Bool} {p : Position} {fresh : Bool} {ls : List Lexeme}
    (before gap : List Char) (hp : p.offset = Text.byteLength (before ++ gap)) {es : List Ident}
    (hes : List.Forall₂ (fun t x => t.span = x.span)
      ((Token.ofLexemes p fresh ls).filter (marks ·.span.start)) es)
    (hkind : ∀ t ∈ Token.ofLexemes p fresh ls, marks t.span.start = true → t.kind = .name)
    (hnil : ∀ x ∈ es, x.name = nilName) :
    File.applyEdits (before ++ (gap ++ spelled ls)) (Text.byteLength before) es =
      gap ++ spelled (respell marks p.offset ls) := by
  induction ls generalizing p fresh before gap es with
  | nil =>
    cases hes
    simp [File.applyEdits, Text.dropBytes, Text.splitAtByte_append, respell]
  | cons l ls ih =>
    have hoffset : p.offset + Text.byteLength l.text = (p.after l.text).offset := by simp
    have hpass : ∀ fresh', List.Forall₂ (fun t x => t.span = x.span)
          ((Token.ofLexemes (p.after l.text) fresh' ls).filter (marks ·.span.start)) es →
        (∀ t ∈ Token.ofLexemes (p.after l.text) fresh' ls, marks t.span.start = true →
          t.kind = .name) →
        File.applyEdits (before ++ (gap ++ spelled (l :: ls))) (Text.byteLength before) es =
          gap ++ (l.text ++ spelled (respell marks (p.after l.text).offset ls)) := by
      intro fresh' hes hkind
      have htext := ih (p := p.after l.text) before (gap ++ l.text)
        (by simp [hp]; omega) hes hkind hnil
      simpa using htext
    rw [respell, hoffset]
    by_cases hgap : l.kind = .blank ∨ l.kind = .comment
    · rw [if_neg (by rintro ⟨hname, -⟩; simp [hname] at hgap)]
      rcases hgap with hgap | hgap
      all_goals
        simp only [Token.ofLexemes, hgap] at hes hkind
        exact hpass _ hes hkind
    rw [not_or] at hgap
    rw [Token.ofLexemes_cons hgap.1 hgap.2] at hes hkind
    obtain ⟨hfirst, hkind⟩ := List.forall_mem_cons.mp hkind
    have hstart : (p.spanOf l.text).start = p.offset := rfl
    by_cases hmarked : marks p.offset = true
    · rw [if_pos ⟨hfirst hmarked, hmarked⟩, Lexeme.spelled_cons, Lexeme.spelled_cons]
      rw [List.filter_cons_of_pos (by rwa [hstart])] at hes
      cases hes with
      | @cons _ x _ xs hx hes =>
      obtain ⟨hxname, hnil⟩ := List.forall_mem_cons.mp hnil
      have hxstart : x.span.start = Text.byteLength before + Text.byteLength gap := by
        rw [← hx, hstart, hp, Text.byteLength_append]
      have hxstop : x.span.stop = Text.byteLength (before ++ (gap ++ l.text)) := by
        rw [← hx]
        simp only [Position.spanOf, hp, Text.byteLength_append]
        omega
      have hrest := ih (p := p.after l.text) (before ++ (gap ++ l.text)) []
        (by simp [hp]; omega) hes hkind hnil
      rw [File.applyEdits, if_neg, hxstart, slice_append, hxname, hxstop, Option.getD_some,
        List.append_assoc]
      · simpa using hrest
      · simp only [Bool.or_eq_true, decide_eq_true_eq, hxstop, hxstart, Text.byteLength_append]
        omega
    · rw [if_neg (by rintro ⟨-, h⟩; exact hmarked h)]
      rw [List.filter_cons_of_neg (by rwa [hstart])] at hes
      exact hpass false hes hkind

/-- A source with its marked names replaced has renamed tokens. Where no name is marked its text
stays, and edits at the marked names write it. -/
theorem exists_respelling {source : List Char} {ts : List Token} (h : tokens source = some ts)
    {marks : Nat → Bool} (hkind : ∀ t ∈ ts, marks t.span.start = true → t.kind = .name) :
    ∃ text σ, tokens text = some (ts.map (Renaming.token σ)) ∧ (∀ s, σ.marked s = marks s.start) ∧
      (∀ s, Surface.SpansIn ts s →
        (∀ t ∈ ts, s.start ≤ t.span.start → t.span.start < s.stop → marks t.span.start = false) →
        Text.slice text (σ.span s).start (σ.span s).stop = Text.slice source s.start s.stop) ∧
      ∀ es, List.Forall₂ (fun t x => t.span = x.span) (ts.filter (marks ·.span.start)) es →
        (∀ x ∈ es, x.name = nilName) → File.applyEdits source 0 es = text := by
  obtain ⟨mark, ls, rfl, hfits, rfl, htokens⟩ := exists_lexemes h
  have hrespelled :=
    (respelled_ofLexemes marks (({} : Position).after mark) (({} : Position).after mark)
    false hfits).behind mark
  have hoffset : (({} : Position).after mark).offset = Text.byteLength mark := by simp
  rw [hoffset] at hrespelled
  obtain ⟨σ, hσ, hmarked⟩ := exists_renaming hrespelled.laid
    (hrespelled.respells rfl Nat.one_pos fun _ => rfl)
  rw [hσ] at hrespelled
  refine ⟨_, σ, by rw [htokens marks, hσ], hmarked, fun s hs hplain => ?_, fun es hes hnil => ?_⟩
  · obtain ⟨before, text, rest, before', rest', hsource, htext, hstart, hstop, hstart', hstop'⟩ :=
      hrespelled.exists_of_spansIn hs fun t ht hle hlt _ => hplain t ht hle hlt
    simp only [Nat.zero_add] at hstart hstart'
    rw [hsource, htext, hstop, hstart, slice_append]
    simp only [Renaming.span]
    rw [hstop', hstart', slice_append]
  · have htext := applyEdits_respell [] mark (by simp) hes hkind hnil
    rwa [hoffset] at htext

end NilGuard.Go
