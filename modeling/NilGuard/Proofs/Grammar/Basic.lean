import NilGuard.Proofs.Reading

/-!
The readers of single tokens and of lists of items on renamed tokens.
-/

namespace NilGuard.Go.Surface.Grammar

open NilGuard.Reader

variable {σ : Renaming} {α : Type} [Renamable α]

/-- A renamed token is a name that does not stand for a value by itself. -/
def SafeToken (σ : Renaming) (t : Token) : Prop :=
  σ.marked t.span = true → t.kind = .name ∧ t.text ∉ ["true", "false", "iota"]

theorem next_tracks : Tracks σ next next fun used t => used = [t] ∧ SafeToken σ t := by
  intro ts hts
  cases ts with
  | nil => exact .inl ⟨rfl, rfl⟩
  | cons t ts =>
    refine .inr ⟨[t], t, ts, rfl, rfl, rfl, rfl, fun h => ?_⟩
    have := hts [] t ts rfl h
    exact ⟨this.1, this.2.1⟩

/-- A token that is no name is not renamed. -/
theorem SafeToken.not_marked {t : Token} (h : SafeToken σ t) {text : String}
    (ht : t.is text = true) :
    σ.marked t.span = false := by
  cases hmarked : σ.marked t.span with
  | false => rfl
  | true => simp [Token.is, (h hmarked).1] at ht

/-- A given keyword or operator is no name, so it is not renamed. -/
theorem expect_tracks (text : String) :
    Tracks σ (expect text) (expect text)
      fun used t => used = [t] ∧ t.is text = true ∧ σ.marked t.span = false := by
  refine next_tracks.bind fun used t ht => (Tracks.require ?_).bind fun used' _ h => .pure ?_ rfl
  · rw [show rename σ t = σ.token t from rfl, σ.is_token]
  · rw [ht.1, h.1]
    exact ⟨rfl, h.2, ht.2.not_marked h.2⟩

/-- A name that was read from one token. -/
def NameAt (σ : Renaming) (used : List Token) (n : Name) : Prop :=
  ∃ t, used = [t] ∧ t.kind = .name ∧ n = ⟨t.text, t.span⟩ ∧ SafeToken σ t

theorem NameAt.covers {used : List Token} {n : Name} (h : NameAt σ used n) (text : Span → String)
    {role : Role} (hn : n.text ∉ ["true", "false", "iota"] ∨ role = .declared) :
    Covers text used [⟨role, n⟩] := by
  obtain ⟨t, rfl, ht, rfl, -⟩ := h
  exact .word t role (hn.imp_left fun hn => ⟨ht, hn⟩) .nil

theorem NameAt.spansIn {used : List Token} {n : Name} (h : NameAt σ used n) :
    SpansIn used n.span := by
  obtain ⟨t, rfl, -, rfl, -⟩ := h
  exact .single t

/-- A name is read as the renamed name. -/
theorem name_tracks : Tracks σ name name (NameAt σ) := by
  refine next_tracks.bind fun used t ht => ?_
  rw [show rename σ t = σ.token t from rfl, σ.name?_token]
  intro ts _
  by_cases hk : t.kind = .name
  · refine .inr ⟨[], ⟨t.text, t.span⟩, ts, rfl, ?_, ?_, t, by simpa using ht.1, hk, rfl, ht.2⟩
    · simp [Token.name?, hk]; rfl
    · simp [Token.name?, hk]; rfl
  · refine .inl ⟨?_, ?_⟩ <;> simp [Token.name?, hk] <;> rfl

/-- Looking at the tokens ahead takes none of them. -/
theorem look_tracks (look : List Token → α) {p p' : Reader α} (hp : ∀ ts, p ts = some (look ts, ts))
    (hp' : ∀ ts, p' ts = some (look ts, ts))
    (h : ∀ ts, Safe σ ts → look (ts.map σ.token) = rename σ (look ts)) :
    Tracks σ p p' fun used _ => used = [] :=
  fun ts hts => .inr ⟨[], look ts, ts, rfl, hp ts, by rw [hp', h ts hts], rfl⟩

theorem peek_tracks : Tracks σ peek peek fun used _ => used = [] :=
  look_tracks List.head? (fun _ => rfl) (fun _ => rfl) fun ts _ => by
    cases ts <;> rfl

theorem ahead_tracks (cx : Context) : Tracks σ (ahead cx) (ahead cx) fun used _ => used = [] :=
  look_tracks (fun ts => ts.head?.filter fun t => !(cx.lines && t.fresh)) (fun _ => rfl)
    (fun _ => rfl) fun ts _ => by
    cases ts with
    | nil => rfl
    | cons t ts =>
      simp only [List.map_cons, List.head?_cons, Option.filter_some, Renaming.fresh_token]
      by_cases h : (!(cx.lines && t.fresh)) = true <;> simp [h]

theorem follows_tracks (texts : List String) :
    Tracks σ (follows texts) (follows texts) fun used _ => used = [] := by
  refine look_tracks (fun ts => (ts.take texts.length).length == texts.length
    && (List.zipWith Token.is ts texts).all id) (fun _ => rfl) (fun _ => rfl) fun ts _ => ?_
  rw [List.zipWith_map_left]
  simp only [Renaming.is_token, List.length_take, List.length_map]
  rfl

theorem isAhead_tracks (cx : Context) (text : String) :
    Tracks σ (isAhead cx text) (isAhead cx text) fun used _ => used = [] := by
  refine (ahead_tracks cx).bind fun used o ho => .pure (by simpa using ho) ?_
  cases o with
  | none => rfl
  | some t => exact σ.is_token t text

/-- A given token is taken with the renaming exactly if it is without. -/
theorem accept_tracks (cx : Context) (text : String) :
    Tracks σ (accept cx text) (accept cx text)
      fun used o => used = o.toList ∧ ∀ t ∈ o, σ.marked t.span = false := by
  refine (isAhead_tracks cx text).bind fun _ b hb => .cond .rfl (fun _ => ?_) fun _ => ?_
  · exact (expect_tracks text).bind fun used t ht => .pure (by simp [hb, ht.1, ht.2]) rfl
  · exact .pure (by simp [hb]) rfl

/-! ### Lists of items -/

variable {Q : List Token → α → Prop} {p p' : Reader α}

/-- Items with something between them: the first, and the rest. -/
def FirstPieces (Q : List Token → α → Prop) (used : List Token) (as : List α) : Prop :=
  ∃ u us a as', used = u ++ us ∧ as = a :: as' ∧ Q u a ∧ Pieces Q us as'

omit [Renamable α] in
theorem FirstPieces.pieces {used : List Token} {as : List α} (h : FirstPieces Q used as) :
    Pieces Q used as := by
  obtain ⟨u, us, a, as', rfl, rfl, ha, has⟩ := h
  exact .cons ha has

/-- More items, each behind the given mark. -/
theorem more_tracks (cx : Context) (text : String) (hp : Tracks σ p p' Q) :
    Tracks σ
      (many do
        match ← accept cx text with
        | some _ => return some (← p)
        | none => return none)
      (many do
        match ← accept cx text with
        | some _ => return some (← p')
        | none => return none)
      (Pieces Q) := by
  refine (Tracks.many (Q := fun used o => o.elim (used = []) fun a => Pieces Q used [a])
    ((accept_tracks cx text).bind fun used o ho => ?_) fun _ h => h).mono fun used as h => h.join
  cases o with
  | none => exact .pure (by simpa using ho) rfl
  | some t => exact hp.bind fun u a ha => .pure (by simpa [ho] using .skip t (.one ha)) rfl

theorem commaList_tracks (cx : Context) (hp : Tracks σ p p' Q) :
    Tracks σ (commaList cx p) (commaList cx p') (FirstPieces Q) := by
  refine hp.bind fun u a ha => (more_tracks cx "," hp).bind fun us as has => .pure ?_ rfl
  exact ⟨u, us, a, as, by simp, rfl, ha, has⟩

theorem separator_tracks (closing : String) :
    Tracks σ (separator closing) (separator closing) fun _ _ => True := by
  refine (accept_tracks .inner ",").bind fun _ o _ => ?_
  cases o with
  | some t => exact .pure ⟨⟩ rfl
  | none =>
    refine (isAhead_tracks .inner closing).bind fun _ b _ => ?_
    exact (Tracks.require .rfl).mono fun _ _ _ => ⟨⟩

/-- Items between two tokens. -/
def Between (Q : List Token → α → Prop) (used : List Token) (x : Span × List α × Span) : Prop :=
  ∃ t mid t', used = t :: mid ++ [t'] ∧ x.1 = t.span ∧ x.2.2 = t'.span ∧ Pieces Q mid x.2.1

/-- Items between brackets, with commas between them. -/
theorem enclosed_tracks (opening closing : String) (hp : Tracks σ p p' Q) :
    Tracks σ (enclosed opening closing p) (enclosed opening closing p') (Between Q) := by
  refine (expect_tracks opening).bind fun _ t ht => ?_
  refine (Tracks.many (Q := fun used o => o.elim (used = []) fun a => Pieces Q used [a])
    ((isAhead_tracks .inner closing).bind fun _ b hb => .cond .rfl (fun _ => ?_) fun _ => ?_)
    fun _ h => h).bind fun mid as has => ?_
  · exact .pure (by simpa using hb) rfl
  · refine hp.bind fun u a ha => (separator_tracks closing).bind fun v _ _ => .pure ?_ rfl
    simpa [hb] using (Pieces.one ha).skip_right v
  · refine (expect_tracks closing).bind fun _ t' ht' => .pure ?_ rfl
    exact ⟨t, mid, t', by simp [ht.1, ht'.1], rfl, rfl, has.join⟩

theorem endOfItem_tracks (closers : List String) :
    Tracks σ (endOfItem closers) (endOfItem closers) fun _ _ => True := by
  refine peek_tracks.bind fun _ o _ => ?_
  cases o with
  | none => exact .pure ⟨⟩ rfl
  | some t =>
    refine .cond .rfl (fun _ => .pure ⟨⟩ rfl) fun _ => .cond (by simp) (fun _ => ?_) fun _ => ?_
    · exact next_tracks.map (fun _ => rfl) fun _ _ _ => ⟨⟩
    · exact (Tracks.require (by simp)).mono fun _ _ _ => ⟨⟩

/-- Items that end at a semicolon, at a newline or before what closes the list. -/
theorem itemList_tracks (closers : List String) (hp : Tracks σ p p' Q) :
    Tracks σ (itemList closers p) (itemList closers p') (Pieces Q) := by
  refine (Tracks.many (Q := fun used o => o.elim (used = []) fun a => Pieces Q used [a])
    (peek_tracks.bind fun _ o ho => ?_) fun _ h => h).mono fun used as h => h.join
  cases o with
  | none => exact .pure (by simpa using ho) rfl
  | some t =>
    refine .cond (by simp) (fun _ => .pure (by simpa using ho) rfl) fun _ => ?_
    refine hp.bind fun u a ha => (endOfItem_tracks closers).bind fun v _ _ => .pure ?_ rfl
    simpa [ho] using (Pieces.one ha).skip_right v

end NilGuard.Go.Surface.Grammar
