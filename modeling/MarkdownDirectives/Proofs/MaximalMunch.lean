import MarkdownDirectives.Proofs.Lexemes

/-!
# Maximal munch

The cutting as a relation: blanks are skipped, and elsewhere the longest lexeme is taken, with what
is left of the text still in view. The tokens of a text are those of its cutting up to the end, and
the text has no tokens exactly if the cutting comes to a place with no lexeme, or with a quoted
literal whose escapes are wrong.
-/

namespace MarkdownDirectives

namespace Text

theorem byteLength_cons (c : Char) (t : Text) :
    byteLength (c :: t) = c.utf8Size + byteLength t := rfl

theorem byteLength_append (s t : Text) : byteLength (s ++ t) = byteLength s + byteLength t := by
  induction s with
  | nil => exact (Nat.zero_add _).symm
  | cons c s ih => rw [List.cons_append, byteLength_cons, ih, byteLength_cons, Nat.add_assoc]

theorem byteLength_pos {t : Text} (h : t ≠ []) : 0 < byteLength t := by
  obtain ⟨c, t, rfl⟩ := List.exists_cons_of_ne_nil h
  exact Nat.add_pos_left c.utf8Size_pos _

/-- Of two fronts of one text the one with fewer bytes is the front of the other. -/
theorem prefix_of_byteLength_le {s t u : Text} (hs : s <+: u) (ht : t <+: u)
    (h : byteLength s ≤ byteLength t) : s <+: t := by
  rcases List.prefix_or_prefix_of_prefix hs ht with hst | ⟨more, rfl⟩
  · exact hst
  · rw [byteLength_append] at h
    have hmore : more = [] := by
      by_contra hne
      have := byteLength_pos hne
      omega
    rw [hmore, List.append_nil]

end Text

namespace Token

/-- A token with its place and the text it was cut from. -/
structure Piece where
  offset : Nat
  lexeme : Text
  token : Token

namespace Piece

/-- The byte offset after the piece. -/
def stop (p : Piece) : Nat := p.offset + p.lexeme.byteLength

def placed (p : Piece) : PlacedToken := ⟨p.token, p.offset⟩

end Piece

/-- The longest lexeme at the front of a text. -/
def Longest (l t : Text) : Prop :=
  l <+: t ∧ IsLexeme l ∧ ∀ l', l' <+: t → IsLexeme l' → l'.length ≤ l.length

/-- From the offset on the pieces are cut from the text; the rest is left at the other offset. -/
inductive Cuts : Nat → Text → List Piece → Nat → Text → Prop
  | done {offset t} : Cuts offset t [] offset t
  | blank {offset c t pieces stop rest} : isBlank c = true →
    Cuts (offset + c.utf8Size) t pieces stop rest → Cuts offset (c :: t) pieces stop rest
  | token {offset l token t pieces stop rest} : Longest l (l ++ t) → Lexeme l (some token) →
    Cuts (offset + l.byteLength) t pieces stop rest →
    Cuts offset (l ++ t) (⟨offset, l, token⟩ :: pieces) stop rest

/-- No token begins the text, or a quoted literal with a wrong escape does. -/
def IsFaulty (t : Text) : Prop :=
  (∃ c ∈ t.head?, isBlank c = false) ∧
    ((∀ l, l <+: t → ¬ IsLexeme l) ∨ ∃ l, Longest l t ∧ Lexeme l none)

/-! ### The longest lexeme -/

section

variable {l t rest : Text}

theorem longest_of_cut {n : Nat} (h : cut t = .token n) : Longest (t.take n) t := by
  have hf := finds_cut t
  rw [h] at hf
  refine ⟨List.take_prefix n t, hf.mem, fun l' hl' hlex => ?_⟩
  rw [List.length_take_of_le hf.length_le]
  exact hf.maximal l' hl' hlex

theorem Longest.unique {l' : Text} (h : Longest l t) (h' : Longest l' t) : l = l' :=
  (List.prefix_of_prefix_length_le h.1 h'.1 (h'.2.2 l h.1 h.2.1)).eq_of_length
    (Nat.le_antisymm (h'.2.2 l h.1 h.2.1) (h.2.2 l' h'.1 h'.2.1))

theorem Longest.cut_eq (h : Longest l t) : cut t = .token l.length := by
  cases hc : cut t with
  | token n =>
    have hf := finds_cut t
    rw [hc] at hf
    have hl := (longest_of_cut hc).unique h
    rw [← hl, List.length_take_of_le hf.length_le]
  | stuck n =>
    have hf := finds_cut t
    rw [hc] at hf
    exact absurd h.2.1 (hf l h.1)

theorem longest_self (h : IsLexeme l) : Longest l l :=
  ⟨List.prefix_rfl, h, fun _ hl' _ => hl'.length_le⟩

theorem Longest.mono {t' : Text} (h : Longest l (l ++ t)) (ht : t' <+: t) : Longest l (l ++ t') :=
  ⟨List.prefix_append _ _, h.2.1, fun l' hl' hlex =>
    h.2.2 l' (hl'.trans ((List.prefix_append_right_inj l).mpr ht)) hlex⟩

/-- A blank after a text lengthens no lexeme in it. -/
theorem Longest.before_blank (h : Longest l (l ++ t)) {b : Char} (hb : isBlank b = true) :
    Longest l (l ++ (t ++ b :: rest)) := by
  refine ⟨List.prefix_append _ _, h.2.1, fun l' hl' hlex => ?_⟩
  have hfront : l ++ t <+: l ++ (t ++ b :: rest) := by
    rw [← List.append_assoc]
    exact List.prefix_append _ _
  rcases Nat.lt_or_ge (l ++ t).length l'.length with hlong | hshort
  · -- the longer lexeme would go over the blank
    obtain ⟨more, rfl⟩ := List.prefix_of_prefix_length_le hfront hl' (Nat.le_of_lt hlong)
    rw [← List.append_assoc, List.prefix_append_right_inj] at hl'
    obtain ⟨c, more, rfl⟩ := List.exists_cons_of_ne_nil (l := more) <| by
      rintro rfl
      simp at hlong
    obtain rfl := (List.cons_prefix_cons.mp hl').1
    rw [List.append_assoc] at hlex
    have hnot := not_isBlank_of_longer h.2.1 hlex c (by simp)
    rw [hb] at hnot
    cases hnot
  · exact h.2.2 l' (List.prefix_of_prefix_length_le hl' hfront hshort) hlex

end

/-! ### The cutting as a function -/

theorem cutFrom_skip (offset skip : Nat) (t : Text) :
    cutFrom offset skip t = cutFrom (offset + Text.byteLength (t.take skip)) 0 (t.drop skip) := by
  induction skip generalizing offset t with
  | zero => rfl
  | succ skip ih =>
    cases t with
    | nil => rfl
    | cons c t =>
      rw [cutFrom, ih, Nat.add_assoc]
      rfl

theorem cutFrom_blank {offset : Nat} {c : Char} {t : Text} (h : isBlank c = true) :
    cutFrom offset 0 (c :: t) = cutFrom (offset + c.utf8Size) 0 t := by
  rw [cutFrom, if_pos h]

theorem cutFrom_lexeme {offset : Nat} {l t : Text} {token : Token} (h : Longest l (l ++ t))
    (ht : Lexeme l (some token)) :
    cutFrom offset 0 (l ++ t) =
      (cutFrom (offset + l.byteLength) 0 t).map (⟨token, offset⟩ :: ·) := by
  obtain ⟨c, rest, rfl, hb⟩ := exists_cons_of_isLexeme h.2.1
  have htake : (c :: (rest ++ t)).take (c :: rest).length = c :: rest := by simp
  have hpassed : cutFrom (offset + c.utf8Size) ((c :: rest).length - 1) (rest ++ t) =
      cutFrom (offset + Text.byteLength (c :: rest)) 0 t := by
    rw [List.length_cons, Nat.add_sub_cancel, cutFrom_skip, List.take_left, List.drop_left,
      Nat.add_assoc]
    rfl
  have hcut := h.cut_eq
  rw [List.cons_append] at hcut ⊢
  rw [cutFrom, if_neg (by simp [hb]), hcut]
  simp only [htake, ofText_of_lexeme ht, hpassed]

theorem cutFrom_faulty {t : Text} (h : IsFaulty t) (offset : Nat) :
    ∃ reason, cutFrom offset 0 t = .error ⟨offset, reason⟩ := by
  obtain ⟨⟨c, hc, hb⟩, hnone⟩ := h
  obtain ⟨rest, rfl⟩ := List.head?_eq_some_iff.mp hc
  rw [cutFrom, if_neg (by simp [hb])]
  cases hcut : cut (c :: rest) with
  | stuck n => exact ⟨_, rfl⟩
  | token n =>
    have hlongest := longest_of_cut hcut
    rcases hnone with hnone | ⟨l, hl, hlex⟩
    · exact absurd hlongest.2.1 (hnone _ hlongest.1)
    · rw [← hlongest.unique hl] at hlex
      simp only [ofText_of_lexeme hlex]
      exact ⟨_, rfl⟩

theorem cutFrom_of_cuts {offset stop : Nat} {t rest : Text} {pieces : List Piece}
    (h : Cuts offset t pieces stop rest) :
    cutFrom offset 0 t = (cutFrom stop 0 rest).map (pieces.map Piece.placed ++ ·) := by
  induction h with
  | @done offset t => cases cutFrom offset 0 t <;> rfl
  | blank hb _ ih => rw [cutFrom_blank hb, ih]
  | @token offset l token t pieces stop rest hl ht _ ih =>
    rw [cutFrom_lexeme hl ht, ih]
    cases cutFrom stop 0 rest <;> rfl

/-- A text is cut up to its end or up to a fault. -/
theorem exists_cuts (offset : Nat) (t : Text) :
    ∃ pieces stop rest, Cuts offset t pieces stop rest ∧ (rest = [] ∨ IsFaulty rest) := by
  induction hn : t.length using Nat.strong_induction_on generalizing offset t with
  | _ n ih =>
    subst hn
    cases t with
    | nil => exact ⟨[], offset, [], .done, .inl rfl⟩
    | cons c t =>
      cases hb : isBlank c with
      | true =>
        obtain ⟨pieces, stop, rest, hcuts, hrest⟩ := ih t.length (by simp) _ t rfl
        exact ⟨pieces, stop, rest, .blank hb hcuts, hrest⟩
      | false =>
        have hhead : ∃ d ∈ (c :: t).head?, isBlank d = false := ⟨c, rfl, hb⟩
        cases hc : cut (c :: t) with
        | stuck n =>
          have hf := finds_cut (c :: t)
          rw [hc] at hf
          exact ⟨[], offset, c :: t, .done, .inr ⟨hhead, .inl hf⟩⟩
        | token n =>
          obtain ⟨l, hl⟩ : ∃ l, Longest l (c :: t) := ⟨_, longest_of_cut hc⟩
          obtain ⟨token, ht⟩ := hl.2.1
          cases token with
          | none => exact ⟨[], offset, c :: t, .done, .inr ⟨hhead, .inr ⟨l, hl, ht⟩⟩⟩
          | some token =>
            obtain ⟨d, more, rfl, -⟩ := exists_cons_of_isLexeme hl.2.1
            obtain ⟨back, hback⟩ := hl.1
            rw [← hback] at hl ih ⊢
            obtain ⟨pieces, stop, rest, hcuts, hrest⟩ :=
              ih back.length (by rw [List.length_append, List.length_cons]; omega)
                (offset + Text.byteLength (d :: more)) back rfl
            exact ⟨_, stop, rest, .token hl ht hcuts, hrest⟩

theorem tokenize_eq_ok_iff {t : Text} {tokens : List PlacedToken} :
    tokenize t = .ok tokens ↔
      ∃ pieces stop, Cuts 0 t pieces stop [] ∧ tokens = pieces.map Piece.placed := by
  have hdone : ∀ {pieces stop}, Cuts 0 t pieces stop [] →
      tokenize t = .ok (pieces.map Piece.placed) := by
    intro pieces stop h
    rw [tokenize, cutFrom_of_cuts h, cutFrom]
    exact congrArg Except.ok (List.append_nil _)
  constructor
  · intro h
    obtain ⟨pieces, stop, rest, hcuts, rfl | hfault⟩ := exists_cuts 0 t
    · rw [hdone hcuts, Except.ok.injEq] at h
      exact ⟨pieces, stop, hcuts, h.symm⟩
    · obtain ⟨reason, herror⟩ := cutFrom_faulty hfault stop
      rw [tokenize, cutFrom_of_cuts hcuts, herror] at h
      cases h
  · rintro ⟨pieces, stop, h, rfl⟩
    exact hdone h

theorem tokenize_eq_error_iff {t : Text} {offset : Nat} :
    (∃ reason, tokenize t = .error ⟨offset, reason⟩) ↔
      ∃ pieces rest, Cuts 0 t pieces offset rest ∧ IsFaulty rest := by
  constructor
  · rintro ⟨reason, h⟩
    obtain ⟨pieces, stop, rest, hcuts, rfl | hfault⟩ := exists_cuts 0 t
    · rw [tokenize_eq_ok_iff.mpr ⟨pieces, stop, hcuts, rfl⟩] at h
      cases h
    · obtain ⟨reason', herror⟩ := cutFrom_faulty hfault stop
      rw [tokenize, cutFrom_of_cuts hcuts, herror] at h
      cases h
      exact ⟨pieces, rest, hcuts, hfault⟩
  · rintro ⟨pieces, rest, hcuts, hfault⟩
    obtain ⟨reason, herror⟩ := cutFrom_faulty hfault offset
    refine ⟨reason, ?_⟩
    rw [tokenize, cutFrom_of_cuts hcuts, herror]
    rfl

/-! ### Cutting a text in parts -/

/-- The piece in a text that begins earlier by so many bytes. -/
def Piece.later (by_ : Nat) (p : Piece) : Piece := { p with offset := p.offset + by_ }

namespace Cuts

variable {offset stop : Nat} {t rest : Text} {pieces : List Piece}

theorem byteLength_eq (h : Cuts offset t pieces stop rest) :
    offset + t.byteLength = stop + rest.byteLength := by
  induction h with
  | done => rfl
  | blank _ _ ih => rw [← ih, Text.byteLength_cons, Nat.add_assoc]
  | token _ _ _ ih => rw [← ih, Text.byteLength_append, Nat.add_assoc]

theorem append {more : List Piece} {final : Nat} {last : Text}
    (h : Cuts offset t pieces stop rest) (hmore : Cuts stop rest more final last) :
    Cuts offset t (pieces ++ more) final last := by
  induction h with
  | done => exact hmore
  | blank hb _ ih => exact .blank hb (ih hmore)
  | token hl ht _ ih => exact .token hl ht (ih hmore)

theorem later (h : Cuts offset t pieces stop rest) (n : Nat) :
    Cuts (offset + n) t (pieces.map (Piece.later n)) (stop + n) rest := by
  induction h with
  | done => exact .done
  | blank hb _ ih =>
    rw [Nat.add_right_comm] at ih
    exact .blank hb ih
  | token hl ht _ ih =>
    rw [Nat.add_right_comm] at ih
    exact .token hl ht ih

theorem of_blanks {blanks : Text} (hb : ∀ c ∈ blanks, isBlank c = true)
    (h : Cuts (offset + blanks.byteLength) t pieces stop rest) :
    Cuts offset (blanks ++ t) pieces stop rest := by
  induction blanks generalizing offset with
  | nil => exact h
  | cons c blanks ih =>
    have htail := List.forall_mem_cons.mp hb
    refine .blank htail.1 (ih htail.2 ?_)
    rwa [Nat.add_assoc]

/-- What is cut off does not depend on what follows from a blank on. -/
theorem replace (h : Cuts offset t pieces stop rest) :
    ∃ front, t = front ++ rest ∧ ∀ {b}, isBlank b = true → ∀ back,
      Cuts offset (front ++ b :: back) pieces stop (b :: back) := by
  induction h with
  | done => exact ⟨[], rfl, fun _ _ => .done⟩
  | @blank _ c _ _ _ _ hc _ ih =>
    obtain ⟨front, rfl, hfront⟩ := ih
    exact ⟨c :: front, rfl, fun hb back => .blank hc (hfront hb back)⟩
  | @token _ l _ _ _ _ rest hl ht _ ih =>
    obtain ⟨front, rfl, hfront⟩ := ih
    refine ⟨l ++ front, (List.append_assoc ..).symm, fun hb back => ?_⟩
    rw [List.append_assoc]
    exact .token ((hl.mono (List.prefix_append front rest)).before_blank hb) ht (hfront hb back)

/-- A cutting up to the end is one up to a place and one from there on, if no piece lies over that
place. -/
theorem exists_split (h : Cuts offset t pieces stop []) {front back : Text} (ht : t = front ++ back)
    (hplace : ∀ p ∈ pieces,
      offset + front.byteLength ≤ p.offset ∨ p.stop ≤ offset + front.byteLength) :
    ∃ before after, pieces = before ++ after ∧
      Cuts offset t before (offset + front.byteLength) back ∧
      Cuts (offset + front.byteLength) back after stop [] := by
  generalize hend : ([] : Text) = rest at h
  -- the place moves to the right end of each piece, until the part in front of it is empty
  induction h generalizing front with
  | done =>
    subst hend
    obtain ⟨rfl, rfl⟩ := List.nil_eq_append_iff.mp ht
    exact ⟨[], [], rfl, .done, .done⟩
  | @blank offset c t pieces stop rest hb hcuts ih =>
    subst hend
    cases front with
    | nil =>
      subst ht
      exact ⟨[], pieces, rfl, .done, .blank hb hcuts⟩
    | cons d front =>
      obtain ⟨rfl, hback⟩ := List.cons.inj ht
      rw [Text.byteLength_cons, ← Nat.add_assoc] at hplace ⊢
      obtain ⟨before, after, he, hbefore, hafter⟩ := ih hback hplace rfl
      exact ⟨before, after, he, .blank hb hbefore, hafter⟩
  | @token offset l token t pieces stop rest hl hlex hcuts ih =>
    subst hend
    by_cases hfront : front = []
    · subst hfront
      rw [List.nil_append] at ht
      subst ht
      exact ⟨[], _, rfl, .done, .token hl hlex hcuts⟩
    · obtain ⟨hpiece, hmore⟩ := List.forall_mem_cons.mp hplace
      have hle : l.byteLength ≤ front.byteLength := by
        have hpos := Text.byteLength_pos hfront
        simp only [Piece.stop] at hpiece
        omega
      obtain ⟨front, rfl⟩ := Text.prefix_of_byteLength_le (List.prefix_append l t)
        (ht ▸ List.prefix_append front back) hle
      rw [List.append_assoc, List.append_cancel_left_eq] at ht
      rw [Text.byteLength_append, ← Nat.add_assoc] at hmore ⊢
      obtain ⟨before, after, rfl, hbefore, hafter⟩ := ih ht hmore rfl
      exact ⟨_ :: before, after, rfl, .token hl hlex hbefore, hafter⟩

theorem le (h : Cuts offset t pieces stop rest) : offset ≤ stop := by
  induction h with
  | done => exact Nat.le_refl _
  | blank _ _ ih => exact Nat.le_of_add_right_le ih
  | token _ _ _ ih => exact Nat.le_of_add_right_le ih

theorem offset_le (h : Cuts offset t pieces stop rest) : ∀ p ∈ pieces, offset ≤ p.offset := by
  induction h with
  | done => exact fun p hp => absurd hp List.not_mem_nil
  | blank _ _ ih => exact fun p hp => Nat.le_of_add_right_le (ih p hp)
  | token _ _ _ ih =>
    exact List.forall_mem_cons.mpr ⟨Nat.le_refl _, fun p hp => Nat.le_of_add_right_le (ih p hp)⟩

theorem stop_le (h : Cuts offset t pieces stop rest) : ∀ p ∈ pieces, p.stop ≤ stop := by
  induction h with
  | done => exact fun p hp => absurd hp List.not_mem_nil
  | blank _ _ ih => exact ih
  | @token offset l token t pieces stop rest hl ht hmore ih =>
    exact List.forall_mem_cons.mpr ⟨hmore.le, ih⟩

theorem increasing (h : Cuts offset t pieces stop rest) :
    pieces.Pairwise fun p q => p.stop ≤ q.offset := by
  induction h with
  | done => exact .nil
  | blank _ _ ih => exact ih
  | token _ _ hmore ih => exact .cons hmore.offset_le ih

theorem exists_place (h : Cuts offset t pieces stop rest) : ∀ p ∈ pieces,
    ∃ front back, t = front ++ p.lexeme ++ back ∧ p.offset = offset + front.byteLength ∧
      Longest p.lexeme (p.lexeme ++ back) ∧ Lexeme p.lexeme (some p.token) := by
  induction h with
  | done => exact fun p hp => absurd hp List.not_mem_nil
  | @blank offset c t pieces stop rest _ _ ih =>
    intro p hp
    obtain ⟨front, back, rfl, hoffset, hlexeme⟩ := ih p hp
    exact ⟨c :: front, back, rfl, by rw [hoffset, Text.byteLength_cons, Nat.add_assoc], hlexeme⟩
  | @token offset l token t pieces stop rest hl ht _ ih =>
    refine List.forall_mem_cons.mpr ⟨⟨[], t, rfl, rfl, hl, ht⟩, fun p hp => ?_⟩
    obtain ⟨front, back, rfl, hoffset, hlexeme⟩ := ih p hp
    exact ⟨l ++ front, back, by simp only [List.append_assoc],
      by rw [hoffset, Text.byteLength_append, Nat.add_assoc], hlexeme⟩

/-- Where no piece lies there is a blank. -/
theorem isBlank_outside (h : Cuts offset t pieces stop []) {front back : Text} {c : Char}
    (ht : t = front ++ c :: back) (hplace : ∀ p ∈ pieces,
      offset + front.byteLength < p.offset ∨ p.stop ≤ offset + front.byteLength) :
    isBlank c = true := by
  obtain ⟨before, after, rfl, -, hafter⟩ :=
    h.exists_split ht fun p hp => (hplace p hp).imp_left Nat.le_of_lt
  generalize hwhole : c :: back = u at hafter
  generalize hstart : offset + front.byteLength = start at hafter hplace
  cases hafter with
  | done => cases hwhole
  | blank hb _ =>
    cases hwhole
    exact hb
  | @token _ l token _ _ _ _ hl _ _ =>
    have hpiece := hplace ⟨start, l, token⟩ (by simp)
    have hpos := Text.byteLength_pos (t := l) (by
      rintro rfl
      exact not_isLexeme_nil hl.2.1)
    simp only [Piece.stop] at hpiece
    omega

theorem offset_lt_stop (h : Cuts offset t pieces stop rest) : ∀ p ∈ pieces, p.offset < p.stop := by
  intro p hp
  obtain ⟨front, back, -, -, hl, -⟩ := h.exists_place p hp
  have hpos := Text.byteLength_pos (t := p.lexeme) (by
    intro he
    rw [he] at hl
    exact not_isLexeme_nil hl.2.1)
  exact Nat.lt_add_of_pos_right hpos

/-- Blanks at a place over which no piece lies only move the pieces after it. -/
theorem insert_blanks (h : Cuts offset t pieces stop []) {front blanks back : Text}
    (ht : t = front ++ back) (hb : ∀ c ∈ blanks, isBlank c = true)
    (hplace : ∀ p ∈ pieces,
      offset + front.byteLength ≤ p.offset ∨ p.stop ≤ offset + front.byteLength) :
    ∃ before after, pieces = before ++ after ∧
      (∀ p ∈ before, p.stop ≤ offset + front.byteLength) ∧
      (∀ p ∈ after, offset + front.byteLength ≤ p.offset) ∧
      Cuts offset (front ++ blanks ++ back) (before ++ after.map (Piece.later blanks.byteLength))
        (stop + blanks.byteLength) [] := by
  obtain ⟨before, after, rfl, hbefore, hafter⟩ := h.exists_split ht hplace
  refine ⟨before, after, rfl, hbefore.stop_le, hafter.offset_le, ?_⟩
  -- the pieces in front stay as they are even if what follows begins with another character
  have hfront : Cuts offset (front ++ blanks ++ back) before (offset + front.byteLength)
      (blanks ++ back) := by
    cases blanks with
    | nil =>
      rw [List.append_nil, ← ht]
      exact hbefore
    | cons b blanks =>
      obtain ⟨front', hfront', hreplace⟩ := hbefore.replace
      rw [ht, List.append_cancel_right_eq] at hfront'
      subst hfront'
      rw [List.append_assoc]
      exact hreplace (hb b (List.mem_cons_self ..)) (blanks ++ back)
  exact hfront.append (of_blanks hb (hafter.later blanks.byteLength))

end Cuts

end Token

/-- The token after so many bytes more in front of the place. -/
def PlacedToken.moved (place n : Nat) (p : PlacedToken) : PlacedToken :=
  if p.offset < place then p else { p with offset := p.offset + n }

namespace Token

/-- Every token begins inside the text, and after those before it. -/
theorem offsets_of_tokenize {t : Text} {tokens : List PlacedToken} (h : tokenize t = .ok tokens) :
    (∀ p ∈ tokens, p.offset < t.byteLength) ∧ tokens.Pairwise fun p q => p.offset < q.offset := by
  obtain ⟨pieces, stop, hcuts, rfl⟩ := tokenize_eq_ok_iff.mp h
  have hlength : 0 + t.byteLength = stop + 0 := hcuts.byteLength_eq
  constructor
  · intro p hp
    obtain ⟨piece, hpiece, rfl⟩ := List.mem_map.mp hp
    have hstart := hcuts.offset_lt_stop piece hpiece
    have hend := hcuts.stop_le piece hpiece
    have hplaced : piece.placed.offset = piece.offset := rfl
    omega
  · refine List.pairwise_map.mpr (hcuts.increasing.imp_of_mem fun hp _ hle => ?_)
    exact (hcuts.offset_lt_stop _ hp).trans_le hle

/-- A lexeme alone is cut into its token. -/
theorem tokenize_lexeme {l : Text} {token : Token} (h : Lexeme l (some token)) :
    tokenize l = .ok [⟨token, 0⟩] := by
  have hself : Longest l (l ++ []) := by
    rw [List.append_nil]
    exact longest_self ⟨_, h⟩
  have hcuts : Cuts 0 (l ++ []) _ _ [] := .token hself h .done
  rw [List.append_nil] at hcuts
  exact tokenize_eq_ok_iff.mpr ⟨_, _, hcuts, rfl⟩

/-- The pieces are the tokens of the text, each as long as possible, with blanks around them. -/
structure Munches (t : Text) (pieces : List Piece) (tokens : List PlacedToken) : Prop where
  tokens_eq : tokens = pieces.map Piece.placed
  nonempty : ∀ p ∈ pieces, p.offset < p.stop
  disjoint : pieces.Pairwise fun p q => p.stop ≤ q.offset
  lexeme : ∀ p ∈ pieces, Lexeme p.lexeme (some p.token)
  longest : ∀ p ∈ pieces, ∃ front back, t = front ++ p.lexeme ++ back ∧
    p.offset = front.byteLength ∧ Longest p.lexeme (p.lexeme ++ back)
  alone : ∀ p ∈ pieces, tokenize p.lexeme = .ok [⟨p.token, 0⟩]
  blank_outside : ∀ (front : Text) (c : Char) (back : Text), t = front ++ c :: back →
    (∀ p ∈ pieces, front.byteLength < p.offset ∨ p.stop ≤ front.byteLength) →
    c ∈ [' ', '\t', '\r', '\n', '\x0c']
  /-- Blanks at a boundary change no token and only move those after it. -/
  with_blanks : ∀ front blanks back : Text, t = front ++ back →
    (∀ c ∈ blanks, c ∈ [' ', '\t', '\r', '\n', '\x0c']) →
    (∀ p ∈ pieces, front.byteLength ≤ p.offset ∨ p.stop ≤ front.byteLength) →
    tokenize (front ++ blanks ++ back) =
      .ok (tokens.map (PlacedToken.moved front.byteLength blanks.byteLength))

theorem isBlank_iff {c : Char} : isBlank c = true ↔ c ∈ [' ', '\t', '\r', '\n', '\x0c'] := by
  simp [isBlank, or_assoc]

theorem Cuts.munches {t : Text} {pieces : List Piece} {stop : Nat} (h : Cuts 0 t pieces stop []) :
    Munches t pieces (pieces.map Piece.placed) where
  tokens_eq := rfl
  nonempty := h.offset_lt_stop
  disjoint := h.increasing
  lexeme p hp := by
    obtain ⟨front, back, -, -, -, hlexeme⟩ := h.exists_place p hp
    exact hlexeme
  longest p hp := by
    obtain ⟨front, back, ht, hoffset, hl, -⟩ := h.exists_place p hp
    exact ⟨front, back, ht, hoffset.trans (Nat.zero_add _), hl⟩
  alone p hp := by
    obtain ⟨front, back, -, -, -, hlexeme⟩ := h.exists_place p hp
    exact tokenize_lexeme hlexeme
  blank_outside front c back ht hplace :=
    isBlank_iff.mp (h.isBlank_outside ht (by simpa only [Nat.zero_add] using hplace))
  with_blanks front blanks back ht hb hplace := by
    obtain ⟨before, after, rfl, hbefore, hafter, hcuts⟩ := h.insert_blanks ht
      (fun c hc => isBlank_iff.mpr (hb c hc)) (by simpa only [Nat.zero_add] using hplace)
    have hbounds := List.forall_mem_append.mp h.offset_lt_stop
    refine tokenize_eq_ok_iff.mpr ⟨_, _, hcuts, ?_⟩
    simp only [Nat.zero_add] at hbefore hafter
    simp only [List.map_append, List.map_map]
    congr 1
    · refine List.map_congr_left fun p hp => ?_
      have hlt : p.placed.offset < front.byteLength := (hbounds.1 p hp).trans_le (hbefore p hp)
      exact if_pos hlt
    · refine List.map_congr_left fun p hp => ?_
      have hge : ¬ p.placed.offset < front.byteLength := Nat.not_lt.mpr (hafter p hp)
      exact if_neg hge

/-- Where a text has tokens they are cut off as long as possible; it has none exactly if the cutting
comes to a place where no token begins or a wrong escape is quoted, and the fault is at this place.
-/
theorem tokenize_maximal_munch (t : Text) :
    (∀ tokens, tokenize t = .ok tokens → ∃ pieces, Munches t pieces tokens) ∧
    ∀ offset, (∃ reason, tokenize t = .error ⟨offset, reason⟩) ↔
      ∃ pieces front rest, t = front ++ rest ∧ offset = front.byteLength ∧
        Cuts 0 t pieces offset rest ∧ IsFaulty rest := by
  refine ⟨fun tokens h => ?_, fun offset => ?_⟩
  · obtain ⟨pieces, stop, hcuts, rfl⟩ := tokenize_eq_ok_iff.mp h
    exact ⟨pieces, hcuts.munches⟩
  · rw [tokenize_eq_error_iff]
    constructor
    · rintro ⟨pieces, rest, hcuts, hfault⟩
      obtain ⟨front, rfl, -⟩ := hcuts.replace
      have hlength := hcuts.byteLength_eq
      rw [Text.byteLength_append] at hlength
      exact ⟨pieces, front, rest, rfl, by omega, hcuts, hfault⟩
    · rintro ⟨pieces, front, rest, -, -, hcuts, hfault⟩
      exact ⟨pieces, rest, hcuts, hfault⟩

theorem tokenize_number_before_letter :
    (tokenize "1e+ 'a b'.x".toList = .ok [⟨.number (numberOf ['1']), 0⟩, ⟨.identifier ['e'], 1⟩,
        ⟨.plus, 2⟩, ⟨.string "a b".toList '\'', 4⟩, ⟨.dot, 9⟩, ⟨.identifier ['x'], 10⟩] ∧
      ∃ pieces, Munches "1e+ 'a b'.x".toList pieces [⟨.number (numberOf ['1']), 0⟩,
        ⟨.identifier ['e'], 1⟩, ⟨.plus, 2⟩, ⟨.string "a b".toList '\'', 4⟩, ⟨.dot, 9⟩,
        ⟨.identifier ['x'], 10⟩]) ∧
    ∃ pieces, ∃ front rest : Text, "'é' | b".toList = front ++ rest ∧ 5 = front.byteLength ∧
      Cuts 0 "'é' | b".toList pieces 5 rest ∧ IsFaulty rest := by
  have htokens : tokenize "1e+ 'a b'.x".toList = .ok [⟨.number (numberOf ['1']), 0⟩,
      ⟨.identifier ['e'], 1⟩, ⟨.plus, 2⟩, ⟨.string "a b".toList '\'', 4⟩, ⟨.dot, 9⟩,
      ⟨.identifier ['x'], 10⟩] := by rfl
  exact ⟨⟨htokens, (tokenize_maximal_munch _).1 _ htokens⟩,
    ((tokenize_maximal_munch "'é' | b".toList).2 5).mp ⟨_, by rfl⟩⟩

end Token

end MarkdownDirectives
