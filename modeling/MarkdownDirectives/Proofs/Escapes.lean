import Mathlib.Data.List.Infix
import MarkdownDirectives.Expression.Escape

/-!
# Decoding escapes

Read from left to right, a text is a row of escapes and of characters that stand for themselves, or
there is a first backslash that starts no escape. Escaping the quotation marks of a text keeps its
row, so the word that is made of a text stands for what the text stands for, whichever decoder reads
the words.
-/

namespace MarkdownDirectives.Escape

/-! ### Rows of escapes -/

/-- An escape and the character that it stands for. -/
inductive IsEscape : Text → Char → Prop
  | short {c d} : short? c = some d → IsEscape ['\\', c] d
  | scalar {digits d} : scalarOfDigits? digits = some d →
    IsEscape ('\\' :: 'u' :: '{' :: (digits ++ ['}'])) d

/-- Read from left to right, the text is a row of escapes and of plain characters, which stand for
themselves. -/
inductive Decodes (plain : Char → Prop) : Text → Text → Prop
  | nil : Decodes plain [] []
  | char {c t s} : plain c → Decodes plain t s → Decodes plain (c :: t) (c :: s)
  | escape {e d t s} : IsEscape e d → Decodes plain t s → Decodes plain (e ++ t) (d :: s)

/-- No escape stands at the front of the text. -/
def NoEscape (t : Text) : Prop := ∀ e d, IsEscape e d → ¬ e <+: t

/-- Behind a row of escapes and plain characters stands a backslash that starts no escape. -/
def Faulty (plain : Char → Prop) (t : Text) : Prop :=
  ∃ front s rest, t = front ++ '\\' :: rest ∧ Decodes plain front s ∧ NoEscape ('\\' :: rest)

/-- What stands for itself inside a literal. -/
def IsPlain (c : Char) : Prop := c ≠ '\\'

/-- What stands for itself inside a word. -/
def IsBare (c : Char) : Prop := c ≠ '\\' ∧ c ≠ '"'

variable {plain : Char → Prop} {t s u rest digits : Text} {c d : Char}

theorem decodes_self (h : ∀ c ∈ t, plain c) : Decodes plain t t := by
  induction t with
  | nil => exact .nil
  | cons c t ih =>
    obtain ⟨hc, ht⟩ := List.forall_mem_cons.mp h
    exact .char hc (ih ht)

theorem Decodes.ne_nil (h : Decodes plain t s) (ht : t ≠ []) : s ≠ [] := by
  cases h with
  | nil => exact absurd rfl ht
  | char => exact List.cons_ne_nil _ _
  | escape => exact List.cons_ne_nil _ _

theorem IsEscape.length_pos {e : Text} (h : IsEscape e d) : 0 < e.length := by
  cases h <;> exact Nat.zero_lt_succ _

/-- Either the text is a row to its end, or a backslash is in the way. -/
theorem decodes_or_faulty (t : Text) : (∃ s, Decodes IsPlain t s) ∨ Faulty IsPlain t := by
  induction hn : t.length using Nat.strong_induction_on generalizing t with
  | _ n ih =>
    -- one plain character or one escape at the front, and then the shorter rest
    have step : ∀ front d rest, t = front ++ rest → 0 < front.length →
        (∀ {t s}, Decodes IsPlain t s → Decodes IsPlain (front ++ t) (d :: s)) →
        (∃ s, Decodes IsPlain t s) ∨ Faulty IsPlain t := by
      rintro front d rest rfl hpos hfront
      rw [List.length_append] at hn
      rcases ih rest.length (by omega) rest rfl with ⟨s, hs⟩ | ⟨before, s, after, rfl, hs, hno⟩
      · exact .inl ⟨_, hfront hs⟩
      · exact .inr ⟨_, _, after, (List.append_assoc ..).symm, hfront hs, hno⟩
    cases t with
    | nil => exact .inl ⟨[], .nil⟩
    | cons c rest =>
      by_cases hc : c = '\\'
      · subst hc
        by_cases hesc : NoEscape ('\\' :: rest)
        · exact .inr ⟨[], [], rest, rfl, .nil, hesc⟩
        · simp only [NoEscape, not_forall, not_not] at hesc
          obtain ⟨e, d, he, more, hmore⟩ := hesc
          exact step e d more hmore.symm he.length_pos fun h => .escape he h
      · exact step [c] c rest rfl Nat.one_pos fun h => .char hc h

/-! ### Digits -/

theorem hexValue_eq_some_ne {n : Nat} (h : Json.hexValue c = some n) :
    c ≠ '\\' ∧ c ≠ '"' ∧ c ≠ '}' := by
  have hnone : Json.hexValue '\\' = none ∧ Json.hexValue '"' = none ∧ Json.hexValue '}' = none := by
    decide
  refine ⟨?_, ?_, ?_⟩ <;> rintro rfl <;> simp [hnone] at h

theorem of_hexNumber {n : Nat} (h : Json.hexNumber t = some n) :
    ∀ c ∈ t, c ≠ '\\' ∧ c ≠ '"' ∧ c ≠ '}' := by
  have key : ∀ {t : Text} {m n : Nat},
      t.foldlM (fun n c => (Json.hexValue c).map (16 * n + ·)) m = some n →
      ∀ c ∈ t, c ≠ '\\' ∧ c ≠ '"' ∧ c ≠ '}' := by
    intro t
    induction t with
    | nil => exact fun _ c hc => absurd hc List.not_mem_nil
    | cons c t ih =>
      intro m n h
      rw [List.foldlM_cons] at h
      obtain ⟨next, hnext, hrest⟩ := Option.bind_eq_some_iff.mp h
      obtain ⟨v, hv, -⟩ := Option.map_eq_some_iff.mp hnext
      exact List.forall_mem_cons.mpr ⟨hexValue_eq_some_ne hv, ih hrest⟩
  exact key h

/-- Digits end where the braces end, and they need no escaping. -/
theorem of_scalarOfDigits? (h : scalarOfDigits? digits = some d) :
    ∀ c ∈ digits, c ≠ '\\' ∧ c ≠ '"' ∧ c ≠ '}' := by
  have key : ∀ {t : Text}, (if t.isEmpty then none else (Json.hexNumber t).bind Json.scalar?) =
      some d → ∀ c ∈ t, c ≠ '\\' ∧ c ≠ '"' ∧ c ≠ '}' := by
    intro t h
    split at h
    · cases h
    · obtain ⟨n, hn, -⟩ := Option.bind_eq_some_iff.mp h
      exact of_hexNumber hn
  unfold scalarOfDigits? at h
  split at h
  · exact List.forall_mem_cons.mpr ⟨by decide, key h⟩
  · exact key h

theorem isBare_braced (h : scalarOfDigits? digits = some d) :
    ∀ c ∈ '{' :: (digits ++ ['}']), IsBare c := by
  intro c hc
  simp only [List.mem_cons, List.mem_append, List.not_mem_nil, or_false] at hc
  rcases hc with rfl | hc | rfl
  · exact ⟨by decide, by decide⟩
  · obtain ⟨hslash, hmark, -⟩ := of_scalarOfDigits? h c hc
    exact ⟨hslash, hmark⟩
  · exact ⟨by decide, by decide⟩

/-! ### Escaping quotation marks -/

theorem escapeMarks_escaped (c : Char) (t : Text) :
    escapeMarks false ('\\' :: c :: t) = (escapeMarks false t).map (['\\', c] ++ ·) :=
  Option.map_map ..

theorem escapeMarks_mark (t : Text) :
    escapeMarks false ('"' :: t) = (escapeMarks false t).map (['\\', '"'] ++ ·) := rfl

theorem escapeMarks_bare (hc : IsBare c) (t : Text) :
    escapeMarks false (c :: t) = (escapeMarks false t).map (c :: ·) := by
  rw [escapeMarks, if_neg hc.2, beq_false_of_ne hc.1]

theorem escapeMarks_append (h : ∀ c ∈ t, IsBare c) (rest : Text) :
    escapeMarks false (t ++ rest) = (escapeMarks false rest).map (t ++ ·) := by
  induction t with
  | nil => simp
  | cons c t ih =>
    obtain ⟨hc, ht⟩ := List.forall_mem_cons.mp h
    rw [List.cons_append, escapeMarks_bare hc, ih ht, Option.map_map]
    rfl

/-- Whatever comes after the text, it becomes the given inside of a word. -/
def Becomes (t inside : Text) : Prop :=
  ∀ rest, escapeMarks false (t ++ rest) = (escapeMarks false rest).map (inside ++ ·)

theorem Becomes.append {t' u' : Text} (h : Becomes t u) (h' : Becomes t' u') :
    Becomes (t ++ t') (u ++ u') := by
  intro rest
  rw [List.append_assoc, h, h', Option.map_map]
  simp only [Function.comp_def, List.append_assoc]

theorem IsEscape.becomes {e : Text} (h : IsEscape e d) : Becomes e e := by
  intro rest
  cases h with
  | @short c d _ => exact escapeMarks_escaped c rest
  | @scalar digits d hdigits =>
    rw [List.cons_append, List.cons_append, escapeMarks_escaped,
      escapeMarks_append (isBare_braced hdigits), Option.map_map]
    rfl

/-- A row becomes a row that stands for the same. -/
theorem Decodes.becomes (h : Decodes IsPlain t s) :
    ∃ inside, Decodes IsBare inside s ∧ Becomes t inside := by
  induction h with
  | nil => exact ⟨[], .nil, fun rest => Option.map_id.symm ▸ rfl⟩
  | @char c t s hc _ ih =>
    obtain ⟨inside, hd, hinside⟩ := ih
    by_cases hq : c = '"'
    · subst hq
      have hmark : Becomes ['"'] ['\\', '"'] := escapeMarks_mark
      exact ⟨_, .escape (.short rfl) hd, hmark.append hinside⟩
    · have hbare : Becomes [c] [c] := escapeMarks_bare ⟨hc, hq⟩
      exact ⟨_, .char ⟨hc, hq⟩ hd, hbare.append hinside⟩
  | escape he _ ih =>
    obtain ⟨inside, hd, hinside⟩ := ih
    exact ⟨_, .escape he hd, he.becomes.append hinside⟩

/-- Bare characters at the front of the inside of a word are at the front of the text. -/
theorem prefix_of_escapeMarks {l : Text} (hl : ∀ c ∈ l, IsBare c)
    (hu : escapeMarks false t = some u) (h : l <+: u ++ ['"']) : l <+: t := by
  induction l generalizing t u with
  | nil => exact List.nil_prefix
  | cons c l ih =>
    obtain ⟨hc, hl⟩ := List.forall_mem_cons.mp hl
    cases t with
    | nil =>
      cases hu
      exact absurd (List.cons_prefix_cons.mp h).1 hc.2
    | cons b t =>
      by_cases hb : IsBare b
      · rw [escapeMarks_bare hb] at hu
        obtain ⟨more, hmore, rfl⟩ := Option.map_eq_some_iff.mp hu
        obtain ⟨rfl, hrest⟩ := List.cons_prefix_cons.mp h
        exact List.cons_prefix_cons.mpr ⟨rfl, ih hl hmore hrest⟩
      · -- what is not bare begins with a backslash in the word
        have hfirst : ∃ more, u = '\\' :: more := by
          rw [escapeMarks] at hu
          split at hu
          · obtain ⟨more, -, rfl⟩ := Option.map_eq_some_iff.mp hu
            exact ⟨_, rfl⟩
          · next hmark =>
            have hslash : b = '\\' := not_not.mp fun hslash => hb ⟨hslash, hmark⟩
            obtain ⟨more, -, rfl⟩ := Option.map_eq_some_iff.mp hu
            exact ⟨more, by rw [hslash]⟩
        obtain ⟨more, rfl⟩ := hfirst
        exact absurd (List.cons_prefix_cons.mp h).1 hc.1

/-- A backslash that starts no escape starts none in the word. -/
theorem NoEscape.becomes (h : NoEscape ('\\' :: c :: rest))
    (hu : escapeMarks false rest = some u) : NoEscape ('\\' :: c :: (u ++ ['"'])) := by
  intro e d he hprefix
  refine h e d he ?_
  cases he with
  | @short b d _ =>
    simp only [List.cons_prefix_cons, List.nil_prefix, and_true] at hprefix ⊢
    exact hprefix
  | @scalar digits d hdigits =>
    obtain ⟨-, hprefix⟩ := List.cons_prefix_cons.mp hprefix
    obtain ⟨hc, hprefix⟩ := List.cons_prefix_cons.mp hprefix
    have hback := prefix_of_escapeMarks (isBare_braced hdigits) hu hprefix
    exact List.cons_prefix_cons.mpr ⟨rfl, List.cons_prefix_cons.mpr ⟨hc, hback⟩⟩

/-! ### Words -/

/-- What is asked of a function that decodes words between double quotation marks: a row stands for
its characters, and a backslash that starts no escape is an error. -/
structure ReadsWords (unquote : Text → Option Text) : Prop where
  row : ∀ {t s}, Decodes IsBare t s → unquote ('"' :: (t ++ ['"'])) = some s
  error : ∀ {t s rest}, Decodes IsBare t s → NoEscape ('\\' :: (rest ++ ['"'])) →
    unquote ('"' :: (t ++ '\\' :: (rest ++ ['"']))) = none

section

variable {unquote : Text → Option Text}

theorem ReadsWords.decodeWord_row (h : ReadsWords unquote) (hd : Decodes IsPlain t s) :
    decodeWord unquote t = some s := by
  obtain ⟨inside, hinside, hbecomes⟩ := hd.becomes
  have hmarks := hbecomes []
  rw [List.append_nil] at hmarks
  simp only [decodeWord, hmarks, escapeMarks, Option.map_some, Option.bind_some, List.append_nil]
  exact h.row hinside

theorem ReadsWords.decodeWord_faulty (h : ReadsWords unquote) (hf : Faulty IsPlain t) :
    decodeWord unquote t = none := by
  obtain ⟨front, s, rest, rfl, hd, hno⟩ := hf
  obtain ⟨inside, hinside, hbecomes⟩ := hd.becomes
  cases rest with
  | nil =>
    rw [decodeWord, hbecomes]
    rfl
  | cons c rest =>
    rw [decodeWord, hbecomes, escapeMarks_escaped]
    cases hu : escapeMarks false rest with
    | none => rfl
    | some u =>
      have hword : unquote ('"' :: (inside ++ '\\' :: (c :: u ++ ['"']))) = none :=
        h.error hinside (hno.becomes hu)
      simpa using hword

/-- Through a word or not, a text stands for the same. -/
theorem ReadsWords.decodeBy_eq (h : ReadsWords unquote) (t : Text) :
    decodeBy unquote t = decodeWord unquote t := by
  unfold decodeBy
  split
  · rfl
  · next hslash =>
    have hplain : ∀ c ∈ t, IsPlain c := fun c hc hc' => hslash (hc' ▸ hc)
    exact (h.decodeWord_row (decodes_self hplain)).symm

theorem ReadsWords.decodeBy_eq_some_iff (h : ReadsWords unquote) :
    decodeBy unquote t = some s ↔ Decodes IsPlain t s := by
  rw [h.decodeBy_eq]
  refine ⟨fun hs => ?_, h.decodeWord_row⟩
  rcases decodes_or_faulty t with ⟨s', hd⟩ | hf
  · obtain rfl : s' = s := Option.some.inj ((h.decodeWord_row hd).symm.trans hs)
    exact hd
  · cases (h.decodeWord_faulty hf).symm.trans hs

theorem ReadsWords.decodeBy_eq_none_iff (h : ReadsWords unquote) :
    decodeBy unquote t = none ↔ Faulty IsPlain t := by
  rw [h.decodeBy_eq]
  refine ⟨fun hs => ?_, h.decodeWord_faulty⟩
  rcases decodes_or_faulty t with ⟨s, hd⟩ | hf
  · cases (h.decodeWord_row hd).symm.trans hs
  · exact hf

end

/-! ### Reading words -/

theorem readWord_braces {digits : Text} (h : '}' ∉ digits) (seen rest : Text) :
    readWord (.braces seen) (digits ++ '}' :: rest) =
      (scalarOfDigits? (seen.reverse ++ digits)).bind fun d =>
        (readWord .plain rest).map (d :: ·) := by
  induction digits generalizing seen with
  | nil => simp [readWord]
  | cons c digits ih =>
    obtain ⟨hc, hdigits⟩ := not_or.mp (List.mem_cons.not.mp h)
    rw [List.cons_append, readWord, if_neg (Ne.symm hc), ih hdigits]
    simp

theorem readWord_row (h : Decodes IsBare t s) (rest : Text) :
    readWord .plain (t ++ rest) = (readWord .plain rest).map (s ++ ·) := by
  induction h with
  | nil => simp
  | char hc _ ih =>
    rw [List.cons_append, readWord, if_neg hc.2, if_neg hc.1, ih, Option.map_map]
    rfl
  | @escape e d t s he _ ih =>
    cases he with
    | @short c d hshort =>
      have hu : c ≠ 'u' := by
        rintro rfl
        cases hshort
      simp [readWord, hu, hshort, ih, Function.comp_def]
    | @scalar digits d hdigits =>
      have hend : '}' ∉ digits := fun hc => (of_scalarOfDigits? hdigits _ hc).2.2 rfl
      have hread := readWord_braces hend [] (t ++ rest)
      simp only [List.reverse_nil, List.nil_append, hdigits, Option.bind_some, ih,
        Option.map_map] at hread
      simpa [readWord, Function.comp_def] using hread

theorem of_readWord_braces {seen : Text} (h : readWord (.braces seen) t = some s) :
    ∃ digits rest d, t = digits ++ '}' :: rest ∧
      scalarOfDigits? (seen.reverse ++ digits) = some d := by
  induction t generalizing seen with
  | nil => cases h
  | cons c t ih =>
    rw [readWord] at h
    split at h
    · next hc =>
      obtain ⟨d, hd, -⟩ := Option.bind_eq_some_iff.mp h
      exact ⟨[], t, d, by rw [hc]; rfl, by rwa [List.append_nil]⟩
    · obtain ⟨digits, rest, d, rfl, hd⟩ := ih h
      exact ⟨c :: digits, rest, d, rfl, by simpa using hd⟩

theorem readWord_noEscape (h : NoEscape ('\\' :: t)) : readWord .plain ('\\' :: t) = none := by
  rw [Option.eq_none_iff_forall_ne_some]
  intro s hs
  rw [readWord, if_neg (by decide), if_pos rfl] at hs
  cases t with
  | nil => cases hs
  | cons c t =>
    rw [readWord] at hs
    split at hs
    · next hc =>
      subst hc
      cases t with
      | nil => cases hs
      | cons b t =>
        rw [readWord] at hs
        split at hs
        · next hb =>
          subst hb
          obtain ⟨digits, rest, d, rfl, hd⟩ := of_readWord_braces hs
          exact h _ d (.scalar hd) ⟨rest, by simp⟩
        · cases hs
    · obtain ⟨d, hd, -⟩ := Option.bind_eq_some_iff.mp hs
      exact h _ d (.short hd) ⟨t, rfl⟩

theorem readsWords_unquote : ReadsWords unquote where
  row h := by
    rw [unquote, readWord_row h, readWord, if_pos rfl]
    simp
  error h hno := by
    rw [unquote, readWord_row h, readWord_noEscape hno]
    rfl

theorem decode_eq_some_iff : decode t = some s ↔ Decodes IsPlain t s :=
  readsWords_unquote.decodeBy_eq_some_iff

end MarkdownDirectives.Escape
