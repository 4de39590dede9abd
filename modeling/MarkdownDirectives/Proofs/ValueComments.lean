import Mathlib.Data.List.Infix
import MarkdownDirectives.Json.Printer
import MarkdownDirectives.Proofs.TagLines

/-!
# Values shown as comments

Null, an array and an object are shown as a comment around their JSON text. JSON writes dashes and
angle brackets as they are and puts a bracket, a comma, a colon or a quotation mark around every
text, so a comment end stands in the JSON text exactly if it stands in one of the strings or keys of
the value. Then the comment is over before the value is.
-/

namespace MarkdownDirectives

/-! ### Occurrences between other characters -/

section

variable {mark a b : Text} {c : Char}

theorem prefix_append_cons_iff (hc : c ∉ mark) : mark <+: a ++ c :: b ↔ mark <+: a := by
  induction mark generalizing a with
  | nil => simp
  | cons m mark ih =>
    obtain ⟨hm, hmark⟩ := not_or.mp (List.mem_cons.not.mp hc)
    cases a with
    | nil => simpa using fun he : m = c => absurd he.symm hm
    | cons d a => simp only [List.cons_append, List.cons_prefix_cons, ih hmark]

/-- A character that the mark does not have divides a text for it. -/
theorem infix_append_cons_iff (hc : c ∉ mark) :
    mark <:+: a ++ c :: b ↔ mark <:+: a ∨ mark <:+: b := by
  induction a with
  | nil =>
    rw [List.nil_append, List.infix_cons_iff, List.infix_nil, ← List.prefix_nil]
    exact or_congr_left (prefix_append_cons_iff (a := []) hc)
  | cons d a ih =>
    rw [List.cons_append, List.infix_cons_iff, ← List.cons_append, prefix_append_cons_iff hc, ih,
      List.infix_cons_iff, or_assoc]

theorem infix_cons_other_iff (hc : c ∉ mark) (hm : mark ≠ []) : mark <:+: c :: b ↔ mark <:+: b := by
  have h := infix_append_cons_iff (a := []) (b := b) hc
  rwa [List.infix_nil, or_iff_right hm] at h

theorem infix_concat_other_iff (hc : c ∉ mark) (hm : mark ≠ []) :
    mark <:+: a ++ [c] ↔ mark <:+: a := by
  rw [infix_append_cons_iff hc, List.infix_nil, or_iff_left hm]

theorem infix_append_other_iff (ha : ∀ d ∈ a, d ∉ mark) (hm : mark ≠ []) :
    mark <:+: a ++ b ↔ mark <:+: b := by
  induction a with
  | nil => rfl
  | cons d a ih =>
    obtain ⟨hd, ha⟩ := List.forall_mem_cons.mp ha
    rw [List.cons_append, infix_cons_other_iff hd hm, ih ha]

section

variable {f : Char → Text} (hin : ∀ c ∈ mark, f c = [c])
  (hout : ∀ c ∉ mark, f c ≠ [] ∧ ∀ d ∈ f c, d ∉ mark)

include hin hout

theorem prefix_flatMap_iff {m : Text} (hm : m ⊆ mark) (t : Text) :
    m <+: t.flatMap f ↔ m <+: t := by
  induction t generalizing m with
  | nil => rfl
  | cons c t ih =>
    cases m with
    | nil => simp
    | cons d m =>
      obtain ⟨hd, hm⟩ := List.cons_subset.mp hm
      rw [List.flatMap_cons]
      by_cases hc : c ∈ mark
      · rw [hin c hc, List.singleton_append, List.cons_prefix_cons, List.cons_prefix_cons, ih hm]
      · obtain ⟨hne, hother⟩ := hout c hc
        obtain ⟨e, rest, he⟩ := List.exists_cons_of_ne_nil hne
        have hde : d ≠ e := fun h => hother e (by simp [he]) (h ▸ hd)
        have hdc : d ≠ c := fun h => hc (h ▸ hd)
        simp [he, List.cons_prefix_cons, hde, hdc]

/-- A replacement of characters that keeps those of the mark and brings in no more of them keeps its
occurrences. -/
theorem infix_flatMap_iff (hm : mark ≠ []) (t : Text) : mark <:+: t.flatMap f ↔ mark <:+: t := by
  induction t with
  | nil => rfl
  | cons c t ih =>
    by_cases hc : c ∈ mark
    · have hfront := prefix_flatMap_iff hin hout (List.Subset.refl mark) (c :: t)
      rw [List.flatMap_cons, hin c hc, List.singleton_append] at hfront ⊢
      rw [List.infix_cons_iff, List.infix_cons_iff, hfront, ih]
    · rw [List.flatMap_cons, infix_append_other_iff (hout c hc).2 hm, ih,
        infix_cons_other_iff hc hm]

end

end

/-! ### JSON texts -/

/-- What ends a comment. -/
def commentEnd : Text := "-->".toList

theorem commentEnd_ne_nil : commentEnd ≠ [] := by decide

theorem ne_nil_jsonEscape (c : Char) : jsonEscape c ≠ [] := by
  unfold jsonEscape
  iterate 7 split; · exact List.cons_ne_nil _ _
  split <;> exact List.cons_ne_nil _ _

theorem not_mem_commentEnd_of_mem_jsonEscape {c d : Char} (hc : c ∉ commentEnd)
    (hd : d ∈ jsonEscape c) : d ∉ commentEnd := by
  have hhex : ∀ n < 16, hexDigit n ∉ commentEnd := by decide
  revert d
  unfold jsonEscape
  iterate 7 split; · simp [commentEnd]
  split
  · have hfixed : ∀ d ∈ ['\\', 'u', '0', '0'], d ∉ commentEnd := by simp [commentEnd]
    have hhigh : hexDigit (c.toNat / 16) ∉ commentEnd := hhex _ (by omega)
    have hlow : hexDigit (c.toNat % 16) ∉ commentEnd := hhex _ (Nat.mod_lt _ (by decide))
    have hdigits : ∀ d ∈ [hexDigit (c.toNat / 16), hexDigit (c.toNat % 16)], d ∉ commentEnd :=
      List.forall_mem_cons.mpr ⟨hhigh, List.forall_mem_singleton.mpr hlow⟩
    exact List.forall_mem_append.mpr ⟨hfixed, hdigits⟩
  · intro d hd
    rwa [List.mem_singleton.mp hd]

theorem infix_jsonQuote_iff (t : Text) : commentEnd <:+: jsonQuote t ↔ commentEnd <:+: t := by
  have hquote : '"' ∉ commentEnd := by decide
  rw [jsonQuote, List.cons_append, infix_cons_other_iff hquote commentEnd_ne_nil,
    infix_concat_other_iff hquote commentEnd_ne_nil]
  have hsame : ∀ c ∈ commentEnd, jsonEscape c = [c] := by
    intro c hc
    obtain rfl | rfl : c = '-' ∨ c = '>' := by simpa [commentEnd] using hc
    all_goals rfl
  exact infix_flatMap_iff hsame
    (fun c hc => ⟨ne_nil_jsonEscape c, fun d => not_mem_commentEnd_of_mem_jsonEscape hc⟩)
    commentEnd_ne_nil t

namespace Decimal

/-- The characters of a number that is written without what follows a whole one. -/
def IsNumeral (c : Char) : Prop := c.isDigit = true ∨ c = '-' ∨ c = '+' ∨ c = '.' ∨ c = 'e'

theorem isNumeral_of_mem_significantDigits {n : Nat} {c : Char} (h : c ∈ significantDigits n) :
    IsNumeral c := by
  unfold significantDigits at h
  split at h
  · exact .inl (by rw [List.mem_singleton.mp h]; rfl)
  · exact .inl (Text.isDigit_of_mem_ofNat (Text.mem_of_mem_dropEndWhile h))

theorem isNumeral_of_mem_zeros {n : Nat} {c : Char} (h : c ∈ List.replicate n '0') :
    IsNumeral c := by
  rw [List.eq_of_mem_replicate h]
  exact .inl rfl

theorem isNumeral_of_mem_positional {whole digits : Text} (hw : ∀ c ∈ whole, IsNumeral c)
    (hd : ∀ c ∈ digits, IsNumeral c) (point : Int) :
    ∀ c ∈ positional whole digits point, IsNumeral c := by
  have hpoint : IsNumeral '.' := .inr (.inr (.inr (.inl rfl)))
  unfold positional
  split
  · simp only [List.cons_append, List.forall_mem_cons, List.forall_mem_append]
    exact ⟨.inl rfl, hpoint, fun _ => isNumeral_of_mem_zeros, hd⟩
  · split
    · simp only [List.forall_mem_append]
      exact ⟨⟨hd, fun _ => isNumeral_of_mem_zeros⟩, hw⟩
    · simp only [List.forall_mem_append, List.forall_mem_cons]
      exact ⟨fun c hc => hd c (List.mem_of_mem_take hc), hpoint,
        fun c hc => hd c (List.mem_of_mem_drop hc)⟩

theorem isNumeral_of_mem_scientific {digits : Text} (hd : ∀ c ∈ digits, IsNumeral c)
    (point : Int) : ∀ c ∈ scientific digits point, IsNumeral c := by
  have hpoint : IsNumeral '.' := .inr (.inr (.inr (.inl rfl)))
  have hletter : IsNumeral 'e' := .inr (.inr (.inr (.inr rfl)))
  have hsign : IsNumeral (if point - 1 < 0 then '-' else '+') := by
    split
    · exact .inr (.inl rfl)
    · exact .inr (.inr (.inl rfl))
  have hfraction : ∀ c ∈ (if digits.length ≤ 1 then [] else '.' :: digits.drop 1), IsNumeral c := by
    split
    · exact fun c hc => absurd hc List.not_mem_nil
    · exact List.forall_mem_cons.mpr ⟨hpoint, fun c hc => hd c (List.mem_of_mem_drop hc)⟩
  simp only [scientific, List.forall_mem_append, List.forall_mem_cons]
  exact ⟨⟨fun c hc => hd c (List.mem_of_mem_take hc), hfraction⟩, hletter, hsign,
    fun c hc => .inl (Text.isDigit_of_mem_ofNat hc)⟩

theorem isNumeral_of_mem_write {layout : Layout} (hl : ∀ c ∈ layout.afterWhole, IsNumeral c)
    (negative : Bool) (d : Decimal) : ∀ c ∈ write layout negative d, IsNumeral c := by
  have hdigits : ∀ c ∈ significantDigits d.coefficient, IsNumeral c :=
    fun _ => isNumeral_of_mem_significantDigits
  have hmagnitude : ∀ point, ∀ c ∈ (if layout.isPositional (point - 1) then
      positional layout.afterWhole (significantDigits d.coefficient) point
      else scientific (significantDigits d.coefficient) point), IsNumeral c := by
    intro point
    split
    · exact isNumeral_of_mem_positional hl hdigits point
    · exact isNumeral_of_mem_scientific hdigits point
  unfold write
  cases negative with
  | false => exact hmagnitude _
  | true => exact List.forall_mem_cons.mpr ⟨.inr (.inl rfl), hmagnitude _⟩

end Decimal

theorem Number.not_infix_toJson (n : Number) : ¬ commentEnd <:+: n.toJson := by
  have hnumeral : ∀ c ∈ n.toJson, Decimal.IsNumeral c := by
    cases n with
    | integer i =>
      cases i with
      | ofNat n => exact fun c hc => .inl (Text.isDigit_of_mem_ofNat hc)
      | negSucc n =>
        exact List.forall_mem_cons.mpr
          ⟨.inr (.inl rfl), fun c hc => .inl (Text.isDigit_of_mem_ofNat hc)⟩
    | float x =>
      have hwhole : ∀ c ∈ Decimal.jsonLayout.afterWhole, Decimal.IsNumeral c :=
        List.forall_mem_cons.mpr ⟨.inr (.inr (.inr (.inl rfl))),
          List.forall_mem_singleton.mpr (.inl rfl)⟩
      exact Decimal.isNumeral_of_mem_write hwhole _ _
  intro h
  have hbracket := hnumeral '>' (h.subset (by decide))
  revert hbracket
  unfold Decimal.IsNumeral
  decide

/-! ### Strings of a value -/

namespace Value

mutual

/-- The strings and keys of a value, at any depth. -/
def strings : Value → List Text
  | .string t => [t]
  | .array items => itemStrings items
  | .object fields => fieldStrings fields
  | _ => []

def itemStrings : List Value → List Text
  | [] => []
  | item :: more => item.strings ++ itemStrings more

def fieldStrings : List (Text × Value) → List Text
  | [] => []
  | (key, value) :: more => key :: (value.strings ++ fieldStrings more)

end

/-- One of the texts has a comment end in it. -/
def HasEnd (ts : List Text) : Prop := ∃ t ∈ ts, commentEnd <:+: t

theorem not_hasEnd_nil : ¬ HasEnd [] := fun ⟨_, ht, _⟩ => absurd ht List.not_mem_nil

theorem hasEnd_cons {t : Text} {ts : List Text} :
    HasEnd (t :: ts) ↔ commentEnd <:+: t ∨ HasEnd ts :=
  List.exists_mem_cons_iff _ _ _

theorem hasEnd_append {ts ts' : List Text} : HasEnd (ts ++ ts') ↔ HasEnd ts ∨ HasEnd ts' := by
  simp only [HasEnd, List.mem_append, or_and_right, exists_or]

mutual

/-- A comment end in the JSON text of a value lies within one of its strings. -/
theorem infix_toJson_iff (v : Value) : commentEnd <:+: v.toJson ↔ HasEnd v.strings := by
  cases v with
  | null => exact iff_of_false (by decide) not_hasEnd_nil
  | bool b =>
    refine iff_of_false ?_ not_hasEnd_nil
    cases b <;> decide
  | number n => exact iff_of_false n.not_infix_toJson not_hasEnd_nil
  | string t =>
    change commentEnd <:+: jsonQuote t ↔ HasEnd [t]
    rw [infix_jsonQuote_iff, hasEnd_cons, or_iff_left not_hasEnd_nil]
  | array items =>
    change commentEnd <:+: '[' :: (itemsToJson items ++ [']']) ↔ HasEnd (itemStrings items)
    rw [infix_cons_other_iff (by decide) commentEnd_ne_nil,
      infix_concat_other_iff (by decide) commentEnd_ne_nil, infix_itemsToJson_iff items]
  | object fields =>
    change commentEnd <:+: '{' :: (fieldsToJson fields ++ ['}']) ↔ HasEnd (fieldStrings fields)
    rw [infix_cons_other_iff (by decide) commentEnd_ne_nil,
      infix_concat_other_iff (by decide) commentEnd_ne_nil, infix_fieldsToJson_iff fields]

theorem infix_itemsToJson_iff (items : List Value) :
    commentEnd <:+: itemsToJson items ↔ HasEnd (itemStrings items) := by
  match items with
  | [] => exact iff_of_false (by decide) not_hasEnd_nil
  | [item] =>
    change commentEnd <:+: item.toJson ↔ HasEnd (item.strings ++ [])
    rw [infix_toJson_iff item, List.append_nil]
  | item :: next :: more =>
    change commentEnd <:+: item.toJson ++ ',' :: itemsToJson (next :: more) ↔
      HasEnd (item.strings ++ itemStrings (next :: more))
    rw [infix_append_cons_iff (by decide), infix_toJson_iff item,
      infix_itemsToJson_iff (next :: more), hasEnd_append]

theorem infix_fieldsToJson_iff (fields : List (Text × Value)) :
    commentEnd <:+: fieldsToJson fields ↔ HasEnd (fieldStrings fields) := by
  match fields with
  | [] => exact iff_of_false (by decide) not_hasEnd_nil
  | [(key, value)] =>
    change commentEnd <:+: jsonQuote key ++ ':' :: value.toJson ↔
      HasEnd (key :: (value.strings ++ []))
    rw [infix_append_cons_iff (by decide), infix_jsonQuote_iff, infix_toJson_iff value, hasEnd_cons,
      List.append_nil]
  | (key, value) :: next :: more =>
    change commentEnd <:+:
        jsonQuote key ++ ':' :: (value.toJson ++ ',' :: fieldsToJson (next :: more)) ↔
      HasEnd (key :: (value.strings ++ fieldStrings (next :: more)))
    rw [infix_append_cons_iff (by decide), infix_jsonQuote_iff,
      infix_append_cons_iff (by decide), infix_toJson_iff value,
      infix_fieldsToJson_iff (next :: more), hasEnd_cons, hasEnd_append]

end

/-! ### The comment -/

/-- The value is shown as a comment. -/
def isCommented : Value → Bool
  | .null | .array _ | .object _ => true
  | _ => false

theorem format_of_isCommented {v : Value} (h : v.isCommented = true) :
    v.format = "<!-- `".toList ++ v.toJson ++ "` -->".toList := by
  cases v with
  | null | array | object => rfl
  | _ => cases h

end Value

/-- The text ends in the mark and has it nowhere before. -/
def Text.EndsFirstIn (mark t : Text) : Prop :=
  mark <:+ t ∧ ∀ before after, t = before ++ mark ++ after → after = []

theorem Text.endsFirstIn_concat {mark t : Text} {c : Char} (hs : mark <:+ t ++ [c]) :
    EndsFirstIn mark (t ++ [c]) ↔ ¬ mark <:+: t := by
  rw [EndsFirstIn, and_iff_right hs]
  constructor
  · rintro h ⟨before, after, rfl⟩
    exact absurd (h before (after ++ [c]) (by simp)) (by simp)
  · intro h before after he
    rcases List.eq_nil_or_concat' after with rfl | ⟨after, last, rfl⟩
    · rfl
    · rw [← List.append_assoc] at he
      obtain ⟨ht, -⟩ := List.append_inj' he rfl
      exact absurd ⟨before, after, ht.symm⟩ h

/-- Null, an array or an object is shown as a comment, and the comment ends where the text ends
exactly if no string and no key of the value holds a comment end. -/
theorem Value.format_closed_iff {v : Value} (h : v.isCommented = true) :
    "<!--".toList <+: v.format ∧ commentEnd <:+ v.format ∧
      (Text.EndsFirstIn commentEnd v.format ↔ ∀ t ∈ v.strings, ¬ commentEnd <:+: t) := by
  have hformat := format_of_isCommented h
  have hend : commentEnd <:+ v.format :=
    ⟨"<!-- `".toList ++ v.toJson ++ "` ".toList, by rw [hformat]; simp [commentEnd]⟩
  refine ⟨⟨" `".toList ++ v.toJson ++ "` -->".toList, by rw [hformat]; simp⟩, hend, ?_⟩
  have hdivided : v.format =
      ("<!--".toList ++ ' ' :: '`' :: (v.toJson ++ '`' :: ' ' :: "--".toList)) ++ ['>'] := by
    rw [hformat]
    simp
  have hbefore : commentEnd <:+:
      "<!--".toList ++ ' ' :: '`' :: (v.toJson ++ '`' :: ' ' :: "--".toList) ↔
        HasEnd v.strings := by
    rw [infix_append_cons_iff (by decide), or_iff_right (by decide),
      infix_cons_other_iff (by decide) commentEnd_ne_nil, infix_append_cons_iff (by decide),
      or_iff_left (by decide), infix_toJson_iff]
  rw [hdivided] at hend ⊢
  rw [Text.endsFirstIn_concat hend, hbefore]
  exact not_exists.trans (forall_congr' fun t => not_and)

/-- An object whose key and nested text hold parts of a comment end. -/
def Value.dashedObject : Value :=
  .object [("--".toList, .array [.string ">-- >".toList, .null, .bool false])]

theorem Value.format_dashedObject :
    dashedObject.isCommented = true ∧
      dashedObject.format = "<!-- `\x7b\"--\":[\">-- >\",null,false]\x7d` -->".toList ∧
      Text.EndsFirstIn commentEnd dashedObject.format := by
  refine ⟨rfl, rfl, ?_⟩
  exact (format_closed_iff (v := dashedObject) rfl).2.2.mpr (by decide)

/-- A string in an array closes the comment before the array is over. -/
theorem Value.format_closingString :
    ¬ ∀ v : Value, v.isCommented = true → Text.EndsFirstIn commentEnd v.format := by
  intro h
  have hformat : (Value.array [.string commentEnd]).format =
      "<!-- `[\"".toList ++ commentEnd ++ "\"]` -->".toList := rfl
  exact absurd ((h (.array [.string commentEnd]) rfl).2 _ _ hformat) (by decide)

end MarkdownDirectives
