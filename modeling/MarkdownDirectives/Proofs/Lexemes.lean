import Mathlib.Data.List.TakeWhile
import Mathlib.Data.List.Infix
import MarkdownDirectives.Expression.Token

/-!
# Lexemes

The patterns of the tokens, said without the cutting: a lexeme is a text that matches one of them,
and it stands for a token unless it is a quoted literal with a wrong escape. The first character of
a lexeme decides its pattern. Main statement: where the cutting finds a token, its length is that of
the longest lexeme at the front of the text, and where it is stuck no lexeme stands there.
-/

namespace MarkdownDirectives

namespace Token

/-! ### Patterns -/

def IsDigits (t : Text) : Prop := t ≠ [] ∧ ∀ c ∈ t, c.isDigit = true

/-- Nothing, or a point and digits. -/
inductive IsFraction : Text → Prop
  | none : IsFraction []
  | point {digits} : IsDigits digits → IsFraction ('.' :: digits)

/-- Nothing, or the letter, a sign if any and digits. -/
inductive IsExponent : Text → Prop
  | none : IsExponent []
  | letter {e sign digits} : e = 'e' ∨ e = 'E' → sign ∈ [[], ['+'], ['-']] → IsDigits digits →
    IsExponent (e :: (sign ++ digits))

/-- One text of each kind, in this order. -/
def Seq (P Q : Text → Prop) (t : Text) : Prop := ∃ a b, t = a ++ b ∧ P a ∧ Q b

def IsNumber : Text → Prop := Seq IsDigits (Seq IsFraction IsExponent)

/-- The inside of a quoted literal. A backslash takes the next character with it, which is no line
feed. -/
inductive IsQuotable (quote : Char) : Text → Prop
  | nil : IsQuotable quote []
  | plain {c t} : c ≠ quote → c ≠ '\\' → IsQuotable quote t → IsQuotable quote (c :: t)
  | escaped {c t} : c ≠ '\n' → IsQuotable quote t → IsQuotable quote ('\\' :: c :: t)

/-- The tokens with only one spelling. -/
def symbols : List Token :=
  [.dot, .bracketOpen, .bracketClose, .parenOpen, .parenClose, .comma, .plus, .or, .and, .bang]

/-- The text matches the pattern of a token. It stands for that token, a quoted literal with a wrong
escape for none. -/
inductive Lexeme : Text → Option Token → Prop
  | operation {c rest} : isNameStart c = true → (∀ d ∈ rest, isNamePart d = true) →
    Lexeme ('@' :: c :: rest) (some (.operation (c :: rest)))
  | property {inside} : (∀ c ∈ inside, c ≠ '{' ∧ c ≠ '}') →
    Lexeme ('{' :: '{' :: (inside ++ ['}', '}'])) (some (.property inside))
  | identifier {c rest} : isIdentifierStart c = true → (∀ d ∈ rest, isIdentifierPart d = true) →
    Lexeme (c :: rest) (some (.identifier (c :: rest)))
  | number {t} : IsNumber t → Lexeme t (some (.number (numberOf t)))
  | string {quote inside} : quote = '"' ∨ quote = '\'' → IsQuotable quote inside →
    Lexeme (quote :: (inside ++ [quote])) ((Escape.decode inside).map (.string · quote))
  | template {inside} : IsQuotable '`' inside →
    Lexeme ('`' :: (inside ++ ['`'])) (some (.template inside))
  | symbol {token} : token ∈ symbols → Lexeme token.shown (some token)

def IsLexeme (t : Text) : Prop := ∃ token, Lexeme t token

/-- A prefix of the text of the given kind and length, and no longer one is of the kind. -/
structure LongestPrefix (P : Text → Prop) (t : Text) (n : Nat) : Prop where
  length_le : n ≤ t.length
  mem : P (t.take n)
  maximal : ∀ l, l <+: t → P l → l.length ≤ n

/-! ### Runs of characters -/

section

variable {p : Char → Bool} {l t rest : Text}

theorem runLength_append (hl : ∀ c ∈ l, p c = true) (hr : ∀ c ∈ rest.head?, p c = false) :
    runLength p (l ++ rest) = l.length := by
  have hrest : rest.takeWhile p = [] := by
    cases rest with
    | nil => rfl
    | cons c rest => simp [hr c rfl]
  rw [runLength, List.takeWhile_append_of_pos hl, hrest, List.append_nil]

theorem exists_run (p : Char → Bool) (t : Text) : ∃ l rest, t = l ++ rest ∧
    (∀ c ∈ l, p c = true) ∧ (∀ c ∈ rest.head?, p c = false) ∧ runLength p t = l.length := by
  refine ⟨t.takeWhile p, t.dropWhile p, List.takeWhile_append_dropWhile.symm,
    fun c hc => List.mem_takeWhile_imp hc, fun c hc => ?_, rfl⟩
  have hne : t.dropWhile p ≠ [] := by
    intro h
    rw [h] at hc
    cases hc
  have hhead := List.head_dropWhile_not p hne
  rw [Option.mem_def, List.head?_eq_some_head hne, Option.some.injEq] at hc
  rwa [hc] at hhead

theorem length_le_runLength (hl : l <+: t) (hp : ∀ c ∈ l, p c = true) :
    l.length ≤ runLength p t := by
  obtain ⟨rest, rfl⟩ := hl
  rw [runLength, List.takeWhile_append_of_pos hp, List.length_append]
  exact Nat.le_add_right _ _

theorem all_take_runLength (p : Char → Bool) (t : Text) :
    ∀ c ∈ t.take (runLength p t), p c = true := by
  obtain ⟨l, rest, rfl, hl, -, hn⟩ := exists_run p t
  rwa [hn, List.take_left]

theorem runLength_le (p : Char → Bool) (t : Text) : runLength p t ≤ t.length :=
  (List.takeWhile_prefix p).length_le

end

/-! ### Numbers -/

theorem isDigits_take_runLength {t : Text} (h : runLength Char.isDigit t ≠ 0) :
    IsDigits (t.take (runLength Char.isDigit t)) := by
  refine ⟨List.ne_nil_of_length_pos ?_, all_take_runLength _ t⟩
  have hle := runLength_le Char.isDigit t
  rw [List.length_take]
  omega

theorem runLength_pos_of_isDigits {l t : Text} (hl : l <+: t) (hd : IsDigits l) :
    runLength Char.isDigit t ≠ 0 := by
  have hle := length_le_runLength hl hd.2
  have hpos := List.length_pos_of_ne_nil hd.1
  omega

theorem isDigits_longest {t : Text} (h : runLength Char.isDigit t ≠ 0) :
    LongestPrefix IsDigits t (runLength Char.isDigit t) where
  length_le := runLength_le _ t
  mem := isDigits_take_runLength h
  maximal _ hl hd := length_le_runLength hl hd.2

theorem isFraction_longest (t : Text) : LongestPrefix IsFraction t (fractionLength t) := by
  unfold fractionLength
  split
  · next rest =>
    split
    · next hnone =>
      refine ⟨Nat.zero_le _, .none, fun l hl hf => ?_⟩
      cases hf with
      | none => exact Nat.le_refl 0
      | point hd =>
        exact absurd hnone (runLength_pos_of_isDigits (List.cons_prefix_cons.mp hl).2 hd)
    · next hsome =>
      have hle := runLength_le Char.isDigit rest
      refine ⟨by rw [List.length_cons]; omega, ?_, fun l hl hf => ?_⟩
      · rw [Nat.add_comm, List.take_succ_cons]
        exact .point (isDigits_take_runLength hsome)
      · cases hf with
        | none => exact Nat.zero_le _
        | point hd =>
          have hmax := length_le_runLength (List.cons_prefix_cons.mp hl).2 hd.2
          rw [List.length_cons]
          omega
  · next hpoint =>
    refine ⟨Nat.zero_le _, .none, fun l hl hf => ?_⟩
    cases hf with
    | none => exact Nat.le_refl 0
    | point hd =>
      obtain ⟨rest, rfl⟩ := hl
      exact absurd rfl (hpoint _)

/-- The length of the sign at the front of an exponent's digits. -/
def signLength : Text → Nat
  | s :: _ => if s = '+' || s = '-' then 1 else 0
  | [] => 0

theorem exponentLength_cons {c : Char} {rest : Text} (hc : c = 'e' ∨ c = 'E') :
    exponentLength (c :: rest) =
      let digits := runLength Char.isDigit (rest.drop (signLength rest))
      if digits = 0 then 0 else 1 + signLength rest + digits := by
  have hletter : (c = 'e' || c = 'E') = true := by simpa using hc
  simp only [exponentLength, hletter, if_true]
  rfl

theorem take_signLength (t : Text) :
    t.take (signLength t) ∈ [[], ['+'], ['-']] ∧ (t.take (signLength t)).length = signLength t := by
  cases t with
  | nil => exact ⟨by simp [signLength], rfl⟩
  | cons s t =>
    by_cases hs : s = '+' ∨ s = '-'
    · have hone : signLength (s :: t) = 1 := by simp [signLength, hs]
      rw [hone, List.take_succ_cons, List.take_zero]
      rcases hs with rfl | rfl <;> exact ⟨by simp, rfl⟩
    · have hzero : signLength (s :: t) = 0 := by simp [signLength, hs]
      rw [hzero, List.take_zero]
      exact ⟨by simp, rfl⟩

/-- A sign before digits is the sign that is found. -/
theorem signLength_of_prefix {sign digits t : Text} (hs : sign ∈ [[], ['+'], ['-']])
    (hd : IsDigits digits) (h : sign ++ digits <+: t) :
    signLength t = sign.length ∧ digits <+: t.drop (signLength t) := by
  obtain ⟨rest, rfl⟩ := h
  obtain ⟨d, more, rfl⟩ := List.exists_cons_of_ne_nil hd.1
  have hdigit : d.isDigit = true := hd.2 d (List.mem_cons_self ..)
  have hplus : d ≠ '+' := fun h => by rw [h] at hdigit; cases hdigit
  have hminus : d ≠ '-' := fun h => by rw [h] at hdigit; cases hdigit
  simp only [List.mem_cons, List.not_mem_nil, or_false] at hs
  rcases hs with rfl | rfl | rfl
  · have hzero : signLength ([] ++ d :: more ++ rest) = 0 := by simp [signLength, hplus, hminus]
    exact ⟨hzero, by rw [hzero]; exact List.prefix_append _ _⟩
  · exact ⟨rfl, List.prefix_append _ _⟩
  · exact ⟨rfl, List.prefix_append _ _⟩

theorem isExponent_longest (t : Text) : LongestPrefix IsExponent t (exponentLength t) := by
  have hzero : ∀ t : Text, (∀ l, l <+: t → IsExponent l → l = []) →
      LongestPrefix IsExponent t 0 :=
    fun t h => ⟨Nat.zero_le _, .none, fun l hl he => by rw [h l hl he]; exact Nat.le_refl 0⟩
  cases t with
  | nil => exact hzero [] fun l hl _ => List.prefix_nil.mp hl
  | cons c rest =>
    by_cases hc : c = 'e' ∨ c = 'E'
    · rw [exponentLength_cons hc]
      dsimp only
      split
      · next hnone =>
        refine hzero _ fun l hl he => ?_
        cases he with
        | none => rfl
        | letter _ hs hd =>
          have hsign := signLength_of_prefix hs hd (List.cons_prefix_cons.mp hl).2
          exact absurd hnone (runLength_pos_of_isDigits hsign.2 hd)
      · next hsome =>
        have hsign := take_signLength rest
        have hle := runLength_le Char.isDigit (rest.drop (signLength rest))
        rw [List.length_drop] at hle
        refine ⟨by rw [List.length_cons]; omega, ?_, fun l hl he => ?_⟩
        · rw [Nat.add_assoc, Nat.add_comm, List.take_succ_cons, List.take_add]
          exact .letter hc hsign.1 (isDigits_take_runLength hsome)
        · cases he with
          | none => exact Nat.zero_le _
          | letter _ hs hd =>
            obtain ⟨hlength, hdigits⟩ :=
              signLength_of_prefix hs hd (List.cons_prefix_cons.mp hl).2
            have hmax := length_le_runLength hdigits hd.2
            rw [List.length_cons, List.length_append]
            omega
    · have hnot : exponentLength (c :: rest) = 0 := by
        have hother : (c = 'e' || c = 'E') = false := by simpa using hc
        simp only [exponentLength, hother]
        rfl
      rw [hnot]
      refine hzero _ fun l hl he => ?_
      cases he with
      | none => rfl
      | letter hletter _ _ => exact absurd ((List.cons_prefix_cons.mp hl).1 ▸ hletter) hc

/-- Two kinds of text one after the other: the longest is the longest of each, if a shorter one of
the first kind gains nothing from the second. -/
theorem LongestPrefix.seq {P Q : Text → Prop} {t : Text} {n m : Nat} (hP : LongestPrefix P t n)
    (hQ : LongestPrefix Q (t.drop n) m)
    (hshort : ∀ a b, a ++ b <+: t → P a → Q b → a.length < n → b = []) :
    LongestPrefix (Seq P Q) t (n + m) where
  length_le := by
    have hn := hP.length_le
    have hm := hQ.length_le
    rw [List.length_drop] at hm
    omega
  mem := ⟨t.take n, (t.drop n).take m, List.take_add, hP.mem, hQ.mem⟩
  maximal := by
    rintro l hl ⟨a, b, rfl, ha, hb⟩
    have hle := hP.maximal a ((List.prefix_append a b).trans hl) ha
    rcases Nat.lt_or_eq_of_le hle with hlt | heq
    · rw [hshort a b hl ha hb hlt, List.append_nil]
      exact Nat.le_add_right_of_le hle
    · obtain ⟨rest, rfl⟩ := hl
      have hdrop : (a ++ b ++ rest).drop n = b ++ rest := by
        rw [← heq, List.append_assoc, List.drop_left]
      rw [hdrop] at hQ
      have hb := hQ.maximal b (List.prefix_append b rest) hb
      rw [List.length_append]
      omega

/-- After less than the whole run a further digit follows. -/
theorem isDigit_of_lt_runLength {a b t : Text} (h : a ++ b <+: t)
    (hlt : a.length < runLength Char.isDigit t) : ∀ c ∈ b.head?, c.isDigit = true := by
  obtain ⟨run, rest, rfl, hrun, -, hn⟩ := exists_run Char.isDigit t
  rw [hn] at hlt
  intro c hc
  obtain ⟨b, rfl⟩ : ∃ more, b = c :: more := List.head?_eq_some_iff.mp hc
  have hget : (a ++ c :: b)[a.length]? = some c := by simp
  obtain ⟨after, he⟩ := h
  have hsame : (run ++ rest)[a.length]? = some c := by
    rw [← he, List.getElem?_append_left (by simp), hget]
  rw [List.getElem?_append_left hlt] at hsame
  exact hrun c (List.mem_of_getElem? hsame)

theorem head?_of_isExponent {t : Text} (h : IsExponent t) : ∀ c ∈ t.head?, c = 'e' ∨ c = 'E' := by
  intro c hc
  cases h with
  | none => cases hc
  | letter hletter _ _ =>
    cases hc
    exact hletter

/-- What follows the digits of a number does not begin with a digit. -/
theorem head?_of_fraction_exponent {t : Text} (h : Seq IsFraction IsExponent t) :
    ∀ c ∈ t.head?, c.isDigit = false := by
  obtain ⟨fraction, exponent, rfl, hf, he⟩ := h
  intro c hc
  cases hf with
  | none => rcases head?_of_isExponent he c hc with rfl | rfl <;> rfl
  | point _ =>
    cases hc
    rfl

theorem eq_nil_of_head? {t : Text} {p q : Char → Prop} (hp : ∀ c ∈ t.head?, p c)
    (hq : ∀ c ∈ t.head?, q c) (hpq : ∀ c, p c → ¬ q c) : t = [] := by
  cases t with
  | nil => rfl
  | cons c t => exact absurd (hq c rfl) (hpq c (hp c rfl))

theorem fraction_exponent_longest (t : Text) :
    LongestPrefix (Seq IsFraction IsExponent) t
      (fractionLength t + exponentLength (t.drop (fractionLength t))) := by
  refine (isFraction_longest t).seq (isExponent_longest _) fun a b hab ha hb hlt => ?_
  have hletter := head?_of_isExponent hb
  unfold fractionLength at hlt
  split at hlt
  · next rest =>
    cases ha with
    | none =>
      refine eq_nil_of_head? hletter (q := (· = '.')) (fun c hc => ?_) ?_
      · obtain ⟨b, rfl⟩ : ∃ more, b = c :: more := List.head?_eq_some_iff.mp hc
        exact (List.cons_prefix_cons.mp hab).1
      · rintro c (rfl | rfl) <;> decide
    | @point digits hd =>
      have hlt : digits.length < runLength Char.isDigit rest := by
        rw [List.length_cons] at hlt
        split at hlt <;> omega
      refine eq_nil_of_head? hletter
        (isDigit_of_lt_runLength (List.cons_prefix_cons.mp hab).2 hlt) ?_
      rintro c (rfl | rfl) <;> decide
  · exact absurd hlt (Nat.not_lt_zero _)

theorem exists_isDigit_cons {t : Text} (h : IsNumber t) :
    ∃ c rest, t = c :: rest ∧ c.isDigit = true := by
  obtain ⟨whole, more, rfl, hw, -⟩ := h
  obtain ⟨c, whole, rfl⟩ := List.exists_cons_of_ne_nil hw.1
  exact ⟨c, whole ++ more, rfl, hw.2 c (List.mem_cons_self ..)⟩

theorem isNumber_longest {t : Text} (h : runLength Char.isDigit t ≠ 0) :
    LongestPrefix IsNumber t (numberLength t) := by
  have hrest := fraction_exponent_longest (t.drop (runLength Char.isDigit t))
  rw [List.drop_drop] at hrest
  have hwhole := (isDigits_longest h).seq hrest fun a b hab _ hb hlt =>
    eq_nil_of_head? (isDigit_of_lt_runLength hab hlt) (head?_of_fraction_exponent hb)
      fun c hc => by rw [hc]; decide
  rwa [← Nat.add_assoc] at hwhole

/-! ### Quoted literals and properties -/

theorem cutQuoted_of_isQuotable {quote : Char} {inside : Text} (hq : quote ≠ '\\')
    (h : IsQuotable quote inside) (n : Nat) (rest : Text) :
    cutQuoted quote false n (inside ++ quote :: rest) = .token (n + inside.length + 1) := by
  induction h generalizing n with
  | nil => simp [cutQuoted]
  | @plain c t hc hb _ ih =>
    have hescape : (c == '\\') = false := by simpa using hb
    rw [List.cons_append, cutQuoted, if_neg hc, hescape, ih, List.length_cons]
    congr 1
    omega
  | @escaped c t hc _ ih =>
    have hescape : ('\\' == '\\') = true := rfl
    rw [List.cons_append, List.cons_append, cutQuoted, if_neg hq.symm, hescape, cutQuoted,
      if_neg hc, ih, List.length_cons, List.length_cons]
    congr 1
    omega

/-- After a backslash the text that was passed ends in it. -/
theorem of_cutQuoted {quote : Char} {escaped : Bool} {n m : Nat} {t : Text}
    (h : cutQuoted quote escaped n t = .token m) :
    ∃ inside rest, t = inside ++ quote :: rest ∧
      IsQuotable quote ((if escaped then ['\\'] else []) ++ inside) ∧
      m = n + inside.length + 1 := by
  fun_induction cutQuoted quote escaped n t with
  | case1 => cases h
  | case2 => cases h
  | case3 n c rest hc ih =>
    obtain ⟨inside, after, rfl, hi, rfl⟩ := ih h
    refine ⟨c :: inside, after, rfl, .escaped hc hi, ?_⟩
    rw [List.length_cons]
    omega
  | case4 n rest =>
    cases h
    exact ⟨[], rest, rfl, .nil, rfl⟩
  | case5 n c rest hc ih =>
    obtain ⟨inside, after, rfl, hi, rfl⟩ := ih h
    refine ⟨c :: inside, after, rfl, ?_, by rw [List.length_cons]; omega⟩
    by_cases hb : c = '\\'
    · subst hb
      exact hi
    · have hescape : (c == '\\') = false := by simpa using hb
      rw [hescape] at hi
      exact .plain hc hb hi

def isInside (c : Char) : Bool := c != '{' && c != '}'

theorem isInside_iff {c : Char} : isInside c = true ↔ c ≠ '{' ∧ c ≠ '}' := by
  simp [isInside]

theorem cutProperty_inside {inside : Text} (hi : ∀ c ∈ inside, c ≠ '{' ∧ c ≠ '}') (rest : Text) :
    cutProperty ('{' :: (inside ++ '}' :: '}' :: rest)) = .token (inside.length + 4) := by
  have hrun : runLength isInside (inside ++ '}' :: '}' :: rest) = inside.length :=
    runLength_append (fun c hc => isInside_iff.mpr (hi c hc)) fun c hc => by cases hc; rfl
  unfold isInside at hrun
  simp only [cutProperty, hrun, List.drop_left]

theorem of_cutProperty {t : Text} {n : Nat} (h : cutProperty t = .token n) :
    ∃ inside rest, t = '{' :: (inside ++ '}' :: '}' :: rest) ∧
      (∀ c ∈ inside, c ≠ '{' ∧ c ≠ '}') ∧ n = inside.length + 4 := by
  unfold cutProperty at h
  split at h
  · next rest =>
    obtain ⟨inside, after, rfl, hi, -, hn⟩ := exists_run isInside rest
    unfold isInside at hn
    rw [hn] at h
    simp only [List.drop_left] at h
    split at h
    · next more =>
      cases h
      exact ⟨inside, more, rfl, fun c hc => isInside_iff.mp (hi c hc), rfl⟩
    · cases h
    · cases h
  · cases h

/-! ### The first character -/

theorem isIdentifierStart_of_isDigit {c : Char} (h : c.isDigit = true) :
    isIdentifierStart c = false := by
  have hall : ∀ n < 58, 48 ≤ n → isIdentifierStart (Char.ofNat n) = false := by decide
  simp only [Char.isDigit, Bool.and_eq_true, decide_eq_true_eq] at h
  have hc : 48 ≤ c.toNat ∧ c.toNat ≤ 57 := h
  rw [← Char.ofNat_toNat c]
  exact hall c.toNat (Nat.lt_succ_of_le hc.2) hc.1

/-- What follows the first character of a lexeme. -/
def Completes (c : Char) (rest : Text) : Prop :=
  if isIdentifierStart c then ∀ d ∈ rest, isIdentifierPart d = true
  else if c.isDigit then IsNumber (c :: rest)
  else if c = '@' then
    ∃ d more, rest = d :: more ∧ isNameStart d = true ∧ ∀ e ∈ more, isNamePart e = true
  else if c = '{' then
    ∃ inside, rest = '{' :: (inside ++ ['}', '}']) ∧ ∀ d ∈ inside, d ≠ '{' ∧ d ≠ '}'
  else if c = '"' || c = '\'' || c = '`' then
    ∃ inside, rest = inside ++ [c] ∧ IsQuotable c inside
  else if c = '|' || c = '&' then rest = [c]
  else ".[](),+!".toList.contains c = true ∧ rest = []

theorem not_isLexeme_nil : ¬ IsLexeme [] := by
  rintro ⟨token, h⟩
  generalize ht : ([] : Text) = t at h
  cases h with
  | number hn =>
    subst ht
    obtain ⟨c, rest, he, -⟩ := exists_isDigit_cons hn
    cases he
  | symbol hs =>
    revert ht
    simp only [symbols, List.mem_cons, List.not_mem_nil, or_false] at hs
    rcases hs with rfl | rfl | rfl | rfl | rfl | rfl | rfl | rfl | rfl | rfl <;> exact nofun
  | _ => cases ht

theorem isLexeme_cons_iff {c : Char} {rest : Text} : IsLexeme (c :: rest) ↔ Completes c rest := by
  constructor
  · rintro ⟨token, h⟩
    generalize ht : c :: rest = t at h
    cases h with
    | operation hc hrest =>
      obtain ⟨rfl, rfl⟩ := List.cons.inj ht
      exact ⟨_, _, rfl, hc, hrest⟩
    | property hi =>
      obtain ⟨rfl, rfl⟩ := List.cons.inj ht
      exact ⟨_, rfl, hi⟩
    | identifier hc hrest =>
      obtain ⟨rfl, rfl⟩ := List.cons.inj ht
      rwa [Completes, if_pos hc]
    | number hn =>
      subst ht
      have hc : c.isDigit = true := by
        obtain ⟨d, more, he, hd⟩ := exists_isDigit_cons hn
        exact (List.cons.inj he).1 ▸ hd
      rwa [Completes, isIdentifierStart_of_isDigit hc, if_neg Bool.false_ne_true, if_pos hc]
    | string hq hi =>
      obtain ⟨rfl, rfl⟩ := List.cons.inj ht
      rcases hq with rfl | rfl <;> exact ⟨_, rfl, hi⟩
    | template hi =>
      obtain ⟨rfl, rfl⟩ := List.cons.inj ht
      exact ⟨_, rfl, hi⟩
    | symbol hs =>
      revert ht
      simp only [symbols, List.mem_cons, List.not_mem_nil, or_false] at hs
      rcases hs with rfl | rfl | rfl | rfl | rfl | rfl | rfl | rfl | rfl | rfl <;> intro ht <;>
        obtain ⟨rfl, rfl⟩ := List.cons.inj ht
      all_goals first | exact ⟨rfl, rfl⟩ | exact rfl
  · have hsymbol : ∀ {token}, token ∈ symbols → token.shown = c :: rest → IsLexeme (c :: rest) :=
      fun hs he => he ▸ ⟨_, .symbol hs⟩
    intro h
    unfold Completes at h
    split_ifs at h with hname hdigit hat hbrace hquote hdouble
    · exact ⟨_, .identifier hname h⟩
    · exact ⟨_, .number h⟩
    · obtain ⟨d, more, rfl, hd, hmore⟩ := h
      subst hat
      exact ⟨_, .operation hd hmore⟩
    · obtain ⟨inside, rfl, hi⟩ := h
      subst hbrace
      exact ⟨_, .property hi⟩
    · obtain ⟨inside, rfl, hi⟩ := h
      simp only [Bool.or_eq_true, decide_eq_true_eq] at hquote
      rcases hquote with hc | rfl
      · exact ⟨_, .string hc hi⟩
      · exact ⟨_, .template hi⟩
    · subst h
      simp only [Bool.or_eq_true, decide_eq_true_eq] at hdouble
      rcases hdouble with rfl | rfl
      · exact hsymbol (show Token.or ∈ symbols by decide) rfl
      · exact hsymbol (show Token.and ∈ symbols by decide) rfl
    · have hall : (".[](),+!".toList.all fun c =>
          symbols.any fun token => token.shown = [c]) = true := by decide
      obtain ⟨hc, rfl⟩ := h
      obtain ⟨token, hs, ht⟩ := List.any_eq_true.mp
        (List.all_eq_true.mp hall c (List.contains_iff_mem.mp hc))
      exact hsymbol hs (of_decide_eq_true ht)

/-! ### The cutting finds the longest lexeme -/

/-- What an outcome of the cutting says about the lexemes at the front of a text. -/
def Cut.Finds (t : Text) : Cut → Prop
  | .token length => LongestPrefix IsLexeme t length
  | .stuck _ => ∀ l, l <+: t → ¬ IsLexeme l

section

variable {c : Char} {rest : Text}

theorem longestPrefix_cons {n : Nat} (hn : n ≤ rest.length) (hm : Completes c (rest.take n))
    (hmax : ∀ l, l <+: rest → Completes c l → l.length ≤ n) :
    LongestPrefix IsLexeme (c :: rest) (1 + n) := by
  rw [Nat.add_comm]
  refine ⟨by rw [List.length_cons]; omega, isLexeme_cons_iff.mpr hm, fun l hl h => ?_⟩
  cases l with
  | nil => exact Nat.zero_le _
  | cons d l =>
    obtain ⟨rfl, htail⟩ := List.cons_prefix_cons.mp hl
    exact Nat.succ_le_succ (hmax l htail (isLexeme_cons_iff.mp h))

theorem not_isLexeme_of_prefix_cons (h : ∀ l, l <+: rest → ¬ Completes c l) :
    ∀ l, l <+: c :: rest → ¬ IsLexeme l := by
  intro l hl hlex
  cases l with
  | nil => exact not_isLexeme_nil hlex
  | cons d l =>
    obtain ⟨rfl, htail⟩ := List.cons_prefix_cons.mp hl
    exact h l htail (isLexeme_cons_iff.mp hlex)

theorem finds_identifier (hc : isIdentifierStart c = true) :
    LongestPrefix IsLexeme (c :: rest) (1 + runLength isIdentifierPart rest) := by
  have hcompletes : ∀ l, Completes c l ↔ ∀ d ∈ l, isIdentifierPart d = true := by
    intro l
    rw [Completes, if_pos hc]
  refine longestPrefix_cons (runLength_le _ _) ((hcompletes _).mpr ?_)
    fun l hl h => length_le_runLength hl ((hcompletes l).mp h)
  exact all_take_runLength _ _

theorem finds_number (hc : c.isDigit = true) :
    LongestPrefix IsLexeme (c :: rest) (numberLength (c :: rest)) := by
  have hrun : runLength Char.isDigit (c :: rest) ≠ 0 := by simp [runLength, hc]
  have hcompletes : ∀ l, Completes c l ↔ IsNumber (c :: l) := by
    intro l
    rw [Completes, isIdentifierStart_of_isDigit hc, if_neg Bool.false_ne_true, if_pos hc]
  obtain ⟨hle, hmem, hmax⟩ := isNumber_longest hrun
  obtain ⟨n, hn⟩ : ∃ n, numberLength (c :: rest) = n + 1 := by
    refine Nat.exists_eq_add_one_of_ne_zero fun hzero => ?_
    rw [hzero, List.take_zero] at hmem
    obtain ⟨d, more, he, -⟩ := exists_isDigit_cons hmem
    cases he
  rw [hn] at hle hmem hmax ⊢
  rw [Nat.add_comm]
  refine longestPrefix_cons (Nat.le_of_succ_le_succ hle) ((hcompletes _).mpr hmem) fun l hl h => ?_
  exact Nat.le_of_succ_le_succ
    (hmax (c :: l) (List.cons_prefix_cons.mpr ⟨rfl, hl⟩) ((hcompletes l).mp h))

theorem finds_operation : Cut.Finds ('@' :: rest) (match rest with
    | d :: _ => if isNameStart d then .token (1 + runLength isNamePart rest) else .stuck 1
    | [] => .stuck 1) := by
  have hcompletes : ∀ {l}, Completes '@' l →
      ∃ d more, l = d :: more ∧ isNameStart d = true ∧ ∀ e ∈ more, isNamePart e = true := id
  cases rest with
  | nil =>
    refine not_isLexeme_of_prefix_cons fun l hl hlex => ?_
    obtain ⟨d, more, rfl, -⟩ := hcompletes hlex
    cases List.prefix_nil.mp hl
  | cons d rest =>
    dsimp only
    split
    · next hd =>
      have hpart : isNamePart d = true := by
        simp only [isNameStart, isNamePart, Char.isAlphanum, Bool.or_eq_true] at hd ⊢
        exact hd.imp_left .inl
      have hrun : runLength isNamePart (d :: rest) = runLength isNamePart rest + 1 := by
        simp [runLength, hpart]
      rw [hrun]
      refine longestPrefix_cons
        (by rw [List.length_cons]; exact Nat.succ_le_succ (runLength_le _ _))
        ⟨d, _, List.take_succ_cons, hd, all_take_runLength _ _⟩ fun l hl hlex => ?_
      obtain ⟨e, more, rfl, -, hmore⟩ := hcompletes hlex
      exact Nat.succ_le_succ (length_le_runLength (List.cons_prefix_cons.mp hl).2 hmore)
    · next hd =>
      refine not_isLexeme_of_prefix_cons fun l hl hlex => ?_
      obtain ⟨e, more, rfl, he, -⟩ := hcompletes hlex
      exact hd ((List.cons_prefix_cons.mp hl).1 ▸ he)

/-- A pattern of which at most one text stands at the front leaves no choice of length. -/
theorem finds_of_unique {outcome : Cut}
    (hcut : ∀ l, l <+: rest → Completes c l → outcome = .token (1 + l.length))
    (hof : ∀ n, outcome = .token n → ∃ l, l <+: rest ∧ Completes c l ∧ n = 1 + l.length) :
    outcome.Finds (c :: rest) := by
  cases outcome with
  | token n =>
    obtain ⟨l, hl, hlex, rfl⟩ := hof n rfl
    refine longestPrefix_cons hl.length_le ?_ fun l' hl' hlex' => ?_
    · rwa [← List.prefix_iff_eq_take.mp hl]
    · have hlength := Cut.token.inj (hcut l' hl' hlex')
      omega
  | stuck n =>
    refine not_isLexeme_of_prefix_cons fun l hl hlex => ?_
    cases hcut l hl hlex

theorem cutProperty_of_completes {l : Text} (hl : l <+: rest) (h : Completes '{' l) :
    cutProperty rest = .token (1 + l.length) := by
  obtain ⟨after, rfl⟩ := hl
  obtain ⟨inside, rfl, hi⟩ : ∃ inside, l = '{' :: (inside ++ ['}', '}']) ∧
    ∀ d ∈ inside, d ≠ '{' ∧ d ≠ '}' := h
  have hc := cutProperty_inside hi after
  simp only [List.cons_append, List.append_assoc, List.nil_append, List.length_cons,
    List.length_append, List.length_nil, hc]
  congr 1
  omega

theorem finds_property : (cutProperty rest).Finds ('{' :: rest) := by
  refine finds_of_unique (fun l => cutProperty_of_completes) fun n hn => ?_
  obtain ⟨inside, after, rfl, hi, rfl⟩ := of_cutProperty hn
  refine ⟨'{' :: (inside ++ ['}', '}']), ⟨after, by simp⟩, ⟨inside, rfl, hi⟩, ?_⟩
  simp only [List.length_cons, List.length_append, List.length_nil]
  omega

theorem completes_quote_iff (hc : c = '"' ∨ c = '\'' ∨ c = '`') {l : Text} :
    Completes c l ↔ ∃ inside, l = inside ++ [c] ∧ IsQuotable c inside := by
  rcases hc with rfl | rfl | rfl <;> exact Iff.rfl

theorem cutQuoted_of_completes (hc : c = '"' ∨ c = '\'' ∨ c = '`') {l : Text} (hl : l <+: rest)
    (h : Completes c l) : cutQuoted c false 1 rest = .token (1 + l.length) := by
  have hb : c ≠ '\\' := by rcases hc with rfl | rfl | rfl <;> decide
  obtain ⟨after, rfl⟩ := hl
  obtain ⟨inside, rfl, hi⟩ := (completes_quote_iff hc).mp h
  rw [List.append_assoc, List.singleton_append, cutQuoted_of_isQuotable hb hi, List.length_append,
    List.length_singleton, Nat.add_assoc]

theorem finds_quoted (hc : c = '"' ∨ c = '\'' ∨ c = '`') :
    (cutQuoted c false 1 rest).Finds (c :: rest) := by
  refine finds_of_unique (fun l => cutQuoted_of_completes hc) fun n hn => ?_
  obtain ⟨inside, after, rfl, hi, rfl⟩ := of_cutQuoted hn
  refine ⟨inside ++ [c], ⟨after, by simp⟩, (completes_quote_iff hc).mpr ⟨inside, rfl, hi⟩, ?_⟩
  rw [List.length_append, List.length_singleton, Nat.add_assoc]

theorem finds_double (hc : c = '|' ∨ c = '&') : Cut.Finds (c :: rest) (match rest with
    | d :: _ => if d = c then .token 2 else .stuck 1
    | [] => .stuck 1) := by
  have hcompletes : ∀ l, Completes c l ↔ l = [c] := by
    intro l
    rcases hc with rfl | rfl <;> exact Iff.rfl
  refine finds_of_unique ?_ fun n hn => ?_
  · rintro l ⟨after, rfl⟩ hlex
    rw [(hcompletes l).mp hlex]
    exact if_pos rfl
  · split at hn
    · split at hn
      · next hd =>
        cases hn
        exact ⟨[c], ⟨_, by rw [hd]; rfl⟩, (hcompletes _).mpr rfl, rfl⟩
      · cases hn
    · cases hn

end

/-- The cutting finds the longest lexeme at the front of a text, and it is stuck where there is
none. -/
theorem finds_cut (t : Text) : (cut t).Finds t := by
  cases t with
  | nil =>
    intro l hl
    rw [List.prefix_nil.mp hl]
    exact not_isLexeme_nil
  | cons c rest =>
    simp only [cut]
    split_ifs with hname hdigit hat hbrace hquote hdouble hsymbol
    · exact finds_identifier hname
    · exact finds_number hdigit
    · subst hat
      exact finds_operation
    · subst hbrace
      exact finds_property
    · simp only [Bool.or_eq_true, decide_eq_true_eq, or_assoc] at hquote
      exact finds_quoted hquote
    · simp only [Bool.or_eq_true, decide_eq_true_eq] at hdouble
      exact finds_double hdouble
    all_goals
      have hcompletes : ∀ l, Completes c l ↔ ".[](),+!".toList.contains c = true ∧ l = [] := by
        intro l
        rw [Completes, if_neg hname, if_neg hdigit, if_neg hat, if_neg hbrace, if_neg hquote,
          if_neg hdouble]
    · exact longestPrefix_cons (Nat.zero_le _) ((hcompletes _).mpr ⟨hsymbol, rfl⟩)
        fun l _ hlex => Nat.le_of_eq (congrArg List.length ((hcompletes l).mp hlex).2)
    · exact not_isLexeme_of_prefix_cons fun l _ hlex => hsymbol ((hcompletes l).mp hlex).1

/-! ### The token of a lexeme -/

theorem ofText_of_lexeme {t : Text} {token : Option Token} (h : Lexeme t token) :
    ofText t = token := by
  cases h with
  | operation => rfl
  | @property inside _ =>
    have hinside : (inside ++ ['}', '}']).take (('{' :: (inside ++ ['}', '}'])).length - 3) =
        inside := by
      have hlength : ('{' :: (inside ++ ['}', '}'])).length - 3 = inside.length := by simp
      rw [hlength, List.take_left]
    exact congrArg (fun t => some (Token.property t)) hinside
  | identifier hc => simp only [ofText, hc, if_true]
  | number hn =>
    obtain ⟨c, rest, rfl, hc⟩ := exists_isDigit_cons hn
    simp only [ofText, isIdentifierStart_of_isDigit hc, hc, if_true]
    rfl
  | @string quote inside hq _ =>
    have hinside : (inside ++ [quote]).dropLast = inside := List.dropLast_concat
    rcases hq with rfl | rfl
    · exact congrArg (fun t => (Escape.decode t).map (Token.string · '"')) hinside
    · exact congrArg (fun t => (Escape.decode t).map (Token.string · '\'')) hinside
  | template => exact congrArg (fun t => some (Token.template t)) List.dropLast_concat
  | @symbol token hs =>
    have hall : ∀ token ∈ symbols, ofText token.shown = some token := by decide
    exact hall token hs

/-! ### Blanks and lexemes -/

theorem not_isBlank_of_isIdentifierPart {c : Char} (h : isIdentifierPart c = true) :
    isBlank c = false := by
  cases hb : isBlank c with
  | false => rfl
  | true =>
    simp only [isBlank, Bool.or_eq_true, beq_iff_eq] at hb
    rcases hb with (((rfl | rfl) | rfl) | rfl) | rfl <;> cases h

theorem not_isBlank_of_mem_number {t : Text} (h : IsNumber t) : ∀ c ∈ t, isBlank c = false := by
  have hdigits : ∀ {t}, IsDigits t → ∀ c ∈ t, isBlank c = false := by
    intro t ht c hc
    refine not_isBlank_of_isIdentifierPart ?_
    simp [isIdentifierPart, isNamePart, Char.isAlphanum, ht.2 c hc]
  obtain ⟨whole, _, rfl, hw, fraction, exponent, rfl, hf, he⟩ := h
  refine List.forall_mem_append.mpr ⟨hdigits hw, List.forall_mem_append.mpr ⟨?_, ?_⟩⟩
  · cases hf with
    | none => exact fun c hc => absurd hc List.not_mem_nil
    | point hd => exact List.forall_mem_cons.mpr ⟨rfl, hdigits hd⟩
  · cases he with
    | none => exact fun c hc => absurd hc List.not_mem_nil
    | letter hletter hs hd =>
      refine List.forall_mem_cons.mpr ⟨by rcases hletter with rfl | rfl <;> rfl,
        List.forall_mem_append.mpr ⟨?_, hdigits hd⟩⟩
      simp only [List.mem_cons, List.not_mem_nil, or_false] at hs
      rcases hs with rfl | rfl | rfl <;> simp [isBlank]

/-- Where a lexeme goes on beyond another one there is no blank. -/
theorem not_isBlank_of_longer {l more : Text} (hl : IsLexeme l) (hm : IsLexeme (l ++ more)) :
    ∀ c ∈ more, isBlank c = false := by
  intro c hc
  cases l with
  | nil => exact absurd hl not_isLexeme_nil
  | cons d l =>
    rw [List.cons_append] at hm
    rw [isLexeme_cons_iff] at hl hm
    have hmem : c ∈ l ++ more := List.mem_append_right l hc
    have hpos : 0 < more.length := List.length_pos_of_mem hc
    have hlength : (l ++ more).length ≠ l.length := by
      rw [List.length_append]
      omega
    have hprefix : l <+: l ++ more := List.prefix_append _ _
    unfold Completes at hl hm
    split_ifs at hl hm with hname hdigit hat hbrace hquote hdouble
    · exact not_isBlank_of_isIdentifierPart (hm c hmem)
    · exact not_isBlank_of_mem_number hm c (List.mem_cons_of_mem _ hmem)
    · obtain ⟨e, front, rfl, -, -⟩ := hl
      obtain ⟨e', back, he, -, hback⟩ := hm
      obtain ⟨rfl, rfl⟩ := List.cons.inj he
      have hpart : isNamePart c = true := hback c (List.mem_append_right _ hc)
      exact not_isBlank_of_isIdentifierPart (by rw [isIdentifierPart, hpart]; rfl)
    · subst hbrace
      have hshort := cutProperty_of_completes hprefix hl
      rw [cutProperty_of_completes List.prefix_rfl hm, Cut.token.injEq] at hshort
      omega
    · simp only [Bool.or_eq_true, decide_eq_true_eq, or_assoc] at hquote
      have hshort := cutQuoted_of_completes hquote hprefix ((completes_quote_iff hquote).mpr hl)
      rw [cutQuoted_of_completes hquote List.prefix_rfl ((completes_quote_iff hquote).mpr hm),
        Cut.token.injEq] at hshort
      omega
    · exact absurd (congrArg List.length (hm.trans hl.symm)) hlength
    · exact absurd (congrArg List.length (hm.2.trans hl.2.symm)) hlength

theorem exists_cons_of_isLexeme {l : Text} (h : IsLexeme l) :
    ∃ c rest, l = c :: rest ∧ isBlank c = false := by
  cases l with
  | nil => exact absurd h not_isLexeme_nil
  | cons c rest =>
    refine ⟨c, rest, rfl, ?_⟩
    have hcompletes := isLexeme_cons_iff.mp h
    cases hb : isBlank c with
    | false => rfl
    | true =>
      -- no pattern has a blank in front, so only the test for the symbols is left
      simp only [isBlank, Bool.or_eq_true, beq_iff_eq] at hb
      rcases hb with (((rfl | rfl) | rfl) | rfl) | rfl <;>
        exact absurd (And.left hcompletes) (by decide)

end Token

end MarkdownDirectives
