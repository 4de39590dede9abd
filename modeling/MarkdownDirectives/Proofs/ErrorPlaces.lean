import MarkdownDirectives.Proofs.Lookahead
import MarkdownDirectives.Proofs.MaximalMunch

/-!
# Places of syntax errors

A parser that fails has found the first token with which no expression begins. The error is placed
at this token, except after the point of a step, where the token is passed before its place is
taken, so that the error points behind it.
-/

namespace MarkdownDirectives

namespace Grammar

open Expression

/-! ### Whole token lists -/

/-- An expression of the grammar begins with the tokens. -/
def Viable (ts : List Token) : Prop := ∃ more e, Derives (.expression (.chain .or) e) (ts ++ more)

/-- The first token with which no expression begins, between the tokens in front of it and those
after it. -/
structure Offends (tokens front : List PlacedToken) (p : PlacedToken) (rest : List PlacedToken) :
    Prop where
  split : tokens = front ++ p :: rest
  viable : Viable (bare front)
  not_viable : ¬ Viable (bare (front ++ [p]))

section

variable {stop : Nat} {tokens front rest : List PlacedToken} {p : PlacedToken} {fault : Fault}

/-- Tokens with which the reader fails in any case begin no expression. -/
theorem not_viable_of_stuck (stop : Nat)
    (h : ∀ more e, ofTokens stop (front ++ p :: more) ≠ .ok e) :
    ¬ Viable (bare (front ++ [p])) := by
  rintro ⟨more, e, hd⟩
  obtain ⟨placed, rfl⟩ := exists_bare_eq more
  refine h placed e (ofTokens_eq_ok_iff.mpr ?_)
  simpa using hd

theorem readChain_of_ofTokens {e : Expression} (h : ofTokens stop tokens = .ok e) :
    readChain stop .or (8 * tokens.length + 8) tokens = .ok (e, []) := by
  change (readChain stop .or (8 * tokens.length + 8) tokens).bind _ = _ at h
  obtain ⟨⟨read, rest⟩, hread, hrest⟩ := exists_of_bind_eq_ok h
  cases rest with
  | nil =>
    cases hrest
    exact hread
  | cons p rest => cases hrest

/-- The places of the errors of the reader. -/
theorem ofTokens_error (h : ofTokens stop tokens = .error fault) :
    (Viable (bare tokens) ∧ fault.offset = stop) ∨
      ∃ front p rest, Offends tokens front p rest ∧
        fault.offset = errorPlace stop front (p :: rest) := by
  have hor := (readsPredictably stop _).chain .or tokens
    (show (Level.chain .or).fuel tokens.length ≤ 8 * tokens.length + 8 by
      simp [Level.fuel, Level.looseness])
  change (readChain stop .or (8 * tokens.length + 8) tokens).bind _ = _ at h
  cases hread : readChain stop .or (8 * tokens.length + 8) tokens with
  | error fault' =>
    rw [hread] at h
    cases h
    obtain ⟨front, rest, rfl, hfront, hplace, hstuck⟩ := hor.error fault hread
    cases rest with
    | nil =>
      refine .inl ⟨by rwa [List.append_nil], hplace.trans ?_⟩
      simp [errorPlace, nextOffset]
    | cons p rest =>
      refine .inr ⟨front, p, rest, ⟨rfl, hfront, not_viable_of_stuck stop ?_⟩, hplace⟩
      exact fun more e he => hstuck _ _ _ ⟨p, rest, more, rfl, rfl⟩ (readChain_of_ofTokens he)
  | ok read =>
    obtain ⟨e, rest⟩ := read
    rw [hread] at h
    obtain ⟨used, rfl, hused, hlocal⟩ := hor.ok e rest hread
    have hd := ((readsSoundly stop _).chain .or _ _ _ hread).derives
    cases rest with
    | nil => cases h
    | cons p rest =>
      cases h
      refine .inr ⟨used, p, rest, ⟨rfl, ⟨[], e, by simpa using hd⟩, not_viable_of_stuck
        stop ?_⟩, (if_neg hused).symm⟩
      intro more e' he
      cases hlocal _ _ _ ⟨p, rest, more, rfl, rfl⟩ (readChain_of_ofTokens he)

theorem Viable.of_append {ts more : List Token} (h : Viable (ts ++ more)) : Viable ts := by
  obtain ⟨after, e, hd⟩ := h
  exact ⟨more ++ after, e, by rwa [← List.append_assoc]⟩

theorem Offends.not_viable_all (h : Offends tokens front p rest) : ¬ Viable (bare tokens) := by
  intro hv
  rw [h.split, List.append_cons, bare_append] at hv
  exact h.not_viable hv.of_append

/-- No other token is the first one. -/
theorem Offends.unique {front' rest' : List PlacedToken} {p' : PlacedToken}
    (h : Offends tokens front p rest) (h' : Offends tokens front' p' rest') :
    front = front' ∧ p = p' ∧ rest = rest' := by
  have key : ∀ {front front' rest rest' : List PlacedToken} {p p' : PlacedToken},
      Offends tokens front p rest → Offends tokens front' p' rest' →
      front'.length ≤ front.length := by
    intro front front' rest rest' p p' h h'
    by_contra hlong
    have hfirst : front ++ [p] <+: tokens := ⟨rest, by rw [h.split]; simp⟩
    have hsecond : front' <+: tokens := ⟨p' :: rest', h'.split.symm⟩
    obtain ⟨more, rfl⟩ := List.prefix_of_prefix_length_le hfirst hsecond (by simp; omega)
    have hv := h'.viable
    rw [bare_append] at hv
    exact h.not_viable hv.of_append
  have hlength : front.length = front'.length := Nat.le_antisymm (key h' h) (key h h')
  obtain ⟨hfront, hrest⟩ := List.append_inj (h.split.symm.trans h'.split) hlength
  exact ⟨hfront, (List.cons.inj hrest).1, (List.cons.inj hrest).2⟩

end

/-! ### Texts -/

/-- The error of a text with tokens that are no expression: it is placed at the end of the text if
the tokens begin an expression, and otherwise by the first one with which none begins. It stands
at this token exactly if that does not follow the point of a step. -/
theorem parse_error_place {t : Text} {tokens : List PlacedToken}
    (h : Token.tokenize t = .ok tokens) (hfail : ∀ e, Expression.parse t ≠ .ok e) :
    ∃ offset reason, Expression.parse t = .error (.malformedExpression t offset reason) ∧
      (Viable (bare tokens) → offset = t.byteLength) ∧
      (¬ Viable (bare tokens) → ∃ front p rest, Offends tokens front p rest ∧
        offset = errorPlace t.byteLength front (p :: rest) ∧
        (offset = p.offset ↔ ¬ EndsInDot front) ∧
        (offset = t.byteLength ↔ EndsInDot front ∧ rest = [])) := by
  obtain ⟨hinside, hincreasing⟩ := Token.offsets_of_tokenize h
  cases hread : ofTokens t.byteLength tokens with
  | ok e => exact absurd (by simp only [Expression.parse, h, Except.bind, hread]) (hfail e)
  | error fault =>
    refine ⟨fault.offset, fault.reason, by simp only [Expression.parse, h, Except.bind, hread],
      fun hv => ?_, fun hv => ?_⟩
    · rcases ofTokens_error hread with ⟨-, hplace⟩ | ⟨front, p, rest, hoffends, -⟩
      · exact hplace
      · exact absurd hv hoffends.not_viable_all
    · rcases ofTokens_error hread with ⟨hviable, -⟩ | ⟨front, p, rest, hoffends, hplace⟩
      · exact absurd hviable hv
      · refine ⟨front, p, rest, hoffends, hplace, ?_⟩
        rw [hoffends.split] at hinside hincreasing
        have hp : p.offset < t.byteLength := hinside p (by simp)
        -- the offsets increase, so behind the token is another place than at it
        by_cases hdot : EndsInDot front
        · have hoffset : fault.offset = nextOffset t.byteLength rest :=
            hplace.trans (if_pos hdot)
          rw [hoffset]
          cases rest with
          | nil =>
            exact ⟨iff_of_false (Nat.ne_of_gt hp) (not_not_intro hdot),
              iff_of_true rfl ⟨hdot, rfl⟩⟩
          | cons q rest =>
            have hq : q.offset < t.byteLength := hinside q (by simp)
            have hpq : p.offset < q.offset := by
              have htail := (List.pairwise_append.mp hincreasing).2.1
              exact (List.pairwise_cons.mp htail).1 q (List.mem_cons_self ..)
            exact ⟨iff_of_false (Nat.ne_of_gt hpq) (not_not_intro hdot),
              iff_of_false (Nat.ne_of_lt hq) fun hend => by cases hend.2⟩
        · have hoffset : fault.offset = p.offset := hplace.trans (if_neg hdot)
          rw [hoffset]
          exact ⟨iff_of_true rfl hdot, iff_of_false (Nat.ne_of_lt hp) fun hend => hdot hend.1⟩

/-- With a number after the point the error stands behind the number, at the end of the text, as if
an expression began with all the tokens. -/
theorem parse_number_after_dot :
    Token.tokenize "a.1".toList = .ok [⟨.identifier ['a'], 0⟩, ⟨.dot, 1⟩,
      ⟨.number (Token.numberOf ['1']), 2⟩] ∧
    Offends [⟨.identifier ['a'], 0⟩, ⟨.dot, 1⟩, ⟨.number (Token.numberOf ['1']), 2⟩]
      [⟨.identifier ['a'], 0⟩, ⟨.dot, 1⟩] ⟨.number (Token.numberOf ['1']), 2⟩ [] ∧
    ∃ reason, Expression.parse "a.1".toList =
      .error (.malformedExpression "a.1".toList 3 reason) := by
  refine ⟨by rfl, ⟨rfl, ?_, not_viable_of_stuck 3 fun more e he => ?_⟩, _, by rfl⟩
  · have ha : Derives (.expression (.chain .or) _) [.identifier ['a'], .dot, .identifier ['x']] :=
      .operand (.operand (.operand (.positive (.member (.primary (.name ['a']))))))
    exact ⟨[.identifier ['x']], _, ha⟩
  · cases he

/-- The tokens of a call in which a comma is missing. -/
def missingComma : List PlacedToken :=
  [⟨.operation ['a'], 0⟩, ⟨.parenOpen, 2⟩, ⟨.identifier ['b'], 3⟩, ⟨.identifier ['c'], 5⟩,
    ⟨.parenClose, 6⟩]

theorem parse_error_place_missingComma :
    (Token.tokenize "@a(b c)".toList = .ok missingComma ∧
      ∀ e, Expression.parse "@a(b c)".toList ≠ .ok e) ∧
    ∃ offset reason, Expression.parse "@a(b c)".toList =
        .error (.malformedExpression "@a(b c)".toList offset reason) ∧
      (Viable (bare missingComma) → offset = 7) ∧
      (¬ Viable (bare missingComma) → ∃ front p rest, Offends missingComma front p rest ∧
        offset = errorPlace 7 front (p :: rest) ∧ (offset = p.offset ↔ ¬ EndsInDot front) ∧
        (offset = 7 ↔ EndsInDot front ∧ rest = [])) := by
  have htokens : Token.tokenize "@a(b c)".toList = .ok missingComma := by rfl
  have hfail : ∀ e, Expression.parse "@a(b c)".toList ≠ .ok e := by
    intro e he
    have hnone : (Expression.parse "@a(b c)".toList).toOption.isNone = true := by decide +kernel
    rw [he] at hnone
    cases hnone
  exact ⟨⟨htokens, hfail⟩, parse_error_place htokens hfail⟩

end Grammar

end MarkdownDirectives
