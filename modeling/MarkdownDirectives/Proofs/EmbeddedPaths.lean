import MarkdownDirectives.Proofs.Grammar
import MarkdownDirectives.Proofs.MaximalMunch
import MarkdownDirectives.Proofs.Spelling

/-!
# Paths in expressions and templates

A property path stands in an expression between double braces, and in a template between a dollar
sign with a brace and a brace. Both read what is inside as the whole text of a path is read, and a
path of words and positions is read again from what is shown of it.
-/

namespace MarkdownDirectives

namespace PropertyPath

/-- The text as a property of an expression. -/
def inProperty (p : Text) : Text := '{' :: '{' :: (p ++ ['}', '}'])

/-- The text as an interpolation of a template. -/
def inInterpolation (p : Text) : Text := '$' :: '{' :: (p ++ ['}'])

end PropertyPath

/-! ### In a template -/

theorem eq_of_append_singleton {c : Char} {p front rest : Text} (hp : c ∉ p)
    (h : p ++ [c] = front ++ c :: rest) : front = p ∧ rest = [] := by
  rcases List.append_eq_append_iff.mp h with ⟨more, rfl, hmore⟩ | ⟨more, rfl, hmore⟩
  · cases more with
    | nil => exact ⟨List.append_nil _, by simpa using hmore.symm⟩
    | cons d more => simp at hmore
  · cases more with
    | nil => exact ⟨(List.append_nil _).symm, by simpa using hmore⟩
    | cons d more =>
      obtain ⟨rfl, -⟩ := List.cons.inj hmore
      exact absurd (List.mem_append_right front (List.mem_cons_self ..)) hp

namespace TemplatePart

open PropertyPath

/-- An interpolation around a path keeps the path without the blanks around it, which is then read
with the same segments. -/
theorem parse?_around {before p after : Text} {path : List Step}
    (hbefore : PropertyPath.IsBlank before) (hp : WritesSteps p path)
    (hafter : PropertyPath.IsBlank after) :
    parse? (inInterpolation (before ++ p ++ after)) =
      (PropertyPath.parse? (before ++ p ++ after)).map ([.interpolation ·]) := by
  have hhead := head?_ways_interpolationPattern hbefore hp hafter []
  have hsearch := Pattern.search_of_head? hhead (List.cons_ne_nil _ _)
  have hkept := parse?_of_writesSteps isBlank_nil hp isBlank_nil
  rw [List.nil_append, List.append_nil] at hkept
  rw [List.append_nil] at hsearch
  rw [parse?_of_writesSteps hbefore hp hafter, ← hkept, parse?, inInterpolation, hsearch,
    Pattern.search, List.mapM_cons]
  cases hread : PropertyPath.parse? p <;> simp [ofPiece?, hread]

/-- A match is followed by the closing brace at the end. -/
theorem exists_path_of_head? {p : Text} (hp : '}' ∉ p) {m : Pattern.Match}
    (h : (interpolationPattern.ways (inInterpolation p)).head? = some m) :
    ∃ before q after path, p = before ++ q ++ after ∧ PropertyPath.IsBlank before ∧
      WritesSteps q path ∧ PropertyPath.IsBlank after := by
  obtain ⟨taken, ht, htakes⟩ := Pattern.takes_of_head?_ways h
  obtain ⟨before, q, after, path, rfl, hbefore, hq, hafter, -⟩ :=
    takes_interpolationPattern.mp htakes
  have hinside : p ++ ['}'] = (before ++ q ++ after) ++ '}' :: m.rest := by
    simpa [inInterpolation] using ht
  -- the only closing brace is the one at the end, so nothing is left after it
  obtain ⟨rfl, -⟩ := eq_of_append_singleton hp hinside
  exact ⟨before, q, after, path, rfl, hbefore, hq, hafter⟩

/-- Without an interpolation in front a template begins with a text. -/
theorem parse?_ne_interpolation {c : Char} {t : Text}
    (h : (interpolationPattern.ways (c :: t)).head? = none) (path : PropertyPath) :
    parse? (c :: t) ≠ some [.interpolation path] := by
  intro hread
  rw [parse?, Pattern.search, h] at hread
  -- the character itself is the beginning of a text, whatever comes after it
  obtain ⟨u, more, hfirst⟩ := Pattern.exists_consChar c (interpolationPattern.search 0 t)
  simp only [hfirst] at hread
  cases mapM_eq_some_iff.mp hread with
  | cons htext _ =>
    obtain ⟨v, -, hv⟩ := Option.map_eq_some_iff.mp htext
    cases hv

/-- A template of one interpolation holds the path that is written inside. -/
theorem parse?_inInterpolation {p : Text} (hp : '}' ∉ p) {path : PropertyPath} :
    parse? (inInterpolation p) = some [.interpolation path] ↔
      PropertyPath.parse? p = some path := by
  constructor
  · intro hread
    cases hhead : (interpolationPattern.ways (inInterpolation p)).head? with
    | none => exact absurd hread (parse?_ne_interpolation hhead path)
    | some m =>
      obtain ⟨before, q, after, steps, rfl, hbefore, hq, hafter⟩ := exists_path_of_head? hp hhead
      rw [parse?_around hbefore hq hafter] at hread
      simpa using hread
  · intro hread
    obtain ⟨before, q, after, steps, rfl, hbefore, hq, hafter, -⟩ := writesSteps_of_parse? hread
    rw [parse?_around hbefore hq hafter, hread, Option.map_some]

end TemplatePart

/-! ### In an expression -/

namespace Expression

open PropertyPath

/-- An operand alone is read as the whole expression. -/
theorem ofTokens_operand {stop : Nat} {p : PlacedToken} {result : Except Fault Expression}
    (hbang : p.token ≠ .bang)
    (h : ∀ fuel, readPrimary stop (fuel + 1) [p] = result.map (·, [])) :
    ofTokens stop [p] = result := by
  have hunary : ∀ fuel, readUnary stop (fuel + 2) [p] = result.map (·, []) := by
    intro fuel
    rw [Grammar.readUnary_positive (by rintro _ ⟨⟩; exact hbang), Grammar.readAccess, h]
    cases result <;> rfl
  have hchain : readOr stop 16 [p] = result.map (·, []) := by
    change ((((readUnary stop 13 [p]).bind _).bind _).bind _) = _
    rw [hunary]
    cases result <;> rfl
  change (readOr stop 16 [p]).bind _ = _
  rw [hchain]
  cases result <;> rfl

/-- The text of one token is read as the operand of this token. -/
theorem parse_eq_ok_iff_operand {t : Text} {token : Token} {result : Except Fault Expression}
    (hlexeme : Token.Lexeme t (some token)) (hbang : token ≠ .bang)
    (h : ∀ stop fuel, readPrimary stop (fuel + 1) [⟨token, 0⟩] = result.map (·, []))
    {expression : Expression} : parse t = .ok expression ↔ result = .ok expression := by
  rw [parse, Token.tokenize_lexeme hlexeme, Except.bind, ofTokens_operand hbang (h _)]
  cases result <;> simp

theorem parse_inProperty {p : Text} (hp : ∀ c ∈ p, c ≠ '{' ∧ c ≠ '}') {path : PropertyPath} :
    parse (inProperty p) = .ok (.property path) ↔ PropertyPath.parse? p = some path := by
  have hlexeme : Token.Lexeme (inProperty p) (some (.property p)) := .property hp
  have hread : ∀ stop fuel, readPrimary stop (fuel + 1) [⟨.property p, 0⟩] =
      Except.map (·, []) ((PropertyPath.parse? p).elim
        (.error ⟨0, "invalid property path ".toList ++ inBackticks p.trim⟩)
        fun path => .ok (.property path)) := by
    intro stop fuel
    simp only [readPrimary]
    cases PropertyPath.parse? p <;> rfl
  rw [parse_eq_ok_iff_operand hlexeme (by simp) hread]
  cases PropertyPath.parse? p <;> simp

theorem parse_inBackticks {inside : Text} (hi : ∀ c ∈ inside, c ≠ '`' ∧ c ≠ '\\')
    {parts : List TemplatePart} : parse (inBackticks inside) = .ok (.template parts) ↔
      TemplatePart.parse? inside = some parts := by
  have hquotable : Token.IsQuotable '`' inside := by
    induction inside with
    | nil => exact .nil
    | cons c inside ih =>
      obtain ⟨hc, hmore⟩ := List.forall_mem_cons.mp hi
      exact .plain hc.1 hc.2 (ih hmore)
  have hlexeme : Token.Lexeme (inBackticks inside) (some (.template inside)) := .template hquotable
  have hread : ∀ stop fuel, readPrimary stop (fuel + 1) [⟨.template inside, 0⟩] =
      Except.map (·, []) ((TemplatePart.parse? inside).elim
        (.error ⟨0, "invalid template string".toList⟩) fun parts => .ok (.template parts)) := by
    intro stop fuel
    simp only [readPrimary]
    cases TemplatePart.parse? inside <;> rfl
  rw [parse_eq_ok_iff_operand hlexeme (by simp) hread]
  cases TemplatePart.parse? inside <;> simp

end Expression

/-! ### Shown paths -/

/-- A key that is a word, or a position that fits into 64 bits. -/
def Segment.Plain : Segment → Prop
  | key name => PropertyPath.IsWord name
  | index position => position < Nat.pow 2 64

namespace PropertyPath

theorem written_showStep {segment : Segment} (h : segment.Plain) :
    segment.Written (showStep segment) := by
  cases segment with
  | key name => exact .dotted h
  | index position =>
    have hvalue := Text.digitsValue_ofNat position
    have hwritten := Segment.Written.position isBlank_nil (Text.ofNat_ne_nil position)
      (fun c hc => Text.isDigit_of_mem_ofNat hc) (by rw [hvalue]; exact h) isBlank_nil
    rwa [hvalue, List.nil_append, List.append_nil] at hwritten

/-- A path of words and positions is read from what is shown of it. -/
theorem writes_shown {head : Text} {more : List Segment}
    (h : ∀ segment ∈ .key head :: more, segment.Plain) :
    Writes (shown (.key head :: more)) (.key head :: more) := by
  obtain ⟨hhead, hmore⟩ := List.forall_mem_cons.mp h
  refine ⟨[], head, more.map showStep, more, [], ?_, isBlank_nil, hhead, ?_, isBlank_nil, rfl⟩
  · rw [shown, List.flatMap_def, List.nil_append, List.append_nil]
  · rw [List.forall₂_map_left_iff, List.forall₂_same]
    exact fun segment hs => written_showStep (hmore segment hs)

/-- A text is read as a path exactly if it is written as one, in expressions and templates as alone,
and what is shown of a path of words and positions is read as the path again. -/
theorem read_alike :
    (∀ t path, parse? t = some path ↔ Writes t path) ∧
    (∀ p : Text, (∀ c ∈ p, c ∉ ['{', '}', '`', '\\']) → ∀ path,
      (Expression.parse (inProperty p) = .ok (.property path) ↔
        TemplatePart.parse? (inInterpolation p) = some [.interpolation path]) ∧
      (Expression.parse (inProperty p) = .ok (.property path) ↔
        Expression.parse (inBackticks (inInterpolation p)) =
          .ok (.template [.interpolation path]))) ∧
    ∀ head more, (∀ segment ∈ Segment.key head :: more, segment.Plain) →
      parse? (shown (.key head :: more)) = some (.key head :: more) := by
  refine ⟨fun t path => parse?_eq_some_iff, fun p hp path => ?_, fun head more h =>
    parse?_eq_some_iff.mpr (writes_shown h)⟩
  have hplain : ∀ c ∈ p, c ≠ '{' ∧ c ≠ '}' ∧ c ≠ '`' ∧ c ≠ '\\' := by simpa using hp
  have hbraces : ∀ c ∈ p, c ≠ '{' ∧ c ≠ '}' := fun c hc => ⟨(hplain c hc).1, (hplain c hc).2.1⟩
  have hbrace : '}' ∉ p := fun hc => (hbraces _ hc).2 rfl
  have hinside : ∀ c ∈ inInterpolation p, c ≠ '`' ∧ c ≠ '\\' := by
    intro c hc
    simp only [inInterpolation, List.mem_cons, List.mem_append, List.not_mem_nil, or_false] at hc
    rcases hc with rfl | rfl | hc | rfl
    · decide
    · decide
    · exact (hplain c hc).2.2
    · decide
  rw [Expression.parse_inProperty hbraces, Expression.parse_inBackticks hinside,
    TemplatePart.parse?_inInterpolation hbrace]
  exact ⟨Iff.rfl, Iff.rfl⟩

theorem read_alike_quotedKey :
    (∀ c ∈ " a['x.y'][ 07 ].b".toList, c ∉ ['{', '}', '`', '\\']) ∧
    parse? " a['x.y'][ 07 ].b".toList =
      some [.key ['a'], .key "x.y".toList, .index 7, .key ['b']] ∧
    (Expression.parse (inProperty " a['x.y'][ 07 ].b".toList) =
        .ok (.property [.key ['a'], .key "x.y".toList, .index 7, .key ['b']]) ↔
      TemplatePart.parse? (inInterpolation " a['x.y'][ 07 ].b".toList) =
        some [.interpolation [.key ['a'], .key "x.y".toList, .index 7, .key ['b']]]) ∧
    parse? (shown [.key ['a'], .index 7, .key ['b']]) =
      some [.key ['a'], .index 7, .key ['b']] := by
  have hplain : ∀ c ∈ " a['x.y'][ 07 ].b".toList, c ∉ ['{', '}', '`', '\\'] := by simp
  have hword : ∀ segment ∈ [Segment.key ['a'], .index 7, .key ['b']], segment.Plain := by
    simp [Segment.Plain, IsWord, Text.isWord]
  exact ⟨hplain, by decide +kernel, (read_alike.2.1 _ hplain _).1, read_alike.2.2 _ _ hword⟩

end PropertyPath

end MarkdownDirectives
