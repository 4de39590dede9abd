import MarkdownDirectives.Proofs.Derivations
import MarkdownDirectives.Proofs.Spelling

/-!
# Printing expressions

An expression is printed as tokens with parentheses only around an operand that binds less tightly
than its place asks for. What is printed of an expression that was read is read as the same
expression, and no shorter token list is.
-/

namespace MarkdownDirectives

namespace Grammar

open Expression

/-! ### The printer -/

/-- The level at which an expression is built. -/
def level : Expression → Level
  | .binary o _ _ => .chain o
  | .not _ => .unary
  | .member _ _ => .access
  | .index _ _ => .access
  | _ => .primary

/-- Puts the tokens of an expression in parentheses where the level is tighter. -/
def enclose (place : Level) (e : Expression) (ts : List Token) : List Token :=
  if (level e).looseness ≤ place.looseness then ts else .parenOpen :: (ts ++ [.parenClose])

/-- The token of a literal; other values than these are not written as literals. -/
def literalToken : Value → Token
  | .bool true => .identifier "true".toList
  | .bool false => .identifier "false".toList
  | .number (.float x) => .number (some x)
  | .string t => .string t '"'
  | _ => .identifier "null".toList

mutual

def print : Expression → List Token
  | .literal value => [literalToken value]
  | .template parts => [.template (TemplatePart.spell parts)]
  | .property path => [.property (PropertyPath.spell path)]
  | .this => [.identifier "this".toList]
  | .identifier name => [.identifier name]
  | .operation name => [.operation name]
  | .call name es => .operation name :: .parenOpen :: (printArguments es ++ [.parenClose])
  | .member e name => enclose .access e (print e) ++ [.dot, .identifier name]
  | .index e position =>
    enclose .access e (print e) ++ .bracketOpen :: (print position ++ [.bracketClose])
  | .not e => .bang :: enclose .unary e (print e)
  | .binary o left right =>
    enclose (.chain o) left (print left) ++ o.token :: enclose (.operand o) right (print right)

def printArguments : List Expression → List Token
  | [] => []
  | [e] => print e
  | e :: next :: more => print e ++ .comma :: printArguments (next :: more)

end

/-! ### Levels -/

theorem looseness_inj {l l' : Level} (h : l.looseness = l'.looseness) : l = l' := by
  cases l with
  | chain o => cases l' with
    | chain o' => cases o <;> cases o' <;> first | rfl | cases h
    | _ => cases o <;> cases h
  | _ => cases l' with
    | chain o' => cases o' <;> cases h
    | _ => first | rfl | cases h

/-- Each level but the tightest takes over the expressions of the next tighter one. -/
theorem exists_tighter {l : Level} (h : 0 < l.looseness) : ∃ l', l'.looseness + 1 = l.looseness ∧
    ∀ e ts, Derives (.expression l' e) ts → Derives (.expression l e) ts := by
  cases l with
  | chain o => exact ⟨.operand o, looseness_operand o, fun _ _ => .operand⟩
  | unary => exact ⟨.access, rfl, fun _ _ => .positive⟩
  | access => exact ⟨.primary, rfl, fun _ _ => .primary⟩
  | primary => exact absurd h (by decide)

theorem Derives.loosen {l l' : Level} {e : Expression} {ts : List Token}
    (h : Derives (.expression l e) ts) (hl : l.looseness ≤ l'.looseness) :
    Derives (.expression l' e) ts := by
  obtain ⟨n, hn⟩ := Nat.exists_eq_add_of_le hl
  induction n generalizing l' with
  | zero => exact looseness_inj hn ▸ h
  | succ n ih =>
    obtain ⟨l'', hl'', htake⟩ := exists_tighter (l := l') (by omega)
    exact htake e ts (ih (by omega) (by omega))

section

variable {e : Expression} {ts : List Token}

theorem derives_enclose (h : Derives (.expression (level e) e) ts) (place : Level) :
    Derives (.expression place e) (enclose place e ts) := by
  unfold enclose
  split
  · next hl => exact h.loosen hl
  · have hwhole : Derives (.expression (.chain .or) e) ts := h.loosen (looseness_le _)
    exact hwhole.paren.loosen (Nat.zero_le _)

theorem length_enclose_le {place place' : Level} (h : place.looseness ≤ place'.looseness) :
    (enclose place' e ts).length ≤ (enclose place e ts).length := by
  unfold enclose
  split
  · split
    · exact Nat.le_refl _
    · simp only [List.length_cons, List.length_append]
      omega
  · next hl =>
    rw [if_neg (by omega)]

theorem enclose_of_le {place : Level} (h : (level e).looseness ≤ place.looseness) :
    enclose place e ts = ts :=
  if_pos h

theorem length_enclose_own {place : Level} {count : Nat} (h : level e = place)
    (hts : ts.length ≤ count) : (enclose place e ts).length ≤ count := by
  rwa [enclose_of_le (by rw [h])]

theorem enclose_or : enclose (.chain .or) e ts = ts := enclose_of_le (looseness_le _)

theorem length_enclose_primary : (enclose .primary e ts).length ≤ ts.length + 2 := by
  unfold enclose
  split
  · omega
  · simp

end

/-! ### What is printed -/

/-- What is printed of the phrase derives it, and no longer than the tokens. -/
def Printed : Phrase → List Token → Prop
  | .expression place e, ts => Derives (.expression (level e) e) (print e) ∧
    (enclose place e (print e)).length ≤ ts.length
  | .arguments es, ts => Derives (.arguments es) (printArguments es) ∧
    (printArguments es).length ≤ ts.length

theorem printed_of_token {e : Expression} {printed token : Token}
    (hl : level e = .primary) (hp : print e = [printed])
    (hd : Derives (.expression .primary e) [printed]) :
    Printed (.expression .primary e) [token] := by
  rw [Printed, hl, hp]
  exact ⟨hd, length_enclose_own hl (Nat.le_refl _)⟩

theorem printed_ofName (name : Text) :
    Printed (.expression .primary (ofName name)) [.identifier name] := by
  have hname := Derives.name name
  have hthis : Derives (.expression .primary .this) [.identifier "this".toList] :=
    .name "this".toList
  have htrue : Derives (.expression .primary (.literal (.bool true)))
      [.identifier "true".toList] := .name "true".toList
  have hfalse : Derives (.expression .primary (.literal (.bool false)))
      [.identifier "false".toList] := .name "false".toList
  have hnull : Derives (.expression .primary (.literal .null)) [.identifier "null".toList] :=
    .name "null".toList
  by_cases h₁ : name = "this".toList
  · subst h₁
    exact printed_of_token rfl rfl hthis
  by_cases h₂ : name = "true".toList
  · subst h₂
    exact printed_of_token rfl rfl htrue
  by_cases h₃ : name = "false".toList
  · subst h₃
    exact printed_of_token rfl rfl hfalse
  by_cases h₄ : name = "null".toList
  · subst h₄
    exact printed_of_token rfl rfl hnull
  have hother : ofName name = .identifier name := by
    simp only [ofName, h₁, h₂, h₃, h₄, if_false]
  rw [hother] at hname ⊢
  exact printed_of_token rfl rfl hname

theorem Derives.printed {phrase : Phrase} {ts : List Token} (h : Derives phrase ts) :
    Printed phrase ts := by
  -- a looser place asks for no more parentheses, so the tokens of a tighter one are enough
  induction h with
  | @operand o e ts _ ih =>
    have hle : (Level.operand o).looseness ≤ (Level.chain o).looseness := by
      rw [← looseness_operand]
      omega
    exact ⟨ih.1, (length_enclose_le hle).trans ih.2⟩
  | @binary o left right ls rs _ _ hl hr =>
    refine ⟨.binary (derives_enclose hl.1 _) (derives_enclose hr.1 _),
      length_enclose_own rfl ?_⟩
    have hsum := Nat.add_le_add hl.2 hr.2
    rw [print]
    simp only [List.length_append, List.length_cons]
    omega
  | @not e ts _ ih =>
    refine ⟨.not (derives_enclose ih.1 _), length_enclose_own rfl ?_⟩
    have hle := ih.2
    rw [print]
    simp only [List.length_cons]
    omega
  | positive _ ih =>
    have hle : Level.access.looseness ≤ Level.unary.looseness := by decide
    exact ⟨ih.1, (length_enclose_le hle).trans ih.2⟩
  | primary _ ih =>
    have hle : Level.primary.looseness ≤ Level.access.looseness := by decide
    exact ⟨ih.1, (length_enclose_le hle).trans ih.2⟩
  | @member e ts name _ ih =>
    refine ⟨.member (derives_enclose ih.1 _), length_enclose_own rfl ?_⟩
    have hle := ih.2
    rw [print]
    simp only [List.length_append, List.length_cons]
    omega
  | @index e position ts ps _ _ ih hi =>
    have hposition := hi.2
    rw [enclose_or] at hposition
    refine ⟨.index (derives_enclose ih.1 _) (hi.1.loosen (looseness_le _)),
      length_enclose_own rfl ?_⟩
    have hle := ih.2
    rw [print]
    simp only [List.length_append, List.length_cons]
    omega
  | number x =>
    cases x with
    | none => exact printed_of_token rfl rfl (.name "null".toList)
    | some x => exact printed_of_token rfl rfl (.number (some x))
  | string t quote => exact printed_of_token rfl rfl (.string t '"')
  | template hp =>
    exact printed_of_token rfl rfl
      (.template (TemplatePart.parse?_spell (TemplatePart.tidy_of_parse? hp)))
  | property hp =>
    exact printed_of_token rfl rfl
      (.property (PropertyPath.parse?_spell (PropertyPath.spellable_of_parse? hp)))
  | name name => exact printed_ofName name
  | operation name => exact printed_of_token rfl rfl (.operation name)
  | emptyCall name => exact ⟨.emptyCall name, Nat.le_refl _⟩
  | @call name es ts _ ih =>
    refine ⟨.call ih.1, length_enclose_own rfl ?_⟩
    have hle := ih.2
    rw [print]
    simp only [List.length_append, List.length_cons]
    omega
  | @paren e ts _ ih =>
    refine ⟨ih.1, length_enclose_primary.trans ?_⟩
    have hle := ih.2
    rw [enclose_or] at hle
    simp only [List.length_append, List.length_cons, List.length_nil]
    omega
  | @last e ts _ ih =>
    have hle := ih.2
    rw [enclose_or] at hle
    exact ⟨.last (ih.1.loosen (looseness_le _)), hle⟩
  | @argument e es ts more _ hmore ih hm =>
    have hle := ih.2
    rw [enclose_or] at hle
    have hfirst : Derives (.expression (.chain .or) e) (print e) := ih.1.loosen (looseness_le _)
    cases es with
    | nil => cases hmore
    | cons next es =>
      refine ⟨.argument hfirst hm.1, ?_⟩
      have hle' := hm.2
      rw [printArguments]
      simp only [List.length_append, List.length_cons]
      omega

/-- The reader is the grammar, and printing inverts it. A text that has tokens is read as an
expression if and only if these derive it; what is printed of the expression is read as it again,
and no shorter token list is. -/
theorem parse_iff_derives {t : Text} {tokens : List PlacedToken}
    (h : Token.tokenize t = .ok tokens) :
    (∀ e, Expression.parse t = .ok e ↔ Derives (.expression (.chain .or) e) (bare tokens)) ∧
      ∀ e, Expression.parse t = .ok e →
        (∀ stop placed, bare placed = print e → ofTokens stop placed = .ok e) ∧
          ∀ ts, Derives (.expression (.chain .or) e) ts → (print e).length ≤ ts.length := by
  refine ⟨fun e => parse_eq_ok_iff h, fun e he => ⟨fun stop placed hp => ?_, fun ts hd => ?_⟩⟩
  · have hprinted := ((parse_eq_ok_iff h).mp he).printed
    rw [ofTokens_eq_ok_iff, hp]
    exact hprinted.1.loosen (looseness_le _)
  · have hle := hd.printed.2
    rwa [enclose_or] at hle

/-- An expression in which one of the two pairs of parentheses can be left out. -/
def groupedText : Text := "(a + b) + !(c || d.e)[0]".toList

def groupedTokens : List PlacedToken :=
  [⟨.parenOpen, 0⟩, ⟨.identifier ['a'], 1⟩, ⟨.plus, 3⟩, ⟨.identifier ['b'], 5⟩, ⟨.parenClose, 6⟩,
    ⟨.plus, 8⟩, ⟨.bang, 10⟩, ⟨.parenOpen, 11⟩, ⟨.identifier ['c'], 12⟩, ⟨.or, 14⟩,
    ⟨.identifier ['d'], 17⟩, ⟨.dot, 18⟩, ⟨.identifier ['e'], 19⟩, ⟨.parenClose, 20⟩,
    ⟨.bracketOpen, 21⟩, ⟨.number (some .zero), 22⟩, ⟨.bracketClose, 23⟩]

def groupedExpression : Expression :=
  .binary .add (.binary .add (.identifier ['a']) (.identifier ['b']))
    (.not (.index (.binary .or (.identifier ['c']) (.member (.identifier ['d']) ['e']))
      (.literal (.number (.float .zero)))))

theorem tokenize_groupedText : Token.tokenize groupedText = .ok groupedTokens := by
  have h : (Token.tokenize groupedText).toOption = some groupedTokens := by decide +kernel
  cases ht : Token.tokenize groupedText with
  | error e =>
    rw [ht] at h
    cases h
  | ok tokens =>
    rw [ht] at h
    cases h
    rfl

theorem parse_groupedText :
    Token.tokenize groupedText = .ok groupedTokens ∧
      Expression.parse groupedText = .ok groupedExpression ∧
      Derives (.expression (.chain .or) groupedExpression) (bare groupedTokens) ∧
      print groupedExpression =
        [.identifier ['a'], .plus, .identifier ['b'], .plus, .bang, .parenOpen, .identifier ['c'],
          .or, .identifier ['d'], .dot, .identifier ['e'], .parenClose, .bracketOpen,
          .number (some .zero), .bracketClose] ∧
      ∀ ts, Derives (.expression (.chain .or) groupedExpression) ts → 15 ≤ ts.length := by
  obtain ⟨hiff, hprint⟩ := parse_iff_derives tokenize_groupedText
  have hp : Expression.parse groupedText = .ok groupedExpression := by
    rw [Expression.parse, tokenize_groupedText]
    rfl
  exact ⟨tokenize_groupedText, hp, (hiff _).mp hp, rfl, (hprint _ hp).2⟩

end Grammar

end MarkdownDirectives
