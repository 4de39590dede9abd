import MarkdownDirectives.Expression.Parser

/-!
# The grammar of expressions

The grammar says which token lists write which expression. Its levels are the operators by how
tightly they bind; a chain of a binary operator is a shorter chain, the operator and one operand of
the next tighter level, so chains associate to the left.

The reader is sound for the grammar: what one of its functions gives is written by the tokens that
it consumes. With more fuel the functions call each other with less, so the induction is on the fuel
and for all functions at once.
-/

namespace MarkdownDirectives

def BinaryOperator.token : BinaryOperator → Token
  | .add => .plus
  | .or => .or
  | .and => .and

namespace Grammar

open Expression

/-- How tightly an expression is bound. -/
inductive Level where
  | chain (operator : BinaryOperator)
  | unary
  /-- An operand with the steps `.name` and `[index]` after it. -/
  | access
  | primary
  deriving DecidableEq, Repr

/-- The level of the operands in a chain. -/
def Level.operand : BinaryOperator → Level
  | .or => .chain .and
  | .and => .chain .add
  | .add => .unary

/-- What a part of a token list can write. -/
inductive Phrase where
  | expression (level : Level) (e : Expression)
  /-- The arguments of a call, of which there is at least one. -/
  | arguments (es : List Expression)

/-- A literal beyond the finite numbers stands for null. -/
def numberValue : Option Binary64 → Value
  | none => .null
  | some x => .ofFloat x

/-- The token list writes the phrase. -/
inductive Derives : Phrase → List Token → Prop
  | operand {o e ts} : Derives (.expression (.operand o) e) ts →
    Derives (.expression (.chain o) e) ts
  | binary {o left right ls rs} : Derives (.expression (.chain o) left) ls →
    Derives (.expression (.operand o) right) rs →
    Derives (.expression (.chain o) (.binary o left right)) (ls ++ o.token :: rs)
  | not {e ts} : Derives (.expression .unary e) ts →
    Derives (.expression .unary (.not e)) (.bang :: ts)
  | positive {e ts} : Derives (.expression .access e) ts → Derives (.expression .unary e) ts
  | member {e ts name} : Derives (.expression .access e) ts →
    Derives (.expression .access (.member e name)) (ts ++ [.dot, .identifier name])
  | index {e position ts ps} : Derives (.expression .access e) ts →
    Derives (.expression (.chain .or) position) ps →
    Derives (.expression .access (.index e position))
      (ts ++ .bracketOpen :: (ps ++ [.bracketClose]))
  | primary {e ts} : Derives (.expression .primary e) ts → Derives (.expression .access e) ts
  | number (x) : Derives (.expression .primary (.literal (numberValue x))) [.number x]
  | string (t quote) : Derives (.expression .primary (.literal (.string t))) [.string t quote]
  | template {inside parts} : TemplatePart.parse? inside = some parts →
    Derives (.expression .primary (.template parts)) [.template inside]
  | property {t path} : PropertyPath.parse? t = some path →
    Derives (.expression .primary (.property path)) [.property t]
  | name (name) : Derives (.expression .primary (ofName name)) [.identifier name]
  | operation (name) : Derives (.expression .primary (.operation name)) [.operation name]
  | emptyCall (name) :
    Derives (.expression .primary (.call name [])) [.operation name, .parenOpen, .parenClose]
  | call {name es ts} : Derives (.arguments es) ts →
    Derives (.expression .primary (.call name es))
      (.operation name :: .parenOpen :: (ts ++ [.parenClose]))
  | paren {e ts} : Derives (.expression (.chain .or) e) ts →
    Derives (.expression .primary e) (.parenOpen :: (ts ++ [.parenClose]))
  | last {e ts} : Derives (.expression (.chain .or) e) ts → Derives (.arguments [e]) ts
  | argument {e es ts more} : Derives (.expression (.chain .or) e) ts →
    Derives (.arguments es) more → Derives (.arguments (e :: es)) (ts ++ .comma :: more)

/-! ### One step of the reader -/

/-- The first token is another one, or there is none. -/
def Without (token : Token) (tokens : List PlacedToken) : Prop :=
  ∀ p ∈ tokens.head?, p.token ≠ token

theorem begins_or_without (token : Token) (tokens : List PlacedToken) :
    (∃ offset more, tokens = ⟨token, offset⟩ :: more) ∨ Without token tokens := by
  cases tokens with
  | nil => exact .inr fun p hp => by cases hp
  | cons p more =>
    obtain ⟨found, offset⟩ := p
    by_cases hf : found = token
    · exact .inl ⟨offset, more, by rw [hf]⟩
    · refine .inr fun p hp => ?_
      cases hp
      exact hf

section

variable (stop : Nat)

def readChain : BinaryOperator → Nat → List PlacedToken → Except Fault Parsed
  | .or => readOr stop
  | .and => readAnd stop
  | .add => readSum stop

def readMore : BinaryOperator → Nat → Expression → List PlacedToken → Except Fault Parsed
  | .or => readOrMore stop
  | .and => readAndMore stop
  | .add => readSumMore stop

def readOperand : BinaryOperator → Nat → List PlacedToken → Except Fault Parsed
  | .or => readAnd stop
  | .and => readSum stop
  | .add => readUnary stop

def readAccess (fuel : Nat) (tokens : List PlacedToken) : Except Fault Parsed :=
  (readPrimary stop fuel tokens).bind fun object => readSteps stop fuel object.1 object.2

variable {stop} {fuel offset : Nat} {o : BinaryOperator} {e : Expression}
  {tokens : List PlacedToken}

theorem readChain_succ : readChain stop o (fuel + 1) tokens =
    (readOperand stop o fuel tokens).bind fun first => readMore stop o fuel first.1 first.2 := by
  cases o <;> rfl

theorem readMore_operator :
    readMore stop o (fuel + 1) e (⟨o.token, offset⟩ :: tokens) =
      (readOperand stop o fuel tokens).bind fun next =>
        readMore stop o fuel (.binary o e next.1) next.2 := by
  cases o <;> rfl

theorem readMore_end (h : Without o.token tokens) :
    readMore stop o (fuel + 1) e tokens = .ok (e, tokens) := by
  cases tokens with
  | nil => cases o <;> rfl
  | cons p more =>
    obtain ⟨token, offset⟩ := p
    have ht : token ≠ o.token := h _ rfl
    cases o <;> cases token <;> first | rfl | exact absurd rfl ht

theorem readUnary_bang : readUnary stop (fuel + 1) (⟨.bang, offset⟩ :: tokens) =
    (readUnary stop fuel tokens).bind fun inner => .ok (.not inner.1, inner.2) := rfl

theorem readUnary_positive (h : Without .bang tokens) :
    readUnary stop (fuel + 1) tokens = readAccess stop fuel tokens := by
  cases tokens with
  | nil => rfl
  | cons p more =>
    obtain ⟨token, offset⟩ := p
    have ht : token ≠ .bang := h _ rfl
    cases token <;> first | rfl | exact absurd rfl ht

theorem readSteps_bracket : readSteps stop (fuel + 1) e (⟨.bracketOpen, offset⟩ :: tokens) =
    (readOr stop fuel tokens).bind fun position =>
      (expect stop .bracketClose position.2).bind fun tokens =>
        readSteps stop fuel (.index e position.1) tokens := rfl

theorem readSteps_end (hdot : Without .dot tokens) (hbracket : Without .bracketOpen tokens) :
    readSteps stop (fuel + 1) e tokens = .ok (e, tokens) := by
  cases tokens with
  | nil => rfl
  | cons p more =>
    obtain ⟨token, offset⟩ := p
    have hd : token ≠ .dot := hdot _ rfl
    have hb : token ≠ .bracketOpen := hbracket _ rfl
    cases token <;> first | rfl | exact absurd rfl hd | exact absurd rfl hb

theorem readPrimary_paren : readPrimary stop (fuel + 1) (⟨.parenOpen, offset⟩ :: tokens) =
    (readOr stop fuel tokens).bind fun inner =>
      (expect stop .parenClose inner.2).bind fun tokens => .ok (inner.1, tokens) := rfl

theorem readPrimary_operation {name : Text} (h : Without .parenOpen tokens) :
    readPrimary stop (fuel + 1) (⟨.operation name, offset⟩ :: tokens) =
      .ok (.operation name, tokens) := by
  cases tokens with
  | nil => rfl
  | cons p more =>
    obtain ⟨token, offset⟩ := p
    have ht : token ≠ .parenOpen := h _ rfl
    cases token <;> first | rfl | exact absurd rfl ht

theorem readPrimary_call {name : Text} {offset' : Nat} (h : Without .parenClose tokens) :
    readPrimary stop (fuel + 1) (⟨.operation name, offset⟩ :: ⟨.parenOpen, offset'⟩ :: tokens) =
      (readArguments stop fuel tokens).bind fun es => .ok (.call name es.1, es.2) := by
  cases tokens with
  | nil => rfl
  | cons p more =>
    obtain ⟨token, offset⟩ := p
    have ht : token ≠ .parenClose := h _ rfl
    cases token <;> first | rfl | exact absurd rfl ht

def readArgumentsAfter (stop fuel : Nat) (first : Expression) :
    List PlacedToken → Except Fault (List Expression × List PlacedToken)
  | ⟨.comma, _⟩ :: tokens =>
    (readArguments stop fuel tokens).bind fun more => .ok (first :: more.1, more.2)
  | tokens => (expect stop .parenClose tokens).bind fun tokens => .ok ([first], tokens)

theorem readArguments_succ : readArguments stop (fuel + 1) tokens =
    (readOr stop fuel tokens).bind fun first =>
      readArgumentsAfter stop fuel first.1 first.2 := by
  simp only [readArguments]
  cases readOr stop fuel tokens with
  | error fault => rfl
  | ok first =>
    obtain ⟨first, middle⟩ := first
    rcases begins_or_without .comma middle with ⟨offset, middle, rfl⟩ | hcomma
    · rfl
    · cases middle with
      | nil => rfl
      | cons p more =>
        obtain ⟨token, offset⟩ := p
        cases token <;> rfl

theorem readArgumentsAfter_end (h : Without .comma tokens) :
    readArgumentsAfter stop fuel e tokens =
      (expect stop .parenClose tokens).bind fun tokens => .ok ([e], tokens) := by
  cases tokens with
  | nil => rfl
  | cons p more =>
    obtain ⟨token, offset⟩ := p
    have ht : token ≠ .comma := h _ rfl
    cases token <;> first | rfl | exact absurd rfl ht

theorem expect_eq_ok_iff {token : Token} {rest : List PlacedToken} :
    expect stop token tokens = .ok rest ↔ ∃ offset, tokens = ⟨token, offset⟩ :: rest := by
  cases tokens with
  | nil =>
    simp only [expect]
    exact iff_of_false (fun h => by cases h) fun ⟨_, h⟩ => by cases h
  | cons p more =>
    obtain ⟨found, offset⟩ := p
    by_cases hf : found = token
    · simp [expect, hf]
    · simp only [expect, hf, if_false]
      exact iff_of_false (fun h => by cases h) fun ⟨_, h⟩ => by simp_all

end

/-! ### Soundness -/

/-- The tokens without their places. -/
def bare (tokens : List PlacedToken) : List Token := tokens.map (·.token)

/-- The phrase stands in front of the rest. -/
def Takes (phrase : Phrase) (tokens rest : List PlacedToken) : Prop :=
  ∃ used, tokens = used ++ rest ∧ Derives phrase (bare used)

/-- What the reading functions give with some fuel stands in front of what they leave. -/
structure ReadsSoundly (stop fuel : Nat) : Prop where
  chain : ∀ o tokens e rest, readChain stop o fuel tokens = .ok (e, rest) →
    Takes (.expression (.chain o) e) tokens rest
  more : ∀ o left before tokens e rest, Derives (.expression (.chain o) left) before →
    readMore stop o fuel left tokens = .ok (e, rest) →
    ∃ used, tokens = used ++ rest ∧ Derives (.expression (.chain o) e) (before ++ bare used)
  unary : ∀ tokens e rest, readUnary stop fuel tokens = .ok (e, rest) →
    Takes (.expression .unary e) tokens rest
  steps : ∀ object before tokens e rest, Derives (.expression .access object) before →
    readSteps stop fuel object tokens = .ok (e, rest) →
    ∃ used, tokens = used ++ rest ∧ Derives (.expression .access e) (before ++ bare used)
  primary : ∀ tokens e rest, readPrimary stop fuel tokens = .ok (e, rest) →
    Takes (.expression .primary e) tokens rest
  arguments : ∀ tokens es rest, readArguments stop fuel tokens = .ok (es, rest) →
    ∃ used offset, tokens = used ++ ⟨.parenClose, offset⟩ :: rest ∧
      Derives (.arguments es) (bare used)

section

variable {stop fuel : Nat}

theorem readsSoundly_zero : ReadsSoundly stop 0 where
  chain o _ _ _ h := by cases o <;> cases h
  more o _ _ _ _ _ _ h := by cases o <;> cases h
  unary _ _ _ h := by cases h
  steps _ _ _ _ _ _ h := by cases h
  primary _ _ _ h := by cases h
  arguments _ _ _ h := by cases h

theorem ReadsSoundly.operand (hs : ReadsSoundly stop fuel) {o : BinaryOperator}
    {tokens rest : List PlacedToken} {e : Expression}
    (h : readOperand stop o fuel tokens = .ok (e, rest)) :
    Takes (.expression (.operand o) e) tokens rest := by
  cases o with
  | or => exact hs.chain .and _ _ _ h
  | and => exact hs.chain .add _ _ _ h
  | add => exact hs.unary _ _ _ h

variable (hs : ReadsSoundly stop fuel)

include hs

theorem ReadsSoundly.chain_succ {o : BinaryOperator} {tokens rest : List PlacedToken}
    {e : Expression} (h : readChain stop o (fuel + 1) tokens = .ok (e, rest)) :
    Takes (.expression (.chain o) e) tokens rest := by
  rw [readChain_succ] at h
  obtain ⟨⟨first, middle⟩, hf, hm⟩ := exists_of_bind_eq_ok h
  obtain ⟨used, rfl, hd⟩ := hs.operand hf
  obtain ⟨more, rfl, he⟩ := hs.more _ _ _ _ _ _ (.operand hd) hm
  refine ⟨used ++ more, (List.append_assoc ..).symm, ?_⟩
  rwa [bare, List.map_append]

theorem ReadsSoundly.more_succ {o : BinaryOperator} {left e : Expression} {before : List Token}
    {tokens rest : List PlacedToken} (hl : Derives (.expression (.chain o) left) before)
    (h : readMore stop o (fuel + 1) left tokens = .ok (e, rest)) :
    ∃ used, tokens = used ++ rest ∧
      Derives (.expression (.chain o) e) (before ++ bare used) := by
  rcases begins_or_without o.token tokens with ⟨offset, tokens, rfl⟩ | ho
  · rw [readMore_operator] at h
    obtain ⟨⟨right, middle⟩, hr, hm⟩ := exists_of_bind_eq_ok h
    obtain ⟨used, rfl, hd⟩ := hs.operand hr
    obtain ⟨more, rfl, he⟩ := hs.more _ _ _ _ _ _ (.binary hl hd) hm
    refine ⟨⟨o.token, offset⟩ :: (used ++ more), by simp, ?_⟩
    simpa [bare] using he
  · rw [readMore_end ho] at h
    cases h
    exact ⟨[], rfl, by simpa [bare] using hl⟩

theorem ReadsSoundly.access {tokens rest : List PlacedToken} {e : Expression}
    (h : readAccess stop fuel tokens = .ok (e, rest)) :
    Takes (.expression .access e) tokens rest := by
  obtain ⟨⟨object, middle⟩, ho, hm⟩ := exists_of_bind_eq_ok h
  obtain ⟨used, rfl, hd⟩ := hs.primary _ _ _ ho
  obtain ⟨more, rfl, he⟩ := hs.steps _ _ _ _ _ (.primary hd) hm
  refine ⟨used ++ more, (List.append_assoc ..).symm, ?_⟩
  rwa [bare, List.map_append]

theorem ReadsSoundly.unary_succ {tokens rest : List PlacedToken} {e : Expression}
    (h : readUnary stop (fuel + 1) tokens = .ok (e, rest)) :
    Takes (.expression .unary e) tokens rest := by
  rcases begins_or_without .bang tokens with ⟨offset, tokens, rfl⟩ | hb
  · rw [readUnary_bang] at h
    obtain ⟨⟨inner, middle⟩, hi, he⟩ := exists_of_bind_eq_ok h
    cases he
    obtain ⟨used, rfl, hd⟩ := hs.unary _ _ _ hi
    exact ⟨⟨.bang, offset⟩ :: used, rfl, .not hd⟩
  · rw [readUnary_positive hb] at h
    obtain ⟨used, ht, hd⟩ := hs.access h
    exact ⟨used, ht, .positive hd⟩

theorem ReadsSoundly.steps_succ {object e : Expression} {before : List Token}
    {tokens rest : List PlacedToken} (ho : Derives (.expression .access object) before)
    (h : readSteps stop (fuel + 1) object tokens = .ok (e, rest)) :
    ∃ used, tokens = used ++ rest ∧
      Derives (.expression .access e) (before ++ bare used) := by
  rcases begins_or_without .dot tokens with ⟨offset, tokens, rfl⟩ | hdot
  · cases tokens with
    | nil => cases h
    | cons p tokens =>
      obtain ⟨token, offset'⟩ := p
      cases token with
      | identifier name =>
        obtain ⟨more, rfl, he⟩ := hs.steps _ _ _ _ _ (.member ho) h
        refine ⟨⟨.dot, offset⟩ :: ⟨.identifier name, offset'⟩ :: more, rfl, ?_⟩
        simpa [bare] using he
      | _ => cases h
  · rcases begins_or_without .bracketOpen tokens with ⟨offset, tokens, rfl⟩ | hbracket
    · rw [readSteps_bracket] at h
      obtain ⟨⟨position, middle⟩, hp, h⟩ := exists_of_bind_eq_ok h
      obtain ⟨after, hc, hm⟩ := exists_of_bind_eq_ok h
      obtain ⟨offset', rfl⟩ := expect_eq_ok_iff.mp hc
      obtain ⟨used, rfl, hd⟩ := hs.chain .or _ _ _ hp
      obtain ⟨more, rfl, he⟩ := hs.steps _ _ _ _ _ (.index ho hd) hm
      refine ⟨⟨.bracketOpen, offset⟩ :: (used ++ ⟨.bracketClose, offset'⟩ :: more), by simp, ?_⟩
      simpa [bare] using he
    · rw [readSteps_end hdot hbracket] at h
      cases h
      exact ⟨[], rfl, by simpa [bare] using ho⟩

theorem ReadsSoundly.primary_succ {tokens rest : List PlacedToken} {e : Expression}
    (h : readPrimary stop (fuel + 1) tokens = .ok (e, rest)) :
    Takes (.expression .primary e) tokens rest := by
  cases tokens with
  | nil => cases h
  | cons p tokens =>
    obtain ⟨token, offset⟩ := p
    have single : ∀ {e}, Derives (.expression .primary e) [token] →
        Takes (.expression .primary e) (⟨token, offset⟩ :: tokens) tokens :=
      fun hd => ⟨[⟨token, offset⟩], rfl, hd⟩
    cases token with
    | number x =>
      cases x with
      | none =>
        cases h
        exact single (.number none)
      | some x =>
        cases h
        exact single (.number (some x))
    | string t quote =>
      cases h
      exact single (.string t quote)
    | template inside =>
      simp only [readPrimary] at h
      split at h
      · next parts hp =>
        cases h
        exact single (.template hp)
      · cases h
    | property t =>
      simp only [readPrimary] at h
      split at h
      · next path hp =>
        cases h
        exact single (.property hp)
      · cases h
    | identifier name =>
      cases h
      exact single (.name name)
    | parenOpen =>
      rw [readPrimary_paren] at h
      obtain ⟨⟨inner, middle⟩, hi, h⟩ := exists_of_bind_eq_ok h
      obtain ⟨after, hc, he⟩ := exists_of_bind_eq_ok h
      cases he
      obtain ⟨offset', rfl⟩ := expect_eq_ok_iff.mp hc
      obtain ⟨used, rfl, hd⟩ := hs.chain .or _ _ _ hi
      refine ⟨⟨.parenOpen, offset⟩ :: (used ++ [⟨.parenClose, offset'⟩]), by simp, ?_⟩
      simpa [bare] using Derives.paren hd
    | operation name =>
      rcases begins_or_without .parenOpen tokens with ⟨offset', tokens, rfl⟩ | hopen
      · rcases begins_or_without .parenClose tokens with ⟨offset'', tokens, rfl⟩ | hclose
        · cases h
          exact ⟨[⟨.operation name, offset⟩, ⟨.parenOpen, offset'⟩, ⟨.parenClose, offset''⟩], rfl,
            .emptyCall name⟩
        · rw [readPrimary_call hclose] at h
          obtain ⟨⟨es, middle⟩, ha, he⟩ := exists_of_bind_eq_ok h
          cases he
          obtain ⟨used, offset'', rfl, hd⟩ := hs.arguments _ _ _ ha
          refine ⟨⟨.operation name, offset⟩ :: ⟨.parenOpen, offset'⟩ ::
            (used ++ [⟨.parenClose, offset''⟩]), by simp, ?_⟩
          have he : Derives (.expression .primary (.call name es)) _ := .call hd
          simpa [bare] using he
      · rw [readPrimary_operation hopen] at h
        cases h
        exact single (.operation name)
    | _ => cases h

theorem ReadsSoundly.arguments_succ {tokens rest : List PlacedToken} {es : List Expression}
    (h : readArguments stop (fuel + 1) tokens = .ok (es, rest)) :
    ∃ used offset, tokens = used ++ ⟨.parenClose, offset⟩ :: rest ∧
      Derives (.arguments es) (bare used) := by
  rw [readArguments_succ] at h
  obtain ⟨⟨first, middle⟩, hf, hafter⟩ := exists_of_bind_eq_ok h
  obtain ⟨used, rfl, hd⟩ := hs.chain .or _ _ _ hf
  rcases begins_or_without .comma middle with ⟨offset, middle, rfl⟩ | hcomma
  · obtain ⟨⟨more, after⟩, hm, he⟩ := exists_of_bind_eq_ok hafter
    cases he
    obtain ⟨used', offset', rfl, hd'⟩ := hs.arguments _ _ _ hm
    refine ⟨used ++ ⟨.comma, offset⟩ :: used', offset', by simp, ?_⟩
    simpa [bare] using Derives.argument hd hd'
  · rw [readArgumentsAfter_end hcomma] at hafter
    obtain ⟨after, hc, he⟩ := exists_of_bind_eq_ok hafter
    cases he
    obtain ⟨offset, rfl⟩ := expect_eq_ok_iff.mp hc
    exact ⟨used, offset, rfl, .last hd⟩

end

theorem readsSoundly (stop fuel : Nat) : ReadsSoundly stop fuel := by
  induction fuel with
  | zero => exact readsSoundly_zero
  | succ fuel hs =>
    exact
      { chain := fun _ _ _ _ => hs.chain_succ
        more := fun _ _ _ _ _ _ => hs.more_succ
        unary := fun _ _ _ => hs.unary_succ
        steps := fun _ _ _ _ _ => hs.steps_succ
        primary := fun _ _ _ => hs.primary_succ
        arguments := fun _ _ _ => hs.arguments_succ }

end Grammar

end MarkdownDirectives
