import MarkdownDirectives.Proofs.Grammar

/-!
# The reader and the grammar

The reader gives every expression of the grammar. A derivation is followed through the reader, with
any tokens after those of the phrase that do not go on with it. In the middle of a chain or of the
steps after an operand the reader stands at its loop, and that is where the statement leaves it:
what comes next decides how the loop goes on.

Hence a text is read as an expression if and only if its tokens are derived from that expression.
-/

namespace MarkdownDirectives

namespace Grammar

open Expression

/-! ### Completeness -/

/-- From tightest to loosest. -/
def Level.looseness : Level → Nat
  | .primary => 0
  | .access => 1
  | .unary => 2
  | .chain .add => 3
  | .chain .and => 4
  | .chain .or => 5

/-- The least loose level of an expression that the token after it would go on with. -/
def continues : Token → Nat
  | .parenOpen => 0
  | .dot => 1
  | .bracketOpen => 1
  | .plus => 3
  | .and => 4
  | .or => 5
  | _ => 6

/-- The tokens do not go on with an expression of the level. -/
def Follows (level : Level) (tokens : List PlacedToken) : Prop :=
  ∀ p ∈ tokens.head?, level.looseness < continues p.token

/-- Fuel for reading an expression of the level, if `count` tokens are left. -/
def Level.fuel (level : Level) (count : Nat) : Nat := 8 * count + level.looseness + 1

theorem Follows.mono {level level' : Level} {tokens : List PlacedToken}
    (h : Follows level tokens) (hl : level'.looseness ≤ level.looseness) :
    Follows level' tokens :=
  fun p hp => Nat.lt_of_le_of_lt hl (h p hp)

theorem Follows.cons {level : Level} {token : Token} {offset : Nat} {tokens : List PlacedToken}
    (h : level.looseness < continues token) : Follows level (⟨token, offset⟩ :: tokens) := by
  intro p hp
  cases hp
  exact h

theorem Follows.without {level : Level} {token : Token} {tokens : List PlacedToken}
    (h : Follows level tokens) (ht : continues token ≤ level.looseness) :
    Without token tokens := by
  rintro p hp rfl
  exact absurd (h p hp) (Nat.not_lt.mpr ht)

theorem continues_token (o : BinaryOperator) : continues o.token = (Level.chain o).looseness := by
  cases o <;> rfl

theorem looseness_operand (o : BinaryOperator) :
    (Level.operand o).looseness + 1 = (Level.chain o).looseness := by
  cases o <;> rfl

theorem looseness_le (level : Level) : level.looseness ≤ 5 := by
  cases level with
  | chain o => cases o <;> decide
  | _ => decide

/-- What the first token of a phrase is not. -/
def Phrase.Begins : Phrase → Token → Prop
  | .expression .access _, t => t ≠ .parenClose ∧ t ≠ .bang
  | .expression .primary _, t => t ≠ .parenClose ∧ t ≠ .bang
  | _, t => t ≠ .parenClose

theorem Derives.begins {phrase : Phrase} {ts : List Token} (h : Derives phrase ts) :
    ∃ t more, ts = t :: more ∧ phrase.Begins t := by
  induction h with
  | @operand o e ts _ ih =>
    obtain ⟨t, more, ht, hb⟩ := ih
    refine ⟨t, more, ht, ?_⟩
    cases o <;> exact hb
  | binary _ _ ih _ | member _ ih | index _ _ ih _ | argument _ _ ih _ =>
    obtain ⟨t, more, rfl, hb⟩ := ih
    exact ⟨t, _, rfl, hb⟩
  | positive _ ih =>
    obtain ⟨t, more, ht, hb⟩ := ih
    exact ⟨t, more, ht, hb.1⟩
  | primary _ ih | last _ ih => exact ih
  | not => exact ⟨_, _, rfl, by simp [Phrase.Begins]⟩
  | _ => exact ⟨_, _, rfl, by simp [Phrase.Begins]⟩

theorem Derives.without {phrase : Phrase} {placed tail : List PlacedToken}
    (h : Derives phrase (bare placed)) {token : Token} (ht : ∀ t, phrase.Begins t → t ≠ token) :
    Without token (placed ++ tail) := by
  obtain ⟨t, more, hp, hb⟩ := h.begins
  cases placed with
  | nil => cases hp
  | cons p placed =>
    intro q hq
    cases hq
    cases hp
    exact ht _ hb

/-- The reader gives the phrase from its tokens and leaves those that follow. Inside a chain and
among the steps of an operand the reader comes to its loop. -/
def Completes (stop : Nat) : Phrase → List Token → Prop
  | .expression (.chain o) e, ts => ∀ placed tail fuel, bare placed = ts →
    Follows (.operand o) tail → (Level.chain o).fuel (placed ++ tail).length ≤ fuel →
    ∃ left, 8 * tail.length < left ∧
      readChain stop o fuel (placed ++ tail) = readMore stop o left e tail
  | .expression .unary e, ts => ∀ placed tail fuel, bare placed = ts → Follows .unary tail →
    Level.unary.fuel (placed ++ tail).length ≤ fuel →
    readUnary stop fuel (placed ++ tail) = .ok (e, tail)
  | .expression .access e, ts => ∀ placed tail fuel, bare placed = ts → Follows .primary tail →
    Level.access.fuel (placed ++ tail).length ≤ fuel →
    ∃ left, 8 * tail.length < left ∧
      readAccess stop fuel (placed ++ tail) = readSteps stop left e tail
  | .expression .primary e, ts => ∀ placed tail fuel, bare placed = ts → Follows .primary tail →
    Level.primary.fuel (placed ++ tail).length ≤ fuel →
    readPrimary stop fuel (placed ++ tail) = .ok (e, tail)
  | .arguments es, ts => ∀ placed offset tail fuel, bare placed = ts →
    8 * (placed ++ tail).length + 15 ≤ fuel →
    readArguments stop fuel (placed ++ ⟨.parenClose, offset⟩ :: tail) = .ok (es, tail)

section

variable {stop : Nat} {o : BinaryOperator} {e : Expression} {ts : List Token}

theorem Completes.chain (h : Completes stop (.expression (.chain o) e) ts)
    {placed tail : List PlacedToken} {fuel : Nat} (hp : bare placed = ts)
    (hf : Follows (.chain o) tail) (hn : (Level.chain o).fuel (placed ++ tail).length ≤ fuel) :
    readChain stop o fuel (placed ++ tail) = .ok (e, tail) := by
  have hop := looseness_operand o
  obtain ⟨left, hl, hr⟩ := h placed tail fuel hp (hf.mono (by omega)) hn
  obtain ⟨left, rfl⟩ := Nat.exists_eq_add_one_of_ne_zero (Nat.ne_zero_of_lt hl)
  rw [hr, readMore_end (hf.without (Nat.le_of_eq (continues_token o)))]

/-- Whatever closes a whole expression, no level goes on with it. -/
theorem Completes.closed (h : Completes stop (.expression (.chain .or) e) ts)
    {placed tail : List PlacedToken} {close : Token} {offset fuel : Nat} (hp : bare placed = ts)
    (hc : 5 < continues close) (hn : 8 * (placed.length + tail.length) + 14 ≤ fuel) :
    readOr stop fuel (placed ++ ⟨close, offset⟩ :: tail) = .ok (e, ⟨close, offset⟩ :: tail) := by
  refine Completes.chain h hp (.cons hc) ?_
  simp only [Level.fuel, Level.looseness, List.length_append, List.length_cons]
  omega

theorem Completes.operand (h : Completes stop (.expression (.operand o) e) ts)
    {placed tail : List PlacedToken} {fuel : Nat} (hp : bare placed = ts)
    (hf : Follows (.operand o) tail)
    (hn : (Level.operand o).fuel (placed ++ tail).length ≤ fuel) :
    readOperand stop o fuel (placed ++ tail) = .ok (e, tail) := by
  cases o with
  | or => exact Completes.chain (o := .and) h hp hf hn
  | and => exact Completes.chain (o := .add) h hp hf hn
  | add => exact h placed tail fuel hp hf hn

/-! One case for each way to build a phrase. -/

theorem exists_of_bare_eq_append {placed : List PlacedToken} {first second : List Token}
    (h : bare placed = first ++ second) :
    ∃ front back, placed = front ++ back ∧ bare front = first ∧ bare back = second := by
  obtain ⟨front, back, hp, hf, hb⟩ := List.map_eq_append_iff.mp h
  exact ⟨front, back, hp, hf, hb⟩

theorem exists_of_bare_eq_cons {placed : List PlacedToken} {t : Token} {more : List Token}
    (h : bare placed = t :: more) : ∃ offset back, placed = ⟨t, offset⟩ :: back ∧
      bare back = more := by
  obtain ⟨⟨t, offset⟩, back, rfl, rfl, hb⟩ := List.map_eq_cons_iff.mp h
  exact ⟨offset, back, rfl, hb⟩

theorem exists_of_bare_eq_enclosed {placed : List PlacedToken} {first last : Token}
    {inner : List Token} (h : bare placed = first :: (inner ++ [last])) :
    ∃ offset inside offset', placed = ⟨first, offset⟩ :: (inside ++ [⟨last, offset'⟩]) ∧
      bare inside = inner := by
  obtain ⟨offset, back, rfl, hback⟩ := exists_of_bare_eq_cons h
  obtain ⟨inside, close, rfl, hinside, hclose⟩ := exists_of_bare_eq_append hback
  obtain ⟨offset', none, rfl, hnone⟩ := exists_of_bare_eq_cons hclose
  obtain rfl := List.map_eq_nil_iff.mp hnone
  exact ⟨offset, inside, offset', rfl, hinside⟩

theorem Completes.of_operand (h : Completes stop (.expression (.operand o) e) ts) :
    Completes stop (.expression (.chain o) e) ts := by
  intro placed tail fuel hp hf hn
  have hop := looseness_operand o
  simp only [Level.fuel, List.length_append] at hn
  obtain ⟨fuel, rfl⟩ : ∃ n, fuel = n + 1 := ⟨fuel - 1, by omega⟩
  have hfirst : readOperand stop o fuel (placed ++ tail) = .ok (e, tail) :=
    h.operand hp hf (by simp only [Level.fuel, List.length_append]; omega)
  rw [readChain_succ, hfirst]
  exact ⟨fuel, by omega, rfl⟩

theorem Completes.binary {left right : Expression} {ls rs : List Token}
    (hl : Completes stop (.expression (.chain o) left) ls)
    (hr : Completes stop (.expression (.operand o) right) rs) :
    Completes stop (.expression (.chain o) (.binary o left right)) (ls ++ o.token :: rs) := by
  intro placed tail fuel hp hf hn
  have hop := looseness_operand o
  have hle := looseness_le (.chain o)
  obtain ⟨front, more, rfl, hfront, hmore⟩ := exists_of_bare_eq_append hp
  obtain ⟨offset, back, rfl, hback⟩ := exists_of_bare_eq_cons hmore
  have hnext : Follows (.operand o) (⟨o.token, offset⟩ :: (back ++ tail)) :=
    .cons (by rw [continues_token]; omega)
  obtain ⟨n, hn, hread⟩ := hl front _ fuel hfront hnext (by simpa using hn)
  simp only [List.length_cons, List.length_append] at hn
  obtain ⟨n, rfl⟩ : ∃ m, n = m + 1 := ⟨n - 1, by omega⟩
  have hright : readOperand stop o n (back ++ tail) = .ok (right, tail) :=
    hr.operand hback hf (by simp only [Level.fuel, List.length_append]; omega)
  refine ⟨n, by omega, ?_⟩
  rw [List.append_assoc, List.cons_append, hread, readMore_operator, hright]
  rfl

theorem Completes.not (h : Completes stop (.expression .unary e) ts) :
    Completes stop (.expression .unary (.not e)) (.bang :: ts) := by
  intro placed tail fuel hp hf hn
  obtain ⟨offset, back, rfl, hback⟩ := exists_of_bare_eq_cons hp
  simp only [Level.fuel, List.length_append, List.length_cons] at hn
  obtain ⟨fuel, rfl⟩ : ∃ n, fuel = n + 1 := ⟨fuel - 1, by omega⟩
  have hinner : readUnary stop fuel (back ++ tail) = .ok (e, tail) :=
    h back tail fuel hback hf (by simp only [Level.fuel, List.length_append]; omega)
  rw [List.cons_append, readUnary_bang, hinner]
  rfl

theorem Completes.positive (hd : Derives (.expression .access e) ts)
    (h : Completes stop (.expression .access e) ts) :
    Completes stop (.expression .unary e) ts := by
  intro placed tail fuel hp hf hn
  simp only [Level.fuel, Level.looseness] at hn
  obtain ⟨fuel, rfl⟩ : ∃ n, fuel = n + 1 := ⟨fuel - 1, by omega⟩
  have hbang : Without .bang (placed ++ tail) := by
    subst hp
    exact hd.without fun t ht => ht.2
  obtain ⟨left, hl, hread⟩ := h placed tail fuel hp (hf.mono (by decide))
    (by simp only [Level.fuel, Level.looseness]; omega)
  obtain ⟨left, rfl⟩ := Nat.exists_eq_add_one_of_ne_zero (Nat.ne_zero_of_lt hl)
  rw [readUnary_positive hbang, hread,
    readSteps_end (hf.without (by decide)) (hf.without (by decide))]

theorem Completes.of_primary (h : Completes stop (.expression .primary e) ts)
    (hd : Derives (.expression .primary e) ts) :
    Completes stop (.expression .access e) ts := by
  intro placed tail fuel hp hf hn
  have hpos : 0 < placed.length := by
    obtain ⟨t, more, rfl, -⟩ := hd.begins
    obtain ⟨offset, back, rfl, -⟩ := exists_of_bare_eq_cons hp
    exact Nat.succ_pos _
  simp only [Level.fuel, Level.looseness, List.length_append] at hn
  have hobject : readPrimary stop fuel (placed ++ tail) = .ok (e, tail) :=
    h placed tail fuel hp hf
      (by simp only [Level.fuel, Level.looseness, List.length_append]; omega)
  refine ⟨fuel, by omega, ?_⟩
  rw [readAccess, hobject]
  rfl

theorem Completes.member {name : Text} (h : Completes stop (.expression .access e) ts) :
    Completes stop (.expression .access (.member e name)) (ts ++ [.dot, .identifier name]) := by
  intro placed tail fuel hp hf hn
  obtain ⟨front, more, rfl, hfront, hmore⟩ := exists_of_bare_eq_append hp
  obtain ⟨offset, back, rfl, hback⟩ := exists_of_bare_eq_cons hmore
  obtain ⟨offset', last, rfl, hlast⟩ := exists_of_bare_eq_cons hback
  obtain rfl := List.map_eq_nil_iff.mp hlast
  have hnext : Follows .primary (⟨.dot, offset⟩ :: ⟨.identifier name, offset'⟩ :: tail) :=
    .cons (by decide)
  obtain ⟨n, hn, hread⟩ := h front _ fuel hfront hnext (by simpa using hn)
  simp only [List.length_cons] at hn
  obtain ⟨n, rfl⟩ : ∃ m, n = m + 1 := ⟨n - 1, by omega⟩
  refine ⟨n, by omega, ?_⟩
  rw [List.append_assoc]
  exact hread

theorem Completes.index {position : Expression} {ps : List Token}
    (h : Completes stop (.expression .access e) ts)
    (hi : Completes stop (.expression (.chain .or) position) ps) :
    Completes stop (.expression .access (.index e position))
      (ts ++ .bracketOpen :: (ps ++ [.bracketClose])) := by
  intro placed tail fuel hp hf hn
  obtain ⟨front, more, rfl, hfront, hmore⟩ := exists_of_bare_eq_append hp
  obtain ⟨offset, inside, offset', rfl, hinside⟩ := exists_of_bare_eq_enclosed hmore
  have hnext : Follows .primary
      (⟨.bracketOpen, offset⟩ :: (inside ++ ⟨.bracketClose, offset'⟩ :: tail)) :=
    .cons (by decide)
  obtain ⟨n, hn, hread⟩ := h front _ fuel hfront hnext (by simpa using hn)
  simp only [List.length_cons, List.length_append] at hn
  obtain ⟨n, rfl⟩ : ∃ m, n = m + 1 := ⟨n - 1, by omega⟩
  have hposition : readOr stop n (inside ++ ⟨.bracketClose, offset'⟩ :: tail) =
      .ok (position, ⟨.bracketClose, offset'⟩ :: tail) :=
    hi.closed hinside (by decide) (by omega)
  have hclose : expect stop .bracketClose (⟨.bracketClose, offset'⟩ :: tail) = .ok tail :=
    expect_eq_ok_iff.mpr ⟨offset', rfl⟩
  refine ⟨n, by omega, ?_⟩
  have hplaced : front ++ ⟨.bracketOpen, offset⟩ :: (inside ++ [⟨.bracketClose, offset'⟩]) ++ tail =
      front ++ ⟨.bracketOpen, offset⟩ :: (inside ++ ⟨.bracketClose, offset'⟩ :: tail) := by
    simp
  rw [hplaced, hread, readSteps_bracket, hposition]
  simp only [Except.bind, hclose]

theorem Completes.paren (h : Completes stop (.expression (.chain .or) e) ts) :
    Completes stop (.expression .primary e) (.parenOpen :: (ts ++ [.parenClose])) := by
  intro placed tail fuel hp hf hn
  obtain ⟨offset, inside, offset', rfl, hinside⟩ := exists_of_bare_eq_enclosed hp
  simp only [Level.fuel, Level.looseness, List.length_append, List.length_cons] at hn
  obtain ⟨fuel, rfl⟩ : ∃ m, fuel = m + 1 := ⟨fuel - 1, by omega⟩
  have hinner : readOr stop fuel (inside ++ ⟨.parenClose, offset'⟩ :: tail) =
      .ok (e, ⟨.parenClose, offset'⟩ :: tail) :=
    h.closed hinside (by decide) (by omega)
  have hclose : expect stop .parenClose (⟨.parenClose, offset'⟩ :: tail) = .ok tail :=
    expect_eq_ok_iff.mpr ⟨offset', rfl⟩
  rw [List.cons_append, List.append_assoc, List.singleton_append, readPrimary_paren, hinner]
  simp only [Except.bind, hclose]

theorem Completes.call {name : Text} {es : List Expression} (hd : Derives (.arguments es) ts)
    (h : Completes stop (.arguments es) ts) :
    Completes stop (.expression .primary (.call name es))
      (.operation name :: .parenOpen :: (ts ++ [.parenClose])) := by
  intro placed tail fuel hp hf hn
  obtain ⟨offset, back, rfl, hback⟩ := exists_of_bare_eq_cons hp
  obtain ⟨offset', inside, offset'', rfl, hinside⟩ := exists_of_bare_eq_enclosed hback
  simp only [Level.fuel, Level.looseness, List.length_append, List.length_cons] at hn
  obtain ⟨fuel, rfl⟩ : ∃ m, fuel = m + 1 := ⟨fuel - 1, by omega⟩
  have hclose : Without .parenClose (inside ++ ⟨.parenClose, offset''⟩ :: tail) := by
    subst hinside
    exact hd.without fun t ht => ht
  have harguments : readArguments stop fuel (inside ++ ⟨.parenClose, offset''⟩ :: tail) =
      .ok (es, tail) :=
    h inside offset'' tail fuel hinside (by simp only [List.length_append]; omega)
  rw [List.cons_append, List.cons_append, List.append_assoc, List.singleton_append,
    readPrimary_call hclose, harguments]
  rfl

theorem Completes.last (h : Completes stop (.expression (.chain .or) e) ts) :
    Completes stop (.arguments [e]) ts := by
  intro placed offset tail fuel hp hn
  obtain ⟨fuel, rfl⟩ : ∃ m, fuel = m + 1 := ⟨fuel - 1, by omega⟩
  simp only [List.length_append] at hn
  have hfirst : readOr stop fuel (placed ++ ⟨.parenClose, offset⟩ :: tail) =
      .ok (e, ⟨.parenClose, offset⟩ :: tail) :=
    h.closed hp (by decide) (by omega)
  have hclose : expect stop .parenClose (⟨.parenClose, offset⟩ :: tail) = .ok tail :=
    expect_eq_ok_iff.mpr ⟨offset, rfl⟩
  have hcomma : Without .comma (⟨.parenClose, offset⟩ :: tail) := by
    intro p hp
    cases hp
    exact Token.noConfusion
  rw [readArguments_succ, hfirst]
  simp only [Except.bind, readArgumentsAfter_end hcomma, hclose]

theorem Completes.argument {es : List Expression} {more : List Token}
    (h : Completes stop (.expression (.chain .or) e) ts)
    (hm : Completes stop (.arguments es) more) :
    Completes stop (.arguments (e :: es)) (ts ++ .comma :: more) := by
  intro placed offset tail fuel hp hn
  obtain ⟨front, rest, rfl, hfront, hrest⟩ := exists_of_bare_eq_append hp
  obtain ⟨offset', back, rfl, hback⟩ := exists_of_bare_eq_cons hrest
  obtain ⟨fuel, rfl⟩ : ∃ m, fuel = m + 1 := ⟨fuel - 1, by omega⟩
  simp only [List.length_append, List.length_cons] at hn
  have hfirst : readOr stop fuel
      (front ++ ⟨.comma, offset'⟩ :: (back ++ ⟨.parenClose, offset⟩ :: tail)) =
      .ok (e, ⟨.comma, offset'⟩ :: (back ++ ⟨.parenClose, offset⟩ :: tail)) :=
    h.closed hfront (by decide) (by simp only [List.length_append, List.length_cons]; omega)
  have hrest : readArguments stop fuel (back ++ ⟨.parenClose, offset⟩ :: tail) = .ok (es, tail) :=
    hm back offset tail fuel hback (by simp only [List.length_append]; omega)
  rw [List.append_assoc, List.cons_append, readArguments_succ, hfirst]
  simp only [Except.bind, readArgumentsAfter, hrest]

end

theorem Derives.completes (stop : Nat) {phrase : Phrase} {ts : List Token} (h : Derives phrase ts) :
    Completes stop phrase ts := by
  have single : ∀ {e : Expression} {token : Token},
      (∀ offset tail fuel, Follows .primary tail →
        readPrimary stop (fuel + 1) (⟨token, offset⟩ :: tail) = .ok (e, tail)) →
      Completes stop (.expression .primary e) [token] := by
    intro e token hread placed tail fuel hp hf hn
    obtain ⟨offset, back, rfl, hback⟩ := exists_of_bare_eq_cons hp
    obtain rfl := List.map_eq_nil_iff.mp hback
    simp only [Level.fuel] at hn
    obtain ⟨fuel, rfl⟩ : ∃ m, fuel = m + 1 := ⟨fuel - 1, by omega⟩
    exact hread offset tail fuel hf
  induction h with
  | operand _ ih => exact ih.of_operand
  | binary _ _ hl hr => exact hl.binary hr
  | not _ ih => exact ih.not
  | positive hd ih => exact ih.positive hd
  | member _ ih => exact ih.member
  | index _ _ ih hi => exact ih.index hi
  | primary hd ih => exact ih.of_primary hd
  | number x => exact single fun _ _ _ _ => by cases x <;> rfl
  | string t quote => exact single fun _ _ _ _ => rfl
  | template hp => exact single fun _ _ _ _ => by simp only [readPrimary, hp]
  | property hp => exact single fun _ _ _ _ => by simp only [readPrimary, hp]
  | name name => exact single fun _ _ _ _ => rfl
  | operation name =>
    exact single fun _ _ _ hf => readPrimary_operation (hf.without (by decide))
  | emptyCall name =>
    intro placed tail fuel hp hf hn
    obtain ⟨offset, back, rfl, hback⟩ := exists_of_bare_eq_cons hp
    obtain ⟨offset', close, rfl, hclose⟩ := exists_of_bare_eq_cons hback
    obtain ⟨offset'', last, rfl, hlast⟩ := exists_of_bare_eq_cons hclose
    obtain rfl := List.map_eq_nil_iff.mp hlast
    simp only [Level.fuel] at hn
    obtain ⟨fuel, rfl⟩ : ∃ m, fuel = m + 1 := ⟨fuel - 1, by omega⟩
    rfl
  | call hd ih => exact ih.call hd
  | paren _ ih => exact ih.paren
  | last _ ih => exact ih.last
  | argument _ _ ih hm => exact ih.argument hm

/-! ### Whole token lists -/

theorem ofTokens_eq_ok_iff {stop : Nat} {tokens : List PlacedToken} {e : Expression} :
    ofTokens stop tokens = .ok e ↔ Derives (.expression (.chain .or) e) (bare tokens) := by
  unfold ofTokens
  change (readChain stop .or (8 * tokens.length + 8) tokens).bind _ = .ok e ↔ _
  constructor
  · intro h
    obtain ⟨⟨read, rest⟩, hread, he⟩ := exists_of_bind_eq_ok h
    obtain ⟨used, rfl, hd⟩ := (readsSoundly stop _).chain .or _ _ _ hread
    cases rest with
    | nil =>
      cases he
      rwa [List.append_nil]
    | cons p rest => cases he
  · intro h
    have hread : readChain stop .or (8 * tokens.length + 8) (tokens ++ []) = .ok (e, []) := by
      refine Completes.chain (h.completes stop) rfl (fun p hp => by cases hp) ?_
      simp only [Level.fuel, Level.looseness, List.append_nil]
      omega
    rw [List.append_nil] at hread
    rw [hread]
    rfl

theorem exists_bare_eq (ts : List Token) : ∃ placed, bare placed = ts := by
  refine ⟨ts.map fun t => ⟨t, 0⟩, ?_⟩
  rw [bare, List.map_map]
  exact List.map_id ts

/-- The grammar is not ambiguous. -/
theorem Derives.unique {e e' : Expression} {ts : List Token}
    (h : Derives (.expression (.chain .or) e) ts) (h' : Derives (.expression (.chain .or) e') ts) :
    e = e' := by
  obtain ⟨placed, rfl⟩ := exists_bare_eq ts
  have he : ofTokens 0 placed = .ok e := ofTokens_eq_ok_iff.mpr h
  rw [ofTokens_eq_ok_iff.mpr h'] at he
  exact (Except.ok.inj he).symm

theorem parse_eq_ok_iff {t : Text} {tokens : List PlacedToken} (h : Token.tokenize t = .ok tokens)
    {e : Expression} :
    Expression.parse t = .ok e ↔ Derives (.expression (.chain .or) e) (bare tokens) := by
  have hread : ofTokens t.byteLength tokens = .ok e ↔ _ := ofTokens_eq_ok_iff
  rw [← hread]
  simp only [Expression.parse, h, Except.bind]
  cases ofTokens t.byteLength tokens with
  | error fault => exact iff_of_false (fun h => by cases h) fun h => by cases h
  | ok e' => simp only [Except.ok.injEq]

end Grammar

end MarkdownDirectives
