import MarkdownDirectives.Proofs.Derivations

/-!
# One token of lookahead

What a reader does is decided by the tokens that it passes and the next one. Where it succeeds it
does so before all tokens that begin with that one. Where it fails it has passed tokens that begin a
phrase of its kind, and with the next one it fails whatever follows. There are rules for the ways to
build a reader, and by them the reading functions of the parser are of this kind.
-/

namespace MarkdownDirectives

namespace Grammar

open Expression

/-- Reads with some fuel from the front of a token list. -/
abbrev Reader (α : Type) := Nat → List PlacedToken → Except Fault (α × List PlacedToken)

/-- Both token lists begin with the same token. -/
def SameFirst (tokens other : List PlacedToken) : Prop :=
  ∃ p more more', tokens = p :: more ∧ other = p :: more'

def EndsInDot (tokens : List PlacedToken) : Prop := tokens.getLast?.map (·.token) = some .dot

instance (tokens : List PlacedToken) : Decidable (EndsInDot tokens) :=
  inferInstanceAs (Decidable (_ = _))

/-- The offset of an error after the tokens in front. After the point of a step it is that of the
token after the next one. -/
def errorPlace (stop : Nat) (front rest : List PlacedToken) : Nat :=
  if EndsInDot front then nextOffset stop (rest.drop 1) else nextOffset stop rest

/-- The reader decides by the next token. Where it fails, the tokens in front are a beginning of
what it reads. -/
structure Predicts (stop : Nat) {α : Type} (run : Reader α) (begins : List PlacedToken → Prop)
    (fuel : Nat) (tokens : List PlacedToken) : Prop where
  ok : ∀ a rest, run fuel tokens = .ok (a, rest) →
    ∃ used, tokens = used ++ rest ∧ ¬ EndsInDot used ∧
      ∀ n other result, SameFirst rest other → run n (used ++ other) = .ok result →
        result = (a, other)
  error : ∀ fault, run fuel tokens = .error fault →
    ∃ front rest, tokens = front ++ rest ∧ begins front ∧
      fault.offset = errorPlace stop front rest ∧
      ∀ n other result, SameFirst rest other → run n (front ++ other) ≠ .ok result

section

variable {stop : Nat} {α β : Type} {run : Reader α} {begins : List PlacedToken → Prop}
  {fuel : Nat} {tokens other front used rest : List PlacedToken}

/-! ### Beginnings of a token list -/

theorem SameFirst.append (h : SameFirst rest other) (used : List PlacedToken) :
    SameFirst (used ++ rest) (used ++ other) := by
  cases used with
  | nil => exact h
  | cons p used => exact ⟨p, used ++ rest, used ++ other, rfl, rfl⟩

theorem SameFirst.head? (h : SameFirst tokens other) : other.head? = tokens.head? := by
  obtain ⟨p, more, more', rfl, rfl⟩ := h
  rfl

theorem not_endsInDot_nil : ¬ EndsInDot [] := by
  simp [EndsInDot]

theorem endsInDot_append (hu : ¬ EndsInDot used) : EndsInDot (used ++ rest) ↔ EndsInDot rest := by
  unfold EndsInDot at *
  cases hr : rest.getLast? with
  | none =>
    rw [List.getLast?_eq_none_iff] at hr
    rw [hr, List.append_nil]
    exact iff_of_false hu (by simp)
  | some p => rw [List.getLast?_append, hr, Option.some_or]

theorem errorPlace_append (hu : ¬ EndsInDot used) :
    errorPlace stop (used ++ front) rest = errorPlace stop front rest := by
  simp only [errorPlace, endsInDot_append hu]

theorem errorPlace_nil : errorPlace stop [] rest = nextOffset stop rest :=
  if_neg not_endsInDot_nil

/-! ### Rules for readers -/

namespace Predicts

theorem mono {begins' : List PlacedToken → Prop} (h : Predicts stop run begins fuel tokens)
    (hb : ∀ front, begins front → begins' front) : Predicts stop run begins' fuel tokens where
  ok := h.ok
  error fault hfault := by
    obtain ⟨front, rest, ht, hfront, hplace⟩ := h.error fault hfault
    exact ⟨front, rest, ht, hb front hfront, hplace⟩

/-- A reader that passes nothing. -/
theorem stay {a : α} (hnow : run fuel tokens = .ok (a, tokens))
    (hany : ∀ n other result, SameFirst tokens other → run n other = .ok result →
      result = (a, other)) : Predicts stop run begins fuel tokens where
  ok b rest h := by
    rw [hnow] at h
    cases h
    exact ⟨[], rfl, not_endsInDot_nil, hany⟩
  error fault h := by
    rw [hnow] at h
    cases h

/-- A reader that fails for the token after some others. -/
theorem fail (front : List PlacedToken) {fault : Fault}
    (hnow : run fuel (front ++ tokens) = .error fault)
    (hplace : fault.offset = errorPlace stop front tokens) (hbegins : begins front)
    (hany : ∀ n other result, SameFirst tokens other → run n (front ++ other) ≠ .ok result) :
    Predicts stop run begins fuel (front ++ tokens) where
  ok b rest h := by
    rw [hnow] at h
    cases h
  error fault' h := by
    rw [hnow] at h
    cases h
    exact ⟨front, tokens, rfl, hbegins, hplace, hany⟩

/-- A reader that passes some tokens and goes on as another one. -/
theorem after (before : List PlacedToken) {next : Reader α} {left : Nat}
    (hnow : run fuel (before ++ tokens) = next left tokens)
    (hany : ∀ n other result, SameFirst tokens other → run n (before ++ other) = .ok result →
      ∃ m, next m other = .ok result)
    (hdot : ¬ EndsInDot before)
    (h : Predicts stop next (fun front => begins (before ++ front)) left tokens) :
    Predicts stop run begins fuel (before ++ tokens) where
  ok a rest hok := by
    rw [hnow] at hok
    obtain ⟨used, rfl, hused, hlocal⟩ := h.ok a rest hok
    refine ⟨before ++ used, (List.append_assoc ..).symm, ?_, fun n other result hsame hrun => ?_⟩
    · rwa [endsInDot_append hdot]
    · rw [List.append_assoc] at hrun
      obtain ⟨m, hnext⟩ := hany n _ result (hsame.append used) hrun
      exact hlocal m other result hsame hnext
  error fault hfault := by
    rw [hnow] at hfault
    obtain ⟨front, rest, rfl, hfront, hplace, hstuck⟩ := h.error fault hfault
    refine ⟨before ++ front, rest, (List.append_assoc ..).symm, hfront, ?_,
      fun n other result hsame hrun => ?_⟩
    · rw [hplace, errorPlace_append hdot]
    · rw [List.append_assoc] at hrun
      obtain ⟨m, hnext⟩ := hany n _ result (hsame.append front) hrun
      exact hstuck m other result hsame hnext

theorem bind {first : Reader α} (next : α → Reader β) (h : Predicts stop first begins fuel tokens)
    (hnext : ∀ a used rest, tokens = used ++ rest → first fuel tokens = .ok (a, rest) →
      Predicts stop (next a) (fun front => begins (used ++ front)) fuel rest) :
    Predicts stop (fun n ts => (first n ts).bind fun read => next read.1 n read.2) begins fuel
      tokens where
  -- before other tokens the first reader gives the same and leaves the second one where it stood
  ok b rest hok := by
    obtain ⟨⟨a, middle⟩, hfirst, hsecond⟩ := exists_of_bind_eq_ok hok
    obtain ⟨used, ht, hused, hlocal⟩ := h.ok a middle hfirst
    obtain ⟨used', rfl, hused', hlocal'⟩ := (hnext a used middle ht hfirst).ok b rest hsecond
    refine ⟨used ++ used', by rw [ht, List.append_assoc], ?_, fun n other result hsame hrun => ?_⟩
    · rwa [endsInDot_append hused]
    · rw [List.append_assoc] at hrun
      obtain ⟨read, hread, hresult⟩ := exists_of_bind_eq_ok hrun
      obtain rfl := hlocal n _ read (hsame.append used') hread
      exact hlocal' n other result hsame hresult
  error fault hfault := by
    cases hfirst : first fuel tokens with
    | error =>
      simp only [hfirst, Except.bind] at hfault
      cases hfault
      obtain ⟨front, rest, ht, hfront, hplace, hstuck⟩ := h.error _ hfirst
      refine ⟨front, rest, ht, hfront, hplace, fun n other result hsame hrun => ?_⟩
      obtain ⟨read, hread, -⟩ := exists_of_bind_eq_ok hrun
      exact hstuck n other read hsame hread
    | ok read =>
      obtain ⟨a, middle⟩ := read
      simp only [hfirst, Except.bind] at hfault
      obtain ⟨used, ht, hused, hlocal⟩ := h.ok a middle hfirst
      obtain ⟨front, rest, rfl, hfront, hplace, hstuck⟩ :=
        (hnext a used middle ht hfirst).error fault hfault
      refine ⟨used ++ front, rest, by rw [ht, List.append_assoc], hfront, ?_,
        fun n other result hsame hrun => ?_⟩
      · rw [hplace, errorPlace_append hused]
      · rw [List.append_assoc] at hrun
        obtain ⟨read, hread, hresult⟩ := exists_of_bind_eq_ok hrun
        obtain rfl := hlocal n _ read (hsame.append front) hread
        exact hstuck n other result hsame hresult

/-- A reader that passes some tokens and goes on as another one with less fuel. -/
theorem step (before : List PlacedToken) {next : Reader α}
    (hzero : ∀ ts result, run 0 ts ≠ .ok result)
    (hstep : ∀ n ts, ts.head? = tokens.head? → run (n + 1) (before ++ ts) = next n ts)
    (hdot : ¬ EndsInDot before)
    (h : Predicts stop next (fun front => begins (before ++ front)) fuel tokens) :
    Predicts stop run begins (fuel + 1) (before ++ tokens) := by
  refine .after before (hstep fuel tokens rfl) (fun n other result hsame hresult => ?_) hdot h
  cases n with
  | zero => exact absurd hresult (hzero _ result)
  | succ n => exact ⟨n, (hstep n other hsame.head?).symm.trans hresult⟩

theorem whole (before : List PlacedToken) {a : α} (hzero : ∀ ts result, run 0 ts ≠ .ok result)
    (hread : ∀ n ts, ts.head? = tokens.head? → run (n + 1) (before ++ ts) = .ok (a, ts))
    (hdot : ¬ EndsInDot before) : Predicts stop run begins (fuel + 1) (before ++ tokens) :=
  .step before hzero hread hdot (.stay rfl fun _ _ _ _ hresult => (Except.ok.inj hresult).symm)

theorem map {first : Reader α} (f : α → β) (h : Predicts stop first begins fuel tokens) :
    Predicts stop (fun n ts => (first n ts).bind fun read => .ok (f read.1, read.2)) begins fuel
      tokens :=
  h.bind (fun a _ ts => .ok (f a, ts)) fun _ _ _ _ _ =>
    .stay rfl fun _ _ _ _ hresult => (Except.ok.inj hresult).symm

end Predicts

theorem expect_of_without (stop : Nat) {token : Token} (h : Without token tokens) :
    ∃ reason, expect stop token tokens = .error ⟨nextOffset stop tokens, reason⟩ := by
  cases tokens with
  | nil => exact ⟨_, rfl⟩
  | cons p more =>
    obtain ⟨found, offset⟩ := p
    have hfound : found ≠ token := h _ rfl
    simp only [expect, hfound, if_false]
    exact ⟨_, rfl⟩

theorem Without.of_head? {token : Token} (h : Without token tokens)
    (hsame : other.head? = tokens.head?) : Without token other := by
  intro p hp
  rw [hsame] at hp
  exact h p hp

/-- A reader that asks for a token. -/
theorem Predicts.expect (next : Reader α) {token : Token}
    (hrun : ∀ n ts, ts.head? = tokens.head? → run n ts = (expect stop token ts).bind (next n))
    (htoken : token ≠ .dot) (hbegins : begins [])
    (h : ∀ offset more, tokens = ⟨token, offset⟩ :: more →
      Predicts stop next (fun front => begins (⟨token, offset⟩ :: front)) fuel more) :
    Predicts stop run begins fuel tokens := by
  rcases begins_or_without token tokens with ⟨offset, more, rfl⟩ | hwithout
  · have hexpect : ∀ n ts, run n ([⟨token, offset⟩] ++ ts) = next n ts := by
      intro n ts
      rw [List.singleton_append, hrun n (⟨token, offset⟩ :: ts) rfl,
        expect_eq_ok_iff.mpr ⟨offset, rfl⟩]
      rfl
    refine .after [⟨token, offset⟩] (hexpect fuel more)
      (fun n ts result _ hresult => ⟨n, (hexpect n ts).symm.trans hresult⟩) ?_ (h offset more rfl)
    simpa [EndsInDot] using htoken
  · obtain ⟨reason, hreason⟩ := expect_of_without stop hwithout
    have hnow : run fuel ([] ++ tokens) = .error ⟨nextOffset stop tokens, reason⟩ := by
      rw [List.nil_append, hrun fuel tokens rfl, hreason]
      rfl
    refine .fail [] hnow errorPlace_nil.symm hbegins ?_
    · intro n ts result hsame hresult
      obtain ⟨reason', hreason'⟩ := expect_of_without stop (hwithout.of_head? hsame.head?)
      rw [List.nil_append, hrun n ts hsame.head?, hreason'] at hresult
      cases hresult

/-- No name of a property stands in front. -/
def WithoutName (tokens : List PlacedToken) : Prop :=
  ∀ p ∈ tokens.head?, ∀ name, p.token ≠ .identifier name

theorem readSteps_dot {object : Expression} {offset : Nat} (h : WithoutName tokens) :
    readSteps stop (fuel + 1) object (⟨.dot, offset⟩ :: tokens) =
      .error (noPropertyName (nextOffset stop (tokens.drop 1))) := by
  cases tokens with
  | nil => rfl
  | cons p more =>
    obtain ⟨token, offset'⟩ := p
    cases token with
    | identifier name => exact absurd rfl (h _ rfl name)
    | _ => rfl

end

/-! ### Beginnings of phrases -/

/-- An expression of the level begins with the tokens. -/
def Opens (level : Level) (tokens : List PlacedToken) : Prop :=
  ∃ more e, Derives (.expression level e) (bare tokens ++ more)

/-- After an expression of the level the tokens begin the rest of a longer one. -/
def Prolongs (level : Level) (tokens : List PlacedToken) : Prop :=
  ∀ e before, Derives (.expression level e) before →
    ∃ more e', Derives (.expression level e') (before ++ (bare tokens ++ more))

/-- Arguments with the parenthesis after them begin with the tokens. -/
def OpensArguments (tokens : List PlacedToken) : Prop :=
  ∃ more es ts, Derives (.arguments es) ts ∧ ts ++ [.parenClose] = bare tokens ++ more

section

variable {level : Level} {o : BinaryOperator} {front used rest : List PlacedToken} {e : Expression}

@[simp] theorem bare_nil : bare [] = [] := rfl

@[simp] theorem bare_cons (p : PlacedToken) (tokens : List PlacedToken) :
    bare (p :: tokens) = p.token :: bare tokens := rfl

@[simp] theorem bare_append (tokens more : List PlacedToken) :
    bare (tokens ++ more) = bare tokens ++ bare more := List.map_append

theorem Takes.derives {phrase : Phrase} (h : Takes phrase (used ++ rest) rest) :
    Derives phrase (bare used) := by
  obtain ⟨used', ht, hd⟩ := h
  rwa [List.append_cancel_right ht]

theorem derives_of_readOr {stop fuel : Nat} (h : readOr stop fuel (used ++ rest) = .ok (e, rest)) :
    Derives (.expression (.chain .or) e) (bare used) :=
  ((readsSoundly stop fuel).chain .or _ _ _ h).derives

theorem opens_nil_primary : Opens .primary [] := ⟨[.identifier ['x']], _, .name ['x']⟩

theorem Opens.of_operand (h : Opens (.operand o) front) : Opens (.chain o) front := by
  obtain ⟨more, e, hd⟩ := h
  exact ⟨more, e, .operand hd⟩

theorem Opens.positive (h : Opens .access front) : Opens .unary front := by
  obtain ⟨more, e, hd⟩ := h
  exact ⟨more, e, .positive hd⟩

theorem Opens.of_primary (h : Opens .primary front) : Opens .access front := by
  obtain ⟨more, e, hd⟩ := h
  exact ⟨more, e, .primary hd⟩

theorem Opens.not {offset : Nat} (h : Opens .unary front) :
    Opens .unary (⟨.bang, offset⟩ :: front) := by
  obtain ⟨more, e, hd⟩ := h
  exact ⟨more, .not e, .not hd⟩

theorem Opens.binary {offset : Nat} (h : Opens (.operand o) front) :
    Prolongs (.chain o) (⟨o.token, offset⟩ :: front) := by
  intro left before hl
  obtain ⟨more, right, hr⟩ := h
  exact ⟨more, .binary o left right, .binary hl hr⟩

theorem Opens.index {offset : Nat} (h : Opens (.chain .or) front) :
    Prolongs .access (⟨.bracketOpen, offset⟩ :: front) := by
  intro object before ho
  obtain ⟨more, position, hp⟩ := h
  refine ⟨more ++ [.bracketClose], .index object position, ?_⟩
  simpa using Derives.index ho hp

theorem Opens.paren {offset : Nat} (h : Opens (.chain .or) front) :
    Opens .primary (⟨.parenOpen, offset⟩ :: front) := by
  obtain ⟨more, e, hd⟩ := h
  refine ⟨more ++ [.parenClose], e, ?_⟩
  simpa using Derives.paren hd

theorem OpensArguments.call {name : Text} {offset offset' : Nat} (h : OpensArguments front) :
    Opens .primary (⟨.operation name, offset⟩ :: ⟨.parenOpen, offset'⟩ :: front) := by
  obtain ⟨more, es, ts, hd, ht⟩ := h
  refine ⟨more, .call name es, ?_⟩
  have hcall : Derives (.expression .primary (.call name es)) _ := .call hd
  rwa [ht] at hcall

theorem Opens.arguments (h : Opens (.chain .or) front) : OpensArguments front := by
  obtain ⟨more, e, hd⟩ := h
  exact ⟨more ++ [.parenClose], [e], _, .last hd, by simp⟩

theorem OpensArguments.argument {offset : Nat}
    (hd : Derives (.expression (.chain .or) e) (bare used)) (h : OpensArguments front) :
    OpensArguments (used ++ ⟨.comma, offset⟩ :: front) := by
  obtain ⟨more, es, ts, hts, ht⟩ := h
  refine ⟨more, e :: es, _, .argument hd hts, ?_⟩
  simp [ht]

theorem Prolongs.opens (h : Prolongs level front)
    (hd : Derives (.expression level e) (bare used)) : Opens level (used ++ front) := by
  obtain ⟨more, e', hd'⟩ := h e (bare used) hd
  refine ⟨more, e', ?_⟩
  rwa [bare_append, List.append_assoc]

theorem Prolongs.append (used : List PlacedToken) (h : Prolongs level front)
    (hused : ∀ e before, Derives (.expression level e) before →
      ∃ e', Derives (.expression level e') (before ++ bare used)) :
    Prolongs level (used ++ front) := by
  intro e before hd
  obtain ⟨e', hd'⟩ := hused e before hd
  obtain ⟨more, e'', hd''⟩ := h e' _ hd'
  refine ⟨more, e'', ?_⟩
  rwa [bare_append, List.append_assoc, ← List.append_assoc]

end

/-! ### The readers -/

/-- The reading functions with some fuel, on tokens for which it is enough. -/
structure ReadsPredictably (stop fuel : Nat) : Prop where
  chain : ∀ o tokens, (Level.chain o).fuel tokens.length ≤ fuel →
    Predicts stop (readChain stop o) (Opens (.chain o)) fuel tokens
  more : ∀ o left tokens, 8 * tokens.length < fuel →
    Predicts stop (fun n => readMore stop o n left) (Prolongs (.chain o)) fuel tokens
  unary : ∀ tokens, Level.unary.fuel tokens.length ≤ fuel →
    Predicts stop (readUnary stop) (Opens .unary) fuel tokens
  steps : ∀ object tokens, 8 * tokens.length < fuel →
    Predicts stop (fun n => readSteps stop n object) (Prolongs .access) fuel tokens
  primary : ∀ tokens, Level.primary.fuel tokens.length ≤ fuel →
    Predicts stop (readPrimary stop) (Opens .primary) fuel tokens
  arguments : ∀ tokens, 8 * tokens.length + 7 ≤ fuel →
    Predicts stop (readArguments stop) OpensArguments fuel tokens

section

variable {stop fuel : Nat}

theorem readsPredictably_zero : ReadsPredictably stop 0 where
  chain o tokens h := absurd h (by simp [Level.fuel])
  more o left tokens h := absurd h (Nat.not_lt_zero _)
  unary tokens h := absurd h (by simp [Level.fuel])
  steps object tokens h := absurd h (Nat.not_lt_zero _)
  primary tokens h := absurd h (by simp [Level.fuel])
  arguments tokens h := absurd h (by simp)

variable (h : ReadsPredictably stop fuel)

include h

theorem ReadsPredictably.operand {o : BinaryOperator} {tokens : List PlacedToken}
    (hn : (Level.operand o).fuel tokens.length ≤ fuel) :
    Predicts stop (readOperand stop o) (Opens (.operand o)) fuel tokens := by
  cases o with
  | or => exact h.chain .and tokens hn
  | and => exact h.chain .add tokens hn
  | add => exact h.unary tokens hn

/-- A whole expression, between brackets or as an argument. -/
theorem ReadsPredictably.inner {tokens : List PlacedToken} (hn : 8 * tokens.length + 6 ≤ fuel) :
    Predicts stop (readOr stop) (Opens (.chain .or)) fuel tokens :=
  h.chain .or tokens (by simpa only [Level.fuel, Level.looseness] using hn)

theorem ReadsPredictably.chain_succ {o : BinaryOperator} {tokens : List PlacedToken}
    (hn : (Level.chain o).fuel tokens.length ≤ fuel + 1) :
    Predicts stop (readChain stop o) (Opens (.chain o)) (fuel + 1) tokens := by
  have hop := looseness_operand o
  simp only [Level.fuel] at hn
  have hfirst : Predicts stop (readOperand stop o) (Opens (.chain o)) fuel tokens :=
    (h.operand (by simp only [Level.fuel]; omega)).mono fun _ hfront => hfront.of_operand
  refine .step [] (fun _ _ hresult => by cases o <;> cases hresult)
    (fun _ _ _ => readChain_succ) not_endsInDot_nil
    (hfirst.bind (fun e n => readMore stop o n e) ?_)
  rintro e used rest rfl hread
  rw [List.length_append] at hn
  have hd := ((readsSoundly stop fuel).operand hread).derives
  exact (h.more o e rest (by omega)).mono fun _ hfront => hfront.opens (.operand hd)

theorem ReadsPredictably.more_succ {o : BinaryOperator} {left : Expression}
    {tokens : List PlacedToken} (hn : 8 * tokens.length < fuel + 1) :
    Predicts stop (fun n => readMore stop o n left) (Prolongs (.chain o)) (fuel + 1) tokens := by
  have hzero : ∀ ts result, readMore stop o 0 left ts ≠ .ok result :=
    fun _ _ hresult => by cases o <;> cases hresult
  have hle := looseness_le (.operand o)
  rcases begins_or_without o.token tokens with ⟨offset, tokens, rfl⟩ | ho
  · rw [List.length_cons] at hn
    have hright : Predicts stop (readOperand stop o)
        (fun front => Prolongs (.chain o) ([⟨o.token, offset⟩] ++ front)) fuel tokens :=
      (h.operand (by simp only [Level.fuel]; omega)).mono fun _ hfront => hfront.binary
    refine .step [⟨o.token, offset⟩] hzero (fun _ _ _ => readMore_operator) ?_
      (hright.bind (fun right n => readMore stop o n (.binary o left right)) ?_)
    · cases o <;> simp [EndsInDot, BinaryOperator.token]
    · rintro right used rest rfl hread
      rw [List.length_append] at hn
      have hd := ((readsSoundly stop fuel).operand hread).derives
      -- what stands on the left is longer now, so the rest has to go on from any expression
      refine (h.more o _ rest (by omega)).mono fun front hfront => ?_
      rw [← List.append_assoc]
      exact hfront.append _ fun e before he => ⟨_, .binary he hd⟩
  · exact .whole [] hzero (fun _ _ hsame => readMore_end (ho.of_head? hsame))
      not_endsInDot_nil

theorem ReadsPredictably.access {tokens : List PlacedToken}
    (hn : Level.access.fuel tokens.length ≤ fuel) :
    Predicts stop (readAccess stop) (Opens .access) fuel tokens := by
  simp only [Level.fuel, Level.looseness] at hn
  have hobject : Predicts stop (readPrimary stop) (Opens .access) fuel tokens :=
    (h.primary tokens (by simp only [Level.fuel, Level.looseness]; omega)).mono
      fun _ hfront => hfront.of_primary
  refine hobject.bind (fun object n => readSteps stop n object) ?_
  rintro object used rest rfl hread
  rw [List.length_append] at hn
  have hd := ((readsSoundly stop fuel).primary _ _ _ hread).derives
  exact (h.steps object rest (by omega)).mono fun _ hfront => hfront.opens (.primary hd)

theorem ReadsPredictably.unary_succ {tokens : List PlacedToken}
    (hn : Level.unary.fuel tokens.length ≤ fuel + 1) :
    Predicts stop (readUnary stop) (Opens .unary) (fuel + 1) tokens := by
  have hzero : ∀ ts result, readUnary stop 0 ts ≠ .ok result :=
    fun _ _ hresult => by cases hresult
  simp only [Level.fuel, Level.looseness] at hn
  rcases begins_or_without .bang tokens with ⟨offset, tokens, rfl⟩ | hbang
  · rw [List.length_cons] at hn
    have hinner : Predicts stop (readUnary stop)
        (fun front => Opens .unary ([⟨.bang, offset⟩] ++ front)) fuel tokens :=
      (h.unary tokens (by simp only [Level.fuel, Level.looseness]; omega)).mono
        fun _ hfront => hfront.not
    exact .step [⟨.bang, offset⟩] hzero (fun _ _ _ => readUnary_bang)
      (by simp [EndsInDot]) (hinner.map Expression.not)
  · have haccess : Predicts stop (readAccess stop) (Opens .unary) fuel tokens :=
      (h.access (by simp only [Level.fuel, Level.looseness]; omega)).mono
        fun _ hfront => hfront.positive
    exact .step [] hzero
      (fun _ _ hsame => readUnary_positive (hbang.of_head? hsame)) not_endsInDot_nil haccess

/-- After the point of a step a name is read, and without one the reader fails one token too far. -/
theorem ReadsPredictably.steps_dot {object : Expression} {offset : Nat}
    {tokens : List PlacedToken} (hn : 8 * (tokens.length + 1) < fuel + 1) :
    Predicts stop (fun n => readSteps stop n object) (Prolongs .access) (fuel + 1)
      ([⟨.dot, offset⟩] ++ tokens) := by
  have hzero : ∀ ts result, readSteps stop 0 object ts ≠ .ok result :=
    fun _ _ hresult => by cases hresult
  by_cases hname : ∃ name offset' more, tokens = ⟨.identifier name, offset'⟩ :: more
  · obtain ⟨name, offset', tokens, rfl⟩ := hname
    rw [List.length_cons] at hn
    have hsteps : Predicts stop (fun n => readSteps stop n (.member object name))
        (fun front => Prolongs .access ([⟨.dot, offset⟩, ⟨.identifier name, offset'⟩] ++ front))
        fuel tokens :=
      (h.steps _ tokens (by omega)).mono fun _ hfront =>
        hfront.append _ fun e before he => ⟨_, .member he⟩
    exact .step [⟨.dot, offset⟩, ⟨.identifier name, offset'⟩] hzero
      (fun _ _ _ => rfl) (by simp [EndsInDot]) hsteps
  · have hwithout : WithoutName tokens := by
      rintro ⟨token, offset'⟩ hp name rfl
      obtain ⟨more, rfl⟩ := List.head?_eq_some_iff.mp hp
      exact hname ⟨name, offset', more, rfl⟩
    have hplace : errorPlace stop [⟨.dot, offset⟩] tokens = nextOffset stop (tokens.drop 1) :=
      if_pos rfl
    -- the point is passed, and with a name after it the path would go on
    refine .fail [⟨.dot, offset⟩] (readSteps_dot hwithout) hplace.symm
      (fun e before he => ⟨[.identifier ['x']], _, .member he⟩) fun n ts result hsame hresult => ?_
    have hother : WithoutName ts := by
      intro p hp
      rw [hsame.head?] at hp
      exact hwithout p hp
    cases n with
    | zero => exact hzero _ _ hresult
    | succ n =>
      rw [List.singleton_append, readSteps_dot hother] at hresult
      cases hresult

theorem ReadsPredictably.steps_bracket {object : Expression} {offset : Nat}
    {tokens : List PlacedToken} (hn : 8 * (tokens.length + 1) < fuel + 1) :
    Predicts stop (fun n => readSteps stop n object) (Prolongs .access) (fuel + 1)
      ([⟨.bracketOpen, offset⟩] ++ tokens) := by
  have hposition : Predicts stop (readOr stop)
      (fun front => Prolongs .access ([⟨.bracketOpen, offset⟩] ++ front)) fuel tokens :=
    (h.inner (by omega)).mono fun _ hfront => hfront.index
  refine .step [⟨.bracketOpen, offset⟩] (fun _ _ hresult => by cases hresult)
    (fun _ _ _ => readSteps_bracket) (by simp [EndsInDot])
    (hposition.bind (fun position n ts => (expect stop .bracketClose ts).bind fun ts =>
      readSteps stop n (.index object position) ts) ?_)
  rintro position used rest rfl hread
  rw [List.length_append] at hn
  have hd := derives_of_readOr hread
  refine .expect (fun n => readSteps stop n (.index object position)) (fun _ _ _ => rfl)
    (by simp) ?_ ?_
  · rw [List.append_nil]
    exact Opens.index ⟨[], position, by simpa using hd⟩
  · rintro offset' more rfl
    rw [List.length_cons] at hn
    refine (h.steps _ more (by omega)).mono fun front hfront => ?_
    have hindex : ∀ e before, Derives (.expression .access e) before →
        ∃ e', Derives (.expression .access e')
          (before ++ bare (⟨.bracketOpen, offset⟩ :: (used ++ [⟨.bracketClose, offset'⟩]))) :=
      fun e before he => ⟨_, by simpa using Derives.index he hd⟩
    simpa using hfront.append _ hindex

theorem ReadsPredictably.steps_succ {object : Expression} {tokens : List PlacedToken}
    (hn : 8 * tokens.length < fuel + 1) :
    Predicts stop (fun n => readSteps stop n object) (Prolongs .access) (fuel + 1) tokens := by
  rcases begins_or_without .dot tokens with ⟨offset, tokens, rfl⟩ | hdot
  · exact h.steps_dot hn
  · rcases begins_or_without .bracketOpen tokens with ⟨offset, tokens, rfl⟩ | hbracket
    · exact h.steps_bracket hn
    · exact .whole [] (fun _ _ hresult => by cases hresult)
        (fun _ _ hsame => readSteps_end (hdot.of_head? hsame) (hbracket.of_head? hsame))
        not_endsInDot_nil

theorem ReadsPredictably.primary_paren {offset : Nat} {tokens : List PlacedToken}
    (hn : 8 * (tokens.length + 1) < fuel + 1) :
    Predicts stop (readPrimary stop) (Opens .primary) (fuel + 1)
      ([⟨.parenOpen, offset⟩] ++ tokens) := by
  have hinner : Predicts stop (readOr stop)
      (fun front => Opens .primary ([⟨.parenOpen, offset⟩] ++ front)) fuel tokens :=
    (h.inner (by omega)).mono fun _ hfront => hfront.paren
  refine .step [⟨.parenOpen, offset⟩] (fun _ _ hresult => by cases hresult)
    (fun _ _ _ => readPrimary_paren) (by simp [EndsInDot])
    (hinner.bind (fun inner _ ts => (expect stop .parenClose ts).bind fun ts =>
      .ok (inner, ts)) ?_)
  rintro inner used rest rfl hread
  have hd := derives_of_readOr hread
  refine .expect (fun _ ts => .ok (inner, ts)) (fun _ _ _ => rfl) (by simp) ?_ ?_
  · rw [List.append_nil]
    exact Opens.paren ⟨[], inner, by simpa using hd⟩
  · rintro offset' more rfl
    exact .stay rfl fun _ _ _ _ hresult => (Except.ok.inj hresult).symm

theorem ReadsPredictably.primary_operation {name : Text} {offset : Nat}
    {tokens : List PlacedToken} (hn : 8 * (tokens.length + 1) < fuel + 1) :
    Predicts stop (readPrimary stop) (Opens .primary) (fuel + 1)
      ([⟨.operation name, offset⟩] ++ tokens) := by
  have hzero : ∀ ts result, readPrimary stop 0 ts ≠ .ok result :=
    fun _ _ hresult => by cases hresult
  rcases begins_or_without .parenOpen tokens with ⟨offset', tokens, rfl⟩ | hopen
  · rcases begins_or_without .parenClose tokens with ⟨offset'', tokens, rfl⟩ | hclose
    · exact .whole [⟨.operation name, offset⟩, ⟨.parenOpen, offset'⟩, ⟨.parenClose, offset''⟩] hzero
        (fun _ _ _ => rfl) (by simp [EndsInDot])
    · rw [List.length_cons] at hn
      have harguments : Predicts stop (readArguments stop) (fun front => Opens .primary
          ([⟨.operation name, offset⟩, ⟨.parenOpen, offset'⟩] ++ front)) fuel tokens :=
        (h.arguments tokens (by omega)).mono fun _ hfront => hfront.call
      exact .step [⟨.operation name, offset⟩, ⟨.parenOpen, offset'⟩] hzero
        (fun _ _ hsame => readPrimary_call (hclose.of_head? hsame)) (by simp [EndsInDot])
        (harguments.map (Expression.call name))
  · exact .whole [⟨.operation name, offset⟩] hzero
      (fun _ _ hsame => readPrimary_operation (hopen.of_head? hsame)) (by simp [EndsInDot])

theorem ReadsPredictably.primary_succ {tokens : List PlacedToken}
    (hn : Level.primary.fuel tokens.length ≤ fuel + 1) :
    Predicts stop (readPrimary stop) (Opens .primary) (fuel + 1) tokens := by
  have hzero : ∀ ts result, readPrimary stop 0 ts ≠ .ok result :=
    fun _ _ hresult => by cases hresult
  simp only [Level.fuel, Level.looseness] at hn
  cases tokens with
  | nil =>
    refine .fail [] rfl (by rw [errorPlace_nil]; rfl) opens_nil_primary ?_
    rintro n other result ⟨p, more, more', hnil, -⟩
    cases hnil
  | cons p tokens =>
    obtain ⟨token, offset⟩ := p
    rw [List.length_cons] at hn
    have hoperand : ∀ e, token ≠ .dot →
        (∀ n ts, readPrimary stop (n + 1) (⟨token, offset⟩ :: ts) = .ok (e, ts)) →
        Predicts stop (readPrimary stop) (Opens .primary) (fuel + 1) (⟨token, offset⟩ :: tokens) :=
      fun e htoken hread => .whole [⟨token, offset⟩] hzero (fun n ts _ => hread n ts)
        (by simpa [EndsInDot] using htoken)
    have hnone : (∀ n ts, ∃ reason,
          readPrimary stop (n + 1) (⟨token, offset⟩ :: ts) = .error ⟨offset, reason⟩) →
        Predicts stop (readPrimary stop) (Opens .primary) (fuel + 1)
          (⟨token, offset⟩ :: tokens) := by
      intro hread
      obtain ⟨reason, hreason⟩ := hread fuel tokens
      refine .fail [] hreason (by rw [errorPlace_nil]; rfl) opens_nil_primary ?_
      rintro n _ result ⟨p, more, more', hp, rfl⟩ hresult
      cases hp
      cases n with
      | zero => exact hzero _ _ hresult
      | succ n =>
        obtain ⟨reason', hreason'⟩ := hread n more'
        rw [List.nil_append, hreason'] at hresult
        cases hresult
    cases token with
    | number x =>
      cases x with
      | none => exact hoperand (.literal .null) (by simp) fun _ _ => rfl
      | some x => exact hoperand (.literal (.ofFloat x)) (by simp) fun _ _ => rfl
    | string t quote => exact hoperand (.literal (.string t)) (by simp) fun _ _ => rfl
    | identifier name => exact hoperand (ofName name) (by simp) fun _ _ => rfl
    | template inside =>
      cases hp : TemplatePart.parse? inside with
      | none => exact hnone fun _ _ => ⟨_, by simp only [readPrimary, hp]; rfl⟩
      | some parts =>
        exact hoperand (.template parts) (by simp) fun _ _ => by simp only [readPrimary, hp]
    | property t =>
      cases hp : PropertyPath.parse? t with
      | none => exact hnone fun _ _ => ⟨_, by simp only [readPrimary, hp]; rfl⟩
      | some path =>
        exact hoperand (.property path) (by simp) fun _ _ => by simp only [readPrimary, hp]
    | parenOpen => exact h.primary_paren (by omega)
    | operation name => exact h.primary_operation (by omega)
    | _ => exact hnone fun _ _ => ⟨_, rfl⟩

theorem ReadsPredictably.arguments_succ {tokens : List PlacedToken}
    (hn : 8 * tokens.length + 7 ≤ fuel + 1) :
    Predicts stop (readArguments stop) OpensArguments (fuel + 1) tokens := by
  have hfirst : Predicts stop (readOr stop) OpensArguments fuel tokens :=
    (h.inner (by omega)).mono fun _ hfront => hfront.arguments
  refine .step [] (fun _ _ hresult => by cases hresult)
    (fun _ _ _ => readArguments_succ) not_endsInDot_nil
    (hfirst.bind (fun first n => readArgumentsAfter stop n first) ?_)
  rintro first used rest rfl hread
  rw [List.length_append] at hn
  have hd := derives_of_readOr hread
  rcases begins_or_without .comma rest with ⟨offset, rest, rfl⟩ | hcomma
  · rw [List.length_cons] at hn
    have hmore : Predicts stop (readArguments stop)
        (fun front => OpensArguments (used ++ ([⟨.comma, offset⟩] ++ front))) fuel rest :=
      (h.arguments rest (by omega)).mono fun _ hfront => hfront.argument hd
    exact .after [⟨.comma, offset⟩] rfl (fun n _ _ _ hresult => ⟨n, hresult⟩)
      (by simp [EndsInDot]) (hmore.map (first :: ·))
  · refine .expect (fun _ ts => .ok ([first], ts))
      (fun _ _ hsame => readArgumentsAfter_end (hcomma.of_head? hsame)) (by simp) ?_ ?_
    · rw [List.append_nil]
      exact Opens.arguments ⟨[], first, by simpa using hd⟩
    · rintro offset more rfl
      exact .stay rfl fun _ _ _ _ hresult => (Except.ok.inj hresult).symm

end

theorem readsPredictably (stop fuel : Nat) : ReadsPredictably stop fuel := by
  induction fuel with
  | zero => exact readsPredictably_zero
  | succ fuel h =>
    exact
      { chain := fun _ _ => h.chain_succ
        more := fun _ _ _ => h.more_succ
        unary := fun _ => h.unary_succ
        steps := fun _ _ => h.steps_succ
        primary := fun _ => h.primary_succ
        arguments := fun _ => h.arguments_succ }

end Grammar

end MarkdownDirectives
