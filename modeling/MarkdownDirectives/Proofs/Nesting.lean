import Mathlib.Logic.Relation
import MarkdownDirectives.Proofs.Frame

/-!
# Nested evaluation

The texts that nested parses work on come from files, properties and computed values, so no measure
of a document bounds them. This module names the calls that the engine makes on its way, each at the
context in which it is made. A call within one parse is smaller in rank or in its expression, and a
nested parse that is entered leaves fewer levels, so the calls are well founded. Along them the
files being included stay distinct, and no more of them are open than parses are nested.

The functions of the engine depend on nested parses only at the calls named here. Hence the nested
parse, which is defined by the levels left, solves the equation without levels, and it is the only
function that does.
-/

namespace MarkdownDirectives

open Relation (ReflTransGen)

/-! ### Calls -/

/-- What the engine can be asked to do. -/
inductive Call where
  | render (source : Text) (isDocument : Bool)
  /-- An envelope whose expression is evaluated. -/
  | directive (d : Directive)
  | evaluate (e : Expression)
  | invoke (name : Text) (arguments : List Value)
  | inclusion (reference : Text)
  | parse (source : Text)

/-- A call and the context in which it is made. -/
abbrev Moment := Call × Context

/-- Whether a binary operator asks for its right operand after the value of the left one. -/
def BinaryOperator.needsRight : BinaryOperator → Value → Bool
  | .add, _ => true
  | .or, value => !value.isTruthy
  | .and, value => value.isTruthy

/-- The context of a file that is being included. -/
def Context.including (context : Context) (path : Path) : Context :=
  { context with includes := path :: context.includes }

/-- The context one level deeper. -/
def Context.deeper (context : Context) : Context := { context with depth := context.depth + 1 }

/-- The second moment is a call that the first makes on its way, short of the inside of nested
parses. -/
inductive Calls (world : World) (nested : Text → Eval Text) : Moment → Moment → Prop
  | directive {source isDocument before d after context} :
    split context.options.unterminated (Text.normalizeLineBreaks source) =
      .ok (before ++ .directive d :: after) →
    d.isLiteral = false → d.isDiscard = false →
    Calls world nested (.render source isDocument, context)
      (.directive d, (renderFragments world nested before context).2)
  | expression {d e context} : Expression.parse d.expression = .ok e →
    Calls world nested (.directive d, context) (.evaluate e, context)
  | argument {name before e after values context context'} :
    evaluateAll world nested before context = (.ok values, context') →
    Calls world nested (.evaluate (.call name (before ++ e :: after)), context)
      (.evaluate e, context')
  | call {name arguments values context context'} :
    evaluateAll world nested arguments context = (.ok values, context') →
    Calls world nested (.evaluate (.call name arguments), context) (.invoke name values, context')
  | member {object name context} :
    Calls world nested (.evaluate (.member object name), context) (.evaluate object, context)
  | object {object position context} :
    Calls world nested (.evaluate (.index object position), context) (.evaluate object, context)
  | position {object position value context context'} :
    evaluate world nested object context = (.ok value, context') →
    Calls world nested (.evaluate (.index object position), context)
      (.evaluate position, context')
  | not {e context} : Calls world nested (.evaluate (.not e), context) (.evaluate e, context)
  | left {operator left right context} :
    Calls world nested (.evaluate (.binary operator left right), context) (.evaluate left, context)
  | right {operator left right value context context'} :
    evaluate world nested left context = (.ok value, context') →
    operator.needsRight value = true →
    Calls world nested (.evaluate (.binary operator left right), context)
      (.evaluate right, context')
  | inclusion {name value context} : Operation.ofName? name = some .inclusion →
    Calls world nested (.invoke name [value], context) (.inclusion value.text, context)
  | nesting {name value context} : Operation.ofName? name = some .nesting →
    Calls world nested (.invoke name [value], context) (.parse value.display, context)
  | file {reference path content context} : context.resolve? world reference = some path →
    path ∉ context.includes → world.read path = .ok content → hasDirectives content = true →
    Calls world nested (.inclusion reference, context) (.parse content, context.including path)

/-- The calls of the whole engine: those within one parse, and the text of a nested parse within the
limit, one level deeper. -/
inductive Enters (world : World) : Moment → Moment → Prop
  | within {first second} : Calls world (parsePart world) first second → Enters world first second
  | nested {source context} : context.depth < context.options.maxDepth →
    Enters world (.parse source, context) (.render source false, context.deeper)

/-! ### Contexts along calls -/

section

variable {world : World} {nested : Text → Eval Text} {first second : Call}
  {context context' : Context}

/-- A call is made in a later context of the run, or it is the parse of a file that has been put
on the stack. -/
theorem Calls.growsTo (hn : ∀ t, Eval.Framed (nested t))
    (h : Calls world nested (first, context) (second, context')) :
    context.GrowsTo context' ∨
      ∃ path content, second = .parse content ∧ path ∉ context.includes ∧
        context' = context.including path := by
  cases h with
  | directive => exact .inl (renderFragments_growsTo hn _ context)
  | argument hv => exact .inl ((evaluateAll_framed hn _).growsTo hv)
  | call hv => exact .inl ((evaluateAll_framed hn _).growsTo hv)
  | position hv => exact .inl ((evaluate_framed hn _).growsTo hv)
  | right hv => exact .inl ((evaluate_framed hn _).growsTo hv)
  | file _ hp => exact .inr ⟨_, _, rfl, hp, rfl⟩
  | _ => exact .inl (.refl context)

/-- Within one parse the options and the depth stay. -/
theorem Calls.settings (hn : ∀ t, Eval.Framed (nested t))
    (h : Calls world nested (first, context) (second, context')) :
    context'.options = context.options ∧ context'.depth = context.depth := by
  rcases h.growsTo hn with hg | ⟨path, content, -, -, rfl⟩
  · exact ⟨hg.options, hg.depth⟩
  · exact ⟨rfl, rfl⟩

end

/-! ### Well-foundedness -/

/-- How many kinds of calls can still follow within one parse. -/
def Call.rank : Call → Nat
  | .render _ _ => 5
  | .directive _ => 4
  | .evaluate _ => 3
  | .invoke _ _ => 2
  | .inclusion _ => 1
  | .parse _ => 0

noncomputable def Call.size : Call → Nat
  | .evaluate e => sizeOf e
  | _ => 0

/-- The levels left, the rank of the call, and the size of its expression. -/
noncomputable def Moment.measure (moment : Moment) : Nat × Nat × Nat :=
  (moment.2.levels, moment.1.rank, moment.1.size)

theorem Calls.rank_size {world : World} {nested : Text → Eval Text} {first second : Call}
    {context context' : Context} (h : Calls world nested (first, context) (second, context')) :
    Prod.Lex (· < ·) (· < ·) (second.rank, second.size) (first.rank, first.size) := by
  cases h with
  | @argument name before e after =>
    refine .right _ ?_
    have hs : sizeOf e < sizeOf (before ++ e :: after) :=
      List.sizeOf_lt_of_mem (List.mem_append_right _ (List.mem_cons_self ..))
    simp only [Call.size, Expression.call.sizeOf_spec]
    omega
  | member | object | position | not | left | right =>
    refine .right _ ?_
    simp only [Call.size, Expression.member.sizeOf_spec, Expression.index.sizeOf_spec,
      Expression.not.sizeOf_spec, Expression.binary.sizeOf_spec]
    omega
  | _ => exact .left _ _ (by simp [Call.rank])

theorem Enters.measure {world : World} {first second : Moment} (h : Enters world first second) :
    Prod.Lex (· < ·) (Prod.Lex (· < ·) (· < ·)) second.measure first.measure := by
  cases h with
  | within hc =>
    have hs := hc.settings (parsePart_framed world)
    have hl : second.2.levels = first.2.levels := by
      simp only [Context.levels, hs.1, hs.2]
    unfold Moment.measure
    rw [hl]
    exact .right _ hc.rank_size
  | nested hd =>
    refine .left _ _ ?_
    simp only [Context.levels, Context.deeper]
    omega

/-- No chain of calls goes on forever. -/
theorem enters_wellFounded (world : World) :
    WellFounded fun callee caller => Enters world caller callee := by
  have hw : WellFounded (Prod.Lex (· < · : Nat → Nat → Prop)
      (Prod.Lex (· < · : Nat → Nat → Prop) (· < · : Nat → Nat → Prop))) :=
    (Prod.lex ⟨_, Nat.lt_wfRel.wf⟩ (Prod.lex ⟨_, Nat.lt_wfRel.wf⟩ ⟨_, Nat.lt_wfRel.wf⟩)).wf
  exact Subrelation.wf Enters.measure (InvImage.wf Moment.measure hw)

/-! ### What a run depends on -/

/-- From this moment on, two functions for nested parses agree on every call within one parse, and
the clock does not matter at the other instant either. -/
structure Agree (world : World) (now : Int) (nested nested' : Text → Eval Text)
    (moment : Moment) : Prop where
  parse : ∀ source context, ReflTransGen (Calls world nested) moment (.parse source, context) →
    nested source context = nested' source context
  clock : world.now = now ∨ moment.2.options.timestamp.isSome

/-- The world at another instant. -/
def World.at (world : World) (now : Int) : World := { world with now := now }

theorem Context.timestamp_at {world : World} {now : Int} {context : Context}
    (h : world.now = now ∨ context.options.timestamp.isSome) :
    context.timestamp (world.at now) = context.timestamp world := by
  rcases h with rfl | h
  · rfl
  · obtain ⟨stamp, hs⟩ := Option.isSome_iff_exists.mp h
    simp only [Context.timestamp, hs, Option.getD_some]

section

variable {world : World} {now : Int} {nested nested' : Text → Eval Text}

theorem Agree.step (hn : ∀ t, Eval.Framed (nested t)) {first second : Moment}
    (h : Agree world now nested nested' first) (hc : Calls world nested first second) :
    Agree world now nested nested' second where
  parse source context hr := h.parse source context (.head hc hr)
  clock := by
    rw [(hc.settings hn).1]
    exact h.clock

theorem Eval.bind_congr {α β : Type} {first first' : Eval α} {next next' : α → Eval β}
    {context : Context} (hf : first context = first' context)
    (hn : ∀ a after, first context = (.ok a, after) → next a after = next' a after) :
    (first >>= next) context = (first' >>= next') context := by
  rcases hr : first context with ⟨e | a, after⟩
  · rw [bind_of_error hr, bind_of_error (hf ▸ hr)]
  · rw [bind_of_ok hr, bind_of_ok (hf ▸ hr), hn a after hr]

theorem Eval.within_congr {α : Type} {enter leave : Context → Context} {action action' : Eval α}
    {context : Context} (h : action (enter context) = action' (enter context)) :
    within enter leave action context = within enter leave action' context := by
  simp only [within, h]

/-- Files are the same at another instant. -/
theorem includeFile_at : includeFile (world.at now) nested = includeFile world nested := rfl

theorem includeFile_agree {reference : Text} {context : Context}
    (h : Agree world now nested nested' (.inclusion reference, context)) :
    includeFile world nested reference context =
      includeFile (world.at now) nested' reference context := by
  rw [includeFile_at]
  refine Eval.bind_congr rfl fun before after hb => ?_
  cases hb
  cases hr : context.resolve? world reference with
  | none => rfl
  | some path =>
    by_cases hp : path ∈ context.includes
    · simp only [List.contains_iff_mem, hp, ite_true]
    · simp only [List.contains_iff_mem, hp, ite_false]
      cases hc : world.read path with
      | error e => rfl
      | ok content =>
        by_cases hd : hasDirectives content = true
        · simp only [hd, ite_true]
          have hs : Calls world nested (.inclusion reference, context)
            (.parse content, context.including path) := .file hr hp hc hd
          exact Eval.within_congr (h.parse content _ (.single hs))
        · simp only [hd]
          rfl

theorem perform_agree {name : Text} {op : Operation} {arguments : List Value} {context : Context}
    (ho : Operation.ofName? name = some op) (ha : op.accepts arguments.length = true)
    (h : Agree world now nested nested' (.invoke name arguments, context))
    (hn : ∀ t, Eval.Framed (nested t)) :
    perform world nested op arguments context =
      perform (world.at now) nested' op arguments context := by
  have single : op.arity = (1, 1) → ∃ value, arguments = [value] := by
    intro hx
    simp only [Operation.accepts, hx, Bool.and_eq_true, decide_eq_true_eq] at ha
    exact List.length_eq_one_iff.mp (by omega)
  cases op with
  | timestamp =>
    refine Eval.bind_congr rfl fun before after hb => ?_
    cases hb
    rw [Context.timestamp_at h.clock]
  | inclusion =>
    obtain ⟨value, rfl⟩ := single rfl
    exact Eval.bind_congr (includeFile_agree (h.step hn (.inclusion ho))) fun t after _ => rfl
  | nesting =>
    obtain ⟨value, rfl⟩ := single rfl
    exact Eval.bind_congr (h.parse _ _ (.single (.nesting ho))) fun t after _ => rfl
  | _ => rfl

theorem invoke_agree {name : Text} {arguments : List Value} {context : Context}
    (h : Agree world now nested nested' (.invoke name arguments, context))
    (hn : ∀ t, Eval.Framed (nested t)) :
    invoke world nested name arguments context =
      invoke (world.at now) nested' name arguments context := by
  unfold invoke
  cases ho : Operation.ofName? name with
  | none => rfl
  | some op =>
    by_cases ha : op.accepts arguments.length = true
    · simp only [ha, ite_true]
      exact perform_agree ho ha h hn
    · simp only [ha]
      rfl

mutual

theorem evaluate_agree (hn : ∀ t, Eval.Framed (nested t)) (e : Expression) {context : Context}
    (h : Agree world now nested nested' (.evaluate e, context)) :
    evaluate world nested e context = evaluate (world.at now) nested' e context := by
  cases e with
  | call name arguments =>
    refine Eval.bind_congr (evaluateAll_agree hn arguments fun before e after values context' he hv
      => ?_) fun values after hv => ?_
    · subst he
      exact h.step hn (.argument hv)
    · exact invoke_agree (h.step hn (.call hv)) hn
  | member object name =>
    exact Eval.bind_congr (evaluate_agree hn object (h.step hn .member)) fun value after _ => rfl
  | index object position =>
    refine Eval.bind_congr (evaluate_agree hn object (h.step hn .object)) fun value after hv => ?_
    exact Eval.bind_congr (evaluate_agree hn position (h.step hn (.position hv)))
      fun value after _ => rfl
  | not e => exact Eval.bind_congr (evaluate_agree hn e (h.step hn .not)) fun value after _ => rfl
  | binary operator left right =>
    have hl := evaluate_agree hn left (h.step hn .left)
    cases operator with
    | add =>
      refine Eval.bind_congr hl fun value after hv => ?_
      exact Eval.bind_congr (evaluate_agree hn right (h.step hn (.right hv rfl)))
        fun value after _ => rfl
    | or =>
      refine Eval.bind_congr hl fun value after hv => ?_
      by_cases ht : value.isTruthy = true
      · simp only [ht, ite_true]
      · have hr : BinaryOperator.needsRight .or value = true := by
          simpa [BinaryOperator.needsRight] using ht
        simp only [ht]
        exact evaluate_agree hn right (h.step hn (.right hv hr))
    | and =>
      refine Eval.bind_congr hl fun value after hv => ?_
      by_cases ht : value.isTruthy = true
      · simp only [ht, ite_true]
        exact evaluate_agree hn right (h.step hn (.right hv ht))
      · simp only [ht]
        rfl
  | _ => rfl

theorem evaluateAll_agree (hn : ∀ t, Eval.Framed (nested t)) (es : List Expression)
    {context : Context}
    (h : ∀ before e after values context', es = before ++ e :: after →
      evaluateAll world nested before context = (.ok values, context') →
      Agree world now nested nested' (.evaluate e, context')) :
    evaluateAll world nested es context = evaluateAll (world.at now) nested' es context := by
  cases es with
  | nil => rfl
  | cons e more =>
    refine Eval.bind_congr (evaluate_agree hn e (h [] e more [] context rfl rfl))
      fun value middle hv => ?_
    refine Eval.bind_congr (evaluateAll_agree hn more fun before e' after values context' he hv' =>
      h (e :: before) e' after (value :: values) context' (by rw [he]; rfl) ?_)
      fun values after _ => rfl
    exact (Eval.bind_of_ok hv).trans (Eval.bind_of_ok hv')

end

theorem evaluateText_agree (hn : ∀ t, Eval.Framed (nested t)) {d : Directive} {context : Context}
    (h : Agree world now nested nested' (.directive d, context)) :
    evaluateText world nested d.expression context =
      evaluateText (world.at now) nested' d.expression context := by
  unfold evaluateText
  cases he : Expression.parse d.expression with
  | error e => rfl
  | ok e => exact evaluate_agree hn e (h.step hn (.expression he))

theorem renderFragment_agree (hn : ∀ t, Eval.Framed (nested t)) {fragment : Fragment}
    {context : Context}
    (h : ∀ d, fragment = .directive d → d.isLiteral = false → d.isDiscard = false →
      Agree world now nested nested' (.directive d, context)) :
    renderFragment world nested fragment context =
      renderFragment (world.at now) nested' fragment context := by
  cases fragment with
  | text t => rfl
  | directive d =>
    simp only [renderFragment]
    cases hl : d.isLiteral with
    | true => rw [renderDirective_literal hl, renderDirective_literal hl]
    | false =>
      cases hd : d.isDiscard with
      | true => rw [renderDirective_discard hl hd, renderDirective_discard hl hd]
      | false =>
        have he := evaluateText_agree hn (h d rfl hl hd)
        have hb : generatedBody world nested d.expression context =
            generatedBody (world.at now) nested' d.expression context :=
          generatedBody_eq he
        rw [renderDirective_evaluated hl hd, renderDirective_evaluated hl hd, hb]

theorem renderFragments_agree (hn : ∀ t, Eval.Framed (nested t)) (fragments : List Fragment)
    {context : Context}
    (h : ∀ before d after, fragments = before ++ .directive d :: after →
      d.isLiteral = false → d.isDiscard = false → Agree world now nested nested'
        (.directive d, (renderFragments world nested before context).2)) :
    renderFragments world nested fragments context =
      renderFragments (world.at now) nested' fragments context := by
  induction fragments generalizing context with
  | nil => rfl
  | cons fragment more ih =>
    have hf : renderFragment world nested fragment context =
        renderFragment (world.at now) nested' fragment context :=
      renderFragment_agree hn fun d hd => h [] d more (by rw [hd]; rfl)
    have hm := @ih (renderFragment world nested fragment context).2 fun before d after hd =>
      h (fragment :: before) d after (by rw [hd]; rfl)
    simp only [renderFragments_cons, ← hf, hm]

theorem render_agree (hn : ∀ t, Eval.Framed (nested t)) {source : Text} {isDocument : Bool}
    {context : Context}
    (h : Agree world now nested nested' (.render source isDocument, context)) :
    render world nested source isDocument context =
      render (world.at now) nested' source isDocument context := by
  cases hs : split context.options.unterminated (Text.normalizeLineBreaks source) with
  | error e => rw [render_of_error hs, render_of_error hs]
  | ok fragments =>
    have hf := renderFragments_agree hn fragments fun before d after hd hl hm =>
      h.step hn (.directive (hd ▸ hs) hl hm)
    have hg : context.GrowsTo (renderFragments world nested fragments context).2 :=
      renderFragments_growsTo hn fragments context
    have ht := Context.timestamp_at (hg.options ▸ h.clock)
    rw [render_of_ok hs, render_of_ok hs, ← hf]
    simp only [Context.footer, ht]

end

/-! ### Parses without levels -/

/-- A nested parse written with the function for the parses nested in it. -/
def nestedParse (world : World) (f : Text → Eval Text) (source : Text) : Eval Text := fun context =>
  if context.depth < context.options.maxDepth then
    Eval.within Context.deeper (fun c => { c with depth := c.depth - 1 })
      (render world f source false) context
  else (.error (.recursionLimit context.options.maxDepth), context)

section

variable {world : World}

theorem Calls.settings_of_chain {nested : Text → Eval Text} (hn : ∀ t, Eval.Framed (nested t))
    {first second : Moment} (h : ReflTransGen (Calls world nested) first second) :
    second.2.options = first.2.options ∧ second.2.depth = first.2.depth := by
  induction h with
  | refl => exact ⟨rfl, rfl⟩
  | tail _ hc ih =>
    have hs := hc.settings hn
    exact ⟨hs.1.trans ih.1, hs.2.trans ih.2⟩

theorem Calls.levels {nested : Text → Eval Text} (hn : ∀ t, Eval.Framed (nested t))
    {first second : Moment} (h : ReflTransGen (Calls world nested) first second) :
    second.2.levels = first.2.levels := by
  have hs := Calls.settings_of_chain hn h
  simp only [Context.levels, hs.1, hs.2]

theorem render_parsePart {levels : Nat} {source : Text} {isDocument : Bool} {context : Context}
    (hl : context.levels = levels) :
    render world (parseNested world levels) source isDocument context =
      render world (parsePart world) source isDocument context := by
  have hn := parseNested_framed world levels
  have ha : Agree world world.now (parseNested world levels) (parsePart world)
      (.render source isDocument, context) := by
    refine ⟨fun t c hr => ?_, .inl rfl⟩
    have hc : c.levels = context.levels := Calls.levels hn hr
    simp only [parsePart, hc, hl]
  exact render_agree hn ha

theorem parse_eq (source : Text) (context : Context) :
    parse world source context = render world (parsePart world) source true context :=
  render_parsePart rfl

theorem Context.levels_deeper {context : Context} {levels : Nat}
    (h : context.levels = levels + 1) : context.deeper.levels = levels := by
  simp only [Context.levels, Context.deeper] at h ⊢
  omega

theorem parsePart_eq (source : Text) (context : Context) :
    parsePart world source context = nestedParse world (parsePart world) source context := by
  unfold nestedParse
  cases hl : context.levels with
  | zero =>
    have hd : ¬ context.depth < context.options.maxDepth := by
      simp only [Context.levels] at hl
      omega
    simp only [parsePart, hl, hd, ite_false]
    rfl
  | succ levels =>
    have hd : context.depth < context.options.maxDepth := by
      simp only [Context.levels] at hl
      omega
    simp only [parsePart, hl, hd, ite_true]
    exact Eval.within_congr (render_parsePart (Context.levels_deeper hl))

/-- Only one function is the nested parse of the texts nested in it. -/
theorem parsePart_unique {f : Text → Eval Text}
    (hf : ∀ source context, f source context = nestedParse world f source context) :
    f = parsePart world := by
  have key : ∀ levels source context, Context.levels context = levels →
      parsePart world source context = f source context := by
    intro levels
    induction levels with
    | zero =>
      intro source context hl
      have hd : ¬ context.depth < context.options.maxDepth := by
        simp only [Context.levels] at hl
        omega
      rw [hf, parsePart_eq]
      simp only [nestedParse, hd, ite_false]
    | succ levels ih =>
      intro source context hl
      rw [hf, parsePart_eq]
      unfold nestedParse
      split
      · have hn := parsePart_framed world
        have ha : Agree world world.now (parsePart world) f
            (.render source false, context.deeper) := by
          refine ⟨fun t c hr => ?_, .inl rfl⟩
          have hc : c.levels = context.deeper.levels := Calls.levels hn hr
          exact ih t c (hc.trans (Context.levels_deeper hl))
        exact Eval.within_congr (render_agree hn ha)
      · rfl
  funext source context
  exact (key context.levels source context rfl).symm

/-! ### Fixed stamps -/

/-- With a fixed stamp the clock does not matter to nested parses. -/
theorem parsePart_at (now : Int) (source : Text) {context : Context}
    (h : context.options.timestamp.isSome) :
    parsePart world source context = parsePart (world.at now) source context := by
  have key : ∀ levels source (context : Context), context.options.timestamp.isSome →
      parseNested world levels source context =
        parseNested (world.at now) levels source context := by
    intro levels
    induction levels with
    | zero => exact fun _ _ _ => rfl
    | succ levels ih =>
      intro source context h
      have hn := parseNested_framed world levels
      have ha : Agree world now (parseNested world levels) (parseNested (world.at now) levels)
          (.render source false, context.deeper) := by
        refine ⟨fun t c hr => ih t c ?_, .inr h⟩
        have ho := (Calls.settings_of_chain hn hr).1
        exact ho ▸ h
      exact Eval.within_congr (render_agree hn ha)
  exact key context.levels source context h

/-- With a fixed stamp the clock does not matter to the parse of a document. -/
theorem parse_at (now : Int) (source : Text) {context : Context}
    (h : context.options.timestamp.isSome) :
    parse world source context = parse (world.at now) source context := by
  have hn := parsePart_framed world
  rw [parse_eq, parse_eq]
  refine render_agree hn ⟨fun t c hr => parsePart_at now t ?_, .inr h⟩
  have ho := (Calls.settings_of_chain hn hr).1
  exact ho ▸ h

/-! ### The stack of files -/

/-- How many files may be open at a depth: a file about to be parsed is on the stack already. -/
def Call.room : Call → Nat → Nat
  | .parse _, depth => depth + 1
  | _, depth => depth

/-- The files being included are distinct, no more of them are open than parses are nested, and the
nesting is within the limit. -/
structure Moment.Bounded (moment : Moment) : Prop where
  nodup : moment.2.includes.Nodup
  open_le : moment.2.includes.length ≤ moment.1.room moment.2.depth
  depth_le : moment.2.depth ≤ moment.2.options.maxDepth

theorem Call.le_room (call : Call) (depth : Nat) : depth ≤ call.room depth := by
  cases call <;> simp [Call.room]

theorem Calls.room_eq {nested : Text → Eval Text} {first : Call} {context : Context}
    {second : Moment} (h : Calls world nested (first, context) second) (depth : Nat) :
    first.room depth = depth := by
  cases h <;> rfl

theorem Enters.bounded {first second : Moment} (h : Enters world first second)
    (hb : first.Bounded) : second.Bounded := by
  cases h with
  | within hc =>
    have hroom := hb.open_le
    rw [hc.room_eq] at hroom
    obtain ⟨call, context'⟩ := second
    rcases hc.growsTo (parsePart_framed world) with hg | ⟨path, content, hcall, hp, hcontext⟩
    · refine ⟨?_, ?_, ?_⟩
      · rw [hg.includes]
        exact hb.nodup
      · rw [hg.includes, hg.depth]
        exact Nat.le_trans hroom (call.le_room _)
      · rw [hg.depth, hg.options]
        exact hb.depth_le
    · subst hcall hcontext
      refine ⟨List.nodup_cons.mpr ⟨hp, hb.nodup⟩, ?_, hb.depth_le⟩
      simpa [Context.including, Call.room] using hroom
  | nested hd => exact ⟨hb.nodup, hb.open_le, hd⟩

theorem reachable_bounded {first second : Moment} (h : ReflTransGen (Enters world) first second)
    (hb : first.Bounded) : second.Bounded := by
  induction h with
  | refl => exact hb
  | tail _ hs ih => exact hs.bounded ih

theorem Enters.options {first second : Moment} (h : Enters world first second) :
    second.2.options = first.2.options := by
  cases h with
  | within hc => exact (hc.settings (parsePart_framed world)).1
  | nested hd => rfl

theorem reachable_options {first second : Moment} (h : ReflTransGen (Enters world) first second) :
    second.2.options = first.2.options := by
  induction h with
  | refl => rfl
  | tail _ hs ih => exact hs.options.trans ih

theorem parsePart_of_limit {source : Text} {context : Context}
    (h : context.options.maxDepth ≤ context.depth) :
    parsePart world source context =
      (.error (.recursionLimit context.options.maxDepth), context) := by
  rw [parsePart_eq, nestedParse, if_neg (by omega)]

theorem no_call_of_limit {source : Text} {context : Context} {second : Moment}
    (h : context.options.maxDepth ≤ context.depth) :
    ¬ Enters world (.parse source, context) second := by
  intro he
  cases he with
  | within hc => cases hc
  | nested hd => omega

theorem includeFile_of_open {nested : Text → Eval Text} {reference : Text} {path : Path}
    {context : Context} (hr : context.resolve? world reference = some path)
    (hp : path ∈ context.includes) :
    includeFile world nested reference context = (.error (.includeCycle reference), context) := by
  unfold includeFile
  rw [Eval.get_bind, hr]
  simp only [List.contains_iff_mem, hp, ite_true]
  rfl

end

/-- At every call for a nested parse within one parse from this moment on, the function answers as
the nested parse does. -/
def AnswersNested (world : World) (f : Text → Eval Text) (moment : Moment) : Prop :=
  ∀ t context, ReflTransGen (Calls world (parsePart world)) moment (.parse t, context) →
    parsePart world t context = f t context

theorem AnswersNested.agree {world : World} {f : Text → Eval Text} {moment : Moment}
    (h : AnswersNested world f moment) : Agree world world.now (parsePart world) f moment :=
  ⟨h, .inl rfl⟩

/-- Nested evaluation comes to an end and stays bounded, whatever the files and the properties hold:
no chain of calls is infinite, and exactly one function answers the parses nested in it; inclusion,
evaluation and a parse ask this function at the calls only, each at the context named there; when an
envelope is evaluated in a parse from a fresh context, the files being included are distinct, no
more than the depth, and the depth is within the limit; at the limit a nested parse fails without a
call, and a file on the stack is not included again. -/
theorem nesting_bounded (world : World) (properties : Fields) (base : Path)
    (options : ParseOptions) (source : Text) :
    (WellFounded fun callee caller => Enters world caller callee) ∧
    (∀ f : Text → Eval Text,
      (∀ t context, f t context = nestedParse world f t context) ↔ f = parsePart world) ∧
    (∀ context, parse world source context = render world (parsePart world) source true context) ∧
    (∀ (f : Text → Eval Text) (context : Context),
      (∀ reference, AnswersNested world f (.inclusion reference, context) →
        includeFile world f reference context =
          includeFile world (parsePart world) reference context) ∧
      (∀ e, AnswersNested world f (.evaluate e, context) →
        evaluate world f e context = evaluate world (parsePart world) e context) ∧
      ∀ t isDocument, AnswersNested world f (.render t isDocument, context) →
        render world f t isDocument context =
          render world (parsePart world) t isDocument context) ∧
    (∀ d context, ReflTransGen (Enters world)
        (.render source true, Context.new world properties base options)
        (.directive d, context) →
      context.includes.Nodup ∧ context.includes.length ≤ context.depth ∧
        context.depth ≤ options.maxDepth) ∧
    (∀ t context, context.options.maxDepth ≤ context.depth →
      parsePart world t context =
          (.error (.recursionLimit context.options.maxDepth), context) ∧
        ∀ moment, ¬ Enters world (.parse t, context) moment) ∧
    ∀ reference path context, context.resolve? world reference = some path →
      path ∈ context.includes →
      includeFile world (parsePart world) reference context =
        (.error (.includeCycle reference), context) := by
  have hn := parsePart_framed world
  refine ⟨enters_wellFounded world, fun f => ⟨parsePart_unique, ?_⟩, parse_eq source,
    fun f context => ⟨?_, ?_, ?_⟩, ?_, ?_, ?_⟩
  · rintro rfl t context
    exact parsePart_eq t context
  · intro reference h
    exact (includeFile_agree h.agree).symm
  · intro e h
    exact (evaluate_agree hn e h.agree).symm
  · intro t isDocument h
    exact (render_agree hn h.agree).symm
  · intro d context hr
    have hb := reachable_bounded hr ⟨List.nodup_nil, Nat.le_refl 0, Nat.zero_le _⟩
    have ho : context.options = options := reachable_options hr
    exact ⟨hb.nodup, hb.open_le, ho ▸ hb.depth_le⟩
  · intro t context hd
    exact ⟨parsePart_of_limit hd, fun moment => no_call_of_limit hd⟩
  · intro reference path context hr hp
    exact includeFile_of_open hr hp

/-! ### A document that includes itself -/

def loopSource : Text := "<? @include('loop.md') ?>\n<?!>".toList

def loopWorld : World := ⟨⟨[(["loop.md".toList], .file (.text loopSource))]⟩, [], 0⟩

def loopContext : Context := Context.new loopWorld [] ['/'] {}

def loopPath : Path := "/loop.md".toList

def loopDirective : Directive :=
  ⟨loopSource, "@include('loop.md')".toList, ['\n'], .raw, 1, true⟩

def loopTokens : List PlacedToken :=
  [⟨.operation "include".toList, 0⟩, ⟨.parenOpen, 8⟩, ⟨.string "loop.md".toList '\'', 9⟩,
    ⟨.parenClose, 18⟩]

theorem tokenize_loopDirective :
    Token.tokenize loopDirective.expression = .ok loopTokens := by
  have h : (Token.tokenize loopDirective.expression).toOption = some loopTokens := by
    decide +kernel
  cases ht : Token.tokenize loopDirective.expression with
  | error e =>
    rw [ht] at h
    cases h
  | ok tokens =>
    rw [ht] at h
    cases h
    rfl

theorem parse_loopDirective :
    Expression.parse loopDirective.expression =
      .ok (.call "include".toList [.literal (.string "loop.md".toList)]) := by
  rw [Expression.parse, tokenize_loopDirective]
  rfl

/-- Every parse of the document comes to its envelope. -/
theorem enters_loopDirective {isDocument : Bool} {context : Context}
    (h : context.options.unterminated = .absorb) :
    Enters loopWorld (.render loopSource isDocument, context)
      (.directive loopDirective, context) := by
  have hs : split context.options.unterminated (Text.normalizeLineBreaks loopSource) =
      .ok ([] ++ .directive loopDirective :: []) := by
    rw [h]
    rfl
  exact .within (.directive hs rfl rfl)

theorem loop_reachable :
    ReflTransGen (Enters loopWorld) (.render loopSource true, loopContext)
      (.directive loopDirective, (loopContext.including loopPath).deeper) := by
  have ho : Operation.ofName? "include".toList = some .inclusion := by decide +kernel
  have hp : loopContext.resolve? loopWorld "loop.md".toList = some loopPath := by decide +kernel
  have hr : loopWorld.read loopPath = .ok loopSource := rfl
  have hd : hasDirectives loopSource = true := by decide +kernel
  have hl : loopContext.depth < loopContext.options.maxDepth := by decide
  refine .head (enters_loopDirective rfl) ?_
  refine .head (.within (.expression parse_loopDirective)) ?_
  refine .head (.within (.call rfl)) ?_
  refine .head (.within (.inclusion ho)) ?_
  refine .head (.within (.file hp List.not_mem_nil hr hd)) ?_
  refine .head (.nested hl) ?_
  exact .single (enters_loopDirective rfl)

theorem nesting_bounded_loop :
    (loopContext.including loopPath).deeper.includes.Nodup ∧
      includeFile loopWorld (parsePart loopWorld) "loop.md".toList
          (loopContext.including loopPath).deeper =
        (.error (.includeCycle "loop.md".toList), (loopContext.including loopPath).deeper) := by
  obtain ⟨-, -, -, -, hb, -, hc⟩ := nesting_bounded loopWorld [] ['/'] {} loopSource
  have hp : (loopContext.including loopPath).deeper.resolve? loopWorld "loop.md".toList =
      some loopPath := by
    decide +kernel
  exact ⟨(hb _ _ loop_reachable).1, hc _ _ _ hp (List.mem_cons_self ..)⟩

end MarkdownDirectives
