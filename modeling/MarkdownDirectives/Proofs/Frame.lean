import MarkdownDirectives.Engine.Document

/-!
# The frame of evaluation

All expressions of a document share one context. Whatever an expression, an operation, an include or
a nested parse does, and whether it succeeds or fails, it leaves the settings of the context as they
were, and it changes the link table only by adding links at the end.

The proof has one lemma for each way to build a computation, so each function of the engine is
framed by going through its text; only `Eval.within` changes a setting on the way, and its lemma
asks that the change is undone.
-/

namespace MarkdownDirectives

/-! ### Contexts of one run -/

/-- A later context of the same run: the settings are the same and the links continue the earlier
ones. -/
structure Context.GrowsTo (before after : Context) : Prop where
  properties : after.properties = before.properties
  base : after.base = before.base
  options : after.options = before.options
  depth : after.depth = before.depth
  includes : after.includes = before.includes
  links : before.links.links <+: after.links.links

namespace Context.GrowsTo

theorem refl (context : Context) : context.GrowsTo context :=
  ⟨rfl, rfl, rfl, rfl, rfl, List.prefix_rfl⟩

theorem trans {first second third : Context} (h : first.GrowsTo second)
    (h' : second.GrowsTo third) : first.GrowsTo third where
  properties := h'.properties.trans h.properties
  base := h'.base.trans h.base
  options := h'.options.trans h.options
  depth := h'.depth.trans h.depth
  includes := h'.includes.trans h.includes
  links := h.links.trans h'.links

end Context.GrowsTo

/-! ### Running a sequence of computations -/

section

variable {σ α β : Type} {first : ExceptT Error (StateM σ) α}
  {next : α → ExceptT Error (StateM σ) β} {before after : σ}

theorem run_bind_of_ok {a : α} (h : first before = (.ok a, after)) :
    (first >>= next) before = next a after := by
  change ExceptT.bindCont next (first before).1 (first before).2 = _
  rw [h]
  rfl

theorem run_bind_of_error {e : Error} (h : first before = (.error e, after)) :
    (first >>= next) before = (.error e, after) := by
  change ExceptT.bindCont next (first before).1 (first before).2 = _
  rw [h]
  rfl

end

theorem bind_of_run {σ α β : Type} {first : StateM σ α} {next : α → StateM σ β}
    {before after : σ} {a : α} (h : first before = (a, after)) :
    (first >>= next) before = next a after := by
  change next (first before).1 (first before).2 = _
  rw [h]

namespace Eval

variable {α β : Type} {first : Eval α} {next : α → Eval β} {before after : Context}

theorem bind_of_ok {a : α} (h : first before = (.ok a, after)) :
    (first >>= next) before = next a after :=
  run_bind_of_ok h

theorem bind_of_error {e : Error} (h : first before = (.error e, after)) :
    (first >>= next) before = (.error e, after) :=
  run_bind_of_error h

/-- A computation that looks at the context first. -/
theorem get_bind (next : Context → Eval β) (context : Context) :
    (get >>= next) context = next context context := rfl

end Eval

/-! ### Framed computations -/

/-- A computation that leads from every context to a later one of the same run. -/
def Eval.Framed {α : Type} (action : Eval α) : Prop :=
  ∀ context : Context, context.GrowsTo (action context).2

namespace Eval.Framed

variable {α β : Type}

theorem growsTo {action : Eval α} {before after : Context} {r : Except Error α}
    (ha : Framed action) (h : action before = (r, after)) : before.GrowsTo after := by
  have hg := ha before
  rwa [h] at hg

theorem pure (a : α) : Framed (Pure.pure a : Eval α) := Context.GrowsTo.refl

theorem throw (e : Error) : Framed (MonadExcept.throw e : Eval α) := Context.GrowsTo.refl

theorem bind {first : Eval α} {next : α → Eval β} (hf : Framed first)
    (hn : ∀ a, Framed (next a)) : Framed (first >>= next) := by
  intro context
  rcases hr : first context with ⟨e | a, after⟩
  · rw [Eval.bind_of_error hr]
    exact hf.growsTo hr
  · rw [Eval.bind_of_ok hr]
    exact (hf.growsTo hr).trans (hn a after)

theorem get_bind {next : Context → Eval β} (hn : ∀ context, Framed (next context)) :
    Framed (get >>= next) :=
  bind Context.GrowsTo.refl hn

/-- A change on entry that is undone on leaving does not show. -/
theorem within {enter leave : Context → Context} {action : Eval α} (ha : Framed action)
    (undone : ∀ before after, (enter before).GrowsTo after → before.GrowsTo (leave after)) :
    Framed (Eval.within enter leave action) :=
  fun context => undone context _ (ha (enter context))

end Eval.Framed

/-! ### The link table -/

theorem LinkTable.prefix_giveAlias (table : LinkTable) (reference stem : Text) :
    table.links <+: (table.giveAlias reference stem).2.links := by
  by_cases hr : reference.trim = []
  · simp only [giveAlias_blank hr, List.prefix_rfl]
  cases hs : Alias.normalize? stem with
  | none =>
    simp only [giveAlias_invalid hr hs, List.prefix_rfl]
  | some word =>
    cases hk : table.aliasOf? reference.trim with
    | some name =>
      simp only [giveAlias_known hr hs hk, List.prefix_rfl]
    | none =>
      rw [giveAlias_new hr hs hk]
      exact List.prefix_append _ _

/-! ### Operations -/

theorem requestAlias_eq (reference stem : Text) (context : Context) :
    requestAlias reference stem context =
      ((context.links.giveAlias reference stem).1,
        { context with links := (context.links.giveAlias reference stem).2 }) := rfl

theorem requestAlias_framed (reference stem : Text) :
    Eval.Framed (requestAlias reference stem) :=
  fun context => ⟨rfl, rfl, rfl, rfl, rfl, context.links.prefix_giveAlias reference stem⟩

section

variable {world : World} {nested : Text → Eval Text}

theorem includeFile_framed (hn : ∀ t, Eval.Framed (nested t)) (reference : Text) :
    Eval.Framed (includeFile world nested reference) := by
  refine .get_bind fun context => ?_
  split
  · exact .throw _
  · split
    · exact .throw _
    · split
      · exact .throw _
      · split
        · refine .within (hn _) fun before after h => ?_
          exact ⟨h.properties, h.base, h.options, h.depth, by simp [h.includes], h.links⟩
        · exact .pure _

theorem perform_framed (hn : ∀ t, Eval.Framed (nested t)) (op : Operation)
    (arguments : List Value) : Eval.Framed (perform world nested op arguments) := by
  cases op with
  | format => exact .pure _
  | resolve => exact .get_bind fun context => .pure _
  | naming =>
    simp only [perform]
    split
    · exact .throw _
    · split
      · exact .throw _
      · exact .bind (requestAlias_framed _ _) fun name => .pure _
  | reference =>
    refine .get_bind fun context => ?_
    split
    · exact .pure _
    · exact .throw _
  | existence => exact .get_bind fun context => .pure _
  | inclusion => exact .bind (includeFile_framed hn _) fun t => .pure _
  | nesting => exact .bind (hn _) fun t => .pure _
  | timestamp => exact .get_bind fun context => .pure _
  | links => exact .get_bind fun context => .pure _
  | exception => exact .pure _

theorem invoke_framed (hn : ∀ t, Eval.Framed (nested t)) (name : Text) (arguments : List Value) :
    Eval.Framed (invoke world nested name arguments) := by
  unfold invoke
  split
  · exact .throw _
  · split
    · exact perform_framed hn _ _
    · exact .throw _

/-! ### Expressions -/

mutual

theorem evaluate_framed (hn : ∀ t, Eval.Framed (nested t)) (e : Expression) :
    Eval.Framed (evaluate world nested e) := by
  cases e with
  | literal value => exact .pure _
  | template parts =>
    refine .get_bind fun context => ?_
    split
    · exact .pure _
    · exact .throw _
  | property path =>
    refine .get_bind fun context => ?_
    split
    · exact .pure _
    · exact .throw _
  | this => exact .get_bind fun context => .pure _
  | identifier name => exact .throw _
  | operation name =>
    simp only [evaluate]
    split
    · exact .throw _
    · exact .throw _
  | call name arguments =>
    exact .bind (evaluateAll_framed hn arguments) fun values => invoke_framed hn _ _
  | member object name =>
    refine .bind (evaluate_framed hn object) fun value => ?_
    split
    · exact .pure _
    · exact .throw _
  | index object position =>
    refine .bind (evaluate_framed hn object) fun value => ?_
    refine .bind (evaluate_framed hn position) fun position => ?_
    split
    · exact .pure _
    · exact .throw _
  | not e => exact .bind (evaluate_framed hn e) fun value => .pure _
  | binary operator left right =>
    cases operator with
    | add =>
      exact .bind (evaluate_framed hn left) fun value =>
        .bind (evaluate_framed hn right) fun value' => .pure _
    | or =>
      refine .bind (evaluate_framed hn left) fun value => ?_
      split
      · exact .pure _
      · exact evaluate_framed hn right
    | and =>
      refine .bind (evaluate_framed hn left) fun value => ?_
      split
      · exact evaluate_framed hn right
      · exact .pure _

theorem evaluateAll_framed (hn : ∀ t, Eval.Framed (nested t)) (es : List Expression) :
    Eval.Framed (evaluateAll world nested es) := by
  cases es with
  | nil => exact .pure _
  | cons e more =>
    exact .bind (evaluate_framed hn e) fun value =>
      .bind (evaluateAll_framed hn more) fun values => .pure _

end

theorem evaluateText_framed (hn : ∀ t, Eval.Framed (nested t)) (t : Text) :
    Eval.Framed (evaluateText world nested t) := by
  unfold evaluateText
  split
  · exact evaluate_framed hn _
  · exact .throw _

/-! ### Documents -/

theorem generatedBody_eq {expression : Text} {before after : Context} {r : Except Error Value}
    (h : evaluateText world nested expression before = (r, after)) :
    generatedBody world nested expression before = (outcomeBody r, after) :=
  congrArg (fun p : Except Error Value × Context => (outcomeBody p.1, p.2)) h

theorem generatedBody_growsTo (hn : ∀ t, Eval.Framed (nested t)) (expression : Text)
    (context : Context) : context.GrowsTo (generatedBody world nested expression context).2 :=
  evaluateText_framed hn expression context

theorem renderDirective_growsTo (hn : ∀ t, Eval.Framed (nested t)) (d : Directive)
    (context : Context) : context.GrowsTo (renderDirective world nested d context).2 := by
  unfold renderDirective
  split
  · exact .refl context
  · split
    · exact .refl context
    · exact evaluateText_framed hn d.expression context

theorem renderFragments_growsTo (hn : ∀ t, Eval.Framed (nested t)) (fragments : List Fragment)
    (context : Context) :
    context.GrowsTo (renderFragments world nested fragments context).2 := by
  induction fragments generalizing context with
  | nil => exact .refl context
  | cons fragment more ih =>
    have hf : context.GrowsTo (renderFragment world nested fragment context).2 := by
      cases fragment with
      | text t => exact .refl context
      | directive d => exact renderDirective_growsTo hn d context
    exact hf.trans (ih _)

theorem render_framed (hn : ∀ t, Eval.Framed (nested t)) (source : Text) (isDocument : Bool) :
    Eval.Framed (render world nested source isDocument) := by
  refine .get_bind fun context => ?_
  split
  · exact .throw _
  · refine .bind (fun context => renderFragments_growsTo hn _ context) fun output => ?_
    exact .get_bind fun context => .pure _

end

theorem parseNested_framed (world : World) (levels : Nat) (source : Text) :
    Eval.Framed (parseNested world levels source) := by
  induction levels generalizing source with
  | zero => exact .get_bind fun context => .throw _
  | succ levels ih =>
    refine .within (render_framed ih source false) fun before after h => ?_
    exact ⟨h.properties, h.base, h.options, by simp [h.depth], h.includes, h.links⟩

theorem parsePart_framed (world : World) (source : Text) :
    Eval.Framed (parsePart world source) :=
  fun context => parseNested_framed world context.levels source context

theorem parse_framed (world : World) (source : Text) : Eval.Framed (parse world source) :=
  fun context => render_framed (parseNested_framed world context.levels) source true context

/-- Whatever the engine is asked to do in a context, and whether or not it fails, the context it
leaves is a later one of the same run. -/
theorem engine_growsTo (world : World) (context : Context) :
    (∀ e, context.GrowsTo (evaluate world (parsePart world) e context).2) ∧
    (∀ name arguments,
      context.GrowsTo (invoke world (parsePart world) name arguments context).2) ∧
    (∀ reference, context.GrowsTo (includeFile world (parsePart world) reference context).2) ∧
    (∀ source, context.GrowsTo (parsePart world source context).2) ∧
    (∀ d, context.GrowsTo (renderDirective world (parsePart world) d context).2) ∧
    ∀ source, context.GrowsTo (parse world source context).2 := by
  have hn := parsePart_framed world
  refine ⟨fun e => ?_, fun name arguments => ?_, fun reference => ?_, fun source => ?_,
    fun d => ?_, fun source => ?_⟩
  · exact evaluate_framed hn e context
  · exact invoke_framed hn name arguments context
  · exact includeFile_framed hn reference context
  · exact hn source context
  · exact renderDirective_growsTo hn d context
  · exact parse_framed world source context

end MarkdownDirectives
