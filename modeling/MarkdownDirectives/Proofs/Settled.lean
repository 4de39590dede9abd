import MarkdownDirectives.Proofs.Nesting

/-!
# Settled evaluation

A link table only grows, and a reference keeps its alias. An expression that neither shows the links
nor runs other documents therefore gives its result again in every later context of the run, and
then leaves the context alone: each alias that it asks for is in the table already. Looking up an
alias can fail and later succeed, so an expression that does this settles only where it succeeds.

The main statement is about a value that an expression has given once: it is given again after any
further evaluations, at any time, and no link is added for it.
-/

namespace MarkdownDirectives

/-! ### The link table -/

namespace LinkTable

variable {table table' later : LinkTable} {reference stem name : Text}

theorem aliasOf?_of_longer (h : table.aliasOf? reference = some name)
    (hp : table.links <+: later.links) : later.aliasOf? reference = some name := by
  rw [aliasOf?_eq] at h ⊢
  obtain ⟨more, hm⟩ := hp
  obtain ⟨link, hl, hn⟩ := Option.map_eq_some_iff.mp h
  rw [← hm, List.find?_append, hl, Option.some_or, Option.map_some, hn]

theorem referenceOf?_of_longer (h : table.referenceOf? name = some reference)
    (hp : table.links <+: later.links) : later.referenceOf? name = some reference := by
  rw [referenceOf?_eq] at h ⊢
  obtain ⟨more, hm⟩ := hp
  obtain ⟨link, hl, hn⟩ := Option.map_eq_some_iff.mp h
  rw [← hm, List.find?_append, hl, Option.some_or, Option.map_some, hn]

/-- A request that was answered or refused is so again, and then the table stays. -/
theorem giveAlias_of_longer (hp : (table.giveAlias reference stem).2.links <+: later.links) :
    later.giveAlias reference stem = ((table.giveAlias reference stem).1, later) := by
  by_cases hr : reference.trim = []
  · rw [giveAlias_blank hr, giveAlias_blank hr]
  cases hs : Alias.normalize? stem with
  | none => rw [giveAlias_invalid hr hs, giveAlias_invalid hr hs]
  | some word =>
    cases hk : table.aliasOf? reference.trim with
    | some name =>
      rw [giveAlias_known hr hs hk] at hp ⊢
      exact giveAlias_known hr hs (aliasOf?_of_longer hk hp)
    | none =>
      have hvalid := (Alias.normalize?_eq_some_iff.mp hs).2
      rw [giveAlias_new hr hs hk] at hp ⊢
      exact giveAlias_known hr hs (aliasOf?_of_longer (aliasOf?_record hvalid hk) hp)

theorem reference_of_longer {found : Text} (h : table.reference name = .ok found)
    (hp : table.links <+: later.links) : later.reference name = .ok found := by
  unfold reference at h ⊢
  split at h
  · cases h
  · split at h
    · next word _ r hr =>
      rw [referenceOf?_of_longer hr hp]
      exact h
    · cases h

end LinkTable

/-! ### Settled computations -/

/-- Run again in any later context of the run, the computation gives its result again and leaves
that context as it is. With `failures` this is asked of runs that fail as well. -/
structure Eval.Settled {α : Type} (failures : Bool) (action : Eval α) : Prop where
  framed : Framed action
  again : ∀ before r after later, action before = (r, after) →
    (failures = true ∨ r.isOk = true) → after.GrowsTo later → action later = (r, later)

namespace Eval.Settled

variable {α β : Type} {failures : Bool}

theorem pure (a : α) : Settled failures (Pure.pure a : Eval α) := by
  refine ⟨.pure a, fun before r after later h _ _ => ?_⟩
  cases h
  rfl

theorem throw (e : Error) : Settled failures (MonadExcept.throw e : Eval α) := by
  refine ⟨.throw e, fun before r after later h _ _ => ?_⟩
  cases h
  rfl

theorem bind {first : Eval α} {next : α → Eval β} (hf : Settled failures first)
    (hn : ∀ a, Settled failures (next a)) : Settled failures (first >>= next) := by
  refine ⟨.bind hf.framed fun a => (hn a).framed, fun before r after later h hok hl => ?_⟩
  rcases hr : first before with ⟨e | a, middle⟩
  · rw [Eval.bind_of_error hr] at h
    cases h
    have hfail : failures = true := hok.resolve_right Bool.false_ne_true
    exact Eval.bind_of_error (hf.again _ _ _ _ hr (.inl hfail) hl)
  · rw [Eval.bind_of_ok hr] at h
    have hg := ((hn a).framed.growsTo h).trans hl
    rw [Eval.bind_of_ok (hf.again _ _ _ _ hr (.inr rfl) hg)]
    exact (hn a).again _ _ _ _ h hok hl

/-- A computation that looks only at what stays the same. -/
theorem get_bind {next : Context → Eval β} (hn : ∀ context, Settled failures (next context))
    (same : ∀ before later, before.GrowsTo later → next later = next before) :
    Settled failures (get >>= next) := by
  refine ⟨.get_bind fun context => (hn context).framed, fun before r after later h hok hl => ?_⟩
  rw [Eval.get_bind] at h ⊢
  rw [same before later (((hn before).framed.growsTo h).trans hl)]
  exact (hn before).again _ _ _ _ h hok hl

end Eval.Settled

/-! ### What stays the same -/

namespace Context.GrowsTo

variable {before later : Context}

theorem property? (h : before.GrowsTo later) (name : Text) :
    later.property? name = before.property? name := by
  simp only [Context.property?, h.base, h.properties]

theorem lookup (h : before.GrowsTo later) (path : PropertyPath) :
    path.lookup later = path.lookup before := by
  unfold PropertyPath.lookup
  split
  · rw [h.property?]
  · rfl

theorem renderTemplate (h : before.GrowsTo later) (parts : List TemplatePart) :
    renderTemplate later parts = renderTemplate before parts := by
  induction parts with
  | nil => rfl
  | cons part more ih =>
    cases part with
    | text t => simp only [MarkdownDirectives.renderTemplate, ih]
    | interpolation path => simp only [MarkdownDirectives.renderTemplate, ih, h.lookup]

theorem resolve? (h : before.GrowsTo later) (world : World) (reference : Text) :
    later.resolve? world reference = before.resolve? world reference := by
  simp only [Context.resolve?, h.base]

end Context.GrowsTo

/-! ### Operations -/

theorem requestAlias_settled (failures : Bool) (reference stem : Text) :
    Eval.Settled failures (requestAlias reference stem) := by
  refine ⟨requestAlias_framed reference stem, fun before r after later h _ hl => ?_⟩
  rw [requestAlias_eq, Prod.mk.injEq] at h
  obtain ⟨hr, hc⟩ := h
  have hp := hl.links
  rw [← hc] at hp
  rw [requestAlias_eq, LinkTable.giveAlias_of_longer hp, hr]

/-- Whether the operation settles: it neither shows the links nor runs other documents, and if
failures count it does not look up an alias. -/
def Operation.settles (failures : Bool) : Operation → Bool
  | .reference => !failures
  | .links | .inclusion | .nesting => false
  | _ => true

section

variable {world : World} {nested : Text → Eval Text} {failures : Bool}

theorem perform_settled {op : Operation} (h : op.settles failures = true)
    (arguments : List Value) : Eval.Settled failures (perform world nested op arguments) := by
  cases op with
  | format => exact .pure _
  | resolve =>
    refine .get_bind (fun context => .pure _) fun before later hg => ?_
    simp only [Context.resolve, hg.resolve?]
  | naming =>
    simp only [perform]
    split
    · exact .throw _
    · split
      · exact .throw _
      · exact .bind (requestAlias_settled failures _ _) fun name => .pure _
  | reference =>
    cases failures with
    | true => cases h
    | false =>
      refine ⟨.get_bind fun context => ?_, fun before r after later hr hok hl => ?_⟩
      · split
        · exact .pure _
        · exact .throw _
      rw [perform, Eval.get_bind] at hr ⊢
      cases hb : before.links.reference (arguments.headD .null).text with
      | error e =>
        rw [hb] at hr
        cases hr
        rcases hok with hok | hok <;> cases hok
      | ok reference =>
        rw [hb] at hr
        cases hr
        rw [LinkTable.reference_of_longer hb hl.links]
        rfl
  | existence =>
    refine .get_bind (fun context => .pure _) fun before later hg => ?_
    simp only [Context.existing, Context.relative, hg.resolve?, hg.base]
  | timestamp =>
    refine .get_bind (fun context => .pure _) fun before later hg => ?_
    simp only [Context.timestamp, hg.options]
  | exception => exact .pure _
  | inclusion | nesting | links => cases h

theorem invoke_settled {name : Text}
    (h : ∀ op, Operation.ofName? name = some op → op.settles failures = true)
    (arguments : List Value) : Eval.Settled failures (invoke world nested name arguments) := by
  unfold invoke
  split
  · exact .throw _
  · next op ho =>
    split
    · exact perform_settled (h op ho) arguments
    · exact .throw _

end

/-! ### Expressions -/

mutual

/-- The names of the operations that an expression calls. -/
def Expression.called : Expression → List Text
  | .call name arguments => name :: calledByAll arguments
  | .member object _ => object.called
  | .index object position => object.called ++ position.called
  | .not e => e.called
  | .binary _ left right => left.called ++ right.called
  | _ => []

def calledByAll : List Expression → List Text
  | [] => []
  | e :: more => e.called ++ calledByAll more

end

/-- Whether all operations of the names settle. -/
def Settles (failures : Bool) (names : List Text) : Prop :=
  ∀ name ∈ names, ∀ op ∈ Operation.ofName? name, op.settles failures = true

instance (failures : Bool) (names : List Text) : Decidable (Settles failures names) :=
  inferInstanceAs
    (Decidable (∀ name ∈ names, ∀ op ∈ Operation.ofName? name, op.settles failures = true))

section

variable {world : World} {nested : Text → Eval Text} {failures : Bool}

theorem Settles.left {names names' : List Text} (h : Settles failures (names ++ names')) :
    Settles failures names :=
  fun name hn => h name (List.mem_append_left _ hn)

theorem Settles.right {names names' : List Text} (h : Settles failures (names ++ names')) :
    Settles failures names' :=
  fun name hn => h name (List.mem_append_right _ hn)

mutual

theorem evaluate_settled (e : Expression) (h : Settles failures e.called) :
    Eval.Settled failures (evaluate world nested e) := by
  cases e with
  | literal value => exact .pure _
  | template parts =>
    refine .get_bind (fun context => ?_) fun before later hg => by rw [hg.renderTemplate]
    split
    · exact .pure _
    · exact .throw _
  | property path =>
    refine .get_bind (fun context => ?_) fun before later hg => by rw [hg.lookup]
    split
    · exact .pure _
    · exact .throw _
  | this =>
    refine .get_bind (fun context => .pure _) fun before later hg => ?_
    simp only [Context.snapshot, hg.base, hg.properties]
  | identifier name => exact .throw _
  | operation name =>
    simp only [evaluate]
    split
    · exact .throw _
    · exact .throw _
  | call name arguments =>
    rw [Expression.called] at h
    exact .bind (evaluateAll_settled arguments fun n hm => h n (List.mem_cons_of_mem _ hm))
      fun values => invoke_settled (h name (List.mem_cons_self ..)) values
  | member object name =>
    rw [Expression.called] at h
    refine .bind (evaluate_settled object h) fun value => ?_
    split
    · exact .pure _
    · exact .throw _
  | index object position =>
    rw [Expression.called] at h
    refine .bind (evaluate_settled object h.left) fun value => ?_
    refine .bind (evaluate_settled position h.right) fun position => ?_
    split
    · exact .pure _
    · exact .throw _
  | not e =>
    rw [Expression.called] at h
    exact .bind (evaluate_settled e h) fun value => .pure _
  | binary operator left right =>
    rw [Expression.called] at h
    have hl : Eval.Settled failures (evaluate world nested left) := evaluate_settled left h.left
    have hr : Eval.Settled failures (evaluate world nested right) := evaluate_settled right h.right
    cases operator with
    | add => exact .bind hl fun value => .bind hr fun value' => .pure _
    | or =>
      refine .bind hl fun value => ?_
      split
      · exact .pure _
      · exact hr
    | and =>
      refine .bind hl fun value => ?_
      split
      · exact hr
      · exact .pure _

theorem evaluateAll_settled (es : List Expression) (h : Settles failures (calledByAll es)) :
    Eval.Settled failures (evaluateAll world nested es) := by
  cases es with
  | nil => exact .pure _
  | cons e more =>
    rw [calledByAll] at h
    exact .bind (evaluate_settled e h.left) fun value =>
      .bind (evaluateAll_settled more h.right) fun values => .pure _

end

/-- Whether the expression, if it is one, only calls operations that settle. -/
def SettlesText (failures : Bool) (t : Text) : Prop :=
  ∀ e, Expression.parse t = .ok e → Settles failures e.called

instance (failures : Bool) (t : Text) : Decidable (SettlesText failures t) :=
  match h : Expression.parse t with
  | .ok e => decidable_of_iff (Settles failures e.called)
    ⟨fun hs _ he => Except.ok.inj (h.symm.trans he) ▸ hs, fun hs => hs e h⟩
  | .error _ => isTrue fun _ he => nomatch h.symm.trans he

theorem evaluateText_settled {t : Text} (h : SettlesText failures t) :
    Eval.Settled failures (evaluateText world nested t) := by
  unfold evaluateText
  split
  · next e he => exact evaluate_settled e (h e he)
  · exact .throw _

/-- A body is generated again in any later context, which stays as it is. -/
theorem generatedBody_again {expression body : Text} {before after later : Context}
    (h : SettlesText true expression)
    (hg : generatedBody world nested expression before = (body, after))
    (hl : after.GrowsTo later) : generatedBody world nested expression later = (body, later) := by
  rcases he : evaluateText world nested expression before with ⟨r, c⟩
  have hb := generatedBody_eq he
  rw [hg] at hb
  cases hb
  exact generatedBody_eq ((evaluateText_settled h).again _ _ _ _ he (.inl rfl) hl)

end

/-! ### After further evaluations -/

/-- The second context is left by an evaluation in the first one, of any expression and at any time,
whether or not it fails. -/
def Evaluates (world : World) (before after : Context) : Prop :=
  ∃ now e, (evaluate (world.at now) (parsePart (world.at now)) e before).2 = after

theorem growsTo_of_evaluates {world : World} {before after : Context}
    (h : Relation.ReflTransGen (Evaluates world) before after) : before.GrowsTo after := by
  induction h with
  | refl => exact .refl before
  | tail _ hs ih =>
    obtain ⟨now, e, rfl⟩ := hs
    exact ih.trans (evaluate_framed (parsePart_framed (world.at now)) e _)

/-- With a fixed stamp the clock does not matter to an evaluation. -/
theorem evaluate_at {world : World} (now : Int) (e : Expression) {context : Context}
    (h : context.options.timestamp.isSome) :
    evaluate world (parsePart world) e context =
      evaluate (world.at now) (parsePart (world.at now)) e context := by
  have hn := parsePart_framed world
  refine evaluate_agree hn e ⟨fun t c hr => parsePart_at now t ?_, .inr h⟩
  have ho := (Calls.settings_of_chain hn hr).1
  exact ho ▸ h

theorem Operation.name_of_ofName? {name : Text} {op : Operation} (h : ofName? name = some op) :
    op.name = name := by
  unfold ofName? at h
  exact beq_iff_eq.mp (List.find?_some h :)

theorem settles_of_not_called {names : List Text}
    (h : ∀ op ∈ [Operation.links, .inclusion, .nesting], op.name ∉ names) :
    Settles false names := by
  intro name hn op ho
  have hname : op.name ∈ names := by
    rw [Operation.name_of_ofName? ho]
    exact hn
  cases op with
  | links | inclusion | nesting => exact absurd hname (h _ (by decide))
  | _ => rfl

/-- An expression that calls neither `@links` nor `@include` nor `@parse` and has given a value
gives it again after any further evaluations, and then it leaves the context alone. -/
theorem evaluate_stable {world : World} {e : Expression} {value : Value}
    {context after later : Context}
    (hc : ∀ op ∈ [Operation.links, .inclusion, .nesting], op.name ∉ e.called)
    (ht : context.options.timestamp.isSome)
    (he : evaluate world (parsePart world) e context = (.ok value, after))
    (hl : Relation.ReflTransGen (Evaluates world) after later) (now : Int) :
    evaluate (world.at now) (parsePart (world.at now)) e later = (.ok value, later) := by
  have hs : Eval.Settled false (evaluate world (parsePart world) e) :=
    evaluate_settled e (settles_of_not_called hc)
  have hg : after.GrowsTo later := growsTo_of_evaluates hl
  have hlater : later.options.timestamp.isSome := by
    rw [((hs.framed.growsTo he).trans hg).options]
    exact ht
  rw [← evaluate_at now e hlater]
  exact hs.again _ _ _ _ he (.inr rfl) hg

/-- Asks for an alias and leads it back to its reference. -/
def backAndForth : Expression :=
  .call "ref".toList [.call "alias".toList [.literal (.string ['a'])]]

def blankAlias : Expression := .call "alias".toList [.literal (.string [' '])]

def otherAlias : Expression := .call "alias".toList [.literal (.string ['b'])]

def quietWorld : World := ⟨⟨[]⟩, [], 0⟩

def quietContext : Context := Context.new quietWorld [] ['/'] { timestamp := some ['T'] }

theorem evaluate_backAndForth :
    ∃ after later,
      evaluate quietWorld (parsePart quietWorld) backAndForth quietContext =
          (.ok (.string ['a']), after) ∧
        Relation.ReflTransGen (Evaluates quietWorld) after later ∧
        later.links.render = "[link-1]: a\n[link-2]: b\n".toList ∧
        evaluate (quietWorld.at 1) (parsePart (quietWorld.at 1)) backAndForth later =
          (.ok (.string ['a']), later) := by
  let run : Expression → Context → Except Error Value × Context :=
    evaluate (quietWorld.at 0) (parsePart (quietWorld.at 0))
  let after := (run backAndForth quietContext).2
  -- a refused request, and one that adds a link
  let later := (run otherAlias (run blankAlias after).2).2
  have he : evaluate quietWorld (parsePart quietWorld) backAndForth quietContext =
      (.ok (.string ['a']), after) := rfl
  have hl : Relation.ReflTransGen (Evaluates quietWorld) after later :=
    .tail (.single ⟨0, blankAlias, rfl⟩) ⟨0, otherAlias, rfl⟩
  exact ⟨after, later, he, hl, by decide +kernel,
    evaluate_stable (by decide) rfl he hl 1⟩

end MarkdownDirectives
