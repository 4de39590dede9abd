import MarkdownDirectives.Engine.Document
import MarkdownDirectives.Proofs.Frame
import MarkdownDirectives.Proofs.Grammar
import MarkdownDirectives.Proofs.WholeNumbers

/-!
# Shorthand and its long form

A property path is shorthand for selecting one part after the other from `this`, and a template is
shorthand for adding texts and formatted paths. The shorthands have evaluations of their own: paths
look into the properties, where the long form makes one object of them, and a position in a path is
a number that the long form computes. Both forms have the same value and leave the same context, and
if one fails, so does the other; the errors may differ, as they name the value that was looked into.
-/

namespace MarkdownDirectives

/-! ### The long form -/

namespace Expression

/-- What the digits of a position are read as. -/
def positionValue (position : Nat) : Value :=
  Grammar.numberValue (Token.numberOf (Text.ofNat position))

/-- Selects a segment of a value. -/
def select (e : Expression) : Segment → Expression
  | .key name => .index e (.literal (.string name))
  | .index position => .index e (.literal (positionValue position))

/-- The long form of a path; every path that is read begins with a key. -/
def ofPath : PropertyPath → Expression
  | .key head :: more => more.foldl select (select .this (.key head))
  | path => .property path

def ofPart : TemplatePart → Expression
  | .text t => .literal (.string t)
  | .interpolation path => .call "format".toList [ofPath path]

/-- The long form of a template, which begins with the empty text. -/
def ofTemplate (parts : List TemplatePart) : Expression :=
  parts.foldl (fun e part => .binary .add e (ofPart part)) (.literal (.string []))

mutual

/-- The expression with its long forms in the place of shorthands. -/
def desugar : Expression → Expression
  | .template parts => ofTemplate parts
  | .property path => ofPath path
  | .call name es => .call name (desugarAll es)
  | .member e name => .member (desugar e) name
  | .index e position => .index (desugar e) (desugar position)
  | .not e => .not (desugar e)
  | .binary o left right => .binary o (desugar left) (desugar right)
  | e => e

def desugarAll : List Expression → List Expression
  | [] => []
  | e :: more => desugar e :: desugarAll more

end

end Expression

/-! ### Positions below a bound -/

/-- The positions of the path are below the bound. -/
def PropertyPath.Below (bound : Nat) (path : PropertyPath) : Prop :=
  ∀ position, .index position ∈ path → position < bound

namespace Expression

mutual

/-- The positions of all paths in the expression are below the bound. -/
def Below (bound : Nat) : Expression → Prop
  | .template parts => ∀ path, .interpolation path ∈ parts → PropertyPath.Below bound path
  | .property path => PropertyPath.Below bound path
  | .call _ es => AllBelow bound es
  | .member e _ => Below bound e
  | .index e position => Below bound e ∧ Below bound position
  | .not e => Below bound e
  | .binary _ left right => Below bound left ∧ Below bound right
  | _ => True

def AllBelow (bound : Nat) : List Expression → Prop
  | [] => True
  | e :: more => Below bound e ∧ AllBelow bound more

end

end Expression

/-! ### Results up to the error -/

/-- Both give the same or both fail, and they leave the same context. -/
def SameResult {α : Type} (x y : Except Error α × Context) : Prop :=
  x.1.toOption = y.1.toOption ∧ x.2 = y.2

theorem ok_or_error_of_toOption_eq {ε α : Type} {x y : Except ε α}
    (h : x.toOption = y.toOption) :
    (∃ a, x = .ok a ∧ y = .ok a) ∨ ∃ e e', x = .error e ∧ y = .error e' := by
  cases x with
  | error e => cases y with
    | error e' => exact .inr ⟨e, e', rfl, rfl⟩
    | ok b => cases h
  | ok a => cases y with
    | error e' => cases h
    | ok b =>
      cases h
      exact .inl ⟨a, rfl, rfl⟩

namespace SameResult

variable {α β : Type}

theorem refl (x : Except Error α × Context) : SameResult x x := ⟨rfl, rfl⟩

theorem bind {f g : Eval α} {next next' : α → Eval β} {context : Context}
    (h : SameResult (f context) (g context))
    (hn : ∀ a after, SameResult (next a after) (next' a after)) :
    SameResult ((f >>= next) context) ((g >>= next') context) := by
  rcases hf : f context with ⟨result, after⟩
  rcases hg : g context with ⟨result', after'⟩
  rw [hf, hg] at h
  obtain ⟨hr, rfl⟩ := h
  rcases ok_or_error_of_toOption_eq hr with ⟨a, rfl, rfl⟩ | ⟨e, e', rfl, rfl⟩
  · rw [Eval.bind_of_ok hf, Eval.bind_of_ok hg]
    exact hn a after
  · rw [Eval.bind_of_error hf, Eval.bind_of_error hg]
    exact ⟨rfl, rfl⟩

end SameResult

/-! ### Selecting -/

theorem Fields.get?_insert (key name : Text) (value : Value) (fields : Fields) :
    get? name (insert key value fields) = if name = key then some value else get? name fields := by
  induction fields with
  | nil => simp only [insert, get?, eq_comm]
  | cons field rest ih =>
    obtain ⟨k, v⟩ := field
    unfold insert
    by_cases hk : key = k
    · subst hk
      by_cases hn : name = key
      · simp [get?, hn]
      · simp [get?, hn, Ne.symm hn]
    · by_cases hlt : key < k
      · simp only [hk, hlt, if_false, if_true, get?, eq_comm]
      · simp only [hk, hlt, if_false]
        by_cases hn : name = k
        · subst hn
          simp [get?, Ne.symm hk]
        · simp [get?, Ne.symm hn, ih]

/-- A property of the context is a field of the object of all properties, the base path included. -/
theorem Context.select_snapshot (context : Context) (target head : Text) :
    (context.snapshot.select target (.key head)).toOption = context.property? head := by
  unfold snapshot property?
  rw [Value.select, Fields.get?_insert]
  split
  · rfl
  · cases Fields.get? head context.properties <;> rfl

/-- Which part is selected does not depend on how the value is named. -/
theorem Value.select_toOption (value : Value) (segment : Segment) (target target' : Text) :
    (value.select target segment).toOption = (value.select target' segment).toOption := by
  have hmissing : ∀ property part, (select.orMissing target property part).toOption =
      (select.orMissing target' property part).toOption := by
    intro property part
    cases part <;> rfl
  cases value <;> cases segment <;> simp only [select, hmissing]

section

variable {world : World} {nested : Text → Eval Text} {e : Expression} {context after : Context}

theorem evaluate_property (path : PropertyPath) :
    evaluate world nested (.property path) context = (path.lookup context, context) := by
  rw [evaluate, Eval.get_bind]
  cases path.lookup context <;> rfl

theorem evaluate_template (parts : List TemplatePart) :
    evaluate world nested (.template parts) context =
      ((renderTemplate context parts).map Value.string, context) := by
  rw [evaluate, Eval.get_bind]
  cases renderTemplate context parts <;> rfl

theorem evaluate_index {position value : Value}
    (h : evaluate world nested e context = (.ok value, after)) :
    evaluate world nested (.index e (.literal position)) context =
      (value.select value.kind position.toSegment, after) := by
  have hposition : evaluate world nested (.literal position) after = (.ok position, after) := rfl
  rw [evaluate, Eval.bind_of_ok h, Eval.bind_of_ok hposition]
  cases value.select value.kind position.toSegment <;> rfl

theorem evaluate_index_error {position : Expression} {x : Error}
    (h : evaluate world nested e context = (.error x, after)) :
    evaluate world nested (.index e position) context = (.error x, after) := by
  rw [evaluate, Eval.bind_of_error h]

theorem Expression.toSegment_positionValue {position : Nat} (h : position < 2 ^ 53) :
    (positionValue position).toSegment = .index position := by
  rw [positionValue, Token.numberOf_ofNat h]
  exact Value.toSegment_ofInt h

theorem evaluate_select {segment : Segment} {value : Value}
    (hs : ∀ position, segment = .index position → position < 2 ^ 53)
    (h : evaluate world nested e context = (.ok value, after)) :
    evaluate world nested (e.select segment) context =
      (value.select value.kind segment, after) := by
  cases segment with
  | key name => exact evaluate_index h
  | index position =>
    rw [Expression.select, evaluate_index h, Expression.toSegment_positionValue (hs position rfl)]

theorem evaluate_select_error {segment : Segment} {x : Error}
    (h : evaluate world nested e context = (.error x, after)) :
    evaluate world nested (e.select segment) context = (.error x, after) := by
  cases segment <;> exact evaluate_index_error h

/-- A failure goes through everything that is built around it. -/
theorem evaluate_foldl_error {α : Type} {f : Expression → α → Expression} {x : Error}
    (hf : ∀ e a, evaluate world nested e context = (.error x, after) →
      evaluate world nested (f e a) context = (.error x, after))
    (h : evaluate world nested e context = (.error x, after)) (as : List α) :
    evaluate world nested (as.foldl f e) context = (.error x, after) := by
  induction as generalizing e with
  | nil => exact h
  | cons a as ih => exact ih (hf e a h)

/-! ### Paths -/

/-- Following the steps of a path and selecting one after the other. -/
theorem sameResult_follow {more : List Segment} (hm : PropertyPath.Below (2 ^ 53) more)
    {value : Value} (h : evaluate world nested e context = (.ok value, after)) (walked : Text) :
    SameResult (PropertyPath.follow walked value more, after)
      (evaluate world nested (more.foldl Expression.select e) context) := by
  induction more generalizing e value walked with
  | nil =>
    rw [List.foldl_nil, h]
    exact .refl _
  | cons segment more ih =>
    have hsegment : ∀ position, segment = .index position → position < 2 ^ 53 :=
      fun position hp => hm position (hp ▸ List.mem_cons_self ..)
    have hmore : PropertyPath.Below (2 ^ 53) more :=
      fun position hp => hm position (List.mem_cons_of_mem _ hp)
    have hselect := evaluate_select hsegment h
    rw [List.foldl_cons, PropertyPath.follow]
    rcases ok_or_error_of_toOption_eq (value.select_toOption segment walked value.kind) with
      ⟨part, hw, hk⟩ | ⟨x, x', hw, hk⟩
    · rw [hw]
      exact ih hmore (hk ▸ hselect) _
    · -- the long form goes on after the failing step, but every later step passes the error on
      rw [hk] at hselect
      rw [hw, evaluate_foldl_error (fun e a => evaluate_select_error) hselect more]
      exact ⟨rfl, rfl⟩

/-- A path and its long form. -/
theorem sameResult_ofPath {path : PropertyPath} (h : PropertyPath.Below (2 ^ 53) path) :
    SameResult (path.lookup context, context)
      (evaluate world nested (.ofPath path) context) := by
  have hleft : ∀ path : PropertyPath, SameResult (path.lookup context, context)
      (evaluate world nested (.property path) context) := by
    intro path
    rw [evaluate_property]
    exact .refl _
  cases path with
  | nil => exact hleft []
  | cons segment more =>
    cases segment with
    | index position => exact hleft (.index position :: more)
    | key head =>
      have hmore : PropertyPath.Below (2 ^ 53) more :=
        fun position hp => h position (List.mem_cons_of_mem _ hp)
      have hthis : evaluate world nested .this context = (.ok context.snapshot, context) := rfl
      have hhead : evaluate world nested (Expression.this.select (.key head)) context =
          (context.snapshot.select context.snapshot.kind (.key head), context) :=
        evaluate_select (fun _ hp => by cases hp) hthis
      have hfound := context.select_snapshot context.snapshot.kind head
      rw [PropertyPath.lookup, Expression.ofPath]
      cases hs : context.snapshot.select context.snapshot.kind (.key head) with
      | ok value =>
        rw [hs] at hhead hfound
        have hvalue : context.property? head = some value := hfound.symm
        rw [hvalue]
        exact sameResult_follow hmore hhead head
      | error x =>
        rw [hs] at hhead hfound
        have hvalue : context.property? head = none := hfound.symm
        rw [hvalue, evaluate_foldl_error (fun e a => evaluate_select_error) hhead more]
        exact ⟨rfl, rfl⟩

/-! ### Templates -/

theorem evaluate_add {left right : Expression} {s t : Text}
    (hl : evaluate world nested left context = (.ok (.string s), context))
    (hr : evaluate world nested right context = (.ok (.string t), context)) :
    evaluate world nested (.binary .add left right) context =
      (.ok (.string (s ++ t)), context) := by
  rw [evaluate, Eval.bind_of_ok hl, Eval.bind_of_ok hr]
  rfl

theorem evaluate_add_error {left right : Expression} {x : Error}
    (hl : evaluate world nested left context = (.error x, context)) :
    evaluate world nested (.binary .add left right) context = (.error x, context) := by
  rw [evaluate, Eval.bind_of_error hl]

theorem evaluate_add_error_right {left right : Expression} {value : Value} {x : Error}
    (hl : evaluate world nested left context = (.ok value, context))
    (hr : evaluate world nested right context = (.error x, context)) :
    evaluate world nested (.binary .add left right) context = (.error x, context) := by
  rw [evaluate, Eval.bind_of_ok hl, Eval.bind_of_error hr]

theorem evaluate_format {value : Value}
    (h : evaluate world nested e context = (.ok value, context)) :
    evaluate world nested (.call "format".toList [e]) context =
      (.ok (.string value.format), context) := by
  have hvalues : evaluateAll world nested [e] context = (.ok [value], context) := by
    rw [evaluateAll, Eval.bind_of_ok h]
    rfl
  rw [evaluate, Eval.bind_of_ok hvalues]
  rfl

theorem evaluate_format_error {x : Error}
    (h : evaluate world nested e context = (.error x, context)) :
    evaluate world nested (.call "format".toList [e]) context = (.error x, context) := by
  have hvalues : evaluateAll world nested [e] context = (.error x, context) := by
    rw [evaluateAll, Eval.bind_of_error h]
  rw [evaluate, Eval.bind_of_error hvalues]

/-- Adding the parts of a template to a text. -/
theorem sameResult_foldl_parts {parts : List TemplatePart}
    (hp : ∀ path, .interpolation path ∈ parts → PropertyPath.Below (2 ^ 53) path) {s : Text}
    (h : evaluate world nested e context = (.ok (.string s), context)) :
    SameResult ((renderTemplate context parts).map fun t => Value.string (s ++ t), context)
      (evaluate world nested
        (parts.foldl (fun e part => .binary .add e (.ofPart part)) e) context) := by
  induction parts generalizing e s with
  | nil =>
    rw [List.foldl_nil, h, renderTemplate]
    simp only [Except.map, List.append_nil]
    exact .refl _
  | cons part more ih =>
    have hmore : ∀ path, .interpolation path ∈ more → PropertyPath.Below (2 ^ 53) path :=
      fun path hm => hp path (List.mem_cons_of_mem _ hm)
    have hmap : ∀ t, ((renderTemplate context more).map (t ++ ·)).map
        (fun u => Value.string (s ++ u)) =
          (renderTemplate context more).map fun u => Value.string (s ++ t ++ u) := by
      intro t
      cases renderTemplate context more with
      | ok u => simp only [Except.map, List.append_assoc]
      | error x => rfl
    rw [List.foldl_cons]
    cases part with
    | text t =>
      have htext : evaluate world nested (.ofPart (.text t)) context = (.ok (.string t), context) :=
        rfl
      rw [renderTemplate, hmap]
      exact ih hmore (evaluate_add h htext)
    | interpolation path =>
      have hpath : SameResult (path.lookup context, context)
          (evaluate world nested (.ofPath path) context) :=
        sameResult_ofPath (hp path (List.mem_cons_self ..))
      rcases hlong : evaluate world nested (.ofPath path) context with ⟨result, after⟩
      rw [hlong] at hpath
      have hvalue : (path.lookup context).toOption = result.toOption := hpath.1
      obtain rfl : context = after := hpath.2
      rw [renderTemplate]
      rcases ok_or_error_of_toOption_eq hvalue with ⟨value, hl, rfl⟩ | ⟨x, x', hl, rfl⟩
      · simp only [hl, hmap]
        exact ih hmore (evaluate_add h (evaluate_format hlong))
      · have hpart : evaluate world nested (.ofPart (.interpolation path)) context =
            (.error x', context) := evaluate_format_error hlong
        rw [hl, evaluate_foldl_error (fun e a => evaluate_add_error)
          (evaluate_add_error_right h hpart) more]
        exact ⟨rfl, rfl⟩

/-- A template and its long form. -/
theorem sameResult_ofTemplate {parts : List TemplatePart}
    (h : ∀ path, .interpolation path ∈ parts → PropertyPath.Below (2 ^ 53) path) :
    SameResult (evaluate world nested (.template parts) context)
      (evaluate world nested (.ofTemplate parts) context) := by
  have hempty : evaluate world nested (.literal (.string [])) context =
      (.ok (.string []), context) := rfl
  rw [evaluate_template]
  exact sameResult_foldl_parts h hempty

/-! ### Expressions -/

mutual

theorem sameResult_desugar (e : Expression) (h : e.Below (2 ^ 53)) (context : Context) :
    SameResult (evaluate world nested e context) (evaluate world nested e.desugar context) := by
  cases e with
  | template parts => exact sameResult_ofTemplate h
  | property path =>
    rw [evaluate_property]
    exact sameResult_ofPath h
  | call name es =>
    exact (sameResult_desugarAll es h context).bind fun values after => .refl _
  | member e name =>
    exact (sameResult_desugar e h context).bind fun value after => .refl _
  | index e position =>
    refine (sameResult_desugar e h.1 context).bind fun value after => ?_
    exact (sameResult_desugar position h.2 after).bind fun value after => .refl _
  | not e =>
    exact (sameResult_desugar e h context).bind fun value after => .refl _
  | binary o left right =>
    have hl := sameResult_desugar left h.1 context
    cases o with
    | add =>
      refine hl.bind fun value after => ?_
      exact (sameResult_desugar right h.2 after).bind fun value after => .refl _
    | or =>
      refine hl.bind fun value after => ?_
      split
      · exact .refl _
      · exact sameResult_desugar right h.2 after
    | and =>
      refine hl.bind fun value after => ?_
      split
      · exact sameResult_desugar right h.2 after
      · exact .refl _
  | _ => exact .refl _

theorem sameResult_desugarAll (es : List Expression) (h : Expression.AllBelow (2 ^ 53) es)
    (context : Context) :
    SameResult (evaluateAll world nested es context)
      (evaluateAll world nested (Expression.desugarAll es) context) := by
  cases es with
  | nil => exact .refl _
  | cons e more =>
    refine (sameResult_desugar e h.1 context).bind fun value after => ?_
    exact (sameResult_desugarAll more h.2 after).bind fun values after => .refl _

end

end

/-- An expression and its long form have the same value or both fail, and they leave the same
context. -/
theorem evaluate_desugar (world : World) (nested : Text → Eval Text) {e : Expression}
    (h : e.Below (2 ^ 53)) (context : Context) :
    SameResult (evaluate world nested e context) (evaluate world nested e.desugar context) :=
  sameResult_desugar e h context

/-- A template and a path of which the properties have a version of their own. -/
def shorthand : Expression :=
  .binary .add (.template [.text "b is ".toList, .interpolation [.key "list".toList, .index 1]])
    (.property [.key "path".toList, .key "length".toList])

def listContext : Context where
  properties := [("list".toList, .array [.string ['a'], .string ['b']]), ("path".toList, .null)]
  base := "/docs".toList

theorem evaluate_shorthand :
    shorthand.Below (2 ^ 53) ∧
      SameResult (evaluate ⟨⟨[]⟩, [], 0⟩ (parsePart ⟨⟨[]⟩, [], 0⟩) shorthand listContext)
        (evaluate ⟨⟨[]⟩, [], 0⟩ (parsePart ⟨⟨[]⟩, [], 0⟩) shorthand.desugar listContext) ∧
      (evaluate ⟨⟨[]⟩, [], 0⟩ (parsePart ⟨⟨[]⟩, [], 0⟩) shorthand.desugar
        listContext).1.toOption.map Value.display = some "b is b5".toList := by
  have h : shorthand.Below (2 ^ 53) := by
    refine ⟨fun path hp => ?_, fun position hp => ?_⟩
    · simp only [List.mem_cons, TemplatePart.interpolation.injEq, List.not_mem_nil, or_false,
        reduceCtorEq, false_or] at hp
      subst hp
      intro position hm
      simp at hm
      omega
    · simp at hp
  exact ⟨h, evaluate_desugar _ _ h _, by decide +kernel⟩

/-- From `2 ^ 53` on a computed position is rounded, and another part is selected. -/
example :
    let path : PropertyPath := [.key "o".toList, .index (2 ^ 53 + 1)]
    let context : Context :=
      { properties := [("o".toList, .object [(Text.ofNat (2 ^ 53 + 1), .null)])], base := ['/'] }
    (evaluate ⟨⟨[]⟩, [], 0⟩ (parsePart ⟨⟨[]⟩, [], 0⟩) (.property path) context).1.toOption.isSome ≠
      (evaluate ⟨⟨[]⟩, [], 0⟩ (parsePart ⟨⟨[]⟩, [], 0⟩) (Expression.property path).desugar
        context).1.toOption.isSome := by
  decide +kernel

end MarkdownDirectives
