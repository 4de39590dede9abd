import Mathlib.Data.List.Forall2
import Mathlib.Data.List.TakeDrop
import Mathlib.Data.List.TakeWhile
import MarkdownDirectives.Expression.Path

/-!
# The grammar of property paths

What a path looks like, said without reading one: a word and the texts of its steps, with blanks
around the whole and inside brackets. A text is written in this way at most once: where the head and
each step end is told by the character that comes next, whatever a quoted key holds.
-/

namespace MarkdownDirectives

/-! ### Cutting off a run -/

theorem Text.isWord_of_isBlank {c : Char} (h : isBlank c = true) : isWord c = false := by
  have hall : ∀ n ∈ [9, 10, 11, 12, 13, 0x20, 0x85, 0xA0, 0x1680, 0x2000, 0x2001, 0x2002, 0x2003,
      0x2004, 0x2005, 0x2006, 0x2007, 0x2008, 0x2009, 0x200A, 0x2028, 0x2029, 0x202F, 0x205F,
      0x3000], isWord (Char.ofNat n) = false := by
    decide +kernel
  have hc : Char.ofNat c.toNat = c := Char.ofNat_toNat c
  rw [← hc]
  refine hall _ ?_
  simp only [isBlank, Bool.or_eq_true, Bool.and_eq_true, decide_eq_true_eq, beq_iff_eq] at h
  simp only [List.mem_cons, List.not_mem_nil, or_false]
  omega

theorem Text.isWord_of_isDecimalDigit {c : Char} (h : isDecimalDigit c = true) :
    isWord c = true := by
  have hwithin : (decimalDigitRanges.all fun range => wordRanges.any fun word =>
      word.1.ble range.1 && range.2.ble word.2) = true := by
    decide +kernel
  simp only [isDecimalDigit, Bool.or_eq_true, Bool.and_eq_true, decide_eq_true_eq] at h
  rcases h with hdigit | ⟨hlarge, hrange⟩
  · simp [isWord, Char.isAlphanum, hdigit]
  · obtain ⟨range, hmem, hin⟩ := List.any_eq_true.mp hrange
    obtain ⟨word, hword, hbounds⟩ := List.any_eq_true.mp (List.all_eq_true.mp hwithin range hmem)
    simp only [Bool.and_eq_true, Nat.ble_eq] at hbounds
    have hany : inRanges wordRanges c.toNat = true := by
      refine List.any_eq_true.mpr ⟨word, hword, ?_⟩
      simp only [Bool.and_eq_true, decide_eq_true_eq] at hin ⊢
      omega
    simp [isWord, hlarge, hany]

section

variable {p : Char → Bool} {front front' rest rest' : Text}

theorem span_append (hf : ∀ c ∈ front, p c = true) (hr : ∀ c ∈ rest.head?, p c = false) :
    (front ++ rest).span p = (front, rest) := by
  have hrest : rest.takeWhile p = [] ∧ rest.dropWhile p = rest := by
    cases rest with
    | nil => exact ⟨rfl, rfl⟩
    | cons c rest =>
      have hc : p c = false := hr c rfl
      simp [hc]
  rw [List.span_eq_takeWhile_dropWhile, List.takeWhile_append_of_pos hf,
    List.dropWhile_append_of_pos hf, hrest.1, hrest.2, List.append_nil]

theorem head?_cons_false {c : Char} (hc : p c = false) (rest : Text) :
    ∀ d ∈ (c :: rest).head?, p d = false := by
  rintro d ⟨⟩
  exact hc

/-- A text is cut in one way only where a run of a class ends. -/
theorem run_unique (hf : ∀ c ∈ front, p c = true) (hr : ∀ c ∈ rest.head?, p c = false)
    (hf' : ∀ c ∈ front', p c = true) (hr' : ∀ c ∈ rest'.head?, p c = false)
    (h : front ++ rest = front' ++ rest') : front = front' ∧ rest = rest' := by
  have hspan := span_append hf hr
  rw [h, span_append hf' hr', Prod.mk.injEq] at hspan
  exact ⟨hspan.1.symm, hspan.2.symm⟩

end

/-! ### Lists read element by element -/

theorem mapM_eq_some_iff {α β : Type} {f : α → Option β} {l : List α} {l' : List β} :
    l.mapM f = some l' ↔ List.Forall₂ (fun a b => f a = some b) l l' := by
  induction l generalizing l' with
  | nil =>
    rw [List.mapM_nil]
    cases l' <;> simp
  | cons a l ih =>
    rw [List.mapM_cons]
    cases hf : f a with
    | none => cases l' <;> simp [hf]
    | some b =>
      cases hm : l.mapM f with
      | none =>
        cases l' with
        | nil => simp
        | cons b' l' => simpa [hm] using fun _ => ih.not.mp (by simp [hm])
      | some bs =>
        cases l' with
        | nil => simp
        | cons b' l' =>
          have hl := @ih l'
          rw [hm] at hl
          simp [hf, ← hl]

theorem exists_of_mem_forall₂ {α β : Type} {r : α → β → Prop} {l : List α} {l' : List β}
    (h : List.Forall₂ r l l') {b : β} (hb : b ∈ l') : ∃ a ∈ l, r a b := by
  induction h with
  | nil => cases hb
  | @cons a b' l l' hr _ ih =>
    rcases List.mem_cons.mp hb with rfl | hb
    · exact ⟨a, List.mem_cons_self .., hr⟩
    · obtain ⟨a', ha, hr'⟩ := ih hb
      exact ⟨a', List.mem_cons_of_mem _ ha, hr'⟩

theorem mapM_map_eq_some {α β : Type} {f : α → Option β} {g : β → α} {l : List β}
    (h : ∀ b ∈ l, f (g b) = some b) : (l.map g).mapM f = some l := by
  rw [mapM_eq_some_iff, List.forall₂_map_left_iff, List.forall₂_same]
  exact h

theorem mapM_flatten {α β γ : Type} {f : α → Option (List γ)} {g : β → Option γ} {l : List α}
    {l' : List β} (h : List.Forall₂ (fun a b => f a = (g b).map ([·])) l l') :
    (l.mapM f).map List.flatten = l'.mapM g := by
  induction h with
  | nil => rfl
  | @cons a b l l' hab _ ih =>
    rw [List.mapM_cons, List.mapM_cons, hab, ← ih]
    cases g b with
    | none => rfl
    | some c => cases l.mapM f <;> rfl

theorem forall₂_comp_iff {α β γ : Type} {r : α → β → Prop} {s : β → γ → Prop} {l : List α}
    {l'' : List γ} : List.Forall₂ (fun a c => ∃ b, r a b ∧ s b c) l l'' ↔
      ∃ l', List.Forall₂ r l l' ∧ List.Forall₂ s l' l'' := by
  constructor
  · intro h
    induction h with
    | nil => exact ⟨[], .nil, .nil⟩
    | cons hac _ ih =>
      obtain ⟨b, hr, hs⟩ := hac
      obtain ⟨l', hl, hl'⟩ := ih
      exact ⟨b :: l', .cons hr hl, .cons hs hl'⟩
  · rintro ⟨l', hl, hl'⟩
    induction hl generalizing l'' with
    | nil =>
      cases hl'
      exact .nil
    | cons hr _ ih =>
      cases hl' with
      | cons hs hl' => exact .cons ⟨_, hr, hs⟩ (ih hl')

namespace PropertyPath

/-! ### Words and blanks -/

def IsWord (t : Text) : Prop := t ≠ [] ∧ ∀ c ∈ t, Text.isWord c = true

def IsBlank (t : Text) : Prop := ∀ c ∈ t, Text.isBlank c = true

theorem isBlank_nil : IsBlank [] := fun _ hc => absurd hc List.not_mem_nil

/-- Neither a word nor a path goes on with the text. -/
def Ends (rest : Text) : Prop :=
  ∀ c ∈ rest.head?, Text.isWord c = false ∧ c ≠ '.' ∧ c ≠ '['

theorem ends_append_of_isBlank {blanks rest : Text} (h : IsBlank blanks) (hr : Ends rest) :
    Ends (blanks ++ rest) := by
  cases blanks with
  | nil => exact hr
  | cons b blanks =>
    rintro c ⟨⟩
    have hb : Text.isBlank b = true := h b (List.mem_cons_self ..)
    refine ⟨Text.isWord_of_isBlank hb, ?_, ?_⟩ <;> rintro rfl <;> exact absurd hb (by decide)

theorem ends_of_isBlank {blanks : Text} (h : IsBlank blanks) : Ends blanks := by
  have hends := ends_append_of_isBlank h (show Ends [] from fun c hc => by cases hc)
  rwa [List.append_nil] at hends

theorem isBlank_false_of_isWord {c : Char} (h : Text.isWord c = true) : Text.isBlank c = false := by
  cases hb : Text.isBlank c with
  | false => rfl
  | true =>
    rw [Text.isWord_of_isBlank hb] at h
    cases h

theorem head?_append_of_isWord {word : Text} (h : IsWord word) (rest : Text) :
    ∀ c ∈ (word ++ rest).head?, Text.isBlank c = false := by
  obtain ⟨d, word, rfl⟩ := List.exists_cons_of_ne_nil h.1
  exact head?_cons_false (isBlank_false_of_isWord (h.2 d (List.mem_cons_self ..))) _

/-! ### Steps -/

inductive Step where
  | name (t : Text)
  | digits (t : Text)

/-- The segment of a step; none for digits that make no position. -/
def Step.segment? : Step → Option Segment
  | .name t => some (.key t)
  | .digits t => (position? t).map .index

/-- The text stands between brackets for the step. -/
inductive Step.Inside : Text → Step → Prop
  | digits {digits} : digits ≠ [] → (∀ c ∈ digits, Text.isDecimalDigit c = true) →
    Inside digits (.digits digits)
  | quoted {quote name} : quote = '\'' ∨ quote = '"' → quote ∉ name →
    Inside (quote :: (name ++ [quote])) (.name name)

/-- The text writes the step. -/
inductive Step.Written : Text → Step → Prop
  | dotted {name} : IsWord name → Written ('.' :: name) (.name name)
  | bracketed {before inside after step} : IsBlank before → step.Inside inside → IsBlank after →
    Written ('[' :: (before ++ inside ++ after ++ [']'])) step

section

variable {text text' rest rest' : Text} {step step' : Step}

theorem Step.Inside.head? (h : step.Inside text) (rest : Text) :
    ∀ c ∈ (text ++ rest).head?, Text.isBlank c = false := by
  cases h with
  | digits hne hdigits =>
    have hword : IsWord text := ⟨hne, fun c hc => Text.isWord_of_isDecimalDigit (hdigits c hc)⟩
    exact head?_append_of_isWord hword rest
  | quoted hquote _ =>
    rintro c ⟨⟩
    rcases hquote with rfl | rfl <;> decide

/-- What stands between brackets ends in one place only, unless a digit goes on after it. -/
theorem Step.Inside.unique (h : step.Inside text) (h' : step'.Inside text')
    (hr : ∀ c ∈ rest.head?, Text.isDecimalDigit c = false)
    (hr' : ∀ c ∈ rest'.head?, Text.isDecimalDigit c = false)
    (heq : text ++ rest = text' ++ rest') : text = text' ∧ step = step' ∧ rest = rest' := by
  have hmixed : ∀ {digits : Text} {quote : Char} {x y : Text}, digits ≠ [] →
      (∀ c ∈ digits, Text.isDecimalDigit c = true) → quote = '\'' ∨ quote = '"' →
      digits ++ x ≠ quote :: y := by
    rintro digits quote x y hne hdigits hquote hsame
    obtain ⟨d, digits, rfl⟩ := List.exists_cons_of_ne_nil hne
    obtain ⟨rfl, -⟩ := List.cons.inj hsame
    have hd := hdigits d (List.mem_cons_self ..)
    rcases hquote with rfl | rfl <;> exact absurd hd (by decide)
  cases h with
  | digits hne hdigits =>
    cases h' with
    | digits _ hdigits' =>
      obtain ⟨rfl, rfl⟩ := run_unique hdigits hr hdigits' hr' heq
      exact ⟨rfl, rfl, rfl⟩
    | quoted hquote' _ => exact absurd heq (hmixed hne hdigits hquote')
  | @quoted quote name hquote hname =>
    cases h' with
    | digits hne' hdigits' => exact absurd heq.symm (hmixed hne' hdigits' hquote)
    | @quoted _ name' _ hname' =>
      simp only [List.cons_append, List.append_assoc, List.nil_append, List.cons.injEq] at heq
      obtain ⟨rfl, hnames⟩ := heq
      -- both names end at the first quotation mark
      have hrun : ∀ {name : Text}, quote ∉ name → ∀ c ∈ name, (c != quote) = true := by
        intro name hnot c hc
        simpa using fun hsame : c = quote => hnot (hsame ▸ hc)
      have hstop := head?_cons_false (p := (· != quote)) (c := quote) (by simp)
      obtain ⟨rfl, hrest⟩ := run_unique (hrun hname) (hstop _) (hrun hname') (hstop _) hnames
      exact ⟨rfl, rfl, (List.cons.inj hrest).2⟩

theorem isDecimalDigit_false {c : Char} (h : Text.isWord c = false) :
    Text.isDecimalDigit c = false := by
  cases hd : Text.isDecimalDigit c with
  | false => rfl
  | true =>
    rw [Text.isWord_of_isDecimalDigit hd] at h
    cases h

theorem head?_append_bracket {after : Text} (h : IsBlank after) (rest : Text) :
    ∀ c ∈ (after ++ ']' :: rest).head?, Text.isDecimalDigit c = false := by
  cases after with
  | nil => exact head?_cons_false (by decide) rest
  | cons a after =>
    have ha : Text.isBlank a = true := h a (List.mem_cons_self ..)
    exact head?_cons_false (isDecimalDigit_false (Text.isWord_of_isBlank ha)) _

/-- A written step ends in one place only, unless a word goes on after a point. -/
theorem Step.Written.unique (h : step.Written text) (h' : step'.Written text')
    (hr : text.head? = some '.' → ∀ c ∈ rest.head?, Text.isWord c = false)
    (hr' : text'.head? = some '.' → ∀ c ∈ rest'.head?, Text.isWord c = false)
    (heq : text ++ rest = text' ++ rest') : text = text' ∧ step = step' ∧ rest = rest' := by
  cases h with
  | dotted hname =>
    cases h' with
    | dotted hname' =>
      obtain ⟨rfl, rfl⟩ :=
        run_unique hname.2 (hr rfl) hname'.2 (hr' rfl) (List.cons.inj heq).2
      exact ⟨rfl, rfl, rfl⟩
    | bracketed => cases heq
  | @bracketed before inside after _ hbefore hinside hafter =>
    cases h' with
    | dotted => cases heq
    | @bracketed before' inside' after' _ hbefore' hinside' hafter' =>
      simp only [List.cons_append, List.append_assoc, List.nil_append, List.cons.injEq,
        true_and] at heq
      obtain ⟨rfl, hfrom⟩ := run_unique hbefore (hinside.head? _) hbefore' (hinside'.head? _) heq
      obtain ⟨rfl, rfl, hclose⟩ := hinside.unique hinside' (head?_append_bracket hafter _)
        (head?_append_bracket hafter' _) hfrom
      have hbracket := head?_cons_false (p := Text.isBlank) (c := ']') (by decide)
      obtain ⟨rfl, hrest⟩ := run_unique hafter (hbracket _) hafter' (hbracket _) hclose
      exact ⟨rfl, rfl, (List.cons.inj hrest).2⟩

end

/-! ### Paths -/

section

variable {t t' text rest rest' before before' : Text} {texts texts' : List Text} {step : Step}
variable {path path' : List Step}

theorem Step.Written.exists_cons (h : step.Written text) :
    ∃ c more, text = c :: more ∧ (c = '.' ∨ c = '[') := by
  cases h with
  | dotted => exact ⟨'.', _, rfl, .inl rfl⟩
  | bracketed => exact ⟨'[', _, rfl, .inr rfl⟩

theorem head?_flatten_written (h : List.Forall₂ Step.Written texts path)
    (hr : ∀ c ∈ rest.head?, Text.isWord c = false) :
    ∀ c ∈ (texts.flatten ++ rest).head?, Text.isWord c = false := by
  cases h with
  | nil => exact hr
  | cons hstep _ =>
    obtain ⟨d, more, rfl, hd⟩ := hstep.exists_cons
    rintro c ⟨⟩
    rcases hd with rfl | rfl <;> decide

/-- A word and the texts of the steps are written one after the other. -/
def WritesSteps (t : Text) (path : List Step) : Prop :=
  ∃ head texts more, t = head ++ List.flatten texts ∧ IsWord head ∧
    List.Forall₂ Step.Written texts more ∧ path = .name head :: more

theorem steps_unique (h : List.Forall₂ Step.Written texts path)
    (h' : List.Forall₂ Step.Written texts' path') (hr : Ends rest) (hr' : Ends rest')
    (heq : texts.flatten ++ rest = texts'.flatten ++ rest') :
    texts = texts' ∧ path = path' ∧ rest = rest' := by
  have hstops : ∀ {text : Text} {step : Step} {rest more : Text}, step.Written text → Ends rest →
      rest ≠ text ++ more := by
    rintro text step rest more hstep hends rfl
    obtain ⟨c, text, rfl, hc⟩ := hstep.exists_cons
    obtain ⟨-, hpoint, hbracket⟩ := hends c rfl
    exact hc.elim hpoint hbracket
  induction h generalizing texts' path' with
  | nil =>
    cases h' with
    | nil => exact ⟨rfl, rfl, heq⟩
    | cons hstep' _ =>
      rw [List.flatten_cons, List.append_assoc] at heq
      exact absurd heq (hstops hstep' hr)
  | cons hstep hmore ih =>
    cases h' with
    | nil =>
      rw [List.flatten_cons, List.append_assoc] at heq
      exact absurd heq.symm (hstops hstep hr')
    | cons hstep' hmore' =>
      have hnext := head?_flatten_written hmore fun c hc => (hr c hc).1
      have hnext' := head?_flatten_written hmore' fun c hc => (hr' c hc).1
      simp only [List.flatten_cons, List.append_assoc] at heq
      obtain ⟨rfl, rfl, htail⟩ := hstep.unique hstep' (fun _ => hnext) (fun _ => hnext') heq
      obtain ⟨rfl, rfl, hrest⟩ := ih hmore' htail
      exact ⟨rfl, rfl, hrest⟩

/-- A path with blanks before it is read in one way only, if nothing goes on after it. -/
theorem WritesSteps.unique (h : WritesSteps t path) (h' : WritesSteps t' path')
    (hbefore : IsBlank before) (hbefore' : IsBlank before') (hr : Ends rest) (hr' : Ends rest')
    (heq : before ++ (t ++ rest) = before' ++ (t' ++ rest')) :
    t = t' ∧ path = path' ∧ rest = rest' := by
  obtain ⟨head, texts, more, rfl, hhead, htexts, rfl⟩ := h
  obtain ⟨head', texts', more', rfl, hhead', htexts', rfl⟩ := h'
  simp only [List.append_assoc] at heq
  obtain ⟨rfl, hpath⟩ := run_unique hbefore (head?_append_of_isWord hhead _) hbefore'
    (head?_append_of_isWord hhead' _) heq
  obtain ⟨rfl, hsteps⟩ := run_unique hhead.2 (head?_flatten_written htexts fun c hc => (hr c hc).1)
    hhead'.2 (head?_flatten_written htexts' fun c hc => (hr' c hc).1) hpath
  obtain ⟨rfl, rfl, hrest⟩ := steps_unique htexts htexts' hr hr' hsteps
  exact ⟨rfl, rfl, hrest⟩

end

/-! ### Whole paths -/

end PropertyPath

/-- The text writes the segment. -/
inductive Segment.Written : Text → Segment → Prop
  | dotted {name} : PropertyPath.IsWord name → Written ('.' :: name) (.key name)
  | position {before digits after} : PropertyPath.IsBlank before → digits ≠ [] →
    (∀ c ∈ digits, c.isDigit = true) → Text.digitsValue digits < Nat.pow 2 64 →
    PropertyPath.IsBlank after →
    Written ('[' :: (before ++ digits ++ after ++ [']'])) (.index (Text.digitsValue digits))
  | quoted {before quote name after} : PropertyPath.IsBlank before → quote = '\'' ∨ quote = '"' →
    quote ∉ name → PropertyPath.IsBlank after →
    Written ('[' :: (before ++ quote :: (name ++ quote :: (after ++ [']'])))) (.key name)

theorem Segment.written_iff {text : Text} {segment : Segment} :
    segment.Written text ↔
      ∃ step : PropertyPath.Step, step.Written text ∧ step.segment? = some segment := by
  constructor
  · intro h
    cases h with
    | dotted hname => exact ⟨_, .dotted hname, rfl⟩
    | @position before digits after hbefore hne hdigits hbound hafter =>
      have hdecimal : ∀ c ∈ digits, Text.isDecimalDigit c = true := fun c hc => by
        simp [Text.isDecimalDigit, hdigits c hc]
      have hposition : digits.all Char.isDigit = true := List.all_eq_true.mpr hdigits
      have hread : PropertyPath.position? digits = some (Text.digitsValue digits) := by
        simp only [PropertyPath.position?, hposition, hbound, decide_true, Bool.and_self, if_true]
      exact ⟨_, .bracketed hbefore (.digits hne hdecimal) hafter, congrArg (Option.map _) hread⟩
    | @quoted before quote name after hbefore hquote hname hafter =>
      have hwritten := PropertyPath.Step.Written.bracketed hbefore (.quoted hquote hname) hafter
      exact ⟨.name name, by simpa using hwritten, rfl⟩
  · rintro ⟨step, hstep, hsegment⟩
    cases hstep with
    | dotted hname =>
      cases hsegment
      exact .dotted hname
    | bracketed hbefore hinside hafter =>
      cases hinside with
      | digits hne hdigits =>
        obtain ⟨position, hposition, rfl⟩ := Option.map_eq_some_iff.mp hsegment
        simp only [PropertyPath.position?, Bool.and_eq_true, List.all_eq_true,
          decide_eq_true_eq] at hposition
        split at hposition
        · next hread =>
          cases hposition
          exact .position hbefore hne hread.1 hread.2 hafter
        · cases hposition
      | quoted hquote hname =>
        cases hsegment
        have hwritten := Segment.Written.quoted hbefore hquote hname hafter
        simpa using hwritten

namespace PropertyPath

/-- A word and the texts of the other segments are written one after the other, with blanks around
the whole. -/
def Writes (t : Text) (path : PropertyPath) : Prop :=
  ∃ before head texts segments after, t = before ++ head ++ List.flatten texts ++ after ∧
    IsBlank before ∧ IsWord head ∧
    List.Forall₂ Segment.Written texts segments ∧
    IsBlank after ∧ path = .key head :: segments

theorem writes_iff {t : Text} {segments : PropertyPath} : Writes t segments ↔
    ∃ before p after path, t = before ++ p ++ after ∧ IsBlank before ∧ WritesSteps p path ∧
      IsBlank after ∧ path.mapM Step.segment? = some segments := by
  have hwritten : ∀ {texts : List Text} {segments : List Segment},
      List.Forall₂ Segment.Written texts segments ↔
        ∃ path, List.Forall₂ Step.Written texts path ∧
          List.Forall₂ (fun step segment => Step.segment? step = some segment) path segments := by
    intro texts segments
    have hrel : Segment.Written = fun text segment =>
        ∃ step : Step, step.Written text ∧ step.segment? = some segment :=
      funext fun text => funext fun segment => propext Segment.written_iff
    rw [hrel]
    exact forall₂_comp_iff
  constructor
  · rintro ⟨before, head, texts, segments, after, rfl, hbefore, hhead, hsegments, hafter, rfl⟩
    obtain ⟨path, htexts, hpath⟩ := hwritten.mp hsegments
    exact ⟨before, head ++ texts.flatten, after, _, by simp, hbefore,
      ⟨head, texts, path, rfl, hhead, htexts, rfl⟩, hafter, mapM_eq_some_iff.mpr (.cons rfl hpath)⟩
  · rintro ⟨before, _, after, _, rfl, hbefore, ⟨head, texts, path, rfl, hhead, htexts, rfl⟩, hafter,
      hmap⟩
    cases mapM_eq_some_iff.mp hmap with
    | cons hfirst hpath =>
      cases hfirst
      exact ⟨before, head, texts, _, after, by simp, hbefore, hhead,
        hwritten.mpr ⟨path, htexts, hpath⟩, hafter, rfl⟩

end PropertyPath

end MarkdownDirectives
