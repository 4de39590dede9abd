import MarkdownDirectives.Expression.Template
import MarkdownDirectives.Proofs.PathGrammar
import MarkdownDirectives.Proofs.Patterns

/-!
# The patterns of property paths

Three patterns were written apart for property paths: one for a whole path, one for a segment and
one for an interpolation. They agree on the grammar. The first and the last keep the same paths,
each of them in one way only, and the search for segments in what follows the head of a path gives
one match for each step and leaves nothing over, so a path is read with one segment for each step.
-/

namespace MarkdownDirectives

namespace PropertyPath

/-! ### The patterns of a step -/

section

variable {t : Text} {groups : Pattern.Groups}

theorem takes_blanks : blanks.Takes t groups ↔ groups = [] ∧ IsBlank t := Pattern.takes_many_char

theorem takes_word : word.Takes t groups ↔ groups = [] ∧ IsWord t := Pattern.takes_many1_char

theorem takes_others {quote : Char} : (others quote).Takes t groups ↔ groups = [] ∧ quote ∉ t := by
  rw [others, Pattern.takes_many_char]
  simp only [bne_iff_ne, ne_eq, and_congr_right_iff]
  exact fun _ => ⟨fun h hmem => h _ hmem rfl, fun h c hc hsame => h (hsame ▸ hc)⟩

theorem takes_opening {p : Pattern} {front : Text} (hp : ∀ t groups, p.Takes t groups ↔
    groups = [] ∧ t = front) (t : Text) (groups : Pattern.Groups) :
    (p ++ blanks).Takes t groups ↔
      groups = [] ∧ ∃ before, IsBlank before ∧ t = front ++ before := by
  rw [Pattern.takes_seq_left hp]
  simp only [takes_blanks]
  constructor
  · rintro ⟨_, before, rfl, ⟨rfl, hbefore⟩, rfl⟩
    exact ⟨rfl, before, hbefore, rfl⟩
  · rintro ⟨rfl, before, hbefore, rfl⟩
    exact ⟨_, before, rfl, ⟨rfl, hbefore⟩, rfl⟩

/-- What stands between a front and a closing character, with blanks around it. -/
theorem takes_enclosed {p q : Pattern} {front : Text} {close : Char} (hp : ∀ t groups,
    p.Takes t groups ↔ groups = [] ∧ t = front) :
    (p ++ blanks ++ q ++ blanks ++ Pattern.literal close).Takes t groups ↔
      ∃ before inside after, IsBlank before ∧ q.Takes inside groups ∧ IsBlank after ∧
        t = front ++ (before ++ inside ++ after ++ [close]) := by
  simp only [Pattern.takes_seq_right (fun _ _ => Pattern.takes_literal),
    Pattern.takes_seq_right (fun _ _ => takes_blanks), Pattern.takes_seq_left (takes_opening hp)]
  constructor
  · rintro ⟨_, _, ⟨_, after, ⟨_, inside, ⟨before, hbefore, rfl⟩, hinside, rfl⟩, hafter, rfl⟩, rfl,
      rfl⟩
    exact ⟨before, inside, after, hbefore, hinside, hafter, by simp⟩
  · rintro ⟨before, inside, after, hbefore, hinside, hafter, rfl⟩
    exact ⟨_, _, ⟨_, after, ⟨_, inside, ⟨before, hbefore, rfl⟩, hinside, rfl⟩, hafter, rfl⟩, rfl,
      by simp⟩

theorem takes_bracket {p : Pattern} :
    (Pattern.literal '[' ++ blanks ++ p ++ blanks ++ Pattern.literal ']').Takes t groups ↔
      ∃ before inside after, IsBlank before ∧ p.Takes inside groups ∧ IsBlank after ∧
        t = '[' :: (before ++ inside ++ after ++ [']']) :=
  takes_enclosed (fun _ _ => Pattern.takes_literal)

theorem takes_dotted {p : Pattern} : (Pattern.literal '.' ++ p).Takes t groups ↔
    ∃ name, p.Takes name groups ∧ t = '.' :: name := by
  rw [Pattern.takes_seq_left (fun _ _ => Pattern.takes_literal)]
  constructor
  · rintro ⟨_, name, rfl, hname, rfl⟩
    exact ⟨name, hname, rfl⟩
  · rintro ⟨name, hname, rfl⟩
    exact ⟨_, name, rfl, hname, rfl⟩

/-- A step as it stands in the patterns of a whole path and of an interpolation. -/
def stepPattern : Pattern :=
  .either (.literal '.' ++ word)
    (.literal '[' ++ blanks ++
      .either digits (.either (.between '\'' (others '\'')) (.between '"' (others '"'))) ++
      blanks ++ .literal ']')

theorem takes_inside : (Pattern.either digits
    (.either (.between '\'' (others '\'')) (.between '"' (others '"')))).Takes t groups ↔
      groups = [] ∧ ∃ step : Step, step.Inside t := by
  simp only [Pattern.takes_either, Pattern.takes_between, takes_others]
  constructor
  · rintro (h | ⟨name, ⟨rfl, hname⟩, rfl⟩ | ⟨name, ⟨rfl, hname⟩, rfl⟩)
    · obtain ⟨rfl, hne, hdigits⟩ := Pattern.takes_many1_char.mp h
      exact ⟨rfl, _, .digits hne hdigits⟩
    · exact ⟨rfl, _, .quoted (.inl rfl) hname⟩
    · exact ⟨rfl, _, .quoted (.inr rfl) hname⟩
  · rintro ⟨rfl, step, hstep⟩
    cases hstep with
    | digits hne hdigits => exact .inl (Pattern.takes_many1_char.mpr ⟨rfl, hne, hdigits⟩)
    | quoted hquote hname =>
      rcases hquote with rfl | rfl
      · exact .inr (.inl ⟨_, ⟨rfl, hname⟩, rfl⟩)
      · exact .inr (.inr ⟨_, ⟨rfl, hname⟩, rfl⟩)

theorem takes_step : stepPattern.Takes t groups ↔ groups = [] ∧ ∃ step : Step, step.Written t := by
  rw [stepPattern, Pattern.takes_either, takes_dotted, takes_bracket]
  simp only [takes_word, takes_inside]
  constructor
  · rintro (⟨name, ⟨rfl, hname⟩, rfl⟩ |
      ⟨before, inside, after, hbefore, ⟨rfl, step, hstep⟩, hafter, rfl⟩)
    · exact ⟨rfl, _, .dotted hname⟩
    · exact ⟨rfl, step, .bracketed hbefore hstep hafter⟩
  · rintro ⟨rfl, step, hstep⟩
    cases hstep with
    | dotted hname => exact .inl ⟨_, ⟨rfl, hname⟩, rfl⟩
    | bracketed hbefore hinside hafter =>
      exact .inr ⟨_, _, _, hbefore, ⟨rfl, step, hinside⟩, hafter, rfl⟩

/-- A match of the segment pattern is a step, and its groups give the segment of this step. -/
theorem exists_written_of_takes (h : segmentPattern.Takes t groups) : ∃ step : Step,
    step.Written t ∧ segments? (.found groups) = step.segment?.map ([·]) := by
  simp only [segmentPattern, Pattern.takes_either, takes_dotted, takes_bracket,
    Pattern.takes_between, Pattern.takes_group, takes_word, takes_others] at h
  rcases h with ⟨name, ⟨_, ⟨rfl, hname⟩, rfl⟩, rfl⟩ | ⟨before, _, after, hbefore, ⟨_, h, rfl⟩ |
    ⟨name, ⟨_, ⟨rfl, hname⟩, rfl⟩, rfl⟩ | ⟨name, ⟨_, ⟨rfl, hname⟩, rfl⟩, rfl⟩, hafter, rfl⟩
  · exact ⟨_, .dotted hname, rfl⟩
  · obtain ⟨rfl, hne, hdigits⟩ := Pattern.takes_many1_char.mp h
    refine ⟨_, .bracketed hbefore (.digits hne hdigits) hafter, ?_⟩
    rw [Step.segment?, Option.map_map]
    rfl
  · exact ⟨_, .bracketed hbefore (.quoted (.inl rfl) hname) hafter, rfl⟩
  · exact ⟨_, .bracketed hbefore (.quoted (.inr rfl) hname) hafter, rfl⟩

theorem Step.Written.exists_takes {step : Step} (h : step.Written t) :
    ∃ groups, segmentPattern.Takes t groups := by
  simp only [segmentPattern, Pattern.takes_either, takes_dotted, takes_bracket,
    Pattern.takes_between, Pattern.takes_group, takes_word, takes_others]
  cases h with
  | @dotted name hname => exact ⟨_, .inl ⟨name, ⟨[], ⟨rfl, hname⟩, rfl⟩, rfl⟩⟩
  | @bracketed before inside after _ hbefore hinside hafter =>
    cases hinside with
    | digits hne hdigits =>
      have htakes := Pattern.takes_many1_char.mpr ⟨rfl, hne, hdigits⟩
      exact ⟨_, .inr ⟨before, _, after, hbefore, .inl ⟨[], htakes, rfl⟩, hafter, rfl⟩⟩
    | @quoted quote name hquote hname =>
      rcases hquote with rfl | rfl
      · exact ⟨_, .inr ⟨before, _, after, hbefore,
          .inr (.inl ⟨name, ⟨[], ⟨rfl, hname⟩, rfl⟩, rfl⟩), hafter, rfl⟩⟩
      · exact ⟨_, .inr ⟨before, _, after, hbefore,
          .inr (.inr ⟨name, ⟨[], ⟨rfl, hname⟩, rfl⟩, rfl⟩), hafter, rfl⟩⟩

end

/-! ### The search for segments -/

section

variable {text rest : Text} {texts : List Text} {step : Step} {path : List Step}

/-- After a point a match takes all of the word. -/
theorem rest_of_head?_ways {t : Text} {m : Pattern.Match}
    (h : (segmentPattern.ways ('.' :: t)).head? = some m) : m.rest = t.dropWhile Text.isWord := by
  have hways : segmentPattern.ways ('.' :: t) =
      ((Pattern.group 1 word).ways t).map (.after []) ++ [] ++ [] := rfl
  simp only [hways, List.append_nil, Pattern.ways, List.head?_map, Option.map_eq_some_iff] at h
  obtain ⟨_, ⟨m, hm, rfl⟩, rfl⟩ := h
  change m.rest = t.dropWhile Text.isWord
  exact Pattern.rest_of_head?_ways_many1_char hm

theorem head?_ways_segment (h : step.Written text) (hr : ∀ c ∈ rest.head?, Text.isWord c = false) :
    ∃ groups, (segmentPattern.ways (text ++ rest)).head? = some ⟨groups, rest⟩ ∧
      segments? (.found groups) = step.segment?.map ([·]) := by
  obtain ⟨groups, htakes⟩ := h.exists_takes
  obtain ⟨m, hm⟩ := Pattern.exists_head?_ways htakes rest
  obtain ⟨taken, htaken, hfound⟩ := Pattern.takes_of_head?_ways hm
  obtain ⟨step', hwritten, hsegments⟩ := exists_written_of_takes hfound
  -- the first match is a step of its own; both end where no word goes on, so they are the same
  have hword : taken.head? = some '.' → ∀ c ∈ m.rest.head?, Text.isWord c = false := by
    intro hpoint
    obtain ⟨taken, rfl⟩ := List.head?_eq_some_iff.mp hpoint
    rw [htaken] at hm
    have hrest : m.rest = (taken ++ m.rest).dropWhile Text.isWord := rest_of_head?_ways hm
    intro c hc
    rw [hrest, Option.mem_def] at hc
    have hhead := List.head?_dropWhile_not Text.isWord (taken ++ m.rest)
    rwa [hc] at hhead
  obtain ⟨rfl, rfl, rfl⟩ := h.unique hwritten (fun _ => hr) hword htaken
  exact ⟨m.groups, hm, hsegments⟩

/-- The search in what follows the head of a path misses no step and finds nothing else. -/
theorem search_segments (h : List.Forall₂ Step.Written texts path) :
    List.Forall₂ (fun piece step => segments? piece = (Step.segment? step).map ([·]))
      (segmentPattern.search 0 texts.flatten) path := by
  induction h with
  | nil => exact .nil
  | @cons text step texts path hstep hmore ih =>
    have hr : ∀ c ∈ (texts.flatten ++ []).head?, Text.isWord c = false :=
      head?_flatten_written hmore (by simp)
    rw [List.append_nil] at hr
    obtain ⟨groups, hhead, hsegments⟩ := head?_ways_segment hstep hr
    have hne : text ≠ [] := by
      obtain ⟨c, more, rfl, -⟩ := hstep.exists_cons
      exact List.cons_ne_nil _ _
    rw [List.flatten_cons, Pattern.search_of_head? hhead hne]
    exact .cons hsegments ih

end

/-! ### Paths in the patterns -/

section

variable {t : Text} {groups : Pattern.Groups}

theorem takes_many_step : (Pattern.many stepPattern).Takes t groups ↔
    groups = [] ∧ ∃ texts path, t = List.flatten texts ∧ List.Forall₂ Step.Written texts path := by
  constructor
  · intro h
    generalize hp : Pattern.many stepPattern = p at h
    induction h with
    | stop => exact ⟨rfl, [], [], rfl, .nil⟩
    | again _ hstep _ _ ih =>
      cases hp
      obtain ⟨rfl, step, hwritten⟩ := takes_step.mp hstep
      obtain ⟨rfl, texts, path, rfl, hmore⟩ := ih rfl
      exact ⟨rfl, _ :: texts, step :: path, rfl, .cons hwritten hmore⟩
    | char | seq | first | second | group => cases hp
  · rintro ⟨rfl, texts, path, rfl, h⟩
    induction h with
    | nil => exact .stop
    | cons hstep _ ih =>
      obtain ⟨c, more, rfl, -⟩ := hstep.exists_cons
      exact .again (List.cons_ne_nil _ _) (takes_step.mpr ⟨rfl, _, hstep⟩) ih

theorem takes_path : (word ++ .many stepPattern).Takes t groups ↔
    groups = [] ∧ ∃ path, WritesSteps t path := by
  rw [Pattern.takes_seq_left (fun _ _ => takes_word)]
  simp only [takes_many_step]
  constructor
  · rintro ⟨head, _, hhead, ⟨rfl, texts, more, rfl, htexts⟩, rfl⟩
    exact ⟨rfl, _, head, texts, more, rfl, hhead, htexts, rfl⟩
  · rintro ⟨rfl, _, head, texts, more, rfl, hhead, htexts, rfl⟩
    exact ⟨head, texts.flatten, hhead, ⟨rfl, texts, more, rfl, htexts⟩, rfl⟩

theorem takes_kept : (Pattern.group 1 (word ++ .many stepPattern)).Takes t groups ↔
    groups = [(1, t)] ∧ ∃ path, WritesSteps t path := by
  rw [Pattern.takes_group]
  constructor
  · rintro ⟨inner, h, rfl⟩
    obtain ⟨rfl, hpath⟩ := takes_path.mp h
    exact ⟨rfl, hpath⟩
  · rintro ⟨rfl, hpath⟩
    exact ⟨[], takes_path.mpr ⟨rfl, hpath⟩, rfl⟩

theorem takes_pathPattern : pathPattern.Takes t groups ↔ ∃ before p after path,
    t = before ++ p ++ after ∧ IsBlank before ∧ WritesSteps p path ∧ IsBlank after ∧
      groups = [(1, p)] := by
  have hpattern : pathPattern = blanks ++ .group 1 (word ++ .many stepPattern) ++ blanks := rfl
  simp only [hpattern, Pattern.takes_seq_right (fun _ _ => takes_blanks),
    Pattern.takes_seq_left (fun _ _ => takes_blanks), takes_kept]
  constructor
  · rintro ⟨_, after, ⟨before, p, hbefore, ⟨rfl, path, hpath⟩, rfl⟩, hafter, rfl⟩
    exact ⟨before, p, after, path, rfl, hbefore, hpath, hafter, rfl⟩
  · rintro ⟨before, p, after, path, rfl, hbefore, hpath, hafter, rfl⟩
    exact ⟨_, after, ⟨before, p, hbefore, ⟨rfl, path, hpath⟩, rfl⟩, hafter, rfl⟩

theorem takes_interpolationPattern : TemplatePart.interpolationPattern.Takes t groups ↔
    ∃ before p after path, t = '$' :: '{' :: (before ++ p ++ after ++ ['}']) ∧ IsBlank before ∧
      WritesSteps p path ∧ IsBlank after ∧ groups = [(1, p)] := by
  have hpattern : TemplatePart.interpolationPattern = .literal '$' ++ .literal '{' ++ blanks ++
      .group 1 (word ++ .many stepPattern) ++ blanks ++ .literal '}' := rfl
  have hopen : ∀ t groups, (Pattern.literal '$' ++ Pattern.literal '{').Takes t groups ↔
      groups = [] ∧ t = ['$', '{'] := by
    intro t groups
    simp [Pattern.takes_seq_left (fun _ _ => Pattern.takes_literal), Pattern.takes_literal]
  simp only [hpattern, takes_enclosed hopen, takes_kept]
  constructor
  · rintro ⟨before, p, after, hbefore, ⟨rfl, path, hpath⟩, hafter, rfl⟩
    exact ⟨before, p, after, path, rfl, hbefore, hpath, hafter, rfl⟩
  · rintro ⟨before, p, after, path, rfl, hbefore, hpath, hafter, rfl⟩
    exact ⟨before, p, after, hbefore, ⟨rfl, path, hpath⟩, hafter, rfl⟩

end

/-! ### What the patterns keep -/

section

variable {before p after : Text} {path : List Step}

theorem whole?_pathPattern (hbefore : IsBlank before) (hp : WritesSteps p path)
    (hafter : IsBlank after) : pathPattern.whole? (before ++ p ++ after) = some [(1, p)] := by
  have htakes : pathPattern.Takes (before ++ p ++ after) [(1, p)] :=
    takes_pathPattern.mpr ⟨before, p, after, path, rfl, hbefore, hp, hafter, rfl⟩
  obtain ⟨groups, hwhole⟩ := Pattern.exists_whole?_of_takes htakes
  obtain ⟨before', p', after', path', heq, hbefore', hp', hafter', rfl⟩ :=
    takes_pathPattern.mp (Pattern.takes_of_whole? hwhole)
  simp only [List.append_assoc] at heq
  obtain ⟨rfl, -, -⟩ := hp.unique hp' hbefore hbefore' (ends_of_isBlank hafter)
    (ends_of_isBlank hafter') heq
  exact hwhole

/-- An interpolation is found where it is written, whatever comes after it. -/
theorem head?_ways_interpolationPattern (hbefore : IsBlank before) (hp : WritesSteps p path)
    (hafter : IsBlank after) (rest : Text) : (TemplatePart.interpolationPattern.ways
      ('$' :: '{' :: (before ++ p ++ after ++ ['}']) ++ rest)).head? = some ⟨[(1, p)], rest⟩ := by
  have hends : ∀ {after : Text} (rest : Text), IsBlank after → Ends (after ++ '}' :: rest) := by
    intro after rest hafter
    refine ends_append_of_isBlank hafter ?_
    rintro c ⟨⟩
    decide
  have htakes : TemplatePart.interpolationPattern.Takes
      ('$' :: '{' :: (before ++ p ++ after ++ ['}'])) [(1, p)] :=
    takes_interpolationPattern.mpr ⟨before, p, after, path, rfl, hbefore, hp, hafter, rfl⟩
  obtain ⟨⟨groups, rest'⟩, hm⟩ := Pattern.exists_head?_ways htakes rest
  obtain ⟨taken, heq, htaken⟩ := Pattern.takes_of_head?_ways hm
  obtain ⟨before', p', after', path', rfl, hbefore', hp', hafter', hgroups⟩ :=
    takes_interpolationPattern.mp htaken
  simp only [List.cons_append, List.append_assoc, List.nil_append, List.cons.injEq,
    true_and] at heq
  obtain ⟨rfl, -, hclose⟩ := hp.unique hp' hbefore hbefore' (hends rest hafter)
    (hends rest' hafter') heq
  have hbrace := head?_cons_false (p := Text.isBlank) (c := '}') (by decide)
  obtain ⟨-, hrest⟩ := run_unique hafter (hbrace rest) hafter' (hbrace rest') hclose
  obtain ⟨-, rfl⟩ := List.cons.inj hrest
  rw [hm]
  exact congrArg (fun groups => some (Pattern.Match.mk groups rest)) hgroups

/-- The head is cut off where it ends, since a word has neither a point nor a bracket. -/
theorem span_head {head : Text} {texts : List Text} (hhead : IsWord head)
    (htexts : List.Forall₂ Step.Written texts path) :
    (head ++ texts.flatten).span (fun c => c != '.' && c != '[') = (head, texts.flatten) := by
  refine span_append (fun c hc => ?_) fun c hc => ?_
  · have hword := hhead.2 c hc
    simp only [Bool.and_eq_true, bne_iff_ne, ne_eq]
    constructor <;> rintro rfl <;> exact absurd hword (by decide)
  · cases htexts with
    | nil => cases hc
    | cons hstep _ =>
      obtain ⟨d, text, rfl, hd⟩ := hstep.exists_cons
      cases hc
      rcases hd with rfl | rfl <;> decide

/-- A path is read with the segments of its steps. -/
theorem parse?_of_writesSteps (hbefore : IsBlank before) (hp : WritesSteps p path)
    (hafter : IsBlank after) : parse? (before ++ p ++ after) = path.mapM Step.segment? := by
  have hwhole := whole?_pathPattern hbefore hp hafter
  obtain ⟨head, texts, more, rfl, hhead, htexts, rfl⟩ := hp
  have hcut := span_head hhead htexts
  have hmore := mapM_flatten (search_segments htexts)
  have hkept : List.lookup 1 [(1, head ++ texts.flatten)] = some (head ++ texts.flatten) := rfl
  simp only [parse?, hwhole, hkept, hcut, List.mapM_cons, ← hmore, Step.segment?,
    Option.bind_eq_bind, Option.bind_some]
  cases (segmentPattern.search 0 texts.flatten).mapM segments? <;> rfl

theorem writesSteps_of_parse? {t : Text} {segments : PropertyPath}
    (h : parse? t = some segments) : ∃ before p after path, t = before ++ p ++ after ∧
      IsBlank before ∧ WritesSteps p path ∧ IsBlank after ∧
        path.mapM Step.segment? = some segments := by
  obtain ⟨groups, hwhole, -⟩ := Option.bind_eq_some_iff.mp h
  obtain ⟨before, p, after, path, rfl, hbefore, hp, hafter, -⟩ :=
    takes_pathPattern.mp (Pattern.takes_of_whole? hwhole)
  rw [parse?_of_writesSteps hbefore hp hafter] at h
  exact ⟨before, p, after, path, rfl, hbefore, hp, hafter, h⟩

end

theorem parse?_eq_some_iff {t : Text} {path : PropertyPath} :
    parse? t = some path ↔ Writes t path := by
  rw [writes_iff]
  constructor
  · exact writesSteps_of_parse?
  · rintro ⟨before, p, after, steps, rfl, hbefore, hp, hafter, hmap⟩
    rw [parse?_of_writesSteps hbefore hp hafter, hmap]

end PropertyPath

end MarkdownDirectives
