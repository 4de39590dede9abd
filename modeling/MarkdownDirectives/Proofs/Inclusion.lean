import MarkdownDirectives.Proofs.Reading
import MarkdownDirectives.Proofs.Nesting
import MarkdownDirectives.Proofs.Places

/-!
# Line breaks of included files

A file is cut into lines before its directives are looked for, but only a parse unifies its line
breaks first: the check whether a file has directives reads the text as it is. A tag line in front
of a carriage return is no tag line, so a file whose lines all end in one passes for a file without
directives.
-/

namespace MarkdownDirectives

/-! ### Writings of a text -/

namespace Text

/-- The second text is the first one with each line feed written as `LF`, `CRLF` or `CR`. A `CR` in
front of a line feed would be one break with it. -/
inductive WrittenAs : Text → Text → Prop
  | nil : WrittenAs [] []
  | char {c s s'} : c ≠ '\n' → c ≠ '\r' → WrittenAs s s' → WrittenAs (c :: s) (c :: s')
  | feed {s s'} : WrittenAs s s' → WrittenAs ('\n' :: s) ('\n' :: s')
  | both {s s'} : WrittenAs s s' → WrittenAs ('\n' :: s) ('\r' :: '\n' :: s')
  | carriage {s s'} : s'.head? ≠ some '\n' → WrittenAs s s' → WrittenAs ('\n' :: s) ('\r' :: s')

theorem WrittenAs.unifyBreaks {s s' : Text} (h : s.WrittenAs s') : s'.unifyBreaks = s := by
  induction h with
  | nil => rfl
  | char _ hr _ ih => rw [unifyBreaks_cons _ hr, ih]
  | feed _ ih => rw [unifyBreaks_cons _ (by decide), ih]
  | both _ ih => rw [Text.unifyBreaks, ih]
  | carriage hs _ ih => rw [unifyBreaks_return hs, ih]

theorem WrittenAs.not_mem {s s' : Text} (h : s.WrittenAs s') : '\r' ∉ s :=
  h.unifyBreaks ▸ not_mem_unifyBreaks s'

theorem writtenAs_unifyBreaks (t : Text) : t.unifyBreaks.WrittenAs t := by
  fun_induction Text.unifyBreaks t with
  | case1 => exact .nil
  | case2 rest ih => exact .both ih
  | case3 c rest hn ih =>
    by_cases hr : c = '\r'
    · subst hr
      refine .carriage (fun hh => ?_) ih
      obtain ⟨rest, rfl⟩ := List.head?_eq_some_iff.mp hh
      exact hn rest rfl rfl
    · rw [if_neg hr]
      by_cases hf : c = '\n'
      · exact hf ▸ .feed ih
      · exact .char hf hr ih

/-- The writings of a text are the texts that it is read from. -/
theorem writtenAs_iff {s s' : Text} : s.WrittenAs s' ↔ s'.unifyBreaks = s :=
  ⟨WrittenAs.unifyBreaks, fun h => h ▸ writtenAs_unifyBreaks s'⟩

theorem WrittenAs.normalizeLineBreaks {s s' : Text} (h : s.WrittenAs s') :
    s'.normalizeLineBreaks = s.normalizeLineBreaks := by
  have hs : s'.unifyBreaks = s.unifyBreaks := by
    rw [h.unifyBreaks, unifyBreaks_of_not_mem h.not_mem]
  simp only [Text.normalizeLineBreaks, hs]

/-- No line feed stands without a carriage return in front of it. -/
def Returned (t : Text) : Prop :=
  ∀ before after, t = before ++ '\n' :: after → before.getLast? = some '\r'

theorem returned_iff {t : Text} : t.Returned ↔
    ∀ k < t.length, t[k]? = some '\n' → (t.take k).getLast? = some '\r' := by
  constructor
  · intro h k hk hfeed
    have hcut : t = t.take k ++ '\n' :: t.drop (k + 1) := by
      rw [List.getElem?_eq_getElem hk, Option.some.injEq] at hfeed
      rw [← hfeed, List.getElem_cons_drop, List.take_append_drop]
    exact h _ _ hcut
  · rintro h before after rfl
    have hfeed := h before.length (by simp) (by simp)
    rwa [List.take_left] at hfeed

instance (t : Text) : Decidable t.Returned := decidable_of_iff _ returned_iff.symm

end Text

/-! ### Lines in front of a carriage return -/

theorem TagForm.not_isOpening_return {form : TagForm} {expression line : Text}
    (h : line.getLast? = some '\r') : ¬ form.IsOpening expression line := by
  rintro ⟨-, left, right, after, -, -, hafter, rfl⟩
  rcases List.eq_nil_or_concat after with rfl | ⟨after, c, rfl⟩
  · cases form <;> simp [TagForm.endMark] at h
  · have hc := hafter c (by simp)
    simp only [List.concat_eq_append, ← List.append_assoc, List.getLast?_concat,
      Option.some.injEq] at h
    subst h
    exact absurd hc (by decide)

/-- Only the last line can end without a carriage return. -/
theorem Text.Returned.getLast? {t : Text} (h : t.Returned) {before after : List Text} {line : Text}
    (hl : t.lines = before ++ line :: after) (ha : after ≠ []) : line.getLast? = some '\r' := by
  have hfront : before ++ [line] ≠ [] := by simp
  have ht : t = ofLines (before ++ [line]) ++ '\n' :: ofLines after := by
    rw [← ofLines_append hfront ha, List.append_assoc, List.singleton_append, ← hl, ofLines_lines]
  have hlast := h _ _ ht
  by_cases hb : before = []
  · subst hb
    exact hlast
  · rw [ofLines_append hb (List.cons_ne_nil _ _), List.getLast?_append] at hlast
    have hline : ofLines [line] = line := rfl
    rw [hline] at hlast
    cases line with
    | nil => simp at hlast
    | cons c line => simpa using hlast

/-- Without an opening tag in front of the last line no envelope is closed. -/
theorem splitLines_unclosed {number : Nat} {ls : List Text} {fragments : List Fragment}
    (h : ∀ before line after, ls = before ++ line :: after → after ≠ [] →
      openingTag? line = none)
    (hs : splitLines .absorb number 0 ls = .ok fragments) :
    fragments.any Fragment.isTerminatedDirective = false := by
  induction ls generalizing number fragments with
  | nil =>
    cases hs
    rfl
  | cons line more ih =>
    have hmore : ∀ before line after, more = before ++ line :: after → after ≠ [] →
        openingTag? line = none :=
      fun before l after hm => h (line :: before) l after (by rw [hm]; rfl)
    cases ho : openingTag? line with
    | none =>
      simp only [splitLines, ho] at hs
      obtain ⟨rest, hr, rfl⟩ := exists_of_map_eq_ok hs
      rw [Fragment.apply_consText (f := (·.any Fragment.isTerminatedDirective)) fun _ _ => rfl]
      exact ih hmore hr
    | some tag =>
      have hend : more = [] := by
        by_contra hne
        have hnone := h [] line more rfl hne
        rw [ho] at hnone
        cases hnone
      subst hend
      simp only [splitLines, ho] at hs
      cases hs
      rfl

theorem hasDirectives_of_returned {t : Text} (h : t.Returned) : hasDirectives t = false := by
  have hlines : ∀ before line after, t.lines = before ++ line :: after → after ≠ [] →
      openingTag? line = none := by
    intro before line after hl ha
    refine openingTag?_eq_none_iff.mpr fun form expression ho => ?_
    exact TagForm.not_isOpening_return (h.getLast? hl ha) ho
  unfold hasDirectives
  cases hs : split .absorb t with
  | error e => rfl
  | ok fragments => exact splitLines_unclosed hlines hs

/-! ### A file with another text -/

namespace Disk

variable {disk : Disk} {location folder : Location} {s t : Text} {p : Path}

/-! A file with another text is found and missed on the same paths. -/

/-- The entry at a place after the file at a location was given a text. -/
def Place.refill (location : Location) (t : Text) : Place → Place
  | .found other entry => .found other (if other = location then Entry.file (.text t) else entry)
  | .free other => .free other

variable (hf : disk.entry? location = some (.file (.text s)))

include hf

theorem ne_nil_of_file : location ≠ [] := by
  rintro rfl
  cases hf

theorem walk_put (start : Location) (steps : List Text) :
    (disk.put location (.file (.text t))).walk start steps =
      (disk.walk start steps).map (Place.refill location t) := by
  have hput : ∀ other, Disk.entry? (disk.put location (.file (.text t))) other =
      if other = location then some (.file (.text t)) else disk.entry? other :=
    entry?_put (ne_nil_of_file hf)
  induction steps generalizing start with
  | nil =>
    simp only [walk, hput]
    by_cases hs : start = location
    · subst hs
      simp [hf, Except.map, Place.refill]
    · cases he : disk.entry? start <;> simp [hs, Except.map, Place.refill]
  | cons step more ih =>
    simp only [walk, hput]
    by_cases hs : start = location
    · subst hs
      simp [hf, Except.map]
    · rw [if_neg hs]
      cases he : disk.entry? start with
      | none => rfl
      | some entry =>
        cases entry with
        | file content => rfl
        | folder =>
          simp only [ih]
          split
          · rfl
          · split <;> rfl

theorem locate_put :
    (disk.put location (.file (.text t))).locate folder p =
      (disk.locate folder p).map (Place.refill location t) := by
  unfold locate
  split
  · rfl
  · split
    · rfl
    · exact walk_put hf _ _

theorem find_put :
    (disk.put location (.file (.text t))).find folder p =
      (disk.find folder p).map fun found =>
        (found.1, if found.1 = location then .file (.text t) else found.2) := by
  rw [find_eq, find_eq, locate_put hf]
  cases hl : disk.locate folder p with
  | error e => rfl
  | ok place =>
    cases place with
    | free other => rfl
    | found other entry =>
      have he := entry?_of_locate hl
      by_cases ho : other = location
      · rw [ho, hf] at he
        cases he
        by_cases hp : endsWithSlash p = true <;>
          simp [Except.map, Except.bind, Place.refill, Place.reached, ho, hp]
      · cases entry with
        | folder => simp [Except.map, Except.bind, Place.refill, Place.reached, ho]
        | file content =>
          by_cases hp : endsWithSlash p = true <;>
            simp [Except.map, Except.bind, Place.refill, Place.reached, ho, hp]

theorem exists?_put :
    (disk.put location (.file (.text t))).exists? folder p = disk.exists? folder p := by
  unfold exists?
  rw [find_put hf]
  cases disk.find folder p <;> rfl

/-- Only the paths that lead to the file read another text. -/
theorem read_put :
    (disk.put location (.file (.text t))).read folder p = disk.read folder p ∨
      disk.read folder p = .ok s ∧
        (disk.put location (.file (.text t))).read folder p = .ok t := by
  unfold read
  rw [find_put hf]
  cases hp : disk.find folder p with
  | error e => exact .inl rfl
  | ok found =>
    obtain ⟨other, entry⟩ := found
    by_cases ho : other = location
    · subst ho
      have he := entry?_of_find hp
      rw [hf] at he
      cases he
      refine .inr ⟨rfl, ?_⟩
      simp only [Except.map, if_pos]
      rfl
    · left
      simp only [Except.map, if_neg ho]

end Disk

def World.withFile (world : World) (location : Location) (t : Text) : World :=
  { world with disk := world.disk.put location (.file (.text t)) }

/-! ### Worlds that nested parses do not tell apart -/

/-- Both worlds have the same files, and where these differ they hold texts with directives that
are normalized to the same. -/
structure World.Alike (world world' : World) : Prop where
  now : world'.now = world.now
  exists? : ∀ p, world'.exists? p = world.exists? p
  read : ∀ p, world'.read p = world.read p ∨ ∃ s s', world.read p = .ok s ∧
    world'.read p = .ok s' ∧ hasDirectives s = true ∧ hasDirectives s' = true ∧
    s'.normalizeLineBreaks = s.normalizeLineBreaks

theorem World.alike_withFile {world : World} {location : Location} {s t : Text}
    (hf : world.disk.entry? location = some (.file (.text s))) (hs : hasDirectives s = true)
    (ht : hasDirectives t = true) (hn : t.normalizeLineBreaks = s.normalizeLineBreaks) :
    world.Alike (world.withFile location t) where
  now := rfl
  exists? _ := Disk.exists?_put hf
  read _ := (Disk.read_put hf).imp_right fun h => ⟨s, t, h.1, h.2, hs, ht, hn⟩

section

variable {world world' : World} {nested : Text → Eval Text}

theorem parseNested_congr {levels : Nat} {s t : Text}
    (h : s.normalizeLineBreaks = t.normalizeLineBreaks) :
    parseNested world levels s = parseNested world levels t := by
  cases levels with
  | zero => rfl
  | succ levels => simp only [parseNested, render, h]

theorem Context.resolve?_alike (h : world.Alike world') (context : Context) (reference : Text) :
    context.resolve? world' reference = context.resolve? world reference := by
  simp only [resolve?, h.exists?]

theorem includeFile_alike (h : world.Alike world')
    (hn : ∀ s t, s.normalizeLineBreaks = t.normalizeLineBreaks → nested s = nested t)
    (reference : Text) :
    includeFile world' nested reference = includeFile world nested reference := by
  funext context
  unfold includeFile
  simp only [Eval.get_bind, Context.resolve?_alike h]
  cases context.resolve? world reference with
  | none => rfl
  | some path =>
    rcases h.read path with he | ⟨s, s', hs, hs', hd, hd', hnorm⟩
    · simp only [he]
    · simp only [hs, hs', hd, hd', if_true, hn _ _ hnorm]

theorem perform_alike (h : world.Alike world')
    (hn : ∀ s t, s.normalizeLineBreaks = t.normalizeLineBreaks → nested s = nested t)
    (op : Operation) (arguments : List Value) :
    perform world' nested op arguments = perform world nested op arguments := by
  cases op with
  | resolve => simp only [perform, Context.resolve, Context.resolve?_alike h]
  | existence => simp only [perform, Context.existing, Context.resolve?_alike h]
  | timestamp => simp only [perform, Context.timestamp, h.now]
  | inclusion => simp only [perform, includeFile_alike h hn]
  | _ => rfl

mutual

theorem evaluate_alike (hi : invoke world' nested = invoke world nested) (e : Expression) :
    evaluate world' nested e = evaluate world nested e := by
  cases e with
  | call name arguments => simp only [evaluate, evaluateAll_alike hi arguments, hi]
  | member object name => simp only [evaluate, evaluate_alike hi object]
  | index object position =>
    simp only [evaluate, evaluate_alike hi object, evaluate_alike hi position]
  | not e => simp only [evaluate, evaluate_alike hi e]
  | binary operator left right =>
    cases operator <;> simp only [evaluate, evaluate_alike hi left, evaluate_alike hi right]
  | _ => rfl

theorem evaluateAll_alike (hi : invoke world' nested = invoke world nested)
    (es : List Expression) : evaluateAll world' nested es = evaluateAll world nested es := by
  cases es with
  | nil => rfl
  | cons e more => simp only [evaluateAll, evaluate_alike hi e, evaluateAll_alike hi more]

end

theorem renderFragments_alike (hi : invoke world' nested = invoke world nested)
    (fragments : List Fragment) :
    renderFragments world' nested fragments = renderFragments world nested fragments := by
  have ht : ∀ t, evaluateText world' nested t = evaluateText world nested t := by
    intro t
    unfold evaluateText
    split
    · exact evaluate_alike hi _
    · rfl
  have hf : ∀ fragment, renderFragment world' nested fragment =
      renderFragment world nested fragment := by
    intro fragment
    cases fragment with
    | text t => rfl
    | directive d => simp only [renderFragment, renderDirective, generatedBody, ht]
  induction fragments with
  | nil => rfl
  | cons fragment more ih => simp only [renderFragments, hf, ih]

theorem parseNested_alike (h : world.Alike world') (levels : Nat) :
    parseNested world' levels = parseNested world levels := by
  induction levels with
  | zero => rfl
  | succ levels ih =>
    have hi : invoke world' (parseNested world levels) =
        invoke world (parseNested world levels) := by
      funext name arguments
      simp only [invoke, perform_alike h fun s t hs => parseNested_congr hs]
    funext source
    simp only [parseNested, ih, render, renderFragments_alike hi]
    rfl

theorem parsePart_alike (h : world.Alike world') : parsePart world' = parsePart world := by
  funext source context
  simp only [parsePart, parseNested_alike h]

end

/-! ### Including both writings -/

/-- Both succeed with texts that are normalized to the same, or both fail; and they leave the same
context. -/
def SameInclusion (x y : Except Error Text × Context) : Prop :=
  x.1.toOption.map Text.normalizeLineBreaks = y.1.toOption.map Text.normalizeLineBreaks ∧ x.2 = y.2

theorem SameInclusion.symm {x y : Except Error Text × Context} (h : SameInclusion x y) :
    SameInclusion y x :=
  ⟨h.1.symm, h.2.symm⟩

section

variable {world : World} {context : Context} {path reference : Text}

/-- Parsing the text of a file that is being included changes no more than its line breaks. -/
def Inert (world : World) (context : Context) (path : Path) (t : Text) : Prop :=
  ∃ output, parsePart world t (context.including path) = (.ok output, context.including path) ∧
    output.normalizeLineBreaks = t.normalizeLineBreaks

def parseFile (world : World) (path : Path) (t : Text) : Eval Text :=
  Eval.within (·.including path) (fun c => { c with includes := c.includes.tail })
    (parsePart world t)

theorem includeFile_of_read {t : Text} (hr : context.resolve? world reference = some path)
    (hp : path ∉ context.includes) (ht : world.read path = .ok t) :
    includeFile world (parsePart world) reference context =
      if hasDirectives t then parseFile world path t context else (.ok t, context) := by
  unfold includeFile
  have hc : context.includes.contains path = false := by simpa using hp
  simp only [Eval.get_bind, hr, hc, ht, Bool.false_eq_true, if_false]
  cases hasDirectives t <;> rfl

/-- A text is left as it is where it would be parsed. -/
theorem sameInclusion_parseFile {s t : Text}
    (h : s.normalizeLineBreaks = t.normalizeLineBreaks) :
    SameInclusion (parseFile world path s context) (.ok t, context) ↔
      Inert world context path s := by
  have hg : (context.including path).GrowsTo (parsePart world s (context.including path)).2 :=
    parsePart_framed world s _
  unfold SameInclusion Inert parseFile Eval.within
  rcases hp : parsePart world s (context.including path) with ⟨e | output, after⟩
  · have hfails : ∀ u : Text, none = some u → False := fun u hu => by cases hu
    exact iff_of_false (fun hx => hfails _ hx.1) fun ⟨_, ho, _⟩ => by cases ho
  · rw [hp] at hg
    simp only [Except.toOption, Option.map_some, Option.some.injEq]
    constructor
    · rintro ⟨ho, hleft⟩
      have hafter : after = context.including path := by
        subst hleft
        have hi : after.includes = path :: after.includes.tail := hg.includes
        rw [Context.including, ← hi]
      exact ⟨output, by rw [hafter], ho.trans h.symm⟩
    · rintro ⟨_, ho, hn⟩
      cases ho
      exact ⟨hn.trans h, rfl⟩

/-- Whether the writing of a line break shows. The two inclusions agree if the file is being
included already, if the check for directives says the same of both writings, or if parsing the one
in which it sees directives changes nothing. For lines that all end in a carriage return it sees
none. -/
theorem includeFile_writtenAs {location : Location} {s s' : Text}
    (hr : context.resolve? world reference = some path)
    (hf : world.disk.find world.folder path = .ok (location, .file (.text s)))
    (hw : s.WrittenAs s') :
    (SameInclusion (includeFile world (parsePart world) reference context)
        (includeFile (world.withFile location s') (parsePart (world.withFile location s')) reference
          context) ↔
      path ∈ context.includes ∨ hasDirectives s = hasDirectives s' ∨
        (hasDirectives s = true ∧ Inert world context path s) ∨
        (hasDirectives s' = true ∧ Inert (world.withFile location s') context path s')) ∧
      (s'.Returned → hasDirectives s' = false) := by
  refine ⟨?_, hasDirectives_of_returned⟩
  have he := Disk.entry?_of_find hf
  have hnorm := hw.normalizeLineBreaks
  have hr' : context.resolve? (world.withFile location s') reference = some path := by
    rw [← hr]
    simp only [Context.resolve?, World.exists?, World.withFile, Disk.exists?_put he]
    rfl
  have hs : world.read path = .ok s := by
    simp only [World.read, Disk.read, hf]
    rfl
  have hs' : (world.withFile location s').read path = .ok s' := by
    simp only [World.read, Disk.read, World.withFile, Disk.find_put he, hf]
    simp only [Except.map, if_pos]
    rfl
  by_cases hp : path ∈ context.includes
  · rw [includeFile_of_open hr hp, includeFile_of_open hr' hp]
    exact iff_of_true ⟨rfl, rfl⟩ (.inl hp)
  rw [includeFile_of_read hr hp hs, includeFile_of_read hr' hp hs']
  have hsame : SameInclusion (parseFile world path s context) (.ok s', context) ↔
      Inert world context path s := sameInclusion_parseFile hnorm.symm
  have hsame' : SameInclusion (parseFile (world.withFile location s') path s' context)
      (.ok s, context) ↔ Inert (world.withFile location s') context path s' :=
    sameInclusion_parseFile hnorm
  cases hd : hasDirectives s with
  | false =>
    cases hd' : hasDirectives s' with
    | false =>
      have hsame : SameInclusion (.ok s, context) (.ok s', context) :=
        ⟨congrArg some hnorm.symm, rfl⟩
      simpa using hsame
    | true =>
      have hswap : SameInclusion (.ok s, context)
          (parseFile (world.withFile location s') path s' context) ↔
            Inert (world.withFile location s') context path s' :=
        ⟨fun h => hsame'.mp h.symm, fun h => (hsame'.mpr h).symm⟩
      simpa [hp] using hswap
  | true =>
    cases hd' : hasDirectives s' with
    | false => simpa [hp] using hsame
    | true =>
      -- neither world shows in a nested parse, so only the normalized text counts
      have hparse : parsePart (world.withFile location s') s' = parsePart world s := by
        rw [parsePart_alike (World.alike_withFile he hd hd' hnorm)]
        funext c
        simp only [parsePart, parseNested_congr hnorm]
      have hfile : parseFile (world.withFile location s') path s' = parseFile world path s := by
        simp only [parseFile, hparse]
      simp [hfile, SameInclusion]

end

/-! ### A file with carriage returns -/

def feedFile : Text := "a\n<? 1 ?>\n<?!>\n".toList

/-- The file with a carriage return in front of the first line feed, so that the tags are read. -/
def mixedFile : Text := "a\r\n<? 1 ?>\n<?!>\n".toList

/-- The file with a carriage return in front of each line feed. -/
def returnFile : Text := "a\r\n<? 1 ?>\r\n<?!>\r\n".toList

def feedWorld : World := ⟨⟨[(["a.md".toList], .file (.text feedFile))]⟩, [], 0⟩

def feedContext : Context := Context.new feedWorld [] ['/'] {}

theorem includeFile_mixedFile :
    feedContext.resolve? feedWorld "a.md".toList = some "/a.md".toList ∧
      feedWorld.disk.find feedWorld.folder "/a.md".toList =
        .ok (["a.md".toList], .file (.text feedFile)) ∧
      feedFile.WrittenAs mixedFile ∧
      SameInclusion (includeFile feedWorld (parsePart feedWorld) "a.md".toList feedContext)
        (includeFile (feedWorld.withFile ["a.md".toList] mixedFile)
          (parsePart (feedWorld.withFile ["a.md".toList] mixedFile)) "a.md".toList feedContext) ∧
      returnFile.Returned ∧ hasDirectives returnFile = false := by
  have hr : feedContext.resolve? feedWorld "a.md".toList = some "/a.md".toList := by
    decide +kernel
  have hf : feedWorld.disk.find feedWorld.folder "/a.md".toList =
      .ok (["a.md".toList], .file (.text feedFile)) := rfl
  have hmixed : feedFile.WrittenAs mixedFile := Text.writtenAs_iff.mpr (by decide +kernel)
  have hreturn : feedFile.WrittenAs returnFile := Text.writtenAs_iff.mpr (by decide +kernel)
  have hsees : hasDirectives feedFile = hasDirectives mixedFile := by decide +kernel
  have hret : returnFile.Returned := by decide +kernel
  exact ⟨hr, hf, hmixed, (includeFile_writtenAs hr hf hmixed).1.mpr (.inr (.inl hsees)), hret,
    (includeFile_writtenAs hr hf hreturn).2 hret⟩

/-- With carriage returns throughout, the directive of the file is left alone. -/
theorem includeFile_returnFile :
    feedContext.resolve? feedWorld "a.md".toList = some "/a.md".toList ∧
      feedWorld.disk.find feedWorld.folder "/a.md".toList =
        .ok (["a.md".toList], .file (.text feedFile)) ∧
      feedFile.WrittenAs returnFile ∧
      ¬ SameInclusion (includeFile feedWorld (parsePart feedWorld) "a.md".toList feedContext)
        (includeFile (feedWorld.withFile ["a.md".toList] returnFile)
          (parsePart (feedWorld.withFile ["a.md".toList] returnFile)) "a.md".toList
          feedContext) := by
  refine ⟨by decide +kernel, rfl, Text.writtenAs_iff.mpr (by decide +kernel), fun h => ?_⟩
  have hne : ¬ (includeFile feedWorld (parsePart feedWorld) "a.md".toList
      feedContext).1.toOption.map Text.normalizeLineBreaks =
    (includeFile (feedWorld.withFile ["a.md".toList] returnFile)
      (parsePart (feedWorld.withFile ["a.md".toList] returnFile)) "a.md".toList
      feedContext).1.toOption.map Text.normalizeLineBreaks := by
    decide +kernel
  exact hne h.1

end MarkdownDirectives
