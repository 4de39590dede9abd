import MarkdownDirectives.Proofs.SuffixedNames

/-!
# Cleaned paths

What cleaning keeps of a path is a trail: whether it begins at the root, how many folders it climbs
before it descends, and the names on the way down. The pieces of a path change its trail one after
the other; the stack of components that cleaning builds is the trail at every moment, and the trail
can be read off the cleaned path. So paths are compared and joined by their trails.
-/

namespace MarkdownDirectives

namespace Path

/-- What a path comes to when every `..` takes back the name before it. -/
structure Trail where
  isRooted : Bool
  /-- How many folders are climbed first. -/
  ups : Nat
  names : List Text
  deriving DecidableEq, Repr

namespace Trail

def front (trail : Trail) : List Component := if trail.isRooted then [.root] else []

def pieces (trail : Trail) : List Text := List.replicate trail.ups ['.', '.'] ++ trail.names

def components (trail : Trail) : List Component := trail.front ++ trail.pieces.map componentOf

def path (trail : Trail) : Path :=
  if trail.components = [] then ['.'] else assemble trail.front trail.pieces

def advance (trail : Trail) (piece : Text) : Trail :=
  if piece ≠ ['.', '.'] then { trail with names := trail.names ++ [piece] }
  else if trail.names ≠ [] then { trail with names := trail.names.dropLast }
  else if trail.isRooted then trail
  else { trail with ups := trail.ups + 1 }

def extend (trail : Trail) (names : List Text) : Trail :=
  { trail with names := trail.names ++ names }

end Trail

def origin (p : Path) : Trail := ⟨isAbsolute p, 0, []⟩

def trail (p : Path) : Trail := (names p).foldl Trail.advance (origin p)

/-! ### Pieces -/

/-- A piece that leads somewhere else. -/
structure IsPiece (piece : Text) : Prop where
  clean : '/' ∉ piece
  visible : isIgnorable piece = false

/-- A piece that leads down. -/
structure IsEntry (n : Text) : Prop extends IsPiece n where
  down : n ≠ ['.', '.']

theorem IsPiece.ne {piece : Text} (h : IsPiece piece) : piece ≠ [] ∧ piece ≠ ['.'] :=
  isIgnorable_eq_false_iff.mp h.visible

theorem isPiece_of_mem_names {p : Path} {piece : Text} (h : piece ∈ names p) : IsPiece piece := by
  obtain ⟨hmem, hvisible⟩ := List.mem_filter.mp h
  exact ⟨Text.not_mem_of_mem_splitOn hmem, by simpa using hvisible⟩

theorem isPiece_up : IsPiece ['.', '.'] := ⟨by decide, by decide⟩

theorem componentOf_eq_name {n : Text} (h : n ≠ ['.', '.']) : componentOf n = .name n :=
  if_neg (by simpa using h)

theorem text_componentOf (piece : Text) : (componentOf piece).text = piece := by
  by_cases h : piece = ['.', '.']
  · subst h
    rfl
  · rw [componentOf_eq_name h]
    rfl

theorem filter_visible {pieces : List Text} (h : ∀ piece ∈ pieces, IsPiece piece) :
    pieces.filter (!isIgnorable ·) = pieces := by
  rw [List.filter_eq_self]
  intro piece hp
  simp [(h piece hp).visible]

theorem dropIgnorableEnd_visible {pieces : List Text} (h : ∀ piece ∈ pieces, IsPiece piece) :
    dropIgnorableEnd pieces = pieces := by
  rcases List.eq_nil_or_concat pieces with rfl | ⟨front, last, rfl⟩
  · rfl
  · rw [List.concat_eq_append] at h ⊢
    have hlast : IsPiece last := h last (by simp)
    exact dropIgnorableEnd_blanks (fun _ hb => absurd hb List.not_mem_nil) hlast.visible

/-! ### Joined paths -/

theorem names_join {p q : Path} (h : isAbsolute q = false) :
    names (join p q) = names p ++ names q := by
  rw [names_eq_filter_steps, names_eq_filter_steps, names_eq_filter_steps, steps_join h,
    List.filter_append]

theorem isAbsolute_join {p q : Path} (h : isAbsolute q = false) :
    isAbsolute (join p q) = isAbsolute p := by
  unfold join
  rw [h]
  cases p with
  | nil => exact h
  | cons c rest =>
    simp only [Bool.false_eq_true, if_false]
    split <;> rfl

theorem trail_join {p q : Path} (h : isAbsolute q = false) :
    trail (join p q) = (names q).foldl Trail.advance (trail p) := by
  rw [trail, origin, names_join h, isAbsolute_join h, List.foldl_append]
  rfl

/-! ### Advancing -/

namespace Trail

variable {trail next : Trail} {piece : Text} {pieces : List Text}

theorem advance_name (h : piece ≠ ['.', '.']) :
    trail.advance piece = { trail with names := trail.names ++ [piece] } := if_pos h

/-- What a piece does to a trail. -/
inductive Advances : Trail → Text → Trail → Prop
  | down {isRooted ups names piece} (h : piece ≠ ['.', '.']) :
    Advances ⟨isRooted, ups, names⟩ piece ⟨isRooted, ups, names ++ [piece]⟩
  | up (isRooted ups front n) :
    Advances ⟨isRooted, ups, front ++ [n]⟩ ['.', '.'] ⟨isRooted, ups, front⟩
  | atRoot (ups) : Advances ⟨true, ups, []⟩ ['.', '.'] ⟨true, ups, []⟩
  | climb (ups) : Advances ⟨false, ups, []⟩ ['.', '.'] ⟨false, ups + 1, []⟩

theorem advances_advance (trail : Trail) (piece : Text) :
    Advances trail piece (trail.advance piece) := by
  obtain ⟨isRooted, ups, names⟩ := trail
  by_cases hp : piece = ['.', '.']
  · subst hp
    rcases List.eq_nil_or_concat names with rfl | ⟨front, n, rfl⟩
    · cases isRooted with
      | true => exact .atRoot ups
      | false => exact .climb ups
    · have hup : advance ⟨isRooted, ups, front.concat n⟩ ['.', '.'] = ⟨isRooted, ups, front⟩ := by
        simp [advance]
      rw [hup, List.concat_eq_append]
      exact .up isRooted ups front n
  · rw [advance_name hp]
    exact .down hp

theorem Advances.isRooted (ha : Advances trail piece next) : next.isRooted = trail.isRooted := by
  cases ha <;> rfl

theorem isRooted_foldl (trail : Trail) (pieces : List Text) :
    (pieces.foldl advance trail).isRooted = trail.isRooted := by
  induction pieces generalizing trail with
  | nil => rfl
  | cons piece pieces ih => rw [List.foldl_cons, ih, (advances_advance trail piece).isRooted]

theorem foldl_advance_names {names : List Text} (h : ∀ n ∈ names, IsEntry n) :
    names.foldl advance trail = trail.extend names := by
  induction names generalizing trail with
  | nil => simp [extend]
  | cons n names ih =>
    obtain ⟨hn, hnames⟩ := List.forall_mem_cons.mp h
    rw [List.foldl_cons, ih hnames, advance_name hn.down]
    simp [extend]

/-! ### Proper trails -/

/-- A trail that a path can have: the root is not climbed above, and every name leads down. -/
structure Proper (trail : Trail) : Prop where
  rooted : trail.isRooted = true → trail.ups = 0
  entries : ∀ n ∈ trail.names, IsEntry n

theorem Advances.proper (ha : Advances trail piece next) (h : trail.Proper) (hp : IsPiece piece) :
    next.Proper := by
  cases ha with
  | down hdown =>
    refine ⟨h.rooted, fun m hm => ?_⟩
    rcases List.mem_append.mp hm with hm | hm
    · exact h.entries m hm
    · rw [List.mem_singleton.mp hm]
      exact ⟨hp, hdown⟩
  | up _ _ front n => exact ⟨h.rooted, fun m hm => h.entries m (List.mem_append_left _ hm)⟩
  | atRoot _ => exact h
  | climb _ => exact ⟨fun hr => (nomatch hr), h.entries⟩

theorem Proper.advance (h : trail.Proper) (hp : IsPiece piece) : (trail.advance piece).Proper :=
  (advances_advance trail piece).proper h hp

theorem Proper.foldl (h : trail.Proper) (hp : ∀ piece ∈ pieces, IsPiece piece) :
    (pieces.foldl Trail.advance trail).Proper := by
  induction pieces generalizing trail with
  | nil => exact h
  | cons piece pieces ih =>
    obtain ⟨hpiece, hpieces⟩ := List.forall_mem_cons.mp hp
    exact ih (h.advance hpiece) hpieces

theorem Proper.isPiece (h : trail.Proper) : ∀ piece ∈ trail.pieces, IsPiece piece := by
  intro piece hp
  rcases List.mem_append.mp hp with hp | hp
  · rw [List.eq_of_mem_replicate hp]
    exact isPiece_up
  · exact (h.entries piece hp).toIsPiece

/-! ### Climbing -/

/-- The trail some folders further up. -/
def climb (trail : Trail) (n : Nat) : Trail := (List.replicate n ['.', '.']).foldl advance trail

theorem climb_succ (trail : Trail) (n : Nat) :
    trail.climb (n + 1) = (trail.climb n).advance ['.', '.'] := by
  rw [climb, List.replicate_succ', List.foldl_append]
  rfl

theorem isRooted_climb (trail : Trail) (n : Nat) : (trail.climb n).isRooted = trail.isRooted :=
  isRooted_foldl trail _

theorem Advances.length_up (ha : Advances trail ['.', '.'] next) :
    next.names.length = trail.names.length - 1 := by
  cases ha with
  | down hdown => exact absurd rfl hdown
  | up _ _ front n => simp
  | atRoot _ => rfl
  | climb _ => rfl

theorem Advances.ups_up (ha : Advances trail ['.', '.'] next) :
    next.ups = if trail.isRooted then trail.ups else trail.ups + (1 - trail.names.length) := by
  cases ha with
  | down hdown => exact absurd rfl hdown
  | up _ _ front n => simp
  | atRoot _ => rfl
  | climb _ => rfl

theorem length_climb (trail : Trail) (n : Nat) :
    (trail.climb n).names.length = trail.names.length - n := by
  induction n with
  | zero => rfl
  | succ n ih =>
    rw [climb_succ, (advances_advance _ _).length_up, ih]
    omega

theorem ups_climb (trail : Trail) (n : Nat) :
    (trail.climb n).ups =
      if trail.isRooted then trail.ups else trail.ups + (n - trail.names.length) := by
  induction n with
  | zero => simp [climb]
  | succ n ih =>
    rw [climb_succ, (advances_advance _ _).ups_up, isRooted_climb, length_climb, ih]
    split
    · rfl
    · omega

theorem climb_origin (n : Nat) : climb ⟨false, 0, []⟩ n = ⟨false, n, []⟩ := by
  induction n with
  | zero => rfl
  | succ n ih =>
    rw [climb_succ, ih]
    rfl

theorem Proper.foldl_advance_pieces (h : trail.Proper) (start : Trail) :
    trail.pieces.foldl Trail.advance start = (start.climb trail.ups).extend trail.names := by
  rw [Trail.pieces, List.foldl_append, foldl_advance_names h.entries]
  rfl

end Trail

theorem proper_origin (p : Path) : (origin p).Proper :=
  ⟨fun _ => rfl, fun _ hn => absurd hn List.not_mem_nil⟩

theorem proper_trail (p : Path) : (trail p).Proper :=
  (proper_origin p).foldl fun _ hp => isPiece_of_mem_names hp

/-! ### Cleaning -/

namespace Trail

variable {trail next : Trail} {piece : Text} {pieces : List Text}

theorem reverse_components_ups (ups : Nat) :
    (components ⟨false, ups, []⟩).reverse = List.replicate ups .parent := by
  simp [components, front, pieces, componentOf]

/-- The stack of components, last component first, is the trail at every moment. -/
theorem Advances.cleanStep (ha : Advances trail piece next) (h : trail.Proper) :
    Path.cleanStep trail.components.reverse (componentOf piece) = next.components.reverse := by
  cases ha with
  | down hdown =>
    rw [componentOf_eq_name hdown]
    simp [Path.cleanStep, components, Trail.front, pieces, componentOf_eq_name hdown]
  | up _ _ front n =>
    have hdown : n ≠ ['.', '.'] := (h.entries n (by simp)).down
    simp [components, Trail.front, pieces, componentOf_eq_name hdown]
    rfl
  | atRoot ups =>
    have hups : ups = 0 := h.rooted rfl
    subst hups
    rfl
  | climb ups =>
    rw [reverse_components_ups, reverse_components_ups]
    cases ups <;> rfl

theorem Proper.foldl_cleanStep (h : trail.Proper) (hp : ∀ piece ∈ pieces, IsPiece piece) :
    (pieces.map componentOf).foldl Path.cleanStep trail.components.reverse =
      (pieces.foldl Trail.advance trail).components.reverse := by
  induction pieces generalizing trail with
  | nil => rfl
  | cons piece pieces ih =>
    obtain ⟨hpiece, hpieces⟩ := List.forall_mem_cons.mp hp
    rw [List.map_cons, List.foldl_cons, (advances_advance trail piece).cleanStep h,
      ih (h.advance hpiece) hpieces, List.foldl_cons]

theorem Proper.assembled (h : trail.Proper) : Assembled trail.front trail.pieces where
  front := by
    cases hr : trail.isRooted with
    | true => exact .inl (by simp [Trail.front, hr])
    | false =>
      refine .inr (.inr ⟨by simp [Trail.front, hr], fun piece hp => ?_⟩)
      exact (h.isPiece piece (List.mem_of_mem_head? hp)).ne
  clean := fun piece hp => (h.isPiece piece hp).clean

end Trail

theorem cleanComponents_components (p : Path) :
    cleanComponents (components p) = (trail p).components := by
  have hstart : (frontAndPieces p).1.foldl cleanStep [] = (origin p).components.reverse := by
    rcases frontAndPieces_cases p with
      ⟨ha, more, -, hf⟩ | ⟨ha, piece, more, -, ⟨-, hf⟩ | ⟨-, hf⟩⟩ <;>
      simp [hf, origin, Trail.components, Trail.front, Trail.pieces, ha, cleanStep]
  rw [cleanComponents, components_eq, List.foldl_append, hstart,
    (proper_origin p).foldl_cleanStep fun _ hp => isPiece_of_mem_names hp, List.reverse_reverse]
  rfl

theorem ofComponents_assemble {front : List Component} {pieces : List Text}
    (h : Assembled front pieces) (hp : ∀ piece ∈ pieces, IsPiece piece) :
    (pieces.map componentOf).foldl (fun p component => join p component.text) (assemble front []) =
      assemble front pieces := by
  -- a component is joined at the end, so the pieces are taken from there
  induction pieces using List.reverseRecOn with
  | nil => rfl
  | append_singleton pieces piece ih =>
    have hpieces : ∀ other ∈ pieces, IsPiece other := fun other ho =>
      hp other (List.mem_append_left _ ho)
    have hshort : Assembled front pieces := by
      refine ⟨h.front.imp_right (Or.imp_right fun ⟨hf, hhead⟩ => ⟨hf, fun first hfirst => ?_⟩),
        fun other ho => (hpieces other ho).clean⟩
      exact (hpieces first (List.mem_of_mem_head? hfirst)).ne
    rw [List.map_append, List.foldl_append, ih hshort hpieces, List.map_singleton, List.foldl_cons,
      List.foldl_nil, text_componentOf, join_assemble h (dropIgnorableEnd_visible hpieces)]

/-- A cleaned path is the path of its trail. -/
theorem clean_eq (p : Path) : clean p = (trail p).path := by
  unfold clean Trail.path
  rw [cleanComponents_components]
  have h := proper_trail p
  generalize trail p = t at h ⊢
  split
  · next hnil => rw [if_pos hnil]
  · next hne =>
    rw [if_neg (fun hnil => hne hnil)]
    have hfront : ofComponents t.front = assemble t.front [] := by
      unfold Trail.front
      split <;> rfl
    rw [← ofComponents_assemble h.assembled h.isPiece, ← hfront, ofComponents, ofComponents,
      Trail.components, List.foldl_append]

/-! ### Reading a cleaned path -/

namespace Trail

variable {trail next : Trail} {piece : Text} {pieces : List Text}

theorem path_of_ne_nil (h : trail.components ≠ []) :
    trail.path = assemble trail.front trail.pieces := if_neg h

theorem components_ne_nil (h : trail.pieces ≠ []) : trail.components ≠ [] := by
  rw [components, Ne, List.append_eq_nil_iff, List.map_eq_nil_iff]
  exact fun hnil => h hnil.2

theorem Proper.frontAndPieces_path (h : trail.Proper) (hp : trail.pieces ≠ []) :
    frontAndPieces trail.path = (trail.front, trail.pieces) := by
  rw [path_of_ne_nil (components_ne_nil hp)]
  exact (h.assembled.read hp).1

theorem Proper.names_path (h : trail.Proper) : Path.names trail.path = trail.pieces := by
  by_cases hp : trail.pieces = []
  · rw [hp, Trail.path, Trail.components, hp, Trail.front]
    cases trail.isRooted <;> rfl
  · rw [names_eq_filter, h.frontAndPieces_path hp]
    exact filter_visible h.isPiece

theorem Proper.isAbsolute_path (h : trail.Proper) : isAbsolute trail.path = trail.isRooted := by
  have hfront : trail.front.contains .root = trail.isRooted := by
    rw [Trail.front]
    cases trail.isRooted <;> rfl
  by_cases hp : trail.pieces = []
  · rw [Trail.path, Trail.components, hp, Trail.front]
    cases trail.isRooted <;> rfl
  · rw [path_of_ne_nil (components_ne_nil hp), (h.assembled.read hp).2, hfront]

theorem Proper.components_path (h : trail.Proper) (hne : trail.components ≠ []) :
    Path.components trail.path = trail.components := by
  have hfront : (Path.frontAndPieces trail.path).1 = trail.front := by
    by_cases hp : trail.pieces = []
    · have hroot : trail.isRooted = true := by
        by_contra hr
        exact hne (by simp [Trail.components, Trail.front, hp, hr])
      rw [path_of_ne_nil hne, hp, Trail.front, hroot]
      rfl
    · rw [h.frontAndPieces_path hp]
  rw [components_eq, hfront, h.names_path]
  rfl

/-- The pieces of a trail lead along it. -/
theorem Proper.foldl_pieces (h : trail.Proper) :
    trail.pieces.foldl Trail.advance ⟨trail.isRooted, 0, []⟩ = trail := by
  have hclimb : climb ⟨trail.isRooted, 0, []⟩ trail.ups = ⟨trail.isRooted, trail.ups, []⟩ := by
    cases hr : trail.isRooted with
    | true =>
      rw [h.rooted hr]
      rfl
    | false => exact climb_origin trail.ups
  rw [h.foldl_advance_pieces, hclimb]
  rfl

theorem Proper.trail_path (h : trail.Proper) : Path.trail trail.path = trail := by
  rw [Path.trail, origin, h.names_path, h.isAbsolute_path, h.foldl_pieces]

/-! ### Going on from a trail -/

/-- A piece read at the end of a trail is read at the end of every trail that it continues. -/
theorem Advances.foldl_pieces (ha : Advances trail piece next) (h : trail.Proper)
    (hr : trail.isRooted = false) (start : Trail) :
    next.pieces.foldl advance start = (trail.pieces.foldl advance start).advance piece := by
  cases ha with
  | down _ =>
    rw [pieces, pieces, ← List.append_assoc, List.foldl_append]
    rfl
  | up _ ups front n =>
    have hdown : n ≠ ['.', '.'] := (h.entries n (by simp)).down
    rw [pieces, pieces, ← List.append_assoc]
    generalize List.replicate ups ['.', '.'] ++ front = before
    rw [List.foldl_append, List.foldl_cons, List.foldl_nil, advance_name hdown]
    simp [advance]
  | atRoot _ => cases hr
  | climb _ =>
    rw [pieces, pieces, List.replicate_succ', List.append_nil, List.append_nil, List.foldl_append]
    rfl

theorem Proper.foldl_foldl (h : trail.Proper) (hr : trail.isRooted = false) (start : Trail)
    (hp : ∀ piece ∈ pieces, IsPiece piece) :
    (pieces.foldl Trail.advance trail).pieces.foldl Trail.advance start =
      pieces.foldl Trail.advance (trail.pieces.foldl Trail.advance start) := by
  -- `trail` is what the pieces so far have come to
  induction pieces generalizing trail with
  | nil => rfl
  | cons piece pieces ih =>
    obtain ⟨hpiece, hpieces⟩ := List.forall_mem_cons.mp hp
    have ha := advances_advance trail piece
    rw [List.foldl_cons, ih (h.advance hpiece) (ha.isRooted.trans hr) hpieces,
      ha.foldl_pieces h hr, List.foldl_cons]

theorem Advances.location {location : Location} (ha : Advances ⟨true, 0, location⟩ piece next)
    (hp : IsPiece piece) : next = ⟨true, 0, Disk.advance location piece⟩ := by
  cases ha with
  | down hdown =>
    rw [Disk.advance_name ⟨hp.ne.2, hdown⟩]
  | up _ _ front n => simp [Disk.advance]
  | atRoot _ => rfl

/-- A location is a trail from the root. -/
theorem follow_eq (location : Location) (hp : ∀ piece ∈ pieces, IsPiece piece) :
    Disk.follow location pieces = (pieces.foldl advance ⟨true, 0, location⟩).names := by
  induction pieces generalizing location with
  | nil => rfl
  | cons piece pieces ih =>
    obtain ⟨hpiece, hpieces⟩ := List.forall_mem_cons.mp hp
    rw [List.foldl_cons, (advances_advance _ piece).location hpiece, ← ih _ hpieces]
    rfl

end Trail

/-! ### Cleaned paths -/

variable {p q : Path}

theorem trail_clean (p : Path) : trail (clean p) = trail p := by
  rw [clean_eq, (proper_trail p).trail_path]

theorem trail_join_clean (p q : Path) : trail (join (clean p) q) = trail (join p q) := by
  cases hq : isAbsolute q with
  | true => simp only [join, hq, if_true]
  | false => rw [trail_join hq, trail_join hq, trail_clean]

theorem clean_eq_clean_iff : clean p = clean q ↔ trail p = trail q := by
  constructor
  · intro h
    rw [← trail_clean p, h, trail_clean]
  · intro h
    rw [clean_eq, h, clean_eq]

theorem clean_clean (p : Path) : clean (clean p) = clean p :=
  clean_eq_clean_iff.mpr (trail_clean p)

theorem isAbsolute_clean (p : Path) : isAbsolute (clean p) = isAbsolute p := by
  rw [clean_eq, (proper_trail p).isAbsolute_path, trail, Trail.isRooted_foldl]
  rfl

theorem names_clean (p : Path) : names (clean p) = (trail p).pieces := by
  rw [clean_eq, (proper_trail p).names_path]

theorem components_clean (h : (trail p).components ≠ []) :
    components (clean p) = (trail p).components := by
  rw [clean_eq, (proper_trail p).components_path h]

/-- From everywhere a relative path leads along its trail. -/
theorem foldl_names (h : isAbsolute q = false) (start : Trail) :
    (names q).foldl Trail.advance start = (trail q).pieces.foldl Trail.advance start := by
  have hr : (origin q).isRooted = false := h
  rw [trail, (proper_origin q).foldl_foldl hr start fun _ hp => isPiece_of_mem_names hp]
  rfl

/-- A cleaned path leads where the path leads, if every folder on the way is there. -/
theorem location_clean (folder : Location) (p : Path) :
    (clean p).location folder = p.location folder := by
  have hpieces : ∀ p : Path, ∀ piece ∈ names p, IsPiece piece := fun p piece hp =>
    isPiece_of_mem_names hp
  rw [location_eq, location_eq, Trail.follow_eq _ (hpieces _), Trail.follow_eq _ (hpieces _),
    names_clean, start, start, isAbsolute_clean]
  cases ha : isAbsolute p with
  | true =>
    have htrail : trail p = (names p).foldl Trail.advance ⟨true, 0, []⟩ := by
      rw [trail, origin, ha]
    have hroot : (trail p).isRooted = true := by
      rw [htrail, Trail.isRooted_foldl]
    have hsame := (proper_trail p).foldl_pieces
    rw [hroot] at hsame
    rw [if_pos rfl, hsame, htrail]
  | false => rw [foldl_names ha]

/-! ### Paths below a folder -/

/-- From a folder a path leads down through names, of which there is at least one. -/
def Below (folder p : Path) (names : List Text) : Prop :=
  names ≠ [] ∧ trail p = (trail folder).extend names

theorem Below.entries {folder : Path} {names : List Text} (h : Below folder p names) :
    ∀ n ∈ names, IsEntry n := by
  intro n hn
  apply (proper_trail p).entries
  rw [h.2]
  exact List.mem_append_right _ hn

/-! ### Normal form -/

/-- A root, or else some parents, and then nothing but names, each of which leads down. -/
def NormalForm (isRooted : Bool) (components : List Component) : Prop :=
  ∃ (ups : Nat) (names : List Text), (∀ n ∈ names, IsEntry n) ∧
    components = (if isRooted then [.root] else List.replicate ups .parent) ++ names.map .name

theorem Trail.Proper.normalForm {trail : Trail} (h : trail.Proper) :
    NormalForm trail.isRooted trail.components := by
  have hnames : trail.names.map componentOf = trail.names.map .name :=
    List.map_congr_left fun n hn => componentOf_eq_name (h.entries n hn).down
  refine ⟨trail.ups, trail.names, h.entries, ?_⟩
  rw [Trail.components, Trail.front, Trail.pieces, List.map_append, hnames, List.map_replicate]
  cases hr : trail.isRooted with
  | true => simp [h.rooted hr]
  | false => simp [componentOf]

theorem foldl_cleanStep_names (names : List Text) (done : List Component) :
    (names.map Component.name).foldl cleanStep done = (names.map .name).reverse ++ done := by
  induction names generalizing done with
  | nil => rfl
  | cons n names ih => simp [ih, cleanStep]

theorem foldl_cleanStep_parents (ups : Nat) :
    (List.replicate ups Component.parent).foldl cleanStep [] = List.replicate ups .parent := by
  induction ups with
  | zero => rfl
  | succ ups ih =>
    rw [List.replicate_succ', List.foldl_append, ih, ← List.replicate_succ']
    cases ups <;> rfl

/-- Cleaning changes no components in normal form. -/
theorem NormalForm.cleanComponents {isRooted : Bool} {components : List Component}
    (h : NormalForm isRooted components) : cleanComponents components = components := by
  obtain ⟨ups, names, -, rfl⟩ := h
  have hfront : (if isRooted then [.root] else List.replicate ups .parent).foldl cleanStep [] =
      (if isRooted then [.root] else List.replicate ups .parent).reverse := by
    cases isRooted with
    | true => rfl
    | false => exact (foldl_cleanStep_parents ups).trans List.reverse_replicate.symm
  rw [Path.cleanComponents, List.foldl_append, foldl_cleanStep_names, hfront,
    ← List.reverse_append, List.reverse_reverse]

/-- A cleaned path is a point or has its components in normal form, and it is put together from
them. Components in normal form stay. Cleaning twice, or before another path is joined, is the same
as cleaning once at the end. -/
theorem clean_normal (p q : Path) :
    (clean p = ['.'] ∧ isAbsolute p = false ∨
      components (clean p) ≠ [] ∧ NormalForm (isAbsolute p) (components (clean p))) ∧
    ofComponents (components (clean p)) = clean p ∧
    (NormalForm (isAbsolute p) (components p) → components p ≠ [] →
      components (clean p) = components p) ∧
    clean (clean p) = clean p ∧
    clean (join (clean p) q) = clean (join p q) := by
  have hclean := cleanComponents_components p
  have hrooted : (trail p).isRooted = isAbsolute p := Trail.isRooted_foldl _ _
  have hnormal : NormalForm (isAbsolute p) (trail p).components := by
    rw [← hrooted]
    exact (proper_trail p).normalForm
  have hagain := clean_eq_clean_iff.mpr (trail_join_clean p q)
  by_cases hempty : (trail p).components = []
  · have hpoint : clean p = ['.'] := by rw [clean_eq, Trail.path, if_pos hempty]
    have hrelative : isAbsolute p = false := by
      rw [← isAbsolute_clean, hpoint]
      rfl
    refine ⟨.inl ⟨hpoint, hrelative⟩, ?_, fun hform hne => ?_, clean_clean p, hagain⟩
    · rw [hpoint]
      rfl
    · rw [hempty, hform.cleanComponents] at hclean
      exact absurd hclean hne
  · have hcomponents := components_clean hempty
    refine ⟨.inr ?_, ?_, fun hform _ => ?_, clean_clean p, hagain⟩
    · rw [hcomponents]
      exact ⟨hempty, hnormal⟩
    · rw [hcomponents, ← hclean, clean]
      split
      · next hnil => exact absurd (hclean.symm.trans hnil) hempty
      · rfl
    · rw [hcomponents, ← hclean, hform.cleanComponents]

def loosePath : Path := "..//a/./b/".toList

theorem clean_normal_loosePath :
    NormalForm (isAbsolute loosePath) (components loosePath) ∧ components loosePath ≠ [] ∧
      components (clean loosePath) = components loosePath ∧
      clean (join (clean loosePath) "../.././../c".toList) = "../../c".toList := by
  have hform : NormalForm (isAbsolute loosePath) (components loosePath) :=
    ⟨1, [['a'], ['b']], by
      simp only [List.forall_mem_cons]
      exact ⟨⟨⟨by decide, rfl⟩, by decide⟩, ⟨⟨by decide, rfl⟩, by decide⟩, nofun⟩, by decide⟩
  have hne : components loosePath ≠ [] := by decide
  obtain ⟨-, -, hkept, -, hjoined⟩ := clean_normal loosePath "../.././../c".toList
  exact ⟨hform, hne, hkept hform hne, hjoined.trans (by decide)⟩

end Path

end MarkdownDirectives
