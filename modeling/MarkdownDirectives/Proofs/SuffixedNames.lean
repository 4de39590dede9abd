import Mathlib.Data.List.Basic
import Mathlib.Data.List.DropRight
import MarkdownDirectives.Project.Output
import MarkdownDirectives.Proofs.Places

/-!
# Suffixed names

A path with a file name is a front, pieces and the name, and replacing the name keeps the others.
A suffix is put before the last point of a name or at its end; it has no further point, so a name
that shows it can be told from all others, and the name before can be read off.
-/

namespace MarkdownDirectives

namespace Path

/-! ### Names in a path -/

/-- The pieces that lead somewhere else. -/
def names (p : Path) : List Text := (p.splitOn '/').filter (!isIgnorable ·)

theorem frontAndPieces_cases (p : Path) :
    (isAbsolute p = true ∧ ∃ more, p.splitOn '/' = [] :: more ∧
        frontAndPieces p = ([.root], more)) ∨
      isAbsolute p = false ∧ ∃ piece more, p.splitOn '/' = piece :: more ∧
        (piece = ['.'] ∧ frontAndPieces p = ([.current], more) ∨
          piece ≠ ['.'] ∧ frontAndPieces p = ([], piece :: more)) := by
  obtain ⟨piece, more, hs⟩ := List.exists_cons_of_ne_nil (Text.splitOn_ne_nil '/' p)
  cases ha : isAbsolute p with
  | true =>
    left
    obtain ⟨rest, rfl⟩ : ∃ rest, p = '/' :: rest := by
      cases p with
      | nil => cases ha
      | cons c rest =>
        have hc : c = '/' := by simpa [isAbsolute] using ha
        exact ⟨rest, by rw [hc]⟩
    refine ⟨rfl, Text.splitOn '/' rest, rfl, ?_⟩
    rfl
  | false =>
    right
    refine ⟨rfl, piece, more, hs, ?_⟩
    by_cases hp : piece = ['.']
    · exact .inl ⟨hp, by simp [frontAndPieces, hs, ha, hp]⟩
    · exact .inr ⟨hp, by simp [frontAndPieces, hs, ha, hp]⟩

theorem names_eq_filter (p : Path) : names p = (frontAndPieces p).2.filter (!isIgnorable ·) := by
  unfold names
  rcases frontAndPieces_cases p with ⟨-, more, hs, hf⟩ | ⟨-, piece, more, hs, ⟨rfl, hf⟩ | ⟨-, hf⟩⟩
  · rw [hs, hf]
    rfl
  · rw [hs, hf]
    rfl
  · rw [hs, hf]

theorem components_eq (p : Path) :
    components p = (frontAndPieces p).1 ++ (names p).map componentOf := by
  rw [names_eq_filter]
  rfl

theorem names_eq_filter_steps (p : Path) :
    names p = (Disk.steps p).filter (· != ['.']) := by
  rw [names, Disk.steps, List.filter_filter]
  apply List.filter_congr
  intro piece _
  cases hp : piece.isEmpty <;> simp [isIgnorable, hp, bne]

theorem steps_join {p q : Path} (h : isAbsolute q = false) :
    Disk.steps (join p q) = Disk.steps p ++ Disk.steps q := by
  have hcut : ∀ front : Path,
      Disk.steps (front ++ '/' :: q) = Disk.steps front ++ Disk.steps q := by
    intro front
    rw [Disk.steps, Text.splitOn_append, List.filter_append]
    rfl
  unfold join
  rw [h]
  by_cases hp : p = []
  · subst hp
    rfl
  · by_cases hl : p.getLast? = some '/'
    · obtain ⟨front, c, rfl⟩ := (List.eq_nil_or_concat p).resolve_left hp
      rw [List.concat_eq_append, List.getLast?_concat] at hl
      cases hl
      have hslash : Disk.steps (front ++ ['/']) = Disk.steps front := by
        rw [Disk.steps, Text.splitOn_append, List.filter_append]
        exact List.append_nil _
      rw [List.concat_eq_append, hslash, ← hcut]
      simp
    · simp only [hl, hp, List.isEmpty_iff, beq_iff_eq, or_self, Bool.or_eq_true, if_false,
        Bool.false_eq_true]
      exact hcut p

theorem fileName?_eq_some_iff {p : Path} {n : Text} :
    fileName? p = some n ↔ (names p).getLast? = some n ∧ n ≠ ['.', '.'] := by
  unfold fileName?
  rw [components_eq]
  rcases List.eq_nil_or_concat (names p) with hn | ⟨front, last, hn⟩
  · have hfront : ∀ m, (frontAndPieces p).1.getLast? ≠ some (.name m) := by
      rcases frontAndPieces_cases p with
        ⟨-, more, -, hf⟩ | ⟨-, piece, more, -, ⟨-, hf⟩ | ⟨-, hf⟩⟩ <;> simp [hf]
    rw [hn, List.map_nil, List.append_nil]
    split
    · next m hm => exact absurd hm (hfront m)
    · simp
  · rw [hn, List.concat_eq_append, List.map_append, ← List.append_assoc, List.map_singleton,
      List.getLast?_concat, List.getLast?_concat]
    by_cases hp : last = ['.', '.']
    · simp only [componentOf, hp, beq_self_eq_true, if_true, Option.some.injEq]
      exact ⟨fun h => (nomatch h), fun ⟨h, hne⟩ => absurd h.symm hne⟩
    · simp only [componentOf, hp, beq_iff_eq, if_false, Option.some.injEq]
      exact ⟨fun h => ⟨h, h ▸ hp⟩, fun h => h.1⟩

/-! ### Replacing a name -/

/-- The path of a front and pieces. -/
def assemble (front : List Component) (pieces : List Text) : Path :=
  match front with
  | [.root] => '/' :: Text.joinWith '/' pieces
  | [_] => Text.joinWith '/' (['.'] :: pieces)
  | _ => Text.joinWith '/' pieces

theorem parent_eq (p : Path) :
    parent p = assemble (frontAndPieces p).1
      (dropIgnorableEnd (dropIgnorableEnd (frontAndPieces p).2).dropLast) := rfl

/-- Fronts and pieces that can be read off their path. -/
structure Assembled (front : List Component) (pieces : List Text) : Prop where
  front : front = [.root] ∨ front = [.current] ∨
    front = [] ∧ ∀ piece ∈ pieces.head?, piece ≠ [] ∧ piece ≠ ['.']
  clean : ∀ piece ∈ pieces, '/' ∉ piece

theorem Assembled.read {front : List Component} {pieces : List Text} (h : Assembled front pieces)
    (hne : pieces ≠ []) :
    frontAndPieces (assemble front pieces) = (front, pieces) ∧
      isAbsolute (assemble front pieces) = front.contains .root := by
  have hsplit := Text.splitOn_joinWith_of_not_mem hne h.clean
  rcases h.front with rfl | rfl | ⟨rfl, hhead⟩
  · have hroot : frontAndPieces ('/' :: Text.joinWith '/' pieces) =
        ([.root], Text.splitOn '/' (Text.joinWith '/' pieces)) := rfl
    exact ⟨by rw [assemble, hroot, hsplit], rfl⟩
  · have hcurrent : frontAndPieces ('.' :: '/' :: Text.joinWith '/' pieces) =
        ([.current], Text.splitOn '/' (Text.joinWith '/' pieces)) := rfl
    have hp : assemble [.current] pieces = '.' :: '/' :: Text.joinWith '/' pieces :=
      Text.joinWith_cons hne
    exact ⟨by rw [hp, hcurrent, hsplit], by rw [hp]; rfl⟩
  · obtain ⟨piece, more, rfl⟩ := List.exists_cons_of_ne_nil hne
    obtain ⟨hpiece, hdot⟩ := hhead piece rfl
    have hslash : '/' ∉ piece := h.clean piece (List.mem_cons_self ..)
    change frontAndPieces (Text.joinWith '/' (piece :: more)) = _ ∧
      isAbsolute (Text.joinWith '/' (piece :: more)) = false
    rcases frontAndPieces_cases (Text.joinWith '/' (piece :: more)) with
      ⟨-, rest, hs, -⟩ | ⟨ha, first, rest, hs, ⟨hfirst, -⟩ | ⟨-, hf⟩⟩
    · rw [hsplit] at hs
      exact absurd (List.cons.inj hs).1 hpiece
    · rw [hsplit] at hs
      exact absurd ((List.cons.inj hs).1.trans hfirst) hdot
    · rw [hsplit] at hs
      exact ⟨by rw [hf, hs], ha⟩

/-- What a path with a file name consists of. -/
theorem exists_pieces {p : Path} {n : Text} (h : fileName? p = some n) :
    ∃ pieces blanks, (frontAndPieces p).2 = pieces ++ n :: blanks ∧
      (∀ piece ∈ blanks, isIgnorable piece = true) ∧ isIgnorable n = false := by
  obtain ⟨hlast, -⟩ := fileName?_eq_some_iff.mp h
  rw [names_eq_filter] at hlast
  generalize (frontAndPieces p).2 = all at hlast ⊢
  induction all using List.reverseRecOn with
  | nil => cases hlast
  | append_singleton pieces piece ih =>
    rw [List.filter_append] at hlast
    by_cases hi : isIgnorable piece = true
    · rw [List.filter_cons_of_neg (by simp [hi]), List.filter_nil, List.append_nil] at hlast
      obtain ⟨before, blanks, rfl, hb, hn⟩ := ih hlast
      refine ⟨before, blanks ++ [piece], by simp, fun other ho => ?_, hn⟩
      rcases List.mem_append.mp ho with ho | ho
      · exact hb other ho
      · rw [List.mem_singleton.mp ho]
        exact hi
    · rw [List.filter_cons_of_pos (by simp [hi]), List.filter_nil, List.getLast?_concat] at hlast
      cases hlast
      exact ⟨pieces, [], rfl, fun _ ho => (nomatch ho), Bool.eq_false_iff.mpr hi⟩

theorem dropIgnorableEnd_blanks {pieces blanks : List Text} {n : Text}
    (hb : ∀ piece ∈ blanks, isIgnorable piece = true) (hn : isIgnorable n = false) :
    dropIgnorableEnd (pieces ++ n :: blanks) = pieces ++ [n] := by
  have hblanks : ∀ piece ∈ blanks.reverse, isIgnorable piece = true :=
    fun piece hp => hb piece (List.mem_reverse.mp hp)
  rw [dropIgnorableEnd, List.reverse_append, List.reverse_cons, List.append_assoc,
    List.dropWhile_append_of_pos hblanks, List.singleton_append,
    List.dropWhile_cons_of_neg (by simp [hn]), List.reverse_cons, List.reverse_reverse]

theorem dropIgnorableEnd_isPrefix (pieces : List Text) : dropIgnorableEnd pieces <+: pieces := by
  have hs := List.dropWhile_suffix (l := pieces.reverse) isIgnorable
  rw [← List.reverse_prefix, List.reverse_reverse] at hs
  exact hs

theorem dropIgnorableEnd_idem (pieces : List Text) :
    dropIgnorableEnd (dropIgnorableEnd pieces) = dropIgnorableEnd pieces := by
  rw [dropIgnorableEnd, dropIgnorableEnd, List.reverse_reverse, List.dropWhile_idempotent]

theorem dropIgnorableEnd_concat {pieces : List Text} {piece : Text}
    (h : isIgnorable piece = true) :
    dropIgnorableEnd (pieces ++ [piece]) = dropIgnorableEnd pieces := by
  rw [dropIgnorableEnd, List.reverse_append, List.reverse_singleton, List.singleton_append,
    List.dropWhile_cons_of_pos h]
  rfl

theorem filter_dropIgnorableEnd (pieces : List Text) :
    (dropIgnorableEnd pieces).filter (!isIgnorable ·) = pieces.filter (!isIgnorable ·) := by
  induction pieces using List.reverseRecOn with
  | nil => rfl
  | append_singleton pieces piece ih =>
    cases hi : isIgnorable piece with
    | true =>
      rw [dropIgnorableEnd_concat hi, ih, List.filter_append,
        List.filter_cons_of_neg (by simp [hi]), List.filter_nil, List.append_nil]
    | false => rw [dropIgnorableEnd_blanks (fun _ h => absurd h List.not_mem_nil) hi]

theorem isIgnorable_eq_false_iff {piece : Text} :
    isIgnorable piece = false ↔ piece ≠ [] ∧ piece ≠ ['.'] := by
  simp [isIgnorable]

theorem ne_nil_of_relative {p : Path} {n piece : Text} {more : List Text}
    (h : fileName? p = some n) (ha : isAbsolute p = false)
    (hs : p.splitOn '/' = piece :: more) : piece ≠ [] := by
  rintro rfl
  have hj := Text.joinWith_splitOn '/' p
  rw [hs] at hj
  cases more with
  | nil =>
    rw [← hj] at h
    cases h
  | cons next more =>
    rw [← hj] at ha
    cases ha

/-- The front and the pieces in front of the file name, which a name can replace. -/
theorem exists_parent {p : Path} {n : Text} (h : fileName? p = some n) :
    ∃ front pieces, parent p = assemble front pieces ∧ dropIgnorableEnd pieces = pieces ∧
      names p = pieces.filter (!isIgnorable ·) ++ [n] ∧ isAbsolute p = front.contains .root ∧
      ∀ name, '/' ∉ name → isIgnorable name = false → Assembled front (pieces ++ [name]) := by
  obtain ⟨pieces, blanks, hpieces, hb, hn⟩ := exists_pieces h
  have hclean : ∀ piece ∈ pieces, '/' ∉ piece := by
    intro piece hp
    have hmem : piece ∈ (frontAndPieces p).2 := by
      rw [hpieces]
      exact List.mem_append_left _ hp
    apply Text.not_mem_of_mem_splitOn (t := p)
    rcases frontAndPieces_cases p with ⟨-, more, hs, hf⟩ | ⟨-, first, more, hs, ⟨-, hf⟩ | ⟨-, hf⟩⟩
    · rw [hf] at hmem
      exact hs ▸ List.mem_cons_of_mem _ hmem
    · rw [hf] at hmem
      exact hs ▸ List.mem_cons_of_mem _ hmem
    · rw [hf] at hmem
      exact hs ▸ hmem
  refine ⟨(frontAndPieces p).1, dropIgnorableEnd pieces, ?_, dropIgnorableEnd_idem pieces, ?_, ?_,
    fun name hslash hname => ⟨?_, ?_⟩⟩
  · rw [parent_eq, hpieces, dropIgnorableEnd_blanks hb hn, List.dropLast_concat]
  · have hblanks : blanks.filter (!isIgnorable ·) = [] := by
      rw [List.filter_eq_nil_iff]
      intro piece hp
      simp [hb piece hp]
    rw [names_eq_filter, hpieces, List.filter_append, List.filter_cons_of_pos (by simp [hn]),
      hblanks, filter_dropIgnorableEnd]
  · rcases frontAndPieces_cases p with
      ⟨ha, more, -, hf⟩ | ⟨ha, first, more, -, ⟨-, hf⟩ | ⟨-, hf⟩⟩ <;>
      rw [ha, hf] <;> rfl
  · rcases frontAndPieces_cases p with
      ⟨-, more, -, hf⟩ | ⟨ha, first, more, hs, ⟨-, hf⟩ | ⟨hdot, hf⟩⟩
    · exact .inl (by rw [hf])
    · exact .inr (.inl (by rw [hf]))
    · refine .inr (.inr ⟨by rw [hf], fun piece hp => ?_⟩)
      rw [hf] at hpieces
      obtain ⟨rest, hrest⟩ := dropIgnorableEnd_isPrefix pieces
      cases hd : dropIgnorableEnd pieces with
      | nil =>
        rw [hd] at hp
        cases hp
        exact isIgnorable_eq_false_iff.mp hname
      | cons head tail =>
        rw [hd] at hp hrest
        cases hp
        rw [← hrest] at hpieces
        obtain ⟨rfl, -⟩ := List.cons.inj hpieces
        exact ⟨ne_nil_of_relative h ha hs, hdot⟩
  · intro piece hp
    rcases List.mem_append.mp hp with hp | hp
    · exact hclean piece ((dropIgnorableEnd_isPrefix pieces).subset hp)
    · rw [List.mem_singleton.mp hp]
      exact hslash

theorem isAbsolute_of_not_mem {name : Text} (h : '/' ∉ name) : isAbsolute name = false := by
  cases name with
  | nil => rfl
  | cons c rest =>
    have hc : c ≠ '/' := by
      rintro rfl
      exact h (List.mem_cons_self ..)
    simp [isAbsolute, hc]

/-- Behind a piece that is not empty a name is joined with a slash. -/
theorem join_joinWith (pieces : List Text) {last name : Text} (hs : '/' ∉ last) (hne : last ≠ [])
    (ha : isAbsolute name = false) :
    join (Text.joinWith '/' (pieces ++ [last])) name =
      Text.joinWith '/' (pieces ++ [last] ++ [name]) := by
  obtain ⟨front, c, rfl⟩ := (List.eq_nil_or_concat last).resolve_left hne
  rw [List.concat_eq_append] at hs
  have hc : c ≠ '/' := fun hc => hs (by simp [hc])
  have hjoin : Text.joinWith '/' (pieces ++ [front ++ [c]] ++ [name]) =
      Text.joinWith '/' (pieces ++ [front ++ [c]]) ++ '/' :: name :=
    Text.joinWith_append (by simp) (by simp)
  rw [List.concat_eq_append, hjoin, Text.joinWith_concat, ← List.append_assoc]
  simp [join, ha, hc]

theorem join_assemble {front : List Component} {pieces : List Text} {name : Text}
    (h : Assembled front (pieces ++ [name])) (hd : dropIgnorableEnd pieces = pieces) :
    join (assemble front pieces) name = assemble front (pieces ++ [name]) := by
  have ha : isAbsolute name = false := isAbsolute_of_not_mem (h.clean name (by simp))
  rcases List.eq_nil_or_concat pieces with rfl | ⟨before, last, rfl⟩
  · rcases h.front with rfl | rfl | ⟨rfl, -⟩ <;> simp [join, ha, assemble, Text.joinWith]
  · rw [List.concat_eq_append] at h hd ⊢
    have hlast : isIgnorable last = false := by
      by_contra hi
      have hshort := (dropIgnorableEnd_isPrefix before).length_le
      rw [← dropIgnorableEnd_concat (by simpa using hi), hd, List.length_append,
        List.length_singleton] at hshort
      omega
    have hclean : '/' ∉ last := h.clean last (by simp)
    have hne := (isIgnorable_eq_false_iff.mp hlast).1
    have hmore : before ++ [last] ++ [name] ≠ [] := by simp
    have hroot : ∀ pieces : List Text, pieces ≠ [] →
        assemble [.root] pieces = Text.joinWith '/' ([] :: pieces) := by
      intro pieces hp
      rw [Text.joinWith_cons hp]
      rfl
    rcases h.front with rfl | rfl | ⟨rfl, -⟩
    · rw [hroot _ (by simp), hroot _ hmore]
      exact join_joinWith ([] :: before) hclean hne ha
    · exact join_joinWith (['.'] :: before) hclean hne ha
    · exact join_joinWith before hclean hne ha

section

variable {p : Path} {n name : Text}

theorem isIgnorable_of_fileName (h : fileName? p = some n) : isIgnorable n = false := by
  obtain ⟨pieces, blanks, -, -, hn⟩ := exists_pieces h
  exact hn

/-- Another name for a path leaves the folder as it is. -/
theorem withFileName_spec (h : fileName? p = some n) (hslash : '/' ∉ name)
    (hname : isIgnorable name = false) :
    names (withFileName p name) = (names p).dropLast ++ [name] ∧
      parent (withFileName p name) = parent p ∧
      isAbsolute (withFileName p name) = isAbsolute p := by
  obtain ⟨front, pieces, hparent, hd, hnames, ha, hassembled⟩ := exists_parent h
  have hwell := hassembled name hslash hname
  have hnew : withFileName p name = assemble front (pieces ++ [name]) := by
    rw [withFileName, h, hparent]
    exact join_assemble hwell hd
  obtain ⟨hread, habsolute⟩ := hwell.read (by simp)
  rw [hnew]
  refine ⟨?_, ?_, habsolute.trans ha.symm⟩
  · rw [names_eq_filter, hread, hnames, List.dropLast_concat, List.filter_append,
      List.filter_cons_of_pos (by simp [hname]), List.filter_nil]
  · have hend : dropIgnorableEnd (pieces ++ [name]) = pieces ++ [name] :=
      dropIgnorableEnd_blanks (fun _ hb => absurd hb List.not_mem_nil) hname
    rw [parent_eq, hread, hparent]
    simp only [hend, List.dropLast_concat, hd]

theorem fileName?_withFileName (h : fileName? p = some n) (hslash : '/' ∉ name)
    (hname : isIgnorable name = false) (hup : name ≠ ['.', '.']) :
    fileName? (withFileName p name) = some name := by
  rw [fileName?_eq_some_iff, (withFileName_spec h hslash hname).1, List.getLast?_concat]
  exact ⟨rfl, hup⟩

/-- A step `.` leads nowhere. -/
theorem location_eq (folder : Location) (p : Path) :
    p.location folder = Disk.follow (p.start folder) (names p) := by
  have hdots : ∀ (pieces : List Text) (start : Location),
      Disk.follow start (pieces.filter (!·.isEmpty)) =
        Disk.follow start (pieces.filter (!isIgnorable ·)) := by
    intro pieces
    induction pieces with
    | nil => exact fun start => rfl
    | cons piece pieces ih =>
      intro start
      by_cases he : piece = []
      · simp [he, isIgnorable, ih]
      · by_cases hd : piece = ['.']
        · simp only [hd, List.isEmpty_cons, Bool.not_false, List.filter_cons_of_pos]
          exact ih start
        · have hi : isIgnorable piece = false := isIgnorable_eq_false_iff.mpr ⟨he, hd⟩
          rw [List.filter_cons_of_pos (by simpa using he), List.filter_cons_of_pos (by simp [hi])]
          exact ih (Disk.advance start piece)
  exact hdots _ _

theorem names_eq_concat (h : fileName? p = some n) : names p = (names p).dropLast ++ [n] := by
  obtain ⟨hlast, -⟩ := fileName?_eq_some_iff.mp h
  exact (List.dropLast_append_getLast? n hlast).symm

theorem location_of_fileName (folder : Location) (h : fileName? p = some n) :
    p.location folder = Disk.follow (p.start folder) (names p).dropLast ++ [n] := by
  have hn : Disk.IsName n :=
    ⟨(isIgnorable_eq_false_iff.mp (isIgnorable_of_fileName h)).2, (fileName?_eq_some_iff.mp h).2⟩
  rw [location_eq, names_eq_concat h, Disk.follow_append, List.dropLast_concat]
  exact Disk.advance_name hn _

theorem location_withFileName (folder : Location) (h : fileName? p = some n) (hslash : '/' ∉ name)
    (hname : isIgnorable name = false) (hup : name ≠ ['.', '.']) :
    (withFileName p name).location folder =
      Disk.follow (p.start folder) (names p).dropLast ++ [name] := by
  obtain ⟨hnames, -, ha⟩ := withFileName_spec h hslash hname
  rw [location_of_fileName folder (fileName?_withFileName h hslash hname hup), hnames,
    List.dropLast_concat, start, ha, start]

end

end Path

/-! ### Suffixes -/

section

variable {s name : Text}

theorem exists_word_of_isSuffix (h : isSuffix s = true) :
    ∃ word, s = '.' :: word ∧ word ≠ [] ∧ '.' ∉ word ∧ '/' ∉ word := by
  cases s with
  | nil => cases h
  | cons c word =>
    by_cases hc : c = '.'
    · subst hc
      have hall : (!word.isEmpty && word.all Text.isWord) = true := h
      rw [Bool.and_eq_true, List.all_eq_true] at hall
      obtain ⟨hne, hword⟩ := hall
      refine ⟨word, rfl, by simpa using hne, fun hm => ?_, fun hm => ?_⟩
      · have hdot := hword _ hm
        revert hdot
        decide
      · have hslash := hword _ hm
        revert hslash
        decide
    · exfalso
      revert h
      unfold isSuffix
      split
      · next heq => exact absurd (List.cons.inj heq).1 hc
      · exact fun h => (nomatch h)

/-- What stands behind the last point of a text can be read off. -/
theorem point_inj {a b x y : Text} (h : a ++ '.' :: x = b ++ '.' :: y) (hx : '.' ∉ x)
    (hy : '.' ∉ y) : a = b ∧ x = y := by
  have hsplit := congrArg (Text.splitOn '.') h
  rw [Text.splitOn_append, Text.splitOn_append, Text.splitOn_of_not_mem hx,
    Text.splitOn_of_not_mem hy] at hsplit
  obtain ⟨-, hlast⟩ := List.append_inj' hsplit rfl
  cases hlast
  exact ⟨List.append_cancel_right h, rfl⟩

theorem stemAndExtension_cases (name : Text) :
    (∃ stem ext, stem ≠ [] ∧ '.' ∉ ext ∧ name = stem ++ '.' :: ext ∧
        Path.stemAndExtension name = (stem, some ext)) ∨
      Path.stemAndExtension name = (name, none) := by
  have hj := Text.joinWith_splitOn '.' name
  rcases List.eq_nil_or_concat (name.splitOn '.') with hs | ⟨front, ext, hs⟩
  · exact absurd hs (Text.splitOn_ne_nil '.' name)
  · rw [List.concat_eq_append] at hs
    rcases List.eq_nil_or_concat front with rfl | ⟨before, piece, rfl⟩
    · right
      simp only [Path.stemAndExtension, hs]
      rfl
    · rw [List.concat_eq_append] at hs
      have hcut : Path.stemAndExtension name =
          if (Text.joinWith '.' (before ++ [piece])).isEmpty then (name, none)
          else (Text.joinWith '.' (before ++ [piece]), some ext) := by
        simp [Path.stemAndExtension, hs]
      by_cases hempty : (Text.joinWith '.' (before ++ [piece])).isEmpty = true
      · right
        rw [hcut, if_pos hempty]
      · left
        rw [hs, Text.joinWith_append (by simp) (by simp)] at hj
        refine ⟨Text.joinWith '.' (before ++ [piece]), ext, by simpa using hempty, ?_, hj.symm, ?_⟩
        · apply Text.not_mem_of_mem_splitOn (t := name)
          rw [hs]
          simp
        · rw [hcut, if_neg hempty]

/-- A name with a suffix before its extension. -/
def suffixedName (name s : Text) : Text :=
  match Path.stemAndExtension name with
  | (stem, some ext) => stem ++ s ++ '.' :: ext
  | (stem, none) => stem ++ s

/-- The name shows the suffix, so no output for it is written. -/
def Marked (s name : Text) : Prop := isSuffixed name (Path.stemAndExtension name).1 s = true

theorem contains_append (part front rest : Text) :
    Text.contains part (front ++ part ++ rest) = true := by
  induction front with
  | nil =>
    rw [List.nil_append]
    cases hp : part ++ rest with
    | nil =>
      obtain ⟨rfl, rfl⟩ := List.append_eq_nil_iff.mp hp
      rfl
    | cons c t =>
      have hprefix : part.isPrefixOf (c :: t) = true := by
        rw [← hp]
        simp
      rw [Text.contains, hprefix, Bool.true_or]
  | cons c front ih =>
    rw [List.cons_append, List.cons_append, Text.contains, ih, Bool.or_true]

theorem marked_of_contains (front rest : Text) : Marked s (front ++ s ++ '.' :: rest) := by
  have hc := contains_append (s ++ ['.']) front rest
  have hsame : front ++ (s ++ ['.']) ++ rest = front ++ s ++ '.' :: rest := by simp
  rw [hsame] at hc
  simp only [Marked, isSuffixed, hc, Bool.or_true]

theorem marked_of_suffix (front : Text) : Marked s (front ++ s) := by
  have hsuffix : s.isSuffixOf (front ++ s) = true := by
    rw [List.isSuffixOf_iff_suffix]
    exact List.suffix_append front s
  simp only [Marked, isSuffixed, hsuffix, Bool.or_true, Bool.true_or]

theorem marked_suffixedName (name s : Text) : Marked s (suffixedName name s) := by
  unfold suffixedName
  split
  · exact marked_of_contains _ _
  · exact marked_of_suffix _

/-- A backup of a name that shows the suffix shows it as well. -/
theorem marked_backupName (name s : Text) (n : Nat) :
    Marked s (backupName (suffixedName name s) n) := by
  unfold suffixedName backupName
  split
  · rw [List.append_assoc, List.cons_append]
    exact marked_of_contains _ _
  · exact marked_of_contains _ _

/-- A name that does not show the suffix can be read off the name with the suffix. -/
theorem suffixedName_inj {other : Text} (hs : isSuffix s = true) (hn : ¬ Marked s name)
    (ho : ¬ Marked s other) (h : suffixedName name s = suffixedName other s) : name = other := by
  obtain ⟨word, rfl, -, hdot, -⟩ := exists_word_of_isSuffix hs
  unfold suffixedName at h
  rcases stemAndExtension_cases name with ⟨stem, ext, -, hext, hname, hcut⟩ | hcut <;>
    rcases stemAndExtension_cases other with ⟨stem', ext', -, hext', hother, hcut'⟩ | hcut' <;>
    simp only [hcut, hcut'] at h
  · obtain ⟨hfront, rfl⟩ := point_inj h hext hext'
    rw [hname, hother, List.append_cancel_right hfront]
  · -- then the other name would end in the suffix
    obtain ⟨hfront, -⟩ := point_inj h hext hdot
    exact absurd (hfront ▸ marked_of_suffix stem) ho
  · obtain ⟨hfront, -⟩ := point_inj h hdot hext'
    exact absurd (hfront ▸ marked_of_suffix stem') hn
  · exact List.append_cancel_right h

theorem suffixedName_ne (hs : isSuffix s = true) (name : Text) : suffixedName name s ≠ name := by
  obtain ⟨word, rfl, -, -, -⟩ := exists_word_of_isSuffix hs
  intro h
  have hlength := congrArg List.length h
  unfold suffixedName at hlength
  rcases stemAndExtension_cases name with ⟨stem, ext, -, -, hname, hcut⟩ | hcut
  · rw [hcut, hname] at hlength
    simp only [List.length_append, List.length_cons] at hlength
    omega
  · rw [hcut] at hlength
    simp at hlength

end

/-! ### Suffixed paths -/

section

variable {s : Text} {document p : Path} {n : Text}

theorem suffixedPath_eq (h : Path.fileName? document = some n) (hs : isSuffix s = true) :
    suffixedPath document s =
      if isSuffixed n (Path.stemAndExtension n).1 s then .error (.alreadySuffixed n s)
      else .ok (Path.withFileName document (suffixedName n s)) := by
  simp only [suffixedPath, Path.stem?, Path.extension?, h, hs]
  simp only [Bool.not_true, Bool.false_eq_true, if_false, Option.getD_some, Option.map_some,
    Option.bind_some, suffixedName]
  rcases stemAndExtension_cases n with ⟨stem, ext, -, -, -, hcut⟩ | hcut
  · rw [hcut]
  · rw [hcut]

theorem suffixedPath_eq_ok_iff (h : Path.fileName? document = some n) :
    suffixedPath document s = .ok p ↔
      isSuffix s = true ∧ ¬ Marked s n ∧ p = Path.withFileName document (suffixedName n s) := by
  cases hs : isSuffix s with
  | false => simp [suffixedPath, hs]
  | true =>
    rw [suffixedPath_eq h hs]
    by_cases hm : isSuffixed n (Path.stemAndExtension n).1 s = true
    · rw [if_pos hm]
      exact ⟨fun h => (nomatch h), fun ⟨_, hn, _⟩ => absurd hm hn⟩
    · rw [if_neg hm]
      refine ⟨fun h => ⟨rfl, hm, ?_⟩, fun ⟨_, _, hp⟩ => by rw [hp]⟩
      cases h
      rfl

theorem suffixedPath_of_marked (h : Path.fileName? document = some n) (hs : isSuffix s = true)
    (hm : Marked s n) : suffixedPath document s = .error (.alreadySuffixed n s) := by
  rw [suffixedPath_eq h hs]
  exact if_pos hm

theorem suffixedName_isName (h : Path.fileName? document = some n) (hs : isSuffix s = true) :
    '/' ∉ suffixedName n s ∧ Path.isIgnorable (suffixedName n s) = false ∧
      suffixedName n s ≠ ['.', '.'] := by
  obtain ⟨word, rfl, hword, -, hslash⟩ := exists_word_of_isSuffix hs
  have hlong : 2 < (suffixedName n ('.' :: word)).length := by
    have hne := (Path.isIgnorable_eq_false_iff.mp (Path.isIgnorable_of_fileName h)).1
    have hn := List.length_pos_iff.mpr hne
    have hw := List.length_pos_iff.mpr hword
    unfold suffixedName
    rcases stemAndExtension_cases n with ⟨stem, ext, hstem, -, -, hcut⟩ | hcut
    · have hs := List.length_pos_iff.mpr hstem
      simp only [hcut, List.length_append, List.length_cons]
      omega
    · simp only [hcut, List.length_append, List.length_cons]
      omega
  refine ⟨fun hm => ?_, Path.isIgnorable_eq_false_iff.mpr ⟨?_, ?_⟩, ?_⟩
  · have hclean : '/' ∉ n := by
      obtain ⟨hlast, -⟩ := Path.fileName?_eq_some_iff.mp h
      have hpiece := (List.mem_filter.mp (List.mem_of_getLast? hlast)).1
      exact Text.not_mem_of_mem_splitOn hpiece
    unfold suffixedName at hm
    rcases stemAndExtension_cases n with ⟨stem, ext, -, -, hn, hcut⟩ | hcut
    · rw [hn, List.mem_append, List.mem_cons, not_or, not_or] at hclean
      obtain ⟨hstem, -, hext⟩ := hclean
      simp [hcut, hstem, hext, hslash] at hm
    · simp [hcut, hclean, hslash] at hm
  · intro he
    rw [he] at hlong
    simp at hlong
  · intro he
    rw [he] at hlong
    simp at hlong
  · intro he
    rw [he] at hlong
    simp at hlong

/-- A suffixed path leads to another name in the same folder. -/
theorem suffixedPath_spec (h : Path.fileName? document = some n)
    (hp : suffixedPath document s = .ok p) :
    isSuffix s = true ∧ ¬ Marked s n ∧ Path.fileName? p = some (suffixedName n s) ∧
      Path.parent p = Path.parent document ∧
      ∀ folder, p.location folder =
        Disk.follow (document.start folder) (Path.names document).dropLast ++
          [suffixedName n s] := by
  obtain ⟨hs, hn, rfl⟩ := (suffixedPath_eq_ok_iff h).mp hp
  obtain ⟨hslash, hname, hup⟩ := suffixedName_isName h hs
  exact ⟨hs, hn, Path.fileName?_withFileName h hslash hname hup,
    (Path.withFileName_spec h hslash hname).2.1,
    fun folder => Path.location_withFileName folder h hslash hname hup⟩

/-- Equal suffixed paths are those of equal names. -/
theorem suffixedPath_inj {other q : Path} {m : Text} (h : Path.fileName? document = some n)
    (ho : Path.fileName? other = some m) (hp : suffixedPath document s = .ok p)
    (hq : suffixedPath other s = .ok q) (hpq : Path.components p = Path.components q) : n = m := by
  obtain ⟨hs, hn, hname, -⟩ := suffixedPath_spec h hp
  obtain ⟨-, hm, hname', -⟩ := suffixedPath_spec ho hq
  have hsame : Path.fileName? p = Path.fileName? q := by
    unfold Path.fileName?
    rw [hpq]
  rw [hname, hname'] at hsame
  exact suffixedName_inj hs hn hm (Option.some.inj hsame)

/-- A suffixed path is not suffixed again. -/
theorem suffixedPath_again (h : Path.fileName? document = some n)
    (hp : suffixedPath document s = .ok p) :
    Path.parent p = Path.parent document ∧
      ∃ m, Path.fileName? p = some m ∧ m ≠ n ∧
        suffixedPath p s = .error (.alreadySuffixed m s) := by
  obtain ⟨hs, -, hname, hparent, -⟩ := suffixedPath_spec h hp
  exact ⟨hparent, _, hname, suffixedName_ne hs n,
    suffixedPath_of_marked hname hs (marked_suffixedName n s)⟩

end

end MarkdownDirectives
