import MarkdownDirectives.Engine.Context
import MarkdownDirectives.Proofs.CleanPaths
import MarkdownDirectives.Proofs.TagLines

/-!
# Canonical references

A reference is resolved against the base path, and the relative path that is shown for it is a
reference again. Below the base this is the names of the path, joined with slashes, so it depends on
the resolved path alone; where no name has a blank at an end or a backslash, it resolves to the same
path, and the names can be read off it.
-/

namespace MarkdownDirectives

/-! ### Joined names -/

namespace Text

variable {separator : Char}

theorem head?_joinWith {n : Text} (h : n ≠ []) (more : List Text) :
    (joinWith separator (n :: more)).head? = n.head? := by
  obtain ⟨c, rest, rfl⟩ := List.exists_cons_of_ne_nil h
  cases more with
  | nil => rfl
  | cons next more => rfl

theorem getLast?_joinWith {n : Text} (h : n ≠ []) (front : List Text) :
    (joinWith separator (front ++ [n])).getLast? = n.getLast? := by
  rw [joinWith_concat, List.getLast?_append_of_ne_nil _ h]

end Text

namespace Path

/-! ### Relative paths -/

theorem dropComponents_visible {pieces : List Text} (h : ∀ piece ∈ pieces, IsPiece piece)
    (rest : List Text) : dropComponents pieces.length (pieces ++ rest) = rest := by
  induction pieces with
  | nil => rw [List.length_nil, List.nil_append, dropComponents]
  | cons piece pieces ih =>
    obtain ⟨hpiece, hpieces⟩ := List.forall_mem_cons.mp h
    have hvisible : ¬ isIgnorable piece = true := by simp [hpiece.visible]
    rw [List.length_cons, List.cons_append, dropComponents, if_neg hvisible]
    exact ih hpieces

section

variable {trail : Trail} {names : List Text}

theorem Trail.components_extend (h : ∀ n ∈ names, IsEntry n) :
    (trail.extend names).components = trail.components ++ names.map .name := by
  have hnames : names.map componentOf = names.map .name :=
    List.map_congr_left fun n hn => componentOf_eq_name (h n hn).down
  simp only [Trail.components, Trail.pieces, Trail.extend, List.map_append, hnames,
    List.append_assoc]
  rfl

theorem Trail.pieces_extend : (trail.extend names).pieces = trail.pieces ++ names :=
  (List.append_assoc ..).symm

theorem Trail.Proper.extend (h : trail.Proper) (hn : ∀ n ∈ names, IsEntry n) :
    (trail.extend names).Proper := by
  rw [← Trail.foldl_advance_names hn]
  exact h.foldl fun n hm => (hn n hm).toIsPiece

theorem Trail.components_extend_path (h : trail.Proper) (hne : names ≠ [])
    (hn : ∀ n ∈ names, IsEntry n) :
    Path.components (trail.extend names).path = trail.components ++ names.map .name := by
  have hlong : (trail.extend names).components ≠ [] := by
    rw [Trail.components_extend hn]
    exact fun hnil => hne (List.map_eq_nil_iff.mp (List.append_eq_nil_iff.mp hnil).2)
  rw [(h.extend hn).components_path hlong, Trail.components_extend hn]

/-- The empty trail is shown as a point, which no cleaned path begins with. -/
theorem relativeTo?_of_nil (h : trail.Proper) (hne : names ≠ []) (hn : ∀ n ∈ names, IsEntry n)
    (hempty : trail.components = []) :
    relativeTo? trail.path (trail.extend names).path = none := by
  have hbase : trail.path = ['.'] := if_pos hempty
  have hapart : (components ['.']).isPrefixOf (components (trail.extend names).path) = false := by
    rw [Trail.components_extend_path h hne hn, hempty]
    cases names with
    | nil => rfl
    | cons n more => rfl
  rw [relativeTo?, hbase, if_neg (by simp [hapart])]

theorem path_extend_of_nil (hne : names ≠ []) (hempty : trail.components = []) :
    (trail.extend names).path = Text.joinWith '/' names := by
  obtain ⟨hfront, hup⟩ := List.append_eq_nil_iff.mp hempty
  have hpieces : (trail.extend names).pieces = names := by
    rw [Trail.pieces_extend, List.map_eq_nil_iff.mp hup, List.nil_append]
  have hfront' : (trail.extend names).front = [] := hfront
  have hlong : (trail.extend names).components ≠ [] := by
    apply Trail.components_ne_nil
    rw [hpieces]
    exact hne
  rw [Trail.path_of_ne_nil hlong, hpieces, hfront']
  rfl

theorem relativeTo?_of_ne_nil (h : trail.Proper) (hne : names ≠ []) (hn : ∀ n ∈ names, IsEntry n)
    (hbegun : trail.components ≠ []) :
    relativeTo? trail.path (trail.extend names).path = some (Text.joinWith '/' names) := by
  have hvisible : ∀ n ∈ names, IsPiece n := fun n hm => (hn n hm).toIsPiece
  have hpieces : (trail.extend names).pieces ≠ [] := by
    rw [Trail.pieces_extend]
    exact fun hnil => hne (List.append_eq_nil_iff.mp hnil).2
  have hprefix : trail.components.isPrefixOf (trail.components ++ names.map .name) = true := by
    rw [List.isPrefixOf_iff_prefix]
    exact List.prefix_append _ _
  have hcount : trail.components.length ≠ 0 := by simpa using hbegun
  have hlength : trail.components.length - (trail.extend names).front.length =
      trail.pieces.length := by
    have hfront : (trail.extend names).front = trail.front := rfl
    rw [Trail.components, List.length_append, List.length_map, hfront, Nat.add_sub_cancel_left]
  have hrest : dropComponents trail.pieces.length (trail.pieces ++ names) = names :=
    dropComponents_visible h.isPiece names
  have hhead : names.dropWhile isIgnorable = names := by
    obtain ⟨n, more, rfl⟩ := List.exists_cons_of_ne_nil hne
    have hvis : ¬ isIgnorable n = true := by simp [(hvisible n (by simp)).visible]
    exact List.dropWhile_cons_of_neg hvis
  rw [relativeTo?, h.components_path hbegun, Trail.components_extend_path h hne hn, if_pos hprefix]
  simp only [if_neg hcount, (h.extend hn).frontAndPieces_path hpieces, Trail.pieces_extend, hlength,
    hrest, hhead, dropIgnorableEnd_visible hvisible]

/-- Seen from the path of a trail, its continuation is the names that are added. -/
theorem relativeTo?_extend (h : trail.Proper) (hne : names ≠ []) (hn : ∀ n ∈ names, IsEntry n) :
    (relativeTo? trail.path (trail.extend names).path).getD (trail.extend names).path =
      Text.joinWith '/' names := by
  by_cases hempty : trail.components = []
  · rw [relativeTo?_of_nil h hne hn hempty, Option.getD_none, path_extend_of_nil hne hempty]
  · rw [relativeTo?_of_ne_nil h hne hn hempty, Option.getD_some]

end

end Path

/-! ### References -/

/-- A name that stays as it is in a reference. -/
structure Referable (n : Text) : Prop where
  plain : '\\' ∉ n
  front : ∀ c ∈ n.head?, Text.isBlank c = false
  back : ∀ c ∈ n.getLast?, Text.isBlank c = false

theorem referable_iff {n : Text} : Referable n ↔ '\\' ∉ n ∧ n.trim = n := by
  rw [Text.trim, Text.trimWhile_eq_self_iff]
  exact ⟨fun h => ⟨h.plain, h.front, h.back⟩, fun ⟨h, h', h''⟩ => ⟨h, h', h''⟩⟩

instance (n : Text) : Decidable (Referable n) := decidable_of_iff' _ referable_iff

namespace Context

/-- A reference resolves to an existing path that leads down from the base through such names. -/
structure Refers (context : Context) (world : World) (reference : Text) (p : Path)
    (names : List Text) : Prop where
  resolved : context.resolve? world reference = some p
  below : Path.Below context.base p names
  referable : ∀ n ∈ names, Referable n

variable {world : World} {context : Context} {base r q p p' : Path} {names names' : List Text}

theorem resolve?_eq_some_iff :
    context.resolve? world r = some p ↔
      trimReference r ≠ [] ∧ p = Path.clean (Path.join context.base (trimReference r)) ∧
        world.exists? p = true := by
  unfold resolve?
  by_cases hr : trimReference r = []
  · simp [hr]
  · by_cases he : world.exists? (Path.clean (Path.join context.base (trimReference r))) = true
    · simp only [List.isEmpty_iff, hr, if_false, he, if_true, Option.some.injEq]
      exact ⟨fun h => ⟨hr, h.symm, h ▸ he⟩, fun h => h.2.1.symm⟩
    · simp only [List.isEmpty_iff, hr, if_false, he]
      exact ⟨fun h => (nomatch h), fun h => absurd (h.2.1 ▸ h.2.2) he⟩

theorem Refers.isEntry (h : context.Refers world r p names) : ∀ n ∈ names, Path.IsEntry n :=
  h.below.entries

theorem Refers.clean_eq (h : context.Refers world r p names) : Path.clean p = p := by
  obtain ⟨-, hp, -⟩ := resolve?_eq_some_iff.mp h.resolved
  rw [hp, Path.clean_clean]

theorem Refers.splitOn (h : context.Refers world r p names) :
    (Text.joinWith '/' names).splitOn '/' = names :=
  Text.splitOn_joinWith_of_not_mem h.below.1 fun n hn => (h.isEntry n hn).clean

theorem Refers.existing_eq (h : context.Refers world r p names)
    (hb : context.base = Path.clean base) : context.existing world r = Text.joinWith '/' names := by
  have hpath : p = (p.trail).path := by
    rw [← Path.clean_eq, h.clean_eq]
  have hbase : context.base = (context.base.trail).path := by
    rw [← Path.clean_eq, hb, Path.clean_clean]
  have hrelative : (Path.relativeTo? context.base p).getD p = Text.joinWith '/' names := by
    rw [hbase, hpath, h.below.2]
    exact Path.relativeTo?_extend (Path.proper_trail _) h.below.1 h.isEntry
  have hplain : ∀ c ∈ Text.joinWith '/' names, c ≠ '\\' := by
    rintro c hc rfl
    rcases Text.mem_of_mem_joinWith hc with hs | ⟨n, hn, hm⟩
    · cases hs
    · exact (h.referable n hn).plain hm
  have hsame : (Text.joinWith '/' names).map (fun c => if c = '\\' then '/' else c) =
      Text.joinWith '/' names := by
    conv_rhs => rw [← List.map_id (Text.joinWith '/' names)]
    exact List.map_congr_left fun c hc => if_neg (hplain c hc)
  simp only [existing, h.resolved]
  rw [relative, hrelative, hsame]
  rfl

/-- Trimming takes nothing from the names. -/
theorem Refers.trimReference (h : context.Refers world r p names) :
    Context.trimReference (Text.joinWith '/' names) = Text.joinWith '/' names := by
  obtain ⟨n, more, rfl⟩ := List.exists_cons_of_ne_nil h.below.1
  have hn : n ≠ [] := (h.isEntry n (by simp)).ne.1
  have hhead : (Text.joinWith '/' (n :: more)).head? = n.head? := Text.head?_joinWith hn more
  have htrim : (Text.joinWith '/' (n :: more)).trim = Text.joinWith '/' (n :: more) := by
    refine Text.trimWhile_eq_self_iff.mpr ⟨?_, ?_⟩
    · rw [hhead]
      exact (h.referable n (by simp)).front
    · obtain ⟨front, last, hlast⟩ :=
        (List.eq_nil_or_concat' (n :: more)).resolve_left (List.cons_ne_nil n more)
      have hmem : last ∈ n :: more := by simp [hlast]
      rw [hlast, Text.getLast?_joinWith (h.isEntry last hmem).ne.1]
      exact (h.referable last hmem).back
  rw [Context.trimReference, htrim]
  apply Text.dropWhile_eq_self
  intro c hc
  rw [hhead] at hc
  have hmem : c ∈ n := List.mem_of_mem_head? hc
  have hslash : c ≠ '/' := fun he => (h.isEntry n (by simp)).clean (he ▸ hmem)
  have hback : c ≠ '\\' := fun he => (h.referable n (by simp)).plain (he ▸ hmem)
  simp [hslash, hback]

theorem Refers.isAbsolute (h : context.Refers world r p names) :
    Path.isAbsolute (Text.joinWith '/' names) = false := by
  obtain ⟨n, more, rfl⟩ := List.exists_cons_of_ne_nil h.below.1
  have hentry := h.isEntry n (by simp)
  rw [Path.isAbsolute, Text.head?_joinWith hentry.ne.1]
  exact Path.isAbsolute_of_not_mem hentry.clean

/-- The names are a reference to the path. -/
theorem Refers.again (h : context.Refers world r p names) :
    context.Refers world (Text.joinWith '/' names) p names := by
  obtain ⟨-, -, hexists⟩ := resolve?_eq_some_iff.mp h.resolved
  have hnames : Path.names (Text.joinWith '/' names) = names := by
    rw [Path.names, h.splitOn]
    exact Path.filter_visible fun n hn => (h.isEntry n hn).toIsPiece
  have htrail : Path.trail (Path.join context.base (Text.joinWith '/' names)) = p.trail := by
    rw [Path.trail_join h.isAbsolute, hnames, Path.Trail.foldl_advance_names h.isEntry, h.below.2]
  have hclean : p = Path.clean (Path.join context.base (Text.joinWith '/' names)) := by
    rw [Path.clean_eq_clean_iff.mpr htrail, h.clean_eq]
  have hne : Text.joinWith '/' names ≠ [] := by
    intro hnil
    have hsplit := h.splitOn
    rw [hnil] at hsplit
    have hmem : [] ∈ names := hsplit ▸ List.mem_singleton.mpr rfl
    exact (h.isEntry [] hmem).ne.1 rfl
  refine ⟨resolve?_eq_some_iff.mpr ?_, h.below, h.referable⟩
  rw [h.trimReference]
  exact ⟨hne, hclean, hexists⟩

/-- What is shown for a reference below the base is a reference itself: it resolves to the same path
and is shown as it is, it is made of names only, and it is the same for two references exactly when
they resolve to the same path. -/
theorem existing_canonical (hb : context.base = Path.clean base)
    (hr : context.Refers world r p names) (hq : context.Refers world q p' names') :
    context.resolve world (context.existing world r) = context.resolve world r ∧
      context.existing world (context.existing world r) = context.existing world r ∧
      (context.existing world r).head? ≠ some '/' ∧
      (∀ piece ∈ (context.existing world r).splitOn '/',
        piece ≠ [] ∧ piece ≠ ['.'] ∧ piece ≠ ['.', '.']) ∧
      (context.existing world r = context.existing world q ↔
        context.resolve world r = context.resolve world q) := by
  rw [hr.existing_eq hb, hq.existing_eq hb, hr.again.existing_eq hb]
  refine ⟨?_, rfl, ?_, fun piece hpiece => ?_, ?_⟩
  · rw [resolve, resolve, hr.again.resolved, hr.resolved]
  · have ha := hr.isAbsolute
    simpa [Path.isAbsolute] using ha
  · rw [hr.splitOn] at hpiece
    have hentry := hr.isEntry piece hpiece
    exact ⟨hentry.ne.1, hentry.ne.2, hentry.down⟩
  · have hresolve : context.resolve world r = context.resolve world q ↔ p = p' := by
      rw [resolve, resolve, hr.resolved, hq.resolved]
      simp
    rw [hresolve]
    constructor
    · intro hsame
      have hnames : names = names' := by
        rw [← hr.splitOn, hsame, hq.splitOn]
      -- the same names from the same base
      have htrail : p.trail = p'.trail := by
        rw [hr.below.2, hq.below.2, hnames]
      have hclean := Path.clean_eq_clean_iff.mpr htrail
      rwa [hr.clean_eq, hq.clean_eq] at hclean
    · rintro rfl
      have hsame := hr.below.2.symm.trans hq.below.2
      have hnames : names = names' := List.append_cancel_left (congrArg Path.Trail.names hsame)
      rw [hnames]

/-- A folder with a blank in its name, below the base. -/
def shelfWorld : World where
  disk := ⟨[(["base".toList], .folder), (["base".toList, "a b".toList], .folder),
    (["base".toList, "a b".toList, "c".toList], .file (.text "text\n".toList))]⟩
  folder := []
  now := 0

def shelfContext : Context := .new shelfWorld [] "/base/../base/".toList {}

theorem existing_canonical_shelfWorld :
    shelfContext.Refers shelfWorld " //./x/../a b//c\n".toList "/base/a b/c".toList
        ["a b".toList, "c".toList] ∧
      shelfContext.Refers shelfWorld "../base/a b/c/.".toList "/base/a b/c".toList
        ["a b".toList, "c".toList] ∧
      shelfContext.existing shelfWorld " //./x/../a b//c\n".toList =
        shelfContext.existing shelfWorld "../base/a b/c/.".toList := by
  have hreferable : ∀ n ∈ ["a b".toList, "c".toList], Referable n := by decide
  have hbelow : Path.Below shelfContext.base "/base/a b/c".toList ["a b".toList, "c".toList] :=
    ⟨by decide, by decide +kernel⟩
  have hr : shelfContext.Refers shelfWorld " //./x/../a b//c\n".toList "/base/a b/c".toList
      ["a b".toList, "c".toList] := ⟨by decide +kernel, hbelow, hreferable⟩
  have hq : shelfContext.Refers shelfWorld "../base/a b/c/.".toList "/base/a b/c".toList
      ["a b".toList, "c".toList] := ⟨by decide +kernel, hbelow, hreferable⟩
  have hbase : shelfContext.base = Path.clean (Path.absolute shelfWorld.folderPath
      "/base/../base/".toList) := rfl
  obtain ⟨-, -, -, -, hsame⟩ := existing_canonical hbase hr hq
  refine ⟨hr, hq, hsame.mpr ?_⟩
  rw [resolve, resolve, hr.resolved, hq.resolved]

end Context

end MarkdownDirectives
