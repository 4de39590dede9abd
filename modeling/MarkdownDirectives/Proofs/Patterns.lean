import MarkdownDirectives.Text.Pattern
import Mathlib.Data.List.TakeWhile

/-!
# What patterns take

Which texts a pattern takes, and what its groups keep, is said by one rule for each kind of pattern,
without any order. The ways in which a pattern is tried at a place are exactly those that the rules
allow there, so what a match takes is read off the rules. The order matters only where a match could
end earlier as well: a class of characters that repeats is followed to its end first.
-/

namespace MarkdownDirectives

namespace Pattern

/-- The pattern takes the text as a whole, and its groups keep the given texts. -/
inductive Takes : Pattern → Text → Groups → Prop
  | char {accepts c} : accepts c = true → Takes (.char accepts) [c] []
  | seq {p q front back earlier later} : Takes p front earlier → Takes q back later →
    Takes (.seq p q) (front ++ back) (later ++ earlier)
  | first {p q t groups} : Takes p t groups → Takes (.either p q) t groups
  | second {p q t groups} : Takes q t groups → Takes (.either p q) t groups
  | stop {p} : Takes (.many p) [] []
  | again {p front back earlier later} : front ≠ [] → Takes p front earlier →
    Takes (.many p) back later → Takes (.many p) (front ++ back) (later ++ earlier)
  | group {number p t groups} : Takes p t groups →
    Takes (.group number p) t ((number, t) :: groups)

section

variable {p q : Pattern} {t rest taken : Text} {groups : Groups} {m : Match}

/-! ### One rule for each kind of pattern -/

theorem takes_char {accepts : Char → Bool} :
    (char accepts).Takes t groups ↔ groups = [] ∧ ∃ c, accepts c = true ∧ t = [c] := by
  constructor
  · rintro ⟨hc⟩
    exact ⟨rfl, _, hc, rfl⟩
  · rintro ⟨rfl, c, hc, rfl⟩
    exact .char hc

theorem takes_literal {c : Char} : (literal c).Takes t groups ↔ groups = [] ∧ t = [c] := by
  simp [literal, takes_char]

theorem takes_seq : (p ++ q).Takes t groups ↔ ∃ front back earlier later,
    p.Takes front earlier ∧ q.Takes back later ∧ t = front ++ back ∧ groups = later ++ earlier := by
  constructor
  · intro h
    cases (h : (seq p q).Takes t groups) with
    | seq hp hq => exact ⟨_, _, _, _, hp, hq, rfl, rfl⟩
  · rintro ⟨front, back, earlier, later, hp, hq, rfl, rfl⟩
    exact .seq hp hq

/-- A pattern without groups at the end keeps nothing. -/
theorem takes_seq_right {shape : Text → Prop} (hq : ∀ t groups, q.Takes t groups ↔
    groups = [] ∧ shape t) : (p ++ q).Takes t groups ↔
      ∃ front back, p.Takes front groups ∧ shape back ∧ t = front ++ back := by
  rw [takes_seq]
  constructor
  · rintro ⟨front, back, earlier, _, hfront, hback, rfl, rfl⟩
    obtain ⟨rfl, hshape⟩ := (hq _ _).mp hback
    exact ⟨front, back, hfront, hshape, rfl⟩
  · rintro ⟨front, back, hfront, hshape, rfl⟩
    exact ⟨front, back, groups, [], hfront, (hq _ _).mpr ⟨rfl, hshape⟩, rfl, rfl⟩

theorem takes_seq_left {shape : Text → Prop} (hp : ∀ t groups, p.Takes t groups ↔
    groups = [] ∧ shape t) : (p ++ q).Takes t groups ↔
      ∃ front back, shape front ∧ q.Takes back groups ∧ t = front ++ back := by
  rw [takes_seq]
  constructor
  · rintro ⟨front, back, _, later, hfront, hback, rfl, rfl⟩
    obtain ⟨rfl, hshape⟩ := (hp _ _).mp hfront
    exact ⟨front, back, hshape, by rwa [List.append_nil], rfl⟩
  · rintro ⟨front, back, hshape, hback, rfl⟩
    exact ⟨front, back, [], groups, (hp _ _).mpr ⟨rfl, hshape⟩, hback, rfl,
      (List.append_nil _).symm⟩

theorem takes_either :
    (either p q).Takes t groups ↔ p.Takes t groups ∨ q.Takes t groups := by
  constructor
  · intro h
    cases h with
    | first h => exact .inl h
    | second h => exact .inr h
  · rintro (h | h)
    · exact .first h
    · exact .second h

theorem takes_many : (many p).Takes t groups ↔ (t = [] ∧ groups = []) ∨
    ∃ front back earlier later, front ≠ [] ∧ p.Takes front earlier ∧ (many p).Takes back later ∧
      t = front ++ back ∧ groups = later ++ earlier := by
  constructor
  · intro h
    cases h with
    | stop => exact .inl ⟨rfl, rfl⟩
    | again hne hp hmore => exact .inr ⟨_, _, _, _, hne, hp, hmore, rfl, rfl⟩
  · rintro (⟨rfl, rfl⟩ | ⟨front, back, earlier, later, hne, hp, hmore, rfl, rfl⟩)
    · exact .stop
    · exact .again hne hp hmore

theorem takes_group {number : Nat} : (group number p).Takes t groups ↔
    ∃ inner, p.Takes t inner ∧ groups = (number, t) :: inner := by
  constructor
  · intro h
    cases h with
    | group h => exact ⟨_, h, rfl⟩
  · rintro ⟨inner, h, rfl⟩
    exact .group h

theorem takes_many_char {accepts : Char → Bool} :
    (many (char accepts)).Takes t groups ↔ groups = [] ∧ ∀ c ∈ t, accepts c = true := by
  constructor
  · intro h
    generalize hp : many (char accepts) = p at h
    induction h with
    | stop => exact ⟨rfl, fun c hc => absurd hc List.not_mem_nil⟩
    | again _ hfirst _ _ ih =>
      cases hp
      obtain ⟨rfl, c, hc, rfl⟩ := takes_char.mp hfirst
      obtain ⟨rfl, hmore⟩ := ih rfl
      exact ⟨rfl, List.forall_mem_cons.mpr ⟨hc, hmore⟩⟩
    | char | seq | first | second | group => cases hp
  · rintro ⟨rfl, hall⟩
    induction t with
    | nil => exact .stop
    | cons c t ih =>
      obtain ⟨hc, hmore⟩ := List.forall_mem_cons.mp hall
      exact .again (List.cons_ne_nil c []) (.char hc) (ih hmore)

theorem takes_many1_char {accepts : Char → Bool} : (many1 (char accepts)).Takes t groups ↔
    groups = [] ∧ t ≠ [] ∧ ∀ c ∈ t, accepts c = true := by
  rw [many1, takes_seq_left (fun _ _ => takes_char)]
  constructor
  · rintro ⟨_, back, ⟨c, hc, rfl⟩, hmore, rfl⟩
    obtain ⟨rfl, hback⟩ := takes_many_char.mp hmore
    exact ⟨rfl, List.cons_ne_nil _ _, List.forall_mem_cons.mpr ⟨hc, hback⟩⟩
  · rintro ⟨rfl, hne, hall⟩
    obtain ⟨c, t, rfl⟩ := List.exists_cons_of_ne_nil hne
    obtain ⟨hc, hmore⟩ := List.forall_mem_cons.mp hall
    exact ⟨[c], t, ⟨c, hc, rfl⟩, takes_many_char.mpr ⟨rfl, hmore⟩, rfl⟩

theorem takes_between {quote : Char} : (between quote p).Takes t groups ↔
    ∃ inside, p.Takes inside groups ∧ t = quote :: (inside ++ [quote]) := by
  simp only [between, takes_seq_right (fun _ _ => takes_literal),
    takes_seq_left (fun _ _ => takes_literal)]
  constructor
  · rintro ⟨_, _, ⟨_, inside, rfl, hinside, rfl⟩, rfl, rfl⟩
    exact ⟨inside, hinside, rfl⟩
  · rintro ⟨inside, hinside, rfl⟩
    exact ⟨_, _, ⟨_, inside, rfl, hinside, rfl⟩, rfl, rfl⟩

/-! ### The ways of a pattern -/

theorem Match.eq_mk_iff : m = ⟨groups, t⟩ ↔ t = m.rest ∧ m.groups = groups := by
  cases m
  simp [and_comm, eq_comm]

theorem mem_repeated_iff {once : Text → List Match}
    (honce : ∀ t m, m ∈ once t ↔ ∃ taken, t = taken ++ m.rest ∧ p.Takes taken m.groups)
    {fuel : Nat} (hf : t.length ≤ fuel) : m ∈ repeated once fuel t ↔
      ∃ taken, t = taken ++ m.rest ∧ (many p).Takes taken m.groups := by
  induction fuel generalizing t m with
  | zero =>
    obtain rfl : t = [] := List.length_eq_zero_iff.mp (Nat.le_zero.mp hf)
    rw [repeated, List.mem_singleton, Match.eq_mk_iff]
    constructor
    · rintro ⟨hrest, hgroups⟩
      exact ⟨[], hrest, takes_many.mpr (.inl ⟨rfl, hgroups⟩)⟩
    · rintro ⟨taken, ht, htakes⟩
      obtain ⟨rfl, hrest⟩ := List.append_eq_nil_iff.mp ht.symm
      rcases takes_many.mp htakes with ⟨-, hgroups⟩ | ⟨front, back, _, _, hne, -, -, hsplit, -⟩
      · exact ⟨hrest.symm, hgroups⟩
      · exact absurd (List.append_eq_nil_iff.mp hsplit.symm).1 hne
  | succ fuel ih =>
    rw [repeated, List.mem_append, List.mem_singleton, Match.eq_mk_iff, List.mem_flatMap]
    constructor
    · rintro (⟨m₁, hfirst, hmore⟩ | ⟨hrest, hgroups⟩)
      · obtain ⟨front, rfl, hfront⟩ := (honce t m₁).mp hfirst
        -- what comes next is shorter, so the fuel that is left suffices for it
        split at hmore
        · next hshort =>
          obtain ⟨m₂, hm₂, rfl⟩ := List.mem_map.mp hmore
          have hne : front ≠ [] := by
            rintro rfl
            simp at hshort
          have hfuel : m₁.rest.length ≤ fuel := by omega
          obtain ⟨back, hback, hmany⟩ := (ih hfuel).mp hm₂
          refine ⟨front ++ back, ?_, .again hne hfront hmany⟩
          rw [List.append_assoc]
          exact congrArg (front ++ ·) hback
        · cases hmore
      · exact ⟨[], hrest, takes_many.mpr (.inl ⟨rfl, hgroups⟩)⟩
    · rintro ⟨taken, rfl, htakes⟩
      rcases takes_many.mp htakes with ⟨rfl, hgroups⟩ |
        ⟨front, back, earlier, later, hne, hfront, hback, rfl, hgroups⟩
      · exact .inr ⟨rfl, hgroups⟩
      · refine .inl ⟨⟨earlier, back ++ m.rest⟩, (honce _ _).mpr ⟨front, by simp, hfront⟩, ?_⟩
        have hpos := List.length_pos_iff.mpr hne
        have hshort : (back ++ m.rest).length < (front ++ back ++ m.rest).length := by
          simp only [List.length_append]
          omega
        have hfuel : (back ++ m.rest).length ≤ fuel := by omega
        rw [if_pos hshort, List.mem_map]
        exact ⟨⟨later, m.rest⟩, (ih hfuel).mpr ⟨back, rfl, hback⟩,
          (Match.eq_mk_iff.mpr ⟨rfl, hgroups⟩).symm⟩

/-- The ways at a place are the fronts that the pattern takes. -/
theorem mem_ways_iff :
    m ∈ p.ways t ↔ ∃ taken, t = taken ++ m.rest ∧ p.Takes taken m.groups := by
  induction p generalizing t m with
  | char accepts =>
    constructor
    · intro h
      cases t with
      | nil => cases h
      | cons c t =>
        rw [ways] at h
        split at h
        · next hc =>
          obtain rfl := List.mem_singleton.mp h
          exact ⟨[c], rfl, .char hc⟩
        · cases h
    · rintro ⟨taken, rfl, htakes⟩
      obtain ⟨hgroups, c, hc, rfl⟩ := takes_char.mp htakes
      rw [List.singleton_append, ways, if_pos hc, List.mem_singleton]
      exact Match.eq_mk_iff.mpr ⟨rfl, hgroups⟩
  | seq p q ihp ihq =>
    simp only [ways, List.mem_flatMap, List.mem_map]
    constructor
    · rintro ⟨m₁, hm₁, m₂, hm₂, rfl⟩
      obtain ⟨front, rfl, hfront⟩ := ihp.mp hm₁
      obtain ⟨back, hback, hmore⟩ := ihq.mp hm₂
      refine ⟨front ++ back, ?_, .seq hfront hmore⟩
      rw [List.append_assoc]
      exact congrArg (front ++ ·) hback
    · rintro ⟨taken, rfl, htakes⟩
      obtain ⟨front, back, earlier, later, hfront, hback, rfl, hgroups⟩ := takes_seq.mp htakes
      exact ⟨⟨earlier, back ++ m.rest⟩, ihp.mpr ⟨front, List.append_assoc .., hfront⟩,
        ⟨later, m.rest⟩, ihq.mpr ⟨back, rfl, hback⟩,
        (Match.eq_mk_iff.mpr ⟨rfl, hgroups⟩).symm⟩
  | either p q ihp ihq =>
    simp only [ways, List.mem_append, ihp, ihq, takes_either, and_or_left, exists_or]
  | many p ih => exact mem_repeated_iff (fun _ _ => ih) (Nat.le_refl _)
  | group number p ih =>
    simp only [ways, List.mem_map]
    constructor
    · rintro ⟨m, hm, rfl⟩
      obtain ⟨taken, rfl, htakes⟩ := ih.mp hm
      refine ⟨taken, rfl, ?_⟩
      simpa using htakes.group
    · rintro ⟨taken, rfl, htakes⟩
      obtain ⟨inner, hinner, hgroups⟩ := takes_group.mp htakes
      have htake : (taken ++ m.rest).take ((taken ++ m.rest).length - m.rest.length) = taken := by
        simp
      refine ⟨⟨inner, m.rest⟩, ih.mpr ⟨taken, rfl, hinner⟩, ?_⟩
      rw [htake, ← hgroups]

theorem takes_of_head?_ways (h : (p.ways t).head? = some m) :
    ∃ taken, t = taken ++ m.rest ∧ p.Takes taken m.groups :=
  mem_ways_iff.mp (List.mem_of_mem_head? h)

theorem exists_head?_ways (h : p.Takes taken groups) (rest : Text) :
    ∃ m, (p.ways (taken ++ rest)).head? = some m := by
  have hmem : ⟨groups, rest⟩ ∈ p.ways (taken ++ rest) := mem_ways_iff.mpr ⟨taken, rfl, h⟩
  exact ⟨_, List.head?_eq_some_head (List.ne_nil_of_mem hmem)⟩

theorem takes_of_whole? (h : p.whole? t = some groups) : p.Takes t groups := by
  obtain ⟨m, hm, rfl⟩ := Option.map_eq_some_iff.mp h
  obtain ⟨taken, rfl, htakes⟩ := mem_ways_iff.mp (List.mem_of_find?_eq_some hm)
  have hempty : m.rest.isEmpty = true := by simpa using List.find?_some hm
  have hrest : m.rest = [] := List.isEmpty_iff.mp hempty
  rwa [hrest, List.append_nil]

theorem exists_whole?_of_takes (h : p.Takes t groups) : ∃ groups', p.whole? t = some groups' := by
  have hmem : ⟨groups, []⟩ ∈ p.ways t := mem_ways_iff.mpr ⟨t, (List.append_nil t).symm, h⟩
  have hfound : ((p.ways t).find? (·.rest.isEmpty)).isSome :=
    List.find?_isSome.mpr ⟨_, hmem, rfl⟩
  obtain ⟨m, hm⟩ := Option.isSome_iff_exists.mp hfound
  exact ⟨m.groups, by rw [whole?, hm, Option.map_some]⟩

/-! ### The longest run of a class -/

theorem head?_ways_many_char (accepts : Char → Bool) (t : Text) :
    ((many (char accepts)).ways t).head? = some ⟨[], t.dropWhile accepts⟩ := by
  have hfuel : ∀ fuel, t.length ≤ fuel →
      (repeated (char accepts).ways fuel t).head? = some ⟨[], t.dropWhile accepts⟩ := by
    induction t with
    | nil =>
      intro fuel _
      cases fuel <;> rfl
    | cons c t ih =>
      intro fuel hf
      obtain ⟨fuel, rfl⟩ : ∃ n, fuel = n + 1 := Nat.exists_eq_add_one_of_ne_zero (by
        rw [List.length_cons] at hf
        omega)
      cases hc : accepts c with
      | false => simp [repeated, ways, hc]
      | true =>
        have hmore := ih fuel (Nat.le_of_succ_le_succ hf)
        simp [repeated, ways, hc, hmore, List.head?_append, Match.after]
  exact hfuel t.length (Nat.le_refl _)

theorem rest_of_head?_ways_many1_char {accepts : Char → Bool}
    (h : ((many1 (char accepts)).ways t).head? = some m) : m.rest = t.dropWhile accepts := by
  cases t with
  | nil => cases h
  | cons c t =>
    have hways : (many1 (char accepts)).ways (c :: t) =
        if accepts c then ((many (char accepts)).ways t).map (.after []) else [] := by
      change List.flatMap _ (ways (char accepts) (c :: t)) = _
      rw [ways]
      split
      · exact List.flatMap_singleton ..
      · rfl
    rw [hways] at h
    split at h
    · next hc =>
      rw [List.head?_map, head?_ways_many_char] at h
      cases h
      rw [List.dropWhile_cons_of_pos hc]
      rfl
    · cases h

/-! ### Searching -/

theorem search_drop (p : Pattern) (skip : Nat) (t : Text) :
    p.search skip t = p.search 0 (t.drop skip) := by
  induction skip generalizing t with
  | zero => rfl
  | succ skip ih =>
    cases t with
    | nil => rfl
    | cons c t => exact ih t

/-- A match at the front is followed by the search in what it leaves. -/
theorem search_of_head? (h : (p.ways (taken ++ rest)).head? = some ⟨groups, rest⟩)
    (hne : taken ≠ []) : p.search 0 (taken ++ rest) = .found groups :: p.search 0 rest := by
  obtain ⟨c, taken, rfl⟩ := List.exists_cons_of_ne_nil hne
  have hdrop : (taken ++ rest).drop ((taken ++ rest).length - rest.length) = rest := by simp
  simp only [List.cons_append] at h ⊢
  simp only [search, h, search_drop p (_ - _), hdrop]

/-- Where the pattern takes nothing, the characters go to the text in front. -/
theorem search_text (ht : ∀ c ∈ t, ∀ more, p.ways (c :: more) = []) (rest : Text) :
    p.search 0 (t ++ rest) = t.foldr Piece.consChar (p.search 0 rest) := by
  induction t with
  | nil => rfl
  | cons c t ih =>
    obtain ⟨hc, hmore⟩ := List.forall_mem_cons.mp ht
    simp only [List.cons_append, search, hc, List.head?_nil, ih hmore, List.foldr_cons]

theorem exists_consChar (c : Char) (pieces : List Piece) :
    ∃ u more, Piece.consChar c pieces = .text u :: more := by
  unfold Piece.consChar
  split <;> exact ⟨_, _, rfl⟩

theorem foldr_consChar (ht : t ≠ []) {pieces : List Piece}
    (hp : ∀ u more, pieces ≠ .text u :: more) :
    t.foldr Piece.consChar pieces = .text t :: pieces := by
  induction t with
  | nil => exact absurd rfl ht
  | cons c t ih =>
    cases t with
    | nil =>
      cases pieces with
      | nil => rfl
      | cons piece pieces =>
        cases piece with
        | text u => exact absurd rfl (hp u pieces)
        | found groups => rfl
    | cons d t =>
      rw [List.foldr_cons, ih (List.cons_ne_nil _ _)]
      rfl

end

end Pattern

end MarkdownDirectives
