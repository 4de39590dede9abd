import Mathlib.Order.Bounds.Defs
import MarkdownDirectives.Proofs.TagLines

/-!
# Matching tags

An opening tag and the closing tag of its envelope match as brackets do: from the one to the other
never more tags are closed than opened, and at the end as many. Where no closing tag matches, the
first one ends the envelope. One pass that keeps a counter and the first closing tag it came by
finds either; its counter is the height of the lines it passed, and other lines do not change it.
-/

namespace MarkdownDirectives

namespace TagForm

variable {form : TagForm} {ls : List Text} {line : Text}

/-! ### Heights -/

theorem not_opens_of_closes (h : form.closes line = true) : form.opens line = false := by
  cases ho : form.opens line with
  | false => rfl
  | true =>
    obtain ⟨expression, hx⟩ := Option.isSome_iff_exists.mp ho
    obtain ⟨-, left, right, after, -, -, hafter, rfl⟩ := opening?_eq_some_iff.mp hx
    have hend : form.endMark <:+ form.closeTag := by
      have hc : Text.dropEndWhile Text.isSpace
          (form.openMark ++ (left ++ expression ++ right) ++ form.endMark ++ after) =
            form.closeTag := by
        simpa [closes] using h
      rw [Text.dropEndWhile_append hafter, dropEndWhile_endMark] at hc
      rw [← hc]
      exact List.suffix_append _ _
    revert hend
    cases form <;> decide

/-- How many more tags of the form the lines open than close. -/
def height (form : TagForm) (ls : List Text) : Int :=
  (ls.countP form.opens : Int) - (ls.countP form.closes : Int)

def weight (form : TagForm) (line : Text) : Int :=
  if form.closes line then -1 else if form.opens line then 1 else 0

theorem height_cons (line : Text) (ls : List Text) :
    form.height (line :: ls) = form.weight line + form.height ls := by
  unfold height weight
  cases hc : form.closes line with
  | true =>
    have ho := not_opens_of_closes hc
    simp only [List.countP_cons, hc, ho, if_true]
    push_cast
    omega
  | false =>
    cases ho : form.opens line with
    | true =>
      simp only [List.countP_cons, hc, ho, if_true]
      push_cast
      omega
    | false =>
      simp [hc, ho]

/-- The tags of the form match each other: no front of the lines closes more than it opens, and all
lines together close as many. -/
structure Matched (form : TagForm) (ls : List Text) : Prop where
  nonneg : ∀ n, 0 ≤ form.height (ls.take n)
  level : form.height ls = 0

theorem openAfter_eq_some_iff {depth d : Nat} :
    form.openAfter depth ls = some d ↔
      (∀ n, 0 ≤ depth + form.height (ls.take n)) ∧ (d : Int) = depth + form.height ls := by
  induction ls generalizing depth with
  | nil =>
    have hzero : form.height [] = 0 := rfl
    simp only [openAfter, List.take_nil, hzero, Option.some.injEq]
    constructor
    · intro h
      exact ⟨fun _ => by omega, by omega⟩
    · intro h
      omega
  | cons line ls ih =>
    have hstart : 0 ≤ (depth : Int) + form.height ((line :: ls).take 0) := by
      show 0 ≤ (depth : Int) + 0
      omega
    -- the empty front asks nothing, and every other front begins with the line
    rw [← Nat.and_forall_add_one, and_iff_right hstart]
    simp only [openAfter, List.take_succ_cons, height_cons, weight]
    cases hc : form.closes line with
    | true =>
      cases depth with
      | zero =>
        refine iff_of_false (by simp) fun h => ?_
        have hfront := h.1 0
        have hnil : form.height (ls.take 0) = 0 := rfl
        simp only [if_true, hnil] at hfront
        omega
      | succ depth =>
        simp only [if_true]
        refine ih.trans (and_congr (forall_congr' fun n => ?_) ?_) <;> push_cast <;> omega
    | false =>
      cases ho : form.opens line with
      | true =>
        simp only [Bool.false_eq_true, if_false, if_true]
        refine ih.trans (and_congr (forall_congr' fun n => ?_) ?_) <;> push_cast <;> omega
      | false =>
        simp only [Bool.false_eq_true, if_false]
        refine ih.trans (and_congr (forall_congr' fun n => ?_) ?_) <;> omega

theorem balanced_iff_matched : form.Balanced ls ↔ form.Matched ls := by
  rw [Balanced, openAfter_eq_some_iff]
  constructor
  · intro h
    exact ⟨fun n => by simpa using h.1 n, by simpa using h.2.symm⟩
  · intro h
    exact ⟨fun n => by simpa using h.nonneg n, by simpa using h.level.symm⟩

/-! ### The matching line -/

def MatchedBy (form : TagForm) (ls : List Text) (n : Nat) : Prop :=
  (∃ closing, ls[n]? = some closing ∧ form.closes closing = true) ∧ form.Matched (ls.take n)

theorem openAfter_of_balancedClose? {depth n : Nat} (h : balancedClose? form depth ls = some n) :
    form.openAfter depth (ls.take n) = some 0 := by
  obtain ⟨before, closing, more, rfl, rfl, hc⟩ := of_balancedClose? h
  rw [List.take_left]
  cases ho : form.openAfter depth before with
  | none =>
    obtain ⟨count, hlt, hcount⟩ := balancedClose?_stop ho
    have hsame := h.symm.trans (hcount (closing :: more))
    have hlength := Option.some.inj hsame
    omega
  | some d =>
    cases d with
    | zero => rfl
    | succ d =>
      -- the closing line would leave a tag open
      rw [balancedClose?_pass ho] at h
      simp only [balancedClose?, hc, if_true, Option.map_map] at h
      obtain ⟨count, -, hcount⟩ := Option.map_eq_some_iff.mp h
      simp only [Function.comp_apply] at hcount
      omega

theorem balancedClose?_eq_some_iff {n : Nat} :
    balancedClose? form 0 ls = some n ↔ form.MatchedBy ls n := by
  constructor
  · intro h
    refine ⟨?_, balanced_iff_matched.mp (openAfter_of_balancedClose? h)⟩
    obtain ⟨before, closing, more, rfl, rfl, hc⟩ := of_balancedClose? h
    exact ⟨closing, by simp, hc⟩
  · intro ⟨⟨closing, hn, hc⟩, hm⟩
    obtain ⟨hlt, hget⟩ := List.getElem?_eq_some_iff.mp hn
    have hsplit : ls = ls.take n ++ closing :: ls.drop (n + 1) := by
      rw [← hget, ← List.drop_eq_getElem_cons hlt, List.take_append_drop]
    have hlength : (ls.take n).length = n := List.length_take_of_le hlt.le
    have hfound := balancedClose?_append hc (ls.drop (n + 1)) (balanced_iff_matched.mpr hm)
    rw [← hsplit, hlength] at hfound
    exact hfound

theorem closingLine?_eq_some_iff {n : Nat} :
    closingLine? form ls = some n ↔
      form.MatchedBy ls n ∨
        (∀ m, ¬ form.MatchedBy ls m) ∧ ls.findIdx? form.closes = some n := by
  rw [closingLine?, Option.or_eq_some_iff, balancedClose?_eq_some_iff,
    Option.eq_none_iff_forall_ne_some]
  refine or_congr Iff.rfl (and_congr ?_ Iff.rfl)
  exact forall_congr' fun m => not_congr balancedClose?_eq_some_iff

/-! ### One pass -/

/-- What a pass over the lines keeps: how many tags are open, how many lines were passed, and the
first closing line among them. The counter is an integer, so that it could fall below zero. -/
structure Pass where
  depth : Int := 0
  passed : Nat := 0
  first : Option Nat := none

namespace Pass

variable {pass next : Pass}

/-- Passes a line, or ends the pass there with its number. -/
def step (form : TagForm) (pass : Pass) (line : Text) : Except Nat Pass :=
  if form.closes line then
    if pass.depth = 0 then .error pass.passed
    else .ok ⟨pass.depth - 1, pass.passed + 1, pass.first.or (some pass.passed)⟩
  else if form.opens line then .ok ⟨pass.depth + 1, pass.passed + 1, pass.first⟩
  else .ok ⟨pass.depth, pass.passed + 1, pass.first⟩

def run (form : TagForm) (pass : Pass) (ls : List Text) : Except Nat Pass :=
  ls.foldlM (step form) pass

/-- The line where the pass ended, or else the first closing line. -/
def found? : Except Nat Pass → Option Nat
  | .error n => some n
  | .ok pass => pass.first

theorem run_cons (pass : Pass) (line : Text) (ls : List Text) :
    run form pass (line :: ls) = (step form pass line).bind fun next => run form next ls := rfl

theorem depth_step (h : step form pass line = .ok next) :
    next.depth = pass.depth + form.weight line ∧ (0 ≤ pass.depth → 0 ≤ next.depth) := by
  unfold step at h
  unfold weight
  split at h
  · next hc =>
    rw [if_pos hc]
    split at h
    · cases h
    · cases h
      exact ⟨rfl, fun hd => by show 0 ≤ pass.depth - 1; omega⟩
  · next hc =>
    rw [if_neg hc]
    split at h
    · next ho =>
      cases h
      rw [if_pos ho]
      exact ⟨rfl, fun hd => by show 0 ≤ pass.depth + 1; omega⟩
    · next ho =>
      cases h
      rw [if_neg ho]
      exact ⟨(Int.add_zero _).symm, id⟩

/-- The counter is the height of the lines passed and does not fall below zero. -/
theorem depth_run (h : run form pass ls = .ok next) :
    next.depth = pass.depth + form.height ls ∧ (0 ≤ pass.depth → 0 ≤ next.depth) := by
  induction ls generalizing pass with
  | nil =>
    cases h
    exact ⟨(Int.add_zero _).symm, id⟩
  | cons line ls ih =>
    rw [run_cons] at h
    obtain ⟨middle, hstep, hrest⟩ := exists_of_bind_eq_ok h
    obtain ⟨hdepth, hkeeps⟩ := depth_step hstep
    obtain ⟨hrun, hkeeps'⟩ := ih hrest
    refine ⟨?_, fun hd => hkeeps' (hkeeps hd)⟩
    rw [hrun, hdepth, height_cons]
    omega

/-- The pass finds what the two searches find. -/
theorem found?_run {depth : Nat} (hd : pass.depth = depth) :
    found? (run form pass ls) =
      ((balancedClose? form depth ls).map (pass.passed + ·)).or
        (pass.first.or ((ls.findIdx? form.closes).map (pass.passed + ·))) := by
  induction ls generalizing pass depth with
  | nil => simp [run, found?, balancedClose?]; rfl
  | cons line ls ih =>
    have hshift : ∀ o : Option Nat,
        (o.map (· + 1)).map (pass.passed + ·) = o.map (pass.passed + 1 + ·) := by
      intro o
      rw [Option.map_map]
      congr 1
      funext n
      show pass.passed + (n + 1) = pass.passed + 1 + n
      omega
    rw [run_cons]
    simp only [step, balancedClose?, List.findIdx?_cons]
    cases hc : form.closes line with
    | true =>
      cases depth with
      | zero => simp [hd, Except.bind, found?]
      | succ depth =>
        have hne : ¬ pass.depth = 0 := by omega
        have hpred : pass.depth - 1 = (depth : Int) := by omega
        simp only [if_true, if_neg hne, Except.bind]
        rw [ih hpred, hshift]
        cases pass.first <;> simp
    | false =>
      simp only [Bool.false_eq_true, if_false]
      cases ho : form.opens line with
      | true =>
        have hsucc : pass.depth + 1 = ((depth + 1 : Nat) : Int) := by omega
        simp only [if_true, Except.bind]
        rw [ih hsucc, hshift, hshift]
      | false =>
        have hsame : (⟨pass.depth, pass.passed + 1, pass.first⟩ : Pass).depth = depth := hd
        simp only [Bool.false_eq_true, if_false, Except.bind]
        rw [ih hsame, hshift, hshift]

theorem found?_run_start : found? (run form {} ls) = closingLine? form ls := by
  have hd : ({} : Pass).depth = (0 : Nat) := rfl
  rw [found?_run hd]
  simp [closingLine?]

end Pass

/-! ### Other lines -/

def other : TagForm → TagForm
  | raw => commented
  | commented => raw

theorem isTag_of_other (h : form.other.isTag line = true) : form.isTag line = false := by
  cases ht : form.isTag line with
  | false => rfl
  | true =>
    obtain ⟨rest, rfl⟩ := prefix_of_isTag ht
    have hp := prefix_of_isTag h
    cases form <;> simp [openMark, other] at hp

/-- The form has the same tags in both lists of lines. -/
def SameTags (form : TagForm) : List Text → List Text → Prop :=
  List.Forall₂ fun a b => a = b ∨ form.isTag a = false ∧ form.isTag b = false

theorem closingLine?_of_sameTags {ls' : List Text} (h : form.SameTags ls ls') :
    closingLine? form ls = closingLine? form ls' := by
  have hbalanced : ∀ depth, balancedClose? form depth ls = balancedClose? form depth ls' := by
    induction h with
    | nil => exact fun _ => rfl
    | cons hline _ ih =>
      intro depth
      rcases hline with rfl | ⟨ha, hb⟩
      · simp only [balancedClose?, ih]
      · obtain ⟨hoa, hca⟩ := Bool.or_eq_false_iff.mp ha
        obtain ⟨hob, hcb⟩ := Bool.or_eq_false_iff.mp hb
        simp only [balancedClose?, hoa, hca, hob, hcb, ih]
  have hfirst : ls.findIdx? form.closes = ls'.findIdx? form.closes := by
    clear hbalanced
    induction h with
    | nil => rfl
    | cons hline _ ih =>
      rcases hline with rfl | ⟨ha, hb⟩
      · simp only [List.findIdx?_cons, ih]
      · have hca := (Bool.or_eq_false_iff.mp ha).2
        have hcb := (Bool.or_eq_false_iff.mp hb).2
        simp only [List.findIdx?_cons, hca, hcb, ih]
  rw [closingLine?, closingLine?, hbalanced, hfirst]

/-! ### Envelopes -/

/-- The line at which the envelope ends that the line `opener` opens. -/
def endOf? (form : TagForm) (ls : List Text) (opener : Nat) : Option Nat :=
  (closingLine? form (ls.drop (opener + 1))).map (opener + 1 + ·)

def ClosesAt (form : TagForm) (ls : List Text) (opener n : Nat) : Prop :=
  opener < n ∧ ∃ closing, ls[n]? = some closing ∧ form.closes closing = true

/-- A later line closes the form, and the lines strictly between match. -/
def MatchesAt (form : TagForm) (ls : List Text) (opener n : Nat) : Prop :=
  form.ClosesAt ls opener n ∧ form.Matched ((ls.take n).drop (opener + 1))

variable {opener n : Nat}

theorem closesAt_iff :
    form.ClosesAt ls opener n ↔ ∃ count, n = opener + 1 + count ∧
      ∃ closing, (ls.drop (opener + 1))[count]? = some closing ∧ form.closes closing = true := by
  constructor
  · intro ⟨hlt, closing, hn, hc⟩
    refine ⟨n - (opener + 1), by omega, closing, ?_, hc⟩
    rw [List.getElem?_drop, ← hn]
    congr 1
    omega
  · intro ⟨count, hn, closing, hcount, hc⟩
    rw [List.getElem?_drop, ← hn] at hcount
    exact ⟨by omega, closing, hcount, hc⟩

theorem matchesAt_iff :
    form.MatchesAt ls opener n ↔
      ∃ count, n = opener + 1 + count ∧ form.MatchedBy (ls.drop (opener + 1)) count := by
  have hbetween : ∀ count, (ls.take (opener + 1 + count)).drop (opener + 1) =
      (ls.drop (opener + 1)).take count := by
    intro count
    rw [List.drop_take]
    congr 1
    omega
  unfold MatchesAt
  rw [closesAt_iff]
  constructor
  · intro ⟨⟨count, hn, hc⟩, hm⟩
    subst hn
    rw [hbetween] at hm
    exact ⟨count, rfl, hc, hm⟩
  · intro ⟨count, hn, hc, hm⟩
    subst hn
    rw [hbetween]
    exact ⟨⟨count, rfl, hc⟩, hm⟩

theorem isLeast_matchesAt_iff :
    IsLeast {n | form.MatchesAt ls opener n} n ↔ form.MatchesAt ls opener n := by
  refine ⟨fun h => h.1, fun h => ⟨h, fun m hm => ?_⟩⟩
  obtain ⟨count, hn, hcount⟩ := matchesAt_iff.mp h
  obtain ⟨count', hm, hcount'⟩ := matchesAt_iff.mp hm
  -- only one line matches
  have hsame := (balancedClose?_eq_some_iff.mpr hcount).symm.trans
    (balancedClose?_eq_some_iff.mpr hcount')
  have hcounts := Option.some.inj hsame
  omega

theorem isLeast_closesAt_iff :
    IsLeast {n | form.ClosesAt ls opener n} n ↔
      ∃ count, n = opener + 1 + count ∧
        (ls.drop (opener + 1)).findIdx? form.closes = some count := by
  simp only [List.findIdx?_eq_some_iff_getElem]
  constructor
  · intro ⟨hn, hleast⟩
    obtain ⟨count, hcount, closing, hget, hc⟩ := closesAt_iff.mp hn
    obtain ⟨hlt, heq⟩ := List.getElem?_eq_some_iff.mp hget
    refine ⟨count, hcount, hlt, by rw [heq]; exact hc, fun j hj hcj => ?_⟩
    have hle := hleast (closesAt_iff.mpr ⟨j, rfl, _, List.getElem?_eq_getElem _, hcj⟩)
    omega
  · intro ⟨count, hcount, hlt, hc, hfirst⟩
    refine ⟨closesAt_iff.mpr ⟨count, hcount, _, List.getElem?_eq_getElem hlt, hc⟩,
      fun m hm => ?_⟩
    obtain ⟨j, hj, closing, hget, hcj⟩ := closesAt_iff.mp hm
    obtain ⟨hjlt, heq⟩ := List.getElem?_eq_some_iff.mp hget
    by_contra hlt'
    exact hfirst j (by omega) (by rw [heq]; exact hcj)

theorem endOf?_eq_some_iff :
    form.endOf? ls opener = some n ↔
      IsLeast {n | form.MatchesAt ls opener n} n ∨
        (∀ m, ¬ form.MatchesAt ls opener m) ∧ IsLeast {n | form.ClosesAt ls opener n} n := by
  have hnone : (∀ m, ¬ form.MatchesAt ls opener m) ↔
      ∀ count, ¬ form.MatchedBy (ls.drop (opener + 1)) count := by
    constructor
    · intro h count hcount
      exact h _ (matchesAt_iff.mpr ⟨count, rfl, hcount⟩)
    · intro h m hm
      obtain ⟨count, -, hcount⟩ := matchesAt_iff.mp hm
      exact h count hcount
  rw [isLeast_matchesAt_iff, isLeast_closesAt_iff, matchesAt_iff, hnone, endOf?,
    Option.map_eq_some_iff]
  constructor
  · intro ⟨count, hcount, hn⟩
    rcases closingLine?_eq_some_iff.mp hcount with hm | ⟨hm, hfirst⟩
    · exact .inl ⟨count, hn.symm, hm⟩
    · exact .inr ⟨hm, count, hn.symm, hfirst⟩
  · intro h
    rcases h with ⟨count, hn, hm⟩ | ⟨hm, count, hn, hfirst⟩
    · exact ⟨count, closingLine?_eq_some_iff.mpr (.inl hm), hn.symm⟩
    · exact ⟨count, closingLine?_eq_some_iff.mpr (.inr ⟨hm, hfirst⟩), hn.symm⟩

theorem endOf?_eq_none_iff :
    form.endOf? ls opener = none ↔ ∀ n, ¬ form.ClosesAt ls opener n := by
  rw [endOf?, Option.map_eq_none_iff, closingLine?_eq_none_iff]
  constructor
  · intro h n hn
    obtain ⟨count, -, closing, hget, hc⟩ := closesAt_iff.mp hn
    exact h closing (List.mem_of_getElem? hget) (closes_iff.mp hc)
  · intro h line hl hc
    obtain ⟨count, hget⟩ := List.mem_iff_getElem?.mp hl
    exact h _ (closesAt_iff.mpr ⟨count, rfl, line, hget, closes_iff.mpr hc⟩)

/-- An envelope ends at the least later line that matches its opening tag, or else at the first that
closes its form; one pass finds it, whose counter never falls below zero, and the other lines do not
matter. -/
theorem endOf?_matches (form : TagForm) (ls : List Text) (opener : Nat) :
    (∀ n, form.endOf? ls opener = some n ↔
        IsLeast {n | form.MatchesAt ls opener n} n ∨
          (∀ m, ¬ form.MatchesAt ls opener m) ∧ IsLeast {n | form.ClosesAt ls opener n} n) ∧
      (form.endOf? ls opener = none ↔ ∀ n, ¬ form.ClosesAt ls opener n) ∧
      form.endOf? ls opener =
        (Pass.found? (Pass.run form {} (ls.drop (opener + 1)))).map (opener + 1 + ·) ∧
      (∀ count pass, Pass.run form {} ((ls.drop (opener + 1)).take count) = .ok pass →
        pass.depth = form.height ((ls.drop (opener + 1)).take count) ∧ 0 ≤ pass.depth) ∧
      (∀ line, form.other.isTag line = true → form.isTag line = false) ∧
      ∀ ls', form.SameTags (ls.drop (opener + 1)) (ls'.drop (opener + 1)) →
        form.endOf? ls opener = form.endOf? ls' opener := by
  refine ⟨fun n => endOf?_eq_some_iff, endOf?_eq_none_iff, ?_, fun count pass h => ?_,
    fun line h => isTag_of_other h, fun ls' h => ?_⟩
  · rw [endOf?, Pass.found?_run_start]
  · obtain ⟨hdepth, hkeeps⟩ := Pass.depth_run h
    exact ⟨hdepth.trans (Int.zero_add _), hkeeps (Int.le_refl 0)⟩
  · rw [endOf?, endOf?, closingLine?_of_sameTags h]

/-- Two nested envelopes, with a tag of the other form in the inner one. -/
def nestedLines : List Text :=
  ["<? a ?>", "<? b ?>", "<!--?!-->", "<?!>", "<?!>"].map String.toList

theorem endOf?_nestedLines :
    IsLeast {n | TagForm.raw.MatchesAt nestedLines 0 n} 4 ∧
      (∃ pass, Pass.run .raw {} ((nestedLines.drop 1).take 2) = .ok pass ∧ 0 ≤ pass.depth) ∧
      TagForm.raw.endOf? nestedLines 0 =
        TagForm.raw.endOf? (nestedLines.set 2 "text".toList) 0 := by
  have h := endOf?_matches .raw nestedLines 0
  have hend : TagForm.raw.endOf? nestedLines 0 = some 4 := by decide +kernel
  have hinner : ¬ IsLeast {n | TagForm.raw.ClosesAt nestedLines 0 n} 4 := by
    intro hleast
    have hthree : TagForm.raw.ClosesAt nestedLines 0 3 :=
      ⟨by decide, "<?!>".toList, rfl, by decide⟩
    have hle := hleast.2 hthree
    omega
  have hpass : Pass.run .raw {} ((nestedLines.drop 1).take 2) = .ok ⟨1, 2, none⟩ := by rfl
  refine ⟨((h.1 4).mp hend).resolve_right fun hr => hinner hr.2, ⟨_, hpass, ?_⟩, ?_⟩
  · exact (h.2.2.2.1 2 _ hpass).2
  · refine h.2.2.2.2.2 _ ?_
    have hother : ∀ line : Text, line = line ∨ TagForm.raw.isTag line = false ∧
        TagForm.raw.isTag line = false := fun line => .inl rfl
    exact .cons (hother _) (.cons (.inr (by decide)) (.cons (hother _) (.cons (hother _) .nil)))

end TagForm

end MarkdownDirectives
