import MarkdownDirectives.Proofs.Backups

/-!
# Stranded folders

After what a path leads to was moved aside, every path leads to where its locations were moved,
until it enters the old place again by name. So the path can be written after the move unless it
goes on from the folder that it names: then the folder is stranded under its backup name.
-/

namespace MarkdownDirectives

/-! ### Walking after a move -/

namespace Disk

theorem mem_passed_iff {start location : Location} {steps : List Text} :
    location ∈ passed start steps ↔
      ∃ front step rest, steps = front ++ step :: rest ∧ location = follow start front := by
  induction steps generalizing start with
  | nil =>
    refine ⟨fun h => (nomatch h), fun ⟨front, step, rest, h, _⟩ => ?_⟩
    simp at h
  | cons step more ih =>
    rw [passed, List.mem_cons, ih]
    constructor
    · rintro (rfl | ⟨front, next, rest, rfl, rfl⟩)
      · exact ⟨[], step, more, rfl, rfl⟩
      · exact ⟨step :: front, next, rest, rfl, rfl⟩
    · rintro ⟨front, next, rest, h, rfl⟩
      cases front with
      | nil => exact .inl rfl
      | cons first front =>
        obtain ⟨rfl, rfl⟩ := List.cons.inj h
        exact .inr ⟨front, next, rest, rfl, rfl⟩

theorem entry?_moveLocation {disk : Disk} {old new location : Location}
    (hfree : ∀ below, new <+: below → disk.entry? below = none) (hapart : ¬ old <+: new)
    (h : disk.entry? location ≠ none) :
    Disk.entry? (disk.move old new) (moveLocation old new location) = disk.entry? location := by
  rw [entry?_move hfree hapart]
  by_cases hin : old <+: location
  · rw [moveLocation_of_isPrefix hin, if_pos (List.prefix_append ..), List.drop_left]
    obtain ⟨rest, rfl⟩ := hin
    rw [List.drop_left]
  · have hout : ¬ new <+: location := fun hn => h (hfree _ hn)
    rw [moveLocation_of_not_isPrefix hin, if_neg hout, if_neg hin]

section

variable {above location start : Location} {last name step : Text} {steps : List Text}

theorem not_concat_isPrefix (above : Location) (last : Text) : ¬ above ++ [last] <+: above := by
  intro h
  have hlength := h.length_le
  rw [List.length_append, List.length_singleton] at hlength
  omega

/-- The ends of the moves in question lie beside each other. -/
theorem dropLast_moveLocation :
    (moveLocation (above ++ [last]) (above ++ [name]) location).dropLast =
      moveLocation (above ++ [last]) (above ++ [name]) location.dropLast := by
  by_cases hin : above ++ [last] <+: location
  · rw [moveLocation_of_isPrefix hin]
    obtain ⟨rest, rfl⟩ := hin
    rw [List.drop_left]
    by_cases hr : rest = []
    · rw [hr, List.append_nil, List.append_nil, List.dropLast_concat, List.dropLast_concat,
        moveLocation_of_not_isPrefix (not_concat_isPrefix above last)]
    · rw [List.dropLast_append_of_ne_nil hr, List.dropLast_append_of_ne_nil hr,
        moveLocation_of_isPrefix (List.prefix_append ..), List.drop_left]
  · have hout : ¬ above ++ [last] <+: location.dropLast :=
      fun h => hin (h.trans (List.dropLast_prefix _))
    rw [moveLocation_of_not_isPrefix hin, moveLocation_of_not_isPrefix hout]

theorem advance_moveLocation (h : IsName step → location ++ [step] ≠ above ++ [last]) :
    advance (moveLocation (above ++ [last]) (above ++ [name]) location) step =
      moveLocation (above ++ [last]) (above ++ [name]) (advance location step) := by
  by_cases hname : IsName step
  · rw [advance_name hname, advance_name hname]
    by_cases hin : above ++ [last] <+: location
    · have hin' : above ++ [last] <+: location ++ [step] := hin.trans (List.prefix_append ..)
      rw [moveLocation_of_isPrefix hin, moveLocation_of_isPrefix hin',
        List.drop_append_of_le_length hin.length_le, List.append_assoc]
    · have hout : ¬ above ++ [last] <+: location ++ [step] := by
        intro hp
        rcases List.prefix_concat_iff.mp hp with hl | hl
        · exact h hname hl.symm
        · exact hin hl
      rw [moveLocation_of_not_isPrefix hin, moveLocation_of_not_isPrefix hout]
  · by_cases hd : step = ['.']
    · simp only [advance, hd, if_true]
    · have hp : step = ['.', '.'] := by
        by_contra hp
        exact hname ⟨hd, hp⟩
      simp only [advance, hp, if_true]
      exact dropLast_moveLocation

/-- The step back by name leads to the old place, at which nothing stands any more. -/
theorem advance_moveLocation_of_eq (hname : IsName step)
    (h : location ++ [step] = above ++ [last]) :
    advance (moveLocation (above ++ [last]) (above ++ [name]) location) step =
      above ++ [last] := by
  obtain ⟨rfl, hstep⟩ := List.append_inj' h rfl
  rw [moveLocation_of_not_isPrefix (not_concat_isPrefix location last), advance_name hname, h]

theorem follow_moveLocation
    (h : ∀ front step rest, steps = front ++ step :: rest → IsName step →
      follow start (front ++ [step]) ≠ above ++ [last]) :
    follow (moveLocation (above ++ [last]) (above ++ [name]) start) steps =
      moveLocation (above ++ [last]) (above ++ [name]) (follow start steps) := by
  induction steps using List.reverseRecOn with
  | nil => rfl
  | append_singleton front step ih =>
    have hfront := ih fun begin next rest hs => h begin next (rest ++ [step]) (by rw [hs]; simp)
    rw [follow_append, hfront, follow_append]
    apply advance_moveLocation
    intro hname he
    apply h front step [] rfl hname
    rw [follow_append]
    exact (advance_name hname _).trans he

end

end Disk

/-! ### Writing after a move -/

/-- The path leads through its own target: on the way it enters it by name and goes on. -/
def Path.Reenters (folder : Location) (p : Path) : Prop :=
  ∃ front name rest, Disk.steps p = front ++ name :: rest ∧ rest ≠ [] ∧ Disk.IsName name ∧
    Disk.follow (p.start folder) (front ++ [name]) = p.location folder

/-- Only a path to a folder can lead through its own target. -/
theorem Path.Reenters.mem_route {folder : Location} {p : Path} (h : p.Reenters folder) :
    p.location folder ∈ p.route folder := by
  obtain ⟨front, name, rest, hs, hr, -, hl⟩ := h
  obtain ⟨step, rest, rfl⟩ := List.exists_cons_of_ne_nil hr
  exact Disk.mem_passed_iff.mpr ⟨front ++ [name], step, rest, by rw [hs]; simp, hl.symm⟩

namespace World

variable {world : World} {p : Path} {n : Nat}

/-- A backup is made beside what the path leads to, which is named by the last step. -/
theorem exists_ends (hm : world.disk.Moves world.folder p (backupName p n)) :
    ∃ front last, Disk.steps p = front ++ [last] ∧ Disk.IsName last ∧
      Disk.endsWithSlash p = false ∧
      world.place p = Disk.follow (p.start world.folder) front ++ [last] ∧
      world.place (backupName p n) =
        Disk.follow (p.start world.folder) front ++ [backupName last n] := by
  obtain ⟨entry, hf⟩ := hm.finds
  obtain ⟨front, last, hnumbered, hown⟩ := exists_backupName_steps p
  have hsteps := hown hf.reaches.nonempty
  have hbackup : (backupName p n).location world.folder =
      Disk.follow (p.start world.folder) front ++ [backupName last n] :=
    location_backupName (hnumbered n)
  by_cases hs : Disk.endsWithSlash p = true
  · -- the new name would lie below what is moved
    rw [if_pos hs] at hsteps
    refine absurd ?_ hm.apart
    rw [hbackup, Path.location, hsteps]
    exact List.prefix_append ..
  · rw [if_neg hs] at hsteps
    have hname : Disk.IsName last := by
      have hnamed := hm.named.1
      rw [Disk.endsInName, hsteps, List.getLast?_concat] at hnamed
      simpa [Disk.IsName] using hnamed
    refine ⟨front, last, hsteps, hname, Bool.eq_false_iff.mpr hs, ?_, hbackup⟩
    rw [place, Path.location, hsteps, Disk.follow_append]
    exact Disk.advance_name hname _

/-- What the path leads to was moved to its numbered name. -/
def setAside (world : World) (p : Path) (n : Nat) : World :=
  world.moved (world.place p) (world.place (backupName p n))

theorem entry?_setAside (hs : world.Sound)
    (hm : world.disk.Moves world.folder p (backupName p n)) :
    (world.setAside p n).disk.entry? (world.place p) = none ∧
      ∀ location, world.disk.entry? location ≠ none →
        (world.setAside p n).disk.entry?
            (Disk.moveLocation (world.place p) (world.place (backupName p n)) location) =
          world.disk.entry? location := by
  obtain ⟨front, last, -, -, -, hold, hnew⟩ := exists_ends hm
  have hfree : ∀ below, world.place (backupName p n) <+: below → world.disk.entry? below = none :=
    fun below hb => hs.tree.free_below hm.vacant hb
  have hapart : ¬ world.place p <+: world.place (backupName p n) := hm.apart
  refine ⟨?_, fun location hl => Disk.entry?_moveLocation hfree hapart hl⟩
  have hother : ¬ world.place (backupName p n) <+: world.place p := by
    intro hp
    have hsame := hp.eq_of_length (by rw [hold, hnew, List.length_append, List.length_append]; rfl)
    exact hapart (hsame ▸ List.prefix_rfl)
  exact (Disk.entry?_move hfree hapart _).trans (by rw [if_neg hother, if_pos List.prefix_rfl])

theorem start_setAside (hm : world.disk.Moves world.folder p (backupName p n)) :
    p.start (world.setAside p n).folder =
      Disk.moveLocation (world.place p) (world.place (backupName p n)) (p.start world.folder) := by
  unfold Path.start
  split
  · rw [Disk.moveLocation_of_not_isPrefix fun h => ?_]
    obtain ⟨front, last, -, -, -, hold, -⟩ := exists_ends hm
    rw [hold, List.prefix_nil] at h
    simp at h
  · rfl

/-- By induction on the steps before the target is entered, for only the first such step is sure to
be met. -/
theorem Takes.not_reenters (hs : world.Sound)
    (hm : world.disk.Moves world.folder p (backupName p n)) (ht : (world.setAside p n).Takes p) :
    ¬ p.Reenters world.folder := by
  obtain ⟨front, last, -, -, -, hold, hnew⟩ := exists_ends hm
  rintro ⟨begin, name, rest, hb, hr, hname, he⟩
  induction hlength : begin.length using Nat.strong_induction_on generalizing begin name rest with
  | _ k ih =>
    have hbegin : Disk.follow (p.start (world.setAside p n).folder) begin =
        Disk.moveLocation (world.place p) (world.place (backupName p n))
          (Disk.follow (p.start world.folder) begin) := by
      rw [start_setAside hm, hold, hnew]
      apply Disk.follow_moveLocation
      intro before step more hbefore hstep hback
      have hshort : before.length < k := by
        rw [← hlength, hbefore, List.length_append, List.length_cons]
        omega
      exact ih _ hshort before step (more ++ name :: rest) (by rw [hb, hbefore]; simp) (by simp)
        hstep (hback.trans hold.symm) rfl
    -- the step back passes a location without an entry
    obtain ⟨next, rest, rfl⟩ := List.exists_cons_of_ne_nil hr
    have hroute : world.place p ∈ p.route (world.setAside p n).folder := by
      refine Disk.mem_passed_iff.mpr ⟨begin ++ [name], next, rest, by rw [hb]; simp, ?_⟩
      have hback : Disk.follow (p.start world.folder) begin ++ [name] =
          Disk.follow (p.start world.folder) front ++ [last] := by
        rw [← Disk.advance_name hname, ← hold]
        rw [Disk.follow_append] at he
        exact he
      rw [Disk.follow_append, hbegin, hold, hnew]
      exact (Disk.advance_moveLocation_of_eq hname hback).symm
    have hfolder := ht.reaches.folders _ hroute
    rw [(entry?_setAside hs hm).1] at hfolder
    cases hfolder

theorem follow_setAside (hm : world.disk.Moves world.folder p (backupName p n))
    (hr : ¬ p.Reenters world.folder) {begin rest : List Text} {step : Text}
    (hb : Disk.steps p = begin ++ step :: rest) :
    Disk.follow (p.start (world.setAside p n).folder) begin =
      Disk.moveLocation (world.place p) (world.place (backupName p n))
        (Disk.follow (p.start world.folder) begin) := by
  obtain ⟨front, last, -, -, -, hold, hnew⟩ := exists_ends hm
  rw [start_setAside hm, hold, hnew]
  apply Disk.follow_moveLocation
  intro before name more hs hn he
  rw [← hold] at he
  exact hr ⟨before, name, more ++ step :: rest, by rw [hb, hs]; simp, by simp, hn, he⟩

/-- The path leads again to the place that was left. -/
theorem place_setAside (hm : world.disk.Moves world.folder p (backupName p n))
    (hr : ¬ p.Reenters world.folder) : (world.setAside p n).place p = world.place p := by
  obtain ⟨front, last, hsteps, hname, -, hold, -⟩ := exists_ends hm
  have habove : ¬ world.place p <+: Disk.follow (p.start world.folder) front := by
    rw [hold]
    exact Disk.not_concat_isPrefix _ last
  rw [place, Path.location, hsteps, Disk.follow_append, follow_setAside hm hr hsteps,
    Disk.moveLocation_of_not_isPrefix habove, hold]
  exact Disk.advance_name hname _

/-- After what the path leads to was moved aside, the path takes a file unless it leads through its
own target. -/
theorem takes_setAside (hs : world.Sound)
    (hm : world.disk.Moves world.folder p (backupName p n)) (hr : ¬ p.Reenters world.folder) :
    (world.setAside p n).Takes p := by
  obtain ⟨front, last, -, -, hslash, -, -⟩ := exists_ends hm
  obtain ⟨hgone, hkept⟩ := entry?_setAside hs hm
  obtain ⟨entry, hf⟩ := hm.finds
  refine ⟨⟨hf.reaches.nonempty, hf.reaches.clean, fun location hl => ?_⟩, ?_, hslash⟩
  · obtain ⟨begin, step, rest, hb, rfl⟩ := Disk.mem_passed_iff.mp hl
    have hfolder := hf.reaches.folders _ (Disk.mem_passed_iff.mpr ⟨begin, step, rest, hb, rfl⟩)
    rw [follow_setAside hm hr hb, hkept _ (by rw [hfolder]; simp)]
    exact hfolder
  · rw [← place, place_setAside hm hr, hgone]
    simp

/-- A folder that a path leads to and goes through was moved aside, so that nothing can be written
to the path. -/
structure Strands (world : World) (p : Path) (after : World) : Prop where
  finds : world.disk.Finds world.folder p .folder
  reenters : p.Reenters world.folder
  moved : world.rename p (backupPath world p) = .ok after

theorem setAside_of_rename {after : World} (h : world.rename p (backupPath world p) = .ok after) :
    ∃ n, world.disk.Moves world.folder p (backupName p n) ∧ after = world.setAside p n := by
  obtain ⟨n, hpath, -⟩ := world.exists_leastFree p
  rw [hpath] at h
  obtain ⟨hm, ha⟩ := rename_eq_ok_iff.mp h
  exact ⟨n, hm, ha⟩

variable {t : Text} {backup : Bool} {e : Error} {after : World}

theorem writeOutput_error (hs : world.Sound)
    (h : writeOutput p t backup world = (.error e, after)) :
    after = world ∨ backup = true ∧ world.Strands p after := by
  rcases writeOutput_cases h with
    ⟨-, ha, -⟩ | ⟨moved, middle, hm, ⟨-, ha, ht⟩ | ⟨hok, -, -⟩⟩
  · exact .inl ha
  · subst ha
    rcases moveAside_eq_ok hm with ⟨-, ha⟩ | ⟨hb, -, hr⟩
    · exact .inl ha
    · right
      obtain ⟨n, hmoves, rfl⟩ := setAside_of_rename hr
      have hreenters : p.Reenters world.folder := by
        by_contra hnot
        exact ht (takes_setAside hs hmoves hnot)
      obtain ⟨entry, hf⟩ := hmoves.finds
      have hfolder := hf.reaches.folders _ hreenters.mem_route
      exact ⟨hb, ⟨hf.reaches, hfolder, fun _ => rfl⟩, hreenters, hr⟩
  · cases hok

/-- With backups a file is only written where nothing stands. -/
theorem writeOutput_backup (hs : world.Sound) {moved : Option Path}
    (h : writeOutput p t true world = (.ok moved, after)) :
    ∃ middle, moveAside world p true = .ok (moved, middle) ∧
      middle.disk.entry? (middle.place p) = none ∧
      after = { middle with disk := middle.disk.put (middle.place p) (.file (.text t)) } := by
  rcases writeOutput_cases h with
    ⟨⟨e, he⟩, -, -⟩ | ⟨aside, middle, hm, ⟨⟨e, he⟩, -, -⟩ | ⟨hok, ht, ha⟩⟩
  · cases he
  · cases he
  · cases hok
    refine ⟨middle, hm, ?_, ha⟩
    rcases moveAside_eq_ok hm with ⟨rfl, rfl⟩ | ⟨-, -, hr⟩
    · rcases ht.entry_or with ⟨-, -, hnone⟩ | ⟨content, hx, -, -⟩
      · exact hnone
      · -- an existing file would have been moved
        simp only [moveAside, hx, Bool.and_self, if_true] at hm
        cases hr : middle.rename p (backupPath middle p) <;> rw [hr] at hm <;> cases hm
    · obtain ⟨n, hmoves, rfl⟩ := setAside_of_rename hr
      rw [place_setAside hmoves (ht.not_reenters hs hmoves)]
      exact (entry?_setAside hs hmoves).1

theorem Strands.writeOutput_error (hs : world.Sound) (h : world.Strands p after) (t : Text) :
    ∃ e, writeOutput p t true world = (.error e, after) := by
  have hx : world.exists? p = true := Disk.exists?_eq_true_iff.mpr ⟨_, h.finds⟩
  have hm : moveAside world p true = .ok (some (backupPath world p), after) := by
    simp [moveAside, hx, h.moved, Except.map]
  have ht : ¬ after.Takes p := by
    obtain ⟨n, hmoves, rfl⟩ := setAside_of_rename h.moved
    exact fun ht => ht.not_reenters hs hmoves h.reenters
  exact writeOutput_of_not_takes hm ht t

theorem Sound.writeOutput (hs : world.Sound) {r : Except Error (Option Path)}
    (h : writeOutput p t backup world = (r, after)) : after.Sound := by
  have hmoved : ∀ {moved middle}, moveAside world p backup = .ok (moved, middle) →
      middle.Sound := by
    intro moved middle hm
    rcases moveAside_eq_ok hm with ⟨-, rfl⟩ | ⟨-, -, hr⟩
    · exact hs
    · obtain ⟨n, hmoves, rfl⟩ := setAside_of_rename hr
      exact hs.moved hmoves
  rcases writeOutput_cases h with
    ⟨-, rfl, -⟩ | ⟨moved, middle, hm, ⟨-, rfl, -⟩ | ⟨-, ht, rfl⟩⟩
  · exact hs
  · exact hmoved hm
  · exact (hmoved hm).put ht t

end World

end MarkdownDirectives
