/-!
# Schedules

Places wait for other places. A schedule takes, again and again, the first place all of whose
dependencies have been taken. It is found by a worklist: each place counts what it still waits
for, a place that is taken is counted off at its dependents, and of the places that wait for
nothing the first is taken.

## Main results

* `scheduleFrom_of_ready` -- each scheduled place was ready when it was taken.
* `nodup_schedule` -- no place is taken twice.
* `Worklist.Tracks.run` -- the counts of the worklist stay right.
* `Worklist.run_eq` -- the worklist takes the scheduled places, and the others wait in the end.
-/

namespace TensorGraph

/-- Whether a place is yet to be taken and everything it depends on has been taken. -/
def isReady (dependencies : List (List Nat)) (done : List Nat) (place : Nat) : Bool :=
  !done.contains place && (dependencies.getD place []).all fun j => done.contains j

/-- The first place that can be taken. -/
def nextReady? (dependencies : List (List Nat)) (done : List Nat) : Option Nat :=
  (List.range dependencies.length).find? (isReady dependencies done)

/-- Takes ready places, at most `fuel` of them, after those in `done`. -/
def scheduleFrom (dependencies : List (List Nat)) : Nat → List Nat → List Nat
  | 0, _ => []
  | fuel + 1, done =>
      match nextReady? dependencies done with
      | none => []
      | some place => place :: scheduleFrom dependencies fuel (place :: done)

/-- The places in dependency order, as far as they can be taken. -/
def schedule (dependencies : List (List Nat)) : List Nat :=
  scheduleFrom dependencies dependencies.length []

theorem nextReady?_isReady {dependencies : List (List Nat)} {done : List Nat} {place : Nat}
    (h : nextReady? dependencies done = some place) :
    isReady dependencies done place = true ∧ place < dependencies.length := by
  refine ⟨List.find?_some h, ?_⟩
  have := List.mem_of_find?_eq_some h
  simpa using this

/-- Every scheduled place was ready after those taken before it. -/
theorem scheduleFrom_of_ready (dependencies : List (List Nat)) (fuel : Nat) (done : List Nat)
    {before after : List Nat} {place : Nat}
    (h : scheduleFrom dependencies fuel done = before ++ place :: after) :
    isReady dependencies (before.reverse ++ done) place = true := by
  induction fuel generalizing done before with
  | zero => simp [scheduleFrom] at h
  | succ fuel ih =>
      unfold scheduleFrom at h
      cases hnext : nextReady? dependencies done with
      | none => simp [hnext] at h
      | some first =>
          rw [hnext] at h
          cases before with
          | nil =>
              obtain ⟨rfl, _⟩ := List.cons.inj h
              exact (nextReady?_isReady hnext).1
          | cons b before =>
              obtain ⟨rfl, htail⟩ := List.cons.inj h
              simpa [List.append_assoc] using ih (first :: done) htail

private theorem scheduleFrom_not_done (dependencies : List (List Nat)) (fuel : Nat)
    (done : List Nat) : ∀ place ∈ scheduleFrom dependencies fuel done, place ∉ done := by
  intro place hmem
  obtain ⟨before, after, h⟩ := List.append_of_mem hmem
  have := scheduleFrom_of_ready dependencies fuel done h
  simp only [isReady, Bool.and_eq_true, Bool.not_eq_true', List.contains_eq_mem,
    decide_eq_false_iff_not, List.mem_append, not_or] at this
  exact this.1.2

theorem nodup_scheduleFrom (dependencies : List (List Nat)) (fuel : Nat) (done : List Nat) :
    (scheduleFrom dependencies fuel done).Nodup := by
  induction fuel generalizing done with
  | zero => simp [scheduleFrom]
  | succ fuel ih =>
      unfold scheduleFrom
      cases nextReady? dependencies done with
      | none => simp
      | some first =>
          refine List.nodup_cons.2 ⟨fun hmem => ?_, ih _⟩
          exact scheduleFrom_not_done dependencies fuel (first :: done) first hmem (by simp)

theorem nodup_schedule (dependencies : List (List Nat)) : (schedule dependencies).Nodup :=
  nodup_scheduleFrom _ _ _

theorem length_scheduleFrom_le (dependencies : List (List Nat)) (fuel : Nat) (done : List Nat) :
    (scheduleFrom dependencies fuel done).length ≤ fuel := by
  induction fuel generalizing done with
  | zero => simp [scheduleFrom]
  | succ fuel ih =>
      unfold scheduleFrom
      cases nextReady? dependencies done with
      | none => simp
      | some place => simpa using ih (place :: done)

/-- A schedule that is cut short was not cut by the fuel. -/
theorem nextReady?_scheduleFrom {dependencies : List (List Nat)} {fuel : Nat} {done : List Nat}
    (h : (scheduleFrom dependencies fuel done).length < fuel) :
    nextReady? dependencies ((scheduleFrom dependencies fuel done).reverse ++ done) = none := by
  induction fuel generalizing done with
  | zero => simp at h
  | succ fuel ih =>
      unfold scheduleFrom at h ⊢
      cases hnext : nextReady? dependencies done with
      | none => simpa using hnext
      | some place =>
          rw [hnext, List.length_cons] at h
          simpa using ih (Nat.lt_of_succ_lt_succ h)

/-! ## Sorting by position -/

/-- Puts a place among places that are sorted. -/
def insertPlace (place : Nat) : List Nat → List Nat
  | [] => [place]
  | first :: rest =>
      if place ≤ first then place :: first :: rest else first :: insertPlace place rest

/-- The places by their position. -/
def byPosition (places : List Nat) : List Nat := places.foldr insertPlace []

theorem insertPlace_perm (place : Nat) (places : List Nat) :
    (insertPlace place places).Perm (place :: places) := by
  induction places with
  | nil => exact .refl _
  | cons first rest ih =>
      unfold insertPlace
      split
      · exact .refl _
      · exact (ih.cons first).trans (.swap place first rest)

theorem byPosition_perm (places : List Nat) : (byPosition places).Perm places := by
  induction places with
  | nil => exact .refl _
  | cons first rest ih => exact (insertPlace_perm first _).trans (ih.cons first)

theorem pairwise_insertPlace {place : Nat} {places : List Nat}
    (h : places.Pairwise (· ≤ ·)) : (insertPlace place places).Pairwise (· ≤ ·) := by
  induction places with
  | nil => simp [insertPlace]
  | cons first rest ih =>
      obtain ⟨hfirst, hrest⟩ := List.pairwise_cons.1 h
      unfold insertPlace
      split
      · rename_i hle
        refine List.pairwise_cons.2 ⟨fun other hother => ?_, h⟩
        rcases List.mem_cons.1 hother with rfl | hother
        · exact hle
        · exact Nat.le_trans hle (hfirst other hother)
      · rename_i hgt
        refine List.pairwise_cons.2 ⟨fun other hother => ?_, ih hrest⟩
        rcases List.mem_cons.1 ((insertPlace_perm place rest).mem_iff.1 hother) with rfl | hother
        · exact Nat.le_of_not_le hgt
        · exact hfirst other hother

theorem pairwise_byPosition (places : List Nat) : (byPosition places).Pairwise (· ≤ ·) := by
  induction places with
  | nil => exact .nil
  | cons first rest ih => exact pairwise_insertPlace ih

/-! ## The worklist -/

/-- How many places each place still waits for, and the places that wait for none. -/
structure Worklist where
  pending : List Nat
  ready : List Nat

namespace Worklist

/-- Before any place is taken. -/
def start (dependencies : List (List Nat)) : Worklist where
  pending := dependencies.map List.length
  ready := (List.range dependencies.length).filter fun i => (dependencies.getD i []).length = 0

/-- The places that wait for a place. -/
def dependents (dependencies : List (List Nat)) (place : Nat) : List Nat :=
  (List.range dependencies.length).filter fun i => (dependencies.getD i []).contains place

/-- Counts one off what a place waits for. -/
def release (w : Worklist) (place : Nat) : Worklist :=
  let remaining := w.pending.getD place 0 - 1
  { pending := w.pending.set place remaining
    ready := if remaining = 0 then w.ready ++ [place] else w.ready }

/-- What is left to do after a place is taken; `rest` are the other ready places. -/
def take (dependencies : List (List Nat)) (w : Worklist) (place : Nat) (rest : List Nat) :
    Worklist :=
  (dependents dependencies place).foldl release { w with ready := rest }

/-- Takes the first of the ready places while there is one, at most `fuel` times. No place is
taken twice, so as many times as there are places is enough. -/
def run (dependencies : List (List Nat)) : Nat → Worklist → List Nat × Worklist
  | 0, w => ([], w)
  | fuel + 1, w =>
      match byPosition w.ready with
      | [] => ([], w)
      | place :: rest =>
          let (order, left) := run dependencies fuel (w.take dependencies place rest)
          (place :: order, left)

/-- What a place still waits for when some places are done. -/
def waiting (dependencies : List (List Nat)) (done : List Nat) (place : Nat) : List Nat :=
  (dependencies.getD place []).filter fun j => !done.contains j

/-- The invariant of the loop: the counts are right, and exactly the ready places are listed. -/
structure Tracks (w : Worklist) (dependencies : List (List Nat)) (done : List Nat) : Prop where
  length_pending : w.pending.length = dependencies.length
  pending : ∀ i < dependencies.length, w.pending.getD i 0 = (waiting dependencies done i).length
  mem_ready : ∀ i, i ∈ w.ready ↔ i < dependencies.length ∧ isReady dependencies done i = true
  nodup_ready : w.ready.Nodup
  settled : ∀ i ∈ done, (waiting dependencies done i).length = 0

variable {dependencies : List (List Nat)} {done : List Nat} {w : Worklist}

/-- A place is ready when it is not done and waits for nothing. -/
theorem isReady_iff {place : Nat} : isReady dependencies done place = true ↔
    place ∉ done ∧ (waiting dependencies done place).length = 0 := by
  simp [isReady, waiting, List.filter_eq_nil_iff]

@[simp] theorem waiting_nil (dependencies : List (List Nat)) (place : Nat) :
    waiting dependencies [] place = dependencies.getD place [] :=
  List.filter_eq_self.2 (by simp)

theorem tracks_start (dependencies : List (List Nat)) :
    (start dependencies).Tracks dependencies [] where
  length_pending := by simp [start]
  pending i hi := by simp [start, hi]
  mem_ready i := by simp [start, isReady_iff]
  nodup_ready := List.nodup_range.filter _
  settled := by simp

/-- The first of the ready places is the one that the schedule takes. -/
theorem Tracks.nextReady?_eq (h : w.Tracks dependencies done) :
    nextReady? dependencies done = (byPosition w.ready).head? := by
  have hmem {i : Nat} := (byPosition_perm w.ready).mem_iff (a := i)
  cases hsort : byPosition w.ready with
  | nil =>
      refine List.find?_eq_none.2 fun i hi hready => ?_
      have hlisted := hmem.2 ((h.mem_ready i).2 ⟨List.mem_range.1 hi, hready⟩)
      simp [hsort] at hlisted
  | cons place rest =>
      rw [hsort] at hmem
      have hsorted : (place :: rest).Pairwise (· ≤ ·) := hsort ▸ pairwise_byPosition w.ready
      obtain ⟨hlt, hready⟩ := (h.mem_ready place).1 (hmem.1 List.mem_cons_self)
      refine List.find?_range_eq_some.2 ⟨hready, List.mem_range.2 hlt, fun i hi => ?_⟩
      rw [Bool.not_eq_true', ← Bool.not_eq_true]
      intro hready'
      rcases List.mem_cons.1 (hmem.2 ((h.mem_ready i).2 ⟨Nat.lt_trans hi hlt, hready'⟩)) with
        rfl | hlater
      · exact Nat.lt_irrefl _ hi
      · exact Nat.not_lt_of_ge ((List.pairwise_cons.1 hsorted).1 i hlater) hi

/-! ### Counting off -/

theorem length_pending_foldl_release (places : List Nat) (w : Worklist) :
    (places.foldl release w).pending.length = w.pending.length := by
  induction places generalizing w with
  | nil => rfl
  | cons place places ih => rw [List.foldl_cons, ih, release, List.length_set]

/-- Counting off several places leaves the counts of the others. -/
theorem pending_foldl_release {places : List Nat} (hnodup : places.Nodup) (w : Worklist) (i : Nat) :
    (places.foldl release w).pending.getD i 0 =
      if i ∈ places then w.pending.getD i 0 - 1 else w.pending.getD i 0 := by
  induction places generalizing w with
  | nil => simp
  | cons place places ih =>
      obtain ⟨hplace, hnodup⟩ := List.nodup_cons.1 hnodup
      rw [List.foldl_cons, ih hnodup]
      by_cases heq : i = place
      · subst heq
        by_cases hlt : i < w.pending.length
        · simp [hplace, release, hlt]
        · simp [hplace, release, hlt]
      · have hne : place ≠ i := fun h => heq h.symm
        simp [heq, release, hne]

/-- Counting off several places makes those ready that waited for one more. -/
theorem ready_foldl_release {places : List Nat} (hnodup : places.Nodup) (w : Worklist) :
    (places.foldl release w).ready =
      w.ready ++ places.filter fun i => w.pending.getD i 0 - 1 = 0 := by
  induction places generalizing w with
  | nil => simp
  | cons place places ih =>
      obtain ⟨hplace, hnodup⟩ := List.nodup_cons.1 hnodup
      have hrest : (places.filter fun i => (w.release place).pending.getD i 0 - 1 = 0) =
          places.filter fun i => w.pending.getD i 0 - 1 = 0 := by
        refine List.filter_congr fun i hi => ?_
        have hne : place ≠ i := fun h => hplace (h ▸ hi)
        simp [release, hne]
      rw [List.foldl_cons, ih hnodup, hrest, release, List.filter_cons]
      by_cases hzero : w.pending.getD place 0 - 1 = 0
      · simp only [hzero, decide_true, if_true, List.append_assoc, List.singleton_append]
      · simp only [hzero, decide_false, if_false, Bool.false_eq_true]

/-! ### One round -/

section Round

variable (hdistinct : ∀ i, (dependencies.getD i []).Nodup)

theorem nodup_dependents (dependencies : List (List Nat)) (place : Nat) :
    (dependents dependencies place).Nodup :=
  List.nodup_range.filter _

theorem mem_dependents {place i : Nat} : i ∈ dependents dependencies place ↔
    i < dependencies.length ∧ place ∈ dependencies.getD i [] := by
  simp [dependents]

/-- A place that depends on one that is not done waits for it. -/
theorem length_waiting_pos {place i : Nat} (hnew : place ∉ done)
    (hdepends : place ∈ dependencies.getD i []) : 0 < (waiting dependencies done i).length :=
  List.length_pos_of_mem (a := place) (List.mem_filter.2 ⟨hdepends, by simpa using hnew⟩)

include hdistinct

/-- Taking a place takes one off what its dependents wait for, and nothing off the others. -/
theorem length_waiting_cons {place : Nat} (hnew : place ∉ done) (i : Nat) :
    (waiting dependencies (place :: done) i).length =
      if place ∈ dependencies.getD i [] then (waiting dependencies done i).length - 1
      else (waiting dependencies done i).length := by
  have hfilter : waiting dependencies (place :: done) i =
      (waiting dependencies done i).filter (· != place) := by
    unfold waiting
    rw [List.filter_filter]
    refine List.filter_congr fun j _ => ?_
    rw [List.contains_cons, Bool.not_or]
    rfl
  have hnodup : (waiting dependencies done i).Nodup := (hdistinct i).filter _
  rw [hfilter, ← hnodup.erase_eq_filter, List.length_erase]
  simp [waiting, hnew]

/-- After the first ready place is taken, exactly the places that are ready then are listed. -/
theorem Tracks.mem_ready_take (h : w.Tracks dependencies done) {place : Nat} {rest : List Nat}
    (hsplit : w.ready.Perm (place :: rest)) (i : Nat) :
    i ∈ (w.take dependencies place rest).ready ↔
      i < dependencies.length ∧ isReady dependencies (place :: done) i = true := by
  obtain ⟨hnew, hnone⟩ := isReady_iff.1 ((h.mem_ready place).1 (hsplit.mem_iff.2
    List.mem_cons_self)).2
  have hnotrest := (List.nodup_cons.1 (hsplit.nodup_iff.1 h.nodup_ready)).1
  have hmem := (h.mem_ready i).symm.trans (hsplit.mem_iff.trans List.mem_cons)
  rw [isReady_iff] at hmem
  rw [Worklist.take, ready_foldl_release (nodup_dependents dependencies place), List.mem_append,
    isReady_iff, length_waiting_cons hdistinct hnew]
  simp only [List.mem_filter, mem_dependents, decide_eq_true_eq]
  by_cases hdepends : place ∈ dependencies.getD i []
  · -- the place comes to the list now, if it waited for no other
    have hwaits := Nat.ne_of_gt (length_waiting_pos hnew hdepends)
    rw [if_pos hdepends]
    constructor
    · rintro (hi | ⟨⟨hi, -⟩, hzero⟩)
      · exact absurd (hmem.2 (.inr hi)).2.2 hwaits
      · rw [h.pending i hi] at hzero
        refine ⟨hi, fun hmem => ?_, hzero⟩
        rcases List.mem_cons.1 hmem with rfl | hmem
        · exact hwaits hnone
        · exact hwaits (h.settled i hmem)
    · rintro ⟨hi, -, hzero⟩
      exact .inr ⟨⟨hi, hdepends⟩, by rw [h.pending i hi]; exact hzero⟩
  · -- it waits for as many as before, and was in the list or is not
    rw [if_neg hdepends]
    constructor
    · rintro (hi | ⟨⟨-, hi⟩, -⟩)
      · obtain ⟨hlt, hfresh, hzero⟩ := hmem.2 (.inr hi)
        refine ⟨hlt, fun hmem => ?_, hzero⟩
        rcases List.mem_cons.1 hmem with rfl | hmem
        · exact hnotrest hi
        · exact hfresh hmem
      · exact absurd hi hdepends
    · rintro ⟨hlt, hfresh, hzero⟩
      rw [List.mem_cons, not_or] at hfresh
      exact .inl ((hmem.1 ⟨hlt, hfresh.2, hzero⟩).resolve_left hfresh.1)

/-- The invariant is kept when the first ready place is taken. -/
theorem Tracks.take (h : w.Tracks dependencies done) {place : Nat} {rest : List Nat}
    (hsplit : w.ready.Perm (place :: rest)) :
    (w.take dependencies place rest).Tracks dependencies (place :: done) := by
  obtain ⟨hnew, hnone⟩ := isReady_iff.1 ((h.mem_ready place).1 (hsplit.mem_iff.2
    List.mem_cons_self)).2
  have hcount := length_waiting_cons hdistinct hnew
  have hdependents := nodup_dependents dependencies place
  refine ⟨?_, fun i hi => ?_, h.mem_ready_take hdistinct hsplit, ?_, fun i hi => ?_⟩
  · rw [Worklist.take, length_pending_foldl_release, h.length_pending]
  · rw [Worklist.take, pending_foldl_release hdependents, hcount, h.pending i hi]
    simp [mem_dependents, hi]
  · rw [Worklist.take, ready_foldl_release hdependents]
    have hrest := (List.nodup_cons.1 (hsplit.nodup_iff.1 h.nodup_ready)).2
    refine List.nodup_append.2 ⟨hrest, hdependents.filter _, fun i hi j hj => ?_⟩
    rintro rfl
    -- a dependent waited for the place, so it was not ready before
    have hwaits := length_waiting_pos hnew (mem_dependents.1 (List.mem_filter.1 hj).1).2
    have hi : i ∈ w.ready := hsplit.mem_iff.2 (List.mem_cons_of_mem _ hi)
    exact Nat.ne_of_gt hwaits (isReady_iff.1 ((h.mem_ready i).1 hi).2).2
  · have hzero : (waiting dependencies done i).length = 0 := by
      rcases List.mem_cons.1 hi with rfl | hi
      · exact hnone
      · exact h.settled i hi
    rw [hcount, hzero, Nat.zero_sub, ite_self]

/-- The worklist takes the scheduled places, and keeps its invariant. -/
theorem Tracks.run (fuel : Nat) (h : w.Tracks dependencies done) :
    (run dependencies fuel w).1 = scheduleFrom dependencies fuel done ∧
      (run dependencies fuel w).2.Tracks dependencies
        ((scheduleFrom dependencies fuel done).reverse ++ done) := by
  induction fuel generalizing w done with
  | zero => exact ⟨rfl, h⟩
  | succ fuel ih =>
      have hnext := h.nextReady?_eq
      unfold Worklist.run scheduleFrom
      cases hsort : byPosition w.ready with
      | nil =>
          rw [hsort] at hnext
          rw [hnext]
          exact ⟨rfl, h⟩
      | cons place rest =>
          rw [hsort] at hnext
          rw [hnext]
          have hsplit : w.ready.Perm (place :: rest) := hsort ▸ (byPosition_perm _).symm
          obtain ⟨horder, hleft⟩ := ih (h.take hdistinct hsplit)
          simp only [List.head?_cons, horder, List.reverse_cons, List.append_assoc,
            List.singleton_append]
          exact ⟨trivial, hleft⟩

/-- The worklist takes the scheduled places. If those are not all, exactly the others wait for
something in the end. -/
theorem run_eq :
    (run dependencies dependencies.length (start dependencies)).1 = schedule dependencies ∧
      ((schedule dependencies).length ≠ dependencies.length → ∀ i < dependencies.length,
        (0 < (run dependencies dependencies.length (start dependencies)).2.pending.getD i 0 ↔
          i ∉ schedule dependencies)) := by
  obtain ⟨horder, hleft⟩ := (tracks_start dependencies).run hdistinct dependencies.length
  refine ⟨horder, fun hshort i hi => ?_⟩
  have hlength := length_scheduleFrom_le dependencies dependencies.length []
  have hend : nextReady? dependencies
      ((scheduleFrom dependencies dependencies.length []).reverse ++ []) = none :=
    nextReady?_scheduleFrom (Nat.lt_of_le_of_ne hlength hshort)
  rw [List.append_nil] at hleft hend
  have hnot := List.find?_eq_none.1 hend i (List.mem_range.2 hi)
  rw [isReady_iff, List.mem_reverse] at hnot
  have hsettled := hleft.settled i
  rw [List.mem_reverse] at hsettled
  rw [hleft.pending i hi, schedule]
  constructor
  · intro hwaits hmem
    exact Nat.ne_of_gt hwaits (hsettled hmem)
  · intro hmem
    exact Nat.pos_of_ne_zero fun hzero => hnot ⟨hmem, hzero⟩

end Round

end Worklist

end TensorGraph
