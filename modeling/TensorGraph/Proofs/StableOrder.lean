import Mathlib.Data.Fintype.EquivFin
import TensorGraph.Proofs.Sorting

/-!
# The stable order

Of all the orders in which every node follows those that it depends on, the one that is found is
the first by position: any other order takes, where the two part, a later node of the list. So a
list that is in order already stays as it is. No order is found exactly when some node depends on
itself in the end, and then the nodes that are named are those on such a cycle and behind one.

## Main results

* `Graph.not_mem_schedule_iff` -- the nodes that are never taken are those behind a cycle.
* `Graph.topologicalOrder_stable` -- what is found, with a cycle and without.
-/

namespace TensorGraph

open Relation (ReflTransGen TransGen)

/-! ## Legal schedules -/

/-- Each of the places can be taken when the ones before it and those in `done` have been. -/
def Legal (dependencies : List (List Nat)) : List Nat → List Nat → Prop
  | _, [] => True
  | done, place :: rest =>
      place < dependencies.length ∧ isReady dependencies done place = true ∧
        Legal dependencies (place :: done) rest

variable {dependencies : List (List Nat)} {done : List Nat}

/-- The schedule is the first of the legal ones. -/
theorem Legal.schedule_first {places : List Nat} (h : Legal dependencies done places) :
    scheduleFrom dependencies places.length done = places ∨
      List.Lex (· < ·) (scheduleFrom dependencies places.length done) places := by
  induction places generalizing done with
  | nil => exact .inl rfl
  | cons place rest ih =>
      obtain ⟨hlt, hready, hrest⟩ := h
      rw [List.length_cons, scheduleFrom]
      cases hnext : nextReady? dependencies done with
      | none =>
          have := List.find?_eq_none.1 hnext place (List.mem_range.2 hlt)
          exact absurd hready this
      | some first =>
          -- the first ready place is not behind this one, which is ready too
          have hle : first ≤ place := by
            obtain ⟨-, -, hbefore⟩ := List.find?_range_eq_some.1 hnext
            by_contra hgt
            have := hbefore place (Nat.lt_of_not_le hgt)
            simp [hready] at this
          rcases Nat.lt_or_eq_of_le hle with hlt | rfl
          · exact .inr (.rel hlt)
          · rcases ih hrest with heq | hlex
            · exact .inl (congrArg (first :: ·) heq)
            · exact .inr (.cons hlex)

/-- Where every place depends on earlier ones the schedule is the list. -/
private theorem scheduleFrom_of_lt (hdown : ∀ i, ∀ j ∈ dependencies.getD i [], j < i)
    (fuel taken : Nat) (hfuel : taken + fuel = dependencies.length)
    (hdone : ∀ i, i ∈ done ↔ i < taken) :
    scheduleFrom dependencies fuel done = List.range' taken fuel := by
  induction fuel generalizing taken done with
  | zero => rfl
  | succ fuel ih =>
      have hnext : nextReady? dependencies done = some taken := by
        refine List.find?_range_eq_some.2 ⟨?_, by simp; omega, fun i hi => ?_⟩
        · simp only [isReady, Bool.and_eq_true, Bool.not_eq_true', List.contains_eq_mem, hdone,
            Nat.lt_irrefl, decide_false, List.all_eq_true, decide_eq_true_eq]
          exact ⟨trivial, hdown taken⟩
        · simp [isReady, (hdone i).2 hi]
      rw [scheduleFrom, hnext, List.range'_succ]
      refine congrArg (taken :: ·) (ih (taken + 1) (by omega) fun i => ?_)
      rw [List.mem_cons, hdone]
      omega

theorem schedule_of_lt (hdown : ∀ i, ∀ j ∈ dependencies.getD i [], j < i) :
    schedule dependencies = List.range dependencies.length := by
  rw [List.range_eq_range']
  exact scheduleFrom_of_lt hdown _ 0 (Nat.zero_add _) (by simp)

/-- A place that is never taken depends on another such place. -/
theorem exists_untaken_dependency {place : Nat} (hplace : place < dependencies.length)
    (hnot : place ∉ schedule dependencies) :
    ∃ j ∈ dependencies.getD place [], j ∉ schedule dependencies := by
  have hshort : (schedule dependencies).length < dependencies.length := by
    refine Nat.lt_of_not_le fun hle => hnot ?_
    have hsub : schedule dependencies ⊆ List.range dependencies.length :=
      fun i hi => List.mem_range.2 (mem_schedule_lt hi)
    have hperm := (List.subperm_of_subset (nodup_schedule _) hsub).perm_of_length_le
      (by rwa [List.length_range])
    exact hperm.mem_iff.2 (List.mem_range.2 hplace)
  have hend := nextReady?_scheduleFrom hshort
  have hwaits := List.find?_eq_none.1 hend place (List.mem_range.2 hplace)
  rw [List.append_nil] at hwaits
  by_contra hnone
  push Not at hnone
  refine hwaits ?_
  simp only [isReady, Bool.and_eq_true, Bool.not_eq_true', List.contains_eq_mem,
    decide_eq_false_iff_not, List.all_eq_true, decide_eq_true_eq, List.mem_reverse]
  exact ⟨hnot, hnone⟩

namespace Graph

variable {g h : Graph} {order : List Nat}

/-! ## Orders -/

/-- An order of the nodes: every place once, behind those that it depends on. -/
structure IsOrder (g : Graph) (order : List Nat) : Prop where
  perm : order.Perm (List.range g.nodes.length)
  behind : ∀ i j, g.DependsOn i j → order.idxOf j < order.idxOf i

theorem isOrder_of_topologicalOrder (horder : g.topologicalOrder = .ok order) :
    g.IsOrder order where
  perm := (topologicalOrder_ok horder).2
  behind _ _ hdepends := idxOf_lt_idxOf horder hdepends

namespace IsOrder

theorem nodup (h : g.IsOrder order) : order.Nodup := h.perm.nodup_iff.2 List.nodup_range

theorem mem_iff (h : g.IsOrder order) {place : Nat} : place ∈ order ↔ place < g.nodes.length := by
  rw [h.perm.mem_iff, List.mem_range]

/-- In an order every place can be taken after those before it. -/
theorem legal (h : g.IsOrder order) {before rest : List Nat} (hsplit : order = before ++ rest) :
    Legal g.dependencies before.reverse rest := by
  induction rest generalizing before with
  | nil => trivial
  | cons place rest ih =>
      have hnodup := h.nodup
      rw [hsplit] at hnodup
      have hnew : place ∉ before := fun hmem =>
        (List.nodup_append.1 hnodup).2.2 place hmem place List.mem_cons_self rfl
      have hplace : order.idxOf place = before.length := by
        rw [hsplit, List.idxOf_append, if_neg hnew, List.idxOf_cons_self, Nat.zero_add]
      refine ⟨?_, ?_, ?_⟩
      · rw [length_dependencies, ← h.mem_iff, hsplit]
        simp
      · simp only [isReady, Bool.and_eq_true, Bool.not_eq_true', List.contains_eq_mem,
          decide_eq_false_iff_not, List.all_eq_true, decide_eq_true_eq, List.mem_reverse]
        refine ⟨hnew, fun j hj => ?_⟩
        -- what stands behind this place does not come first
        have hlt := h.behind place j (mem_dependencies.1 hj)
        by_contra hnot
        rw [hplace, hsplit, List.idxOf_append, if_neg hnot] at hlt
        omega
      · have hnext : order = (before ++ [place]) ++ rest := by simp [hsplit]
        simpa using ih hnext

/-- No node of a graph with an order depends on itself in the end. -/
theorem acyclic (h : g.IsOrder order) (i : Nat) : ¬ TransGen g.DependsOn i i := by
  have hbehind {i j : Nat} (hpath : TransGen g.DependsOn i j) :
      order.idxOf j < order.idxOf i := by
    induction hpath with
    | single hdepends => exact h.behind _ _ hdepends
    | tail _ hdepends ih => exact Nat.lt_trans (h.behind _ _ hdepends) ih
  exact fun hcycle => Nat.lt_irrefl _ (hbehind hcycle)

end IsOrder

/-- The order that is found comes before all others. -/
theorem topologicalOrder_first (horder : g.topologicalOrder = .ok order) {other : List Nat}
    (hother : g.IsOrder other) : order = other ∨ List.Lex (· < ·) order other := by
  have hlegal : Legal g.dependencies [].reverse other := hother.legal (List.nil_append other).symm
  have hfirst := hlegal.schedule_first
  rw [List.reverse_nil, hother.perm.length_eq, List.length_range, ← length_dependencies] at hfirst
  rw [(topologicalOrder_ok horder).1]
  exact hfirst

/-! ## Lists that are in order -/

@[simp] theorem inOrder_range (g : Graph) : g.inOrder (List.range g.nodes.length) = g := by
  rw [inOrder, nodesAt_range]
  cases g
  rfl

theorem sortTopologically_of_lt (hdown : ∀ i j, g.DependsOn i j → j < i) :
    g.sortTopologically = .ok g := by
  have hschedule := schedule_of_lt fun i j hj => hdown i j (mem_dependencies.1 hj)
  rw [length_dependencies] at hschedule
  have horder : g.topologicalOrder = .ok (List.range g.nodes.length) := by
    rw [topologicalOrder_eq, hschedule, if_pos List.length_range]
  exact sortTopologically_eq_ok_iff.2 ⟨_, horder, g.inOrder_range.symm⟩

/-- In a sorted graph nodes depend on earlier ones. A value may have got another producer, but
only an earlier one. -/
theorem lt_of_dependsOn_inOrder (horder : g.topologicalOrder = .ok order) {i j : Nat}
    (hdepends : (g.inOrder order).DependsOn i j) : j < i := by
  obtain ⟨n, hn, value, hread, hproducer⟩ := hdepends
  obtain ⟨place, hplace, rfl⟩ := exists_place_of_inOrder horder hn
  obtain ⟨m, hm, hyields⟩ := producerPlace?_mem hproducer
  obtain ⟨made, hmade, -⟩ := exists_place_of_inOrder horder hm
  obtain ⟨first, hfirst⟩ := Option.isSome_iff_exists.1
    (producerPlace?_isSome_iff.2 (mem_results.2 ⟨m, List.mem_of_getElem? hmade, hyields⟩))
  refine Nat.lt_of_le_of_lt ?_ (idxOf_lt_idxOf horder ⟨n, hplace, value, hread, hfirst⟩)
  obtain ⟨k, hk, hkyields⟩ := producerPlace?_mem hfirst
  obtain ⟨hlt, hget⟩ := List.getElem?_eq_some_iff.1 (getElem?_inOrder_idxOf horder hk)
  by_contra hgt
  refine (List.findIdx?_eq_some_iff_getElem.1 hproducer).2.2 _ (Nat.lt_of_not_le hgt) ?_
  rw [hget, Node.produces_iff]
  exact hkyields

/-! ## Cycles -/

/-- A place from which dependencies lead to a cycle. -/
def BehindCycle (g : Graph) (i : Nat) : Prop :=
  ∃ j, ReflTransGen g.DependsOn i j ∧ TransGen g.DependsOn j j

theorem DependsOn.lt_length {i j : Nat} (h : g.DependsOn i j) :
    i < g.nodes.length ∧ j < g.nodes.length := by
  obtain ⟨n, hn, value, -, hproducer⟩ := h
  obtain ⟨m, hm, -⟩ := producerPlace?_mem hproducer
  exact ⟨(List.getElem?_eq_some_iff.1 hn).1, (List.getElem?_eq_some_iff.1 hm).1⟩

theorem BehindCycle.lt_length {i : Nat} (h : g.BehindCycle i) : i < g.nodes.length := by
  obtain ⟨j, hpath, hcycle⟩ := h
  obtain ⟨k, hdepends, -⟩ := TransGen.head'_iff.1 (TransGen.trans_right hpath hcycle)
  exact hdepends.lt_length.1

/-- A node that is taken follows what it depends on. -/
private theorem mem_schedule_of_dependsOn {i j : Nat} (hmem : i ∈ schedule g.dependencies)
    (h : g.DependsOn i j) : j ∈ schedule g.dependencies := by
  have hlt := idxOf_lt_of_dependsOn hmem h
  exact List.idxOf_lt_length_iff.1 (Nat.lt_trans hlt (List.idxOf_lt_length_of_mem hmem))

/-- Whoever depends, step by step, on untaken nodes comes to one of them again. -/
private theorem behindCycle_of_untaken {i : Nat} (hlt : i < g.nodes.length)
    (hnot : i ∉ schedule g.dependencies) : g.BehindCycle i := by
  let Untaken := { i : Nat // i < g.nodes.length ∧ i ∉ schedule g.dependencies }
  have hnext : ∀ u : Untaken, ∃ v : Untaken, g.DependsOn u.1 v.1 := by
    rintro ⟨i, hlt, hnot⟩
    obtain ⟨j, hj, hjnot⟩ := exists_untaken_dependency (by rwa [length_dependencies]) hnot
    have hdepends := mem_dependencies.1 hj
    exact ⟨⟨j, hdepends.lt_length.2, hjnot⟩, hdepends⟩
  choose next hstep using hnext
  let walk (k : Nat) : Untaken := next^[k] ⟨i, hlt, hnot⟩
  have hwalk (k : Nat) : g.DependsOn (walk k).1 (walk (k + 1)).1 := by
    rw [show walk (k + 1) = next (walk k) from Function.iterate_succ_apply' next k _]
    exact hstep _
  have hpath (k l : Nat) : TransGen g.DependsOn (walk k).1 (walk (k + l + 1)).1 := by
    induction l with
    | zero => exact .single (hwalk k)
    | succ l ih => exact ih.tail (hwalk (k + l + 1))
  have hreach (k : Nat) : ReflTransGen g.DependsOn i (walk k).1 := by
    cases k with
    | zero => exact .refl
    | succ k => exact Nat.zero_add k ▸ (hpath 0 k).to_reflTransGen
  -- there are finitely many places, so the walk comes back
  have hrepeat : ∃ k l, k < l ∧ (walk k).1 = (walk l).1 := by
    by_contra hnone
    push Not at hnone
    have hinjective : Function.Injective fun k =>
        (⟨(walk k).1, (walk k).2.1⟩ : Fin g.nodes.length) := by
      intro k l hkl
      have hkl := Fin.val_eq_of_eq hkl
      rcases Nat.lt_trichotomy k l with hlt | heq | hgt
      · exact absurd hkl (hnone k l hlt)
      · exact heq
      · exact absurd hkl.symm (hnone l k hgt)
    exact not_injective_infinite_finite _ hinjective
  obtain ⟨k, l, hkl, hsame⟩ := hrepeat
  obtain ⟨gap, rfl⟩ := Nat.exists_eq_add_of_lt hkl
  exact ⟨(walk k).1, hreach k, by simpa [← hsame] using hpath k gap⟩

/-- The nodes that are never taken are those on a cycle and behind one. -/
theorem not_mem_schedule_iff {i : Nat} (hlt : i < g.nodes.length) :
    i ∉ schedule g.dependencies ↔ g.BehindCycle i := by
  refine ⟨behindCycle_of_untaken hlt, ?_⟩
  rintro ⟨j, hpath, hcycle⟩ hmem
  have hreached : j ∈ schedule g.dependencies := by
    clear hcycle
    induction hpath with
    | refl => exact hmem
    | tail _ hdepends ih => exact mem_schedule_of_dependsOn ih hdepends
  have hbehind {k : Nat} (hpath : TransGen g.DependsOn j k) : k ∈ schedule g.dependencies ∧
      (schedule g.dependencies).idxOf k < (schedule g.dependencies).idxOf j := by
    induction hpath with
    | single hdepends =>
        exact ⟨mem_schedule_of_dependsOn hreached hdepends, idxOf_lt_of_dependsOn hreached hdepends⟩
    | tail _ hdepends ih =>
        exact ⟨mem_schedule_of_dependsOn ih.1 hdepends,
          Nat.lt_trans (idxOf_lt_of_dependsOn ih.1 hdepends) ih.2⟩
  exact Nat.lt_irrefl _ (hbehind hcycle).2

private theorem zipIdx_eq (nodes : List Node) :
    nodes.zipIdx = (List.range nodes.length).filterMap fun i => nodes[i]?.map (·, i) := by
  have hall : (List.range nodes.length).filterMap (fun i => nodes[i]?.map (·, i)) =
      (List.range nodes.length).map fun i => (nodes[i]?.getD default, i) := by
    rw [← List.filterMap_eq_map]
    refine List.filterMap_congr fun i hi => ?_
    simp [List.getElem?_eq_getElem (List.mem_range.1 hi)]
  refine List.ext_getElem (by simp [hall]) fun i hi _ => ?_
  simp only [List.length_zipIdx] at hi
  simp [hall, hi]

theorem stuckNodes_eq (g : Graph) (order : List Nat) : g.stuckNodes order =
    (g.nodesAt ((List.range g.nodes.length).filter fun i => !order.contains i)).map Node.name := by
  rw [stuckNodes, nodesAt, zipIdx_eq, List.filter_filterMap, List.map_filterMap,
    List.filterMap_filter, List.map_filterMap]
  refine List.filterMap_congr fun i hi => ?_
  rw [List.getElem?_eq_getElem (List.mem_range.1 hi)]
  by_cases hmem : order.contains i = true
  · simp only [Option.map_some, Option.filter_some, hmem, Bool.not_true, Bool.false_eq_true,
      if_false, Option.map_none]
  · rw [Bool.not_eq_true] at hmem
    simp only [Option.map_some, Option.filter_some, hmem, Bool.not_false, if_true]

/-- The nodes that a failure names, by their places. -/
theorem topologicalOrder_of_cycle {i : Nat} (hcycle : TransGen g.DependsOn i i) :
    ∃ stuck : List Nat, stuck.Pairwise (· < ·) ∧ (∀ j, j ∈ stuck ↔ g.BehindCycle j) ∧
      g.topologicalOrder = .error (.malformed
        [{ graph := g.name, problem := .cycle ((g.nodesAt stuck).map Node.name) }]) := by
  have hmem (j : Nat) : j ∈ (List.range g.nodes.length).filter
      (fun j => !(schedule g.dependencies).contains j) ↔ g.BehindCycle j := by
    simp only [List.mem_filter, List.mem_range, Bool.not_eq_true', List.contains_eq_mem,
      decide_eq_false_iff_not]
    exact ⟨fun ⟨hlt, hnot⟩ => (not_mem_schedule_iff hlt).1 hnot,
      fun h => ⟨h.lt_length, (not_mem_schedule_iff h.lt_length).2 h⟩⟩
  refine ⟨_, List.pairwise_lt_range.filter _, hmem, ?_⟩
  have hshort : (schedule g.dependencies).length ≠ g.nodes.length := by
    intro hlength
    have horder : g.topologicalOrder = .ok (schedule g.dependencies) := by
      rw [topologicalOrder_eq, if_pos hlength]
    exact (isOrder_of_topologicalOrder horder).acyclic i hcycle
  rw [topologicalOrder_eq, if_neg hshort, stuckNodes_eq]

/-- Without a cycle there is an order. -/
theorem topologicalOrder_of_acyclic (h : ∀ i, ¬ TransGen g.DependsOn i i) :
    ∃ order, g.topologicalOrder = .ok order := by
  refine ⟨schedule g.dependencies, ?_⟩
  rw [topologicalOrder_eq, if_pos]
  have hall : List.range g.nodes.length ⊆ schedule g.dependencies := by
    intro i hi
    by_contra hnot
    obtain ⟨j, -, hcycle⟩ := (not_mem_schedule_iff (List.mem_range.1 hi)).1 hnot
    exact h j hcycle
  have hle := List.nodup_range.length_le_of_subset hall
  have hge := length_scheduleFrom_le g.dependencies g.dependencies.length []
  rw [List.length_range] at hle
  rw [length_dependencies] at hge
  rw [schedule, length_dependencies] at hle ⊢
  exact Nat.le_antisymm hge hle

private theorem reportText_singleton (r : Issue.Report) :
    Issue.reportText [r] = "malformed graph (1 issue):\n  " ++ r.line := by
  have hone : toString (1 : Nat) = "1" := by decide
  simp only [Issue.reportText, List.length_singleton, hone, if_true, List.map_cons, List.map_nil,
    String.intercalate_singleton]
  rw [← String.append_assoc]
  rfl

/-- How a cycle is reported. -/
theorem message_cycle (graph : String) (names : List String) :
    Failure.message (.malformed [{ graph, problem := .cycle names }]) =
      "malformed graph (1 issue):\n  [cycle] " ++ graph ++ ": cycle through node(s) " ++
        ", ".intercalate names := by
  let issue : Issue := { graph, problem := .cycle names }
  have hline : issue.report.line =
      "[cycle] " ++ graph ++ ": " ++ ("cycle through node(s) " ++ ", ".intercalate names) := rfl
  calc Failure.message (.malformed [issue])
      = Issue.reportText [issue.report] := rfl
    _ = "malformed graph (1 issue):\n  " ++ issue.report.line := reportText_singleton _
    _ = _ := by
        have hhead : "malformed graph (1 issue):\n  [cycle] " =
            "malformed graph (1 issue):\n  " ++ "[cycle] " := by decide
        have hmiddle : ": cycle through node(s) " = ": " ++ "cycle through node(s) " := by decide
        rw [hline, hhead, hmiddle]
        simp only [String.append_assoc]

/-- Without a cycle the order that is found has every node behind those that it depends on and
comes, compared place by place, before every other such order; to sort what is sorted changes
nothing. With a cycle the failure names, in the order of the list, exactly the nodes that are on
a cycle or behind one. -/
theorem topologicalOrder_stable (g : Graph) :
    ((∀ i, ¬ TransGen g.DependsOn i i) → ∃ order, g.topologicalOrder = .ok order ∧
      g.IsOrder order ∧
      (∀ other, g.IsOrder other → order = other ∨ List.Lex (· < ·) order other) ∧
      g.sortTopologically = .ok (g.inOrder order) ∧
      (g.inOrder order).sortTopologically = .ok (g.inOrder order) ∧
      ((∀ i j, g.DependsOn i j → j < i) → g.sortTopologically = .ok g)) ∧
    ((∃ i, TransGen g.DependsOn i i) → ∃ stuck failure, stuck.Pairwise (· < ·) ∧
      (∀ i, i ∈ stuck ↔ g.BehindCycle i) ∧
      g.topologicalOrder = .error failure ∧ g.sortTopologically = .error failure ∧
      failure.kind = .malformedGraph ∧
      failure.message = "malformed graph (1 issue):\n  [cycle] " ++ g.name ++
        ": cycle through node(s) " ++ ", ".intercalate ((g.nodesAt stuck).map Node.name)) := by
  constructor
  · intro hacyclic
    obtain ⟨order, horder⟩ := topologicalOrder_of_acyclic hacyclic
    exact ⟨order, horder, isOrder_of_topologicalOrder horder, fun _ => topologicalOrder_first horder,
      sortTopologically_eq_ok_iff.2 ⟨order, horder, rfl⟩,
      sortTopologically_of_lt fun _ _ => lt_of_dependsOn_inOrder horder, sortTopologically_of_lt⟩
  · rintro ⟨i, hcycle⟩
    obtain ⟨stuck, hsorted, hmem, horder⟩ := topologicalOrder_of_cycle hcycle
    refine ⟨stuck, _, hsorted, hmem, horder, ?_, rfl, ?_⟩
    · rw [sortTopologically, horder]
      rfl
    · exact message_cycle g.name _

/-- A node stands before the one whose value it reads, and another reads that value in a body. -/
private def shuffled : Graph where
  inputs := ["x"]
  outputs := ["late", "held"]
  nodes :=
    [{ name := "second", op := "Relu", inputs := ["early"], outputs := ["late"] },
     { name := "holder", op := "If", inputs := ["x"], outputs := ["held"],
       attributes := [("then_branch", .body { outputs := ["early"] })] },
     { name := "first", op := "Relu", inputs := ["x"], outputs := ["early"] }]

/-- Two nodes read each other's values, a third reads one of these, and a fourth does not. -/
private def ringed : Graph where
  name := "ringed"
  inputs := ["x"]
  outputs := ["behind", "free"]
  nodes :=
    [{ name := "one", op := "Relu", inputs := ["b"], outputs := ["a"] },
     { name := "other", op := "Relu", inputs := ["a"], outputs := ["b"] },
     { name := "reader", op := "Relu", inputs := ["b"], outputs := ["behind"] },
     { name := "apart", op := "Relu", inputs := ["x"], outputs := ["free"] }]

private theorem dependencies_shuffled : shuffled.dependencies = [[2], [2], []] := by decide

private theorem dependencies_ringed : ringed.dependencies = [[1], [0], [1], []] := by decide

private theorem acyclic_shuffled (i : Nat) : ¬ TransGen shuffled.DependsOn i i := by
  have hlater {i j : Nat} (h : shuffled.DependsOn i j) : i < 2 ∧ j = 2 := by
    have hlt := h.lt_length.1
    have hmem := mem_dependencies.2 h
    rw [dependencies_shuffled] at hmem
    have : shuffled.nodes.length = 3 := rfl
    match i with
    | 0 | 1 => simpa using hmem
    | 2 => simp at hmem
    | i + 3 => omega
  intro hcycle
  obtain ⟨j, hfirst, -⟩ := TransGen.head'_iff.1 hcycle
  obtain ⟨k, -, hlast⟩ := TransGen.tail'_iff.1 hcycle
  have := (hlater hfirst).1
  have := (hlater hlast).2
  omega

theorem topologicalOrder_stable_shuffled_ringed :
    (∃ order, shuffled.topologicalOrder = .ok order ∧ shuffled.IsOrder order ∧
      shuffled.sortTopologically = .ok (shuffled.inOrder order)) ∧
    ∃ stuck failure, 2 ∈ stuck ∧ 3 ∉ stuck ∧ ringed.topologicalOrder = .error failure ∧
      failure.message = "malformed graph (1 issue):\n  [cycle] " ++ "ringed" ++
        ": cycle through node(s) " ++ ", ".intercalate ((ringed.nodesAt stuck).map Node.name) := by
  have hback : ringed.DependsOn 0 1 := mem_dependencies.1 (by rw [dependencies_ringed]; decide)
  have hforth : ringed.DependsOn 1 0 := mem_dependencies.1 (by rw [dependencies_ringed]; decide)
  have hreader : ringed.DependsOn 2 1 := mem_dependencies.1 (by rw [dependencies_ringed]; decide)
  have hapart : ¬ ringed.BehindCycle 3 := by
    rintro ⟨j, hpath, hcycle⟩
    obtain ⟨k, hdepends, -⟩ := TransGen.head'_iff.1 (TransGen.trans_right hpath hcycle)
    have := mem_dependencies.2 hdepends
    rw [dependencies_ringed] at this
    simp at this
  have hring : TransGen ringed.DependsOn 1 1 := .tail (.single hforth) hback
  obtain ⟨order, horder, hsound, -, hsorted, -⟩ :=
    (topologicalOrder_stable shuffled).1 acyclic_shuffled
  obtain ⟨stuck, failure, -, hmem, hfailed, -, -, hmessage⟩ :=
    (topologicalOrder_stable ringed).2 ⟨1, hring⟩
  exact ⟨⟨order, horder, hsound, hsorted⟩, stuck, failure, (hmem 2).2 ⟨1, .single hreader, hring⟩,
    fun h => hapart ((hmem 3).1 h), hfailed, hmessage⟩

end Graph

end TensorGraph
