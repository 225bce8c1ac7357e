import TensorGraph.Graph.Order
import TensorGraph.Proofs.Tidiness

/-!
# Levels

A graph has a dependency order exactly when its values can be given levels such that every
node reads values of lower levels than it yields. Levels are easier to carry through a change
of the graph than an order of its nodes, because they do not mention places.

## Main results

* `Graph.topologicalOrder_congr` -- the order is a matter of the dependencies.
* `Graph.Acyclic.of_topologicalOrder`, `Graph.Acyclic.topologicalOrder` -- there are levels
  exactly when there is an order.
-/

namespace TensorGraph

/-! ## Schedules -/

/-- A schedule depends on which dependencies there are. -/
theorem schedule_congr {dependencies dependencies' : List (List Nat)}
    (hlength : dependencies'.length = dependencies.length)
    (hsame : ∀ i j, j ∈ dependencies'.getD i [] ↔ j ∈ dependencies.getD i []) :
    schedule dependencies' = schedule dependencies := by
  have hready : isReady dependencies' = isReady dependencies := by
    funext done place
    rw [Bool.eq_iff_iff]
    simp only [isReady, Bool.and_eq_true, List.all_eq_true, hsame]
  have hnext : nextReady? dependencies' = nextReady? dependencies := by
    funext done
    rw [nextReady?, nextReady?, hlength, hready]
  have hfrom (fuel : Nat) (done : List Nat) :
      scheduleFrom dependencies' fuel done = scheduleFrom dependencies fuel done := by
    induction fuel generalizing done with
    | zero => rfl
    | succ fuel ih =>
        rw [scheduleFrom, scheduleFrom, hnext]
        cases nextReady? dependencies done with
        | none => rfl
        | some place => exact congrArg (place :: ·) (ih _)
  rw [schedule, schedule, hlength, hfrom]

/-- As long as heights drop along dependencies, some place can be taken. -/
private theorem exists_ready {dependencies : List (List Nat)} {done : List Nat}
    {height : Nat → Nat}
    (hdown : ∀ i, ∀ j ∈ dependencies.getD i [], height j < height i ∧ j < dependencies.length)
    {place : Nat} (hplace : place < dependencies.length) (hnot : place ∉ done) :
    nextReady? dependencies done ≠ none := by
  induction hk : height place using Nat.strongRecOn generalizing place with
  | ind k ih =>
      subst hk
      by_cases hall : ∀ j ∈ dependencies.getD place [], j ∈ done
      · intro hnone
        have := List.find?_eq_none.1 hnone place (by simpa using hplace)
        refine this ?_
        simp only [isReady, Bool.and_eq_true, Bool.not_eq_true', List.contains_eq_mem,
          decide_eq_false_iff_not, List.all_eq_true, decide_eq_true_eq]
        exact ⟨hnot, hall⟩
      · push Not at hall
        obtain ⟨j, hj, hjdone⟩ := hall
        exact ih (height j) (hdown place j hj).1 (hdown place j hj).2 hjdone rfl

private theorem length_scheduleFrom {dependencies : List (List Nat)} {height : Nat → Nat}
    (hdown : ∀ i, ∀ j ∈ dependencies.getD i [], height j < height i ∧ j < dependencies.length)
    (fuel : Nat) (done : List Nat) (hlt : ∀ place ∈ done, place < dependencies.length)
    (hnodup : done.Nodup) (hfuel : fuel + done.length = dependencies.length) :
    (scheduleFrom dependencies fuel done).length = fuel := by
  induction fuel generalizing done with
  | zero => rfl
  | succ fuel ih =>
      -- fewer places are done than there are, so one of them is left and another is ready
      obtain ⟨left, hleft, hnot⟩ : ∃ place < dependencies.length, place ∉ done := by
        by_contra hnone
        push Not at hnone
        have hsub : List.range dependencies.length ⊆ done := fun place hp =>
          hnone place (List.mem_range.1 hp)
        have := List.nodup_range.length_le_of_subset hsub
        rw [List.length_range] at this
        omega
      unfold scheduleFrom
      cases hnext : nextReady? dependencies done with
      | none => exact absurd hnext (exists_ready hdown hleft hnot)
      | some place =>
          obtain ⟨hready, hplace⟩ := nextReady?_isReady hnext
          have hnew : place ∉ done := by
            simp only [isReady, Bool.and_eq_true, Bool.not_eq_true', List.contains_eq_mem,
              decide_eq_false_iff_not] at hready
            exact hready.1
          have := ih (place :: done) (by simpa using ⟨hplace, hlt⟩)
            (List.nodup_cons.2 ⟨hnew, hnodup⟩) (by simp; omega)
          simp [this]

/-- Where heights drop along dependencies every place is scheduled. -/
theorem length_schedule {dependencies : List (List Nat)} (height : Nat → Nat)
    (hdown : ∀ i, ∀ j ∈ dependencies.getD i [], height j < height i ∧ j < dependencies.length) :
    (schedule dependencies).length = dependencies.length :=
  length_scheduleFrom hdown _ [] (by simp) .nil (by simp)

theorem mem_schedule_lt {dependencies : List (List Nat)} {place : Nat}
    (h : place ∈ schedule dependencies) : place < dependencies.length := by
  suffices ∀ fuel done, place ∈ scheduleFrom dependencies fuel done →
      place < dependencies.length from this _ _ h
  intro fuel
  induction fuel with
  | zero => simp [scheduleFrom]
  | succ fuel ih =>
      intro done hmem
      unfold scheduleFrom at hmem
      cases hnext : nextReady? dependencies done with
      | none => simp [hnext] at hmem
      | some first =>
          rw [hnext] at hmem
          rcases List.mem_cons.1 hmem with rfl | hmem
          · exact (nextReady?_isReady hnext).2
          · exact ih _ hmem

namespace Graph

/-! ## Producers -/

theorem producerPlace?_isSome_iff {g : Graph} {value : String} :
    (g.producerPlace? value).isSome = true ↔ value ∈ g.results := by
  unfold producerPlace?
  rw [List.findIdx?_isSome, List.any_eq_true, mem_results]
  simp [Node.produces_iff]

theorem producerPlace?_mem {g : Graph} {value : String} {place : Nat}
    (h : g.producerPlace? value = some place) :
    ∃ n, g.nodes[place]? = some n ∧ value ∈ n.results := by
  obtain ⟨hlt, hproduces, -⟩ := List.findIdx?_eq_some_iff_getElem.1 h
  exact ⟨_, List.getElem?_eq_getElem hlt, Node.produces_iff.1 hproduces⟩

private theorem find?_eq_bind_findIdx? {α : Type} (p : α → Bool) (l : List α) :
    l.find? p = (l.findIdx? p).bind fun i => l[i]? := by
  induction l with
  | nil => rfl
  | cons a l ih =>
      rw [List.find?_cons, List.findIdx?_cons]
      by_cases h : p a = true
      · simp [h]
      · rw [Bool.not_eq_true] at h
        simp only [h, Bool.false_eq_true, if_false, ih]
        cases l.findIdx? p <;> simp

/-- The producer of a value stands at its place. -/
theorem producer?_eq (g : Graph) (value : String) :
    g.producer? value = (g.producerPlace? value).bind fun place => g.nodes[place]? :=
  find?_eq_bind_findIdx? _ _

/-- Where a value is yielded once, its producer is the node that yields it. -/
theorem Tidy.producerPlace?_eq {taken : String → Prop} {g : Graph} (hg : Tidy taken g)
    {value : String} (honce : g.Once value) {place : Nat} {n : Node}
    (hn : g.nodes[place]? = some n) (hvalue : value ∈ n.results) :
    g.producerPlace? value = some place := by
  have hmem := List.mem_of_getElem? hn
  have hsome : (g.producerPlace? value).isSome = true :=
    producerPlace?_isSome_iff.2 (mem_results.2 ⟨n, hmem, hvalue⟩)
  obtain ⟨found, hfound⟩ := Option.isSome_iff_exists.1 hsome
  obtain ⟨m, hm, hmvalue⟩ := producerPlace?_mem hfound
  rw [hfound, hg.place_eq hm hn (honce m (List.mem_of_getElem? hm) n hmem hmvalue hvalue)]

/-! ## Levels of values -/

/-- Every node reads values of lower levels than those that it yields. Spare values do not
count. -/
def IsLevel (g : Graph) (level : String → Nat) : Prop :=
  ∀ n ∈ g.nodes, ∀ read ∈ n.reads, read ∈ g.results → ∀ value ∈ n.results, ¬ g.Spare value →
    level read < level value

/-- The values of a graph can be given levels. -/
def Acyclic (g : Graph) : Prop := ∃ level, g.IsLevel level

@[simp] theorem length_dependencies (g : Graph) : g.dependencies.length = g.nodes.length := by
  simp [dependencies]

/-- In an order a place comes after those that it depends on. -/
theorem idxOf_lt_of_dependsOn {g : Graph} {i j : Nat}
    (hmem : i ∈ schedule g.dependencies) (h : g.DependsOn i j) :
    (schedule g.dependencies).idxOf j < (schedule g.dependencies).idxOf i := by
  obtain ⟨before, after, hsplit⟩ := List.append_of_mem hmem
  have hready := scheduleFrom_of_ready g.dependencies _ [] hsplit
  simp only [isReady, Bool.and_eq_true, Bool.not_eq_true', List.contains_eq_mem,
    decide_eq_false_iff_not, List.all_eq_true, decide_eq_true_eq, List.append_nil,
    List.mem_reverse] at hready
  have hj : j ∈ before := hready.2 j (mem_dependencies.2 h)
  rw [hsplit, List.idxOf_append, List.idxOf_append, if_pos hj, if_neg hready.1]
  have := List.idxOf_lt_length_of_mem hj
  omega

/-- An order has every place once. -/
theorem topologicalOrder_ok {g : Graph} {order : List Nat} (h : g.topologicalOrder = .ok order) :
    order = schedule g.dependencies ∧ order.Perm (List.range g.nodes.length) := by
  rw [topologicalOrder_eq] at h
  split at h
  · rename_i hlength
    cases h
    have hsub : schedule g.dependencies ⊆ List.range g.nodes.length := fun place hp => by
      simpa using mem_schedule_lt hp
    exact ⟨rfl, (List.subperm_of_subset (nodup_schedule _) hsub).perm_of_length_le (by simp [hlength])⟩
  · cases h

theorem mem_order_iff {g : Graph} {order : List Nat} (h : g.topologicalOrder = .ok order)
    {place : Nat} : place ∈ order ↔ place < g.nodes.length := by
  rw [(topologicalOrder_ok h).2.mem_iff, List.mem_range]

theorem nodup_order {g : Graph} {order : List Nat} (h : g.topologicalOrder = .ok order) :
    order.Nodup :=
  (topologicalOrder_ok h).2.nodup_iff.2 List.nodup_range

theorem nodesAt_range (g : Graph) : g.nodesAt (List.range g.nodes.length) = g.nodes := by
  unfold nodesAt
  refine List.ext_getElem? fun i => ?_
  have hall : (List.range g.nodes.length).filterMap (fun i => g.nodes[i]?) =
      (List.range g.nodes.length).map fun i => (g.nodes[i]?).getD default := by
    rw [← List.filterMap_eq_map]
    refine List.filterMap_congr fun i hi => ?_
    simp [List.getElem?_eq_getElem (List.mem_range.1 hi)]
  rw [hall, List.getElem?_map]
  by_cases hi : i < g.nodes.length
  · simp [hi]
  · simp [Nat.le_of_not_lt hi]

theorem nodesAt_perm {g : Graph} {order : List Nat} (h : g.topologicalOrder = .ok order) :
    (g.nodesAt order).Perm g.nodes := by
  conv_rhs => rw [← nodesAt_range g]
  exact (topologicalOrder_ok h).2.filterMap _

/-- Sorting puts the nodes in another order. -/
theorem sortTopologically_ok {g h : Graph} (hsort : g.sortTopologically = .ok h) :
    ∃ nodes, nodes.Perm g.nodes ∧ h = { g with nodes } := by
  cases horder : g.topologicalOrder with
  | error cause =>
      rw [sortTopologically, horder] at hsort
      cases hsort
  | ok order =>
      rw [sortTopologically, horder] at hsort
      cases hsort
      exact ⟨g.nodesAt order, nodesAt_perm horder, rfl⟩

/-- In a graph with an order values that are yielded once come after those that they depend on. -/
theorem Tidy.exists_level {taken : String → Prop} {g : Graph} (hg : Tidy taken g)
    {order : List Nat} (h : g.topologicalOrder = .ok order) :
    ∃ level : String → Nat, ∀ n ∈ g.nodes, ∀ read ∈ n.reads, read ∈ g.results →
      ∀ value ∈ n.results, g.Once value → level read < level value := by
  obtain ⟨rfl, hperm⟩ := topologicalOrder_ok h
  have hall : ∀ place < g.nodes.length, place ∈ schedule g.dependencies :=
    fun place hp => hperm.mem_iff.2 (List.mem_range.2 hp)
  refine ⟨fun value => ((g.producerPlace? value).map fun place =>
    (schedule g.dependencies).idxOf place).getD 0, ?_⟩
  intro n hn read hread hproduced value hvalue honce
  obtain ⟨i, hi⟩ := List.getElem?_of_mem hn
  obtain ⟨j, hj⟩ := Option.isSome_iff_exists.1 (producerPlace?_isSome_iff.2 hproduced)
  simp only [hj, hg.producerPlace?_eq honce hi hvalue, Option.map_some, Option.getD_some]
  have hlt : i < g.nodes.length := (List.getElem?_eq_some_iff.1 hi).1
  exact idxOf_lt_of_dependsOn (hall i hlt) ⟨n, hi, read, hread, hj⟩

/-- A graph with an order has levels. -/
theorem Acyclic.of_topologicalOrder {taken : String → Prop} {g : Graph} (hg : Tidy taken g)
    {order : List Nat} (h : g.topologicalOrder = .ok order) : g.Acyclic := by
  obtain ⟨level, hlevel⟩ := hg.exists_level h
  exact ⟨level, fun n hn read hread hproduced value hvalue hspare =>
    hlevel n hn read hread hproduced value hvalue ((hg.single value).resolve_right hspare)⟩

/-- How high a node stands: above everything that it reads. -/
private def height (g : Graph) (level : String → Nat) (place : Nat) : Nat :=
  (g.nodes[place]?.elim [] fun n => n.reads.filter (· ∈ g.results)).foldr
    (fun read top => max (level read + 1) top) 0

theorem lt_foldr_max {level : String → Nat} {reads : List String} {read : String}
    (h : read ∈ reads) :
    level read < reads.foldr (fun read top => max (level read + 1) top) 0 := by
  induction reads with
  | nil => simp at h
  | cons first rest ih =>
      rw [List.foldr_cons]
      rcases List.mem_cons.1 h with rfl | h
      · omega
      · have := ih h
        omega

private theorem foldr_max_le {level : String → Nat} {reads : List String} {bound : Nat}
    (h : ∀ read ∈ reads, level read < bound) :
    reads.foldr (fun read top => max (level read + 1) top) 0 ≤ bound := by
  induction reads with
  | nil => simp
  | cons first rest ih =>
      rw [List.foldr_cons]
      have hfirst := h first (by simp)
      have hrest := ih fun read hread => h read (by simp [hread])
      omega

/-- Graphs of as many nodes with the same dependencies have the same order. -/
theorem topologicalOrder_congr {g h : Graph} (hlength : h.nodes.length = g.nodes.length)
    (hsame : ∀ i j, h.DependsOn i j ↔ g.DependsOn i j) :
    h.topologicalOrder.toOption = g.topologicalOrder.toOption := by
  have hschedule : schedule h.dependencies = schedule g.dependencies :=
    schedule_congr (by simp [hlength]) fun i j => by
      rw [mem_dependencies, mem_dependencies, hsame]
  rw [topologicalOrder_eq, topologicalOrder_eq, hschedule, hlength]
  split <;> rfl

/-- A graph with levels has an order, if there are no spare values. -/
theorem Acyclic.topologicalOrder {g : Graph} (h : g.Acyclic) (hspare : ∀ value, ¬ g.Spare value) :
    ∃ order, g.topologicalOrder = .ok order := by
  obtain ⟨level, hlevel⟩ := h
  refine ⟨schedule g.dependencies, ?_⟩
  rw [topologicalOrder_eq, if_pos]
  rw [← length_dependencies]
  refine length_schedule (g.height level) fun i j hj => ?_
  obtain ⟨n, hn, read, hread, hplace⟩ := mem_dependencies.1 hj
  obtain ⟨m, hm, hmread⟩ := producerPlace?_mem hplace
  refine ⟨?_, by simpa using (List.getElem?_eq_some_iff.1 hm).1⟩
  have hproduced : read ∈ g.results := mem_results.2 ⟨m, List.mem_of_getElem? hm, hmread⟩
  -- everything that the producer reads lies below the value that connects the two nodes
  have hbelow : g.height level j ≤ level read := by
    unfold height
    rw [hm]
    refine foldr_max_le fun other hother => ?_
    have := List.mem_filter.1 hother
    exact hlevel m (List.mem_of_getElem? hm) other this.1 (by simpa using this.2) read hmread
      (hspare read)
  refine Nat.lt_of_le_of_lt hbelow ?_
  unfold height
  rw [hn]
  exact lt_foldr_max (List.mem_filter.2 ⟨hread, by simpa using hproduced⟩)

end Graph

end TensorGraph
