import TensorGraph.Graph.Index
import TensorGraph.Proofs.Ordering
import TensorGraph.Proofs.Trails

/-!
# Exact lookups

What an index says of the readers of a value depends on the bodies of the graph, at any depth. It is
right all the same whenever it is remembered, because a change forgets the indices of all graphs
around it: no lookup before a change shows in a lookup behind it. What is looked up is then what can
be read off the tree, and a value is taken from outside exactly when some slot in the tree says it
and no graph between that slot and the outside defines it.

## Main results

* `Indexed.Arises.faithful` -- whatever is remembered is right, after any lookups and changes.
* `Graph.mem_outerReferences_iff_slot` -- which values a graph takes from outside.
* `Indexed.Arises.lookups_exact` -- what is looked up.
-/

namespace TensorGraph

/-! ## Slots that nothing between defines -/

/-- Whether a node input or an output slot of the graph or of a body in it, at any depth, says a
value that no graph defines from the one that has the slot up to this one. -/
def Graph.HasOpenSlot (g : Graph) (value : String) : Prop :=
  ∃ trail holder, g.bodyAt? trail = some holder ∧
    (value ∈ holder.outputs ∨ ∃ n ∈ holder.nodes, value ∈ n.inputs) ∧
    ∀ upper, upper <+: trail → ∀ scope, g.bodyAt? upper = some scope → scope.defines value = false

namespace Graph

variable {g : Graph} {value : String}

/-- One step of the way up: the slot is in the graph itself or open in a body. -/
theorem hasOpenSlot_iff (hkeyed : ∀ n ∈ g.nodes, n.Keyed) : g.HasOpenSlot value ↔
    g.defines value = false ∧ (value ∈ g.outputs ∨ ∃ n ∈ g.nodes, value ∈ n.inputs ∨
      ∃ body ∈ n.bodies, body.2.HasOpenSlot value) := by
  constructor
  · rintro ⟨trail, holder, hholder, hslot, hopen⟩
    refine ⟨hopen [] List.nil_prefix g rfl, ?_⟩
    cases trail with
    | nil =>
        obtain rfl := Option.some.inj hholder
        exact hslot.imp_right fun ⟨n, hn, hin⟩ => ⟨n, hn, .inl hin⟩
    | cons step rest =>
        obtain ⟨place, key⟩ := step
        obtain ⟨body, ⟨n, hn, hmem⟩, hrest⟩ := (bodyAt?_cons hkeyed).1 hholder
        refine .inr ⟨n, List.mem_of_getElem? hn, .inr ⟨_, hmem, rest, holder, hrest, hslot, ?_⟩⟩
        intro upper hupper scope hscope
        exact hopen ((place, key) :: upper) ((List.prefix_cons_inj _).2 hupper) scope
          ((bodyAt?_cons hkeyed).2 ⟨body, ⟨n, hn, hmem⟩, hscope⟩)
  · rintro ⟨hdefines, hslot⟩
    have hhere {upper : Trail} (hupper : upper <+: []) {scope : Graph}
        (hscope : g.bodyAt? upper = some scope) : scope.defines value = false := by
      rw [List.prefix_nil.1 hupper] at hscope
      obtain rfl := Option.some.inj hscope
      exact hdefines
    rcases hslot with hout | ⟨n, hn, hin | ⟨⟨key, body⟩, hmem, trail, holder, hholder, hslot, hopen⟩⟩
    · exact ⟨[], g, rfl, .inl hout, fun _ hupper _ hscope => hhere hupper hscope⟩
    · exact ⟨[], g, rfl, .inr ⟨n, hn, hin⟩, fun _ hupper _ hscope => hhere hupper hscope⟩
    · obtain ⟨place, hplace⟩ := List.getElem?_of_mem hn
      refine ⟨(place, key) :: trail, holder,
        (bodyAt?_cons hkeyed).2 ⟨body, ⟨n, hplace, hmem⟩, hholder⟩, hslot, ?_⟩
      intro upper hupper scope hscope
      cases upper with
      | nil => exact hhere List.nil_prefix hscope
      | cons step rest =>
          obtain ⟨rfl, hrest⟩ := List.cons_prefix_cons.1 hupper
          obtain ⟨other, hother, hinner⟩ := (bodyAt?_cons hkeyed).1 hscope
          have hsame := (hasBody_iff hkeyed).1 hother
          rw [(hasBody_iff hkeyed).1 ⟨n, hplace, hmem⟩] at hsame
          obtain rfl := Option.some.inj hsame
          exact hopen rest hrest scope hinner

/-- A graph takes from outside what an open slot says. -/
theorem mem_outerReferences_iff_slot (hg : KeyedTree g) (hvalue : value ≠ "") :
    value ∈ g.outerReferences ↔ g.HasOpenSlot value := by
  induction g using bodyInduction with
  | step g ih =>
      have hbelow : ∀ n ∈ g.nodes, ∀ body ∈ n.bodies,
          (value ∈ body.2.outerReferences ↔ body.2.HasOpenSlot value) := fun n hn body hbody =>
        ih n hn body hbody (Everywhere.body hg hn hbody)
      rw [mem_outerReferences, hasOpenSlot_iff hg.here]
      constructor
      · rintro ⟨-, hdefines, hout | ⟨n, hn, hin | ⟨body, hbody, houter⟩⟩⟩
        · exact ⟨hdefines, .inl hout⟩
        · exact ⟨hdefines, .inr ⟨n, hn, .inl hin⟩⟩
        · exact ⟨hdefines, .inr ⟨n, hn, .inr ⟨body, hbody, (hbelow n hn body hbody).1 houter⟩⟩⟩
      · rintro ⟨hdefines, hout | ⟨n, hn, hin | ⟨body, hbody, hopen⟩⟩⟩
        · exact ⟨hvalue, hdefines, .inl hout⟩
        · exact ⟨hvalue, hdefines, .inr ⟨n, hn, .inl hin⟩⟩
        · exact ⟨hvalue, hdefines, .inr ⟨n, hn, .inr ⟨body, hbody, (hbelow n hn body hbody).2 hopen⟩⟩⟩

end Graph

namespace Indexed

variable {s new here : Indexed} {trail : Trail}

/-! ## Lookups in a tree that remembers what is right -/

/-- Whether every index that is remembered is that of its graph. -/
def Truthful (s : Indexed) : Prop :=
  ∀ trail g index, s.tree.bodyAt? trail = some g → s.known trail = some index → index = g.index

theorem Truthful.at? (hs : s.Truthful) (hat : s.at? trail = some here) : here.Truthful := by
  obtain ⟨g, hg, rfl⟩ := Option.map_eq_some_iff.1 hat
  intro rest inner index hinner hknown
  refine hs (trail ++ rest) inner index ?_ hknown
  rw [Graph.bodyAt?_append, hg]
  exact hinner

theorem Truthful.inside (hs : s.Truthful) (hkeyed : ∀ n ∈ s.tree.nodes, n.Keyed) {place : Nat}
    {key : String} {body : Graph} (hbody : s.tree.HasBody place key body) :
    (s.inside place key body).Truthful := fun rest inner index hinner hknown =>
  hs ((place, key) :: rest) inner index ((Graph.bodyAt?_cons hkeyed).2 ⟨body, hbody, hinner⟩) hknown

theorem Truthful.producerPlace?_eq (hs : s.Truthful) (value : String) :
    s.producerPlace? value = s.tree.producerPlace? value := by
  unfold producerPlace?
  cases hknown : s.known [] with
  | none => rfl
  | some index =>
      obtain rfl := hs [] s.tree index rfl hknown
      rfl

theorem Truthful.defines_eq (hs : s.Truthful) (name : String) :
    s.defines name = s.tree.defines name := by
  rw [defines, Graph.defines, hs.producerPlace?_eq, Graph.producer?_eq]
  cases hplace : s.tree.producerPlace? name with
  | none => rfl
  | some place =>
      obtain ⟨n, hn, -⟩ := Graph.producerPlace?_mem hplace
      simp [hn]

private theorem flatMap_zipIdx {α : Type} {nodes : List Node} {f : Node × Nat → List α}
    {f' : Node → List α}
    (h : ∀ place n, nodes[place]? = some n → f (n, place) = f' n) :
    nodes.zipIdx.flatMap f = nodes.flatMap f' := by
  rw [← List.zipIdx_map_fst 0 nodes, List.flatMap_map, List.zipIdx_map_fst]
  refine List.flatMap_congr fun host hhost => ?_
  exact h host.2 host.1 (List.mem_zipIdx_iff_getElem?.1 hhost)

/-- What a graph takes from outside is looked up rightly. -/
theorem Truthful.outerReferences_eq (hs : s.Truthful) (hkeyed : Graph.KeyedTree s.tree) :
    s.outerReferences = s.tree.outerReferences := by
  obtain ⟨g, known⟩ := s
  induction g using Graph.bodyInduction generalizing known with
  | step g ih =>
      have hbody {place : Nat} {n : Node} (hn : g.nodes[place]? = some n) {body : String × Graph}
          (hmem : body ∈ n.bodies) :
          ((Indexed.mk g known).inside place body.1 body.2).outerReferences =
            body.2.outerReferences := by
        have hstands : g.HasBody place body.1 body.2 := ⟨n, hn, hmem⟩
        exact ih n (List.mem_of_getElem? hn) body hmem _ (hs.inside hkeyed.here hstands)
          (hkeyed.body hstands)
      have hnodes : (g.nodes.zipIdx.flatMap fun host => host.1.inputs ++ host.1.bodies.flatMap
            fun body => ((Indexed.mk g known).inside host.2 body.1 body.2).outerReferences) =
          g.nodes.flatMap fun n => n.inputs ++ n.bodies.flatMap fun body => body.2.outerReferences :=
        flatMap_zipIdx fun place n hn =>
          congrArg (n.inputs ++ ·) (List.flatMap_congr fun body hmem => hbody hn hmem)
      rw [Indexed.outerReferences_eq, Graph.outerReferences_eq]
      simp only [hnodes, hs.defines_eq]

theorem Truthful.reads_eq (hs : s.Truthful) (hkeyed : Graph.KeyedTree s.tree) {place : Nat} {n : Node}
    (hn : s.tree.nodes[place]? = some n) : s.reads place n = n.reads := by
  refine congrArg (_ ++ ·) (List.flatMap_congr fun body hmem => ?_)
  have hstands : s.tree.HasBody place body.1 body.2 := ⟨n, hn, hmem⟩
  exact (hs.inside hkeyed.here hstands).outerReferences_eq (hkeyed.body hstands)

/-- An index that is made anew is right. -/
theorem Truthful.makeIndex_eq (hs : s.Truthful) (hkeyed : Graph.KeyedTree s.tree) :
    s.makeIndex = s.tree.index := by
  unfold makeIndex Graph.index Graph.readers
  congr 1
  funext value
  refine List.filter_congr fun place _ => ?_
  cases hn : s.tree.nodes[place]? with
  | none => rfl
  | some n => simp only [hs.reads_eq hkeyed hn]

theorem Truthful.index_eq (hs : s.Truthful) (hkeyed : Graph.KeyedTree s.tree) :
    s.index = s.tree.index := by
  unfold index
  cases hknown : s.known [] with
  | none => exact hs.makeIndex_eq hkeyed
  | some index => exact hs [] s.tree index rfl hknown

theorem Truthful.readers_eq (hs : s.Truthful) (hkeyed : Graph.KeyedTree s.tree) (value : String) :
    s.readers value = s.tree.readers value := by
  rw [readers, hs.index_eq hkeyed]
  rfl

/-! ## What no index depends on -/

section PutBody

variable {g old new : Graph} {place : Nat} {key : String} {value : String}

/-- What a graph takes from outside does not change when a body is replaced by one that takes the
same. -/
private theorem mem_outerReferences_putBody (hkeyed : ∀ n ∈ g.nodes, n.Keyed)
    (hbody : g.HasBody place key old)
    (hsame : ∀ value, value ∈ new.outerReferences ↔ value ∈ old.outerReferences) :
    value ∈ (g.putBody place key new).outerReferences ↔ value ∈ g.outerReferences := by
  refine ⟨(Graph.outerReferences_putBody hkeyed hbody (fun _ h => (hsame _).1 h) ·), fun hvalue => ?_⟩
  have hback : (g.putBody place key new).putBody place key old = g := by
    rw [Graph.putBody_putBody, hbody.putBody_self hkeyed]
  rw [← hback] at hvalue
  refine Graph.outerReferences_putBody (fun n hn => ?_) (hbody.putBody new)
    (fun _ h => (hsame _).2 h) hvalue
  obtain ⟨m, hm, -⟩ := hbody
  rcases (Graph.mem_nodes_putBody hm).1 hn with rfl | ⟨j, -, hj⟩
  · exact Node.keyed_rebodied.2 (hkeyed m (List.mem_of_getElem? hm))
  · exact hkeyed n (List.mem_of_getElem? hj)

/-- An index does not change either. -/
private theorem index_putBody (hkeyed : ∀ n ∈ g.nodes, n.Keyed) (hbody : g.HasBody place key old)
    (hsame : ∀ value, value ∈ new.outerReferences ↔ value ∈ old.outerReferences) :
    (g.putBody place key new).index = g.index := by
  have hproducers : (g.putBody place key new).producerPlace? = g.producerPlace? := by
    funext value
    have hmap (g : Graph) : g.producerPlace? value =
        (g.nodes.map Node.outputs).findIdx? fun outputs => value != "" && outputs.contains value := by
      rw [List.findIdx?_map]
      rfl
    rw [hmap, hmap, Graph.map_nodes_putBody fun _ => rfl]
  have hreaders : (g.putBody place key new).readers = g.readers := by
    obtain ⟨n, hn, hold⟩ := hbody
    have hlt := (List.getElem?_eq_some_iff.1 hn).1
    funext value
    unfold Graph.readers
    rw [Graph.putBody_eq hn, Graph.putNode, List.length_set]
    refine List.filter_congr fun other _ => ?_
    by_cases hother : other = place
    · subst hother
      rw [List.getElem?_set_self hlt, hn]
      simp only [List.contains_eq_mem,
        Node.reads_rebodied_iff (hkeyed n (List.mem_of_getElem? hn)) hold hsame]
    · rw [List.getElem?_set_ne fun e => hother e.symm]
  rw [Graph.index, Graph.index, hproducers, hreaders]

end PutBody

/-- Neither what a graph takes from outside nor its index depends on what is noted of values. -/
private theorem putAt_infos {g inner : Graph} (hg : Graph.KeyedTree g)
    (hat : g.bodyAt? trail = some inner) (infos : InfoTable) :
    (g.putAt trail { inner with infos }).index = g.index ∧
      ∀ value, value ∈ (g.putAt trail { inner with infos }).outerReferences ↔
        value ∈ g.outerReferences := by
  induction trail generalizing g with
  | nil =>
      obtain rfl := Option.some.inj hat
      refine ⟨rfl, fun value => ?_⟩
      rw [Graph.putAt, Graph.mem_outerReferences, Graph.mem_outerReferences]
      rfl
  | cons step rest ih =>
      obtain ⟨place, key⟩ := step
      obtain ⟨body, hbody, hrest⟩ := (Graph.bodyAt?_cons hg.here).1 hat
      have hfound := (Graph.hasBody_iff hg.here).1 hbody
      have hsame := (ih (hg.body hbody) hrest).2
      simp only [Graph.putAt, hfound]
      exact ⟨index_putBody hg.here hbody hsame, fun value =>
        mem_outerReferences_putBody hg.here hbody hsame⟩

theorem Truthful.annotate (hs : s.Truthful) (hkeyed : Graph.KeyedTree s.tree) (trail : Trail)
    (infos : InfoTable) : (s.annotate trail infos).Truthful := by
  intro other g index hg hknown
  cases hold : s.tree.bodyAt? trail with
  | none =>
      rw [Indexed.annotate, hold] at hg
      exact hs other g index hg hknown
  | some inner =>
      simp only [Indexed.annotate, hold] at hg hknown
      by_cases habove : other <+: trail
      · obtain ⟨lower, rfl⟩ := habove
        rw [Graph.bodyAt?_putAt_above hold] at hg
        obtain ⟨before, hbefore, rfl⟩ := Option.map_eq_some_iff.1 hg
        rw [Graph.bodyAt?_append, hbefore, Option.bind_some] at hold
        rw [hs other before index hbefore hknown,
          (putAt_infos (Graph.keyedTree_bodyAt? hkeyed hbefore) hold infos).1]
      · by_cases hbelow : trail <+: other
        · obtain ⟨lower, rfl⟩ := hbelow
          rw [Graph.bodyAt?_putAt_append hold] at hg
          refine hs (trail ++ lower) g index ?_ hknown
          rw [Graph.bodyAt?_append, hold, Option.bind_some]
          cases lower with
          | nil => simp at habove
          | cons step rest => exact hg
        · rw [Graph.bodyAt?_putAt_of_apart hbelow habove] at hg
          exact hs other g index hg hknown

/-! ## Lookups and changes -/

theorem keyedTree_at? (hkeyed : Graph.KeyedTree s.tree) (hat : s.at? trail = some here) :
    Graph.KeyedTree here.tree := by
  obtain ⟨g, hg, rfl⟩ := Option.map_eq_some_iff.1 hat
  exact Graph.keyedTree_bodyAt? hkeyed hg

theorem Truthful.remember (hs : s.Truthful) (hkeyed : Graph.KeyedTree s.tree) (trail : Trail) :
    (s.remember trail).Truthful := by
  intro other g index hg hknown
  by_cases hother : other = trail
  · subst hother
    have hat : s.at? other = some { tree := g, known := fun rest => s.known (other ++ rest) } :=
      Option.map_eq_some_iff.2 ⟨g, hg, rfl⟩
    simp only [Indexed.remember, if_true, hat, Option.map_some, Option.some.injEq] at hknown
    rw [← hknown, (hs.at? hat).index_eq (keyedTree_at? hkeyed hat)]
  · simp only [Indexed.remember, hother, if_false] at hknown
    exact hs other g index hg hknown

/-- What is still remembered after a change was right before, in a graph that has not changed. -/
theorem Truthful.put (hs : s.Truthful) (hnew : new.Truthful) (hat : s.at? trail = some here) :
    (s.put trail new).Truthful := by
  obtain ⟨old, hold, -⟩ := Option.map_eq_some_iff.1 hat
  intro other g index hg hknown
  simp only [Indexed.put] at hg hknown
  split at hknown
  · rename_i hbelow
    obtain ⟨rest, rfl⟩ := hbelow
    rw [List.drop_left] at hknown
    rw [Graph.bodyAt?_putAt_append hold] at hg
    exact hnew rest g index hg hknown
  · rename_i hbelow
    split at hknown
    · cases hknown
    · rename_i habove
      rw [Graph.bodyAt?_putAt_of_apart hbelow habove] at hg
      exact hs other g index hg hknown

/-- The trees that arise when graphs are made of others, looked up in and changed, at any depth. A
graph that is changed is made anew of what it has then: it has no index, and its bodies, the old
ones among them, remember what they did. -/
inductive Arises : Indexed → Prop
  | make {s : Indexed} (keyed : ∀ n ∈ s.tree.nodes, n.Keyed) (bare : s.known [] = none)
      (bodies : ∀ place key body, s.tree.HasBody place key body →
        Arises (s.inside place key body)) : Arises s
  | part {s here : Indexed} {trail : Trail} (whole : Arises s) (at? : s.at? trail = some here) :
      Arises here
  | lookup {s : Indexed} (before : Arises s) (trail : Trail) : Arises (s.remember trail)
  | change {s here new : Indexed} {trail : Trail} (before : Arises s) (at? : s.at? trail = some here)
      (made : Arises new) : Arises (s.put trail new)
  | note {s : Indexed} (before : Arises s) (trail : Trail) (infos : InfoTable) :
      Arises (s.annotate trail infos)

namespace Arises

theorem keyedTree (h : Arises s) : Graph.KeyedTree s.tree := by
  induction h with
  | make keyed _ _ ih =>
      refine .intro keyed fun n hn body hbody => ?_
      obtain ⟨place, hplace⟩ := List.getElem?_of_mem hn
      exact ih place body.1 body.2 ⟨n, hplace, hbody⟩
  | part _ hat ih => exact keyedTree_at? ih hat
  | lookup _ _ ih => exact ih
  | change _ _ _ ih ihnew => exact Graph.keyedTree_putAt ih ihnew
  | note _ trail infos ih =>
      unfold Indexed.annotate
      split
      · exact ih
      · rename_i inner hinner
        have hkeyed := Graph.keyedTree_bodyAt? ih hinner
        exact Graph.keyedTree_putAt ih (.intro hkeyed.here fun n hn body hbody =>
          Graph.Everywhere.body hkeyed hn hbody)

/-- Whatever is remembered is right. -/
theorem truthful (h : Arises s) : s.Truthful := by
  induction h with
  | @make s keyed bare _ ih =>
      intro trail g index hg hknown
      cases trail with
      | nil =>
          rw [bare] at hknown
          cases hknown
      | cons step rest =>
          obtain ⟨body, hbody, hinner⟩ := (Graph.bodyAt?_cons keyed).1 hg
          exact ih step.1 step.2 body hbody rest g index hinner hknown
  | part _ hat ih => exact ih.at? hat
  | lookup before trail ih => exact ih.remember before.keyedTree trail
  | change _ hat _ ih ihnew => exact ih.put ihnew hat
  | note before trail infos ih => exact ih.annotate before.keyedTree trail infos

/-- In every tree that arises, at every scope, what is taken from outside is what an open slot says,
and the readers of a value are, each once and in the order of the list, exactly the nodes that have
it as an input or whose bodies take it from outside. Both are what the tree itself says. -/
theorem lookups_exact (h : Arises s) (hat : s.at? trail = some here) {value : String}
    (hvalue : value ≠ "") :
    (value ∈ here.outerReferences ↔ here.tree.HasOpenSlot value) ∧
    (here.readers value).Pairwise (· < ·) ∧
    (∀ place, place ∈ here.readers value ↔ ∃ n, here.tree.nodes[place]? = some n ∧
      (value ∈ n.inputs ∨ ∃ body ∈ n.bodies,
        value ∈ (here.inside place body.1 body.2).outerReferences)) ∧
    here.outerReferences = here.tree.outerReferences ∧
    here.readers value = here.tree.readers value := by
  have harises := h.part hat
  have hkeyed := harises.keyedTree
  have hreferences := harises.truthful.outerReferences_eq hkeyed
  have hreaders := harises.truthful.readers_eq hkeyed value
  refine ⟨?_, ?_, fun place => ?_, hreferences, hreaders⟩
  · rw [hreferences]
    exact Graph.mem_outerReferences_iff_slot hkeyed hvalue
  · rw [hreaders]
    exact List.pairwise_lt_range.filter _
  · rw [hreaders, Graph.mem_readers]
    refine exists_congr fun n => and_congr_right fun hn => ?_
    rw [Node.mem_reads]
    refine or_congr (and_iff_left hvalue) (exists_congr fun body => and_congr_right fun hmem => ?_)
    have hstands : here.tree.HasBody place body.1 body.2 := ⟨n, hn, hmem⟩
    rw [(harises.truthful.inside hkeyed.here hstands).outerReferences_eq (hkeyed.body hstands)]
    rfl

/-- A node with a branch that yields a value from outside. -/
private def branching (value : String) : Graph where
  inputs := ["c", "x", "y"]
  outputs := ["r"]
  nodes :=
    [{ name := "choice", op := "If", inputs := ["c"], outputs := ["r"],
       attributes := [("then_branch", .body { outputs := [value] })] }]

private theorem made_leaf (value : String) :
    Arises { tree := { outputs := [value] }, known := fun _ => none } :=
  .make (by simp) rfl fun _ _ _ ⟨_, hn, _⟩ => by simp at hn

private theorem made_branching (value : String) :
    Arises { tree := branching value, known := fun _ => none } := by
  refine .make (by simp [branching, Node.Keyed]) rfl fun place key body ⟨n, hn, hmem⟩ => ?_
  obtain rfl := List.mem_singleton.1 (List.mem_of_getElem? hn)
  obtain ⟨rfl, rfl⟩ := Prod.mk.inj (List.mem_singleton.1 hmem)
  exact made_leaf value

/-- A tree whose graphs have all been looked up in before a body was changed. -/
private def rebranched : Indexed :=
  ((({ tree := branching "x", known := fun _ => none } : Indexed).remember []).remember
    [(0, "then_branch")]).put [(0, "then_branch")]
      { tree := { outputs := ["y"] }, known := fun _ => none }

private theorem arises_rebranched : Arises rebranched :=
  .change (((made_branching "x").lookup []).lookup [(0, "then_branch")]) rfl (made_leaf "y")

theorem lookups_exact_rebranched :
    Arises rebranched ∧ rebranched.at? [] = some rebranched ∧ "x" ≠ "" ∧ "y" ≠ "" ∧
    rebranched.readers "x" = [] ∧ rebranched.readers "y" = [0] ∧
    ("y" ∈ rebranched.outerReferences ↔ rebranched.tree.HasOpenSlot "y") := by
  have hx : "x" ≠ "" := by decide
  have hy : "y" ≠ "" := by decide
  have hat : rebranched.at? [] = some rebranched := rfl
  have hold := arises_rebranched.lookups_exact hat hx
  have hnew := arises_rebranched.lookups_exact hat hy
  refine ⟨arises_rebranched, hat, hx, hy, hold.2.2.2.2.trans ?_, hnew.2.2.2.2.trans ?_, hnew.1⟩
  · decide
  · decide

end Arises

end Indexed

end TensorGraph
