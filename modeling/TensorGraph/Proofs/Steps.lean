import TensorGraph.Proofs.Bodies

/-!
# Rewrites in a tree of graphs

A pass rewrites one graph of a tree at a time. What it does to a graph in its surroundings is a
`Rewrite`; what it does to the tree is the same done `Within` the tree, to the root or to a body
at any depth. Between rewrites the nodes of a graph may be sorted.

## Main results

* `Rewriting.Rewrite.edits` -- a rewrite is a handful of edits.
* `Rewriting.Run.tidyIn` -- a tree stays tidy in the course of a run.
* `Rewriting.Run.inside` -- a run in a body is a run of the tree.
-/

namespace TensorGraph

/-! ## Putting bodies back -/

namespace Node

variable {n : Node} {key : String} {old new : Graph}

theorem rebodied_self (hn : n.Keyed) (hold : (key, old) ∈ n.bodies) : n.rebodied key old = n := by
  cases n
  unfold rebodied
  congr 1
  refine (List.map_congr_left fun entry hentry => ?_).trans (List.map_id _)
  by_cases hkey : entry.1 = key
  · have heq : entry = (key, .body old) :=
      List.inj_on_of_nodup_map hn hentry (mem_bodies.1 hold) hkey
    simp [heq]
  · simp [hkey]

theorem rebodied_rebodied : (n.rebodied key old).rebodied key new = n.rebodied key new := by
  unfold rebodied
  simp only [List.map_map]
  congr 1
  refine List.map_congr_left fun entry _ => ?_
  by_cases hkey : entry.1 = key <;> simp [hkey]

theorem mem_bodies_rebodied_self (hold : (key, old) ∈ n.bodies) :
    (key, new) ∈ (n.rebodied key new).bodies :=
  mem_bodies.2 (List.mem_map.2 ⟨_, mem_bodies.1 hold, by simp⟩)

/-- A node reads the same when one of its bodies takes the same from outside. -/
theorem reads_rebodied_iff (hn : n.Keyed) (hold : (key, old) ∈ n.bodies)
    (houter : ∀ name, name ∈ new.outerReferences ↔ name ∈ old.outerReferences) (name : String) :
    name ∈ (n.rebodied key new).reads ↔ name ∈ n.reads :=
  ⟨mem_reads_of_rebodied hn hold (houter name).1, fun hread =>
    mem_reads_of_rebodied (keyed_rebodied.2 hn) (mem_bodies_rebodied_self hold) (houter name).2
      (by rwa [rebodied_rebodied, rebodied_self hn hold])⟩

end Node

namespace Graph

variable {g : Graph} {place : Nat} {key : String} {old new : Graph}

private theorem getElem?_putBody_self {n : Node} (hn : g.nodes[place]? = some n) :
    (g.putBody place key new).nodes[place]? = some (n.rebodied key new) := by
  rw [putBody_eq hn]
  exact List.getElem?_set_self (List.getElem?_eq_some_iff.1 hn).1

theorem HasBody.putBody_self (h : g.HasBody place key old) (hkeyed : ∀ n ∈ g.nodes, n.Keyed) :
    g.putBody place key old = g := by
  obtain ⟨n, hn, hold⟩ := h
  obtain ⟨hlt, rfl⟩ := List.getElem?_eq_some_iff.1 hn
  rw [putBody_eq hn, Node.rebodied_self (hkeyed _ (List.getElem_mem hlt)) hold, putNode,
    List.set_getElem_self]
  cases g
  rfl

theorem putBody_putBody :
    (g.putBody place key old).putBody place key new = g.putBody place key new := by
  cases hn : g.nodes[place]? with
  | none => simp [putBody, hn]
  | some n =>
      rw [putBody_eq (getElem?_putBody_self hn), putBody_eq hn, putBody_eq hn,
        Node.rebodied_rebodied, putNode, putNode, putNode, List.set_set]

theorem HasBody.putBody (h : g.HasBody place key old) (new : Graph) :
    (g.putBody place key new).HasBody place key new := by
  obtain ⟨n, hn, hold⟩ := h
  exact ⟨_, getElem?_putBody_self hn, Node.mem_bodies_rebodied_self hold⟩

/-- What a body is after one has been put in: that one, or another one from before. -/
theorem HasBody.of_putBody (h : g.HasBody place key old) (hkeyed : ∀ n ∈ g.nodes, n.Keyed)
    {place' : Nat} {key' : String} {body : Graph}
    (hbody : (g.putBody place key new).HasBody place' key' body) :
    place' = place ∧ key' = key ∧ body = new ∨
      (place' ≠ place ∨ key' ≠ key) ∧ g.HasBody place' key' body := by
  obtain ⟨n, hn, hold⟩ := h
  obtain ⟨k, hk, hmem⟩ := hbody
  rw [putBody_eq hn, putNode] at hk
  by_cases hplace : place' = place
  · subst hplace
    rw [List.getElem?_set_self (List.getElem?_eq_some_iff.1 hn).1] at hk
    obtain rfl := Option.some.inj hk
    rcases (Node.mem_bodies_rebodied (hkeyed n (List.mem_of_getElem? hn)) hold).1 hmem with
      heq | ⟨hmem, hne⟩
    · cases heq
      exact .inl ⟨rfl, rfl, rfl⟩
    · exact .inr ⟨.inr hne, n, hn, hmem⟩
  · rw [List.getElem?_set_ne fun e => hplace e.symm] at hk
    exact .inr ⟨.inl hplace, k, hk, hmem⟩

/-- Another body stays where it is. -/
theorem HasBody.putBody_of_ne {place' : Nat} {key' : String} {other : Graph}
    (h : g.HasBody place' key' other) (hne : place' ≠ place ∨ key' ≠ key) :
    (g.putBody place key new).HasBody place' key' other := by
  obtain ⟨n, hn, hmem⟩ := h
  by_cases hplace : place' = place
  · subst hplace
    refine ⟨_, getElem?_putBody_self hn, Node.mem_bodies.2 ?_⟩
    refine List.mem_map.2 ⟨_, Node.mem_bodies.1 hmem, ?_⟩
    simp [hne.resolve_left (fun e => e rfl)]
  · refine ⟨n, ?_, hmem⟩
    cases hm : g.nodes[place]? with
    | none => simpa [Graph.putBody, hm] using hn
    | some m =>
        rw [putBody_eq hm, putNode, List.getElem?_set_ne (fun e => hplace e.symm)]
        exact hn

end Graph

namespace Rewriting

open TensorGraph.Graph

variable {s : Surroundings} {g h : Graph}

/-! ## Single rewrites -/

theorem Tidying.tidyIn (he : Tidying s g h) (hg : TidyIn s g) : TidyIn s h := by
  induction he with
  | refl => exact hg
  | tail _ hstep ih =>
      obtain ⟨kind, -, hedit⟩ := hstep
      exact hedit.tidyIn ih

theorem Tidying.takesNoMore (he : Tidying s g h) (hg : TidyIn s g) : TakesNoMore s g h := by
  induction he with
  | refl => exact .refl s g
  | tail hsteps hstep ih =>
      obtain ⟨kind, -, hedit⟩ := hstep
      exact ih.trans (hedit.takesNoMore (Tidying.tidyIn hsteps hg))

/-- What a pass does at once to a graph in its surroundings: a rule is applied to a transposition
after the nodes were found to have an order, an identity is removed, or a node is removed that
nothing needs. -/
inductive Rewrite (s : Surroundings) (g : Graph) : Graph → Prop
  | transposition {order : List Nat} {place : Nat} {n : Node} {after : Graph} {rule : String}
      (ordered : g.topologicalOrder = .ok order) (node : g.nodes[place]? = some n)
      (treated : Transposes.treat s g place n = .ok (some (after, rule))) : Rewrite s g after
  | identity {place : Nat} {n : Node} {after : Graph} {how : Identities.Removal}
      (node : g.nodes[place]? = some n) (op : n.op = "Identity")
      (eliminated : Identities.eliminate s g { node := n, place := some place } =
        .ok (some (after, how))) : Rewrite s g after
  | deadNode {place : Nat} {after : Graph} (removed : g.removeUnreferenced? place = some after) :
      Rewrite s g after

/-- A rewrite is a rule for transpositions, or one removal. -/
theorem Rewrite.edits (hr : Rewrite s g h) (hg : TidyIn s g) :
    g.Acyclic ∧ Treated s g h ∨
      ∃ kind, (kind = .removal ∨ kind = .cleanup) ∧ Edit s g kind h := by
  cases hr with
  | transposition ordered node treated =>
      have ha := Acyclic.of_topologicalOrder hg.tree.here ordered
      exact .inl ⟨ha, Transposes.treat_edits hg.tree.here ha node treated⟩
  | identity node op eliminated =>
      exact .inr ⟨.removal, .inl rfl, Identities.eliminate_edit node op eliminated⟩
  | deadNode removed => exact .inr ⟨.cleanup, .inr rfl, .remove removed⟩

/-- The nodes of a graph are put in order. -/
def Sorted (_ : Surroundings) (g h : Graph) : Prop := g.sortTopologically = .ok h

/-! ## Steps that keep trees tidy -/

/-- Whether steps keep graphs tidy and have them take nothing more from around them. -/
def Preserving (R : Surroundings → Graph → Graph → Prop) : Prop :=
  ∀ s g h, R s g h → TidyIn s g → TidyIn s h ∧ TakesNoMore s g h

theorem preserving_rewrite : Preserving Rewrite := by
  intro s g h hr hg
  rcases hr.edits hg with ⟨-, htreated⟩ | ⟨kind, -, hedit⟩
  · obtain ⟨kind, between, -, hedit, hrest⟩ := htreated.edits
    have hbetween := hedit.tidyIn hg
    exact ⟨Tidying.tidyIn hrest hbetween,
      (hedit.takesNoMore hg).trans (Tidying.takesNoMore hrest hbetween)⟩
  · exact ⟨hedit.tidyIn hg, hedit.takesNoMore hg⟩

/-- A step on a graph in its surroundings, or on one below it. The graph around a body is seen as
it was when the body was entered, so another body may be `shown` in its place. -/
inductive Within (R : Surroundings → Graph → Graph → Prop) : Surroundings → Graph → Graph → Prop
  | here {s : Surroundings} {g h : Graph} (step : R s g h) : Within R s g h
  | inside {s : Surroundings} {g : Graph} {place : Nat} {key : String} {old new : Graph}
      (body : g.HasBody place key old) (shown : Graph)
      (step : Within R (s.inside (g.putBody place key shown) place key) old new) :
      Within R s g (g.putBody place key new)

section Within

variable {R : Surroundings → Graph → Graph → Prop} {place : Nat} {key : String} {old new shown : Graph}

/-- Whatever stands in a body's place, the graphs around it mention the same names. -/
private theorem mentions_shown {value : String} :
    (s.inside (g.putBody place key shown) place key).mentions value ↔
      (s.inside g place key).mentions value := by
  rw [Surroundings.mentions_inside, Surroundings.mentions_inside]
  exact or_congr_right mentions_putBody

theorem tidyIn_shown (hg : TidyIn s g) (body : g.HasBody place key old) :
    TidyIn (s.inside (g.putBody place key shown) place key) old :=
  ⟨hg.covers.inside, (hg.inside body).tree.of_scope fun _ _ => mentions_shown.1⟩

/-- Steps in bodies keep the whole tree tidy. -/
theorem Preserving.within (hR : Preserving R) : Preserving (Within R) := by
  intro s g h hstep
  induction hstep with
  | here step => exact hR _ _ _ step
  | inside body shown step ih =>
      intro hg
      obtain ⟨hnew, hmore⟩ := ih (tidyIn_shown hg body)
      have hnew : TidyIn (Surroundings.inside _ _ _ _) _ :=
        ⟨hg.covers.inside, hnew.tree.of_scope fun _ _ => mentions_shown.2⟩
      have hmore : TakesNoMore (Surroundings.inside _ _ _ _) _ _ := fun value hvalue hseen =>
        hmore value hvalue (mentions_shown.2 hseen)
      exact ⟨hg.putBody body hnew hmore, hg.takesNoMore_putBody body hmore⟩

end Within

/-- A graph takes the same from outside when its nodes have another order. -/
theorem outerReferences_subset_of_perm {nodes : List Node} (hperm : nodes.Perm g.nodes) :
    ({ g with nodes } : Graph).outerReferences ⊆ g.outerReferences := by
  intro value hvalue
  obtain ⟨hdef, hused⟩ := mem_outerReferences_iff.1 hvalue
  refine mem_outerReferences_iff.2 ⟨?_, hused.imp_right ?_⟩
  · have hresults : ∀ result, result ∈ g.results ↔ result ∈ ({ g with nodes } : Graph).results := by
      intro result
      rw [mem_results, mem_results]
      exact exists_congr fun n => and_congr_left fun _ => hperm.mem_iff.symm
    exact (defines_congr (h := { g with nodes }) (g := g) rfl hresults value).trans hdef
  · exact fun ⟨n, hn, hread⟩ => ⟨n, hperm.mem_iff.1 hn, hread⟩

theorem preserving_sorted : Preserving Sorted := by
  intro s g h hsort hg
  obtain ⟨nodes, hperm, rfl⟩ := sortTopologically_ok hsort
  exact ⟨⟨hg.covers, hg.tree.of_subperm hperm.subperm rfl rfl⟩,
    fun _ hvalue _ => outerReferences_subset_of_perm hperm hvalue⟩

/-! ## Runs -/

/-- Rewrites in a tree one after another, so many of them, with nodes sorted in between. -/
inductive Run (s : Surroundings) (g : Graph) : Nat → Graph → Prop
  | start : Run s g 0 g
  | rewrite {count : Nat} {h h' : Graph} (before : Run s g count h) (step : Within Rewrite s h h') :
      Run s g (count + 1) h'
  | sort {count : Nat} {h h' : Graph} (before : Run s g count h) (step : Within Sorted s h h') :
      Run s g count h'

namespace Run

variable {count more : Nat} {k : Graph}

theorem trans (h₁ : Run s g count h) (h₂ : Run s h more k) : Run s g (count + more) k := by
  induction h₂ with
  | start => exact h₁
  | rewrite _ step ih => exact .rewrite ih step
  | sort _ step ih => exact .sort ih step

theorem preserves (hr : Run s g count h) (hg : TidyIn s g) : TidyIn s h ∧ TakesNoMore s g h := by
  induction hr with
  | start => exact ⟨hg, .refl s g⟩
  | rewrite _ step ih =>
      obtain ⟨hafter, hmore⟩ := preserving_rewrite.within _ _ _ step ih.1
      exact ⟨hafter, ih.2.trans hmore⟩
  | sort _ step ih =>
      obtain ⟨hafter, hmore⟩ := preserving_sorted.within _ _ _ step ih.1
      exact ⟨hafter, ih.2.trans hmore⟩

/-- A tree stays tidy in the course of a run. -/
theorem tidyIn (hr : Run s g count h) (hg : TidyIn s g) : TidyIn s h := (hr.preserves hg).1

/-- A run in a body is a run of the tree. -/
theorem inside {place : Nat} {key : String} {old new : Graph} (hg : TidyIn s g)
    (hbody : g.HasBody place key old) (hr : Run (s.inside g place key) old count new) :
    Run s g count (g.putBody place key new) := by
  have hself := hbody.putBody_self hg.tree.here.keyed
  -- the body was entered when the old one stood there
  have hshown : ∀ between : Graph,
      s.inside ((g.putBody place key between).putBody place key old) place key =
        s.inside g place key := fun between => by rw [putBody_putBody, hself]
  induction hr with
  | start =>
      rw [hself]
      exact .start
  | @rewrite _ h h' _ step ih =>
      have hwithin := Within.inside (hbody.putBody h) old ((hshown h).symm ▸ step)
      rw [putBody_putBody] at hwithin
      exact .rewrite ih hwithin
  | @sort _ h h' _ step ih =>
      have hwithin := Within.inside (hbody.putBody h) old ((hshown h).symm ▸ step)
      rw [putBody_putBody] at hwithin
      exact .sort ih hwithin

end Run

end Rewriting

end TensorGraph
