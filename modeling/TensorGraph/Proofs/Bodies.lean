import TensorGraph.Graph.Site
import TensorGraph.Proofs.Effects

/-!
# Bodies and their hosts

What is done to a body is done to the tree around it. Names that a body sees are the names that its
host and the graphs around the host mention, and as long as a body takes nothing more from them its
host stays as tidy as it was.

## Main results

* `Graph.TidyIn.inside` -- a body of a tidy graph is tidy in its surroundings.
* `Graph.TidyIn.putBody` -- a graph stays tidy when one of its bodies is replaced.
* `Rewriting.Edit.tidyIn` -- an edit keeps a graph tidy in its surroundings.
-/

namespace TensorGraph

/-! ## Another body under a key -/

/-- The node with another body under a key. -/
def Node.rebodied (key : String) (body : Graph) (n : Node) : Node :=
  { n with attributes := n.attributes.map fun (k, v) =>
      if k == key then (k, .body body) else (k, v) }

namespace Attributes

/-- Where keys are distinct, a body has its place among the attributes. -/
private theorem split_at_body {attributes : List (String × Attribute)} {key : String} {old : Graph}
    (hkeyed : (attributes.map Prod.fst).Nodup) (hold : (key, Attribute.body old) ∈ attributes) :
    ∃ before after, attributes = before ++ (key, .body old) :: after ∧ ∀ new : Graph,
      (attributes.map fun (k, v) => if k == key then (k, Attribute.body new) else (k, v)) =
        before ++ (key, .body new) :: after := by
  obtain ⟨before, after, rfl⟩ := List.append_of_mem hold
  refine ⟨before, after, rfl, fun new => ?_⟩
  rw [List.map_append, List.map_cons, List.nodup_append, List.nodup_cons] at hkeyed
  obtain ⟨-, ⟨hafter, -⟩, hbefore⟩ := hkeyed
  have hsame : ∀ entries : List (String × Attribute), key ∉ entries.map Prod.fst →
      (entries.map fun (k, v) => if k == key then (k, Attribute.body new) else (k, v)) = entries := by
    intro entries hnot
    refine (List.map_congr_left fun entry hentry => ?_).trans (List.map_id entries)
    have hne : entry.1 ≠ key := fun e => hnot (e ▸ List.mem_map_of_mem hentry)
    simp [hne]
  rw [List.map_append, List.map_cons, hsame before fun hmem => hbefore key hmem key (by simp) rfl,
    hsame after hafter]
  simp

end Attributes

namespace Node

variable {n : Node} {key : String} {old new : Graph}

@[simp] theorem results_rebodied : (n.rebodied key new).results = n.results := rfl

/-- The bodies before and after the one that is replaced. -/
theorem bodies_rebodied (hn : n.Keyed) (hold : (key, old) ∈ n.bodies) (new : Graph) :
    ∃ before after, n.bodies = before ++ (key, old) :: after ∧
      (n.rebodied key new).bodies = before ++ (key, new) :: after ∧
      ∀ body, body ∈ before ∨ body ∈ after → body.1 ≠ key := by
  obtain ⟨before, after, heq, hmap⟩ := Attributes.split_at_body hn (mem_bodies.1 hold)
  unfold Keyed at hn
  rw [heq, List.map_append, List.map_cons, List.nodup_append, List.nodup_cons] at hn
  obtain ⟨-, ⟨hafter, -⟩, hbefore⟩ := hn
  have hkey : ∀ (entries : List (String × Attribute)) (body : String × Graph),
      (body ∈ entries.filterMap fun (key, value) => value.body?.map (key, ·)) →
        body.1 ∈ entries.map Prod.fst := by
    intro entries body hbody
    obtain ⟨entry, hentry, hfound⟩ := List.mem_filterMap.1 hbody
    obtain ⟨found, -, rfl⟩ := Option.map_eq_some_iff.1 hfound
    exact List.mem_map_of_mem hentry
  refine ⟨_, _, by rw [bodies, heq, List.filterMap_append, List.filterMap_cons]; rfl, ?_, ?_⟩
  · rw [bodies, rebodied, hmap new, List.filterMap_append, List.filterMap_cons]
    rfl
  · rintro body (hbody | hbody) rfl
    · exact hbefore _ (hkey _ _ hbody) _ (by simp) rfl
    · exact hafter (hkey _ _ hbody)

theorem mem_bodies_rebodied (hn : n.Keyed) (hold : (key, old) ∈ n.bodies) {body : String × Graph} :
    body ∈ (n.rebodied key new).bodies ↔ body = (key, new) ∨ body ∈ n.bodies ∧ body.1 ≠ key := by
  obtain ⟨before, after, hbefore, hafter, hne⟩ := bodies_rebodied hn hold new
  rw [hbefore, hafter]
  simp only [List.mem_append, List.mem_cons]
  constructor
  · rintro (h | h | h)
    · exact .inr ⟨.inl h, hne body (.inl h)⟩
    · exact .inl h
    · exact .inr ⟨.inr (.inr h), hne body (.inr h)⟩
  · rintro (h | ⟨h | rfl | h, hkey⟩)
    · exact .inr (.inl h)
    · exact .inl h
    · exact absurd rfl hkey
    · exact .inr (.inr h)

/-- What a node reads after a body has been replaced, it read before, provided that the old body
takes it from outside if the new one does. -/
theorem mem_reads_of_rebodied (hn : n.Keyed) (hold : (key, old) ∈ n.bodies) {value : String}
    (houter : value ∈ new.outerReferences → value ∈ old.outerReferences)
    (h : value ∈ (n.rebodied key new).reads) : value ∈ n.reads := by
  rcases mem_reads.1 h with hin | ⟨body, hbody, hout⟩
  · exact mem_reads.2 (.inl hin)
  · rcases (mem_bodies_rebodied hn hold).1 hbody with rfl | ⟨hbody, -⟩
    · exact mem_reads.2 (.inr ⟨_, hold, houter hout⟩)
    · exact mem_reads.2 (.inr ⟨body, hbody, hout⟩)

theorem keyed_rebodied : (n.rebodied key new).Keyed ↔ n.Keyed := by
  unfold Keyed rebodied
  rw [List.map_map]
  have hfst : (Prod.fst ∘ fun (entry : String × Attribute) =>
      if entry.1 == key then (entry.1, Attribute.body new) else (entry.1, entry.2)) = Prod.fst := by
    funext entry
    simp only [Function.comp_apply]
    split <;> rfl
  rw [show (n.attributes.map (Prod.fst ∘ fun (entry : String × Attribute) =>
    if entry.1 == key then (entry.1, Attribute.body new) else (entry.1, entry.2))) =
      n.attributes.map Prod.fst from by rw [hfst]]

end Node

namespace Graph

/-- Whether a body stands under a key of the node at a place. -/
def HasBody (g : Graph) (place : Nat) (key : String) (body : Graph) : Prop :=
  ∃ n, g.nodes[place]? = some n ∧ (key, body) ∈ n.bodies

theorem putBody_eq {g : Graph} {place : Nat} {n : Node} (hn : g.nodes[place]? = some n)
    (key : String) (body : Graph) :
    g.putBody place key body = g.putNode place (n.rebodied key body) := by
  unfold putBody
  rw [hn]
  rfl

section PutBody

variable {g : Graph} {place : Nat} {key : String} {old new : Graph}

@[simp] theorem inputs_putBody : (g.putBody place key new).inputs = g.inputs := by
  unfold putBody; split <;> rfl

@[simp] theorem outputs_putBody : (g.putBody place key new).outputs = g.outputs := by
  unfold putBody; split <;> rfl

@[simp] theorem infos_putBody : (g.putBody place key new).infos = g.infos := by
  unfold putBody; split <;> rfl

theorem mem_nodes_putBody {n : Node} (hn : g.nodes[place]? = some n) {k : Node} :
    k ∈ (g.putBody place key new).nodes ↔
      k = n.rebodied key new ∨ ∃ j, j ≠ place ∧ g.nodes[j]? = some k := by
  rw [putBody_eq hn, putNode, mem_set_iff (List.getElem?_eq_some_iff.1 hn).1]

theorem mem_results_putBody {value : String} :
    value ∈ (g.putBody place key new).results ↔ value ∈ g.results := by
  cases hn : g.nodes[place]? with
  | none => simp [putBody, hn]
  | some n =>
      rw [mem_results, mem_results]
      constructor
      · rintro ⟨k, hk, hvalue⟩
        rcases (mem_nodes_putBody hn).1 hk with rfl | ⟨j, -, hj⟩
        · exact ⟨n, List.mem_of_getElem? hn, hvalue⟩
        · exact ⟨k, List.mem_of_getElem? hj, hvalue⟩
      · rintro ⟨k, hk, hvalue⟩
        rcases eq_or_elsewhere hn hk with rfl | hother
        · exact ⟨_, (mem_nodes_putBody hn).2 (.inl rfl), hvalue⟩
        · exact ⟨k, (mem_nodes_putBody hn).2 (.inr hother), hvalue⟩

@[simp] theorem defines_putBody (value : String) :
    (g.putBody place key new).defines value = g.defines value :=
  defines_congr (by simp) (fun _ => mem_results_putBody) value

theorem mentions_putBody {value : String} :
    (g.putBody place key new).Mentions value ↔ g.Mentions value := by
  unfold Mentions
  rw [defines_putBody]
  cases hn : g.nodes[place]? with
  | none => simp [putBody, hn]
  | some n =>
      refine or_congr_right (and_congr_right fun _ => ?_)
      constructor
      · rintro ⟨k, hk, hin⟩
        rcases (mem_nodes_putBody hn).1 hk with rfl | ⟨j, -, hj⟩
        · exact ⟨n, List.mem_of_getElem? hn, hin⟩
        · exact ⟨k, List.mem_of_getElem? hj, hin⟩
      · rintro ⟨k, hk, hin⟩
        rcases eq_or_elsewhere hn hk with rfl | hother
        · exact ⟨_, (mem_nodes_putBody hn).2 (.inl rfl), hin⟩
        · exact ⟨k, (mem_nodes_putBody hn).2 (.inr hother), hin⟩

end PutBody

end Graph

/-! ## Surroundings of bodies -/

namespace Surroundings

variable {s : Surroundings} {g : Graph} {place : Nat} {key : String}

theorem mentions_inside {value : String} :
    (s.inside g place key).mentions value ↔ g.takenIn s.mentions value := by
  simp [mentions, inside, Graph.takenIn, or_comm]

theorem Covers.inside (hs : s.Covers) : (s.inside g place key).Covers := by
  intro value hvalue
  rcases mentions_inside.1 hvalue with hvalue | hvalue
  · exact List.mem_append_left _ (hs value hvalue)
  · refine List.mem_append_right _ (Graph.mem_names_of_mentions ?_)
    -- without the body the nodes still yield and take in the same values
    have hback : ∀ n ∈ g.nodes, ∃ m ∈ (g.nodes.zipIdx.map fun p =>
        if p.2 = place then
          { p.1 with attributes := p.1.attributes.filter fun entry => entry.1 != key }
        else p.1), m.results = n.results ∧ m.inputs = n.inputs := by
      intro n hn
      obtain ⟨i, hi⟩ := List.getElem?_of_mem hn
      refine ⟨_, List.mem_map.2 ⟨(n, i), List.mem_zipIdx_iff_getElem?.2 hi, rfl⟩, ?_⟩
      simp only
      split <;> exact ⟨rfl, rfl⟩
    rcases hvalue with hdef | ⟨hne, n, hn, hin⟩
    · rcases Graph.defines_iff.1 hdef with hin | hresult
      · exact .inl (Graph.defines_iff.2 (.inl hin))
      · obtain ⟨n, hn, hvn⟩ := Graph.mem_results.1 hresult
        obtain ⟨m, hm, hresults, -⟩ := hback n hn
        exact .inl (Graph.defines_iff.2 (.inr (Graph.mem_results.2 ⟨m, hm, hresults ▸ hvn⟩)))
    · obtain ⟨m, hm, -, hinputs⟩ := hback n hn
      exact .inr ⟨hne, m, hm, hinputs ▸ hin⟩

end Surroundings

namespace Graph

/-- Whether a tree is tidy in its surroundings. -/
structure TidyIn (s : Surroundings) (g : Graph) : Prop where
  covers : s.Covers
  tree : TidyTree s.mentions g

/-- Whether a graph takes no more from around it than another one does. -/
def TakesNoMore (s : Surroundings) (g h : Graph) : Prop :=
  ∀ value ∈ h.outerReferences, s.mentions value → value ∈ g.outerReferences

theorem TakesNoMore.refl (s : Surroundings) (g : Graph) : TakesNoMore s g g := fun _ h _ => h

theorem TakesNoMore.trans {s : Surroundings} {g h k : Graph} (h₁ : TakesNoMore s g h)
    (h₂ : TakesNoMore s h k) : TakesNoMore s g k :=
  fun value hvalue hseen => h₁ value (h₂ value hvalue hseen) hseen

namespace TidyIn

variable {s : Surroundings} {g : Graph} {place : Nat} {key : String} {old new : Graph}

/-- What an enclosing graph mentions is not defined. -/
theorem not_defines (hg : TidyIn s g) {value : String} (hseen : s.mentions value) :
    g.defines value = false := by
  rw [← Bool.not_eq_true, defines_iff]
  rintro (hin | hresult)
  · exact hg.tree.here.newInputs value hin hseen
  · exact hg.tree.here.newResults value hresult hseen

/-- A body of a tidy graph is tidy in its surroundings. -/
theorem inside (hg : TidyIn s g) (hbody : g.HasBody place key old) :
    TidyIn (s.inside g place key) old := by
  obtain ⟨n, hn, hmem⟩ := hbody
  have htree : TidyTree (g.takenIn s.mentions) old := hg.tree.body (List.mem_of_getElem? hn) hmem
  exact ⟨hg.covers.inside, htree.of_scope fun _ _ => Surroundings.mentions_inside.1⟩

private theorem mem_reads_rebodied (hg : TidyIn s g) {n : Node} (hn : g.nodes[place]? = some n)
    (hold : (key, old) ∈ n.bodies) (hmore : TakesNoMore (s.inside g place key) old new)
    {value : String} (hseen : g.takenIn s.mentions value)
    (hread : value ∈ (n.rebodied key new).reads) : value ∈ n.reads :=
  Node.mem_reads_of_rebodied (hg.tree.here.keyed n (List.mem_of_getElem? hn)) hold
    (fun hout => hmore value hout (Surroundings.mentions_inside.2 hseen)) hread

/-- A graph stays tidy when one of its bodies is replaced by one that takes no more from
around it. -/
theorem putBody (hg : TidyIn s g) (hbody : g.HasBody place key old)
    (hnew : TidyIn (s.inside g place key) new)
    (hmore : TakesNoMore (s.inside g place key) old new) : TidyIn s (g.putBody place key new) := by
  obtain ⟨n, hn, hold⟩ := hbody
  have hkeyed := hg.tree.here.keyed n (List.mem_of_getElem? hn)
  refine ⟨hg.covers, .intro ?_ fun k hk body hbody => ?_⟩
  · have hnodes := congrArg Graph.nodes (putBody_eq hn key new)
    refine hg.tree.here.set hn (k := n.rebodied key new) rfl rfl (fun value hspare => ?_)
      Node.keyed_rebodied.2 inputs_putBody outputs_putBody hnodes
    obtain ⟨k, hk, -, -, hvalue, -⟩ := hspare.gather
    have hseen : g.takenIn s.mentions value :=
      .inr (.inl (defines_iff.2 (.inr (Graph.mem_results.2 ⟨k, hk, hvalue⟩))))
    exact ⟨rfl, fun _ => rfl, id, hg.mem_reads_rebodied hn hold hmore hseen, Iff.rfl⟩
  · have hscope : ∀ body : Graph, TidyTree (g.takenIn s.mentions) body →
        TidyTree ((g.putBody place key new).takenIn s.mentions) body := fun body htree =>
      htree.of_scope fun _ _ => Or.imp_right mentions_putBody.1
    rcases (mem_nodes_putBody hn).1 hk with rfl | ⟨j, -, hj⟩
    · rcases (Node.mem_bodies_rebodied hkeyed hold).1 hbody with rfl | ⟨hbody, -⟩
      · exact hscope _ (hnew.tree.of_scope fun _ _ => Surroundings.mentions_inside.2)
      · exact hscope _ (hg.tree.body (List.mem_of_getElem? hn) hbody)
    · exact hscope _ (hg.tree.body (List.mem_of_getElem? hj) hbody)

theorem takesNoMore_putBody (hg : TidyIn s g) (hbody : g.HasBody place key old)
    (hmore : TakesNoMore (s.inside g place key) old new) :
    TakesNoMore s g (g.putBody place key new) := by
  obtain ⟨n, hn, hold⟩ := hbody
  intro value hvalue hseen
  obtain ⟨hundefined, hused⟩ := mem_outerReferences_iff.1 hvalue
  rw [defines_putBody] at hundefined
  refine mem_outerReferences_iff.2 ⟨hundefined, ?_⟩
  rcases hused with ⟨hyielded, hne⟩ | ⟨k, hk, hread⟩
  · exact .inl ⟨by simpa using hyielded, hne⟩
  · rcases (mem_nodes_putBody hn).1 hk with rfl | ⟨j, -, hj⟩
    · exact .inr ⟨n, List.mem_of_getElem? hn, hg.mem_reads_rebodied hn hold hmore (.inl hseen) hread⟩
    · exact .inr ⟨k, List.mem_of_getElem? hj, hread⟩

end TidyIn

end Graph

/-! ## Edits in surroundings -/

namespace Rewriting

open TensorGraph.Graph

variable {s : Surroundings} {g h : Graph} {kind : Kind}

/-- An edit keeps a graph tidy in its surroundings. -/
theorem Edit.tidyIn (he : Edit s g kind h) (hg : TidyIn s g) : TidyIn s h :=
  ⟨hg.covers, (he.effect hg.tree.here).tidyTree hg.tree hg.covers⟩

/-- After an edit a graph takes no more from around it. -/
theorem Edit.takesNoMore (he : Edit s g kind h) (hg : TidyIn s g) : TakesNoMore s g h := by
  intro value hvalue hseen
  refine ((he.effect hg.tree.here).mem_outerReferences hg.tree hg.covers hvalue).resolve_right ?_
  rw [hg.not_defines hseen]
  decide

end Rewriting

end TensorGraph
