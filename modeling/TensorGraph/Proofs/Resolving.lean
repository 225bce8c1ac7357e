import TensorGraph.Proofs.Effects

/-!
# Names stay resolved

An edit takes no definition away that is still in use, provided that only loops and branches own
bodies: an operator with a body of its own might carry a name to where nothing defines it. So a
graph takes nothing from around it after an edit that it did not take from there before.

## Main results

* `Rewriting.Effect.hosted` -- after an edit still only loops and branches own bodies.
* `Rewriting.Effect.defines_of_uses` -- what is in use after an edit has kept its definition.
* `Rewriting.Effect.outerReferences_subset` -- an edit makes a graph take nothing more from outside.
-/

namespace TensorGraph

namespace Graph

/-! ## Owners of bodies -/

/-- Whether only loops and branches own bodies. -/
def Hosted (g : Graph) : Prop := ∀ n ∈ g.nodes, n.bodies ≠ [] → n.op = "Loop" ∨ n.op = "If"

theorem Hosted.bodies_eq_nil {g : Graph} (hg : g.Hosted) {n : Node} (hn : n ∈ g.nodes)
    (hloop : n.op ≠ "Loop") (hif : n.op ≠ "If") : n.bodies = [] := by
  by_contra hbodies
  exact (hg n hn hbodies).elim hloop hif

/-- Operators that let transpositions through own no bodies. -/
theorem Hosted.bodies_eq_nil_of_transparent {g : Graph} (hg : g.Hosted) {n : Node}
    (hn : n ∈ g.nodes) (hop : Capability.isTransparent n.op = true) : n.bodies = [] := by
  refine hg.bodies_eq_nil hn ?_ ?_ <;> intro he <;> rw [he] at hop <;> exact absurd hop (by decide)

/-- Nodes own no other bodies than nodes with the same operator before. -/
theorem Hosted.of_nodes {g h : Graph} (hg : g.Hosted)
    (hnodes : ∀ m ∈ h.nodes, m.bodies = [] ∨
      ∃ n ∈ g.nodes, m.op = n.op ∧ (n.bodies = [] → m.bodies = [])) : h.Hosted := by
  intro m hm hbodies
  obtain ⟨n, hn, hop, hempty⟩ := (hnodes m hm).resolve_left hbodies
  rw [hop]
  exact hg n hn fun h => hbodies (hempty h)

/-! ## What removals leave -/

/-- What is used beside a node that goes has not been yielded by it. -/
theorem defines_of_removed {g h : Graph} {place : Nat} {value : String}
    (hr : g.removeUnreferenced? place = some h) (hused : h.Uses value)
    (hdef : g.defines value = true) : h.defines value = true := by
  obtain ⟨n, hn, hunused, rfl⟩ := removeUnreferenced?_eq_some hr
  rcases defines_iff.1 hdef with hin | hresult
  · exact defines_iff.2 (.inl hin)
  · obtain ⟨m, hm, hvalue⟩ := mem_results.1 hresult
    rcases eq_or_elsewhere hn hm with rfl | hother
    · have hfree := hunused value (Node.mem_results.1 hvalue).1
      simp only [isUsedBeside, Bool.or_eq_false_iff, List.any_eq_false] at hfree
      have hnot : value ∉ g.outputs := by simpa [isOutput] using hfree.1
      rcases hused with ⟨hout, -⟩ | ⟨k, hk, hread⟩
      · exact absurd hout hnot
      · obtain ⟨i, hi, hk⟩ := List.mem_eraseIdx_iff_getElem?.1 hk
        exact absurd hi (by simpa using hfree.2 i (mem_readers.2 ⟨k, hk, hread⟩))
    · refine defines_iff.2 (.inr (mem_results.2 ⟨m, ?_, hvalue⟩))
      exact List.mem_eraseIdx_iff_getElem?.2 hother

theorem uses_of_removed {g h : Graph} {place : Nat} {value : String}
    (hr : g.removeUnreferenced? place = some h) (hused : h.Uses value) : g.Uses value := by
  obtain ⟨n, -, -, rfl⟩ := removeUnreferenced?_eq_some hr
  exact hused.imp_right fun ⟨k, hk, hread⟩ => ⟨k, List.mem_of_mem_eraseIdx hk, hread⟩

end Graph

namespace Relocation

open TensorGraph.Graph Transposes

namespace Absorbing

variable {names : List String} {g h : Graph} {place later : Option Nat} {value : String}

theorem uses (ha : Absorbing names g place h later) (hused : h.Uses value) : g.Uses value := by
  induction ha with
  | done => exact hused
  | keep _ ih => exact ih hused
  | drop _ removed _ ih => exact uses_of_removed removed (ih hused)

theorem defines_of_uses (ha : Absorbing names g place h later) (hused : h.Uses value)
    (hdef : g.defines value = true) : h.defines value = true := by
  induction ha with
  | done => exact hdef
  | keep _ ih => exact ih hused hdef
  | drop _ removed next ih => exact ih hused (defines_of_removed removed (next.uses hused) hdef)

end Absorbing

namespace Moved

variable {taken : String → Prop} {s : Surroundings} {g arranged detached cleaned moved : Graph}
  {t : PlacedTranspose} {place : Nat} {consumer : Node} {policy : ConstantPolicy}
  {attributes : List (String × Attribute)} {p : Plan} {placed : List (String × String)}
  {rebuiltPlace : Nat} {value : String}

private theorem uses_cleaned (hm : Moved s g t.place t.node place consumer t.perm attributes p
      arranged detached cleaned placed rebuiltPlace moved)
    (hrebuilt : cleaned.nodes[rebuiltPlace]? =
      some (rebuiltNode consumer attributes p.operands placed))
    (hbodies : t.node.bodies = []) (hne : value ≠ t.output) (hused : moved.Uses value) :
    cleaned.Uses value := by
  rw [hm.swap] at hused
  refine hused.imp_right fun ⟨k, hk, hread⟩ => ?_
  rcases List.mem_append.1 hk with hk | hk
  · rcases (mem_set_iff (List.getElem?_eq_some_iff.1 hrebuilt).1).1 hk with rfl | ⟨j, -, hj⟩
    · exact ⟨_, List.mem_of_getElem? hrebuilt, hread⟩
    · exact ⟨k, List.mem_of_getElem? hj, hread⟩
  · obtain rfl := List.mem_singleton.1 hk
    rcases Node.mem_reads.1 hread with ⟨hin, -⟩ | ⟨body, hbody, -⟩
    · exact absurd (List.mem_singleton.1 hin) hne
    · have hold : body ∈ t.node.bodies :=
        Node.mem_bodies.2 (Attributes.mem_of_mem_set rfl (Node.mem_bodies.1 hbody))
      rw [hbodies] at hold
      cases hold

/-- What is in use after a relocation has kept its definition. -/
theorem defines_of_uses (hm : Moved s g t.place t.node place consumer t.perm attributes p arranged
      detached cleaned placed rebuiltPlace moved)
    (hr : Relocatable s g t place consumer policy attributes p) (hg : TidyTree taken g)
    (hcovers : ∀ value, taken value → value ∈ s.reserved) (hbodies : t.node.bodies = [])
    (hused : moved.Uses value) (hdef : g.defines value = true) : moved.defines value = true := by
  have hrelocated := hm.relocated hr hg hcovers
  have hrebuilt := hm.rebuilt_at hr hg hcovers
  have hyields : ∀ m ∈ moved.nodes, value ∈ m.results → moved.defines value = true :=
    fun m hm' hvm => defines_iff.2 (.inr (Graph.mem_results.2 ⟨m, hm', hvm⟩))
  by_cases houtput : value = t.output
  · refine hyields _ hrelocated.front (Node.mem_results.2 ⟨?_, houtput ▸ hr.present⟩)
    rw [houtput]
    exact List.mem_singleton_self _
  by_cases hyielded : value ∈ consumer.results
  · refine hyields _ hrelocated.behind (Node.mem_results.2 ⟨?_, Node.ne_empty_of_mem_results hyielded⟩)
    have hout := (Node.mem_results.1 hyielded).1
    rwa [hr.outputs] at hout
  -- any other definition has stayed through all of the five steps
  have hcleaned := hm.uses_cleaned hrebuilt hbodies houtput hused
  have hdetached := hm.absorb.uses hcleaned
  obtain ⟨-, henriched⟩ := hm.arrange.tidyTree hg hcovers
  have harranged : arranged.defines value = true := by
    rw [defines_iff, henriched.inputs]
    exact (defines_iff.1 hdef).imp_right henriched.mem_results
  have hput := ((hm.replaced hr hg hcovers).defines value).trans harranged
  have hkept := hm.absorb.defines_of_uses hcleaned (defines_of_removed hm.detach hdetached hput)
  rcases defines_iff.1 hkept with hin | hresult
  · rw [hm.swap]
    exact defines_iff.2 (.inl hin)
  · obtain ⟨m, hm', hvm⟩ := Graph.mem_results.1 hresult
    have hother := elsewhere_of_ne hrebuilt hm' fun e => by
      subst e
      exact hyielded hvm
    refine hyields m ?_ hvm
    rw [hm.swap]
    exact List.mem_append_left _ ((mem_set_iff (List.getElem?_eq_some_iff.1 hrebuilt).1).2
      (.inr hother))

end Moved

end Relocation

namespace Rewriting

open TensorGraph.Graph Transposes Relocation

variable {taken : String → Prop} {s : Surroundings} {g h : Graph} {kind : Kind}

theorem Exchange.bodies_eq_nil {n k : Node} (he : Exchange s g n kind k) (hg : g.Hosted)
    (hn : n ∈ g.nodes) : k.bodies = [] := by
  cases he with
  | shim => rfl
  | rebase stands inputs present resolved =>
      have hop := (resolvePermutation_ok resolved).1
      have hnone := hg.bodies_eq_nil hn (by rw [hop]; decide) (by rw [hop]; decide)
      refine List.eq_nil_of_subset_nil (hnone ▸ fun body hbody => ?_)
      exact Node.mem_bodies.2 (Attributes.mem_of_mem_set rfl (Node.mem_bodies.1 hbody))
  | sizes => rfl

/-- After an edit still only loops and branches own bodies. -/
theorem Effect.hosted (he : Effect s g kind h) (hg : TidyTree taken g)
    (hcovers : ∀ value, taken value → value ∈ s.reserved) (hosted : g.Hosted) : h.Hosted := by
  have hreplace : ∀ (old new : String) (m : Node), m.bodies = [] →
      (m.replaceReads old new).bodies = [] := by
    intro old new m hnone
    rw [Node.bodies_replaceReads, hnone]
    split <;> rfl
  have hsub : ∀ n m : Node, m.bodies ⊆ n.bodies → n.bodies = [] → m.bodies = [] :=
    fun n m hall hnone => List.eq_nil_of_subset_nil (hnone ▸ hall)
  refine hosted.of_nodes fun k hk => ?_
  cases he with
  | bypassed reason result =>
      obtain ⟨j, -, m, hm, rfl⟩ := result.mem_nodes.1 hk
      exact .inr ⟨m, List.mem_of_getElem? hm, by simp, hreplace _ _ m⟩
  | promoted reason result =>
      obtain ⟨before, hbefore, j, m, -, hm, rfl⟩ := result.mem_nodes hk
      refine .inr ⟨m, List.mem_of_getElem? hm, Promoted.op_node hbefore m, fun hnone =>
        hreplace _ _ _ ?_⟩
      rw [Node.bodies_renamed]
      rcases hbefore with rfl | rfl
      · exact hnone
      · exact hreplace _ _ m hnone
  | replaced reason result =>
      rcases result.mem_nodes.1 hk with rfl | ⟨j, -, hj⟩
      · exact .inl (reason.bodies_eq_nil hosted (List.mem_of_getElem? result.node))
      · exact .inr ⟨k, List.mem_of_getElem? hj, rfl, id⟩
  | gathered stands node takes present result =>
      rcases (result.mem_nodes node).1 hk with ⟨j, -, hj⟩ | rfl | rfl | rfl
      · exact .inr ⟨k, List.mem_of_getElem? hj, rfl, id⟩
      · exact .inr ⟨_, List.mem_of_getElem? node, rfl, id⟩
      · exact .inl rfl
      · exact .inl rfl
  | @relocated t place consumer policy attributes p arranged detached cleaned moved h placed
      rebuiltPlace inside readers conditions result infos =>
      rw [infos] at hk
      rcases (result.relocated conditions hg hcovers).origin k hk with
        ⟨n, hn, -, -, hlike⟩ | ⟨target, literal, hlike, -⟩ | rfl | rfl
      · exact .inr ⟨n, hn, hlike.op, hsub n k fun body => (hlike.bodies body).1⟩
      · exact .inl (hsub _ k (fun body => (hlike.bodies body).1) rfl)
      · exact .inr ⟨consumer, conditions.mem, rfl, hsub consumer _ (bodies_frontNode conditions _ _)⟩
      · exact .inr ⟨t.node, conditions.stands.mem, rfl, hsub t.node _ (bodies_behindNode _ _ _ _)⟩
  | removed result =>
      obtain ⟨n, -, -, rfl⟩ := removeUnreferenced?_eq_some result
      exact .inr ⟨k, List.mem_of_mem_eraseIdx hk, rfl, id⟩

/-- What is in use after an edit has kept its definition. -/
theorem Effect.defines_of_uses (he : Effect s g kind h) (hg : TidyTree taken g)
    (hcovers : ∀ value, taken value → value ∈ s.reserved) (hosted : g.Hosted) {value : String}
    (hused : h.Uses value) (hdef : g.defines value = true) : h.defines value = true := by
  cases he with
  | bypassed reason result =>
      refine (result.defines_of_ne ?_).trans hdef
      rcases hused with ⟨hout, hne⟩ | ⟨k, hk, hread⟩
      · rintro rfl
        exact hne (result.dropped hout)
      · exact (result.mem_reads hk hread).1
  | promoted reason result =>
      refine (result.defines_of_ne ?_).trans hdef
      rcases hused with ⟨hout, -⟩ | ⟨k, hk, hread⟩
      · rintro rfl
        exact result.inside (result.yielded ▸ hout)
      · obtain ⟨before, hbefore, j, m, -, hm, rfl⟩ := result.mem_nodes hk
        exact (result.mem_reads_node hbefore hread).1
  | replaced reason result => exact (result.defines value).trans hdef
  | @gathered t place n sizes indices gather h stands node takes present result =>
      rcases defines_iff.1 hdef with hin | hresult
      · rw [result.eq]
        exact defines_iff.2 (.inl hin)
      · obtain ⟨m, hm, hvm⟩ := Graph.mem_results.1 hresult
        refine defines_iff.2 (.inr (Graph.mem_results.2 ?_))
        rcases eq_or_elsewhere node hm with rfl | hother
        · refine ⟨_, (result.mem_nodes node).2 (.inr (.inr (.inr rfl))), ?_⟩
          have hout := (Node.mem_results.1 hvm).1
          rw [(takesSizes_ne takes).2.2] at hout
          exact Gathered.mem_results_gatherNode.2
            ⟨List.mem_singleton.1 hout, Node.ne_empty_of_mem_results hvm⟩
        · exact ⟨m, (result.mem_nodes node).2 (.inl hother), hvm⟩
  | @relocated t place consumer policy attributes p arranged detached cleaned moved h placed
      rebuiltPlace inside readers conditions result infos =>
      rw [infos] at hused ⊢
      have hop := conditions.stands.op
      exact result.defines_of_uses conditions hg hcovers
        (hosted.bodies_eq_nil conditions.stands.mem (by rw [hop]; decide) (by rw [hop]; decide))
        hused hdef
  | removed result => exact defines_of_removed result hused hdef

/-- An edit makes a graph take nothing more from outside. -/
theorem Effect.outerReferences_subset (he : Effect s g kind h) (hg : TidyTree taken g)
    (hcovers : ∀ value, taken value → value ∈ s.reserved) (hosted : g.Hosted) :
    h.outerReferences ⊆ g.outerReferences := by
  intro value hvalue
  refine (he.mem_outerReferences hg hcovers hvalue).resolve_right fun hdef => ?_
  obtain ⟨hundefined, hused⟩ := mem_outerReferences_iff.1 hvalue
  rw [he.defines_of_uses hg hcovers hosted hused hdef] at hundefined
  cases hundefined

end Rewriting

end TensorGraph
