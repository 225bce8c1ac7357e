import Mathlib.Algebra.Order.BigOperators.Group.List
import TensorGraph.Proofs.Descent

/-!
# Totals over trees

A number that belongs to every graph is added up over a tree. As long as the number is `Inward`, and
does not depend on the names that a graph takes from outside, no edit adds to what stands below a
graph: the bodies afterwards are those before, up to such names, and some may be gone.

## Main results

* `Rewriting.Effect.underneath_le` -- an edit adds nothing to what stands below.
-/

namespace TensorGraph

/-! ## Sums over lists of nodes -/

section Sums

variable {α : Type} {l : List α} {i : Nat} {a : α} (f : α → Nat)

theorem sum_eraseIdx (h : l[i]? = some a) : ((l.eraseIdx i).map f).sum + f a = (l.map f).sum := by
  obtain ⟨hlt, rfl⟩ := List.getElem?_eq_some_iff.1 h
  have hperm := ((List.getElem_cons_eraseIdx_perm hlt).map f).sum_eq
  rw [List.map_cons, List.sum_cons] at hperm
  omega

theorem sum_set (h : l[i]? = some a) (b : α) :
    ((l.set i b).map f).sum + f a = (l.map f).sum + f b := by
  have hlt := (List.getElem?_eq_some_iff.1 h).1
  have hperm := ((List.set_perm_cons_eraseIdx hlt b).map f).sum_eq
  rw [List.map_cons, List.sum_cons] at hperm
  have := sum_eraseIdx f h
  omega

theorem sum_sublist {l' : List α} (h : l'.Sublist l) : (l'.map f).sum ≤ (l.map f).sum :=
  (h.map f).sum_le_sum fun _ _ => Nat.zero_le _

end Sums

/-! ## Adding up -/

/-- A number added up over a graph and all graphs below it. -/
def Graph.total (f : Graph → Nat) : Graph → Nat :=
  Graph.fold fun g below => f g + (below.map List.sum).sum

/-- A number added up over the trees that a node owns. -/
def Node.beneath (f : Graph → Nat) (n : Node) : Nat :=
  (n.bodies.map fun body => body.2.total f).sum

/-- A number added up over the trees that the nodes of a graph own. -/
def Graph.underneath (f : Graph → Nat) (g : Graph) : Nat := (g.nodes.map (Node.beneath f)).sum

theorem Graph.total_eq (f : Graph → Nat) (g : Graph) : g.total f = f g + g.underneath f := by
  unfold total
  rw [fold_eq, List.map_map]
  rfl

namespace Node

variable {f : Graph → Nat} {n m : Node}

/-- A node with fewer bodies has less below it. -/
theorem beneath_le (h : m.bodies.Sublist n.bodies) : m.beneath f ≤ n.beneath f :=
  sum_sublist _ h

end Node

/-- Setting an attribute that is no body takes bodies away at the most. -/
theorem Attributes.bodies_set_sublist (attributes : List (String × Attribute)) (key : String)
    {value : Attribute} (hvalue : value.body? = none) :
    ((set attributes key value).filterMap fun (key, value) => value.body?.map (key, ·)).Sublist
      (attributes.filterMap fun (key, value) => value.body?.map (key, ·)) := by
  unfold set
  split
  · clear * - hvalue
    induction attributes with
    | nil => exact .slnil
    | cons entry rest ih =>
        obtain ⟨k, v⟩ := entry
        rw [List.map_cons, List.filterMap_cons, List.filterMap_cons]
        by_cases hk : (k == key) = true
        · simp only [hk, if_true, hvalue, Option.map_none]
          split
          · exact ih
          · exact ih.cons _
        · simp only [hk, Bool.false_eq_true, if_false]
          split
          · exact ih
          · exact ih.cons_cons _
  · rw [List.filterMap_append]
    simp [hvalue]

namespace Graph

/-! ## Numbers that belong to a graph -/

/-- Every node is one of before, but for its bodies and for names that it takes from outside. -/
def Mirrors (g h : Graph) : Prop :=
  ∀ k ∈ h.nodes, ∃ m ∈ g.nodes, m.name = k.name ∧ m.op = k.op ∧ m.results = k.results ∧
    ∀ value ∈ g.results, value ∈ k.inputs → value ∈ m.inputs

theorem Mirrors.traced {g h : Graph} (hm : Mirrors g h) : Traced g h where
  kept k hk _ := by
    obtain ⟨m, hm, hname, hop, -, -⟩ := hm k hk
    exact ⟨m, hm, hname, hop⟩
  feeds := by
    rintro a b ⟨k, hk, l, hl, ⟨rfl, hkop⟩, ⟨rfl, hlop⟩, value, hvk, hvl⟩
    obtain ⟨m, hmem, hname, hop, hresults, -⟩ := hm k hk
    obtain ⟨n, hn, hname', hop', -, hinputs⟩ := hm l hl
    rw [← hname, ← hname']
    rw [← hresults] at hvk
    exact .single (.of_nodes hmem hn (hop ▸ hkop) (hop' ▸ hlop) hvk
      (hinputs value (mem_results.2 ⟨m, hmem, hvk⟩) hvl))

/-- Whether a number depends only on the operators of a graph and the values between them. -/
def Inward (f : Graph → Nat) : Prop :=
  ∀ g h : Graph, Mirrors g h → Mirrors h g → h.nodes.length = g.nodes.length → f h = f g

theorem inward_weight (k : Nat) : Inward (weight k) := fun _ _ hgh hhg _ =>
  Nat.le_antisymm (hgh.traced.notHeavier.weight_le k) (hhg.traced.notHeavier.weight_le k)

theorem inward_movable : Inward fun g => g.movable.card := fun _ _ hgh hhg _ =>
  Nat.le_antisymm (Finset.card_le_card hgh.traced.kept.movable)
    (Finset.card_le_card hhg.traced.kept.movable)

theorem inward_length : Inward fun g => g.nodes.length := fun _ _ _ _ hlength => hlength

/-- A substitution of names from outside does not count. -/
theorem Inward.substituteOuter {f : Graph → Nat} (hf : Inward f) {taken : String → Prop} {g : Graph}
    {old new : String} (hg : Tidy taken g) (hnew : new = "" ∨ taken new) :
    f (g.substituteOuter old new) = f g := by
  by_cases hold : g.defines old = true
  · rw [substituteOuter_eq, if_pos hold]
  have hnodes : (g.substituteOuter old new).nodes = g.nodes.map (Node.replaceReads old new) := by
    rw [nodes_substituteOuter, if_neg hold]
  refine hf _ _ ?_ ?_ (by simp [hnodes])
  · intro k hk
    rw [hnodes] at hk
    obtain ⟨m, hm, rfl⟩ := List.mem_map.1 hk
    refine ⟨m, hm, by simp, by simp, by simp, fun value hvalue hin => ?_⟩
    refine (Node.mem_inputs_replaceReads hin).resolve_left ?_
    rintro ⟨rfl, -⟩
    exact hnew.elim (ne_empty_of_mem_results hvalue) (hg.newResults value hvalue)
  · intro m hm
    refine ⟨m.replaceReads old new, ?_, by simp, by simp, by simp, fun value hvalue hin => ?_⟩
    · rw [hnodes]
      exact List.mem_map_of_mem hm
    · rw [results_substituteOuter] at hvalue
      refine Node.mem_inputs_replaceReads_of_ne hin ?_
      rintro rfl
      exact hold (defines_iff.2 (.inr hvalue))

section Inward

variable {f : Graph → Nat} (hf : Inward f) {taken : String → Prop} {g h : Graph} {old new : String}

include hf

theorem total_substituteOuter (hg : TidyTree taken g) (hnew : new = "" ∨ taken new) :
    (g.substituteOuter old new).total f = g.total f := by
  induction hg with
  | @intro taken g here hinside ih =>
      rw [total_eq, total_eq, hf.substituteOuter here hnew]
      congr 1
      unfold underneath
      rw [nodes_substituteOuter]
      split
      · rfl
      · rw [List.map_map]
        refine congrArg _ (List.map_congr_left fun n hn => ?_)
        simp only [Function.comp_apply, Node.beneath, Node.bodies_replaceReads]
        split
        · rw [List.map_map]
          refine congrArg _ (List.map_congr_left fun body hbody => ?_)
          exact ih n hn body hbody (hnew.imp_right .inl)
        · rfl

/-- A substitution leaves what is below a node as it was. -/
theorem beneath_replaceReads {n : Node} (hn : ∀ body ∈ n.bodies, TidyTree taken body.2)
    (hnew : new = "" ∨ taken new) : (n.replaceReads old new).beneath f = n.beneath f := by
  unfold Node.beneath
  rw [Node.bodies_replaceReads]
  split
  · rw [List.map_map]
    exact congrArg _ (List.map_congr_left fun body hbody =>
      total_substituteOuter hf (hn body hbody) hnew)
  · rfl

namespace Bypassed

variable {place : Nat} {n : Node}

theorem underneath_le (hb : Bypassed g place n old new h) (hg : TidyTree taken g)
    (hnew : new = "" ∨ g.Mentions new) : h.underneath f ≤ g.underneath f := by
  unfold underneath
  rw [hb.nodes]
  refine (sum_sublist _ (List.eraseIdx_sublist _ _)).trans (Nat.le_of_eq ?_)
  rw [List.map_map]
  refine congrArg _ (List.map_congr_left fun m hm => ?_)
  exact beneath_replaceReads hf (fun body hbody => hg.body hm hbody) (hnew.imp_right .inr)

end Bypassed

namespace Promoted

variable {place : Nat} {n : Node}

theorem underneath_le (hp : Promoted g place n old new h) (hg : TidyTree taken g) :
    h.underneath f ≤ g.underneath f := by
  have hnew : g.takenIn taken new := .inr (.inl (defines_iff.2 (.inr hp.produced)))
  have hold : old = "" ∨ g.takenIn taken old := by
    by_cases hold : old = ""
    · exact .inl hold
    · refine .inr (.inr (.inl (defines_iff.2 (.inr (Graph.mem_results.2 ⟨n, ?_⟩)))))
      exact ⟨List.mem_of_getElem? hp.node, Node.mem_results.2 ⟨by simp [hp.outputs], hold⟩⟩
  obtain ⟨before, hbefore, hnodes⟩ := hp.nodes
  unfold underneath
  rw [hnodes]
  refine (sum_sublist _ (List.eraseIdx_sublist _ _)).trans (Nat.le_of_eq ?_)
  rw [List.map_map]
  refine congrArg _ (List.map_congr_left fun m hm => ?_)
  have hbodies : ∀ body ∈ (before m).bodies, TidyTree (g.takenIn taken) body.2 := by
    rcases hbefore with rfl | rfl
    · exact fun body hbody => hg.body hm hbody
    · intro body hbody
      obtain ⟨first, hfirst, -, hsame | ⟨-, hsame⟩⟩ := mem_bodies_replaceReads hbody
      · exact hsame ▸ hg.body hm hfirst
      · have htree : TidyTree (g.takenIn taken) first.2 := hg.body hm hfirst
        exact hsame ▸ htree.substituteOuter (.inr hnew)
  have hrenamed : ((before m).renamed new old).beneath f = (before m).beneath f := by
    rw [Node.beneath, Node.bodies_renamed, Node.beneath]
  rw [Function.comp_apply, beneath_replaceReads hf (by rwa [Node.bodies_renamed]) hold, hrenamed]
  rcases hbefore with rfl | rfl
  · rfl
  · exact beneath_replaceReads hf (fun body hbody => hg.body hm hbody) (.inr hnew)

end Promoted

end Inward

/-- With another node in the place of a node there is no more below, if it has no more bodies. -/
theorem underneath_le_of_set {f : Graph → Nat} {g h : Graph} {place : Nat} {n k : Node}
    (hn : g.nodes[place]? = some n) (hbodies : k.bodies.Sublist n.bodies)
    (hnodes : h.nodes = g.nodes.set place k) : h.underneath f ≤ g.underneath f := by
  have hset := sum_set (Node.beneath f) hn k
  have hle := Node.beneath_le (f := f) hbodies
  unfold underneath
  rw [hnodes]
  omega

theorem underneath_le_of_sublist {f : Graph → Nat} {g h : Graph} (hnodes : h.nodes.Sublist g.nodes) :
    h.underneath f ≤ g.underneath f :=
  sum_sublist _ hnodes

end Graph

namespace Rewriting

open TensorGraph.Graph Transposes Relocation

variable {taken : String → Prop} {s : Surroundings} {g h : Graph} {f : Graph → Nat}

theorem Exchange.sublist {kind : Kind} {n k : Node} (he : Exchange s g n kind k) :
    k.bodies.Sublist n.bodies := by
  cases he with
  | shim => exact List.nil_sublist _
  | rebase => exact Attributes.bodies_set_sublist _ _ rfl
  | sizes => exact List.nil_sublist _

private theorem Gathered.underneath_le {t : PlacedTranspose} {place : Nat} {n : Node}
    {sizes indices gather : String} (hr : Gathered s g t place n sizes indices gather h)
    (hn : g.nodes[place]? = some n) : h.underneath f ≤ g.underneath f := by
  have hset := sum_set (Node.beneath f) hn (sizesNode t n sizes)
  have hsame : (sizesNode t n sizes).beneath f = n.beneath f := rfl
  have hindices : (indicesNode t indices).beneath f = 0 := rfl
  have hgather : (gatherNode gather sizes indices (n.outputs.headD "")).beneath f = 0 := rfl
  unfold underneath
  rw [hr.eq, List.map_append, List.sum_append]
  simp only [List.map_cons, List.map_nil, List.sum_cons, List.sum_nil]
  omega

private theorem Placing.underneath_le {operands : List Relocation.Operand}
    {placed later : List (String × String)}
    (hp : Placing s operands g placed h later) : h.underneath f ≤ g.underneath f := by
  induction hp with
  | done => exact Nat.le_refl _
  | value _ ih => exact ih
  | again _ _ ih => exact ih
  | @put name target place n permuted _ _ _ _ _ _ _ hn hput _ ih =>
      refine ih.trans ?_
      cases hput with
      | copied =>
          refine Nat.le_of_eq ?_
          unfold underneath
          simp [setInfo, addNode, Node.beneath, Node.bodies, Node.constant, Attribute.body?]
      | changed =>
          have hbodies : (refilled n permuted).bodies.Sublist n.bodies :=
            Attributes.bodies_set_sublist _ _ rfl
          exact underneath_le_of_set hn.node hbodies rfl

private theorem Moved.underneath_le {arranged detached cleaned moved : Graph} {t : PlacedTranspose}
    {place : Nat} {consumer : Node} {policy : ConstantPolicy}
    {attributes : List (String × Attribute)} {p : Plan} {placed : List (String × String)}
    {rebuiltPlace : Nat}
    (hm : Moved s g t.place t.node place consumer t.perm attributes p arranged detached cleaned
      placed rebuiltPlace moved)
    (hr : Relocatable s g t place consumer policy attributes p) (hg : TidyTree taken g)
    (hcovers : ∀ value, taken value → value ∈ s.reserved) :
    moved.underneath f ≤ g.underneath f := by
  have henriched := (hm.arrange.tidyTree hg hcovers).2
  have hconsumer := henriched.getElem? hr.node hr.op.2.1
  have htranspose := henriched.getElem? hr.stands.node (by rw [hr.stands.op]; decide)
  have hbodies : (rebuiltNode consumer attributes p.operands placed).bodies.Sublist consumer.bodies := by
    rcases passage?_attributes hr.passage with heq | ⟨key, value, hvalue, heq⟩
    · rw [rebuiltNode, heq]
      exact .refl _
    · rw [rebuiltNode, heq]
      exact Attributes.bodies_set_sublist _ _ hvalue
  have hput : (arranged.putNode place
      (rebuiltNode consumer attributes p.operands placed)).underneath f ≤ g.underneath f :=
    (underneath_le_of_set hconsumer hbodies rfl).trans (Placing.underneath_le hm.arrange)
  -- what stood below the transposition comes back with it
  obtain ⟨n, hn, -, hdetached⟩ := removeUnreferenced?_eq_some hm.detach
  obtain rfl : t.node = n := by
    refine Option.some.inj (Eq.trans ?_ hn)
    exact ((List.getElem?_set_ne fun e => hr.place_ne e.symm).trans htranspose).symm
  have herase := sum_eraseIdx (Node.beneath f) hn
  have habsorb : cleaned.underneath f ≤ detached.underneath f :=
    underneath_le_of_sublist hm.absorb.sublist.1
  have hfront := sum_set (Node.beneath f) (hm.rebuilt_at hr hg hcovers)
    { rebuiltNode consumer attributes p.operands placed with outputs := [t.output] }
  have hbehind : (behindNode t.node t.perm t.output (consumer.outputs.headD "")).beneath f ≤
      t.node.beneath f := Node.beneath_le (Attributes.bodies_set_sublist _ _ rfl)
  have hsame : Node.beneath f
      { rebuiltNode consumer attributes p.operands placed with outputs := [t.output] } =
      (rebuiltNode consumer attributes p.operands placed).beneath f := rfl
  have hmoved : moved.underneath f =
      ((cleaned.nodes.set rebuiltPlace { rebuiltNode consumer attributes p.operands placed with
        outputs := [t.output] }).map (Node.beneath f)).sum +
        (behindNode t.node t.perm t.output (consumer.outputs.headD "")).beneath f := by
    rw [hm.swap, underneath, swapped, addNode, putNode]
    simp only [List.map_append, List.map_cons, List.map_nil, List.sum_append, List.sum_cons,
      List.sum_nil, Nat.add_zero]
    rfl
  have hdetachedSum : detached.underneath f = (((arranged.putNode place
      (rebuiltNode consumer attributes p.operands placed)).nodes.eraseIdx t.place).map
        (Node.beneath f)).sum := by
    rw [hdetached]
    rfl
  unfold underneath at *
  omega

/-- An edit adds nothing to what stands below a graph. -/
theorem Effect.underneath_le {kind : Kind} (he : Effect s g kind h) (hf : Inward f)
    (hg : TidyTree taken g) (hcovers : ∀ value, taken value → value ∈ s.reserved) :
    h.underneath f ≤ g.underneath f := by
  cases he with
  | bypassed reason result =>
      exact result.underneath_le hf hg (reason.mentions (List.mem_of_getElem? result.node))
  | promoted reason result => exact result.underneath_le hf hg
  | replaced reason result => exact underneath_le_of_set result.node reason.sublist result.nodes
  | gathered stands node takes present result => exact Gathered.underneath_le result node
  | relocated inside readers conditions result infos =>
      rw [infos]
      have hmoved := Moved.underneath_le (f := f) result conditions hg hcovers
      exact hmoved
  | removed result =>
      obtain ⟨n, -, -, rfl⟩ := removeUnreferenced?_eq_some result
      exact underneath_le_of_sublist (List.eraseIdx_sublist _ _)

end Rewriting

end TensorGraph
