import TensorGraph.Graph.Mutation
import TensorGraph.Proofs.Lookups

/-!
# Mutations of trees that remember lookups

A mutation makes the graph anew of nodes with bodies that arise themselves, so a tree that arises goes
on to arise, however it is mutated and looked up in. What the mutations look up by the indices is what
the tree says, so they make of the tree what the same edits make of a tree that remembers nothing.

## Main results

* `Indexed.Arises.mutate` -- every mutation leads to a tree that arises.
* `Indexed.Arises.mutated` -- so does every sequence of mutations and lookups.
* `Indexed.Arises.tree_mutate` -- what a mutation makes of the tree.
-/

namespace TensorGraph

open TensorGraph.Graph

/-! ## Nodes with other bodies -/

namespace Attributes

theorem map_fst_withBodies (attributes : List (String × Attribute)) (graphs : List Graph) :
    (withBodies attributes graphs).map Prod.fst = attributes.map Prod.fst := by
  induction attributes generalizing graphs with
  | nil => rfl
  | cons entry rest ih =>
      obtain ⟨key, value⟩ := entry
      cases value with
      | body g => cases graphs <;> simp [withBodies, ih]
      | _ => simp [withBodies, ih]

end Attributes

/-- The bodies of a node in which all of them have been replaced. -/
theorem Node.bodies_withBodies (n : Node) (graphs : List Graph)
    (hlength : graphs.length = n.bodies.length) :
    (n.withBodies graphs).bodies = (n.bodies.map Prod.fst).zip graphs := by
  unfold withBodies bodies at *
  generalize n.attributes = attributes at *
  induction attributes generalizing graphs with
  | nil => simp [Attributes.withBodies]
  | cons entry rest ih =>
      obtain ⟨key, value⟩ := entry
      cases value with
      | body g =>
          cases graphs with
          | nil => cases hlength
          | cons first graphs =>
              exact congrArg ((key, first) :: ·) (ih graphs (Nat.succ.inj hlength))
      | number | text | numbers | literal =>
          exact ih graphs hlength

theorem Node.Keyed.nodup_bodies {n : Node} (h : n.Keyed) : (n.bodies.map Prod.fst).Nodup := by
  unfold Node.Keyed at h
  unfold Node.bodies
  rw [List.Nodup, List.pairwise_map] at h ⊢
  refine List.pairwise_filterMap.2 (h.imp fun hne body hbody other hother => ?_)
  obtain ⟨_, -, rfl⟩ := Option.map_eq_some_iff.1 hbody
  obtain ⟨_, -, rfl⟩ := Option.map_eq_some_iff.1 hother
  exact hne

namespace Graph

variable {g : Graph} {old : String}

theorem map_replaceReads_of_readers (h : g.readers old = []) (new : String) :
    g.nodes.map (Node.replaceReads old new) = g.nodes := by
  refine (List.map_congr_left fun n hn => Node.replaceReads_of_not_mem new fun hread => ?_).trans
    (List.map_id g.nodes)
  obtain ⟨place, hplace⟩ := List.getElem?_of_mem hn
  exact List.not_mem_nil (h ▸ mem_readers.2 ⟨n, hplace, hread⟩)

/-- A graph stays as it is when a name gets replaced that nothing in it reads. -/
theorem replaceInputs_of_readers (h : g.readers old = []) (new : String) :
    g.replaceInputs old new = g := by
  unfold replaceInputs
  rw [map_replaceReads_of_readers h]
  cases g
  exact ite_self _

/-- From outside a graph takes neither what nothing reads nor what no output slot says. -/
theorem substituteOuter_of_readers (h : g.readers old = []) (hout : g.isOutput old = false)
    (new : String) : g.substituteOuter old new = g := by
  have houtputs : g.outputs.map (substituteName old new) = g.outputs := by
    refine (List.map_congr_left fun name hname => ?_).trans (List.map_id g.outputs)
    have hne : name ≠ old := fun heq => by simp [isOutput, ← heq, hname] at hout
    exact (substituteName_eq old new name).trans (if_neg hne)
  rw [substituteOuter_eq, map_replaceReads_of_readers h, houtputs]
  cases g
  exact ite_self _

end Graph

/-! ## Hosts -/

namespace Host

variable {host : Host} {old new : String} {replaced : String × Graph → Indexed}

/-- Whether a node has distinct keys, and its bodies with what they remember arise. -/
def Sound (host : Host) : Prop :=
  host.node.Keyed ∧ ∀ body ∈ host.node.bodies, Indexed.Arises (host.inside body.1 body.2)

/-- The bodies of a node in which all of them have been replaced. -/
theorem bodies_rewired (old new : String) (host : Host) (replaced : String × Graph → Indexed) :
    (host.rewired old new (host.node.bodies.map replaced)).node.bodies =
      host.node.bodies.map fun body => (body.1, (replaced body).tree) := by
  refine (host.node.bodies_withBodies _ (by simp)).trans ?_
  rw [List.map_map, List.zip_map']
  rfl

/-- A replaced body remembers what has been made of it. -/
theorem inside_rewired (hkeyed : host.node.Keyed) {body : String × Graph}
    (hbody : body ∈ host.node.bodies) :
    (host.rewired old new (host.node.bodies.map replaced)).inside body.1 (replaced body).tree =
      replaced body := by
  have hlookup : ((host.node.bodies.map Prod.fst).zip (host.node.bodies.map replaced)).lookup body.1 =
      some (replaced body) := by
    rw [List.zip_map']
    refine lookup_of_mem ?_ (List.mem_map.2 ⟨body, hbody, rfl⟩)
    rw [List.map_map]
    exact hkeyed.nodup_bodies
  unfold inside rewired
  simp only [hlookup, Option.bind_some]

theorem Sound.rewired (h : host.Sound)
    (hreplaced : ∀ body ∈ host.node.bodies, Indexed.Arises (replaced body)) :
    (host.rewired old new (host.node.bodies.map replaced)).Sound := by
  refine ⟨?_, fun body hbody => ?_⟩
  · have hkeys := Attributes.map_fst_withBodies host.node.attributes
      ((host.node.bodies.map replaced).map Indexed.tree)
    exact (congrArg List.Nodup hkeys).mpr h.1
  · rw [bodies_rewired] at hbody
    obtain ⟨before, hbefore, rfl⟩ := List.mem_map.1 hbody
    exact inside_rewired h.1 hbefore ▸ hreplaced before hbefore

end Host

namespace Indexed

variable {s t here : Indexed} {g : Graph} {hosts : List Host} {trail : Trail} {old new : String}

/-! ## Graphs made of hosts -/

theorem hasBody_ofHosts {place : Nat} {key : String} {body : Graph}
    (hbody : (ofHosts g hosts).tree.HasBody place key body) :
    ∃ host, hosts[place]? = some host ∧ (key, body) ∈ host.node.bodies ∧
      (ofHosts g hosts).inside place key body = host.inside key body := by
  obtain ⟨n, hn, hmem⟩ := hbody
  obtain ⟨host, hhost, rfl⟩ := Option.map_eq_some_iff.1 ((List.getElem?_map ..).symm.trans hn)
  refine ⟨host, hhost, hmem, ?_⟩
  unfold inside Host.inside
  congr 1
  funext rest
  simp [ofHosts, hhost]

/-- A graph arises when its nodes with their bodies do. -/
theorem Arises.ofHosts (h : ∀ host ∈ hosts, host.Sound) : Arises (ofHosts g hosts) := by
  refine .make (fun n hn => ?_) rfl fun place key body hbody => ?_
  · obtain ⟨host, hhost, rfl⟩ := List.mem_map.1 hn
    exact (h host hhost).1
  · obtain ⟨host, hhost, hmem, hsame⟩ := hasBody_ofHosts hbody
    exact hsame ▸ (h host (List.mem_of_getElem? hhost)).2 _ hmem

namespace Arises

theorem inside (h : Arises s) {place : Nat} {key : String} {body : Graph}
    (hbody : s.tree.HasBody place key body) : Arises (s.inside place key body) := by
  have hat : s.tree.bodyAt? [(place, key)] = some body :=
    (bodyAt?_cons h.keyedTree.here).2 ⟨body, hbody, rfl⟩
  exact h.part (Option.map_eq_some_iff.2 ⟨body, hat, rfl⟩)

/-- The nodes of a tree that arises are sound. -/
theorem sound (h : Arises s) {host : Host} (hhost : host ∈ s.hosts) : host.Sound := by
  obtain ⟨place, hplace⟩ := List.getElem?_of_mem hhost
  rw [getElem?_hosts] at hplace
  obtain ⟨n, hn, rfl⟩ := Option.map_eq_some_iff.1 hplace
  exact ⟨h.keyedTree.here n (List.mem_of_getElem? hn), fun body hbody => h.inside ⟨n, hn, hbody⟩⟩

/-! ## Nodes that are rewired -/

theorem rewiredHosts_substituted (s : Indexed) (old new : String) :
    s.rewiredHosts old new (s.substitutedBodies old new) = s.hosts.zipIdx.map fun host =>
      if (s.readers old).contains host.2 then
        host.1.rewired old new (host.1.node.bodies.map fun body =>
          (host.1.inside body.1 body.2).substituteOuter old new)
      else host.1 := by
  have hbodies : s.substitutedBodies old new = s.hosts.zipIdx.map fun host =>
      host.1.node.bodies.map fun body =>
        (host.1.inside body.1 body.2).substituteOuter old new := by
    rw [substitutedBodies]
    conv_lhs => rw [← List.zipIdx_map_fst 0 s.hosts, List.map_map]
    rfl
  rw [rewiredHosts, hbodies, List.zipWith_map_right, List.zipWith_self]

/-- Rewired nodes are sound when their bodies still arise. -/
theorem sound_rewiredHosts (h : Arises s) (hbodies : ∀ n ∈ s.tree.nodes, ∀ body ∈ n.bodies,
      ∀ known, Arises { tree := body.2, known } →
        Arises (substituteOuter { tree := body.2, known } old new)) :
    ∀ host ∈ s.rewiredHosts old new (s.substitutedBodies old new), host.Sound := by
  intro host hhost
  rw [rewiredHosts_substituted] at hhost
  obtain ⟨⟨before, place⟩, hbefore, rfl⟩ := List.mem_map.1 hhost
  have hmem : before ∈ s.hosts := List.fst_mem_of_mem_zipIdx hbefore
  have hsound := h.sound hmem
  dsimp only
  split
  · have hnode : before.node ∈ s.tree.nodes := s.map_node_hosts ▸ List.mem_map_of_mem hmem
    exact hsound.rewired fun body hbody => hbodies _ hnode body hbody _ (hsound.2 body hbody)
  · exact hsound

theorem substituteOuter (h : Arises s) (old new : String) : Arises (s.substituteOuter old new) := by
  obtain ⟨g, known⟩ := s
  induction g using bodyInduction generalizing known with
  | step g ih =>
      rw [substituteOuter_eq]
      split
      · exact h
      · exact .ofHosts (h.sound_rewiredHosts ih)

/-- Rewiring by the index makes of the nodes what rewiring makes of them. -/
theorem map_node_rewiredHosts (h : Arises s) (hbodies : ∀ n ∈ s.tree.nodes, ∀ body ∈ n.bodies,
      ∀ known, Arises { tree := body.2, known } →
        (Indexed.substituteOuter { tree := body.2, known } old new).tree =
          body.2.substituteOuter old new) :
    (s.rewiredHosts old new (s.substitutedBodies old new)).map Host.node =
      s.tree.nodes.map (Node.replaceReads old new) := by
  rw [rewiredHosts_substituted]
  refine List.ext_getElem? fun place => ?_
  simp only [List.getElem?_map, List.getElem?_zipIdx, getElem?_hosts]
  cases hn : s.tree.nodes[place]? with
  | none => rfl
  | some n =>
      have hreaders : (s.readers old).contains place = n.reads.contains old := by
        rw [h.truthful.readers_eq h.keyedTree, Bool.eq_iff_iff]
        simp only [List.contains_eq_mem, decide_eq_true_eq, mem_readers, hn, Option.some.injEq,
          exists_eq_left']
      have htrees : (n.bodies.map fun body => Indexed.substituteOuter
            { tree := body.2, known := fun rest => s.known ((place, body.1) :: rest) } old
            new).map Indexed.tree =
          n.bodies.map fun body => body.2.substituteOuter old new := by
        rw [List.map_map]
        refine List.map_congr_left fun body hbody => ?_
        exact hbodies n (List.mem_of_getElem? hn) body hbody _ (h.inside ⟨n, hn, hbody⟩)
      simp only [Option.map_some, Nat.zero_add, hreaders, Node.replaceReads, apply_ite Host.node]
      rw [Host.rewired]
      simp only [Host.inside, htrees]

theorem mentions_eq_false_iff (h : Arises s) {name : String} :
    s.mentions name = false ↔ s.tree.readers name = [] ∧ s.tree.isOutput name = false := by
  rw [mentions, h.truthful.readers_eq h.keyedTree]
  simp

theorem tree_substituteOuter (h : Arises s) (old new : String) :
    (s.substituteOuter old new).tree = s.tree.substituteOuter old new := by
  obtain ⟨g, known⟩ := s
  induction g using bodyInduction generalizing known with
  | step g ih =>
      rw [substituteOuter_eq, h.truthful.defines_eq]
      cases hmentions : mentions { tree := g, known } old with
      | false =>
          obtain ⟨hreaders, hout⟩ := h.mentions_eq_false_iff.1 hmentions
          simp [substituteOuter_of_readers hreaders hout]
      | true =>
          rw [Graph.substituteOuter_eq]
          cases g.defines old with
          | true => rfl
          | false => simp [h.map_node_rewiredHosts ih]

/-! ## Mutations of a graph -/

theorem addNode (h : Arises s) {host : Host} (hhost : host.Sound) : Arises (s.addNode host) :=
  .ofHosts fun other hother => by
    rcases List.mem_append.1 hother with hother | hother
    · exact h.sound hother
    · exact List.mem_singleton.1 hother ▸ hhost

theorem putNode (h : Arises s) {place : Nat} {host : Host} (hhost : host.Sound) :
    Arises (s.putNode place host) :=
  .ofHosts fun _ hother => (List.mem_or_eq_of_mem_set hother).elim h.sound (· ▸ hhost)

theorem dropNode (h : Arises s) (place : Nat) : Arises (s.dropNode place) :=
  .ofHosts fun _ hother => h.sound (List.mem_of_mem_eraseIdx hother)

theorem replaceInputs (h : Arises s) (old new : String) : Arises (s.replaceInputs old new) := by
  unfold Indexed.replaceInputs
  split
  · exact h
  · exact .ofHosts (h.sound_rewiredHosts fun _ _ _ _ _ hbody => hbody.substituteOuter old new)

theorem renameProduced (h : Arises s) (old new : String) : Arises (s.renameProduced old new) := by
  unfold Indexed.renameProduced
  split
  · exact h
  · rename_i place host hfound
    obtain ⟨_, -, hplace⟩ := Option.bind_eq_some_iff.1 hfound
    obtain ⟨_, hhost, heq⟩ := Option.map_eq_some_iff.1 hplace
    obtain ⟨-, rfl⟩ := Prod.mk.inj heq
    have hsound := h.sound (List.mem_of_getElem? hhost)
    exact h.putNode ⟨hsound.1, hsound.2⟩

theorem renameValue (h : Arises s) {old new : String} (hs : s.renameValue old new = .ok t) :
    Arises t := by
  unfold Indexed.renameValue at hs
  split at hs
  · exact Except.ok.inj hs ▸ h
  split at hs
  · cases hs
  · exact Except.ok.inj hs ▸ .ofHosts fun _ => ((h.renameProduced old new).replaceInputs old new).sound

theorem rebindOutput (h : Arises s) {enclosing : List Graph} {old new : String}
    (hs : s.rebindOutput enclosing old new = .ok t) : Arises t := by
  unfold Indexed.rebindOutput at hs
  split at hs
  · cases hs
  · exact Except.ok.inj hs ▸ .ofHosts fun _ => h.sound

theorem removeUnreferenced? (h : Arises s) {place : Nat}
    (hs : s.removeUnreferenced? place = some t) : Arises t := by
  unfold Indexed.removeUnreferenced? at hs
  split at hs
  · cases hs
  split at hs
  · cases hs
  · exact Option.some.inj hs ▸ (h.dropNode place).note [] _

theorem sortTopologically (h : Arises s) (hs : s.sortTopologically = .ok t) : Arises t := by
  unfold Indexed.sortTopologically at hs
  dsimp only at hs
  split at hs
  · refine Except.ok.inj hs ▸ .ofHosts fun host hhost => ?_
    obtain ⟨place, -, hplace⟩ := List.mem_filterMap.1 hhost
    exact h.sound (List.mem_of_getElem? hplace)
  · cases hs

end Arises

/-! ## What becomes of the tree -/

theorem tree_addNode (s : Indexed) (host : Host) :
    (s.addNode host).tree = s.tree.addNode host.node := by
  simp [addNode, Graph.addNode]

theorem tree_putNode (s : Indexed) (place : Nat) (host : Host) :
    (s.putNode place host).tree = s.tree.putNode place host.node := by
  simp [putNode, Graph.putNode, List.map_set]

theorem tree_dropNode (s : Indexed) (place : Nat) :
    (s.dropNode place).tree = s.tree.dropNode place := by
  simp [dropNode, Graph.dropNode, ← List.eraseIdx_map]

theorem tree_replaceNode (s : Indexed) (r : NodeRef) (next : Host) :
    (s.replaceNode r next).map tree = s.tree.replaceNode r next.node := by
  unfold replaceNode Graph.replaceNode
  cases s.tree.placeOf r with
  | error cause => rfl
  | ok place => exact congrArg Except.ok (s.tree_putNode place next)

theorem tree_removeNode (s : Indexed) (r : NodeRef) :
    (s.removeNode r).map tree = s.tree.removeNode r := by
  unfold removeNode Graph.removeNode
  cases s.tree.placeOf r with
  | error cause => rfl
  | ok place => exact congrArg Except.ok (s.tree_dropNode place)

namespace Arises

theorem tree_replaceInputs (h : Arises s) (old new : String) :
    (s.replaceInputs old new).tree = s.tree.replaceInputs old new := by
  unfold Indexed.replaceInputs
  rw [h.truthful.readers_eq h.keyedTree]
  by_cases hsame : old = new
  · simp [hsame]
  cases hreaders : s.tree.readers old with
  | nil => simp [replaceInputs_of_readers hreaders]
  | cons =>
      have hnodes : _ = s.tree.nodes.map (Node.replaceReads old new) :=
        h.map_node_rewiredHosts fun _ _ _ _ _ hbody => hbody.tree_substituteOuter old new
      simp [hsame, Graph.replaceInputs, hnodes]

theorem tree_renameProduced (h : Arises s) (old new : String) :
    (s.renameProduced old new).tree = s.tree.renameProduced old new := by
  unfold Indexed.renameProduced Graph.renameProduced
  rw [h.truthful.producerPlace?_eq, producer?_eq]
  cases hplace : s.tree.producerPlace? old with
  | none => rfl
  | some place =>
      obtain ⟨n, hn, -⟩ := producerPlace?_mem hplace
      simp [hn, tree_putNode]

theorem tree_renameValue (h : Arises s) (old new : String) :
    (s.renameValue old new).map tree = s.tree.renameValue old new := by
  unfold Indexed.renameValue Graph.renameValue
  rw [h.truthful.defines_eq]
  split
  · rfl
  split
  · rfl
  · have htree := ((h.renameProduced old new).tree_replaceInputs old new).trans
      (congrArg (Graph.replaceInputs · old new) (h.tree_renameProduced old new))
    simp [Except.map, htree]

theorem tree_rebindOutput (h : Arises s) (enclosing : List Graph) (old new : String) :
    (s.rebindOutput enclosing old new).map tree = s.tree.rebindOutput enclosing old new := by
  have hproducer : (s.producerPlace? old).isSome = (s.tree.producer? old).isSome := by
    rw [h.truthful.producerPlace?_eq, Bool.eq_iff_iff, producerPlace?_isSome_iff,
      producer?_isSome_iff]
  unfold Indexed.rebindOutput Graph.rebindOutput
  rw [hproducer]
  split
  · rfl
  · simp [Except.map]
    rfl

theorem tree_removeUnreferenced? (h : Arises s) (place : Nat) :
    (s.removeUnreferenced? place).map tree = s.tree.removeUnreferenced? place := by
  have hused : s.isUsedBeside place = s.tree.isUsedBeside place := by
    funext value
    rw [isUsedBeside, Graph.isUsedBeside, h.truthful.readers_eq h.keyedTree]
  unfold Indexed.removeUnreferenced? Graph.removeUnreferenced?
  cases s.tree.nodes[place]? with
  | none => rfl
  | some n =>
      simp only [hused]
      split
      · rfl
      · rw [Option.map_some, ← s.tree_dropNode]
        rfl

theorem dependencies_eq (h : Arises s) : s.dependencies = s.tree.dependencies := by
  have hnodes : s.tree.nodes = s.tree.nodes.zipIdx.map Prod.fst := (List.zipIdx_map_fst 0 _).symm
  rw [dependencies, Graph.dependencies, h.truthful.index_eq h.keyedTree]
  conv_rhs => rw [hnodes, List.map_map]
  refine List.map_congr_left fun host hhost => ?_
  rw [h.truthful.reads_eq h.keyedTree (List.mem_zipIdx_iff_getElem?.1 hhost)]
  rfl

theorem tree_sortTopologically (h : Arises s) :
    s.sortTopologically.map tree = s.tree.sortTopologically := by
  have hnodes (order : List Nat) : (order.filterMap fun place => s.hosts[place]?).map Host.node =
      s.tree.nodesAt order := by
    simp [List.map_filterMap, nodesAt, Function.comp_def]
  unfold Indexed.sortTopologically Graph.sortTopologically topologicalOrder
  rw [h.dependencies_eq]
  dsimp only
  split
  · simp only [Except.map, tree_ofHosts, hnodes]
    rfl
  · rfl

end Arises

end Indexed

/-! ## Mutations of a tree -/

/-- Whether what a mutation puts into a graph arises itself. -/
def Mutation.Sound : Mutation → Prop
  | .add host => host.Sound
  | .replace _ next => next.Sound
  | _ => True

namespace Indexed

/-- What is reached from a tree by mutations of its graphs and lookups in them. -/
inductive Mutated (s : Indexed) : Indexed → Prop
  | start : Mutated s s
  | lookup {t : Indexed} (before : Mutated s t) (trail : Trail) : Mutated s (t.remember trail)
  | mutation {t u : Indexed} {trail : Trail} {m : Mutation} (before : Mutated s t) (sound : m.Sound)
      (step : t.mutate trail m = .ok u) : Mutated s u

namespace Arises

/-- A tree in which nothing has been looked up yet arises. -/
theorem fresh {g : Graph} (hkeyed : KeyedTree g) : Arises { tree := g, known := fun _ => none } := by
  induction g using bodyInduction with
  | step g ih =>
      refine .make hkeyed.here rfl fun place key body hbody => ?_
      obtain ⟨n, hn, hmem⟩ := hbody
      have hn := List.mem_of_getElem? hn
      exact ih n hn _ hmem (Everywhere.body hkeyed hn hmem)

/-- A mutation of a graph leads to a tree that arises. -/
theorem mutate (h : Arises s) {m : Mutation} (hm : m.Sound) (hs : s.mutate trail m = .ok t) :
    Arises t := by
  unfold Indexed.mutate at hs
  cases hat : s.at? trail with
  | none =>
      rw [hat] at hs
      exact Except.ok.inj hs ▸ h
  | some here =>
      have hhere := h.part hat
      have hput : ∀ {change : Except Failure Indexed},
          change.map (s.put trail) = .ok t → (∀ new, change = .ok new → Arises new) → Arises t := by
        intro change hchange hnew
        obtain ⟨new, hdone, rfl⟩ := map_eq_ok hchange
        exact h.change hat (hnew new hdone)
      simp only [hat] at hs
      cases m with
      | add host => exact Except.ok.inj hs ▸ h.change hat (hhere.addNode hm)
      | replace r next =>
          refine hput hs fun new hnew => ?_
          obtain ⟨place, -, rfl⟩ := map_eq_ok hnew
          exact hhere.putNode hm
      | remove r =>
          refine hput hs fun new hnew => ?_
          obtain ⟨place, -, rfl⟩ := map_eq_ok hnew
          exact hhere.dropNode place
      | removeUnreferenced place =>
          obtain rfl := Except.ok.inj hs
          cases hremoved : here.removeUnreferenced? place with
          | none => exact h
          | some new => exact h.change hat (hhere.removeUnreferenced? hremoved)
      | replaceInputs old new =>
          dsimp only at hs
          split at hs
          · exact Except.ok.inj hs ▸ h
          · exact Except.ok.inj hs ▸ h.change hat (hhere.replaceInputs old new)
      | rename old new =>
          dsimp only at hs
          split at hs
          · exact Except.ok.inj hs ▸ h
          · exact hput hs fun _ => hhere.renameValue
      | rebind old new => exact hput hs fun _ => hhere.rebindOutput
      | sort => exact hput hs fun _ => hhere.sortTopologically
      | setInfo info => exact Except.ok.inj hs ▸ h.note trail _
      | eraseInfo name => exact Except.ok.inj hs ▸ h.note trail _

/-- So do mutations and lookups one after the other. -/
theorem mutated (h : Arises s) (hm : Mutated s t) : Arises t := by
  induction hm with
  | start => exact h
  | lookup _ trail ih => exact ih.lookup trail
  | mutation _ sound step ih => exact ih.mutate sound step

/-- What is remembered shows neither in what a mutation makes of the tree nor in how it fails. -/
theorem tree_mutate (h : Arises s) (hat : s.at? trail = some here) (m : Mutation) :
    (s.mutate trail m).map tree =
      (m.edit (s.tree.enclosingAt trail) here.tree).map (s.tree.putAt trail) := by
  obtain ⟨g, hg, hhere⟩ := Option.map_eq_some_iff.1 hat
  obtain rfl : here.tree = g := congrArg tree hhere.symm
  have harises := h.part hat
  have hself : s.tree.putAt trail here.tree = s.tree := putAt_self h.keyedTree hg
  have hput (change : Except Failure Indexed) :
      (change.map (s.put trail)).map tree = (change.map tree).map (s.tree.putAt trail) := by
    cases change <;> rfl
  have hnote (infos : InfoTable) :
      (s.annotate trail infos).tree = s.tree.putAt trail { here.tree with infos } := by
    rw [annotate, hg]
  simp only [Indexed.mutate, hat]
  cases m with
  | add host => simp [Mutation.edit, Except.map, Indexed.put, tree_addNode]
  | replace r next => rw [hput, Mutation.edit, tree_replaceNode]
  | remove r => rw [hput, Mutation.edit, tree_removeNode]
  | removeUnreferenced place =>
      dsimp only [Mutation.edit]
      rw [← harises.tree_removeUnreferenced?]
      cases hremoved : here.removeUnreferenced? place with
      | none => simp [Except.map, hself]
      | some new => simp [Except.map, Indexed.put]
  | replaceInputs old new =>
      dsimp only [Mutation.edit]
      split
      · rename_i hnone
        have hsame : here.tree.replaceInputs old new = here.tree := by
          rw [harises.truthful.readers_eq harises.keyedTree, Bool.or_eq_true, decide_eq_true_eq,
            List.isEmpty_iff] at hnone
          rcases hnone with rfl | hreaders
          · exact replaceInputs_self _ _
          · exact replaceInputs_of_readers hreaders new
        simp [Except.map, hsame, hself]
      · simp [Except.map, Indexed.put, harises.tree_replaceInputs]
  | rename old new =>
      dsimp only [Mutation.edit]
      split
      · rename_i hsame
        simp [Graph.renameValue, hsame, Except.map, hself]
      · rw [hput, harises.tree_renameValue]
  | rebind old new => rw [hput, Mutation.edit, harises.tree_rebindOutput]
  | sort => rw [hput, Mutation.edit, harises.tree_sortTopologically]
  | setInfo info => exact congrArg Except.ok (hnote _)
  | eraseInfo name =>
      refine congrArg Except.ok ((hnote _).trans (congrArg (s.tree.putAt trail) ?_))
      unfold eraseInfo
      split
      · cases here.tree
        rfl
      · rfl

end Arises

end Indexed

end TensorGraph
