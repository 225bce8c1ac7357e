import TensorGraph.Proofs.Bypassing
import TensorGraph.Proofs.Chains
import TensorGraph.Proofs.Resting

/-!
# Shortcuts in chains

A node of a chain whose result can be had from an earlier value of the chain is taken out: its result
and that value become one. So transpositions that move nothing go, and so do two that cancel; and of
two in a row that do not cancel one is left, which does what both did. What is left is a chain with the
same composition, and none of these rules fails on a chain.

## Main results

* `Graph.bypass_joined` -- a bypass joins two values, or leaves an identity.
* `Graph.Chained.joined` -- a chain stays one when the values at the two ends of a part are joined.
* `Graph.Chained.exchanged` -- and when a part is exchanged for another one.
-/

namespace TensorGraph

open TensorGraph.Graph Transposes

/-! ## Nodes without bodies -/

namespace Attributes

/-- An attribute that has been set is found. -/
theorem lookup_set (attributes : List (String × Attribute)) (key : String) (value : Attribute) :
    (set attributes key value).lookup key = some value := by
  unfold set
  induction attributes with
  | nil => simp
  | cons entry rest ih =>
      obtain ⟨k, old⟩ := entry
      by_cases hkey : k = key
      · simp [hkey]
      · have hother : (key == k) = false := beq_false_of_ne fun e => hkey e.symm
        have hhead : (k == key) = false := beq_false_of_ne hkey
        simp only [List.any_cons, hhead, Bool.false_or, List.map_cons, List.cons_append]
        split at ih
        · rename_i hany
          rw [if_pos hany]
          simpa [hhead, List.lookup_cons, hother] using ih
        · rename_i hany
          rw [if_neg hany]
          simpa [List.lookup_cons, hother] using ih

/-- Setting an attribute leaves the others. -/
theorem lookup_set_of_ne (attributes : List (String × Attribute)) {key other : String}
    (value : Attribute) (hne : other ≠ key) :
    (set attributes key value).lookup other = attributes.lookup other := by
  have hmap : (attributes.map fun entry =>
      if entry.1 == key then (entry.1, value) else (entry.1, entry.2)).lookup other =
        attributes.lookup other := by
    induction attributes with
    | nil => rfl
    | cons entry rest ih =>
        obtain ⟨k, old⟩ := entry
        rw [List.map_cons]
        by_cases hk : k = key
        · subst hk
          simp only [beq_self_eq_true, if_true, List.lookup_cons, beq_false_of_ne hne, ih]
        · simp only [beq_false_of_ne hk, Bool.false_eq_true, if_false, List.lookup_cons, ih]
  unfold set
  split
  · exact hmap
  · simp [List.lookup_append, List.lookup_cons, beq_false_of_ne hne]

end Attributes

namespace Node

variable {n : Node}

/-- Setting an attribute that is no body puts no body into a node. -/
theorem bodies_set (hbodies : n.bodies = []) {m : Node} {key : String} {value : Attribute}
    (hvalue : value.body? = none) (hset : m.attributes = Attributes.set n.attributes key value) :
    m.bodies = [] := by
  refine List.eq_nil_iff_forall_not_mem.2 fun body hbody => ?_
  have hmem := Attributes.mem_of_mem_set hvalue (hset ▸ mem_bodies.1 hbody)
  rw [← mem_bodies, hbodies] at hmem
  cases hmem

/-- A node without bodies has no attribute that is changed with the bodies. -/
theorem map_mapBody (hbodies : n.bodies = []) (f : Graph → Graph) :
    (n.attributes.map fun entry => (entry.1, entry.2.mapBody f)) = n.attributes := by
  refine (List.map_congr_left fun entry hentry => ?_).trans (List.map_id _)
  obtain ⟨key, value⟩ := entry
  cases value with
  | body b =>
      have hbody := mem_bodies.2 hentry
      rw [hbodies] at hbody
      cases hbody
  | _ => rfl

/-- When two values become one, a node without bodies does what it did. -/
theorem respelled_merged {drop : String} (keep : String) (hbodies : n.bodies = [])
    (hdrop : drop ≠ "") : n.Respelled (substituteName drop keep) (n.merged drop keep) := by
  have houtputs : (n.merged drop keep).outputs = n.outputs.map (substituteName drop keep) := by
    rw [merged, outputs_replaceReads, outputs_renamed hdrop]
  by_cases hread : drop ∈ n.reads
  · have hread' : drop ∈ (n.renamed drop keep).reads := by rwa [reads_renamed]
    refine ⟨by simp [merged], ?_, houtputs, ?_⟩
    · rw [merged, replaceReads_of_mem hread', inputs_renamed]
    · rw [merged, replaceReads_of_mem hread', attributes_renamed]
      exact map_mapBody hbodies _
  · have hread' : drop ∉ (n.renamed drop keep).reads := by rwa [reads_renamed]
    refine ⟨by simp [merged], ?_, houtputs, ?_⟩
    · rw [merged, replaceReads_of_not_mem keep hread', inputs_renamed,
        map_substituteName_of_not_mem keep fun hin => hread (mem_reads.2 (.inl ⟨hin, hdrop⟩))]
    · rw [merged, replaceReads_of_not_mem keep hread', attributes_renamed]

end Node

namespace Graph

/-! ## Joined values -/

/-- What is left of a graph when some nodes are gone and the value `drop` has become the value
`keep`. -/
structure Joined (g : Graph) (gone : List Node) (drop keep : String) (h : Graph) : Prop where
  inputs : h.inputs = g.inputs
  outputs : h.outputs = g.outputs
  nodes : ∃ rest, g.nodes.Perm (gone ++ rest) ∧ h.nodes.Perm (rest.map (Node.merged drop keep))
  infos : Retells g drop keep h

variable {visible : String → Prop} {g : Graph} {place : Nat} {n : Node} {old new : String}

/-- Nothing changes when the readers of a value that nobody reads are rewired. -/
theorem replaceInputs_of_unread (new : String) (hunread : ∀ m ∈ g.nodes, old ∉ m.reads) :
    g.replaceInputs old new = g := by
  have hnodes : g.nodes.map (Node.replaceReads old new) = g.nodes :=
    (List.map_congr_left fun m hm => Node.replaceReads_of_not_mem new (hunread m hm)).trans
      (List.map_id _)
  unfold replaceInputs
  rw [hnodes]
  cases g
  split <;> rfl

private theorem joined_redirected (hg : Wellformed visible g) (hn : g.nodes[place]? = some n)
    (hout : n.outputs = [old]) (hne : old ≠ new) :
    Joined g [n] old new (Rewriting.redirected g place old new (g.infos.erase old)) where
  inputs := by simp [Rewriting.redirected]
  outputs := by simp [Rewriting.redirected]
  nodes := ⟨_, (perm_eraseIdx hn).symm, .of_eq (Identities.nodes_rewired hg hn hout hne)⟩
  infos := .of_known fun _ _ => InfoTable.get?_of_erase

private theorem exists_renamed (hg : Wellformed visible g) (hn : g.nodes[place]? = some n)
    (hout : n.outputs = [old]) (hne : old ≠ new) (hyielded : g.isOutput old = true)
    (hproduced : new ∈ g.results) (hother : g.isOutput new = false) :
    ∃ h, (g.dropNode place).renameValue new old = .ok h ∧ Joined g [n] new old h := by
  obtain ⟨h, hrenamed, hinputs, houtputs, hnodes, hinfos⟩ :=
    Identities.renameValue_dropNode hg hn hout hne.symm hyielded hproduced
  have hnot : new ∉ g.outputs := by simpa [isOutput] using hother
  refine ⟨h, hrenamed, hinputs, ?_, ⟨_, (perm_eraseIdx hn).symm, .of_eq hnodes⟩, .of_movedInfos hinfos⟩
  rw [houtputs, map_substituteName_of_not_mem old hnot]

/-- Whether a value and its replacement have become one: the replacement is left, or, where the value is
an output of the graph and the replacement a result that is none, the value. -/
def Joins (g : Graph) (gone : List Node) (old new : String) (h : Graph) : Prop :=
  g.isOutput old = false ∧ Joined g gone old new h ∨
    new ∈ g.results ∧ g.isOutput new = false ∧ Joined g gone new old h

/-- A bypass joins two values, or leaves an identity. -/
theorem bypass_joined (hg : Wellformed visible g) (hn : g.nodes[place]? = some n)
    (hout : n.outputs = [old]) (hapart : old ∉ n.reads) (hne : old ≠ new)
    (hunread : g.isOutput old = true → ∀ m ∈ g.nodes, old ∉ m.reads) :
    ∃ h how, g.bypass { node := n, place := some place } new = .ok (h, how) ∧
      (Joins g [n] old new h ∨ h = g.putNode place (shim n old new)) := by
  rw [bypass_eq hn hout hapart hne]
  cases hyielded : g.isOutput old with
  | false => exact ⟨_, _, rfl, .inl (.inl ⟨hyielded, joined_redirected hg hn hout hne⟩)⟩
  | true =>
      rw [if_neg (by simp), replaceInputs_of_unread new (hunread hyielded)]
      cases hproduced : (g.producer? new).isSome && !g.isOutput new with
      | true =>
          rw [Bool.and_eq_true, Bool.not_eq_true', producer?_isSome_iff] at hproduced
          obtain ⟨h, hrenamed, hjoined⟩ :=
            exists_renamed hg hn hout hne hyielded hproduced.1 hproduced.2
          refine ⟨h, .renamed, ?_, .inl (.inr ⟨hproduced.1, hproduced.2, hjoined⟩)⟩
          simp [orStop, Except.map, hrenamed]
      | false => exact ⟨_, _, rfl, .inr rfl⟩

/-- A node whose only result nothing uses can be removed by its name. -/
theorem removeNamedIfUnreferenced_spare {value : String} (hnames : (g.nodes.map Node.name).Nodup)
    (hn : n ∈ g.nodes) (hout : n.outputs = [value]) (hinside : g.isOutput value = false)
    (hunread : ∀ m ∈ g.nodes, value ∉ m.reads) :
    ∃ rest, g.nodes.Perm (n :: rest) ∧
      g.removeNamedIfUnreferenced n.name =
        { g with nodes := rest, infos := g.infos.erase value } := by
  obtain ⟨place, hplace⟩ : ∃ place, g.place? n.name = some place := by
    rw [← Option.isSome_iff_exists, place?, List.findIdx?_isSome, List.any_eq_true]
    exact ⟨n, hn, beq_self_eq_true _⟩
  obtain ⟨m, hm, hname⟩ := Relocation.place?_eq_some hplace
  obtain rfl : m = n := List.inj_on_of_nodup_map hnames (List.mem_of_getElem? hm) hn hname
  refine ⟨_, (perm_eraseIdx hm).symm, ?_⟩
  rw [removeNamedIfUnreferenced, hplace, Option.bind_some,
    removeUnreferenced?_of_unread hm hout hinside hunread]
  rfl

/-! ## Chains with joined values -/

namespace Chained

variable {rank : Nat} {x y s t drop keep : String} {before between after : List Link}
  {fresh : List Link} {perms ps qs rs : List (List Nat)} {gone rest : List Node} {h : Graph}

/-- A value at which a chain may be cut is known to have the rank of the chain, if anything is known of
it. -/
theorem rankedAs (hc : g.Chained rank x y (before ++ after) perms)
    (hbefore : Chain rank x before s ps) : g.RankedAs rank s := by
  refine hc.ranked s (hbefore.target_mem_outputs.imp_right ?_)
  rintro ⟨l, hl, hmem⟩
  exact ⟨l, List.mem_append_left _ hl, hmem⟩

/-- The nodes beside a part of a chain. -/
theorem nodes_beside (hc : g.Chained rank x y (before ++ (between ++ after)) perms)
    (hrest : g.nodes.Perm (between.flatMap Link.nodes ++ rest)) :
    rest.Perm ((before ++ after).flatMap Link.nodes) := by
  have hall := hrest.symm.trans hc.nodes
  simp only [List.flatMap_append] at hall ⊢
  exact (List.perm_append_left_iff _).1 (hall.trans (List.perm_append_comm_assoc _ _ _))

/-- When two values become one whose ranks are known, the rank of every other value is known as
before. -/
theorem rankedAs_joined (hc : g.Chained rank x y (before ++ (between ++ after)) perms)
    (hj : Joined g gone drop keep h) (hboth : g.RankedAs rank drop ∧ g.RankedAs rank keep)
    (hspelled : ∀ l ∈ before ++ after,
      l.node.Respelled (substituteName drop keep) (l.node.merged drop keep)) {value : String}
    (hvalue : value = x ∨ ∃ l ∈ (before ++ after).map (Link.map (Node.merged drop keep)),
      value ∈ l.node.outputs) : h.RankedAs rank value := by
  intro info hinfo dims hdims
  obtain ⟨name, info', hinfo', hshape, hname⟩ := hj.infos value info hinfo
  refine (?_ : g.RankedAs rank name) info' hinfo' dims (hshape.trans hdims)
  rcases hname with rfl | ⟨-, rfl⟩
  · rcases hvalue with rfl | ⟨l, hl, hmem⟩
    · exact hc.ranked _ (.inl rfl)
    · obtain ⟨k, hk, rfl⟩ := List.mem_map.1 hl
      rw [Link.map, (hspelled k hk).outputs] at hmem
      rcases mem_map_substituteName hmem with ⟨rfl, -⟩ | ⟨hmem, -⟩
      · exact hboth.2
      · refine hc.ranked _ (.inr ⟨k, ?_, hmem⟩)
        simp only [List.mem_append] at hk ⊢
        exact hk.imp_right .inr
  · exact hboth.1

/-- A chain stays one when the values at the two ends of a part of it become one value, and the part
goes. -/
theorem joined (hc : g.Chained rank x y (before ++ (between ++ after)) perms)
    (hbefore : Chain rank x before s ps) (hafter : Chain rank t after y qs)
    (hranked : g.RankedAs rank t) (hgone : gone.Perm (between.flatMap Link.nodes))
    (hj : Joined g gone drop keep h) (hends : drop = t ∧ keep = s ∨ drop = s ∧ keep = t)
    (hpresent : drop ≠ "" ∧ keep ≠ "") (hx : x ≠ drop) (hy : y ≠ drop) :
    h.Chained rank x y ((before ++ after).map (Link.map (Node.merged drop keep))) (ps ++ qs) := by
  obtain ⟨rest, hrest, hnodes⟩ := hj.nodes
  have hstay := hc.nodes_beside (hrest.trans (hgone.append_right rest))
  have hspelled : ∀ n ∈ (before ++ after).flatMap Link.nodes,
      n.Respelled (substituteName drop keep) (n.merged drop keep) := fun n hn =>
    n.respelled_merged keep (hc.bodyless n (hrest.mem_iff.2
      (List.mem_append_right _ (hstay.mem_iff.2 hn)))) hpresent.1
  have hsame {value : String} (hne : value ≠ drop) : substituteName drop keep value = value := by
    rw [substituteName_eq, if_neg hne]
  have hσ : ∀ value, value ≠ "" → substituteName drop keep value ≠ "" := by
    intro value hvalue
    rw [substituteName_eq]
    split
    · exact hpresent.2
    · exact hvalue
  have hjoint : substituteName drop keep s = substituteName drop keep t ∧
      (g.RankedAs rank drop ∧ g.RankedAs rank keep) := by
    have hs := hc.rankedAs hbefore
    rcases hends with ⟨rfl, rfl⟩ | ⟨rfl, rfl⟩
    · exact ⟨by simp [substituteName_eq], hranked, hs⟩
    · exact ⟨by simp [substituteName_eq], hs, hranked⟩
  refine ⟨hj.inputs.trans hc.inputs, hj.outputs.trans hc.outputs, ?_, ?_, fun n hn => ?_,
    fun value hvalue => ?_⟩
  · rw [List.map_append, Chain.append_iff]
    refine ⟨substituteName drop keep s, ps, qs, ?_, ?_, rfl⟩
    · have hfirst := hbefore.map hσ fun n hn => hspelled n (by simp [List.flatMap_append, hn])
      rwa [hsame hx] at hfirst
    · have hlast := hafter.map hσ fun n hn => hspelled n (by simp [List.flatMap_append, hn])
      rwa [hsame hy, ← hjoint.1] at hlast
  · rw [Link.nodes_map]
    exact hnodes.trans (hstay.map _)
  · obtain ⟨m, hm, rfl⟩ := List.mem_map.1 (hnodes.mem_iff.1 hn)
    have hm' := hrest.mem_iff.2 (List.mem_append_right _ hm)
    rw [(hspelled m (hstay.mem_iff.1 hm)).bodies, hc.bodyless m hm']
  · exact hc.rankedAs_joined hj hjoint.2 (fun l hl => hspelled l.node
      (List.mem_flatMap.2 ⟨l, hl, List.mem_cons_self⟩)) hvalue

/-- When a part of a chain is exchanged for another one that yields nothing new, the chain yields nothing
new. -/
theorem mem_outputs_of_exchanged
    (hsame : ∀ l ∈ fresh, ∀ value ∈ l.node.outputs, ∃ k ∈ between, value ∈ k.node.outputs)
    {value : String} (hvalue : value = x ∨ ∃ l ∈ before ++ (fresh ++ after), value ∈ l.node.outputs) :
    value = x ∨ ∃ l ∈ before ++ (between ++ after), value ∈ l.node.outputs := by
  refine hvalue.imp_right ?_
  rintro ⟨l, hl, hmem⟩
  simp only [List.mem_append] at hl
  rcases hl with hl | hl | hl
  · exact ⟨l, by simp [hl], hmem⟩
  · obtain ⟨k, hk, hmem⟩ := hsame l hl value hmem
    exact ⟨k, by simp [hk], hmem⟩
  · exact ⟨l, by simp [hl], hmem⟩

/-- A chain stays one when a part of it is exchanged for another one between the same values, of which
nothing else is known. -/
theorem exchanged (hc : g.Chained rank x y (before ++ (between ++ after)) perms)
    (hbefore : Chain rank x before s ps) (hnew : Chain rank s fresh t rs)
    (hafter : Chain rank t after y qs) (hgone : g.nodes.Perm (between.flatMap Link.nodes ++ rest))
    (hnodes : h.nodes.Perm (fresh.flatMap Link.nodes ++ rest)) (hinputs : h.inputs = g.inputs)
    (houtputs : h.outputs = g.outputs) (hbodies : ∀ n ∈ fresh.flatMap Link.nodes, n.bodies = [])
    (hranked : ∀ value, value = x ∨ (∃ l ∈ before ++ (fresh ++ after), value ∈ l.node.outputs) →
      h.RankedAs rank value) :
    h.Chained rank x y (before ++ (fresh ++ after)) (ps ++ (rs ++ qs)) := by
  have hstay := hc.nodes_beside hgone
  refine ⟨hinputs.trans hc.inputs, houtputs.trans hc.outputs, ?_, ?_, fun n hn => ?_, hranked⟩
  · exact Chain.append_iff.2 ⟨s, ps, _, hbefore, Chain.append_iff.2 ⟨t, rs, qs, hnew, hafter, rfl⟩, rfl⟩
  · simp only [List.flatMap_append] at hstay ⊢
    exact (hnodes.trans (hstay.append_left _)).trans (List.perm_append_comm_assoc _ _ _)
  · rcases List.mem_append.1 (hnodes.mem_iff.1 hn) with hn | hn
    · exact hbodies n hn
    · exact hc.bodyless n (hgone.mem_iff.2 (List.mem_append_right _ hn))

/-- So it does when one of the two values is given up for the other one, as a bypass does it. -/
theorem joined_ends (hc : g.Chained rank x y (before ++ (between ++ after)) perms)
    (hg : Wellformed visible g) (hbefore : Chain rank x before s ps)
    (hafter : Chain rank t after y qs) (hmade : t ∈ g.results) (hranked : g.RankedAs rank t)
    (hnamed : s ≠ "" ∧ t ≠ "") (hgone : gone.Perm (between.flatMap Link.nodes))
    (hj : Joins g gone t s h) : ∃ links, h.Chained rank x y links (ps ++ qs) := by
  have hx {value : String} (hvalue : value ∈ g.results) : x ≠ value := by
    rintro rfl
    exact hg.apart _ hvalue (by simp [hc.inputs])
  have hy {value : String} (hinside : g.isOutput value = false) : y ≠ value := by
    rintro rfl
    simp [isOutput, hc.outputs] at hinside
  rcases hj with ⟨hinside, hj⟩ | ⟨hproduced, hinside, hj⟩
  · exact ⟨_, hc.joined hbefore hafter hranked hgone hj (.inl ⟨rfl, rfl⟩) hnamed.symm (hx hmade)
      (hy hinside)⟩
  · exact ⟨_, hc.joined hbefore hafter hranked hgone hj (.inr ⟨rfl, rfl⟩) hnamed (hx hproduced)
      (hy hinside)⟩

end Chained

end Graph

/-- Whether a graph is a chain whose permutations compose to a certain one. -/
def Graph.Turns (rank : Nat) (x y : String) (p : List Nat) (g : Graph) : Prop :=
  ∃ links perms, g.Chained rank x y links perms ∧ Permutation.composition rank perms = p

end TensorGraph
