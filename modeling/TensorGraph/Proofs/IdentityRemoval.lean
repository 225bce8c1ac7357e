import TensorGraph.Execution.Value
import TensorGraph.Proofs.Meaning
import TensorGraph.Proofs.Sweeping

/-!
# Removing identities changes nothing

An identity that goes leaves a graph in which its two values have become one. So the pass that
removes identities never fails on a valid graph, leaves a graph that is valid but perhaps for
permutations, and changes neither whether the graph can be run nor what comes out.

## Main results

* `Identities.eliminate_merged` -- removing an identity merges its two values.
* `Harmless.everyGraph` -- what is harmless in every graph is harmless in a tree.
-/

namespace TensorGraph

open TensorGraph.Graph Evaluation

/-! ## Parts of changed graphs -/

theorem InfoTable.get?_of_erase {t : InfoTable} {name other : String} {info : ValueInfo}
    (h : (t.erase other).get? name = some info) : t.get? name = some info := by
  rw [get?_erase] at h
  split at h
  · cases h
  · exact h

namespace Graph

@[simp] theorem inputs_dropNode (g : Graph) (place : Nat) : (g.dropNode place).inputs = g.inputs :=
  rfl

@[simp] theorem outputs_dropNode (g : Graph) (place : Nat) :
    (g.dropNode place).outputs = g.outputs := rfl

@[simp] theorem infos_dropNode (g : Graph) (place : Nat) : (g.dropNode place).infos = g.infos := rfl

@[simp] theorem nodes_dropNode (g : Graph) (place : Nat) :
    (g.dropNode place).nodes = g.nodes.eraseIdx place := rfl

@[simp] theorem inputs_eraseInfo (g : Graph) (name : String) :
    (g.eraseInfo name).inputs = g.inputs := by
  unfold eraseInfo; split <;> rfl

@[simp] theorem outputs_eraseInfo (g : Graph) (name : String) :
    (g.eraseInfo name).outputs = g.outputs := by
  unfold eraseInfo; split <;> rfl

@[simp] theorem nodes_eraseInfo (g : Graph) (name : String) :
    (g.eraseInfo name).nodes = g.nodes := by
  unfold eraseInfo; split <;> rfl

theorem get?_of_eraseInfo {g : Graph} {name other : String} {info : ValueInfo}
    (h : (g.eraseInfo other).infos.get? name = some info) : g.infos.get? name = some info := by
  unfold eraseInfo at h
  split at h
  · exact h
  · exact InfoTable.get?_of_erase h

/-- An output slot takes another value. -/
theorem exists_rebindOutput (enclosing : List Graph) {g : Graph} {old : String} (new : String)
    (hyielded : g.isOutput old = true) :
    ∃ h, g.rebindOutput enclosing old new = .ok h ∧ h.inputs = g.inputs ∧
      h.outputs = g.outputs.map (substituteName old new) ∧ h.nodes = g.nodes := by
  unfold rebindOutput
  rw [hyielded, Bool.not_true, if_neg Bool.false_ne_true]
  exact ⟨_, rfl, rfl, rfl, rfl⟩

/-- Whether all that is known of shapes in `h` was known in `g` of the same values, or of `drop` where
it is known of `keep`. -/
def Retells (g : Graph) (drop keep : String) (h : Graph) : Prop :=
  ∀ name info, h.infos.get? name = some info → ∃ name' info', g.infos.get? name' = some info' ∧
    info'.shape = info.shape ∧ (name' = name ∨ name = keep ∧ name' = drop)

section Retells

variable {g h : Graph} {drop keep : String}

theorem Retells.of_known
    (hknown : ∀ name info, h.infos.get? name = some info → g.infos.get? name = some info) :
    Retells g drop keep h :=
  fun name info hinfo => ⟨name, info, hknown name info hinfo, rfl, .inl rfl⟩

theorem Retells.of_movedInfos (heq : h.infos = movedInfos g.infos drop keep) :
    Retells g drop keep h := by
  intro name info hinfo
  rw [heq] at hinfo
  unfold movedInfos at hinfo
  cases hold : g.infos.get? drop with
  | none =>
      rw [hold] at hinfo
      exact ⟨name, info, hinfo, rfl, .inl rfl⟩
  | some moved =>
      simp only [hold] at hinfo
      split at hinfo
      · exact ⟨name, info, InfoTable.get?_of_erase hinfo, rfl, .inl rfl⟩
      · rw [InfoTable.get?_set] at hinfo
        split at hinfo
        · rename_i hname
          cases hinfo
          exact ⟨drop, moved, hold, rfl, .inr ⟨hname, rfl⟩⟩
        · exact ⟨name, info, InfoTable.get?_of_erase hinfo, rfl, .inl rfl⟩

end Retells

end Graph

/-! ## One identity -/

namespace Identities

variable {visible : String → Prop} {s : Surroundings} {g : Graph} {place : Nat} {n : Node}
  {input output : String}

/-- Nodes at other places do not yield what a node yields. -/
private theorem not_mem_results_eraseIdx (hg : Wellformed visible g)
    (hn : g.nodes[place]? = some n) {value : String} (hvalue : value ∈ n.outputs) {k : Node}
    (hk : k ∈ g.nodes.eraseIdx place) : value ∉ k.results := fun hmem =>
  ((hg.mem_results_eraseIdx hn).1 (List.mem_flatMap.2 ⟨k, hk, hmem⟩)).2 hvalue

/-- The nodes after the readers of an identity have been given its input. -/
theorem nodes_rewired (hg : Wellformed visible g) (hn : g.nodes[place]? = some n)
    (hout : n.outputs = [output]) (hne : output ≠ input) :
    (g.replaceInputs output input).nodes.eraseIdx place =
      (g.nodes.eraseIdx place).map (Node.merged output input) := by
  rw [replaceInputs, if_neg hne, List.eraseIdx_map]
  refine List.map_congr_left fun k hk => ?_
  rw [Node.merged, Node.renamed,
    if_neg (not_mem_results_eraseIdx hg hn (by simp [hout]) hk)]

/-- The nodes after the producer of its input has been given the name of its output. -/
theorem renameValue_dropNode (hg : Wellformed visible g) (hn : g.nodes[place]? = some n)
    (hout : n.outputs = [output]) (hne : input ≠ output) (hyielded : g.isOutput output = true)
    (hproduced : input ∈ g.results) :
    ∃ h, (g.dropNode place).renameValue input output = .ok h ∧ h.inputs = g.inputs ∧
      h.outputs = g.outputs.map (substituteName input output) ∧
      h.nodes = (g.nodes.eraseIdx place).map (Node.merged input output) ∧
      h.infos = movedInfos g.infos input output := by
  have hmem := List.mem_of_getElem? hn
  have hpresent : output ≠ "" := hg.ne_empty_of_mem_outputs (by simpa [isOutput] using hyielded)
  have hresult : output ∈ g.results :=
    Graph.mem_results.2 ⟨n, hmem, Node.mem_results.2 ⟨by simp [hout], hpresent⟩⟩
  have hdef : (g.dropNode place).defines output = false := by
    rw [Bool.eq_false_iff, ne_eq, defines_iff, not_or]
    refine ⟨hg.apart output hresult, fun hmem => ?_⟩
    exact ((hg.mem_results_eraseIdx hn).1 hmem).2 (by simp [hout])
  have hnames : ((g.dropNode place).nodes.map Node.name).Nodup :=
    hg.names.sublist ((List.eraseIdx_sublist g.nodes place).map Node.name)
  have honce : (g.dropNode place).Once input := fun k hk l hl =>
    hg.once input k (List.mem_of_mem_eraseIdx hk) l (List.mem_of_mem_eraseIdx hl)
  obtain ⟨h, hrenamed⟩ : ∃ h, (g.dropNode place).renameValue input output = .ok h :=
    ⟨_, by rw [renameValue, if_neg hne, hdef, if_neg Bool.false_ne_true]⟩
  obtain ⟨-, rfl⟩ := renameValue_eq_ok hne hrenamed
  refine ⟨_, hrenamed, ?_, rfl, ?_, rfl⟩
  · exact map_substituteName_of_not_mem output (hg.apart input hproduced)
  · simp only [replaceInputs, if_neg hne, nodes_renameProduced hnames honce, List.map_map]
    rfl

section Ways

variable (hg : Wellformed visible g) (hn : g.nodes[place]? = some n) (hop : n.op = "Identity")
  (hin : n.inputs = [input]) (hout : n.outputs = [output]) (hpresent : input ≠ "")
  (hne : output ≠ input)

include hg hn hop hin hout

include hpresent hne in
/-- The readers of the result take the input. -/
private theorem merged_rewired (hinside : g.isOutput output = false) :
    Merged g place n output input
        (((g.replaceInputs output input).dropNode place).eraseInfo output) ∧
      (((g.replaceInputs output input).dropNode place).eraseInfo output).outputs = g.outputs ∧
      Retells g output input
        (((g.replaceInputs output input).dropNode place).eraseInfo output) := by
  have hnot : output ∉ g.outputs := by simpa [isOutput] using hinside
  refine ⟨⟨hn, hop, .inl ⟨hin, hout⟩, hne, hpresent, by simp, ?_, ?_⟩, by simp,
    .of_known fun name info hinfo => by simpa using get?_of_eraseInfo hinfo⟩
  · simp [map_substituteName_of_not_mem input hnot]
  · simpa using nodes_rewired hg hn hout hne

include hne in
/-- The input takes over the name of the result. -/
private theorem merged_renamed (hyielded : g.isOutput output = true)
    (hinside : g.isOutput input = false) (hproduced : input ∈ g.results) :
    ∃ h, (g.dropNode place).renameValue input output = .ok h ∧ Merged g place n input output h ∧
      h.outputs = g.outputs ∧ Retells g input output h := by
  have hnot : input ∉ g.outputs := by simpa [isOutput] using hinside
  obtain ⟨h, hrenamed, hinputs, houtputs, hnodes, hinfos⟩ :=
    renameValue_dropNode hg hn hout hne.symm hyielded hproduced
  refine ⟨h, hrenamed, ⟨hn, hop, .inr ⟨hin, hout, hproduced⟩, hne.symm, ?_, hinputs, houtputs, hnodes⟩,
    ?_, .of_movedInfos hinfos⟩
  · exact hg.ne_empty_of_mem_outputs (by simpa [isOutput] using hyielded)
  · rw [houtputs, map_substituteName_of_not_mem output hnot]

include hpresent hne in
/-- The output slot takes the input, which comes from outside. -/
private theorem merged_rebound (enclosing : List Graph) (hyielded : g.isOutput output = true) :
    ∃ h, ((g.replaceInputs output input).dropNode place).rebindOutput enclosing output input = .ok h ∧
      Merged g place n output input h := by
  have hstays : ((g.replaceInputs output input).dropNode place).isOutput output = true := by
    simpa [isOutput] using hyielded
  obtain ⟨h, hrebound, hinputs, houtputs, hnodes⟩ := exists_rebindOutput enclosing input hstays
  refine ⟨h, hrebound, hn, hop, .inl ⟨hin, hout⟩, hne, hpresent, by simpa using hinputs,
    by simpa using houtputs, ?_⟩
  rw [hnodes, nodes_dropNode, nodes_rewired hg hn hout hne]

end Ways

/-- Removing an identity merges its two values. -/
theorem eliminate_merged (hg : Wellformed visible g) (hn : g.nodes[place]? = some n)
    (hop : n.op = "Identity") :
    eliminate s g { node := n, place := some place } = .ok none ∨
      ∃ drop keep h how, eliminate s g { node := n, place := some place } = .ok (some (h, how)) ∧
        Merged g place n drop keep h ∧
        (s.enclosing = [] → h.outputs = g.outputs ∧ Retells g drop keep h) := by
  unfold eliminate
  cases hends : endpoints? n with
  | none => exact .inl rfl
  | some ends =>
      obtain ⟨input, output⟩ := ends
      obtain ⟨hin, hout, hpresent, hne⟩ := endpoints?_eq_some hends
      have hapart : output ∉ n.reads := hg.not_mem_reads (List.mem_of_getElem? hn) (by simp [hout])
      have hkept : NodeRef.afterRewiring { node := n, place := some place } output input =
          { node := n, place := some place } := afterRewiring_of_not_mem input hapart
      have hremoved (k : Graph) :
          k.removeNode { node := n, place := some place } = .ok (k.dropNode place) := rfl
      simp only [hkept, hremoved, orStop]
      cases hyielded : g.isOutput output with
      | false =>
          obtain ⟨hmerged, hknown⟩ := merged_rewired hg hn hop hin hout hpresent hne hyielded
          exact .inr ⟨output, input, _, _, rfl, hmerged, fun _ => hknown⟩
      | true =>
          cases hother : g.isOutput input with
          | true => exact .inl rfl
          | false =>
              cases hproduced : (g.producer? input).isSome with
              | true =>
                  obtain ⟨h, hrenamed, hmerged, hknown⟩ := merged_renamed hg hn hop hin hout hne hyielded
                    hother (producer?_isSome_iff.1 hproduced)
                  exact .inr ⟨input, output, h, .renamed, by simp [hrenamed], hmerged, fun _ => hknown⟩
              | false =>
                  cases henclosed : s.enclosing.isEmpty with
                  | true => exact .inl rfl
                  | false =>
                      obtain ⟨h, hrebound, hmerged⟩ :=
                        merged_rebound hg hn hop hin hout hpresent hne s.enclosing hyielded
                      refine .inr ⟨output, input, h, .passthrough, by simp [hrebound], hmerged, ?_⟩
                      intro hroot
                      simp [hroot] at henclosed

/-- The first identity that can go is removed, and its two values are merged. -/
theorem removeFirst_merged (hg : Wellformed visible g) {refs : List NodeRef}
    (hrefs : ∀ r ∈ refs, ∃ place n, g.nodes[place]? = some n ∧ r = { node := n, place := some place }) :
    removeFirst s g refs = .ok none ∨
      ∃ place n drop keep h line, removeFirst s g refs = .ok (some (h, line)) ∧
        Merged g place n drop keep h ∧
        (s.enclosing = [] → h.outputs = g.outputs ∧ Retells g drop keep h) := by
  induction refs with
  | nil => exact .inl rfl
  | cons r rest ih =>
      obtain ⟨⟨place, n, hn, rfl⟩, hrest⟩ := List.forall_mem_cons.1 hrefs
      unfold removeFirst
      by_cases hop : n.op = "Identity"
      · simp only [if_pos hop]
        rcases eliminate_merged (s := s) hg hn hop with hnone | ⟨drop, keep, h, how, hsome, hmerged⟩
        · rw [hnone]
          exact ih hrest
        · rw [hsome]
          exact .inr ⟨place, n, drop, keep, h, _, rfl, hmerged⟩
      · simp only [if_neg hop]
        exact ih hrest

end Identities

/-! ## Sweeps -/

section Sweeps

variable {V : Type} [Operand V] {m : Machine V} {visible : String → Prop} {s : Surroundings}
  {g : Graph}

/-- Whether a sweep does not fail, leaves a tree of well-formed graphs, and changes neither its
meaning nor, at the root, the names of the outputs. -/
structure Harmless (m : Machine V) (s : Surroundings) (visible : String → Prop) (g : Graph)
    (sweep : Sweep) : Prop where
  complete : sweep.failure = none
  tree : WellformedTree visible sweep.graph
  same : SameMeaning m g sweep.graph
  outputs : s.enclosing = [] → sweep.graph.outputs = g.outputs

namespace Harmless

theorem start (m : Machine V) (s : Surroundings) (hg : WellformedTree visible g) :
    Harmless m s visible g { graph := g } :=
  ⟨rfl, hg, .refl m g, fun _ => rfl⟩

theorem trans {first second : Sweep} (h₁ : Harmless m s visible g first)
    (h₂ : Harmless m s visible first.graph second) : Harmless m s visible g second :=
  ⟨h₂.complete, h₂.tree, h₁.same.trans h₂.same,
    fun hroot => (h₂.outputs hroot).trans (h₁.outputs hroot)⟩

/-- A rule that merges the two values of an identity every time comes to an end and is harmless. -/
theorem untilClean (hm : m.Regular) {what : String}
    {rule : Graph → Except Stopped (Option (Graph × String))}
    (hrule : ∀ h, Wellformed visible h → rule h = .ok none ∨
      ∃ place n drop keep h' line, rule h = .ok (some (h', line)) ∧
        Merged h place n drop keep h' ∧
        (s.enclosing = [] → h'.outputs = h.outputs ∧ Retells h drop keep h'))
    {fuel : Nat} {sweep : Sweep} (hsweep : Harmless m s visible g sweep)
    (hfuel : sweep.graph.nodes.length < fuel) :
    Harmless m s visible g (Sweep.untilClean what rule fuel sweep) := by
  induction fuel generalizing sweep with
  | zero => exact absurd hfuel (Nat.not_lt_zero _)
  | succ fuel ih =>
      unfold Sweep.untilClean
      rcases hrule sweep.graph hsweep.tree.here with
        hnone | ⟨place, n, drop, keep, h, line, hsome, hmerged, houtputs⟩
      · rw [hnone]
        exact hsweep
      · rw [hsome]
        refine ih (hsweep.trans ⟨hsweep.complete, hmerged.wellformedTree hsweep.tree,
          sameMeaning_of_merged hm hsweep.tree hmerged, fun hroot => (houtputs hroot).1⟩) ?_
        have hlt : place < sweep.graph.nodes.length :=
          (List.getElem?_eq_some_iff.1 hmerged.node).1
        simp only [hmerged.nodes, List.length_map, List.length_eraseIdx_of_lt hlt]
        omega

/-- What is harmless in every graph is harmless in a tree. -/
theorem compositional (hm : m.Regular) :
    Compositional (fun _ g => ∃ visible, WellformedTree visible g)
      (fun s g sweep => ∀ visible, WellformedTree visible g → Harmless m s visible g sweep) where
  keyed := fun ⟨_, hg⟩ => hg.here.keyed
  inside := by
    rintro s g place key body ⟨visible, hg⟩ ⟨n, hn, hbody⟩
    exact ⟨_, hg.body (List.mem_of_getElem? hn) hbody⟩
  start := fun _ visible hg => .start m _ hg
  andThen := by
    intro s g first next _ hfirst hnext visible hg
    have hfirst := hfirst visible hg
    have hsecond := hnext hfirst.complete ⟨visible, hfirst.tree⟩ visible hfirst.tree
    refine hfirst.trans ?_
    unfold Sweep.andThen
    rw [hfirst.complete, Option.isSome_none, if_neg Bool.false_ne_true]
    exact ⟨hsecond.complete, hsecond.tree, hsecond.same, hsecond.outputs⟩
  putBody := by
    intro s g place key body inner _ hbody hinner visible hg
    obtain ⟨n, hn, hold⟩ := id hbody
    have hinner := hinner _ (hg.body (List.mem_of_getElem? hn) hold)
    exact ⟨hinner.complete, WellformedTree.putBody hg hbody hinner.tree hinner.same.arity hinner.same.outer,
      .putBody hm hg hbody hinner.tree hinner.same, fun _ => by simp⟩

end Harmless

/-- The pass that removes identities is harmless. -/
theorem Identities.harmless_everyGraph (hm : m.Regular) (s : Surroundings)
    (hg : WellformedTree visible g) : Harmless m s visible g (everyGraph sweepGraph s g) := by
  refine (Harmless.compositional hm).everyGraph (fun s g _ visible hg => ?_) ⟨visible, hg⟩ visible hg
  refine Harmless.untilClean hm (fun h hh => removeFirst_merged hh fun r hr => ?_)
    (.start m s hg) (Nat.lt_succ_self _)
  obtain ⟨⟨n, place⟩, hmem, rfl⟩ := List.mem_map.1 hr
  exact ⟨place, n, List.mem_zipIdx_iff_getElem?.1 hmem, rfl⟩

/-- Removing identities from a valid graph does not fail, leaves nothing to object to but perhaps
permutations, and changes neither whether the graph can be executed nor what comes out. -/
theorem Pass.identity_harmless (hm : m.Regular) (hvalid : g.IsValid) (hkeyed : KeyedTree g)
    (hnamed : NamedInputs g) (number : Nat) :
    (Pass.identity.run .root number g).failure = none ∧
      (∀ issue ∈ (Pass.identity.run .root number g).graph.issues,
        issue.problem.code = "invalid-permutation") ∧
      ∀ feeds outputs, execute m (Pass.identity.run .root number g).graph feeds = .ok outputs ↔
        execute m g feeds = .ok outputs := by
  have hg := hvalid.wellformedTree hkeyed hnamed
  obtain ⟨hcomplete, htree, hsame, houtputs⟩ := Identities.harmless_everyGraph hm .root hg
  change (everyGraph Identities.sweepGraph .root g).failure = none ∧
    (∀ issue ∈ (everyGraph Identities.sweepGraph .root g).graph.issues, _) ∧
    ∀ feeds outputs, execute m (everyGraph Identities.sweepGraph .root g).graph feeds = .ok outputs ↔ _
  refine ⟨hcomplete, fun issue hissue => ?_, fun feeds outputs => ?_⟩
  · refine WellformedTree.code_eq [] (htree.congr fun value => ?_) hissue
    simp [definedBy]
  · -- a root takes nothing from outside
    have hbound : Bound g ([] : Environment V) := fun name hname =>
      (WellformedTree.visible_of_mem_outerReferences hg hname).elim
    unfold execute
    rw [← toOption_eq_some, ← toOption_eq_some, toOption_bind, toOption_bind,
      hsame.run [] _ hbound, houtputs rfl]

/-- A branch that hands on what it takes from around it. -/
def handing : Graph where
  outputs := ["kept"]
  nodes := [{ name := "keep", op := "Identity", inputs := ["held"], outputs := ["kept"] }]

/-- A branch that hands on what it computes. -/
def clipping : Graph where
  outputs := ["last"]
  nodes := [
    { name := "clip", op := "Relu", inputs := ["held"], outputs := ["clipped"] },
    { name := "hand", op := "Identity", inputs := ["clipped"], outputs := ["last"] }]

/-- A graph with identities in both branches of a conditional, before it and behind it. -/
def relayed : Graph where
  inputs := ["condition", "x"]
  outputs := ["y"]
  nodes := [
    { name := "relay", op := "Identity", inputs := ["x"], outputs := ["held"] },
    { name := "choose", op := "If", inputs := ["condition"], outputs := ["picked"]
      attributes := [("then_branch", .body handing), ("else_branch", .body clipping)] },
    { name := "finish", op := "Identity", inputs := ["picked"], outputs := ["y"] }]

/-- What holds of `relayed` and its branches holds in the tree. -/
private theorem everywhere_relayed {P : Graph → Prop} (hroot : P relayed) (hhanding : P handing)
    (hclipping : P clipping) :
    Everywhere (fun _ taken => taken) (fun _ g => P g) (fun _ => True) relayed := by
  have hbodies : relayed.nodes.flatMap Node.bodies =
      [("then_branch", handing), ("else_branch", clipping)] := rfl
  refine .intro hroot fun n hn body hbody => ?_
  have hbranch := List.mem_flatMap.2 ⟨n, hn, hbody⟩
  simp only [hbodies, List.mem_cons, List.not_mem_nil, or_false] at hbranch
  rcases hbranch with rfl | rfl
  · exact .intro hhanding (by simp [handing, Node.bodies])
  · exact .intro hclipping (by simp [clipping, Node.bodies])

theorem Pass.identity_harmless_relayed :
    relayed.IsValid ∧ KeyedTree relayed ∧ NamedInputs relayed ∧
      (Pass.identity.run .root 0 relayed).changes = .ofNat 4 ∧
      (Pass.identity.run .root 0 relayed).failure = none ∧
      (∀ issue ∈ (Pass.identity.run .root 0 relayed).graph.issues,
        issue.problem.code = "invalid-permutation") ∧
      ∀ feeds outputs,
        execute (.standard 8 : Machine (Value Float)) (Pass.identity.run .root 0 relayed).graph
            feeds = .ok outputs ↔
          execute (.standard 8 : Machine (Value Float)) relayed feeds = .ok outputs := by
  have hvalid : relayed.IsValid := by
    unfold IsValid
    decide +kernel
  have hkeyed : KeyedTree relayed := everywhere_relayed (by simp [relayed, Node.Keyed])
    (by simp [handing, Node.Keyed]) (by simp [clipping, Node.Keyed])
  have hnamed : NamedInputs relayed :=
    everywhere_relayed (by simp [relayed]) (by simp [handing]) (by simp [clipping])
  exact ⟨hvalid, hkeyed, hnamed, by decide +kernel,
    Pass.identity_harmless (Machine.standard_regular 8) hvalid hkeyed hnamed 0⟩

end Sweeps

end TensorGraph
