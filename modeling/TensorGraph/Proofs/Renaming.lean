import TensorGraph.Proofs.Definitions
import TensorGraph.Proofs.Upkeep

/-!
# Renaming a value

In a valid tree a value has one definition, and no graph around or below that defines its name
again. So when a graph renames a value to a name that is used nowhere, the tree of that graph comes
to be spelled with the two names swapped, and the rest of the tree stays as it was.

## Main results

* `Graph.spelled_renameValue` -- a renaming swaps two names.
* `Evaluation.unnoticed_putAt` -- nobody else in the tree notices it.
-/

namespace TensorGraph

variable {old new : String}

theorem swap_eq_substituteName {name : String} (hname : name ≠ new) :
    Equiv.swap old new name = substituteName old new name := by
  rw [substituteName_eq]
  split
  · rename_i heq
    rw [heq, Equiv.swap_apply_left]
  · rename_i hother
    exact Equiv.swap_apply_of_ne_of_ne hother hname

theorem map_swap {names : List String} (hnew : new ∉ names) :
    names.map (Equiv.swap old new) = names.map (substituteName old new) :=
  List.map_congr_left fun _ hname => swap_eq_substituteName fun e => hnew (e ▸ hname)

theorem map_swap_of_not_mem {names : List String} (hold : old ∉ names) (hnew : new ∉ names) :
    names.map (Equiv.swap old new) = names := by
  rw [map_swap hnew, map_substituteName_of_not_mem new hold]

/-- What two names have in common, names have when the two are swapped. -/
theorem apply_swap {β : Type} {f : String → β} (h : f old = f new) (name : String) :
    f (Equiv.swap old new name) = f name := by
  by_cases hname : name = old
  · rw [hname, Equiv.swap_apply_left, h]
  · by_cases hother : name = new
    · rw [hother, Equiv.swap_apply_right, h]
    · rw [Equiv.swap_apply_of_ne_of_ne hname hother]

theorem swap_eq_empty (hold : old ≠ "") (hnew : new ≠ "") : Equiv.swap old new "" = "" :=
  Equiv.swap_apply_of_ne_of_ne hold.symm hnew.symm

/-- A node in which a value is renamed, as a result, as an input and in its bodies. -/
private theorem Node.spelled_renamed {n : Node} (hold : old ≠ "") (hinputs : new ∉ n.inputs)
    (houtputs : new ∉ n.outputs)
    (hself : ∀ body ∈ n.bodies, old ∉ body.2.outerReferences →
      body.2.Spelled (Equiv.swap old new) body.2)
    (hbodies : old ∈ n.reads → ∀ body ∈ n.bodies,
      body.2.Spelled (Equiv.swap old new) (body.2.substituteOuter old new)) :
    n.Spelled (Equiv.swap old new) ((n.renamed old new).replaceReads old new) := by
  refine ⟨⟨by simp, by simp, ?_, ?_, ?_⟩, ?_⟩
  · rw [parameters_replaceReads, parameters, parameters, attributes_renamed]
  · by_cases hread : old ∈ n.reads
    · rw [replaceReads_of_mem (by simpa using hread), map_swap hinputs]
      simp
    · rw [replaceReads_of_not_mem new (by simpa using hread), inputs_renamed]
      have hnot : old ∉ n.inputs := fun hmem => hread (mem_reads.2 (.inl ⟨hmem, hold⟩))
      exact (map_swap_of_not_mem hnot hinputs).symm
  · rw [outputs_replaceReads, outputs_renamed hold, map_swap houtputs]
  · rw [Node.bodies_replaceReads, bodies_renamed, reads_renamed]
    split
    · rename_i hread
      rw [List.forall₂_map_right_iff]
      exact List.forall₂_same.2 fun body hbody => ⟨rfl, by simp, hbodies hread body hbody⟩
    · rename_i hread
      refine List.forall₂_same.2 fun body hbody =>
        ⟨rfl, rfl, hself body hbody fun houter => hread ?_⟩
      exact mem_reads.2 (.inr ⟨body, hbody, houter⟩)

namespace Graph

variable {visible : String → Prop} {g : Graph}

/-- A tree that does not take a name in that is defined around it, and does not use another one,
reads the same when the two are swapped. -/
theorem spelled_self (hg : ScopedTree visible g) (hseen : visible old) (hold : old ≠ "")
    (hnew : new ∉ g.names) (houter : old ∉ g.outerReferences) :
    g.Spelled (Equiv.swap old new) g := by
  induction hg with
  | @intro visible g here _ ih =>
      have hdef := here.not_defines hseen
      have hread : ∀ n ∈ g.nodes, old ∉ n.reads := fun n hn hread =>
        houter (mem_outerReferences_iff.2 ⟨hdef, .inr ⟨n, hn, hread⟩⟩)
      have hresult : ∀ n ∈ g.nodes, old ∉ n.results := fun n hn hresult => by
        simp [defines_iff.2 (.inr (mem_results.2 ⟨n, hn, hresult⟩))] at hdef
      refine spelled_iff.2 ⟨rfl, (map_swap_of_not_mem (fun hmem => ?_) fun hmem =>
        hnew (mem_names_of_mem_inputs hmem)).symm, (map_swap_of_not_mem (fun hmem => ?_) fun hmem =>
        hnew (mem_names_of_mem_outputs hmem)).symm, List.forall₂_same.2 fun n hn => ?_⟩
      · simp [defines_iff.2 (.inl hmem)] at hdef
      · exact houter (mem_outerReferences_iff.2 ⟨hdef, .inl ⟨hmem, hold⟩⟩)
      · have hnode := Node.spelled_renamed hold
          (fun hmem => hnew (mem_names_of_mem_node hn (.inr (.inl hmem))))
          (fun hmem => hnew (mem_names_of_mem_node hn (.inr (.inr hmem))))
          (fun body hbody => ih n hn body hbody (.inl hseen) fun hmem =>
            hnew (names_body hn hbody hmem))
          fun hmem => absurd hmem (hread n hn)
        rwa [Node.renamed, if_neg (hresult n hn), Node.replaceReads_of_not_mem new (hread n hn)]
          at hnode

/-- A substitution of a name that is not used for one that is defined around a tree swaps the
two. -/
theorem spelled_substituteOuter (hg : ScopedTree visible g) (hseen : visible old) (hold : old ≠ "")
    (hnew : new ∉ g.names) : g.Spelled (Equiv.swap old new) (g.substituteOuter old new) := by
  induction hg with
  | @intro visible g here inside ih =>
      have hdef := here.not_defines hseen
      have hinput : old ∉ g.inputs := fun hmem => by simp [defines_iff.2 (.inl hmem)] at hdef
      have hresult : ∀ n ∈ g.nodes, old ∉ n.results := fun n hn hresult => by
        simp [defines_iff.2 (.inr (mem_results.2 ⟨n, hn, hresult⟩))] at hdef
      rw [substituteOuter_eq, hdef, if_neg Bool.false_ne_true]
      refine spelled_iff.2 ⟨rfl,
        (map_swap_of_not_mem hinput fun hmem => hnew (mem_names_of_mem_inputs hmem)).symm,
        (map_swap fun hmem => hnew (mem_names_of_mem_outputs hmem)).symm,
        List.forall₂_map_right_iff.2 (List.forall₂_same.2 fun n hn => ?_)⟩
      have hbelow : ∀ body ∈ n.bodies, new ∉ body.2.names := fun body hbody hmem =>
        hnew (names_body hn hbody hmem)
      have hnode := Node.spelled_renamed hold
        (fun hmem => hnew (mem_names_of_mem_node hn (.inr (.inl hmem))))
        (fun hmem => hnew (mem_names_of_mem_node hn (.inr (.inr hmem))))
        (fun body hbody =>
          spelled_self (inside n hn body hbody) (.inl hseen) hold (hbelow body hbody))
        fun _ body hbody => ih n hn body hbody (.inl hseen) (hbelow body hbody)
      rwa [Node.renamed, if_neg (hresult n hn)] at hnode

/-- A renaming to a name that is not used swaps two names, in the graph and below it. -/
theorem spelled_renameValue (hg : ScopedTree visible g) (hdef : g.defines old = true)
    (hold : old ≠ "") (hnew : new ∉ g.names) : ∃ h, g.renameValue old new = .ok h ∧
      g.Spelled (Equiv.swap old new) h ∧ h.infos = movedInfos g.infos old new := by
  have hne : old ≠ new := fun e => hnew (e ▸ mem_names_of_defines hdef)
  have hundefined : g.defines new = false := by
    rw [Bool.eq_false_iff]
    exact fun hdef => hnew (mem_names_of_defines hdef)
  obtain ⟨h, hh⟩ : ∃ h, g.renameValue old new = .ok h := by
    unfold renameValue
    rw [if_neg hne, hundefined]
    exact ⟨_, rfl⟩
  obtain ⟨-, rfl⟩ := renameValue_eq_ok hne hh
  refine ⟨_, hh, spelled_iff.2 ⟨?_, ?_, ?_, ?_⟩, rfl⟩
  · unfold replaceInputs renameProduced
    split <;> split <;> rfl
  · exact (map_swap fun hmem => hnew (mem_names_of_mem_inputs hmem)).symm
  · exact (map_swap fun hmem => hnew (mem_names_of_mem_outputs hmem)).symm
  · have hnodes : ((g.renameProduced old new).replaceInputs old new).nodes =
        g.nodes.map fun n => (n.renamed old new).replaceReads old new := by
      rw [replaceInputs, if_neg hne]
      dsimp only
      rw [nodes_renameProduced hg.here.names (hg.here.once old), List.map_map]
      rfl
    rw [hnodes, List.forall₂_map_right_iff]
    refine List.forall₂_same.2 fun n hn => ?_
    have hbelow : ∀ body ∈ n.bodies, new ∉ body.2.names := fun body hbody hmem =>
      hnew (names_body hn hbody hmem)
    exact Node.spelled_renamed hold
      (fun hmem => hnew (mem_names_of_mem_node hn (.inr (.inl hmem))))
      (fun hmem => hnew (mem_names_of_mem_node hn (.inr (.inr hmem))))
      (fun body hbody => spelled_self (hg.body hn hbody) (.inr hdef) hold (hbelow body hbody))
      fun _ body hbody => spelled_substituteOuter (hg.body hn hbody) (.inr hdef) hold
        (hbelow body hbody)

/-- What all nodes have when one of them gets another body. -/
theorem forall₂_putBody {R : Node → Node → Prop} {place : Nat} {key : String} {body body' : Graph}
    (hbody : g.HasBody place key body) (hsame : ∀ n ∈ g.nodes, R n n)
    (hput : ∀ n ∈ g.nodes, (key, body) ∈ n.bodies → R n (n.rebodied key body')) :
    List.Forall₂ R g.nodes (g.putBody place key body').nodes := by
  obtain ⟨n, hn, hmem⟩ := hbody
  rw [putBody_eq hn, putNode]
  exact Evaluation.forall₂_set hsame hn (hput n (List.mem_of_getElem? hn) hmem)

end Graph

/-! ## Where nobody notices -/

namespace Evaluation

open TensorGraph.Graph

variable {V : Type} [Operand V] {m : Machine V} {visible : String → Prop} {g h scope : Graph}

/-- Whether a tree does what another one does, in environments in which neither of two names is
bound, and takes the same from outside. Its inputs may have got the other name. -/
structure Unnoticed (m : Machine V) (old new : String) (g h : Graph) : Prop where
  inputs : h.inputs = g.inputs.map (Equiv.swap old new)
  outputs : h.outputs.length = g.outputs.length
  outer : ∀ name, name ∈ h.outerReferences ↔ name ∈ g.outerReferences
  run : ∀ env env', (∀ name, lookup? env' name = lookup? env name) →
    lookup? env old = none → lookup? env new = none →
    ∀ feeds feeds', (∀ name ∈ g.inputs, feeds' (Equiv.swap old new name) = feeds name) →
      (Evaluation.run m h env' feeds').toOption = (Evaluation.run m g env feeds).toOption

omit [Operand V] in
private theorem transported_swap {env env' : Environment V}
    (henv : ∀ name, lookup? env' name = lookup? env name) (hold : lookup? env old = none)
    (hnew : lookup? env new = none) : Transported (Equiv.swap old new) env env' := fun name => by
  rw [henv, apply_swap (hold.trans hnew.symm)]

section Swap

variable (hm : m.Regular) (hkeeps : Inherited.keeps old = Inherited.keeps new)
  (hunfed : (Operand.unfed old : Option V) = Operand.unfed new)

include hkeeps hunfed in
/-- A body that does the same for a node does so in one of its bodies. -/
private theorem agreeingBody_of_unnoticed {op : String} {env env' : Environment V}
    {body body' : Graph} (hs : Unnoticed m old new body body')
    (henv : ∀ name, lookup? env' name = lookup? env name) (hold' : lookup? env old = none)
    (hnew' : lookup? env new = none) {key : String}
    (hloop : op = "Loop" → key = "body" → 2 ≤ body.inputs.length) :
    AgreeingBody op env env' { key, graph := body, meaning := Evaluation.run m body }
      { key, graph := body', meaning := Evaluation.run m body' } where
  key := rfl
  outputs := hs.outputs
  round hop hkey iteration condition carried := by
    rw [hs.inputs]
    exact hs.run env env' henv hold' hnew' _ _ fun name _ => loopFeeds_map (apply_swap hkeeps)
      (apply_swap hunfed) (hloop hop hkey) iteration condition carried name
  branch _ := hs.run env env' henv hold' hnew' _ _ fun name _ => apply_swap hunfed name

include hm hkeeps hunfed

/-- Nobody around notices that a name of the graph is swapped with one that is not used. -/
theorem Unnoticed.of_spelled (hold : old ≠ "") (hnew : new ≠ "")
    (hspelled : g.Spelled (Equiv.swap old new) h) (hkeyed : KeyedTree g)
    {enclosing : List Graph} (hruled : Ruled enclosing g) (hdef : g.defines old = true)
    (hfresh : new ∉ g.names) : Unnoticed m old new g h where
  inputs := hspelled.here.inputs
  outputs := by simp [hspelled.here.outputs]
  outer name := by
    have hneOld : old ∉ g.outerReferences := fun hmem => by
      simp [(mem_outerReferences.1 hmem).2.1] at hdef
    have hneNew : new ∉ g.outerReferences := fun hmem => hfresh (mem_names_of_outerReferences hmem)
    have hswap : (Equiv.swap old new name ∈ g.outerReferences) = (name ∈ g.outerReferences) :=
      apply_swap (propext (iff_of_false hneOld hneNew)) name
    have houter := hspelled.mem_outerReferences (swap_eq_empty hold hnew) (Equiv.swap old new name)
    rwa [Equiv.swap_apply_self, hswap] at houter
  run env env' henv hold' hnew' feeds feeds' hfeeds :=
    run_spelled (swap_eq_empty hold hnew) (apply_swap hkeeps) (apply_swap hunfed) hm hspelled hkeyed
      hruled (transported_swap henv hold' hnew') hfeeds

omit hm hkeeps hunfed in
/-- A body does the same wherever the same is bound. -/
private theorem agreeingBody_of_local (hg : ScopedTree visible g) (hkeyed : KeyedTree g) {n : Node}
    (hn : n ∈ g.nodes) {body : String × Graph} (hbody : body ∈ n.bodies) {env env' : Environment V}
    (henv : ∀ name, lookup? env' name = lookup? env name) (op : String) :
    AgreeingBody op env env' { key := body.1, graph := body.2, meaning := Evaluation.run m body.2 }
      { key := body.1, graph := body.2, meaning := Evaluation.run m body.2 } := by
  have hlocal : LocalBeside (· = "") body.2 (Evaluation.run m body.2) := run_localBeside
    (fun _ => id) (orderlyTree_of_scopedTree (hg.body hn hbody) (Everywhere.body hkeyed hn hbody))
  exact ⟨rfl, rfl, fun _ _ _ _ _ => hlocal env env' _ fun name _ => henv name,
    fun _ => hlocal env env' _ fun name _ => henv name⟩

/-- Nobody around notices a body of which nobody notices it. -/
theorem Unnoticed.putBody (hg : ScopedTree visible g) (hkeyed : KeyedTree g)
    {enclosing : List Graph} (hruled : Ruled enclosing g) {place : Nat} {key : String}
    {body body' : Graph} (hbody : g.HasBody place key body) (hs : Unnoticed m old new body body')
    (hdef : g.defines old = false) (hfresh : new ∉ g.names) :
    Unnoticed m old new g (g.putBody place key body') := by
  have hundefined : g.defines new = false := by
    rw [Bool.eq_false_iff]
    exact fun hdef => hfresh (mem_names_of_defines hdef)
  have hunnamed {name : String} (hname : g.defines name = false) : name ∉ g.inputs := fun hmem => by
    simp [defines_iff.2 (.inl hmem)] at hname
  have hnodes : List.Forall₂ (fun n k => k.outputs = n.outputs ∧
      ∀ name, name ∈ k.reads ↔ name ∈ n.reads) g.nodes (g.putBody place key body').nodes :=
    forall₂_putBody hbody (fun _ _ => ⟨rfl, fun _ => Iff.rfl⟩) fun n hn hmem =>
      ⟨rfl, Node.reads_rebodied_iff (hkeyed.here n hn) hmem hs.outer⟩
  refine ⟨by rw [inputs_putBody,
      map_swap_of_not_mem (hunnamed hdef) (hunnamed hundefined)], by simp,
    fun name => ?_, fun env env' henv hold' hnew' feeds feeds' hfeeds => ?_⟩
  · rw [mem_outerReferences_iff, mem_outerReferences_iff, defines_putBody, Uses, Uses,
      outputs_putBody, exists_iff_of_forall₂ (hnodes.imp fun _ _ hn => hn.2 name)]
  · have horder := topologicalOrder_congr hnodes.length_eq.symm (dependsOn_congr
      (rfl : Equiv.refl String "" = "") (hnodes.imp fun n k hn => ⟨by simp [hn.1], hn.2⟩))
    have hfixed : ∀ name ∈ g.inputs, feeds' name = feeds name := fun name hname => by
      have hneOld : name ≠ old := fun e => hunnamed hdef (e ▸ hname)
      have hneNew : name ≠ new := fun e => hunnamed hundefined (e ▸ hname)
      rw [← hfeeds name hname, Equiv.swap_apply_of_ne_of_ne hneOld hneNew]
    have hsame : Transported id env env' := henv
    have hagree {n : Node} (hn : n ∈ g.nodes) {bodies : List (String × Graph)}
        (hsub : bodies ⊆ n.bodies) {b b' : Bindings V} (hb : Alike id (g.defines · = true) b b') :
        List.Forall₂ (AgreeingBody n.op (b :: env) (b' :: env'))
          (bodies.map fun body => ⟨body.1, body.2, Evaluation.run m body.2⟩)
          (bodies.map fun body => ⟨body.1, body.2, Evaluation.run m body.2⟩) :=
      List.forall₂_map_left_iff.2 <| List.forall₂_map_right_iff.2 <| List.forall₂_same.2
        fun body hmem => agreeingBody_of_local hg hkeyed hn (hsub hmem) (hsame.cons hb) n.op
    refine run_lockstep Function.injective_id (fun _ => Iff.rfl) (by simp) (by simp) horder
      hsame hfixed (forall₂_putBody hbody (fun n hn => ⟨by simp, fun b b' hb => ?_⟩)
        fun n hn hmem => ⟨by simp [Node.rebodied], fun b b' hb => ?_⟩)
    · exact runNode_agrees rfl rfl (fun _ => rfl)
        (List.forall₂_same.2 fun name _ => ⟨Iff.rfl, fun _ => hsame.cons hb name⟩)
        (hagree hn (List.Subset.refl _) hb)
    · obtain ⟨before, after, hbefore, hafter, -⟩ :=
        Node.bodies_rebodied (hkeyed.here n hn) hmem body'
      have hunbound {name : String} (hname : g.defines name = false)
          (hnone : lookup? env name = none) : lookup? (b :: env) name = none := by
        rw [lookup?_cons, hnone, Option.or_none, Option.eq_none_iff_forall_ne_some]
        intro value hvalue
        simp [hb.only name (by simp [hvalue])] at hname
      refine runNode_agrees rfl rfl (hm.functional _ _ rfl rfl
        (Node.parameters_rebodied (hkeyed.here n hn) hmem body'))
        (List.forall₂_same.2 fun name _ => ⟨Iff.rfl, fun _ => hsame.cons hb name⟩) ?_
      unfold bodiesOf
      rw [hbefore, hafter, List.map_append, List.map_append, List.map_cons, List.map_cons]
      refine List.rel_append (hagree hn (by simp [hbefore]) hb) (.cons ?_
        (hagree hn (by simp [hbefore]) hb))
      cases hruled with
      | intro hrules _ =>
          refine agreeingBody_of_unnoticed hkeeps hunfed hs (hsame.cons hb) (hunbound hdef hold')
            (hunbound hundefined hnew') fun hloop hkey => ?_
          exact two_le_inputs (hkeyed.here n hn) (hrules n hn).1 hloop (hkey ▸ hmem)

/-- Nobody in a tree notices it when a graph has a name swapped with one that is not used. -/
theorem unnoticed_putAt (hold : old ≠ "") (hnew : new ≠ "") (hg : ScopedTree visible g)
    (hkeyed : KeyedTree g) {enclosing : List Graph} (hruled : Ruled enclosing g) {trail : Trail}
    {scope scope' : Graph}
    (hat : g.bodyAt? trail = some scope) (hspelled : scope.Spelled (Equiv.swap old new) scope')
    (hdef : scope.defines old = true) (hfresh : new ∉ g.names) :
    Unnoticed m old new g (g.putAt trail scope') := by
  induction trail generalizing g visible enclosing with
  | nil =>
      obtain rfl := Option.some.inj hat
      exact .of_spelled hm hkeeps hunfed hold hnew hspelled hkeyed hruled hdef hfresh
  | cons step rest ih =>
      obtain ⟨place, key⟩ := step
      have hundefined := not_defines_of_step hg hkeyed hat hdef
      obtain ⟨body, hbody, hrest⟩ := (bodyAt?_cons hkeyed.here).1 hat
      obtain ⟨n, hn, hmem⟩ := id hbody
      have hn := List.mem_of_getElem? hn
      cases id hruled with
      | intro _ hbelow =>
          have hinner := ih (hg.body hn hmem) (hkeyed.body hbody) (hbelow n hn _ hmem) hrest
            fun hname => hfresh (names_body hn hmem hname)
          rw [putAt, (hasBody_iff hkeyed.here).1 hbody]
          exact .putBody hm hkeeps hunfed hg hkeyed hruled hbody hinner hundefined hfresh

end Swap

end Evaluation

end TensorGraph
