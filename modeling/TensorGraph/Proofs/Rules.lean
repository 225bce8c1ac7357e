import TensorGraph.Proofs.Rewriting

/-!
# Rules

What the rules of the passes do, as edits. A rule for transpositions is one edit that is no
removal, with others behind that are no moves; a rule for identities is a removal; a round over
dead nodes is removals only, as many as it counts.

The rules for transpositions are looked at on graphs that are tidy and have an order, because
without these they may disconnect the wrong node.

## Main results

* `Transposes.treat_edits` -- what a rule for transpositions does.
* `Identities.eliminate_edit` -- what a rule for identities does.
* `DeadNodes.round_dropped` -- what a round over dead nodes does.
-/

namespace TensorGraph

namespace Graph

/-- A node of a graph with an order does not read what it yields, unless it is a gathering
one. -/
theorem Acyclic.not_mem_reads {taken : String → Prop} {g : Graph} (h : g.Acyclic)
    (hg : Tidy taken g) {n : Node} (hn : n ∈ g.nodes) (hop : n.op ≠ "Gather")
    {value : String} (hvalue : value ∈ n.outputs) : value ∉ n.reads := by
  obtain ⟨level, hlevel⟩ := h
  intro hread
  have hresult : value ∈ n.results :=
    Node.mem_results.2 ⟨hvalue, Node.ne_empty_of_mem_reads hread⟩
  have := hlevel n hn value hread (mem_results.2 ⟨n, hn, hresult⟩) value hresult
    fun hspare => hop (hspare.op_of_reads hg.names hn hread)
  omega

theorem removeNamedIfUnreferenced_eq (g : Graph) (name : String) :
    g.removeNamedIfUnreferenced name = g ∨
      ∃ place, g.removeUnreferenced? place = some (g.removeNamedIfUnreferenced name) := by
  unfold removeNamedIfUnreferenced
  cases hplace : g.place? name with
  | none => exact .inl rfl
  | some place =>
      cases hremoved : g.removeUnreferenced? place with
      | none => simp [hremoved]
      | some after => exact .inr ⟨place, by simp [hremoved]⟩

end Graph

namespace Rewriting

variable {s : Surroundings} {g : Graph}

theorem tidying_removeNamed (s : Surroundings) (g : Graph) (name : String) :
    Tidying s g (g.removeNamedIfUnreferenced name) := by
  rcases g.removeNamedIfUnreferenced_eq name with h | ⟨place, h⟩
  · rw [h]
  · exact .single ⟨.cleanup, by decide, .remove h⟩

theorem Treated.of_move {after : Graph} (h : Edit s g .move after) : Treated s g after :=
  ⟨.move, after, after, .inl rfl, h, .refl, .inl rfl⟩

/-- After its first edit a rule makes no more moves. -/
theorem Treated.edits {after : Graph} (ht : Treated s g after) :
    ∃ kind between, (kind = .move ∨ kind = .resize) ∧ Edit s g kind between ∧
      Tidying s between after := by
  obtain ⟨kind, between, rebased, hkind, hedit, hresized, hlast⟩ := ht
  have hresized : Tidying s between rebased := Relation.ReflTransGen.mono
    (fun _ _ he => ⟨.resize, by decide, he⟩) _ _ hresized
  rcases hlast with rfl | ⟨n, -, -, -, rfl⟩
  · exact ⟨kind, between, hkind, hedit, hresized⟩
  · exact ⟨kind, between, hkind, hedit, hresized.trans (tidying_removeNamed s rebased n.name)⟩

end Rewriting

namespace Transposes

open Rewriting

variable {taken : String → Prop} {s : Surroundings} {g : Graph} {t : PlacedTranspose}

/-! ## Bypassing -/

theorem transposition_ne {n : Node} (h : n.op = "Transpose") :
    n.op ≠ "Gather" ∧ n.op ≠ "Constant" := by
  rw [h]
  decide

theorem dropIdentity_edit (hg : g.Tidy taken) (ha : g.Acyclic) (ht : t.Stands s g) {after : Graph}
    {rule : String}
    (h : dropIdentity g t = .ok (some (after, rule))) : Edit s g .move after := by
  unfold dropIdentity at h
  split at h
  · rename_i hperm
    obtain ⟨⟨next, how⟩, hbypass, h⟩ := bind_eq_ok h
    cases h
    have hapart : t.output ∉ t.node.reads :=
      ha.not_mem_reads hg ht.mem (transposition_ne ht.op).1 (by simp [ht.outputs])
    refine edit_of_bypass ht.node ht.outputs hapart (fun heq => ?_)
      (.unmoved ht rfl rfl hperm) hbypass
    exact absurd (heq ▸ ht.source_mem_reads) hapart
  · cases h

theorem twin?_eq_some {place : Nat} {other : Node}
    (h : twin? s g t = some (place, other)) :
    g.nodes[place]? = some other ∧ place ≠ t.place ∧ other.inputs.head? = some t.source ∧
      resolvePermutation s.enclosing g other (some t.perm.length) = some t.perm := by
  unfold twin? at h
  obtain ⟨found, -, hfound⟩ := List.exists_of_findSome?_eq_some h
  split at hfound
  · cases hfound
  · rename_i m hm
    split at hfound
    · cases hfound
    · rename_i hplace
      split at hfound
      · cases hfound
      · rename_i hperm
        split at hfound
        · cases hfound
        · cases hfound
          simp only [Bool.or_eq_true, decide_eq_true_eq, bne_iff_ne, ne_eq, not_or,
            not_not] at hplace hperm
          exact ⟨hm, hplace.1, hplace.2, hperm⟩

/-- A node that a merge disconnects is redirected to the one that is kept. -/
private theorem edit_of_disconnect (hg : g.Tidy taken) (ha : g.Acyclic) {i j : Nat}
    {n m : Node} (hij : i ≠ j) (hn : g.nodes[i]? = some n) (hm : g.nodes[j]? = some m)
    {old new : String} (hop : n.op = "Transpose") (hold : n.outputs = [old])
    (hnew : m.outputs = [new])
    (hreason : StandsFor s g n new .move) {after : Graph}
    (h : (g.replaceInputs old new).removeDisconnected
      (NodeRef.afterRewiring { node := n, place := some i } old new) = .ok after) :
    Edit s g .move after := by
  obtain ⟨hgather, hconstant⟩ := transposition_ne hop
  have hmem := List.mem_of_getElem? hn
  have hapart : old ∉ n.reads := ha.not_mem_reads hg hmem hgather (by simp [hold])
  obtain ⟨hinside, rfl⟩ :=
    Graph.removeIfUnreferenced_rewired hn hold hapart (Graph.removeDisconnected_ok h)
  refine .redirect hn hold hinside hapart (fun heq => ?_) hreason (.inl rfl)
  -- two nodes do not yield one value
  by_contra hne
  have hvn : old ∈ n.results := Node.mem_results.2 ⟨by simp [hold], hne⟩
  have hvm : old ∈ m.results := Node.mem_results.2 ⟨by simp [hnew, heq], hne⟩
  exact hij (hg.place_eq hn hm
    (hg.once hmem hvn hgather hconstant n hmem m (List.mem_of_getElem? hm) hvn hvm))

theorem mergeTwin_edit (hg : g.Tidy taken) (ha : g.Acyclic) (ht : t.Stands s g)
    {after : Graph} {rule : String} (h : mergeTwin s g t = .ok (some (after, rule))) :
    Edit s g .move after := by
  unfold mergeTwin at h
  split at h
  · cases h
  · rename_i place other htwin
    obtain ⟨hother, hplace, hhead, hperm⟩ := twin?_eq_some htwin
    obtain ⟨hop, hinputs, houtputs⟩ := resolvePermutation_ok hperm
    have hsource : other.inputs = [t.source] := by
      rw [hinputs, List.headD_eq_head?_getD, hhead, Option.getD_some]
    simp only at h
    split at h
    · obtain ⟨next, hnext, h⟩ := bind_eq_ok h
      cases h
      exact edit_of_disconnect hg ha (fun e => hplace e.symm) ht.node hother ht.op ht.outputs
        houtputs (.second ht rfl (List.mem_of_getElem? hother) hperm hsource houtputs) hnext
    · obtain ⟨next, hnext, h⟩ := bind_eq_ok h
      cases h
      exact edit_of_disconnect hg ha hplace hother ht.node hop houtputs ht.outputs
        (.first ht hperm hsource rfl) hnext

/-! ## Transpositions in a row -/

theorem successor?_eq_some {place : Nat} {consumer : Node} {next : List Nat}
    (h : successor? s g t = some (place, consumer, next)) :
    g.nodes[place]? = some consumer ∧ consumer.inputs = [t.output] ∧ t.output ≠ "" ∧
      resolvePermutation s.enclosing g consumer (some t.perm.length) = some next ∧
      next.length = t.perm.length := by
  unfold successor? at h
  obtain ⟨found, hmem, hfound⟩ := List.exists_of_findSome?_eq_some h
  obtain ⟨_, _, hread⟩ := Graph.mem_readers.1 hmem
  split at hfound
  · cases hfound
  · rename_i m hm
    split at hfound
    · cases hfound
    · rename_i hhead
      split at hfound
      · cases hfound
      · rename_i p hp
        split at hfound
        · rename_i hrank
          cases hfound
          obtain ⟨-, hinputs, -⟩ := resolvePermutation_ok hp
          have hhead : consumer.inputs.head? = some t.output := by simpa using hhead
          refine ⟨hm, ?_, Node.ne_empty_of_mem_reads hread, hp, hrank⟩
          rw [hinputs, List.headD_eq_head?_getD, hhead, Option.getD_some]
        · cases hfound

theorem composeSuccessor_edits (hg : g.Tidy taken) (ha : g.Acyclic) (ht : t.Stands s g) {after : Graph}
    {rule : String} (h : composeSuccessor s g t = .ok (some (after, rule))) :
    Treated s g after := by
  unfold composeSuccessor at h
  split at h
  · cases h
  · rename_i place consumer next hsuccessor
    obtain ⟨hplace, hinputs, hpresent, hresolved, hrank⟩ := successor?_eq_some hsuccessor
    obtain ⟨hop, -, houtput⟩ := resolvePermutation_ok hresolved
    obtain ⟨old, houtputs⟩ : ∃ old, consumer.outputs = [old] := ⟨_, houtput⟩
    -- a transposition in an acyclic graph does not read what it yields
    have hother : t.place ≠ place := by
      rintro rfl
      obtain rfl : consumer = t.node := Option.some.inj (hplace.symm.trans ht.node)
      have hread : t.output ∈ t.node.reads :=
        Node.mem_reads.2 (.inl ⟨by simp [hinputs], hpresent⟩)
      exact ha.not_mem_reads hg ht.mem (transposition_ne ht.op).1 (by simp [ht.outputs]) hread
    simp only at h
    split at h
    · rename_i hcancel
      obtain ⟨⟨joined, how⟩, hbypass, h⟩ := bind_eq_ok h
      cases h
      have hmem := List.mem_of_getElem? hplace
      obtain ⟨hgather, hconstant⟩ := transposition_ne hop
      have hapart : old ∉ consumer.reads :=
        ha.not_mem_reads hg hmem hgather (by simp [houtputs])
      obtain ⟨k, hk, hname, hkop⟩ :=
        exists_of_bypass hplace houtputs hapart ht.node hother hbypass
      refine ⟨.move, joined, joined, .inl rfl, edit_of_bypass hplace houtputs hapart
        (fun heq => ?_) (.undone ht hresolved hinputs rfl hpresent hrank hcancel) hbypass, .refl,
        .inr ⟨t.node, ht.mem, ht.op, ⟨k, hk, hname, hkop.trans ht.op⟩, rfl⟩⟩
      -- the value before both would be the one behind both
      by_contra hne
      obtain ⟨level, hlevel⟩ := ha
      have hsource : t.source ∈ consumer.results := by
        rw [Node.mem_results, houtputs, ← heq]
        exact ⟨by simp, hne⟩
      have houtput : t.output ∈ t.node.results := by
        rw [Node.mem_results, ht.outputs]
        exact ⟨by simp, hpresent⟩
      have hread : t.output ∈ consumer.reads :=
        Node.mem_reads.2 (.inl ⟨by simp [hinputs], hpresent⟩)
      have h₁ := hlevel t.node ht.mem t.source ht.source_mem_reads
        (Graph.mem_results.2 ⟨consumer, hmem, hsource⟩) t.output houtput
        (hg.not_spare ht.mem houtput (transposition_ne ht.op).1 (transposition_ne ht.op).2)
      have h₂ := hlevel consumer hmem t.output hread
        (Graph.mem_results.2 ⟨t.node, ht.mem, houtput⟩) t.source hsource
        (hg.not_spare hmem hsource hgather hconstant)
      omega
    · cases h
      refine ⟨.move, _, _, .inl rfl, .rebase ht hplace hinputs hpresent hresolved hrank, .refl,
        .inr ⟨t.node, ht.mem, ht.op,
          ⟨t.node, List.mem_of_getElem? (i := t.place) ?_, rfl, ht.op⟩, rfl⟩⟩
      exact (List.getElem?_set_ne fun e => hother e.symm).trans ht.node

/-! ## Sizes of a transposed value -/

theorem takesSizes_op {n : Node} (h : takesSizes t n = true) :
    Capability.ofOp n.op = .shape ∧ n.inputs = [t.output] ∧ n.outputs.length = 1 := by
  unfold takesSizes at h
  simp only [Bool.and_eq_true, beq_iff_eq] at h
  exact ⟨h.1.1.1.1, h.1.1.1.2, h.1.1.2⟩

/-- A node at a place that takes the sizes of the transposed value. -/
private def IsTaker (t : PlacedTranspose) (g : Graph) (taker : Nat × Node) : Prop :=
  g.nodes[taker.1]? = some taker.2 ∧ takesSizes t taker.2 = true ∧ t.output ≠ ""

private theorem isTaker_of_mem {taker : Nat × Node}
    (h : taker ∈ (g.readers t.output).filterMap fun place =>
      (g.nodes[place]?).bind fun n => if takesSizes t n then some (place, n) else none) :
    IsTaker t g taker := by
  obtain ⟨found, hmem, hfound⟩ := List.mem_filterMap.1 h
  obtain ⟨_, _, hread⟩ := Graph.mem_readers.1 hmem
  obtain ⟨m, hm, hfound⟩ := Option.bind_eq_some_iff.1 hfound
  split at hfound
  · rename_i htakes
    cases hfound
    exact ⟨hm, htakes, Node.ne_empty_of_mem_reads hread⟩
  · cases hfound

private theorem nodup_takers :
    (((g.readers t.output).filterMap fun place =>
      (g.nodes[place]?).bind fun n => if takesSizes t n then some (place, n) else none).map
        Prod.fst).Nodup := by
  have hreaders : (g.readers t.output).Nodup := List.nodup_range.filter _
  rw [List.map_filterMap]
  refine hreaders.filterMap fun i j place hi hj => ?_
  simp only [Option.mem_def, Option.map_eq_some_iff, Option.bind_eq_some_iff] at hi hj
  obtain ⟨taker, ⟨m, -, hm⟩, rfl⟩ := hi
  obtain ⟨other, ⟨k, -, hk⟩, heq⟩ := hj
  split at hm <;> cases hm
  split at hk <;> cases hk
  exact heq.symm

/-- After one node is rebased the transposition and the other takers are still there. -/
private theorem stands_rebased {first : Nat × Node} {rest : List (Nat × Node)}
    (hnodup : ((first :: rest).map Prod.fst).Nodup) (ht : t.Stands s g)
    (htakers : ∀ taker ∈ first :: rest, IsTaker t g taker) :
    t.Stands s (rebaseSizes s t g first.1 first.2) ∧
      ∀ taker ∈ rest, IsTaker t (rebaseSizes s t g first.1 first.2) taker := by
  obtain ⟨hn, htakes, -⟩ := htakers first (by simp)
  have hresized := rebaseSizes_resized s t g first.1 first.2 hn
  have hplace : t.place ≠ first.1 := by
    intro e
    have hsame : t.node = first.2 := by
      have := ht.node
      rw [e, hn] at this
      exact (Option.some.inj this).symm
    have := (takesSizes_op htakes).1
    rw [← hsame, ht.op] at this
    exact absurd this (by decide)
  rw [List.map_cons, List.nodup_cons] at hnodup
  refine ⟨hresized.stands ht hplace, fun other hother => ?_⟩
  obtain ⟨hm, hrest⟩ := htakers other (List.mem_cons_of_mem _ hother)
  refine ⟨hresized.getElem?_of_ne (fun e => hnodup.1 ?_) hm, hrest⟩
  exact e ▸ List.mem_map_of_mem hother

/-- Rebasing one node after the other, with the transposition still there in the end. -/
private theorem rebase_edits {takers : List (Nat × Node)} (hnodup : (takers.map Prod.fst).Nodup)
    (ht : t.Stands s g) (htakers : ∀ taker ∈ takers, IsTaker t g taker) :
    Relation.ReflTransGen (fun g h => Edit s g .resize h) g
        (takers.foldl (fun (h : Graph) taker => rebaseSizes s t h taker.1 taker.2) g) ∧
      t.Stands s (takers.foldl (fun (h : Graph) taker => rebaseSizes s t h taker.1 taker.2) g) := by
  induction takers generalizing g with
  | nil => exact ⟨.refl, ht⟩
  | cons first rest ih =>
      obtain ⟨hn, htakes, hpresent⟩ := htakers first (by simp)
      obtain ⟨hstands, hrest⟩ := stands_rebased hnodup ht htakers
      rw [List.map_cons, List.nodup_cons] at hnodup
      obtain ⟨hedits, hlast⟩ := ih hnodup.2 hstands hrest
      exact ⟨.head (.resize ht hn htakes hpresent) hedits, hlast⟩

theorem rebaseAllSizes_edits (ht : t.Stands s g) {after : Graph} {rule : String}
    (h : rebaseAllSizes s g t = .ok (some (after, rule))) : Treated s g after := by
  unfold rebaseAllSizes at h
  simp only at h
  generalize htakers : ((g.readers t.output).filterMap fun place =>
    (g.nodes[place]?).bind fun n => if takesSizes t n then some (place, n) else none) = takers at h
  cases takers with
  | nil => cases h
  | cons first rest =>
      cases h
      have hnodup : ((first :: rest).map Prod.fst).Nodup := htakers ▸ nodup_takers
      have hall : ∀ taker ∈ first :: rest, IsTaker t g taker := fun taker htaker =>
        isTaker_of_mem (htakers ▸ htaker)
      obtain ⟨hn, htakes, hpresent⟩ := hall first (by simp)
      obtain ⟨hstands, hrest⟩ := stands_rebased hnodup ht hall
      obtain ⟨hedits, hlast⟩ := rebase_edits (List.nodup_cons.1 hnodup).2 hstands hrest
      exact ⟨.resize, _, _, .inr rfl, .resize ht hn htakes hpresent, hedits,
        .inr ⟨t.node, ht.mem, ht.op, ⟨t.node, hlast.mem, rfl, ht.op⟩, rfl⟩⟩

/-! ## Moving down -/

theorem pushDown_edit (ht : t.Stands s g) {after : Graph} {rule : String}
    (h : pushDown s g t = .ok (some (after, rule))) : Edit s g .move after := by
  unfold pushDown at h
  split at h
  · cases h
  · rename_i hinside
    split at h
    · rename_i place hreaders
      split at h
      · cases h
      · rename_i consumer hconsumer
        split at h
        · cases h
        · rename_i hshape
          split at h
          · cases h
          · rename_i policy attributes hpassage
            obtain ⟨plan?, hplan, h⟩ := bind_eq_ok h
            cases plan? with
            | none => cases h
            | some plan =>
                obtain ⟨next, hnext, h⟩ := bind_eq_ok h
                cases h
                simp only [ne_eq, Bool.or_eq_true, decide_eq_true_eq, Bool.not_eq_true',
                  List.contains_eq_mem, decide_eq_false_iff_not, not_or, not_not] at hshape
                exact .relocate ht (by simpa using hinside) hreaders hconsumer hshape.1 hshape.2
                  hpassage (Graph.orStop_ok hplan) hnext
    · cases h

/-! ## All rules -/

theorem firstOf_ok {rules : List (Unit → Outcome)} {found : Graph × String}
    (h : firstOf rules = .ok (some found)) : ∃ rule ∈ rules, rule () = .ok (some found) := by
  induction rules with
  | nil => cases h
  | cons rule rest ih =>
      unfold firstOf at h
      obtain ⟨outcome, houtcome, h⟩ := bind_eq_ok h
      cases outcome with
      | none =>
          obtain ⟨other, hother, hfound⟩ := ih h
          exact ⟨other, List.mem_cons_of_mem _ hother, hfound⟩
      | some found =>
          cases h
          exact ⟨rule, by simp, houtcome⟩

/-- What a rule does to a graph that is tidy and has an order. -/
theorem treat_edits (hg : g.Tidy taken) (ha : g.Acyclic) {place : Nat} {n : Node}
    (hn : g.nodes[place]? = some n) {after : Graph} {rule : String}
    (h : treat s g place n = .ok (some (after, rule))) : Treated s g after := by
  unfold treat at h
  split at h
  · cases h
  · rename_i perm hperm
    simp only at h
    split at h
    · cases h
    · rename_i hpresent
      have ht : PlacedTranspose.Stands s g { place, node := n, perm } := ⟨hn, hperm, hpresent⟩
      obtain ⟨applied, hmem, hfound⟩ := firstOf_ok h
      simp only [List.mem_cons, List.not_mem_nil, or_false] at hmem
      rcases hmem with rfl | rfl | rfl | rfl | rfl
      · exact .of_move (dropIdentity_edit hg ha ht hfound)
      · exact .of_move (mergeTwin_edit hg ha ht hfound)
      · exact composeSuccessor_edits hg ha ht hfound
      · exact rebaseAllSizes_edits ht hfound
      · exact .of_move (pushDown_edit ht hfound)

end Transposes

/-! ## Identities -/

namespace Identities

open Rewriting

variable {s : Surroundings} {g : Graph}

theorem endpoints?_eq_some {n : Node} {input output : String}
    (h : endpoints? n = some (input, output)) :
    n.inputs = [input] ∧ n.outputs = [output] ∧ input ≠ "" ∧ output ≠ input := by
  unfold endpoints? at h
  split at h
  · rename_i hin hout
    split at h
    · cases h
    · rename_i hdistinct
      cases h
      simp only [Bool.or_eq_true, decide_eq_true_eq, beq_iff_eq, not_or] at hdistinct
      exact ⟨hin, hout, hdistinct.1, fun e => hdistinct.2 e.symm⟩
  · cases h

/-- A node that can be removed after a rewiring has not been rewired itself. -/
private theorem removeNode_ok {place : Nat} {n : Node} {old new : String} (hne : old ≠ new)
    {h removed : Graph}
    (hremoved : h.removeNode (NodeRef.afterRewiring { node := n, place := some place } old new) =
      .ok removed) : old ∉ n.reads ∧ removed = h.dropNode place := by
  unfold NodeRef.afterRewiring at hremoved
  split at hremoved
  · cases hremoved
  · rename_i hread
    cases hremoved
    simp only [ne_eq, decide_not, Bool.and_eq_true, Bool.not_eq_true', decide_eq_false_iff_not,
      List.contains_eq_mem, decide_eq_true_eq, not_and] at hread
    exact ⟨hread hne, rfl⟩

/-- Removing an identity is one removal. -/
theorem eliminate_edit {place : Nat} {n : Node} (hn : g.nodes[place]? = some n)
    (hop : n.op = "Identity") {after : Graph} {how : Removal}
    (h : eliminate s g { node := n, place := some place } = .ok (some (after, how))) :
    Edit s g .removal after := by
  unfold eliminate at h
  split at h
  · cases h
  · rename_i input output hends
    obtain ⟨hinputs, houtputs, hpresent, hne⟩ := endpoints?_eq_some hends
    simp only at h
    split at h
    · rename_i hinside
      obtain ⟨removed, hremoved, h⟩ := bind_eq_ok h
      cases h
      obtain ⟨hapart, rfl⟩ := removeNode_ok hne (Graph.orStop_ok hremoved)
      have hinside : g.isOutput output = false := by simpa using hinside
      have hredirect : ((g.replaceInputs output input).dropNode place).eraseInfo output =
          redirected g place output input
            (if g.isInput output then g.infos else g.infos.erase output) := by
        unfold Graph.eraseInfo redirected
        have hin : ((g.replaceInputs output input).dropNode place).isInput output =
            g.isInput output := by simp [Graph.isInput, Graph.dropNode]
        have hout : ((g.replaceInputs output input).dropNode place).isOutput output = false := by
          rw [← hinside]
          simp [Graph.isOutput, Graph.dropNode]
        rw [hin, hout, Bool.or_false]
        split <;> simp [Graph.dropNode]
      rw [hredirect]
      refine .redirect hn houtputs hinside hapart (fun e => absurd e hne)
        (.forwarded hop hinputs hpresent) ?_
      split
      · exact .inr ⟨rfl, by assumption⟩
      · exact .inl rfl
    · rename_i hyielded
      have hyielded : g.isOutput output = true := by simpa using hyielded
      split at h
      · cases h
      · rename_i hother
        have hother : g.isOutput input = false := by simpa using hother
        split at h
        · rename_i hproduced
          obtain ⟨removed, hremoved, h⟩ := bind_eq_ok h
          obtain ⟨renamed, hrenamed, h⟩ := bind_eq_ok h
          cases h
          cases Graph.orStop_ok hremoved
          exact .promote hn houtputs hyielded (Graph.producer?_isSome_iff.1 hproduced) hother
            (.forwarded hop hinputs hpresent) (.inl rfl) (Graph.orStop_ok hrenamed)
        · rename_i hproduced
          split at h
          · cases h
          · rename_i henclosed
            obtain ⟨removed, hremoved, h⟩ := bind_eq_ok h
            obtain ⟨rebound, hrebound, h⟩ := bind_eq_ok h
            cases h
            obtain ⟨hapart, rfl⟩ := removeNode_ok hne (Graph.orStop_ok hremoved)
            exact .passthrough hn hop hinputs hpresent houtputs hyielded hapart hother
              (by simpa using henclosed) (fun hmem => hproduced (Graph.producer?_isSome_iff.2 hmem))
              (Graph.orStop_ok hrebound)

end Identities

/-! ## Dead nodes -/

namespace DeadNodes

open Rewriting

variable {g : Graph} {kept gone places : List Nat}

private theorem nodesAt_eq_map (hkept : ∀ place ∈ kept, place < g.nodes.length) :
    g.nodesAt kept = kept.map fun place => (g.nodes[place]?).getD default := by
  unfold Graph.nodesAt
  rw [List.filterMap_eq_map_iff_forall_eq_some]
  intro place hplace
  simp [List.getElem?_eq_getElem (hkept place hplace)]

/-- A node that is not live is removed from the nodes that are kept. -/
private theorem removeUnreferenced?_restrict (gone : List Nat) {place : Nat} (hnodup : kept.Nodup)
    (hkept : ∀ place ∈ kept, place < g.nodes.length) (hplace : place ∈ kept)
    (hlive : isLive g kept place = false) :
    (restrict g kept gone).removeUnreferenced? (kept.idxOf place) =
      some (restrict g (kept.filter (· != place)) (gone ++ [place])) := by
  have hlt : kept.idxOf place < kept.length := List.idxOf_lt_length_of_mem hplace
  have hat (j : Nat) : (restrict g kept gone).nodes[j]? =
      kept[j]?.map fun place => (g.nodes[place]?).getD default := by
    simp [restrict, nodesAt_eq_map hkept]
  obtain ⟨n, hn⟩ : ∃ n, g.nodes[place]? = some n :=
    ⟨_, List.getElem?_eq_getElem (hkept place hplace)⟩
  unfold isLive at hlive
  simp only [hn, List.any_eq_false, isNeeded, Bool.or_eq_true, not_or, Bool.not_eq_true] at hlive
  unfold Graph.removeUnreferenced?
  rw [hat, List.getElem?_eq_getElem hlt, List.getElem_idxOf hlt]
  simp only [Option.map_some, hn, Option.getD_some]
  rw [if_neg]
  · -- what is left is kept without the place
    have hfilter : kept.filter (· != place) = kept.eraseIdx (kept.idxOf place) := by
      rw [← hnodup.erase_eq_filter, List.erase_eq_eraseIdx_of_idxOf rfl]
    have hnodes : (restrict g kept gone).nodes.eraseIdx (kept.idxOf place) =
        g.nodesAt (kept.filter (· != place)) := by
      have hsub : ∀ other ∈ kept.eraseIdx (kept.idxOf place), other < g.nodes.length :=
        fun other hother => hkept other (List.mem_of_mem_eraseIdx hother)
      rw [hfilter, nodesAt_eq_map hsub]
      simp [restrict, nodesAt_eq_map hkept, List.eraseIdx_map]
    have hinfos : n.outputs.foldl InfoTable.erase (restrict g kept gone).infos =
        ((g.nodesAt (gone ++ [place])).flatMap Node.outputs).foldl InfoTable.erase g.infos := by
      simp [restrict, Graph.nodesAt, List.filterMap_append, hn]
    simp only [Graph.dropNode, hnodes, hinfos]
    rfl
  · -- a reader of what the node yields would be another one that is kept
    rw [List.any_eq_true]
    rintro ⟨value, hvalue, hused⟩
    obtain ⟨hinside, hreaders⟩ := hlive value hvalue
    unfold Graph.isUsedBeside at hused
    rw [Bool.or_eq_true, List.any_eq_true] at hused
    rcases hused with hout | ⟨j, hj, hne⟩
    · rw [show (restrict g kept gone).isOutput value = g.isOutput value from rfl, hinside] at hout
      cases hout
    · obtain ⟨m, hm, hread⟩ := Graph.mem_readers.1 hj
      rw [hat, Option.map_eq_some_iff] at hm
      obtain ⟨other, hother, rfl⟩ := hm
      have hmem : other ∈ kept := List.mem_of_getElem? hother
      have hm := List.getElem?_eq_getElem (hkept other hmem)
      rw [hm] at hread
      have hreader : other ∈ g.readers value := Graph.mem_readers.2 ⟨_, hm, by simpa using hread⟩
      have := hreaders other hreader
      have hsame : other = place := by
        by_contra hne
        simp [hne, hmem] at this
      refine bne_iff_ne.1 hne ?_
      obtain ⟨hjlt, rfl⟩ := List.getElem?_eq_some_iff.1 hother
      rw [← hsame, hnodup.idxOf_getElem]

/-- So many nodes are removed that nothing needs, one after the other. -/
inductive Dropped : Nat → Graph → Graph → Prop
  | none {g : Graph} : Dropped 0 g g
  | one {count place : Nat} {g h k : Graph} (removed : g.removeUnreferenced? place = some h)
      (rest : Dropped count h k) : Dropped (count + 1) g k

/-- Going through places is removing the nodes that are dropped. -/
private theorem dropDead_dropped (kept gone places : List Nat) (hnodup : kept.Nodup)
    (hkept : ∀ place ∈ kept, place < g.nodes.length) (hplaces : places.Nodup)
    (hsub : ∀ place ∈ places, place ∈ kept) :
    Dropped (dropDead g kept places).2.length (restrict g kept gone)
      (restrict g (dropDead g kept places).1 (gone ++ (dropDead g kept places).2)) := by
  induction places generalizing kept gone with
  | nil => simpa [dropDead] using Dropped.none
  | cons place rest ih =>
      rw [List.nodup_cons] at hplaces
      unfold dropDead
      split
      · exact ih kept gone hnodup hkept hplaces.2 fun other hother => hsub other (by simp [hother])
      · rename_i hlive
        have hremoved := removeUnreferenced?_restrict gone hnodup hkept
          (hsub place (by simp)) (by simpa using hlive)
        have hrest := ih (kept.filter (· != place)) (gone ++ [place])
          (hnodup.filter _) (fun other hother => hkept other (List.mem_filter.1 hother).1) hplaces.2
          fun other hother => List.mem_filter.2
            ⟨hsub other (by simp [hother]), by
              simpa using fun e : other = place => hplaces.1 (e ▸ hother)⟩
        simp only [List.append_assoc, List.singleton_append] at hrest
        exact .one hremoved hrest

private theorem restrict_all (g : Graph) : restrict g (List.range g.nodes.length) [] = g := by
  unfold restrict
  rw [g.nodesAt_range]
  cases g
  simp [Graph.nodesAt]

/-- A round removes as many nodes as it counts. -/
theorem round_dropped (h : (round g).failure = none) :
    Dropped (round g).changes g (round g).graph := by
  unfold round at h ⊢
  cases horder : g.topologicalOrder with
  | error cause => simp [horder] at h
  | ok order =>
      obtain ⟨hschedule, -⟩ := Graph.topologicalOrder_ok horder
      have hgo := dropDead_dropped (g := g) (List.range g.nodes.length) [] order.reverse
        List.nodup_range (fun place => List.mem_range.1)
        (List.nodup_reverse.2 (hschedule ▸ nodup_schedule _)) fun place hplace => by
          rw [List.mem_reverse, hschedule] at hplace
          simpa using mem_schedule_lt hplace
      rw [restrict_all, List.nil_append] at hgo
      exact hgo

end DeadNodes

end TensorGraph
