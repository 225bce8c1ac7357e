import TensorGraph.Proofs.Shortcuts

/-!
# Transpositions of a chain

A transposition of a chain is bypassed when it moves nothing, and composed with the next one when that
follows at once. What is left is a chain whose permutations compose to the same as before. No other
transposition reads the same value, and nobody takes the sizes of what is transposed.

## Main results

* `Transposes.dropIdentity_turns` -- a transposition that moves nothing goes.
* `Transposes.composeSuccessor_turns` -- of two transpositions in a row at most one is left.
* `Transposes.rebaseAllSizes_eq_none` -- no sizes are taken.
-/

namespace TensorGraph

open TensorGraph.Graph Graph.Chained

/-! ## Transpositions in a chain -/

namespace Transposes

/-- A transposition that stands in a chain, after some links and before others. -/
structure Amid (s : Surroundings) (rank : Nat) (x y : String) (g : Graph) (t : PlacedTranspose)
    (before after : List Link) (ps qs : List (List Nat)) : Prop where
  stands : t.Stands s g
  chained : g.Chained rank x y (before ++ ⟨t.node, []⟩ :: after) (ps ++ ([t.perm] ++ qs))
  before : Chain rank x before t.source ps
  link : Link.Leads rank t.source ⟨t.node, []⟩ t.output [t.perm]
  after : Chain rank t.output after y qs

theorem exists_amid {s : Surroundings} {rank : Nat} {x y : String} {g : Graph} {t : PlacedTranspose}
    {links : List Link} {perms : List (List Nat)} (hc : g.Chained rank x y links perms)
    (ht : t.Stands s g) : ∃ before after ps qs, Amid s rank x y g t before after ps qs ∧
      links = before ++ ⟨t.node, []⟩ :: after ∧ perms = ps ++ ([t.perm] ++ qs) := by
  obtain ⟨before, after, ps, qs, rfl, hbefore, link, hafter, rfl⟩ := hc.exists_cut ht
  exact ⟨before, after, ps, qs, ⟨ht, hc, hbefore, link, hafter⟩, rfl, rfl⟩

namespace Amid

variable {visible : String → Prop} {s : Surroundings} {rank : Nat} {x y : String} {g : Graph}
  {t : PlacedTranspose} {before after : List Link} {ps qs : List (List Nat)}

theorem named (ha : Amid s rank x y g t before after ps qs) : t.source ≠ "" ∧ t.output ≠ "" :=
  ha.link.named

theorem eq_of_isOutput (ha : Amid s rank x y g t before after ps qs) {value : String} :
    g.isOutput value = true ↔ value = y := by
  simp [isOutput, ha.chained.outputs, eq_comm]

theorem rank_eq (ha : Amid s rank x y g t before after ps qs) : t.perm.length = rank :=
  (ha.link.ofRank t.perm (List.mem_singleton_self _)).2

/-- The transposition joins the links before it. -/
theorem snoc (ha : Amid s rank x y g t before after ps qs) :
    Chain rank x (before ++ [⟨t.node, []⟩]) t.output (ps ++ [t.perm]) :=
  Chain.append_iff.2 ⟨t.source, ps, [t.perm], ha.before, .cons ha.link .nil, rfl⟩

theorem chained_snoc (ha : Amid s rank x y g t before after ps qs) :
    g.Chained rank x y ((before ++ [⟨t.node, []⟩]) ++ after) (ps ++ ([t.perm] ++ qs)) := by
  rw [List.append_assoc]
  exact ha.chained

/-- What is known of the transposed value says that it has the rank of the chain. -/
theorem ranked (ha : Amid s rank x y g t before after ps qs) : g.RankedAs rank t.output :=
  ha.chained_snoc.rankedAs ha.snoc

theorem output_mem (ha : Amid s rank x y g t before after ps qs) : t.output ∈ g.results :=
  mem_results.2 ⟨t.node, ha.stands.mem,
    Node.mem_results.2 ⟨by simp [ha.stands.outputs], ha.named.2⟩⟩

section Wellformed

variable (ha : Amid s rank x y g t before after ps qs) (hg : Wellformed visible g)

include ha hg

/-- What a transposition yields is not what it reads. -/
theorem apart : t.output ∉ t.node.reads :=
  hg.not_mem_reads ha.stands.mem (by simp [ha.stands.outputs])

theorem output_ne_source : t.output ≠ t.source := fun e =>
  ha.apart hg (e ▸ ha.stands.source_mem_reads)

theorem source_not_mem : t.source ∉ linkResults after := by
  have hnot := ha.chained.source_not_mem hg.toScoped ha.before
  rw [Link.results_cons, List.mem_append, not_or] at hnot
  exact hnot.2

theorem output_not_mem : t.output ∉ linkResults after :=
  ha.chained.target_not_mem hg.toScoped ha.link

/-- A transposition is the only reader of its source. -/
theorem readers_source : g.readers t.source = [t.place] := by
  refine (readers_eq_singleton_iff hg.names ha.stands.node).2 fun m hm => ⟨fun hread => ?_, ?_⟩
  · exact ha.chained.reads_source hg.toScoped ha.before (.cons ha.link ha.after) hm hread
  · rintro rfl
    exact ha.stands.source_mem_reads

/-- What the last link of a chain yields is read by no node. -/
theorem unread_of_last (hlast : after = []) : ∀ m ∈ g.nodes, t.output ∉ m.reads := by
  intro m hm hread
  obtain ⟨next, rest, hnext, -⟩ :=
    ha.chained.reads_target hg.toScoped ha.before ha.link ha.after hm hread
  rw [hlast] at hnext
  cases hnext

/-- The output of the graph is what its last link yields. -/
theorem isOutput_iff : g.isOutput t.output = true ↔ after = [] :=
  ha.chained.isOutput_target hg.toScoped ha.link ha.after

end Wellformed

end Amid

/-- Whether a rule has changed a chain into one whose permutations compose to a certain one. -/
def Outcome.Turns (rank : Nat) (x y : String) (p : List Nat) (outcome : Outcome) : Prop :=
  ∃ next line, outcome = .ok (some (next, line)) ∧ next.Turns rank x y p

/-! ## Transpositions that move nothing -/

section Rules

variable {visible : String → Prop} {s : Surroundings} {rank : Nat} {x y : String} {g : Graph}
  {t : PlacedTranspose} {before after : List Link} {ps qs : List (List Nat)}
  (ha : Amid s rank x y g t before after ps qs) (hg : Wellformed visible g)

include ha hg

/-- A transposition that moves nothing can go. -/
theorem dropIdentity_turns (hid : Permutation.isIdentity t.perm = true) :
    (dropIdentity g t).Turns rank x y (Permutation.composition rank (ps ++ ([t.perm] ++ qs))) := by
  have hskip : Permutation.composition rank (ps ++ qs) =
      Permutation.composition rank (ps ++ ([t.perm] ++ qs)) := by
    have hnone : Permutation.OfRank rank [] := by simp [Permutation.OfRank]
    refine Permutation.composition_congr ha.chained.chain.ofRank hnone ?_
    rw [Permutation.composition_singleton ha.link.ofRank,
      (Permutation.isIdentity_iff ha.rank_eq).1 hid]
    rfl
  obtain ⟨h, how, hbypass, hafter⟩ := bypass_joined hg ha.stands.node ha.stands.outputs (ha.apart hg)
    (ha.output_ne_source hg) fun hyielded => ha.unread_of_last hg ((ha.isOutput_iff hg).1 hyielded)
  refine ⟨h, _, by simp only [dropIdentity, hid, if_true, hbypass]; rfl, ?_⟩
  rw [← hskip]
  have hpart : g.Chained rank x y (before ++ ([⟨t.node, []⟩] ++ after)) (ps ++ ([t.perm] ++ qs)) :=
    ha.chained
  rcases hafter with hjoins | rfl
  · obtain ⟨links, hchained⟩ := hpart.joined_ends hg ha.before ha.after ha.output_mem ha.ranked ha.named
      (.refl _) hjoins
    exact ⟨links, _, hchained, rfl⟩
  · have hshim : Link.Leads rank t.source ⟨shim t.node t.output t.source, []⟩ t.output [] :=
      .elementwise ha.named (by decide : Capability.ofOp "Identity" = .unary) rfl rfl
    have hgone : g.nodes.Perm ([(⟨t.node, []⟩ : Link)].flatMap Link.nodes ++
        g.nodes.eraseIdx t.place) := (perm_eraseIdx ha.stands.node).symm
    have hlt := (List.getElem?_eq_some_iff.1 ha.stands.node).1
    refine ⟨_, _, hpart.exchanged ha.before (.single hshim) ha.after hgone
      (List.set_perm_cons_eraseIdx hlt _) rfl rfl (by simp [shim, Node.bodies, Link.nodes])
      fun value hvalue => hpart.ranked value (mem_outputs_of_exchanged ?_ hvalue), rfl⟩
    simp [shim, ha.stands.outputs]

/-! ## Transpositions in a row -/

/-- No other transposition reads what a transposition of a chain reads. -/
theorem mergeTwin_eq_none : mergeTwin s g t = .ok none := by
  unfold mergeTwin twin?
  rw [ha.readers_source hg]
  simp [ha.stands.node]

omit hg in
/-- Nobody takes the sizes of what a chain transposes. -/
theorem rebaseAllSizes_eq_none : rebaseAllSizes s g t = .ok none := by
  have htakers : ((g.readers t.output).filterMap fun place =>
      (g.nodes[place]?).bind fun n => if takesSizes t n then some (place, n) else none) = [] := by
    refine List.filterMap_eq_nil_iff.2 fun place _ => ?_
    cases hn : g.nodes[place]? with
    | none => rfl
    | some n =>
        have hshape := ha.chained.capability_ne_shape (List.mem_of_getElem? hn)
        simp [takesSizes, hshape]
  simp [rebaseAllSizes, htakers]

/-- The last link of a chain has no successor. -/
theorem composeSuccessor_of_last (hlast : after = []) : composeSuccessor s g t = .ok none := by
  have hreaders : g.readers t.output = [] := by
    refine List.eq_nil_iff_forall_not_mem.2 fun place hplace => ?_
    obtain ⟨m, hm, hread⟩ := mem_readers.1 hplace
    exact ha.unread_of_last hg hlast m (List.mem_of_getElem? hm) hread
  simp [composeSuccessor, successor?, hreaders]

end Rules

/-- The link that comes next in a chain, and where its node stands. -/
structure Followed (rank : Nat) (y : String) (g : Graph) (value : String) (l : Link)
    (rest : List Link) (place : Nat) (target : String) (us vs : List (List Nat)) : Prop where
  node : g.nodes[place]? = some l.node
  link : l.Leads rank value target us
  after : Chain rank target rest y vs

section Followed

variable {visible : String → Prop} {s : Surroundings} {rank : Nat} {x y target : String} {g : Graph}
  {t : PlacedTranspose} {before rest : List Link} {l : Link} {place : Nat}
  {ps us vs : List (List Nat)}

theorem Amid.exists_followed {after : List Link} {qs : List (List Nat)}
    (ha : Amid s rank x y g t before after ps qs) (hmore : after ≠ []) :
    ∃ l rest place target us vs, after = l :: rest ∧ qs = us ++ vs ∧
      Followed rank y g t.output l rest place target us vs := by
  obtain ⟨l, rest, rfl⟩ := List.exists_cons_of_ne_nil hmore
  obtain ⟨target, us, vs, link, hafter, rfl⟩ := Chain.cons_iff.1 ha.after
  have hmem : l.node ∈ g.nodes := ha.chained.mem_nodes.2
    ⟨l, List.mem_append_right _ (List.mem_cons_of_mem _ List.mem_cons_self), List.mem_cons_self⟩
  obtain ⟨place, hplace⟩ := List.getElem?_of_mem hmem
  exact ⟨l, rest, place, target, us, vs, rfl, rfl, hplace, link, hafter⟩

theorem Followed.target_mem (hf : Followed rank y g t.output l rest place target us vs) :
    target ∈ linkResults (l :: rest) := by
  rw [Link.results_cons]
  exact List.mem_append_left _ hf.link.target_mem

section Wellformed

variable (ha : Amid s rank x y g t before (l :: rest) ps (us ++ vs)) (hg : Wellformed visible g)

include ha hg

/-- The next node is the only one that reads the transposed value. -/
theorem Amid.eq_of_reads {m : Node} (hm : m ∈ g.nodes) (hread : t.output ∈ m.reads) : m = l.node := by
  obtain ⟨next, others, hnext, rfl⟩ :=
    ha.chained.reads_target hg.toScoped ha.before ha.link ha.after hm hread
  cases hnext
  rfl

theorem Amid.not_isOutput : g.isOutput t.output = false := by
  rw [Bool.eq_false_iff, ne_eq, ha.isOutput_iff hg]
  exact List.cons_ne_nil _ _

variable (hf : Followed rank y g t.output l rest place target us vs)

include hf

namespace Followed

theorem target_ne_source : target ≠ t.source := fun e =>
  ha.source_not_mem hg (e ▸ hf.target_mem)

theorem target_ne_output : target ≠ t.output := fun e =>
  ha.output_not_mem hg (e ▸ hf.target_mem)

theorem ne_node : l.node ≠ t.node := by
  intro e
  have houtputs := hf.link.outputs
  rw [e, ha.stands.outputs] at houtputs
  exact hf.target_ne_output ha hg (List.singleton_inj.1 houtputs).symm

theorem place_ne : t.place ≠ place := by
  intro e
  exact hf.ne_node ha hg (Option.some.inj (hf.node.symm.trans (e ▸ ha.stands.node)))

theorem readers_output : g.readers t.output = [place] := by
  refine (readers_eq_singleton_iff hg.names hf.node).2 fun m hm => ⟨ha.eq_of_reads hg hm, ?_⟩
  rintro rfl
  exact hf.link.source_mem_reads

/-- Beside the next node there is the transposition, and nothing that reads what it yields. -/
theorem beside {others : List Node} (hothers : g.nodes.Perm (l.node :: others)) :
    t.node ∈ others ∧ ∀ n ∈ others, t.output ∉ n.reads := by
  refine ⟨?_, fun n hn hread => ?_⟩
  · rcases List.mem_cons.1 (hothers.mem_iff.1 ha.stands.mem) with e | hmem
    · exact absurd e.symm (hf.ne_node ha hg)
    · exact hmem
  · obtain rfl := ha.eq_of_reads hg (hothers.mem_iff.2 (List.mem_cons_of_mem _ hn)) hread
    have hnames := (hothers.map Node.name).nodup_iff.1 hg.names
    exact (List.nodup_cons.1 hnames).1 (List.mem_map_of_mem hn)

/-- When the result of the next node has become one with another value, nothing reads the transposed
value, and the transposition can go as well. -/
theorem spare_joined {drop keep : String} {k : Graph} (hj : Joined g [l.node] drop keep k)
    (hdrop : drop ≠ "") (hends : t.output ≠ drop ∧ t.output ≠ keep) :
    Joined g [t.node, l.node] drop keep (k.removeNamedIfUnreferenced t.node.name) := by
  obtain ⟨others, hothers, hnodes⟩ := hj.nodes
  obtain ⟨hmem, hnone⟩ := hf.beside ha hg hothers
  have hspelled := t.node.respelled_merged keep (ha.chained.bodyless _ ha.stands.mem) hdrop
  have hnodup : (k.nodes.map Node.name).Nodup := by
    have hnames := (hothers.map Node.name).nodup_iff.1 hg.names
    rw [(hnodes.map Node.name).nodup_iff, List.map_map]
    simpa [Function.comp_def] using (List.nodup_cons.1 hnames).2
  have hout : (t.node.merged drop keep).outputs = [t.output] := by
    rw [hspelled.outputs, ha.stands.outputs, List.map_singleton, substituteName_eq, if_neg hends.1]
  have hinside : k.isOutput t.output = false := by
    rw [isOutput, hj.outputs]
    exact ha.not_isOutput hg
  have hunread : ∀ m ∈ k.nodes, t.output ∉ m.reads := by
    intro m hm hread
    obtain ⟨n, hn, rfl⟩ := List.mem_map.1 (hnodes.mem_iff.1 hm)
    rcases Node.mem_reads_merged hread with ⟨e, -⟩ | ⟨hread, -⟩
    · exact hends.2 e
    · exact hnone n hn hread
  obtain ⟨left, hleft, hremoved⟩ := removeNamedIfUnreferenced_spare hnodup
    (hnodes.mem_iff.2 (List.mem_map_of_mem hmem)) hout hinside hunread
  rw [Node.name_merged] at hremoved
  rw [hremoved]
  obtain ⟨first, last, rfl⟩ := List.append_of_mem hmem
  refine ⟨hj.inputs, hj.outputs, ⟨first ++ last, ?_, ?_⟩, ?_⟩
  · exact hothers.trans ((List.perm_middle.cons l.node).trans (.swap _ _ _))
  · exact ((hleft.symm.trans hnodes).trans (List.perm_middle.map _)).cons_inv
  · exact fun name info hinfo => hj.infos name info (InfoTable.get?_of_erase hinfo)

theorem spare_joins {k : Graph} (hj : Joins g [l.node] target t.source k) :
    Joins g [t.node, l.node] target t.source (k.removeNamedIfUnreferenced t.node.name) := by
  have hends := And.intro (hf.target_ne_output ha hg).symm (ha.output_ne_source hg)
  rcases hj with ⟨hinside, hj⟩ | ⟨hproduced, hinside, hj⟩
  · exact .inl ⟨hinside, hf.spare_joined ha hg hj hf.link.named.2 hends⟩
  · exact .inr ⟨hproduced, hinside, hf.spare_joined ha hg hj ha.named.1 hends.symm⟩

/-- When the next node has been replaced by one that reads what the transposition reads, nothing reads
the transposed value, and the transposition can go. -/
theorem spare_exchanged {m : Node} {ws : List (List Nat)}
    (hm : Link.Leads rank t.source ⟨m, []⟩ target ws) (hinputs : m.inputs = [t.source])
    (hname : m.name = l.node.name) (hbodies : m.bodies = []) (halone : l.constants = []) :
    ((g.putNode place m).removeNamedIfUnreferenced t.node.name).Chained rank x y
      (before ++ ([⟨m, []⟩] ++ rest)) (ps ++ (ws ++ vs)) := by
  have hlt := (List.getElem?_eq_some_iff.1 hf.node).1
  have hnodes : (g.putNode place m).nodes.Perm (m :: g.nodes.eraseIdx place) :=
    List.set_perm_cons_eraseIdx hlt m
  have hothers : g.nodes.Perm (l.node :: g.nodes.eraseIdx place) := (perm_eraseIdx hf.node).symm
  obtain ⟨hmem, hnone⟩ := hf.beside ha hg hothers
  have hnodup : ((g.putNode place m).nodes.map Node.name).Nodup := by
    rw [(hnodes.map Node.name).nodup_iff, List.map_cons, hname]
    exact (hothers.map Node.name).nodup_iff.1 hg.names
  have hunread : ∀ n ∈ (g.putNode place m).nodes, t.output ∉ n.reads := by
    intro n hn hread
    rcases List.mem_cons.1 (hnodes.mem_iff.1 hn) with rfl | hn
    · rw [Node.mem_reads, hinputs, hbodies] at hread
      simp [ha.output_ne_source hg] at hread
    · exact hnone n hn hread
  obtain ⟨left, hleft, hremoved⟩ := removeNamedIfUnreferenced_spare hnodup
    (hnodes.mem_iff.2 (List.mem_cons_of_mem _ hmem)) ha.stands.outputs (ha.not_isOutput hg) hunread
  obtain ⟨first, last, heq⟩ := List.append_of_mem hmem
  rw [heq] at hothers hnodes
  rw [hremoved]
  have hpart : g.Chained rank x y (before ++ ([⟨t.node, []⟩, l] ++ rest))
      (ps ++ ([t.perm] ++ (us ++ vs))) := ha.chained
  have hgone : g.nodes.Perm (([⟨t.node, []⟩, l] : List Link).flatMap Link.nodes ++ (first ++ last)) := by
    have hpair : ([⟨t.node, []⟩, l] : List Link).flatMap Link.nodes = [t.node, l.node] := by
      simp [Link.nodes, halone]
    rw [hpair]
    exact hothers.trans ((List.perm_middle.cons l.node).trans (.swap _ _ _))
  refine hpart.exchanged ha.before (.single hm) hf.after hgone ?_ rfl rfl
    (by simp [Link.nodes, hbodies]) fun value hvalue => ?_
  · exact ((hleft.symm.trans hnodes).trans ((List.perm_middle.cons m).trans (.swap _ _ _))).cons_inv
  · have hknown : g.RankedAs rank value := by
      have houtputs : m.outputs = [target] := hm.outputs
      refine hpart.ranked value (mem_outputs_of_exchanged ?_ hvalue)
      simp [houtputs, hf.link.outputs]
    exact fun info hinfo => hknown info (InfoTable.get?_of_erase hinfo)

/-- A value that the last node of a chain yields is read by no node. -/
theorem unread_of_isOutput (hyielded : g.isOutput target = true) :
    ∀ m ∈ g.nodes, target ∉ m.reads := by
  intro m hm hread
  have hnext := ha.chained_snoc
  have hlast := (hnext.isOutput_target hg.toScoped hf.link hf.after).1 hyielded
  obtain ⟨k, others, hmore, -⟩ :=
    hnext.reads_target hg.toScoped ha.snoc hf.link hf.after hm hread
  rw [hlast] at hmore
  cases hmore

end Followed

end Wellformed

/-- A transposition is composed with another one only. -/
theorem composeSuccessor_of_other
    (ha : Amid s rank x y g t before (l :: rest) ps (us ++ vs)) (hg : Wellformed visible g)
    (hf : Followed rank y g t.output l rest place target us vs) (hother : l.node.op ≠ "Transpose") :
    composeSuccessor s g t = .ok none := by
  have hnone : successor? s g t = none := by
    unfold successor?
    rw [hf.readers_output ha hg]
    simp [hf.node, resolvePermutation, hother]
  simp [composeSuccessor, hnone]

/-! ## Two transpositions in a row -/

section Compose

variable {n : Node} {q : List Nat}
  (ha : Amid s rank x y g t before (⟨n, []⟩ :: rest) ps ([q] ++ vs)) (hg : Wellformed visible g)
  (hf : Followed rank y g t.output ⟨n, []⟩ rest place target [q] vs)

include ha hg hf

theorem successor?_eq : successor? s g t = some (place, n, q) := by
  obtain ⟨-, hinputs, -⟩ := hf.link.transposes
  have hlength : q.length = rank := (hf.link.ofRank q (List.mem_singleton_self _)).2
  unfold successor?
  rw [hf.readers_output ha hg]
  simp [hf.node, hinputs, hf.link.resolvePermutation_eq, hlength, ha.rank_eq]

/-- Two transpositions that cancel both go. -/
theorem cancel_turns (hid : Permutation.isIdentity (Permutation.compose t.perm q) = true) :
    ∃ h how, g.bypass { node := n, place := some place } t.source = .ok (h, how) ∧
      (h.removeNamedIfUnreferenced t.node.name).Turns rank x y
        (Permutation.composition rank (ps ++ ([t.perm] ++ ([q] ++ vs)))) := by
  have hlength : q.length = rank := (hf.link.ofRank q (List.mem_singleton_self _)).2
  have houtputs : n.outputs = [target] := hf.link.outputs
  have hmem := List.mem_of_getElem? hf.node
  have hpair : g.Chained rank x y (before ++ ([⟨t.node, []⟩, ⟨n, []⟩] ++ rest))
      (ps ++ ([t.perm, q] ++ vs)) := ha.chained
  have hskip : Permutation.composition rank (ps ++ ([] ++ vs)) =
      Permutation.composition rank (ps ++ ([t.perm, q] ++ vs)) := by
    refine Permutation.composition_congr hpair.chain.ofRank (by simp [Permutation.OfRank]) ?_
    rw [Permutation.composition_pair ha.link.ofRank,
      (Permutation.isIdentity_iff (by rw [Permutation.length_compose, hlength])).1 hid]
    rfl
  have hmade : target ∈ g.results :=
    mem_results.2 ⟨n, hmem, Node.mem_results.2 ⟨by simp [houtputs], hf.link.named.2⟩⟩
  have hranked : g.RankedAs rank target := by
    refine ha.chained.ranked target (.inr ⟨⟨n, []⟩, by simp, ?_⟩)
    simp [houtputs]
  obtain ⟨h, how, hbypass, hafter⟩ := bypass_joined hg hf.node houtputs
    (hg.not_mem_reads hmem (by simp [houtputs])) (hf.target_ne_source ha hg)
    (hf.unread_of_isOutput ha hg)
  refine ⟨h, how, hbypass, ?_⟩
  change Turns rank x y (Permutation.composition rank (ps ++ ([t.perm, q] ++ vs))) _
  rw [← hskip]
  rcases hafter with hjoins | rfl
  · obtain ⟨links, hchained⟩ := hpair.joined_ends hg ha.before hf.after hmade hranked
      ⟨ha.named.1, hf.link.named.2⟩ (.refl _) (hf.spare_joins ha hg hjoins)
    exact ⟨links, _, hchained, rfl⟩
  · have hshim : Link.Leads rank t.source ⟨shim n target t.source, []⟩ target [] :=
      .elementwise ⟨ha.named.1, hf.link.named.2⟩ (by decide : Capability.ofOp "Identity" = .unary) rfl
        rfl
    exact ⟨_, _, hf.spare_exchanged ha hg hshim rfl rfl (by simp [shim, Node.bodies]) rfl, rfl⟩

omit hg in
/-- A transposition that is rebased turns the axes as the two did. -/
theorem rebased_leads :
    Link.Leads rank t.source ⟨Rewriting.rebased t n q, []⟩ target [Permutation.compose t.perm q] := by
  obtain ⟨-, -, xs, hspelled, hp⟩ := ha.link.transposes
  obtain ⟨hop, -, -⟩ := hf.link.transposes
  obtain ⟨hq, hlength⟩ := hf.link.ofRank q (List.mem_singleton_self _)
  have hxs : t.spelled = xs := by
    simp [PlacedTranspose.spelled, spelledPermutation, hspelled]
  have hset : (Rewriting.rebased t n q).numbers? "perm" = some (Permutation.arrange xs q) := by
    unfold Node.numbers? Node.attribute? Rewriting.rebased
    rw [Attributes.lookup_set, hxs]
  have hcomposed := Permutation.ofNumbers?_arrange hp hq (hlength.trans ha.rank_eq.symm)
  exact .transposing ⟨ha.named.1, hf.link.named.2⟩ hop rfl hf.link.outputs hset hcomposed
    (by rw [Permutation.length_compose, hlength])

/-- Of two transpositions in a row at most one is left. -/
theorem composeSuccessor_turns : (composeSuccessor s g t).Turns rank x y
    (Permutation.composition rank (ps ++ ([t.perm] ++ ([q] ++ vs)))) := by
  unfold composeSuccessor
  rw [successor?_eq ha hg hf]
  simp only
  split
  · rename_i hid
    obtain ⟨h, how, hbypass, hturns⟩ := cancel_turns ha hg hf hid
    exact ⟨_, _, by rw [hbypass]; rfl, hturns⟩
  · have hrebased := rebased_leads ha hf
    have hbodies : (Rewriting.rebased t n q).bodies = [] :=
      Node.bodies_set (ha.chained.bodyless n (List.mem_of_getElem? hf.node)) rfl rfl
    refine ⟨_, _, rfl, _, _, hf.spare_exchanged ha hg hrebased rfl rfl hbodies rfl, ?_⟩
    have hperms : Permutation.OfRank rank (ps ++ ([t.perm, q] ++ vs)) := ha.chained.chain.ofRank
    refine Permutation.composition_congr hperms hrebased.ofRank ?_
    rw [Permutation.composition_singleton hrebased.ofRank,
      Permutation.composition_pair ha.link.ofRank]

end Compose

end Followed

end Transposes

end TensorGraph
