import TensorGraph.Proofs.ChainRules

/-!
# Transpositions that sink

A transposition of a chain that is followed by an operator changes places with it. The constant that
the operator combines with the transposed value is rearranged where it stands, for nothing else reads
it, and it can be rearranged again. What is left is the chain with two of its links exchanged.

## Main results

* `Literal.Turnable.rearranged` -- a literal that has been rearranged can be rearranged again.
* `Relocation.apply_eq` -- an operator changes places with a transposition that nothing else needs.
* `Transposes.pushDown_turns` -- a transposition sinks below an operator.
-/

namespace TensorGraph

open TensorGraph.Graph

/-! ## Literals that are rearranged -/

theorem Literal.padToRank_self (value : Literal) :
    value.padToRank (.ofNat value.dims.length) = .ok value := by
  simp [padToRank, Number.ofNat]

/-- A literal that has been brought to a rank and rearranged can be rearranged again. -/
theorem Literal.Turnable.rearranged {rank : Nat} {value : Literal} (h : value.Turnable rank)
    {p : List Nat} (hp : Permutation.IsPermutation p) (hlength : p.length = rank) :
    ∃ padded turned, value.padToRank (.ofNat rank) = .ok padded ∧ padded.transpose p = .ok turned ∧
      turned.Turnable rank := by
  obtain ⟨padded, turned, hpadded, hturned⟩ := h.2 p hp hlength
  obtain rfl := eq_permute_of_transpose hturned
  have hrank : (padded.permute p).dims.length = rank := by
    rw [dims_permute, Permutation.length_arrange, hlength]
  refine ⟨padded, _, hpadded, hturned, Nat.le_of_eq hrank, fun q hq hlength' => ?_⟩
  have hcomposed := Permutation.compose_isPermutation hp hq (hlength'.trans hlength.symm)
  obtain ⟨padded', again, hpadded', hagain⟩ := h.2 _ hcomposed (by simp [hlength'])
  obtain rfl := Except.ok.inj (hpadded.symm.trans hpadded')
  have hself := (padded.permute p).padToRank_self
  rw [hrank] at hself
  have hsizes : Permutation.arrange (padded.permute p).sizes q =
      Permutation.arrange padded.sizes (Permutation.compose p q) := by
    rw [sizes_permute]
    exact Permutation.arrange_arrange _ _ fun axis haxis => by
      rw [hlength, ← hlength']
      exact hq.2 axis haxis
  refine ⟨_, (padded.permute p).permute q, hself, ?_⟩
  unfold transpose at hagain ⊢
  rw [hsizes]
  cases hcount : Shape.lengthOf (Shape.measured
      (Permutation.arrange padded.sizes (Permutation.compose p q))) with
  | error => simp [hcount, Except.map] at hagain
  | ok => rfl

/-! ## Changing places -/

namespace Relocation

private theorem exists_perm_pair {α : Type} {l : List α} {a b : α} (ha : a ∈ l) (hb : b ∈ l)
    (hne : a ≠ b) : ∃ rest, l.Perm (a :: b :: rest) := by
  obtain ⟨before, after, rfl⟩ := List.append_of_mem ha
  have hb : b ∈ before ++ after := by
    simp only [List.mem_append, List.mem_cons] at hb ⊢
    exact hb.imp_right fun h => h.resolve_left hne.symm
  obtain ⟨first, last, heq⟩ := List.append_of_mem hb
  refine ⟨first ++ last, List.perm_middle.trans (.cons _ ?_)⟩
  rw [heq]
  exact List.perm_middle

/-- Two entries of a list when the one is taken out and the other one is replaced twice. -/
private theorem perm_set_eraseIdx_set {α : Type} {l : List α} {i j k : Nat} {a b : α} (c d : α)
    (hi : l[i]? = some a) (hj : l[j]? = some b) (hk : placeAfterDropping i j = some k) :
    ∃ rest, l.Perm (a :: b :: rest) ∧ (((l.set j c).eraseIdx i).set k d).Perm (d :: rest) := by
  have hne : i ≠ j := fun e => by simp [placeAfterDropping_eq_none_iff.2 e] at hk
  obtain ⟨hjlt, rfl⟩ := List.getElem?_eq_some_iff.1 hj
  have hset : (l.set j c)[i]? = some a := (List.getElem?_set_ne hne.symm).trans hi
  have hleft : ((l.set j c).eraseIdx i)[k]? = some c :=
    (getElem?_placeAfterDropping hk).trans (List.getElem?_set_self hjlt)
  obtain ⟨hilt, hia⟩ := List.getElem?_eq_some_iff.1 hset
  obtain ⟨hklt, hkc⟩ := List.getElem?_eq_some_iff.1 hleft
  refine ⟨((l.set j c).eraseIdx i).eraseIdx k, ?_, List.set_perm_cons_eraseIdx hklt d⟩
  have hdropped : (c :: ((l.set j c).eraseIdx i).eraseIdx k).Perm ((l.set j c).eraseIdx i) := by
    have hperm := List.getElem_cons_eraseIdx_perm hklt
    rwa [hkc] at hperm
  have hboth : (a :: c :: ((l.set j c).eraseIdx i).eraseIdx k).Perm (l.set j c) := by
    have hperm := List.getElem_cons_eraseIdx_perm hilt
    rw [hia] at hperm
    exact (hdropped.cons a).trans hperm
  have hothers : (a :: ((l.set j c).eraseIdx i).eraseIdx k).Perm (l.eraseIdx j) :=
    ((List.Perm.swap a c _).trans (hboth.trans (List.set_perm_cons_eraseIdx hjlt c))).cons_inv
  exact (List.getElem_cons_eraseIdx_perm hjlt).symm.trans ((hothers.symm.cons _).trans (.swap _ _ _))

variable {s : Surroundings} {g arranged detached moved : Graph} {place consumerPlace later : Nat}
  {transpose consumer : Node} {perm : List Nat} {attributes : List (String × Attribute)} {p : Plan}
  {placed : List (String × String)} {transposed yielded : String}

/-- How an operator changes places with a transposition, when none is absorbed. -/
theorem apply_eq (hplaced : placeConstants s p.operands g [] = (arranged, placed))
    (hdetached : (arranged.putNode consumerPlace
      (rebuiltNode consumer attributes p.operands placed)).removeUnreferenced? place = some detached)
    (habsorbed : p.absorbed = []) (hlater : placeAfterDropping place consumerPlace = some later)
    (hmoved : moved = swapped detached later (rebuiltNode consumer attributes p.operands placed)
      (behindNode transpose perm (transpose.outputs.headD "") (consumer.outputs.headD ""))
      (transpose.outputs.headD "")) :
    apply s g place transpose consumerPlace consumer perm attributes p = .ok { moved with
      infos := infosBehind perm (transpose.outputs.headD "")
        (g.info? s.enclosing (consumer.outputs.headD "")) moved } := by
  subst hmoved
  unfold rebuiltNode at hdetached
  unfold apply
  simp only [hplaced, removeDisconnected, removeIfUnreferenced, Option.bind_some, hdetached, habsorbed,
    removeAbsorbed, hlater, replaceNode, placeOf, Except.map, orStop, bind, Except.bind, pure,
    Except.pure]
  cases hinfo : g.info? s.enclosing (consumer.outputs.headD "") with
  | some info => rfl
  | none => exact congrArg Except.ok (eraseInfo_eq _ _)

/-- What is known afterwards: of the transposed value at most its rank, of other values what was known
before. -/
theorem get?_infosBehind (yieldedInfo : Option ValueInfo) {infos : InfoTable}
    (hmoved : moved.infos = infos.erase transposed) :
    (∀ value, value ≠ transposed →
      (infosBehind perm transposed yieldedInfo moved).get? value = infos.get? value) ∧
    ∀ info dims, (infosBehind perm transposed yieldedInfo moved).get? transposed = some info →
      info.shape = some dims → dims.length = perm.length := by
  have hothers (value : String) (hvalue : value ≠ transposed) :
      moved.infos.get? value = infos.get? value := by
    rw [hmoved, InfoTable.get?_erase, if_neg hvalue]
  have hforgotten : moved.infos.get? transposed = none := by
    rw [hmoved, InfoTable.get?_erase, if_pos rfl]
  unfold infosBehind
  cases yieldedInfo with
  | none =>
      have hsame (value : String) :
          (moved.eraseInfo transposed).infos.get? value = moved.infos.get? value := by
        unfold eraseInfo
        split
        · rfl
        · change (moved.infos.erase transposed).get? value = _
          rw [InfoTable.get?_erase]
          split
          · rename_i hvalue
            rw [hvalue, hforgotten]
          · rfl
      refine ⟨fun value hvalue => (hsame value).trans (hothers value hvalue), fun info dims hinfo => ?_⟩
      simp only [hsame, hforgotten] at hinfo
      cases hinfo
  | some known =>
      refine ⟨fun value hvalue => ?_, fun info dims hinfo hdims => ?_⟩
      · simp only [InfoTable.get?_set, if_neg hvalue]
        exact hothers value hvalue
      · simp only [InfoTable.get?_set, if_true, Option.some.injEq] at hinfo
        subst hinfo
        obtain ⟨shape, -, hshape⟩ := Option.bind_eq_some_iff.1 hdims
        split at hshape
        · cases hshape
          simp
        · cases hshape

/-- A transposition can be removed once its only reader has been replaced by a node that does not read
its result. -/
theorem removeUnreferenced?_putNode (hnames : (g.nodes.map Node.name).Nodup)
    (htranspose : g.nodes[place]? = some transpose) (hconsumer : g.nodes[consumerPlace]? = some consumer)
    (hne : place ≠ consumerPlace) (houtput : transpose.outputs = [transposed])
    (hinside : g.isOutput transposed = false)
    (hreads : ∀ m ∈ g.nodes, transposed ∈ m.reads → m = consumer) {n : Node}
    (hn : transposed ∉ n.reads) :
    (g.putNode consumerPlace n).removeUnreferenced? place =
      some { (g.putNode consumerPlace n).dropNode place with infos := g.infos.erase transposed } := by
  have hlt := (List.getElem?_eq_some_iff.1 hconsumer).1
  refine removeUnreferenced?_of_unread ((List.getElem?_set_ne hne.symm).trans htranspose) houtput hinside
    fun m hm hread => ?_
  rcases (mem_set_iff hlt).1 hm with rfl | ⟨j, hj, hmj⟩
  · exact hn hread
  · obtain rfl := hreads m (List.mem_of_getElem? hmj) hread
    exact hj (place_eq_of_name_eq hnames hmj hconsumer rfl)

variable (perm) in
/-- An operator changes places with a transposition before it whose result only the operator reads. -/
theorem exists_apply (hplaced : placeConstants s p.operands g [] = (arranged, placed))
    (habsorbed : p.absorbed = []) (hnames : (arranged.nodes.map Node.name).Nodup)
    (htranspose : arranged.nodes[place]? = some transpose)
    (hconsumer : arranged.nodes[consumerPlace]? = some consumer) (hne : place ≠ consumerPlace)
    (houtput : transpose.outputs = [transposed]) (hyields : consumer.outputs = [yielded])
    (hinside : arranged.isOutput transposed = false)
    (hreads : ∀ m ∈ arranged.nodes, transposed ∈ m.reads → m = consumer)
    (hrebuilt : transposed ∉ (rebuiltNode consumer attributes p.operands placed).reads) :
    ∃ h rest, apply s g place transpose consumerPlace consumer perm attributes p = .ok h ∧
      h.inputs = arranged.inputs ∧ h.outputs = arranged.outputs ∧
      arranged.nodes.Perm (transpose :: consumer :: rest) ∧
      h.nodes.Perm (frontNode consumer attributes (p.operands.map (Operand.inputName placed))
        transposed :: behindNode transpose perm transposed yielded :: rest) ∧
      (∀ value, value ≠ transposed → h.infos.get? value = arranged.infos.get? value) ∧
      ∀ info dims, h.infos.get? transposed = some info → info.shape = some dims →
        dims.length = perm.length := by
  obtain ⟨later, hlater⟩ := Option.ne_none_iff_exists'.1
    fun h => hne (placeAfterDropping_eq_none_iff.1 h)
  obtain ⟨rest, hbefore, hafter⟩ := perm_set_eraseIdx_set
    (rebuiltNode consumer attributes p.operands placed)
    (frontNode consumer attributes (p.operands.map (Operand.inputName placed)) transposed)
    htranspose hconsumer hlater
  have hdetached :=
    removeUnreferenced?_putNode hnames htranspose hconsumer hne houtput hinside hreads hrebuilt
  refine ⟨_, rest, apply_eq hplaced hdetached habsorbed hlater rfl, rfl, rfl, hbefore, ?_, ?_⟩
  · simp only [houtput, hyields, List.headD_cons]
    exact (List.perm_append_singleton _ _).trans ((hafter.cons _).trans (.swap _ _ _))
  · simp only [houtput, hyields, List.headD_cons]
    exact get?_infosBehind _ rfl

end Relocation

/-! ## Chains in which a transposition sinks -/

namespace Transposes

open Relocation

/-- Whether the constants of a link have been replaced where they stand. -/
structure Rearranged (g : Graph) (l : Link) (constants : List Node) (arranged : Graph) : Prop where
  inputs : arranged.inputs = g.inputs
  outputs : arranged.outputs = g.outputs
  stay : ∀ (i : Nat) (n : Node), g.nodes[i]? = some n → n ∉ l.constants → arranged.nodes[i]? = some n
  nodes : ∃ others, g.nodes.Perm (l.constants ++ others) ∧ arranged.nodes.Perm (constants ++ others)
  names : constants.map Node.name = l.constants.map Node.name
  closed : ∀ c ∈ constants, c.inputs = [] ∧ c.bodies = []
  infos : ∀ value : String, (∀ c ∈ l.constants, value ∉ c.results) →
    arranged.infos.get? value = g.infos.get? value

namespace Rearranged

variable {g arranged : Graph} {l : Link} {constants : List Node} (hr : Rearranged g l constants arranged)

include hr

theorem names_nodup (hnames : (g.nodes.map Node.name).Nodup) : (arranged.nodes.map Node.name).Nodup := by
  obtain ⟨others, hold, hnew⟩ := hr.nodes
  rw [(hnew.map Node.name).nodup_iff, List.map_append, hr.names, ← List.map_append,
    ← (hold.map Node.name).nodup_iff]
  exact hnames

/-- Whatever reads a value was there before. -/
theorem mem_of_reads {m : Node} {value : String} (hm : m ∈ arranged.nodes) (hread : value ∈ m.reads) :
    m ∈ g.nodes := by
  obtain ⟨others, hold, hnew⟩ := hr.nodes
  rcases List.mem_append.1 (hnew.mem_iff.1 hm) with hm | hm
  · rw [Node.mem_reads, (hr.closed m hm).1, (hr.closed m hm).2] at hread
    simp at hread
  · exact hold.mem_iff.2 (List.mem_append_right _ hm)

/-- What stands beside two nodes, before and after. -/
theorem exists_beside {a b : Node} (ha : a ∈ g.nodes) (hb : b ∈ g.nodes) (hne : a ≠ b)
    (hapart : a ∉ l.constants ∧ b ∉ l.constants) :
    ∃ rest, g.nodes.Perm (a :: b :: (l.constants ++ rest)) ∧
      arranged.nodes.Perm (a :: b :: (constants ++ rest)) := by
  obtain ⟨others, hold, hnew⟩ := hr.nodes
  have hmem {n : Node} (hn : n ∈ g.nodes) (hnot : n ∉ l.constants) : n ∈ others :=
    (List.mem_append.1 (hold.mem_iff.1 hn)).resolve_left hnot
  obtain ⟨rest, hpair⟩ := exists_perm_pair (hmem ha hapart.1) (hmem hb hapart.2) hne
  have hfront (front : List Node) : (front ++ others).Perm (a :: b :: (front ++ rest)) :=
    (hpair.append_left front).trans (List.perm_middle.trans (List.perm_middle.cons _))
  exact ⟨rest, hold.trans (hfront _), hnew.trans (hfront _)⟩

end Rearranged

section Sunk

variable {visible : String → Prop} {s : Surroundings} {rank : Nat} {x y target : String} {g : Graph}
  {t : PlacedTranspose} {before rest : List Link} {l : Link} {place : Nat} {ps vs : List (List Nat)}
  (ha : Amid s rank x y g t before (l :: rest) ps ([] ++ vs)) (hg : Wellformed visible g)
  (hf : Followed rank y g t.output l rest place target [] vs)

include ha hf

/-- The transposition behind the operator turns the axes as it did before it. -/
theorem behind_leads : Link.Leads rank t.output ⟨behindNode t.node t.perm t.output target, []⟩ target
    [t.perm] := by
  obtain ⟨hop, -, xs, hspelled, hp⟩ := ha.link.transposes
  have hset : (behindNode t.node t.perm t.output target).numbers? "perm" = some xs := by
    unfold Node.numbers? Node.attribute? behindNode
    rw [Attributes.lookup_set]
    simp [spelledPermutation, hspelled]
  exact .transposing ⟨ha.named.2, hf.link.named.2⟩ hop rfl rfl hset hp ha.rank_eq

include hg

/-- The chain in which a transposition has changed places with the link that came next. -/
theorem sunk {h : Graph} {inputs : List String} {constants others : List Node}
    (hgone : g.nodes.Perm (t.node :: l.node :: (l.constants ++ others)))
    (hnodes : h.nodes.Perm (frontNode l.node l.node.attributes inputs t.output ::
      behindNode t.node t.perm t.output target :: (constants ++ others)))
    (hfront : Link.Leads rank t.source
      ⟨frontNode l.node l.node.attributes inputs t.output, constants⟩ t.output [])
    (hbodies : ∀ c ∈ constants, c.bodies = []) (hinputs : h.inputs = g.inputs)
    (houtputs : h.outputs = g.outputs)
    (hknown : ∀ value, value ≠ t.output → (∀ c ∈ l.constants, value ∉ c.results) →
      h.infos.get? value = g.infos.get? value)
    (hranked : h.RankedAs rank t.output) :
    h.Chained rank x y (before ++ ([⟨frontNode l.node l.node.attributes inputs t.output, constants⟩,
      ⟨behindNode t.node t.perm t.output target, []⟩] ++ rest)) (ps ++ ([t.perm] ++ ([] ++ vs))) := by
  have hpart : g.Chained rank x y (before ++ ([⟨t.node, []⟩, l] ++ rest))
      (ps ++ ([t.perm] ++ ([] ++ vs))) := ha.chained
  have hold : g.nodes.Perm (([⟨t.node, []⟩, l] : List Link).flatMap Link.nodes ++ others) := by
    simpa [Link.nodes] using hgone
  have hnew : h.nodes.Perm (([⟨frontNode l.node l.node.attributes inputs t.output, constants⟩,
      ⟨behindNode t.node t.perm t.output target, []⟩] : List Link).flatMap Link.nodes ++ others) := by
    simp only [Link.nodes, List.flatMap_cons, List.flatMap_nil, List.append_nil, List.cons_append,
      List.append_assoc, List.nil_append]
    exact hnodes.trans (List.perm_middle.symm.cons _)
  have hbehind := behind_leads ha hf
  have hfollowed : l.node ∈ g.nodes := List.mem_of_getElem? hf.node
  refine hpart.exchanged ha.before (.cons hfront (.single hbehind)) hf.after hold hnew hinputs houtputs
    (fun n hn => ?_) fun value hvalue => ?_
  · simp only [Link.nodes, List.flatMap_cons, List.flatMap_nil, List.append_nil, List.mem_append,
      List.mem_cons, List.not_mem_nil, or_false] at hn
    rcases hn with (rfl | hn) | rfl
    · exact ha.chained.bodyless l.node hfollowed
    · exact hbodies n hn
    · exact Node.bodies_set (ha.chained.bodyless t.node ha.stands.mem) rfl rfl
  · -- only the value between the two has become another one
    by_cases heq : value = t.output
    · exact heq ▸ hranked
    have hplace : value = x ∨ ∃ k ∈ before ++ ([⟨t.node, []⟩, l] ++ rest), value ∈ k.node.outputs := by
      refine Chained.mem_outputs_of_exchanged ?_ hvalue
      simp [frontNode, behindNode, ha.stands.outputs, hf.link.outputs]
    have hconstants : ∀ c ∈ l.constants, value ∉ c.results := by
      intro c hc hmem
      obtain ⟨hx, hlinks⟩ := ha.chained.constant_apart hg.toScoped (by simp) hc hmem
      rcases hplace with e | ⟨k, hk, hout⟩
      · exact hx e
      · exact hlinks k hk hout
    have hknown' := hpart.ranked value hplace
    intro info hinfo dims hdims
    rw [hknown value heq hconstants] at hinfo
    exact hknown' info hinfo dims hdims

/-- How a transposition sinks. -/
private theorem pushDown_eq {policy : ConstantPolicy} {p : Plan} {h : Graph}
    (hpass : passage? l.node t.spelled = some (policy, l.node.attributes))
    (hplan : plan s g t.source t.output t.perm policy l.node.inputs = .ok (some p))
    (happly : apply s g t.place t.node place l.node t.perm l.node.attributes p = .ok h) :
    pushDown s g t = .ok (some (h, "push through " ++ l.node.name)) := by
  have hcontains : l.node.inputs.contains t.output = true := by
    simpa using hf.link.source_mem_inputs
  unfold pushDown
  simp only [ha.not_isOutput hg, Bool.false_eq_true, if_false, hf.readers_output ha hg, hf.node,
    hf.link.outputs, List.length_singleton, ne_eq, not_true_eq_false, decide_false, hcontains,
    Bool.not_true, Bool.or_self, hpass, hplan, orStop, happly, bind, Except.bind, pure, Except.pure]

/-- A transposition sinks below an operator whose operands can be had in the layout before it. -/
theorem sinks {policy : ConstantPolicy} {p : Plan} {arranged : Graph} {placed : List (String × String)}
    {constants : List Node} (hpass : passage? l.node t.spelled = some (policy, l.node.attributes))
    (hplan : plan s g t.source t.output t.perm policy l.node.inputs = .ok (some p))
    (hplaced : placeConstants s p.operands g [] = (arranged, placed)) (habsorbed : p.absorbed = [])
    (hr : Rearranged g l constants arranged)
    (hoperands : t.output ∉ p.operands.map (Operand.inputName placed))
    (hfront : Link.Leads rank t.source ⟨frontNode l.node l.node.attributes
      (p.operands.map (Operand.inputName placed)) t.output, constants⟩ t.output []) :
    (pushDown s g t).Turns rank x y
      (Permutation.composition rank (ps ++ ([t.perm] ++ ([] ++ vs)))) := by
  have hfollowed : l.node ∈ g.nodes := List.mem_of_getElem? hf.node
  have hapart : t.node ∉ l.constants ∧ l.node ∉ l.constants :=
    ⟨fun hmem => by simpa [ha.stands.op] using hf.link.op_of_mem_constants hmem,
      fun hmem => hf.link.op_ne_constant (hf.link.op_of_mem_constants hmem)⟩
  have hreads : ∀ m ∈ arranged.nodes, t.output ∈ m.reads → m = l.node := fun m hm hread =>
    ha.eq_of_reads hg (hr.mem_of_reads hm hread) hread
  have hrebuilt : t.output ∉ (rebuiltNode l.node l.node.attributes p.operands placed).reads := by
    have hbodies : (rebuiltNode l.node l.node.attributes p.operands placed).bodies = [] :=
      ha.chained.bodyless l.node hfollowed
    rw [Node.mem_reads, hbodies]
    simpa [rebuiltNode] using fun value hvalue e => absurd (List.mem_map.2 ⟨value, hvalue, e⟩) hoperands
  obtain ⟨h, left, happly, hinputs, houtputs, hbefore, hafter, hinfos, hrank⟩ :=
    exists_apply t.perm hplaced habsorbed (hr.names_nodup hg.names) (hr.stay _ _ ha.stands.node hapart.1)
      (hr.stay _ _ hf.node hapart.2) (hf.place_ne ha hg) ha.stands.outputs hf.link.outputs
      (by rw [isOutput, hr.outputs]; exact ha.not_isOutput hg) hreads hrebuilt
  obtain ⟨others, hold, hnew⟩ :=
    hr.exists_beside ha.stands.mem hfollowed (hf.ne_node ha hg).symm hapart
  have hleft : left.Perm (constants ++ others) := (hbefore.symm.trans hnew).cons_inv.cons_inv
  refine ⟨h, _, pushDown_eq ha hg hf hpass hplan happly, _, _, sunk ha hg hf hold
    (hafter.trans ((hleft.cons _).cons _)) hfront
    (fun c hc => (hr.closed c hc).2) (hinputs.trans hr.inputs) (houtputs.trans hr.outputs)
    (fun value hvalue hconstants => (hinfos value hvalue).trans (hr.infos value hconstants))
    (fun info hinfo dims hdims => (hrank info dims hinfo hdims).trans ha.rank_eq), ?_⟩
  exact Permutation.composition_congr ha.chained.chain.ofRank
    (Permutation.OfRank.append_iff.2 ⟨ha.link.ofRank, by simp [Permutation.OfRank]⟩) rfl

end Sunk

section Sinks

variable {visible : String → Prop} {s : Surroundings} {rank : Nat} {x y target : String} {g : Graph}
  {t : PlacedTranspose} {before rest : List Link} {n : Node} {place : Nat} {ps vs : List (List Nat)}

/-- A transposition sinks below an operator on single elements. -/
theorem sinks_elementwise (ha : Amid s rank x y g t before (⟨n, []⟩ :: rest) ps ([] ++ vs))
    (hg : Wellformed visible g) (hf : Followed rank y g t.output ⟨n, []⟩ rest place target [] vs)
    (hcapability : Capability.ofOp n.op = .unary) (hinputs : n.inputs = [t.output]) :
    (pushDown s g t).Turns rank x y
      (Permutation.composition rank (ps ++ ([t.perm] ++ ([] ++ vs)))) := by
  have hplan : plan s g t.source t.output t.perm .none n.inputs =
      .ok (some ⟨[.value t.source], []⟩) := by
    simp [hinputs, plan, operand?, bind, Except.bind, pure, Except.pure]
  have hr : Rearranged g ⟨n, []⟩ [] g :=
    { inputs := rfl, outputs := rfl, stay := fun _ _ hn _ => hn, nodes := ⟨_, .refl _, .refl _⟩
      names := rfl, closed := by simp, infos := fun _ _ => rfl }
  refine sinks ha hg hf (by simp [passage?, hcapability, hinputs]) hplan rfl rfl hr
    (by simpa [Operand.inputName] using ha.output_ne_source hg) ?_
  exact .elementwise ha.named hcapability rfl rfl

section Combining

variable {c : Node} {operand : String} {value : Literal}

/-- What a constant yields. -/
private theorem operand_mem (hyields : c.outputs = [operand]) (hpresent : operand ≠ "") :
    operand ∈ c.results :=
  Node.mem_results.2 ⟨by simp [hyields], hpresent⟩

variable (ha : Amid s rank x y g t before (⟨n, [c]⟩ :: rest) ps ([] ++ vs)) (hg : Wellformed visible g)
  (hf : Followed rank y g t.output ⟨n, [c]⟩ rest place target [] vs)
  (hliteral : c.constant? = some value) (hyields : c.outputs = [operand]) (hpresent : operand ≠ "")

include ha hg hyields hpresent

/-- What a constant of a chain yields is no other value of the chain. -/
theorem operand_apart : operand ≠ t.output ∧ operand ≠ t.source ∧ g.isOutput operand = false := by
  obtain ⟨hx, hlinks⟩ := ha.chained.constant_apart hg.toScoped
    (List.mem_append_right before (List.mem_cons_of_mem _ List.mem_cons_self))
    (List.mem_singleton_self c) (operand_mem hyields hpresent)
  refine ⟨?_, ?_, ?_⟩
  · rintro rfl
    exact hlinks ⟨t.node, []⟩ (by simp) (by simp [ha.stands.outputs])
  · rintro rfl
    rcases ha.before.target_mem_outputs with e | ⟨l, hl, hmem⟩
    · exact hx e
    · exact hlinks l (List.mem_append_left _ hl) hmem
  · rw [Bool.eq_false_iff, ne_eq, ha.eq_of_isOutput]
    rintro rfl
    rcases ha.chained.chain.target_mem_outputs with e | ⟨l, hl, hmem⟩
    · exact hx e
    · exact hlinks l hl hmem

include hliteral

/-- The constant of a chain can be had in the layout before the transposition. -/
theorem constant_operand (hturnable : value.Turnable rank) :
    ∃ k permuted, g.nodes[k]? = some c ∧ permuted.Turnable rank ∧
      operand? s g t.source t.output t.perm .broadcast operand =
        .ok (some (.constant operand k c permuted, [])) := by
  have hmem : c ∈ g.nodes := ha.chained.mem_nodes.2
    ⟨⟨n, [c]⟩, List.mem_append_right _ (by simp), by simp [Link.nodes]⟩
  obtain ⟨k, hk⟩ := List.getElem?_of_mem hmem
  have hplace := hg.orderly.producerPlace?_eq hk (operand_mem hyields hpresent)
  have hproducer : g.producer? operand = some c := by
    rw [producer?_eq, hplace, Option.bind_some, hk]
  have hinverse := Permutation.invert_isPermutation (ha.link.ofRank t.perm (List.mem_singleton_self _)).1
  have hlength : (Permutation.invert t.perm).length = rank := by
    rw [Permutation.length_invert, ha.rank_eq]
  obtain ⟨padded, permuted, hpadded, hpermuted, hagain⟩ := hturnable.rearranged hinverse hlength
  have hfits : ConstantPolicy.broadcast.fits value.dims.length t.perm = true := by
    simpa [ConstantPolicy.fits, ha.rank_eq] using hturnable.1
  have hnone : equallyTransposed? s g t.perm operand = none := by
    simp [equallyTransposed?, hproducer, resolvePermutation, (constant?_eq_some hliteral).1]
  refine ⟨k, permuted, hk, hagain, ?_⟩
  rw [← ha.rank_eq] at hpadded
  simp only [operand?, if_neg (operand_apart ha hg hyields hpresent).1, if_neg hpresent, hnone,
    rearrangedConstant?, hplace, hproducer, hliteral, hfits, if_true, hpadded, hpermuted, bind,
    Except.bind, pure, Except.pure, Except.map, Option.map_some]

omit hliteral in
include hf in
/-- Nothing but the operator reads the constant. -/
theorem readers_operand (hmem : operand ∈ n.inputs) : g.readers operand = [place] := by
  refine (readers_eq_singleton_iff hg.names hf.node).2 fun m hm => ⟨fun hread => ?_, ?_⟩
  · exact ha.chained_snoc.reads_constant hg.toScoped ha.snoc hf.link hf.after
      (List.mem_singleton_self c) (operand_mem hyields hpresent) hm hread
  · rintro rfl
    exact Node.mem_reads.2 (.inl ⟨hmem, hpresent⟩)

omit hg in
/-- The constant is rearranged where it stands. -/
theorem rearranged {k : Nat} (hk : g.nodes[k]? = some c) (permuted : Literal) :
    Rearranged g ⟨n, [c]⟩ [refilled c permuted]
      ((g.putNode k (refilled c permuted)).setInfo (literalInfo operand permuted)) where
  inputs := rfl
  outputs := rfl
  stay i m hm hnot := by
    refine (List.getElem?_set_ne ?_).trans hm
    rintro rfl
    exact hnot (by simp [Option.some.inj (hm.symm.trans hk)])
  nodes := ⟨_, (perm_eraseIdx hk).symm,
    List.set_perm_cons_eraseIdx (List.getElem?_eq_some_iff.1 hk).1 _⟩
  names := rfl
  closed m hm := by
    obtain rfl := List.mem_singleton.1 hm
    exact ⟨(constant?_eq_some hliteral).2.1,
      Node.bodies_set (ha.chained.bodyless c (List.mem_of_getElem? hk)) rfl rfl⟩
  infos other hother := by
    refine (InfoTable.get?_set _ _ _).trans (if_neg ?_)
    rintro rfl
    exact hother c (List.mem_singleton_self c) (operand_mem hyields hpresent)

include hf in
/-- A transposition sinks below an operator that combines a value with a constant. -/
theorem sinks_combining (hcapability : Capability.ofOp n.op = .broadcast)
    (hinputs : n.inputs = [t.output, operand] ∨ n.inputs = [operand, t.output])
    (hturnable : value.Turnable rank) : (pushDown s g t).Turns rank x y
      (Permutation.composition rank (ps ++ ([t.perm] ++ ([] ++ vs)))) := by
  obtain ⟨hother, -, hinside⟩ := operand_apart ha hg hyields hpresent
  obtain ⟨k, permuted, hk, hagain, hoperand⟩ :=
    constant_operand ha hg hliteral hyields hpresent hturnable
  have hmoved : operand? s g t.source t.output t.perm .broadcast t.output =
      .ok (some (.value t.source, [])) := by
    simp [operand?]
  have hmem : operand ∈ n.inputs := by
    rcases hinputs with hin | hin <;> simp [hin]
  have hreaders := readers_operand ha hg hf hyields hpresent hmem
  have hr := rearranged ha hliteral hyields hpresent hk permuted
  have hrefilled : (refilled c permuted).constant? = some permuted := by
    obtain ⟨hop, hnone, -, -⟩ := constant?_eq_some hliteral
    unfold Node.constant? Node.literal? Node.attribute? refilled
    simp only [hop, hnone, hyields, Attributes.lookup_set]
    rfl
  have hpass : passage? n t.spelled = some (.broadcast, n.attributes) := by
    simp [passage?, hcapability]
  have hsource := ha.output_ne_source hg
  have hplaced {others : List Relocation.Operand}
      (hvalues : ∀ h placed, placeConstants s others h placed = (h, placed)) :
      placeConstants s (.constant operand k c permuted :: others) g [] =
        ((g.putNode k (refilled c permuted)).setInfo (literalInfo operand permuted),
          [(operand, operand)]) := by
    simp [placeConstants, hreaders, hinside, hvalues, refilled, literalInfo]
  rcases hinputs with hin | hin
  · have hplan : plan s g t.source t.output t.perm .broadcast n.inputs =
        .ok (some ⟨[.value t.source, .constant operand k c permuted], []⟩) := by
      simp [hin, plan, hmoved, hoperand, bind, Except.bind, pure, Except.pure]
    refine sinks ha hg hf hpass hplan (hplaced fun _ _ => rfl) rfl hr
      (by simp [Operand.inputName, hsource, hother.symm]) ?_
    exact .combining ha.named hcapability (.inl (by simp [frontNode, Operand.inputName])) rfl hrefilled
      hyields hpresent hagain
  · have hplan : plan s g t.source t.output t.perm .broadcast n.inputs =
        .ok (some ⟨[.constant operand k c permuted, .value t.source], []⟩) := by
      simp [hin, plan, hmoved, hoperand, bind, Except.bind, pure, Except.pure]
    refine sinks ha hg hf hpass hplan (hplaced fun _ _ => rfl) rfl hr
      (by simp [Operand.inputName, hsource, hother.symm]) ?_
    exact .combining ha.named hcapability (.inr (by simp [frontNode, Operand.inputName])) rfl hrefilled
      hyields hpresent hagain

end Combining

/-- A transposition sinks below the operator that comes next in a chain. -/
theorem pushDown_turns {l : Link} (ha : Amid s rank x y g t before (l :: rest) ps ([] ++ vs))
    (hg : Wellformed visible g) (hf : Followed rank y g t.output l rest place target [] vs) :
    (pushDown s g t).Turns rank x y
      (Permutation.composition rank (ps ++ ([t.perm] ++ ([] ++ vs)))) := by
  obtain ⟨n, constants⟩ := l
  have hlink := hf.link
  cases hlink with
  | elementwise _ capability inputs => exact sinks_elementwise ha hg hf capability inputs
  | combining _ capability inputs _ literal yields present turnable =>
      exact sinks_combining ha hg hf literal yields present capability inputs turnable

end Sinks

end Transposes

end TensorGraph
