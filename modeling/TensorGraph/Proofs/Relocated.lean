import TensorGraph.Proofs.Rearranging

/-!
# Relocated transpositions in place

Of a graph in which a transposition has moved behind an operator almost everything is as it was:
constants may have other entries or copies, transpositions may be gone, and what is new is the
operator under the name of the transposed value and the transposition behind it.

## Main results

* `Relocation.Moved.relocated` -- where the nodes of a relocation come from.
* `Relocation.Moved.tidyTree` -- a tree stays tidy when a transposition moves in its root.
-/

namespace TensorGraph.Relocation

open TensorGraph.Graph Transposes

/-- The operator under the name of the transposed value. -/
def frontNode (consumer : Node) (attributes : List (String × Attribute)) (inputs : List String)
    (transposed : String) : Node :=
  { consumer with inputs, attributes, outputs := [transposed], bookmarks := [] }

theorem bodies_frontNode {s : Surroundings} {g : Graph} {t : PlacedTranspose} {place : Nat}
    {consumer : Node} {policy : ConstantPolicy} {attributes : List (String × Attribute)} {p : Plan}
    (hr : Relocatable s g t place consumer policy attributes p) (inputs : List String)
    (transposed : String) :
    (frontNode consumer attributes inputs transposed).bodies ⊆ consumer.bodies :=
  fun _ hbody => Node.mem_bodies.2 ((passage?_eq_some hr.passage).2.2 _ _ (Node.mem_bodies.1 hbody))

theorem bodies_behindNode (n : Node) (perm : List Nat) (transposed yielded : String) :
    (behindNode n perm transposed yielded).bodies ⊆ n.bodies :=
  fun _ hbody => Node.mem_bodies.2 (Attributes.mem_of_mem_set rfl (Node.mem_bodies.1 hbody))

/-- What an operator and the transposition before it have become, and what else there is. -/
structure Relocated (s : Surroundings) (g : Graph) (t : PlacedTranspose) (consumer : Node)
    (attributes : List (String × Attribute)) (inputs : List String) (h : Graph) : Prop where
  sameInputs : h.inputs = g.inputs
  sameOutputs : h.outputs = g.outputs
  fed : ∀ value ∈ inputs, Fed s g consumer value
  defined : ∀ value ∈ inputs, value ≠ "" → value ∉ g.names → value ∈ h.results
  front : frontNode consumer attributes inputs t.output ∈ h.nodes
  behind : behindNode t.node t.perm t.output (consumer.outputs.headD "") ∈ h.nodes
  origin : ∀ m ∈ h.nodes,
    (∃ n ∈ g.nodes, n ≠ t.node ∧ n ≠ consumer ∧ n.Like m) ∨ Copied s g m ∨
      m = frontNode consumer attributes inputs t.output ∨
      m = behindNode t.node t.perm t.output (consumer.outputs.headD "")

/-- What is known of the values does not matter to where nodes come from. -/
theorem Relocated.withInfos {s : Surroundings} {g h : Graph} {t : PlacedTranspose} {consumer : Node}
    {attributes : List (String × Attribute)} {inputs : List String} {infos : InfoTable}
    (hr : Relocated s g t consumer attributes inputs h) :
    Relocated s g t consumer attributes inputs { h with infos } :=
  ⟨hr.sameInputs, hr.sameOutputs, hr.fed, hr.defined, hr.front, hr.behind, hr.origin⟩

theorem Relocated.keepsBodies {s : Surroundings} {g h : Graph}
    {t : PlacedTranspose} {place : Nat} {consumer : Node} {policy : ConstantPolicy}
    {attributes : List (String × Attribute)} {p : Plan} {inputs : List String}
    (hrel : Relocated s g t consumer attributes inputs h)
    (hr : Relocatable s g t place consumer policy attributes p)
    {allowed : String → String → Prop} : KeepsBodies allowed g h := by
  intro m hm body hbody
  rcases hrel.origin m hm with ⟨n, hn, -, -, hlike⟩ | ⟨target, literal, hlike, -⟩ | rfl | rfl
  · exact ⟨n, hn, hlike.name.symm, body, (hlike.bodies body).1 hbody, rfl, .refl⟩
  · have hnone := (hlike.bodies body).1 hbody
    cases hnone
  · exact ⟨consumer, hr.mem, rfl, body, bodies_frontNode hr _ _ hbody, rfl, .refl⟩
  · exact ⟨t.node, hr.stands.mem, rfl, body, bodies_behindNode _ _ _ _ hbody, rfl, .refl⟩

namespace Absorbing

variable {names : List String} {g h : Graph} {place later : Option Nat}

theorem sublist (ha : Absorbing names g place h later) :
    h.nodes.Sublist g.nodes ∧ h.inputs = g.inputs ∧ h.outputs = g.outputs := by
  induction ha with
  | done => exact ⟨List.Sublist.refl _, rfl, rfl⟩
  | keep _ ih => exact ih
  | drop _ hremoved _ ih =>
      obtain ⟨_, -, -, rfl⟩ := removeUnreferenced?_eq_some hremoved
      exact ⟨ih.1.trans (List.eraseIdx_sublist _ _), ih.2⟩

/-- A node stays unless its name is one of those that may go. -/
theorem mem_nodes (ha : Absorbing names g place h later) {n : Node} (hn : n ∈ g.nodes)
    (hname : n.name ∉ names) : n ∈ h.nodes := by
  induction ha with
  | done => exact hn
  | keep _ ih => exact ih hn fun hmem => hname (List.mem_cons_of_mem _ hmem)
  | drop hfound hremoved _ ih =>
      obtain ⟨m, hm, hmname⟩ := place?_eq_some hfound
      obtain ⟨_, -, -, rfl⟩ := removeUnreferenced?_eq_some hremoved
      have hother := elsewhere_of_ne hm hn fun e => hname (by simp [← e, hmname])
      exact ih (List.mem_eraseIdx_iff_getElem?.2 hother) fun hmem =>
        hname (List.mem_cons_of_mem _ hmem)

end Absorbing

/-- Before the operator takes over the name of the transposed value the transposition is gone, and
the rebuilt operator is there. -/
structure Cleared (taken : String → Prop) (s : Surroundings) (g : Graph) (t : PlacedTranspose)
    (consumer : Node) (attributes : List (String × Attribute)) (p : Plan)
    (placed : List (String × String)) (rebuiltPlace : Nat) (cleaned : Graph) : Prop where
  tree : TidyTree taken cleaned
  sameInputs : cleaned.inputs = g.inputs
  sameOutputs : cleaned.outputs = g.outputs
  rebuilt : cleaned.nodes[rebuiltPlace]? = some (rebuiltNode consumer attributes p.operands placed)
  once : ∀ value ∈ t.node.reads, cleaned.Once value
  apart : ∀ m ∈ cleaned.nodes, m.name ≠ t.node.name
  origin : ∀ m ∈ cleaned.nodes, (∃ n ∈ g.nodes, n ≠ t.node ∧ n ≠ consumer ∧ n.Like m) ∨
    Copied s g m ∨ m = rebuiltNode consumer attributes p.operands placed

variable {taken : String → Prop} {s : Surroundings} {g arranged detached cleaned moved : Graph}
  {t : PlacedTranspose} {place : Nat} {consumer : Node} {policy : ConstantPolicy}
  {attributes : List (String × Attribute)} {p : Plan} {placed : List (String × String)}
  {rebuiltPlace : Nat}

namespace Moved

/-- The rebuilt operator stands in the place of the operator. -/
theorem replaced (hm : Moved s g t.place t.node place consumer t.perm attributes p arranged detached
      cleaned placed rebuiltPlace moved)
    (hr : Relocatable s g t place consumer policy attributes p) (hg : TidyTree taken g)
    (hcovers : ∀ value, taken value → value ∈ s.reserved) :
    Replaced arranged place consumer (rebuiltNode consumer attributes p.operands placed)
      (arranged.putNode place (rebuiltNode consumer attributes p.operands placed)) := by
  obtain ⟨htidy, henriched⟩ := hm.arrange.tidyTree hg hcovers
  obtain ⟨-, hkeyed, hbodies⟩ := passage?_eq_some hr.passage
  have hconsumer := henriched.getElem? hr.node hr.op.2.1
  have hmem := List.mem_of_getElem? hconsumer
  have hsub : ∀ body ∈ (rebuiltNode consumer attributes p.operands placed).bodies,
      body ∈ consumer.bodies := fun body hbody =>
    Node.mem_bodies.2 (hbodies _ _ (Node.mem_bodies.1 hbody))
  refine ⟨hconsumer, rfl, rfl, fun value hspare => ⟨rfl, fun _ => rfl, fun hin => ?_, fun hread => ?_,
    Iff.rfl⟩, hkeyed, hsub, fun value hvalue => (hr.fed hg hcovers hm.arrange hvalue).2, rfl, rfl, rfl⟩
  · obtain ⟨k, -, -, -, hout, -⟩ := hspare.gather
    refine absurd (hspare.op_of_reads htidy.here.names hmem ?_) hr.op.2.2
    exact Node.mem_reads.2 (.inl ⟨hin, Node.ne_empty_of_mem_results hout⟩)
  · rcases Node.mem_reads.1 hread with ⟨hin, hne⟩ | ⟨body, hbody, hout⟩
    · exfalso
      -- a transposition, the operator, or nobody at all reads what the operator reads now
      have hreader : ∀ n ∈ g.nodes, value ∈ n.inputs → n.op ≠ "Constant" → n.op ≠ "Gather" →
          False := by
        intro n hn hvn hop hgather
        obtain ⟨i, hi⟩ := List.getElem?_of_mem hn
        have hstays := List.mem_of_getElem? (henriched.getElem? hi hop)
        exact hgather (hspare.op_of_reads htidy.here.names hstays (Node.mem_reads.2 (.inl ⟨hvn, hne⟩)))
      cases (hr.fed hg hcovers hm.arrange hin).1 with
      | @before n _ input mem op inputs read result =>
          exact hreader n mem (by simp [inputs]) (by rw [op]; decide) (by rw [op]; decide)
      | @constant n _ name mem op read result target =>
          rcases target with rfl | ⟨-, hnew⟩
          · exact hreader consumer hr.mem read hr.op.2.1 hr.op.2.2
          · obtain ⟨k, hk, hop, hvk, -⟩ := hspare.gather
            obtain ⟨i, hi⟩ := List.getElem?_of_mem hk
            rcases henriched.origin i k hi with ⟨n, hn, hlike⟩ | ⟨target, literal, hlike, -⟩
            · exact hnew (mem_names_of_mem_node (List.mem_of_getElem? hn)
                (.inr (.inl (hlike.inputs ▸ hvk))))
            · have hconstant : "Constant" = "Gather" := hlike.op.symm.trans hop
              exact absurd hconstant (by decide)
    · exact Node.mem_reads.2 (.inr ⟨body, hsub body hbody, hout⟩)

/-- The transposition still stands once the operator has been rebuilt. -/
private theorem transposition_at (hm : Moved s g t.place t.node place consumer t.perm attributes p
      arranged detached cleaned placed rebuiltPlace moved)
    (hr : Relocatable s g t place consumer policy attributes p) (hg : TidyTree taken g)
    (hcovers : ∀ value, taken value → value ∈ s.reserved) :
    (arranged.putNode place (rebuiltNode consumer attributes p.operands placed)).nodes[t.place]? =
      some t.node :=
  (List.getElem?_set_ne fun e => hr.place_ne e.symm).trans
    ((hm.arrange.tidyTree hg hcovers).2.getElem? hr.stands.node (by rw [hr.stands.op]; decide))

/-- What is left once the transposition has been removed. -/
private theorem detached_eq (hm : Moved s g t.place t.node place consumer t.perm attributes p
      arranged detached cleaned placed rebuiltPlace moved) :
    detached.nodes = (arranged.putNode place
        (rebuiltNode consumer attributes p.operands placed)).nodes.eraseIdx t.place ∧
      detached.inputs = arranged.inputs ∧ detached.outputs = arranged.outputs := by
  obtain ⟨_, -, -, rfl⟩ := removeUnreferenced?_eq_some hm.detach
  exact ⟨rfl, rfl, rfl⟩

/-- The rebuilt operator is where the operator is put back. -/
theorem rebuilt_at (hm : Moved s g t.place t.node place consumer t.perm attributes p arranged
      detached cleaned placed rebuiltPlace moved)
    (hr : Relocatable s g t place consumer policy attributes p) (hg : TidyTree taken g)
    (hcovers : ∀ value, taken value → value ∈ s.reserved) :
    cleaned.nodes[rebuiltPlace]? = some (rebuiltNode consumer attributes p.operands placed) := by
  -- the operator is no transposition, so it is not among the nodes that may go
  have hplace := (List.getElem?_eq_some_iff.1 (hm.replaced hr hg hcovers).node).1
  obtain ⟨later, hlater⟩ := Option.ne_none_iff_exists'.1
    fun h => hr.place_ne (placeAfterDropping_eq_none_iff.1 h)
  refine (hm.absorb.node (by simp [hlater]) ?_ fun hmem => ?_).2
  · rw [hlater, Option.bind_some, hm.detached_eq.1, getElem?_placeAfterDropping hlater]
    exact List.getElem?_set_self hplace
  · obtain ⟨n, hn, hname, hop⟩ := hr.absorbed _ hmem
    exact hr.op.1 (hg.here.eq_of_name_eq hn hr.mem hname ▸ hop)

/-- Beside the transposition and the operator a node stays unless it is absorbed. -/
private theorem mem_cleaned (hm : Moved s g t.place t.node place consumer t.perm attributes p
      arranged detached cleaned placed rebuiltPlace moved)
    (hr : Relocatable s g t place consumer policy attributes p) (hg : TidyTree taken g)
    (hcovers : ∀ value, taken value → value ∈ s.reserved) {m : Node} (hmem : m ∈ arranged.nodes)
    (htransposing : m ≠ t.node) (hconsuming : m ≠ consumer) (hname : m.name ∉ p.absorbed) :
    m ∈ cleaned.nodes := by
  refine hm.absorb.mem_nodes ?_ hname
  have htranspose :=
    (hm.arrange.tidyTree hg hcovers).2.getElem? hr.stands.node (by rw [hr.stands.op]; decide)
  obtain ⟨i, hi⟩ := List.getElem?_of_mem hmem
  rw [hm.detached_eq.1, List.mem_eraseIdx_iff_getElem?]
  refine ⟨i, ?_, (List.getElem?_set_ne ?_).trans hi⟩
  · rintro rfl
    exact htransposing (Option.some.inj (hi.symm.trans htranspose))
  · rintro rfl
    exact hconsuming (Option.some.inj (hi.symm.trans (hm.replaced hr hg hcovers).node))

private theorem origin_of_cleaned (hm : Moved s g t.place t.node place consumer t.perm attributes p
      arranged detached cleaned placed rebuiltPlace moved)
    (hr : Relocatable s g t place consumer policy attributes p) (hg : TidyTree taken g)
    (hcovers : ∀ value, taken value → value ∈ s.reserved) {j : Nat} (hj : j ≠ t.place) {m : Node}
    (hmj : (arranged.putNode place
      (rebuiltNode consumer attributes p.operands placed)).nodes[j]? = some m) :
    (∃ n ∈ g.nodes, n ≠ t.node ∧ n ≠ consumer ∧ n.Like m) ∨ Copied s g m ∨
      m = rebuiltNode consumer attributes p.operands placed := by
  by_cases hjplace : j = place
  · subst hjplace
    have hplace := (List.getElem?_eq_some_iff.1 (hm.replaced hr hg hcovers).node).1
    exact .inr (.inr (Option.some.inj (hmj.symm.trans (List.getElem?_set_self hplace))))
  · have hmj := (List.getElem?_set_ne fun e => hjplace e.symm).symm.trans hmj
    rcases (hm.arrange.tidyTree hg hcovers).2.origin j m hmj with ⟨n, hn, hlike⟩ | hcopied
    · refine .inl ⟨n, List.mem_of_getElem? hn, ?_, ?_, hlike⟩
      · rintro rfl
        exact hj (hg.here.place_eq hn hr.stands.node rfl)
      · rintro rfl
        exact hjplace (hg.here.place_eq hn hr.node rfl)
    · exact .inr (.inl hcopied)

private theorem cleared (hm : Moved s g t.place t.node place consumer t.perm attributes p arranged
      detached cleaned placed rebuiltPlace moved)
    (hr : Relocatable s g t place consumer policy attributes p) (hg : TidyTree taken g)
    (hcovers : ∀ value, taken value → value ∈ s.reserved) :
    Cleared taken s g t consumer attributes p placed rebuiltPlace cleaned := by
  obtain ⟨hgarranged, henriched⟩ := hm.arrange.tidyTree hg hcovers
  have hput := (hm.replaced hr hg hcovers).tidyTree hgarranged
  have hplace := hm.transposition_at hr hg hcovers
  obtain ⟨hnodes, hdetachedInputs, hdetachedOutputs⟩ := hm.detached_eq
  obtain ⟨hsub, hinputs, houtputs⟩ := hm.absorb.sublist
  have hleft : ∀ m ∈ cleaned.nodes, ∃ j, j ≠ t.place ∧ (arranged.putNode place
      (rebuiltNode consumer attributes p.operands placed)).nodes[j]? = some m := fun m hmem =>
    List.mem_eraseIdx_iff_getElem?.1 (hnodes ▸ hsub.mem hmem)
  exact
    { tree := (hput.of_subperm (hnodes ▸ (List.eraseIdx_sublist _ _).subperm) hdetachedInputs
        hdetachedOutputs).of_subperm hsub.subperm hinputs houtputs
      sameInputs := (hinputs.trans hdetachedInputs).trans henriched.inputs
      sameOutputs := (houtputs.trans hdetachedOutputs).trans henriched.outputs
      rebuilt := hm.rebuilt_at hr hg hcovers
      once := fun value hread => by
        have honce := (hput.here.single value).resolve_right fun hspare => by
          have hgather := hspare.op_of_reads hput.here.names (List.mem_of_getElem? hplace) hread
          rw [hr.stands.op] at hgather
          exact absurd hgather (by decide)
        intro n hn m hm
        obtain ⟨_, -, hn⟩ := hleft n hn
        obtain ⟨_, -, hm⟩ := hleft m hm
        exact honce n (List.mem_of_getElem? hn) m (List.mem_of_getElem? hm)
      apart := fun m hmem hname => by
        obtain ⟨j, hj, hmj⟩ := hleft m hmem
        exact hj (hput.here.place_eq hmj hplace hname)
      origin := fun m hmem => by
        obtain ⟨j, hj, hmj⟩ := hleft m hmem
        exact hm.origin_of_cleaned hr hg hcovers hj hmj }

/-- Where the nodes of a relocation come from. -/
theorem relocated (hm : Moved s g t.place t.node place consumer t.perm attributes p arranged
      detached cleaned placed rebuiltPlace moved)
    (hr : Relocatable s g t place consumer policy attributes p) (hg : TidyTree taken g)
    (hcovers : ∀ value, taken value → value ∈ s.reserved) :
    Relocated s g t consumer attributes (p.operands.map (Operand.inputName placed)) moved := by
  have hc := hm.cleared hr hg hcovers
  have hlt := (List.getElem?_eq_some_iff.1 hc.rebuilt).1
  have hmem : ∀ m, m ∈ moved.nodes ↔
      (m = frontNode consumer attributes (p.operands.map (Operand.inputName placed)) t.output ∨
        ∃ j, j ≠ rebuiltPlace ∧ cleaned.nodes[j]? = some m) ∨
        m = behindNode t.node t.perm t.output (consumer.outputs.headD "") := by
    intro m
    rw [hm.swap, swapped, addNode, putNode, List.mem_append, mem_set_iff hlt, List.mem_singleton]
    rfl
  refine ⟨by rw [hm.swap]; exact hc.sameInputs, by rw [hm.swap]; exact hc.sameOutputs,
    fun value hvalue => (hr.fed hg hcovers hm.arrange hvalue).1, fun value hvalue hne hnew => ?_,
    (hmem _).2 (.inl (.inl rfl)), (hmem _).2 (.inr rfl), fun m hm' => ?_⟩
  · -- the value is that of a copy, and copies stay
    obtain ⟨m, hm', hcopied, hvm⟩ := (hm.arrange.tidyTree hg hcovers).2.copied_of_mentions
      ((hr.fed hg hcovers hm.arrange hvalue).2.resolve_left hne) hnew
    have hother : ∀ n : Node, n.op ≠ "Constant" → m ≠ n := by
      rintro n hop rfl
      exact hop hcopied.op
    have hmem' := hm.mem_cleaned hr hg hcovers hm' (hother _ (by rw [hr.stands.op]; decide))
      (hother _ hr.op.2.1) fun habsorbed => by
        obtain ⟨n, hn, hname, -⟩ := hr.absorbed _ habsorbed
        exact hcopied.name_not_mem (hname ▸ mem_names_of_mem_node hn (.inl rfl))
    have helsewhere := elsewhere_of_ne hc.rebuilt hmem' fun e =>
      hr.op.2.1 ((congrArg Node.op e).trans hcopied.op)
    exact Graph.mem_results.2 ⟨m, (hmem m).2 (.inl (.inr helsewhere)), hvm⟩
  rcases (hmem m).1 hm' with (rfl | ⟨j, hj, hmj⟩) | rfl
  · exact .inr (.inr (.inl rfl))
  · rcases hc.origin m (List.mem_of_getElem? hmj) with hold | hcopied | rfl
    · exact .inl hold
    · exact .inr (.inl hcopied)
    · exact absurd (hc.tree.here.place_eq hmj hc.rebuilt rfl) hj
  · exact .inr (.inr (.inr rfl))

/-- A node that is no constant, no transposition and not the operator is still there. -/
theorem stays (hm : Moved s g t.place t.node place consumer t.perm attributes p arranged detached
      cleaned placed rebuiltPlace moved)
    (hr : Relocatable s g t place consumer policy attributes p) (hg : TidyTree taken g)
    (hcovers : ∀ value, taken value → value ∈ s.reserved) {n : Node} (hn : n ∈ g.nodes)
    (hconstant : n.op ≠ "Constant") (htransposing : n.op ≠ "Transpose") (hne : n ≠ consumer) :
    n ∈ moved.nodes := by
  have hc := hm.cleared hr hg hcovers
  obtain ⟨i, hi⟩ := List.getElem?_of_mem hn
  have harranged := List.mem_of_getElem? ((hm.arrange.tidyTree hg hcovers).2.getElem? hi hconstant)
  have hcleaned := hm.mem_cleaned hr hg hcovers harranged
    (fun e => htransposing (e ▸ hr.stands.op)) hne fun habsorbed => by
      obtain ⟨m, hm, hname, hop⟩ := hr.absorbed _ habsorbed
      exact htransposing (hg.here.eq_of_name_eq hm hn hname ▸ hop)
  rw [hm.swap, swapped, addNode, putNode, List.mem_append,
    mem_set_iff (List.getElem?_eq_some_iff.1 hc.rebuilt).1]
  -- the rebuilt operator has the name of the operator
  exact .inl (.inr (elsewhere_of_ne hc.rebuilt hcleaned fun e =>
    hne (hg.here.eq_of_name_eq hn hr.mem (e ▸ rfl))))

end Moved

/-! ## What is known -/

/-- What is known of a value stays when a constant is rearranged that does not yield it. -/
theorem ConstantPut.get?_infos {name target value : String} {n : Node} {permuted : Literal}
    {h : Graph} (hput : ConstantPut s g name place n permuted target h)
    (hvalue : value = "" ∨ value ∈ g.names) (hne : g.isOutput name = false → value ≠ name) :
    h.infos.get? value = g.infos.get? value := by
  cases hput with
  | copied new named =>
      refine (InfoTable.get?_set _ _ _).trans (if_neg fun heq => ?_)
      obtain rfl : value = target := heq
      exact hvalue.elim named new.2
  | changed alone inside => exact (InfoTable.get?_set _ _ _).trans (if_neg (hne inside))

/-- It stays when the constants among operands are rearranged. -/
theorem Placing.get?_infos {operands : List Operand} {later : List (String × String)} {h : Graph}
    {value : String} (hp : Placing s operands g placed h later) (hg : TidyTree taken g)
    (hcovers : ∀ value, taken value → value ∈ s.reserved) (hvalue : value = "" ∨ value ∈ g.names)
    (hne : ∀ name place n permuted, .constant name place n permuted ∈ operands →
      g.isOutput name = false → value ≠ name) : h.infos.get? value = g.infos.get? value := by
  induction hp with
  | done => rfl
  | value _ ih => exact ih hg hvalue fun name place n permuted hmem => hne name place n permuted (.tail _ hmem)
  | again _ _ ih => exact ih hg hvalue fun name place n permuted hmem => hne name place n permuted (.tail _ hmem)
  | put _ hn hput _ ih =>
      have hfirst := hput.enriched hn (hg.here.keyed _ hn.mem)
      refine (ih (hput.tidyTree hg hcovers hn) (hvalue.imp_right fun h => hfirst.names h)
        fun name place n permuted hmem => ?_).trans (hput.get?_infos hvalue (hne _ _ _ _ (.head _)))
      rw [isOutput, hfirst.outputs]
      exact hne name place n permuted (.tail _ hmem)

/-- It stays when nodes go that do not yield the value. -/
theorem Absorbing.get?_infos {names : List String} {h : Graph} {place later : Option Nat}
    {value : String} (ha : Absorbing names g place h later)
    (hgone : ∀ n ∈ g.nodes, n.name ∈ names → (∀ output ∈ n.outputs, g.isOutput output = false) →
      value ∉ n.outputs) : h.infos.get? value = g.infos.get? value := by
  induction ha with
  | done => rfl
  | keep _ ih => exact ih fun n hn hname => hgone n hn (.tail _ hname)
  | drop found_eq removed _ ih =>
      obtain ⟨n, hn, hname⟩ := place?_eq_some found_eq
      obtain ⟨m, hm, hunused, rfl⟩ := removeUnreferenced?_eq_some removed
      obtain rfl : n = m := Option.some.inj (hn.symm.trans hm)
      refine (ih fun k hk hkname => ?_).trans (get?_foldl_erase ?_ _)
      · exact hgone k (List.mem_of_mem_eraseIdx hk) (.tail _ hkname)
      · refine hgone n (List.mem_of_getElem? hn) (hname ▸ .head _) fun output houtput => ?_
        have hunused := hunused output houtput
        simp only [isUsedBeside, Bool.or_eq_false_iff] at hunused
        exact hunused.1

/-- When a transposition moves behind an operator only what is known of the values of transpositions
and of the constants that the operator takes may change. -/
theorem Moved.get?_infos (hm : Moved s g t.place t.node place consumer t.perm attributes p arranged
      detached cleaned placed rebuiltPlace moved)
    (hr : Relocatable s g t place consumer policy attributes p) (hg : TidyTree taken g)
    (hcovers : ∀ value, taken value → value ∈ s.reserved) (hinside : g.isOutput t.output = false)
    (yieldedInfo : Option ValueInfo) {value : String} (hvalue : value = "" ∨ value ∈ g.names)
    (htransposed : ∀ n ∈ g.nodes, n.op = "Transpose" →
      (∀ output ∈ n.outputs, g.isOutput output = false) → value ∉ n.outputs)
    (hconstant : ∀ n ∈ g.nodes, n.op = "Constant" → ∀ name ∈ consumer.inputs, name ≠ "" →
      n.outputs = [name] → g.isOutput name = false → value ≠ name) :
    (infosBehind t.perm t.output yieldedInfo moved).get? value = g.infos.get? value := by
  have houtput : value ≠ t.output := fun heq => by
    refine htransposed t.node hr.stands.mem hr.stands.op (fun output hmem => ?_) ?_
    · rw [hr.stands.outputs, List.mem_singleton] at hmem
      rwa [hmem]
    · rw [hr.stands.outputs, List.mem_singleton]
      exact heq
  obtain ⟨harrangedTree, henriched⟩ := hm.arrange.tidyTree hg hcovers
  have harranged := hm.arrange.get?_infos hg hcovers hvalue fun name place n permuted hmem =>
    have hn := hr.isConstant hmem
    hconstant n hn.mem hn.op name (hr.constant_mem hmem).1 (hr.constant_mem hmem).2 hn.outputs
  have hdetached : detached.infos.get? value = arranged.infos.get? value := by
    obtain ⟨n, hn, -, rfl⟩ := removeUnreferenced?_eq_some hm.detach
    obtain rfl : t.node = n := Option.some.inj ((hm.transposition_at hr hg hcovers).symm.trans hn)
    refine get?_foldl_erase ?_ _
    rwa [hr.stands.outputs, List.mem_singleton]
  have hcleaned : cleaned.infos.get? value = detached.infos.get? value := by
    obtain ⟨hnodes, -, houtputs⟩ := hm.detached_eq
    refine hm.absorb.get?_infos fun m hmem hname hunused => ?_
    obtain ⟨n, hn, hsame, hop⟩ := hr.absorbed _ hname
    rw [hnodes, List.mem_eraseIdx_iff_getElem?] at hmem
    obtain ⟨j, hj, hmj⟩ := hmem
    -- what goes is a transposition of the graph from before
    rcases hm.origin_of_cleaned hr hg hcovers hj hmj with ⟨k, hk, -, -, hlike⟩ | hcopied | rfl
    · obtain rfl : n = k := hg.here.eq_of_name_eq hn hk (hsame.trans hlike.name)
      rw [hlike.outputs] at hunused ⊢
      refine htransposed n hn hop fun output houtput => ?_
      rw [isOutput, ← henriched.outputs, ← houtputs]
      exact hunused output houtput
    · exact absurd (hsame ▸ mem_names_of_mem_node hn (.inl rfl)) hcopied.name_not_mem
    · exact absurd (hg.here.eq_of_name_eq hn hr.mem hsame ▸ hop) hr.op.1
  have hmoved : moved.infos.get? value = g.infos.get? value := by
    rw [hm.swap]
    exact hcleaned.trans (hdetached.trans harranged)
  refine Eq.trans ?_ hmoved
  unfold infosBehind
  cases yieldedInfo with
  | some info => exact (InfoTable.get?_set _ _ _).trans (if_neg houtput)
  | none =>
      unfold eraseInfo
      simp only
      split
      · rfl
      · exact (InfoTable.get?_erase _ _ _).trans (if_neg houtput)

/-! ## Putting the operator back -/

/-- The graph without the rebuilt operator. -/
def emptied (cleaned : Graph) (rebuiltPlace : Nat) : Graph :=
  { cleaned with nodes := cleaned.nodes.eraseIdx rebuiltPlace }

/-- The operator has been put back, the transposition has not. -/
def fronted (cleaned : Graph) (rebuiltPlace : Nat) (front : Node) : Graph :=
  { cleaned with nodes := front :: (emptied cleaned rebuiltPlace).nodes }

/-- The operator does not yield the transposed value. -/
theorem Relocatable.output_not_mem (hr : Relocatable s g t place consumer policy attributes p)
    (hg : Tidy taken g) : t.output ∉ consumer.results := fun hout =>
  hr.ne (hg.eq_of_mem_results hr.mem hr.stands.mem (hg.once hr.mem hout hr.op.2.2 hr.op.2.1) hout
    hr.mem_output)

theorem eq_of_mem_results_frontNode {inputs : List String} {transposed value : String}
    (h : value ∈ (frontNode consumer attributes inputs transposed).results) : value = transposed :=
  List.mem_singleton.1 (Node.mem_results.1 h).1

namespace Cleared

theorem mem_emptied (hc : Cleared taken s g t consumer attributes p placed rebuiltPlace cleaned)
    {m : Node} (hm : m ∈ (emptied cleaned rebuiltPlace).nodes) :
    m ∈ cleaned.nodes ∧ m.name ≠ consumer.name := by
  obtain ⟨j, hj, hmj⟩ := List.mem_eraseIdx_iff_getElem?.1 hm
  exact ⟨List.mem_of_getElem? hmj, fun hname => hj (hc.tree.here.place_eq hmj hc.rebuilt hname)⟩

/-- Nothing yields the transposed value when the transposition is gone. -/
theorem output_not_mem (hc : Cleared taken s g t consumer attributes p placed rebuiltPlace cleaned)
    (hr : Relocatable s g t place consumer policy attributes p) (hg : Tidy taken g) :
    t.output ∉ cleaned.results := by
  intro hout
  obtain ⟨m, hm, hvm⟩ := Graph.mem_results.1 hout
  have honce := hg.once hr.stands.mem hr.mem_output (by rw [hr.stands.op]; decide)
    (by rw [hr.stands.op]; decide)
  rcases hc.origin m hm with ⟨n, hn, hne, -, hlike⟩ | ⟨target, literal, hlike, -, -, hnew⟩ | rfl
  · exact hne (hg.eq_of_mem_results hn hr.stands.mem honce (hlike.results ▸ hvm) hr.mem_output)
  · rw [hlike.results] at hvm
    have htarget := List.mem_singleton.1 (Node.mem_results.1 hvm).1
    exact hnew (htarget ▸ mem_names_of_mem_results
      (Graph.mem_results.2 ⟨_, hr.stands.mem, hr.mem_output⟩))
  · exact hr.output_not_mem hg hvm

/-- The operator can be put back under the name of the transposed value. -/
theorem tidy_fronted
    (hc : Cleared taken s g t consumer attributes p placed rebuiltPlace cleaned)
    (hr : Relocatable s g t place consumer policy attributes p) (hg : Tidy taken g) :
    Tidy taken (fronted cleaned rebuiltPlace
      (frontNode consumer attributes (p.operands.map (Operand.inputName placed)) t.output)) := by
  have hmem := List.mem_of_getElem? hc.rebuilt
  have hemptied : Tidy taken (emptied cleaned rebuiltPlace) :=
    (hc.tree.of_subperm (h := emptied cleaned rebuiltPlace) (List.eraseIdx_sublist _ _).subperm rfl
      rfl).here
  refine hemptied.add (List.Perm.refl _) rfl rfl (fun n hn => (hc.mem_emptied hn).2)
    ((List.nodup_singleton _).filter _) (fun value hvalue => ?_) (fun value hread => ?_)
    (hc.tree.here.keyed (rebuiltNode consumer attributes p.operands placed) hmem)
  · rw [eq_of_mem_results_frontNode hvalue]
    have hresult : t.output ∈ g.results := Graph.mem_results.2 ⟨_, hr.stands.mem, hr.mem_output⟩
    refine ⟨fun hout => ?_, fun hin => ?_, hg.newResults _ hresult⟩
    · obtain ⟨m, hm, hvm⟩ := Graph.mem_results.1 hout
      exact hc.output_not_mem hr hg (Graph.mem_results.2 ⟨m, (hc.mem_emptied hm).1, hvm⟩)
    · exact hg.apart _ hresult (hc.sameInputs ▸ hin)
  · have hspare : ¬ cleaned.Spare value := fun hspare => by
      have hgather := hspare.op_of_reads hc.tree.here.names hmem hread
      exact hr.op.2.2 hgather
    intro n hn m hm
    exact (hc.tree.here.single value).resolve_right hspare n (hc.mem_emptied hn).1 m
      (hc.mem_emptied hm).1

/-- What the transposition reads where it is put back has one producer. -/
theorem once_fronted (hc : Cleared taken s g t consumer attributes p placed rebuiltPlace cleaned)
    (hr : Relocatable s g t place consumer policy attributes p) (hg : Tidy taken g) {value : String}
    (hread : value ∈ (behindNode t.node t.perm t.output (consumer.outputs.headD "")).reads) :
    (fronted cleaned rebuiltPlace (frontNode consumer attributes
      (p.operands.map (Operand.inputName placed)) t.output)).Once value := by
  by_cases hvalue : value = t.output
  · refine .of_name consumer.name fun n hn hvn => ?_
    rcases List.mem_cons.1 hn with rfl | hn
    · rfl
    · exact absurd (Graph.mem_results.2 ⟨n, (hc.mem_emptied hn).1, hvalue ▸ hvn⟩)
        (hc.output_not_mem hr hg)
  · have hread : value ∈ t.node.reads := by
      rcases Node.mem_reads.1 hread with ⟨hin, -⟩ | ⟨body, hbody, hout⟩
      · exact absurd (List.mem_singleton.1 hin) hvalue
      · exact Node.mem_reads.2 (.inr ⟨body, bodies_behindNode _ _ _ _ hbody, hout⟩)
    have hfrom : ∀ n ∈ (fronted cleaned rebuiltPlace (frontNode consumer attributes
        (p.operands.map (Operand.inputName placed)) t.output)).nodes,
        value ∈ n.results → n ∈ cleaned.nodes := by
      intro n hn hvn
      rcases List.mem_cons.1 hn with rfl | hn
      · exact absurd (eq_of_mem_results_frontNode hvn) hvalue
      · exact (hc.mem_emptied hn).1
    exact fun n hn m hm hvn hvm =>
      hc.once value hread n (hfrom n hn hvn) m (hfrom m hm hvm) hvn hvm

end Cleared

namespace Moved

private theorem tidy (hm : Moved s g t.place t.node place consumer t.perm attributes p arranged
      detached cleaned placed rebuiltPlace moved)
    (hr : Relocatable s g t place consumer policy attributes p) (hg : TidyTree taken g)
    (hcovers : ∀ value, taken value → value ∈ s.reserved) : Tidy taken moved := by
  have hc := hm.cleared hr hg hcovers
  have hmem := List.mem_of_getElem? hc.rebuilt
  refine (hc.tidy_fronted hr hg.here).add
    (k := behindNode t.node t.perm t.output (consumer.outputs.headD "")) ?_
    (by rw [hm.swap]; rfl) (by rw [hm.swap]; rfl) (fun n hn => ?_) ((List.nodup_singleton _).filter _)
    (fun value hvalue => ?_) (fun value hread => hc.once_fronted hr hg.here hread)
    (Attributes.nodup_set (hg.here.keyed _ hr.stands.mem) _ _)
  · rw [hm.swap]
    refine (List.perm_append_singleton _ _).trans (.cons _ ?_)
    exact List.set_perm_cons_eraseIdx (List.getElem?_eq_some_iff.1 hc.rebuilt).1 _
  · rcases List.mem_cons.1 hn with rfl | hn
    · exact fun hname => hr.ne (hg.here.eq_of_name_eq hr.mem hr.stands.mem hname)
    · exact hc.apart n (hc.mem_emptied hn).1
  · have hvalue : value ∈ consumer.results := by
      obtain ⟨hyielded, hne⟩ := Node.mem_results.1 hvalue
      exact Node.mem_results.2 ⟨hr.outputs ▸ hyielded, hne⟩
    have hresult : value ∈ g.results := Graph.mem_results.2 ⟨_, hr.mem, hvalue⟩
    refine ⟨fun hfront => ?_, fun hin => hg.here.apart value hresult (hc.sameInputs ▸ hin),
      hg.here.newResults value hresult⟩
    obtain ⟨m, hm', hvm⟩ := Graph.mem_results.1 hfront
    rcases List.mem_cons.1 hm' with rfl | hm'
    · exact hr.output_not_mem hg.here (eq_of_mem_results_frontNode hvm ▸ hvalue)
    · -- the rebuilt operator was the only one to yield what it yields
      obtain ⟨hmcleaned, hmname⟩ := hc.mem_emptied hm'
      have hyields : value ∈ (rebuiltNode consumer attributes p.operands placed).results := hvalue
      have honce := hc.tree.here.once hmem hyields hr.op.2.2 hr.op.2.1
      have hname := honce m hmcleaned _ hmem hvm hyields
      exact hmname hname

/-- A tree stays tidy when a transposition moves behind an operator in its root. -/
theorem tidyTree (hm : Moved s g t.place t.node place consumer t.perm attributes p arranged
      detached cleaned placed rebuiltPlace moved)
    (hr : Relocatable s g t place consumer policy attributes p) (hg : TidyTree taken g)
    (hcovers : ∀ value, taken value → value ∈ s.reserved) : TidyTree taken moved := by
  have hrelocated := hm.relocated hr hg hcovers
  have hmention : ∀ n ∈ g.nodes, ∀ value ∈ n.results, g.Mentions value := fun n hn value hvn =>
    .inl (defines_iff.2 (.inr (Graph.mem_results.2 ⟨n, hn, hvn⟩)))
  have hfed : ∀ value, value ≠ "" → Fed s g consumer value → g.Mentions value ∨ value ∉ g.names := by
    intro value hne hfed
    cases hfed with
    | @before n _ input mem op inputs read result =>
        exact .inl (.inr ⟨hne, n, mem, by simp [inputs]⟩)
    | @constant n _ name mem op read result target =>
        rcases target with rfl | ⟨-, hnew⟩
        · exact .inl (hmention n mem value result)
        · exact .inr hnew
  refine hg.of_root (hm.tidy hr hg hcovers) (fun value hmentions => ?_) (hrelocated.keepsBodies hr)
  rcases hmentions with hdef | ⟨hne, m, hm', hin⟩
  · rcases defines_iff.1 hdef with hin | hresult
    · exact .inl (.inl (defines_iff.2 (.inl (hrelocated.sameInputs ▸ hin))))
    · obtain ⟨m, hm', hvm⟩ := Graph.mem_results.1 hresult
      rcases hrelocated.origin m hm' with ⟨n, hn, -, -, hlike⟩ | ⟨target, literal, hlike, -, -, hnew⟩ |
        rfl | rfl
      · exact .inl (hmention n hn value (hlike.results ▸ hvm))
      · rw [hlike.results] at hvm
        exact .inr (List.mem_singleton.1 (Node.mem_results.1 hvm).1 ▸ hnew)
      · have hvalue := List.mem_singleton.1 (Node.mem_results.1 hvm).1
        exact .inl (hvalue ▸ hmention _ hr.stands.mem _ hr.mem_output)
      · refine .inl (hmention _ hr.mem value ?_)
        rw [Node.mem_results, hr.outputs]
        exact Node.mem_results.1 hvm
  · rcases hrelocated.origin m hm' with ⟨n, hn, -, -, hlike⟩ | ⟨target, literal, hlike, -⟩ | rfl | rfl
    · exact .inl (.inr ⟨hne, n, hn, hlike.inputs ▸ hin⟩)
    · rw [hlike.inputs] at hin
      cases hin
    · exact hfed value hne (hrelocated.fed value hin)
    · exact .inl (List.mem_singleton.1 hin ▸ hmention _ hr.stands.mem _ hr.mem_output)

end Moved

end TensorGraph.Relocation
