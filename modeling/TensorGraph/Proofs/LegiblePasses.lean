import TensorGraph.Proofs.Legible
import TensorGraph.Proofs.Settling

/-!
# Passes over legible graphs

Every pass that is known by name leaves a legible graph, whatever the graph is that it is run on, and
also where a rule breaks off. A rule takes what it writes into a graph from what it finds there and in
the tables around it: numbers of permutations and sizes, literals in another order, entries under
another name.

## Main results

* `Leaves.bind` -- steps that leave legible graphs can be put together.
* `Transposes.leaves_treat`, `Identities.leaves_eliminate` -- no rule leaves anything else.
* `Pass.legible_run` -- nor does a pass.
-/

namespace TensorGraph

/-! ## What is found around a graph -/

/-- Whether the tables around a graph are legible. -/
def Surroundings.Legible (s : Surroundings) : Prop := ∀ scope ∈ s.enclosing, scope.infos.Legible

theorem Surroundings.legible_root : Surroundings.root.Legible := fun _ h => nomatch h

theorem Surroundings.Legible.inside {s : Surroundings} (hs : s.Legible) {g : Graph}
    (hg : g.infos.Legible) (place : Nat) (key : String) : (s.inside g place key).Legible :=
  List.forall_mem_cons.2 ⟨hg, hs⟩

/-- Results for all entries of a list are results for some of them. -/
theorem exists_of_mem_mapM {α β : Type} {f : α → Option β} {xs : List α} {ys : List β}
    (h : xs.mapM f = some ys) {y : β} (hy : y ∈ ys) : ∃ x ∈ xs, f x = some y := by
  induction xs generalizing ys with
  | nil =>
      obtain rfl : [] = ys := by simpa using h
      cases hy
  | cons x xs ih =>
      simp only [List.mapM_cons, Option.pure_def, Option.bind_eq_bind, Option.bind_eq_some_iff,
        Option.some.injEq] at h
      obtain ⟨first, hfirst, rest, hrest, rfl⟩ := h
      rcases List.mem_cons.1 hy with rfl | hy
      · exact ⟨x, by simp, hfirst⟩
      · obtain ⟨other, hother, hfound⟩ := ih hrest hy
        exact ⟨other, List.mem_cons_of_mem _ hother, hfound⟩

theorem spelledPermutation_finite {n : Node} (hn : n.Legible) (p : List Nat) :
    ∀ x ∈ spelledPermutation n p, x.isFinite = true := by
  unfold spelledPermutation
  cases hperm : n.numbers? "perm" with
  | some xs => exact hn.numbers? hperm
  | none =>
      intro x hx
      obtain ⟨axis, -, rfl⟩ := List.mem_map.1 hx
      rfl

/-- The sizes of a value, all of which are known, are finite. -/
theorem Transposes.staticSizes?_finite {s : Surroundings} {g : Graph} (hg : g.Legible) (hs : s.Legible)
    {value : String} {sizes : List Number} (h : staticSizes? s g value = some sizes) :
    ∀ x ∈ sizes, x.isFinite = true := by
  unfold staticSizes? at h
  obtain ⟨dims, hdims, h⟩ := Option.bind_eq_some_iff.1 h
  obtain ⟨info, hinfo, hshape⟩ := Option.bind_eq_some_iff.1 hdims
  split at h
  · intro x hx
    obtain ⟨found, hfound, rfl⟩ := exists_of_mem_mapM h hx
    exact ((hg.info? hs hinfo).shape dims hshape x hfound).finite
  · cases h

/-! ## Rules that may break off -/

/-- Whether a rule comes to a result of some kind or breaks off with a legible graph. -/
inductive Leaves {α : Type} (P : α → Prop) : Except Stopped α → Prop where
  | ok {a : α} (holds : P a) : Leaves P (.ok a)
  | stopped {stopped : Stopped} (legible : stopped.graph.Legible) : Leaves P (.error stopped)

/-- Whether a rule that may not apply has left a legible graph if it applied. -/
def LegibleChange {α : Type} (found : Option (Graph × α)) : Prop := ∀ change ∈ found, change.1.Legible

theorem legibleChange_none {α : Type} : LegibleChange (none : Option (Graph × α)) := fun _ h => nomatch h

theorem legibleChange_some {α : Type} {g : Graph} (hg : g.Legible) (a : α) :
    LegibleChange (some (g, a)) := fun _ h => Option.some.inj h ▸ hg

section Leaves

variable {α β : Type} {P : α → Prop} {Q : β → Prop}

theorem Leaves.bind {x : Except Stopped α} {f : α → Except Stopped β} (hx : Leaves P x)
    (hf : ∀ a, P a → Leaves Q (f a)) : Leaves Q (x >>= f) := by
  cases hx with
  | ok holds => exact hf _ holds
  | stopped legible => exact .stopped legible

theorem Graph.Legible.orStop {g : Graph} (hg : g.Legible) {step : Except Failure α}
    (hstep : ∀ a, step = .ok a → P a) : Leaves P (g.orStop step) := by
  cases step with
  | ok a => exact .ok (hstep a rfl)
  | error cause => exact .stopped hg

end Leaves

namespace Graph.Legible

variable {g h : Graph}

theorem removeNode (hg : g.Legible) {r : NodeRef} (hok : g.removeNode r = .ok h) : h.Legible := by
  unfold Graph.removeNode at hok
  cases hplace : g.placeOf r with
  | error => rw [hplace] at hok; cases hok
  | ok place =>
      rw [hplace] at hok
      cases hok
      exact hg.dropNode place

theorem replaceNode (hg : g.Legible) {r : NodeRef} {n : Node} (hn : n.Legible)
    (hok : g.replaceNode r n = .ok h) : h.Legible := by
  unfold Graph.replaceNode at hok
  cases hplace : g.placeOf r with
  | error => rw [hplace] at hok; cases hok
  | ok place =>
      rw [hplace] at hok
      cases hok
      exact hg.putNode place hn

theorem removeIfUnreferenced (hg : g.Legible) {r : NodeRef}
    (hsome : g.removeIfUnreferenced r = some h) : h.Legible := by
  obtain ⟨place, -, hremoved⟩ := Option.bind_eq_some_iff.1 hsome
  exact hg.removeUnreferenced? hremoved

theorem removeDisconnected (hg : g.Legible) (r : NodeRef) :
    Leaves Graph.Legible (g.removeDisconnected r) := by
  unfold Graph.removeDisconnected
  split
  · rename_i rest hrest
    exact .ok (hg.removeIfUnreferenced hrest)
  · exact .stopped hg

/-- A bypass rewires, renames or puts an identity in the place of the node. -/
theorem bypass (hg : g.Legible) (r : NodeRef) (replacement : String) :
    Leaves (fun result => result.1.Legible) (g.bypass r replacement) := by
  unfold Graph.bypass
  split
  · split
    · rename_i rest hrest
      exact .ok (hg.removeIfUnreferenced hrest)
    · exact .stopped hg
  · rename_i output _
    have hrewired := hg.replaceInputs output replacement
    simp only
    split
    · split
      · rename_i rest hrest
        exact .ok (hrewired.removeIfUnreferenced hrest)
      · exact .stopped hrewired
    · split
      · refine (hrewired.orStop fun _ => hrewired.removeNode).bind fun removed hremoved => ?_
        exact (hremoved.orStop fun _ => hremoved.renameValue).bind fun _ hrenamed => .ok hrenamed
      · have hshim : Node.Legible
            { name := r.node.name, op := "Identity", inputs := [replacement], outputs := [output] } :=
          Node.legible_iff.2 ⟨rfl, fun _ h => nomatch h⟩
        exact (hg.orStop fun _ => hg.replaceNode hshim).bind fun _ hreplaced => .ok hreplaced

end Graph.Legible

/-! ## Identities -/

namespace Identities

variable {s : Surroundings} {g : Graph}

theorem leaves_eliminate (hg : g.Legible) (r : NodeRef) : Leaves LegibleChange (eliminate s g r) := by
  unfold eliminate
  split
  · exact .ok legibleChange_none
  · rename_i input output _
    have hrewired := hg.replaceInputs output input
    simp only
    split
    · exact (hrewired.orStop fun _ => hrewired.removeNode).bind fun removed hremoved =>
        .ok (legibleChange_some (hremoved.eraseInfo output) _)
    · split
      · exact .ok legibleChange_none
      · split
        · refine (hg.orStop fun _ => hg.removeNode).bind fun removed hremoved => ?_
          exact (hremoved.orStop fun _ => hremoved.renameValue).bind fun _ hrenamed =>
            .ok (legibleChange_some hrenamed _)
        · split
          · exact .ok legibleChange_none
          · refine (hrewired.orStop fun _ => hrewired.removeNode).bind fun removed hremoved => ?_
            exact (hremoved.orStop fun _ => hremoved.rebindOutput).bind fun _ hrebound =>
              .ok (legibleChange_some hrebound _)

theorem leaves_removeFirst (hg : g.Legible) (refs : List NodeRef) :
    Leaves LegibleChange (removeFirst s g refs) := by
  induction refs with
  | nil => exact .ok legibleChange_none
  | cons r rest ih =>
      unfold removeFirst
      split
      · refine (leaves_eliminate hg r).bind fun found hfound => ?_
        cases found with
        | none => exact ih
        | some change => exact .ok (legibleChange_some (hfound change rfl) _)
      · exact ih

end Identities

/-! ## Relocation -/

namespace Relocation

variable {s : Surroundings} {g : Graph}

/-- The literals and nodes of operands that are constants are legible. -/
def LegibleOperands (operands : List Operand) : Prop :=
  ∀ name place n permuted, Operand.constant name place n permuted ∈ operands →
    n.Legible ∧ permuted.Legible

theorem legible_planned (hg : g.Legible) {source transposed input : String} {perm : List Nat}
    (hperm : Permutation.IsPermutation perm) {policy : ConstantPolicy} {name : String} {place : Nat}
    {n : Node} {permuted : Literal}
    (h : Planned s g source transposed perm policy input (.constant name place n permuted)) :
    n.Legible ∧ permuted.Legible := by
  cases h with
  | @constant _ _ _ literal padded _ _ _ _ producer constant _ padded_eq permuted_eq =>
      have hn := hg.node (List.mem_of_find?_eq_some producer)
      obtain ⟨hpadded, hrank⟩ := (hn.constant? constant).padToRank padded_eq
      exact ⟨hn, hpadded.transpose (Permutation.invert_isPermutation hperm)
        ((Permutation.length_invert perm).trans hrank.symm) permuted_eq⟩

theorem legible_plan (hg : g.Legible) {source transposed : String} {perm : List Nat}
    (hperm : Permutation.IsPermutation perm) {policy : ConstantPolicy} {inputs : List String} {p : Plan}
    (h : plan s g source transposed perm policy inputs = .ok (some p)) : LegibleOperands p.operands := by
  intro name place n permuted hmem
  obtain ⟨i, hi, hoperand⟩ := List.getElem_of_mem hmem
  have hplanned := (plan_ok h).1.get (i := i) (by rw [(plan_ok h).1.length_eq]; exact hi) hi
  rw [List.get_eq_getElem, List.get_eq_getElem, hoperand] at hplanned
  exact legible_planned hg hperm hplanned

theorem legible_placeConstants (hg : g.Legible) {operands : List Operand}
    (hoperands : LegibleOperands operands) (placed : List (String × String)) :
    (placeConstants s operands g placed).1.Legible := by
  induction operands generalizing g placed with
  | nil => exact hg
  | cons operand rest ih =>
      have hrest : LegibleOperands rest := fun name place n permuted hmem =>
        hoperands name place n permuted (List.mem_cons_of_mem _ hmem)
      cases operand with
      | value name => exact ih hg hrest placed
      | constant name place n permuted =>
          obtain ⟨hn, hpermuted⟩ := hoperands name place n permuted (by simp)
          rw [placeConstants]
          split
          · exact ih hg hrest placed
          · have hinfo (target : String) : ValueInfo.Legible
                { name := target, dtype := some permuted.dtype
                  shape := some (permuted.dims.map some) } := by
              refine ⟨fun d hd => Option.some.inj hd ▸ hpermuted.dtype, fun dims hdims d hd => ?_⟩
              obtain rfl := Option.some.inj hdims
              obtain ⟨found, hfound, heq⟩ := List.mem_map.1 hd
              exact Option.some.inj heq ▸ hpermuted.dims found hfound
            simp only
            refine ih (Graph.Legible.setInfo ?_ (hinfo _)) hrest _
            split
            · exact hg.addNode (.constant hpermuted _ _)
            · exact hg.putNode place (Node.legible_iff.2
                ⟨rfl, hn.attributes.set (show Inherited.keeps "value" = true by decide) (.literal hpermuted)⟩)

theorem legible_removeAbsorbed (hg : g.Legible) (names : List String) (place : Option Nat) :
    (removeAbsorbed names g place).1.Legible := by
  induction names generalizing g place with
  | nil => exact hg
  | cons name rest ih =>
      unfold removeAbsorbed
      split
      · exact ih hg place
      · split
        · exact ih hg place
        · rename_i smaller hsmaller
          exact ih (hg.removeUnreferenced? hsmaller) _

theorem leaves_apply (hg : g.Legible) (hs : s.Legible) (place : Nat) {transpose : Node}
    (htranspose : transpose.Legible) (consumerPlace : Nat) (consumer : Node) (perm : List Nat)
    {attributes : List (String × Attribute)} (hattributes : Attributes.Legible attributes) {p : Plan}
    (hp : LegibleOperands p.operands) :
    Leaves Graph.Legible (apply s g place transpose consumerPlace consumer perm attributes p) := by
  have harranged := legible_placeConstants (s := s) hg hp []
  have hnode (name op : String) (inputs outputs : List String) :
      Node.Legible { name, op, inputs, outputs, attributes } := Node.legible_iff.2 ⟨rfl, hattributes⟩
  have hbehind (inputs outputs : List String) : Node.Legible
      { transpose with
        inputs, outputs
        attributes :=
          Attributes.set transpose.attributes "perm" (.numbers (spelledPermutation transpose perm))
        bookmarks := [] } :=
    Node.legible_iff.2 ⟨rfl, htranspose.attributes.set (show Inherited.keeps "perm" = true by decide)
      (.numbers (spelledPermutation_finite htranspose perm))⟩
  unfold apply
  simp only
  refine ((harranged.putNode _ (hnode _ _ _ _)).removeDisconnected _).bind fun detached hdetached => ?_
  have hcleaned := legible_removeAbsorbed hdetached p.absorbed (placeAfterDropping place consumerPlace)
  refine (hcleaned.orStop fun _ => hcleaned.replaceNode (hnode _ _ _ _)).bind fun rewired hrewired => ?_
  have hmoved := hrewired.addNode (hbehind [transpose.outputs.headD ""] [consumer.outputs.headD ""])
  split
  · rename_i info hinfo
    have hlegible := hg.info? hs hinfo
    refine .ok (hmoved.setInfo ⟨hlegible.dtype, fun dims hdims d hd => ?_⟩)
    obtain ⟨known, hknown, hdims⟩ := Option.bind_eq_some_iff.1 hdims
    split at hdims
    · obtain rfl := Option.some.inj hdims
      refine Permutation.forall_mem_arrange (P := fun d => ∀ x, d = some x → x.Size) (by simp)
        (fun d hd x hx => hlegible.shape known hknown x (hx ▸ hd)) _ _ hd d rfl
    · cases hdims
  · exact .ok (hmoved.eraseInfo _)

end Relocation

/-! ## Transpositions -/

namespace Transposes

variable {s : Surroundings} {g : Graph} {t : PlacedTranspose}

theorem leaves_dropIdentity (hg : g.Legible) : Leaves LegibleChange (dropIdentity g t) := by
  unfold dropIdentity
  split
  · exact (hg.bypass _ _).bind fun result hresult => .ok (legibleChange_some hresult _)
  · exact .ok legibleChange_none

theorem leaves_mergeTwin (hg : g.Legible) : Leaves LegibleChange (mergeTwin s g t) := by
  unfold mergeTwin
  split
  · exact .ok legibleChange_none
  · exact ((hg.replaceInputs _ _).removeDisconnected _).bind fun next hnext =>
      .ok (legibleChange_some hnext _)

theorem leaves_composeSuccessor (hg : g.Legible) (ht : t.Stands s g) :
    Leaves LegibleChange (composeSuccessor s g t) := by
  unfold composeSuccessor
  split
  · exact .ok legibleChange_none
  · rename_i place consumer next hsuccessor
    simp only
    split
    · exact (hg.bypass _ _).bind fun result hresult =>
        .ok (legibleChange_some (hresult.removeNamedIfUnreferenced _) _)
    · have hconsumer := hg.getElem? (successor?_eq_some hsuccessor).1
      have hspelled : ∀ x ∈ Permutation.arrange t.spelled next, x.isFinite = true :=
        Permutation.forall_mem_arrange (P := fun x : Number => x.isFinite = true) rfl
          (spelledPermutation_finite (hg.getElem? ht.node) t.perm) next
      have hrebased := hconsumer.attributes.set (show Inherited.keeps "perm" = true by decide)
        (.numbers hspelled)
      exact .ok (legibleChange_some
        ((hg.putNode place (Node.legible_iff.2 ⟨rfl, hrebased⟩)).removeNamedIfUnreferenced _) _)

theorem legible_rebaseSizes (hg : g.Legible) (hs : s.Legible) (ht : t.node.Legible) (place : Nat)
    {n : Node} (hn : n.Legible) : (rebaseSizes s t g place n).Legible := by
  have hdynamic (sizes indices gather : String) : Graph.Legible
      ((((g.putNode place { n with inputs := [t.source], outputs := [sizes], bookmarks := [] }).setInfo
          { name := sizes, dtype := some .int64, shape := some [some (.ofNat t.perm.length)] }).addNode
        (Node.constant indices indices (listLiteral t.spelled))).addNode
        { name := gather, op := "Gather", inputs := [sizes, indices], outputs := [n.outputs.headD ""]
          attributes := [("axis", .number (.int 0))] }) := by
    have hinfo : ValueInfo.Legible
        { name := sizes, dtype := some .int64, shape := some [some (.ofNat t.perm.length)] } := by
      refine ⟨fun d hd => ?_, fun dims hdims d hd => ?_⟩
      · exact Option.some.inj hd ▸ (by decide : DType.int64 ∈ DType.all)
      · obtain rfl := Option.some.inj hdims
        exact Option.some.inj (List.mem_singleton.1 hd) ▸ Number.size_ofNat _
    have hsized : Node.Legible { n with inputs := [t.source], outputs := [sizes], bookmarks := [] } :=
      Node.legible_iff.2 ⟨rfl, hn.attributes⟩
    have hspelled := Literal.legible_listLiteral (spelledPermutation_finite ht t.perm)
    refine (((hg.putNode place hsized).setInfo hinfo).addNode (.constant hspelled _ _)).addNode
      (Node.legible_iff.2 ⟨rfl, fun entry hentry => ?_⟩)
    obtain rfl := List.mem_singleton.1 hentry
    exact ⟨by decide, .number rfl⟩
  unfold rebaseSizes
  simp only
  split
  · rename_i dims hdims
    split
    · have hfinite := Permutation.forall_mem_arrange (P := fun x : Number => x.isFinite = true) rfl
        (staticSizes?_finite hg hs hdims) t.perm
      exact hg.putNode place (.constant (Literal.legible_listLiteral hfinite) _ _)
    · exact hdynamic _ _ _
  · exact hdynamic _ _ _

theorem leaves_rebaseAllSizes (hg : g.Legible) (hs : s.Legible) (ht : t.Stands s g) :
    Leaves LegibleChange (rebaseAllSizes s g t) := by
  unfold rebaseAllSizes
  simp only
  split
  · exact .ok legibleChange_none
  · rename_i hsome
    clear hsome
    refine .ok (legibleChange_some (Graph.Legible.removeNamedIfUnreferenced ?_ _) _)
    generalize htakers : ((g.readers t.output).filterMap fun place =>
      (g.nodes[place]?).bind fun n => if takesSizes t n then some (place, n) else none) = takers
    have hall : ∀ taker ∈ takers, taker.2.Legible := by
      intro taker htaker
      subst htakers
      obtain ⟨place, -, hplace⟩ := List.mem_filterMap.1 htaker
      obtain ⟨n, hn, hfound⟩ := Option.bind_eq_some_iff.1 hplace
      split at hfound
      · exact Option.some.inj hfound ▸ hg.getElem? hn
      · cases hfound
    clear htakers
    have hnode := hg.getElem? ht.node
    clear ht
    induction takers generalizing g with
    | nil => exact hg
    | cons taker rest ih =>
        rw [List.forall_mem_cons] at hall
        exact ih (legible_rebaseSizes hg hs hnode taker.1 hall.1) hall.2

/-- Axes that are mapped are entries of the permutation. -/
theorem legible_remapAxes {n : Node} (hn : n.Legible) {rule : AxisRule} {p : List Number}
    (hp : ∀ x ∈ p, x.isFinite = true) {attributes : List (String × Attribute)}
    (h : remapAxes n rule p = some attributes) : Attributes.Legible attributes := by
  unfold remapAxes at h
  simp only at h
  split at h
  · cases h
  · split at h
    · exact Option.some.inj h ▸ hn.attributes
    · obtain ⟨axis, haxis, rfl⟩ := Option.map_eq_some_iff.1 h
      exact hn.attributes.set (by decide) (.number (hp _ (mapAxis?_mem haxis)))
    · obtain ⟨axes, haxes, rfl⟩ := Option.map_eq_some_iff.1 h
      refine hn.attributes.set (by decide) (.numbers fun x hx => ?_)
      obtain ⟨_, -, hfound⟩ := exists_of_mem_mapM haxes hx
      exact hp x (mapAxis?_mem hfound)
    · cases h

theorem legible_passage {consumer : Node} (hconsumer : consumer.Legible) {perm : List Number}
    (hperm : ∀ x ∈ perm, x.isFinite = true) {policy : Relocation.ConstantPolicy}
    {attributes : List (String × Attribute)} (h : passage? consumer perm = some (policy, attributes)) :
    Attributes.Legible attributes := by
  unfold passage? at h
  split at h
  · split at h
    · cases h
      exact hconsumer.attributes
    · cases h
  · cases h
    exact hconsumer.attributes
  · split at h
    · cases h
    · obtain ⟨found, hfound, heq⟩ := Option.map_eq_some_iff.1 h
      cases heq
      exact legible_remapAxes hconsumer hperm hfound
  · cases h
  · cases h

theorem leaves_pushDown (hg : g.Legible) (hs : s.Legible) (ht : t.Stands s g) :
    Leaves LegibleChange (pushDown s g t) := by
  unfold pushDown
  split
  · exact .ok legibleChange_none
  · split
    · rename_i place _
      split
      · exact .ok legibleChange_none
      · rename_i consumer hconsumer
        split
        · exact .ok legibleChange_none
        · split
          · exact .ok legibleChange_none
          · rename_i policy attributes hpassage
            have hnode := hg.getElem? ht.node
            have hattributes := legible_passage (hg.getElem? hconsumer)
              (spelledPermutation_finite hnode t.perm) hpassage
            have hperm := resolvePermutation_isPermutation ht.perm
            refine (hg.orStop fun _ hplan => hplan).bind fun planned hplanned => ?_
            cases planned with
            | none => exact .ok legibleChange_none
            | some plan =>
                exact (Relocation.leaves_apply hg hs t.place hnode place consumer t.perm hattributes
                  (Relocation.legible_plan hg hperm hplanned)).bind fun next hnext =>
                    .ok (legibleChange_some hnext _)
    · exact .ok legibleChange_none

theorem leaves_firstOf {rules : List (Unit → Outcome)}
    (hrules : ∀ rule ∈ rules, Leaves LegibleChange (rule ())) : Leaves LegibleChange (firstOf rules) := by
  induction rules with
  | nil => exact .ok legibleChange_none
  | cons rule rest ih =>
      rw [List.forall_mem_cons] at hrules
      unfold firstOf
      refine hrules.1.bind fun found hfound => ?_
      cases found with
      | none => exact ih hrules.2
      | some change => exact .ok hfound

/-- No rule for transpositions makes a graph illegible. -/
theorem leaves_treat (hg : g.Legible) (hs : s.Legible) {place : Nat} {n : Node}
    (hn : g.nodes[place]? = some n) : Leaves LegibleChange (treat s g place n) := by
  unfold treat
  split
  · exact .ok legibleChange_none
  · rename_i perm hperm
    simp only
    split
    · exact .ok legibleChange_none
    · rename_i hpresent
      have ht : PlacedTranspose.Stands s g { place, node := n, perm } := ⟨hn, hperm, hpresent⟩
      refine leaves_firstOf fun rule hrule => ?_
      simp only [List.mem_cons, List.not_mem_nil, or_false] at hrule
      rcases hrule with rfl | rfl | rfl | rfl | rfl
      · exact leaves_dropIdentity hg
      · exact leaves_mergeTwin hg
      · exact leaves_composeSuccessor hg ht
      · exact leaves_rebaseAllSizes hg hs ht
      · exact leaves_pushDown hg hs ht

theorem leaves_treatFirst (hg : g.Legible) (hs : s.Legible) (places : List Nat) :
    Leaves LegibleChange (treatFirst s g places) := by
  induction places with
  | nil => exact .ok legibleChange_none
  | cons place rest ih =>
      unfold treatFirst
      split
      · exact ih
      · rename_i n hn
        refine (leaves_treat hg hs hn).bind fun found hfound => ?_
        cases found with
        | none => exact ih
        | some change => exact .ok (legibleChange_some (hfound change rfl) _)

theorem leaves_step (hg : g.Legible) (hs : s.Legible) : Leaves LegibleChange (step s g) := by
  unfold step
  split
  · exact .stopped hg
  · exact leaves_treatFirst hg hs _

end Transposes

/-! ## Sweeps and passes -/

theorem Sweep.legible_untilClean {what : String}
    {rule : Graph → Except Stopped (Option (Graph × String))}
    (hrule : ∀ g : Graph, g.Legible → Leaves LegibleChange (rule g)) (fuel : Nat) {sweep : Sweep}
    (hsweep : sweep.graph.Legible) : (untilClean what rule fuel sweep).graph.Legible := by
  induction fuel generalizing sweep with
  | zero => exact hsweep
  | succ fuel ih =>
      unfold untilClean
      have hleaves := hrule sweep.graph hsweep
      cases hresult : rule sweep.graph with
      | error stopped =>
          rw [hresult] at hleaves
          cases hleaves with
          | stopped legible => exact legible
      | ok found =>
          rw [hresult] at hleaves
          cases hleaves with
          | ok holds =>
              cases found with
              | none => exact hsweep
              | some change => exact ih (holds change rfl)

theorem Sweep.legible_andThen {first : Sweep} {next : Graph → Sweep} (hfirst : first.graph.Legible)
    (hnext : ∀ g : Graph, g.Legible → (next g).graph.Legible) : (first.andThen next).graph.Legible := by
  unfold andThen
  split
  · exact hfirst
  · exact hnext first.graph hfirst

/-- Whether a treatment of graphs leaves legible ones, in legible surroundings. -/
def KeepsLegible (visit : Surroundings → Graph → Sweep) : Prop :=
  ∀ s g, s.Legible → g.Legible → (visit s g).graph.Legible

theorem Transposes.keepsLegible : KeepsLegible Transposes.sweepGraph := by
  intro s g hs hg
  have hclean : (Sweep.untilClean "transpose" (step s) (budget g) { graph := g }).graph.Legible :=
    Sweep.legible_untilClean (fun h hh => leaves_step hh hs) _ hg
  unfold sweepGraph
  simp only
  split
  · exact hclean
  · split
    · rename_i sorted hsorted
      exact hclean.sortTopologically hsorted
    · exact hclean

theorem Identities.keepsLegible : KeepsLegible Identities.sweepGraph := fun _ _ _ hg =>
  Sweep.legible_untilClean (fun _ hh => leaves_removeFirst hh _) _ hg

theorem DeadNodes.keepsLegible : KeepsLegible DeadNodes.sweepGraph := by
  intro s g _ hg
  have hround : ∀ g : Graph, g.Legible → (round g).graph.Legible := by
    intro g hg
    unfold round
    split
    · exact hg
    · refine hg.of_subset (hg.infos.foldl_erase _) fun n hn => ?_
      obtain ⟨place, -, hplace⟩ := List.mem_filterMap.1 hn
      exact List.mem_of_getElem? hplace
  unfold sweepGraph
  generalize g.nodes.length + 1 = fuel
  induction fuel generalizing g with
  | zero => exact hg
  | succ fuel ih =>
      unfold rounds
      simp only
      split
      · exact hround g hg
      · exact Sweep.legible_andThen (hround g hg) fun h hh => ih h hh

/-- What leaves each graph legible leaves a tree legible. -/
theorem KeepsLegible.everyGraph {visit : Surroundings → Graph → Sweep} (hvisit : KeepsLegible visit) :
    KeepsLegible (everyGraph visit) := by
  intro s g hs hg
  induction g using Graph.bodyInduction generalizing s with
  | step g ih =>
      rw [everyGraph_eq, sweepWithBodies]
      refine Sweep.legible_andThen ?_ fun h hh => hvisit s h hs hh
      have hslots : ∀ slot ∈ bodySlots g
          (g.nodes.map fun n => n.bodies.map fun body s => TensorGraph.everyGraph visit s body.2),
          ∀ inner : Surroundings, inner.Legible → (slot.2.2 inner).graph.Legible := by
        rintro ⟨place, key, treat⟩ hslot inner hinner
        obtain ⟨body, ⟨n, hn, hbody⟩, rfl⟩ := mem_bodySlots.1 hslot
        exact ih n (List.mem_of_getElem? hn) (key, body) hbody inner hinner ((hg.getElem? hn).body hbody)
      -- the host is legible after each slot
      generalize bodySlots g _ = slots at hslots
      suffices hfold : ∀ sweep : Sweep, sweep.graph.Legible →
          (slots.foldl (fun (sweep : Sweep) slot => sweep.andThen (sweepBody s slot)) sweep).graph.Legible
        from hfold _ hg
      induction slots with
      | nil => exact fun _ h => h
      | cons slot rest ihslots =>
          rw [List.forall_mem_cons] at hslots
          intro sweep hsweep
          refine ihslots hslots.2 _ (Sweep.legible_andThen hsweep fun host hhost => ?_)
          exact hhost.putBody _ _ (hslots.1 _ (hs.inside hhost.infos _ _))

namespace Pass

/-- A pass leaves a legible graph, also when it fails. -/
theorem legible_run {pass : Pass} (hpass : pass ∈ registry) (number : Nat) {g : Graph} (hg : g.Legible) :
    (pass.run .root number g).graph.Legible := by
  simp only [registry, List.mem_cons, List.not_mem_nil, or_false] at hpass
  rcases hpass with rfl | rfl | rfl
  · exact Transposes.keepsLegible.everyGraph _ _ Surroundings.legible_root hg
  · exact Identities.keepsLegible.everyGraph _ _ Surroundings.legible_root hg
  · exact DeadNodes.keepsLegible.everyGraph _ _ Surroundings.legible_root hg

/-- What passes that are known by name make of a graph, one after the other. A pass that fails leaves
the graph as its last change made it. -/
inductive Reached (g : Graph) : Graph → Prop where
  | start : Reached g g
  | run {h : Graph} {pass : Pass} (hpass : pass ∈ registry) (number : Nat) (earlier : Reached g h) :
      Reached g (pass.run .root number h).graph

theorem Reached.legible {g h : Graph} (hr : Reached g h) (hg : g.Legible) : h.Legible := by
  induction hr with
  | start => exact hg
  | run hpass number _ ih => exact legible_run hpass number ih

end Pass

end TensorGraph
