import TensorGraph.Proofs.Settling

/-!
# Transpositions at rest

That no rule fits a transposition says something of the nodes of its graph as a set: it matters
neither in which order they stand nor where. So a transposition stays at rest in every graph that
resembles its own, be it a copy, or the same nodes in another order.

## Main results

* `Transposes.treat_eq_none_iff` -- no rule fits a transposition exactly when it is at rest.
* `Transposes.Resembling.treat_eq_none` -- no rule fits a transposition in a graph that resembles
  one in which none does.
-/

namespace TensorGraph

open TensorGraph.Graph

/-- A value has a node as its only reader exactly when nothing else reads it. -/
theorem Graph.readers_eq_singleton_iff {g : Graph} (hnames : (g.nodes.map Node.name).Nodup)
    {value : String} {place : Nat} {n : Node} (hn : g.nodes[place]? = some n) :
    g.readers value = [place] ↔ ∀ m ∈ g.nodes, (value ∈ m.reads ↔ m = n) := by
  have hmem : place ∈ g.readers value ↔ value ∈ n.reads := by
    rw [mem_readers]
    exact ⟨fun ⟨m, hm, hread⟩ => Option.some.inj (hm.symm.trans hn) ▸ hread,
      fun hread => ⟨n, hn, hread⟩⟩
  constructor
  · intro h m hm
    obtain ⟨j, hj⟩ := List.getElem?_of_mem hm
    have hiff : j ∈ g.readers value ↔ j = place := by rw [h, List.mem_singleton]
    constructor
    · intro hread
      obtain rfl := hiff.1 (mem_readers.2 ⟨m, hj, hread⟩)
      exact Option.some.inj (hj.symm.trans hn)
    · rintro rfl
      exact hmem.1 (by rw [h]; exact List.mem_singleton_self _)
  · intro h
    have hnodup : (g.readers value).Nodup := List.nodup_range.filter _
    refine List.perm_singleton.1 ((List.perm_ext_iff_of_nodup hnodup (List.nodup_singleton _)).2 ?_)
    intro j
    rw [List.mem_singleton]
    constructor
    · intro hj
      obtain ⟨m, hm, hread⟩ := mem_readers.1 hj
      obtain rfl := (h m (List.mem_of_getElem? hm)).1 hread
      exact place_eq_of_name_eq hnames hm hn rfl
    · rintro rfl
      exact hmem.2 ((h n (List.mem_of_getElem? hn)).2 rfl)

/-! ## Plans -/

namespace Relocation

variable {s s' : Surroundings} {g h : Graph} {source transposed : String} {perm : List Nat}
  {policy : ConstantPolicy}

/-- Whether an answer that is nothing, or something, says so again, or at least nothing. -/
def Agree {ε α β : Type} (x : Except ε (Option α)) (y : Except ε (Option β)) : Prop :=
  (x = .ok none → y = .ok none) ∧ ∀ a, x = .ok (some a) → y = .ok none ∨ ∃ b, y = .ok (some b)

/-- Which constant can be rearranged depends on what is constant alone. -/
theorem rearrangedConstant?_agree {value : String}
    (hconstant : (h.producer? value).map Node.constant? = (g.producer? value).map Node.constant?) :
    Agree (rearrangedConstant? g perm policy value) (rearrangedConstant? h perm policy value) := by
  have hplaced {k : Graph} {n : Node} (hk : k.producer? value = some n) :
      ∃ place, k.producerPlace? value = some place := by
    rw [← Option.isSome_iff_exists, producerPlace?_isSome_iff, ← producer?_isSome_iff, hk]
    rfl
  unfold rearrangedConstant?
  cases hg : g.producer? value with
  | none =>
      rw [hg, Option.map_none, Option.map_eq_none_iff] at hconstant
      rw [hconstant]
      cases h.producerPlace? value <;> exact ⟨fun _ => rfl, fun _ _ => .inl rfl⟩
  | some n =>
      rw [hg, Option.map_some, Option.map_eq_some_iff] at hconstant
      obtain ⟨m, hh, hconstant⟩ := hconstant
      obtain ⟨place, hplace⟩ := hplaced hg
      obtain ⟨place', hplace'⟩ := hplaced hh
      rw [hh, hplace, hplace']
      simp only [hconstant]
      cases n.constant? with
      | none => exact ⟨fun _ => rfl, nofun⟩
      | some literal =>
          simp only
          split
          · cases literal.padToRank (.ofNat perm.length) with
            | error cause => exact ⟨nofun, nofun⟩
            | ok padded =>
                simp only [bind, Except.bind]
                cases padded.transpose (Permutation.invert perm) with
                | error cause => exact ⟨nofun, nofun⟩
                | ok permuted => exact ⟨nofun, fun _ _ => .inr ⟨_, rfl⟩⟩
          · exact ⟨fun _ => rfl, nofun⟩

/-- A transposition is no constant. -/
private theorem rearrangedConstant?_of_transposed {value : String} {found : String × String}
    (h : equallyTransposed? s g perm value = some found) :
    rearrangedConstant? g perm policy value = .ok none := by
  unfold equallyTransposed? at h
  unfold rearrangedConstant?
  cases hproducer : g.producer? value with
  | none => cases g.producerPlace? value <;> rfl
  | some n =>
      rw [hproducer] at h
      simp only at h
      split at h
      · rename_i hresolved
        simp only [Bool.and_eq_true, decide_eq_true_eq] at hresolved
        have hconstant : n.constant? = none := by
          simp [Node.constant?, (resolvePermutation_ok hresolved.1).1]
        cases g.producerPlace? value with
        | none => rfl
        | some place => simp [hconstant]
      · cases h

/-- An operand is answered alike where the same is constant, and no more is known to be transposed
equally. -/
theorem operand?_agree {value : String}
    (hequal : equallyTransposed? s' h perm value = none ∨
      equallyTransposed? s' h perm value = equallyTransposed? s g perm value)
    (hconstant : (h.producer? value).map Node.constant? = (g.producer? value).map Node.constant?) :
    Agree (operand? s g source transposed perm policy value)
      (operand? s' h source transposed perm policy value) := by
  unfold operand?
  split
  · exact ⟨nofun, fun _ _ => .inr ⟨_, rfl⟩⟩
  split
  · exact ⟨fun _ => rfl, nofun⟩
  have hconstant : Agree (rearrangedConstant? g perm policy value)
      (rearrangedConstant? h perm policy value) := rearrangedConstant?_agree hconstant
  cases htransposed : equallyTransposed? s g perm value with
  | some found =>
      refine ⟨nofun, fun _ _ => ?_⟩
      rcases hequal with hnone | hsame
      · rw [hnone]
        have := hconstant.1 (rearrangedConstant?_of_transposed htransposed)
        exact .inl (by rw [this]; rfl)
      · rw [hsame, htransposed]
        exact .inr ⟨_, rfl⟩
  | none =>
      rw [htransposed, or_self] at hequal
      rw [hequal]
      simp only
      cases hfound : rearrangedConstant? g perm policy value with
      | error cause => exact ⟨nofun, nofun⟩
      | ok found =>
          cases found with
          | none =>
              rw [hconstant.1 hfound]
              exact ⟨fun _ => rfl, nofun⟩
          | some operand =>
              refine ⟨nofun, fun _ _ => ?_⟩
              rcases hconstant.2 _ hfound with hnone | ⟨other, hother⟩
              · exact .inl (by rw [hnone]; rfl)
              · exact .inr ⟨_, by rw [hother]; rfl⟩

/-- Where there is no plan, there is none where the operands are answered alike, be it under other
names. -/
theorem plan_eq_none_of_agree {σ : String → String}
    (hoperand : ∀ value, Agree (operand? s g source transposed perm policy value)
      (operand? s' h source transposed perm policy (σ value))) {inputs : List String}
    (hnone : plan s g source transposed perm policy inputs = .ok none) :
    plan s' h source transposed perm policy (inputs.map σ) = .ok none := by
  induction inputs with
  | nil => cases hnone
  | cons value rest ih =>
      rw [List.map_cons, plan]
      rw [plan] at hnone
      obtain ⟨found, hfound, hnone⟩ := bind_eq_ok hnone
      cases found with
      | none =>
          rw [(hoperand value).1 hfound]
          rfl
      | some found =>
          obtain ⟨later, hlater, hnone⟩ := bind_eq_ok hnone
          have hnone : later = none := by simpa [pure, Except.pure] using hnone
          rcases (hoperand value).2 found hfound with hother | ⟨other, hother⟩
          · rw [hother]
            rfl
          · rw [hother]
            simp only [bind, Except.bind]
            rw [ih (hnone ▸ hlater)]
            rfl

end Relocation

namespace Transposes

variable {s s' : Surroundings} {g h : Graph} {t : PlacedTranspose}

/-! ## Rules that do not fit -/

theorem dropIdentity_eq_none_iff :
    dropIdentity g t = .ok none ↔ Permutation.isIdentity t.perm = false := by
  unfold dropIdentity
  split
  · rename_i hidentity
    simp only [hidentity, Bool.true_eq_false, iff_false]
    exact bind_ne_none _ fun found h => by cases h
  · rename_i hmoving
    simpa using hmoving

theorem mergeTwin_eq_none_iff (ht : g.nodes[t.place]? = some t.node)
    (hnames : (g.nodes.map Node.name).Nodup) :
    mergeTwin s g t = .ok none ↔ ∀ other ∈ g.nodes, other ≠ t.node → t.source ∈ other.reads →
      other.inputs.head? = some t.source →
      resolvePermutation s.enclosing g other (some t.perm.length) = some t.perm →
      (g.isOutput t.output && g.isOutput (other.outputs.headD "")) = true := by
  have hnone : mergeTwin s g t = .ok none ↔ twin? s g t = none := by
    unfold mergeTwin
    split
    · simp_all
    · rename_i htwin
      simp only [htwin, reduceCtorEq, iff_false]
      exact bind_ne_none _ fun next h => by cases h
  rw [hnone, twin?, List.findSome?_eq_none_iff]
  constructor
  · intro h other hmem hne hread hin hperm
    obtain ⟨place, hplace⟩ := List.getElem?_of_mem hmem
    have hother : place ≠ t.place := by
      rintro rfl
      exact hne (Option.some.inj (hplace.symm.trans ht))
    simpa [hplace, hother, hin, hperm] using h place (mem_readers.2 ⟨other, hplace, hread⟩)
  · intro h place hreader
    obtain ⟨other, hplace, hread⟩ := mem_readers.1 hreader
    simp only [hplace]
    split
    · rfl
    · rename_i hhead
      simp only [Bool.or_eq_true, decide_eq_true_eq, bne_iff_ne, not_or, not_not] at hhead
      split
      · rfl
      · rename_i hperm
        rw [bne_iff_ne, not_not] at hperm
        refine if_pos (h other (List.mem_of_getElem? hplace) ?_ hread hhead.2 hperm)
        rintro rfl
        exact hhead.1 (place_eq_of_name_eq hnames hplace ht rfl)

theorem composeSuccessor_eq_none_iff :
    composeSuccessor s g t = .ok none ↔ ∀ consumer ∈ g.nodes, t.output ∈ consumer.reads →
      consumer.inputs.head? = some t.output → ∀ next,
      resolvePermutation s.enclosing g consumer (some t.perm.length) = some next →
      next.length ≠ t.perm.length := by
  have hnone : composeSuccessor s g t = .ok none ↔ successor? s g t = none := by
    unfold composeSuccessor
    split
    · simp_all
    · rename_i hsuccessor
      simp only [hsuccessor, reduceCtorEq, iff_false]
      split
      · exact bind_ne_none _ fun found h => by cases h
      · exact fun h => by cases h
  rw [hnone, successor?, List.findSome?_eq_none_iff]
  constructor
  · intro h consumer hmem hread hin next hnext
    obtain ⟨place, hplace⟩ := List.getElem?_of_mem hmem
    simpa [hplace, hin, hnext] using h place (mem_readers.2 ⟨consumer, hplace, hread⟩)
  · intro h place hreader
    obtain ⟨consumer, hplace, hread⟩ := mem_readers.1 hreader
    simp only [hplace]
    split
    · rfl
    · rename_i hin
      rw [bne_iff_ne, not_not] at hin
      split
      · rfl
      · rename_i next hnext
        exact if_neg (h consumer (List.mem_of_getElem? hplace) hread hin next hnext)

theorem rebaseAllSizes_eq_none_iff :
    rebaseAllSizes s g t = .ok none ↔
      ∀ n ∈ g.nodes, t.output ∈ n.reads → takesSizes t n = false := by
  have hnone : rebaseAllSizes s g t = .ok none ↔
      ((g.readers t.output).filterMap fun place => (g.nodes[place]?).bind fun n =>
        if takesSizes t n then some (place, n) else none) = [] := by
    unfold rebaseAllSizes
    simp only [List.isEmpty_iff]
    split
    · rename_i hempty
      exact iff_of_true rfl hempty
    · rename_i htakers
      exact iff_of_false (fun h => by cases h) htakers
  rw [hnone, List.filterMap_eq_nil_iff]
  constructor
  · intro h n hmem hread
    obtain ⟨place, hplace⟩ := List.getElem?_of_mem hmem
    simpa [hplace] using h place (mem_readers.2 ⟨n, hplace, hread⟩)
  · intro h place hreader
    obtain ⟨n, hplace, hread⟩ := mem_readers.1 hreader
    simp [hplace, h n (List.mem_of_getElem? hplace) hread]

theorem pushDown_eq_none_iff (hnames : (g.nodes.map Node.name).Nodup) :
    pushDown s g t = .ok none ↔ g.isOutput t.output = false → ∀ consumer ∈ g.nodes,
      (∀ m ∈ g.nodes, (t.output ∈ m.reads ↔ m = consumer)) → consumer.outputs.length = 1 →
      t.output ∈ consumer.inputs → ∀ policy attributes,
      passage? consumer t.spelled = some (policy, attributes) →
      Relocation.plan s g t.source t.output t.perm policy consumer.inputs = .ok none := by
  constructor
  · intro h hinside consumer hmem honly hlength hin policy attributes hpassage
    obtain ⟨place, hplace⟩ := List.getElem?_of_mem hmem
    unfold pushDown at h
    simp only [hinside, Bool.false_eq_true, if_false, (readers_eq_singleton_iff hnames hplace).2 honly,
      hplace, hlength, ne_eq, not_true_eq_false, decide_false, Bool.false_or, Bool.not_eq_true',
      List.contains_eq_mem, hin, decide_true, Bool.true_eq_false, hpassage] at h
    obtain ⟨plan, hplan, h⟩ := bind_eq_ok h
    cases plan with
    | none => exact orStop_ok hplan
    | some plan => exact absurd h (bind_ne_none _ fun next h => by cases h)
  · intro h
    unfold pushDown
    split
    · rfl
    · rename_i hinside
      rw [Bool.not_eq_true] at hinside
      split
      · rename_i place hreaders
        cases hplace : g.nodes[place]? with
        | none => rfl
        | some consumer =>
            simp only
            split
            · rfl
            · rename_i hshape
              simp only [ne_eq, List.contains_eq_mem, Bool.or_eq_true, decide_eq_true_eq,
                Bool.not_eq_true', decide_eq_false_iff_not, not_or, not_not] at hshape
              cases hpassage : passage? consumer t.spelled with
              | none => rfl
              | some passed =>
                  obtain ⟨policy, attributes⟩ := passed
                  have hnone := h hinside consumer (List.mem_of_getElem? hplace)
                    ((readers_eq_singleton_iff hnames hplace).1 hreaders) hshape.1 hshape.2
                    policy attributes hpassage
                  simp [hnone, orStop, bind, Except.bind, pure, Except.pure]
      · rfl

/-! ## Nodes at rest -/

private theorem firstOf_eq_none_iff {rules : List (Unit → Outcome)} :
    firstOf rules = .ok none ↔ ∀ rule ∈ rules, rule () = .ok none := by
  induction rules with
  | nil => simp [firstOf]
  | cons rule rest ih =>
      rw [firstOf, List.forall_mem_cons, ← ih]
      cases hrule : rule () with
      | error stopped => simp [bind, Except.bind]
      | ok found => cases found <;> simp [bind, Except.bind, pure, Except.pure]

/-- A transposition that no rule fits. -/
structure AtRest (s : Surroundings) (g : Graph) (t : PlacedTranspose) : Prop where
  /-- It moves something. -/
  moving : Permutation.isIdentity t.perm = false
  /-- No other one does the same, unless both yield outputs of the graph. -/
  single : ∀ other ∈ g.nodes, other ≠ t.node → t.source ∈ other.reads →
    other.inputs.head? = some t.source →
    resolvePermutation s.enclosing g other (some t.perm.length) = some t.perm →
    (g.isOutput t.output && g.isOutput (other.outputs.headD "")) = true
  /-- No transposition of the same rank reads it. -/
  last : ∀ consumer ∈ g.nodes, t.output ∈ consumer.reads →
    consumer.inputs.head? = some t.output → ∀ next,
    resolvePermutation s.enclosing g consumer (some t.perm.length) = some next →
    next.length ≠ t.perm.length
  /-- Nothing takes its sizes. -/
  unsized : ∀ n ∈ g.nodes, t.output ∈ n.reads → takesSizes t n = false
  /-- There is no plan for moving it behind its only reader. -/
  stuck : g.isOutput t.output = false → ∀ consumer ∈ g.nodes,
    (∀ m ∈ g.nodes, (t.output ∈ m.reads ↔ m = consumer)) → consumer.outputs.length = 1 →
    t.output ∈ consumer.inputs → ∀ policy attributes,
    passage? consumer t.spelled = some (policy, attributes) →
    Relocation.plan s g t.source t.output t.perm policy consumer.inputs = .ok none

/-- No rule fits a node exactly when it is at rest, if it is a transposition at all. -/
theorem treat_eq_none_iff {place : Nat} {n : Node} (hn : g.nodes[place]? = some n)
    (hnames : (g.nodes.map Node.name).Nodup) :
    treat s g place n = .ok none ↔ ∀ perm, resolvePermutation s.enclosing g n none = some perm →
      n.inputs.headD "" ≠ "" → AtRest s g { place, node := n, perm } := by
  unfold treat
  cases hperm : resolvePermutation s.enclosing g n none with
  | none => simp
  | some perm =>
      simp only [Option.some.injEq, forall_eq']
      let t : PlacedTranspose := { place, node := n, perm }
      change (if t.source = "" then _ else _) = _ ↔ (t.source ≠ "" → AtRest s g t)
      split
      · rename_i hempty
        exact iff_of_true rfl fun hne => absurd hempty hne
      · rename_i hsource
        simp only [firstOf_eq_none_iff, List.forall_mem_cons, List.not_mem_nil, false_imp_iff,
          implies_true, and_true]
        rw [dropIdentity_eq_none_iff, mergeTwin_eq_none_iff hn hnames, composeSuccessor_eq_none_iff,
          rebaseAllSizes_eq_none_iff, pushDown_eq_none_iff hnames]
        exact ⟨fun ⟨hmoving, hsingle, hlast, hunsized, hstuck⟩ _ =>
          ⟨hmoving, hsingle, hlast, hunsized, hstuck⟩,
          fun h => have h := h hsource
            ⟨h.moving, h.single, h.last, h.unsized, h.stuck⟩⟩

/-! ## Graphs that resemble each other -/

/-- A graph resembles another one when its nodes are counterparts of the nodes of the other, in any
order. It may know less of the permutations, but nothing else than the other one, and what it takes
from outside may have other names, except where a transposition reads it. -/
structure Resembling (s : Surroundings) (g : Graph) (s' : Surroundings) (h : Graph)
    (f : Node → Node) (rename : String → String) : Prop where
  nodes : ∀ k, k ∈ h.nodes ↔ ∃ n ∈ g.nodes, f n = k
  yielded : ∀ value, value = "" ∨ value ∈ g.results → g.isOutput value = true →
    h.isOutput value = true
  name : ∀ n ∈ g.nodes, (f n).name = n.name
  outputs : ∀ n ∈ g.nodes, (f n).outputs = n.outputs
  inputs : ∀ n ∈ g.nodes, (f n).inputs = n.inputs.map rename
  kept : ∀ value ∈ g.results, ∀ other, rename other = value ↔ other = value
  turned : ∀ n ∈ g.nodes, n.op = "Transpose" → (f n).inputs = n.inputs
  reads : ∀ n ∈ g.nodes, ∀ value ∈ g.results, value ∈ (f n).reads ↔ value ∈ n.reads
  spelled : ∀ n ∈ g.nodes, ∀ perm, spelledPermutation (f n) perm = spelledPermutation n perm
  sizes : ∀ n ∈ g.nodes, ∀ t : PlacedTranspose, t.output ∈ g.results →
    takesSizes t (f n) = takesSizes t n
  passage : ∀ n ∈ g.nodes, ∀ perm,
    (passage? (f n) perm).map Prod.fst = (passage? n perm).map Prod.fst
  resolved : ∀ n ∈ g.nodes, resolvePermutation s'.enclosing h (f n) none = none ∨
    resolvePermutation s'.enclosing h (f n) none = resolvePermutation s.enclosing g n none
  ranked : ∀ n ∈ g.nodes, ∀ rank, resolvePermutation s'.enclosing h (f n) (some rank) =
    resolvePermutation s.enclosing g n (some rank)
  operand : ∀ source transposed perm policy value, transposed ∈ g.results →
    Relocation.Agree (Relocation.operand? s g source transposed perm policy value)
      (Relocation.operand? s' h source transposed perm policy (rename value))

namespace Resembling

variable {f : Node → Node} {rename : String → String}

private theorem mem (hr : Resembling s g s' h f rename) {n : Node} (hn : n ∈ g.nodes) :
    f n ∈ h.nodes :=
  (hr.nodes _).2 ⟨n, hn, rfl⟩

/-- A transposition in the one graph reads what its counterpart reads in the other. -/
private theorem head?_of_ranked (hr : Resembling s g s' h f rename) {n : Node} (hn : n ∈ g.nodes)
    {rank : Nat} {perm : List Nat} {value : String} (hvalue : value ≠ "")
    (hresolved : resolvePermutation s.enclosing g n (some rank) = some perm)
    (hin : (f n).inputs.head? = some value) : n.inputs.head? = some value ∧ value ∈ n.reads := by
  rw [hr.turned n hn (resolvePermutation_ok hresolved).1] at hin
  exact ⟨hin, Node.mem_reads.2 (.inl ⟨List.mem_of_mem_head? hin, hvalue⟩)⟩

/-- What is at rest in a graph is at rest in one that resembles it. -/
theorem atRest (hr : Resembling s g s' h f rename) (hnames : (g.nodes.map Node.name).Nodup)
    (ht : t.node ∈ g.nodes) (hturned : t.node.op = "Transpose") (hpresent : t.source ≠ "")
    (ha : AtRest s g t) {t' : PlacedTranspose} (hnode : t'.node = f t.node)
    (hperm : t'.perm = t.perm) : AtRest s' h t' := by
  have hsource : t'.source = t.source := by
    rw [PlacedTranspose.source, hnode, hr.turned _ ht hturned]
    rfl
  have houtput : t'.output = t.output := by rw [PlacedTranspose.output, hnode, hr.outputs _ ht]; rfl
  have hspelled : t'.spelled = t.spelled := by
    rw [PlacedTranspose.spelled, hnode, hperm, hr.spelled _ ht]
    rfl
  -- what transpositions yield is absent or a value of the graph
  have hlocal : ∀ n ∈ g.nodes, n.outputs.headD "" = "" ∨ n.outputs.headD "" ∈ g.results := by
    intro n hn
    refine or_iff_not_imp_left.2 fun hne => Graph.mem_results.2 ⟨n, hn, Node.mem_results.2 ⟨?_, hne⟩⟩
    cases houtputs : n.outputs with
    | nil => simp [houtputs] at hne
    | cons first rest => simp
  have hyields : t.output = "" ∨ t.output ∈ g.results := hlocal _ ht
  refine ⟨hperm ▸ ha.moving, fun k hk hne hread hin hsame => ?_, fun k hk hread hin next hnext => ?_,
    fun k hk hread => ?_, fun hinside k hk honly hlength hin policy attributes hpassage => ?_⟩
  all_goals
    obtain ⟨m, hm, rfl⟩ := (hr.nodes k).1 hk
  · rw [hperm, hr.ranked m hm] at hsame
    rw [hsource] at hin
    obtain ⟨hin, hread⟩ := hr.head?_of_ranked hm hpresent hsame hin
    obtain ⟨hout, hout'⟩ := Bool.and_eq_true_iff.1
      (ha.single m hm (fun e => hne (by rw [hnode, e])) hread hin hsame)
    rw [houtput, hr.outputs m hm, hr.yielded _ hyields hout, hr.yielded _ (hlocal m hm) hout']
    rfl
  · rw [houtput] at hread hin
    rw [hperm, hr.ranked m hm] at hnext
    obtain ⟨hin, hread⟩ := hr.head?_of_ranked hm (Node.ne_empty_of_mem_reads hread) hnext hin
    rw [hperm]
    exact ha.last m hm hread hin next hnext
  · rw [houtput] at hread
    have hresult := hyields.resolve_left (Node.ne_empty_of_mem_reads hread)
    rw [hr.sizes m hm t' (houtput ▸ hresult), takesSizes, houtput]
    exact ha.unsized m hm ((hr.reads m hm _ hresult).1 hread)
  · rw [houtput] at hin
    have hresult := hyields.resolve_left fun hempty => by
      have hread := (honly (f m) (hr.mem hm)).2 rfl
      exact Node.ne_empty_of_mem_reads hread (houtput.trans hempty)
    have hinside : g.isOutput t.output = false := by
      rw [← Bool.not_eq_true]
      intro hout
      rw [houtput, hr.yielded _ (.inr hresult) hout] at hinside
      cases hinside
    rw [hr.outputs m hm] at hlength
    rw [hr.inputs m hm, List.mem_map] at hin
    rw [hspelled] at hpassage
    have hin : t.output ∈ m.inputs := by
      obtain ⟨other, hother, heq⟩ := hin
      exact (hr.kept _ hresult other).1 heq ▸ hother
    have honly' : ∀ l ∈ g.nodes, (t.output ∈ l.reads ↔ l = m) := by
      intro l hl
      rw [← hr.reads l hl _ hresult, ← houtput, honly (f l) (hr.mem hl)]
      refine ⟨fun heq => List.inj_on_of_nodup_map hnames hl hm ?_, fun heq => heq ▸ rfl⟩
      rw [← hr.name l hl, heq, hr.name m hm]
    obtain ⟨⟨policy', attributes'⟩, hpassage', rfl⟩ : ∃ passed, passage? m t.spelled = some passed ∧
        passed.1 = policy := by
      have := hr.passage m hm t.spelled
      rw [hpassage, Option.map_some] at this
      exact Option.map_eq_some_iff.1 this.symm
    rw [hsource, houtput, hperm, hr.inputs m hm]
    exact Relocation.plan_eq_none_of_agree (fun value => hr.operand _ _ _ _ value hresult)
      (ha.stuck hinside m hm honly' hlength hin _ _ hpassage')

/-- No rule fits a node in a graph that resembles one in which none fits its counterpart. -/
theorem treat_eq_none (hr : Resembling s g s' h f rename) (hnames : (g.nodes.map Node.name).Nodup)
    (hnames' : (h.nodes.map Node.name).Nodup)
    (hg : ∀ place n, g.nodes[place]? = some n → treat s g place n = .ok none) {place : Nat}
    {k : Node} (hk : h.nodes[place]? = some k) : treat s' h place k = .ok none := by
  obtain ⟨n, hn, rfl⟩ := (hr.nodes k).1 (List.mem_of_getElem? hk)
  obtain ⟨place', hplace⟩ := List.getElem?_of_mem hn
  rw [treat_eq_none_iff hk hnames']
  intro perm hperm hsource
  rcases hr.resolved n hn with hnone | hsame
  · rw [hnone] at hperm
    cases hperm
  · have hresolved := hsame ▸ hperm
    have hop := (resolvePermutation_ok hresolved).1
    rw [hr.turned n hn hop] at hsource
    have hrest := (treat_eq_none_iff hplace hnames).1 (hg place' n hplace) perm hresolved hsource
    exact hr.atRest (t := { place := place', node := n, perm }) hnames hn hop hsource hrest rfl rfl

/-- A graph with the same nodes resembles another one when the same is known in both of what
transpositions read. -/
theorem of_same (hnodes : ∀ n, n ∈ h.nodes ↔ n ∈ g.nodes)
    (houtputs : h.outputs = g.outputs) (hproducer : ∀ value, h.producer? value = g.producer? value)
    (hinfo : ∀ n ∈ g.nodes, n.op = "Transpose" → ∀ value ∈ n.inputs,
      h.info? s'.enclosing value = g.info? s.enclosing value) :
    Resembling s g s' h id id := by
  have hrank (n : Node) (hn : n ∈ g.nodes) (hop : n.op = "Transpose")
      (hin : n.inputs = [n.inputs.headD ""]) :
      rank? s'.enclosing h (n.inputs.headD "") = rank? s.enclosing g (n.inputs.headD "") := by
    rw [rank?, hinfo n hn hop _ (by rw [hin]; exact List.mem_singleton_self _), rank?]
  have hresolved (n : Node) (hn : n ∈ g.nodes) (rank : Option Nat) :
      resolvePermutation s'.enclosing h n rank = resolvePermutation s.enclosing g n rank := by
    unfold resolvePermutation
    split
    · rename_i hshape
      simp only [Bool.and_eq_true, decide_eq_true_eq] at hshape
      obtain ⟨value, hvalue⟩ := List.length_eq_one_iff.1 hshape.1.2
      rw [hrank n hn hshape.1.1 (by rw [hvalue]; rfl)]
    · rfl
  have hequal (perm : List Nat) (value : String) :
      Relocation.equallyTransposed? s' h perm value =
        Relocation.equallyTransposed? s g perm value := by
    unfold Relocation.equallyTransposed?
    rw [hproducer]
    cases hn : g.producer? value with
    | none => rfl
    | some n =>
        have hmem := (producer?_eq_some hn).1
        simp only [hresolved n hmem]
        by_cases hperm : resolvePermutation s.enclosing g n none = some perm
        · obtain ⟨hop, hin, -⟩ := resolvePermutation_ok hperm
          rw [hrank n hmem hop hin]
        · simp [hperm]
  exact
    { nodes := fun k => by simp [hnodes]
      yielded := fun value _ hout => by rwa [isOutput, houtputs]
      name := fun _ _ => rfl
      outputs := fun _ _ => rfl
      inputs := fun n _ => (List.map_id n.inputs).symm
      kept := fun _ _ _ => .rfl
      turned := fun _ _ _ => rfl
      reads := fun _ _ _ _ => .rfl
      spelled := fun _ _ _ => rfl
      sizes := fun _ _ _ _ => rfl
      passage := fun _ _ _ => rfl
      resolved := fun n hn => .inr (hresolved n hn none)
      ranked := fun n hn rank => hresolved n hn (some rank)
      operand := fun _ _ perm _ value _ => Relocation.operand?_agree (.inr (hequal perm value))
        (congrArg (Option.map Node.constant?) (hproducer value)) }

end Resembling

end Transposes

end TensorGraph
