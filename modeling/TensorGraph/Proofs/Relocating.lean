import TensorGraph.Proofs.GatheredSizes

/-!
# Relocated transpositions

A transposition that moves behind an operator does so in five steps: constants are rearranged,
the operator is rebuilt on other operands, the transposition goes, so do others that nothing
needs any more, and at last the operator takes over the name of the transposed value while the
transposition comes back behind it.

## Main results

* `Relocation.plan_ok` -- what the operands of a plan are for.
* `Relocation.apply_ok` -- the five steps of a relocation.
-/

namespace TensorGraph

namespace Relocation

/-! ## Plans -/

section Plans

variable {s : Surroundings} {g : Graph} {source transposed : String} {perm : List Nat}
  {policy : ConstantPolicy}

/-- What the operand in the place of an input is for. -/
inductive Planned (s : Surroundings) (g : Graph) (source transposed : String) (perm : List Nat)
    (policy : ConstantPolicy) : String → Operand → Prop
  /-- The transposed value itself. -/
  | moved : Planned s g source transposed perm policy transposed (.value source)
  /-- A value that is transposed in the same way. -/
  | sibling {input inner : String} {n : Node} (other : input ≠ transposed) (present : input ≠ "")
      (producer : g.producer? input = some n)
      (resolved : resolvePermutation s.enclosing g n none = some perm)
      (rank : rank? s.enclosing g inner = none ∨ rank? s.enclosing g inner = some perm.length)
      (inputs : n.inputs = [inner]) :
      Planned s g source transposed perm policy input (.value inner)
  /-- A constant that is rearranged. -/
  | constant {input : String} {place : Nat} {n : Node} {literal padded permuted : Literal}
      (other : input ≠ transposed) (present : input ≠ "")
      (place_eq : g.producerPlace? input = some place) (producer : g.producer? input = some n)
      (constant : n.constant? = some literal) (fits : policy.fits literal.dims.length perm = true)
      (padded_eq : literal.padToRank (.ofNat perm.length) = .ok padded)
      (permuted_eq : padded.transpose (Permutation.invert perm) = .ok permuted) :
      Planned s g source transposed perm policy input (.constant input place n permuted)

theorem equallyTransposed?_eq_some {value inner name : String}
    (h : equallyTransposed? s g perm value = some (inner, name)) :
    ∃ n, g.producer? value = some n ∧ n.name = name ∧ n.inputs = [inner] ∧
      resolvePermutation s.enclosing g n none = some perm ∧
      (rank? s.enclosing g inner = none ∨ rank? s.enclosing g inner = some perm.length) := by
  unfold equallyTransposed? at h
  split at h
  · cases h
  · rename_i n hn
    simp only at h
    split at h
    · rename_i hperm
      cases h
      simp only [Bool.and_eq_true, decide_eq_true_eq, Bool.or_eq_true] at hperm
      exact ⟨n, hn, rfl, (resolvePermutation_ok hperm.1).2.1, hperm⟩
    · cases h

theorem rearrangedConstant?_ok {value : String} {operand : Operand}
    (other : value ≠ transposed) (present : value ≠ "")
    (h : rearrangedConstant? g perm policy value = .ok (some operand)) :
    Planned s g source transposed perm policy value operand := by
  unfold rearrangedConstant? at h
  split at h
  · rename_i place n hplace hproducer
    split at h
    · cases h
    · rename_i literal hliteral
      split at h
      · rename_i hfits
        obtain ⟨padded, hpadded, h⟩ := bind_eq_ok h
        obtain ⟨permuted, hpermuted, h⟩ := bind_eq_ok h
        cases h
        exact .constant other present hplace hproducer hliteral hfits hpadded hpermuted
      · cases h
  · cases h

/-- The names of transposing nodes. -/
def Transposing (g : Graph) (name : String) : Prop :=
  ∃ n ∈ g.nodes, n.name = name ∧ n.op = "Transpose"

theorem operand?_ok {value : String} {operand : Operand} {absorbed : List String}
    (h : operand? s g source transposed perm policy value = .ok (some (operand, absorbed))) :
    Planned s g source transposed perm policy value operand ∧
      ∀ name ∈ absorbed, Transposing g name := by
  unfold operand? at h
  split at h
  · rename_i hvalue
    cases h
    exact ⟨hvalue ▸ .moved, by simp⟩
  · rename_i other
    split at h
    · cases h
    · rename_i present
      split at h
      · rename_i inner name hsibling
        cases h
        obtain ⟨n, hproducer, hname, hinputs, hresolved, hrank⟩ := equallyTransposed?_eq_some hsibling
        refine ⟨.sibling other present hproducer hresolved hrank hinputs, ?_⟩
        intro other hother
        obtain rfl := List.mem_singleton.1 hother
        exact ⟨n, List.mem_of_find?_eq_some hproducer, hname, (resolvePermutation_ok hresolved).1⟩
      · cases hconstant : rearrangedConstant? g perm policy value with
        | error cause => simp [hconstant, Except.map] at h
        | ok found =>
            rw [hconstant] at h
            cases found with
            | none => cases h
            | some found =>
                cases h
                exact ⟨rearrangedConstant?_ok other present hconstant, by simp⟩

/-- What the operands of a plan are for. -/
theorem plan_ok {inputs : List String} {p : Plan}
    (h : plan s g source transposed perm policy inputs = .ok (some p)) :
    List.Forall₂ (Planned s g source transposed perm policy) inputs p.operands ∧
      ∀ name ∈ p.absorbed, Transposing g name := by
  induction inputs generalizing p with
  | nil =>
      cases h
      exact ⟨.nil, by simp⟩
  | cons value rest ih =>
      rw [plan] at h
      obtain ⟨found, hfound, h⟩ := bind_eq_ok h
      cases found with
      | none => cases h
      | some found =>
          obtain ⟨operand, absorbed⟩ := found
          obtain ⟨later?, hlater, h⟩ := bind_eq_ok h
          cases later? with
          | none => cases h
          | some later =>
              cases h
              obtain ⟨hoperand, habsorbed⟩ := operand?_ok hfound
              obtain ⟨hoperands, hlaterAbsorbed⟩ := ih hlater
              refine ⟨.cons hoperand hoperands, fun name hname => ?_⟩
              exact (List.mem_append.1 hname).elim (habsorbed name) (hlaterAbsorbed name)

end Plans

/-! ## Rearranged constants -/

/-- A constant with other entries. -/
def refilled (n : Node) (permuted : Literal) : Node :=
  { n with
    attributes := Attributes.set n.attributes "value" (.literal permuted)
    bookmarks := [] }

/-- The entry of a value that yields a literal. -/
def literalInfo (name : String) (value : Literal) : ValueInfo :=
  { name, dtype := some value.dtype, shape := some (value.dims.map some) }

/-- How a rearranged constant gets into a graph: as a new node under a new name, or in the place
of the constant if that has one reader at the most. -/
inductive ConstantPut (s : Surroundings) (g : Graph) (name : String) (place : Nat) (n : Node)
    (permuted : Literal) : String → Graph → Prop
  | copied {target : String} (new : target ∉ s.reserved ∧ target ∉ g.names) (named : target ≠ "") :
      ConstantPut s g name place n permuted target
        ((g.addNode (Node.constant target target permuted)).setInfo (literalInfo target permuted))
  | changed (alone : (g.readers name).length ≤ 1) (inside : g.isOutput name = false) :
      ConstantPut s g name place n permuted name
        ((g.putNode place (refilled n permuted)).setInfo (literalInfo name permuted))

/-- Whether an operand is a constant of a graph, which a node at a place yields. -/
structure IsConstant (g : Graph) (name : String) (place : Nat) (n : Node) : Prop where
  node : g.nodes[place]? = some n
  constant : ∃ literal, n.constant? = some literal
  outputs : n.outputs = [name]

theorem constant?_eq_some {n : Node} {literal : Literal} (h : n.constant? = some literal) :
    n.op = "Constant" ∧ n.inputs = [] ∧ n.outputs = [n.outputs.headD ""] ∧
      n.attribute? "value" = some (.literal literal) := by
  unfold Node.constant? at h
  split at h
  · rename_i hshape
    simp only [Bool.and_eq_true, decide_eq_true_eq, List.isEmpty_iff] at hshape
    obtain ⟨x, hx⟩ := List.length_eq_one_iff.1 hshape.2
    refine ⟨hshape.1.1, hshape.1.2, by simp [hx], ?_⟩
    unfold Node.literal? at h
    split at h
    · rename_i heq
      rw [heq, Option.some.inj h]
    · cases h
  · cases h

namespace IsConstant

variable {g : Graph} {name : String} {place : Nat} {n : Node}

theorem mem (h : IsConstant g name place n) : n ∈ g.nodes := List.mem_of_getElem? h.node

theorem op (h : IsConstant g name place n) : n.op = "Constant" := by
  obtain ⟨literal, hliteral⟩ := h.constant
  exact (constant?_eq_some hliteral).1

theorem inputs (h : IsConstant g name place n) : n.inputs = [] := by
  obtain ⟨literal, hliteral⟩ := h.constant
  exact (constant?_eq_some hliteral).2.1

end IsConstant

/-- How the constants among operands get into a graph, one after the other. -/
inductive Placing (s : Surroundings) : List Operand → Graph → List (String × String) → Graph →
    List (String × String) → Prop
  | done {g : Graph} {placed : List (String × String)} : Placing s [] g placed g placed
  | value {name : String} {rest : List Operand} {g h : Graph}
      {placed later : List (String × String)} (next : Placing s rest g placed h later) :
      Placing s (.value name :: rest) g placed h later
  | again {name : String} {place : Nat} {n : Node} {permuted : Literal} {rest : List Operand}
      {g h : Graph} {placed later : List (String × String)}
      (known : (placed.lookup name).isSome = true) (next : Placing s rest g placed h later) :
      Placing s (.constant name place n permuted :: rest) g placed h later
  | put {name target : String} {place : Nat} {n : Node} {permuted : Literal} {rest : List Operand}
      {g between h : Graph} {placed later : List (String × String)}
      (unknown : placed.lookup name = none) (constant : IsConstant g name place n)
      (step : ConstantPut s g name place n permuted target between)
      (next : Placing s rest between (placed ++ [(name, target)]) h later) :
      Placing s (.constant name place n permuted :: rest) g placed h later

section Placing

variable {s : Surroundings} {g h : Graph} {operands : List Operand}
  {placed later : List (String × String)}

theorem lookup_append_singleton {name other target : String} :
    (placed ++ [(name, target)]).lookup other =
      (placed.lookup other).or (if other = name then some target else none) := by
  rw [List.lookup_append]
  congr 1
  rw [List.lookup_cons]
  by_cases h : other = name
  · simp [h]
  · rw [beq_false_of_ne h, if_neg h]
    rfl

/-- A constant that is yet to be placed stays where it is. -/
private theorem isConstant_put {name other target : String} {place otherPlace : Nat}
    {n m : Node} {permuted : Literal} (hn : IsConstant g name place n)
    (hm : IsConstant g other otherPlace m) (hne : other ≠ name)
    (hput : ConstantPut s g name place n permuted target h) : IsConstant h other otherPlace m := by
  refine ⟨?_, hm.constant, hm.outputs⟩
  cases hput with
  | copied =>
      obtain ⟨hlt, -⟩ := List.getElem?_eq_some_iff.1 hm.node
      exact (List.getElem?_append_left hlt).trans hm.node
  | changed =>
      refine (List.getElem?_set_ne fun e => hne ?_).trans hm.node
      obtain rfl : n = m := Option.some.inj (hn.node.symm.trans (e ▸ hm.node))
      exact List.singleton_inj.1 (hm.outputs.symm.trans hn.outputs)

theorem placeConstants_placing (s : Surroundings) (operands : List Operand) (g : Graph)
    (placed : List (String × String))
    (hoperands : ∀ name place n permuted, .constant name place n permuted ∈ operands →
      placed.lookup name = none → IsConstant g name place n) :
    Placing s operands g placed (placeConstants s operands g placed).1
      (placeConstants s operands g placed).2 := by
  induction operands generalizing g placed with
  | nil => exact .done
  | cons operand rest ih =>
      cases operand with
      | value name =>
          exact .value (ih g placed fun name place n permuted hmem =>
            hoperands name place n permuted (List.mem_cons_of_mem _ hmem))
      | constant name place n permuted =>
          rw [placeConstants]
          split
          · rename_i hknown
            exact .again hknown (ih g placed fun name place n permuted hmem =>
              hoperands name place n permuted (List.mem_cons_of_mem _ hmem))
          · rename_i hunknown
            have hnone : placed.lookup name = none := by
              rwa [Option.not_isSome_iff_eq_none] at hunknown
            have hn := hoperands name place n permuted (by simp) hnone
            have hlater (target : String) (between : Graph)
                (hput : ConstantPut s g name place n permuted target between) :
                Placing s rest between (placed ++ [(name, target)])
                  (placeConstants s rest between (placed ++ [(name, target)])).1
                  (placeConstants s rest between (placed ++ [(name, target)])).2 := by
              refine ih between _ fun other otherPlace m literal hmem hfree => ?_
              rw [lookup_append_singleton, Option.or_eq_none_iff] at hfree
              have hne : other ≠ name := fun e => by simp [e] at hfree
              exact isConstant_put hn
                (hoperands other otherPlace m literal (List.mem_cons_of_mem _ hmem) hfree.1) hne hput
            simp only
            split
            · have hput : ConstantPut s g name place n permuted
                  (s.fresh g (name ++ "_permuted")) _ := .copied (s.fresh_not_mem g _)
                (s.fresh_ne_empty g fun e => absurd (String.append_eq_empty_iff.1 e).2 (by decide))
              exact .put hnone hn hput (hlater _ _ hput)
            · rename_i hshared
              rw [Bool.not_eq_true, Bool.or_eq_false_iff] at hshared
              have hput : ConstantPut s g name place n permuted name _ :=
                .changed (by simpa using hshared.1) hshared.2
              exact .put hnone hn hput (hlater _ _ hput)

end Placing

/-! ## Nodes that are no longer needed -/

/-- How nodes that nothing needs any more go, while a place moves along. -/
inductive Absorbing : List String → Graph → Option Nat → Graph → Option Nat → Prop
  | done {g : Graph} {place : Option Nat} : Absorbing [] g place g place
  | keep {name : String} {rest : List String} {g h : Graph} {place later : Option Nat}
      (next : Absorbing rest g place h later) : Absorbing (name :: rest) g place h later
  | drop {name : String} {rest : List String} {g smaller h : Graph} {found : Nat}
      {place later : Option Nat} (found_eq : g.place? name = some found)
      (removed : g.removeUnreferenced? found = some smaller)
      (next : Absorbing rest smaller (place.bind (placeAfterDropping found)) h later) :
      Absorbing (name :: rest) g place h later

theorem removeAbsorbed_absorbing (names : List String) (g : Graph) (place : Option Nat) :
    Absorbing names g place (removeAbsorbed names g place).1 (removeAbsorbed names g place).2 := by
  induction names generalizing g place with
  | nil => exact .done
  | cons name rest ih =>
      unfold removeAbsorbed
      split
      · exact .keep (ih g place)
      · rename_i found hfound
        split
        · exact .keep (ih g place)
        · rename_i smaller hsmaller
          exact .drop hfound hsmaller (ih smaller _)

theorem getElem?_placeAfterDropping {α : Type} {l : List α} {dropped place later : Nat}
    (h : placeAfterDropping dropped place = some later) :
    (l.eraseIdx dropped)[later]? = l[place]? := by
  unfold placeAfterDropping at h
  split at h
  · cases h
  · rename_i hne
    cases h
    rw [List.getElem?_eraseIdx]
    split
    · rename_i hlt
      rw [if_neg (by omega)]
      congr 1
      omega
    · rename_i hlt
      rw [if_pos (by omega)]

theorem placeAfterDropping_eq_none_iff {dropped place : Nat} :
    placeAfterDropping dropped place = none ↔ dropped = place := by
  unfold placeAfterDropping
  split <;> simp [*]

theorem place?_eq_some {g : Graph} {name : String} {place : Nat} (h : g.place? name = some place) :
    ∃ n, g.nodes[place]? = some n ∧ n.name = name := by
  obtain ⟨hlt, hname, -⟩ := List.findIdx?_eq_some_iff_getElem.1 h
  exact ⟨_, List.getElem?_eq_getElem hlt, by simpa using hname⟩

namespace Absorbing

variable {names : List String} {g h : Graph} {place later : Option Nat}

/-- The place still has its node, unless that was one of those that may go. -/
theorem node {n : Node} (ha : Absorbing names g place h later) (hplace : place.isSome = true)
    (hn : place.bind (fun i => g.nodes[i]?) = some n) (hname : n.name ∉ names) :
    later.isSome = true ∧ later.bind (fun i => h.nodes[i]?) = some n := by
  induction ha with
  | done => exact ⟨hplace, hn⟩
  | keep _ ih => exact ih hplace hn fun hmem => hname (List.mem_cons_of_mem _ hmem)
  | @drop name rest g smaller h found place later hfound hremoved _ ih =>
      obtain ⟨i, rfl⟩ := Option.isSome_iff_exists.1 hplace
      obtain ⟨m, hm, hmname⟩ := place?_eq_some hfound
      obtain ⟨_, -, -, rfl⟩ := Graph.removeUnreferenced?_eq_some hremoved
      have hne : found ≠ i := by
        rintro rfl
        obtain rfl : m = n := Option.some.inj (hm.symm.trans hn)
        exact hname (by simp [hmname])
      obtain ⟨j, hj⟩ := Option.ne_none_iff_exists'.1
        fun h => hne (placeAfterDropping_eq_none_iff.1 h)
      refine ih (by simp [hj]) ?_ fun hmem => hname (List.mem_cons_of_mem _ hmem)
      rw [Option.bind_some, hj, Option.bind_some]
      exact (getElem?_placeAfterDropping hj).trans hn

end Absorbing

/-! ## The five steps -/

/-- The operator on operands from before the transposition. -/
def rebuiltNode (consumer : Node) (attributes : List (String × Attribute)) (operands : List Operand)
    (placed : List (String × String)) : Node :=
  { consumer with inputs := operands.map (Operand.inputName placed), attributes, bookmarks := [] }

/-- The transposition behind the operator. -/
def behindNode (transpose : Node) (perm : List Nat) (transposed yielded : String) : Node :=
  { transpose with
    inputs := [transposed], outputs := [yielded]
    attributes :=
      Attributes.set transpose.attributes "perm" (.numbers (spelledPermutation transpose perm))
    bookmarks := [] }

/-- What is known of values when the transposition has come behind the operator, which is by
then in the graph `moved`. -/
def infosBehind (perm : List Nat) (transposed : String) (yieldedInfo : Option ValueInfo)
    (moved : Graph) : InfoTable :=
  match yieldedInfo with
  | some info =>
      moved.infos.set
        { name := transposed, dtype := info.dtype
          shape := info.shape.bind fun dims =>
            if dims.length = perm.length then
              some (Permutation.arrange dims (Permutation.invert perm))
            else none }
  | none => (moved.eraseInfo transposed).infos

/-- The graph with an operator under the name of the transposed value, and the transposition
behind it. -/
def swapped (cleaned : Graph) (rebuiltPlace : Nat) (rebuilt behind : Node) (transposed : String) :
    Graph :=
  (cleaned.putNode rebuiltPlace { rebuilt with outputs := [transposed] }).addNode behind

/-- The graphs between the steps of a relocation. -/
structure Moved (s : Surroundings) (g : Graph) (place : Nat) (transpose : Node)
    (consumerPlace : Nat) (consumer : Node) (perm : List Nat)
    (attributes : List (String × Attribute)) (p : Plan) (arranged detached cleaned : Graph)
    (placed : List (String × String)) (rebuiltPlace : Nat) (moved : Graph) : Prop where
  arrange : Placing s p.operands g [] arranged placed
  detach : (arranged.putNode consumerPlace
    (rebuiltNode consumer attributes p.operands placed)).removeUnreferenced? place = some detached
  absorb : Absorbing p.absorbed detached (placeAfterDropping place consumerPlace) cleaned
    (some rebuiltPlace)
  swap : moved = swapped cleaned rebuiltPlace
    (rebuiltNode consumer attributes p.operands placed)
    (behindNode transpose perm (transpose.outputs.headD "") (consumer.outputs.headD ""))
    (transpose.outputs.headD "")

theorem eraseInfo_eq (g : Graph) (name : String) :
    g.eraseInfo name = { g with infos := (g.eraseInfo name).infos } := by
  unfold Graph.eraseInfo
  cases g
  split <;> rfl

theorem apply_ok {s : Surroundings} {g h : Graph} {place consumerPlace : Nat}
    {transpose consumer : Node} {perm : List Nat} {attributes : List (String × Attribute)} {p : Plan}
    (hconstants : ∀ name place n permuted, .constant name place n permuted ∈ p.operands →
      IsConstant g name place n)
    (ha : apply s g place transpose consumerPlace consumer perm attributes p = .ok h) :
    ∃ arranged detached cleaned placed rebuiltPlace moved,
      Moved s g place transpose consumerPlace consumer perm attributes p arranged detached cleaned
        placed rebuiltPlace moved ∧
      h = { moved with
        infos := infosBehind perm (transpose.outputs.headD "")
          (g.info? s.enclosing (consumer.outputs.headD "")) moved } := by
  have hplacing := placeConstants_placing s p.operands g []
    fun name place n permuted hmem _ => hconstants name place n permuted hmem
  unfold apply at ha
  simp only at ha
  obtain ⟨detached, hdetached, ha⟩ := bind_eq_ok ha
  obtain ⟨rewired, hrewired, ha⟩ := bind_eq_ok ha
  have hrewired := Graph.orStop_ok hrewired
  have habsorbing := removeAbsorbed_absorbing p.absorbed detached
    (placeAfterDropping place consumerPlace)
  unfold Graph.replaceNode Graph.placeOf at hrewired
  cases hplace : (removeAbsorbed p.absorbed detached (placeAfterDropping place consumerPlace)).2 with
  | none => simp [hplace, Except.map] at hrewired
  | some rebuiltPlace =>
      rw [hplace] at habsorbing
      simp only [hplace, Except.map, Except.ok.injEq] at hrewired
      subst hrewired
      refine ⟨_, _, _, _, rebuiltPlace, _,
        ⟨hplacing, Graph.removeDisconnected_ok hdetached, habsorbing, rfl⟩, ?_⟩
      unfold infosBehind
      cases hinfo : g.info? s.enclosing (consumer.outputs.headD "") with
      | some info =>
          rw [hinfo] at ha
          exact (Except.ok.inj ha).symm
      | none =>
          rw [hinfo] at ha
          exact (Except.ok.inj ha).symm.trans (eraseInfo_eq _ _)

end Relocation

end TensorGraph
