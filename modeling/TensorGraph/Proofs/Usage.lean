import TensorGraph.Proofs.Bodies

/-!
# How nodes are used

What a node computes is told by its operator, by which of its operands are absent, by how many values
it yields and by its attributes. It does not matter how the operands are called, nor that names change
inside of bodies. Two nodes that agree in this are in the same use, but for the axes that an operator
works along, which may be others when a transposition has moved behind it.

## Main results

* `Node.sameUse_replaceReads` -- reading a present value instead of another one keeps the use.
* `Transposes.keepsEntry_of_passage?` -- only axes change when an operator lets a transposition through.
-/

namespace TensorGraph

open TensorGraph.Graph

/-! ## Attributes that stay -/

namespace Attribute

/-- Whether an attribute is what another one was, or both hold bodies. -/
def Stays : Attribute → Attribute → Prop
  | .body _, .body _ => True
  | old, new => new = old

/-- Whether both attributes are numbers, or lists of as many numbers. -/
def Remaps : Attribute → Attribute → Prop
  | .number _, .number _ => True
  | .numbers old, .numbers new => new.length = old.length
  | _, _ => False

variable {old between new : Attribute}

theorem Stays.refl (value : Attribute) : value.Stays value := by
  cases value <;> trivial

theorem stays_mapBody (f : Graph → Graph) (value : Attribute) : value.Stays (value.mapBody f) := by
  cases value <;> trivial

theorem Stays.trans (h₁ : old.Stays between) (h₂ : between.Stays new) : old.Stays new := by
  cases old <;> cases between <;> cases new <;> simp_all [Stays]

theorem Stays.remaps (h₁ : old.Stays between) (h₂ : between.Remaps new) : old.Remaps new := by
  cases old <;> cases between <;> cases new <;> simp_all [Stays, Remaps]

theorem Remaps.stays (h₁ : old.Remaps between) (h₂ : between.Stays new) : old.Remaps new := by
  cases old <;> cases between <;> cases new <;> simp_all [Stays, Remaps]

theorem Remaps.trans (h₁ : old.Remaps between) (h₂ : between.Remaps new) : old.Remaps new := by
  cases old <;> cases between <;> cases new <;> simp_all [Remaps]

end Attribute

/-- Whether an attribute of an operator names the axes that the operator works along. -/
def NamesAxes (op key : String) : Prop :=
  op = "Concat" ∧ key = "axis" ∨ op ∈ Capability.reduceOps ∧ key = "axes"

/-- Whether an attribute of an operator stays under its key, unless it names axes, which may be
others. -/
structure KeepsEntry (op : String) (old new : String × Attribute) : Prop where
  key : new.1 = old.1
  value : old.2.Stays new.2 ∨ NamesAxes op old.1 ∧ old.2.Remaps new.2

namespace KeepsEntry

variable {op : String} {old between new : String × Attribute}

theorem refl (op : String) (entry : String × Attribute) : KeepsEntry op entry entry :=
  ⟨rfl, .inl (.refl entry.2)⟩

theorem trans (h₁ : KeepsEntry op old between) (h₂ : KeepsEntry op between new) :
    KeepsEntry op old new := by
  refine ⟨h₂.key.trans h₁.key, ?_⟩
  have haxes := h₁.key ▸ h₂.value
  rcases h₁.value with hstays | ⟨hnames, hremaps⟩
  · exact haxes.imp hstays.trans fun h => ⟨h.1, hstays.remaps h.2⟩
  · exact .inr ⟨hnames, haxes.elim hremaps.stays fun h => hremaps.trans h.2⟩

end KeepsEntry

/-! ## Nodes in use -/

namespace Node

/-- Whether a node is what another one was but for the names of its operands: it has as many inputs and
outputs, the same inputs are absent, and its attributes stay. -/
structure SameUse (n m : Node) : Prop where
  name : m.name = n.name
  op : m.op = n.op
  absent : m.inputs.map (· == "") = n.inputs.map (· == "")
  outputs : m.outputs.length = n.outputs.length
  attributes : List.Forall₂ (KeepsEntry n.op) n.attributes m.attributes

namespace SameUse

variable {n m k : Node}

theorem refl (n : Node) : n.SameUse n :=
  ⟨rfl, rfl, rfl, rfl, List.forall₂_same.2 fun entry _ => .refl n.op entry⟩

theorem trans (h₁ : n.SameUse m) (h₂ : m.SameUse k) : n.SameUse k where
  name := h₂.name.trans h₁.name
  op := h₂.op.trans h₁.op
  absent := h₂.absent.trans h₁.absent
  outputs := h₂.outputs.trans h₁.outputs
  attributes := by
    have hsecond := h₁.op ▸ h₂.attributes
    have hfirst := h₁.attributes
    clear h₁ h₂
    generalize n.attributes = old at *
    generalize m.attributes = between at *
    generalize k.attributes = new at *
    induction hfirst generalizing new with
    | nil =>
        cases hsecond
        exact .nil
    | cons hentry _ ih =>
        cases hsecond with
        | cons hentry' hrest => exact .cons (hentry.trans hentry') (ih _ hrest)

/-- Whether all that a node takes in is absent does not depend on the names of its operands. -/
theorem inputs_eq_iff (h : n.SameUse m) : m.inputs = [""] ↔ n.inputs = [""] := by
  have hblank : ∀ names : List String, names = [""] ↔ names.map (· == "") = [true] := by
    intro names
    cases names with
    | nil => simp
    | cons name rest => simp
  rw [hblank, h.absent, hblank]

end SameUse

theorem beq_substituteName {old new : String} (hold : old ≠ "") (hnew : new ≠ "") (name : String) :
    (substituteName old new name == "") = (name == "") := by
  rw [substituteName_eq]
  split
  · rename_i h
    rw [h, beq_false_of_ne hold, beq_false_of_ne hnew]
  · rfl

/-- A node that reads a present value instead of another one is used as before. -/
theorem sameUse_replaceReads {new : String} (hnew : new ≠ "") (old : String) (n : Node) :
    n.SameUse (n.replaceReads old new) := by
  by_cases hread : old ∈ n.reads
  · rw [replaceReads_of_mem hread]
    refine ⟨rfl, rfl, ?_, rfl, List.forall₂_map_right_iff.2 (List.forall₂_same.2 fun entry _ => ?_)⟩
    · rw [List.map_map]
      exact List.map_congr_left fun name _ =>
        beq_substituteName (ne_empty_of_mem_reads hread) hnew name
    · exact ⟨rfl, .inl (Attribute.stays_mapBody _ entry.2)⟩
  · rw [replaceReads_of_not_mem new hread]
    exact .refl n

theorem sameUse_renamed (old new : String) (n : Node) : n.SameUse (n.renamed old new) where
  name := name_renamed
  op := op_renamed
  absent := congrArg _ inputs_renamed
  outputs := by
    unfold renamed
    split
    · exact List.length_map _
    · rfl
  attributes := by
    rw [attributes_renamed]
    exact (SameUse.refl n).attributes

theorem sameUse_rebodied {n : Node} {key : String} {old : Graph} (hn : n.Keyed)
    (hold : (key, old) ∈ n.bodies) (new : Graph) : n.SameUse (n.rebodied key new) := by
  refine ⟨rfl, rfl, rfl, rfl, List.forall₂_map_right_iff.2 (List.forall₂_same.2 fun entry hentry => ?_)⟩
  by_cases hkey : entry.1 = key
  · obtain rfl : entry = (key, .body old) :=
      List.inj_on_of_nodup_map hn hentry (mem_bodies.1 hold) hkey
    exact ⟨by simp, .inl (by simp [Attribute.Stays])⟩
  · simpa [hkey] using KeepsEntry.refl n.op entry

end Node

/-! ## Operators that let a transposition through -/

namespace Capability

theorem mem_table {op : String} {capability : Capability} (h : ofOp op = capability)
    (hbarrier : capability ≠ .barrier) : (op, capability) ∈ table := by
  unfold ofOp at h
  cases hlookup : table.lookup op with
  | none =>
      rw [hlookup] at h
      exact absurd h.symm hbarrier
  | some found =>
      obtain ⟨before, after, hsplit, -⟩ := List.lookup_eq_some_iff.1 hlookup
      rw [hlookup] at h
      obtain rfl : found = capability := h
      simp [hsplit]

theorem eq_shape_of_ofOp {op : String} (h : ofOp op = .shape) : op = "Shape" := by
  have htable : ∀ entry ∈ table, entry.2 = .shape → entry.1 = "Shape" := by decide
  exact htable _ (mem_table h (by decide)) rfl

/-- Only joining and reducing operators work along axes. -/
theorem of_ofOp_axes {op : String} {rule : AxisRule} (h : ofOp op = .axes rule) :
    op = "Concat" ∧ rule = joinRule ∨ op ∈ reduceOps ∧ rule = reduceRule := by
  have htable : ∀ entry ∈ table, entry.2 = .axes joinRule ∧ entry.1 = "Concat" ∨
      entry.2 = .axes reduceRule ∧ entry.1 ∈ reduceOps ∨ entry.2 = .unary ∨ entry.2 = .broadcast ∨
        entry.2 = .shape := by decide
  rcases htable _ (mem_table h (by simp)) with ⟨hrule, hop⟩ | ⟨hrule, hop⟩ | hother | hother | hother
  · exact .inl ⟨hop, by simpa using hrule⟩
  · exact .inr ⟨hop, by simpa using hrule⟩
  all_goals cases hother

end Capability

/-- An attribute that is set where there was one that names axes keeps the entries. -/
theorem keepsEntry_set {op key : String} {attributes : List (String × Attribute)}
    {old new : Attribute} (hkeyed : (attributes.map Prod.fst).Nodup)
    (hold : attributes.lookup key = some old) (hnames : NamesAxes op key) (hremaps : old.Remaps new) :
    List.Forall₂ (KeepsEntry op) attributes (Attributes.set attributes key new) := by
  obtain ⟨before, after, hsplit, -⟩ := List.lookup_eq_some_iff.1 hold
  have hmem : (key, old) ∈ attributes := by simp [hsplit]
  unfold Attributes.set
  rw [if_pos (List.any_eq_true.2 ⟨_, hmem, by simp⟩), List.forall₂_map_right_iff]
  refine List.forall₂_same.2 fun entry hentry => ?_
  by_cases hkey : entry.1 = key
  · obtain rfl : entry = (key, old) := List.inj_on_of_nodup_map hkeyed hentry hmem hkey
    exact ⟨by simp, .inr ⟨hnames, by simpa using hremaps⟩⟩
  · simpa [hkey] using KeepsEntry.refl op entry

/-- The attributes of an operator that lets a transposition through are as before, but for axes. -/
theorem Transposes.keepsEntry_of_passage? {consumer : Node} {perm : List Number}
    {policy : Relocation.ConstantPolicy} {attributes : List (String × Attribute)}
    (hkeyed : consumer.Keyed) (h : passage? consumer perm = some (policy, attributes)) :
    List.Forall₂ (KeepsEntry consumer.op) consumer.attributes attributes := by
  have hrefl : List.Forall₂ (KeepsEntry consumer.op) consumer.attributes consumer.attributes :=
    List.forall₂_same.2 fun entry _ => .refl consumer.op entry
  unfold passage? at h
  split at h
  · split at h <;> cases h
    exact hrefl
  · cases h
    exact hrefl
  · rename_i rule hrule
    have hcases := Capability.of_ofOp_axes hrule
    split at h
    · cases h
    · obtain ⟨remapped, hremapped, heq⟩ := Option.map_eq_some_iff.1 h
      cases heq
      unfold remapAxes at hremapped
      simp only at hremapped
      split at hremapped
      · cases hremapped
      · split at hremapped
        · cases hremapped
          exact hrefl
        · rename_i x hnamed hx
          obtain ⟨axis, -, rfl⟩ := Option.map_eq_some_iff.1 hremapped
          refine keepsEntry_set hkeyed (hnamed ▸ hx) (.inl ⟨?_, rfl⟩)
            (by simp [Attribute.Remaps])
          rcases hcases with ⟨hop, -⟩ | ⟨-, rfl⟩
          · exact hop
          · cases hnamed
        · rename_i xs hnamed hx
          obtain ⟨axes, haxes, rfl⟩ := Option.map_eq_some_iff.1 hremapped
          refine keepsEntry_set hkeyed (hnamed ▸ hx) (.inr ⟨?_, rfl⟩) ?_
          · rcases hcases with ⟨-, rfl⟩ | ⟨hop, -⟩
            · cases hnamed
            · exact hop
          · simpa [Attribute.Remaps] using Permutation.length_mapM haxes
        · cases hremapped
  · cases h
  · cases h

end TensorGraph
