import Mathlib.Data.List.Basic
import TensorGraph.Graph.Part
import TensorGraph.Graph.Reader
import TensorGraph.Proofs.Naming

/-!
# The form and its places

The interchange form is described twice: as a whole, by predicates that follow the value downwards,
and place by place, by what can be seen at each place alone. A value describes a graph exactly if at
each place that a path leads to there is what is to stand there. So a place where something else
stands violates the form, and a value that does not describe a graph has such a place.

A value is proper if its objects have each key once and its arrays have lengths in the exact range,
as all values in memory do.

## Main results

* `Part.everywhere_iff` -- what holds everywhere holds at the place and everywhere one step below.
* `isGraphForm_iff` -- a value describes a graph if at each place there is what is to stand there.
* `Violates.not_isGraphForm` -- a value that violates the form somewhere describes no graph.
-/

namespace TensorGraph

/-! ## Values in memory -/

namespace Json

/-- Whether a value can be in memory: the keys of an object differ, and no array is too long to be
counted. -/
inductive IsProper : Json → Prop where
  | null : IsProper .null
  | bool (b : Bool) : IsProper (.bool b)
  | num (x : Number) : IsProper (.num x)
  | str (s : String) : IsProper (.str s)
  | arr {items : List Json} : items.length < exactRange → (∀ item ∈ items, IsProper item) →
      IsProper (.arr items)
  | obj {members : List (String × Json)} : (members.map Prod.fst).Nodup →
      (∀ entry ∈ members, IsProper entry.2) → IsProper (.obj members)

namespace IsProper

theorem length {items : List Json} (h : (Json.arr items).IsProper) : items.length < exactRange := by
  cases h
  assumption

theorem item {items : List Json} (h : (Json.arr items).IsProper) : ∀ item ∈ items, item.IsProper := by
  cases h
  assumption

theorem keys {members : List (String × Json)} (h : (Json.obj members).IsProper) :
    (members.map Prod.fst).Nodup := by
  cases h
  assumption

theorem lookup {members : List (String × Json)} (h : (Json.obj members).IsProper) {key : String}
    {j : Json} (hj : members.lookup key = some j) : j.IsProper := by
  cases h with
  | obj _ hall => exact hall _ (mem_of_lookup hj)

end IsProper

end Json

open Json

/-! ## What holds everywhere -/

namespace Part

variable {P : Part → Option Json → Prop} {part : Part} {j : Option Json}

/-- Whether something holds of each place that a path leads to, and of what is to stand there. -/
def Everywhere (P : Part → Option Json → Prop) (part : Part) (j : Option Json) : Prop :=
  ∀ path last, part.Reaches j path last → P last (j.bind fun inner => inner.at? path)

/-- What holds everywhere holds at the place and everywhere one step below. -/
theorem everywhere_iff : part.Everywhere P j ↔ P part j ∧
    ∀ inner, j = some inner → ∀ step next, part.Leads inner step next →
      next.Everywhere P (inner.step? step) := by
  have hhere : (j.bind fun inner => inner.at? []) = j := by cases j <;> rfl
  constructor
  · intro h
    refine ⟨hhere ▸ h [] part .here, ?_⟩
    rintro inner rfl step next hleads path last hreaches
    exact h (step :: path) last (.there hleads hreaches)
  · rintro ⟨hp, hbelow⟩ path last hreaches
    cases hreaches with
    | here => exact hhere.symm ▸ hp
    | there hleads hrest => exact hbelow _ rfl _ _ hleads _ _ hrest

/-- Nothing is below a place of a part that leads nowhere. -/
theorem everywhere_leaf (h : ∀ inner step next, ¬ part.Leads inner step next) :
    part.Everywhere P j ↔ P part j := by
  rw [everywhere_iff, and_iff_left]
  exact fun inner _ step next hleads => (h inner step next hleads).elim

theorem everywhere_of_leaf (h : part ∈ [text, number, size, sizeOrUnknown, elementType]) :
    part.Everywhere P j ↔ P part j := by
  refine everywhere_leaf fun inner step next hleads => ?_
  simp only [List.mem_cons, List.not_mem_nil, or_false] at h
  rcases h with rfl | rfl | rfl | rfl | rfl <;> cases hleads <;> contradiction

/-- An optional place counts if something stands there. -/
theorem isSome_imp_everywhere_iff :
    (j.isSome → part.Everywhere P j) ↔ ∀ inner, j = some inner → part.Everywhere P (some inner) := by
  cases j <;> simp

theorem everywhere_list : (list part).Everywhere P j ↔
    P (list part) j ∧ ∀ items, j = some (.arr items) → ∀ item ∈ items, part.Everywhere P (some item) := by
  rw [everywhere_iff]
  refine and_congr_right fun _ => ⟨?_, ?_⟩
  · rintro h items rfl item hitem
    obtain ⟨i, hi, rfl⟩ := List.getElem_of_mem hitem
    have hstep : (arr items).step? (.index i) = some items[i] := List.getElem?_eq_getElem hi
    exact hstep ▸ h _ rfl _ _ (.item hi)
  · rintro h inner rfl step next hleads
    cases hleads with
    | @item _ items i hi =>
        have hstep : (arr items).step? (.index i) = some items[i] := List.getElem?_eq_getElem hi
        exact hstep.symm ▸ h items rfl _ (List.getElem_mem hi)
    | member hmem => cases hmem

/-- Below an object there is what its members are to be. -/
theorem everywhere_members {written : List (String × Json)}
    (hpart : ∀ step next, part.Leads (.obj written) step next → ∃ key needed, step = .key key ∧
      (key, needed, next) ∈ part.members ∧ (needed = true ∨ (written.lookup key).isSome)) :
    part.Everywhere P (some (.obj written)) ↔ P part (some (.obj written)) ∧
      ∀ member ∈ part.members, member.2.1 = true ∨ (written.lookup member.1).isSome →
        member.2.2.Everywhere P (written.lookup member.1) := by
  rw [everywhere_iff]
  refine and_congr_right fun _ => ⟨fun h member hmember hneeded => ?_, ?_⟩
  · exact h _ rfl _ _ (.member hmember hneeded)
  · rintro h _ ⟨⟩ step next hleads
    obtain ⟨key, needed, rfl, hmem, hneeded⟩ := hpart step next hleads
    exact h _ hmem hneeded

theorem everywhere_info {written : List (String × Json)} :
    info.Everywhere P (some (.obj written)) ↔ P info (some (.obj written)) ∧
      text.Everywhere P (written.lookup "name") ∧
      (∀ inner, written.lookup "dtype" = some inner → elementType.Everywhere P (some inner)) ∧
      ∀ inner, written.lookup "shape" = some inner →
        (list sizeOrUnknown).Everywhere P (some inner) := by
  rw [everywhere_members fun step next hleads => ?_]
  · simp only [members, List.forall_mem_cons, List.not_mem_nil, false_imp_iff, implies_true, and_true,
      Bool.false_eq_true, false_or, true_or, true_imp_iff, isSome_imp_everywhere_iff]
  · cases hleads with
    | member hmem hneeded => exact ⟨_, _, rfl, hmem, hneeded⟩

theorem everywhere_literal {written : List (String × Json)} :
    literal.Everywhere P (some (.obj written)) ↔ P literal (some (.obj written)) ∧
      elementType.Everywhere P (written.lookup "dtype") ∧
      (list size).Everywhere P (written.lookup "dims") ∧
      (list number).Everywhere P (written.lookup "data") ∧
      ∀ dims sizes, written.lookup "dims" = some (.arr dims) → AreSizes dims sizes →
        P (entries sizes) (written.lookup "data") := by
  have hentries : ∀ sizes, (entries sizes).Everywhere P (written.lookup "data") ↔
      P (entries sizes) (written.lookup "data") := fun sizes => everywhere_leaf fun _ _ _ hleads => by
    cases hleads with
    | member hmem => cases hmem
  rw [everywhere_iff]
  refine and_congr_right fun _ => ⟨fun h => ?_, ?_⟩
  · refine ⟨h _ rfl (.key "dtype") _ (.member (by simp [members]) (.inl rfl)),
      h _ rfl (.key "dims") _ (.member (by simp [members]) (.inl rfl)),
      h _ rfl (.key "data") _ (.member (by simp [members]) (.inl rfl)), ?_⟩
    exact fun dims sizes hdims hsizes => (hentries sizes).1 (h _ rfl _ _ (.entries hdims hsizes))
  · rintro ⟨hdtype, hdims, hdata, hcount⟩ _ ⟨⟩ step next hleads
    cases hleads with
    | member hmem _ =>
        simp only [members, List.mem_cons, Prod.mk.injEq, List.not_mem_nil, or_false] at hmem
        rcases hmem with ⟨rfl, -, rfl⟩ | ⟨rfl, -, rfl⟩ | ⟨rfl, -, rfl⟩
        · exact hdtype
        · exact hdims
        · exact hdata
    | entries hfound hsizes => exact (hentries _).2 (hcount _ _ hfound hsizes)

theorem everywhere_node {written : List (String × Json)} :
    node.Everywhere P (some (.obj written)) ↔ P node (some (.obj written)) ∧
      text.Everywhere P (written.lookup "name") ∧ text.Everywhere P (written.lookup "op") ∧
      (list text).Everywhere P (written.lookup "inputs") ∧
      (list text).Everywhere P (written.lookup "outputs") ∧
      ∀ inner, written.lookup "attributes" = some inner → attributes.Everywhere P (some inner) := by
  rw [everywhere_members fun step next hleads => ?_]
  · simp only [members, List.forall_mem_cons, List.not_mem_nil, false_imp_iff, implies_true, and_true,
      Bool.false_eq_true, false_or, true_or, true_imp_iff, isSome_imp_everywhere_iff]
  · cases hleads with
    | member hmem hneeded => exact ⟨_, _, rfl, hmem, hneeded⟩

theorem everywhere_graph {written : List (String × Json)} :
    graph.Everywhere P (some (.obj written)) ↔ P graph (some (.obj written)) ∧
      text.Everywhere P (written.lookup "name") ∧
      (list info).Everywhere P (written.lookup "inputs") ∧
      (list info).Everywhere P (written.lookup "outputs") ∧
      (∀ inner, written.lookup "valueInfo" = some inner → (list info).Everywhere P (some inner)) ∧
      (list node).Everywhere P (written.lookup "nodes") := by
  rw [everywhere_members fun step next hleads => ?_]
  · simp only [members, List.forall_mem_cons, List.not_mem_nil, false_imp_iff, implies_true, and_true,
      Bool.false_eq_true, false_or, true_or, true_imp_iff, isSome_imp_everywhere_iff]
  · cases hleads with
    | member hmem hneeded => exact ⟨_, _, rfl, hmem, hneeded⟩

theorem everywhere_attributes {written : List (String × Json)} :
    attributes.Everywhere P (some (.obj written)) ↔ P attributes (some (.obj written)) ∧
      ∀ key inner, written.lookup key = some inner → Part.attribute.Everywhere P (some inner) := by
  rw [everywhere_iff]
  refine and_congr_right fun _ => ⟨fun h key inner hinner => ?_, ?_⟩
  · have hstep : (obj written).step? (.key key) = some inner := hinner
    exact hstep ▸ h _ rfl _ _ (.entry (Option.isSome_of_eq_some hinner))
  · rintro h _ ⟨⟩ step next hleads
    cases hleads with
    | member hmem => cases hmem
    | @entry _ key hsome =>
        obtain ⟨inner, hinner⟩ := Option.isSome_iff_exists.1 hsome
        have hstep : (obj written).step? (.key key) = some inner := hinner
        exact hstep.symm ▸ h key inner hinner

/-- Below an attribute that is a list there are numbers. -/
theorem everywhere_attribute_arr {items : List Json} :
    Part.attribute.Everywhere P (some (.arr items)) ↔ P .attribute (some (.arr items)) ∧
      ∀ item ∈ items, number.Everywhere P (some item) := by
  rw [everywhere_iff]
  refine and_congr_right fun _ => ⟨fun h item hitem => ?_, ?_⟩
  · obtain ⟨i, hi, rfl⟩ := List.getElem_of_mem hitem
    have hstep : (arr items).step? (.index i) = some items[i] := List.getElem?_eq_getElem hi
    exact hstep ▸ h _ rfl _ _ (.numbers hi)
  · rintro h _ ⟨⟩ step next hleads
    cases hleads with
    | @numbers _ i hi =>
        have hstep : (arr items).step? (.index i) = some items[i] := List.getElem?_eq_getElem hi
        exact hstep.symm ▸ h _ (List.getElem_mem hi)

/-- Below any other attribute than a list or an object there is nothing. -/
theorem everywhere_attribute_plain {j : Json} (hlist : ∀ items, j ≠ .arr items)
    (hobject : ∀ members, j ≠ .obj members) :
    Part.attribute.Everywhere P (some j) ↔ P .attribute (some j) := by
  rw [everywhere_iff, and_iff_left]
  rintro _ ⟨⟩ step next hleads
  cases hleads with
  | member hmem => cases hmem
  | numbers => exact absurd rfl (hlist _)
  | literal => exact absurd rfl (hobject _)
  | body => exact absurd rfl (hobject _)

/-- Below an attribute that is an object there is a literal tensor or a body graph. -/
theorem everywhere_attribute_obj {written : List (String × Json)} :
    Part.attribute.Everywhere P (some (.obj written)) ↔ P .attribute (some (.obj written)) ∧
      (∀ inner, written.lookup "tensor" = some inner → literal.Everywhere P (some inner)) ∧
      (written.lookup "tensor" = none → ∀ inner, written.lookup "graph" = some inner →
        graph.Everywhere P (some inner)) := by
  rw [everywhere_iff]
  refine and_congr_right fun _ => ⟨fun h => ⟨fun inner hinner => ?_, fun hnone inner hinner => ?_⟩, ?_⟩
  · have hstep : (obj written).step? (.key "tensor") = some inner := hinner
    exact hstep ▸ h _ rfl _ _ (.literal (Option.isSome_of_eq_some hinner))
  · have hstep : (obj written).step? (.key "graph") = some inner := hinner
    exact hstep ▸ h _ rfl _ _ (.body hnone (Option.isSome_of_eq_some hinner))
  · rintro ⟨hliteral, hbody⟩ _ ⟨⟩ step next hleads
    cases hleads with
    | member hmem => cases hmem
    | literal hsome => exact isSome_imp_everywhere_iff.2 hliteral hsome
    | body hnone hsome => exact isSome_imp_everywhere_iff.2 (hbody hnone) hsome

end Part

/-! ## Forms as places -/

theorem AreSizes.isSizeForm {items : List Json} {sizes : List Nat} (h : AreSizes items sizes) :
    ∀ item ∈ items, IsSizeForm item := by
  induction items generalizing sizes with
  | nil => simp
  | cons item rest ih =>
      cases sizes with
      | nil => exact h.elim
      | cons n sizes =>
          obtain ⟨⟨x, rfl, hfinite, hn⟩, hrest⟩ := h
          exact List.forall_mem_cons.2 ⟨⟨x, n, rfl, hfinite, hn⟩, ih hrest⟩

theorem exists_areSizes {items : List Json} (h : ∀ item ∈ items, IsSizeForm item) :
    ∃ sizes, AreSizes items sizes := by
  induction items with
  | nil => exact ⟨[], trivial⟩
  | cons item rest ih =>
      obtain ⟨⟨x, n, rfl, hfinite, hn⟩, hrest⟩ := List.forall_mem_cons.1 h
      obtain ⟨sizes, hsizes⟩ := ih hrest
      exact ⟨n :: sizes, ⟨x, rfl, hfinite, hn⟩, hsizes⟩

namespace Part

variable {part : Part} {j : Option Json}

theorem holds_text : text.Everywhere Fits j ↔ IsTextForm j := everywhere_of_leaf (by decide)

theorem holds_number {j : Json} : number.Everywhere Fits (some j) ↔ IsNumberForm j := by
  rw [everywhere_of_leaf (by decide)]
  simp [Fits]

theorem holds_size {j : Json} : size.Everywhere Fits (some j) ↔ IsSizeForm j := by
  rw [everywhere_of_leaf (by decide)]
  simp [Fits]

theorem holds_sizeOrUnknown {j : Json} :
    sizeOrUnknown.Everywhere Fits (some j) ↔ j = .null ∨ IsSizeForm j := by
  rw [everywhere_of_leaf (by decide)]
  simp [Fits]

theorem holds_elementType {j : Json} : elementType.Everywhere Fits (some j) ↔ IsDTypeForm j := by
  rw [everywhere_of_leaf (by decide)]
  simp [Fits]

/-- What is an object by itself has members. -/
theorem Everywhere.object (h : part.Everywhere Fits j)
    (hpart : part ∈ [info, literal, attributes, node, graph]) : ∃ members, j = some (.obj members) := by
  have hfits := (everywhere_iff.1 h).1
  simp only [List.mem_cons, List.not_mem_nil, or_false] at hpart
  rcases hpart with rfl | rfl | rfl | rfl | rfl <;> exact hfits

theorem holds_list {form : Json → Prop} (h : ∀ item, part.Everywhere Fits (some item) ↔ form item) :
    (list part).Everywhere Fits j ↔ IsListForm form j := by
  rw [everywhere_list]
  constructor
  · rintro ⟨⟨items, rfl⟩, hitems⟩
    exact ⟨items, rfl, fun item hitem => (h item).1 (hitems items rfl item hitem)⟩
  · rintro ⟨items, rfl, hitems⟩
    refine ⟨⟨items, rfl⟩, ?_⟩
    rintro _ ⟨⟩ item hitem
    exact (h item).2 (hitems item hitem)

theorem holds_texts : (list text).Everywhere Fits j ↔ IsListForm (fun j => IsTextForm (some j)) j :=
  holds_list fun _ => holds_text

theorem holds_info {j : Json} : info.Everywhere Fits (some j) ↔ IsInfoForm j := by
  have hmembers : ∀ members, info.Everywhere Fits (some (.obj members)) ↔
      IsTextForm (members.lookup "name") ∧
      IsOptionalForm IsDTypeForm (members.lookup "dtype") ∧
      IsOptionalForm (fun shape => IsListForm (fun d => d = .null ∨ IsSizeForm d) (some shape))
        (members.lookup "shape") := fun members => by
    rw [everywhere_info, and_iff_right ⟨members, rfl⟩]
    simp only [holds_text, holds_elementType, holds_list fun _ => holds_sizeOrUnknown]
    rfl
  constructor
  · intro h
    obtain ⟨members, ⟨⟩⟩ := h.object (by decide)
    exact ⟨members, rfl, (hmembers members).1 h⟩
  · rintro ⟨members, rfl, h⟩
    exact (hmembers members).2 h

theorem holds_literal {j : Json} : literal.Everywhere Fits (some j) ↔ IsLiteralForm j := by
  constructor
  · intro h
    obtain ⟨members, ⟨⟩⟩ := h.object (by decide)
    rw [everywhere_literal] at h
    obtain ⟨-, hdtype, hdims, hdata, hcount⟩ := h
    obtain ⟨dtype, hdtype, hlisted⟩ : ∃ dtype, members.lookup "dtype" = some dtype ∧ IsDTypeForm dtype :=
      (everywhere_of_leaf (by decide)).1 hdtype
    obtain ⟨dims, hdims, hsized⟩ := (holds_list fun _ => holds_size).1 hdims
    obtain ⟨data, hdata, hnumbers⟩ := (holds_list fun _ => holds_number).1 hdata
    obtain ⟨sizes, hsizes⟩ := exists_areSizes hsized
    obtain ⟨_, hfound, hlength, hexact⟩ := hcount dims sizes hdims hsizes
    obtain ⟨⟩ := hdata.symm.trans hfound
    exact ⟨members, dtype, dims, sizes, data, rfl, hdtype, hlisted, hdims, hsizes, hdata, hnumbers,
      hlength, hexact⟩
  · rintro ⟨members, dtype, dims, sizes, data, rfl, hdtype, hlisted, hdims, hsizes, hdata, hnumbers,
      hlength, hexact⟩
    rw [everywhere_literal]
    refine ⟨⟨members, rfl⟩, (everywhere_of_leaf (by decide)).2 ⟨dtype, hdtype, hlisted⟩,
      (holds_list fun _ => holds_size).2 ⟨dims, hdims, hsizes.isSizeForm⟩,
      (holds_list fun _ => holds_number).2 ⟨data, hdata, hnumbers⟩, fun dims' sizes' hdims' hsizes' => ?_⟩
    obtain ⟨⟩ := hdims.symm.trans hdims'
    obtain rfl := hsizes.unique hsizes'
    exact ⟨data, hdata, hlength, hexact⟩

theorem holds_attributes {written : List (String × Json)} (hkeys : (written.map Prod.fst).Nodup)
    (h : ∀ entry ∈ written, Part.attribute.Everywhere Fits (some entry.2) ↔ IsAttributeForm entry.2) :
    attributes.Everywhere Fits (some (.obj written)) ↔ ∀ entry ∈ written, IsAttributeForm entry.2 := by
  rw [everywhere_attributes, and_iff_right ⟨written, rfl⟩]
  constructor
  · intro hall entry hentry
    exact (h entry hentry).1 (hall _ _ (lookup_of_mem hkeys hentry))
  · intro hall key inner hinner
    exact (h _ (mem_of_lookup hinner)).2 (hall _ (mem_of_lookup hinner))

mutual

theorem holds_attribute :
    (j : Json) → j.IsProper → (Part.attribute.Everywhere Fits (some j) ↔ IsAttributeForm j)
  | .obj members, hj => by
      have hbody : ∀ inner, members.lookup "graph" = some inner →
          (graph.Everywhere Fits (some inner) ↔ IsGraphForm inner) := fun inner hinner => by
        have := sizeOf_lookup hinner
        exact holds_graph inner (hj.lookup hinner)
      rw [everywhere_attribute_obj]
      constructor
      · rintro ⟨⟨_, ⟨⟩, hkind⟩, htensor, hgraph⟩
        cases htensored : members.lookup "tensor" with
        | some inner => exact .literal htensored (holds_literal.1 (htensor inner htensored))
        | none =>
            obtain ⟨inner, hinner⟩ : ∃ inner, members.lookup "graph" = some inner :=
              Option.isSome_iff_exists.1 (hkind.resolve_left (by simp [htensored]))
            exact .body htensored hinner ((hbody inner hinner).1 (hgraph htensored inner hinner))
      · intro h
        cases h with
        | number h => obtain ⟨x, ⟨⟩, -⟩ := h
        | @literal _ found hfound hform =>
            refine ⟨⟨_, rfl, .inl (by simp [hfound])⟩, fun inner hinner => ?_, fun hnone => ?_⟩
            · obtain rfl := Option.some.inj (hfound.symm.trans hinner)
              exact holds_literal.2 hform
            · simp [hfound] at hnone
        | @body _ found hnone hfound hform =>
            refine ⟨⟨_, rfl, .inr (by simp [hfound])⟩, fun inner hinner => ?_, fun _ inner hinner => ?_⟩
            · simp [hnone] at hinner
            · obtain rfl := Option.some.inj (hfound.symm.trans hinner)
              exact (hbody found hfound).2 hform
  | .arr items, _ => by
      rw [everywhere_attribute_arr, and_iff_right ⟨_, rfl, trivial⟩]
      simp only [holds_number]
      constructor
      · exact .numbers
      · intro h
        cases h with
        | number h => obtain ⟨x, ⟨⟩, -⟩ := h
        | numbers h => exact h
  | .str s, _ => by
      rw [everywhere_attribute_plain (by simp) (by simp)]
      exact iff_of_true ⟨_, rfl, trivial⟩ (.text s)
  | .num x, _ | .null, _ | .bool _, _ => by
      rw [everywhere_attribute_plain (by simp) (by simp)]
      constructor
      · rintro ⟨_, ⟨⟩, hnumber⟩
        exact .number hnumber
      · intro h
        cases h with
        | number h => exact ⟨_, rfl, h⟩
termination_by j => sizeOf j
decreasing_by
  simp only [Json.obj.sizeOf_spec]
  omega

theorem holds_node : (j : Json) → j.IsProper → (node.Everywhere Fits (some j) ↔ IsNodeForm j)
  | .obj members, hj => by
      have hentries : ∀ entries, members.lookup "attributes" = some (.obj entries) →
          ∀ entry ∈ entries, (Part.attribute.Everywhere Fits (some entry.2) ↔ IsAttributeForm entry.2) :=
        fun entries hfound entry hentry => by
          have := sizeOf_lookup hfound
          have := List.sizeOf_lt_of_mem hentry
          exact holds_attribute entry.2 ((hj.lookup hfound).lookup
            (lookup_of_mem (hj.lookup hfound).keys hentry))
      rw [everywhere_node, and_iff_right ⟨members, rfl⟩]
      simp only [holds_text, holds_texts]
      constructor
      · rintro ⟨hname, hop, hinputs, houtputs, hattributes⟩
        cases hfound : members.lookup "attributes" with
        | none => exact .bare hname hop hinputs houtputs hfound
        | some inner =>
            have hinner := hattributes inner hfound
            obtain ⟨entries, ⟨⟩⟩ := hinner.object (by decide)
            exact .withAttributes hname hop hinputs houtputs hfound
              ((holds_attributes (hj.lookup hfound).keys (hentries entries hfound)).1 hinner)
      · intro h
        cases h with
        | bare hname hop hinputs houtputs hnone =>
            exact ⟨hname, hop, hinputs, houtputs, by simp [hnone]⟩
        | @withAttributes _ entries hname hop hinputs houtputs hfound hall =>
            refine ⟨hname, hop, hinputs, houtputs, fun inner hinner => ?_⟩
            obtain rfl := Option.some.inj (hfound.symm.trans hinner)
            exact (holds_attributes (hj.lookup hfound).keys (hentries entries hfound)).2 hall
  | .null, _ | .bool _, _ | .num _, _ | .str _, _ | .arr _, _ => by
      refine iff_of_false (fun h => ?_) (fun h => ?_)
      · obtain ⟨_, ⟨⟩⟩ := h.object (by decide)
      · cases h
termination_by j => sizeOf j
decreasing_by
  have : sizeOf entry = sizeOf entry.1 + sizeOf entry.2 + 1 := by cases entry; simp; omega
  simp only [Json.obj.sizeOf_spec] at *
  omega

theorem holds_graph : (j : Json) → j.IsProper → (graph.Everywhere Fits (some j) ↔ IsGraphForm j)
  | .obj members, hj => by
      have hnodes : ∀ items, members.lookup "nodes" = some (.arr items) → ∀ item ∈ items,
          (node.Everywhere Fits (some item) ↔ IsNodeForm item) := fun items hfound item hitem => by
        have := sizeOf_lookup hfound
        have := List.sizeOf_lt_of_mem hitem
        exact holds_node item ((hj.lookup hfound).item item hitem)
      rw [everywhere_graph, and_iff_right ⟨members, rfl⟩]
      simp only [holds_text, holds_list fun _ => holds_info]
      constructor
      · rintro ⟨hname, hinputs, houtputs, hinfos, hlist⟩
        rw [everywhere_list] at hlist
        obtain ⟨⟨items, hfound⟩, hitems⟩ := hlist
        exact .intro hname hinputs houtputs hinfos hfound fun item hitem =>
          (hnodes items hfound item hitem).1 (hitems items hfound item hitem)
      · intro h
        cases h with
        | @intro _ items hname hinputs houtputs hinfos hfound hall =>
            refine ⟨hname, hinputs, houtputs, hinfos, everywhere_list.2 ⟨⟨items, hfound⟩, ?_⟩⟩
            intro items' hfound' item hitem
            obtain ⟨⟩ := hfound.symm.trans hfound'
            exact (hnodes items hfound item hitem).2 (hall item hitem)
  | .null, _ | .bool _, _ | .num _, _ | .str _, _ | .arr _, _ => by
      refine iff_of_false (fun h => ?_) (fun h => ?_)
      · obtain ⟨_, ⟨⟩⟩ := h.object (by decide)
      · cases h
termination_by j => sizeOf j
decreasing_by
  simp only [Json.obj.sizeOf_spec, Json.arr.sizeOf_spec] at *
  omega

end

end Part

/-- A value describes a graph exactly if wherever a path leads there is what is to stand there. -/
theorem isGraphForm_iff {j : Json} (hj : j.IsProper) :
    IsGraphForm j ↔ ∀ path part, Part.graph.Reaches (some j) path part → part.Fits (j.at? path) :=
  (Part.holds_graph j hj).symm

theorem Violates.not_isGraphForm {j : Json} (hj : j.IsProper) {path : Path} {want : Expectation}
    (h : Violates j path want) : ¬ IsGraphForm j := fun hform => by
  obtain ⟨part, hreaches, hfits, -⟩ := h
  exact hfits ((isGraphForm_iff hj).1 hform path part hreaches)

end TensorGraph

