import TensorGraph.Proofs.Conforming
import TensorGraph.Proofs.LiteralTensors
import TensorGraph.Proofs.ReadBack

/-!
# Judging what is read

The reader goes through a value once and stops at the first place that it does not like. Each of its
parts is judged alike: if it gives something then below its place all is as the form wants it, and if
it fails then the path of the failure leads to a place where something else stands than what the form
wants and the failure names.

The entries of a literal tensor are the exception. They are counted in doubles, and the count is no
number if it overflows before it comes to a size that is zero, so that no number of entries is right.

## Main results

* `Part.Blamed.below`, `settles_eachItem`, `Settles.required` -- blame of what is below a place is
  blame of the place.
* `measured_eq_ofInt_iff` -- entries are counted rightly, unless they are not counted.
* `judged_valueInfo`, `judged_literal` -- information on values and literal tensors are judged.
-/

namespace TensorGraph

open Json

/-! ## Settled results -/

/-- Whether one thing holds of what is given, if something is given, and another of the failure
otherwise. -/
def Settles {ε α : Type} (P : α → Prop) (Q : ε → Prop) : Except ε α → Prop
  | .ok a => P a
  | .error e => Q e

namespace Settles

variable {ε α β : Type} {P : α → Prop} {P' : β → Prop} {Q Q' : ε → Prop} {x : Except ε α}

theorem bind {f : α → Except ε β} (h : Settles P Q x) (hf : ∀ a, P a → Settles P' Q (f a)) :
    Settles P' Q (x >>= f) := by
  cases x with
  | ok a => exact hf a h
  | error e => exact h

theorem map {f : α → β} (h : Settles P Q x) (hf : ∀ a, P a → P' (f a)) : Settles P' Q (x.map f) := by
  cases x with
  | ok a => exact hf a h
  | error e => exact h

theorem mono {P' : α → Prop} (h : Settles P Q x) (hP : ∀ a, P a → P' a) (hQ : ∀ e, Q e → Q' e) :
    Settles P' Q' x := by
  cases x with
  | ok a => exact hP a h
  | error e => exact hQ e h

end Settles

/-! ## Soundness and blame -/

namespace Part

variable {part next : Part} {j : Option Json} {base : Path} {want : Expectation} {e : Failure}

/-- Whether what stands at a place is right by itself, and entries that it should have are counted. -/
def Counts (part : Part) (j : Option Json) : Prop := part.Fits j ∧ ¬ part.Uncounted

/-- Whether everything is right from a place on. -/
def Sound (part : Part) (j : Option Json) : Prop := part.Everywhere Counts j

/-- Whether a failure, met from a place on, names a place where something else stands than what is
to stand there, or where entries are not counted. -/
def Blamed (part : Part) (base : Path) (j : Option Json) (e : Failure) : Prop :=
  ∃ rest want, e = .format (base ++ rest) want ∧ ∃ last, part.Reaches j rest last ∧
    (¬ last.Fits (j.bind fun inner => inner.at? rest) ∧
      ¬ want.IsMet (j.bind fun inner => inner.at? rest) ∨ last.Uncounted)

theorem not_uncounted (h : ∀ sizes, part ≠ entries sizes) : ¬ part.Uncounted := by
  rintro ⟨sizes, rfl, -⟩
  exact h sizes rfl

theorem sound_iff : part.Sound j ↔ part.Everywhere Fits j ∧
    ∀ path last, part.Reaches j path last → ¬ last.Uncounted :=
  ⟨fun h => ⟨fun path last hreaches => (h path last hreaches).1,
    fun path last hreaches => (h path last hreaches).2⟩,
    fun h path last hreaches => ⟨h.1 path last hreaches, h.2 path last hreaches⟩⟩

theorem sound_of_leaf (h : part ∈ [text, number, size, sizeOrUnknown, elementType]) :
    part.Sound j ↔ part.Fits j := by
  refine (everywhere_of_leaf h).trans (and_iff_left (not_uncounted fun sizes hpart => ?_))
  subst hpart
  simp at h

theorem blamed_here (hfits : part.Fits j → want.IsMet j) (hmet : ¬ want.IsMet j) :
    part.Blamed base j (.format base want) := by
  refine ⟨[], want, by simp, part, .here, .inl ?_⟩
  have hhere : (j.bind fun inner => inner.at? []) = j := by cases j <;> rfl
  rw [hhere]
  exact ⟨mt hfits hmet, hmet⟩

/-- Blame of what is one step below is blame of what is above. -/
theorem Blamed.below {j : Json} {step : Step} (h : next.Blamed (base ++ [step]) (j.step? step) e)
    (hleads : part.Leads j step next) : part.Blamed base (some j) e := by
  obtain ⟨rest, want, rfl, last, hreaches, hwrong⟩ := h
  exact ⟨step :: rest, want, by simp, last, .there hleads hreaches, hwrong⟩

/-- What is sound is blamed for nothing. -/
theorem Sound.not_blamed (h : part.Sound j) : ¬ part.Blamed base j e := by
  rintro ⟨rest, want, -, last, hreaches, ⟨hfits, -⟩ | huncounted⟩
  · exact hfits (h rest last hreaches).1
  · exact (h rest last hreaches).2 huncounted

end Part

open TensorGraph.Part

variable {base : Path} {j : Option Json}

/-- Whether a part of the reader gives something only if all is right, and fails with blame. -/
def Part.Judged {α : Type} (part : Part) (base : Path) (j : Option Json) (x : Except Failure α) : Prop :=
  Settles (fun _ => part.Sound j) (part.Blamed base j) x

/-! ## Simple values -/

theorem judged_expectString : text.Judged base j (expectString base j) := by
  unfold expectString
  split
  · exact (sound_of_leaf (by decide)).2 ⟨_, rfl⟩
  · rename_i hnot
    refine blamed_here id ?_
    rintro ⟨s, hs⟩
    exact hnot s hs

theorem settles_expectObject : Settles (fun members => j = some (.obj members))
    (fun e => e = .format base .object ∧ ¬ Expectation.object.IsMet j) (expectObject base j) := by
  unfold expectObject
  split
  · rfl
  · rename_i hnot
    refine ⟨rfl, ?_⟩
    rintro ⟨members, hmembers⟩
    exact hnot members hmembers

theorem settles_expectArray : Settles (fun items => j = some (.arr items))
    (fun e => e = .format base .array ∧ ¬ Expectation.array.IsMet j) (expectArray base j) := by
  unfold expectArray
  split
  · rfl
  · rename_i hnot
    refine ⟨rfl, ?_⟩
    rintro ⟨items, hitems⟩
    exact hnot items hitems

theorem settles_expectNumber : Settles (fun x => j = some (.num x) ∧ x.isFinite = true)
    (fun e => e = .format base .number ∧ ¬ Expectation.number.IsMet j) (expectNumber base j) := by
  unfold expectNumber
  split
  · rename_i x
    by_cases hfinite : x.isFinite = true
    · rw [if_pos hfinite]
      exact ⟨rfl, hfinite⟩
    · rw [if_neg hfinite]
      refine ⟨rfl, ?_⟩
      rintro ⟨_, ⟨⟩, _, ⟨⟩, h⟩
      exact hfinite h
  · rename_i hnot
    refine ⟨rfl, ?_⟩
    rintro ⟨_, rfl, x, rfl, -⟩
    exact hnot x rfl

theorem judged_expectNumber : number.Judged base j (expectNumber base j) := by
  refine settles_expectNumber.mono (fun x hx => (sound_of_leaf (by decide)).2 ?_) ?_
  · exact ⟨_, hx.1, x, rfl, hx.2⟩
  · rintro _ ⟨rfl, hmet⟩
    exact blamed_here id hmet

theorem judged_expectDType : elementType.Judged base j (expectDType base j) := by
  unfold expectDType
  split
  · rename_i s
    cases hfound : DType.ofText? s with
    | some d =>
        obtain ⟨hmem, rfl⟩ := DType.mem_all_of_ofText? hfound
        exact (sound_of_leaf (by decide)).2 ⟨_, rfl, d, hmem, rfl⟩
    | none =>
        refine blamed_here id ?_
        rintro ⟨_, ⟨⟩, d, hmem, ⟨⟩⟩
        rw [DType.ofText?_text hmem] at hfound
        cases hfound
  · rename_i hnot
    refine blamed_here id ?_
    rintro ⟨_, rfl, d, -, rfl⟩
    exact hnot _ rfl

theorem judged_expectSizeOrUnknown {j : Json} :
    sizeOrUnknown.Judged base (some j) (expectSizeOrUnknown base j) := by
  unfold expectSizeOrUnknown
  split
  · exact (sound_of_leaf (by decide)).2 ⟨_, rfl, .inl rfl⟩
  · rename_i hknown
    have hsize : sizeOrUnknown.Fits (some j) → IsSizeForm j := by
      rintro ⟨_, ⟨⟩, hform⟩
      exact hform.resolve_left hknown
    refine Settles.bind (settles_expectNumber.mono (fun _ => id) ?_) fun x hx => ?_
    · rintro _ ⟨rfl, hmet⟩
      refine blamed_here (fun hfits => ?_) hmet
      obtain ⟨x, n, hx, hfinite, -⟩ := hsize hfits
      exact ⟨_, rfl, x, hx, hfinite⟩
    · obtain ⟨⟨⟩, hfinite⟩ := hx
      by_cases hnatural : x.toNat?.isSome = true
      · rw [if_pos hnatural]
        obtain ⟨n, hn⟩ := Option.isSome_iff_exists.1 hnatural
        exact (sound_of_leaf (by decide)).2 ⟨_, rfl, .inr ⟨x, n, rfl, hfinite, hn⟩⟩
      · rw [if_neg hnatural]
        refine blamed_here id fun hmet => hnatural ?_
        obtain ⟨_, n, ⟨⟩, -, hn⟩ := hsize hmet
        exact Option.isSome_of_eq_some hn

/-! ## Lists -/

theorem forall_of_forall₂ {α β : Type} {P : α → Prop} {xs : List α} {ys : List β}
    (h : List.Forall₂ (fun x _ => P x) xs ys) : ∀ x ∈ xs, P x :=
  ((List.forall₂_and_left _ _).1 (h.imp fun _ _ hx => ⟨hx, trivial⟩)).1

/-- The items of a list are read one after the other, and blame of one is blame of the list. -/
theorem settles_eachItem {α : Type} {P : Json → α → Prop} {whole part : Part} {all : List Json}
    {read : Path → Json → Except Failure α} (base : Path)
    (h : ∀ item ∈ all, ∀ place, Settles (P item) (part.Blamed place (some item)) (read place item))
    (hleads : ∀ i < all.length, whole.Leads (.arr all) (.index i) part) (before rest : List Json)
    (hall : before ++ rest = all) :
    Settles (List.Forall₂ P rest) (whole.Blamed base (some (.arr all)))
      (eachItem read base before.length rest) := by
  induction rest generalizing before with
  | nil => exact .nil
  | cons item rest ih =>
      have hmem : item ∈ all := by simp [← hall]
      have hstep : (Json.arr all).step? (.index before.length) = some item := by
        subst hall
        simp [step?, item?]
      have hblame : ∀ e, part.Blamed (base ++ [.index before.length]) (some item) e →
          whole.Blamed base (some (.arr all)) e := fun e he => by
        rw [← hstep] at he
        exact he.below (hleads _ (by simp [← hall]))
      have hrest := ih (before ++ [item]) (by simpa using hall)
      rw [List.length_append, List.length_singleton] at hrest
      unfold eachItem
      exact Settles.bind ((h item hmem _).mono (fun _ => id) hblame) fun first hfirst =>
        Settles.bind hrest fun others hothers => .cons hfirst hothers

theorem settles_expectItems {α : Type} {P : Json → α → Prop} {part : Part}
    {read : Path → Json → Except Failure α}
    (h : ∀ item place, Settles (P item) (part.Blamed place (some item)) (read place item)) :
    Settles (fun xs => ∃ items, j = some (.arr items) ∧ List.Forall₂ P items xs)
      ((list part).Blamed base j) (expectItems read base j) := by
  unfold expectItems
  refine Settles.bind (settles_expectArray.mono (fun _ => id) ?_) fun items hitems => ?_
  · rintro _ ⟨rfl, hmet⟩
    exact blamed_here id hmet
  · subst hitems
    have heach := settles_eachItem base (fun item _ place => h item place)
      (fun i hi => .item hi) [] items rfl
    exact heach.mono (fun xs hxs => ⟨items, rfl, hxs⟩) fun _ => id

theorem sound_list {part : Part} {items : List Json} (h : ∀ item ∈ items, part.Sound (some item)) :
    (list part).Sound (some (.arr items)) := by
  refine everywhere_list.2 ⟨⟨⟨items, rfl⟩, not_uncounted (by simp)⟩, ?_⟩
  rintro _ ⟨⟩
  exact h

theorem judged_expectItems {α : Type} {part : Part} {read : Path → Json → Except Failure α}
    (h : ∀ item place, part.Judged place (some item) (read place item)) :
    (list part).Judged base j (expectItems read base j) := by
  refine (settles_expectItems h).mono ?_ fun _ => id
  rintro xs ⟨items, rfl, hitems⟩
  exact sound_list (forall_of_forall₂ hitems)

theorem judged_expectStrings : (list text).Judged base j (expectStrings base j) :=
  judged_expectItems fun _ _ => judged_expectString

/-- Numbers are looked at as sizes after all of them are read. -/
theorem settles_sizesOfNumbers {all : List Json} (before rest : List Json) (hall : before ++ rest = all)
    {xs : List Number} (h : List.Forall₂ (fun item x => item = .num x ∧ x.isFinite = true) rest xs) :
    Settles (AreSizes rest) ((list size).Blamed base (some (.arr all)))
      (sizesOfNumbers base before.length xs) := by
  induction h generalizing before with
  | nil => exact trivial
  | @cons item x rest xs hitem _ ih =>
      obtain ⟨rfl, hfinite⟩ := hitem
      have hstep : (Json.arr all).step? (.index before.length) = some (.num x) := by
        subst hall
        simp [step?, item?]
      have hrest := ih (before ++ [.num x]) (by simpa using hall)
      rw [List.length_append, List.length_singleton] at hrest
      unfold sizesOfNumbers
      cases hn : x.toNat? with
      | some n => exact hrest.map fun ns hns => ⟨⟨x, rfl, hfinite, hn⟩, hns⟩
      | none =>
          have hblamed : size.Blamed (base ++ [.index before.length]) (some (.num x))
              (.format (base ++ [.index before.length]) .size) := by
            refine blamed_here id ?_
            rintro ⟨_, ⟨⟩, _, n, ⟨⟩, -, hn'⟩
            rw [hn'] at hn
            cases hn
          rw [← hstep] at hblamed
          exact hblamed.below (.item (by simp [← hall]))

theorem settles_expectSizes : Settles (fun read => ∃ items, j = some (.arr items) ∧ AreSizes items read.2)
    ((list size).Blamed base j) (expectSizes base j) := by
  have hnumbers : Settles (fun xs => ∃ items, j = some (.arr items) ∧
      List.Forall₂ (fun item x => item = .num x ∧ x.isFinite = true) items xs)
        ((list size).Blamed base j) (expectNumbers base j) :=
    settles_expectItems fun item place => by
      refine settles_expectNumber.mono (fun x hx => ⟨Option.some.inj hx.1, hx.2⟩) ?_
      rintro _ ⟨rfl, hmet⟩
      refine blamed_here ?_ hmet
      rintro ⟨_, ⟨⟩, x, n, rfl, hfinite, -⟩
      exact ⟨_, rfl, x, rfl, hfinite⟩
  refine Settles.bind hnumbers ?_
  rintro xs ⟨items, rfl, hitems⟩
  exact Settles.bind (settles_sizesOfNumbers [] items rfl hitems) fun ns hns => ⟨items, rfl, hns⟩

theorem judged_optional {α : Type} {part : Part} {read : Option Json → Except Failure α}
    (h : ∀ inner, j = some inner → part.Judged base (some inner) (read (some inner))) :
    Settles (fun _ => ∀ inner, j = some inner → part.Sound (some inner))
      (fun e => j.isSome ∧ part.Blamed base j e) (optional read j) := by
  cases j with
  | none => exact fun _ h => nomatch h
  | some inner =>
      refine Settles.map ((h inner rfl).mono (fun _ => id) fun e he => ⟨rfl, he⟩) ?_
      rintro _ hsound _ ⟨⟩
      exact hsound

/-! ## Members -/

section

variable {α : Type} {P : α → Prop} {part next : Part} {members : List (String × Json)} {key : String}
  {x : Except Failure α}

/-- Blame of a member that has to be there is blame of the object. -/
theorem Settles.required (h : Settles P (next.Blamed (base ++ [.key key]) (members.lookup key)) x)
    (hmember : (key, true, next) ∈ part.members) : Settles P (part.Blamed base (some (.obj members))) x :=
  h.mono (fun _ => id) fun _ he => he.below (.member hmember (.inl rfl))

theorem Settles.optional
    (h : Settles P (fun e => (members.lookup key).isSome ∧
      next.Blamed (base ++ [.key key]) (members.lookup key) e) x)
    (hmember : (key, false, next) ∈ part.members) : Settles P (part.Blamed base (some (.obj members))) x :=
  h.mono (fun _ => id) fun _ he => he.2.below (.member hmember (.inr he.1))

/-- What has to be an object by itself is blamed if it is none. -/
theorem settles_members (hfits : part.Fits j → Expectation.object.IsMet j) :
    Settles (fun members => j = some (.obj members)) (part.Blamed base j) (expectObject base j) :=
  settles_expectObject.mono (fun _ => id) fun e he => by
    obtain ⟨rfl, hmet⟩ := he
    exact blamed_here hfits hmet

end

/-! ## Information and literal tensors -/

theorem judged_valueInfo {j : Json} : info.Judged base (some j) (ValueInfo.ofJson base j) := by
  unfold ValueInfo.ofJson
  refine Settles.bind (settles_members id) ?_
  rintro members ⟨⟩
  refine Settles.bind (Settles.required judged_expectString (by simp [Part.members])) fun name hname => ?_
  refine Settles.bind (Settles.optional (judged_optional fun _ _ => judged_expectDType)
    (by simp [Part.members])) fun dtype hdtype => ?_
  refine Settles.bind (Settles.optional (judged_optional fun _ _ => judged_expectItems fun _ _ =>
    judged_expectSizeOrUnknown) (by simp [Part.members])) fun shape hshape => ?_
  exact everywhere_info.2 ⟨⟨⟨members, rfl⟩, not_uncounted (by simp)⟩, hname, hdtype, hshape⟩

theorem judged_infos : (list info).Judged base j (ValueInfo.listOfJson base j) :=
  judged_expectItems fun _ _ => judged_valueInfo

/-- A number of entries that is in the exact range is compared rightly with the number of them that
there should be, unless that is not counted. -/
theorem measured_eq_ofInt_iff {sizes : List Nat} {count : Nat} (hcount : count < exactRange) :
    Shape.measured sizes = .ofInt count ↔ Shape.size sizes = count ∧ Shape.measured sizes ≠ .nan := by
  have hexact : Number.ofInt count = .int count := Number.ofInt_of_small (by simpa using hcount)
  constructor
  · intro h
    rw [hexact] at h
    have hnat : (Shape.measured sizes).toNat? = some count := by
      rw [h]
      rfl
    refine ⟨(Shape.measured_of_small hnat hcount).1, ?_⟩
    rw [h]
    exact Number.noConfusion
  · rintro ⟨rfl, hcounted⟩
    exact ((Shape.measured_eq hcount).resolve_right hcounted).trans hexact.symm

theorem sound_entries {sizes : List Nat} {data : List Json} (hproper : data.length < exactRange)
    (h : Shape.measured sizes = .ofInt data.length) : Counts (entries sizes) (some (.arr data)) := by
  obtain ⟨hsize, hcounted⟩ := (measured_eq_ofInt_iff hproper).1 h
  refine ⟨⟨data, rfl, hsize.symm, hsize ▸ hproper⟩, ?_⟩
  rintro ⟨_, ⟨⟩, hnan⟩
  exact hcounted hnan

theorem blamed_entries {sizes : List Nat} {data : List Json} (hproper : data.length < exactRange)
    (h : ¬ Shape.measured sizes = .ofInt data.length) :
    (entries sizes).Blamed base (some (.arr data))
      (.format base (.entries (Shape.measured sizes) data.length)) := by
  by_cases hcounted : Shape.measured sizes = .nan
  · exact ⟨[], _, by rw [List.append_nil], _, .here, .inr ⟨sizes, rfl, hcounted⟩⟩
  · refine blamed_here (fun hfits => ?_) ?_
    · obtain ⟨_, ⟨⟩, hlength, -⟩ := hfits
      exact absurd ((measured_eq_ofInt_iff hproper).2 ⟨hlength.symm, hcounted⟩) h
    · rintro ⟨_, ⟨⟩, hexpected⟩
      exact h hexpected

theorem settles_expectNumbers :
    Settles (fun xs => ∃ items, j = some (.arr items) ∧ xs.length = items.length ∧ (list number).Sound j)
      ((list number).Blamed base j) (expectNumbers base j) := by
  have hitems : Settles _ _ (expectNumbers base j) :=
    settles_expectItems fun item place =>
      (judged_expectNumber : number.Judged place (some item) _)
  refine hitems.mono ?_ fun _ => id
  rintro xs ⟨items, rfl, hread⟩
  exact ⟨items, rfl, hread.length_eq.symm, sound_list (forall_of_forall₂ hread)⟩

theorem judged_literal (hj : ∀ inner, j = some inner → inner.IsProper) :
    literal.Judged base j (Literal.ofJson base j) := by
  unfold Literal.ofJson
  refine Settles.bind (settles_members id) ?_
  rintro members rfl
  refine Settles.bind (Settles.required judged_expectDType (by simp [Part.members])) fun dtype hdtype => ?_
  refine Settles.bind (Settles.required settles_expectSizes (by simp [Part.members])) ?_
  rintro ⟨written, sizes⟩ ⟨dims, hdims, hsizes⟩
  refine Settles.bind (Settles.required settles_expectNumbers (by simp [Part.members])) ?_
  rintro data ⟨found, hfound, hlength, hdata⟩
  have hproper : found.length < exactRange := ((hj _ rfl).lookup hfound).length
  simp only [hlength]
  split
  · rename_i hmeasured
    refine everywhere_literal.2 ⟨⟨⟨members, rfl⟩, not_uncounted (by simp)⟩, hdtype, ?_, hdata, ?_⟩
    · rw [hdims]
      exact sound_list fun item hitem =>
        (sound_of_leaf (by decide)).2 ⟨item, rfl, hsizes.isSizeForm item hitem⟩
    · intro dims' sizes' hdims' hsizes'
      obtain ⟨⟩ := hdims.symm.trans hdims'
      obtain rfl := hsizes.unique hsizes'
      exact hfound ▸ sound_entries hproper hmeasured
  · rename_i hmeasured
    have hblamed : (entries sizes).Blamed (base ++ [.key "data"]) _ _ :=
      blamed_entries hproper hmeasured
    rw [← hfound] at hblamed
    exact hblamed.below (.entries hdims hsizes)

end TensorGraph
