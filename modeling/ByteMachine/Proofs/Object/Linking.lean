import ByteMachine.Proofs.Object.Passes

/-!
# Linking is substitution

The position of an element of object code is the number of elements in front of it
that take a byte.  Linking leaves out the definitions of labels and puts the position
of a label in the place of every reference to it.  This file says when that is
possible, what comes out, and what is blamed if it is not.

* `DefinedAt` — a label is defined at a position;
* `Substitutes` — a byte of the image in the place of an element;
* `LinkFault` — what is blamed, and in which order;
* `definedAt_iff` — a label that is not defined twice is defined at its position only;
* `link_substitutes` — when object code is linked, to which image, and how it fails.
-/

namespace ByteMachine

/-! ## Positions -/

/-- A label is defined at a position: so many elements in front of the definition take
a byte. -/
def DefinedAt (elements : List Element) (name : String) (position : Nat) : Prop :=
  ∃ front back, elements = front ++ .label name :: back ∧
    position = front.countP Element.occupies

/-- A label is defined at a position that fits in a byte. -/
def Addressable (elements : List Element) (name : String) : Prop :=
  ∃ position, DefinedAt elements name position ∧ position ≤ 255

/-- The byte of the image that stands in the place of an element. -/
inductive Substitutes (elements : List Element) : Element → UInt8 → Prop
  /-- A byte stays as it is. -/
  | byte (value : UInt8) : Substitutes elements (.byte value) value
  /-- A reference becomes the position of the label. -/
  | reference {name : String} {position : UInt8}
      (hdefined : DefinedAt elements name position.toNat) :
      Substitutes elements (.reference name) position

/-- What is blamed for object code that is not linked.  A label that is defined twice
comes before every reference, and the size of the image comes last. -/
inductive LinkFault (elements : List Element) : Fault → Prop
  /-- The first definition of a label that is defined already. -/
  | duplicate {front back : List Element} {name : String}
      (helements : elements = front ++ .label name :: back)
      (hfront : (labelNames front).Nodup) (hknown : name ∈ labelNames front) :
      LinkFault elements (.duplicateLabel name)
  /-- The first reference that leads nowhere is one to a label without a definition. -/
  | undefined {front back : List Element} {name : String}
      (hnodup : (labelNames elements).Nodup)
      (helements : elements = front ++ .reference name :: back)
      (hfront : ∀ other, .reference other ∈ front → Addressable elements other)
      (hunknown : ∀ position, ¬ DefinedAt elements name position) :
      LinkFault elements (.undefinedLabel name)
  /-- The first reference that leads nowhere is one to a label too far behind. -/
  | outOfRange {front back : List Element} {name : String} {position : Nat}
      (hnodup : (labelNames elements).Nodup)
      (helements : elements = front ++ .reference name :: back)
      (hfront : ∀ other, .reference other ∈ front → Addressable elements other)
      (hdefined : DefinedAt elements name position) (hfar : 255 < position) :
      LinkFault elements (.labelOutOfRange name position)
  /-- The bytes and the references are too many. -/
  | tooLarge (hnodup : (labelNames elements).Nodup)
      (haddressable : ∀ name, .reference name ∈ elements → Addressable elements name)
      (hsize : 256 < elements.countP Element.occupies) :
      LinkFault elements (.programTooLarge (elements.countP Element.occupies))

/-- A label with a position is defined there. -/
private theorem definedAt_of_positionOf {name : String} {elements : List Element}
    {position : Nat} (h : positionOf name elements = some position) :
    DefinedAt elements name position := by
  induction elements generalizing position with
  | nil => cases h
  | cons element rest ih =>
      cases element with
      | byte value | reference other =>
          obtain ⟨before, hbefore, rfl⟩ := Option.map_eq_some_iff.mp h
          obtain ⟨front, back, rfl, rfl⟩ := ih hbefore
          exact ⟨_ :: front, back, rfl, by
            rw [List.countP_cons_of_pos rfl, Nat.add_comm]⟩
      | label other =>
          rw [positionOf] at h
          split at h
          case isTrue hname =>
            obtain rfl := Option.some.inj h
            exact ⟨[], rest, by rw [hname, List.nil_append], rfl⟩
          case isFalse hname =>
            obtain ⟨front, back, rfl, rfl⟩ := ih h
            exact ⟨_ :: front, back, rfl, by
              rw [List.countP_cons_of_neg Bool.false_ne_true]⟩

/-- **Positions.**  A label that is not defined twice is defined at its position and
nowhere else. -/
theorem definedAt_iff {elements : List Element} (hnodup : (labelNames elements).Nodup)
    {name : String} {position : Nat} :
    DefinedAt elements name position ↔ positionOf name elements = some position := by
  constructor
  · rintro ⟨front, back, rfl, rfl⟩
    rw [labelNames_append] at hnodup
    have hfresh : name ∉ labelNames front := fun hmem =>
      (List.nodup_append.mp hnodup).2.2 name hmem name (List.mem_cons_self ..) rfl
    rw [positionOf_append, positionOf_eq_none.mpr hfresh, Option.none_or, positionOf,
      if_pos rfl, ← objectSize_eq_countP]
    rfl
  · exact definedAt_of_positionOf

/-! ## References -/

variable {table : LabelTable} {elements : List Element}

section
variable (htable : labelTable elements = .ok table)
include htable

/-- The table of labels says where a label is defined. -/
private theorem lookup_eq_some {name : String} {position : Nat} :
    table.lookup name = some position ↔ DefinedAt elements name position := by
  rw [definedAt_iff (labelNames_nodup htable), lookup_of_labelTable htable]

/-- A reference has a byte exactly if its label is defined at the position which the byte
is. -/
private theorem labelByte_eq_ok {name : String} {byte : UInt8} :
    labelByte table name = .ok byte ↔ DefinedAt elements name byte.toNat := by
  rw [← lookup_eq_some htable, labelByte]
  cases table.lookup name with
  | none => simp
  | some position =>
      by_cases hfits : position < 256
      · simp only [if_pos hfits, Except.ok.injEq, Option.some.injEq]
        constructor
        · rintro rfl
          exact (UInt8.toNat_ofNat_of_lt' hfits).symm
        · rintro rfl
          exact UInt8.ofNat_toNat
      · have hlt := byte.toNat_lt
        simp only [if_neg hfits, Option.some.injEq, reduceCtorEq, false_iff]
        omega

/-- A reference has a byte exactly if its label can be addressed. -/
private theorem exists_labelByte {name : String} :
    (∃ byte, labelByte table name = .ok byte) ↔ Addressable elements name := by
  constructor
  · rintro ⟨byte, hbyte⟩
    have hlt := byte.toNat_lt
    exact ⟨byte.toNat, (labelByte_eq_ok htable).mp hbyte, by omega⟩
  · rintro ⟨position, hdefined, hfits⟩
    have hlt : position < 256 := Nat.lt_succ_of_le hfits
    refine ⟨UInt8.ofNat position, (labelByte_eq_ok htable).mpr ?_⟩
    rwa [UInt8.toNat_ofNat_of_lt' hlt]

/-- A reference has no byte exactly if its label is not defined, or too far behind. -/
private theorem labelByte_eq_error {name : String} {fault : Fault} :
    labelByte table name = .error fault ↔
      (fault = .undefinedLabel name ∧ ∀ position, ¬ DefinedAt elements name position) ∨
        ∃ position, fault = .labelOutOfRange name position ∧
          DefinedAt elements name position ∧ 255 < position := by
  simp only [← lookup_eq_some htable, labelByte]
  cases table.lookup name with
  | none => simp [eq_comm]
  | some position =>
      by_cases hfits : position < 256
      · have hnot : ¬ 255 < position := by omega
        simp [hfits, hnot]
      · have hfar : 255 < position := by omega
        simp [hfits, hfar, eq_comm]

/-- Object code resolves if all the labels that are referenced can be addressed. -/
private theorem exists_resolve_of_addressable
    (h : ∀ name, .reference name ∈ elements → Addressable elements name) :
    ∃ bytes, resolve table elements = .ok bytes ∧
      bytes.length = elements.countP Element.occupies := by
  obtain ⟨bytes, hbytes⟩ := exists_resolve fun name hname =>
    (exists_labelByte htable).mpr (h name hname)
  exact ⟨bytes, hbytes, by rw [length_of_resolve hbytes, objectSize_eq_countP]⟩

/-- An element resolves to the byte that stands in its place. -/
private theorem resolve_singleton {element : Element} {byte : UInt8} :
    resolve table [element] = .ok [byte] ↔ Substitutes elements element byte := by
  constructor
  · intro h
    cases element with
    | byte value =>
        obtain ⟨-, rfl⟩ : True ∧ value = byte := by simpa [resolve, pure_eq_ok] using h
        exact .byte value
    | label name => cases h
    | reference name =>
        obtain ⟨own, hown, h⟩ := bind_eq_ok.mp h
        obtain rfl := List.head_eq_of_cons_eq (pure_eq_ok.mp h)
        exact .reference ((labelByte_eq_ok htable).mp hown)
  · rintro (_ | hdefined)
    · rfl
    · exact bind_eq_ok.mpr ⟨byte, (labelByte_eq_ok htable).mpr hdefined, rfl⟩

end

/-! ## Both passes -/

/-- Object code is linked to an image exactly if no label is defined twice and every byte
of the image stands in the place of its element. -/
private theorem link_eq_ok_iff {image : Image} :
    link elements = .ok image ↔ (labelNames elements).Nodup ∧
      List.Forall₂ (Substitutes elements) (elements.filter Element.occupies) image.bytes := by
  rw [link_eq_ok]
  constructor
  · rintro ⟨table, htable, hresolve⟩
    rw [resolve_eq_ok] at hresolve
    simp only [resolve_singleton htable] at hresolve
    exact ⟨labelNames_nodup htable, hresolve⟩
  · rintro ⟨hnodup, hbytes⟩
    obtain ⟨table, htable⟩ := exists_labelTable hnodup
    refine ⟨table, htable, ?_⟩
    rw [resolve_eq_ok]
    simpa only [resolve_singleton htable] using hbytes

/-- Linking fails only in the ways of `LinkFault`. -/
private theorem linkFault_of_error {fault : Fault} (h : link elements = .error fault) :
    LinkFault elements fault := by
  rcases bind_eq_error.mp h with hfirst | ⟨table, htable, h⟩
  · obtain ⟨front, name, back, helements, hfront, hknown, rfl⟩ :=
      labelTable_eq_error.mp hfirst
    exact .duplicate helements hfront hknown
  have hnodup := labelNames_nodup htable
  rcases bind_eq_error.mp h with hsecond | ⟨bytes, hbytes, hsize⟩
  · obtain ⟨front, name, back, helements, hfront, hname⟩ := resolve_eq_error.mp hsecond
    have haddressable : ∀ other, .reference other ∈ front → Addressable elements other :=
      fun other hother => (exists_labelByte htable).mp (hfront other hother)
    rcases (labelByte_eq_error htable).mp hname with
      ⟨rfl, hunknown⟩ | ⟨position, rfl, hdefined, hfar⟩
    · exact .undefined hnodup helements haddressable hunknown
    · exact .outOfRange hnodup helements haddressable hdefined hfar
  · obtain ⟨hlarge, rfl⟩ := Image.ofBytes_eq_error.mp hsize
    rw [length_of_resolve hbytes, objectSize_eq_countP] at hlarge ⊢
    exact .tooLarge hnodup (fun name hname =>
      (exists_labelByte htable).mp (exists_labelByte_of_resolve hbytes hname)) hlarge

/-- The first reference that leads nowhere ends the second pass. -/
private theorem link_of_reference {front back : List Element} {name : String}
    {fault : Fault} (hnodup : (labelNames elements).Nodup)
    (helements : elements = front ++ .reference name :: back)
    (hfront : ∀ other, .reference other ∈ front → Addressable elements other)
    (hname : ∀ table, labelTable elements = .ok table →
      labelByte table name = .error fault) : link elements = .error fault := by
  obtain ⟨table, htable⟩ := exists_labelTable hnodup
  have hblames : Blames table elements fault :=
    ⟨front, name, back, helements,
      fun other hother => (exists_labelByte htable).mpr (hfront other hother),
      hname table htable⟩
  exact bind_eq_error.mpr
    (.inr ⟨table, htable, bind_eq_error.mpr (.inl (resolve_eq_error.mpr hblames))⟩)

/-- Whatever `LinkFault` blames, linking fails with. -/
private theorem error_of_linkFault {fault : Fault} (h : LinkFault elements fault) :
    link elements = .error fault := by
  cases h with
  | @duplicate front back name helements hfront hknown =>
      exact bind_eq_error.mpr (.inl (labelTable_eq_error.mpr
        ⟨front, name, back, helements, hfront, hknown, rfl⟩))
  | undefined hnodup helements hfront hunknown =>
      refine link_of_reference hnodup helements hfront ?_
      intro table htable
      exact (labelByte_eq_error htable).mpr (.inl ⟨rfl, hunknown⟩)
  | outOfRange hnodup helements hfront hdefined hfar =>
      refine link_of_reference hnodup helements hfront ?_
      intro table htable
      exact (labelByte_eq_error htable).mpr (.inr ⟨_, rfl, hdefined, hfar⟩)
  | tooLarge hnodup haddressable hsize =>
      obtain ⟨table, htable⟩ := exists_labelTable hnodup
      obtain ⟨bytes, hbytes, hlength⟩ := exists_resolve_of_addressable htable haddressable
      rw [← hlength] at hsize ⊢
      exact bind_eq_error.mpr (.inr ⟨table, htable, bind_eq_error.mpr
        (.inr ⟨bytes, hbytes, Image.ofBytes_eq_error.mpr ⟨hsize, rfl⟩⟩)⟩)

/-- **Linking is substitution.**  Object code is linked exactly if no label is defined
twice, every label that is referenced is defined at a position that fits in a byte, and
at most 256 elements take a byte.  The image consists of these elements in their order,
with the position of its label in the place of every reference.  Where linking fails,
`LinkFault` says what is blamed. -/
theorem link_substitutes (elements : List Element) :
    ((∃ image, link elements = .ok image) ↔
      (labelNames elements).Nodup ∧
        (∀ name, .reference name ∈ elements → Addressable elements name) ∧
        elements.countP Element.occupies ≤ 256) ∧
    (∀ image, link elements = .ok image ↔
      (labelNames elements).Nodup ∧
        List.Forall₂ (Substitutes elements) (elements.filter Element.occupies)
          image.bytes) ∧
    ∀ fault, link elements = .error fault ↔ LinkFault elements fault := by
  refine ⟨⟨?_, ?_⟩, fun image => link_eq_ok_iff,
    fun fault => ⟨linkFault_of_error, error_of_linkFault⟩⟩
  · rintro ⟨image, himage⟩
    obtain ⟨table, htable, hbytes⟩ := link_eq_ok.mp himage
    refine ⟨labelNames_nodup htable, fun name hname =>
      (exists_labelByte htable).mp (exists_labelByte_of_resolve hbytes hname), ?_⟩
    rw [← objectSize_eq_countP, ← length_of_resolve hbytes]
    exact image.fits
  · rintro ⟨hnodup, haddressable, hsize⟩
    obtain ⟨table, htable⟩ := exists_labelTable hnodup
    obtain ⟨bytes, hbytes, hlength⟩ := exists_resolve_of_addressable htable haddressable
    have hfits : bytes.length ≤ memorySize := Nat.le_trans (Nat.le_of_eq hlength) hsize
    exact ⟨⟨bytes, hfits⟩, link_eq_ok.mpr ⟨table, htable, hbytes⟩⟩

/-- A label that is defined twice is blamed before a reference to no label at all. -/
example : link [.reference "x", .label "y", .byte 1, .label "y"] =
    .error (.duplicateLabel "y") := by
  decide

end ByteMachine
