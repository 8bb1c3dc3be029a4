import ByteMachine.Object.Link
import ByteMachine.Proofs.Success

/-!
# Labels of object code

Linking goes over the object code twice: once for the positions of the labels,
and once for the bytes.  This file says what either pass comes to when the code
is put together from parts.

* `positionOf` — the position of a label's definition;
* `lookup_of_labelTable` — the table of labels holds these positions;
* `labelNames_nodup` — no label of a table is defined twice;
* `resolve_append`, `length_of_resolve` — the bytes of the parts in a row, as many
  as the parts have room for;
* `link_eq_ok` — both passes together.
-/

namespace ByteMachine

/-! ## Positions -/

/-- The position of the first definition of a label, if there is one. -/
def positionOf (name : String) : List Element → Option Nat
  | [] => none
  | .label other :: rest => if other = name then some 0 else positionOf name rest
  | .byte _ :: rest | .reference _ :: rest => (positionOf name rest).map (1 + ·)

/-- The names that are defined as labels, in order. -/
def labelNames : List Element → List String
  | [] => []
  | .label name :: rest => name :: labelNames rest
  | .byte _ :: rest | .reference _ :: rest => labelNames rest

theorem objectSize_append (front back : List Element) :
    objectSize (front ++ back) = objectSize front + objectSize back := by
  induction front with
  | nil => rw [List.nil_append, objectSize, Nat.zero_add]
  | cons element front ih => rw [List.cons_append, objectSize, objectSize, ih, Nat.add_assoc]

/-- A label that is not defined in the first part is looked for in the second one,
behind the first one. -/
theorem positionOf_append (name : String) (front back : List Element) :
    positionOf name (front ++ back) =
      (positionOf name front).or ((positionOf name back).map (objectSize front + ·)) := by
  induction front with
  | nil => simp [positionOf, objectSize]
  | cons element front ih =>
      rw [objectSize]
      cases element with
      | byte value | reference other =>
          rw [List.cons_append, positionOf, positionOf, ih, Element.size]
          cases positionOf name front <;> cases positionOf name back <;>
            simp [Nat.add_assoc]
      | label other =>
          rw [List.cons_append, positionOf, positionOf, ih]
          by_cases hname : other = name
          · rw [if_pos hname, if_pos hname, Option.some_or]
          · rw [if_neg hname, if_neg hname, Element.size, Nat.zero_add]

theorem labelNames_append (front back : List Element) :
    labelNames (front ++ back) = labelNames front ++ labelNames back := by
  induction front with
  | nil => rfl
  | cons element front ih => cases element <;> simp [labelNames, ih]

/-- A label has a position exactly if it is defined. -/
theorem positionOf_eq_none {name : String} {elements : List Element} :
    positionOf name elements = none ↔ name ∉ labelNames elements := by
  induction elements with
  | nil => simp [positionOf, labelNames]
  | cons element rest ih =>
      cases element with
      | byte value | reference other => simp [positionOf, labelNames, ih]
      | label other =>
          by_cases hname : other = name
          · simp [positionOf, labelNames, hname]
          · simp [positionOf, labelNames, hname, ih, Ne.symm hname]

/-! ## The first pass -/

/-- What is collected from the rest of the object code is added to the table. -/
private theorem lookup_of_collectLabels {table result : LabelTable} {position : Nat}
    {elements : List Element} (h : collectLabels table position elements = .ok result)
    (name : String) :
    result.lookup name =
      (table.lookup name).or ((positionOf name elements).map (position + ·)) := by
  induction elements generalizing table position with
  | nil =>
      obtain rfl := Except.ok.inj h
      simp [positionOf]
  | cons element rest ih =>
      cases element with
      | byte value | reference other =>
          have hrest : collectLabels table (position + 1) rest = .ok result := h
          rw [ih hrest, positionOf, Option.map_map]
          congr 2
          funext n
          exact Nat.add_assoc position 1 n
      | label other =>
          rw [collectLabels] at h
          cases hother : table.lookup other with
          | some known =>
              rw [hother] at h
              cases h
          | none =>
              rw [hother] at h
              rw [ih h, positionOf]
              by_cases hname : other = name
              · subst hname
                simp [hother]
              · simp [List.lookup_cons, hname, beq_eq_false_iff_ne.mpr (Ne.symm hname)]

/-- No label is collected twice, and none that the table holds already. -/
private theorem nodup_of_collectLabels {table result : LabelTable} {position : Nat}
    {elements : List Element} (h : collectLabels table position elements = .ok result) :
    (labelNames elements).Nodup ∧ ∀ name ∈ labelNames elements, table.lookup name = none := by
  induction elements generalizing table position with
  | nil => simp [labelNames]
  | cons element rest ih =>
      cases element with
      | byte value | reference other => exact ih h
      | label other =>
          rw [collectLabels] at h
          cases hother : table.lookup other with
          | some known =>
              rw [hother] at h
              cases h
          | none =>
              rw [hother] at h
              obtain ⟨hnodup, hnew⟩ := ih h
              have hfresh : ∀ name ∈ labelNames rest,
                  name ≠ other ∧ table.lookup name = none := by
                intro name hname
                have hlookup := hnew name hname
                by_cases hsame : name = other
                · simp [hsame] at hlookup
                · simpa [List.lookup_cons, beq_eq_false_iff_ne.mpr hsame, hsame] using hlookup
              refine ⟨List.nodup_cons.mpr ⟨fun hmem => (hfresh other hmem).1 rfl, hnodup⟩, ?_⟩
              intro name hname
              rcases List.mem_cons.mp hname with rfl | hrest
              · exact hother
              · exact (hfresh name hrest).2

/-- **The table of labels.**  It gives each label the position of its
definition. -/
theorem lookup_of_labelTable {elements : List Element} {table : LabelTable}
    (h : labelTable elements = .ok table) (name : String) :
    table.lookup name = positionOf name elements := by
  rw [lookup_of_collectLabels h]
  simp

/-- **Labels are defined once.**  Object code with a table of labels defines no
label twice. -/
theorem labelNames_nodup {elements : List Element} {table : LabelTable}
    (h : labelTable elements = .ok table) : (labelNames elements).Nodup :=
  (nodup_of_collectLabels h).1

/-! ## The second pass -/

/-- Object code in two parts resolves if both parts do. -/
theorem resolve_append {table : LabelTable} {front back : List Element}
    {bytes : List UInt8} :
    resolve table (front ++ back) = .ok bytes ↔
      ∃ first second, resolve table front = .ok first ∧
        resolve table back = .ok second ∧ bytes = first ++ second := by
  induction front generalizing bytes with
  | nil => simp [resolve]
  | cons element front ih =>
      cases element with
      | byte value =>
          simp only [List.cons_append, resolve, bind_eq_ok, pure_eq_ok, ih]
          grind
      | label name => simpa only [List.cons_append, resolve] using ih
      | reference name =>
          simp only [List.cons_append, resolve, bind_eq_ok, pure_eq_ok, ih]
          grind

/-- The bytes are as many as the object code has room for. -/
theorem length_of_resolve {table : LabelTable} {elements : List Element}
    {bytes : List UInt8} (h : resolve table elements = .ok bytes) :
    bytes.length = objectSize elements := by
  induction elements generalizing bytes with
  | nil =>
      obtain rfl := Except.ok.inj h
      rfl
  | cons element rest ih =>
      rw [objectSize]
      cases element with
      | byte value =>
          obtain ⟨more, hmore, h⟩ := bind_eq_ok.mp h
          obtain rfl := pure_eq_ok.mp h
          rw [List.length_cons, ih hmore, Element.size, Nat.add_comm]
      | label name =>
          rw [ih h, Element.size, Nat.zero_add]
      | reference name =>
          obtain ⟨byte, hbyte, h⟩ := bind_eq_ok.mp h
          obtain ⟨more, hmore, h⟩ := bind_eq_ok.mp h
          obtain rfl := pure_eq_ok.mp h
          rw [List.length_cons, ih hmore, Element.size, Nat.add_comm]

/-- Bytes that are known already stay as they are. -/
theorem resolve_map_byte (table : LabelTable) (bytes : List UInt8) :
    resolve table (bytes.map .byte) = .ok bytes := by
  induction bytes with
  | nil => rfl
  | cons byte bytes ih =>
      rw [List.map_cons, resolve, ih]
      rfl

theorem labelTable_map_byte (bytes : List UInt8) :
    labelTable (bytes.map .byte) = .ok [] := by
  have hcollect : ∀ position, collectLabels [] position (bytes.map .byte) = .ok [] := by
    induction bytes with
    | nil => exact fun _ => rfl
    | cons byte bytes ih => exact fun position => ih (position + 1)
  exact hcollect 0

/-- An image of given bytes consists of these bytes. -/
theorem Image.ofBytes_eq_ok {bytes : List UInt8} {image : Image} :
    Image.ofBytes bytes = .ok image ↔ image.bytes = bytes := by
  unfold Image.ofBytes
  constructor
  · intro h
    split at h
    · exact (congrArg Image.bytes (Except.ok.inj h)).symm
    · cases h
  · rintro rfl
    rw [dif_pos image.fits]

/-- **Linking.**  Object code is linked to an image if it has a table of labels with
which it resolves to the bytes of the image. -/
theorem link_eq_ok {elements : List Element} {image : Image} :
    link elements = .ok image ↔
      ∃ table, labelTable elements = .ok table ∧ resolve table elements = .ok image.bytes := by
  simp only [link, bind_eq_ok, Image.ofBytes_eq_ok]
  constructor
  · rintro ⟨table, htable, bytes, hbytes, rfl⟩
    exact ⟨table, htable, hbytes⟩
  · rintro ⟨table, htable, hbytes⟩
    exact ⟨table, htable, _, hbytes, rfl⟩

/-- **Linking of bytes.**  Bytes are linked to the image that consists of them. -/
theorem link_map_byte (bytes : List UInt8) :
    link (bytes.map .byte) = Image.ofBytes bytes := by
  rw [link, labelTable_map_byte]
  show (resolve [] (bytes.map .byte) >>= Image.ofBytes) = _
  rw [resolve_map_byte]
  rfl

end ByteMachine
