import ByteMachine.Proofs.Object.Labels
import Mathlib.Data.List.Induction

/-!
# When the passes of linking fail

Linking goes over object code twice, and measures the bytes in the end.  Each of these
parts fails in one way only, and blames the first element that is at fault.

* `Element.occupies` — the elements that take a byte;
* `exists_labelTable`, `labelTable_eq_error` — the first pass fails exactly if a label is
  defined twice, and blames the first definition of a label that is defined already;
* `resolve_eq_ok` — the second pass treats every element by itself;
* `Blames`, `resolve_eq_error` — it fails exactly if some reference has no byte, and
  blames the first one;
* `Image.ofBytes_eq_error` — bytes that are too many are no image.
-/

namespace ByteMachine

/-! ## Elements that take a byte -/

/-- Does an element take a byte of the image? -/
def Element.occupies : Element → Bool
  | .label _ => false
  | .byte _ | .reference _ => true

/-- Object code has room for as many bytes as elements of it take one. -/
theorem objectSize_eq_countP (elements : List Element) :
    objectSize elements = elements.countP Element.occupies := by
  induction elements with
  | nil => rfl
  | cons element rest ih =>
      rw [objectSize, ih]
      cases element with
      | byte value | reference name =>
          rw [List.countP_cons_of_pos rfl, Element.size, Nat.add_comm]
      | label name =>
          rw [List.countP_cons_of_neg Bool.false_ne_true, Element.size, Nat.zero_add]

/-! ## The first pass -/

/-- What is collected from a first part is the table for the second one. -/
private theorem collectLabels_append {table middle : LabelTable} {position : Nat}
    {front : List Element} (h : collectLabels table position front = .ok middle)
    (back : List Element) :
    collectLabels table position (front ++ back) =
      collectLabels middle (position + objectSize front) back := by
  induction front generalizing table position with
  | nil =>
      obtain rfl := Except.ok.inj h
      rfl
  | cons element front ih =>
      rw [objectSize, ← Nat.add_assoc]
      cases element with
      | byte value | reference other => exact ih h
      | label other =>
          rw [collectLabels] at h
          rw [List.cons_append, collectLabels]
          cases hother : table.lookup other with
          | some known =>
              rw [hother] at h
              cases h
          | none =>
              rw [hother] at h
              exact ih h

/-- Labels that are defined once, and not in the table yet, are collected. -/
private theorem exists_collectLabels {table : LabelTable} {elements : List Element}
    (hnodup : (labelNames elements).Nodup)
    (hnew : ∀ name ∈ labelNames elements, table.lookup name = none) (position : Nat) :
    ∃ result, collectLabels table position elements = .ok result := by
  induction elements generalizing table position with
  | nil => exact ⟨table, rfl⟩
  | cons element rest ih =>
      cases element with
      | byte value | reference other => exact ih hnodup hnew (position + 1)
      | label other =>
          obtain ⟨hfresh, hrest⟩ := List.nodup_cons.mp hnodup
          rw [collectLabels, hnew other (List.mem_cons_self ..)]
          refine ih hrest ?_ position
          intro name hname
          have hne : name ≠ other := fun heq => hfresh (heq ▸ hname)
          rw [List.lookup_cons, beq_eq_false_iff_ne.mpr hne]
          exact hnew name (List.mem_cons_of_mem _ hname)

/-- Labels that are defined once have a table. -/
theorem exists_labelTable {elements : List Element} (h : (labelNames elements).Nodup) :
    ∃ table, labelTable elements = .ok table :=
  exists_collectLabels h (fun _ _ => rfl) 0

/-- Object code that defines a label twice has a first definition of a label that is
defined already. -/
private theorem exists_duplicate {elements : List Element}
    (h : ¬ (labelNames elements).Nodup) :
    ∃ front name back, elements = front ++ .label name :: back ∧
      (labelNames front).Nodup ∧ name ∈ labelNames front := by
  induction elements using List.reverseRecOn with
  | nil => exact absurd List.nodup_nil h
  | append_singleton front last ih =>
      by_cases hfront : (labelNames front).Nodup
      · cases last with
        | byte value | reference other =>
            rw [labelNames_append] at h
            exact absurd (by simpa [labelNames] using hfront) h
        | label name =>
            refine ⟨front, name, [], rfl, hfront, ?_⟩
            by_contra hfresh
            apply h
            rw [labelNames_append]
            refine List.nodup_append.mpr ⟨hfront, by simp [labelNames], ?_⟩
            rintro known hknown other hother rfl
            obtain rfl := List.mem_singleton.mp hother
            exact hfresh hknown
      · obtain ⟨before, name, back, rfl, hbefore, hknown⟩ := ih hfront
        exact ⟨before, name, back ++ [last], by simp, hbefore, hknown⟩

/-- A definition of a label that is defined already ends the first pass. -/
private theorem labelTable_of_duplicate {front : List Element} {name : String}
    (hfront : (labelNames front).Nodup) (hknown : name ∈ labelNames front)
    (back : List Element) :
    labelTable (front ++ .label name :: back) = .error (.duplicateLabel name) := by
  obtain ⟨middle, hmiddle⟩ := exists_labelTable hfront
  have hlookup : middle.lookup name ≠ none := by
    rw [lookup_of_labelTable hmiddle]
    exact fun hnone => positionOf_eq_none.mp hnone hknown
  obtain ⟨position, hposition⟩ := Option.ne_none_iff_exists'.mp hlookup
  rw [labelTable, collectLabels_append hmiddle, collectLabels, hposition]

/-- **The first pass fails** exactly if some label is defined twice, and blames the
first definition of a label that is defined already. -/
theorem labelTable_eq_error {elements : List Element} {fault : Fault} :
    labelTable elements = .error fault ↔
      ∃ front name back, elements = front ++ .label name :: back ∧
        (labelNames front).Nodup ∧ name ∈ labelNames front ∧
          fault = .duplicateLabel name := by
  constructor
  · intro h
    have hnot : ¬ (labelNames elements).Nodup := by
      intro hnodup
      obtain ⟨table, htable⟩ := exists_labelTable hnodup
      rw [htable] at h
      cases h
    obtain ⟨front, name, back, rfl, hfront, hknown⟩ := exists_duplicate hnot
    rw [labelTable_of_duplicate hfront hknown] at h
    exact ⟨front, name, back, rfl, hfront, hknown, (Except.error.inj h).symm⟩
  · rintro ⟨front, name, back, rfl, hfront, hknown, rfl⟩
    exact labelTable_of_duplicate hfront hknown back

/-! ## The second pass -/

variable {table : LabelTable} {elements : List Element}

/-- **The second pass succeeds** exactly if every element that takes a byte does so by
itself, and the bytes stand in the order of these elements. -/
theorem resolve_eq_ok {bytes : List UInt8} :
    resolve table elements = .ok bytes ↔
      List.Forall₂ (fun element byte => resolve table [element] = .ok [byte])
        (elements.filter Element.occupies) bytes := by
  induction elements generalizing bytes with
  | nil => simp [resolve, eq_comm]
  | cons element rest ih =>
      rw [← List.singleton_append, resolve_append, List.singleton_append]
      cases element with
      | byte value | reference name =>
          rw [List.filter_cons_of_pos rfl, List.forall₂_cons_left_iff]
          constructor
          · rintro ⟨first, second, hfirst, hsecond, rfl⟩
            obtain ⟨byte, rfl⟩ := List.length_eq_one_iff.mp (length_of_resolve hfirst)
            exact ⟨byte, second, hfirst, ih.mp hsecond, rfl⟩
          · rintro ⟨byte, second, hfirst, hsecond, rfl⟩
            exact ⟨[byte], second, hfirst, ih.mpr hsecond, rfl⟩
      | label name =>
          rw [List.filter_cons_of_neg Bool.false_ne_true, ← ih]
          constructor
          · rintro ⟨first, second, hfirst, hsecond, rfl⟩
            rwa [List.length_eq_zero_iff.mp (length_of_resolve hfirst)]
          · exact fun h => ⟨[], bytes, rfl, h, rfl⟩

/-- Object code resolves if all its references have a byte. -/
theorem exists_resolve
    (h : ∀ name, .reference name ∈ elements → ∃ byte, labelByte table name = .ok byte) :
    ∃ bytes, resolve table elements = .ok bytes := by
  induction elements with
  | nil => exact ⟨[], rfl⟩
  | cons element rest ih =>
      obtain ⟨bytes, hbytes⟩ := ih fun name hname => h name (List.mem_cons_of_mem _ hname)
      cases element with
      | byte value =>
          exact ⟨value :: bytes, bind_eq_ok.mpr ⟨bytes, hbytes, rfl⟩⟩
      | label name => exact ⟨bytes, hbytes⟩
      | reference name =>
          obtain ⟨byte, hbyte⟩ := h name (List.mem_cons_self ..)
          exact ⟨byte :: bytes,
            bind_eq_ok.mpr ⟨byte, hbyte, bind_eq_ok.mpr ⟨bytes, hbytes, rfl⟩⟩⟩

/-- What fails behind object code that resolves fails there too. -/
private theorem resolve_append_of_error {front back : List Element} {bytes : List UInt8}
    {fault : Fault} (hfront : resolve table front = .ok bytes)
    (hback : resolve table back = .error fault) :
    resolve table (front ++ back) = .error fault := by
  induction front generalizing bytes with
  | nil => exact hback
  | cons element front ih =>
      cases element with
      | byte value =>
          obtain ⟨more, hmore, -⟩ := bind_eq_ok.mp hfront
          exact bind_eq_error.mpr (.inl (ih hmore))
      | label name => exact ih hfront
      | reference name =>
          obtain ⟨byte, hbyte, hfront⟩ := bind_eq_ok.mp hfront
          obtain ⟨more, hmore, -⟩ := bind_eq_ok.mp hfront
          exact bind_eq_error.mpr
            (.inr ⟨byte, hbyte, bind_eq_error.mpr (.inl (ih hmore))⟩)

/-- The first reference without a byte fails with a fault. -/
def Blames (table : LabelTable) (elements : List Element) (fault : Fault) : Prop :=
  ∃ front name back, elements = front ++ .reference name :: back ∧
    (∀ other, .reference other ∈ front → ∃ byte, labelByte table other = .ok byte) ∧
      labelByte table name = .error fault

/-- An element in front that is no reference without a byte is not to blame. -/
theorem Blames.cons {element : Element} {fault : Fault}
    (h : Blames table elements fault)
    (helement : ∀ other, element = .reference other →
      ∃ byte, labelByte table other = .ok byte) : Blames table (element :: elements) fault := by
  obtain ⟨front, name, back, rfl, hfront, hname⟩ := h
  refine ⟨element :: front, name, back, rfl, ?_, hname⟩
  intro other hother
  rcases List.mem_cons.mp hother with hhead | htail
  · exact helement other hhead.symm
  · exact hfront other htail

/-- **The second pass fails** exactly if there is a reference without a byte, with the
fault of the first one. -/
theorem resolve_eq_error {fault : Fault} :
    resolve table elements = .error fault ↔ Blames table elements fault := by
  constructor
  · intro h
    induction elements with
    | nil => cases h
    | cons element rest ih =>
        cases element with
        | byte value =>
            rcases bind_eq_error.mp h with hrest | ⟨bytes, -, hpure⟩
            · exact (ih hrest).cons fun _ hother => by cases hother
            · cases hpure
        | label name => exact Blames.cons (ih h) fun _ hother => by cases hother
        | reference name =>
            rcases bind_eq_error.mp h with hname | ⟨byte, hbyte, h⟩
            · exact ⟨[], name, rest, rfl, fun _ hother => absurd hother List.not_mem_nil, hname⟩
            · rcases bind_eq_error.mp h with hrest | ⟨bytes, -, hpure⟩
              · refine (ih hrest).cons ?_
                intro other hother
                obtain rfl := Element.reference.inj hother
                exact ⟨byte, hbyte⟩
              · cases hpure
  · rintro ⟨front, name, back, rfl, hfront, hname⟩
    obtain ⟨bytes, hbytes⟩ := exists_resolve hfront
    exact resolve_append_of_error hbytes (bind_eq_error.mpr (.inl hname))

/-- The references of object code that resolves have a byte. -/
theorem exists_labelByte_of_resolve {bytes : List UInt8}
    (h : resolve table elements = .ok bytes) {name : String}
    (hname : .reference name ∈ elements) : ∃ byte, labelByte table name = .ok byte := by
  obtain ⟨front, back, rfl⟩ := List.append_of_mem hname
  obtain ⟨first, second, -, hsecond, -⟩ := resolve_append.mp h
  obtain ⟨byte, hbyte, -⟩ := bind_eq_ok.mp hsecond
  exact ⟨byte, hbyte⟩

/-! ## The size -/

/-- Bytes that do not fit in memory are no image. -/
theorem Image.ofBytes_eq_error {bytes : List UInt8} {fault : Fault} :
    Image.ofBytes bytes = .error fault ↔
      256 < bytes.length ∧ fault = .programTooLarge bytes.length := by
  unfold Image.ofBytes
  split
  case isTrue hfits =>
    have hfits : ¬ 256 < bytes.length := Nat.not_lt_of_le hfits
    simp [hfits]
  case isFalse hlarge =>
    have hlarge : 256 < bytes.length := Nat.lt_of_not_le hlarge
    simp [hlarge, eq_comm]

end ByteMachine
