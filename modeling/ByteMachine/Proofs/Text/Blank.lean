import ByteMachine.Text.Blank
import Mathlib.Data.List.DropRight

/-!
# What is left of a trimmed text

A text consists of white space, of what is left of it when it is trimmed, and of white space
again.  The other way round, what stands between white space is left if it neither starts nor
ends with such a character.
-/

namespace ByteMachine

namespace Blank

/-- All characters of a text are white space. -/
def IsBlank (text : List Char) : Prop :=
  ∀ c ∈ text, isBlank c = true

/-- **A text apart.**  Trimming takes white space from both ends. -/
theorem exists_trim (text : List Char) :
    ∃ front back, text = front ++ trim text ++ back ∧ IsBlank front ∧ IsBlank back := by
  refine ⟨text.takeWhile isBlank, (trimStart text).rtakeWhile isBlank, ?_,
    fun c hc => List.mem_takeWhile_imp hc, fun c hc => List.mem_rtakeWhile_imp hc⟩
  have htrim : trim text = (trimStart text).rdropWhile isBlank := rfl
  rw [htrim, List.append_assoc, List.rdropWhile_append_rtakeWhile, trimStart,
    List.takeWhile_append_dropWhile]

theorem trimStart_append {front : List Char} (h : IsBlank front) (rest : List Char) :
    trimStart (front ++ rest) = trimStart rest :=
  List.dropWhile_append_of_pos h

theorem trimStart_of_head? {text : List Char} (h : ∀ c ∈ text.head?, isBlank c = false) :
    trimStart text = text := by
  cases text with
  | nil => rfl
  | cons c rest => exact List.dropWhile_cons_of_neg (by rw [h c rfl]; decide)

/-- **A text together.**  Between white space, a text is left that neither starts nor ends with
white space. -/
theorem trim_append {front word back : List Char} (hfront : IsBlank front) (hback : IsBlank back)
    (hfirst : ∀ c ∈ word.head?, isBlank c = false)
    (hlast : ∀ c ∈ word.getLast?, isBlank c = false) : trim (front ++ word ++ back) = word := by
  rw [trim, List.append_assoc, trimStart_append hfront]
  cases word with
  | nil =>
      have hnil : trimStart back = [] := List.dropWhile_eq_nil_iff.mpr hback
      rw [List.nil_append, hnil]
      rfl
  | cons c rest =>
      have hreversed : IsBlank back.reverse := fun d hd => hback d (List.mem_reverse.mp hd)
      have hstart : trimStart (c :: rest ++ back) = c :: rest ++ back :=
        trimStart_of_head? fun d hd => hfirst d hd
      have hend : trimStart (c :: rest).reverse = (c :: rest).reverse :=
        trimStart_of_head? fun d hd => hlast d (by rwa [List.head?_reverse] at hd)
      rw [hstart, List.reverse_append, trimStart_append hreversed, hend, List.reverse_reverse]

end Blank

end ByteMachine
