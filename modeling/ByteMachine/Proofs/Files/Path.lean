import ByteMachine.Files.Path
import Mathlib.Data.List.TakeWhile

/-!
# Paths and extensions

A path is made of its pieces and can be put together from them again.  In the same way, a
file name with an extension is made of its stem, a dot and the extension.  So a new extension
can be followed through the texts: a path with a replaced extension has that extension, and
a path that has the extension already is what it was.

The one exception is a name such as `..bin`, whose stem is a single dot.  Without its
extension it leads to the directory above, and then no extension is added.

* `Path.join_pieces`, `Path.pieces_join` — a path and its pieces;
* `Path.splitExtension_eq_some` — a name with an extension;
* `Path.IsName` — a piece that names an entry;
* `Path.extension_withExtension`, `Path.withExtension_eq_self` — the replaced extension.
-/

namespace ByteMachine

namespace Path

variable {path name stem ending piece : String} {front : List String}

/-! ## Pieces -/

/-- A path is split as a list is. -/
theorem split_eq_splitOn (cs : List Char) : split cs = cs.splitOn '/' := by
  induction cs with
  | nil => rfl
  | cons c rest ih =>
      rw [List.splitOn_cons_eq_if_modifyHead, ← ih]
      by_cases hc : c = '/'
      · rw [if_pos (beq_iff_eq.mpr hc), hc, split]
      · have hne : split rest ≠ [] := ih ▸ List.splitOn_ne_nil _ _
        obtain ⟨first, more, hsplit⟩ := List.exists_cons_of_ne_nil hne
        rw [if_neg (by simpa using hc), split.eq_3 c rest hc, hsplit]
        rfl

/-- No piece has a slash in it. -/
private theorem slash_notMem_of_mem_split {cs part : List Char} (h : part ∈ split cs) :
    '/' ∉ part := by
  fun_induction split cs generalizing part with
  | case1 => simp_all
  | case2 rest ih =>
      rcases List.mem_cons.mp h with rfl | h
      · simp
      · exact ih h
  | case3 c rest hc hsplit ih =>
      rw [List.mem_singleton.mp h]
      exact fun hmem => hc (List.mem_singleton.mp hmem).symm
  | case4 c rest hc first more hsplit ih =>
      rw [hsplit] at ih
      rcases List.mem_cons.mp h with rfl | h
      · rw [List.mem_cons, not_or]
        exact ⟨fun heq => hc heq.symm, ih List.mem_cons_self⟩
      · exact ih (List.mem_cons_of_mem _ h)

theorem slash_notMem_of_mem_pieces (h : piece ∈ pieces path) : '/' ∉ piece.toList := by
  obtain ⟨part, hpart, rfl⟩ := List.mem_map.mp h
  rw [String.toList_ofList]
  exact slash_notMem_of_mem_split hpart

/-- A path is its pieces with slashes between them. -/
theorem join_pieces (path : String) : "/".intercalate (pieces path) = path := by
  refine String.toList_injective ?_
  rw [String.toList_intercalate, pieces, List.map_map, split_eq_splitOn]
  simp [Function.comp_def, List.intercalate_splitOn]

/-- Pieces without slashes are the pieces of the path that they make up. -/
theorem pieces_join {parts : List String} (hne : parts ≠ [])
    (hslash : ∀ piece ∈ parts, '/' ∉ piece.toList) :
    pieces ("/".intercalate parts) = parts := by
  rw [pieces, split_eq_splitOn, String.toList_intercalate]
  have hsplit : (['/'].intercalate (parts.map String.toList)).splitOn '/' =
      parts.map String.toList :=
    List.splitOn_intercalate '/' (by simpa using hslash) (by simpa using hne)
  rw [show "/".toList = ['/'] from rfl, hsplit, List.map_map]
  simp [Function.comp_def]

/-! ## File names -/

/-- The characters up to the first dot, and that dot with all that follow. -/
private theorem cut_at_dot {cs front back : List Char} :
    cs.takeWhile (· != '.') = front ∧ cs.dropWhile (· != '.') = '.' :: back ↔
      cs = front ++ '.' :: back ∧ '.' ∉ front := by
  constructor
  · rintro ⟨rfl, hback⟩
    refine ⟨?_, fun hmem => absurd (List.mem_takeWhile_imp hmem) (by decide)⟩
    rw [← hback, List.takeWhile_append_dropWhile]
  · rintro ⟨rfl, hdot⟩
    have hfront : ∀ c ∈ front, (c != '.') = true :=
      fun c hc => bne_iff_ne.mpr fun heq => hdot (heq ▸ hc)
    rw [List.takeWhile_append_of_pos hfront, List.dropWhile_append_of_pos hfront]
    simp

/-- The characters from the first dot on begin with a dot. -/
private theorem eq_dot_of_dropWhile {cs back : List Char} {c : Char}
    (h : cs.dropWhile (· != '.') = c :: back) : c = '.' := by
  have hhead := List.head?_dropWhile_not (· != '.') cs
  rw [h] at hhead
  simpa using hhead

/-- A name that has an extension is its stem, a dot and the extension. -/
theorem splitExtension_eq_some :
    splitExtension name = (stem, some ending) ↔
      name = stem ++ "." ++ ending ∧ stem ≠ "" ∧ '.' ∉ ending.toList := by
  have hdot : ".".toList = ['.'] := rfl
  constructor
  · intro h
    rw [splitExtension] at h
    split at h
    · cases h
    · cases h
    case h_3 c before hbefore hdrop =>
      obtain rfl := eq_dot_of_dropWhile hdrop
      obtain ⟨hname, hending⟩ := cut_at_dot.mp ⟨rfl, hdrop⟩
      obtain ⟨rfl, hsome⟩ := Prod.mk.inj h
      obtain rfl := Option.some.inj hsome
      generalize name.toList.reverse.takeWhile (· != '.') = back at hname hending
      refine ⟨String.toList_injective ?_, ?_, ?_⟩
      · rw [List.reverse_eq_iff.mp hname]
        simp [hdot]
      · simpa [← String.toList_inj] using hbefore
      · simpa using hending
  · rintro ⟨rfl, hstem, hending⟩
    have hreversed : (stem ++ "." ++ ending).toList.reverse =
        ending.toList.reverse ++ '.' :: stem.toList.reverse := by
      simp [hdot]
    obtain ⟨htake, hdrop⟩ := cut_at_dot.mpr ⟨hreversed, by simpa using hending⟩
    obtain ⟨c, before, hbefore⟩ := List.exists_cons_of_ne_nil
      (l := stem.toList.reverse) (by simpa using hstem)
    rw [splitExtension, htake, hdrop, hbefore]
    simp [← hbefore]

/-- A name that has no extension is its own stem. -/
theorem stem_of_splitExtension (h : (splitExtension name).2 = none) :
    (splitExtension name).1 = name := by
  rw [splitExtension] at h ⊢
  split
  · rfl
  · rfl
  case h_3 c before hbefore hdrop =>
    rw [hdrop] at h
    cases before with
    | nil => exact absurd rfl hbefore
    | cons => cases h

/-- The stem begins the name, and it is not empty unless the name is. -/
private theorem splitExtension_stem (hname : name ≠ "") :
    (splitExtension name).1 ≠ "" ∧ ∃ rest, name = (splitExtension name).1 ++ rest := by
  rcases hending : (splitExtension name).2 with _ | ending
  · rw [stem_of_splitExtension hending]
    exact ⟨hname, "", String.append_empty.symm⟩
  · obtain ⟨hsplit, hstem, -⟩ := splitExtension_eq_some.mp (Prod.ext rfl hending)
    exact ⟨hstem, "." ++ ending, hsplit.trans (String.append_assoc ..)⟩

/-- A piece of a path that names an entry of a directory. -/
structure IsName (piece : String) : Prop where
  notIdle : isIdle piece = false
  notParent : piece ≠ parent

theorem IsName.ne_empty (h : IsName piece) : piece ≠ "" := by
  rintro rfl
  cases h.notIdle

/-- The file name of a path is its last piece, if that leads somewhere and not up. -/
theorem splitName_of_pieces (hpieces : pieces path = front ++ [name])
    (hidle : isIdle name = false) :
    splitName path = if name == parent then none else some (front, name) := by
  have hreversed : (pieces path).reverse = name :: front.reverse := by
    rw [hpieces, List.reverse_concat]
  rw [splitName, hreversed, List.dropWhile_cons_of_neg (by rw [hidle]; decide)]
  simp

/-- The file name of a path is one of its pieces, behind those in front of it. -/
theorem splitName_eq_some (h : splitName path = some (front, name)) :
    IsName name ∧ front ++ [name] <+: pieces path := by
  have hpieces := List.takeWhile_append_dropWhile (p := isIdle) (l := (pieces path).reverse)
  have hhead := List.head?_dropWhile_not isIdle (pieces path).reverse
  rw [splitName] at h
  split at h
  · cases h
  case h_2 last before hdrop =>
    split_ifs at h with hparent
    obtain ⟨rfl, rfl⟩ := Prod.mk.inj (Option.some.inj h)
    rw [hdrop] at hpieces hhead
    refine ⟨⟨hhead, by simpa using hparent⟩, List.reverse_suffix.mp ?_⟩
    rw [List.reverse_concat, List.reverse_reverse, ← hpieces]
    exact List.suffix_append ..

/-- The extension of a path that ends in a name is that of the name. -/
theorem extension_of_pieces (hpieces : pieces path = front ++ [name]) (hname : IsName name) :
    extension path = (splitExtension name).2 := by
  have hparent : ¬ (name == parent) = true := fun h => hname.notParent (beq_iff_eq.mp h)
  rw [extension, splitName_of_pieces hpieces hname.notIdle, if_neg hparent]

/-! ## Replacing the extension -/

/-- There is no slash in the last of some pieces if there is none in either part of it. -/
private theorem slash_concat_append {first second : String} :
    (∀ piece ∈ front ++ [first ++ second], '/' ∉ piece.toList) ↔
      (∀ piece ∈ front ++ [first], '/' ∉ piece.toList) ∧ '/' ∉ second.toList := by
  rw [List.forall_mem_append, List.forall_mem_append, List.forall_mem_singleton,
    List.forall_mem_singleton, String.toList_append, List.mem_append, not_or, and_assoc]

/-- **A new extension is the extension.**  If a path ends in a name after an extension has
been put in, then that is the extension of the path. -/
theorem extension_withExtension (hdot : '.' ∉ ending.toList) (hslash : '/' ∉ ending.toList)
    (hpieces : pieces (withExtension path ending) = front ++ [name]) (hname : IsName name) :
    extension (withExtension path ending) = some ending := by
  rw [extension_of_pieces hpieces hname]
  cases hcut : splitName (cutExtension path) with
  | none =>
      -- nothing has been put in, and what is left does not end in a name
      have hparent : ¬ (name == parent) = true := fun h => hname.notParent (beq_iff_eq.mp h)
      simp only [withExtension, hcut] at hpieces
      rw [splitName_of_pieces hpieces hname.notIdle, if_neg hparent] at hcut
      cases hcut
  | some split =>
      obtain ⟨before, old⟩ := split
      obtain ⟨hold, hbegins⟩ := splitName_eq_some hcut
      obtain ⟨hstem, rest, hrest⟩ := splitExtension_stem hold.ne_empty
      have holdSlash : ∀ piece ∈ before ++ [old], '/' ∉ piece.toList :=
        fun piece hpiece => slash_notMem_of_mem_pieces (hbegins.subset hpiece)
      have hnewSlash : ∀ piece ∈ before ++ [(splitExtension old).1 ++ "." ++ ending],
          '/' ∉ piece.toList := by
        rw [hrest, slash_concat_append] at holdSlash
        rw [slash_concat_append, slash_concat_append]
        exact ⟨⟨holdSlash.1, by decide⟩, hslash⟩
      simp only [withExtension, hcut] at hpieces
      rw [pieces_join (by simp) hnewSlash] at hpieces
      obtain ⟨-, rfl⟩ := List.append_singleton_inj.mp hpieces
      exact congrArg Prod.snd (splitExtension_eq_some.mpr ⟨rfl, hstem, hdot⟩)

/-- What is written behind the last piece of a path is written behind the path. -/
private theorem join_concat_append (front : List String) (first second : String) :
    "/".intercalate (front ++ [first ++ second]) =
      "/".intercalate (front ++ [first]) ++ second := by
  rcases front with _ | ⟨piece, more⟩
  · simp
  · rw [String.intercalate_append_of_ne_nil (by simp) (by simp),
      String.intercalate_append_of_ne_nil (by simp) (by simp)]
    simp [String.append_assoc]

/-- A path without its extension ends in the stem and the dot. -/
private theorem cutExtension_of_pieces (hpieces : pieces path = front ++ [stem ++ "." ++ ending])
    (hextension : extension path = some ending) :
    cutExtension path = "/".intercalate (front ++ [stem ++ "."]) := by
  have hpath : path = "/".intercalate (front ++ [stem ++ "."]) ++ ending := by
    rw [← join_concat_append, ← hpieces, join_pieces]
  rw [cutExtension, hextension]
  refine String.toList_injective ?_
  generalize "/".intercalate (front ++ [stem ++ "."]) = start at hpath
  rw [hpath]
  simpa using List.take_left' String.length_toList

/-- **The extension that is there already.**  To put it in changes nothing, unless the path
without it leads up: then nothing is put in. -/
theorem withExtension_eq_self (hpieces : pieces path = front ++ [name]) (hname : IsName name)
    (hextension : extension path = some ending) :
    withExtension path ending = path ∨
      pieces (withExtension path ending) = front ++ [parent] := by
  obtain ⟨stem, hsplit⟩ : ∃ stem, splitExtension name = (stem, some ending) :=
    ⟨_, Prod.ext rfl ((extension_of_pieces hpieces hname).symm.trans hextension)⟩
  obtain ⟨rfl, hstem, -⟩ := splitExtension_eq_some.mp hsplit
  have hcut := cutExtension_of_pieces hpieces hextension
  have hslash : ∀ piece ∈ front ++ [stem ++ "."], '/' ∉ piece.toList :=
    (slash_concat_append.mp fun piece hpiece =>
      slash_notMem_of_mem_pieces (hpieces ▸ hpiece)).1
  have hcutPieces : pieces (cutExtension path) = front ++ [stem ++ "."] := by
    rw [hcut, pieces_join (by simp) hslash]
  have hidle : isIdle (stem ++ ".") = false := by
    simp [isIdle, hstem]
  have hcutName := splitName_of_pieces hcutPieces hidle
  by_cases hparent : stem ++ "." = parent
  · right
    rw [if_pos (beq_iff_eq.mpr hparent)] at hcutName
    simp only [withExtension, hcutName]
    rw [hcutPieces, hparent]
  · left
    rw [if_neg (by simpa using hparent)] at hcutName
    have hstemSplit : splitExtension (stem ++ ".") = (stem, some "") :=
      splitExtension_eq_some.mpr ⟨String.append_empty.symm, hstem, by simp⟩
    simp only [withExtension, hcutName, hstemSplit]
    rw [← hpieces, join_pieces]

end Path

end ByteMachine
