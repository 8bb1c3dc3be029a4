import ByteMachine.Assembly.Token
import ByteMachine.Proofs.Success

/-!
# Tokens of spaced words

A line that consists of words with single spaces between them, where no word
holds a character that means something to the scan, has exactly these words as
its tokens: `tokenize_words`.
-/

namespace ByteMachine

/-- A character that only extends the token it stands in. -/
def IsPlain (c : Char) : Prop :=
  c ≠ '#' ∧ isSeparator c = false ∧ c ≠ ':' ∧ c ≠ quote

/-- A word of plain characters, with at least one of them. -/
def IsWord (word : List Char) : Prop :=
  word ≠ [] ∧ ∀ c ∈ word, IsPlain c

/-- The characters that mean something to the scan. -/
def specialChars : List Char :=
  ['#', ' ', '\t', ',', '\r', ':', quote]

/-- The other characters are plain. -/
theorem isPlain_of_not_special {c : Char} (h : c ∉ specialChars) : IsPlain c := by
  simp only [specialChars, List.mem_cons, List.not_mem_nil, or_false, not_or] at h
  obtain ⟨hcomment, hspace, htab, hcomma, hreturn, hcolon, hquote⟩ := h
  refine ⟨hcomment, ?_, hcolon, hquote⟩
  simp only [isSeparator, Bool.or_eq_false_iff, beq_eq_false_iff_ne]
  exact ⟨⟨⟨hspace, htab⟩, hcomma⟩, hreturn⟩

/-- Characters that pass a test are plain if no special one does. -/
theorem isPlain_of_test {test : Char → Bool} (h : specialChars.any test = false) {c : Char}
    (hc : test c = true) : IsPlain c := by
  refine isPlain_of_not_special fun hspecial => ?_
  exact List.any_eq_false.mp h c hspecial hc

/-- A colon is no word. -/
theorem IsWord.ne_colon {word : List Char} (h : IsWord word) : String.ofList word ≠ ":" := by
  intro hcolon
  have hchars := congrArg String.toList hcolon
  rw [String.toList_ofList] at hchars
  subst hchars
  exact (h.2 ':' List.mem_cons_self).2.2.1 rfl

/-- A plain character extends the token that is being read, or starts one. -/
theorem scan_plain {c : Char} (h : IsPlain c) (column : Nat)
    (part : Option PartialToken) (rest : List Char) :
    scan column part .outside (c :: rest) =
      scan (column + c.utf8Size) (PartialToken.extend part column c) .outside rest := by
  obtain ⟨hcomment, hseparator, hcolon, hquote⟩ := h
  rw [scan, if_neg hcomment, hseparator, if_neg Bool.false_ne_true, if_neg hcolon,
    if_neg hquote]

private theorem scan_space (column : Nat) (part : Option PartialToken)
    (rest : List Char) :
    scan column part .outside (' ' :: rest) =
      (PartialToken.finish part ++ ·) <$> scan (column + 1) none .outside rest := by
  rw [scan, if_neg (by decide), if_pos (by decide)]
  rfl

/-- The rest of a word extends its token. -/
private theorem scan_word {word : List Char} (h : ∀ c ∈ word, IsPlain c) (column : Nat)
    (part : PartialToken) (rest : List Char) :
    ∃ next, scan column (some part) .outside (word ++ rest) =
      scan next (some { part with reversed := word.reverse ++ part.reversed })
        .outside rest := by
  induction word generalizing column part with
  | nil => exact ⟨column, rfl⟩
  | cons c word ih =>
      obtain ⟨next, hnext⟩ := ih (fun d hd => h d (List.mem_cons_of_mem _ hd))
        (column + c.utf8Size) { part with reversed := c :: part.reversed }
      refine ⟨next, ?_⟩
      rw [List.cons_append, scan_plain (h c List.mem_cons_self), PartialToken.extend, hnext]
      simp

/-- A word at the start of a text is the token that is being read behind it. -/
private theorem scan_first_word {word : List Char} (h : IsWord word) (column : Nat)
    (rest : List Char) :
    ∃ next part, part.reversed = word.reverse ∧
      scan column none .outside (word ++ rest) = scan next (some part) .outside rest := by
  obtain ⟨hne, hplain⟩ := h
  cases word with
  | nil => exact absurd rfl hne
  | cons c word =>
      obtain ⟨next, hnext⟩ := scan_word
        (fun d hd => hplain d (List.mem_cons_of_mem _ hd)) (column + c.utf8Size)
        ⟨column, [c]⟩ rest
      refine ⟨next, ⟨column, word.reverse ++ [c]⟩, by simp, ?_⟩
      rw [List.cons_append, scan_plain (hplain c List.mem_cons_self),
        PartialToken.extend, hnext]

/-- **Words are tokens.**  Words with a space in front of each but the first are
the tokens of their line, in order. -/
theorem tokenize_words {first : List Char} {words : List (List Char)}
    (hfirst : IsWord first) (hwords : ∀ word ∈ words, IsWord word) :
    ∃ tokens, tokenize (first ++ words.flatMap fun word => ' ' :: word) = .ok tokens ∧
      tokens.map Token.text = (first :: words).map String.ofList := by
  have hscan : ∀ column, ∃ tokens,
      scan column none .outside (first ++ words.flatMap fun word => ' ' :: word) =
        .ok tokens ∧
      tokens.map Token.text = (first :: words).map String.ofList := by
    induction words generalizing first with
    | nil =>
        intro column
        obtain ⟨next, part, hpart, hfinal⟩ := scan_first_word hfirst column []
        refine ⟨PartialToken.finish (some part), ?_, ?_⟩
        · rw [List.flatMap_nil, hfinal, scan]
        · simp [PartialToken.finish, hpart]
    | cons word words ih =>
        intro column
        obtain ⟨next, part, hpart, hrest⟩ := scan_first_word hfirst column
          (' ' :: (word ++ words.flatMap fun word => ' ' :: word))
        obtain ⟨tokens, htokens, htexts⟩ := ih (hwords word List.mem_cons_self)
          (fun other hother => hwords other (List.mem_cons_of_mem _ hother)) (next + 1)
        refine ⟨PartialToken.finish (some part) ++ tokens, ?_, ?_⟩
        · rw [List.flatMap_cons, List.cons_append, hrest, scan_space, htokens]
          rfl
        · simp [PartialToken.finish, hpart, htexts]
  exact hscan 1

end ByteMachine
