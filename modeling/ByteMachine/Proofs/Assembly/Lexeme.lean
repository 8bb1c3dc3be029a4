import ByteMachine.Proofs.Assembly.Words
import Mathlib.Data.String.Basic

/-!
# Lexemes

A lexeme is a colon by itself, or a row of pieces.  A piece is a plain character, or a
quote, any character, and what follows up to the next quote; so a separator, a colon or
the sign of a comment can stand in a piece behind its quote.

A text in front of its comment consists of items: pieces, colons and separators.  No item
is the start of another one, and this is what the whole file rests on: the items of a text
can be read off from left to right, and two rows of items in one text agree as far as
both of them go (`items_of_append_eq`).  A row of pieces is therefore a maximal lexeme
exactly if no piece stands behind it.

* `IsPiece`, `IsLexeme`, `IsMaximal` — the lexical grammar;
* `Lexes` — a text that consists of separators and maximal lexemes;
* `isMaximal_pieces`, `isMaximal_colon` — lexemes that cannot be extended;
* `exists_lexes` — every text can be read, up to a comment or to a quote that never closes.
-/

namespace ByteMachine

open String (utf8Len)

/-! ## The grammar -/

/-- A piece of a lexeme. -/
inductive IsPiece : List Char → Prop
  /-- A character that only extends what it stands in. -/
  | plain {c : Char} (hc : IsPlain c) : IsPiece [c]
  /-- A quote, any character, and everything up to the next quote. -/
  | quoted (c : Char) {inner : List Char} (hinner : quote ∉ inner) :
      IsPiece (quote :: c :: (inner ++ [quote]))

/-- A colon, or one piece or more. -/
inductive IsLexeme : List Char → Prop
  | colon : IsLexeme [':']
  | pieces {pieces : List (List Char)} (hne : pieces ≠ [])
      (hpieces : ∀ piece ∈ pieces, IsPiece piece) : IsLexeme pieces.flatten

/-- A lexeme in front of `rest` is maximal if nothing longer is a lexeme. -/
def IsMaximal (lexeme rest : List Char) : Prop :=
  ∀ more, more <+: rest → more ≠ [] → ¬ IsLexeme (lexeme ++ more)

/-- A text in front of `rest`, of which the first character stands at `column`, consists
of separators and maximal lexemes, and the lexemes are `tokens`. -/
inductive Lexes (rest : List Char) : Nat → List Char → List Token → Prop
  | nil (column : Nat) : Lexes rest column [] []
  | separator {column : Nat} {c : Char} {text : List Char} {tokens : List Token}
      (hc : isSeparator c = true) (hrest : Lexes rest (column + c.utf8Size) text tokens) :
      Lexes rest column (c :: text) tokens
  | lexeme {column : Nat} {lexeme text : List Char} {tokens : List Token}
      (hlexeme : IsLexeme lexeme) (hmaximal : IsMaximal lexeme (text ++ rest))
      (hrest : Lexes rest (column + utf8Len lexeme) text tokens) :
      Lexes rest column (lexeme ++ text) (⟨String.ofList lexeme, column⟩ :: tokens)

/-- Nothing, or the sign of a comment and any text. -/
def IsComment : List Char → Prop
  | [] => True
  | c :: _ => c = '#'

/-- No piece stands at the start of a text.  A quote at its start never closes then. -/
def NoPiece (text : List Char) : Prop :=
  ∀ piece, IsPiece piece → ¬ piece <+: text

/-- What a text consists of in front of its comment. -/
inductive IsItem : List Char → Prop
  | piece {piece : List Char} (hpiece : IsPiece piece) : IsItem piece
  | colon : IsItem [':']
  | separator {c : Char} (hc : isSeparator c = true) : IsItem [c]

/-! ## Items -/

theorem IsPiece.ne_nil {piece : List Char} (h : IsPiece piece) : piece ≠ [] := by
  cases h <;> exact List.cons_ne_nil _ _

theorem not_isPlain_colon : ¬ IsPlain ':' := fun h => h.2.2.1 rfl

theorem not_isPlain_of_isSeparator {c : Char} (h : isSeparator c = true) : ¬ IsPlain c :=
  fun hplain => Bool.noConfusion (h.symm.trans hplain.2.1)

/-- A piece starts with a plain character or with a quote. -/
theorem IsPiece.head_cases {c : Char} {rest piece : List Char} (h : IsPiece piece)
    (hstands : piece <+: c :: rest) : IsPlain c ∨ c = quote := by
  cases h with
  | plain hc => exact .inl ((List.cons_prefix_cons.mp hstands).1 ▸ hc)
  | quoted d hinner => exact .inr (List.cons_prefix_cons.mp hstands).1.symm

/-- No piece starts with a colon. -/
theorem noPiece_colon (rest : List Char) : NoPiece (':' :: rest) := by
  intro piece hpiece hstands
  rcases hpiece.head_cases hstands with hplain | hquote
  · exact not_isPlain_colon hplain
  · exact absurd hquote (by decide)

/-- No piece starts with a separator. -/
theorem noPiece_separator {c : Char} (hc : isSeparator c = true) (rest : List Char) :
    NoPiece (c :: rest) := by
  intro piece hpiece hstands
  rcases hpiece.head_cases hstands with hplain | rfl
  · exact not_isPlain_of_isSeparator hc hplain
  · exact absurd hc (by decide)

/-- What stands in front of the first quote is determined. -/
private theorem eq_of_append_quote {x y r s : List Char} (hx : quote ∉ x) (hy : quote ∉ y)
    (h : x ++ quote :: r = y ++ quote :: s) : x = y := by
  rcases List.append_eq_append_iff.mp h with ⟨more, rfl, hmore⟩ | ⟨more, rfl, hmore⟩
  · cases more with
    | nil => exact (List.append_nil x).symm
    | cons c more =>
        obtain ⟨rfl, -⟩ := List.cons_eq_cons.mp hmore
        simp at hy
  · cases more with
    | nil => exact List.append_nil y
    | cons c more =>
        obtain ⟨rfl, -⟩ := List.cons_eq_cons.mp hmore
        simp at hx

/-- **Pieces.**  At most one piece stands at the start of a text. -/
theorem IsPiece.eq_of_stands {piece other text : List Char} (h : IsPiece piece)
    (hother : IsPiece other) (hstands : piece <+: text) (hstands' : other <+: text) :
    piece = other := by
  obtain ⟨rest, rfl⟩ := hstands
  obtain ⟨rest', htext⟩ := hstands'
  cases h with
  | plain hc =>
      cases hother with
      | plain hd => rw [(List.cons_eq_cons.mp htext).1]
      | quoted d hinner =>
          obtain ⟨rfl, -⟩ := List.cons_eq_cons.mp htext
          exact absurd rfl hc.2.2.2
  | quoted c hinner =>
      cases hother with
      | plain hd =>
          obtain ⟨rfl, -⟩ := List.cons_eq_cons.mp htext
          exact absurd rfl hd.2.2.2
      | quoted d hinner' =>
          simp only [List.cons_append, List.append_assoc, List.nil_append, List.cons.injEq,
            true_and] at htext
          obtain ⟨rfl, htext⟩ := htext
          rw [eq_of_append_quote hinner' hinner htext]

/-- **Items.**  At most one item stands at the start of a text. -/
theorem IsItem.eq_of_stands {item other text : List Char} (h : IsItem item)
    (hother : IsItem other) (hstands : item <+: text) (hstands' : other <+: text) :
    item = other := by
  -- Only pieces can be longer than one character, and no piece starts as another item.
  cases h with
  | piece hpiece =>
      cases hother with
      | piece hpiece' => exact hpiece.eq_of_stands hpiece' hstands hstands'
      | colon =>
          obtain ⟨rest, rfl⟩ := hstands'
          exact absurd hstands (noPiece_colon rest _ hpiece)
      | separator hc =>
          obtain ⟨rest, rfl⟩ := hstands'
          exact absurd hstands (noPiece_separator hc rest _ hpiece)
  | colon =>
      obtain ⟨rest, rfl⟩ := hstands
      cases hother with
      | piece hpiece' => exact absurd hstands' (noPiece_colon rest _ hpiece')
      | colon => rfl
      | separator hc => rw [(List.cons_prefix_cons.mp hstands').1]
  | separator hc =>
      obtain ⟨rest, rfl⟩ := hstands
      cases hother with
      | piece hpiece' => exact absurd hstands' (noPiece_separator hc rest _ hpiece')
      | colon => rw [(List.cons_prefix_cons.mp hstands').1]
      | separator hd => rw [(List.cons_prefix_cons.mp hstands').1]

/-- **Rows of items.**  Of two rows of items at the start of one text, one goes on where
the other one ends. -/
theorem items_of_append_eq {xs ys : List (List Char)} {r s : List Char}
    (hxs : ∀ item ∈ xs, IsItem item) (hys : ∀ item ∈ ys, IsItem item)
    (h : xs.flatten ++ r = ys.flatten ++ s) :
    (∃ more, ys = xs ++ more ∧ r = more.flatten ++ s) ∨
      ∃ more, xs = ys ++ more ∧ s = more.flatten ++ r := by
  induction xs generalizing ys with
  | nil => exact .inl ⟨ys, rfl, h⟩
  | cons x xs ih =>
      cases ys with
      | nil => exact .inr ⟨x :: xs, rfl, h.symm⟩
      | cons y ys =>
          rw [List.flatten_cons, List.flatten_cons, List.append_assoc, List.append_assoc] at h
          obtain rfl : x = y :=
            (hxs x List.mem_cons_self).eq_of_stands (hys y List.mem_cons_self)
              (List.prefix_append x (xs.flatten ++ r)) (h ▸ List.prefix_append y _)
          have hrest := ih (fun item hitem => hxs item (List.mem_cons_of_mem _ hitem))
            (fun item hitem => hys item (List.mem_cons_of_mem _ hitem))
            (List.append_cancel_left h)
          rcases hrest with ⟨more, rfl, hr⟩ | ⟨more, rfl, hs⟩
          · exact .inl ⟨more, rfl, hr⟩
          · exact .inr ⟨more, rfl, hs⟩

/-- The items of a lexeme. -/
theorem IsLexeme.exists_items {lexeme : List Char} (h : IsLexeme lexeme) :
    ∃ items, lexeme = List.flatten items ∧ ∀ item ∈ items, IsItem item := by
  cases h with
  | colon => exact ⟨[[':']], rfl, by simp [IsItem.colon]⟩
  | @pieces pieces hne hpieces => exact ⟨pieces, rfl, fun item h => .piece (hpieces item h)⟩

/-! ## Maximal lexemes -/

/-- A row of pieces starts with a piece. -/
private theorem exists_prefix_of_flatten {pieces : List (List Char)}
    (hpieces : ∀ piece ∈ pieces, IsPiece piece) (hne : pieces.flatten ≠ []) :
    ∃ piece, IsPiece piece ∧ piece <+: pieces.flatten := by
  cases pieces with
  | nil => exact absurd rfl hne
  | cons piece pieces => exact ⟨piece, hpieces piece List.mem_cons_self, List.prefix_append _ _⟩

theorem flatten_ne_nil {pieces : List (List Char)} (hne : pieces ≠ [])
    (hpieces : ∀ piece ∈ pieces, IsPiece piece) : pieces.flatten ≠ [] := by
  obtain ⟨piece, pieces, rfl⟩ := List.exists_cons_of_ne_nil hne
  exact List.append_ne_nil_of_left_ne_nil (hpieces piece List.mem_cons_self).ne_nil _

theorem IsLexeme.ne_nil {lexeme : List Char} (h : IsLexeme lexeme) : lexeme ≠ [] := by
  cases h with
  | colon => exact List.cons_ne_nil _ _
  | pieces hne hpieces => exact flatten_ne_nil hne hpieces

/-- A word is a lexeme. -/
theorem IsWord.isLexeme {word : List Char} (h : IsWord word) : IsLexeme word := by
  have hpieces : ∀ piece ∈ word.map fun c => [c], IsPiece piece := by
    intro piece hpiece
    obtain ⟨c, hc, rfl⟩ := List.mem_map.mp hpiece
    exact .plain (h.2 c hc)
  have hword : (word.map fun c => [c]).flatten = word := List.flatMap_singleton' word
  exact hword ▸ .pieces (by simpa using h.1) hpieces

/-- A lexeme that starts with a colon is a colon. -/
private theorem eq_colon_of_cons {text : List Char} (h : IsLexeme (':' :: text)) :
    text = [] := by
  generalize hlexeme : ':' :: text = lexeme at h
  cases h with
  | colon => exact (List.cons_eq_cons.mp hlexeme).2
  | pieces hne hpieces =>
      obtain ⟨piece, hpiece, hstands⟩ :=
        exists_prefix_of_flatten hpieces (flatten_ne_nil hne hpieces)
      rw [← hlexeme] at hstands
      exact absurd hstands (noPiece_colon text piece hpiece)

/-- A colon is not the start of a longer lexeme. -/
theorem isMaximal_colon (rest : List Char) : IsMaximal [':'] rest :=
  fun _ _ hne h => hne (eq_colon_of_cons h)

/-- **Maximal rows.**  A row of pieces is maximal exactly if no piece stands behind it. -/
theorem isMaximal_pieces {pieces : List (List Char)} (hne : pieces ≠ [])
    (hpieces : ∀ piece ∈ pieces, IsPiece piece) {rest : List Char} :
    IsMaximal pieces.flatten rest ↔ NoPiece rest := by
  constructor
  · intro hmaximal piece hpiece hstands
    refine hmaximal piece hstands hpiece.ne_nil ?_
    have hlonger : IsLexeme (pieces ++ [piece]).flatten :=
      .pieces (List.append_ne_nil_of_left_ne_nil hne _) (by
        intro other hother
        rcases List.mem_append.mp hother with hother | hother
        · exact hpieces other hother
        · exact List.mem_singleton.mp hother ▸ hpiece)
    simpa using hlonger
  · intro hstops more hstands hmore hlexeme
    generalize hlonger : pieces.flatten ++ more = lexeme at hlexeme
    cases hlexeme with
    | colon =>
        obtain ⟨piece, hpiece, hstart⟩ :=
          exists_prefix_of_flatten hpieces (flatten_ne_nil hne hpieces)
        have hcolon := hstart.trans (List.prefix_append pieces.flatten more)
        rw [hlonger] at hcolon
        exact noPiece_colon [] piece hpiece hcolon
    | @pieces others hne' hothers =>
        rw [← List.append_nil others.flatten] at hlonger
        rcases items_of_append_eq (fun item h => .piece (hpieces item h))
          (fun item h => .piece (hothers item h)) hlonger with
          ⟨extra, rfl, rfl⟩ | ⟨extra, -, hnil⟩
        · rw [List.append_nil] at hstands hmore
          obtain ⟨piece, hpiece, hstart⟩ := exists_prefix_of_flatten
            (fun piece h => hothers piece (List.mem_append_right _ h)) hmore
          exact hstops piece hpiece (hstart.trans hstands)
        · exact hmore (List.append_eq_nil_iff.mp hnil.symm).2

/-! ## Reading a text -/

/-- The tokens of a text are lexemes. -/
theorem Lexes.isLexeme {rest text : List Char} {column : Nat} {tokens : List Token}
    (h : Lexes rest column text tokens) {token : Token} (htoken : token ∈ tokens) :
    IsLexeme token.text.toList := by
  induction h with
  | nil column => cases htoken
  | separator hc hrest ih => exact ih htoken
  | lexeme hlexeme hmaximal hrest ih =>
      rcases List.mem_cons.mp htoken with rfl | htoken
      · rwa [String.toList_ofList]
      · exact ih htoken

/-- A text starts with as many pieces as there are. -/
theorem exists_pieces (text : List Char) :
    ∃ pieces rest, text = List.flatten pieces ++ rest ∧
      (∀ piece ∈ pieces, IsPiece piece) ∧ NoPiece rest := by
  induction hlength : text.length using Nat.strong_induction_on generalizing text with
  | _ length ih =>
      by_cases hstops : NoPiece text
      · exact ⟨[], text, rfl, by simp, hstops⟩
      · simp only [NoPiece, not_forall, not_not] at hstops
        obtain ⟨piece, hpiece, behind, rfl⟩ := hstops
        have hshorter : behind.length < length := by
          have hpos := List.length_pos_iff.mpr hpiece.ne_nil
          rw [List.length_append] at hlength
          omega
        obtain ⟨pieces, rest, rfl, hpieces, hrest⟩ := ih _ hshorter behind rfl
        refine ⟨piece :: pieces, rest, by simp, ?_, hrest⟩
        intro other hother
        rcases List.mem_cons.mp hother with rfl | hother
        · exact hpiece
        · exact hpieces other hother

/-- **Every text can be read.**  It consists of separators and maximal lexemes, up to a
comment or up to a quote that never closes. -/
theorem exists_lexes (column : Nat) (line : List Char) :
    ∃ text rest tokens, line = text ++ rest ∧ Lexes rest column text tokens ∧
      (IsComment rest ∨ NoPiece rest ∧ ∃ behind, rest = quote :: behind) := by
  induction hlength : line.length using Nat.strong_induction_on generalizing column line with
  | _ length ih =>
      cases line with
      | nil => exact ⟨[], [], [], rfl, .nil column, .inl trivial⟩
      | cons c line =>
          have hlt : line.length < length := by simp [← hlength]
          by_cases hcomment : c = '#'
          · exact ⟨[], c :: line, [], rfl, .nil column, .inl hcomment⟩
          by_cases hseparator : isSeparator c = true
          · obtain ⟨text, rest, tokens, rfl, hlexes, hend⟩ := ih _ hlt _ line rfl
            exact ⟨c :: text, rest, tokens, rfl, .separator hseparator hlexes, hend⟩
          by_cases hcolon : c = ':'
          · obtain ⟨text, rest, tokens, rfl, hlexes, hend⟩ :=
              ih _ hlt (column + utf8Len [':']) line rfl
            subst hcolon
            exact ⟨[':'] ++ text, rest, _, rfl, .lexeme .colon (isMaximal_colon _) hlexes, hend⟩
          obtain ⟨pieces, behind, hline, hpieces, hstops⟩ := exists_pieces (c :: line)
          by_cases hne : pieces = []
          · -- No piece starts here, so the character is no plain one.
            subst hne
            obtain rfl : c :: line = behind := hline
            have hquote : c = quote := by
              by_contra hquote
              have hplain : IsPlain c := ⟨hcomment, by simpa using hseparator, hcolon, hquote⟩
              exact hstops [c] (.plain hplain) ⟨line, rfl⟩
            exact ⟨[], c :: line, [], rfl, .nil column, .inr ⟨hstops, line, by rw [hquote]⟩⟩
          · have hshorter : behind.length < length := by
              have hpos := List.length_pos_iff.mpr (flatten_ne_nil hne hpieces)
              rw [hline, List.length_append] at hlength
              omega
            obtain ⟨text, rest, tokens, rfl, hlexes, hend⟩ :=
              ih _ hshorter (column + utf8Len pieces.flatten) behind rfl
            have hread := Lexes.lexeme (.pieces hne hpieces)
              ((isMaximal_pieces hne hpieces).mpr hstops) hlexes
            exact ⟨_, rest, _, by rw [hline, List.append_assoc], hread, hend⟩

end ByteMachine
