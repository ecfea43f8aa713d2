/-
  File:      MiningQuery/Proofs/Token/Spacing.lean
  Subject:   What stands between tokens does not bear on how a text is cut.

  Between two tokens there may be any blanks, and comments that a newline closes, as long as a blank
  comes first: it ends every token, and what follows it starts afresh.

  * `Filling`, `Separator`, `Spaced` -- words with such a separator between each two;
  * `Piece.visible_token` -- a token that is not gone on with is a piece of its own;
  * **`Spaced.visible`** -- tokens that are spaced are cut into these tokens and comments;
  * **`Spaced.lex`** -- so spacing the tokens of a text in another way gives the same tokens, and no
    errors.
-/
import MiningQuery.Proofs.Token.Joining

namespace MiningQuery

open Piece (visible)

/-! ## 1. Separators -/

/-- Blanks and comments, each of which is closed by a newline. -/
inductive Filling : Text → Prop
  | nil : Filling []
  | blank {b : UInt8} {t : Text} : isBlank b = true → Filling t → Filling (b :: t)
  | comment {body t : Text} : 10 ∉ body → Filling t → Filling (ascii "--" ++ body ++ 10 :: t)

/-- What may stand between two tokens: a blank, and then blanks and comments. -/
inductive Separator : Text → Prop
  | mk {b : UInt8} {t : Text} : isBlank b = true → Filling t → Separator (b :: t)

/-- The text is the words in their order with a separator between each two. -/
inductive Spaced : List Text → Text → Prop
  | nil : Spaced [] []
  | single (word : Text) : Spaced [word] word
  | cons {word next separator t : Text} {words : List Text} : Separator separator →
      Spaced (next :: words) t → Spaced (word :: next :: words) (word ++ separator ++ t)

/-- A comment that a newline closes is one piece. -/
theorem Piece.visible_comment {body : Text} (hbody : 10 ∉ body) (t : Text) :
    visible (ascii "--" ++ body ++ 10 :: t) =
      ⟨.comment, ascii "--" ++ body⟩ :: visible (10 :: t) := by
  have hrun : ∀ b ∈ (45 : UInt8) :: body, (b != 10) = true := by
    intro b hb
    rcases List.mem_cons.mp hb with rfl | hb
    · rfl
    · simpa using fun e : b = 10 => hbody (e ▸ hb)
  obtain ⟨htake, hdrop⟩ := span_append hrun (show ((10 : UInt8) != 10) = false by rfl) t
  have hfirst : first 45 (45 :: body ++ 10 :: t) = (⟨.comment, 45 :: 45 :: body⟩, 10 :: t) := by
    show run (· != 10) .comment 45 (45 :: body ++ 10 :: t) = _
    rw [run, htake, hdrop]
  have hblank : isBlank 45 = false := by decide
  have hvisible := visible_cons hblank (45 :: body ++ 10 :: t)
  rw [hfirst] at hvisible
  exact hvisible

/-- In front of a text blanks and closed comments make no pieces but comments. -/
theorem Filling.visible {filling : Text} (h : Filling filling) (t : Text) :
    ∃ comments, visible (filling ++ t) = comments ++ Piece.visible t ∧
      ∀ p ∈ comments, p.kind = .comment := by
  induction h with
  | nil => exact ⟨[], rfl, fun p hp => absurd hp List.not_mem_nil⟩
  | @blank b filling hb _ ih =>
    obtain ⟨comments, hvisible, hcomments⟩ := ih
    exact ⟨comments, by rw [List.cons_append, Piece.visible_cons_blank hb, hvisible], hcomments⟩
  | @comment body filling hbody _ ih =>
    obtain ⟨comments, hvisible, hcomments⟩ := ih
    refine ⟨⟨.comment, ascii "--" ++ body⟩ :: comments, ?_,
      List.forall_mem_cons.mpr ⟨rfl, hcomments⟩⟩
    have hblank : isBlank 10 = true := by decide
    rw [List.append_assoc, List.cons_append, Piece.visible_comment hbody,
      Piece.visible_cons_blank hblank, hvisible, List.cons_append]

theorem Separator.visible {separator : Text} (h : Separator separator) (t : Text) :
    ∃ comments, visible (separator ++ t) = comments ++ Piece.visible t ∧
      ∀ p ∈ comments, p.kind = .comment := by
  obtain ⟨hb, hfilling⟩ := h
  exact (Filling.blank hb hfilling).visible t

/-! ## 2. Tokens with separators between them -/

/-- A blank goes on with no token, and neither does the end of the text. -/
theorem Separator.ends {separator : Text} (h : Separator separator) (kind : TokenKind) (t : Text) :
    Ends kind (separator ++ t) := by
  obtain ⟨hb, -⟩ := h
  intro b hhead
  obtain rfl := Option.some.inj hhead
  obtain ⟨hword, hdigit, hminus, hpoint, heq, hgt⟩ := blank_ne hb
  cases kind with
  | symbol s => cases s <;> simp [mayFollow, hminus, heq, hgt]
  | _ => simp [mayFollow, hword, hdigit, hpoint]

/-- A token that is not gone on with is a piece of its own. -/
theorem Piece.visible_token {kind : TokenKind} {word rest : Text} (hword : kind.admits word = true)
    (hkind : kind ≠ .endOfInput) (hrest : Ends kind rest) :
    visible (word ++ rest) = ⟨.token kind, word⟩ :: visible rest := by
  cases word with
  | nil => exact absurd (TokenKind.eq_endOfInput_of_admits hword) hkind
  | cons c cs =>
    rw [visible, List.cons_append, all, first_token hword hrest, List.filter_cons_of_pos rfl,
      visible]

/-- **Tokens that are spaced are cut into these tokens and comments.** -/
theorem Spaced.visible {ts : List Token} {t : Text} (h : Spaced (ts.map (·.text)) t)
    (hts : ∀ tok ∈ ts, tok.IsShaped ∧ tok.kind ≠ .endOfInput) :
    (visible t).filterMap Piece.lexeme? = ts.map Token.lexeme ∧
      ∀ p ∈ Piece.visible t, p.kind ≠ .rejected := by
  have hcomment : ∀ {comments : List Piece}, (∀ p ∈ comments, p.kind = .comment) →
      comments.filterMap Piece.lexeme? = [] := by
    intro comments h
    refine List.filterMap_eq_nil_iff.mpr fun p hp => ?_
    simp only [Piece.lexeme?, h p hp]
  induction ts generalizing t with
  | nil =>
    cases h
    simp
  | cons tok ts ih =>
    obtain ⟨⟨hshaped, hkind⟩, hts⟩ := List.forall_mem_cons.mp hts
    cases ts with
    | nil =>
      cases h
      have hvisible : Piece.visible (tok.text ++ []) =
          ⟨.token tok.kind, tok.text⟩ :: Piece.visible [] :=
        Piece.visible_token hshaped hkind fun b hb => by cases hb
      rw [List.append_nil, Piece.visible_nil] at hvisible
      rw [hvisible]
      exact ⟨rfl, by simp⟩
    | cons next ts =>
      rw [List.map_cons, List.map_cons] at h
      cases h with
      | @cons _ _ separator t _ hseparator hspaced =>
        obtain ⟨comments, hbetween, hcomments⟩ := hseparator.visible t
        have hvisible := Piece.visible_token hshaped hkind (hseparator.ends tok.kind t)
        obtain ⟨hlexemes, haccepted⟩ := ih hspaced hts
        rw [List.append_assoc, hvisible, hbetween]
        constructor
        · rw [List.filterMap_cons, List.filterMap_append, hcomment hcomments, hlexemes]
          rfl
        · refine List.forall_mem_cons.mpr ⟨by simp, List.forall_mem_append.mpr ⟨?_, haccepted⟩⟩
          intro p hp
          rw [hcomments p hp]
          simp

/-! ## 3. The tokens of a text, spaced in another way -/

/-- The tokens of a text but for the end of the input, which is the last one. -/
theorem lex_dropLast (s : Text) :
    (lex s).tokens = (lex s).tokens.dropLast ++ [⟨.endOfInput, [], Location.start.after s⟩] ∧
      ∀ tok ∈ (lex s).tokens.dropLast, tok.IsShaped ∧ tok.kind ≠ .endOfInput := by
  obtain ⟨body, last, htokens, -, hbody⟩ := lex_endsOnce s
  have hlast : (⟨.endOfInput, [], Location.start.after s⟩ : Token) = last := by
    have hconcat := congrArg List.getLast? htokens
    rw [lex, List.getLast?_concat, List.getLast?_concat] at hconcat
    exact Option.some.inj hconcat
  have hshaped := lex_shaped s
  rw [htokens, List.dropLast_concat, hlast]
  rw [htokens] at hshaped
  exact ⟨rfl, fun tok h => ⟨hshaped tok (List.mem_append_left _ h), hbody tok h⟩⟩

/-- **The tokens of a text, spaced in another way, are the same tokens**, without errors. -/
theorem Spaced.lex {s t : Text} (h : Spaced ((lex s).tokens.dropLast.map (·.text)) t) :
    (MiningQuery.lex t).errors = [] ∧
      (MiningQuery.lex t).tokens.map Token.lexeme =
        (MiningQuery.lex s).tokens.map Token.lexeme := by
  obtain ⟨htokens, hbody⟩ := lex_dropLast s
  obtain ⟨hlexemes, haccepted⟩ := h.visible hbody
  refine ⟨lex_errors_eq_nil.mpr haccepted, ?_⟩
  rw [map_lexeme_lex, hlexemes, htokens, List.dropLast_concat, List.map_append]
  rfl

end MiningQuery
