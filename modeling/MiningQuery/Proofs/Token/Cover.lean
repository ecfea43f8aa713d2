/-
  File:      MiningQuery/Proofs/Token/Cover.lean
  Subject:   The tokens and errors of a text, with what stands between them, are the text.

  The text is gone through once from its beginning. Whatever comes next is a blank, a comment, a
  token or a rejected piece, and a token or an error tells where it starts: on the line behind as
  many newlines as the text before it has, as many bytes behind the last of them.

  * `Location.behind` -- the place behind a text, told by its bytes alone;
  * `Covers` -- tokens and errors that leave nothing of a text out;
  * `first_comment`, `first_blank` -- a comment goes on to the end of its line and no further, a run
    of blanks has blanks only;
  * **`lex_covers`** -- the tokens and errors of a text cover it.
-/
import MiningQuery.Proofs.Token.Shape

namespace MiningQuery

/-! ## 1. Places -/

namespace Location

/-- The place behind a text: its line is one more than the newlines of the text, its column the
    number of bytes behind the last newline. -/
def behind (before : Text) : Location :=
  ⟨1 + before.count 10, (before.reverse.takeWhile (· != 10)).length⟩

theorem behind_nil : behind [] = start := rfl

/-- Behind one byte more. -/
theorem behind_concat (before : Text) (b : UInt8) :
    behind (before ++ [b]) = (behind before).next b := by
  unfold behind next
  by_cases hb : b = 10
  · subst hb
    simp only [List.count_append, List.count_singleton_self, List.reverse_append,
      List.reverse_singleton, List.singleton_append, beq_self_eq_true, if_true]
    rw [List.takeWhile_cons_of_neg (by simp)]
    rfl
  · have hcount : List.count 10 [b] = 0 := List.count_eq_zero.mpr (by simpa using Ne.symm hb)
    simp only [List.count_append, hcount, List.reverse_append, List.reverse_singleton,
      List.singleton_append, beq_iff_eq, hb, if_false, Nat.add_zero]
    rw [List.takeWhile_cons_of_pos (by simpa using hb), List.length_cons]

/-- **Passing over a text leads behind it.** -/
theorem after_behind (before t : Text) : (behind before).after t = behind (before ++ t) := by
  induction t generalizing before with
  | nil => rw [List.append_nil, after, List.foldl_nil]
  | cons b t ih =>
    have hstep : (behind before).after (b :: t) = (behind (before ++ [b])).after t := by
      rw [behind_concat]
      rfl
    rw [hstep, ih, List.append_assoc, List.singleton_append]

end Location

/-! ## 2. Covering a text -/

/-- Behind the text `before`, these tokens and errors are what `rest` is made of: blanks, comments,
    tokens and rejected pieces in their order, the end of the input last. -/
inductive Covers : Text → Text → List Token → List LexError → Prop
  | done {before : Text} : Covers before [] [⟨.endOfInput, [], .behind before⟩] []
  | blank {before rest : Text} {b : UInt8} {ts : List Token} {es : List LexError} :
      isBlank b = true → Covers (before ++ [b]) rest ts es → Covers before (b :: rest) ts es
  | comment {before body rest : Text} {ts : List Token} {es : List LexError} :
      10 ∉ body → (∀ b ∈ rest.head?, b = 10) →
      Covers (before ++ (ascii "--" ++ body)) rest ts es →
      Covers before (ascii "--" ++ body ++ rest) ts es
  | token {before text rest : Text} {kind : TokenKind} {ts : List Token} {es : List LexError} :
      text ≠ [] → kind.admits text = true → Covers (before ++ text) rest ts es →
      Covers before (text ++ rest) (⟨kind, text, .behind before⟩ :: ts) es
  | rejected {before text rest : Text} {ts : List Token} {es : List LexError} :
      text ≠ [] → Covers (before ++ text) rest ts es →
      Covers before (text ++ rest) ts (⟨.behind before, text⟩ :: es)

theorem Covers.blanks {before blanks rest : Text} {ts : List Token} {es : List LexError}
    (hblanks : ∀ b ∈ blanks, isBlank b = true) (h : Covers (before ++ blanks) rest ts es) :
    Covers before (blanks ++ rest) ts es := by
  induction blanks generalizing before with
  | nil => simpa using h
  | cons b blanks ih =>
    obtain ⟨hb, hblanks⟩ := List.forall_mem_cons.mp hblanks
    refine .blank hb (ih hblanks ?_)
    rwa [List.append_assoc, List.singleton_append]

/-! ## 3. The pieces of a text -/

namespace Piece

variable {c : UInt8} {cs : Text}

/-- A piece that starts with neither a blank nor a comment is a token or rejected. -/
theorem first_token_or_rejected (hblank : isBlank c = false)
    (hcomment : (c == 45 && cs.head? == some 45) = false) :
    (∃ kind, (first c cs).1.kind = .token kind) ∨ (first c cs).1.kind = .rejected := by
  have hpair : ∀ {choices : List (UInt8 × Symbol)} {alone : PieceKind},
      (∃ kind, alone = .token kind) ∨ alone = .rejected →
      (∃ kind, (pair choices alone c cs).1.kind = .token kind) ∨
        (pair choices alone c cs).1.kind = .rejected := by
    intro choices alone halone
    unfold pair
    split
    · split
      · exact .inl ⟨_, rfl⟩
      · exact halone
    · exact halone
  unfold first
  rw [if_neg (by simp [hblank]), if_neg (by simp [hcomment])]
  repeat' split
  · exact .inl ⟨_, rfl⟩
  · unfold number
    split
    · split <;> exact .inl ⟨_, rfl⟩
    · exact .inl ⟨_, rfl⟩
  · unfold string
    split
    · split
      · exact .inl ⟨_, rfl⟩
      · exact .inr rfl
    · exact .inr rfl
  · unfold symbolOrRejected
    split
    any_goals exact .inl ⟨_, rfl⟩
    · exact hpair (.inr rfl)
    · exact hpair (.inl ⟨_, rfl⟩)
    · exact hpair (.inl ⟨_, rfl⟩)
    · exact .inr rfl

/-- A blank is followed by all blanks behind it. -/
theorem first_blank (hblank : isBlank c = true) :
    first c cs = (⟨.blank, c :: cs.takeWhile isBlank⟩, cs.dropWhile isBlank) := by
  rw [first, if_pos hblank]
  rfl

/-- A comment goes on up to the next newline, or to the end. -/
theorem first_comment (hcomment : (c == 45 && cs.head? == some 45) = true) :
    ∃ body rest, 10 ∉ body ∧ (∀ b ∈ rest.head?, b = 10) ∧ c :: cs = ascii "--" ++ body ++ rest ∧
      first c cs = (⟨.comment, ascii "--" ++ body⟩, rest) := by
  obtain ⟨hc, hhead⟩ := Bool.and_eq_true_iff.mp hcomment
  obtain rfl : c = 45 := by simpa using hc
  obtain ⟨cs, rfl⟩ : ∃ cs', cs = 45 :: cs' := by
    cases cs with
    | nil => simp at hhead
    | cons d cs =>
      obtain rfl : d = 45 := by simpa using hhead
      exact ⟨cs, rfl⟩
  have hnone : ∀ b ∈ cs.takeWhile (· != 10), b ≠ 10 := by
    intro b hb
    simpa using List.all_eq_true.mp List.all_takeWhile b hb
  refine ⟨cs.takeWhile (· != 10), cs.dropWhile (· != 10), fun h => hnone 10 h rfl, ?_, ?_, ?_⟩
  · intro b hb
    have hstop := List.head?_dropWhile_not (fun x : UInt8 => x != 10) cs
    rw [Option.mem_def.mp hb] at hstop
    simpa using hstop
  · rw [List.append_assoc, List.takeWhile_append_dropWhile]
    rfl
  · rfl

end Piece

/-! ## 4. The tokens and errors of a text -/

/-- The first piece of a text covers it together with what covers the rest. -/
theorem covers_first {before : Text} {c : UInt8} {cs : Text} {ts : List Token} {es : List LexError}
    (h : Covers (before ++ (Piece.first c cs).1.text) (Piece.first c cs).2 ts es) :
    Covers before (c :: cs)
      ((Piece.token? (.behind before, (Piece.first c cs).1)).toList ++ ts)
      ((LexError.ofPiece? (.behind before, (Piece.first c cs).1)).toList ++ es) := by
  cases hblank : isBlank c with
  | true =>
    rw [Piece.first_blank hblank] at h ⊢
    have hblanks : ∀ b ∈ c :: cs.takeWhile isBlank, isBlank b = true :=
      List.forall_mem_cons.mpr ⟨hblank, List.all_eq_true.mp List.all_takeWhile⟩
    have hcovers := Covers.blanks hblanks h
    rwa [List.cons_append, List.takeWhile_append_dropWhile] at hcovers
  | false =>
    cases hcomment : (c == 45 && cs.head? == some 45) with
    | true =>
      obtain ⟨body, rest, hbody, hrest, happend, hfirst⟩ := Piece.first_comment hcomment
      rw [hfirst] at h ⊢
      rw [happend]
      exact .comment hbody hrest h
    | false =>
      have hne := Piece.first_text_ne_nil c cs
      rw [← Piece.first_append c cs]
      unfold Piece.token? LexError.ofPiece?
      rcases Piece.first_token_or_rejected hblank hcomment with ⟨kind, hkind⟩ | hkind
      · simp only [hkind]
        exact .token hne (Piece.first_shaped hkind) h
      · simp only [hkind]
        exact .rejected hne h

theorem filterMap_cons_toList {α β : Type} (f : α → Option β) (x : α) (xs : List α) :
    (x :: xs).filterMap f = (f x).toList ++ xs.filterMap f := by
  rw [List.filterMap_cons]
  cases f x <;> rfl

/-- What holds at the end of a text, and in front of a first piece whenever it holds behind it, holds
    of the tokens and errors of the rest of a text, each at its place. -/
theorem located_induction {P : Text → Text → List Token → List LexError → Prop}
    (done : ∀ before, P before [] [⟨.endOfInput, [], .behind before⟩] [])
    (first : ∀ before c cs ts es,
      P (before ++ (Piece.first c cs).1.text) (Piece.first c cs).2 ts es →
      P before (c :: cs) ((Piece.token? (.behind before, (Piece.first c cs).1)).toList ++ ts)
        ((LexError.ofPiece? (.behind before, (Piece.first c cs).1)).toList ++ es))
    (before rest : Text) :
    P before rest
      ((Piece.locate (.behind before) (Piece.all rest)).filterMap Piece.token? ++
        [⟨.endOfInput, [], .behind (before ++ rest)⟩])
      ((Piece.locate (.behind before) (Piece.all rest)).filterMap LexError.ofPiece?) := by
  -- on the pieces: the place behind the first one is that of the pieces behind it
  fun_induction Piece.all rest generalizing before with
  | case1 =>
    rw [List.append_nil]
    exact done before
  | case2 c cs ih =>
    have hlater := ih (before ++ (Piece.first c cs).1.text)
    rw [← Location.after_behind, List.append_assoc, Piece.first_append] at hlater
    rw [Piece.locate, filterMap_cons_toList, filterMap_cons_toList, List.append_assoc]
    exact first before c cs _ _ hlater

/-- **The tokens and errors of the rest of a text cover this rest**, each at its place. -/
theorem covers_located (before rest : Text) :
    Covers before rest
      ((Piece.locate (.behind before) (Piece.all rest)).filterMap Piece.token? ++
        [⟨.endOfInput, [], .behind (before ++ rest)⟩])
      ((Piece.locate (.behind before) (Piece.all rest)).filterMap LexError.ofPiece?) :=
  located_induction (fun _ => .done) (fun _ _ _ _ _ => covers_first) before rest

/-- **Nothing of a text is lost.** It is the blanks, comments, tokens and rejected pieces in their
    order; each token and each error tells where its piece starts, and the end of the input stands
    behind the text. -/
theorem lex_covers (t : Text) : Covers [] t (lex t).tokens (lex t).errors := by
  have hcovers := covers_located [] t
  rw [← Location.after_behind, Location.behind_nil] at hcovers
  exact hcovers

end MiningQuery
