/-
  File:      MiningQuery/Proofs/Token/Longest.lean
  Subject:   Each token of a text is the longest one that could start where it starts.

  The pieces of a text are described here by its bytes alone, without the order in which the cutting
  tries one sort of piece after the other:

  * `IsToken` -- the texts of each kind of token;
  * `IsLongest` -- a token, and no longer text that the rest of the input begins with is one;
  * `LongestMatch` -- tokens and errors got by skipping blanks and comments and taking the longest
    token each time; a piece is rejected only where nothing of this starts;
  * `first_longest`, `first_rejects` -- what the first piece of a text is, token or rejected;
  * **`longest_match_iff`** -- the tokens and errors of a text are the only ones got so.
-/
import Mathlib.Data.List.TakeWhile
import MiningQuery.Proofs.Token.Cover
import MiningQuery.Proofs.Token.Printing

namespace MiningQuery

/-! ## 1. The texts of tokens -/

/-- The texts of each kind of token. A word is a keyword if it spells one in any letter case. -/
inductive IsToken : TokenKind → Text → Prop
  | keyword {c : UInt8} {cs : Text} {k : Keyword} : isWordStart c = true →
      (∀ b ∈ cs, isWordPart b = true) → Text.upper (c :: cs) = k.spelling →
      IsToken (.keyword k) (c :: cs)
  | identifier {c : UInt8} {cs : Text} : isWordStart c = true →
      (∀ b ∈ cs, isWordPart b = true) → (∀ k : Keyword, Text.upper (c :: cs) ≠ k.spelling) →
      IsToken .identifier (c :: cs)
  | int {c : UInt8} {cs : Text} : isDigit c = true → (∀ b ∈ cs, isDigit b = true) →
      IsToken .int (c :: cs)
  | float {c d : UInt8} {cs ds : Text} : isDigit c = true → (∀ b ∈ cs, isDigit b = true) →
      isDigit d = true → (∀ b ∈ ds, isDigit b = true) → IsToken .float (c :: cs ++ 46 :: d :: ds)
  | string {q : UInt8} {body : Text} : isQuote q = true → (∀ b ∈ body, b ≠ q ∧ b ≠ 10) →
      IsToken .string (q :: body ++ [q])
  | symbol (s : Symbol) : IsToken (.symbol s) s.spelling
  | angles : IsToken (.symbol .ne) (ascii "<>")

/-- No two keywords have the same spelling. -/
theorem Keyword.spelling_inj {k l : Keyword} (h : k.spelling = l.spelling) : k = l := by
  have hall : ∀ k ∈ Keyword.all, ∀ l ∈ Keyword.all, k.spelling = l.spelling → k = l := by decide
  exact hall k (mem_all k) l (mem_all l) h

/-- A word spells the keyword that its capitals are the spelling of. -/
theorem Keyword.ofText?_eq_some_iff {t : Text} {k : Keyword} :
    Keyword.ofText? t = some k ↔ Text.upper t = k.spelling := by
  constructor
  · intro h
    have hspelling := List.find?_some h
    exact (beq_iff_eq.mp hspelling).symm
  · intro h
    cases hfound : Keyword.ofText? t with
    | some l =>
      have hspelling := List.find?_some hfound
      rw [Keyword.spelling_inj ((beq_iff_eq.mp hspelling).trans h)]
    | none =>
      have hnone := List.find?_eq_none.mp hfound k (mem_all k)
      exact absurd h.symm (by simpa using hnone)

theorem Keyword.ofText?_eq_none_iff {t : Text} :
    Keyword.ofText? t = none ↔ ∀ k : Keyword, Text.upper t ≠ k.spelling := by
  rw [Option.eq_none_iff_forall_ne_some]
  exact forall_congr' fun k => not_congr Keyword.ofText?_eq_some_iff

/-- **The texts of a kind are those that its shape admits.** -/
theorem isToken_iff {kind : TokenKind} {t : Text} :
    IsToken kind t ↔ kind ≠ .endOfInput ∧ kind.admits t = true := by
  constructor
  · intro h
    cases h with
    | keyword hc hcs hk =>
      simpa [TokenKind.admits, isWord, hc, Keyword.ofText?_eq_some_iff.mpr hk] using hcs
    | identifier hc hcs hk =>
      simpa [TokenKind.admits, isWord, hc, Keyword.ofText?_eq_none_iff.mpr hk] using hcs
    | int hc hcs =>
      exact ⟨by simp, isDigits_iff.mpr ⟨by simp, List.forall_mem_cons.mpr ⟨hc, hcs⟩⟩⟩
    | float hc hcs hd hds =>
      exact ⟨by simp, isDecimal_iff.mpr ⟨_, _,
        isDigits_iff.mpr ⟨by simp, List.forall_mem_cons.mpr ⟨hc, hcs⟩⟩,
        isDigits_iff.mpr ⟨by simp, List.forall_mem_cons.mpr ⟨hd, hds⟩⟩, rfl⟩⟩
    | string hq hbody => exact ⟨by simp, isQuoted_iff.mpr ⟨_, _, hq, hbody, rfl⟩⟩
    | symbol s => exact ⟨by simp, by simp [TokenKind.admits]⟩
    | angles => exact ⟨by simp, rfl⟩
  · intro h
    obtain ⟨hkind, h⟩ := h
    cases kind with
    | keyword k =>
      obtain ⟨hword, hk⟩ := Bool.and_eq_true_iff.mp h
      obtain ⟨c, cs, rfl, hc, hcs⟩ := isWord_iff.mp hword
      exact .keyword hc hcs (Keyword.ofText?_eq_some_iff.mp (beq_iff_eq.mp hk))
    | identifier =>
      obtain ⟨hword, hk⟩ := Bool.and_eq_true_iff.mp h
      obtain ⟨c, cs, rfl, hc, hcs⟩ := isWord_iff.mp hword
      exact .identifier hc hcs (Keyword.ofText?_eq_none_iff.mp (Option.isNone_iff_eq_none.mp hk))
    | int =>
      obtain ⟨hne, hdigits⟩ := isDigits_iff.mp h
      obtain ⟨c, cs, rfl⟩ := List.exists_cons_of_ne_nil hne
      obtain ⟨hc, hcs⟩ := List.forall_mem_cons.mp hdigits
      exact .int hc hcs
    | float =>
      obtain ⟨_ | ⟨c, cs⟩, _ | ⟨d, ds⟩, hwhole, hfraction, rfl⟩ := isDecimal_iff.mp h
      · cases hwhole
      · cases hwhole
      · cases hfraction
      · obtain ⟨hc, hcs⟩ := List.forall_mem_cons.mp (isDigits_iff.mp hwhole).2
        obtain ⟨hd, hds⟩ := List.forall_mem_cons.mp (isDigits_iff.mp hfraction).2
        exact .float hc hcs hd hds
    | string =>
      obtain ⟨q, body, hq, hbody, rfl⟩ := isQuoted_iff.mp h
      exact .string hq hbody
    | symbol s =>
      simp only [TokenKind.admits, Bool.or_eq_true, Bool.and_eq_true, beq_iff_eq] at h
      rcases h with rfl | ⟨rfl, rfl⟩
      · exact .symbol s
      · exact .angles
    | endOfInput => exact absurd rfl hkind

/-- A text is of one kind of token at most. -/
theorem IsToken.kind_unique {k l : TokenKind} {t : Text} (hk : IsToken k t) (hl : IsToken l t) :
    k = l := by
  obtain ⟨hkind, hadmits⟩ := isToken_iff.mp hk
  obtain ⟨-, hadmits'⟩ := isToken_iff.mp hl
  cases t with
  | nil => exact absurd (TokenKind.eq_endOfInput_of_admits hadmits) hkind
  | cons c cs =>
    have hends : ∀ kind, Ends kind [] := fun _ => by simp [Ends]
    have hfirst := Piece.first_token hadmits (hends k)
    rw [Piece.first_token hadmits' (hends l)] at hfirst
    simpa using hfirst.symm

/-- What a token is can be told from its first byte. -/
theorem IsToken.by_head {kind : TokenKind} {c : UInt8} {cs : Text} (h : IsToken kind (c :: cs)) :
    (isWordStart c = true ∧ ∀ b ∈ cs, isWordPart b = true) ∨
    (isDigit c = true ∧ ((∀ b ∈ cs, isDigit b = true) ∨ ∃ ws d ds, cs = ws ++ 46 :: d :: ds ∧
      (∀ b ∈ ws, isDigit b = true) ∧ isDigit d = true ∧ ∀ b ∈ ds, isDigit b = true)) ∨
    (isQuote c = true ∧ ∃ body, cs = body ++ [c] ∧ ∀ b ∈ body, b ≠ c ∧ b ≠ 10) ∨
    ((isWordStart c = false ∧ isDigit c = false ∧ isQuote c = false) ∧
      ∃ s : Symbol, c :: cs = s.spelling ∨ c :: cs = ascii "<>") := by
  generalize ht : c :: cs = t at h
  cases h with
  | keyword hc hcs =>
    obtain ⟨rfl, rfl⟩ := List.cons.inj ht
    exact .inl ⟨hc, hcs⟩
  | identifier hc hcs =>
    obtain ⟨rfl, rfl⟩ := List.cons.inj ht
    exact .inl ⟨hc, hcs⟩
  | int hc hcs =>
    obtain ⟨rfl, rfl⟩ := List.cons.inj ht
    exact .inr (.inl ⟨hc, .inl hcs⟩)
  | float hc hcs hd hds =>
    obtain ⟨rfl, rfl⟩ := List.cons.inj ht
    exact .inr (.inl ⟨hc, .inr ⟨_, _, _, rfl, hcs, hd, hds⟩⟩)
  | string hq hbody =>
    obtain ⟨rfl, rfl⟩ := List.cons.inj ht
    exact .inr (.inr (.inl ⟨hq, _, rfl, hbody⟩))
  | symbol s =>
    refine .inr (.inr (.inr ⟨?_, s, .inl rfl⟩))
    cases s <;> (obtain ⟨rfl, -⟩ := List.cons.inj ht; decide)
  | angles =>
    obtain ⟨rfl, rfl⟩ := List.cons.inj ht
    exact .inr (.inr (.inr ⟨by decide, .ne, .inr rfl⟩))

/-! ## 2. Longest tokens -/

/-- A token of this kind that the text begins with, and no longer one. -/
structure IsLongest (kind : TokenKind) (token text : Text) : Prop where
  isToken : IsToken kind token
  isPrefix : token <+: text
  longest : ∀ {other : TokenKind} {rival : Text}, IsToken other rival → rival <+: text →
    rival.length ≤ token.length

/-- Does the text begin with a blank or a comment? -/
def Separates (t : Text) : Prop := (∃ b ∈ t.head?, isBlank b = true) ∨ ascii "--" <+: t

/-- What is rejected where nothing else starts: one byte, or a quote with all that follows it on
    its line. -/
inductive Rejects : Text → Text → Prop
  | byte {b : UInt8} {rest : Text} : isQuote b = false → Rejects [b] rest
  | unclosed {q : UInt8} {body rest : Text} : isQuote q = true → 10 ∉ body →
      (∀ b ∈ rest.head?, b = 10) → Rejects (q :: body) rest

/-- Behind the text `before`, these tokens and errors are got from `rest` by skipping blanks and
    comments, taking the longest token where one starts, and rejecting what starts none. -/
inductive LongestMatch : Text → Text → List Token → List LexError → Prop
  | done {before : Text} : LongestMatch before [] [⟨.endOfInput, [], .behind before⟩] []
  | blank {before rest : Text} {b : UInt8} {ts : List Token} {es : List LexError} :
      isBlank b = true → LongestMatch (before ++ [b]) rest ts es →
      LongestMatch before (b :: rest) ts es
  | comment {before body rest : Text} {ts : List Token} {es : List LexError} :
      10 ∉ body → (∀ b ∈ rest.head?, b = 10) →
      LongestMatch (before ++ (ascii "--" ++ body)) rest ts es →
      LongestMatch before (ascii "--" ++ body ++ rest) ts es
  | token {before text rest : Text} {kind : TokenKind} {ts : List Token} {es : List LexError} :
      ¬Separates (text ++ rest) → IsLongest kind text (text ++ rest) →
      LongestMatch (before ++ text) rest ts es →
      LongestMatch before (text ++ rest) (⟨kind, text, .behind before⟩ :: ts) es
  | rejected {before text rest : Text} {ts : List Token} {es : List LexError} :
      ¬Separates (text ++ rest) →
      (∀ {kind : TokenKind} {token : Text}, IsToken kind token → ¬token <+: text ++ rest) →
      Rejects text rest → LongestMatch (before ++ text) rest ts es →
      LongestMatch before (text ++ rest) ts (⟨.behind before, text⟩ :: es)

/-! ## 3. The first piece -/

theorem length_le_takeWhile {p : UInt8 → Bool} {run t : Text} (hrun : ∀ b ∈ run, p b = true)
    (h : run <+: t) : run.length ≤ (t.takeWhile p).length := by
  obtain ⟨rest, rfl⟩ := h
  rw [List.takeWhile_append_of_pos hrun, List.length_append]
  exact Nat.le_add_right _ _

namespace Piece

variable {c : UInt8} {cs ds : Text}

/-- The piece is a token, and at least as long as this text. -/
def IsTokenFrom (p : Piece) (t : Text) : Prop :=
  (∃ kind, p.kind = .token kind) ∧ t.length ≤ p.text.length

theorem word_longest (hds : ∀ b ∈ ds, isWordPart b = true) (h : ds <+: cs) :
    (word c cs).1.IsTokenFrom (c :: ds) :=
  ⟨⟨_, rfl⟩, Nat.succ_le_succ (length_le_takeWhile hds h)⟩

theorem number_longest_int (hds : ∀ b ∈ ds, isDigit b = true) (h : ds <+: cs) :
    (number c cs).1.IsTokenFrom (c :: ds) := by
  have hwhole := length_le_takeWhile hds h
  unfold number
  split
  · split
    · refine ⟨⟨_, rfl⟩, ?_⟩
      simp only [List.length_append, List.length_cons]
      omega
    · exact ⟨⟨_, rfl⟩, Nat.succ_le_succ hwhole⟩
  · exact ⟨⟨_, rfl⟩, Nat.succ_le_succ hwhole⟩

theorem number_longest_float {ws : Text} {d : UInt8} (hws : ∀ b ∈ ws, isDigit b = true)
    (hd : isDigit d = true) (hds : ∀ b ∈ ds, isDigit b = true) (h : ws ++ 46 :: d :: ds <+: cs) :
    (number c cs).1.IsTokenFrom (c :: (ws ++ 46 :: d :: ds)) := by
  obtain ⟨rest, rfl⟩ := h
  rw [List.append_assoc, List.cons_append, List.cons_append]
  obtain ⟨htake, hdrop⟩ := span_append hws (show isDigit 46 = false from rfl) (d :: (ds ++ rest))
  have hfraction := length_le_takeWhile hds (List.prefix_append ds rest)
  unfold number
  rw [htake, hdrop]
  simp only [hd, if_true]
  refine ⟨⟨_, rfl⟩, ?_⟩
  simp only [List.cons_append, List.length_cons, List.length_append]
  omega

theorem string_longest {body : Text} (hbody : ∀ b ∈ body, b ≠ c ∧ b ≠ 10) (h : body ++ [c] <+: cs) :
    (string c cs).1.IsTokenFrom (c :: (body ++ [c])) := by
  obtain ⟨rest, rfl⟩ := h
  rw [List.append_assoc, List.singleton_append]
  have hrun : ∀ b ∈ body, (b != c && b != 10) = true := by
    intro b hb
    simpa using hbody b hb
  obtain ⟨htake, hdrop⟩ := span_append hrun (show (c != c && c != 10) = false by simp) rest
  unfold string
  rw [htake, hdrop]
  simp only [beq_self_eq_true, if_true]
  exact ⟨⟨_, rfl⟩, Nat.le_refl _⟩

theorem pair_longest {choices : List (UInt8 × Symbol)} {s : Symbol} :
    (pair choices (.token (.symbol s)) c cs).1.IsTokenFrom [c] := by
  unfold pair
  split
  · split
    · exact ⟨⟨_, rfl⟩, by simp⟩
    · exact ⟨⟨_, rfl⟩, Nat.le_refl _⟩
  · exact ⟨⟨_, rfl⟩, Nat.le_refl _⟩

theorem symbolOrRejected_longest {s : Symbol}
    (hs : c :: ds = s.spelling ∨ c :: ds = ascii "<>") (h : ds <+: cs) :
    (symbolOrRejected c cs).1.IsTokenFrom (c :: ds) := by
  obtain ⟨rest, rfl⟩ := h
  rcases hs with hs | hs
  · cases s <;> obtain ⟨rfl, rfl⟩ := List.cons.inj hs
    case lt | gt => exact pair_longest
    all_goals exact ⟨⟨_, rfl⟩, Nat.le_refl _⟩
  · obtain ⟨rfl, rfl⟩ := List.cons.inj hs
    exact ⟨⟨_, rfl⟩, Nat.le_refl _⟩

/-- **Where a token starts, the first piece is one, and no shorter.** -/
theorem first_longest {kind : TokenKind} {t : Text} (ht : IsToken kind t) (h : t <+: c :: cs)
    (hblank : isBlank c = false) (hcomment : (c == 45 && cs.head? == some 45) = false) :
    (first c cs).1.IsTokenFrom t := by
  obtain _ | ⟨c', ds⟩ := t
  · obtain ⟨hkind, hadmits⟩ := isToken_iff.mp ht
    exact absurd (TokenKind.eq_endOfInput_of_admits hadmits) hkind
  obtain ⟨rfl, hds⟩ := List.cons_prefix_cons.mp h
  unfold first
  rw [if_neg (by simp [hblank]), if_neg (by simp [hcomment])]
  rcases ht.by_head with ⟨hc, hword⟩ | ⟨hc, hnumber⟩ | ⟨hc, body, rfl, hbody⟩ |
    ⟨⟨hstart, hdigit, hquote⟩, s, hs⟩
  · rw [if_pos hc]
    exact word_longest hword hds
  · obtain ⟨-, -, hstart⟩ := digit_ne hc
    rw [if_neg (by simp [hstart]), if_pos hc]
    rcases hnumber with hdigits | ⟨ws, d, fraction, rfl, hws, hd, hfraction⟩
    · exact number_longest_int hdigits hds
    · exact number_longest_float hws hd hfraction hds
  · obtain ⟨-, -, hstart, hdigit⟩ := quote_ne hc
    rw [if_neg (by simp [hstart]), if_neg (by simp [hdigit]), if_pos hc]
    exact string_longest hbody hds
  · rw [if_neg (by simp [hstart]), if_neg (by simp [hdigit]), if_neg (by simp [hquote])]
    exact symbolOrRejected_longest hs hds

theorem number_not_rejected (c : UInt8) (cs : Text) : (number c cs).1.kind ≠ .rejected := by
  intro hrejected
  unfold number at hrejected
  split at hrejected
  · split at hrejected <;> cases hrejected
  · cases hrejected

/-- A string that is rejected is not closed on its line. -/
theorem string_rejects (hquote : isQuote c = true)
    (hrejected : (string c cs).1.kind = .rejected) :
    Rejects (string c cs).1.text (string c cs).2 := by
  have hbody : 10 ∉ cs.takeWhile fun b => b != c && b != 10 := by
    intro hmem
    simpa using List.all_eq_true.mp List.all_takeWhile 10 hmem
  have hstop := List.head?_dropWhile_not (fun b => b != c && b != 10) cs
  unfold string at hrejected ⊢
  split at hrejected
  · rename_i b rest hdrop
    split at hrejected
    · cases hrejected
    · rename_i hb
      rw [hdrop] at hstop
      have hne : b ≠ c := by simpa using hb
      simp only [hb]
      refine .unclosed hquote hbody ?_
      simpa [hne] using hstop
  · exact .unclosed hquote hbody (by simp)

theorem pair_rejects {choices : List (UInt8 × Symbol)} {alone : PieceKind}
    (hquote : isQuote c = false) (hrejected : (pair choices alone c cs).1.kind = .rejected) :
    Rejects (pair choices alone c cs).1.text (pair choices alone c cs).2 := by
  unfold pair at hrejected ⊢
  split at hrejected
  · split at hrejected
    · cases hrejected
    · exact .byte hquote
  · exact .byte hquote

theorem symbolOrRejected_rejects (hquote : isQuote c = false)
    (hrejected : (symbolOrRejected c cs).1.kind = .rejected) :
    Rejects (symbolOrRejected c cs).1.text (symbolOrRejected c cs).2 := by
  unfold symbolOrRejected at hrejected ⊢
  split at hrejected
  any_goals cases hrejected
  any_goals exact pair_rejects hquote hrejected
  · exact .byte hquote

/-- A rejected first piece is one byte, or a quote with all that follows it on its line. -/
theorem first_rejects (hrejected : (first c cs).1.kind = .rejected) :
    Rejects (first c cs).1.text (first c cs).2 := by
  unfold first at hrejected ⊢
  split at hrejected
  · cases hrejected
  split at hrejected
  · cases hrejected
  split at hrejected
  · cases hrejected
  rename_i hblank hcomment hstart
  rw [if_neg hblank, if_neg hcomment, if_neg hstart]
  split at hrejected
  · exact absurd hrejected (number_not_rejected c cs)
  rename_i hdigit
  rw [if_neg hdigit]
  split at hrejected
  · rename_i hquote
    rw [if_pos hquote]
    exact string_rejects hquote hrejected
  · rename_i hquote
    rw [if_neg hquote]
    exact symbolOrRejected_rejects (by simpa using hquote) hrejected

end Piece

/-! ## 4. The tokens and errors of a text -/

theorem separates_iff {c : UInt8} {cs : Text} :
    Separates (c :: cs) ↔ isBlank c = true ∨ (c == 45 && cs.head? == some 45) = true := by
  have hdashes : ascii "--" = [45, 45] := rfl
  refine or_congr (by simp) ?_
  rw [hdashes, List.cons_prefix_cons, Bool.and_eq_true, beq_iff_eq, eq_comm]
  refine and_congr_right fun _ => ?_
  cases cs with
  | nil => simp
  | cons d cs => simpa using eq_comm

theorem LongestMatch.blanks {before blanks rest : Text} {ts : List Token} {es : List LexError}
    (hblanks : ∀ b ∈ blanks, isBlank b = true) (h : LongestMatch (before ++ blanks) rest ts es) :
    LongestMatch before (blanks ++ rest) ts es := by
  induction blanks generalizing before with
  | nil => simpa using h
  | cons b blanks ih =>
    obtain ⟨hb, hblanks⟩ := List.forall_mem_cons.mp hblanks
    refine .blank hb (ih hblanks ?_)
    rwa [List.append_assoc, List.singleton_append]

/-- The first piece of a text is matched in front of what is matched in the rest. -/
theorem longestMatch_first {before : Text} {c : UInt8} {cs : Text} {ts : List Token}
    {es : List LexError}
    (h : LongestMatch (before ++ (Piece.first c cs).1.text) (Piece.first c cs).2 ts es) :
    LongestMatch before (c :: cs)
      ((Piece.token? (.behind before, (Piece.first c cs).1)).toList ++ ts)
      ((LexError.ofPiece? (.behind before, (Piece.first c cs).1)).toList ++ es) := by
  cases hblank : isBlank c with
  | true =>
    rw [Piece.first_blank hblank] at h ⊢
    have hblanks : ∀ b ∈ c :: cs.takeWhile isBlank, isBlank b = true :=
      List.forall_mem_cons.mpr ⟨hblank, List.all_eq_true.mp List.all_takeWhile⟩
    have hmatch := LongestMatch.blanks hblanks h
    rwa [List.cons_append, List.takeWhile_append_dropWhile] at hmatch
  | false =>
    cases hcomment : (c == 45 && cs.head? == some 45) with
    | true =>
      obtain ⟨body, rest, hbody, hrest, happend, hfirst⟩ := Piece.first_comment hcomment
      rw [hfirst] at h ⊢
      rw [happend]
      exact .comment hbody hrest h
    | false =>
      have hseparates : ¬Separates (c :: cs) := by simp [separates_iff, hblank, hcomment]
      have happend := Piece.first_append c cs
      have hlongest : ∀ {kind : TokenKind} {t : Text}, IsToken kind t → t <+: c :: cs →
          (Piece.first c cs).1.IsTokenFrom t :=
        fun ht hprefix => Piece.first_longest ht hprefix hblank hcomment
      unfold Piece.token? LexError.ofPiece?
      rcases Piece.first_token_or_rejected hblank hcomment with ⟨kind, hkind⟩ | hkind
      · simp only [hkind]
        have hkind' : kind ≠ .endOfInput := fun e => Piece.first_kind_ne_end c cs (e ▸ hkind)
        have htoken := isToken_iff.mpr ⟨hkind', Piece.first_shaped hkind⟩
        rw [← happend] at hseparates hlongest ⊢
        exact .token hseparates
          ⟨htoken, List.prefix_append _ _, fun ht hprefix => (hlongest ht hprefix).2⟩ h
      · simp only [hkind]
        have hrejects := Piece.first_rejects hkind
        have hnone : ∀ {kind : TokenKind} {t : Text}, IsToken kind t → ¬t <+: c :: cs := by
          intro kind t ht hprefix
          obtain ⟨⟨other, hother⟩, -⟩ := hlongest ht hprefix
          cases hkind.symm.trans hother
        rw [← happend] at hseparates hnone ⊢
        exact .rejected hseparates hnone hrejects h

/-! ## 5. No other tokens and errors -/

theorem IsToken.ne_nil {kind : TokenKind} {t : Text} (h : IsToken kind t) : t ≠ [] := by
  cases h with
  | symbol s => cases s <;> exact List.cons_ne_nil _ _
  | _ => exact List.cons_ne_nil _ _

/-- There is one longest token, and it is of one kind. -/
theorem IsLongest.unique {k l : TokenKind} {s t text : Text} (hs : IsLongest k s text)
    (ht : IsLongest l t text) : s = t ∧ k = l := by
  have hlength : s.length = t.length :=
    Nat.le_antisymm (ht.longest hs.isToken hs.isPrefix) (hs.longest ht.isToken ht.isPrefix)
  have heq : s = t :=
    (List.prefix_of_prefix_length_le hs.isPrefix ht.isPrefix hlength.le).eq_of_length hlength
  exact ⟨heq, (heq ▸ hs.isToken).kind_unique ht.isToken⟩

/-- What follows a newline, or nothing, tells where a line ends. -/
theorem line_unique {body body' rest rest' : Text} (hbody : 10 ∉ body) (hbody' : 10 ∉ body')
    (hrest : ∀ b ∈ rest.head?, b = 10) (hrest' : ∀ b ∈ rest'.head?, b = 10)
    (h : body ++ rest = body' ++ rest') : body = body' ∧ rest = rest' := by
  have hspan : ∀ {body rest : Text}, 10 ∉ body → (∀ b ∈ rest.head?, b = 10) →
      (body ++ rest).takeWhile (· != 10) = body ∧ (body ++ rest).dropWhile (· != 10) = rest := by
    intro body rest hbody hrest
    refine span_of_head (fun b hb => ?_) fun b hb => by simp [hrest b hb]
    simpa using fun e : b = 10 => hbody (e ▸ hb)
  obtain ⟨htake, hdrop⟩ := hspan hbody hrest
  obtain ⟨htake', hdrop'⟩ := hspan hbody' hrest'
  rw [h] at htake hdrop
  exact ⟨htake.symm.trans htake', hdrop.symm.trans hdrop'⟩

theorem Rejects.ne_nil {text rest : Text} (h : Rejects text rest) : text ≠ [] := by
  cases h <;> exact List.cons_ne_nil _ _

/-- One piece is rejected at most. -/
theorem Rejects.unique {text text' rest rest' : Text} (h : Rejects text rest)
    (h' : Rejects text' rest') (heq : text ++ rest = text' ++ rest') :
    text = text' ∧ rest = rest' := by
  cases h with
  | byte hb =>
    cases h' with
    | byte => simpa using heq
    | unclosed hq =>
      obtain ⟨rfl, -⟩ := List.cons.inj heq
      rw [hb] at hq
      cases hq
  | unclosed hq hbody hrest =>
    cases h' with
    | byte hb =>
      obtain ⟨rfl, -⟩ := List.cons.inj heq
      rw [hb] at hq
      cases hq
    | unclosed _ hbody' hrest' =>
      obtain ⟨rfl, htail⟩ := List.cons.inj heq
      obtain ⟨rfl, rfl⟩ := line_unique hbody hbody' hrest hrest' htail
      exact ⟨rfl, rfl⟩

theorem separates_blank {b : UInt8} (hb : isBlank b = true) (rest : Text) : Separates (b :: rest) :=
  .inl ⟨b, rfl, hb⟩

theorem separates_comment (body rest : Text) : Separates (ascii "--" ++ body ++ rest) :=
  .inr ⟨body ++ rest, (List.append_assoc ..).symm⟩

namespace LongestMatch

variable {before text rest : Text} {ts : List Token} {es : List LexError}

/-- A text that begins with a blank or a comment is matched by skipping it. -/
theorem of_separates {t : Text} (h : LongestMatch before t ts es) (ht : Separates t) :
    (∃ b rest, t = b :: rest ∧ isBlank b = true ∧ LongestMatch (before ++ [b]) rest ts es) ∨
    ∃ body rest, t = ascii "--" ++ body ++ rest ∧ 10 ∉ body ∧ (∀ b ∈ rest.head?, b = 10) ∧
      LongestMatch (before ++ (ascii "--" ++ body)) rest ts es := by
  cases h with
  | done => simp [Separates] at ht; cases ht
  | blank hb h => exact .inl ⟨_, _, rfl, hb, h⟩
  | comment hbody hrest h => exact .inr ⟨_, _, rfl, hbody, hrest, h⟩
  | token hseparates => exact absurd ht hseparates
  | rejected hseparates => exact absurd ht hseparates

/-- A text that begins with neither is matched by its longest token, or by rejecting a piece. -/
theorem of_not_separates {t : Text} (h : LongestMatch before t ts es) (ht : ¬Separates t)
    (hne : t ≠ []) :
    (∃ kind text rest ts', t = text ++ rest ∧ IsLongest kind text t ∧
      ts = ⟨kind, text, .behind before⟩ :: ts' ∧ LongestMatch (before ++ text) rest ts' es) ∨
    ∃ text rest es', t = text ++ rest ∧
      (∀ {kind : TokenKind} {token : Text}, IsToken kind token → ¬token <+: t) ∧
      Rejects text rest ∧ es = ⟨.behind before, text⟩ :: es' ∧
      LongestMatch (before ++ text) rest ts es' := by
  cases h with
  | done => exact absurd rfl hne
  | blank hb => exact absurd (separates_blank hb _) ht
  | comment => exact absurd (separates_comment _ _) ht
  | token _ hlongest h => exact .inl ⟨_, _, _, _, rfl, hlongest, rfl, h⟩
  | rejected _ hnone hrejects h => exact .inr ⟨_, _, _, rfl, hnone, hrejects, rfl, h⟩

/-- **A text is matched in one way only.** -/
theorem unique {t : Text} (h : LongestMatch before t ts es) {ts' : List Token} {es' : List LexError}
    (h' : LongestMatch before t ts' es') : ts = ts' ∧ es = es' := by
  induction h generalizing ts' es' with
  | done =>
    generalize ht : ([] : Text) = t at h'
    cases h' with
    | done => exact ⟨rfl, rfl⟩
    | blank => cases ht
    | comment => cases ht
    | token _ hlongest =>
      exact absurd (List.append_eq_nil_iff.mp ht.symm).1 hlongest.isToken.ne_nil
    | rejected _ _ hrejects => exact absurd (List.append_eq_nil_iff.mp ht.symm).1 hrejects.ne_nil
  | blank hb _ ih =>
    rcases h'.of_separates (separates_blank hb _) with ⟨b, rest, heq, -, h'⟩ | ⟨_, _, heq, -⟩
    · obtain ⟨rfl, rfl⟩ := List.cons.inj heq
      exact ih h'
    · obtain ⟨rfl, -⟩ := List.cons.inj heq
      cases hb
  | comment hbody hrest _ ih =>
    rcases h'.of_separates (separates_comment _ _) with
      ⟨b, rest, heq, hb, -⟩ | ⟨body', rest', heq, hbody', hrest', h'⟩
    · obtain ⟨rfl, -⟩ := List.cons.inj heq
      cases hb
    · rw [List.append_assoc, List.append_assoc] at heq
      obtain ⟨rfl, rfl⟩ :=
        line_unique hbody hbody' hrest hrest' (List.append_cancel_left heq)
      exact ih h'
  | token hseparates hlongest _ ih =>
    have hne := hlongest.isToken.ne_nil
    rcases h'.of_not_separates hseparates (by simp [hne]) with
      ⟨kind', text', rest', ts'', heq, hlongest', rfl, h'⟩ | ⟨_, _, _, -, hnone, -⟩
    · obtain ⟨rfl, rfl⟩ := hlongest.unique hlongest'
      obtain rfl := List.append_cancel_left heq
      obtain ⟨rfl, rfl⟩ := ih h'
      exact ⟨rfl, rfl⟩
    · exact absurd hlongest.isPrefix (hnone hlongest.isToken)
  | rejected hseparates hnone hrejects _ ih =>
    have hne := hrejects.ne_nil
    rcases h'.of_not_separates hseparates (by simp [hne]) with
      ⟨_, _, _, _, -, hlongest, -⟩ | ⟨text', rest', es'', heq, -, hrejects', rfl, h'⟩
    · exact absurd hlongest.isPrefix (hnone hlongest.isToken)
    · obtain ⟨rfl, rfl⟩ := hrejects.unique hrejects' heq
      obtain ⟨rfl, rfl⟩ := ih h'
      exact ⟨rfl, rfl⟩

end LongestMatch

/-- The tokens and errors of a text are matched in it. -/
theorem longestMatch_lex (t : Text) : LongestMatch [] t (lex t).tokens (lex t).errors := by
  have hlocated := located_induction (fun _ => .done) (fun _ _ _ _ _ => longestMatch_first) [] t
  rw [← Location.after_behind, Location.behind_nil] at hlocated
  exact hlocated

/-- Nothing else is matched in it. -/
theorem LongestMatch.lex_eq {t : Text} {ts : List Token} {es : List LexError}
    (h : LongestMatch [] t ts es) : lex t = ⟨ts, es⟩ := by
  obtain ⟨htokens, herrors⟩ := (longestMatch_lex t).unique h
  rw [← htokens, ← herrors]

/-- **The longest match.** The tokens and errors of a text are got by skipping blanks and comments
    and taking the longest token that starts there, of the one kind that it is; only where none
    starts, a piece is rejected: one byte, or a quote with all that follows it on its line. No other
    tokens and errors are got so. -/
theorem longest_match_iff (t : Text) (ts : List Token) (es : List LexError) :
    LongestMatch [] t ts es ↔ lex t = ⟨ts, es⟩ := by
  constructor
  · exact LongestMatch.lex_eq
  · intro h
    have hmatch := longestMatch_lex t
    rw [h] at hmatch
    exact hmatch

end MiningQuery
