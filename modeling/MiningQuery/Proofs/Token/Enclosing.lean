/-
  File:      MiningQuery/Proofs/Token/Enclosing.lean
  Subject:   A text in which some tokens in a row are put in parentheses.

  A parenthesis is a token by itself, whatever stands around it, and goes on with no other token. So
  a text can be parted in front of a token and behind one, and a parenthesis can be put there: the
  tokens of the parts stay as they are, but for their places.

  * `MatchedPart` -- a part of a text, with its tokens, in front of what follows it;
  * `LongestMatch.part` -- parting a text in front of a token;
  * **`MatchedPart.before_paren`** -- the part has the same tokens in front of a parenthesis;
  * `Spans` -- the place of some tokens in a text;
  * **`lex_enclosed`** -- a text with parentheses around some of its tokens.
-/
import MiningQuery.Proofs.Token.Joining
import MiningQuery.Proofs.Token.Longest

namespace MiningQuery

/-! ## 1. Parts of a text -/

/-- Behind the text `before` and in front of `rest`, a part of a text is blanks, comments with the
    newline that ends them, and these tokens, each the longest. Nothing of it is rejected. -/
inductive MatchedPart (rest : Text) : Text → Text → List Token → Prop
  | done {before : Text} : MatchedPart rest before [] []
  | blank {before t : Text} {b : UInt8} {ts : List Token} : isBlank b = true →
      MatchedPart rest (before ++ [b]) t ts → MatchedPart rest before (b :: t) ts
  | comment {before body t : Text} {ts : List Token} : 10 ∉ body →
      MatchedPart rest (before ++ (ascii "--" ++ body)) (10 :: t) ts →
      MatchedPart rest before (ascii "--" ++ body ++ 10 :: t) ts
  | token {before text t : Text} {kind : TokenKind} {ts : List Token} :
      ¬Separates (text ++ (t ++ rest)) → IsLongest kind text (text ++ (t ++ rest)) →
      MatchedPart rest (before ++ text) t ts →
      MatchedPart rest before (text ++ t) (⟨kind, text, .behind before⟩ :: ts)

namespace MatchedPart

variable {rest before t u : Text} {ts us : List Token} {es : List LexError}

/-- A part in front of what is matched is matched. -/
theorem longestMatch (h : MatchedPart rest before t ts)
    (hrest : LongestMatch (before ++ t) rest us es) :
    LongestMatch before (t ++ rest) (ts ++ us) es := by
  induction h with
  | done => simpa using hrest
  | blank hb _ ih =>
    refine .blank hb (ih ?_)
    rwa [List.append_assoc, List.singleton_append]
  | comment hbody _ ih =>
    rw [List.append_assoc]
    refine .comment hbody (by simp) (ih ?_)
    rwa [List.append_assoc]
  | token hseparates hlongest _ ih =>
    rw [List.append_assoc]
    refine .token hseparates hlongest (ih ?_)
    rwa [List.append_assoc]

/-- Two parts, one behind the other. -/
theorem append (h : MatchedPart (u ++ rest) before t ts)
    (hu : MatchedPart rest (before ++ t) u us) : MatchedPart rest before (t ++ u) (ts ++ us) := by
  induction h with
  | done => simpa using hu
  | blank hb _ ih =>
    refine .blank hb (ih ?_)
    rwa [List.append_assoc, List.singleton_append]
  | comment hbody _ ih =>
    rw [List.append_assoc]
    refine .comment hbody (ih ?_)
    rwa [List.append_assoc]
  | @token before text t kind ts hseparates hlongest _ ih =>
    rw [List.append_assoc]
    have hassoc : text ++ (t ++ u ++ rest) = text ++ (t ++ (u ++ rest)) := by
      rw [List.append_assoc t]
    refine .token (hassoc ▸ hseparates) (hassoc ▸ hlongest) (ih ?_)
    rwa [List.append_assoc]

end MatchedPart

/-- **A text can be parted in front of each of its tokens.** -/
theorem LongestMatch.part {before t : Text} {ts us : List Token} {tok : Token}
    (h : LongestMatch before t (ts ++ tok :: us) []) (htok : tok.kind ≠ .endOfInput) :
    ∃ x u, t = x ++ (tok.text ++ u) ∧ MatchedPart (tok.text ++ u) before x ts ∧
      tok.location = .behind (before ++ x) ∧ ¬Separates (tok.text ++ u) ∧
      IsLongest tok.kind tok.text (tok.text ++ u) ∧
      LongestMatch (before ++ x ++ tok.text) u us [] := by
  generalize hts : ts ++ tok :: us = tokens at h
  generalize hes : ([] : List LexError) = es at h
  induction h generalizing ts with
  | done =>
    obtain _ | ⟨first, ts⟩ := ts
    · obtain ⟨rfl, -⟩ := List.cons.inj hts
      exact absurd rfl htok
    · simp at hts
  | blank hb _ ih =>
    obtain ⟨x, u, rfl, hpart, hlater⟩ := ih hts hes
    refine ⟨_ :: x, u, rfl, .blank hb hpart, ?_⟩
    rw [List.append_cons]
    exact hlater
  | @comment before body _ _ _ hbody hrest _ ih =>
    obtain ⟨x, u, rfl, hpart, hlater⟩ := ih hts hes
    obtain _ | ⟨c, x⟩ := x
    · -- a comment ends with a newline, and no token starts with one
      obtain ⟨-, hseparates, hlongest, -⟩ := hlater
      obtain ⟨c, cs, htext⟩ := List.exists_cons_of_ne_nil hlongest.isToken.ne_nil
      rw [htext] at hrest hseparates
      obtain rfl := hrest c rfl
      exact absurd (separates_blank (by decide) _) hseparates
    · obtain rfl := hrest c rfl
      refine ⟨ascii "--" ++ body ++ 10 :: x, u, ?_, .comment hbody hpart, ?_⟩
      · rw [List.append_assoc (_ ++ _)]
      · rw [← List.append_assoc before]
        exact hlater
  | @token before text rest kind ts' es' hseparates hlongest hrest ih =>
    obtain _ | ⟨first, ts⟩ := ts
    · obtain ⟨rfl, rfl⟩ := List.cons.inj hts
      subst hes
      refine ⟨[], rest, rfl, .done, by rw [List.append_nil], hseparates, hlongest, ?_⟩
      rwa [List.append_nil]
    · obtain ⟨rfl, htail⟩ := List.cons.inj hts
      obtain ⟨x, u, rfl, hpart, hlater⟩ := ih htail hes
      refine ⟨text ++ x, u, by rw [List.append_assoc], .token hseparates hlongest hpart, ?_⟩
      rw [← List.append_assoc before]
      exact hlater
  | rejected => cases hes

/-- What is matched behind one text is matched behind any other, but for the places. -/
theorem LongestMatch.moved {before t : Text} {ts : List Token} {es : List LexError}
    (h : LongestMatch before t ts es) (hes : es = []) (before' : Text) :
    ∃ ts', LongestMatch before' t ts' [] ∧ ts'.map Token.lexeme = ts.map Token.lexeme := by
  induction h generalizing before' with
  | done => exact ⟨_, .done, rfl⟩
  | blank hb _ ih =>
    obtain ⟨ts', h, hlexemes⟩ := ih hes (before' ++ [_])
    exact ⟨ts', .blank hb h, hlexemes⟩
  | comment hbody hrest _ ih =>
    obtain ⟨ts', h, hlexemes⟩ := ih hes (before' ++ (ascii "--" ++ _))
    exact ⟨ts', .comment hbody hrest h, hlexemes⟩
  | token hseparates hlongest _ ih =>
    obtain ⟨ts', h, hlexemes⟩ := ih hes (before' ++ _)
    refine ⟨_, .token hseparates hlongest h, ?_⟩
    rw [List.map_cons, List.map_cons, hlexemes]
    rfl
  | rejected => cases hes

/-! ## 2. Parentheses -/

/-- An opening or a closing parenthesis. -/
def IsParenByte (b : UInt8) : Prop := b = 40 ∨ b = 41

/-- A token that goes on with a parenthesis is a string. -/
theorem IsToken.by_paren {kind : TokenKind} {c b : UInt8} {cs : Text} (hb : IsParenByte b)
    (h : IsToken kind (c :: cs)) (hmem : b ∈ cs) :
    isQuote c = true ∧ ∃ body, cs = body ++ [c] ∧ ∀ x ∈ body, x ≠ c ∧ x ≠ 10 := by
  have hclass : isWordPart b = false ∧ isDigit b = false ∧ b ≠ 46 := by
    rcases hb with rfl | rfl <;> decide
  rcases h.by_head with ⟨-, hword⟩ | ⟨-, hnumber⟩ | hstring | ⟨-, s, hs⟩
  · exact absurd (hword b hmem) (by simp [hclass])
  · rcases hnumber with hdigits | ⟨ws, d, ds, rfl, hws, hd, hds⟩
    · exact absurd (hdigits b hmem) (by simp [hclass])
    · have hdigit : isDigit b = true ∨ b = 46 := by
        simp only [List.mem_append, List.mem_cons] at hmem
        rcases hmem with hmem | rfl | rfl | hmem
        · exact .inl (hws b hmem)
        · exact .inr rfl
        · exact .inl hd
        · exact .inl (hds b hmem)
      simp [hclass] at hdigit
  · exact hstring
  · rcases hs with hs | hs
    · cases s <;> obtain ⟨-, rfl⟩ := List.cons.inj hs <;> rcases hb with rfl | rfl <;>
        exact absurd hmem (by decide)
    · obtain ⟨-, rfl⟩ := List.cons.inj hs
      rcases hb with rfl | rfl <;> exact absurd hmem (by decide)

/-- A token that begins with a quote is a string. -/
theorem IsToken.by_quote {kind : TokenKind} {c : UInt8} {cs : Text} (hc : isQuote c = true)
    (h : IsToken kind (c :: cs)) : ∃ body, cs = body ++ [c] := by
  obtain ⟨-, -, hstart, hdigit⟩ := Piece.quote_ne hc
  rcases h.by_head with ⟨hword, -⟩ | ⟨hnumber, -⟩ | ⟨-, body, hbody, -⟩ | ⟨⟨-, -, hquote⟩, -⟩
  · rw [hstart] at hword
    cases hword
  · rw [hdigit] at hnumber
    cases hnumber
  · exact ⟨body, hbody⟩
  · rw [hc] at hquote
    cases hquote

/-- **A longest token stays the longest if a parenthesis comes somewhere behind it.** -/
theorem IsLongest.before_paren {kind : TokenKind} {text t rest : Text} {b : UInt8}
    (hb : IsParenByte b) (h : IsLongest kind text (text ++ (t ++ rest))) (v : Text) :
    IsLongest kind text (text ++ (t ++ b :: v)) := by
  refine ⟨h.isToken, List.prefix_append _ _, fun {other rival} hrival hprefix => ?_⟩
  by_cases hlength : rival.length ≤ (text ++ t).length
  · have hinside : rival <+: text ++ t := by
      rw [← List.append_assoc] at hprefix
      exact List.prefix_of_prefix_length_le hprefix (List.prefix_append _ _) hlength
    refine h.longest hrival (hinside.trans ?_)
    rw [← List.append_assoc]
    exact List.prefix_append _ _
  · -- the rival has the parenthesis in it, so both are strings, and they end at the same quote
    have hover : text ++ t ++ [b] <+: rival := by
      have hpart : text ++ t ++ [b] <+: text ++ (t ++ b :: v) := ⟨v, by simp⟩
      refine List.prefix_of_prefix_length_le hpart hprefix ?_
      rw [List.length_append, List.length_singleton]
      omega
    obtain ⟨r, rfl⟩ := hover
    obtain ⟨c, cs, rfl⟩ := List.exists_cons_of_ne_nil h.isToken.ne_nil
    simp only [List.cons_append, List.append_assoc] at hrival
    obtain ⟨hc, body, hbody, hnone⟩ := hrival.by_paren hb (by simp)
    obtain ⟨body', rfl⟩ := h.isToken.by_quote hc
    have hmem : c ∈ body := by
      have hdrop := congrArg List.dropLast hbody
      rw [List.dropLast_concat] at hdrop
      rw [← hdrop, List.dropLast_append_of_ne_nil (by simp)]
      simp
    exact absurd rfl (hnone c hmem).1

/-- A parenthesis makes no comment of what stands before it. -/
theorem not_separates_before_paren {text rest : Text} {b : UInt8} (hb : IsParenByte b)
    (hne : text ≠ []) (h : ¬Separates (text ++ rest)) (v : Text) : ¬Separates (text ++ b :: v) := by
  obtain ⟨c, cs, rfl⟩ := List.exists_cons_of_ne_nil hne
  rw [List.cons_append, separates_iff, not_or] at h ⊢
  refine ⟨h.1, ?_⟩
  cases cs with
  | nil => rcases hb with rfl | rfl <;> simp
  | cons d cs => exact h.2

/-- **A part has the same tokens in front of a parenthesis.** -/
theorem MatchedPart.before_paren {rest before t : Text} {ts : List Token} {b : UInt8}
    (h : MatchedPart rest before t ts) (hb : IsParenByte b) (v before' : Text) :
    ∃ ts', MatchedPart (b :: v) before' t ts' ∧ ts'.map Token.lexeme = ts.map Token.lexeme := by
  induction h generalizing before' with
  | done => exact ⟨[], .done, rfl⟩
  | blank hblank _ ih =>
    obtain ⟨ts', h, hlexemes⟩ := ih (before' ++ [_])
    exact ⟨ts', .blank hblank h, hlexemes⟩
  | comment hbody _ ih =>
    obtain ⟨ts', h, hlexemes⟩ := ih (before' ++ (ascii "--" ++ _))
    exact ⟨ts', .comment hbody h, hlexemes⟩
  | @token before text t kind ts hseparates hlongest _ ih =>
    obtain ⟨ts', h, hlexemes⟩ := ih (before' ++ text)
    have hseparates' : ¬Separates (text ++ (t ++ b :: v)) := by
      rw [← List.append_assoc] at hseparates ⊢
      exact not_separates_before_paren hb (by simp [hlongest.isToken.ne_nil]) hseparates v
    refine ⟨_, .token hseparates' (hlongest.before_paren hb v) h, ?_⟩
    rw [List.map_cons, List.map_cons, hlexemes]
    rfl

/-- A parenthesis is a token by itself. -/
theorem LongestMatch.paren {before t : Text} {ts : List Token} {es : List LexError} {s : Symbol}
    {b : UInt8} (hb : IsParenByte b) (hs : s.spelling = [b])
    (h : LongestMatch (before ++ [b]) t ts es) :
    LongestMatch before (b :: t) (⟨.symbol s, [b], .behind before⟩ :: ts) es := by
  have hseparates : ¬Separates ([b] ++ t) := by
    rcases hb with rfl | rfl <;> simp [separates_iff, isBlank]
  refine .token hseparates ⟨hs ▸ .symbol s, List.prefix_append _ _, ?_⟩ h
  intro other rival hrival hprefix
  rcases hb with rfl | rfl <;> exact (Piece.first_longest hrival hprefix rfl rfl).2

/-! ## 3. Tokens in parentheses -/

/-- The tokens, at least one, stand in a text behind `x`, from where `y` begins to where it ends. -/
def Spans (ts : List Token) (x y : Text) : Prop :=
  (∃ first, ts.head? = some first ∧ first.location = Location.start.after x) ∧
    ∃ last, ts.getLast? = some last ∧
      last.location.after last.text = Location.start.after (x ++ y)

/-- **Parentheses around some tokens of a text.** The text, which has no errors, is parted where these
    tokens begin and where they end. With parentheses put there it has no errors either, and its
    tokens are those of the text and the parentheses, but for the places. -/
theorem lex_enclosed {t : Text} {before inside behind : List Token} (herrors : (lex t).errors = [])
    (htokens : (lex t).tokens = before ++ (inside ++ behind)) (hne : inside ≠ [])
    (hkinds : ∀ tok ∈ inside, tok.kind ≠ .endOfInput) :
    ∃ x y z, t = x ++ (y ++ z) ∧ Spans inside x y ∧
      (lex (x ++ 40 :: (y ++ 41 :: z))).errors = [] ∧
      (lex (x ++ 40 :: (y ++ 41 :: z))).tokens.map Token.lexeme =
        before.map Token.lexeme ++ .exact (.symbol .openParen) [40] ::
          (inside.map Token.lexeme ++ .exact (.symbol .closeParen) [41] ::
            behind.map Token.lexeme) := by
  obtain ⟨first, inside', rfl⟩ := List.exists_cons_of_ne_nil hne
  have hmatch := longestMatch_lex t
  rw [herrors, htokens, List.cons_append] at hmatch
  obtain ⟨x, u, rfl, hx, hfirst, hseparates, hlongest, hu⟩ :=
    hmatch.part (hkinds first List.mem_cons_self)
  rw [List.nil_append] at hfirst hu
  have hmiddle : LongestMatch x (first.text ++ u) (first :: inside' ++ behind) [] := by
    have hcons := LongestMatch.token hseparates hlongest hu
    rwa [← hfirst] at hcons
  obtain ⟨init, last, hinit⟩ : ∃ init last, first :: inside' = init ++ [last] :=
    ⟨_, _, (List.dropLast_concat_getLast hne).symm⟩
  have hlastKind : last.kind ≠ .endOfInput := hkinds last (by simp [hinit])
  rw [hinit, List.append_assoc, List.singleton_append] at hmiddle
  obtain ⟨y, z, hyz, hy, hlast, hseparates', hlongest', hz⟩ := hmiddle.part hlastKind
  have hinside : MatchedPart z x (y ++ last.text) (init ++ [last]) := by
    have hcons : MatchedPart z (x ++ y) (last.text ++ []) [⟨last.kind, last.text, _⟩] :=
      .token hseparates' hlongest' .done
    rw [List.append_nil, ← hlast] at hcons
    exact hy.append hcons
  refine ⟨x, y ++ last.text, z, by rw [hyz, List.append_assoc], ⟨⟨first, rfl, ?_⟩, last, ?_, ?_⟩, ?_⟩
  · rw [← Location.behind_nil, Location.after_behind]
    exact hfirst
  · rw [hinit, List.getLast?_concat]
  · rw [hlast, ← Location.behind_nil, Location.after_behind, Location.after_behind,
      List.append_assoc, List.nil_append]
  · obtain ⟨before', hbefore, hbeforeLexemes⟩ :=
      hx.before_paren (.inl rfl) (y ++ last.text ++ 41 :: z) []
    obtain ⟨inside'', hin, hinLexemes⟩ := hinside.before_paren (.inr rfl) z (x ++ [40])
    obtain ⟨behind', hbehind, hbehindLexemes⟩ :=
      hz.moved rfl (x ++ [40] ++ (y ++ last.text) ++ [41])
    have hclose := hin.longestMatch (hbehind.paren (s := .closeParen) (.inr rfl) rfl)
    have hall := hbefore.longestMatch (hclose.paren (s := .openParen) (.inl rfl) rfl)
    rw [hall.lex_eq]
    refine ⟨rfl, ?_⟩
    simp [hbeforeLexemes, hinLexemes, hbehindLexemes, hinit, Token.lexeme]

end MiningQuery
