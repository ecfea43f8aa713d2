/-
  File:      MiningQuery/Proofs/Grammar/Verbatim.lean
  Subject:   The text of an expression reads back as the expression.

  The text of an expression is put together anew from its parts, with blanks in some places only, and
  goes as it is into a statement of SQL. So no two parts may grow together there, to another token or
  to the beginning of a comment.

  * `openQuote` -- the string that a text breaks off in;
  * `Commentless` -- every `--` and every opening of a block comment stands inside a string;
  * `Lexeme.isFixed` -- a lexeme that leaves a token no choice of its text;
  * `Expr.text_commentless`, `Expr.lexemes_fixed` -- so are the text and the tokens of an expression;
  * **`expr_reads_back`** -- the text of an expression that was read is cut into the tokens that it was
    read from, is read as this expression, and opens no comment.
-/
import MiningQuery.Proofs.Grammar.Expr
import MiningQuery.Proofs.Token.Joining
import MiningQuery.Proofs.Tree.Printing

namespace MiningQuery

/-! ## 1. Comments -/

/-- The quote behind one byte more: a quote opens a string, and the same quote closes it. -/
def nextQuote (quote : Option UInt8) (b : UInt8) : Option UInt8 :=
  match quote with
  | none => if isQuote b then some b else none
  | some q => if b == q then none else some q

/-- The quote of the string that the text breaks off in, if it breaks off in one. -/
def openQuote (t : Text) : Option UInt8 := t.foldl nextQuote none

/-- What begins a comment in SQL, up to the end of the line or up to its own end. -/
def commentOpeners : List Text := [ascii "--", ascii "/*"]

/-- All strings of the text are closed, and what would begin a comment stands inside them. -/
structure Commentless (t : Text) : Prop where
  closed : openQuote t = none
  quoted : ∀ opener ∈ commentOpeners, ∀ x y, t = x ++ opener ++ y → openQuote x ≠ none

/-- Two bytes that begin no comment. -/
def Apart (a b : UInt8) : Prop := [a, b] ∉ commentOpeners

instance (a b : UInt8) : Decidable (Apart a b) := inferInstanceAs (Decidable (_ ∉ _))

/-- A byte that no comment begins with or goes on with, and no string either. -/
def isNeutral (b : UInt8) : Bool := !isQuote b && b != 45 && b != 42 && b != 47

theorem opener_pair {opener : Text} (h : opener ∈ commentOpeners) : ∃ a b, opener = [a, b] := by
  rcases List.mem_pair.mp h with rfl | rfl <;> exact ⟨_, _, rfl⟩

theorem isNeutral.apart {a b : UInt8} (h : isNeutral a = true ∨ isNeutral b = true) : Apart a b := by
  intro hmem
  rcases List.mem_pair.mp hmem with e | e <;> cases e <;> revert h <;> decide

namespace Commentless

theorem nil : Commentless [] := ⟨rfl, fun opener hopener x y h => by
  obtain ⟨a, b, rfl⟩ := opener_pair hopener
  simp at h⟩

/-- One byte that is no quote begins no comment. -/
theorem singleton {b : UInt8} (hb : isQuote b = false) : Commentless [b] := by
  refine ⟨by simp [openQuote, nextQuote, hb], fun opener hopener x y h => ?_⟩
  obtain ⟨a, c, rfl⟩ := opener_pair hopener
  have hlength := congrArg List.length h
  simp only [List.length_append, List.length_cons, List.length_nil] at hlength
  omega

/-- **Texts begin no comment together if the last byte of one and the first of the other do not.** -/
theorem append {s t : Text} (hs : Commentless s) (ht : Commentless t)
    (h : ∀ a ∈ s.getLast?, ∀ b ∈ t.head?, Apart a b) : Commentless (s ++ t) := by
  have hfrom : ∀ u, openQuote (s ++ u) = openQuote u := by
    intro u
    rw [openQuote, List.foldl_append, ← openQuote, hs.closed, ← openQuote]
  refine ⟨by rw [hfrom, ht.closed], fun opener hopener x y heq => ?_⟩
  obtain ⟨a, b, rfl⟩ := opener_pair hopener
  rw [List.append_assoc] at heq
  -- the opener stands in one of the two texts, or its bytes are the ends that meet
  rcases List.append_eq_append_iff.mp heq with ⟨x', rfl, ht'⟩ | ⟨z, rfl, hz⟩
  · rw [hfrom]
    exact ht.quoted _ hopener x' y (by simpa using ht')
  obtain _ | ⟨c, _ | ⟨d, z⟩⟩ := z
  · rw [List.append_nil] at hfrom
    have hx := ht.quoted _ hopener [] y (by simpa using hz.symm)
    exact absurd rfl hx
  · obtain ⟨rfl, rfl⟩ := List.cons.inj hz
    exact absurd hopener (h a (by simp) b (by simp))
  · simp only [List.cons_append, List.nil_append, List.cons.injEq] at hz
    obtain ⟨rfl, rfl, -⟩ := hz
    exact hs.quoted _ hopener x z (by simp)

theorem cons {b : UInt8} {t : Text} (hb : isNeutral b = true) (ht : Commentless t) :
    Commentless (b :: t) := by
  have hquote : isQuote b = false := by
    simp only [isNeutral, Bool.and_eq_true, Bool.not_eq_true'] at hb
    exact hb.1.1.1
  refine append (singleton hquote) ht fun a ha c _ => isNeutral.apart (.inl ?_)
  obtain rfl : b = a := by simpa using ha
  exact hb

/-- Texts with a neutral byte between them. -/
theorem around {s t : Text} {b : UInt8} (hs : Commentless s) (hb : isNeutral b = true)
    (ht : Commentless t) : Commentless (s ++ b :: t) := by
  refine append hs (cons hb ht) fun a _ c hc => isNeutral.apart (.inr ?_)
  obtain rfl : b = c := by simpa using hc
  exact hb

theorem neutral {t : Text} (h : ∀ b ∈ t, isNeutral b = true) : Commentless t := by
  induction t with
  | nil => exact nil
  | cons b t ih =>
    obtain ⟨hb, ht⟩ := List.forall_mem_cons.mp h
    exact cons hb (ih ht)

/-- Whatever stands between two equal quotes stands inside a string. -/
theorem quotes {t : Text} (h : isQuoted t = true) : Commentless t := by
  obtain ⟨q, body, hq, hbody, rfl⟩ := isQuoted_iff.mp h
  have hinside : ∀ {x : Text}, (∀ b ∈ x, b ≠ q) → openQuote (q :: x) = some q := by
    intro x hx
    rw [openQuote, List.foldl_cons, nextQuote, if_pos hq]
    induction x with
    | nil => rfl
    | cons b x ih =>
      obtain ⟨hb, hx⟩ := List.forall_mem_cons.mp hx
      rw [List.foldl_cons, nextQuote, if_neg (by simpa using hb)]
      exact ih hx
  constructor
  · rw [← List.cons_append, openQuote, List.foldl_append, ← openQuote,
      hinside fun b hb => (hbody b hb).1]
    simp [nextQuote]
  · intro opener hopener x y heq
    obtain ⟨a, b, rfl⟩ := opener_pair hopener
    cases x with
    | nil =>
      obtain ⟨rfl, -⟩ := List.cons.inj heq
      rcases List.mem_pair.mp hopener with e | e <;> cases e <;> cases hq
    | cons c x =>
      obtain ⟨rfl, htail⟩ : q = c ∧ body ++ [q] = x ++ ([a, b] ++ y) := by simpa using heq
      -- the opener has two bytes, so that what stands before it is part of the body
      have hstart : x <+: body := by
        refine List.prefix_of_prefix_length_le ⟨[a, b] ++ y, htail.symm⟩ (List.prefix_append _ [q]) ?_
        · have hlength := congrArg List.length htail
          simp only [List.length_append, List.length_cons, List.length_nil] at hlength
          omega
      rw [hinside fun b hb => (hbody b (hstart.subset hb)).1]
      exact Option.some_ne_none q

end Commentless

/-! ## 2. The text of an expression -/

theorem isNeutral_of_isDigit {b : UInt8} (h : isDigit b = true) : isNeutral b = true := by
  simp only [isNeutral, isDigit, isQuote, singleQuote, doubleQuote, Bool.and_eq_true,
    Bool.not_eq_true', Bool.or_eq_false_iff, bne_iff_ne, beq_eq_false_iff_ne] at *
  grind

theorem isNeutral_of_isWordPart {b : UInt8} (h : isWordPart b = true) : isNeutral b = true := by
  simp only [isNeutral, isWordPart, isLetter, isUpper, isLower, isDigit, isQuote, singleQuote,
    doubleQuote, Bool.and_eq_true, Bool.not_eq_true', Bool.or_eq_false_iff, bne_iff_ne,
    beq_eq_false_iff_ne] at *
  grind

theorem isWord.commentless {t : Text} (h : isWord t = true) : Commentless t :=
  .neutral fun b hb => isNeutral_of_isWordPart (isWordPart_of_isWord h b hb)

theorem isName.commentless {t : Text} (h : isName t = true) : Commentless t :=
  isWord.commentless (Bool.and_eq_true_iff.mp h).1

theorem isDigits.commentless {t : Text} (h : isDigits t = true) : Commentless t :=
  .neutral fun b hb => isNeutral_of_isDigit ((isDigits_iff.mp h).2 b hb)

theorem isDecimal.commentless {t : Text} (h : isDecimal t = true) : Commentless t := by
  obtain ⟨whole, fraction, hwhole, hfraction, rfl⟩ := isDecimal_iff.mp h
  exact (isDigits.commentless hwhole).around (by decide) (isDigits.commentless hfraction)

/-- A minus sign before a number begins no comment. -/
theorem Commentless.signed {t : Text} (h : Commentless (unsigned t))
    (hhead : ∀ b ∈ (unsigned t).head?, b ≠ 45) : Commentless t := by
  by_cases hminus : ∃ d, t = 45 :: d
  · obtain ⟨d, rfl⟩ := hminus
    refine .append (s := [45]) (.singleton (by decide)) h fun a ha b hb hmem => ?_
    obtain rfl : 45 = a := by simpa using ha
    rcases List.mem_pair.mp hmem with e | e
    · exact hhead b hb (List.cons.inj (List.cons.inj e).2).1
    · cases e
  · rwa [unsigned_of_no_sign hminus] at h

theorem Literal.text_commentless {l : Literal} (h : l.isLexical = true) : Commentless l.text := by
  cases l with
  | null t => exact isWord.commentless (Bool.and_eq_true_iff.mp h).1
  | string t => exact .quotes h
  | int t i =>
    obtain ⟨hdigits, -⟩ := Bool.and_eq_true_iff.mp h
    exact .signed (isDigits.commentless hdigits) (head_ne_of_isDigits hdigits)
  | float t x =>
    obtain ⟨hdecimal, -⟩ := Bool.and_eq_true_iff.mp h
    exact .signed (isDecimal.commentless hdecimal) (head_ne_of_isDecimal hdecimal)

theorem ColumnRef.text_commentless {c : ColumnRef} (h : c.isLexical = true) :
    Commentless c.text := by
  obtain ⟨qualifier, name⟩ := c
  cases qualifier with
  | none =>
    have hname : isName name = true := by simpa [ColumnRef.isLexical] using h
    exact isName.commentless hname
  | some table =>
    obtain ⟨htable, hname⟩ : isName table = true ∧ isName name = true := by
      simpa [ColumnRef.isLexical] using h
    have hpoint : ColumnRef.text ⟨some table, name⟩ = table ++ 46 :: name := by
      simp [ColumnRef.text, ascii]
    rw [hpoint]
    exact (isName.commentless htable).around (by decide) (isName.commentless hname)

/-- A text in parentheses begins no comment if it begins none by itself. -/
theorem Commentless.paren {t : Text} (h : Commentless t) : Commentless (40 :: (t ++ [41])) :=
  .cons (by decide) (h.around (by decide) .nil)

/-- **The text of an expression begins no comment.** -/
theorem Expr.text_commentless {e : Expr} (h : e.isLexical = true) : Commentless e.text := by
  induction e with
  | literal l => exact Literal.text_commentless h
  | column c => exact ColumnRef.text_commentless h
  | aggregateAll f =>
    obtain ⟨hf, -⟩ := Bool.and_eq_true_iff.mp h
    have hstar : Commentless [42] := .singleton (by decide)
    exact (isName.commentless hf).around (by decide) (hstar.around (by decide) .nil)
  | aggregate f e ih =>
    simp only [Expr.isLexical, Bool.and_eq_true] at h
    have hcall := (isName.commentless h.1.1).around (b := 40) (by decide)
      ((ih h.2).around (b := 41) (by decide) .nil)
    simpa [Expr.text, ascii] using hcall
  | arith op l r ihl ihr =>
    obtain ⟨hl, hr⟩ := Bool.and_eq_true_iff.mp h
    have hsign : Commentless op.spelling := by cases op <;> exact .singleton (by decide)
    have hblank : isNeutral 32 = true := by decide
    have hsum := (ihl hl).around hblank (hsign.around hblank (ihr hr))
    simpa [Expr.text, ascii] using hsum
  | paren e ih =>
    have hparen := (ih h).paren
    simpa [Expr.text, ascii] using hparen

/-! ## 3. The tokens of an expression -/

/-- Does the lexeme leave a token no choice of its text? It keeps the text, or is a symbol that has
    one spelling. -/
def Lexeme.isFixed (l : Lexeme) : Bool :=
  l.text.isSome || match l.kind with
    | .symbol s => s != .ne
    | _ => false

/-- A token of a fixed lexeme has its kind and its spelling. -/
theorem Lexeme.isFixed.lexeme_eq {l : Lexeme} (hl : l.isFixed = true) {t : Token}
    (ht : t.IsShaped) (hspells : l.Spells t) : t.lexeme = .exact l.kind l.spelling := by
  obtain ⟨hkind, htext⟩ := hspells
  have hspelling : t.text = l.spelling := by
    obtain ⟨kind, text⟩ := l
    cases text with
    | some s => exact htext s rfl
    | none =>
      cases kind with
      | symbol s =>
        have hne : s ≠ .ne := by simpa [Lexeme.isFixed] using hl
        rw [Token.IsShaped, hkind] at ht
        have htext : t.text = s.spelling := by simpa [TokenKind.admits, hne] using ht
        exact htext
      | _ => cases hl
  rw [Token.lexeme, hkind, hspelling]

/-- **Fixed lexemes tell the kinds and texts of their tokens.** -/
theorem lexemes_of_fixed {ls : List Lexeme} {ts : List Token} (hls : ∀ l ∈ ls, l.isFixed = true)
    (hts : Shaped ts) (h : Spells ls ts) :
    ts.map Token.lexeme = ls.map fun l => .exact l.kind l.spelling := by
  induction h with
  | nil => rfl
  | cons hspells _ ih =>
    obtain ⟨hl, hls⟩ := List.forall_mem_cons.mp hls
    obtain ⟨ht, hts⟩ := shaped_cons.mp hts
    rw [List.map_cons, List.map_cons, Lexeme.isFixed.lexeme_eq hl ht hspells, ih hls hts]

theorem Expr.lexemes_fixed (e : Expr) : ∀ l ∈ e.lexemes, l.isFixed = true := by
  induction e with
  | literal l =>
    have hsigned : ∀ kind t, ∀ l ∈ Literal.signedLexemes kind t, l.isFixed = true := by
      intro kind t
      unfold Literal.signedLexemes
      split <;> simp [Lexeme.isFixed, Lexeme.exact, Lexeme.sign]
    cases l with
    | null t | string t => simp [Expr.lexemes, Literal.lexemes, Lexeme.isFixed, Lexeme.exact]
    | int t | float t => exact hsigned _ t
  | column c =>
    obtain ⟨_ | table, name⟩ := c <;>
      simp [Expr.lexemes, ColumnRef.lexemes, Lexeme.isFixed, Lexeme.exact, Lexeme.sign]
  | aggregateAll f => simp [Expr.lexemes, Lexeme.isFixed, Lexeme.exact, Lexeme.sign]
  | aggregate f e ih =>
    simpa [Expr.lexemes, Lexeme.isFixed, Lexeme.exact, Lexeme.sign, or_imp, forall_and] using ih
  | arith op l r ihl ihr =>
    have hsign : (Lexeme.sign op.symbol).isFixed = true := by cases op <;> rfl
    exact List.forall_mem_append.mpr ⟨ihl, List.forall_mem_cons.mpr ⟨hsign, ihr⟩⟩
  | paren e ih =>
    simpa [Expr.lexemes, Lexeme.isFixed, Lexeme.exact, Lexeme.sign, or_imp, forall_and] using ih

/-- The tokens of the text of an expression are fixed by the expression. -/
theorem Expr.lex_text {e : Expr} (h : e.isLexical = true) :
    (lex e.text).errors = [] ∧ ∃ body last, (lex e.text).tokens = body ++ [last] ∧
      last.kind = .endOfInput ∧ Spells e.lexemes body :=
  (Expr.text_printed h).lexes.lex

/-! ## 4. Reading the text back -/

open Parse

/-- **The text of an expression reads back as the expression.** If an expression is read somewhere in
    the tokens of a text, then its own text is cut without an error into tokens of the same kinds and
    texts as those that were read. From these the same expression is read, with as many levels of
    nesting, up to the end. Outside of its strings the text begins no comment. -/
theorem expr_reads_back {text : Text} {n : Nat} {ts rest : List Token} {e : Expr}
    (hts : ts <:+ (lex text).tokens) (h : expr n ts = .ok (e, rest)) :
    ∃ read body last, ts = read ++ rest ∧
      lex e.text = ⟨body ++ [last], []⟩ ∧ last.kind = .endOfInput ∧
      body.map Token.lexeme = read.map Token.lexeme ∧
      expr n (body ++ [last]) = .ok (e, [last]) ∧
      ∀ opener ∈ commentOpeners, ∀ x y, e.text = x ++ opener ++ y → openQuote x ≠ none := by
  have hshaped : Shaped ts := fun t ht => lex_shaped text t (hts.subset ht)
  obtain ⟨read, rfl, hwritten⟩ := (expr_reads n).sound hshaped h
  obtain ⟨herrors, body, last, htokens, hlast, hspells⟩ := e.lex_text hwritten.lexical
  have hbody : Shaped body := (shaped_append.mp (htokens ▸ lex_shaped e.text)).1
  refine ⟨read, body, last, rfl, ?_, hlast, ?_, ?_, ?_⟩
  · rw [← htokens, ← herrors]
  · rw [lexemes_of_fixed e.lexemes_fixed hbody hspells,
      lexemes_of_fixed e.lexemes_fixed (shaped_append.mp hshaped).1 hwritten.spells]
  · have hstop : ExprStop [last] := by
      simp [ExprStop, FactorStop, kindOf_cons, hlast, multiplicative?, additive?]
    exact (expr_reads n).complete ⟨hwritten.canonical, hwritten.lexical, hwritten.depth_le, hspells⟩
      hstop
  · exact (Expr.text_commentless hwritten.lexical).quoted

/-- A number that is subtracted together with its minus sign. -/
theorem expr_reads_back_minus :
    let text := ascii "a --\n- - 5*count ( * )"
    let e : Expr := .arith .sub (.column ⟨none, ascii "a"⟩)
      (.arith .mul (.literal (.int (ascii "-5") (-5))) (.aggregateAll (ascii "count")))
    expr 1 (lex text).tokens = .ok (e, [⟨.endOfInput, [], ⟨2, 17⟩⟩]) ∧
      e.text = ascii "a - -5 * count(*)" ∧
      ∃ read body last, (lex text).tokens = read ++ [⟨.endOfInput, [], ⟨2, 17⟩⟩] ∧
        lex e.text = ⟨body ++ [last], []⟩ ∧ last.kind = .endOfInput ∧
        body.map Token.lexeme = read.map Token.lexeme ∧
        expr 1 (body ++ [last]) = .ok (e, [last]) ∧
        ∀ opener ∈ commentOpeners, ∀ x y, e.text = x ++ opener ++ y → openQuote x ≠ none := by
  intro text e
  have hread : expr 1 (lex text).tokens = .ok (e, [⟨.endOfInput, [], ⟨2, 17⟩⟩]) := by
    decide +kernel
  exact ⟨hread, by decide, expr_reads_back List.suffix_rfl hread⟩

end MiningQuery
