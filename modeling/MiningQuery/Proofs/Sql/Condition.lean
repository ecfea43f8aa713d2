/-
  File:      MiningQuery/Proofs/Sql/Condition.lean
  Subject:   The SQL of a condition is the print of a condition that means the same.

  The SQL puts every connective and every negated condition in parentheses, leaves out all other
  ones, and has constants on the right side of every test:

  * `Predicate.asSql` -- the condition so written;
  * **`asSql_reduce`** -- it reduces to the same condition;
  * **`asSql_canonical`**, **`asSql_lexical`** -- it groups as its tokens do, and they are such as
    tokens can be;
  * **`asSql_printed`** -- the SQL is cut into its tokens;
  * **`asSql_balanced`** -- these nest as deep as it does.
-/
import MiningQuery.Proofs.Sql.Value
import MiningQuery.Proofs.Tree.Nesting

namespace MiningQuery

/-! ## 1. The condition that the SQL writes -/

/-- The constant that the SQL has for an expression on the right side of a test. -/
def Expr.asConstant (e : Expr) : Expr := e.toValue.asExpr

namespace Predicate

/-- The condition as the SQL of its reduction writes it. -/
def asSql : Predicate → Predicate
  | logical op l r => paren (logical op l.asSql r.asSql)
  | not p => not (paren p.asSql)
  | paren p => p.asSql
  | compare op l r => compare op l r.asConstant
  | between n x low high => between n x low.asConstant high.asConstant
  | like n x pattern => like n x (Text.quoted (Text.unquoted pattern))
  | isNull n x => isNull n x
  | inList n x values => inList n x (values.map Expr.asConstant)
  | value e => compare .eq e (Value.string e.text).asExpr

/-- **It reduces to the same condition.** -/
theorem asSql_reduce (p : Predicate) : p.asSql.reduce = p.reduce := by
  have hconstant : ∀ e : Expr, e.asConstant.toValue = e.toValue := fun e => e.toValue.toValue_asExpr
  induction p with
  | logical op l r ihl ihr => simp [asSql, reduce, ihl, ihr]
  | not p ih => simp [asSql, reduce, ih]
  | paren p ih => simp [asSql, reduce, ih]
  | compare op l r => simp [asSql, reduce, hconstant]
  | between n x low high => simp [asSql, reduce, hconstant]
  | like n x pattern => simp [asSql, reduce, Value.unquoted_quoted]
  | isNull n x => rfl
  | inList n x values => simp [asSql, reduce, hconstant]
  | value e => simp [asSql, reduce]

/-- No connective stands bare in the SQL. -/
theorem asSql_not_logical (p : Predicate) : p.asSql.isLogical = false := by
  induction p with
  | paren p ih => exact ih
  | _ => rfl

/-- **It groups as its tokens do.** -/
theorem asSql_canonical {p : Predicate} (h : p.isCanonical = true) :
    p.asSql.isCanonical = true := by
  have hdisjunction : ∀ q : Predicate, q.isLogical = false → q.isDisjunction = false := by
    intro q hq
    cases q with
    | logical => cases hq
    | _ => rfl
  have hconstant : ∀ e : Expr, e.asConstant.isCanonical = true := fun e =>
    e.toValue.isCanonical_asExpr
  induction p with
  | logical op l r ihl ihr =>
    have hl := asSql_not_logical l
    have hr := asSql_not_logical r
    cases op <;>
    · simp only [isCanonical, Bool.and_eq_true] at h
      simp [asSql, isCanonical, ihl (by tauto), ihr (by tauto), hdisjunction, hl, hr]
  | not p ih =>
    obtain ⟨hp, -⟩ := Bool.and_eq_true_iff.mp h
    simpa [asSql, isCanonical, isLogical] using ih hp
  | paren p ih => exact ih h
  | compare op l r =>
    obtain ⟨hl, -⟩ := Bool.and_eq_true_iff.mp h
    simp [asSql, isCanonical, hl, hconstant]
  | between n x low high =>
    simp only [isCanonical, Bool.and_eq_true] at h
    simp [asSql, isCanonical, h.1.1, hconstant]
  | like n x pattern => exact h
  | isNull n x => exact h
  | inList n x values =>
    obtain ⟨hx, -⟩ := Bool.and_eq_true_iff.mp h
    simp [asSql, isCanonical, hx, hconstant]
  | value e =>
    obtain ⟨he, -⟩ := Bool.and_eq_true_iff.mp h
    simp [asSql, isCanonical, he, Value.isCanonical_asExpr]

/-- **Its tokens are such as tokens can be, if the values of the condition are plain.** -/
theorem asSql_lexical {p : Predicate} (h : p.isLexical = true) (hplain : p.reduce.IsPlain) :
    p.asSql.isLexical = true := by
  have hconstant : ∀ e : Expr, e.isLexical = true → e.toValue.isPlain = true →
      e.asConstant.isLexical = true := fun e he hv =>
    Value.isLexical_asExpr (Expr.toValue_readable he hv)
  induction p with
  | logical op l r ihl ihr =>
    obtain ⟨hl, hr⟩ := Bool.and_eq_true_iff.mp h
    obtain ⟨hvl, hvr⟩ := List.forall_mem_append.mp hplain
    simp [asSql, isLexical, ihl hl hvl, ihr hr hvr]
  | not p ih => exact ih h hplain
  | paren p ih => exact ih h hplain
  | compare op l r =>
    obtain ⟨hl, hr⟩ := Bool.and_eq_true_iff.mp h
    have hv : r.toValue.isPlain = true := hplain _ List.mem_cons_self
    simp [asSql, isLexical, hl, hconstant r hr hv]
  | between n x low high =>
    simp only [isLexical, Bool.and_eq_true] at h
    obtain ⟨⟨hx, hlow⟩, hhigh⟩ := h
    have hvlow : low.toValue.isPlain = true := hplain _ List.mem_cons_self
    have hvhigh : high.toValue.isPlain = true :=
      hplain _ (List.mem_cons_of_mem _ List.mem_cons_self)
    simp [asSql, isLexical, hx, hconstant low hlow hvlow, hconstant high hhigh hvhigh]
  | like n x pattern =>
    obtain ⟨hx, hpattern⟩ := Bool.and_eq_true_iff.mp h
    have hv : (Value.string (Text.unquoted pattern)).isPlain = true := hplain _ List.mem_cons_self
    have hread := Value.isReadable_string hv (unquoted_newline hpattern)
    have hquoted : isQuoted (Text.quoted (Text.unquoted pattern)) = true :=
      Value.isLexical_asExpr hread
    simp [asSql, isLexical, hx, hquoted]
  | isNull n x => exact h
  | inList n x values =>
    simp only [isLexical, Bool.and_eq_true, List.all_eq_true] at h
    obtain ⟨⟨hx, hne⟩, hvalues⟩ := h
    have hall : ∀ e ∈ values, e.asConstant.isLexical = true := fun e he =>
      hconstant e (hvalues e he) (hplain _ (List.mem_map_of_mem he))
    simp only [asSql, isLexical, hx, Bool.true_and, Bool.and_eq_true, List.all_eq_true,
      List.forall_mem_map]
    exact ⟨by simpa using hne, hall⟩
  | value e =>
    have hv : (Value.string e.text).isPlain = true := hplain _ List.mem_cons_self
    have hread := Value.isReadable_string hv (Expr.text_newline h)
    have he : e.isLexical = true := h
    simp [asSql, isLexical, he, Value.isLexical_asExpr hread]

end Predicate

/-! ## 2. The SQL is its print -/

/-- The tokens of a list of values are those of the values, with commas. -/
theorem Predicate.valueLexemes_eq (es : List Expr) :
    valueLexemes es = separated (es.map Expr.lexemes) := by
  induction es with
  | nil => rfl
  | cons e es ih =>
    cases es with
    | nil => rfl
    | cons e' es => simp [valueLexemes, separated, ih]

/-- A constant is printed as the SQL of its value. -/
theorem Expr.asConstant_printed {e : Expr} (h : e.asConstant.isLexical = true) :
    Printed e.toValue.sql e.asConstant.lexemes := by
  rw [← Value.text_asExpr]
  exact Expr.text_printed h

/-- A test behind its subject, with the `NOT` that negates it. -/
theorem Printed.negated {x t : Text} {ls ms : List Lexeme} (hx : Printed x ls) (n : Bool)
    (ht : Printed t ms) :
    Printed (x ++ (Condition.notMark n ++ 32 :: t)) (ls ++ (Predicate.notLexemes n ++ ms)) := by
  cases n with
  | false => exact hx.blank ht
  | true =>
    have hnot := hx.blank ((Printed.word .NOT).blank ht)
    exact hnot

namespace Predicate

/-- **The SQL of a condition is cut into these tokens.** -/
theorem asSql_printed {p : Predicate} (h : p.asSql.isLexical = true) :
    Printed p.reduce.sql p.asSql.lexemes := by
  induction p with
  | logical op l r ihl ihr =>
    obtain ⟨hl, hr⟩ := Bool.and_eq_true_iff.mp h
    have hspelling : op.spelling = op.keyword.spelling := by cases op <;> rfl
    have hboth := ((ihl hl).blank ((Printed.word op.keyword).blank (ihr hr))).paren
    simpa [reduce, Condition.sql, asSql, lexemes, ascii, hspelling] using hboth
  | not p ih =>
    have hnot := (Printed.word .NOT).blank (ih h).paren
    exact hnot
  | paren p ih => exact ih h
  | compare op l r =>
    obtain ⟨hl, hr⟩ := Bool.and_eq_true_iff.mp h
    have hspelling : op.spelling = op.symbol.spelling := by cases op <;> rfl
    have htest := (Expr.text_printed hl).blank
      ((Printed.sign op.symbol).blank (Expr.asConstant_printed hr))
    simpa [reduce, Condition.sql, asSql, lexemes, ascii, SqlOp.spelling, hspelling] using htest
  | between n x low high =>
    simp only [asSql, isLexical, Bool.and_eq_true] at h
    have htest := (Printed.word .BETWEEN).blank ((Expr.asConstant_printed h.1.2).blank
      ((Printed.word .AND).blank (Expr.asConstant_printed h.2)))
    have hsql := (Expr.text_printed h.1.1).negated n htest
    simpa [reduce, Condition.sql, asSql, lexemes, ascii, Keyword.spelling] using hsql
  | like n x pattern =>
    obtain ⟨hx, hpattern⟩ := Bool.and_eq_true_iff.mp h
    have hquoted : TokenKind.string.admits (Text.quoted (Text.unquoted pattern)) = true := hpattern
    have htest := (Printed.word .LIKE).blank (Printed.exact hquoted (by simp))
    have hsql := (Expr.text_printed hx).negated n htest
    simpa [reduce, Condition.sql, asSql, lexemes, ascii, Keyword.spelling] using hsql
  | isNull n x =>
    have hsql := (Expr.text_printed h).blank
      ((Printed.word .IS).negated n (Printed.word .NULL))
    simpa [reduce, Condition.sql, asSql, lexemes, ascii, Keyword.spelling] using hsql
  | inList n x values =>
    simp only [asSql, isLexical, Bool.and_eq_true, List.all_eq_true, List.forall_mem_map] at h
    obtain ⟨⟨hx, hne⟩, hvalues⟩ := h
    have hlist := Printed.separated (f := fun e : Expr => e.toValue.sql)
      (g := fun e : Expr => e.asConstant.lexemes) (by simpa using hne)
      fun e he => Expr.asConstant_printed (hvalues e he)
    have hsql := (Expr.text_printed hx).negated n ((Printed.word .IN).blank hlist.paren)
    simpa [reduce, Condition.sql, asSql, lexemes, ascii, Keyword.spelling, valueLexemes_eq,
      List.map_map, Function.comp_def] using hsql
  | value e =>
    obtain ⟨he, hvalue⟩ := Bool.and_eq_true_iff.mp h
    have htest := (Expr.text_printed he).blank
      ((Printed.sign .eq).blank (Expr.text_printed hvalue))
    simpa [reduce, Condition.sql, asSql, lexemes, ascii, SqlOp.spelling, CompareOp.spelling,
      CompareOp.symbol, Symbol.spelling, Value.text_asExpr] using htest

end Predicate

/-! ## 3. Its tokens nest as deep as it does -/

theorem Expr.asConstant_flat (e : Expr) : FlatLexemes e.asConstant.lexemes := by
  unfold Expr.asConstant
  cases e.toValue <;> exact Literal.lexemes_flat _

/-- A `NOT` that negates a test opens no level. -/
theorem Balanced.negated {d : Nat} {l : Lexeme} {ls : List Lexeme} (hl : IsFlat l.kind)
    (h : Balanced d (lexemeKinds (l :: ls))) (n : Bool) :
    Balanced d (lexemeKinds (Predicate.notLexemes n ++ l :: ls)) := by
  cases n with
  | false => exact h
  | true => exact h.word_cons hl

/-- Behind its subject a test opens no level. -/
theorem Balanced.test {x : Expr} {l : Lexeme} {ls : List Lexeme} (hl : IsFlat l.kind)
    (h : Balanced 0 (lexemeKinds (l :: ls))) (n : Bool) :
    Balanced x.depth (lexemeKinds (x.lexemes ++ (Predicate.notLexemes n ++ l :: ls))) := by
  rw [lexemeKinds_append]
  exact (x.lexemes_balanced.append (h.negated hl n)).mono (Nat.le_max_left _ _)

/-- Constants are not nested. -/
theorem depth_asConstants (x : Nat) (es : List Expr) :
    ((es.map Expr.asConstant).map Expr.depth).foldr max x = x := by
  induction es with
  | nil => rfl
  | cons e es ih =>
    have he : e.asConstant.depth = 0 := e.toValue.depth_asExpr
    rw [List.map_cons, List.map_cons, List.foldr_cons, ih, he, Nat.zero_max]

namespace Predicate

/-- A list of constants opens no level: its parentheses are those of `IN`. -/
theorem constantList_balanced (values : List Expr) :
    Balanced 0 (lexemeKinds (.word .IN :: .sign .openParen ::
      (valueLexemes (values.map Expr.asConstant) ++ [.sign .closeParen]))) := by
  have hcomma : IsPlain (Lexeme.sign .comma).kind ∧ IsFlat (Lexeme.sign .comma).kind := by decide
  have hvalues : FlatLexemes (valueLexemes (values.map Expr.asConstant)) := by
    rw [valueLexemes_eq, List.map_map]
    exact forall_mem_separated hcomma
      (List.forall_mem_map.mpr fun e _ => e.asConstant_flat)
  have hlist := hvalues.balanced.word_paren (w := .IN)
  have hkinds : lexemeKinds (.word .IN :: .sign .openParen ::
      (valueLexemes (values.map Expr.asConstant) ++ [.sign .closeParen])) = .keyword .IN ::
      .symbol .openParen :: (lexemeKinds (valueLexemes (values.map Expr.asConstant)) ++
        [.symbol .closeParen]) := by simp
  rw [hkinds]
  exact hlist

/-- **The tokens of the SQL nest as deep as the condition that it writes.** -/
theorem asSql_balanced (p : Predicate) : Balanced p.asSql.depth (lexemeKinds p.asSql.lexemes) := by
  have hwords : ∀ k ∈ ([.AND, .OR, .BETWEEN, .LIKE, .IS, .NULL] : List Keyword),
      IsPlain (.keyword k) ∧ IsFlat (.keyword k) := by decide
  have hin : IsFlat (.keyword .IN) := by decide
  have hstring : IsPlain .string ∧ IsFlat .string := by decide
  have hsign : ∀ op : CompareOp, IsPlain (.symbol op.symbol) ∧ IsFlat (.symbol op.symbol) := by
    intro op
    cases op <;> decide
  have hdepth : ∀ e : Expr, e.asConstant.depth = 0 := fun e => e.toValue.depth_asExpr
  induction p with
  | logical op l r ihl ihr =>
    have hop : Balanced 0 [.keyword op.keyword] :=
      .single (by cases op <;> decide) (by cases op <;> decide)
    have hboth := (ihl.append (hop.append ihr)).paren
    rw [Nat.zero_max] at hboth
    simpa [asSql, lexemes, depth] using hboth
  | not p ih =>
    have hnot := ih.word_paren (w := .NOT)
    have hlevels : levelsOpened (.keyword .NOT) + p.asSql.depth = p.asSql.depth + 1 + 1 := by
      rw [levelsOpened]
      omega
    rw [hlevels] at hnot
    simpa [asSql, lexemes, depth] using hnot
  | paren p ih => exact ih
  | compare op l r =>
    have hright : FlatLexemes (.sign op.symbol :: r.asConstant.lexemes) :=
      flatLexemes_cons.mpr ⟨hsign op, r.asConstant_flat⟩
    have htest := l.lexemes_balanced.append hright.balanced
    simpa [asSql, lexemes, depth, hdepth] using htest
  | between n x low high =>
    have hrange : FlatLexemes (.word .BETWEEN ::
        (low.asConstant.lexemes ++ .word .AND :: high.asConstant.lexemes)) := by
      simp [hwords, low.asConstant_flat, high.asConstant_flat]
    have htest := Balanced.test (x := x) (hwords .BETWEEN (by decide)).2 hrange.balanced n
    have hlevels : (asSql (between n x low high)).depth = x.depth := by simp [asSql, depth, hdepth]
    rw [hlevels]
    exact htest
  | like n x pattern =>
    have hpattern : FlatLexemes
        [.word .LIKE, .exact .string (Text.quoted (Text.unquoted pattern))] := by
      simp [hwords, hstring]
    exact Balanced.test (hwords .LIKE (by decide)).2 hpattern.balanced n
  | isNull n x =>
    have hnull : FlatLexemes [.word .NULL] := by simp [hwords]
    have his : Balanced 0 [.keyword .IS] :=
      .single (hwords .IS (by decide)).1 (hwords .IS (by decide)).2
    have hnegated := hnull.balanced.negated (hwords .NULL (by decide)).2 n
    have htest := x.lexemes_balanced.append (his.append hnegated)
    simpa [asSql, lexemes, depth] using htest
  | inList n x values =>
    have hlevels : (asSql (inList n x values)).depth = x.depth := depth_asConstants x.depth values
    rw [hlevels]
    exact Balanced.test hin (constantList_balanced values) n
  | value e =>
    have hright : FlatLexemes (.sign .eq :: (Value.string e.text).asExpr.lexemes) :=
      flatLexemes_cons.mpr ⟨hsign .eq, Literal.lexemes_flat _⟩
    have htest := e.lexemes_balanced.append hright.balanced
    simpa [asSql, lexemes, depth, Value.depth_asExpr, CompareOp.symbol] using htest

end Predicate

end MiningQuery
