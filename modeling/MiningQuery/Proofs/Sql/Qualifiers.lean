/-
  File:      MiningQuery/Proofs/Sql/Qualifiers.lean
  Subject:   The tables that qualified columns name, in a statement and in the text of its SQL.

  A table of a statement may be stored under another name, and the SQL lists that name. The columns
  of the statement go into the SQL as they are written, so a qualifier still names the table of the
  statement. Both are told apart here.

  * `Expr.qualifiers`, `Predicate.qualifiers`, `Statement.qualifiers` -- the tables that columns
    name;
  * **`qualifiers_asSql_subset`** -- the SQL names no table that the statement does not name;
  * `Expr.text_cites`, `Predicate.sql_cites` -- these tables are what stands in front of the dots of
    the texts;
  * `Condition.IsQuotable` -- no value has a single quote in its text. One that has is not escaped:
    it ends its string, and what follows it is SQL;
  * **`sql_qualifiers`** -- read as a text, the SQL has these qualifiers and no others;
  * `TableResolver.Moves`, `resolve_keeps_or_moves` -- what becomes of a table that is looked up;
  * **`qualifiers_are_listed`** -- a qualifier is listed in the SQL, or its table is listed there
    under the name of its database;
  * `not_every_qualifier_is_listed` -- a table that is stored under another name, and a string that
    ends too early.
-/
import MiningQuery.Proofs.Number.Printing
import MiningQuery.Proofs.Query.WellFormed
import MiningQuery.Proofs.Sql.ReadBack

namespace MiningQuery

/-! ## 1. Qualifiers -/

/-- The tables that the columns of an expression name. -/
def Expr.qualifiers : Expr → List Text
  | column c => c.qualifier.toList
  | aggregate _ arg => arg.qualifiers
  | arith _ l r => l.qualifiers ++ r.qualifiers
  | paren e => e.qualifiers
  | literal _ | aggregateAll _ => []

/-- The tables that the columns of a condition name. -/
def Predicate.qualifiers : Predicate → List Text
  | logical _ l r => l.qualifiers ++ r.qualifiers
  | not p | paren p => p.qualifiers
  | compare _ l r => l.qualifiers ++ r.qualifiers
  | between _ x low high => x.qualifiers ++ low.qualifiers ++ high.qualifiers
  | like _ x _ | isNull _ x => x.qualifiers
  | inList _ x values => x.qualifiers ++ values.flatMap Expr.qualifiers
  | value e => e.qualifiers

/-- The table that a column of a list names. -/
def Attribute.qualifiers : Attribute → List Text
  | all => []
  | column c => c.qualifier.toList

/-- The tables that the columns of a statement name, in every clause that has columns. -/
def Statement.qualifiers (s : Statement) : List Text :=
  (s.relevance.getD []).flatMap Attribute.qualifiers ++
    (s.condition.toList.flatMap Predicate.qualifiers ++
      (s.grouping.flatMap Attribute.qualifiers ++
        s.ordering.flatMap fun o => o.column.qualifier.toList))

/-! ## 2. Qualifiers of the SQL -/

theorem append_subset_append {α : Type} {as bs cs ds : List α} (h : as ⊆ cs) (h' : bs ⊆ ds) :
    as ++ bs ⊆ cs ++ ds :=
  List.append_subset.mpr
    ⟨List.subset_append_of_subset_left ds h, List.subset_append_of_subset_right cs h'⟩

/-- A constant names no table. -/
theorem Value.qualifiers_asExpr (v : Value) : v.asExpr.qualifiers = [] := by cases v <;> rfl

namespace Predicate

/-- The SQL of a condition names a table only where the condition does; a column on the right side
    of a test becomes a string. -/
theorem qualifiers_asSql_subset (p : Predicate) : p.asSql.qualifiers ⊆ p.qualifiers := by
  have hconstant : ∀ e : Expr, e.asConstant.qualifiers = [] := fun e => e.toValue.qualifiers_asExpr
  induction p with
  | logical op l r ihl ihr => exact append_subset_append ihl ihr
  | not p ih => exact ih
  | paren p ih => exact ih
  | compare op l r => simp [asSql, qualifiers, hconstant]
  | between n x low high => simp [asSql, qualifiers, hconstant]
  | like n x pattern => exact List.Subset.refl _
  | isNull n x => exact List.Subset.refl _
  | inList n x values =>
    have hvalues : (values.map Expr.asConstant).flatMap Expr.qualifiers = [] := by
      rw [List.flatMap_map]
      exact List.flatMap_eq_nil_iff.mpr fun e _ => hconstant e
    rw [asSql, qualifiers, hvalues, List.append_nil]
    exact List.subset_append_left _ _
  | value e => simp [asSql, qualifiers, Value.qualifiers_asExpr]

end Predicate

/-- **The SQL of a statement names no table that the statement does not name**, whatever its tables
    are called in it. -/
theorem Statement.qualifiers_asSql_subset (s : Statement) (names : List Text) :
    (s.asSql names).qualifiers ⊆ s.qualifiers := by
  have hrelevance : ∀ as : List Attribute,
      (selected as).flatMap Attribute.qualifiers ⊆ as.flatMap Attribute.qualifiers := by
    intro as
    cases as <;> exact List.Subset.refl _
  have hcondition : ∀ p : Option Predicate,
      (p.map Predicate.asSql).toList.flatMap Predicate.qualifiers ⊆
        p.toList.flatMap Predicate.qualifiers := by
    intro p
    cases p with
    | none => exact List.Subset.refl _
    | some p => simpa using p.qualifiers_asSql_subset
  unfold Statement.qualifiers
  exact append_subset_append (hrelevance _)
    (append_subset_append (hcondition s.condition) (List.Subset.refl _))

/-! ## 3. Texts of expressions -/

/-- A constant cites nothing: its point, if it has one, belongs to its number. -/
theorem Literal.text_cites {l : Literal} (h : l.isLexical = true) : Cites l.text [] := by
  have hsigned : ∀ {kind : TokenKind} (t : Text), kind ≠ .symbol .dot →
      ∀ x ∈ signedLexemes kind t, x.kind ≠ .symbol .dot := by
    intro kind t hkind
    unfold signedLexemes
    split <;> simp [hkind]
  refine .of_no_dot (Literal.text_printed h) ?_
  cases l with
  | null t => exact List.forall_mem_singleton.mpr (by simp)
  | string t => exact List.forall_mem_singleton.mpr (by simp)
  | int t i => exact hsigned t (by simp)
  | float t x => exact hsigned t (by simp)

/-- A column cites its table. -/
theorem ColumnRef.text_cites {c : ColumnRef} (h : c.isLexical = true) :
    Cites c.text c.qualifier.toList := by
  refine ⟨c.lexemes, ColumnRef.text_printed h, ?_⟩
  obtain ⟨q, n⟩ := c
  cases q with
  | none => exact ⟨rfl, rfl⟩
  | some q => exact ⟨rfl, rfl⟩

/-- A call cites what its argument does. -/
theorem Cites.call {f t : Text} {qs : List Text} (hf : isName f = true) (ht : Cites t qs) :
    Cites (f ++ 40 :: (t ++ [41])) qs := by
  obtain ⟨ls, hls, hstart, rfl⟩ := ht
  have hclose : startsWithDot [.sign .closeParen] = false := rfl
  refine ⟨_, hls.call hf, rfl, ?_⟩
  rw [beforeDots_cons rfl, beforeDots_cons (startsWithDot_append hstart hclose),
    beforeDots_append hclose]
  exact List.append_nil _

/-- **The text of an expression cites the tables that its columns name.** -/
theorem Expr.text_cites {e : Expr} (h : e.isLexical = true) : Cites e.text e.qualifiers := by
  induction e with
  | literal l => exact Literal.text_cites h
  | column c => exact ColumnRef.text_cites h
  | aggregateAll f =>
    obtain ⟨hf, -⟩ := Bool.and_eq_true_iff.mp h
    exact Cites.call hf (Cites.sign (s := .star) (by simp))
  | aggregate f e ih =>
    simp only [Expr.isLexical, Bool.and_eq_true] at h
    have hcall := Cites.call h.1.1 (ih h.2)
    simpa [Expr.text, Expr.qualifiers, ascii] using hcall
  | arith op l r ihl ihr =>
    obtain ⟨hl, hr⟩ := Bool.and_eq_true_iff.mp h
    have hop : Cites op.symbol.spelling [] := .sign (by cases op <;> decide)
    have hsum := (ihl hl).blank (hop.blank (ihr hr))
    simpa [Expr.text, Expr.qualifiers, ascii, op.spelling_eq] using hsum
  | paren e ih =>
    have hparen := (ih h).paren
    simpa [Expr.text, Expr.qualifiers, ascii] using hparen

theorem Attribute.text_cites {a : Attribute} (h : a.isLexical = true) :
    Cites a.text a.qualifiers := by
  cases a with
  | all => exact Cites.sign (s := .star) (by simp)
  | column c => exact ColumnRef.text_cites h

theorem OrderItem.text_cites {o : OrderItem} (h : o.column.isLexical = true) :
    Cites o.reduce.text o.column.qualifier.toList := by
  have hspelling : o.direction.spelling = o.direction.keyword.spelling := by
    cases o.direction <;> rfl
  have hitem := (ColumnRef.text_cites h).blank (Cites.word o.direction.keyword)
  simpa [OrderItem.reduce, QueryOrder.text, ascii, hspelling] using hitem

/-! ## 4. Texts of conditions -/

/-- May the SQL of the value stand in quotes, if it has any? A single quote inside would end it. -/
def Value.isQuotable : Value → Bool
  | string t => !t.contains singleQuote
  | integer _ | float _ | null => true

/-- No value of the condition has a single quote in its text. -/
def Condition.IsQuotable (c : Condition) : Prop := ∀ v ∈ c.values, v.isQuotable = true

instance Condition.decidableIsQuotable (c : Condition) : Decidable c.IsQuotable :=
  inferInstanceAs (Decidable (∀ v ∈ c.values, v.isQuotable = true))

/-- The SQL of a value cites nothing. -/
theorem Value.sql_cites {v : Value} (hquote : v.isQuotable = true) (hline : v.IsOneLine) :
    Cites v.sql [] := by
  cases v with
  | integer i =>
    have hdigits : TokenKind.int.admits (unsigned (Text.ofInt i)) = true := unsigned_ofInt i
    have hprinted := Literal.signed_printed (by simp) hdigits
      (head_ne_of_isDigits (unsigned_ofInt i))
    refine .of_no_dot hprinted ?_
    unfold Literal.signedLexemes
    split <;> simp
  | float x => exact x.text_cites
  | string t =>
    have hnone : singleQuote ∉ t := by simpa [isQuotable] using hquote
    have hquoted : TokenKind.string.admits (Text.quoted t) = true :=
      isQuoted_quoted hnone (hline t rfl)
    exact .exact .string hquoted (by simp) (by simp)
  | null => exact .word .NULL

/-- A test behind its subject, with the `NOT` that negates it. -/
theorem Cites.negated {x t : Text} {qs : List Text} (hx : Cites x qs) (n : Bool) (ht : Cites t []) :
    Cites (x ++ (Condition.notMark n ++ 32 :: t)) qs := by
  have htest := hx.blank ht
  have hnot := hx.blank ((Cites.word .NOT).blank ht)
  simp only [List.append_nil] at htest hnot
  cases n with
  | false => exact htest
  | true => exact hnot

namespace Predicate

/-- **The SQL of a condition cites the tables that its columns name**, if no value of it has a single
    quote in its text. -/
theorem sql_cites {p : Predicate} (h : p.isLexical = true) (hquote : p.reduce.IsQuotable) :
    Cites p.reduce.sql p.asSql.qualifiers := by
  have hvalue : ∀ e : Expr, e.isLexical = true → e.toValue.isQuotable = true →
      Cites e.toValue.sql [] := fun e he hv => Value.sql_cites hv (Expr.toValue_isOneLine he)
  have hconstant : ∀ e : Expr, e.asConstant.qualifiers = [] := fun e => e.toValue.qualifiers_asExpr
  induction p with
  | logical op l r ihl ihr =>
    obtain ⟨hl, hr⟩ := Bool.and_eq_true_iff.mp h
    obtain ⟨hql, hqr⟩ := List.forall_mem_append.mp hquote
    have hspelling : op.spelling = op.keyword.spelling := by cases op <;> rfl
    have hboth := ((ihl hl hql).blank ((Cites.word op.keyword).blank (ihr hr hqr))).paren
    simpa [reduce, Condition.sql, asSql, qualifiers, ascii, hspelling] using hboth
  | not p ih =>
    have hnot := (Cites.word .NOT).blank (ih h hquote).paren
    exact hnot
  | paren p ih => exact ih h hquote
  | compare op l r =>
    obtain ⟨hl, hr⟩ := Bool.and_eq_true_iff.mp h
    have hspelling : op.spelling = op.symbol.spelling := by cases op <;> rfl
    have hop : Cites op.symbol.spelling [] := .sign (by cases op <;> decide)
    have htest := (Expr.text_cites hl).blank
      (hop.blank (hvalue r hr (hquote _ List.mem_cons_self)))
    simpa [reduce, Condition.sql, asSql, qualifiers, hconstant, ascii, SqlOp.spelling, hspelling]
      using htest
  | between n x low high =>
    simp only [isLexical, Bool.and_eq_true] at h
    obtain ⟨⟨hx, hlow⟩, hhigh⟩ := h
    have hquote_low := hquote low.toValue List.mem_cons_self
    have hquote_high := hquote high.toValue (List.mem_cons_of_mem _ List.mem_cons_self)
    have htest := (Cites.word .BETWEEN).blank ((hvalue low hlow hquote_low).blank
      ((Cites.word .AND).blank (hvalue high hhigh hquote_high)))
    have hsql := (Expr.text_cites hx).negated n htest
    simpa [reduce, Condition.sql, asSql, qualifiers, hconstant, ascii, Keyword.spelling] using hsql
  | like n x pattern =>
    obtain ⟨hx, hpattern⟩ := Bool.and_eq_true_iff.mp h
    have hvalue : Cites (Text.quoted (Text.unquoted pattern)) [] :=
      Value.sql_cites (v := .string (Text.unquoted pattern)) (hquote _ List.mem_cons_self)
        (Value.string_isOneLine (unquoted_newline hpattern))
    have hsql := (Expr.text_cites hx).negated n ((Cites.word .LIKE).blank hvalue)
    simpa [reduce, Condition.sql, asSql, qualifiers, ascii, Keyword.spelling] using hsql
  | isNull n x =>
    have hsql := (Expr.text_cites h).blank ((Cites.word .IS).negated n (Cites.word .NULL))
    simpa [reduce, Condition.sql, asSql, qualifiers, ascii, Keyword.spelling] using hsql
  | inList n x values =>
    simp only [isLexical, Bool.and_eq_true, List.all_eq_true] at h
    obtain ⟨⟨hx, -⟩, hvalues⟩ := h
    have hlist := Cites.separated (f := fun e : Expr => e.toValue.sql) (g := fun _ => [])
      fun e he => hvalue e (hvalues e he) (hquote _ (List.mem_map_of_mem he))
    rw [List.flatMap_eq_nil_iff.mpr fun _ _ => rfl] at hlist
    have hsql := (Expr.text_cites hx).negated n ((Cites.word .IN).blank hlist.paren)
    have hnone : (values.map Expr.asConstant).flatMap Expr.qualifiers = [] := by
      rw [List.flatMap_map]
      exact List.flatMap_eq_nil_iff.mpr fun e _ => hconstant e
    simpa [reduce, Condition.sql, asSql, qualifiers, hnone, ascii, Keyword.spelling, List.map_map,
      Function.comp_def] using hsql
  | value e =>
    have htext : Cites (Value.string e.text).sql [] :=
      Value.sql_cites (hquote _ List.mem_cons_self) (Value.string_isOneLine (Expr.text_newline h))
    have htest := (Expr.text_cites (e := e) h).blank ((Cites.sign (s := .eq) (by simp)).blank htext)
    simpa [reduce, Condition.sql, asSql, qualifiers, Value.qualifiers_asExpr, ascii, SqlOp.spelling,
      CompareOp.spelling, Symbol.spelling] using htest

end Predicate

/-! ## 5. Texts of statements -/

namespace SelectParts

/-- What stands in front of the tables. -/
def opening (p : SelectParts) : Text :=
  ascii "SELECT " ++ (listPart? p.columns).getD (ascii "*") ++ ascii " FROM"

/-- What stands behind the tables. -/
def rest (p : SelectParts) : Text :=
  part " WHERE " p.condition ++ part " GROUP BY " (listPart? p.grouping) ++
    part " ORDER BY " (listPart? (p.ordering.map QueryOrder.text)) ++
    part " LIMIT " (p.limit.map Text.ofNat)

theorem sql_eq (p : SelectParts) :
    p.sql = p.opening ++ ascii " " ++ Text.join (ascii ", ") p.tables ++ p.rest := by
  simp [sql, opening, rest, ascii]

end SelectParts

/-- Words before what may be absent. -/
theorem Cites.part {α : Type} (words : String) {w : Text} (hw : Cites w [])
    (hwords : ascii words = 32 :: (w ++ [32])) {x : Option α} {text : α → Text}
    {cited : α → List Text} (hx : ∀ a ∈ x, Cites (text a) (cited a)) :
    Cites (SelectParts.part words (x.map text)) (x.toList.flatMap cited) ∧
      Breaks (SelectParts.part words (x.map text)) := by
  cases x with
  | none => exact ⟨.empty, breaks_nil⟩
  | some a =>
    have hpart := (hw.blank (hx a rfl)).indented
    have htext : SelectParts.part words (some (text a)) = 32 :: (w ++ 32 :: text a) := by
      simp [SelectParts.part, hwords]
    rw [Option.map_some, htext]
    exact ⟨by simpa using hpart, breaks_cons.mpr (.inl rfl)⟩

/-- Words before a list that is left out if it is empty. -/
theorem Cites.listPart {α : Type} (words : String) {w : Text} (hw : Cites w [])
    (hwords : ascii words = 32 :: (w ++ [32])) {xs : List α} {text : α → Text}
    {cited : α → List Text} (hxs : ∀ x ∈ xs, Cites (text x) (cited x)) :
    Cites (SelectParts.part words (SelectParts.listPart? (xs.map text))) (xs.flatMap cited) ∧
      Breaks (SelectParts.part words (SelectParts.listPart? (xs.map text))) := by
  have hlist : ∀ ys ∈ unlessEmpty xs, Cites (Text.join (ascii ", ") (ys.map text))
      (ys.flatMap cited) := by
    intro ys hys
    obtain ⟨rfl, -⟩ := unlessEmpty_spec hys
    exact .separated hxs
  have hcited : (unlessEmpty xs).toList.flatMap (fun ys => ys.flatMap cited) =
      xs.flatMap cited := by
    cases xs with
    | nil => rfl
    | cons x xs => exact List.append_nil _
  rw [listPart_map, ← hcited]
  exact Cites.part words hw hwords hlist

namespace Statement

variable {st : Statement}

/-- What stands in front of the tables cites the columns that are asked for. -/
theorem opening_cites (hst : st.WellFormed) (names : List Text) :
    Cites (st.selectParts names).opening
      ((st.asSql names).relevance.getD [] |>.flatMap Attribute.qualifiers) := by
  have hasked : ∀ a ∈ st.relevance.getD [], a.isLexical = true := by
    cases hr : st.relevance with
    | none => exact fun a ha => absurd ha List.not_mem_nil
    | some as => exact hst.relevance as hr
  have hcolumns := Cites.separated (f := Attribute.text) (g := Attribute.qualifiers)
    fun a ha => Attribute.text_cites (selected_isLexical hasked a ha)
  have hselect : Cites (ascii "SELECT") [] := .exact .identifier (by decide) (by simp) (by simp)
  have hopening := hselect.blank (hcolumns.blank (.word .FROM))
  rw [List.nil_append, List.append_nil] at hopening
  have htext : (st.selectParts names).opening = ascii "SELECT" ++ 32 :: (Text.join (ascii ", ")
      ((selected (st.relevance.getD [])).map Attribute.text) ++ 32 :: Keyword.spelling .FROM) := by
    rw [SelectParts.opening, Statement.selectParts, getD_listPart]
    simp [ascii, Keyword.spelling]
  rw [htext]
  exact hopening

/-- What stands behind the tables cites the columns of the other clauses. -/
theorem rest_cites (hst : st.WellFormed) (hquote : ∀ p ∈ st.condition, p.reduce.IsQuotable)
    (names : List Text) :
    Cites (st.selectParts names).rest
        ((st.asSql names).condition.toList.flatMap Predicate.qualifiers ++
          (st.grouping.flatMap Attribute.qualifiers ++
            st.ordering.flatMap fun o => o.column.qualifier.toList)) ∧
      Breaks (st.selectParts names).rest := by
  obtain ⟨hcondition, hbreaks⟩ := Cites.part " WHERE " (x := st.condition)
    (.word .WHERE) rfl fun p hp => Predicate.sql_cites (hst.condition p hp).2 (hquote p hp)
  obtain ⟨hgrouping, hbreaks'⟩ := Cites.listPart " GROUP BY "
    ((Cites.word .GROUP).blank (.word .BY)) rfl fun a ha => Attribute.text_cites (hst.grouping a ha)
  obtain ⟨hordering, hbreaks''⟩ := Cites.listPart " ORDER BY "
    ((Cites.word .ORDER).blank (.word .BY)) rfl fun o ho => OrderItem.text_cites (hst.ordering o ho)
  have hrest := hcondition.followed (hgrouping.followed hordering hbreaks'')
    (hbreaks'.append hbreaks'')
  have hlimit : SelectParts.part " LIMIT " none = [] := rfl
  have hsorted : (st.ordering.map OrderItem.reduce).map QueryOrder.text =
      st.ordering.map fun o => o.reduce.text := List.map_map
  have hwhere : (st.condition.map Predicate.asSql).toList.flatMap Predicate.qualifiers =
      st.condition.toList.flatMap fun p => p.asSql.qualifiers := by
    cases st.condition <;> rfl
  simp only [SelectParts.rest, Statement.selectParts, Statement.asSql, Option.map_none, hlimit,
    hsorted, hwhere, List.append_nil, List.append_assoc]
  exact ⟨hrest, hbreaks.append (hbreaks'.append hbreaks'')⟩

/-- **The SQL of a statement, read as a text, cites what the statement that it writes does.** What
    stands around the tables can be read by itself, and if the tables have words for names, all of
    the SQL can. -/
theorem sql_qualifiers (hst : st.WellFormed) (hquote : ∀ p ∈ st.condition, p.reduce.IsQuotable)
    (names : List Text) :
    Text.qualifiers (st.selectParts names).opening ++ Text.qualifiers (st.selectParts names).rest =
        (st.asSql names).qualifiers ∧
      ((∀ n ∈ names, isWord n = true) →
        Text.qualifiers (st.selectParts names).sql = (st.asSql names).qualifiers) := by
  have hopening := st.opening_cites hst names
  obtain ⟨hrest, hbreaks⟩ := st.rest_cites hst hquote names
  refine ⟨by rw [hopening.qualifiers, hrest.qualifiers]; rfl, fun hnames => ?_⟩
  have htables : Cites (Text.join (ascii ", ") (names.map id)) (names.flatMap fun _ => []) :=
    .separated fun n hn => by
      obtain ⟨c, cs, rfl, hc, hcs⟩ := isWord_iff.mp (hnames n hn)
      have hshaped : (Piece.wordKind (c :: cs.takeWhile isWordPart)).admits _ = true :=
        Piece.word_shaped hc
      rw [List.takeWhile_eq_self_iff.mpr hcs] at hshaped
      have hword : Piece.wordKind (c :: cs) ≠ .endOfInput ∧
          Piece.wordKind (c :: cs) ≠ .symbol .dot := by
        unfold Piece.wordKind
        split <;> simp
      exact .exact _ hshaped hword.1 hword.2
  rw [List.map_id, List.flatMap_eq_nil_iff.mpr fun _ _ => rfl] at htables
  have hsql := (hopening.blank htables).followed hrest hbreaks
  rw [List.append_nil] at hsql
  have htext : (st.selectParts names).sql = (st.selectParts names).opening ++
      32 :: Text.join (ascii ", ") names ++ (st.selectParts names).rest := by
    rw [SelectParts.sql_eq]
    simp [ascii, selectParts]
  rw [htext, hsql.qualifiers]
  rfl

end Statement

/-! ## 6. Tables that are looked up -/

namespace TableResolver

variable {σ : Type} (r : TableResolver (StateM σ)) (separator database table : Text)

/-- The table was found under the name of its database, and is known by that name from then on. -/
def Moves (name : Text) : Prop :=
  database ≠ [] ∧ name = qualifiedName database separator table ∧
    ∃ s, (r.tableExists (qualifiedName database separator table) s).1 = true

/-- **A table keeps its name unless it is found under the name of its database.** -/
theorem resolve_keeps_or_moves :
    Returns (fun name => name = table ∨ r.Moves separator database table name)
      (r.resolve separator database table) := by
  intro s
  unfold resolve
  split
  · exact .inl (r.resolveBare_eq table s)
  · rename_i hdatabase
    have hne : database ≠ [] := by simpa using hdatabase
    cases hfound : (r.tableExists (qualifiedName database separator table) s).1 with
    | true =>
      refine .inr ⟨hne, ?_, s, hfound⟩
      show ((if (r.tableExists (qualifiedName database separator table) s).1 = true then
        pure (qualifiedName database separator table) else r.resolveBare table) _).1 = _
      rw [if_pos hfound]
      rfl
    | false =>
      left
      show ((if (r.tableExists (qualifiedName database separator table) s).1 = true then
        pure (qualifiedName database separator table) else r.resolveBare table) _).1 = _
      rw [if_neg (by rw [hfound]; exact Bool.false_ne_true)]
      exact r.resolveBare_eq table _

end TableResolver

/-- In two lists that belong together each item of the first has its counterpart. -/
theorem exists_of_forall₂ {α β : Type} {R : α → β → Prop} {as : List α} {bs : List β}
    (h : List.Forall₂ R as bs) {a : α} (ha : a ∈ as) : ∃ b ∈ bs, R a b := by
  induction h with
  | nil => cases ha
  | cons hab _ ih =>
    rcases List.mem_cons.mp ha with rfl | ha
    · exact ⟨_, List.mem_cons_self, hab⟩
    · obtain ⟨b, hb, hab'⟩ := ih ha
      exact ⟨b, List.mem_cons_of_mem _ hb, hab'⟩

/-! ## 7. Queries -/

/-- The parts of the SQL of a query are those of its statement: columns go over as they are
    written. -/
theorem Query.Reduces.selectParts_eq {st : Statement} {errors : List Text} {q : Query}
    (h : q.Reduces st errors) (names : List Text) : q.selectParts names = st.selectParts names := by
  simp [Query.selectParts, Statement.selectParts, h.columns, h.condition, h.grouping, h.ordering,
    Function.comp_def]

/-- **A qualifier is listed in the SQL, or its table is, under the name of its database.** Let every
    qualifier of a text be one of its tables. Whatever the resolver answers, the SQL lists the names
    of the tables between what is written of the other clauses. Each qualifier of the text is again
    the name of a table of the SQL; but if a database is in use and the resolver finds the table
    under the name of the database, that name may be listed in its stead. And the SQL, read as a text
    in which no string is ended by a quote of its own, has qualifiers of the text only. -/
theorem qualifiers_are_listed {σ : Type} (r : TableResolver (StateM σ)) (s : σ) (separator : Text)
    {settings : ReadSettings} {text : Text} {q : Query}
    (hq : Query.ofText settings text = .ok q)
    (hqualifiers : ∀ t ∈ (Reading.ofText settings text).statement.qualifiers, t ∈ q.tables) :
    let st := (Reading.ofText settings text).statement
    let names := (r.resolveAll separator q.database q.tables s).1
    let parts := st.selectParts names
    let sql := (q.translate r separator s).1
    sql = parts.opening ++ ascii " " ++ Text.join (ascii ", ") names ++ parts.rest ∧
      (∀ t ∈ st.qualifiers, t ∈ names ∨ ∃ name ∈ names, r.Moves separator q.database t name) ∧
      (st.asSql names).qualifiers ⊆ st.qualifiers ∧
      ((∀ c ∈ q.condition, c.IsQuotable) →
        Text.qualifiers parts.opening ++ Text.qualifiers parts.rest = (st.asSql names).qualifiers ∧
        ((∀ b ∈ separator, isWordPart b = true) →
          Text.qualifiers sql = (st.asSql names).qualifiers)) := by
  intro st names parts sql
  have hst : st.WellFormed := readStatement_wellFormed (lex_shaped text)
  have hreduces : q.Reduces st _ := Statement.reduce_eq_ok hq
  have hparts : sql = parts.sql := by
    show (q.selectParts names).sql = (st.selectParts names).sql
    rw [hreduces.selectParts_eq]
  refine ⟨hparts.trans parts.sql_eq, fun t ht => ?_, st.qualifiers_asSql_subset names,
    fun hquote => ?_⟩
  · have hresolved : List.Forall₂ (fun table name => name = table ∨
        r.Moves separator q.database table name) q.tables names :=
      returns_mapM (fun table => r.resolve_keeps_or_moves separator q.database table) q.tables s
    obtain ⟨name, hname, hkept | hmoved⟩ := exists_of_forall₂ hresolved (hqualifiers t ht)
    · subst hkept
      exact .inl hname
    · exact .inr ⟨name, hname, hmoved⟩
  · have hquotable : ∀ p ∈ st.condition, p.reduce.IsQuotable := fun p hp =>
      hquote p.reduce (by rw [hreduces.condition]; exact Option.mem_map_of_mem _ hp)
    obtain ⟨haround, hall⟩ := st.sql_qualifiers hst hquotable names
    refine ⟨haround, fun hseparator => ?_⟩
    have hwords : ∀ n ∈ names, isWord n = true := by
      obtain ⟨htables, hdatabase⟩ := hreduces.isName hst
      have hstands := r.resolveAll_stands separator q.database q.tables s
      intro n hn
      obtain ⟨t, ht, hstand⟩ := exists_of_forall₂ hstands.flip hn
      exact StandsFor.isWord hstand (htables t ht) hdatabase hseparator
    rw [hparts]
    exact hall hwords

/-- A statement that qualifies a column with its own table, and uses a database. -/
def qualifiedSample : Text := ascii "USE DATABASE sales RELEVANCE TO orders.id FROM orders"

theorem qualifiedSample_query :
    ∃ q, Query.ofText {} qualifiedSample = .ok q ∧ q.database = ascii "sales" ∧
      q.tables = [ascii "orders"] ∧ q.condition = none ∧
      (Reading.ofText {} qualifiedSample).statement.qualifiers = [ascii "orders"] := by
  obtain ⟨q, hq, hreduces⟩ := Query.exists_ofText {} qualifiedSample
  refine ⟨q, hq, ?_, ?_, ?_, by decide +kernel⟩
  · rw [hreduces.database]
    decide +kernel
  · rw [hreduces.tables]
    decide +kernel
  · rw [hreduces.condition]
    decide +kernel

/-- What can be computed from a text holds of its query. -/
theorem eq_of_ofText {α : Type} {settings : ReadSettings} {text : Text} {q : Query} {f : Query → α}
    {a : α} (hq : Query.ofText settings text = .ok q)
    (h : (Query.ofText settings text).toOption.map f = some a) : f q = a := by
  rw [hq] at h
  exact Option.some.inj h

/-- Where only the bare name is known, the qualifier is listed. -/
theorem qualifiers_are_listed_orders :
    let r := TableResolver.known [ascii "orders"]
    let st := (Reading.ofText {} qualifiedSample).statement
    ∃ q, Query.ofText {} qualifiedSample = .ok q ∧ (∀ t ∈ st.qualifiers, t ∈ q.tables) ∧
      (∀ c ∈ q.condition, c.IsQuotable) ∧ (∀ b ∈ ascii "__", isWordPart b = true) ∧
      (q.translate r (ascii "__") ([], [])).1 = ascii "SELECT orders.id FROM orders" ∧
      Text.qualifiers (q.translate r (ascii "__") ([], [])).1 =
        (st.asSql (r.resolveAll (ascii "__") q.database q.tables ([], [])).1).qualifiers ∧
      ∀ t ∈ st.qualifiers,
        t ∈ (r.resolveAll (ascii "__") q.database q.tables ([], [])).1 ∨
          ∃ name ∈ (r.resolveAll (ascii "__") q.database q.tables ([], [])).1,
            r.Moves (ascii "__") q.database t name := by
  intro r st
  obtain ⟨q, hq, -, htables, hcondition, hqualifiers⟩ := qualifiedSample_query
  have hlisted : ∀ t ∈ st.qualifiers, t ∈ q.tables := by
    rw [show st.qualifiers = _ from hqualifiers, htables]
    exact fun t ht => ht
  have hquote : ∀ c ∈ q.condition, c.IsQuotable := by
    rw [hcondition]
    exact fun c hc => by cases hc
  have hseparator : ∀ b ∈ ascii "__", isWordPart b = true := List.all_eq_true.mp (by decide)
  have hsql : (q.translate r (ascii "__") ([], [])).1 = ascii "SELECT orders.id FROM orders" :=
    eq_of_ofText (f := fun q => (q.translate r _ _).1) hq (by decide +kernel)
  obtain ⟨-, hnames, -, htext⟩ := qualifiers_are_listed r ([], []) (ascii "__") hq hlisted
  exact ⟨q, hq, hlisted, hquote, hseparator, hsql, (htext hquote).2 hseparator,
    hnames⟩

/-- A statement with a string that has single quotes between its double ones. -/
def quotedSample : Text := ascii "FROM t WHERE t.a = \"x' OR u.b = 'y\""

/-- **A table that is stored under another name leaves its qualifier behind**: the text has no error
    and qualifies its column with its only table, and the SQL lists another table. And a string that
    is ended by a quote of its own goes on as SQL, which may have further qualifiers. -/
theorem not_every_qualifier_is_listed :
    (¬ ∀ (settings : ReadSettings) (text : Text) (q : Query) (tables : List Text),
      settings.Accepts text → Query.ofText settings text = .ok q →
      (∀ t ∈ (Reading.ofText settings text).statement.qualifiers, t ∈ q.tables) →
      let r := TableResolver.known tables
      ∀ t ∈ Text.qualifiers (q.translate r (ascii "__") ([], [])).1,
        t ∈ (r.resolveAll (ascii "__") q.database q.tables ([], [])).1) ∧
    ¬ ∀ (settings : ReadSettings) (text : Text) (q : Query) (tables : List Text),
      settings.Accepts text → Query.ofText settings text = .ok q →
      (∀ t ∈ (Reading.ofText settings text).statement.qualifiers, t ∈ q.tables) →
      ∀ t ∈ Text.qualifiers (q.translate (TableResolver.known tables) (ascii "__") ([], [])).1,
        t ∈ (Reading.ofText settings text).statement.qualifiers := by
  constructor
  · intro h
    obtain ⟨q, hq, hdatabase, htables, -, hqualifiers⟩ := qualifiedSample_query
    have haccepts : ({} : ReadSettings).Accepts qualifiedSample := by
      constructor <;> decide +kernel
    have hcited : Text.qualifiers (q.translate (TableResolver.known [ascii "sales__orders"])
        (ascii "__") ([], [])).1 = [ascii "orders"] :=
      eq_of_ofText (f := fun q => Text.qualifiers (q.translate (TableResolver.known
        [ascii "sales__orders"]) (ascii "__") ([], [])).1) hq (by decide +kernel)
    have hlisted := h {} qualifiedSample q [ascii "sales__orders"] haccepts hq
      (by rw [hqualifiers, htables]; exact fun t ht => ht) (ascii "orders")
      (by rw [hcited]; exact List.mem_singleton_self _)
    rw [hdatabase, htables] at hlisted
    exact absurd hlisted (by decide +kernel)
  · intro h
    obtain ⟨q, hq, hreduces⟩ := Query.exists_ofText {} quotedSample
    have haccepts : ({} : ReadSettings).Accepts quotedSample := by
      constructor <;> decide +kernel
    have hqualifiers : (Reading.ofText {} quotedSample).statement.qualifiers = [ascii "t"] := by
      decide +kernel
    have htables : q.tables = [ascii "t"] := by
      rw [hreduces.tables]
      decide +kernel
    have hcited : Text.qualifiers (q.translate (TableResolver.known [ascii "t"])
        (ascii "__") ([], [])).1 = [ascii "t", ascii "u"] :=
      eq_of_ofText (f := fun q => Text.qualifiers (q.translate (TableResolver.known [ascii "t"])
        (ascii "__") ([], [])).1) hq (by decide +kernel)
    have hfurther := h {} quotedSample q [ascii "t"] haccepts hq
      (by rw [hqualifiers, htables]; exact fun t ht => ht) (ascii "u")
      (by rw [hcited]; exact List.mem_cons_of_mem _ List.mem_cons_self)
    rw [hqualifiers] at hfurther
    exact absurd hfurther (by decide)

end MiningQuery
