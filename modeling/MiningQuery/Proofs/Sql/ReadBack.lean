/-
  File:      MiningQuery/Proofs/Sql/ReadBack.lean
  Subject:   The SQL of a query says all that the query asks of a store.

  * `TableResolver.resolveAll_stands` -- every table stands for itself or for the table of its
    database;
  * `ClausesPrinted.ofText` -- a printed text is read back as its clauses;
  * **`sql_reads_back`** -- the SQL of a query is read back as the query.
-/
import MiningQuery.Proofs.Query.Reduction
import MiningQuery.Proofs.Sql.Select

namespace MiningQuery

/-! ## 1. Resolved tables -/

/-- Whatever the state is, the result is such. -/
def Returns {σ α : Type} (P : α → Prop) (m : StateM σ α) : Prop := ∀ s, P (m s).1

section Returns

variable {σ α β : Type} {P : α → Prop}

theorem returns_pure {a : α} (h : P a) : Returns P (pure a : StateM σ α) := fun _ => h

theorem returns_bind {m : StateM σ β} {f : β → StateM σ α} {Q : β → Prop} (hm : Returns Q m)
    (hf : ∀ b, Q b → Returns P (f b)) : Returns P (m >>= f) := fun s => hf _ (hm s) _

/-- An effect whose result does not matter comes first. -/
theorem returns_after (m : StateM σ β) {f : β → StateM σ α} (hf : ∀ b, Returns P (f b)) :
    Returns P (m >>= f) := fun _ => hf _ _

/-- What holds of each result holds of the results in order. -/
theorem returns_mapM {R : β → α → Prop} {f : β → StateM σ α} (hf : ∀ b, Returns (R b) (f b))
    (bs : List β) : Returns (List.Forall₂ R bs) (bs.mapM f) := by
  induction bs with
  | nil => exact returns_pure .nil
  | cons b bs ih =>
    rw [List.mapM_cons]
    exact returns_bind (hf b) fun a ha => returns_bind ih fun as has => returns_pure (.cons ha has)

end Returns

/-- The name that a table may stand for: its own, or that of the table of its database. -/
def StandsFor (separator database table resolved : Text) : Prop :=
  resolved = table ∨ database ≠ [] ∧ resolved = qualifiedName database separator table

namespace TableResolver

variable {σ : Type} (r : TableResolver (StateM σ)) (separator database table : Text)

theorem resolveBare_eq : Returns (· = table) (r.resolveBare table) := by
  refine returns_after _ fun found => ?_
  cases found with
  | true => exact returns_pure rfl
  | false => exact returns_after _ fun _ => returns_pure rfl

theorem resolve_stands :
    Returns (StandsFor separator database table) (r.resolve separator database table) := by
  have hbare : Returns (StandsFor separator database table) (r.resolveBare table) :=
    fun s => .inl (r.resolveBare_eq table s)
  unfold resolve
  split
  · exact hbare
  · rename_i hne
    refine returns_after _ fun found => ?_
    cases found with
    | true => exact returns_pure (.inr ⟨by simpa using hne, rfl⟩)
    | false => exact hbare

/-- **Every table stands for itself or for the table of its database.** -/
theorem resolveAll_stands (tables : List Text) :
    Returns (List.Forall₂ (StandsFor separator database) tables)
      (r.resolveAll separator database tables) :=
  returns_mapM (r.resolve_stands separator database) tables

end TableResolver

/-- What a name stands for is a word. -/
theorem StandsFor.isWord {separator database table resolved : Text}
    (h : StandsFor separator database table resolved) (htable : isName table = true)
    (hdatabase : database ≠ [] → isName database = true)
    (hseparator : ∀ b ∈ separator, isWordPart b = true) : MiningQuery.isWord resolved = true := by
  have hword : ∀ n, isName n = true → MiningQuery.isWord n = true := fun n hn =>
    (Bool.and_eq_true_iff.mp hn).1
  rcases h with rfl | ⟨hne, rfl⟩
  · exact hword _ htable
  · refine isWord_append (isWord_append (hword _ (hdatabase hne)) hseparator) ?_
    exact isWordPart_of_isWord (hword _ htable)

/-- It is a name, unless it is a keyword. -/
theorem StandsFor.isName {separator database table resolved : Text}
    (h : StandsFor separator database table resolved) (htable : isName table = true)
    (hdatabase : database ≠ [] → MiningQuery.isName database = true)
    (hseparator : ∀ b ∈ separator, isWordPart b = true)
    (hkeyword : Keyword.ofText? resolved = none) : MiningQuery.isName resolved = true :=
  Bool.and_eq_true_iff.mpr ⟨h.isWord htable hdatabase hseparator, by rw [hkeyword]; rfl⟩

/-- So the names that tables of a query stand for are names. -/
theorem resolved_names {separator database : Text} {tables names : List Text}
    (h : List.Forall₂ (StandsFor separator database) tables names)
    (htables : ∀ t ∈ tables, isName t = true) (hdatabase : database ≠ [] → isName database = true)
    (hseparator : ∀ b ∈ separator, isWordPart b = true)
    (hkeywords : ∀ n ∈ names, Keyword.ofText? n = none) : ∀ n ∈ names, isName n = true := by
  induction h with
  | nil => exact fun n hn => absurd hn List.not_mem_nil
  | cons hn _ ih =>
    obtain ⟨ht, hts⟩ := List.forall_mem_cons.mp htables
    obtain ⟨hk, hks⟩ := List.forall_mem_cons.mp hkeywords
    exact List.forall_mem_cons.mpr ⟨hn.isName ht hdatabase hseparator hk, ih hts hks⟩

/-! ## 2. Statements and queries -/

/-- The tables of a query and its database are named as the statement names them. -/
theorem Query.Reduces.isName {st : Statement} {errors : List Text} {q : Query}
    (h : q.Reduces st errors) (hst : st.WellFormed) :
    (∀ t ∈ q.tables, MiningQuery.isName t = true) ∧
      (q.database ≠ [] → MiningQuery.isName q.database = true) := by
  constructor
  · rw [h.tables]
    exact List.forall_mem_map.mpr hst.tables
  · rw [h.database]
    intro hdatabase
    cases hd : st.database with
    | none => simp [hd] at hdatabase
    | some d => exact hst.database d hd

/-- The statement that a SELECT statement is read back as has nothing that is refused. -/
theorem Statement.reduce_asSql (s : Statement) (names : List Text) (displayType rawText : Text)
    (errors : List Text) :
    ∃ q, (s.asSql names).reduce displayType rawText errors = .ok q ∧
      q.Reduces (s.asSql names) errors :=
  ⟨_, rfl, rfl, rfl, rfl, rfl, rfl, rfl, rfl⟩

/-- The print of some clauses is read back as these clauses, if the limit allows for their depth. -/
theorem ClausesPrinted.ofText_of_depth {d : Nat} {contents : List ClauseContent} {t : Text}
    {ls : List Lexeme} (h : ClausesPrinted d Clause.all contents t ls) (settings : ReadSettings)
    (hdepth : d ≤ settings.nestingLimit) :
    (Reading.ofText settings t).statement = contents.foldl Statement.set .empty ∧
      (Reading.ofText settings t).errors = [] := by
  obtain ⟨hlex, body, last, htokens, hlast, hbody⟩ := h.printed.lexes.lex
  have hread := readStatement_of_written (h.written hdepth hbody hlast)
  rw [← htokens] at hread
  have hkeep : Reading.keepErrors settings.errorLimit [] = [] := by
    unfold Reading.keepErrors
    split <;> simp
  simp only [Reading.ofText, hread, hlex, List.map_nil, List.append_nil, hkeep, and_self]

/-- **The print of some clauses is read back as these clauses, if the limit of nesting allows.** -/
theorem ClausesPrinted.ofText {d : Nat} {contents : List ClauseContent} {t : Text}
    {ls : List Lexeme} (h : ClausesPrinted d Clause.all contents t ls) (settings : ReadSettings)
    (hnesting : nesting (lex t).tokens ≤ settings.nestingLimit) :
    (Reading.ofText settings t).statement = contents.foldl Statement.set .empty ∧
      (Reading.ofText settings t).errors = [] := by
  obtain ⟨-, body, last, htokens, hlast, hbody⟩ := h.printed.lexes.lex
  have hkinds : (lex t).tokens.map (·.kind) = lexemeKinds ls ++ [.endOfInput] := by
    rw [htokens, List.map_append, List.map_singleton, hlast, hbody.kinds]
    rfl
  have hbalanced : Balanced d ((lex t).tokens.map (·.kind)) := by
    rw [hkinds]
    have hend : Balanced 0 [.endOfInput] := .single (by decide) (by decide)
    exact (h.balanced.append hend).mono (Nat.le_max_left _ _)
  exact h.ofText_of_depth settings
    (Nat.le_trans (hbalanced.le_nesting (Nat.le_refl d)) hnesting)

/-! ## 3. Reading SQL back -/

/-- The texts of the columns of a SELECT statement. -/
theorem selected_text (as : List Attribute) :
    (selected as).map Attribute.text =
      if as.map Attribute.text = [] then [ascii "*"] else as.map Attribute.text := by
  cases as <;> rfl

/-- **The SQL of a query is read back as the query.** The text may be any that gives a query with
    a table, its values being such as SQL can say, and the tables may be resolved in any way, if
    none of them then has the name of a keyword. If the first word of the SQL is changed into the
    words of the clause for columns, and the limit of nesting allows for its parentheses and
    `NOT`s, it is read without an error, and the new query asks for the same columns, or all, of
    the resolved tables, under the same condition, grouped and ordered in the same way. -/
theorem sql_reads_back {σ : Type} (r : TableResolver (StateM σ)) (s : σ) {separator : Text}
    (hseparator : ∀ b ∈ separator, isWordPart b = true) {settings settings' : ReadSettings}
    {text : Text} {q : Query} (hq : Query.ofText settings text = .ok q) (htables : q.tables ≠ [])
    (hplain : ∀ c ∈ q.condition, c.IsPlain)
    (hnames : ∀ n ∈ (r.resolveAll separator q.database q.tables s).1, Keyword.ofText? n = none)
    (hnesting : nesting (lex (restated (q.translate r separator s).1)).tokens ≤
      settings'.nestingLimit) :
    ascii "SELECT " <+: (q.translate r separator s).1 ∧
      ∃ q', Query.ofText settings' (restated (q.translate r separator s).1) = .ok q' ∧
        q'.errors = [] ∧
        q'.columns = (if q.columns = [] then [ascii "*"] else q.columns) ∧
        q'.tables = (r.resolveAll separator q.database q.tables s).1 ∧
        q'.condition = q.condition ∧ (∀ c ∈ q.condition, c.equals c = true) ∧
        q'.grouping = q.grouping ∧ q'.ordering = q.ordering := by
  have hsql : (q.translate r separator s).1 =
      (q.selectParts (r.resolveAll separator q.database q.tables s).1).sql := rfl
  rw [hsql] at hnesting ⊢
  have hresolved := r.resolveAll_stands separator q.database q.tables s
  generalize (r.resolveAll separator q.database q.tables s).1 = names at *
  have hwell : (Reading.ofText settings text).statement.WellFormed :=
    readStatement_wellFormed (lex_shaped text)
  have hreduces : q.Reduces (Reading.ofText settings text).statement _ := Statement.reduce_eq_ok hq
  generalize (Reading.ofText settings text).statement = st at *
  have hparts : q.selectParts names = st.selectParts names := by
    simp [Query.selectParts, Statement.selectParts, hreduces.columns, hreduces.condition,
      hreduces.grouping, hreduces.ordering, Function.comp_def]
  have hne : names ≠ [] := by
    intro h
    subst h
    exact htables (List.forall₂_nil_right_iff.mp hresolved)
  obtain ⟨hwritten, hdatabase⟩ := hreduces.isName hwell
  have hisName : ∀ n ∈ names, isName n = true :=
    resolved_names hresolved hwritten hdatabase hseparator hnames
  have hvalues : ∀ p ∈ st.condition, p.reduce.IsPlain := by
    intro p hp
    exact hplain p.reduce (by rw [hreduces.condition]; exact Option.mem_map_of_mem _ hp)
  rw [hparts] at hnesting ⊢
  obtain ⟨d, ls, hprinted⟩ := Statement.asSql_printed hwell hvalues hne hisName
  obtain ⟨hstatement, herrors⟩ := hprinted.ofText settings' hnesting
  rw [Statement.foldl_sqlContents] at hstatement
  obtain ⟨q', hq', hreduces'⟩ := st.reduce_asSql names settings'.displayType
    (Reading.ofText settings' (restated (st.selectParts names).sql)).text []
  refine ⟨?_, q', ?_, hreduces'.errors, ?_, ?_, ?_, ?_, ?_, ?_⟩
  · simp only [SelectParts.sql, List.append_assoc]
    exact List.prefix_append _ _
  · rw [Query.ofText, Reading.reduce, hstatement, herrors]
    exact hq'
  · rw [hreduces'.columns, hreduces.columns]
    exact selected_text _
  · rw [hreduces'.tables]
    simp [Statement.asSql, plainTables, Function.comp_def]
  · rw [hreduces'.condition, hreduces.condition]
    simp [Statement.asSql, Predicate.asSql_reduce, Function.comp_def]
  · exact fun c hc => Condition.equals_self (hplain c hc)
  · rw [hreduces'.grouping, hreduces.grouping]
    rfl
  · rw [hreduces'.ordering, hreduces.ordering]
    rfl

/-- A query of a table that only its database knows, with a negated condition and a constant that
    is negative. -/
def negativeSample : Text := ascii "USE DATABASE d FROM t WHERE NOT a = -1"

/-- The query of that text. -/
def negativeQuery : Query :=
  { database := ascii "d"
    tables := [ascii "t"]
    condition := some (.not (.compare (ascii "a") (.compare .eq) (.integer (-1))))
    rawText := negativeSample }

theorem sql_reads_back_negative :
    let r := TableResolver.known [ascii "d__t"]
    let sql := (negativeQuery.translate r (ascii "__") ([], [])).1
    sql = ascii "SELECT * FROM d__t WHERE NOT (a = -1)" ∧
      ∃ q', Query.ofText {} (restated sql) = .ok q' ∧ q'.errors = [] ∧
        q'.columns = [ascii "*"] ∧ q'.tables = [ascii "d__t"] ∧
        q'.condition = negativeQuery.condition := by
  intro r sql
  have hread : (Query.ofText {} negativeSample).toOption = some negativeQuery := by decide +kernel
  have hq : Query.ofText {} negativeSample = .ok negativeQuery := by
    cases h : Query.ofText {} negativeSample with
    | error e => rw [h] at hread; cases hread
    | ok q => rw [h] at hread; exact congrArg Except.ok (Option.some.inj hread)
  have hsql : sql = ascii "SELECT * FROM d__t WHERE NOT (a = -1)" := by decide
  have hseparator : ∀ b ∈ ascii "__", isWordPart b = true := List.all_eq_true.mp (by decide)
  have hnesting : nesting (lex (restated sql)).tokens ≤ ({} : ReadSettings).nestingLimit := by
    decide +kernel
  obtain ⟨-, q', hq', herrors, hcolumns, htables, hcondition, -⟩ :=
    sql_reads_back r ([], []) hseparator hq (by decide) (by decide) (by decide) hnesting
  exact ⟨hsql, q', hq', herrors, hcolumns, htables, hcondition⟩

end MiningQuery
