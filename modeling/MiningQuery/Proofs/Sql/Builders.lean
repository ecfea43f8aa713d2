/-
  File:      MiningQuery/Proofs/Sql/Builders.lean
  Subject:   The two ways to a SELECT statement over one table.

  A query is translated with its condition as it is, and a call passes the parts of a statement on,
  with the empty text for no condition. Both come to the same clauses.

  * `Query.clauses`, `Query.statement` -- the clauses of a query over one table, and their text;
  * `Condition.sql_ne_nil` -- a condition has text, so that none is mistaken for one that is missing;
  * `translate_single`, `executeSelect_single` -- either way leads to that text;
  * **`builders_agree`** -- what a query is translated to is what the call sends.
-/
import MiningQuery.Proofs.Runner.Consistency

namespace MiningQuery

/-! ## 1. Clauses -/

/-- A list behind the words of its clause; no clause if there is nothing in the list. -/
def listClause (words : String) (items : List Text) : List Text :=
  if items = [] then [] else [ascii words ++ Text.join (ascii ", ") items]

namespace Query

/-- The clauses of the SELECT statement of a query over one table, of those that it has. -/
def clauses (q : Query) (table : Text) : List Text :=
  [ascii "SELECT " ++ (if q.columns = [] then ascii "*" else Text.join (ascii ", ") q.columns),
    ascii "FROM " ++ table] ++
  (match q.condition with
    | some condition => [ascii "WHERE " ++ condition.sql]
    | none => []) ++
  listClause "GROUP BY " q.grouping ++
  listClause "ORDER BY " (q.ordering.map fun o => o.column ++ ascii " " ++ o.direction.spelling)

/-- The SELECT statement: the clauses with blanks in between. -/
def statement (q : Query) (table : Text) : Text := Text.join (ascii " ") (q.clauses table)

end Query

/-- A condition has text. -/
theorem Condition.sql_ne_nil (c : Condition) : c.sql ≠ [] := by
  cases c <;> simp [sql, ascii]

theorem part_listPart (words : String) (items : List Text) :
    SelectParts.part (" " ++ words) (SelectParts.listPart? items) =
      (listClause words items).flatMap (ascii " " ++ ·) := by
  unfold SelectParts.listPart? SelectParts.part listClause
  cases items <;> simp [ascii]

/-- **The parts of a query over one table are written as its clauses.** -/
theorem selectParts_sql (q : Query) (table : Text) :
    (q.selectParts [table]).sql = q.statement table := by
  have hcolumns : (SelectParts.listPart? q.columns).getD (ascii "*") =
      if q.columns = [] then ascii "*" else Text.join (ascii ", ") q.columns := by
    unfold SelectParts.listPart?
    cases q.columns <;> rfl
  have htables : ascii " FROM " ++ Text.join (ascii ", ") [table] =
      ascii " " ++ (ascii "FROM " ++ table) := by
    simp [Text.join, ascii]
  have hcondition : SelectParts.part " WHERE " (q.condition.map Condition.sql) =
      (match q.condition with
        | some condition => [ascii "WHERE " ++ condition.sql]
        | none => []).flatMap (ascii " " ++ ·) := by
    cases q.condition <;> simp [SelectParts.part, ascii]
  have hgrouping := part_listPart "GROUP BY " q.grouping
  have hordering := part_listPart "ORDER BY " (q.ordering.map QueryOrder.text)
  have horder : QueryOrder.text = fun o => o.column ++ ascii " " ++ o.direction.spelling := rfl
  calc (q.selectParts [table]).sql
      = ascii "SELECT " ++ (SelectParts.listPart? q.columns).getD (ascii "*") ++
          (ascii " FROM " ++ Text.join (ascii ", ") [table]) ++
          SelectParts.part " WHERE " (q.condition.map Condition.sql) ++
          SelectParts.part (" " ++ "GROUP BY ") (SelectParts.listPart? q.grouping) ++
          SelectParts.part (" " ++ "ORDER BY ")
            (SelectParts.listPart? (q.ordering.map QueryOrder.text)) := by
        simp [Query.selectParts, SelectParts.sql, SelectParts.part]
    _ = q.statement table := by
        rw [hcolumns, htables, hcondition, hgrouping, hordering, horder]
        unfold Query.statement Query.clauses
        simp only [List.cons_append, List.nil_append, Text.join_cons, List.flatMap_cons,
          List.flatMap_append, List.append_assoc]

/-! ## 2. Two ways to the statement -/

section Translation

variable {m : Type → Type} [Monad m] [LawfulMonad m]

/-- A query over one table is translated by looking this table up. -/
theorem translate_single (r : TableResolver m) (separator : Text) {q : Query} {table : Text}
    (h : q.tables = [table]) :
    q.translate r separator = do
      let name ← r.resolve separator q.database table
      r.note (.sql (ascii "Translated: " ++ q.statement name))
      return q.statement name := by
  unfold Query.translate TableResolver.resolveAll
  simp [h, selectParts_sql]

end Translation

section Call

variable {σ : Type}

/-- The call with the parts of a query sends the statement and tells of its table. -/
theorem executeSelect_single (e : Engine σ) (q : Query) (table : Text) :
    Runner.executeSelect e table q.columns ((q.condition.map Condition.sql).getD []) q.grouping
        q.ordering none =
      (fun r => { r with tables := [table] }) <$> Runner.executeSql e (q.statement table) := by
  -- a condition has text, so the empty text stands for no condition only
  have hcondition : (if ((q.condition.map Condition.sql).getD []).isEmpty then none
      else some ((q.condition.map Condition.sql).getD [])) = q.condition.map Condition.sql := by
    cases q.condition with
    | none => rfl
    | some condition => simp [condition.sql_ne_nil]
  unfold Runner.executeSelect
  rw [hcondition, ← selectParts_sql, bind_pure_comp]
  rfl

end Call

/-- **What a query over one table is translated to is what the call sends.** Whoever looks up the
    table, the query is translated to its statement over the name that is found; and the call with
    this name, the columns, the text of the condition or else the empty text, and the grouping and
    ordering of the query says just this statement to the engine. No condition has the empty
    text. -/
theorem builders_agree {m : Type → Type} [Monad m] [LawfulMonad m] (r : TableResolver m)
    (separator : Text) {q : Query} {table : Text} (h : q.tables = [table]) :
    (q.translate r separator = do
      let name ← r.resolve separator q.database table
      r.note (.sql (ascii "Translated: " ++ q.statement name))
      return q.statement name) ∧
    (∀ condition, q.condition = some condition → condition.sql ≠ []) ∧
    ∀ {σ : Type} (e : Engine σ) (name : Text) (c : Connection σ), ∃ x c',
      x.sql = q.statement name ∧ x.values = [] ∧ e.Heard [x] c c' ∧
        (Runner.executeSelect e name q.columns ((q.condition.map Condition.sql).getD []) q.grouping
          q.ordering none).EndsBehind x (fun result => result.sql = q.statement name) c c' := by
  refine ⟨translate_single r separator h, fun condition _ => condition.sql_ne_nil, ?_⟩
  intro σ e name c
  obtain ⟨x, c', hsql, hvalues, hheard, hends⟩ := executeSql_ends e (q.statement name) c
  refine ⟨x, c', hsql, hvalues, hheard, ?_⟩
  have hnamed := hends.of_does fun _ hdoes => (selected_of_executeSql hdoes).2
  rw [executeSelect_single]
  exact hnamed.map fun _ hresult => hresult

/-- A query with every clause. -/
def Query.groupedSample : Query where
  database := ascii "d"
  tables := [ascii "t"]
  columns := [ascii "a", ascii "COUNT(*)"]
  condition := some (.compare (ascii "a") (.compare .gt) (.integer 1))
  grouping := [ascii "a"]
  ordering := [⟨ascii "a", .descending⟩]

theorem builders_agree_grouped :
    let q := Query.groupedSample
    let sql := ascii "SELECT a, COUNT(*) FROM d__t WHERE a > 1 GROUP BY a ORDER BY a DESC"
    q.tables = [ascii "t"] ∧
      ((q.translate (.known [ascii "d__t"]) (ascii "__")).run ([], [])).1 = sql ∧
      ∃ x c', x.sql = sql ∧ Engine.counting.Heard [x] { engine := 0 } c' ∧
        (Runner.executeSelect Engine.counting (ascii "d__t") q.columns (ascii "a > 1") q.grouping
          q.ordering none).EndsBehind x (fun result => result.sql = sql) { engine := 0 } c' := by
  intro q sql
  have htables : q.tables = [ascii "t"] := rfl
  obtain ⟨htranslated, -, hcall⟩ :=
    builders_agree (.known [ascii "d__t"]) (ascii "__") htables
  have hsql : q.statement (ascii "d__t") = sql := by decide +kernel
  have hresolved : (((TableResolver.known [ascii "d__t"]).resolve (ascii "__") q.database
      (ascii "t")).run ([], [])).1 = ascii "d__t" := by decide +kernel
  obtain ⟨x, c', hx, -, hheard, hends⟩ := hcall Engine.counting (ascii "d__t") { engine := 0 }
  rw [hsql] at hx hends
  refine ⟨htables, ?_, x, c', hx, hheard, hends⟩
  rw [htranslated]
  exact (congrArg q.statement hresolved).trans hsql

end MiningQuery
