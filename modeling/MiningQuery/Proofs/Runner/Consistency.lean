/-
  File:      MiningQuery/Proofs/Runner/Consistency.lean
  Subject:   The fields of an outcome agree with each other and with what has been done.

  The fields of an outcome are written stage by stage, and a stage that fails leaves what is there.
  The invariant is followed through the stages; what was said to the engine comes with it.

  * `ExecutionResult.Consistent` -- the fields agree;
  * `RunOutcome.OwesFindings`, `ExecutionResult.Names` -- where the findings and the SQL come from;
  * `executeSql_selects`, `Query.finish_consistent` -- the SELECT statement and the stages behind it;
  * **`outcomes_are_consistent`** -- every outcome of each of the four calls.
-/
import MiningQuery.Proofs.Runner.Outcome

namespace MiningQuery

variable {σ α : Type}

/-! ## 1. Outcomes whose fields agree -/

/-- The fields of an outcome agree with each other. -/
structure ExecutionResult.Consistent (r : ExecutionResult) : Prop where
  rowCount : r.rowCount = r.table.rowCount
  columns : r.columns = r.table.columns
  error : r.success = true → r.error = []
  visualization : r.visualization.isSome = true → r.success = true

/-- The outcome of a SELECT statement: its fields agree, and nothing is mined or drawn yet. -/
structure ExecutionResult.Selected (r : ExecutionResult) : Prop extends r.Consistent where
  unmined : r.miningResult = none
  undrawn : r.visualization = none

/-- The findings in an outcome are what a miner has returned that was called, and it has returned
    the table of the outcome with them. -/
def RunOutcome.OwesFindings (c : Collaborators) (q : Query) (o : RunOutcome) : Prop :=
  ∀ findings, o.result.miningResult = some findings →
    ∃ miner t operation, c.miner = some miner ∧ q.mining = some operation ∧
      .mined t operation ∈ o.calls ∧ miner t operation = .ok ⟨o.result.table, findings⟩

/-- The SQL in an outcome is that of the SELECT statement that was sent, and there is none just if
    none was sent. -/
structure ExecutionResult.Names (r : ExecutionResult) (select : Option Exchange) : Prop where
  sql : r.sql = (select.map (·.sql)).getD []
  sent : r.sql ≠ [] ↔ select.isSome = true

namespace ExecutionResult

variable {r : ExecutionResult}

/-- An outcome with a message and no table has fields that agree. -/
theorem selected_of_error (sql message : Text) :
    ({ sql, error := message } : ExecutionResult).Selected :=
  ⟨⟨rfl, rfl, fun hsuccess => absurd hsuccess Bool.false_ne_true,
    fun hdrawn => absurd hdrawn Bool.false_ne_true⟩, rfl, rfl⟩

/-- What a query says of its database and tables is kept apart from the rest. -/
theorem Selected.relabel (h : r.Selected) (database : Text) (tables : List Text) :
    ({ r with database, tables } : ExecutionResult).Selected :=
  ⟨⟨h.rowCount, h.columns, h.error, h.visualization⟩, h.unmined, h.undrawn⟩

/-- A stage that fails behind the SELECT statement leaves an outcome whose fields agree, as long as
    nothing is drawn. -/
theorem Consistent.failed (h : r.Consistent) (hundrawn : r.visualization = none) (message : Text) :
    (r.failed message).Consistent where
  rowCount := h.rowCount
  columns := h.columns
  error hsuccess := absurd hsuccess Bool.false_ne_true
  visualization hdrawn := by
    rw [ExecutionResult.failed, hundrawn] at hdrawn
    cases hdrawn

theorem names_none (h : r.sql = []) : r.Names none := by
  constructor <;> simp [h]

theorem names_some {x : Exchange} (h : r.sql = x.sql) (hne : x.sql ≠ []) : r.Names (some x) := by
  constructor <;> simp [h, hne]

end ExecutionResult

/-! ## 2. The SELECT statement -/

/-- A statement that is put together from parts has text. -/
theorem SelectParts.sql_ne_nil (p : SelectParts) : p.sql ≠ [] := by
  have hselect : ascii "SELECT " ≠ [] := by decide
  simp [SelectParts.sql, hselect]

/-- What is said for a query: the lookups of its tables, and behind them its SELECT statement unless
    a lookup fails. -/
inductive Query.Sends (e : Engine σ) (r : Runner) (q : Query) (c c' : Connection σ) :
    Option Exchange → Prop
  | stopped {xs : List Exchange} {fault : Fault} :
      Lookups r.settings.separator q.database q.tables xs (.error fault) → e.Heard xs c c' →
      Sends e r q c c' none
  | sent {xs : List Exchange} {names : List Text} {x : Exchange} :
      Lookups r.settings.separator q.database q.tables xs (.ok names) →
      x.sql = (q.selectParts names).sql → x.values = [] → e.Heard (xs ++ [x]) c c' →
      Sends e r q c c' (some x)

/-- A call ends with an outcome that fits; but if a SELECT statement was sent and has delivered a
    garbled cell, the fault of its conversion ends the call. -/
def Access.EndsAfter (m : Access σ α) (select : Option Exchange) (Fits : α → Prop)
    (c c' : Connection σ) : Prop :=
  match select with
  | none => ∃ a, m.Does c (.ok a) c' ∧ Fits a
  | some x => m.EndsBehind x Fits c c'

section Select

variable {e : Engine σ} {c c' : Connection σ} {m : Access σ α} {x : Exchange}
  {Fits Fits' : α → Prop}

/-- What is known of each outcome of a call fits behind the statement, too. -/
theorem Access.EndsBehind.of_does (h : m.EndsBehind x Fits c c')
    (hf : ∀ a, m.Does c (.ok a) c' → Fits' a) : m.EndsBehind x Fits' c c' := by
  rcases h with ⟨hgarbled, a, hdoes, -⟩ | hends
  · exact .inl ⟨hgarbled, a, hdoes, hf a hdoes⟩
  · exact .inr hends

/-- Whatever comes of SQL, the outcome is that of a SELECT statement and has the SQL. -/
theorem selected_of_executeSql {sql : Text} {r : ExecutionResult}
    (h : (Runner.executeSql e sql).Does c (.ok r) c') : r.Selected ∧ r.sql = sql := by
  obtain ⟨o, c₁, hfetch⟩ : ∃ o c₁, (Runner.fetch e sql).Does c o c₁ := ⟨_, _, rfl⟩
  cases o with
  | ok t =>
    let found := ({ success := true, sql } : ExecutionResult).withTable t
    have hpure : (pure found : Access σ ExecutionResult).Does c₁ (.ok found) c₁ := .pure found
    have hends : (Runner.executeSql e sql).Does c (.ok found) c₁ := (hfetch.bind hpure).tryCatch
    obtain rfl := Except.ok.inj (hends.unique h).1
    exact ⟨⟨⟨rfl, rfl, fun _ => rfl, fun hdrawn => by cases hdrawn⟩, rfl, rfl⟩, rfl⟩
  | error fault =>
    cases hmessage : fault.message? with
    | none =>
      have hends : (Runner.executeSql e sql).Does c (.error fault) c₁ := by
        refine hfetch.bind_error.tryCatch_error ?_
        rw [hmessage]
        rfl
      cases (hends.unique h).1
    | some message =>
      have hends : (Runner.executeSql e sql).Does c (.ok { sql, error := message })
          { c₁ with records := c₁.records ++ [.error (ascii "Query failed: " ++ message)] } := by
        refine hfetch.bind_error.tryCatch_error ?_
        rw [hmessage]
        rfl
      obtain rfl := Except.ok.inj (hends.unique h).1
      exact ⟨ExecutionResult.selected_of_error sql message, rfl⟩

/-- **Sending SQL** ends with the outcome of a SELECT statement, with this SQL. -/
theorem executeSql_selects (e : Engine σ) (sql : Text) (c : Connection σ) :
    ∃ x c', x.sql = sql ∧ e.Heard [x] c c' ∧
      (Runner.executeSql e sql).EndsBehind x (fun r => r.Selected ∧ r.sql = sql) c c' := by
  obtain ⟨x, c', hsql, -, hheard, hends⟩ := executeSql_ends e sql c
  exact ⟨x, c', hsql, hheard, hends.of_does fun _ hdoes => selected_of_executeSql hdoes⟩

/-- **Sending a query** ends with the outcome of a SELECT statement, and with its SQL if it came to
    be sent. -/
theorem execute_selects (e : Engine σ) (r : Runner) (q : Query) (c : Connection σ) :
    ∃ select c', q.Sends e r c c' select ∧
      (r.execute e q).EndsAfter select (fun result => result.Selected ∧ result.Names select)
        c c' := by
  obtain ⟨xs, o, c₁, hdoes, hlookups, hheard⟩ := translate_heard e r q c
  cases o with
  | error fault =>
    obtain ⟨message, rfl⟩ := hlookups.engine_of_error rfl
    exact ⟨none, c₁, .stopped hlookups hheard, _, execute_of_refused hdoes,
      ExecutionResult.selected_of_error [] _, ExecutionResult.names_none rfl⟩
  | ok names =>
    obtain ⟨x, c₂, hsql, hvalues, hheard', hends⟩ := executeSql_ends e (q.selectParts names).sql c₁
    refine ⟨some x, c₂, .sent hlookups hsql hvalues (hheard.append hheard'), ?_⟩
    have hends := hends.of_does fun _ hdoes => selected_of_executeSql hdoes
    rcases hends with ⟨hgarbled, result, hdoes', hselected, hresult⟩ | ⟨hgarbled, hdoes'⟩
    · refine .inl ⟨hgarbled, _, execute_of_translated hdoes hdoes', hselected.relabel _ _, ?_⟩
      exact ExecutionResult.names_some (hresult.trans hsql.symm)
        (hsql ▸ (q.selectParts names).sql_ne_nil)
    · exact .inr ⟨hgarbled, execute_of_translated hdoes hdoes'⟩

end Select

/-! ## 3. Stages behind the SELECT statement -/

section Stages

variable {c : Collaborators} {q : Query} {r : ExecutionResult}

/-- **The mining stage** keeps the fields agreeing and the SQL, and draws nothing. -/
theorem Query.mineStage_consistent (c : Collaborators) (q : Query) (h : r.Selected) :
    (q.mineStage c r).result.Consistent ∧ (q.mineStage c r).result.visualization = none ∧
      (q.mineStage c r).result.sql = r.sql ∧
      RunOutcome.OwesFindings c q ⟨(q.mineStage c r).result, (q.mineStage c r).calls⟩ := by
  have hunmined : ∀ {message : Text} {calls : List CollaboratorCall},
      RunOutcome.OwesFindings c q ⟨r.failed message, calls⟩ := by
    intro message calls findings hfindings
    rw [ExecutionResult.failed, h.unmined] at hfindings
    cases hfindings
  have hnothing : RunOutcome.OwesFindings c q ⟨r, []⟩ := by
    intro findings hfindings
    rw [h.unmined] at hfindings
    cases hfindings
  unfold mineStage StageOutcome.andThen
  cases hmining : q.mining with
  | none => exact ⟨h.toConsistent, h.undrawn, rfl, hnothing⟩
  | some operation =>
    cases hsuccess : r.success with
    | false => exact ⟨h.toConsistent, h.undrawn, rfl, hnothing⟩
    | true =>
      simp only [if_true]
      unfold ExecutionResult.mine
      by_cases hrows : r.table.rowCount = 0
      · rw [if_pos hrows]
        exact ⟨h.toConsistent.failed h.undrawn _, h.undrawn, rfl, hunmined⟩
      · rw [if_neg hrows]
        cases hminer : c.miner with
        | none => exact ⟨h.toConsistent.failed h.undrawn _, h.undrawn, rfl, hunmined⟩
        | some miner =>
          dsimp only
          cases hmined : miner r.table operation with
          | error message => exact ⟨h.toConsistent.failed h.undrawn _, h.undrawn, rfl, hunmined⟩
          | ok outcome =>
            refine ⟨⟨rfl, rfl, h.error, fun _ => hsuccess⟩, h.undrawn, rfl, ?_⟩
            intro findings hfindings
            obtain rfl := Option.some.inj hfindings
            exact ⟨miner, r.table, operation, hminer, hmining, List.mem_append_right _
              (List.mem_singleton_self _), hmined⟩

/-- **The display stage** keeps the fields agreeing, and everything that was found before it. -/
theorem Query.displayStage_consistent {o : StageOutcome} (c : Collaborators) (displayType : Text)
    (h : o.result.Consistent) (hundrawn : o.result.visualization = none) :
    let shown := o.andThen (ExecutionResult.display c displayType)
    shown.result.Consistent ∧ shown.result.sql = o.result.sql ∧
      shown.result.table = o.result.table ∧ shown.result.miningResult = o.result.miningResult ∧
      o.calls ⊆ shown.calls := by
  unfold StageOutcome.andThen
  cases hsuccess : o.result.success with
  | false => exact ⟨h, rfl, rfl, rfl, List.Subset.refl _⟩
  | true =>
    simp only [if_true]
    have hcalls : ∀ calls : List CollaboratorCall, o.calls ⊆ o.calls ++ calls :=
      fun calls => List.subset_append_left _ calls
    unfold ExecutionResult.display
    by_cases hplain : displayType = Query.plainDisplay
    · rw [if_pos hplain]
      exact ⟨h, rfl, rfl, rfl, hcalls _⟩
    · rw [if_neg hplain]
      cases c.renderer with
      | none => exact ⟨h.failed hundrawn _, rfl, rfl, rfl, hcalls _⟩
      | some renderer =>
        dsimp only
        cases renderer o.result.table displayType with
        | ok picture =>
          exact ⟨⟨h.rowCount, h.columns, h.error, fun _ => hsuccess⟩, rfl, rfl, rfl, hcalls _⟩
        | error message => exact ⟨h.failed hundrawn _, rfl, rfl, rfl, hcalls _⟩

/-- **The stages behind the SELECT statement** leave an outcome whose fields agree, with findings
    of a miner only, and with the SQL of the statement. -/
theorem Query.finish_consistent (c : Collaborators) (q : Query) (h : r.Selected) :
    (q.finish c r).result.Consistent ∧ (q.finish c r).result.sql = r.sql ∧
      RunOutcome.OwesFindings c q ⟨(q.finish c r).result, (q.finish c r).calls⟩ := by
  obtain ⟨hmined, hundrawn, hsql, howes⟩ := Query.mineStage_consistent c q h
  obtain ⟨hshown, hsql', htable, hfindings, hcalls⟩ :=
    Query.displayStage_consistent c q.displayType hmined hundrawn
  rw [← Query.finish_eq] at hshown hsql' htable hfindings hcalls
  refine ⟨hshown, hsql'.trans hsql, fun findings hsome => ?_⟩
  obtain ⟨miner, t, operation, hminer, hmining, hmem, hreturned⟩ :=
    howes findings (hfindings.symm.trans hsome)
  refine ⟨miner, t, operation, hminer, hmining, hcalls hmem, ?_⟩
  rw [htable]
  exact hreturned

end Stages

/-! ## 4. The four calls -/

section Calls

variable {e : Engine σ}

/-- **A text is taken through all stages**, and the fields of the outcome agree. -/
theorem run_consistent (e : Engine σ) (r : Runner) (text : Text) (c : Connection σ) :
    ∃ q select c', Query.ofText r.settings.reading text = .ok q ∧
      (q.errors ≠ [] ∧ select = none ∧ e.Heard [] c c' ∨
        q.errors = [] ∧ q.Sends e r c c' select) ∧
      (r.run e text).EndsAfter select (fun o => o.result.Consistent ∧
        o.OwesFindings r.collaborators q ∧ o.result.Names select) c c' := by
  obtain ⟨q, c₀, hq, hread, hheard₀⟩ := read_heard e r text c
  by_cases herrors : q.errors = []
  · obtain ⟨select, c₁, hsends, hends⟩ := execute_selects e r q c₀
    -- the log records of the stages come behind everything that is said
    have hsends' : ∀ records, q.Sends e r c { c₁ with records } select := by
      intro records
      have hheard : ∀ {ys : List Exchange}, e.Heard ys c₀ c₁ →
          e.Heard ys c { c₁ with records } := by
        intro ys h
        simpa using (hheard₀.append h).append (.refl e c₁ records)
      cases hsends with
      | stopped hlookups h => exact .stopped hlookups (hheard h)
      | sent hlookups hsql hvalues h => exact .sent hlookups hsql hvalues (hheard h)
    have hfits : ∀ result : ExecutionResult, result.Selected → result.Names select →
        (q.finish r.collaborators result).result.Consistent ∧
          RunOutcome.OwesFindings r.collaborators q ⟨(q.finish r.collaborators result).result,
            (q.finish r.collaborators result).calls⟩ ∧
          (q.finish r.collaborators result).result.Names select := by
      intro result hselected hnames
      obtain ⟨hconsistent, hsql, howes⟩ := Query.finish_consistent r.collaborators q hselected
      exact ⟨hconsistent, howes, hsql.trans hnames.sql, hsql ▸ hnames.sent⟩
    cases select with
    | none =>
      obtain ⟨result, hdoes, hselected, hnames⟩ := hends
      exact ⟨q, none, _, hq, .inr ⟨herrors, hsends' _⟩, _, run_of_executed hread herrors hdoes,
        hfits result hselected hnames⟩
    | some x =>
      rcases hends with ⟨hgarbled, result, hdoes, hselected, hnames⟩ | ⟨hgarbled, hdoes⟩
      · exact ⟨q, some x, _, hq, .inr ⟨herrors, hsends' _⟩, .inl ⟨hgarbled, _,
          run_of_executed hread herrors hdoes, hfits result hselected hnames⟩⟩
      · exact ⟨q, some x, _, hq, .inr ⟨herrors, hsends' c₁.records⟩,
          .inr ⟨hgarbled, run_of_escaped hread herrors hdoes⟩⟩
  · refine ⟨q, none, c₀, hq, .inl ⟨herrors, rfl, hheard₀⟩, _, run_of_errors hread herrors,
      (ExecutionResult.selected_of_error [] _).toConsistent, ?_, ExecutionResult.names_none rfl⟩
    intro findings hfindings
    cases hfindings

/-- **Every outcome is consistent**, whatever the engine, the collaborators and the arguments are,
    and whatever fails. The count of rows and the columns are those of the table; a success has no
    error; only a success has a picture; and findings are those of a miner that was called and has
    returned the table of the outcome with them. The SQL is that of the SELECT statement that was
    sent, and there is none if the statement was not sent: because the text has a syntax error, or
    because a table could not be looked up. No outcome is returned just where the SELECT statement
    has delivered a garbled cell. -/
theorem outcomes_are_consistent (e : Engine σ) (r : Runner) (c : Connection σ) :
    (∀ sql, ∃ x c', x.sql = sql ∧ e.Heard [x] c c' ∧
      (Runner.executeSql e sql).EndsBehind x (fun result => result.Selected ∧ result.sql = sql)
        c c') ∧
    (∀ table columns condition grouping ordering limit, ∃ x c', e.Heard [x] c c' ∧
      (Runner.executeSelect e table columns condition grouping ordering limit).EndsBehind x
        (fun result => result.Selected ∧ result.Names (some x)) c c') ∧
    (∀ q, ∃ select c', q.Sends e r c c' select ∧
      (r.execute e q).EndsAfter select (fun result => result.Selected ∧ result.Names select)
        c c') ∧
    ∀ text, ∃ q select c', Query.ofText r.settings.reading text = .ok q ∧
      (q.errors ≠ [] ∧ select = none ∧ e.Heard [] c c' ∨
        q.errors = [] ∧ q.Sends e r c c' select) ∧
      (r.run e text).EndsAfter select (fun o => o.result.Consistent ∧
        o.OwesFindings r.collaborators q ∧ o.result.Names select) c c' := by
  refine ⟨fun sql => executeSql_selects e sql c, ?_, fun q => execute_selects e r q c,
    fun text => run_consistent e r text c⟩
  intro table columns condition grouping ordering limit
  obtain ⟨x, c', hsql, hheard, hends⟩ := executeSql_selects e (SelectParts.sql
    { columns, tables := [table], grouping, ordering, limit
      condition := if condition.isEmpty then none else some condition }) c
  refine ⟨x, c', hheard, ?_⟩
  let onTable (result : ExecutionResult) : ExecutionResult := { result with tables := [table] }
  have hfits : ∀ result : ExecutionResult, result.Selected ∧ result.sql = _ →
      (onTable result).Selected ∧ (onTable result).Names (some x) :=
    fun result h => ⟨h.1.relabel _ _, ExecutionResult.names_some (h.2.trans hsql.symm)
      (hsql ▸ SelectParts.sql_ne_nil _)⟩
  have hmapped : (onTable <$> Runner.executeSql e _).EndsBehind x
      (fun result => result.Selected ∧ result.Names (some x)) c c' := hends.map hfits
  rwa [← bind_pure_comp] at hmapped

end Calls

end MiningQuery
