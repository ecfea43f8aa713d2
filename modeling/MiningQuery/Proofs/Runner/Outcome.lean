/-
  File:      MiningQuery/Proofs/Runner/Outcome.lean
  Subject:   How the calls of a runner end when a stage fails.

  A failure of the engine, of a miner or of a renderer ends up in the outcome, with its message. One
  failure does not: a statement that succeeds may deliver a cell whose text is not of the type of
  the cell, and the fault of its conversion is not caught.

  * `Cell.Garbled`, `Exchange.Garbled` -- such cells, and the statements that deliver them;
  * `Exchange.table_cases` -- the table of a statement, its failure, or the fault of a garbled cell;
  * `ExecutionResult.Reports`, `Query.Fails` -- the message of the first stage that fails;
  * **`failures_end_in_the_outcome`** -- each of the four calls ends with an outcome that reports
    what has failed, whatever the engine, the collaborators and the arguments are, but for garbled
    cells;
  * `not_every_failure_ends_in_the_outcome` -- an engine with a garbled cell.
-/
import MiningQuery.Proofs.Runner.Protocol

namespace MiningQuery

variable {σ α β : Type}

/-! ## 1. Garbled cells -/

/-- The text of the cell is not of the type that the engine gives it. -/
def Cell.Garbled (c : Cell) : Prop :=
  c.type = .integer ∧ Text.int64? c.text = none ∨ c.type = .float ∧ Binary64.read? c.text = none

/-- The statement succeeds and delivers a garbled cell. -/
def Exchange.Garbled (x : Exchange) : Prop :=
  x.failure = none ∧ ∃ row ∈ x.result.rows, ∃ cell ∈ row, cell.Garbled

theorem Cell.toValue_garbled {c : Cell} (h : c.Garbled) : c.toValue = .error .conversion := by
  unfold toValue
  rcases h with ⟨htype, htext⟩ | ⟨htype, htext⟩
  · rw [htype, htext]
  · rw [htype, htext]

theorem Cell.exists_toValue {c : Cell} (h : ¬ c.Garbled) : ∃ v, c.toValue = .ok v := by
  unfold toValue
  cases htype : c.type with
  | null | text | blob => exact ⟨_, rfl⟩
  | integer =>
    cases htext : Text.int64? c.text with
    | some i => exact ⟨.integer i, rfl⟩
    | none => exact absurd (.inl ⟨htype, htext⟩) h
  | float =>
    cases htext : Binary64.read? c.text with
    | some x => exact ⟨.float x, rfl⟩
    | none => exact absurd (.inr ⟨htype, htext⟩) h

/-- A list is not converted if one of its items is not, and all that fail do so with one fault. -/
theorem mapM_fails {f : α → Except Fault β} {fault : Fault} {xs : List α}
    (hall : ∀ x ∈ xs, (∃ y, f x = .ok y) ∨ f x = .error fault)
    (hone : ∃ x ∈ xs, f x = .error fault) : xs.mapM f = .error fault := by
  induction xs with
  | nil =>
    obtain ⟨x, hx, -⟩ := hone
    cases hx
  | cons x xs ih =>
    obtain ⟨hx, hxs⟩ := List.forall_mem_cons.mp hall
    rw [List.mapM_cons]
    rcases hx with ⟨y, hy⟩ | hfault
    · have hlater : ∃ x ∈ xs, f x = .error fault := by
        obtain ⟨x', hx', hfault⟩ := hone
        rcases List.mem_cons.mp hx' with rfl | hx'
        · rw [hy] at hfault
          cases hfault
        · exact ⟨x', hx', hfault⟩
      rw [hy, ih hxs hlater]
      rfl
    · rw [hfault]
      rfl

theorem materializeRow_garbled {columns : List Text} {row : List Cell}
    (h : ∃ cell ∈ row, cell.Garbled) :
    Table.materializeRow columns row = .error .conversion := by
  have hall : ∀ cell ∈ row, (∃ v, cell.toValue = .ok v) ∨ cell.toValue = .error .conversion := by
    intro cell _
    by_cases hcell : cell.Garbled
    · exact .inr (Cell.toValue_garbled hcell)
    · exact .inl (Cell.exists_toValue hcell)
  obtain ⟨cell, hmem, hcell⟩ := h
  rw [Table.materializeRow, mapM_fails hall ⟨cell, hmem, Cell.toValue_garbled hcell⟩]
  rfl

theorem materializeRow_converts {columns : List Text} {row : List Cell}
    (hlength : row.length = columns.length) (h : ∀ cell ∈ row, ¬ cell.Garbled) :
    ∃ vs, Table.materializeRow columns row = .ok vs := by
  obtain ⟨vs, hvs, hvalues⟩ := mapM_converts fun cell hcell => Cell.exists_toValue (h cell hcell)
  refine ⟨vs, ?_⟩
  rw [Table.materializeRow, hvs]
  exact if_pos (hvalues.trans hlength)

/-! ## 2. One statement -/

section Statement

variable {e : Engine σ} {x : Exchange} {c c' : Connection σ}

/-- What the engine says of a failure, as it is reported. -/
def Exchange.message? (x : Exchange) : Option Text :=
  x.failure.map fun message => ascii "Sqlite3 Error: " ++ Text.untilZero message

/-- **A statement fails, or it gives a table, or it has delivered a garbled cell**: the three
    exclude each other. -/
theorem Engine.Heard.table_eq (h : e.Heard [x] c c') :
    (x.Garbled ∧ x.message? = none ∧ x.table = .error .conversion) ∨
      (¬ x.Garbled ∧ x.message? = none ∧ ∃ t, x.table = .ok t) ∨
        ∃ fault message, ¬ x.Garbled ∧ x.message? = some message ∧ x.table = .error fault ∧
          fault.message? = some message := by
  have hrows : ∀ row ∈ x.result.rows, row.length = x.result.columns.length := by
    cases h.engine with
    | cons hx _ =>
      have hlength := exchange_rows_length e x.sql x.values c.engine
      rwa [hx] at hlength
  unfold Exchange.table Exchange.outcome Exchange.message? Exchange.Garbled
  cases hfailure : x.failure with
  | some message =>
    refine .inr (.inr ⟨_, _, fun hgarbled => ?_, rfl, rfl, rfl⟩)
    cases hgarbled.1
  | none =>
    have hrow : ∀ row ∈ x.result.rows,
        (∃ vs, Table.materializeRow x.result.columns row = .ok vs) ∨
          Table.materializeRow x.result.columns row = .error .conversion := by
      intro row hmem
      by_cases hcell : ∃ cell ∈ row, cell.Garbled
      · exact .inr (materializeRow_garbled hcell)
      · refine .inl (materializeRow_converts (hrows row hmem) fun cell hcell' hgarbled => ?_)
        exact hcell ⟨cell, hcell', hgarbled⟩
    by_cases hgarbled : ∃ row ∈ x.result.rows, ∃ cell ∈ row, cell.Garbled
    · obtain ⟨row, hmem, hcell⟩ := hgarbled
      refine .inl ⟨⟨rfl, row, hmem, hcell⟩, rfl, ?_⟩
      dsimp only
      rw [Table.ofResult, mapM_fails hrow ⟨row, hmem, materializeRow_garbled hcell⟩]
      rfl
    · have hall : ∀ row ∈ x.result.rows,
          ∃ vs, Table.materializeRow x.result.columns row = .ok vs := by
        intro row hmem
        refine materializeRow_converts (hrows row hmem) fun cell hcell hgarbled' => ?_
        exact hgarbled ⟨row, hmem, cell, hcell, hgarbled'⟩
      obtain ⟨rows, hconverted, -⟩ := mapM_converts hall
      refine .inr (.inl ⟨fun h => hgarbled h.2, rfl, ⟨x.result.columns, rows⟩, ?_⟩)
      dsimp only
      rw [Table.ofResult, hconverted]
      rfl

end Statement

/-! ## 3. Outcomes that report -/

/-- The outcome is a success exactly if nothing fails, and tells what fails otherwise. -/
structure ExecutionResult.Reports (r : ExecutionResult) (fails : Text → Prop) : Prop where
  success : r.success = true ↔ ∀ message, ¬ fails message
  error : r.success = false → fails r.error
  silent : r.success = true → r.error = []

/-- The statement fails with a message. -/
def Exchange.Fails (x : Exchange) (message : Text) : Prop := x.message? = some message

/-- The outcome reports a failure of the statement, and has its table if there is none. -/
structure ExecutionResult.Tells (r : ExecutionResult) (x : Exchange) : Prop where
  reports : r.Reports x.Fails
  table : r.table? = x.table.toOption

/-- Behind a statement a call ends with an outcome that fits; but if the statement has delivered a
    garbled cell, the fault of its conversion ends the call. -/
def Access.EndsBehind (m : Access σ α) (x : Exchange) (Fits : α → Prop) (c c' : Connection σ) :
    Prop :=
  (¬ x.Garbled ∧ ∃ a, m.Does c (.ok a) c' ∧ Fits a) ∨ x.Garbled ∧ m.Does c (.error .conversion) c'

/-- A call that looks up the tables of a query and then sends its statement ends with an outcome
    that reports a lookup that fails, or behind the statement, with one that fits it. -/
def Access.EndsFor (m : Access σ α) (e : Engine σ) (r : Runner) (q : Query)
    (result : α → ExecutionResult) (Fits : Exchange → α → Prop) (c c' : Connection σ) : Prop :=
  ∃ xs o, Lookups r.settings.separator q.database q.tables xs o ∧
    ((∃ fault a, o = .error fault ∧ e.Heard xs c c' ∧ m.Does c (.ok a) c' ∧
        (result a).Reports fun message => fault.message? = some message) ∨
      ∃ names x, o = .ok names ∧ x.sql = (q.selectParts names).sql ∧ x.values = [] ∧
        e.Heard (xs ++ [x]) c c' ∧ m.EndsBehind x (Fits x) c c')

namespace ExecutionResult

variable {r : ExecutionResult} {fails fails' : Text → Prop} {message : Text}

theorem reports_of_success (hsuccess : r.success = true) (herror : r.error = [])
    (h : ∀ message, ¬ fails message) : r.Reports fails where
  success := ⟨fun _ => h, fun _ => hsuccess⟩
  error hfailure := absurd (hfailure.symm.trans hsuccess) Bool.false_ne_true
  silent _ := herror

theorem reports_of_failure (hsuccess : r.success = false) (h : fails r.error) :
    r.Reports fails where
  success := ⟨fun htrue => absurd (hsuccess.symm.trans htrue) Bool.false_ne_true,
    fun hnone => absurd h (hnone r.error)⟩
  error _ := h
  silent htrue := absurd (hsuccess.symm.trans htrue) Bool.false_ne_true

/-- Only what fails counts, not how it is said. -/
theorem Reports.congr (h : r.Reports fails) (heq : ∀ message, fails message ↔ fails' message) :
    r.Reports fails' where
  success := h.success.trans (forall_congr' fun message => not_congr (heq message))
  error hfailure := (heq _).mp (h.error hfailure)
  silent := h.silent

end ExecutionResult

section Select

variable {e : Engine σ} {c c' : Connection σ} {x : Exchange} {m : Access σ α}
  {Fits : α → Prop} {Fits' : β → Prop}

/-- What a call does with its outcome behind the statement. -/
theorem Access.EndsBehind.map {f : α → β} (h : m.EndsBehind x Fits c c')
    (hf : ∀ a, Fits a → Fits' (f a)) : (f <$> m).EndsBehind x Fits' c c' := by
  rcases h with ⟨hgarbled, a, hdoes, ha⟩ | ⟨hgarbled, hdoes⟩
  · exact .inl ⟨hgarbled, f a, hdoes.map, hf a ha⟩
  · exact .inr ⟨hgarbled, hdoes.map⟩

/-- **Sending a statement** ends with an outcome that tells of it, but for garbled cells. -/
theorem executeSql_ends (e : Engine σ) (sql : Text) (c : Connection σ) :
    ∃ x c', x.sql = sql ∧ x.values = [] ∧ e.Heard [x] c c' ∧
      (Runner.executeSql e sql).EndsBehind x (·.Tells x) c c' := by
  obtain ⟨x, c', hdoes, hsql, hvalues, hheard⟩ := fetch_heard e sql c
  have hcases := hheard.table_eq
  rcases hcases with ⟨hgarbled, -, htable⟩ | ⟨hgarbled, hmessage, t, htable⟩ |
    ⟨fault, message, hgarbled, hmessage, htable, hfault⟩
  · rw [htable] at hdoes
    exact ⟨x, c', hsql, hvalues, hheard, .inr ⟨hgarbled, hdoes.bind_error.tryCatch_error rfl⟩⟩
  · rw [htable] at hdoes
    let r := ({ success := true, sql } : ExecutionResult).withTable t
    have hpure : (pure r : Access σ ExecutionResult).Does c' (.ok r) c' := .pure r
    refine ⟨x, c', hsql, hvalues, hheard, .inl ⟨hgarbled, r, (hdoes.bind hpure).tryCatch, ?_⟩⟩
    refine ⟨ExecutionResult.reports_of_success rfl rfl fun message h => ?_, ?_⟩
    · rw [Exchange.Fails, hmessage] at h
      cases h
    · rw [htable]
      rfl
  · rw [htable] at hdoes
    let c'' : Connection σ :=
      { c' with records := c'.records ++ [.error (ascii "Query failed: " ++ message)] }
    have hcaught : (Runner.executeSql e sql).Does c
        (.ok ({ sql, error := message } : ExecutionResult)) c'' := by
      refine hdoes.bind_error.tryCatch_error ?_
      rw [hfault]
      rfl
    refine ⟨x, c'', hsql, hvalues, hheard.append (.refl e c' _), .inl ⟨hgarbled, _, hcaught, ?_⟩⟩
    refine ⟨ExecutionResult.reports_of_failure rfl hmessage, ?_⟩
    rw [htable]
    rfl

/-- **A query is looked up, and sent if no lookup fails**: the outcome reports a lookup that fails,
    and tells of the statement otherwise, but for garbled cells. -/
theorem execute_ends (e : Engine σ) (r : Runner) (q : Query) (c : Connection σ) :
    ∃ c', (r.execute e q).EndsFor e r q id (fun x result => result.Tells x) c c' := by
  obtain ⟨xs, o, c', hdoes, hlookups, hheard⟩ := translate_heard e r q c
  cases o with
  | error fault =>
    obtain ⟨message, rfl⟩ := hlookups.engine_of_error rfl
    exact ⟨c', xs, _, hlookups, .inl ⟨_, _, rfl, hheard, execute_of_refused hdoes,
      ExecutionResult.reports_of_failure rfl rfl⟩⟩
  | ok names =>
    obtain ⟨x, c'', hsql, hvalues, hheard', hends⟩ :=
      executeSql_ends e (q.selectParts names).sql c'
    refine ⟨c'', xs, .ok names, hlookups,
      .inr ⟨names, x, rfl, hsql, hvalues, hheard.append hheard', ?_⟩⟩
    rcases hends with ⟨hgarbled, result, hdoes', htells⟩ | ⟨hgarbled, hdoes'⟩
    · exact .inl ⟨hgarbled, _, execute_of_translated hdoes hdoes',
        ⟨⟨htells.reports.success, htells.reports.error, htells.reports.silent⟩, htells.table⟩⟩
    · exact .inr ⟨hgarbled, execute_of_translated hdoes hdoes'⟩

end Select

/-! ## 4. Stages behind the SELECT statement -/

/-- Why a stage behind the SELECT statement fails that has given a table, and with which message. -/
inductive Query.Fails (c : Collaborators) (q : Query) (t : Table) : Text → Prop
  | noRows {operation : MiningOperation} : q.mining = some operation → t.rowCount = 0 →
      Fails c q t (ascii "No data returned from query")
  | noMiner {operation : MiningOperation} : q.mining = some operation → t.rowCount ≠ 0 →
      c.miner = none →
      Fails c q t (ascii "No mining collaborator registered for " ++ operation.kind.name)
  | miner {operation : MiningOperation} {miner : Miner} {message : Text} :
      q.mining = some operation → t.rowCount ≠ 0 → c.miner = some miner →
      miner t operation = .error message → Fails c q t (Text.untilZero message)
  | noRenderer {mined : Table} : q.mined? c t = some mined →
      q.displayType ≠ Query.plainDisplay → c.renderer = none →
      Fails c q t (ascii "No visualization collaborator registered for display type " ++
        Text.quoted q.displayType)
  | renderer {mined : Table} {renderer : Renderer} {message : Text} :
      q.mined? c t = some mined → q.displayType ≠ Query.plainDisplay →
      c.renderer = some renderer → renderer mined q.displayType = .error message →
      Fails c q t (Text.untilZero message)

section Stages

variable {c : Collaborators} {q : Query} {r : ExecutionResult} {t : Table}

/-- The mining stage gives the table of the miner, or a message why there is none. -/
theorem Query.mineStage_cases (c : Collaborators) (q : Query) (hsuccess : r.success = true)
    (herror : r.error = []) (htable : r.table = t) :
    (∃ mined, q.mined? c t = some mined ∧ (q.mineStage c r).result.success = true ∧
        (q.mineStage c r).result.error = [] ∧ (q.mineStage c r).result.table = mined) ∨
      (q.mineStage c r).result.success = false ∧ q.Fails c t (q.mineStage c r).result.error := by
  subst htable
  unfold mineStage StageOutcome.andThen
  cases hmining : q.mining with
  | none => exact .inl ⟨r.table, by simp [mined?, hmining], hsuccess, herror, rfl⟩
  | some operation =>
    simp only [hsuccess, if_true]
    unfold ExecutionResult.mine
    by_cases hrows : r.table.rowCount = 0
    · rw [if_pos hrows]
      exact .inr ⟨rfl, .noRows hmining hrows⟩
    · rw [if_neg hrows]
      cases hminer : c.miner with
      | none => exact .inr ⟨rfl, .noMiner hmining hrows hminer⟩
      | some miner =>
        dsimp only
        cases hmined : miner r.table operation with
        | ok outcome =>
          refine .inl ⟨outcome.table, ?_, hsuccess, herror, rfl⟩
          simp [mined?, hmining, hminer, hrows, hmined, Except.toOption]
        | error message => exact .inr ⟨rfl, .miner hmining hrows hminer hmined⟩

/-- Nothing fails if there is a table behind the mining stage and it can be shown. -/
theorem Query.not_fails {mined : Table} (hmined : q.mined? c t = some mined)
    (hshows : q.Shows c mined) (message : Text) : ¬ q.Fails c t message := by
  intro h
  cases h with
  | noRows hmining hrows =>
    cases hminer : c.miner <;> simp [mined?, hmining, hminer, hrows] at hmined
  | noMiner hmining hrows hminer => simp [mined?, hmining, hminer] at hmined
  | miner hmining hrows hminer hrefused =>
    simp [mined?, hmining, hminer, hrows, hrefused, Except.toOption] at hmined
  | noRenderer _ hplain hrenderer =>
    rcases hshows with hshown | ⟨renderer, picture, hsome, -⟩
    · exact hplain hshown
    · rw [hrenderer] at hsome
      cases hsome
  | renderer hmined' hplain hrenderer hrefused =>
    obtain rfl := Option.some.inj (hmined.symm.trans hmined')
    rcases hshows with hshown | ⟨renderer, picture, hsome, hdrawn⟩
    · exact hplain hshown
    · obtain rfl := Option.some.inj (hrenderer.symm.trans hsome)
      rw [hrefused] at hdrawn
      cases hdrawn

/-- **The stages behind the SELECT statement report what fails in them.** -/
theorem Query.finish_reports (c : Collaborators) (q : Query) (hsuccess : r.success = true)
    (herror : r.error = []) (htable : r.table = t) :
    (q.finish c r).result.Reports (q.Fails c t) := by
  rw [Query.finish_eq]
  have hcases := Query.mineStage_cases c q hsuccess herror htable
  generalize q.mineStage c r = o at hcases
  unfold StageOutcome.andThen
  rcases hcases with ⟨mined, hmined, hmsuccess, hmerror, rfl⟩ | ⟨hfailure, hfails⟩
  · rw [if_pos hmsuccess]
    dsimp only
    unfold ExecutionResult.display
    by_cases hplain : q.displayType = Query.plainDisplay
    · rw [if_pos hplain]
      exact ExecutionResult.reports_of_success hmsuccess hmerror
        (Query.not_fails hmined (.inl hplain))
    · rw [if_neg hplain]
      cases hrenderer : c.renderer with
      | none => exact ExecutionResult.reports_of_failure rfl (.noRenderer hmined hplain hrenderer)
      | some renderer =>
        dsimp only
        cases hdrawn : renderer o.result.table q.displayType with
        | ok picture =>
          exact ExecutionResult.reports_of_success hmsuccess hmerror
            (Query.not_fails hmined (.inr ⟨renderer, picture, hrenderer, hdrawn⟩))
        | error message =>
          exact ExecutionResult.reports_of_failure rfl (.renderer hmined hplain hrenderer hdrawn)
  · rw [if_neg (by rw [hfailure]; exact Bool.false_ne_true)]
    exact ExecutionResult.reports_of_failure hfailure hfails

/-- An outcome that is a failure is left as it is. -/
theorem Query.finish_of_failure (c : Collaborators) (q : Query) (h : r.success = false) :
    (q.finish c r).result = r := by
  unfold Query.finish StageOutcome.andThen
  cases q.mining <;> simp [h]

/-- What fails in a query that has sent its statement: the statement, or a stage behind it. -/
def Query.FailsBehind (c : Collaborators) (q : Query) (x : Exchange) (message : Text) : Prop :=
  x.Fails message ∨ ∃ t, x.table = .ok t ∧ q.Fails c t message

/-- The stages go on with an outcome that tells of the statement, and report what fails first. -/
theorem Query.finish_tells {x : Exchange} (h : r.Tells x) :
    (q.finish c r).result.Reports (q.FailsBehind c x) := by
  cases hsuccess : r.success with
  | true =>
    have htable : x.table = .ok r.table := by
      have hsome := h.table
      rw [ExecutionResult.table?, if_pos hsuccess] at hsome
      cases hx : x.table with
      | error fault =>
        rw [hx] at hsome
        cases hsome
      | ok t =>
        rw [hx] at hsome
        rw [Option.some.inj hsome]
    have hfine := h.reports.success.mp hsuccess
    have hreports := Query.finish_reports c q hsuccess (h.reports.silent hsuccess) rfl
    refine hreports.congr fun message => ?_
    constructor
    · exact fun hfails => .inr ⟨r.table, htable, hfails⟩
    · rintro (hfails | ⟨t, ht, hfails⟩)
      · exact absurd hfails (hfine message)
      · rw [htable] at ht
        exact Except.ok.inj ht ▸ hfails
  | false =>
    rw [Query.finish_of_failure c q hsuccess]
    exact ExecutionResult.reports_of_failure hsuccess (.inl (h.reports.error hsuccess))

end Stages

/-! ## 5. The four calls -/

section Calls

variable {e : Engine σ}

section Run

variable {r : Runner} {text : Text} {q : Query} {c c₀ c₁ : Connection σ}

/-- Of a text with errors the outcome has the errors. -/
theorem run_of_errors (hread : (r.read text : Access σ Query).Does c (.ok q) c₀)
    (herrors : q.errors ≠ []) :
    (r.run e text).Does c
      (.ok { result := .failure (Text.join (ascii "\n") q.errors) }) c₀ := by
  have hhas : q.hasErrors = true := by simpa [Query.hasErrors] using herrors
  refine hread.bind ?_
  rw [if_pos hhas]
  exact .pure _

/-- Behind a query that is sent come its stages, and their log records. -/
theorem run_of_executed {result : ExecutionResult}
    (hread : (r.read text : Access σ Query).Does c (.ok q) c₀) (herrors : q.errors = [])
    (hexecute : (r.execute e q).Does c₀ (.ok result) c₁) :
    (r.run e text).Does c
      (.ok ⟨(q.finish r.collaborators result).result, (q.finish r.collaborators result).calls⟩)
      { c₁ with records := c₁.records ++ (q.finish r.collaborators result).records } := by
  have hnone : ¬ q.hasErrors = true := by simp [Query.hasErrors, herrors]
  refine hread.bind ?_
  rw [if_neg hnone]
  exact hexecute.bind rfl

/-- A fault that is not caught ends the run, too. -/
theorem run_of_escaped {fault : Fault}
    (hread : (r.read text : Access σ Query).Does c (.ok q) c₀) (herrors : q.errors = [])
    (hexecute : (r.execute e q).Does c₀ (.error fault) c₁) :
    (r.run e text).Does c (.error fault) c₁ := by
  have hnone : ¬ q.hasErrors = true := by simp [Query.hasErrors, herrors]
  refine hread.bind ?_
  rw [if_neg hnone]
  exact hexecute.bind_error

end Run

/-- **A text is taken through all stages**: the outcome reports its syntax errors if it has any, a
    lookup that fails, or what fails first from the statement on, but for garbled cells. -/
theorem run_ends (e : Engine σ) (r : Runner) (text : Text) (c : Connection σ) :
    ∃ q c', Query.ofText r.settings.reading text = .ok q ∧
      ((q.errors ≠ [] ∧ e.Heard [] c c' ∧ ∃ outcome, (r.run e text).Does c (.ok outcome) c' ∧
          outcome.result.Reports (· = Text.join (ascii "\n") q.errors)) ∨
        q.errors = [] ∧ (r.run e text).EndsFor e r q (·.result)
          (fun x outcome => outcome.result.Reports (q.FailsBehind r.collaborators x)) c c') := by
  obtain ⟨q, c₀, hq, hread, hheard₀⟩ := read_heard e r text c
  by_cases herrors : q.errors = []
  · obtain ⟨c₁, xs, o, hlookups, hcases⟩ := execute_ends e r q c₀
    let finished (result : ExecutionResult) : RunOutcome :=
      ⟨(q.finish r.collaborators result).result, (q.finish r.collaborators result).calls⟩
    let noted (result : ExecutionResult) : Connection σ :=
      { c₁ with records := c₁.records ++ (q.finish r.collaborators result).records }
    have hsaid : ∀ {ys : List Exchange} (result : ExecutionResult), e.Heard ys c₀ c₁ →
        e.Heard ys c (noted result) := by
      intro ys result h
      simpa using (hheard₀.append h).append (.refl e c₁ _)
    rcases hcases with ⟨fault, result, ho, hheard, hdoes, hreports⟩ |
      ⟨names, x, ho, hsql, hvalues, hheard, ⟨hgarbled, result, hdoes, htells⟩ | ⟨hgarbled, hdoes⟩⟩
    · have hfailure : result.success = false := by
        obtain ⟨message, rfl⟩ := hlookups.engine_of_error ho
        by_contra hsuccess
        exact hreports.success.mp (Bool.of_not_eq_false hsuccess) _ rfl
      refine ⟨q, noted result, hq, .inr ⟨herrors, xs, o, hlookups,
        .inl ⟨fault, finished result, ho, hsaid result hheard,
          run_of_executed hread herrors hdoes, ?_⟩⟩⟩
      show (q.finish r.collaborators result).result.Reports _
      rw [Query.finish_of_failure _ _ hfailure]
      exact hreports
    · exact ⟨q, noted result, hq, .inr ⟨herrors, xs, o, hlookups,
        .inr ⟨names, x, ho, hsql, hvalues, hsaid result hheard,
          .inl ⟨hgarbled, finished result, run_of_executed hread herrors hdoes,
            Query.finish_tells htells⟩⟩⟩⟩
    · refine ⟨q, c₁, hq, .inr ⟨herrors, xs, o, hlookups,
        .inr ⟨names, x, ho, hsql, hvalues, ?_,
          .inr ⟨hgarbled, run_of_escaped hread herrors hdoes⟩⟩⟩⟩
      simpa using hheard₀.append hheard
  · exact ⟨q, c₀, hq, .inl ⟨herrors, hheard₀, _, run_of_errors hread herrors,
      ExecutionResult.reports_of_failure rfl rfl⟩⟩

/-- **Failures end up in the outcome.** Whatever the engine, the collaborators and the arguments
    are, each call of a runner ends with an outcome. It is a success exactly if nothing fails, and
    has the message of a stage that fails otherwise: of the syntax errors, of a lookup, of the
    statement, of mining or of display. One fault is not caught: that of a garbled cell, delivered
    by the SELECT statement. -/
theorem failures_end_in_the_outcome (e : Engine σ) (r : Runner) (c : Connection σ) :
    (∀ sql, ∃ x c', x.sql = sql ∧ x.values = [] ∧ e.Heard [x] c c' ∧
      (Runner.executeSql e sql).EndsBehind x (·.Tells x) c c') ∧
    (∀ table columns condition grouping ordering limit, ∃ x c', x.values = [] ∧ e.Heard [x] c c' ∧
      (Runner.executeSelect e table columns condition grouping ordering limit).EndsBehind x
        (·.Tells x) c c') ∧
    (∀ q, ∃ c', (r.execute e q).EndsFor e r q id (fun x result => result.Tells x) c c') ∧
    ∀ text, ∃ q c', Query.ofText r.settings.reading text = .ok q ∧
      ((q.errors ≠ [] ∧ e.Heard [] c c' ∧ ∃ outcome, (r.run e text).Does c (.ok outcome) c' ∧
          outcome.result.Reports (· = Text.join (ascii "\n") q.errors)) ∨
        q.errors = [] ∧ (r.run e text).EndsFor e r q (·.result)
          (fun x outcome => outcome.result.Reports (q.FailsBehind r.collaborators x)) c c') := by
  refine ⟨fun sql => executeSql_ends e sql c, ?_, fun q => execute_ends e r q c,
    fun text => run_ends e r text c⟩
  intro table columns condition grouping ordering limit
  obtain ⟨x, c', -, hvalues, hheard, hends⟩ := executeSql_ends e (SelectParts.sql
    { columns, tables := [table], grouping, ordering, limit
      condition := if condition.isEmpty then none else some condition }) c
  refine ⟨x, c', hvalues, hheard, ?_⟩
  let onTable (result : ExecutionResult) : ExecutionResult := { result with tables := [table] }
  have htells : ∀ result : ExecutionResult, result.Tells x → (onTable result).Tells x :=
    fun result h => ⟨⟨h.reports.success, h.reports.error, h.reports.silent⟩, h.table⟩
  have hmapped : (onTable <$> Runner.executeSql e _).EndsBehind x (·.Tells x) c c' :=
    hends.map htells
  rwa [← bind_pure_comp] at hmapped

/-- An engine whose one cell is called an integer and is none. -/
def Engine.garbling : Engine Unit where
  openDatabase _ s := (.ok (), s)
  prepare sql s := (.ok (some ⟨sql, [ascii "n"], 0⟩), s)
  bind _ _ s := (.ok (), s)
  execute _ _ s := (⟨[[⟨.integer, ascii "abc"⟩]], none⟩, s)
  rollback s := s

/-- A garbled cell ends the call without an outcome. -/
theorem not_every_failure_ends_in_the_outcome :
    ¬ ∀ (e : Engine Unit) (sql : Text) (c : Connection Unit),
      ∃ result c', (Runner.executeSql e sql).Does c (.ok result) c' := by
  intro h
  obtain ⟨result, c', hdoes⟩ := h Engine.garbling (ascii "SELECT n FROM t") { engine := () }
  have hends : ((Runner.executeSql Engine.garbling (ascii "SELECT n FROM t")).run.run
      { engine := () }).1 = .error .conversion := by decide +kernel
  unfold Access.Does at hdoes
  rw [hdoes] at hends
  cases hends

end Calls

end MiningQuery
