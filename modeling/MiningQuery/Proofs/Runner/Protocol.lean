/-
  File:      MiningQuery/Proofs/Runner/Protocol.lean
  Subject:   The stages of a statement, and what each of them needs.

  * `Engine.CellsConvert` -- the texts of cells are of the types that the engine gives them;
  * `Query.mined?` -- the table behind the mining stage;
  * `RunOutcome.Follows` -- who is called, with what, and what counts as a success;
  * `finish_follows` -- the stages behind the SELECT statement;
  * **`run_follows_protocol`** -- a text with a syntax error reaches nobody; any other is looked up,
    sent once, mined and rendered, as far as each stage succeeds.
-/
import MiningQuery.Proofs.Query.Reduction
import MiningQuery.Proofs.Runner.Exchange

namespace MiningQuery

variable {σ α β : Type}

/-! ## 1. Tables of results -/

/-- Every cell that the engine delivers has a text of its type. -/
def Engine.CellsConvert (e : Engine σ) : Prop :=
  ∀ p parameters s, ∀ row ∈ (e.execute p parameters s).1.rows, ∀ cell ∈ row,
    ∃ v, cell.toValue = .ok v

/-- A list is converted if each of its items is. -/
theorem mapM_converts {f : α → Except Fault β} {xs : List α} (h : ∀ x ∈ xs, ∃ y, f x = .ok y) :
    ∃ ys, xs.mapM f = .ok ys ∧ ys.length = xs.length := by
  induction xs with
  | nil => exact ⟨[], rfl, rfl⟩
  | cons x xs ih =>
    obtain ⟨hx, hxs⟩ := List.forall_mem_cons.mp h
    obtain ⟨y, hy⟩ := hx
    obtain ⟨ys, hys, hlength⟩ := ih hxs
    refine ⟨y :: ys, ?_, by rw [List.length_cons, List.length_cons, hlength]⟩
    simp only [List.mapM_cons, hy, hys]
    rfl

section Tables

variable {e : Engine σ} {x : Exchange} {s s' : σ} {sql : Text} {values : List Text}

/-- A row that is filled up has cells that convert, one for every column. -/
theorem materializeRow_fit {columns : List Text} {row : List Cell}
    (h : ∀ cell ∈ row, ∃ v, cell.toValue = .ok v) :
    ∃ vs, Table.materializeRow columns (Cell.fit columns.length row) = .ok vs := by
  have hcells : ∀ cell ∈ Cell.fit columns.length row, ∃ v, cell.toValue = .ok v := by
    intro cell hcell
    rcases List.mem_append.mp hcell with hcell | hcell
    · exact h cell (List.mem_of_mem_take hcell)
    · obtain rfl := List.eq_of_mem_replicate hcell
      exact ⟨.null, rfl⟩
  obtain ⟨vs, hvs, hlength⟩ := mapM_converts hcells
  rw [Cell.length_fit] at hlength
  refine ⟨vs, ?_⟩
  rw [Table.materializeRow, hvs]
  exact if_pos hlength

/-- **The result of a statement is a table.** -/
theorem Engine.CellsConvert.table (he : e.CellsConvert)
    (hx : e.exchange sql values s = (x, s')) : ∃ t, Table.ofResult x.result = .ok t := by
  have hempty : ∀ columns : List Text, ∃ t, Table.ofResult ⟨columns, []⟩ = .ok t :=
    fun columns => ⟨⟨columns, []⟩, rfl⟩
  unfold Engine.exchange Engine.perform at hx
  split at hx
  · obtain ⟨rfl, -⟩ := Prod.mk.inj hx
    exact hempty []
  · obtain ⟨rfl, -⟩ := Prod.mk.inj hx
    exact hempty []
  · rename_i p s₁ _
    split at hx
    · obtain ⟨rfl, -⟩ := Prod.mk.inj hx
      exact hempty _
    · rename_i s₂ _
      obtain ⟨rfl, -⟩ := Prod.mk.inj hx
      have hrows : ∀ row ∈ (e.execute p (p.fill values) s₂).1.rows.map
          (Cell.fit p.columnNames.length),
          ∃ vs, Table.materializeRow p.columnNames row = .ok vs := by
        intro row hrow
        obtain ⟨row', hrow', rfl⟩ := List.mem_map.mp hrow
        exact materializeRow_fit (he p (p.fill values) s₂ row' hrow')
      obtain ⟨rows, hrows, -⟩ := mapM_converts hrows
      refine ⟨⟨p.columnNames, rows⟩, ?_⟩
      simp only [Table.ofResult, hrows]
      rfl

end Tables

/-! ## 2. SELECT statements -/

/-- The table that a statement gives. -/
def Exchange.table (x : Exchange) : Except Fault Table :=
  match x.outcome with
  | .ok _ => Table.ofResult x.result
  | .error fault => .error fault

/-- The table of an outcome that is a success. -/
def ExecutionResult.table? (r : ExecutionResult) : Option Table :=
  if r.success then some r.table else none

section Select

variable {e : Engine σ} {c c' : Connection σ} {x : Exchange} {xs : List Exchange}

theorem fetch_heard (e : Engine σ) (sql : Text) (c : Connection σ) :
    ∃ x c', (Runner.fetch e sql).Does c x.table c' ∧ x.sql = sql ∧ x.values = [] ∧
      e.Heard [x] c c' := by
  obtain ⟨x, c', hdoes, hsql, hvalues, hresult, hheard⟩ := queryWith_heard e sql [] c
  refine ⟨x, c', ?_, hsql, hvalues, hheard⟩
  unfold Exchange.table
  cases houtcome : x.outcome with
  | error fault =>
    rw [houtcome] at hdoes
    exact hdoes.bind_error
  | ok _ =>
    rw [houtcome] at hdoes
    refine hdoes.bind (Access.Does.result.bind ?_)
    rw [hresult]
    cases Table.ofResult x.result with
    | ok t => exact .pure t
    | error fault => rfl

/-- If its cells convert, a statement fails with an error of the engine only. -/
theorem Engine.Heard.table_cases (he : e.CellsConvert) (h : e.Heard [x] c c') :
    (∃ t, x.table = .ok t) ∨ ∃ message, x.table = .error (.engine message) := by
  unfold Exchange.table Exchange.outcome
  cases x.failure with
  | some message => exact .inr ⟨_, rfl⟩
  | none =>
    cases h.engine with
    | cons hx _ =>
      obtain ⟨t, ht⟩ := he.table hx
      exact .inl ⟨t, ht⟩

/-- **A statement that is sent always has an outcome**, a success exactly if it gives a table. -/
theorem executeSql_heard (he : e.CellsConvert) (sql : Text) (c : Connection σ) :
    ∃ x r c', (Runner.executeSql e sql).Does c (.ok r) c' ∧ x.sql = sql ∧ x.values = [] ∧
      r.table? = x.table.toOption ∧ e.Heard [x] c c' := by
  obtain ⟨x, c', hdoes, hsql, hvalues, hheard⟩ := fetch_heard e sql c
  rcases hheard.table_cases he with ⟨t, ht⟩ | ⟨message, hmessage⟩
  · rw [ht] at hdoes
    let r := ({ success := true, sql } : ExecutionResult).withTable t
    have hpure : (pure r : Access σ ExecutionResult).Does c' (.ok r) c' := .pure r
    refine ⟨x, r, c', (hdoes.bind hpure).tryCatch, hsql, hvalues, ?_, hheard⟩
    rw [ht]
    rfl
  · rw [hmessage] at hdoes
    refine ⟨x, _, _, hdoes.bind_error.tryCatch_error rfl, hsql, hvalues, ?_,
      hheard.append (.refl e c' _)⟩
    rw [hmessage]
    rfl

/-- A lookup fails with an error of the engine only. -/
theorem Exchange.engine_of_found {fault : Fault} (h : x.found = .error fault) :
    ∃ message, fault = .engine message := by
  unfold Exchange.found Exchange.outcome at h
  cases hfailure : x.failure with
  | none =>
    rw [hfailure] at h
    cases h
  | some message =>
    rw [hfailure] at h
    cases h
    exact ⟨_, rfl⟩

theorem Lookups.engine_of_error {separator database : Text} {tables : List Text} {fault : Fault}
    {o : Except Fault (List Text)} (h : Lookups separator database tables xs o)
    (ho : o = .error fault) : ∃ message, fault = .engine message := by
  have hmap : ∀ {α β : Type} {f : α → β} {r : Except Fault α},
      r.map f = .error fault → r = .error fault := by
    intro α β f r h
    cases r with
    | ok a => cases h
    | error fault' =>
      cases h
      rfl
  have hlookup : ∀ {table : Text} {ys : List Exchange} {o : Except Fault Text},
      Lookup separator database table ys o → o = .error fault →
      ∃ message, fault = .engine message := by
    intro table ys o h ho
    cases h with
    | bare | unqualified => exact Exchange.engine_of_found (hmap ho)
    | qualified => cases ho
    | failed _ _ hfound =>
      cases ho
      exact Exchange.engine_of_found hfound
  induction h with
  | done => cases ho
  | next _ _ ih => exact ih (hmap ho)
  | failed h =>
    cases ho
    exact hlookup h rfl

/-- A query whose tables cannot be looked up is not sent. -/
theorem execute_of_refused {r : Runner} {q : Query} {message : Text}
    (h : (r.translate e q).Does c (.error (.engine message)) c') :
    (r.execute e q).Does c (.ok (.failure (ascii "Sqlite3 Error: " ++ message))) c' := by
  let refused : Except Text Text := .error (ascii "Sqlite3 Error: " ++ message)
  refine Access.Does.bind (a := refused) ?_ (.pure _)
  exact Access.Does.tryCatch_error h.map rfl

/-- A query whose tables are looked up is sent, and its outcome is given its database and tables. -/
theorem execute_of_translated {r : Runner} {q : Query} {sql : Text} {c'' : Connection σ}
    {o : Except Fault ExecutionResult} (h : (r.translate e q).Does c (.ok sql) c')
    (h' : (Runner.executeSql e sql).Does c' o c'') :
    (r.execute e q).Does c
      (o.map fun result => { result with database := q.database, tables := q.tables }) c'' := by
  cases o with
  | ok result => exact (Access.Does.tryCatch h.map).bind (h'.bind (.pure _))
  | error fault => exact (Access.Does.tryCatch h.map).bind h'.bind_error

/-- **A query is looked up, and sent if no lookup fails.** -/
theorem execute_heard (he : e.CellsConvert) (r : Runner) (q : Query) (c : Connection σ) :
    ∃ xs o result c', (r.execute e q).Does c (.ok result) c' ∧
      Lookups r.settings.separator q.database q.tables xs o ∧
      ((∃ fault, o = .error fault ∧ e.Heard xs c c' ∧ result.table? = none) ∨
        ∃ names x, o = .ok names ∧ x.sql = (q.selectParts names).sql ∧ x.values = [] ∧
          e.Heard (xs ++ [x]) c c' ∧ result.table? = x.table.toOption) := by
  obtain ⟨xs, o, c', hdoes, hlookups, hheard⟩ := translate_heard e r q c
  cases o with
  | error fault =>
    obtain ⟨message, rfl⟩ := hlookups.engine_of_error rfl
    let result := ExecutionResult.failure (ascii "Sqlite3 Error: " ++ message)
    exact ⟨xs, .error (.engine message), result, c', execute_of_refused hdoes, hlookups,
      .inl ⟨_, rfl, hheard, rfl⟩⟩
  | ok names =>
    obtain ⟨x, result, c'', hdoes', hsql, hvalues, htable, hheard'⟩ :=
      executeSql_heard he (q.selectParts names).sql c'
    exact ⟨xs, .ok names, { result with database := q.database, tables := q.tables }, c'',
      execute_of_translated hdoes hdoes', hlookups,
      .inr ⟨names, x, rfl, hsql, hvalues, hheard.append hheard', htable⟩⟩

end Select

/-! ## 3. Stages behind the SELECT statement -/

/-- The table behind the mining stage: the table itself where no miner is asked for, else that of a
    miner who has rows to work on and does not refuse. -/
def Query.mined? (c : Collaborators) (q : Query) (t : Table) : Option Table :=
  match q.mining, c.miner with
  | none, _ => some t
  | some operation, some miner =>
    if t.rowCount = 0 then none else (miner t operation).toOption.map (·.table)
  | some _, none => none

/-- The call of a miner for the table of the SELECT statement. -/
def Query.miningCall (c : Collaborators) (q : Query) (selected : Option Table) :
    Option CollaboratorCall :=
  match selected, q.mining with
  | some t, some operation =>
    if t.rowCount ≠ 0 ∧ c.miner.isSome = true then some (.mined t operation) else none
  | _, _ => none

/-- The call of a renderer for the table behind the mining stage. -/
def Query.displayCall (c : Collaborators) (q : Query) (ready : Option Table) :
    Option CollaboratorCall :=
  match ready with
  | some t =>
    if q.displayType ≠ Query.plainDisplay ∧ c.renderer.isSome = true then
      some (.rendered t q.displayType) else none
  | none => none

/-- Can the table be shown: as it is, or by a renderer that does not refuse? -/
def Query.Shows (c : Collaborators) (q : Query) (t : Table) : Prop :=
  q.displayType = Query.plainDisplay ∨
    ∃ renderer picture, c.renderer = some renderer ∧ renderer t q.displayType = .ok picture

section Stages

variable {c : Collaborators} {q : Query} {r : ExecutionResult} {t : Table}

/-- The outcome behind the mining stage. -/
def Query.mineStage (c : Collaborators) (q : Query) (r : ExecutionResult) : StageOutcome :=
  match q.mining with
  | some operation => StageOutcome.andThen { result := r } (ExecutionResult.mine c operation)
  | none => { result := r }

theorem Query.finish_eq (c : Collaborators) (q : Query) (r : ExecutionResult) :
    q.finish c r = (q.mineStage c r).andThen (ExecutionResult.display c q.displayType) := by
  unfold finish mineStage
  cases q.mining <;> rfl

/-- **The mining stage** calls a miner for a table with rows, and gives the table of the miner. -/
theorem Query.mineStage_spec (c : Collaborators) (q : Query) (r : ExecutionResult) :
    (q.mineStage c r).result.table? = r.table?.bind (q.mined? c) ∧
      (q.mineStage c r).calls = (q.miningCall c r.table?).toList := by
  unfold mineStage mined? miningCall ExecutionResult.table? StageOutcome.andThen
  cases hsuccess : r.success with
  | false => cases q.mining <;> simp [hsuccess]
  | true =>
    cases q.mining with
    | none => simp [hsuccess]
    | some operation =>
      unfold ExecutionResult.mine
      by_cases hrows : r.table.rowCount = 0
      · cases c.miner <;> simp [hrows, ExecutionResult.failed]
      · cases c.miner with
        | none => simp [hrows, ExecutionResult.failed]
        | some miner =>
          cases hmined : miner r.table operation with
          | ok outcome => simp [hrows, hsuccess, hmined, ExecutionResult.withTable, Except.toOption]
          | error message =>
            simp [hrows, hmined, ExecutionResult.failed, Except.toOption]

/-- **The display stage** calls a renderer unless the display type needs none, and keeps the table. -/
theorem Query.displayStage_spec (o : StageOutcome) (c : Collaborators) (q : Query) :
    ((o.andThen (ExecutionResult.display c q.displayType)).calls =
        o.calls ++ (q.displayCall c o.result.table?).toList) ∧
      ∀ t, (o.andThen (ExecutionResult.display c q.displayType)).result.table? = some t ↔
        o.result.table? = some t ∧ q.Shows c t := by
  unfold StageOutcome.andThen ExecutionResult.display displayCall Shows ExecutionResult.table?
  cases hsuccess : o.result.success with
  | false => simp [hsuccess]
  | true =>
    by_cases hplain : q.displayType = plainDisplay
    · simp [hplain, hsuccess]
    · cases c.renderer with
      | none => simp [hplain, ExecutionResult.failed]
      | some renderer =>
        cases hrendered : renderer o.result.table q.displayType with
        | ok picture => simp [hplain, hrendered]
        | error message => simp [hplain, hrendered, ExecutionResult.failed]

end Stages

/-! ## 4. The protocol -/

/-- Is it the call of a miner? -/
def CollaboratorCall.isMining : CollaboratorCall → Bool
  | .mined _ _ => true
  | .rendered _ _ => false

/-- What the stages do with the table of the SELECT statement, if there is one. A miner is called
    just for a table with rows that a query wants mined, a renderer just for a table that has come
    so far and needs one, each at most once and the miner first; the outcome is a success exactly
    if the table has come so far and can be shown. -/
structure RunOutcome.Follows (c : Collaborators) (q : Query) (selected : Option Table)
    (o : RunOutcome) : Prop where
  mined : ∀ t operation, .mined t operation ∈ o.calls ↔
    selected = some t ∧ q.mining = some operation ∧ t.rowCount ≠ 0 ∧ c.miner.isSome = true
  rendered : ∀ t displayType, .rendered t displayType ∈ o.calls ↔
    q.displayType = displayType ∧ displayType ≠ Query.plainDisplay ∧ c.renderer.isSome = true ∧
      selected.bind (q.mined? c) = some t
  minedOnce : o.calls.countP (·.isMining) ≤ 1
  renderedOnce : o.calls.countP (!·.isMining) ≤ 1
  minedFirst : o.calls.Pairwise fun a b => a.isMining = true ∧ b.isMining = false
  success : o.result.success = true ↔ ∃ t, selected.bind (q.mined? c) = some t ∧ q.Shows c t
  table : o.result.success = true → selected.bind (q.mined? c) = some o.result.table

theorem Query.miningCall_eq_some {c : Collaborators} {q : Query} {selected : Option Table}
    {call : CollaboratorCall} : q.miningCall c selected = some call ↔
      ∃ t operation, call = .mined t operation ∧ selected = some t ∧ q.mining = some operation ∧
        t.rowCount ≠ 0 ∧ c.miner.isSome = true := by
  unfold miningCall
  constructor
  · intro h
    split at h
    · rename_i t operation hmining
      split at h
      · rename_i hcalled
        cases h
        exact ⟨t, operation, rfl, rfl, hmining, hcalled⟩
      · cases h
    · cases h
  · rintro ⟨t, operation, rfl, rfl, hmining, hcalled⟩
    simp only [hmining]
    exact if_pos hcalled

theorem Query.displayCall_eq_some {c : Collaborators} {q : Query} {ready : Option Table}
    {call : CollaboratorCall} : q.displayCall c ready = some call ↔
      ∃ t, call = .rendered t q.displayType ∧ ready = some t ∧
        q.displayType ≠ Query.plainDisplay ∧ c.renderer.isSome = true := by
  unfold displayCall
  constructor
  · intro h
    split at h
    · rename_i t
      split at h
      · rename_i hcalled
        cases h
        exact ⟨t, rfl, rfl, hcalled⟩
      · cases h
    · cases h
  · rintro ⟨t, rfl, rfl, hcalled⟩
    exact if_pos hcalled

theorem Query.isMining_of_miningCall (c : Collaborators) (q : Query) (selected : Option Table) :
    ∀ call ∈ q.miningCall c selected, call.isMining = true := by
  intro call hcall
  obtain ⟨t, operation, rfl, -⟩ := Query.miningCall_eq_some.mp hcall
  rfl

theorem Query.isMining_of_displayCall (c : Collaborators) (q : Query) (ready : Option Table) :
    ∀ call ∈ q.displayCall c ready, call.isMining = false := by
  intro call hcall
  obtain ⟨t, rfl, -⟩ := Query.displayCall_eq_some.mp hcall
  rfl

/-- A miner is called at most once, and then a renderer at most once. -/
theorem CollaboratorCall.once {mining display : Option CollaboratorCall}
    (hmining : ∀ call ∈ mining, call.isMining = true)
    (hdisplay : ∀ call ∈ display, call.isMining = false) :
    (mining.toList ++ display.toList).countP (·.isMining) ≤ 1 ∧
      (mining.toList ++ display.toList).countP (!·.isMining) ≤ 1 ∧
      (mining.toList ++ display.toList).Pairwise fun a b =>
        a.isMining = true ∧ b.isMining = false := by
  cases mining with
  | none =>
    cases display with
    | none => simp
    | some b => simp [hdisplay b rfl]
  | some a =>
    cases display with
    | none => simp [hmining a rfl]
    | some b => simp [hmining a rfl, hdisplay b rfl]

/-- **The stages behind the SELECT statement follow the protocol.** -/
theorem Query.finish_follows (c : Collaborators) (q : Query) (r : ExecutionResult) :
    RunOutcome.Follows c q r.table? ⟨(q.finish c r).result, (q.finish c r).calls⟩ := by
  obtain ⟨htable, hmined⟩ := Query.mineStage_spec c q r
  obtain ⟨hcalls, hshown⟩ := Query.displayStage_spec (q.mineStage c r) c q
  rw [← Query.finish_eq, hmined, htable] at hcalls
  simp only [← Query.finish_eq, htable] at hshown
  generalize q.finish c r = o at hcalls hshown ⊢
  generalize r.table? = selected at hcalls hshown ⊢
  obtain ⟨hminedOnce, hrenderedOnce, hminedFirst⟩ :=
    CollaboratorCall.once (q.isMining_of_miningCall c selected)
      (q.isMining_of_displayCall c (selected.bind (q.mined? c)))
  rw [← hcalls] at hminedOnce hrenderedOnce hminedFirst
  have hmem : ∀ call, call ∈ o.calls ↔ q.miningCall c selected = some call ∨
      q.displayCall c (selected.bind (q.mined? c)) = some call := by
    intro call
    rw [hcalls, List.mem_append, Option.mem_toList, Option.mem_toList]
  have hsuccess : o.result.success = true ↔ ∃ t, o.result.table? = some t := by
    unfold ExecutionResult.table?
    cases o.result.success <;> simp
  refine ⟨fun t operation => ?_, fun t displayType => ?_, hminedOnce, hrenderedOnce, hminedFirst,
    ?_, fun h => ?_⟩
  · rw [hmem, Query.miningCall_eq_some, Query.displayCall_eq_some]
    simp
  · rw [hmem, Query.miningCall_eq_some, Query.displayCall_eq_some]
    constructor
    · rintro (⟨_, _, h, -⟩ | ⟨t', h, hready, hcalled⟩)
      · cases h
      · cases h
        exact ⟨rfl, hcalled.1, hcalled.2, hready⟩
    · rintro ⟨rfl, hplain, hrenderer, hready⟩
      exact .inr ⟨t, rfl, hready, hplain, hrenderer⟩
  · rw [hsuccess]
    exact exists_congr hshown
  · have htable : o.result.table? = some o.result.table := if_pos h
    exact ((hshown _).mp htable).1

/-! ## 5. Texts -/

section Run

variable {e : Engine σ}

/-- A text becomes a query, and the engine hears nothing of it. -/
theorem read_heard (e : Engine σ) (r : Runner) (text : Text) (c : Connection σ) :
    ∃ q c', Query.ofText r.settings.reading text = .ok q ∧
      (r.read text : Access σ Query).Does c (.ok q) c' ∧ e.Heard [] c c' := by
  obtain ⟨q, hq, -⟩ := Query.exists_ofText r.settings.reading text
  let c' : Connection σ :=
    { c with records := c.records ++ Query.records r.settings.reading text }
  refine ⟨q, c', hq, ?_, .refl e c _⟩
  refine (Access.Does.noteAll _).bind ?_
  rw [hq]
  exact .pure q

/-- **A runner follows its protocol**, whatever the text, the settings, the engine and the
    collaborators are, if the cells of the engine convert. There always is an outcome. Of a text with
    a syntax error the engine hears nothing, and nobody is called. Of any other text it hears the
    lookups of the tables in order, up to the first one that fails; if none does, it hears one
    statement more, the translation of the query; and the stages behind that follow the protocol. -/
theorem run_follows_protocol (he : e.CellsConvert) (r : Runner) (text : Text)
    (c : Connection σ) :
    ∃ q outcome c', Query.ofText r.settings.reading text = .ok q ∧
      (r.run e text).Does c (.ok outcome) c' ∧
      (¬ r.settings.reading.Accepts text →
        c'.engine = c.engine ∧ c'.trace = c.trace ∧ outcome.calls = [] ∧
          outcome.result.success = false) ∧
      (r.settings.reading.Accepts text →
        ∃ xs o, Lookups r.settings.separator q.database q.tables xs o ∧
          ((∃ fault, o = .error fault ∧ e.Heard xs c c' ∧
              outcome.Follows r.collaborators q none) ∨
            ∃ names x, o = .ok names ∧ x.sql = (q.selectParts names).sql ∧ x.values = [] ∧
              e.Heard (xs ++ [x]) c c' ∧ outcome.Follows r.collaborators q x.table.toOption)) := by
  obtain ⟨q, c₁, hq, hread, hheard⟩ := read_heard e r text c
  have herrors := Query.hasErrors_iff hq
  cases hhas : q.hasErrors with
  | true =>
    have hrefused := herrors.mp hhas
    refine ⟨q, { result := .failure (Text.join (ascii "\n") q.errors) }, c₁, hq, ?_,
      fun _ => ⟨?_, ?_, rfl, rfl⟩, fun h => absurd h hrefused⟩
    · refine hread.bind ?_
      rw [if_pos hhas]
      exact .pure _
    · exact hheard.engine.eq_of_nil
    · simpa using hheard.trace
  | false =>
    have haccepts : r.settings.reading.Accepts text := by
      by_contra h
      rw [herrors.mpr h] at hhas
      cases hhas
    obtain ⟨xs, o, result, c₂, hexecute, hlookups, hcases⟩ := execute_heard he r q c₁
    let outcome : RunOutcome :=
      ⟨(q.finish r.collaborators result).result, (q.finish r.collaborators result).calls⟩
    have hfollows : outcome.Follows r.collaborators q result.table? :=
      Query.finish_follows r.collaborators q result
    let c₃ : Connection σ :=
      { c₂ with records := c₂.records ++ (q.finish r.collaborators result).records }
    have hnoted : e.Heard [] c₂ c₃ := .refl e c₂ _
    have hrun : (r.run e text).Does c (.ok outcome) c₃ := by
      refine hread.bind ?_
      rw [hhas, if_neg Bool.false_ne_true]
      exact hexecute.bind rfl
    refine ⟨q, outcome, c₃, hq, hrun, fun h => absurd haccepts h, fun _ => ⟨xs, o, hlookups, ?_⟩⟩
    rcases hcases with ⟨fault, ho, hsaid, htable⟩ | ⟨names, x, ho, hsql, hvalues, hsaid, htable⟩
    · have hall := (hheard.append hsaid).append hnoted
      rw [List.nil_append, List.append_nil] at hall
      rw [htable] at hfollows
      exact .inl ⟨fault, ho, hall, hfollows⟩
    · have hall := (hheard.append hsaid).append hnoted
      rw [List.nil_append, List.append_nil] at hall
      rw [htable] at hfollows
      exact .inr ⟨names, x, ho, hsql, hvalues, hall, hfollows⟩

/-- An engine that has every table that it is asked for, with one row, and counts statements. -/
def Engine.counting : Engine Nat where
  openDatabase _ n := (.ok (), n)
  prepare sql n := (.ok (some ⟨sql, [ascii "n"], 1⟩), n + 1)
  bind _ _ n := (.ok (), n)
  execute _ _ n := (⟨[[⟨.integer, ascii "7"⟩]], none⟩, n)
  rollback n := n

/-- `USE DATABASE d FROM t MINE STATISTICS DISPLAY AS bar` is one lookup and one statement more, and
    miner and renderer are called. -/
theorem run_follows_protocol_bar :
    let r : Runner :=
      { collaborators :=
          { miner := some fun t _ => .ok ⟨t, ascii "done"⟩
            renderer := some fun _ displayType => .ok displayType } }
    let text := ascii "USE DATABASE d FROM t MINE STATISTICS DISPLAY AS bar"
    let c : Connection Nat := { engine := 0 }
    Engine.counting.CellsConvert ∧ r.settings.reading.Accepts text ∧
      ∃ q outcome c', Query.ofText r.settings.reading text = .ok q ∧
        (r.run Engine.counting text).Does c (.ok outcome) c' ∧
        c'.engine = 2 ∧ outcome.calls.length = 2 ∧ outcome.result.success = true ∧
        ∃ xs o, Lookups r.settings.separator q.database q.tables xs o ∧
          ((∃ fault, o = .error fault ∧ Engine.counting.Heard xs c c' ∧
              outcome.Follows r.collaborators q none) ∨
            ∃ names x, o = .ok names ∧ x.sql = (q.selectParts names).sql ∧ x.values = [] ∧
              Engine.counting.Heard (xs ++ [x]) c c' ∧
              outcome.Follows r.collaborators q x.table.toOption) := by
  intro r text c
  have hcells : Engine.counting.CellsConvert := by
    intro p parameters n row hrow cell hcell
    obtain rfl := List.mem_singleton.mp hrow
    obtain rfl := List.mem_singleton.mp hcell
    exact ⟨.integer 7, by decide⟩
  have haccepts : r.settings.reading.Accepts text := by
    constructor <;> decide +kernel
  have hengine : ((r.run Engine.counting text).run.run c).2.engine = 2 := by decide +kernel
  have houtcome : ((r.run Engine.counting text).run.run c).1.toOption.map
      (fun o => (o.calls.length, o.result.success)) = some (2, true) := by decide +kernel
  obtain ⟨q, outcome, c', hq, hrun, -, hprotocol⟩ := run_follows_protocol hcells r text c
  have hends : (r.run Engine.counting text).run.run c = (.ok outcome, c') := hrun
  rw [hends] at hengine houtcome
  obtain ⟨hcalls, hsuccess⟩ := Prod.mk.inj (Option.some.inj houtcome)
  exact ⟨hcells, haccepts, q, outcome, c', hq, hrun, hengine, hcalls, hsuccess,
    hprotocol haccepts⟩

end Run

end MiningQuery
