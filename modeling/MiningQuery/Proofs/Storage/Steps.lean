/-
  File:      MiningQuery/Proofs/Storage/Steps.lean
  Subject:   The calls of a connection, as steps.

  A call comes to a list of steps that its arguments fix, taken in order up to the first one that
  fails. What a step does to the engine needs no connection, so a call is known from its steps.

  * `Reaction` -- what comes of some steps: how they end, the engine behind them, what was said to
    it, and the statements that were sent with their result kept;
  * `StorageStep`, `Engine.follow` -- one step, and a list of them;
  * `Access.Follows` -- whatever the connection is, the computation does what the reaction says;
  * `StorageCall`, `StorageCall.steps` -- the calls, and the steps that they come to;
  * **`loadTable_follows`**, **`perform_follows`** -- every call takes its steps, and what it reads
    behind them changes nothing.
-/
import MiningQuery.Proofs.Runner.Exchange

namespace MiningQuery

variable {σ α β : Type}

/-! ## 1. Reactions -/

/-- A statement that is sent so that its result is kept, and the engine at that moment. -/
structure SentStatement (σ : Type) where
  engine : σ
  sql : Text
  values : List Text

/-- What the statement leaves behind as a result. -/
def Engine.leaves (e : Engine σ) (m : SentStatement σ) : ResultSet :=
  (e.exchange m.sql m.values m.engine).1.result

/-- The result behind some statements: that of the last one, or the one from before. -/
def Engine.lastResult (e : Engine σ) (before : ResultSet) (sent : List (SentStatement σ)) :
    ResultSet := (sent.getLast?.map e.leaves).getD before

theorem Engine.lastResult_append (e : Engine σ) (before : ResultSet)
    (sent sent' : List (SentStatement σ)) :
    e.lastResult before (sent ++ sent') = e.lastResult (e.lastResult before sent) sent' := by
  unfold lastResult
  rw [List.getLast?_append]
  cases sent'.getLast? <;> rfl

/-- What comes of something that is done with an engine. -/
structure Reaction (σ : Type) where
  outcome : Except Fault Unit
  engine : σ
  events : List Event := []
  sent : List (SentStatement σ) := []

namespace Reaction

/-- The reaction to what comes next, unless this one is a failure. -/
def andThen (r : Reaction σ) (next : σ → Reaction σ) : Reaction σ :=
  match r.outcome with
  | .error _ => r
  | .ok () =>
    let r' := next r.engine
    ⟨r'.outcome, r'.engine, r.events ++ r'.events, r.sent ++ r'.sent⟩

theorem andThen_of_ok {r : Reaction σ} (h : r.outcome = .ok ()) (next : σ → Reaction σ) :
    r.andThen next = ⟨(next r.engine).outcome, (next r.engine).engine,
      r.events ++ (next r.engine).events, r.sent ++ (next r.engine).sent⟩ := by
  rw [andThen, h]

theorem andThen_of_error {r : Reaction σ} {fault : Fault} (h : r.outcome = .error fault)
    (next : σ → Reaction σ) : r.andThen next = r := by
  rw [andThen, h]

theorem andThen_assoc (r : Reaction σ) (f g : σ → Reaction σ) :
    (r.andThen f).andThen g = r.andThen fun s => (f s).andThen g := by
  cases hr : r.outcome with
  | error fault => rw [andThen_of_error hr, andThen_of_error hr, andThen_of_error hr]
  | ok _ =>
    rw [andThen_of_ok hr, andThen_of_ok hr]
    cases hf : (f r.engine).outcome with
    | error fault => rw [andThen_of_error rfl, andThen_of_error hf, hf]
    | ok _ =>
      rw [andThen_of_ok rfl, andThen_of_ok hf]
      simp only [List.append_assoc]

/-- The reaction leads from the connection `c` to the connection `c'`. -/
def Leads (r : Reaction σ) (e : Engine σ) (c c' : Connection σ) : Prop :=
  c.Moves r.engine r.events (e.lastResult c.result r.sent) c'

theorem Leads.engine {r : Reaction σ} {e : Engine σ} {c c' : Connection σ} (h : r.Leads e c c') :
    c'.engine = r.engine := by
  obtain ⟨records, rfl⟩ := h
  rfl

theorem Leads.andThen {r : Reaction σ} {e : Engine σ} {c c' c'' : Connection σ}
    {next : σ → Reaction σ} (hr : r.outcome = .ok ()) (h : r.Leads e c c')
    (h' : (next r.engine).Leads e c' c'') : (r.andThen next).Leads e c c'' := by
  obtain ⟨records, rfl⟩ := h
  obtain ⟨records', rfl⟩ := h'
  rw [andThen_of_ok hr]
  refine ⟨records', ?_⟩
  simp only [Engine.lastResult_append, List.append_assoc]

end Reaction

/-! ## 2. Insertions -/

/-- How something ends in which the engine may have failed. -/
def Fault.ofFailure : Option Text → Except Fault Unit
  | none => .ok ()
  | some message => .error (.engine (Text.untilZero message))

/-- The failure of an insertion. One that delivers rows has not come to its end. -/
def Execution.insertFailure? (x : Execution) : Option Text :=
  if x.rows.isEmpty then x.failure else some (ascii "another row available")

namespace Engine

variable (e : Engine σ)

/-- What inserting one row comes to. -/
def insertOne (p : Prepared) (row : List Text) (s : σ) : Reaction σ :=
  match e.give p row s with
  | (.error message, s) =>
    { outcome := Fault.ofFailure (some message), engine := s
      events := [.refused p.sql .bind] }
  | (.ok (), s) =>
    let (x, s) := e.execute p (p.fill row) s
    { outcome := Fault.ofFailure x.insertFailure?, engine := s
      events := [.executed p.sql (p.fill row) x.failure] }

/-- What inserting rows comes to, one after the other. -/
def insertEach (p : Prepared) : List (List Text) → σ → Reaction σ
  | [], s => ⟨.ok (), s, [], []⟩
  | row :: rows, s => (e.insertOne p row s).andThen (insertEach p rows)

/-- What preparing an insertion and inserting rows comes to. -/
def insertAll (sql : Text) (rows : List (List Text)) (s : σ) : Reaction σ :=
  match e.prepare (Text.untilZero sql) s with
  | (.error message, s) =>
    { outcome := Fault.ofFailure (some message), engine := s
      events := [.refused (Text.untilZero sql) .prepare] }
  | (.ok none, s) =>
    { outcome := Fault.ofFailure (some (ascii "bad parameter or other API misuse")), engine := s }
  | (.ok (some p), s) => e.insertEach p rows s

/-- What an insertion inside a transaction comes to: a failure gives the transaction up. -/
def insertion (sql : Text) (rows : List (List Text)) (s : σ) : Reaction σ :=
  let r := e.insertAll sql rows s
  match r.outcome with
  | .ok () => r
  | .error _ => { r with engine := e.rollback r.engine, events := r.events ++ [.rolledBack] }

end Engine

/-! ## 3. Steps -/

/-- One step of a call. -/
inductive StorageStep
  /-- The call fails before anything else is said. -/
  | refuse (fault : Fault)
  /-- A statement is sent and its result kept. -/
  | send (sql : Text) (values : List Text)
  /-- A statement is executed for every row, and no result is kept. -/
  | insert (sql : Text) (rows : List (List Text))

/-- What a step comes to. -/
def Engine.take (e : Engine σ) : StorageStep → σ → Reaction σ
  | .refuse fault, s => { outcome := .error fault, engine := s }
  | .send sql values, s =>
    let (x, s') := e.exchange sql values s
    ⟨x.outcome, s', x.events, [⟨s, sql, values⟩]⟩
  | .insert sql rows, s => e.insertion sql rows s

/-- What steps come to, up to the first one that fails. -/
def Engine.follow (e : Engine σ) : List StorageStep → σ → Reaction σ
  | [], s => ⟨.ok (), s, [], []⟩
  | step :: steps, s => (e.take step s).andThen (e.follow steps)

theorem Engine.follow_singleton (e : Engine σ) (step : StorageStep) :
    e.follow [step] = e.take step := by
  funext s
  rw [follow]
  cases h : (e.take step s).outcome with
  | error fault => exact Reaction.andThen_of_error h _
  | ok _ =>
    rw [Reaction.andThen_of_ok h]
    simp only [follow, List.append_nil, ← h]

theorem Engine.follow_append (e : Engine σ) (steps steps' : List StorageStep) (s : σ) :
    e.follow (steps ++ steps') s = (e.follow steps s).andThen (e.follow steps') := by
  induction steps generalizing s with
  | nil => rfl
  | cons step steps ih =>
    rw [List.cons_append, follow, follow, Reaction.andThen_assoc, funext ih]

/-! ## 4. Computations that follow steps -/

/-- Whatever the connection is, the computation does what the reaction of its engine says, and gives
    `a` if that is no failure. -/
def Access.Follows (e : Engine σ) (m : Access σ α) (react : σ → Reaction σ) (a : α) : Prop :=
  ∀ c : Connection σ, ∃ c', m.Does c ((react c.engine).outcome.map fun _ => a) c' ∧
    (react c.engine).Leads e c c'

namespace Access.Follows

variable {e : Engine σ} {m : Access σ α} {f : α → Access σ β} {react react' : σ → Reaction σ}
  {a : α} {b : β}

/-- A computation that gives nothing. -/
theorem of_does {m : Access σ Unit} (h : ∀ c : Connection σ, ∃ c',
    m.Does c (react c.engine).outcome c' ∧ (react c.engine).Leads e c c') :
    Follows e m react () := by
  intro c
  rw [show ((react c.engine).outcome.map fun _ => ()) = (react c.engine).outcome from
    congrFun Except.map_id _]
  exact h c

/-- Saying nothing to the engine and making log records. -/
theorem quiet (h : ∀ c : Connection σ, ∃ records, m.Does c (.ok a) { c with records }) :
    Follows e m (e.follow []) a := by
  intro c
  obtain ⟨records, hdoes⟩ := h c
  exact ⟨_, hdoes, records, by simp [Engine.follow, Engine.lastResult]⟩

/-- Failing before anything is said. -/
theorem refuse {fault : Fault} (h : ∀ c : Connection σ, m.Does c (.error fault) c) :
    Follows e m (e.follow [.refuse fault]) a := by
  rw [Engine.follow_singleton]
  intro c
  exact ⟨c, h c, c.records, by simp [Engine.take, Engine.lastResult]⟩

theorem bind (h : Follows e m react a) (hf : Follows e (f a) react' b) :
    Follows e (m >>= f) (fun s => (react s).andThen react') b := by
  intro c
  show ∃ c', Does (m >>= f) c (((react c.engine).andThen react').outcome.map fun _ => b) c' ∧
    ((react c.engine).andThen react').Leads e c c'
  obtain ⟨c', hdoes, hleads⟩ := h c
  cases houtcome : (react c.engine).outcome with
  | error fault =>
    rw [houtcome] at hdoes
    rw [Reaction.andThen_of_error houtcome, houtcome]
    exact ⟨c', hdoes.bind_error, hleads⟩
  | ok _ =>
    rw [houtcome] at hdoes
    obtain ⟨c'', hdoes', hleads'⟩ := hf c'
    rw [hleads.engine] at hdoes' hleads'
    refine ⟨c'', ?_, hleads.andThen houtcome hleads'⟩
    rw [Reaction.andThen_of_ok houtcome]
    exact hdoes.bind hdoes'

/-- Steps behind steps. -/
theorem append {k : Access σ β} {steps steps' : List StorageStep}
    (h : Follows e m (e.follow steps) a) (hk : Follows e k (e.follow steps') b) :
    Follows e (m >>= fun _ => k) (e.follow (steps ++ steps')) b := by
  rw [funext (Engine.follow_append e steps steps')]
  exact h.bind hk

/-- Log records in front of steps. -/
theorem noted (records : List LogRecord) (h : Follows e m react a) :
    Follows e (Access.noteAll records >>= fun _ => m) react a := by
  intro c
  obtain ⟨c', hdoes, hleads⟩ := h { c with records := c.records ++ records }
  exact ⟨c', (Access.Does.noteAll records).bind hdoes, hleads⟩

end Access.Follows

section Steps

variable {e : Engine σ}

theorem queryWith_follows (e : Engine σ) (sql : Text) (values : List Text) :
    (e.queryWith sql values).Follows e (e.follow [.send sql values]) () := by
  rw [Engine.follow_singleton]
  exact .of_does (queryWith_does e sql values)

/-- What follows the execution of an insertion says whether it has failed. -/
theorem insertFailure_does (x : Execution) (c : Connection σ) :
    ∃ c', (do
        unless x.rows.isEmpty do Access.failWith (ascii "another row available")
        if let some message := x.failure then Access.failWith message : Access σ Unit).Does c
        (Fault.ofFailure x.insertFailure?) c' ∧ c.Moves c.engine [] c.result c' := by
  unfold Execution.insertFailure?
  cases x.rows with
  | cons row rows =>
    obtain ⟨c', hfail, hmoves⟩ := failWith_does (α := PUnit) (ascii "another row available") c
    exact ⟨c', hfail.bind_error, hmoves⟩
  | nil =>
    cases x.failure with
    | none => exact ⟨c, rfl, c.records, by rw [List.append_nil]⟩
    | some message => exact failWith_does message c

theorem insertRow_follows (e : Engine σ) (p : Prepared) (row : List Text) :
    (e.insertRow p row).Follows e (e.insertOne p row) () := by
  refine .of_does fun c => ?_
  obtain ⟨c₁, hbind, records, hc₁⟩ := bindValues_does e p row c
  unfold Engine.insertOne
  rcases h : e.give p row c.engine with ⟨message | _, s⟩ <;> rw [h] at hbind hc₁
  · exact ⟨c₁, hbind.bind_error, records, hc₁⟩
  · rw [Event.ofAnswer, List.append_nil] at hc₁
    subst hc₁
    have hexecuted := executeFilled_does e p row { c with engine := s, records }
    obtain ⟨c₂, hended, records', hc₂⟩ := insertFailure_does (e.execute p (p.fill row) s).1
      { c with
        engine := (e.execute p (p.fill row) s).2
        trace := c.trace ++ [.executed p.sql (p.fill row) (e.execute p (p.fill row) s).1.failure]
        records }
    refine ⟨c₂, hbind.bind (hexecuted.bind hended), records', ?_⟩
    rw [hc₂, List.append_nil]
    rfl

theorem insertEach_follows (e : Engine σ) (p : Prepared) (rows : List (List Text)) :
    (rows.forM (e.insertRow p)).Follows e (e.insertEach p rows) () := by
  induction rows with
  | nil => exact .quiet fun c => ⟨c.records, rfl⟩
  | cons row rows ih => exact (insertRow_follows e p row).bind ih

theorem insertPrepared_follows (e : Engine σ) (sql : Text) (rows : List (List Text)) :
    (e.insertPrepared sql rows).Follows e (e.insertAll sql rows) () := by
  intro c
  obtain ⟨c₁, hprepare, records, hc₁⟩ := prepareText_does e sql c
  unfold Engine.insertAll
  rcases h : e.prepare (Text.untilZero sql) c.engine with ⟨message | _ | p, s⟩ <;>
    rw [h] at hprepare hc₁
  · exact ⟨c₁, hprepare.bind_error, records, hc₁⟩
  · rw [Event.ofAnswer, List.append_nil] at hc₁
    subst hc₁
    obtain ⟨c', hfail, hmoves⟩ := failWith_does (α := Unit)
      (ascii "bad parameter or other API misuse") { c with engine := s, records }
    exact ⟨c', hprepare.bind hfail, hmoves⟩
  · rw [Event.ofAnswer, List.append_nil] at hc₁
    subst hc₁
    obtain ⟨c', hdoes, hleads⟩ := insertEach_follows e p rows { c with engine := s, records }
    exact ⟨c', hprepare.bind hdoes, hleads⟩

theorem Fault.exists_of_ofFailure {failure : Option Text} {fault : Fault}
    (h : Fault.ofFailure failure = .error fault) : ∃ message, fault = .engine message := by
  cases failure with
  | none => cases h
  | some message => exact ⟨_, (Except.error.inj h).symm⟩

/-- An insertion fails with an error of the engine only. -/
theorem Engine.exists_of_insertAll {sql : Text} {rows : List (List Text)} {s : σ} {fault : Fault}
    (h : (e.insertAll sql rows s).outcome = .error fault) : ∃ message, fault = .engine message := by
  have hone : ∀ p row s, (e.insertOne p row s).outcome = .error fault →
      ∃ message, fault = .engine message := by
    intro p row s h
    unfold insertOne at h
    split at h <;> dsimp only at h <;> exact Fault.exists_of_ofFailure h
  have heach : ∀ p rows s, (e.insertEach p rows s).outcome = .error fault →
      ∃ message, fault = .engine message := by
    intro p rows
    induction rows with
    | nil =>
      intro s h
      cases h
    | cons row rows ih =>
      intro s h
      rw [insertEach] at h
      cases hrow : (e.insertOne p row s).outcome with
      | error fault' =>
        rw [Reaction.andThen_of_error hrow] at h
        exact hone p row s h
      | ok _ =>
        rw [Reaction.andThen_of_ok hrow] at h
        exact ih _ h
  unfold insertAll at h
  split at h
  · dsimp only at h
    exact Fault.exists_of_ofFailure h
  · dsimp only at h
    exact Fault.exists_of_ofFailure h
  · exact heach _ _ _ h

/-- An error of the engine gives the transaction up before it goes on. -/
theorem insertion_follows (e : Engine σ) (sql : Text) (rows : List (List Text)) :
    (Access.onFailure (e.insertPrepared sql rows) e.rollbackTransaction).Follows e
      (e.follow [.insert sql rows]) () := by
  rw [Engine.follow_singleton]
  intro c
  obtain ⟨c', hdoes, records, hc'⟩ := insertPrepared_follows e sql rows c
  show ∃ c', Access.Does _ c ((e.insertion sql rows c.engine).outcome.map _) c' ∧
    (e.insertion sql rows c.engine).Leads e c c'
  unfold Engine.insertion
  cases houtcome : (e.insertAll sql rows c.engine).outcome with
  | ok _ =>
    rw [houtcome] at hdoes
    simp only [houtcome]
    exact ⟨c', hdoes.tryCatch, records, hc'⟩
  | error fault =>
    obtain ⟨message, rfl⟩ := Engine.exists_of_insertAll houtcome
    rw [houtcome] at hdoes
    simp only [houtcome]
    refine ⟨_, hdoes.tryCatch_error rfl, records, ?_⟩
    rw [hc', ← List.append_assoc]

end Steps

/-! ## 5. Calls -/

/-- One call of a connection; what it gives back is left out. -/
inductive StorageCall
  | query (sql : Text)
  | queryWith (sql : Text) (values : List Text)
  | insertRows (table : Text) (rows : List (List Text))
  | tableExists (table : Text)
  | createTable (table : Text) (columns : List ColumnSpec)
  | loadTable (table : Text) (columns : List ColumnSpec) (rows : List (List Text)) (database : Text)
  | listTables (database : Text)
  | tableInfo (table : Text)
  | countRows (table : Text)
  | sample (table : Text) (count : Nat)

/-- Makes the call. -/
def StorageCall.perform (e : Engine σ) : StorageCall → Access σ Unit
  | query sql => e.query sql
  | queryWith sql values => e.queryWith sql values
  | insertRows table rows => e.insertRows table rows
  | tableExists table => (fun _ => ()) <$> e.tableExists table
  | createTable table columns => e.createTable table columns
  | loadTable table columns rows database =>
    (fun _ => ()) <$> e.loadTable table columns rows database
  | listTables database => (fun _ => ()) <$> e.listTables database
  | tableInfo table => (fun _ => ()) <$> e.tableInfo table
  | countRows table => (fun _ => ()) <$> e.countRows table
  | sample table count => e.sample table count

namespace StorageStep

/-- The steps that insert rows. -/
def insertions (table : Text) (rows : List (List Text)) : List StorageStep :=
  if (rows.headD []).length = 0 then []
  else
    [.send (ascii "BEGIN TRANSACTION") [],
      .insert (Engine.insertSql table (rows.headD []).length) rows,
      .send (ascii "END TRANSACTION") []]

/-- The steps that create a table. -/
def creation (table : Text) (columns : List ColumnSpec) : List StorageStep :=
  if columns.isEmpty then [.refuse .contract]
  else
    [.send (ascii "CREATE TABLE " ++ table ++ ascii " (" ++
      Text.join (ascii ", ") (columns.map ColumnSpec.sql) ++ ascii ")") []]

/-- The steps that replace the table stored under a name. -/
def loading (name : Text) (columns : List ColumnSpec) (rows : List (List Text)) :
    List StorageStep :=
  match rows.find? fun row => row.length != columns.length with
  | some row => [.refuse (.raggedRow row.length columns.length name)]
  | none =>
    .send (ascii "DROP TABLE IF EXISTS " ++ name) [] ::
      (creation name columns ++ insertions name rows)

end StorageStep

/-- The steps of a call; the separator counts only where a table is loaded. -/
def StorageCall.steps (separator : Text) : StorageCall → List StorageStep
  | query sql => [.send sql []]
  | queryWith sql values => [.send sql values]
  | insertRows table rows => StorageStep.insertions table rows
  | tableExists table => [.send Engine.existsSql [table]]
  | createTable table columns => StorageStep.creation table columns
  | loadTable table columns rows database =>
    StorageStep.loading (Engine.storedName database separator table) columns rows
  | listTables _ => [.send Engine.listSql []]
  | tableInfo table => [.send (ascii "PRAGMA table_info(" ++ table ++ ascii ")") []]
  | countRows table => [.send (ascii "SELECT COUNT(*) FROM " ++ table) []]
  | sample table count =>
    [.send (ascii "SELECT * FROM " ++ table ++ ascii " LIMIT " ++ Text.ofNat count) []]

section Calls

theorem query_follows (e : Engine σ) (sql : Text) :
    (e.query sql).Follows e (e.follow [.send sql []]) () := queryWith_follows e sql []

theorem insertRows_follows (e : Engine σ) (table : Text) (rows : List (List Text)) :
    (e.insertRows table rows).Follows e (e.follow (StorageStep.insertions table rows)) () := by
  unfold Engine.insertRows StorageStep.insertions
  by_cases hwidth : (rows.headD []).length = 0
  · rw [if_pos hwidth]
    simp only [if_pos hwidth]
    exact .quiet fun c => ⟨c.records, rfl⟩
  · rw [if_neg hwidth]
    simp only [if_neg hwidth]
    exact .noted [_] ((query_follows e _).append
      ((insertion_follows e _ rows).append (query_follows e _)))

theorem createTable_follows (e : Engine σ) (table : Text) (columns : List ColumnSpec) :
    (e.createTable table columns).Follows e (e.follow (StorageStep.creation table columns)) () := by
  unfold Engine.createTable StorageStep.creation
  split
  · exact .refuse fun c => rfl
  · exact query_follows e _

theorem storedName_of_ne {database : Text} (h : database ≠ []) (separator table : Text) :
    Engine.storedName database separator table = qualifiedName database separator table := by
  rw [Engine.storedName, List.isEmpty_eq_false_iff.mpr h]
  rfl

theorem replaceTable_follows (e : Engine σ) (name : Text) (columns : List ColumnSpec)
    (rows : List (List Text)) :
    (do if let some row := rows.find? fun row => row.length != columns.length then
          throw (.raggedRow row.length columns.length name)
        e.query (ascii "DROP TABLE IF EXISTS " ++ name)
        e.createTable name columns
        e.insertRows name rows
        Access.note (.info
          (ascii "Loaded " ++ Text.ofNat rows.length ++ ascii " rows into " ++ name))
        return name : Access σ Text).Follows e
      (e.follow (StorageStep.loading name columns rows)) name := by
  unfold StorageStep.loading
  let loaded : LogRecord :=
    .info (ascii "Loaded " ++ Text.ofNat rows.length ++ ascii " rows into " ++ name)
  cases rows.find? fun row => row.length != columns.length with
  | some row => exact .refuse fun c => rfl
  | none =>
    have hinserted := (insertRows_follows e name rows).append
      (.noted [loaded] (.quiet fun c => ⟨c.records, .pure name⟩))
    rw [List.append_nil] at hinserted
    exact (query_follows e _).append ((createTable_follows e name columns).append hinserted)

/-- **Loading a table takes the steps of the name under which it is stored**, and gives that name
    if it succeeds. -/
theorem loadTable_follows (e : Engine σ) (table : Text) (columns : List ColumnSpec)
    (rows : List (List Text)) (database : Text) (c : Connection σ) :
    let name := Engine.storedName database c.separator table
    let r := e.follow (StorageStep.loading name columns rows) c.engine
    ∃ c', (e.loadTable table columns rows database).Does c (r.outcome.map fun _ => name) c' ∧
      r.Leads e c c' := by
  obtain ⟨c', hdoes, hleads⟩ := replaceTable_follows e
    (Engine.storedName database c.separator table) columns rows c
  have hget : (get : Access σ (Connection σ)).Does c (.ok c) c := rfl
  exact ⟨c', hget.bind hdoes, hleads⟩

end Calls

/-! ## 6. Reading behind the steps -/

/-- The computation reads the connection and leaves it as it is. -/
def Access.Reads (m : Access σ α) : Prop := ∀ c : Connection σ, ∃ o, m.Does c o c

namespace Access.Reads

variable {m : Access σ α} {f : α → Access σ β}

theorem pure (a : α) : Reads (Pure.pure a : Access σ α) := fun _ => ⟨_, .pure a⟩

theorem throw (fault : Fault) : Reads (MonadExcept.throw fault : Access σ α) := fun _ => ⟨_, rfl⟩

theorem get : Reads (MonadState.get : Access σ (Connection σ)) := fun _ => ⟨_, rfl⟩

theorem bind (h : Reads m) (hf : ∀ a, Reads (f a)) : Reads (m >>= f) := by
  intro c
  obtain ⟨o, hdoes⟩ := h c
  cases o with
  | error fault => exact ⟨_, hdoes.bind_error⟩
  | ok a =>
    obtain ⟨o, hdoes'⟩ := hf a c
    exact ⟨o, hdoes.bind hdoes'⟩

theorem mapM (hf : ∀ a, Reads (f a)) (xs : List α) : Reads (xs.mapM f) := by
  induction xs with
  | nil => exact .pure []
  | cons x xs ih =>
    rw [List.mapM_cons]
    exact (hf x).bind fun b => ih.bind fun bs => .pure (b :: bs)

theorem require (value : Option α) : Reads (Access.require value : Access σ α) := by
  cases value with
  | none => exact .throw _
  | some a => exact .pure a

theorem convert (value : Option α) : Reads (Access.convert value : Access σ α) := by
  cases value with
  | none => exact .throw _
  | some a => exact .pure a

theorem result : Reads (Access.result : Access σ ResultSet) := get.bind fun _ => .pure _

theorem cell (row column : Nat) : Reads (Access.cell row column : Access σ Cell) :=
  result.bind fun _ => .require _

theorem columnInfo (row : Nat) : Reads (Engine.columnInfo row : Access σ ColumnInfo) :=
  (cell row 4).bind fun _ => (cell row 1).bind fun _ => (cell row 2).bind fun _ =>
    (cell row 3).bind fun _ => (convert _).bind fun _ => (cell row 5).bind fun _ =>
      (convert _).bind fun _ => .pure _

end Access.Reads

/-- The computation leaves the connection that the steps lead to, and fails as they do. -/
def Access.Performs (e : Engine σ) (m : Access σ α) (steps : List StorageStep)
    (c : Connection σ) : Prop :=
  ∃ o c', m.Does c o c' ∧ (e.follow steps c.engine).Leads e c c' ∧
    ∀ fault, (e.follow steps c.engine).outcome = .error fault → o = .error fault

section Performs

variable {e : Engine σ} {m : Access σ α} {f : α → Access σ β} {a : α} {steps : List StorageStep}

theorem Access.Follows.performs (h : m.Follows e (e.follow steps) a) (c : Connection σ) :
    m.Performs e steps c := by
  obtain ⟨c', hdoes, hleads⟩ := h c
  refine ⟨_, c', hdoes, hleads, fun fault hfault => ?_⟩
  rw [hfault]
  rfl

/-- Reading behind the steps. -/
theorem Access.Follows.reading (h : m.Follows e (e.follow steps) a) (hf : (f a).Reads)
    (c : Connection σ) : (m >>= f).Performs e steps c := by
  obtain ⟨c', hdoes, hleads⟩ := h c
  cases houtcome : (e.follow steps c.engine).outcome with
  | error fault =>
    rw [houtcome] at hdoes
    refine ⟨_, c', hdoes.bind_error, hleads, fun fault' hfault => ?_⟩
    obtain rfl := Except.error.inj (houtcome.symm.trans hfault)
    rfl
  | ok _ =>
    rw [houtcome] at hdoes
    obtain ⟨o, hdoes'⟩ := hf c'
    refine ⟨o, c', hdoes.bind hdoes', hleads, fun fault hfault => ?_⟩
    rw [houtcome] at hfault
    cases hfault

/-- What is given back does not count. -/
theorem Access.Performs.map {k : α → β} {c : Connection σ} (h : m.Performs e steps c) :
    (k <$> m).Performs e steps c := by
  obtain ⟨o, c', hdoes, hleads, hfails⟩ := h
  refine ⟨_, c', hdoes.map, hleads, fun fault hfault => ?_⟩
  rw [hfails fault hfault]
  rfl

/-- **A call takes its steps**, and what it reads behind them changes nothing. -/
theorem perform_follows (e : Engine σ) (call : StorageCall) (c : Connection σ) :
    (call.perform e).Performs e (call.steps c.separator) c := by
  cases call with
  | query sql => exact (query_follows e sql).performs c
  | queryWith sql values => exact (queryWith_follows e sql values).performs c
  | insertRows table rows => exact (insertRows_follows e table rows).performs c
  | createTable table columns => exact (createTable_follows e table columns).performs c
  | sample table count => exact (query_follows e _).performs c
  | tableExists table =>
    exact ((queryWith_follows e Engine.existsSql [table]).reading
      (Access.Reads.result.bind fun _ => .pure _) c).map
  | listTables database =>
    have hcells := fun rows => Access.Reads.mapM (σ := σ) (fun row => .cell row 0) (List.range rows)
    exact ((query_follows e Engine.listSql).reading
      (Access.Reads.result.bind fun _ => (hcells _).bind fun _ =>
        Access.Reads.get.bind fun _ => .pure _) c).map
  | tableInfo table =>
    exact ((query_follows e _).reading
      (Access.Reads.result.bind fun _ => .mapM .columnInfo _) c).map
  | countRows table =>
    refine ((query_follows e _).reading (Access.Reads.result.bind fun r => ?_) c).map
    split
    · exact (Access.Reads.cell 0 0).bind fun _ => .convert _
    · exact .throw _
  | loadTable table columns rows database =>
    obtain ⟨c', hdoes, hleads⟩ := loadTable_follows e table columns rows database c
    refine Access.Performs.map ⟨_, c', hdoes, hleads, fun fault hfault => ?_⟩
    rw [show (e.follow (StorageStep.loading _ columns rows) c.engine).outcome = _ from hfault]
    rfl

end Performs

end MiningQuery
