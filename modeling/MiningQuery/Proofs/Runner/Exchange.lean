/-
  File:      MiningQuery/Proofs/Runner/Exchange.lean
  Subject:   What is said to an engine, statement by statement.

  A computation on a connection is taken apart into exchanges: one statement, and what the engine
  answers. An exchange needs no connection, so what an engine gets to see can be told without one.

  * `Access.Does` -- what a computation gives, and the connection that it leaves;
  * `Exchange`, `Engine.exchange` -- one statement and its answer;
  * `Engine.Heard` -- between two connections the engine heard just these statements;
  * `Lookups` -- the statements that look up tables, and what they come to;
  * **`queryWith_does`**, **`translate_heard`** -- sending a statement is one exchange, and a query is
    translated by looking up its tables, up to the first lookup that fails.
-/
import MiningQuery.Runner.Basic

namespace MiningQuery

variable {σ α β : Type}

/-! ## 1. Computations on a connection -/

/-- From one connection the computation ends so and leaves the other. -/
def Access.Does (m : Access σ α) (c : Connection σ) (o : Except Fault α) (c' : Connection σ) :
    Prop := m.run.run c = (o, c')

namespace Access.Does

variable {m : Access σ α} {f : α → Access σ β} {g : Fault → Access σ α} {c c' c'' : Connection σ}
  {a : α} {o : Except Fault β} {oa : Except Fault α} {fault : Fault}

theorem bind (h : Does m c (.ok a) c') (hf : Does (f a) c' o c'') : Does (m >>= f) c o c'' := by
  unfold Does at *
  rw [ExceptT.run_bind, StateT.run_bind, h]
  exact hf

theorem bind_error (h : Does m c (.error fault) c') : Does (m >>= f) c (.error fault) c' := by
  unfold Does at *
  rw [ExceptT.run_bind, StateT.run_bind, h]
  rfl

theorem pure (a : α) : Does (Pure.pure a) c (.ok a) c := rfl

theorem map {k : α → β} (h : Does m c oa c') : Does (k <$> m) c (oa.map k) c' := by
  rw [← bind_pure_comp]
  cases oa with
  | ok a => exact h.bind (.pure (k a))
  | error fault => exact h.bind_error

theorem tryCatch (h : Does m c (.ok a) c') :
    Does (MonadExcept.tryCatch m g) c (.ok a) c' := by
  unfold Does at *
  show (ExceptT.run (ExceptT.tryCatch m g)).run c = _
  unfold ExceptT.tryCatch
  show StateT.run (ExceptT.run m >>= _) c = _
  rw [StateT.run_bind, h]
  rfl

theorem tryCatch_error (h : Does m c (.error fault) c') (hg : Does (g fault) c' oa c'') :
    Does (MonadExcept.tryCatch m g) c oa c'' := by
  unfold Does at *
  show (ExceptT.run (ExceptT.tryCatch m g)).run c = _
  unfold ExceptT.tryCatch
  show StateT.run (ExceptT.run m >>= _) c = _
  rw [StateT.run_bind, h]
  exact hg

/-- A computation leaves what it is run to. -/
theorem of_run {o : Except Fault α} (h : (m.run.run c).1 = o) : Does m c o (m.run.run c).2 :=
  Prod.ext h rfl

/-- A computation ends in one way only. -/
theorem unique {oa' : Except Fault α} (h : Does m c oa c') (h' : Does m c oa' c'') :
    oa = oa' ∧ c' = c'' := by
  unfold Does at h h'
  rw [h] at h'
  exact Prod.mk.inj h'

theorem noteAll (rs : List LogRecord) :
    Does (Access.noteAll rs) c (.ok ()) { c with records := c.records ++ rs } := rfl

theorem keep (r : ResultSet) : Does (Access.keep r) c (.ok ()) { c with result := r } := rfl

theorem result : Does Access.result c (.ok c.result) c := rfl

theorem tell (g : σ → α × σ) :
    Does (Access.tell g) c (.ok (g c.engine).1) { c with engine := (g c.engine).2 } := rfl

end Access.Does

/-! ## 2. Exchanges -/

/-- One statement that is said to an engine, and what comes of it. -/
structure Exchange where
  sql : Text
  values : List Text
  events : List Event
  result : ResultSet
  /-- The error of the engine, if the statement failed. -/
  failure : Option Text

namespace Exchange

/-- Is the exchange a success? -/
def outcome (x : Exchange) : Except Fault Unit :=
  match x.failure with
  | none => .ok ()
  | some message => .error (.engine (Text.untilZero message))

/-- Does the answer have rows? -/
def found (x : Exchange) : Except Fault Bool := x.outcome.map fun _ => !x.result.rows.isEmpty

/-- The statement asks whether a table exists. -/
def Asks (x : Exchange) (name : Text) : Prop := x.sql = Engine.existsSql ∧ x.values = [name]

end Exchange

/-- Gives values to a prepared statement; no values are not mentioned. -/
def Engine.give (e : Engine σ) (p : Prepared) (values : List Text) (s : σ) :
    Except Text Unit × σ := if values.isEmpty then (.ok (), s) else e.bind p values s

/-- What a prepared statement comes to: it is given its values and executed, as far as that
    succeeds. -/
def Engine.perform (e : Engine σ) (sql : Text) (p : Prepared) (values : List Text) (s : σ) :
    Exchange × σ :=
  match e.give p values s with
  | (.error message, s) =>
    (⟨sql, values, [.refused p.sql .bind], ⟨p.columnNames, []⟩, some message⟩, s)
  | (.ok (), s) =>
    let (x, s) := e.execute p (p.fill values) s
    (⟨sql, values, [.executed p.sql (p.fill values) x.failure],
      ⟨p.columnNames, x.rows.map (Cell.fit p.columnNames.length)⟩, x.failure⟩, s)

/-- What comes of sending one statement: it is prepared, and performed if there is anything to do. -/
def Engine.exchange (e : Engine σ) (sql : Text) (values : List Text) (s : σ) : Exchange × σ :=
  match e.prepare (Text.untilZero sql) s with
  | (.error message, s) =>
    (⟨sql, values, [.refused (Text.untilZero sql) .prepare], .empty, some message⟩, s)
  | (.ok none, s) => (⟨sql, values, [], .empty, none⟩, s)
  | (.ok (some p), s) => e.perform sql p values s

/-- The connection `c'` is `c` with another state of the engine and another result, and more said to
    the engine; its log records are left open. -/
def Connection.Moves (c : Connection σ) (s : σ) (events : List Event) (result : ResultSet)
    (c' : Connection σ) : Prop :=
  ∃ records, c' = { c with engine := s, trace := c.trace ++ events, result, records }

/-- The answer of an engine, its error being a fault. -/
def Fault.ofEngine (r : Except Text α) : Except Fault α :=
  r.mapError fun message => .engine (Text.untilZero message)

/-- What is remembered of an answer: only an error. -/
def Event.ofAnswer (event : Event) (r : Except Text α) : List Event :=
  match r with
  | .ok _ => []
  | .error _ => [event]

section Exchange

variable {e : Engine σ} {c c' c'' : Connection σ} {xs ys : List Exchange}

/-- An error of the engine ends the computation and leaves one more log record. -/
theorem failWith_does (message : Text) (c : Connection σ) :
    ∃ c', (Access.failWith (α := α) message).Does c (.error (.engine (Text.untilZero message))) c' ∧
      c.Moves c.engine [] c.result c' := by
  have htrace : c.trace = c.trace ++ [] := (List.append_nil _).symm
  exact ⟨_, rfl, _, by rw [← htrace]⟩

theorem refuse_does (event : Event) (message : Text) (c : Connection σ) :
    ∃ c', (Access.remember event >>= fun _ => Access.failWith (α := α) message).Does c
        (.error (.engine (Text.untilZero message))) c' ∧ c.Moves c.engine [event] c.result c' :=
  ⟨_, rfl, _, rfl⟩

theorem prepareText_does (e : Engine σ) (sql : Text) (c : Connection σ) :
    ∃ c', (e.prepareText sql).Does c
        (Fault.ofEngine (e.prepare (Text.untilZero sql) c.engine).1) c' ∧
      c.Moves (e.prepare (Text.untilZero sql) c.engine).2
        (Event.ofAnswer (.refused (Text.untilZero sql) .prepare)
          (e.prepare (Text.untilZero sql) c.engine).1) c.result c' := by
  have htell := Access.Does.tell (c := c) (e.prepare (Text.untilZero sql))
  rcases h : e.prepare (Text.untilZero sql) c.engine with ⟨_ | p, s⟩ <;> rw [h] at htell
  · obtain ⟨c', hdoes, hmoves⟩ := refuse_does (α := Option Prepared) _ _ _
    exact ⟨c', htell.bind hdoes, hmoves⟩
  · exact ⟨_, htell.bind (.pure p), c.records, by rw [Event.ofAnswer, List.append_nil]⟩

theorem bindValues_does (e : Engine σ) (p : Prepared) (values : List Text) (c : Connection σ) :
    ∃ c', (e.bindValues p values).Does c (Fault.ofEngine (e.give p values c.engine).1) c' ∧
      c.Moves (e.give p values c.engine).2
        (Event.ofAnswer (.refused p.sql .bind) (e.give p values c.engine).1) c.result c' := by
  unfold Engine.bindValues Engine.give
  cases values.isEmpty with
  | true => exact ⟨c, rfl, c.records, by simp [Event.ofAnswer]⟩
  | false =>
    have htell := Access.Does.tell (c := c) (e.bind p values)
    simp only [Bool.false_eq_true, if_false]
    rcases h : e.bind p values c.engine with ⟨_ | _, s⟩ <;> rw [h] at htell
    · obtain ⟨c', hdoes, hmoves⟩ := refuse_does (α := Unit) _ _ _
      exact ⟨c', htell.bind hdoes, hmoves⟩
    · exact ⟨_, htell.bind (.pure ()), c.records, by rw [Event.ofAnswer, List.append_nil]⟩

/-- Executing a statement moves the engine and is remembered, whether it fails or not. -/
theorem executeFilled_does (e : Engine σ) (p : Prepared) (values : List Text) (c : Connection σ) :
    let x := e.execute p (p.fill values) c.engine
    (e.executeFilled p values).Does c (.ok x.1)
      { c with
        engine := x.2
        trace := c.trace ++ [.executed p.sql (p.fill values) x.1.failure] } :=
  (Access.Does.tell (e.execute p (p.fill values))).bind rfl

/-- Keeping the rows that have come, and failing behind them if the statement has failed. -/
theorem deliver_does (result : ResultSet) (failure : Option Text) (c : Connection σ) :
    ∃ c', (do
        Access.keep result
        if let some message := failure then Access.failWith message : Access σ Unit).Does c
        (match failure with
          | none => .ok ()
          | some message => .error (.engine (Text.untilZero message))) c' ∧
      c.Moves c.engine [] result c' := by
  cases failure with
  | none => exact ⟨{ c with result }, rfl, c.records, by rw [List.append_nil]⟩
  | some message => exact failWith_does message { c with result }

/-- What is done with a prepared statement is what it comes to. -/
theorem perform_does (e : Engine σ) (sql : Text) (p : Prepared) (values : List Text)
    (c : Connection σ) :
    ∃ c', (do
        Access.keep ⟨p.columnNames, []⟩
        e.bindValues p values
        let execution ← e.executeFilled p values
        Access.keep ⟨p.columnNames, execution.rows.map (Cell.fit p.columnNames.length)⟩
        if let some message := execution.failure then Access.failWith message :
          Access σ Unit).Does c (e.perform sql p values c.engine).1.outcome c' ∧
      c.Moves (e.perform sql p values c.engine).2 (e.perform sql p values c.engine).1.events
        (e.perform sql p values c.engine).1.result c' := by
  let c₀ : Connection σ := { c with result := ⟨p.columnNames, []⟩ }
  obtain ⟨c₁, hbind, records, hc₁⟩ := bindValues_does e p values c₀
  unfold Engine.perform
  rcases h : e.give p values c.engine with ⟨_ | _, s⟩ <;>
    rw [show c₀.engine = c.engine from rfl, h] at hbind hc₁
  · exact ⟨c₁, (Access.Does.keep _).bind hbind.bind_error, records, hc₁⟩
  · rw [Event.ofAnswer, List.append_nil] at hc₁
    subst hc₁
    have hexecuted := executeFilled_does e p values { c₀ with engine := s, records }
    obtain ⟨c₂, hdelivered, records', hc₂⟩ := deliver_does
      ⟨p.columnNames, (e.execute p (p.fill values) s).1.rows.map (Cell.fit p.columnNames.length)⟩
      (e.execute p (p.fill values) s).1.failure
      { c₀ with
        engine := (e.execute p (p.fill values) s).2
        trace := c.trace ++ [.executed p.sql (p.fill values)
          (e.execute p (p.fill values) s).1.failure]
        records }
    refine ⟨c₂, (Access.Does.keep _).bind (hbind.bind (hexecuted.bind hdelivered)), records', ?_⟩
    rw [hc₂, List.append_nil]

/-- **Sending a statement is one exchange.** -/
theorem queryWith_does (e : Engine σ) (sql : Text) (values : List Text) (c : Connection σ) :
    ∃ c', (e.queryWith sql values).Does c (e.exchange sql values c.engine).1.outcome c' ∧
      c.Moves (e.exchange sql values c.engine).2 (e.exchange sql values c.engine).1.events
        (e.exchange sql values c.engine).1.result c' := by
  -- the log record and the empty result come before anything is said
  let c₀ : Connection σ := { c with result := .empty, records := c.records ++ [.sql sql] }
  have hstart : ∀ {m : Access σ Unit} {o : Except Fault Unit} {c' : Connection σ}, m.Does c₀ o c' →
      (do Access.note (.sql sql); Access.keep .empty; m : Access σ Unit).Does c o c' := fun h => h
  have hmoved : ∀ {s : σ} {events : List Event} {r : ResultSet} {c' : Connection σ},
      c₀.Moves s events r c' → c.Moves s events r c' := fun h => h
  obtain ⟨c₁, hprepare, hmoves⟩ := prepareText_does e sql c₀
  unfold Engine.exchange
  rcases h : e.prepare (Text.untilZero sql) c.engine with ⟨_ | _ | p, s⟩ <;>
    rw [show c₀.engine = c.engine from rfl, h] at hprepare hmoves
  · exact ⟨c₁, hstart hprepare.bind_error, hmoved hmoves⟩
  · exact ⟨c₁, hstart (hprepare.bind (.pure ())), hmoved hmoves⟩
  · obtain ⟨records, hc₁⟩ := hmoves
    rw [Event.ofAnswer, List.append_nil] at hc₁
    subst hc₁
    obtain ⟨c₂, hperform, hmoves⟩ := perform_does e sql p values
      { c₀ with engine := s, records }
    exact ⟨c₂, hstart (hprepare.bind hperform), hmoves⟩

end Exchange

/-! ## 3. Conversations -/

/-- The engine answers statements one after the other just so. -/
inductive Exchanges (e : Engine σ) : σ → List Exchange → σ → Prop
  | nil {s : σ} : Exchanges e s [] s
  | cons {s s' s'' : σ} {x : Exchange} {xs : List Exchange} :
      e.exchange x.sql x.values s = (x, s') → Exchanges e s' xs s'' → Exchanges e s (x :: xs) s''

/-- Between the two connections the engine heard these statements, and no others. -/
structure Engine.Heard (e : Engine σ) (xs : List Exchange) (c c' : Connection σ) : Prop where
  engine : Exchanges e c.engine xs c'.engine
  trace : c'.trace = c.trace ++ xs.flatMap (·.events)

/-- The statements that look up one table, and what they come to: with its database, if there is
    one, and if that is not found alone. -/
inductive Lookup (separator database table : Text) : List Exchange → Except Fault Text → Prop
  | bare {x : Exchange} : database = [] → x.Asks table →
      Lookup separator database table [x] (x.found.map fun _ => table)
  | qualified {x : Exchange} : database ≠ [] → x.Asks (qualifiedName database separator table) →
      x.found = .ok true →
      Lookup separator database table [x] (.ok (qualifiedName database separator table))
  | unqualified {x y : Exchange} : database ≠ [] →
      x.Asks (qualifiedName database separator table) → x.found = .ok false → y.Asks table →
      Lookup separator database table [x, y] (y.found.map fun _ => table)
  | failed {x : Exchange} {fault : Fault} : database ≠ [] →
      x.Asks (qualifiedName database separator table) → x.found = .error fault →
      Lookup separator database table [x] (.error fault)

/-- The statements that look up tables in order, up to the first one that fails. -/
inductive Lookups (separator database : Text) :
    List Text → List Exchange → Except Fault (List Text) → Prop
  | done : Lookups separator database [] [] (.ok [])
  | next {table name : Text} {tables : List Text} {xs ys : List Exchange}
      {o : Except Fault (List Text)} :
      Lookup separator database table xs (.ok name) → Lookups separator database tables ys o →
      Lookups separator database (table :: tables) (xs ++ ys) (o.map (name :: ·))
  | failed {table : Text} {tables : List Text} {xs : List Exchange} {fault : Fault} :
      Lookup separator database table xs (.error fault) →
      Lookups separator database (table :: tables) xs (.error fault)

section Conversation

variable {e : Engine σ} {c c' c'' : Connection σ} {xs ys : List Exchange} {x : Exchange}

theorem Exchanges.append {s s' s'' : σ} (h : Exchanges e s xs s') (h' : Exchanges e s' ys s'') :
    Exchanges e s (xs ++ ys) s'' := by
  induction h with
  | nil => exact h'
  | cons hx _ ih => exact .cons hx (ih h')

theorem Exchanges.eq_of_nil {s s' : σ} (h : Exchanges e s [] s') : s' = s := by
  cases h
  rfl

theorem Engine.Heard.refl (e : Engine σ) (c : Connection σ) (records : List LogRecord) :
    e.Heard [] c { c with records } := ⟨.nil, by simp⟩

theorem Engine.Heard.append (h : e.Heard xs c c') (h' : e.Heard ys c' c'') :
    e.Heard (xs ++ ys) c c'' := by
  refine ⟨h.engine.append h'.engine, ?_⟩
  rw [h'.trace, h.trace, List.flatMap_append, List.append_assoc]

/-- An exchange is about the statement that is said. -/
theorem exchange_echo (e : Engine σ) (sql : Text) (values : List Text) (s : σ) :
    (e.exchange sql values s).1.sql = sql ∧ (e.exchange sql values s).1.values = values := by
  unfold Engine.exchange Engine.perform
  split
  · exact ⟨rfl, rfl⟩
  · exact ⟨rfl, rfl⟩
  · split <;> exact ⟨rfl, rfl⟩

/-- The rows of a statement have one cell for every column. -/
theorem exchange_rows_length (e : Engine σ) (sql : Text) (values : List Text) (s : σ) :
    ∀ row ∈ (e.exchange sql values s).1.result.rows,
      row.length = (e.exchange sql values s).1.result.columns.length := by
  unfold Engine.exchange Engine.perform
  split
  · exact fun row hrow => absurd hrow List.not_mem_nil
  · exact fun row hrow => absurd hrow List.not_mem_nil
  · split
    · exact fun row hrow => absurd hrow List.not_mem_nil
    · intro row hrow
      obtain ⟨row', -, rfl⟩ := List.mem_map.mp hrow
      exact Cell.length_fit _ row'

/-- A statement that is sent is heard. -/
theorem queryWith_heard (e : Engine σ) (sql : Text) (values : List Text) (c : Connection σ) :
    ∃ x c', (e.queryWith sql values).Does c x.outcome c' ∧ x.sql = sql ∧ x.values = values ∧
      c'.result = x.result ∧ e.Heard [x] c c' := by
  obtain ⟨c', hdoes, records, rfl⟩ := queryWith_does e sql values c
  obtain ⟨hsql, hvalues⟩ := exchange_echo e sql values c.engine
  refine ⟨_, _, hdoes, hsql, hvalues, rfl, .cons ?_ .nil, by simp⟩
  rw [hsql, hvalues]

/-- A lookup is one statement. -/
theorem tableExists_heard (e : Engine σ) (table : Text) (c : Connection σ) :
    ∃ x c', (e.tableExists table).Does c x.found c' ∧ x.Asks table ∧ e.Heard [x] c c' := by
  obtain ⟨x, c', hdoes, hsql, hvalues, hresult, hheard⟩ :=
    queryWith_heard e Engine.existsSql [table] c
  refine ⟨x, c', ?_, ⟨hsql, hvalues⟩, hheard⟩
  unfold Exchange.found
  cases houtcome : x.outcome with
  | ok _ =>
    rw [houtcome] at hdoes
    refine hdoes.bind (Access.Does.result.bind ?_)
    rw [hresult]
    exact .pure _
  | error fault =>
    rw [houtcome] at hdoes
    exact hdoes.bind_error

theorem resolveBare_heard (e : Engine σ) (table : Text) (c : Connection σ) :
    ∃ x c', (e.resolver.resolveBare table).Does c (x.found.map fun _ => table) c' ∧
      x.Asks table ∧ e.Heard [x] c c' := by
  obtain ⟨x, c', hdoes, hasks, hheard⟩ := tableExists_heard e table c
  cases hfound : x.found with
  | error fault =>
    rw [hfound] at hdoes
    exact ⟨x, c', by rw [hfound]; exact hdoes.bind_error, hasks, hheard⟩
  | ok found =>
    rw [hfound] at hdoes
    cases found with
    | true =>
      refine ⟨x, c', ?_, hasks, hheard⟩
      rw [hfound]
      exact hdoes.bind rfl
    | false =>
      have hnoted := hheard.append (.refl e c' (c'.records ++ [.debug (ascii "Table " ++ table ++
        ascii " not found, passing it through unresolved")]))
      refine ⟨x, _, ?_, hasks, hnoted⟩
      rw [hfound]
      exact hdoes.bind rfl

/-- **A table is looked up with its database first and then alone.** -/
theorem resolve_heard (e : Engine σ) (separator database table : Text) (c : Connection σ) :
    ∃ xs o c', (e.resolver.resolve separator database table).Does c o c' ∧
      Lookup separator database table xs o ∧ e.Heard xs c c' := by
  unfold TableResolver.resolve
  cases hdatabase : database with
  | nil =>
    obtain ⟨x, c', hdoes, hasks, hheard⟩ := resolveBare_heard e table c
    exact ⟨[x], _, c', hdoes, .bare rfl hasks, hheard⟩
  | cons byte rest =>
    have hne : byte :: rest ≠ [] := List.cons_ne_nil byte rest
    obtain ⟨x, c', hdoes, hasks, hheard⟩ :=
      tableExists_heard e (qualifiedName (byte :: rest) separator table) c
    cases hfound : x.found with
    | error fault =>
      rw [hfound] at hdoes
      exact ⟨[x], _, c', hdoes.bind_error, .failed hne hasks hfound, hheard⟩
    | ok found =>
      rw [hfound] at hdoes
      cases found with
      | true => exact ⟨[x], _, c', hdoes.bind (.pure _), .qualified hne hasks hfound, hheard⟩
      | false =>
        obtain ⟨y, c'', hdoes', hasks', hheard'⟩ := resolveBare_heard e table c'
        exact ⟨[x, y], _, c'', hdoes.bind hdoes', .unqualified hne hasks hfound hasks',
          hheard.append hheard'⟩

/-- **Tables are looked up in order**, up to the first lookup that fails. -/
theorem resolveAll_heard (e : Engine σ) (separator database : Text) (tables : List Text)
    (c : Connection σ) :
    ∃ xs o c', (e.resolver.resolveAll separator database tables).Does c o c' ∧
      Lookups separator database tables xs o ∧ e.Heard xs c c' := by
  unfold TableResolver.resolveAll
  induction tables generalizing c with
  | nil => exact ⟨[], .ok [], c, .pure [], .done, .refl e c c.records⟩
  | cons table tables ih =>
    rw [List.mapM_cons]
    obtain ⟨xs, o, c', hdoes, hlookup, hheard⟩ := resolve_heard e separator database table c
    cases o with
    | error fault => exact ⟨xs, _, c', hdoes.bind_error, .failed hlookup, hheard⟩
    | ok name =>
      obtain ⟨ys, o, c'', hdoes', hlookups, hheard'⟩ := ih c'
      refine ⟨xs ++ ys, o.map (name :: ·), c'', hdoes.bind ?_, .next hlookup hlookups,
        hheard.append hheard'⟩
      cases o with
      | error fault => exact hdoes'.bind_error
      | ok names => exact hdoes'.bind (.pure _)

/-- **A query is translated by looking up its tables.** -/
theorem translate_heard (e : Engine σ) (r : Runner) (q : Query) (c : Connection σ) :
    ∃ xs o c', (r.translate e q).Does c (o.map fun names => (q.selectParts names).sql) c' ∧
      Lookups r.settings.separator q.database q.tables xs o ∧ e.Heard xs c c' := by
  obtain ⟨xs, o, c', hdoes, hlookups, hheard⟩ :=
    resolveAll_heard e r.settings.separator q.database q.tables c
  cases o with
  | error fault => exact ⟨xs, _, c', hdoes.bind_error, hlookups, hheard⟩
  | ok names =>
    have hnoted := hheard.append (.refl e c' (c'.records ++
      [.sql (ascii "Translated: " ++ (q.selectParts names).sql)]))
    rw [List.append_nil] at hnoted
    exact ⟨xs, .ok names, _, hdoes.bind rfl, hlookups, hnoted⟩

end Conversation

end MiningQuery
