/-
  File:      MiningQuery/Proofs/Storage/Requests.lean
  Subject:   What a call asks of the engine, one statement after the other.

  Inserting rows is one step of a call, but many statements: the insertion is prepared once, and
  executed for every row. Here a call is a list of requests, each of which the engine answers in a
  turn of its own.

  * `Request`, `Turn` -- what is asked, and how it ended with what was said for it;
  * `Engine.answer`, `Engine.carryOut` -- one request, and a list of them up to the first that
    fails, which `carryOut_upToFailure` says of the turns;
  * `Engine.enact` -- the same, and behind a failed insertion the transaction is given up;
  * `Reaction.ComesTo` -- the steps of a call come to what its turns come to;
  * `Request.insertions`, `Request.replacement` -- the requests that insert rows, and those that
    replace a table;
  * **`insertRows_enacts`**, **`loadTable_enacts`** -- the calls make these requests.
-/
import MiningQuery.Proofs.Storage.Steps

namespace MiningQuery

variable {σ : Type}

/-! ## 1. Requests and turns -/

/-- Something that a call asks of the engine. -/
inductive Request
  /-- A statement is sent, and its result kept. -/
  | send (sql : Text)
  /-- A statement is executed for a row; for the first row it is prepared. -/
  | insert (sql : Text) (row : List Text)
  /-- The open transaction is given up. -/
  | rollback
  deriving DecidableEq, Repr

/-- A request, how it ended, and what was said to the engine for it. -/
structure Turn where
  request : Request
  outcome : Except Fault Unit
  events : List Event

/-- Did a row fail to be inserted? -/
def Turn.isFailedInsertion (t : Turn) : Bool :=
  match t.request, t.outcome with
  | .insert _ _, .error _ => true
  | _, _ => false

/-- How turns end: with the first failure, if there is one. -/
def Turn.ending : List Turn → Except Fault Unit
  | [] => .ok ()
  | t :: ts =>
    match t.outcome with
    | .error fault => .error fault
    | .ok () => ending ts

/-- Turns take up requests in order, up to the first one that fails. -/
structure UpToFailure (rs : List Request) (ts : List Turn) : Prop where
  requests : ts.map (·.request) <+: rs
  before : ∀ t ∈ ts.dropLast, t.outcome = .ok ()
  last : ts.map (·.request) = rs ∨ ∃ t fault, ts.getLast? = some t ∧ t.outcome = .error fault

/-- The engine, and the insertion that is prepared, if one is. -/
structure Desk (σ : Type) where
  engine : σ
  insertion : Option Prepared := none

namespace Engine

variable (e : Engine σ)

/-- Inserting a row with a prepared insertion. -/
def answerRow (sql : Text) (row : List Text) (p : Prepared) (s : σ) : Turn × Desk σ :=
  let r := e.insertOne p row s
  (⟨.insert sql row, r.outcome, r.events⟩, ⟨r.engine, some p⟩)

/-- Preparing an insertion and inserting its first row. -/
def answerFirstRow (sql : Text) (row : List Text) (s : σ) : Turn × Desk σ :=
  match e.prepare (Text.untilZero sql) s with
  | (.error message, s) =>
    (⟨.insert sql row, Fault.ofFailure (some message), [.refused (Text.untilZero sql) .prepare]⟩,
      ⟨s, none⟩)
  | (.ok none, s) =>
    (⟨.insert sql row, Fault.ofFailure (some (ascii "bad parameter or other API misuse")), []⟩,
      ⟨s, none⟩)
  | (.ok (some p), s) => e.answerRow sql row p s

/-- What comes of a request. A prepared insertion is given up with the next statement. -/
def answer : Request → Desk σ → Turn × Desk σ
  | .send sql, d =>
    let (x, s) := e.exchange sql [] d.engine
    (⟨.send sql, x.outcome, x.events⟩, ⟨s, none⟩)
  | .insert sql row, ⟨s, some p⟩ => e.answerRow sql row p s
  | .insert sql row, ⟨s, none⟩ => e.answerFirstRow sql row s
  | .rollback, d => (⟨.rollback, .ok (), [.rolledBack]⟩, ⟨e.rollback d.engine, none⟩)

/-- What comes of requests, up to the first one that fails. -/
def carryOut : List Request → Desk σ → List Turn × Desk σ
  | [], d => ([], d)
  | r :: rs, d =>
    let (t, d) := e.answer r d
    match t.outcome with
    | .error _ => ([t], d)
    | .ok () =>
      let (ts, d) := carryOut rs d
      (t :: ts, d)

/-- A failure gives the open transaction up. -/
def givingUp (r : Reaction σ) : Reaction σ :=
  match r.outcome with
  | .ok () => r
  | .error _ => { r with engine := e.rollback r.engine, events := r.events ++ [.rolledBack] }

/-- What comes of requests; behind a row that fails to be inserted the transaction is given up. -/
def enact (rs : List Request) (d : Desk σ) : List Turn × Desk σ :=
  let (ts, d) := e.carryOut rs d
  if ts.any Turn.isFailedInsertion then
    let (t, d) := e.answer .rollback d
    (ts ++ [t], d)
  else (ts, d)

end Engine

section CarryOut

variable {e : Engine σ} {r : Request} {rs : List Request} {d : Desk σ} {fault : Fault}

theorem answer_request (e : Engine σ) (r : Request) (d : Desk σ) :
    (e.answer r d).1.request = r := by
  unfold Engine.answer
  split
  · rfl
  · rfl
  · unfold Engine.answerFirstRow
    split <;> rfl
  · rfl

theorem carryOut_cons_ok (h : (e.answer r d).1.outcome = .ok ()) :
    e.carryOut (r :: rs) d = ((e.answer r d).1 :: (e.carryOut rs (e.answer r d).2).1,
      (e.carryOut rs (e.answer r d).2).2) := by
  simp only [Engine.carryOut, h]

theorem carryOut_cons_error (h : (e.answer r d).1.outcome = .error fault) :
    e.carryOut (r :: rs) d = ([(e.answer r d).1], (e.answer r d).2) := by
  simp only [Engine.carryOut, h]

/-- **Requests are carried out up to the first one that fails.** -/
theorem carryOut_upToFailure (e : Engine σ) (rs : List Request) (d : Desk σ) :
    UpToFailure rs (e.carryOut rs d).1 := by
  induction rs generalizing d with
  | nil => exact ⟨List.prefix_refl [], fun t ht => absurd ht List.not_mem_nil, .inl rfl⟩
  | cons r rs ih =>
    have hr := answer_request e r d
    cases h : (e.answer r d).1.outcome with
    | error fault =>
      rw [carryOut_cons_error h]
      exact ⟨List.cons_prefix_cons.mpr ⟨hr, List.nil_prefix⟩,
        fun t ht => absurd ht List.not_mem_nil, .inr ⟨_, fault, rfl, h⟩⟩
    | ok _ =>
      rw [carryOut_cons_ok h]
      obtain ⟨hrequests, hbefore, hlast⟩ := ih (e.answer r d).2
      generalize (e.carryOut rs (e.answer r d).2).1 = ts at *
      refine ⟨List.cons_prefix_cons.mpr ⟨hr, hrequests⟩, ?_, ?_⟩
      · cases ts with
        | nil => exact fun t ht => absurd ht List.not_mem_nil
        | cons t ts => exact List.forall_mem_cons.mpr ⟨h, hbefore⟩
      · rcases hlast with hall | ⟨t, fault, ht, hfault⟩
        · exact .inl (by rw [List.map_cons, hr, hall])
        · exact .inr ⟨t, fault, by rw [List.getLast?_cons, ht]; rfl, hfault⟩

theorem ending_cons_ok {t : Turn} (h : t.outcome = .ok ()) (ts : List Turn) :
    Turn.ending (t :: ts) = Turn.ending ts := by
  rw [Turn.ending, h]

theorem ending_cons_error {t : Turn} (h : t.outcome = .error fault) (ts : List Turn) :
    Turn.ending (t :: ts) = .error fault := by
  rw [Turn.ending, h]

theorem ending_eq_ok_iff {ts : List Turn} :
    Turn.ending ts = .ok () ↔ ∀ t ∈ ts, t.outcome = .ok () := by
  induction ts with
  | nil => exact iff_of_true rfl fun t ht => absurd ht List.not_mem_nil
  | cons t ts ih =>
    rw [List.forall_mem_cons, ← ih]
    cases h : t.outcome with
    | error fault =>
      rw [ending_cons_error h]
      exact iff_of_false nofun nofun
    | ok _ =>
      rw [ending_cons_ok h]
      exact (and_iff_right rfl).symm

end CarryOut

/-! ## 2. Reactions and turns -/

/-- The turn is answered as the reaction says. -/
structure Reaction.Answers (r : Reaction σ) (x : Turn × Desk σ) : Prop where
  outcome : x.1.outcome = r.outcome
  events : x.1.events = r.events
  engine : x.2.engine = r.engine

/-- The reaction is that of the turns, one after the other. -/
structure Reaction.ComesTo (r : Reaction σ) (x : List Turn × Desk σ) : Prop where
  outcome : r.outcome = Turn.ending x.1
  events : r.events = x.1.flatMap (·.events)
  engine : r.engine = x.2.engine

section Enact

variable {e : Engine σ} {q : Request} {rs : List Request} {d : Desk σ} {fault : Fault}
  {r : Reaction σ} {next : σ → Reaction σ} {sql : Text} {row : List Text}

theorem enact_cons_ok (h : (e.answer q d).1.outcome = .ok ()) :
    e.enact (q :: rs) d = ((e.answer q d).1 :: (e.enact rs (e.answer q d).2).1,
      (e.enact rs (e.answer q d).2).2) := by
  have hno : (e.answer q d).1.isFailedInsertion = false := by
    unfold Turn.isFailedInsertion
    rw [h]
    split <;> simp_all
  simp only [Engine.enact, carryOut_cons_ok h, List.any_cons, hno, Bool.false_or]
  split <;> rfl

/-- A statement that fails is the last turn. -/
theorem enact_send_error (h : (e.answer (.send sql) d).1.outcome = .error fault) :
    e.enact (.send sql :: rs) d = ([(e.answer (.send sql) d).1], (e.answer (.send sql) d).2) := by
  have hno : (e.answer (.send sql) d).1.isFailedInsertion = false := rfl
  simp only [Engine.enact, carryOut_cons_error h, List.any_cons, hno, Bool.false_or,
    List.any_nil, Bool.false_eq_true, if_false]

/-- A row that fails is the last turn but one. -/
theorem enact_insert_error (h : (e.answer (.insert sql row) d).1.outcome = .error fault) :
    e.enact (.insert sql row :: rs) d =
      ([(e.answer (.insert sql row) d).1, (e.answer .rollback (e.answer (.insert sql row) d).2).1],
        (e.answer .rollback (e.answer (.insert sql row) d).2).2) := by
  have hyes : (e.answer (.insert sql row) d).1.isFailedInsertion = true := by
    unfold Turn.isFailedInsertion
    rw [answer_request, h]
  simp only [Engine.enact, carryOut_cons_error h, List.any_cons, hyes, Bool.true_or, if_true]
  rfl

/-- A request that succeeds, in front of others. -/
theorem comesTo_cons (hq : r.Answers (e.answer q d)) (hr : r.outcome = .ok ())
    (h : (next r.engine).ComesTo (e.enact rs (e.answer q d).2)) :
    (r.andThen next).ComesTo (e.enact (q :: rs) d) := by
  have hturn : (e.answer q d).1.outcome = .ok () := by rw [hq.outcome, hr]
  rw [Reaction.andThen_of_ok hr, enact_cons_ok hturn]
  refine ⟨?_, ?_, h.engine⟩
  · rw [ending_cons_ok hturn]
    exact h.outcome
  · rw [List.flatMap_cons, hq.events, ← h.events]

/-- A statement that fails, in front of others. -/
theorem comesTo_failed_send (hq : r.Answers (e.answer (.send sql) d))
    (hr : r.outcome = .error fault) :
    (r.andThen next).ComesTo (e.enact (.send sql :: rs) d) := by
  have hturn : (e.answer (.send sql) d).1.outcome = .error fault := by rw [hq.outcome, hr]
  rw [Reaction.andThen_of_error hr, enact_send_error hturn]
  refine ⟨?_, ?_, hq.engine.symm⟩
  · rw [ending_cons_error hturn, hr]
  · simp [hq.events]

theorem givingUp_of_error (hr : r.outcome = .error fault) : e.givingUp r =
    { r with engine := e.rollback r.engine, events := r.events ++ [.rolledBack] } := by
  rw [Engine.givingUp, hr]

theorem givingUp_andThen (hr : r.outcome = .ok ()) (next : σ → Reaction σ) :
    e.givingUp (r.andThen next) = r.andThen fun s => e.givingUp (next s) := by
  rw [Reaction.andThen_of_ok hr, Reaction.andThen_of_ok hr]
  cases hnext : (next r.engine).outcome with
  | error fault =>
    rw [givingUp_of_error hnext, givingUp_of_error rfl]
    simp only [hnext, List.append_assoc]
  | ok _ => simp only [Engine.givingUp, hnext]

/-- A row that fails, in front of others: the transaction is given up. -/
theorem comesTo_failed_insert (hq : r.Answers (e.answer (.insert sql row) d))
    (hr : r.outcome = .error fault) :
    ((e.givingUp r).andThen next).ComesTo (e.enact (.insert sql row :: rs) d) := by
  have hturn : (e.answer (.insert sql row) d).1.outcome = .error fault := by rw [hq.outcome, hr]
  have hgiven : (e.givingUp r).outcome = .error fault := by rw [givingUp_of_error hr, hr]
  rw [Reaction.andThen_of_error hgiven, enact_insert_error hturn, givingUp_of_error hr]
  refine ⟨?_, ?_, ?_⟩
  · rw [ending_cons_error hturn, hr]
  · rw [List.flatMap_cons, hq.events]
    rfl
  · rw [← hq.engine]
    rfl

end Enact

section Follow

variable {e : Engine σ} {rs : List Request} {steps : List StorageStep}

theorem follow_nil_comesTo (e : Engine σ) (d : Desk σ) :
    (e.follow [] d.engine).ComesTo (e.enact [] d) := ⟨rfl, rfl, rfl⟩

/-- **A statement in front of steps is a request in front of theirs.** -/
theorem follow_send_comesTo (h : ∀ s, (e.follow steps s).ComesTo (e.enact rs ⟨s, none⟩))
    (sql : Text) (d : Desk σ) :
    (e.follow (.send sql [] :: steps) d.engine).ComesTo (e.enact (.send sql :: rs) d) := by
  have hq : (e.take (.send sql []) d.engine).Answers (e.answer (.send sql) d) := ⟨rfl, rfl, rfl⟩
  rw [Engine.follow]
  cases houtcome : (e.take (.send sql []) d.engine).outcome with
  | error fault => exact comesTo_failed_send hq houtcome
  | ok _ => exact comesTo_cons hq houtcome (h _)

/-- With a prepared insertion each row is a request. -/
theorem insertEach_comesTo (h : ∀ d : Desk σ, (e.follow steps d.engine).ComesTo (e.enact rs d))
    (sql : Text) (p : Prepared) (rows : List (List Text)) (s : σ) :
    ((e.givingUp (e.insertEach p rows s)).andThen (e.follow steps)).ComesTo
      (e.enact (rows.map (.insert sql) ++ rs) ⟨s, some p⟩) := by
  induction rows generalizing s with
  | nil => exact h ⟨s, some p⟩
  | cons row rows ih =>
    have hq : (e.insertOne p row s).Answers (e.answer (.insert sql row) ⟨s, some p⟩) :=
      ⟨rfl, rfl, rfl⟩
    rw [Engine.insertEach, List.map_cons, List.cons_append]
    cases houtcome : (e.insertOne p row s).outcome with
    | error fault =>
      rw [Reaction.andThen_of_error houtcome]
      exact comesTo_failed_insert hq houtcome
    | ok _ =>
      rw [givingUp_andThen houtcome, Reaction.andThen_assoc]
      exact comesTo_cons hq houtcome (ih _)

/-- **Each row to insert is a request**; with the first one the insertion is prepared. -/
theorem follow_insert_comesTo (h : ∀ d : Desk σ, (e.follow steps d.engine).ComesTo (e.enact rs d))
    (sql : Text) (row : List Text) (rows : List (List Text)) (s : σ) :
    (e.follow (.insert sql (row :: rows) :: steps) s).ComesTo
      (e.enact ((row :: rows).map (.insert sql) ++ rs) ⟨s, none⟩) := by
  show ((e.givingUp (e.insertAll sql (row :: rows) s)).andThen (e.follow steps)).ComesTo _
  have hanswer : e.answer (.insert sql row) ⟨s, none⟩ = e.answerFirstRow sql row s := rfl
  unfold Engine.answerFirstRow at hanswer
  unfold Engine.insertAll
  rw [List.map_cons, List.cons_append]
  rcases hprepare : e.prepare (Text.untilZero sql) s with ⟨message | _ | p, s'⟩ <;>
    rw [hprepare] at hanswer
  · exact comesTo_failed_insert (hanswer ▸ ⟨rfl, rfl, rfl⟩) rfl
  · exact comesTo_failed_insert (hanswer ▸ ⟨rfl, rfl, rfl⟩) rfl
  · -- From here on it is as if the insertion had been prepared before.
    have hprepared : e.answer (.insert sql row) ⟨s', some p⟩ = e.answerRow sql row p s' := rfl
    have hsame : e.enact (.insert sql row :: (rows.map (.insert sql) ++ rs)) ⟨s, none⟩ =
        e.enact (.insert sql row :: (rows.map (.insert sql) ++ rs)) ⟨s', some p⟩ := by
      simp only [Engine.enact, Engine.carryOut, hanswer, hprepared]
    rw [hsame]
    exact insertEach_comesTo h sql p (row :: rows) s'

end Follow

/-! ## 3. The requests of calls -/

namespace Request

/-- A transaction is begun. -/
def start : Request := .send (ascii "BEGIN TRANSACTION")

/-- The transaction is ended. -/
def finish : Request := .send (ascii "END TRANSACTION")

/-- The requests that insert rows into a table, with a placeholder for each of `width` values. -/
def transaction (table : Text) (width : Nat) (rows : List (List Text)) : List Request :=
  start :: (rows.map (.insert (Engine.insertSql table width)) ++ [finish])

/-- The requests of inserting rows. The first one says how many placeholders there are. -/
def insertions (table : Text) (rows : List (List Text)) : List Request :=
  if (rows.headD []).length = 0 then [] else transaction table (rows.headD []).length rows

/-- The requests that replace a table by rows. -/
def replacement (table : Text) (columns : List ColumnSpec) (rows : List (List Text)) :
    List Request :=
  .send (ascii "DROP TABLE IF EXISTS " ++ table) ::
    .send (ascii "CREATE TABLE " ++ table ++ ascii " (" ++
      Text.join (ascii ", ") (columns.map ColumnSpec.sql) ++ ascii ")") ::
    if rows.isEmpty then [] else transaction table columns.length rows

end Request

section Calls

variable {e : Engine σ}

theorem insertions_comesTo (e : Engine σ) (table : Text) (rows : List (List Text)) (s : σ) :
    (e.follow (StorageStep.insertions table rows) s).ComesTo
      (e.enact (Request.insertions table rows) ⟨s, none⟩) := by
  unfold StorageStep.insertions Request.insertions
  split
  · exact follow_nil_comesTo e ⟨s, none⟩
  · cases rows with
    | nil => contradiction
    | cons row rows =>
      exact follow_send_comesTo (fun s => follow_insert_comesTo
        (follow_send_comesTo (fun s => follow_nil_comesTo e ⟨s, none⟩) _) _ row rows s) _ ⟨s, none⟩

/-- If no row is ragged, replacing a table is one request after the other. -/
theorem loading_comesTo (e : Engine σ) (name : Text) {columns : List ColumnSpec}
    {rows : List (List Text)} (hcolumns : columns ≠ [])
    (hrows : ∀ row ∈ rows, row.length = columns.length) (s : σ) :
    (e.follow (StorageStep.loading name columns rows) s).ComesTo
      (e.enact (Request.replacement name columns rows) ⟨s, none⟩) := by
  have hnone : (rows.find? fun row => row.length != columns.length) = none :=
    List.find?_eq_none.mpr fun row hrow => by simp [hrows row hrow]
  have hsame : (if rows.isEmpty then [] else Request.transaction name columns.length rows) =
      Request.insertions name rows := by
    cases rows with
    | nil => rfl
    | cons row rows =>
      have hwidth : row.length = columns.length := hrows row List.mem_cons_self
      have hne : columns.length ≠ 0 := fun h => hcolumns (List.eq_nil_of_length_eq_zero h)
      simp [Request.insertions, hwidth, hne]
  unfold StorageStep.loading StorageStep.creation Request.replacement
  rw [hnone, hsame, if_neg (by simpa using hcolumns)]
  exact follow_send_comesTo (fun s => follow_send_comesTo
    (insertions_comesTo e name rows) _ ⟨s, none⟩) _ ⟨s, none⟩

/-- **Inserting rows makes the requests of doing so.** -/
theorem insertRows_enacts (e : Engine σ) (table : Text) (rows : List (List Text))
    (c : Connection σ) :
    let x := e.enact (Request.insertions table rows) ⟨c.engine, none⟩
    ∃ c', (e.insertRows table rows).Does c (Turn.ending x.1) c' ∧
      c'.trace = c.trace ++ x.1.flatMap (·.events) ∧ c'.engine = x.2.engine := by
  intro x
  obtain ⟨houtcome, hevents, hengine⟩ := insertions_comesTo e table rows c.engine
  obtain ⟨c', hdoes, records, hc'⟩ := insertRows_follows e table rows c
  rw [houtcome, show ∀ o : Except Fault Unit, o.map (fun _ => ()) = o from
    congrFun Except.map_id] at hdoes
  rw [hevents, hengine] at hc'
  exact ⟨c', hdoes, by rw [hc'], by rw [hc']⟩

/-- **Loading rows of the right width makes the requests that replace the table.** -/
theorem loadTable_enacts (e : Engine σ) (table database : Text) {columns : List ColumnSpec}
    {rows : List (List Text)} (hcolumns : columns ≠ [])
    (hrows : ∀ row ∈ rows, row.length = columns.length) (c : Connection σ) :
    let name := Engine.storedName database c.separator table
    let x := e.enact (Request.replacement name columns rows) ⟨c.engine, none⟩
    ∃ c', (e.loadTable table columns rows database).Does c
        ((Turn.ending x.1).map fun _ => name) c' ∧
      c'.trace = c.trace ++ x.1.flatMap (·.events) ∧ c'.engine = x.2.engine := by
  intro name x
  obtain ⟨houtcome, hevents, hengine⟩ := loading_comesTo e name hcolumns hrows c.engine
  obtain ⟨c', hdoes, records, hc'⟩ := loadTable_follows e table columns rows database c
  rw [houtcome] at hdoes
  rw [hevents, hengine] at hc'
  exact ⟨c', hdoes, by rw [hc'], by rw [hc']⟩

end Calls

end MiningQuery
