/-
  File:      MiningQuery/Proofs/Storage/Columns.lean
  Subject:   The result of the last statement, held column by column.

  A result can be held in four fields that a statement changes one after the other: they are
  cleared, then the columns are laid out, then the cells of a row are pushed onto the columns. The
  statement can fail between any two of these changes, and what it has changed so far stays.

  * `HeldResult`, `HeldResult.IsConsistent` -- the fields, and what has to be true of them;
  * `Engine.hold` -- what a statement does to fields of any content;
  * `hold_eq_held` -- it leaves the result of its exchange, at each of its exits;
  * `HeldResult.Admits`, `HeldResult.at?` -- the places that pass the test of a reader, in 32 bits,
    and what stands there;
  * **`result_of_last_statement`** -- whatever the engine answers and whatever is called, the fields
    are consistent and belong to the last statement that was sent;
  * `not_every_admitted_place_has_a_cell` -- a place that passes the test and lies outside, and a
    statement that an engine answers in another way later.
-/
import MiningQuery.Proofs.Storage.Steps
import MiningQuery.Storage.Script

namespace MiningQuery

variable {σ : Type}

/-! ## 1. The fields -/

/-- A result, held column by column. -/
structure HeldResult where
  names : List Text := []
  columnCount : Nat := 0
  rowCount : Nat := 0
  columns : List (List Cell) := []
  deriving DecidableEq, Repr

/-- The result in this form. -/
def ResultSet.held (r : ResultSet) : HeldResult where
  names := r.columns
  columnCount := r.columns.length
  rowCount := r.rows.length
  columns := (List.range r.columns.length).map fun i => r.rows.map (·.getD i Cell.null)

namespace HeldResult

/-- There is one column for each name, and every column has one cell for each row. -/
structure IsConsistent (h : HeldResult) : Prop where
  names : h.columnCount = h.names.length
  columns : h.columnCount = h.columns.length
  cells : ∀ column ∈ h.columns, column.length = h.rowCount

/-- Forgets the result of the statement before. -/
def clear (_ : HeldResult) : HeldResult := {}

/-- Lays out the columns of a statement behind the names that are there. -/
def layOut (h : HeldResult) (names : List Text) : HeldResult :=
  { h with
    columnCount := names.length
    names := h.names ++ names
    columns := h.columns.take names.length ++
      List.replicate (names.length - h.columns.length) [] }

/-- Counts a row and pushes its cells onto the columns. -/
def push (h : HeldResult) (row : List Cell) : HeldResult :=
  { h with
    rowCount := h.rowCount + 1
    columns := h.columns.zipWith (fun column cell => column ++ [cell])
      (Cell.fit h.columnCount row) }

/-- The cell of a place. -/
def cell? (h : HeldResult) (row column : Nat) : Option Cell := h.columns[column]?.bind (·[row]?)

/-- The place passes the test of a reader, who compares with the counts cut down to 32 bits with a
    sign. -/
def Admits (h : HeldResult) (row column : Int) : Prop :=
  row < (h.rowCount : Int).bmod 4294967296 ∧ column < (h.columnCount : Int).bmod 4294967296

instance (h : HeldResult) (row column : Int) : Decidable (h.Admits row column) :=
  inferInstanceAs (Decidable (_ ∧ _))

/-- The cell of a place with a sign; there is none before the first row or the first column. -/
def at? (h : HeldResult) (row column : Int) : Option Cell :=
  if 0 ≤ row ∧ 0 ≤ column then h.cell? row.toNat column.toNat else none

end HeldResult

/-- What a statement does to the fields. It ends early where the engine refuses it or has nothing to
    do. -/
def Engine.hold (e : Engine σ) (h : HeldResult) (m : SentStatement σ) : HeldResult :=
  match e.prepare (Text.untilZero m.sql) m.engine with
  | (.error _, _) => h.clear
  | (.ok none, _) => h.clear
  | (.ok (some p), s) =>
    match e.give p m.values s with
    | (.error _, _) => h.clear.layOut p.columnNames
    | (.ok (), s) =>
      (e.execute p (p.fill m.values) s).1.rows.foldl HeldResult.push
        (h.clear.layOut p.columnNames)

/-! ## 2. The fields hold the result -/

section Held

variable {names : List Text} {rows : List (List Cell)} {r : ResultSet}

theorem layOut_eq_held (h : HeldResult) (names : List Text) :
    h.clear.layOut names = (ResultSet.mk names []).held := by
  simp [HeldResult.layOut, HeldResult.clear, ResultSet.held, List.map_const']

/-- Pushing a row is adding it to the result, cut or filled up to one cell for each column. -/
theorem push_held (names : List Text) (rows : List (List Cell)) (row : List Cell) :
    (ResultSet.mk names rows).held.push row =
      (ResultSet.mk names (rows ++ [Cell.fit names.length row])).held := by
  have hcolumns : ((List.range names.length).map fun i => rows.map (·.getD i Cell.null)).zipWith
      (fun column cell => column ++ [cell]) (Cell.fit names.length row) =
      (List.range names.length).map fun i =>
        (rows ++ [Cell.fit names.length row]).map (·.getD i Cell.null) := by
    refine List.ext_getElem (by simp [Cell.length_fit]) fun i hi _ => ?_
    have hcell : i < (Cell.fit names.length row).length := by
      simp only [List.length_zipWith] at hi
      omega
    simp [hcell]
  simp only [HeldResult.push, ResultSet.held, hcolumns, List.length_append, List.length_singleton]

theorem foldl_push_held (names : List Text) (rows more : List (List Cell)) :
    more.foldl HeldResult.push (ResultSet.mk names rows).held =
      (ResultSet.mk names (rows ++ more.map (Cell.fit names.length))).held := by
  induction more generalizing rows with
  | nil => simp
  | cons row more ih =>
    rw [List.foldl_cons, push_held, ih, List.map_cons, List.append_assoc]
    rfl

/-- **A statement leaves its own result in the fields**, whatever was in them. -/
theorem hold_eq_held (e : Engine σ) (h : HeldResult) (m : SentStatement σ) :
    e.hold h m = (e.leaves m).held := by
  unfold Engine.hold Engine.leaves Engine.exchange Engine.perform
  rcases e.prepare (Text.untilZero m.sql) m.engine with ⟨_ | _ | p, s⟩
  · rfl
  · rfl
  · dsimp only
    rcases e.give p m.values s with ⟨_ | _, s⟩
    · exact layOut_eq_held h p.columnNames
    · dsimp only
      rw [layOut_eq_held, foldl_push_held]
      rfl

theorem ResultSet.held_isConsistent (r : ResultSet) : r.held.IsConsistent := by
  refine ⟨rfl, by simp [held], fun column hcolumn => ?_⟩
  obtain ⟨i, -, rfl⟩ := List.mem_map.mp hcolumn
  exact List.length_map _

/-- A result whose rows are filled up has the same cells in both forms. -/
theorem held_cell (hr : ∀ row ∈ r.rows, row.length = r.columns.length) (row column : Nat) :
    r.held.cell? row column = r.cell? row column := by
  unfold HeldResult.cell? ResultSet.held ResultSet.cell?
  by_cases hcolumn : column < r.columns.length
  · rw [if_pos hcolumn]
    cases hrow : r.rows[row]? with
    | none => simp [hcolumn, hrow]
    | some cells =>
      have hlength := hr cells (List.mem_of_getElem? hrow)
      simp [hcolumn, hrow, hlength]
  · simp [hcolumn]

/-- A place that a reader is admitted to lies inside the counts. -/
theorem HeldResult.Admits.lt {h : HeldResult} {row column : Int} (ha : h.Admits row column) :
    row < h.rowCount ∧ column < h.columnCount := by
  have hle : ∀ n : Nat, (n : Int).bmod 4294967296 ≤ n := by
    intro n
    unfold Int.bmod
    dsimp only
    split <;> omega
  exact ⟨Int.lt_of_lt_of_le ha.1 (hle _), Int.lt_of_lt_of_le ha.2 (hle _)⟩

/-- In fields that are consistent, a place inside the counts has a cell. -/
theorem HeldResult.IsConsistent.exists_cell {h : HeldResult} (hc : h.IsConsistent)
    (row column : Nat) (hrow : row < h.rowCount) (hcolumn : column < h.columnCount) :
    ∃ cell, h.cell? row column = some cell := by
  rw [hc.columns] at hcolumn
  have hlength := hc.cells _ (List.getElem_mem hcolumn)
  refine ⟨h.columns[column][row], ?_⟩
  rw [cell?, List.getElem?_eq_getElem hcolumn]
  exact List.getElem?_eq_getElem (hlength ▸ hrow)

/-- **A place that a reader is admitted to has a cell unless it lies before the first one.** -/
theorem HeldResult.Admits.at_iff {h : HeldResult} {row column : Int} (ha : h.Admits row column)
    (hc : h.IsConsistent) : (∃ cell, h.at? row column = some cell) ↔ 0 ≤ row ∧ 0 ≤ column := by
  obtain ⟨hrow, hcolumn⟩ := ha.lt
  constructor
  · rintro ⟨cell, hcell⟩
    exact (Option.ite_none_right_eq_some.mp hcell).1
  · intro hplace
    rw [at?, if_pos hplace]
    exact hc.exists_cell row.toNat column.toNat (by omega) (by omega)

end Held

/-! ## 3. Calls one after the other -/

/-- The connection behind some calls. What a call has done before it fails stays done. -/
def Connection.after (e : Engine σ) (calls : List StorageCall) (c : Connection σ) : Connection σ :=
  calls.foldl (fun c call => ((call.perform e).run.run c).2) c

/-- The statements that the calls send so that their result is kept. -/
def Engine.sentBy (e : Engine σ) (separator : Text) :
    List StorageCall → σ → List (SentStatement σ)
  | [], _ => []
  | call :: calls, s =>
    let r := e.follow (call.steps separator) s
    r.sent ++ sentBy e separator calls r.engine

section Calls

variable {e : Engine σ}

/-- One call leaves the result of the last statement that it sends. -/
theorem perform_leads (e : Engine σ) (call : StorageCall) (c : Connection σ) :
    (e.follow (call.steps c.separator) c.engine).Leads e c ((call.perform e).run.run c).2 := by
  obtain ⟨o, c', hdoes, hleads, -⟩ := perform_follows e call c
  rw [show (call.perform e).run.run c = (o, c') from hdoes]
  exact hleads

/-- Behind all calls the result is that of the last statement sent. -/
theorem after_result (e : Engine σ) (calls : List StorageCall) (c : Connection σ) :
    (Connection.after e calls c).result =
      e.lastResult c.result (e.sentBy c.separator calls c.engine) := by
  induction calls generalizing c with
  | nil => rfl
  | cons call calls ih =>
    obtain ⟨records, hc⟩ := perform_leads e call c
    show (Connection.after e calls ((call.perform e).run.run c).2).result = _
    rw [ih, hc, Engine.sentBy, Engine.lastResult_append]

/-- The fields follow the result from statement to statement. -/
theorem foldl_hold (e : Engine σ) (sent : List (SentStatement σ)) (r : ResultSet) :
    sent.foldl e.hold r.held = (e.lastResult r sent).held := by
  induction sent generalizing r with
  | nil => rfl
  | cons m sent ih =>
    rw [List.foldl_cons, hold_eq_held, ih, ← List.singleton_append, Engine.lastResult_append]
    rfl

/-- The rows of a result that statements have left have one cell for each column. -/
theorem lastResult_rows (e : Engine σ) (sent : List (SentStatement σ)) :
    ∀ row ∈ (e.lastResult .empty sent).rows,
      row.length = (e.lastResult .empty sent).columns.length := by
  unfold Engine.lastResult
  cases sent.getLast? with
  | none => exact fun row hrow => absurd hrow List.not_mem_nil
  | some m => exact exchange_rows_length e m.sql m.values m.engine

/-- **The result always belongs to the last statement.** Whatever the engine answers and whatever is
    called, at every end of a call the fields are consistent; they and the result are what the last
    statement alone leaves on a connection of its own, to the engine as it was when the statement was
    sent. A place that a reader is admitted to lies below the counts, and has a cell if and only if
    neither number is negative (places count from zero); it is the cell of the result. -/
theorem result_of_last_statement (e : Engine σ) (separator : Text) (s : σ)
    (calls : List StorageCall) :
    let c := Connection.after e calls { engine := s, separator }
    let sent := e.sentBy separator calls s
    let fields := sent.foldl e.hold {}
    fields.IsConsistent ∧ fields = c.result.held ∧
      (match sent.getLast? with
        | none => fields = {} ∧ c.result = .empty
        | some m => fields = e.hold {} m ∧ ∃ o c',
          (e.queryWith m.sql m.values).Does { engine := m.engine } o c' ∧ c'.result = c.result) ∧
      (∀ row column : Int, fields.Admits row column →
        row < fields.rowCount ∧ column < fields.columnCount ∧
          ((∃ cell, fields.at? row column = some cell) ↔ 0 ≤ row ∧ 0 ≤ column)) ∧
      ∀ row column : Nat, fields.cell? row column = c.result.cell? row column := by
  intro c sent fields
  have hresult : c.result = e.lastResult .empty sent :=
    after_result e calls { engine := s, separator }
  have hheld : fields = c.result.held := (foldl_hold e sent .empty).trans (by rw [hresult])
  have hconsistent : fields.IsConsistent := hheld ▸ ResultSet.held_isConsistent c.result
  refine ⟨hconsistent, hheld, ?_, fun row column ha => ?_, fun row column => ?_⟩
  · cases hlast : sent.getLast? with
    | none =>
      have hempty : c.result = .empty := by
        rw [hresult, Engine.lastResult, hlast]
        rfl
      exact ⟨hheld.trans (by rw [hempty]; rfl), hempty⟩
    | some m =>
      have hleft : c.result = e.leaves m := by
        rw [hresult, Engine.lastResult, hlast]
        rfl
      obtain ⟨c', hdoes, records, hc'⟩ := queryWith_does e m.sql m.values { engine := m.engine }
      refine ⟨hheld.trans (by rw [hleft, hold_eq_held]), _, c', hdoes, ?_⟩
      rw [hleft, hc']
      rfl
  · exact ⟨ha.lt.1, ha.lt.2, ha.at_iff hconsistent⟩
  · rw [hheld]
    exact held_cell (hresult ▸ lastResult_rows e sent) row column

/-- An engine that answers one statement once, with one row of one cell. -/
def answersOnce : Script where
  replies := [{ sql := ascii "SELECT 1 AS i", columns := [ascii "i"]
                rows := [[⟨.integer, ascii "1"⟩]], uses := some 1 }]

/-- **A place may pass the test of a reader and have no cell**: the test asks only for what is below
    the counts, so it lets the row before the first one pass. And what a statement leaves depends on
    when it is sent: the second time the engine has no answer to it, whereas alone it leaves one. -/
theorem not_every_admitted_place_has_a_cell :
    let sql := ascii "SELECT 1 AS i"
    (¬ ∀ (calls : List StorageCall) (row column : Int),
      let fields := (Script.engine.sentBy [] calls answersOnce).foldl Script.engine.hold {}
      fields.Admits row column → ∃ cell, fields.at? row column = some cell) ∧
    ¬ ∀ calls : List StorageCall,
      (Connection.after Script.engine (calls ++ [.query sql]) { engine := answersOnce }).result =
        (Connection.after Script.engine [.query sql] { engine := answersOnce }).result := by
  intro sql
  refine ⟨fun h => ?_, fun h => ?_⟩
  · obtain ⟨cell, hcell⟩ := h [.query sql] (-1) 0 (by decide +kernel)
    cases hcell
  · exact absurd (h [.query sql]) (by decide +kernel)

end Calls

end MiningQuery
