/-
  File:      MiningQuery/Proofs/Storage/Loading.lean
  Subject:   Loading a table: every row is checked first, and then the table is replaced.

  A row that does not have a value for each column ends the call before anything is said. Otherwise
  the requests that replace the table are made in order, up to the first one that fails; if that is
  a row, the transaction is given up behind it.

  * `loadTable_of_ragged` -- a ragged row ends the call, and the connection stays as it is;
  * `enact_ending`, `enact_events` -- giving up a transaction is the last that is said, and does not
    change how the turns end;
  * **`loadTable_replaces`** -- checked first, and replaced then; the call succeeds if and only if
    all requests were made with success.
-/
import Mathlib.Control.Monad.Basic
import MiningQuery.Proofs.Storage.Requests
import MiningQuery.Storage.Script

namespace MiningQuery

variable {σ : Type}

/-! ## 1. A ragged row -/

section Ragged

variable {columns : List ColumnSpec} {rows : List (List Text)}

/-- **A ragged row ends the call, and the connection stays as it is.** -/
theorem loadTable_of_ragged (e : Engine σ) (table database : Text)
    (h : ∃ row ∈ rows, row.length ≠ columns.length) (c : Connection σ) :
    ∃ row ∈ rows, row.length ≠ columns.length ∧
      (e.loadTable table columns rows database).Does c (.error (.raggedRow row.length
        columns.length (Engine.storedName database c.separator table))) c := by
  obtain ⟨row, hrow, hragged⟩ := h
  have hsome : (rows.find? fun row => row.length != columns.length).isSome := by
    rw [List.find?_isSome]
    exact ⟨row, hrow, bne_iff_ne.mpr hragged⟩
  obtain ⟨first, hfirst⟩ := Option.isSome_iff_exists.mp hsome
  refine ⟨first, List.mem_of_find?_eq_some hfirst, ?_, ?_⟩
  · simpa using List.find?_some hfirst
  · have hget : (get : Access σ (Connection σ)).Does c (.ok c) c := rfl
    refine hget.bind ?_
    dsimp only
    rw [hfirst]
    rfl

end Ragged

/-! ## 2. Giving up the transaction -/

section Enact

variable {e : Engine σ} {rs : List Request} {ts : List Turn} {d : Desk σ}

theorem ending_append_ok {t : Turn} (h : t.outcome = .ok ()) :
    Turn.ending (ts ++ [t]) = Turn.ending ts := by
  induction ts with
  | nil => rw [List.nil_append, ending_cons_ok h]
  | cons t' ts ih =>
    cases h' : t'.outcome with
    | error fault => rw [List.cons_append, ending_cons_error h', ending_cons_error h']
    | ok _ => rw [List.cons_append, ending_cons_ok h', ending_cons_ok h', ih]

/-- Giving up the transaction does not change how the turns end. -/
theorem enact_ending (e : Engine σ) (rs : List Request) (d : Desk σ) :
    Turn.ending (e.enact rs d).1 = Turn.ending (e.carryOut rs d).1 := by
  unfold Engine.enact
  dsimp only
  split
  · exact ending_append_ok rfl
  · rfl

/-- Giving up the transaction is the last that is said. -/
theorem enact_events (e : Engine σ) (rs : List Request) (d : Desk σ) :
    (e.enact rs d).1.flatMap (·.events) = (e.carryOut rs d).1.flatMap (·.events) ++
      if (e.carryOut rs d).1.any Turn.isFailedInsertion then [.rolledBack] else [] := by
  unfold Engine.enact
  dsimp only
  split
  · rw [List.flatMap_append]
    rfl
  · exact (List.append_nil _).symm

/-- The requests end with success if and only if all of them were made, each with success. -/
theorem UpToFailure.ending_eq_ok_iff (h : UpToFailure rs ts) : Turn.ending ts = .ok () ↔
    ts.map (·.request) = rs ∧ ∀ t ∈ ts, t.outcome = .ok () := by
  rw [MiningQuery.ending_eq_ok_iff]
  refine ⟨fun hok => ⟨?_, hok⟩, And.right⟩
  rcases h.last with hall | ⟨t, fault, ht, hfault⟩
  · exact hall
  · rw [hok t (List.mem_of_getLast? ht)] at hfault
    cases hfault

end Enact

/-! ## 3. The call -/

/-- **Every row is checked first, and then the table is replaced.** With a ragged row the call fails
    and the connection stays as it is. Without one the requests are made in order up to the first
    that fails, with the transaction given up behind a row that fails; and the call gives the stored
    name if and only if all of them were made with success. -/
theorem loadTable_replaces (e : Engine σ) (table database : Text) {columns : List ColumnSpec}
    (hcolumns : columns ≠ []) (rows : List (List Text)) (c : Connection σ) :
    let name := Engine.storedName database c.separator table
    let plan := Request.replacement name columns rows
    let turns := (e.carryOut plan ⟨c.engine, none⟩).1
    ((∃ row ∈ rows, row.length ≠ columns.length) → ∃ fault,
      (e.loadTable table columns rows database).Does c (.error fault) c ∧ fault.message?.isSome ∧
      ∃ row ∈ rows, row.length ≠ columns.length ∧
        fault = .raggedRow row.length columns.length name) ∧
    ((∀ row ∈ rows, row.length = columns.length) → UpToFailure plan turns ∧ ∃ o c',
      (e.loadTable table columns rows database).Does c o c' ∧
      c'.trace = c.trace ++ (turns.flatMap (·.events) ++
        if turns.any Turn.isFailedInsertion then [.rolledBack] else []) ∧
      o = (Turn.ending turns).map (fun _ => name) ∧
      (o = .ok name ↔ turns.map (·.request) = plan ∧ ∀ t ∈ turns, t.outcome = .ok ())) := by
  intro name plan turns
  refine ⟨fun hragged => ?_, fun hrows => ?_⟩
  · obtain ⟨row, hrow, hlength, hdoes⟩ := loadTable_of_ragged e table database hragged c
    exact ⟨_, hdoes, rfl, row, hrow, hlength, rfl⟩
  · have hturns : UpToFailure plan turns := carryOut_upToFailure e plan ⟨c.engine, none⟩
    obtain ⟨c', hdoes, htrace, -⟩ := loadTable_enacts e table database hcolumns hrows c
    rw [enact_ending] at hdoes
    rw [enact_events] at htrace
    refine ⟨hturns, _, c', hdoes, htrace, rfl, ?_⟩
    rw [← hturns.ending_eq_ok_iff]
    show (Turn.ending turns).map (fun _ => name) = .ok name ↔ Turn.ending turns = .ok ()
    cases Turn.ending turns with
    | error fault => exact iff_of_false nofun nofun
    | ok _ => exact iff_of_true rfl rfl

/-- Two rows for two columns replace a table. -/
theorem loadTable_replaces_pairs :
    let columns : List ColumnSpec := [⟨ascii "n", ascii "INTEGER"⟩, ⟨ascii "s", []⟩]
    let rows := [[ascii "1", ascii "one"], [ascii "2", ascii "two"]]
    let plan := Request.replacement (ascii "db__pairs") columns rows
    let turns := (Script.engine.carryOut plan ⟨.empty, none⟩).1
    ∃ c', (Script.engine.loadTable (ascii "pairs") columns rows (ascii "db")).Does
        { engine := .empty } (.ok (ascii "db__pairs")) c' ∧
      c'.trace = turns.flatMap (·.events) ∧ turns.map (·.request) = plan := by
  intro columns rows plan turns
  have hcolumns : columns ≠ [] := by decide
  obtain ⟨-, o, c', hdoes, htrace, -, hok⟩ := (loadTable_replaces Script.engine (ascii "pairs")
    (ascii "db") hcolumns rows { engine := .empty }).2 (by decide)
  have hmade : turns.map (·.request) = plan ∧ ∀ t ∈ turns, t.outcome = .ok () := by decide +kernel
  have hinserted : turns.any Turn.isFailedInsertion = false := by decide +kernel
  refine ⟨c', ?_, ?_, hmade.1⟩
  · rw [hok.mpr hmade] at hdoes
    exact hdoes
  · rw [htrace]
    show [] ++ (turns.flatMap (·.events) ++
      if turns.any Turn.isFailedInsertion then [.rolledBack] else []) = _
    rw [hinserted, List.nil_append]
    exact List.append_nil _

end MiningQuery
