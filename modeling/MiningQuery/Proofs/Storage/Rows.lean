/-
  File:      MiningQuery/Proofs/Storage/Rows.lean
  Subject:   What an insertion that succeeds has stored.

  The first row says how many placeholders the insertion has, and every row gives values to as many
  of them as it has. A row that is too long fails, but one that is too short is filled up with empty
  values; and if the first row is empty, no row is inserted at all.

  * `Stores` -- an insertion is executed for rows, one after the other;
  * `insertEach_stores`, `insertion_stores` -- inserting rows with success does just that;
  * `Commits` -- the rows are stored in a transaction that is begun and ended;
  * `fill_eq_iff` -- no placeholder is left open if and only if there is a value for each;
  * **`insertRows_stores`** -- a call that succeeds has executed the insertion once for each row,
    with its values, unless the first row is empty.
-/
import Mathlib.Control.Monad.Basic
import MiningQuery.Proofs.Storage.Steps
import MiningQuery.Storage.Script

namespace MiningQuery

variable {σ : Type}

/-! ## 1. Rows that are stored -/

/-- The insertion is executed with success for the rows, one after the other, each with its
    values. -/
inductive Stores (e : Engine σ) (p : Prepared) : List (List Text) → σ → σ → Prop
  | done {s : σ} : Stores e p [] s s
  | row {row : List Text} {rows : List (List Text)} {s s₁ s₂ s₃ : σ} :
      e.give p row s = (.ok (), s₁) → e.execute p (p.fill row) s₁ = (⟨[], none⟩, s₂) →
      Stores e p rows s₂ s₃ → Stores e p (row :: rows) s s₃

/-- What is said for rows that are stored. -/
def Event.stored (p : Prepared) (rows : List (List Text)) : List Event :=
  rows.map fun row => .executed p.sql (p.fill row) none

/-- In a transaction that is begun and ended with success the rows are stored, and this is all that
    is said. -/
inductive Commits (e : Engine σ) (sql : Text) (rows : List (List Text)) (p : Prepared) :
    σ → List Event → σ → Prop
  | mk {s s₁ s₂ s₃ s₄ : σ} {begun ended : Exchange} :
      e.exchange (ascii "BEGIN TRANSACTION") [] s = (begun, s₁) → begun.outcome = .ok () →
      e.prepare (Text.untilZero sql) s₁ = (.ok (some p), s₂) → Stores e p rows s₂ s₃ →
      e.exchange (ascii "END TRANSACTION") [] s₃ = (ended, s₄) → ended.outcome = .ok () →
      Commits e sql rows p s (begun.events ++ Event.stored p rows ++ ended.events) s₄

section Stores

variable {e : Engine σ} {p : Prepared} {row : List Text} {rows : List (List Text)} {s : σ}
  {r : Reaction σ} {next : σ → Reaction σ} {sql : Text}

/-- **No placeholder is left open if and only if there is a value for each.** -/
theorem fill_eq_iff (p : Prepared) (row : List Text) :
    p.fill row = row.map some ↔ p.parameters ≤ row.length := by
  unfold Prepared.fill
  rw [List.append_right_eq_self, List.replicate_eq_nil_iff, Nat.sub_eq_zero_iff_le]

/-- If something and what comes next end with success, both do. -/
theorem Reaction.ok_of_andThen (h : (r.andThen next).outcome = .ok ()) :
    r.outcome = .ok () ∧ (next r.engine).outcome = .ok () := by
  cases hr : r.outcome with
  | error fault =>
    rw [andThen_of_error hr, hr] at h
    cases h
  | ok _ =>
    rw [andThen_of_ok hr] at h
    exact ⟨rfl, h⟩

theorem Fault.eq_none_of_ofFailure {failure : Option Text}
    (h : Fault.ofFailure failure = .ok ()) : failure = none := by
  cases failure with
  | none => rfl
  | some message => cases h

/-- An insertion has not failed if and only if it delivers no rows and no error. -/
theorem Execution.insertFailure?_eq_none_iff {x : Execution} :
    x.insertFailure? = none ↔ x = ⟨[], none⟩ := by
  obtain ⟨delivered, failure⟩ := x
  cases delivered with
  | nil => exact ⟨fun h => congrArg (Execution.mk []) h, fun h => (Execution.mk.inj h).2⟩
  | cons => exact iff_of_false nofun nofun

/-- A row that is inserted with success. -/
theorem insertOne_stores (h : (e.insertOne p row s).outcome = .ok ()) :
    ∃ s₁, e.give p row s = (.ok (), s₁) ∧
      e.execute p (p.fill row) s₁ = (⟨[], none⟩, (e.insertOne p row s).engine) ∧
      (e.insertOne p row s).events = [.executed p.sql (p.fill row) none] := by
  unfold Engine.insertOne at *
  rcases hgive : e.give p row s with ⟨message | ⟨⟩, s₁⟩ <;> rw [hgive] at h
  · cases h
  · have hdone : (e.execute p (p.fill row) s₁).1 = ⟨[], none⟩ :=
      Execution.insertFailure?_eq_none_iff.mp (Fault.eq_none_of_ofFailure h)
    exact ⟨s₁, rfl, Prod.ext hdone rfl, by simp only [hdone]⟩

/-- **Rows that are inserted with success are stored.** -/
theorem insertEach_stores (h : (e.insertEach p rows s).outcome = .ok ()) :
    Stores e p rows s (e.insertEach p rows s).engine ∧
      (e.insertEach p rows s).events = Event.stored p rows := by
  induction rows generalizing s with
  | nil => exact ⟨.done, rfl⟩
  | cons row rows ih =>
    rw [Engine.insertEach] at *
    obtain ⟨hrow, hrows⟩ := Reaction.ok_of_andThen h
    obtain ⟨s₁, hgive, hexecute, hevents⟩ := insertOne_stores hrow
    obtain ⟨hstores, hrest⟩ := ih hrows
    rw [Reaction.andThen_of_ok hrow]
    refine ⟨.row hgive hexecute hstores, ?_⟩
    rw [hevents, hrest]
    rfl

/-- An insertion that ends with success was prepared, and the rows are stored. -/
theorem insertion_stores (h : (e.insertion sql rows s).outcome = .ok ()) :
    ∃ p s₁, e.prepare (Text.untilZero sql) s = (.ok (some p), s₁) ∧
      Stores e p rows s₁ (e.insertion sql rows s).engine ∧
      (e.insertion sql rows s).events = Event.stored p rows := by
  have hsame : e.insertion sql rows s = e.insertAll sql rows s := by
    unfold Engine.insertion at *
    cases hall : (e.insertAll sql rows s).outcome with
    | error fault => simp [hall] at h
    | ok _ => simp only [hall]
  rw [hsame] at h ⊢
  unfold Engine.insertAll at *
  rcases hprepare : e.prepare (Text.untilZero sql) s with ⟨message | _ | p, s₁⟩ <;>
    rw [hprepare] at h
  · cases h
  · cases h
  · exact ⟨p, s₁, rfl, insertEach_stores h⟩

end Stores

/-! ## 2. The call -/

/-- The steps that insert rows, if they end with success. -/
theorem insertions_commits {e : Engine σ} {table : Text} {rows : List (List Text)} {s : σ}
    (hwidth : (rows.headD []).length ≠ 0)
    (h : (e.follow (StorageStep.insertions table rows) s).outcome = .ok ()) :
    ∃ p, Commits e (Engine.insertSql table (rows.headD []).length) rows p s
      (e.follow (StorageStep.insertions table rows) s).events
      (e.follow (StorageStep.insertions table rows) s).engine := by
  unfold StorageStep.insertions at *
  rw [if_neg hwidth] at *
  obtain ⟨hbegun, hrest⟩ := Reaction.ok_of_andThen h
  obtain ⟨hinserted, hend⟩ := Reaction.ok_of_andThen hrest
  rw [Engine.follow_singleton] at hend
  obtain ⟨p, s₂, hprepare, hstores, hevents⟩ := insertion_stores hinserted
  have hcommits := Commits.mk rfl hbegun hprepare hstores rfl hend
  refine ⟨p, ?_⟩
  rw [Engine.follow, Reaction.andThen_of_ok hbegun, Engine.follow,
    Reaction.andThen_of_ok hinserted, Engine.follow_singleton]
  rw [← hevents, List.append_assoc] at hcommits
  exact hcommits

/-- **A call that succeeds has executed the insertion once for each row**, in order and with its
    values. Only if the first row is empty nothing is done; and just the rows that are too short for
    the placeholders are filled up with empty values. -/
theorem insertRows_stores {e : Engine σ} {table : Text} {rows : List (List Text)}
    {c c' : Connection σ} (h : (e.insertRows table rows).Does c (.ok ()) c') :
    ((rows.headD []).length = 0 → c' = c) ∧
    ((rows.headD []).length ≠ 0 → ∃ p events,
      Commits e (Engine.insertSql table (rows.headD []).length) rows p c.engine events c'.engine ∧
      c'.trace = c.trace ++ events ∧
      ∀ row ∈ rows, p.fill row = row.map some ↔ p.parameters ≤ row.length) := by
  refine ⟨fun hwidth => ?_, fun hwidth => ?_⟩
  · unfold Engine.insertRows at h
    simp only [if_pos hwidth] at h
    exact (h.unique (.pure ())).2
  · obtain ⟨c₁, hdoes, records, hc₁⟩ := insertRows_follows e table rows c
    obtain ⟨hsame, rfl⟩ := hdoes.unique h
    have hok : (e.follow (StorageStep.insertions table rows) c.engine).outcome = .ok () := by
      rw [← hsame]
      exact (congrFun Except.map_id _).symm
    obtain ⟨p, hcommits⟩ := insertions_commits hwidth hok
    rw [hc₁]
    exact ⟨p, _, hcommits, rfl, fun row _ => fill_eq_iff p row⟩

/-- Two rows of one width, for which the script has no reply. -/
theorem insertRows_stores_pairs :
    let rows := [[ascii "1", ascii "one"], [ascii "2", ascii "two"]]
    ∃ c' : Connection Script, ∃ p events,
      Commits Script.engine (ascii "INSERT INTO pairs VALUES(?, ?)") rows p .empty events
        c'.engine ∧ c'.trace = events := by
  intro rows
  let c : Connection Script := { engine := .empty }
  have hdoes := Access.Does.of_run (m := Script.engine.insertRows (ascii "pairs") rows) (c := c)
    (o := .ok ()) (by decide +kernel)
  obtain ⟨p, events, hcommits, htrace, -⟩ := (insertRows_stores hdoes).2 (by decide)
  exact ⟨_, p, events, hcommits, htrace⟩

/-- A short row is filled up, so not every row is stored as it is given. -/
theorem not_every_row_is_stored_as_given :
    ¬ ∀ (e : Engine Script) (table : Text) (rows : List (List Text)) (c c' : Connection Script),
      (e.insertRows table rows).Does c (.ok ()) c' → ∃ sql before after,
        c'.trace = c.trace ++ before ++ rows.map (fun row => .executed sql (row.map some) none) ++
          after := by
  intro h
  let rows := [[ascii "1", ascii "one"], [ascii "2"]]
  let c : Connection Script := { engine := .empty }
  have hdoes := Access.Does.of_run (m := Script.engine.insertRows (ascii "pairs") rows) (c := c)
    (o := .ok ()) (by decide +kernel)
  obtain ⟨sql, before, after, htrace⟩ := h Script.engine (ascii "pairs") rows c _ hdoes
  have hlast : Event.executed sql [some (ascii "2")] none ∈
      rows.map fun row => Event.executed sql (row.map some) none := .tail _ (.head _)
  have halone := List.mem_append_left after (List.mem_append_right (c.trace ++ before) hlast)
  rw [← htrace] at halone
  have hsaid : ((Script.engine.insertRows (ascii "pairs") rows).run.run c).2.trace =
      [.executed (ascii "BEGIN TRANSACTION") [] none,
        .executed (ascii "INSERT INTO pairs VALUES(?, ?)")
          [some (ascii "1"), some (ascii "one")] none,
        .executed (ascii "INSERT INTO pairs VALUES(?, ?)") [some (ascii "2"), none] none,
        .executed (ascii "END TRANSACTION") [] none] := by decide +kernel
  rw [hsaid] at halone
  simp at halone

end MiningQuery
