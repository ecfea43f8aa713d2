/-
  File:      MiningQuery/Proofs/Storage/Transaction.lean
  Subject:   How the transaction of an insertion ends.

  Rows are inserted in one transaction. A row that fails gives it up, wherever the engine fails:
  when the insertion is prepared, when the values are given or when it is executed. The end of the
  transaction stands behind all that, and nothing watches over it.

  * `Turn.Made`, `Turn.Failed` -- a request was made in one of the turns, and it failed;
  * `Turn.Over` -- the transaction was ended, or given up behind a failure;
  * `rows_over_iff` -- from any row on, by induction on the rows: the end is all that can go wrong;
  * **`insertRows_over_iff`** -- a transaction that is begun is over when the call ends, unless its
    end is what failed.
-/
import Mathlib.Control.Monad.Basic
import MiningQuery.Proofs.Storage.Requests
import MiningQuery.Storage.Script

namespace MiningQuery

variable {σ : Type}

/-! ## 1. What has become of a transaction -/

namespace Turn

/-- The request was made, with success. -/
def Made (r : Request) (ts : List Turn) : Prop := ∃ t ∈ ts, t.request = r ∧ t.outcome = .ok ()

/-- The request was made and failed. -/
def Failed (r : Request) (ts : List Turn) : Prop := ∃ t ∈ ts, t.request = r ∧ t.outcome ≠ .ok ()

/-- The transaction is over: it was ended, or it was given up behind a failure. -/
def Over (ts : List Turn) : Prop :=
  Made Request.finish ts ∨ ∃ before t after, ts = before ++ t :: after ∧ t.outcome ≠ .ok () ∧
    Made .rollback after

end Turn

section Over

variable {e : Engine σ} {r : Request} {t : Turn} {ts : List Turn}

theorem ne_ok_of_error {fault : Fault} (h : t.outcome = .error fault) : t.outcome ≠ .ok () := by
  rw [h]
  exact nofun

theorem made_cons_iff (hne : t.request ≠ r) : Turn.Made r (t :: ts) ↔ Turn.Made r ts := by
  simp [Turn.Made, hne]

theorem failed_cons_iff (hne : t.request ≠ r) : Turn.Failed r (t :: ts) ↔ Turn.Failed r ts := by
  simp [Turn.Failed, hne]

/-- A success in front changes nothing, unless it is the end. -/
theorem over_cons_iff (hne : t.request ≠ Request.finish) (h : t.outcome = .ok ()) :
    Turn.Over (t :: ts) ↔ Turn.Over ts := by
  unfold Turn.Over
  rw [made_cons_iff hne]
  refine or_congr_right ⟨?_, ?_⟩
  · rintro ⟨before, t', after, heq, hfails, hgiven⟩
    cases before with
    | nil =>
      obtain rfl := (List.cons.inj heq).1
      exact absurd h hfails
    | cons _ before => exact ⟨before, t', after, (List.cons.inj heq).2, hfails, hgiven⟩
  · rintro ⟨before, t', after, rfl, hgiven⟩
    exact ⟨t :: before, t', after, rfl, hgiven⟩

/-- A failure alone makes nothing. -/
theorem not_made_of_failure (h : t.outcome ≠ .ok ()) : ¬ Turn.Made r [t] := by
  rintro ⟨t', ht', -, hmade⟩
  obtain rfl := List.mem_singleton.mp ht'
  exact h hmade

/-- A failure alone leaves the transaction open: nothing stands behind it. -/
theorem not_over_of_failure (h : t.outcome ≠ .ok ()) : ¬ Turn.Over [t] := by
  rintro (hmade | ⟨before, t', after, heq, -, hgiven⟩)
  · exact not_made_of_failure h hmade
  · obtain ⟨-, heq⟩ | ⟨-, heq⟩ := List.append_eq_singleton_iff.mp heq.symm
    · obtain rfl := (List.cons.inj heq).2
      obtain ⟨t', ht', -⟩ := hgiven
      cases ht'
    · cases heq

/-- A success alone is no failure. -/
theorem not_failed_of_ok (h : t.outcome = .ok ()) : ¬ Turn.Failed r [t] := by
  rintro ⟨t', ht', -, hfails⟩
  obtain rfl := List.mem_singleton.mp ht'
  exact hfails h

/-- **From any row on, only the end can leave the transaction open.** -/
theorem rows_over_iff (e : Engine σ) (sql : Text) (rows : List (List Text)) (d : Desk σ) :
    Turn.Over (e.enact (rows.map (.insert sql) ++ [Request.finish]) d).1 ↔
      ¬ Turn.Failed Request.finish (e.enact (rows.map (.insert sql) ++ [Request.finish]) d).1 := by
  induction rows generalizing d with
  | nil =>
    rw [List.map_nil, List.nil_append]
    have hrequest := answer_request e Request.finish d
    cases houtcome : (e.answer Request.finish d).1.outcome with
    | ok _ =>
      rw [enact_cons_ok houtcome]
      exact iff_of_true (.inl ⟨_, List.mem_cons_self, hrequest, houtcome⟩)
        (not_failed_of_ok houtcome)
    | error fault =>
      have hlast : e.enact [Request.finish] d =
        ([(e.answer Request.finish d).1], (e.answer Request.finish d).2) :=
        enact_send_error houtcome
      have hfails := ne_ok_of_error houtcome
      rw [hlast]
      exact iff_of_false (not_over_of_failure hfails)
        (not_not_intro ⟨_, List.mem_cons_self, hrequest, hfails⟩)
  | cons row rows ih =>
    have hrequest := answer_request e (.insert sql row) d
    have hne : (e.answer (.insert sql row) d).1.request ≠ Request.finish := by
      rw [hrequest]
      exact nofun
    rw [List.map_cons, List.cons_append]
    cases houtcome : (e.answer (.insert sql row) d).1.outcome with
    | ok _ =>
      rw [enact_cons_ok houtcome, over_cons_iff hne houtcome, failed_cons_iff hne]
      exact ih _
    | error fault =>
      rw [enact_insert_error houtcome, failed_cons_iff hne]
      exact iff_of_true
        (.inr ⟨[], _, _, rfl, ne_ok_of_error houtcome, _, List.mem_cons_self, rfl, rfl⟩)
        (not_failed_of_ok rfl)

/-- A transaction that is begun is over in the end, unless its end is what failed. -/
theorem insertions_over_iff (e : Engine σ) (table : Text) (rows : List (List Text)) (d : Desk σ)
    (hbegun : Turn.Made Request.start (e.enact (Request.insertions table rows) d).1) :
    Turn.Over (e.enact (Request.insertions table rows) d).1 ↔
      ¬ Turn.Failed Request.finish (e.enact (Request.insertions table rows) d).1 := by
  unfold Request.insertions Request.transaction at *
  split at hbegun
  · obtain ⟨t, ht, -⟩ := hbegun
    cases ht
  · rename_i hwidth
    rw [if_neg hwidth]
    have hrequest := answer_request e Request.start d
    cases houtcome : (e.answer Request.start d).1.outcome with
    | ok _ =>
      have hne : (e.answer Request.start d).1.request ≠ Request.finish := by
        rw [hrequest]
        decide
      rw [enact_cons_ok houtcome, over_cons_iff hne houtcome, failed_cons_iff hne]
      exact rows_over_iff e _ rows _
    | error fault =>
      have hlast : ∀ rs, e.enact (Request.start :: rs) d =
        ([(e.answer Request.start d).1], (e.answer Request.start d).2) :=
        fun rs => enact_send_error houtcome
      rw [hlast] at hbegun
      exact absurd hbegun (not_made_of_failure (ne_ok_of_error houtcome))

end Over

/-! ## 2. The call -/

/-- **A transaction that is begun is over when the call ends, unless its end is what failed.** The
    call makes its requests one after the other, and ends as they do. -/
theorem insertRows_over_iff (e : Engine σ) (table : Text) (rows : List (List Text))
    (c : Connection σ) :
    let turns := (e.enact (Request.insertions table rows) ⟨c.engine, none⟩).1
    (∃ c', (e.insertRows table rows).Does c (Turn.ending turns) c' ∧
      c'.trace = c.trace ++ turns.flatMap (·.events)) ∧
    (Turn.Made Request.start turns →
      (Turn.Over turns ↔ ¬ Turn.Failed Request.finish turns)) := by
  intro turns
  obtain ⟨c', hdoes, htrace, -⟩ := insertRows_enacts e table rows c
  exact ⟨⟨c', hdoes, htrace⟩, insertions_over_iff e table rows ⟨c.engine, none⟩⟩

/-- A script in which a statement fails when it is executed. -/
def Script.failing (sql message : Text) : Script :=
  { replies := [{ sql, failure := some (.step, message) }] }

/-- The second of two rows fails, and the transaction is given up. -/
theorem insertRows_over_iff_given_up :
    let table := ascii "pairs"
    let rows := [[ascii "1", ascii "one"], [ascii "2", ascii "two"]]
    let s := Script.failing (Engine.insertSql table 2) (ascii "disk full")
    let turns := (Script.engine.enact (Request.insertions table rows) ⟨s, none⟩).1
    Turn.Made Request.start turns ∧ Turn.Over turns ∧
      turns.map (·.outcome) = [.ok (), .error (.engine (ascii "disk full")), .ok ()] := by
  intro table rows s turns
  have hbegun : Turn.Made Request.start turns := by
    unfold Turn.Made
    decide +kernel
  have hended : ¬ Turn.Failed Request.finish turns := by
    unfold Turn.Failed
    decide +kernel
  refine ⟨hbegun, ?_, by decide +kernel⟩
  exact ((insertRows_over_iff Script.engine table rows { engine := s }).2 hbegun).mpr hended

/-- Nothing gives up a transaction whose end has failed. -/
theorem not_every_transaction_is_over :
    ¬ ∀ (e : Engine Script) (table : Text) (rows : List (List Text)) (c : Connection Script),
      let turns := (e.enact (Request.insertions table rows) ⟨c.engine, none⟩).1
      Turn.Made Request.start turns → Turn.Over turns := by
  intro h
  let s := Script.failing (ascii "END TRANSACTION") (ascii "database is locked")
  let rows := [[ascii "1", ascii "one"]]
  let turns := (Script.engine.enact (Request.insertions (ascii "pairs") rows) ⟨s, none⟩).1
  have hbegun : Turn.Made Request.start turns := by
    unfold Turn.Made
    decide +kernel
  have hended : Turn.Failed Request.finish turns := by
    unfold Turn.Failed
    decide +kernel
  exact (insertions_over_iff Script.engine _ rows ⟨s, none⟩ hbegun).mp
    (h Script.engine _ rows { engine := s } hbegun) hended

end MiningQuery
