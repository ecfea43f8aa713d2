/-
  File:      MiningQuery/Proofs/Sql/Totality.lean
  Subject:   Every text is read, reduced and translated, however malformed it is.

  * `Answers`, `TableResolver.Answering` -- effects that do not fail, and resolvers with such;
  * **`Query.translate_answers`** -- translating fails only if a lookup does;
  * **`every_text_is_answered`** -- from the text to the SQL there is always an answer, and reading
    with a cursor meets no fault.
-/
import MiningQuery.Proofs.Query.Reduction
import MiningQuery.Proofs.Scan.Statement
import MiningQuery.Sql.Select

namespace MiningQuery

/-! ## 1. Translation -/

section Translation

variable {σ ε α β : Type}

/-- The effect gives a result in every state. -/
def Answers (m : StateT σ (Except ε) α) : Prop := ∀ s, ∃ x s', m s = .ok (x, s')

theorem answers_pure (x : α) : Answers (pure x : StateT σ (Except ε) α) := fun s => ⟨x, s, rfl⟩

theorem answers_bind {m : StateT σ (Except ε) β} {f : β → StateT σ (Except ε) α} (hm : Answers m)
    (hf : ∀ x, Answers (f x)) : Answers (m >>= f) := by
  intro s
  obtain ⟨x, s', hx⟩ := hm s
  obtain ⟨y, s'', hy⟩ := hf x s'
  refine ⟨y, s'', ?_⟩
  show (m s >>= fun p => f p.1 p.2) = _
  rw [hx]
  exact hy

theorem answers_mapM {f : β → StateT σ (Except ε) α} (hf : ∀ x, Answers (f x)) (xs : List β) :
    Answers (xs.mapM f) := by
  induction xs with
  | nil => exact answers_pure []
  | cons x xs ih =>
    rw [List.mapM_cons]
    exact answers_bind (hf x) fun y => answers_bind ih fun ys => answers_pure (y :: ys)

/-- Every lookup is answered and every log record taken. -/
structure TableResolver.Answering (r : TableResolver (StateT σ (Except ε))) : Prop where
  tableExists : ∀ name, Answers (r.tableExists name)
  note : ∀ record, Answers (r.note record)

variable {r : TableResolver (StateT σ (Except ε))}

theorem TableResolver.Answering.resolveBare (hr : r.Answering) (table : Text) :
    Answers (r.resolveBare table) := by
  refine answers_bind (hr.tableExists table) fun found => ?_
  cases found with
  | true => exact answers_pure table
  | false => exact answers_bind (hr.note _) fun _ => answers_pure table

theorem TableResolver.Answering.resolve (hr : r.Answering) (separator database table : Text) :
    Answers (r.resolve separator database table) := by
  unfold TableResolver.resolve
  split
  · exact hr.resolveBare table
  · refine answers_bind (hr.tableExists _) fun found => ?_
    cases found with
    | true => exact answers_pure _
    | false => exact hr.resolveBare table

/-- **A query is translated if the lookups are answered.** -/
theorem Query.translate_answers (hr : r.Answering) (separator : Text) (q : Query) :
    Answers (q.translate r separator) := by
  have htables : Answers (r.resolveAll separator q.database q.tables) :=
    answers_mapM (hr.resolve separator q.database) q.tables
  exact answers_bind htables fun tables => answers_bind (hr.note _) fun _ => answers_pure _

end Translation

/-! ## 2. Texts -/

/-- The tokens of a text end with the end of the input, and it stands nowhere else. -/
theorem EndsOnce.closed {ts : List Token} (h : EndsOnce ts) {limit : Nat} :
    ScanInput.Closed ⟨ts, limit⟩ := by
  obtain ⟨body, last, rfl, hlast, -⟩ := h
  simp [ScanInput.Closed, hlast]

theorem EndsOnce.succ_eq_length {ts : List Token} (h : EndsOnce ts) {p : Nat}
    (hp : ts[p]?.map (·.kind) = some .endOfInput) : p + 1 = ts.length := by
  obtain ⟨body, last, rfl, -, hbody⟩ := h
  obtain ⟨t, ht, hkind⟩ := Option.map_eq_some_iff.mp hp
  have hlt := (List.getElem?_eq_some_iff.mp ht).1
  rw [List.length_append, List.length_singleton] at hlt ⊢
  by_contra hne
  have hinside : p < body.length := by omega
  rw [List.getElem?_append_left hinside] at ht
  exact hbody t (List.mem_of_getElem? ht) hkind

/-- A resolver that knows the tables of a list and keeps the log records. -/
def TableResolver.listed (tables : List Text) :
    TableResolver (StateT (List LogRecord) (Except Text)) where
  tableExists name := return tables.contains name
  note record := modify (· ++ [record])

theorem TableResolver.listed_answering (tables : List Text) : (listed tables).Answering where
  tableExists name := answers_pure (tables.contains name)
  note record := fun s => ⟨(), s ++ [record], rfl⟩

section Texts

variable {σ ε : Type} {r : TableResolver (StateT σ (Except ε))}

/-- **Every text is answered**, under all settings and with every resolver that answers: its tokens
    are read to the end of the input without a fault, with the statement and the errors of the
    reading, if rules may call themselves more often than levels may be opened; the statement is
    reduced to a query, and the query is translated. -/
theorem every_text_is_answered (settings : ReadSettings) (text : Text) {calls : Nat}
    (hcalls : settings.nestingLimit < calls) (hr : r.Answering) (separator : Text) (s : σ) :
    (∃ c : Cursor, c.position + 1 = (lex text).tokens.length ∧
      Scan.statement calls ⟨(lex text).tokens, settings.nestingLimit⟩ {} =
        .ok (Reading.ofText settings text).statement c ∧
      c.errors.map (Failure.text settings.nestingLimit) =
        (Reading.ofText settings text).clauseErrors) ∧
    ∃ q, Query.ofText settings text = .ok q ∧
      (Reading.ofText settings text).statement.condition.mapM Predicate.connected? =
        some q.condition ∧
      ∃ sql s', q.translate r separator s = .ok (sql, s') := by
  have hends := lex_endsOnce text
  have hclosed : ScanInput.Closed ⟨(lex text).tokens, settings.nestingLimit⟩ := hends.closed
  obtain ⟨p, hlast, hrun⟩ := Scan.statement_eq hclosed hcalls
  have hwell : (Reading.ofText settings text).statement.WellFormed :=
    readStatement_wellFormed (lex_shaped text)
  obtain ⟨q, hq, hreduces⟩ := hwell.reduces settings.displayType text
    (Reading.ofText settings text).errors
  refine ⟨⟨_, hends.succ_eq_length hlast, hrun, rfl⟩, q, hq, ?_,
    Query.translate_answers hr separator q s⟩
  rw [hreduces.condition]
  cases (Reading.ofText settings text).statement.condition with
  | none => rfl
  | some p =>
    rw [Option.mapM_some, p.connected_eq]
    rfl

/-- `FROM t WHERE ((a` opens one level too many and closes none, and is answered all the same: with
    one error, and with the SQL of the rest. -/
theorem every_text_is_answered_unclosed :
    1 < 2 ∧ (TableResolver.listed [ascii "t"]).Answering ∧
    (∃ c, Scan.statement 2 ⟨(lex (ascii "FROM t WHERE ((a")).tokens, 1⟩ {} =
      .ok (Reading.ofText ⟨1, 1, ascii "table"⟩ (ascii "FROM t WHERE ((a")).statement c) ∧
    (Reading.ofText ⟨1, 1, ascii "table"⟩ (ascii "FROM t WHERE ((a")).errors.length = 1 ∧
    ∃ q, Query.ofText ⟨1, 1, ascii "table"⟩ (ascii "FROM t WHERE ((a") = .ok q ∧
      ∃ sql s', q.translate (TableResolver.listed [ascii "t"]) (ascii "_") [] = .ok (sql, s') := by
  have hcalls : 1 < 2 := by decide
  have hr := TableResolver.listed_answering [ascii "t"]
  obtain ⟨⟨c, -, hrun, -⟩, q, hq, -, htranslated⟩ := every_text_is_answered
    ⟨1, 1, ascii "table"⟩ (ascii "FROM t WHERE ((a") hcalls hr (ascii "_") []
  exact ⟨hcalls, hr, ⟨c, hrun⟩, by decide +kernel, q, hq, htranslated⟩

end Texts

end MiningQuery
