/-
  File:      MiningQuery/Proofs/Query/Reduction.lean
  Subject:   Reducing a statement to a query never fails on what reading gives.

  * `Predicate.connected_eq` -- conditions are connected by connectives only;
  * `Statement.reduce_eq_ok` -- what a query takes over from its statement;
  * **`Statement.WellFormed.reduces`** -- nothing is refused: a clustering has its number, a measure
    is known and has a number;
  * **`Query.exists_ofText`**, `Query.hasErrors_iff` -- so every text is a query, which has errors
    exactly if the text has.
-/
import MiningQuery.Proofs.Grammar.WellFormed
import MiningQuery.Query.Reduction

namespace MiningQuery

/-! ## 1. Conditions -/

namespace Predicate

/-- The condition that a predicate states, put together from conditions that have to be there by
    operators that have to be connectives. -/
def connected? : Predicate → Option Condition
  | logical op l r => do Condition.connect? (.logic op) (← l.connected?) (← r.connected?)
  | not p => do return .not (← p.connected?)
  | paren p => p.connected?
  | p => some p.reduce

/-- Nothing is missing, and every operator is a connective. -/
theorem connected_eq (p : Predicate) : p.connected? = some p.reduce := by
  induction p with
  | logical op l r ihl ihr =>
    rw [connected?, ihl, ihr]
    rfl
  | not p ih =>
    rw [connected?, ih]
    rfl
  | paren p ih => exact ih
  | compare | between | like | isNull | inList | value => rfl

end Predicate

/-! ## 2. Statements -/

theorem MineDirective.WellFormed.reduces {d : MineDirective} (h : d.WellFormed) :
    ∃ m, d.reduce = .ok m := by
  have hoperation := h.operation
  simp only [Parse.operations, Parse.plainOperations, Parse.targetOperations, List.map_cons,
    List.cons_append, List.nil_append, List.map_nil, List.mem_cons, List.not_mem_nil,
    or_false] at hoperation
  unfold reduce
  rcases hoperation with hk | hk | hk | hk | hk | hk
  · obtain ⟨text, i, hclusters⟩ := h.clusters hk
    rw [hk, hclusters]
    exact ⟨_, rfl⟩
  all_goals
    rw [hk]
    exact ⟨_, rfl⟩

/-- The names of measures that reading accepts are those that reducing knows. -/
theorem exists_measure {name : Text} (h : name ∈ Parse.measureNames) :
    ∃ m, Measure.ofName? name = some m := by
  have hnames : ∀ n ∈ Parse.measureNames, (Measure.ofName? n).isSome = true := by decide
  exact Option.isSome_iff_exists.mp (hnames name h)

theorem MeasureSetting.WellFormed.applies {m : MeasureSetting} (h : m.WellFormed)
    (ms : InterestMeasures) : ∃ ms', m.apply ms = .ok ms' := by
  obtain ⟨measure, hmeasure⟩ := exists_measure h.name
  have hnumber : ∃ x, m.number = .ok x := by
    unfold number
    rcases h.value with ⟨text, i, hvalue⟩ | ⟨text, x, hvalue⟩
    · rw [hvalue]
      exact ⟨_, rfl⟩
    · rw [hvalue]
      exact ⟨_, rfl⟩
  obtain ⟨x, hx⟩ := hnumber
  refine ⟨ms.set measure x, ?_⟩
  simp only [apply, hx, hmeasure, bind, Except.bind]

theorem MeasureSetting.foldlM_applies {settings : List MeasureSetting}
    (h : ∀ m ∈ settings, m.WellFormed) (ms : InterestMeasures) :
    ∃ ms', settings.foldlM apply ms = .ok ms' := by
  induction settings generalizing ms with
  | nil => exact ⟨ms, rfl⟩
  | cons m settings ih =>
    obtain ⟨hm, hsettings⟩ := List.forall_mem_cons.mp h
    obtain ⟨ms', hms'⟩ := hm.applies ms
    rw [List.foldlM_cons, hms']
    exact ih hsettings ms'

theorem MeasureSetting.reduceAll_reduces {settings : List MeasureSetting}
    (h : ∀ m ∈ settings, m.WellFormed) : ∃ ms, reduceAll settings = .ok ms := by
  unfold reduceAll
  split
  · exact ⟨none, rfl⟩
  · obtain ⟨ms, hms⟩ := foldlM_applies h .empty
    rw [hms]
    exact ⟨some ms, rfl⟩

/-- What a query takes over from the statement that it is made from. -/
structure Query.Reduces (s : Statement) (errors : List Text) (q : Query) : Prop where
  database : q.database = s.database.getD []
  tables : q.tables = s.tables.map (·.name)
  columns : q.columns = (s.relevance.getD []).map Attribute.text
  condition : q.condition = s.condition.map Predicate.reduce
  grouping : q.grouping = s.grouping.map Attribute.text
  ordering : q.ordering = s.ordering.map OrderItem.reduce
  errors : q.errors = errors

theorem Statement.reduce_eq_ok {s : Statement} {displayType rawText : Text} {errors : List Text}
    {q : Query} (h : s.reduce displayType rawText errors = .ok q) : q.Reduces s errors := by
  unfold reduce at h
  cases hmining : s.mining.mapM MineDirective.reduce with
  | error e => simp [hmining, bind, Except.bind] at h
  | ok mining =>
    cases hmeasures : MeasureSetting.reduceAll s.measures with
    | error e => simp [hmining, hmeasures, bind, Except.bind] at h
    | ok measures =>
      simp only [hmining, hmeasures, bind, Except.bind, pure, Except.pure, Except.ok.injEq] at h
      subst h
      exact ⟨rfl, rfl, rfl, rfl, rfl, rfl, rfl⟩

/-- **A well-formed statement is reduced.** -/
theorem Statement.WellFormed.reduces {s : Statement} (h : s.WellFormed)
    (displayType rawText : Text) (errors : List Text) :
    ∃ q, s.reduce displayType rawText errors = .ok q ∧ q.Reduces s errors := by
  obtain ⟨measures, hmeasures⟩ := MeasureSetting.reduceAll_reduces h.measures
  have hmining : ∃ mining, s.mining.mapM MineDirective.reduce = .ok mining := by
    cases hs : s.mining with
    | none => exact ⟨none, rfl⟩
    | some d =>
      obtain ⟨m, hm⟩ := (h.mining d hs).reduces
      refine ⟨some m, ?_⟩
      rw [Option.mapM_some, hm]
      rfl
  obtain ⟨mining, hmining⟩ := hmining
  have hreduce : ∃ q, s.reduce displayType rawText errors = .ok q := by
    unfold reduce
    rw [hmining, hmeasures]
    exact ⟨_, rfl⟩
  obtain ⟨q, hq⟩ := hreduce
  exact ⟨q, hq, reduce_eq_ok hq⟩

/-- The text and the errors that a query carries do not bear on the rest of it. -/
theorem Statement.reduce_carrying {s : Statement} {displayType rawText : Text} {errors : List Text}
    {q : Query} (h : s.reduce displayType rawText errors = .ok q) (rawText' : Text)
    (errors' : List Text) :
    s.reduce displayType rawText' errors' =
      .ok { q with rawText := rawText', errors := errors' } := by
  unfold reduce at h ⊢
  cases hmining : s.mining.mapM MineDirective.reduce with
  | error e => simp [hmining, bind, Except.bind] at h
  | ok mining =>
    cases hmeasures : MeasureSetting.reduceAll s.measures with
    | error e => simp [hmining, hmeasures, bind, Except.bind] at h
    | ok measures =>
      simp only [hmining, hmeasures, bind, Except.bind, pure, Except.pure, Except.ok.injEq] at h
      subst h
      rfl

/-! ## 3. Texts -/

/-- The text has no syntax error, whatever the limit on errors is. -/
def ReadSettings.Accepts (settings : ReadSettings) (text : Text) : Prop :=
  (lex text).errors = [] ∧ (readStatement settings.nestingLimit (lex text).tokens).failures = []

/-- **Every text is a query.** -/
theorem Query.exists_ofText (settings : ReadSettings) (text : Text) :
    ∃ q, Query.ofText settings text = .ok q ∧
      q.Reduces (Reading.ofText settings text).statement (Reading.ofText settings text).errors := by
  have hwell : (Reading.ofText settings text).statement.WellFormed :=
    readStatement_wellFormed (lex_shaped text)
  exact hwell.reduces settings.displayType text (Reading.ofText settings text).errors

/-- A query has errors exactly if its text has. -/
theorem Query.hasErrors_iff {settings : ReadSettings} {text : Text} {q : Query}
    (hq : Query.ofText settings text = .ok q) : q.hasErrors = true ↔ ¬ settings.Accepts text := by
  have herrors : q.errors = (Reading.ofText settings text).errors :=
    (Statement.reduce_eq_ok hq).errors
  have hkeep : ∀ (limit : Nat) (errors : List Text),
      Reading.keepErrors limit errors = [] ↔ errors = [] := by
    intro limit errors
    unfold Reading.keepErrors
    split
    · exact Iff.rfl
    · rename_i hlimit
      simp [List.take_eq_nil_iff, hlimit]
  have hnone : q.errors = [] ↔ settings.Accepts text := by
    rw [herrors, ReadSettings.Accepts, Reading.ofText, hkeep]
    simp
  rw [← hnone, Query.hasErrors]
  simp

end MiningQuery
