/-
  File:      MiningQuery/Proofs/Query/WellFormed.lean
  Subject:   Every query is well formed, also that of a text with errors.

  * `IsColumnName`, `IsAttributeName` -- the texts that stand for a column, and for a column or all;
  * `Condition.WellFormed`, `MiningOperation.WellFormed`, `Query.WellFormed` -- what the parts of a
    query may be;
  * `MineWritten.reduced`, `MeasureSetting.reduceAll_sets` -- a mining operation has just the
    parameters that it needs, and measures are there exactly if one of them is set;
  * **`every_query_is_well_formed`** -- whatever the text and the settings are, the text gives a
    query, and the query is well formed.
-/
import MiningQuery.Proofs.Query.Reduction
import MiningQuery.Proofs.Segment.Contents
import MiningQuery.Proofs.Sql.Value

namespace MiningQuery

open Parse

/-! ## 1. Names -/

/-- A name, or two names with a point between. -/
def IsColumnName (t : Text) : Prop :=
  isName t = true ∨ ∃ table name, isName table = true ∧ isName name = true ∧
    t = table ++ ascii "." ++ name

/-- A star, or the name of a column. -/
def IsAttributeName (t : Text) : Prop := t = ascii "*" ∨ IsColumnName t

theorem ColumnRef.isColumnName {c : ColumnRef} (h : c.isLexical = true) : IsColumnName c.text := by
  obtain ⟨qualifier, name⟩ := c
  obtain ⟨hqualifier, hname⟩ := Bool.and_eq_true_iff.mp h
  cases qualifier with
  | none => exact .inl hname
  | some table => exact .inr ⟨table, name, hqualifier, hname, rfl⟩

theorem Attribute.isAttributeName {a : Attribute} (h : a.isLexical = true) :
    IsAttributeName a.text := by
  cases a with
  | all => exact .inl rfl
  | column c => exact .inr (ColumnRef.isColumnName h)

theorem isName_ne_nil {n : Text} (h : isName n = true) : n ≠ [] := by
  rintro rfl
  cases h

/-! ## 2. Conditions -/

/-- The text of the value, if it is one, is one line. -/
def Value.IsOneLine (v : Value) : Prop := ∀ t, v = .string t → 10 ∉ t

/-- Comparisons compare and connectives connect two conditions, no list of values is empty, and all
    texts are one line. -/
def Condition.WellFormed : Condition → Prop
  | compare subject op v =>
    op.spelling ∈ [ascii "=", ascii "!=", ascii "<", ascii ">", ascii "<=", ascii ">="] ∧
      10 ∉ subject ∧ v.IsOneLine
  | logical op l r =>
    op.spelling ∈ [ascii "AND", ascii "OR"] ∧ l.WellFormed ∧ r.WellFormed
  | not c => c.WellFormed
  | between _ subject low high => 10 ∉ subject ∧ low.IsOneLine ∧ high.IsOneLine
  | like _ subject pattern => 10 ∉ subject ∧ 10 ∉ pattern
  | isNull _ subject => 10 ∉ subject
  | inList _ subject values => values ≠ [] ∧ 10 ∉ subject ∧ ∀ v ∈ values, v.IsOneLine

theorem CompareOp.spelling_mem (op : CompareOp) :
    (SqlOp.compare op).spelling ∈
      [ascii "=", ascii "!=", ascii "<", ascii ">", ascii "<=", ascii ">="] := by
  cases op <;> decide

theorem LogicOp.spelling_mem (op : LogicOp) : op.spelling ∈ [ascii "AND", ascii "OR"] := by
  cases op <;> decide

theorem Value.string_isOneLine {t : Text} (h : 10 ∉ t) : (Value.string t).IsOneLine := by
  intro t' ht'
  cases ht'
  exact h

/-- What an expression stands for is one line. -/
theorem Expr.toValue_isOneLine {e : Expr} (h : e.isLexical = true) : e.toValue.IsOneLine := by
  have htext := Expr.text_newline h
  cases e with
  | literal l =>
    cases l with
    | string t => exact Value.string_isOneLine (unquoted_newline h)
    | null | int | float => exact fun t ht => nomatch ht
  | column | aggregateAll | aggregate | arith | paren => exact Value.string_isOneLine htext

/-- **The condition of a predicate that tokens can write is well formed.** -/
theorem Predicate.reduce_wellFormed {p : Predicate} (h : p.isLexical = true) :
    p.reduce.WellFormed := by
  induction p with
  | logical op l r ihl ihr =>
    obtain ⟨hl, hr⟩ := Bool.and_eq_true_iff.mp h
    exact ⟨op.spelling_mem, ihl hl, ihr hr⟩
  | not p ih => exact ih h
  | paren p ih => exact ih h
  | compare op l r =>
    obtain ⟨hl, hr⟩ := Bool.and_eq_true_iff.mp h
    exact ⟨op.spelling_mem, Expr.text_newline hl, Expr.toValue_isOneLine hr⟩
  | between n x low high =>
    simp only [isLexical, Bool.and_eq_true] at h
    obtain ⟨⟨hx, hlow⟩, hhigh⟩ := h
    exact ⟨Expr.text_newline hx, Expr.toValue_isOneLine hlow, Expr.toValue_isOneLine hhigh⟩
  | like n x pattern =>
    obtain ⟨hx, hpattern⟩ := Bool.and_eq_true_iff.mp h
    exact ⟨Expr.text_newline hx, unquoted_newline hpattern⟩
  | isNull n x => exact Expr.text_newline h
  | inList n x values =>
    simp only [isLexical, Bool.and_eq_true, List.all_eq_true] at h
    obtain ⟨⟨hx, hne⟩, hvalues⟩ := h
    have hnotEmpty : values ≠ [] := by simpa using hne
    refine ⟨fun hnil => hnotEmpty (List.map_eq_nil_iff.mp hnil), Expr.text_newline hx, ?_⟩
    exact List.forall_mem_map.mpr fun e he => Expr.toValue_isOneLine (hvalues e he)
  | value e =>
    have htext : 10 ∉ e.text := Expr.text_newline h
    exact ⟨CompareOp.eq.spelling_mem, htext, Value.string_isOneLine htext⟩

/-! ## 3. Mining -/

/-- The operation is known and has just the parameters that it needs: a clustering the number of
    clusters, and an operation with a target the name of a column. -/
inductive MiningOperation.WellFormed : MiningOperation → Prop
  | clustering {k : Nat} : k < Nat.pow 2 63 → WellFormed ⟨.cluster, [(ascii "k", .integer k)]⟩
  | targeted {kind : MiningKind} {target : Text} : kind = .classification ∨ kind = .regression →
      target ≠ [] → isName target = true →
      WellFormed ⟨kind, [(ascii "target", .string target)]⟩
  | plain {kind : MiningKind} :
      kind = .statistics ∨ kind = .anomalies ∨ kind = .associationRules → WellFormed ⟨kind, []⟩

/-- **A directive that tokens write is reduced to a well-formed operation.** -/
theorem Parse.MineWritten.reduced {d : MineDirective} {ts : List Token} (h : MineWritten d ts)
    (hts : Shaped ts) {m : MiningOperation} (hm : d.reduce = .ok m) : m.WellFormed := by
  cases h with
  | @clusters w t ls l _ _ hk hl =>
    have ht : t.IsShaped := hts t (by simp)
    have hdigits : isDigits t.text = true := by rwa [Token.IsShaped, hk] at ht
    rcases numberLiteral_cases hl with ⟨-, text, i, rfl⟩ | ⟨hne, -⟩
    · simp only [numberLiteral, hk, Bool.false_eq_true, if_true, if_false, List.nil_append] at hl
      split at hl
      · rename_i i' hi
        obtain ⟨k, rfl, hrange⟩ := Text.int64_of_isDigits hdigits hi
        cases hl
        cases hm
        exact .clustering hrange
      · cases hl
    · exact absurd hk hne
  | @plain k w hk _ =>
    simp only [plainOperations, List.mem_cons, List.not_mem_nil, or_false] at hk
    rcases hk with rfl | rfl | rfl <;>
    · cases hm
      exact .plain (by decide)
  | @target k w t ls hk _ _ ht =>
    have hname : isName t.text = true := ht.2
    simp only [targetOperations, List.mem_cons, List.not_mem_nil, or_false] at hk
    rcases hk with rfl | rfl <;>
    · cases hm
      exact .targeted (by decide) (isName_ne_nil hname) hname

/-! ## 4. Measures -/

/-- The value of a measure, if it is set. -/
def InterestMeasures.get? (ms : InterestMeasures) : Measure → Option Binary64
  | .confidence => ms.confidence
  | .support => ms.support
  | .lift => ms.lift
  | .threshold => ms.threshold
  | .confidenceLevel => ms.confidenceLevel

/-- Setting a measure sets it and leaves the others. -/
theorem InterestMeasures.get?_set (ms : InterestMeasures) (m m' : Measure) (x : Binary64) :
    (ms.set m x).get? m' = if m = m' then some x else ms.get? m' := by
  cases m <;> cases m' <;> rfl

/-- One of the measures is set. -/
def InterestMeasures.IsSet (ms : InterestMeasures) : Prop := ∃ m x, ms.get? m = some x

theorem MeasureSetting.apply_sets {s : MeasureSetting} {ms ms' : InterestMeasures}
    (h : s.apply ms = .ok ms') : ms'.IsSet := by
  obtain ⟨x, -, hset⟩ := exists_of_bind_eq_ok h
  split at hset
  · rename_i m hm
    cases hset
    exact ⟨m, x, by rw [InterestMeasures.get?_set, if_pos rfl]⟩
  · cases hset

theorem MeasureSetting.foldlM_sets {settings : List MeasureSetting} {ms ms' : InterestMeasures}
    (h : settings.foldlM apply ms = .ok ms') (hset : settings ≠ [] ∨ ms.IsSet) : ms'.IsSet := by
  induction settings generalizing ms with
  | nil =>
    cases h
    exact hset.resolve_left fun hne => hne rfl
  | cons s settings ih =>
    rw [List.foldlM_cons] at h
    obtain ⟨ms₁, hfirst, hrest⟩ := exists_of_bind_eq_ok h
    exact ih hrest (.inr (apply_sets hfirst))

/-- **Settings of measures set one**, and no settings are no measures. -/
theorem MeasureSetting.reduceAll_sets {settings : List MeasureSetting}
    {measures : Option InterestMeasures} (h : reduceAll settings = .ok measures) :
    ∀ ms ∈ measures, ms.IsSet := by
  unfold reduceAll at h
  split at h
  · cases h
    exact fun ms hms => nomatch hms
  · rename_i hne
    cases hfold : settings.foldlM apply .empty with
    | error e =>
      rw [hfold] at h
      cases h
    | ok ms =>
      rw [hfold] at h
      cases h
      intro ms' hms'
      obtain rfl := Option.some.inj hms'
      exact foldlM_sets hfold (.inl fun hnil => hne (List.isEmpty_iff.mpr hnil))

/-! ## 5. Queries -/

/-- The value that the query gives to a measure. -/
def Query.measure? (q : Query) (m : Measure) : Option Binary64 := q.measures.bind (·.get? m)

/-- Every part of the query is what it may be; `displayType` is how a query is shown that does not
    choose. -/
structure Query.WellFormed (displayType : Text) (q : Query) : Prop where
  tables : ∀ t ∈ q.tables, isName t = true
  database : q.database ≠ [] → isName q.database = true
  columns : ∀ c ∈ q.columns, IsAttributeName c
  grouping : ∀ c ∈ q.grouping, IsAttributeName c
  ordering : ∀ o ∈ q.ordering, IsColumnName o.column
  condition : ∀ c ∈ q.condition, c.WellFormed
  mining : ∀ m ∈ q.mining, m.WellFormed
  measures : q.measures.isSome = true ↔ ∃ m x, q.measure? m = some x
  display : q.displayType = displayType ∨ ∃ n, isName n = true ∧ q.displayType = Text.lower n

/-- What a query takes over from its statement beside the parts that SQL says. -/
theorem Statement.reduce_directives {s : Statement} {displayType rawText : Text}
    {errors : List Text} {q : Query} (h : s.reduce displayType rawText errors = .ok q) :
    s.mining.mapM MineDirective.reduce = .ok q.mining ∧
      MeasureSetting.reduceAll s.measures = .ok q.measures ∧
      q.displayType = s.display.getD displayType := by
  obtain ⟨mining, hmining, h⟩ := exists_of_bind_eq_ok h
  obtain ⟨measures, hmeasures, h⟩ := exists_of_bind_eq_ok h
  cases h
  exact ⟨hmining, hmeasures, rfl⟩

/-- The query of a statement is well formed if everything that the statement says is written by
    tokens. -/
theorem Statement.reduce_wellFormed (limit : Nat) {s : Statement}
    (hsaid : ∀ c, s.Says c → ∃ body, Shaped body ∧ c.clause.Written limit c body)
    {displayType rawText : Text} {errors : List Text} {q : Query}
    (h : s.reduce displayType rawText errors = .ok q) : q.WellFormed displayType := by
  obtain ⟨hmining, hmeasures, hdisplay⟩ := reduce_directives h
  have hreduces := reduce_eq_ok h
  have hwell : ∀ c, s.Says c → c.WellFormed := by
    intro c hc
    obtain ⟨body, -, hwritten⟩ := hsaid c hc
    exact hwritten.wellFormed
  refine ⟨?tables, ?database, ?columns, ?grouping, ?ordering, ?condition, ?mining, ?measures,
    ?display⟩
  case tables =>
    rw [hreduces.tables]
    refine List.forall_mem_map.mpr fun t ht => ?_
    exact hwell (.tables s.tables) ⟨rfl, List.ne_nil_of_mem ht⟩ t ht
  case database =>
    rw [hreduces.database]
    intro hne
    cases hs : s.database with
    | none => simp [hs] at hne
    | some n => exact hwell (.database n) hs
  case columns =>
    rw [hreduces.columns]
    refine List.forall_mem_map.mpr fun a ha => Attribute.isAttributeName ?_
    cases hs : s.relevance with
    | none => simp [hs] at ha
    | some as => exact hwell (.relevance as) hs a (by simpa [hs] using ha)
  case grouping =>
    rw [hreduces.grouping]
    refine List.forall_mem_map.mpr fun a ha => Attribute.isAttributeName ?_
    exact hwell (.grouping s.grouping) ⟨rfl, List.ne_nil_of_mem ha⟩ a ha
  case ordering =>
    rw [hreduces.ordering]
    refine List.forall_mem_map.mpr fun o ho => ColumnRef.isColumnName ?_
    exact hwell (.ordering s.ordering) ⟨rfl, List.ne_nil_of_mem ho⟩ o ho
  case condition =>
    rw [hreduces.condition]
    intro c hc
    obtain ⟨p, hp, rfl⟩ := Option.map_eq_some_iff.mp hc
    exact Predicate.reduce_wellFormed (hwell (.condition p) hp).2
  case mining =>
    intro m hm
    cases hs : s.mining with
    | none =>
      rw [hs] at hmining
      cases (Except.ok.inj hmining).trans hm
    | some d =>
      obtain ⟨body, hbody, d', hwritten, hd⟩ := hsaid (.mining d) hs
      obtain rfl := ClauseContent.mining.inj hd
      rw [hs, Option.mapM_some, hm] at hmining
      cases hreduce : d'.reduce with
      | error e =>
        rw [hreduce] at hmining
        cases hmining
      | ok m' =>
        rw [hreduce] at hmining
        cases hmining
        exact hwritten.reduced hbody hreduce
  case measures =>
    constructor
    · intro hsome
      obtain ⟨ms, hms⟩ := Option.isSome_iff_exists.mp hsome
      obtain ⟨m, x, hx⟩ := MeasureSetting.reduceAll_sets hmeasures ms hms
      exact ⟨m, x, by rw [Query.measure?, hms]; exact hx⟩
    · rintro ⟨m, x, hx⟩
      cases hms : q.measures with
      | none => simp [Query.measure?, hms] at hx
      | some ms => rfl
  case display =>
    rw [hdisplay]
    cases hs : s.display with
    | none => exact .inl rfl
    | some n =>
      obtain ⟨body, -, w, us, -, -, name, ⟨t, -, hname, rfl⟩, hlower⟩ := hsaid (.display n) hs
      exact .inr ⟨t.text, hname.2, (ClauseContent.display.inj hlower).symm⟩

/-- **Every query is well formed.** Whatever the text and the settings are, the text gives a query,
    of which every part is what it may be: a clause that is broken off or out of place leaves its
    part empty. -/
theorem every_query_is_well_formed (settings : ReadSettings) (text : Text) :
    ∃ q, Query.ofText settings text = .ok q ∧ q.WellFormed settings.displayType := by
  obtain ⟨q, hq, -⟩ := Query.exists_ofText settings text
  refine ⟨q, hq, Statement.reduce_wellFormed settings.nestingLimit (fun c hc => ?_) hq⟩
  exact readStatement_says (lex_shaped text) hc

end MiningQuery
