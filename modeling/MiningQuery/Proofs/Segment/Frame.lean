/-
  File:      MiningQuery/Proofs/Segment/Frame.lean
  Subject:   A segment can be rewritten without any effect outside it.

  * `ClauseContent.clause`, `Statement.without` -- the field of a clause, and a statement in which it
    is empty;
  * `Segment.withBody` -- other tokens behind the same keyword;
  * `Split.reports` -- the errors as they are reported, by the segments they belong to;
  * **`rewritten_segment_stays_inside`** -- other tokens behind the keyword of a clause change its
    field and its errors and nothing else.
-/
import Mathlib.Data.List.Nodup
import MiningQuery.Proofs.Segment.Failures

namespace MiningQuery

/-! ## 1. Fields -/

/-- The clause that says it. -/
def ClauseContent.clause : ClauseContent → Clause
  | .database _ => .database
  | .relevance _ => .relevance
  | .tables _ => .tables
  | .condition _ => .condition
  | .grouping _ => .grouping
  | .ordering _ => .ordering
  | .mining _ => .mining
  | .measures _ => .measures
  | .display _ => .display

/-- The statement with the field of a clause empty. -/
def Statement.without (s : Statement) : Clause → Statement
  | .database => { s with database := none }
  | .relevance => { s with relevance := none }
  | .tables => { s with tables := [] }
  | .condition => { s with condition := none }
  | .grouping => { s with grouping := [] }
  | .ordering => { s with ordering := [] }
  | .mining => { s with mining := none }
  | .measures => { s with measures := [] }
  | .display => { s with display := none }

section Fields

variable {limit : Nat} {clause : Clause} {x : ClauseContent} {ts rest : List Token}

/-- What a clause says goes into its own field. -/
theorem Statement.without_set (s : Statement) (x : ClauseContent) :
    (s.set x).without x.clause = s.without x.clause := by
  cases x <;> rfl

/-- The fields of two clauses are two fields. -/
theorem Statement.set_without (s : Statement) (h : x.clause ≠ clause) :
    (s.set x).without clause = (s.without clause).set x := by
  cases x <;> cases clause <;> first | rfl | exact absurd rfl h

/-- Without the field of a clause a statement is what the other clauses say. -/
theorem Statement.without_foldl (contents : List ClauseContent) (s : Statement) (clause : Clause) :
    (contents.foldl Statement.set s).without clause =
      (contents.filter fun x => x.clause ≠ clause).foldl Statement.set (s.without clause) := by
  induction contents generalizing s with
  | nil => rfl
  | cons x contents ih =>
    rw [List.foldl_cons, ih]
    by_cases hx : x.clause = clause
    · rw [List.filter_cons_of_neg (by simpa using hx), ← hx, Statement.without_set]
    · rw [List.filter_cons_of_pos (by simpa using hx), List.foldl_cons, Statement.set_without s hx]

/-- Clauses other than the condition leave the condition of a statement as it is. -/
theorem Statement.foldl_set_condition {contents : List ClauseContent}
    (h : ∀ x ∈ contents, x.clause ≠ .condition) (s : Statement) (condition : Option Predicate) :
    contents.foldl Statement.set { s with condition } =
      { contents.foldl Statement.set s with condition } := by
  induction contents generalizing s with
  | nil => rfl
  | cons x contents ih =>
    obtain ⟨hx, hcontents⟩ := List.forall_mem_cons.mp h
    have hset : ({ s with condition } : Statement).set x = { s.set x with condition } := by
      cases x with
      | condition => exact absurd rfl hx
      | _ => rfl
    rw [List.foldl_cons, hset, ih hcontents, List.foldl_cons]

/-- The reader of a clause says what this clause says. -/
theorem Clause.clause_of_content (h : clause.content limit ts = .ok (x, rest)) :
    x.clause = clause := by
  cases clause with
  | database | relevance | grouping | ordering | display =>
    obtain ⟨_, -, h⟩ := Parse.exists_of_bind_eq_ok h
    obtain ⟨_, -, h⟩ := Parse.exists_of_bind_eq_ok h
    cases h
    rfl
  | tables | condition | mining | measures =>
    obtain ⟨_, -, h⟩ := Parse.exists_of_bind_eq_ok h
    cases h
    rfl

theorem Segment.clause_of_reading {s : Segment} (h : (s.reading limit).content = some x) :
    x.clause = s.clause := by
  rw [reading, ClauseReading.ofSegment] at h
  split at h
  · rename_i hread
    obtain rfl := Option.some.inj h
    exact Clause.clause_of_content hread
  · cases h

end Fields

/-! ## 2. Rewriting a segment -/

/-- Other tokens behind the same keyword. -/
def Segment.withBody (s : Segment) (body : List Token) : Segment := { s with body }

/-- The errors of a statement as they are reported: those of the tokens before the first segment,
    then those of each segment. -/
def Split.reports (limit : Nat) (last : Token) (σ : Split) : List (List Text) :=
  (σ.shares [last] (readStatement limit (σ.tokens ++ [last])).failures).map
    (·.map (Failure.text limit))

section Rewriting

variable {limit : Nat} {allowed : List Clause} {lead body rest rest' : List Token}
  {before after : List Segment} {s : Segment}

/-- A token that opens one of some clauses ends every clause. -/
theorem Inside.opening (h : Inside body) : ∀ t ∈ body, Clause.opening allowed t = none := by
  intro t ht
  cases hopening : Clause.opening allowed t with
  | none => rfl
  | some clause =>
    have hends : Clause.endsSegment allowed t = true := by
      rw [Clause.endsSegment, Clause.opensOne_eq, hopening]
      simp
    exact absurd (Clause.mem_clauseEnd hends) (h t ht)

/-- The segments stay where they are. -/
theorem Split.Fits.withBody (h : Split.Fits allowed lead (before ++ s :: after))
    (hbody : Inside body) : Split.Fits allowed lead (before ++ s.withBody body :: after) := by
  induction before generalizing allowed lead with
  | nil =>
    cases h with
    | next hlead hs hrest =>
      refine .next hlead hs ?_
      cases hrest with
      | last => exact .last hbody.opening
      | next _ hs' hrest' => exact .next hbody.opening hs' hrest'
  | cons s₀ before ih =>
    cases h with
    | next hlead hs hrest => exact .next hlead hs (ih hrest)

/-- An error reads the same, whatever follows the first token behind its segment. -/
theorem Failure.text_before (f : Failure) (h : rest.head? = rest'.head?) :
    (f.before rest).text limit = (f.before rest').text limit := by
  have htoken : (f.before rest).token = (f.before rest').token := by
    obtain ⟨fs, cause⟩ := f
    cases fs with
    | nil => simp [Failure.before, Failure.token, List.headD_eq_head?_getD, h]
    | cons t fs => rfl
  have hmessage : (f.before rest).message limit = (f.before rest').message limit := by
    simp only [Failure.message, htoken]
    rfl
  rw [Failure.text, Failure.text, htoken, hmessage]

/-- The first token of what follows a segment is not one of those that are rewritten. -/
theorem Segment.head_withBody (before after : List Segment) (s : Segment) (body : List Token)
    (rest : List Token) :
    (join (before ++ s.withBody body :: after) ++ rest).head? =
      (join (before ++ s :: after) ++ rest).head? := by
  cases before with
  | nil | cons s₀ before => simp [withBody]

/-- **The other segments report what they did.** -/
theorem Segment.reports_withBody (limit : Nat) (before after : List Segment) (s : Segment)
    (body rest : List Token) :
    ((readings limit (before ++ s.withBody body :: after) rest).map
        fun r => r.failure.toList.map (Failure.text limit)).eraseIdx before.length =
      ((readings limit (before ++ s :: after) rest).map
        fun r => r.failure.toList.map (Failure.text limit)).eraseIdx before.length := by
  induction before with
  | nil => rfl
  | cons s₀ before ih =>
    have hhead := head_withBody before after s body rest
    simp only [List.cons_append, readings, List.map_cons, List.length_cons, List.eraseIdx_cons_succ]
    rw [ih]
    congr 1
    cases hown : (s₀.reading limit).failure with
    | none => simp [ClauseReading.before, hown]
    | some f =>
      simp only [ClauseReading.before, hown, Option.map_some, Option.toList_some, List.map_cons,
        List.map_nil, f.text_before hhead]

end Rewriting

/-! ## 3. Statements -/

section Statement

variable {limit : Nat} {ts : List Token} {last : Token} {σ : Split}

/-- What a split says: the contents of its segments. -/
def Split.contents (limit : Nat) (σ : Split) : List ClauseContent :=
  σ.segments.filterMap fun s => (s.reading limit).content

/-- The reports are those of the segments on their own. -/
theorem Split.reports_eq (hσ : Split.Fits Clause.all σ.lead σ.segments)
    (hend : EndsOnce (σ.tokens ++ [last])) :
    σ.reports limit last =
      ((σ.leadFailure [last]).toList.map (Failure.text limit)) ::
        (Segment.readings limit σ.segments [last]).map
          fun r => r.failure.toList.map (Failure.text limit) := by
  rw [Split.reports, readStatement_failures limit hend, Split.ofTokens_tokens hσ,
    Split.shares_failures, List.map_cons, List.map_map]
  rfl

/-- Every other field is what the other segments say. -/
theorem Split.without_contents (limit : Nat) (lead : List Token) (before after : List Segment)
    (s : Segment) :
    ((Split.contents limit ⟨lead, before ++ s :: after⟩).filter fun x => x.clause ≠ s.clause) =
      (Split.contents limit ⟨lead, before ++ after⟩).filter fun x => x.clause ≠ s.clause := by
  have hown : ((s.reading limit).content.toList.filter fun x => x.clause ≠ s.clause) = [] :=
    List.filter_eq_nil_iff.mpr fun x hx => by
      simpa using Segment.clause_of_reading (Option.mem_toList.mp hx)
  have hcons : (s :: after).filterMap (fun s => (s.reading limit).content) =
      (s.reading limit).content.toList ++
        after.filterMap fun s => (s.reading limit).content := by
    rw [List.filterMap_cons]
    cases (s.reading limit).content <;> rfl
  simp only [Split.contents, List.filterMap_append, hcons, List.filter_append, hown,
    List.nil_append]

/-- Behind a segment the clause ends. -/
theorem Split.Fits.stop_behind {allowed : List Clause} {lead : List Token}
    {before after : List Segment} {s : Segment}
    (h : Split.Fits allowed lead (before ++ s :: after)) (hlast : last.kind = .endOfInput) :
    Parse.ClauseStop (Segment.join after ++ [last]) := by
  induction before generalizing allowed lead with
  | nil =>
    cases h with
    | next _ _ hrest =>
      obtain ⟨t, rest, hjoin, ht⟩ := hrest.head hlast
      rw [hjoin]
      exact Clause.mem_clauseEnd ht
  | cons s₀ before ih =>
    cases h with
    | next _ _ hrest => exact ih hrest

/-- A clause that says nothing leaves its field empty. -/
theorem Split.without_of_none (hσ : Split.Fits Clause.all σ.lead σ.segments) {s : Segment}
    (hs : s ∈ σ.segments) (hnone : (s.reading limit).content = none) :
    ((σ.contents limit).foldl Statement.set .empty).without s.clause =
      (σ.contents limit).foldl Statement.set .empty := by
  have hothers : ∀ x ∈ σ.contents limit, x.clause ≠ s.clause := by
    intro x hx hclause
    obtain ⟨s', hs', hsaid⟩ := List.mem_filterMap.mp hx
    have hsame : s'.clause = s.clause := (Segment.clause_of_reading hsaid).symm.trans hclause
    obtain rfl := List.inj_on_of_nodup_map hσ.clauses_nodup hs' hs hsame
    rw [hnone] at hsaid
    cases hsaid
  have hempty : Statement.empty.without s.clause = .empty := by
    cases s.clause <;> rfl
  rw [Statement.without_foldl, hempty, List.filter_eq_self.mpr fun x hx => by
    simpa using hothers x hx]

/-- A split says what its segments say. -/
theorem Split.statement_eq (hσ : Split.Fits Clause.all σ.lead σ.segments)
    (hend : EndsOnce (σ.tokens ++ [last])) :
    (readStatement limit (σ.tokens ++ [last])).statement =
      (σ.contents limit).foldl Statement.set .empty := by
  rw [readStatement_split limit hend, Split.ofTokens_tokens hσ]
  rfl

/-- Its errors are those that it reports. -/
theorem Split.flatten_reports (hσ : Split.Fits Clause.all σ.lead σ.segments)
    (hend : EndsOnce (σ.tokens ++ [last])) :
    (σ.reports limit last).flatten =
      (readStatement limit (σ.tokens ++ [last])).failures.map (Failure.text limit) := by
  have haccounts := readStatement_accounts limit hend
  rw [Split.ofTokens_tokens hσ] at haccounts
  rw [Split.reports, ← List.map_flatten, haccounts.complete]

/-- Tokens inside a clause bring no end of the input with them. -/
theorem Split.endsOnce_withBody {lead body : List Token} {before after : List Segment} {s : Segment}
    (hend : EndsOnce (Split.tokens ⟨lead, before ++ s :: after⟩ ++ [last]))
    (hbody : Inside body) :
    EndsOnce (Split.tokens ⟨lead, before ++ s.withBody body :: after⟩ ++ [last]) := by
  obtain ⟨hlast, hkinds⟩ := endsOnce_append.mp hend
  refine endsOnce_append.mpr ⟨hlast, fun t ht => ?_⟩
  simp only [Split.tokens, Segment.join, List.flatMap_append, List.flatMap_cons, Segment.tokens,
    Segment.withBody, List.mem_append, List.mem_cons] at ht hkinds
  rcases ht with ht | ht | (ht | ht) | ht
  · exact hkinds t (.inl ht)
  · exact hkinds t (.inr (.inl ht))
  · exact hkinds t (.inr (.inr (.inl (.inl ht))))
  · exact ne_endOfInput_of_inside (hbody t ht)
  · exact hkinds t (.inr (.inr (.inr ht)))

/-- **Other tokens behind the keyword of a clause change its field and its errors only.** They are
    tokens inside a clause, and the split, the other fields and the errors of the other segments
    stay what they were; the errors are those of the segments, and a clause that is not read to its
    end leaves its field empty. A reader with a cursor reads both token lists so. -/
theorem rewritten_segment_stays_inside (limit : Nat) {lead : List Token}
    {before after : List Segment} {s : Segment} (hend : EndsOnce (ts ++ [last]))
    (hsplit : Split.ofTokens ts = ⟨lead, before ++ s :: after⟩) {body : List Token}
    (hbody : Inside body) :
    let σ : Split := ⟨lead, before ++ s :: after⟩
    let σ' : Split := ⟨lead, before ++ s.withBody body :: after⟩
    let read := readStatement limit (ts ++ [last])
    let read' := readStatement limit (σ'.tokens ++ [last])
    Split.ofTokens σ'.tokens = σ' ∧
      read'.statement.without s.clause = read.statement.without s.clause ∧
      (σ'.reports limit last).eraseIdx (before.length + 1) =
        (σ.reports limit last).eraseIdx (before.length + 1) ∧
      (σ.reports limit last).flatten = read.failures.map (Failure.text limit) ∧
      (σ'.reports limit last).flatten = read'.failures.map (Failure.text limit) ∧
      (∀ f, s.clause.content limit (s.body ++ (Segment.join after ++ [last])) = .error f →
        read.statement.without s.clause = read.statement) ∧
      ∀ calls, limit < calls →
        (∃ p, Scan.statement calls ⟨ts ++ [last], limit⟩ {} =
          .ok read.statement { position := p, errors := read.failures }) ∧
        ∃ p, Scan.statement calls ⟨σ'.tokens ++ [last], limit⟩ {} =
          .ok read'.statement { position := p, errors := read'.failures } := by
  intro σ σ'
  have hσ : Split.Fits Clause.all lead (before ++ s :: after) := by
    have hcut := Split.cut_fits Clause.all ts
    rwa [show Split.cut Clause.all ts = σ from hsplit] at hcut
  have hσ' : Split.Fits Clause.all lead (before ++ s.withBody body :: after) := hσ.withBody hbody
  obtain rfl : σ.tokens = ts := by
    rw [← Split.tokens_cut Clause.all ts]
    exact congrArg Split.tokens hsplit.symm
  have hend' : EndsOnce (σ'.tokens ++ [last]) := Split.endsOnce_withBody hend hbody
  intro read read'
  have hread : read.statement = (σ.contents limit).foldl Statement.set .empty :=
    Split.statement_eq hσ hend
  have hread' : read'.statement = (σ'.contents limit).foldl Statement.set .empty :=
    Split.statement_eq hσ' hend'
  refine ⟨hσ'.cut_eq, ?_, ?_, Split.flatten_reports hσ hend, Split.flatten_reports hσ' hend', ?_,
    fun calls hcalls => ⟨?_, ?_⟩⟩
  · have hothers : (σ'.contents limit).filter (fun x => x.clause ≠ s.clause) =
        (σ.contents limit).filter fun x => x.clause ≠ s.clause :=
      (Split.without_contents limit lead before after (s.withBody body)).trans
        (Split.without_contents limit lead before after s).symm
    rw [hread, hread', Statement.without_foldl, Statement.without_foldl, hothers]
  · have hhead := Segment.head_withBody before after s body [last]
    have hlead : (σ'.leadFailure [last]).toList.map (Failure.text limit) =
        (σ.leadFailure [last]).toList.map (Failure.text limit) := by
      simp only [Split.leadFailure, σ, σ']
      cases Clause.leftover Clause.all lead with
      | none => rfl
      | some f => simp [f.text_before hhead]
    rw [Split.reports_eq hσ hend, Split.reports_eq hσ' hend', hlead, List.eraseIdx_cons_succ,
      List.eraseIdx_cons_succ, Segment.reports_withBody]
  · intro f hf
    have hnone : (s.reading limit).content = none := by
      rw [Clause.content_append limit s.clause s.body (hσ.stop_behind (endsOnce_append.mp hend).1)] at hf
      rw [Segment.reading, ClauseReading.ofSegment]
      cases hown : s.clause.content limit s.body with
      | ok o =>
        rw [hown] at hf
        cases hf
      | error f' => rfl
    rw [hread]
    exact Split.without_of_none hσ (List.mem_append_right _ List.mem_cons_self) hnone
  · obtain ⟨p, -, hrun⟩ := Scan.statement_eq (i := ⟨σ.tokens ++ [last], limit⟩) hend.closed hcalls
    exact ⟨p, hrun⟩
  · obtain ⟨p, -, hrun⟩ := Scan.statement_eq (i := ⟨σ'.tokens ++ [last], limit⟩) hend'.closed hcalls
    exact ⟨p, hrun⟩

/-- In `x USE FROM t t2 t3 WHERE a` the tokens behind `FROM` are replaced by `(`: the
    tables are lost, one error of the second segment takes the place of another, and the rest is as
    it was. -/
theorem rewritten_segment_stays_inside_tables :
    let ts : List Token :=
      [⟨.identifier, ascii "x", .start⟩, ⟨.keyword .USE, ascii "USE", .start⟩,
        ⟨.keyword .FROM, ascii "FROM", .start⟩, ⟨.identifier, ascii "t", .start⟩,
        ⟨.identifier, ascii "t2", .start⟩, ⟨.identifier, ascii "t3", .start⟩,
        ⟨.keyword .WHERE, ascii "WHERE", .start⟩, ⟨.identifier, ascii "a", .start⟩]
    let last : Token := ⟨.endOfInput, [], .start⟩
    let σ := Split.ofTokens ts
    let s : Segment := ⟨.tables, ⟨.keyword .FROM, ascii "FROM", .start⟩, (ts.drop 3).take 3, rfl⟩
    let body : List Token := [⟨.symbol .openParen, ascii "(", .start⟩]
    let σ' : Split := ⟨σ.lead, σ.segments.set 1 (s.withBody body)⟩
    EndsOnce (ts ++ [last]) ∧ σ.segments[1]? = some s ∧ Inside body ∧
      (readStatement 200 (σ'.tokens ++ [last])).statement.without .tables =
        (readStatement 200 (ts ++ [last])).statement.without .tables ∧
      (readStatement 200 (ts ++ [last])).statement.tables ≠ [] ∧
      (readStatement 200 (σ'.tokens ++ [last])).statement.tables = [] := by
  intro ts last σ s body σ'
  have hend : EndsOnce (ts ++ [last]) := endsOnce_append.mpr ⟨rfl, by decide⟩
  have hsplit : Split.ofTokens ts = ⟨σ.lead, σ.segments.take 1 ++ s :: σ.segments.drop 2⟩ := by
    decide
  have hbody : Inside body := inside_cons.mpr ⟨symbol_inside _, inside_nil⟩
  have hframe := rewritten_segment_stays_inside 200 hend hsplit hbody
  exact ⟨hend, by decide, hbody, hframe.2.1, by decide, by decide⟩

end Statement

end MiningQuery
