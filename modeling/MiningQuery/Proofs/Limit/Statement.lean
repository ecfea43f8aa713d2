/-
  File:      MiningQuery/Proofs/Limit/Statement.lean
  Subject:   The limit of nesting is exact, and costs a statement no more than its condition.

  * `readStatement_unlimited` -- a limit as high as the token list is long is no limit;
  * `CutOff` -- a limit cuts off the condition of a statement, and all else is as it was;
  * `cutOff_of_halted` -- this happens where the reading of the condition is halted;
  * **`nesting_limit_is_exact`** -- nothing else ever happens, and of a well-formed condition the
    depth and the levels of its tokens tell whether and where.
-/
import MiningQuery.Proofs.Limit.Halting
import MiningQuery.Proofs.Limit.Readers
import MiningQuery.Proofs.Segment.Frame

namespace MiningQuery

open Parse (OpensLevel)

/-! ## 1. Segments -/

/-- The limit is told only where nesting is too deep. -/
theorem Failure.text_of_not_nested {f : Failure} (h : f.cause ≠ .nestedTooDeeply) (m n : Nat) :
    f.text m = f.text n := by
  obtain ⟨rest, cause⟩ := f
  cases cause with
  | nestedTooDeeply => exact absurd rfl h
  | _ => rfl

theorem Failure.fatal_iff {f : Failure} : f.fatal = true ↔ f.cause = .nestedTooDeeply := by
  simp [Failure.fatal]

namespace Segment

variable {m n : Nat} {s : Segment} {segments before after : List Segment} {rest : List Token}
  {f : Failure}

/-- What a segment gives is what the reader of its clause makes of it. -/
theorem reading_congr (h : s.clause.content m s.body = s.clause.content n s.body) :
    s.reading m = s.reading n := by
  rw [reading, reading, ClauseReading.ofSegment, h]
  rfl

/-- A segment of another clause is read without a limit. -/
theorem reading_of_ne (h : s.clause ≠ .condition) (m n : Nat) : s.reading m = s.reading n :=
  reading_congr (by rw [Clause.content_of_ne h m n])

/-- Under a limit a segment gives what it gives under a higher one, or its reading is halted. -/
theorem reading_limited (s : Segment) (h : m ≤ n) :
    s.reading m = s.reading n ∨ ∃ passed rest, s.body = passed ++ rest ∧ OpensLevel passed rest ∧
      s.clause.content m s.body = .error ⟨rest, .nestedTooDeeply⟩ := by
  rcases (s.clause.content_limited h s.body).same_or_halted with
    hsame | ⟨passed, rest, hhalted, hbody, hopens⟩
  · exact .inl (reading_congr hsame)
  · exact .inr ⟨passed, rest, hbody, hopens, hhalted⟩

/-- A limit as high as the segment is long does not matter. -/
theorem reading_unlimited (h : s.body.length ≤ n) (hn : n ≤ m) : s.reading m = s.reading n :=
  reading_congr ((s.clause.content_limited hn s.body).same h).symm

theorem not_nested_of_reading (h : s.body.length ≤ n) (hf : (s.reading n).failure = some f) :
    f.cause ≠ .nestedTooDeeply := by
  have hlimited := s.clause.content_limited (Nat.le_refl n) s.body
  rw [reading, ClauseReading.ofSegment] at hf
  cases hread : s.clause.content n s.body with
  | error g =>
    rw [hread] at hf hlimited
    obtain rfl := Option.some.inj hf
    rw [Ne, ← Failure.fatal_iff, hlimited.not_fatal h]
    exact Bool.false_ne_true
  | ok o =>
    rw [hread] at hf
    obtain ⟨names, hcause⟩ := Clause.cause_of_leftover hf
    simp [hcause]

/-- A failure of the segments is that of one of them. -/
theorem exists_of_readings_failure (h : f ∈ (readings n segments rest).filterMap (·.failure)) :
    ∃ s ∈ segments, ∃ own, (s.reading n).failure = some own ∧ own.cause = f.cause := by
  induction segments with
  | nil => cases h
  | cons s segments ih =>
    rw [readings_failures_cons] at h
    rcases List.mem_append.mp h with h | h
    · obtain ⟨own, hown, rfl⟩ := Option.map_eq_some_iff.mp (Option.mem_toList.mp h)
      exact ⟨s, List.mem_cons_self, own, hown, rfl⟩
    · obtain ⟨s', hs', hown⟩ := ih h
      exact ⟨s', List.mem_cons_of_mem s hs', hown⟩

/-- What the segments give is what each of them does. -/
theorem readings_congr (h : ∀ s ∈ segments, s.reading m = s.reading n) (rest : List Token) :
    readings m segments rest = readings n segments rest := by
  induction segments with
  | nil => rfl
  | cons s segments ih =>
    obtain ⟨hs, hsegments⟩ := List.forall_mem_cons.mp h
    rw [readings, readings, hs, ih hsegments]

/-- If all segments but one give the same, so do they together, but for that one. -/
theorem readings_set (h : ∀ s' ∈ before ++ after, s'.reading m = s'.reading n)
    (rest : List Token) :
    readings m (before ++ s :: after) rest =
      (readings n (before ++ s :: after) rest).set before.length
        ((s.reading m).before (join after ++ rest)) := by
  induction before with
  | nil => simpa [readings] using readings_congr h rest
  | cons s' before ih =>
    obtain ⟨hs', hothers⟩ := List.forall_mem_cons.mp h
    simp [readings, hs', ih hothers]

end Segment

section Statement

variable {m n : Nat} {ts : List Token} {last : Token} {before after : List Segment} {s : Segment}

/-- The clauses of the other segments are other clauses. -/
theorem Split.Fits.clause_ne {lead : List Token}
    (h : Split.Fits Clause.all lead (before ++ s :: after)) {s' : Segment}
    (hs' : s' ∈ before ++ after) : s'.clause ≠ s.clause := by
  have hnodup := h.clauses_nodup
  rw [List.map_append, List.map_cons, List.nodup_middle, List.nodup_cons,
    ← List.map_append] at hnodup
  exact fun hsame => hnodup.1 (hsame ▸ List.mem_map_of_mem hs')

/-- A statement is read alike if its segments are. -/
theorem readStatement_congr (hend : EndsOnce (ts ++ [last]))
    (h : ∀ s ∈ (Split.ofTokens ts).segments, s.reading m = s.reading n) :
    readStatement m (ts ++ [last]) = readStatement n (ts ++ [last]) := by
  rw [readStatement_split m hend, readStatement_split n hend, Segment.readings_congr h,
    List.filterMap_congr fun s hs => congrArg ClauseReading.content (h s hs)]

/-- **A limit as high as the token list is long is no limit.** -/
theorem readStatement_unlimited (hend : EndsOnce (ts ++ [last])) (h : ts.length ≤ n) :
    readStatement n (ts ++ [last]) = readStatement ts.length (ts ++ [last]) :=
  readStatement_congr hend fun _ hs =>
    Segment.reading_unlimited (Split.body_sublist hs).length_le h

/-- If all segments but one give the same, so does the statement without the field of that one. -/
theorem without_congr (hend : EndsOnce (ts ++ [last]))
    (hsegments : (Split.ofTokens ts).segments = before ++ s :: after)
    (h : ∀ s' ∈ before ++ after, s'.reading m = s'.reading n) :
    (readStatement m (ts ++ [last])).statement.without s.clause =
      (readStatement n (ts ++ [last])).statement.without s.clause := by
  have hstatement : ∀ k, (readStatement k (ts ++ [last])).statement =
      (Split.contents k ⟨[], before ++ s :: after⟩).foldl Statement.set .empty := fun k => by
    rw [readStatement_split k hend, hsegments]
    rfl
  have hcontents : Split.contents m ⟨[], before ++ after⟩ =
      Split.contents n ⟨[], before ++ after⟩ :=
    List.filterMap_congr fun s' hs' => congrArg ClauseReading.content (h s' hs')
  rw [hstatement, hstatement, Statement.without_foldl, Statement.without_foldl,
    Split.without_contents, Split.without_contents, hcontents]

theorem not_nested_of_unlimited (hend : EndsOnce (ts ++ [last])) {f : Failure}
    (hf : f ∈ (readStatement ts.length (ts ++ [last])).failures) :
    f.cause ≠ .nestedTooDeeply := by
  rw [readStatement_failures _ hend] at hf
  rcases List.mem_append.mp hf with hf | hf
  · obtain ⟨own, hown, rfl⟩ := Option.map_eq_some_iff.mp (Option.mem_toList.mp hf)
    obtain ⟨names, hcause⟩ := Clause.cause_of_leftover hown
    simp [Failure.before, hcause]
  · obtain ⟨s, hs, own, hown, hcause⟩ := Segment.exists_of_readings_failure hf
    rw [← hcause]
    exact Segment.not_nested_of_reading (Split.body_sublist hs).length_le hown

/-! ## 2. The condition cut off -/

/-- With the limit the condition of a statement is absent, and its segment has one error, which says
    that a token would open one level too many; all else is as without the limit. -/
structure CutOff (limit : Nat) (last : Token) (σ : Split) (free limited : StatementReading)
    (f : Failure) : Prop where
  cause : f.cause = .nestedTooDeeply
  message : f.message limit = ascii "condition nested too deeply, at most " ++ Text.ofNat limit ++
    ascii " levels of parentheses and NOT are allowed"
  statement : limited.statement = free.statement.without .condition
  segment : ∃ before s after, σ.segments = before ++ s :: after ∧ s.clause = .condition ∧
    σ.shares [last] limited.failures = (σ.shares [last] free.failures).set (before.length + 1) [f] ∧
    ∃ passed, s.body ++ (Segment.join after ++ [last]) = passed ++ f.rest ∧
      OpensLevel passed f.rest

/-- **Where the reading of the condition is halted, the condition is cut off.** -/
theorem cutOff_of_halted (hend : EndsOnce (ts ++ [last]))
    (hsegments : (Split.ofTokens ts).segments = before ++ s :: after) (hs : s.clause = .condition)
    {passed rest : List Token} (hbody : s.body = passed ++ rest) (hopens : OpensLevel passed rest)
    (hhalted : s.clause.content m s.body = .error ⟨rest, .nestedTooDeeply⟩) (n : Nat) :
    CutOff m last (Split.ofTokens ts) (readStatement n (ts ++ [last]))
      (readStatement m (ts ++ [last]))
      ⟨rest ++ (Segment.join after ++ [last]), .nestedTooDeeply⟩ := by
  have hfits := Split.ofTokens_fits ts
  have hmem : s ∈ (Split.ofTokens ts).segments := by simp [hsegments]
  have hown : s.reading m = ⟨none, some ⟨rest, .nestedTooDeeply⟩⟩ := by
    rw [Segment.reading, ClauseReading.ofSegment, hhalted]
  have hothers : ∀ s' ∈ before ++ after, s'.reading m = s'.reading n := fun s' hs' =>
    Segment.reading_of_ne (hs ▸ (hsegments ▸ hfits).clause_ne hs') m n
  refine ⟨rfl, rfl, ?_, before, s, after, hsegments, hs, ?_, passed, ?_, hopens.append _⟩
  · calc (readStatement m (ts ++ [last])).statement
        = (readStatement m (ts ++ [last])).statement.without .condition := by
          rw [readStatement_split m hend, ← hs]
          exact (Split.without_of_none hfits hmem (by rw [hown])).symm
      _ = (readStatement n (ts ++ [last])).statement.without .condition := by
          rw [← hs]
          exact without_congr hend hsegments hothers
  · rw [readStatement_failures m hend, readStatement_failures n hend, Split.shares_failures,
      Split.shares_failures, hsegments, Segment.readings_set hothers, List.map_set, hown]
    rfl
  · rw [hbody, List.append_assoc]

/-- A condition that is cut off says so, which none does without a limit. -/
theorem CutOff.ne {f : Failure} (hend : EndsOnce (ts ++ [last]))
    (h : CutOff m last (Split.ofTokens ts) (readStatement ts.length (ts ++ [last]))
      (readStatement m (ts ++ [last])) f) :
    readStatement m (ts ++ [last]) ≠ readStatement ts.length (ts ++ [last]) := by
  intro hsame
  obtain ⟨hcause, -, -, before, s, after, hsegments, -, hshares, -⟩ := h
  have haccounts := readStatement_accounts m hend
  have hmem : f ∈ (readStatement m (ts ++ [last])).failures := by
    rw [← haccounts.complete, hshares, readStatement_failures _ hend, Split.shares_failures]
    refine List.mem_flatten.mpr ⟨[f], List.mem_set ?_ _, List.mem_singleton_self f⟩
    simp [Segment.length_readings, hsegments]
  rw [hsame] at hmem
  exact not_nested_of_unlimited hend hmem hcause

/-- **Under a limit a statement is read as without one, or its condition is cut off.** -/
theorem same_or_cutOff (m : Nat) (hend : EndsOnce (ts ++ [last])) :
    readStatement m (ts ++ [last]) = readStatement ts.length (ts ++ [last]) ∨
      ∃ f, CutOff m last (Split.ofTokens ts) (readStatement ts.length (ts ++ [last]))
        (readStatement m (ts ++ [last])) f := by
  rcases Nat.le_total ts.length m with hm | hm
  · exact .inl (readStatement_unlimited hend hm)
  by_cases hsame : ∀ s ∈ (Split.ofTokens ts).segments, s.reading m = s.reading ts.length
  · exact .inl (readStatement_congr hend hsame)
  · simp only [not_forall] at hsame
    obtain ⟨s, hmem, hdiffers⟩ := hsame
    obtain ⟨before, after, hsegments⟩ := List.append_of_mem hmem
    have hs : s.clause = .condition := by
      by_contra hne
      exact hdiffers (Segment.reading_of_ne hne m _)
    obtain ⟨passed, rest, hbody, hopens, hhalted⟩ := (s.reading_limited hm).resolve_left hdiffers
    exact .inr ⟨_, cutOff_of_halted hend hsegments hs hbody hopens hhalted _⟩

/-! ## 3. Well-formed conditions -/

section Written

variable {N : Nat} {p : Predicate} {body : List Token}

/-- A condition that nests no deeper than the limit is read. -/
theorem condition_content_of_le (hp : p.Written N body) (h : p.depth ≤ n) :
    Clause.condition.content n body = .ok (.condition p, []) := by
  have hstop : Parse.ConditionStop [] := by
    rw [Parse.ConditionStop]
    decide
  have hread := (Parse.condition_reads n false).complete
    ⟨hp.canonical, hp.lexical, h, hp.spells⟩ hstop
  rw [List.append_nil] at hread
  exact Parse.bind_of_ok hread

/-- A condition that nests deeper than the limit is halted at its first token that is too deep. -/
theorem condition_content_of_lt (hp : p.Written N body) (h : n < p.depth) :
    Clause.condition.content n body = .error ⟨firstDeeper n p.levels body, .nestedTooDeeply⟩ := by
  have hhalted := Parse.condition_halts n N hp ((p.exceeds_iff n).mpr h) []
  rw [List.append_nil, List.append_nil] at hhalted
  exact Parse.bind_of_error hhalted

/-- Without a limit every condition is read. -/
theorem condition_content_unlimited (hp : p.Written N body) (h : body.length ≤ n) :
    Clause.condition.content n body = .ok (.condition p, []) := by
  rw [(Clause.condition.content_limited (Nat.le_max_left n p.depth) body).same h]
  exact condition_content_of_le hp (Nat.le_max_right n p.depth)

/-- The condition of a statement is what the segment of the condition gives. -/
theorem condition_of_segment (hend : EndsOnce (ts ++ [last]))
    (hsegments : (Split.ofTokens ts).segments = before ++ s :: after) (hs : s.clause = .condition)
    (hread : s.clause.content n s.body = .ok (.condition p, [])) :
    (readStatement n (ts ++ [last])).statement.condition = some p := by
  have hfits : Split.Fits Clause.all (Split.ofTokens ts).lead (before ++ s :: after) :=
    hsegments ▸ Split.ofTokens_fits ts
  have hsaid : (s.reading n).content = some (.condition p) := by
    rw [Segment.reading, ClauseReading.ofSegment, hread]
  have hafter : ∀ x ∈ after.filterMap (fun s => (s.reading n).content), x.clause ≠ .condition := by
    intro x hx
    obtain ⟨s', hs', hx⟩ := List.mem_filterMap.mp hx
    rw [Segment.clause_of_reading hx, ← hs]
    exact hfits.clause_ne (List.mem_append_right _ hs')
  rw [readStatement_split n hend, hsegments, List.filterMap_append, List.filterMap_cons, hsaid,
    List.foldl_append, List.foldl_cons, Statement.set, Statement.foldl_set_condition hafter]

/-- **A well-formed condition that nests deeper than the limit is cut off** at its first token
    that is too deep. -/
theorem cutOff_of_written (hend : EndsOnce (ts ++ [last]))
    (hsegments : (Split.ofTokens ts).segments = before ++ s :: after) (hs : s.clause = .condition)
    (hp : p.Written N s.body) (h : m < p.depth) (n : Nat) :
    CutOff m last (Split.ofTokens ts) (readStatement n (ts ++ [last]))
      (readStatement m (ts ++ [last]))
      ⟨firstDeeper m p.levels s.body ++ (Segment.join after ++ [last]), .nestedTooDeeply⟩ := by
  have hhalted := condition_content_of_lt hp h
  rcases (Clause.condition.content_limited (Nat.le_of_lt h) s.body).same_or_halted with
    hsame | ⟨passed, rest, herror, hbody, hopens⟩
  · rw [hhalted, condition_content_of_le hp (Nat.le_refl _)] at hsame
    cases hsame
  · rw [hhalted] at herror
    cases herror
    exact cutOff_of_halted hend hsegments hs hbody hopens (hs ▸ hhalted) n

/-- One that does not is read as without a limit, and so is all else. -/
theorem readStatement_of_depth_le (hend : EndsOnce (ts ++ [last])) {s : Segment}
    (hmem : s ∈ (Split.ofTokens ts).segments) (hs : s.clause = .condition)
    (hp : p.Written N s.body) (h : p.depth ≤ m) :
    readStatement m (ts ++ [last]) = readStatement ts.length (ts ++ [last]) := by
  have hfits := Split.ofTokens_fits ts
  refine readStatement_congr hend fun s' hs' => ?_
  by_cases hcondition : s'.clause = .condition
  · obtain rfl := List.inj_on_of_nodup_map hfits.clauses_nodup hs' hmem (hcondition.trans hs.symm)
    refine Segment.reading_congr ?_
    rw [hs, condition_content_of_le hp h,
      condition_content_unlimited hp (Split.body_sublist hmem).length_le]
  · exact Segment.reading_of_ne hcondition m _

end Written

/-- **The limit of nesting is exact, and costs a statement no more than its condition.** A limit as
    high as the token list is long is no limit: every higher one gives the same, and no error says
    that anything is nested too deeply. Under any limit the statement and its errors are the same as
    without one, or the condition is cut off, and never both. A well-formed condition, which is read
    without a limit, is cut off exactly where its depth is higher than the limit, at its first token
    at which more levels are open. A reader with a cursor reads all this so, and has left every
    level when it is done. -/
theorem nesting_limit_is_exact (limit : Nat) (hend : EndsOnce (ts ++ [last])) :
    let σ := Split.ofTokens ts
    let free := readStatement ts.length (ts ++ [last])
    let limited := readStatement limit (ts ++ [last])
    (∀ n, ts.length ≤ n → readStatement n (ts ++ [last]) = free) ∧
      (∀ f ∈ free.failures, f.cause ≠ .nestedTooDeeply ∧ ∀ n, f.text limit = f.text n) ∧
      (limited ≠ free ↔ ∃ f, CutOff limit last σ free limited f) ∧
      (∀ before s after p, σ.segments = before ++ s :: after → s.clause = .condition →
        p.isCanonical = true → p.isLexical = true → Spells p.lexemes s.body →
          free.statement.condition = some p ∧ (limited ≠ free ↔ limit < p.depth) ∧
            (limit < p.depth → ∃ f, CutOff limit last σ free limited f ∧
              f.rest = firstDeeper limit p.levels s.body ++ (Segment.join after ++ [last]))) ∧
      ∀ calls, limit < calls →
        ∃ position, Scan.statement calls ⟨ts ++ [last], limit⟩ {} =
          .ok limited.statement { position, errors := limited.failures } := by
  intro σ free limited
  refine ⟨fun n => readStatement_unlimited hend, fun f hf => ?_, ⟨fun hne => ?_, ?_⟩, ?_, ?_⟩
  · have hcause := not_nested_of_unlimited hend hf
    exact ⟨hcause, Failure.text_of_not_nested hcause limit⟩
  · exact (same_or_cutOff limit hend).resolve_left hne
  · rintro ⟨f, hf⟩
    exact hf.ne hend
  · intro before s after p hsegments hs hcanonical hlexical hspells
    have hp : p.Written p.depth s.body := ⟨hcanonical, hlexical, Nat.le_refl _, hspells⟩
    have hmem : s ∈ (Split.ofTokens ts).segments :=
      hsegments ▸ List.mem_append_right before List.mem_cons_self
    have hread : s.clause.content ts.length s.body = .ok (.condition p, []) := by
      rw [hs, condition_content_unlimited hp (Split.body_sublist hmem).length_le]
    refine ⟨condition_of_segment hend hsegments hs hread, ⟨fun hne => ?_, fun hdeep => ?_⟩,
      fun hdeep => ⟨_, cutOff_of_written hend hsegments hs hp hdeep _, rfl⟩⟩
    · by_contra hdeep
      exact hne (readStatement_of_depth_le hend hmem hs hp (Nat.not_lt.mp hdeep))
    · exact (cutOff_of_written hend hsegments hs hp hdeep _).ne hend
  · intro calls hcalls
    obtain ⟨p, -, hrun⟩ := Scan.statement_eq (i := ⟨ts ++ [last], limit⟩) hend.closed hcalls
    exact ⟨p, hrun⟩

/-- In `FROM t WHERE NOT (COUNT(a) IN (b)) ORDER BY a` the condition is three levels deep: those of
    the `NOT`, of the parenthesis behind it and of the aggregate, as the one behind `IN` opens none.
    If two are allowed, it is cut off at the name of the aggregate. -/
theorem nesting_limit_is_exact_aggregate :
    let ts : List Token :=
      [⟨.keyword .FROM, ascii "FROM", .start⟩, ⟨.identifier, ascii "t", .start⟩,
        ⟨.keyword .WHERE, ascii "WHERE", .start⟩, ⟨.keyword .NOT, ascii "NOT", .start⟩,
        ⟨.symbol .openParen, ascii "(", .start⟩, ⟨.identifier, ascii "COUNT", .start⟩,
        ⟨.symbol .openParen, ascii "(", .start⟩, ⟨.identifier, ascii "a", .start⟩,
        ⟨.symbol .closeParen, ascii ")", .start⟩, ⟨.keyword .IN, ascii "IN", .start⟩,
        ⟨.symbol .openParen, ascii "(", .start⟩, ⟨.identifier, ascii "b", .start⟩,
        ⟨.symbol .closeParen, ascii ")", .start⟩, ⟨.symbol .closeParen, ascii ")", .start⟩,
        ⟨.keyword .ORDER, ascii "ORDER", .start⟩, ⟨.keyword .BY, ascii "BY", .start⟩,
        ⟨.identifier, ascii "a", .start⟩]
    let last : Token := ⟨.endOfInput, [], .start⟩
    let p : Predicate := .not (.paren (.inList false
      (.aggregate (ascii "COUNT") (.column ⟨none, ascii "a"⟩)) [.column ⟨none, ascii "b"⟩]))
    let free := readStatement ts.length (ts ++ [last])
    let limited := readStatement 2 (ts ++ [last])
    EndsOnce (ts ++ [last]) ∧ p.depth = 3 ∧ free.statement.condition = some p ∧
      readStatement 3 (ts ++ [last]) = free ∧
      ∃ f, CutOff 2 last (Split.ofTokens ts) free limited f ∧ f.rest = ts.drop 5 ++ [last] := by
  intro ts last p free limited
  have hend : EndsOnce (ts ++ [last]) := endsOnce_append.mpr ⟨rfl, by decide⟩
  let s : Segment :=
    ⟨.condition, ⟨.keyword .WHERE, ascii "WHERE", .start⟩, (ts.drop 3).take 11, rfl⟩
  have hsegments : (Split.ofTokens ts).segments =
      (Split.ofTokens ts).segments.take 1 ++ s :: (Split.ofTokens ts).segments.drop 2 := by
    decide
  have hspells : Spells p.lexemes s.body := by
    rw [Spells]
    decide
  obtain ⟨-, -, -, hwritten, -⟩ := nesting_limit_is_exact 2 hend
  obtain ⟨hfree, -, hcut⟩ := hwritten _ s _ p hsegments rfl (by decide) (by decide) hspells
  obtain ⟨f, hf, hrest⟩ := hcut (by decide)
  refine ⟨hend, by decide, hfree, by decide, f, hf, ?_⟩
  rw [hrest]
  decide

end Statement

end MiningQuery
