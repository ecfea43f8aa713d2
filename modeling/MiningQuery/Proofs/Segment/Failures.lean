/-
  File:      MiningQuery/Proofs/Segment/Failures.lean
  Subject:   Every malformed segment has one failure, and there are no others.

  A failure belongs to a segment if it stands behind the keyword of the segment, up to the keyword of
  the next one: a clause that breaks off is reported at the token that cuts it short.

  * `Segment.isValid` -- the clause reads all that stands behind its keyword;
  * `Split.shares` -- the failures by the segments they belong to;
  * **`Split.shares_failures`** -- these are the failures that the segments give on their own;
  * **`one_failure_per_malformed_segment`** -- so they are counted and ordered by the segments.
-/
import Mathlib.Algebra.Order.BigOperators.Group.List
import Mathlib.Algebra.Order.Group.Nat
import MiningQuery.Proofs.Grammar.Acceptance
import MiningQuery.Proofs.Segment.Split
import MiningQuery.Proofs.Sql.Totality

namespace MiningQuery

open Parse (kindOf clauseEnd ClauseStop representable)

/-! ## 1. Valid segments -/

/-- A failure of a clause stands behind its keyword. -/
theorem ClauseReading.ofSegment_within {limit : Nat} {clause : Clause} {later : List Clause}
    {ts : List Token} {f : Failure} (h : (ofSegment limit clause later ts).failure = some f) :
    f.rest <:+ ts := by
  have hcontent := clause.content_forward limit ts
  cases hread : clause.content limit ts with
  | error g =>
    simp only [ofSegment, hread, Option.some.injEq] at h
    exact h ▸ hcontent.failure hread
  | ok r =>
    simp only [ofSegment, hread] at h
    exact (Clause.rest_of_leftover h).1 ▸ hcontent.value hread

namespace Segment

/-- Is the segment one whole clause: does the clause read all that stands behind its keyword? -/
def isValid (limit : Nat) (s : Segment) : Bool :=
  match s.clause.content limit s.body with
  | .ok (_, rest) => rest.isEmpty
  | .error _ => false

variable {limit : Nat} {s : Segment} {segments : List Segment} {rest : List Token} {f : Failure}

theorem isValid_iff : s.isValid limit = true ↔ ∃ x, s.clause.content limit s.body = .ok (x, []) := by
  unfold isValid
  split
  · rename_i x rest hread
    simp [hread]
  · rename_i hread
    simp [hread]

/-- **A segment is valid exactly if its clause derives its tokens.** -/
theorem isValid_iff_derives (hbody : Shaped s.body) :
    s.isValid limit = true ↔ s.clause.Derives representable limit s.body := by
  have hreads := s.clause.content_reads limit
  rw [isValid_iff, Clause.derives_iff hbody]
  constructor
  · intro h
    obtain ⟨x, hx⟩ := h
    obtain ⟨read, hread, hwritten⟩ := hreads.sound hbody hx
    rw [List.append_nil] at hread
    exact ⟨x, hread ▸ hwritten⟩
  · intro h
    obtain ⟨x, hx⟩ := h
    have hread := hreads.complete hx Parse.clauseStop_nil
    rw [List.append_nil] at hread
    exact ⟨x, hread⟩

/-- The failure of a segment stands in it. -/
theorem reading_failure_suffix (h : (s.reading limit).failure = some f) : f.rest <:+ s.body :=
  ClauseReading.ofSegment_within h

/-- A segment fails exactly if it is not valid, provided that no other segment starts in it. -/
theorem reading_failure_eq_none (limit : Nat)
    (hbody : ∀ t ∈ s.body, Clause.endsSegment s.clause.later t = false) :
    (s.reading limit).failure = none ↔ s.isValid limit = true := by
  have hforward := s.clause.content_forward limit s.body
  unfold reading ClauseReading.ofSegment isValid
  generalize s.clause.content limit s.body = o at hforward ⊢
  cases o with
  | error f => simp
  | ok o =>
    obtain ⟨x, rest⟩ := o
    cases rest with
    | nil => simp [Clause.leftover]
    | cons t rest =>
      have ht : t ∈ s.body := (hforward.value rfl).mem List.mem_cons_self
      simp [Clause.leftover, hbody t ht]

/-! ## 2. Failures by segments -/

/-- The failures of each segment: those behind its keyword, up to the first token behind it. -/
def shares : List Segment → List Token → List Failure → List (List Failure)
  | [], _, _ => []
  | s :: segments, rest, fs =>
    let behind := (join segments ++ rest).length
    fs.filter (fun f => behind ≤ f.rest.length ∧ f.rest.length ≤ s.body.length + behind) ::
      shares segments rest fs

/-- Failures of segments stand where the segments do. -/
theorem readings_failure_lt (h : f ∈ (readings limit segments rest).filterMap (·.failure)) :
    f.rest.length < (join segments ++ rest).length := by
  induction segments with
  | nil => cases h
  | cons s segments ih =>
    obtain ⟨r, hr, hf⟩ := List.mem_filterMap.mp h
    rw [join_cons]
    rcases List.mem_cons.mp hr with rfl | hr
    · obtain ⟨own, hown, rfl⟩ := Option.map_eq_some_iff.mp hf
      have hle := (reading_failure_suffix hown).length_le
      simp only [Failure.before, List.length_append, List.length_cons]
      omega
    · have hlt := ih (List.mem_filterMap.mpr ⟨r, hr, hf⟩)
      simp only [List.length_append, List.length_cons] at hlt ⊢
      omega

/-- The failure of a segment stands before all that follows the segment. -/
theorem behind_le (h : f ∈ ((s.reading limit).before rest).failure) :
    rest.length ≤ f.rest.length ∧ f.rest.length ≤ s.body.length + rest.length := by
  obtain ⟨own, hown, rfl⟩ := Option.map_eq_some_iff.mp h
  have hle := (reading_failure_suffix hown).length_le
  simp only [Failure.before, List.length_append]
  omega

theorem readings_failures_cons (limit : Nat) (s : Segment) (segments : List Segment)
    (rest : List Token) :
    (readings limit (s :: segments) rest).filterMap (·.failure) =
      ((s.reading limit).before (join segments ++ rest)).failure.toList ++
        (readings limit segments rest).filterMap (·.failure) := by
  rw [readings, List.filterMap_cons]
  split
  · rename_i h
    simp [h]
  · rename_i f h
    simp [h]

/-- **Each segment has its own failure as its share**, whatever failures stand before it. -/
theorem shares_readings {fs : List Failure}
    (hfs : ∀ f ∈ fs, (join segments ++ rest).length ≤ f.rest.length) :
    shares segments rest (fs ++ (readings limit segments rest).filterMap (·.failure)) =
      (readings limit segments rest).map (·.failure.toList) := by
  induction segments generalizing fs with
  | nil => rfl
  | cons s segments ih =>
    simp only [shares, readings_failures_cons]
    rw [readings, List.map_cons]
    generalize hown : ((s.reading limit).before (join segments ++ rest)).failure = own
    have hplaced : ∀ f ∈ own, (join segments ++ rest).length ≤ f.rest.length ∧
        f.rest.length ≤ s.body.length + (join segments ++ rest).length := by
      rw [← hown]
      exact fun f hf => behind_le hf
    have hfs' : ∀ f ∈ fs, s.body.length + (join segments ++ rest).length < f.rest.length := by
      intro f hf
      have hle := hfs f hf
      simp only [join_cons, List.length_append, List.length_cons] at hle ⊢
      omega
    refine congrArg₂ List.cons ?_ ?_
    · have hbefore : fs.filter (fun f => (join segments ++ rest).length ≤ f.rest.length ∧
          f.rest.length ≤ s.body.length + (join segments ++ rest).length) = [] :=
        List.filter_eq_nil_iff.mpr fun f hf => by
          have hlt := hfs' f hf
          simp only [decide_eq_true_eq, not_and]
          omega
      have hbehind : ((readings limit segments rest).filterMap (·.failure)).filter
          (fun f => (join segments ++ rest).length ≤ f.rest.length ∧
            f.rest.length ≤ s.body.length + (join segments ++ rest).length) = [] :=
        List.filter_eq_nil_iff.mpr fun f hf => by
          have hlt := readings_failure_lt hf
          simp only [decide_eq_true_eq, not_and]
          omega
      have hhere : own.toList.filter (fun f => (join segments ++ rest).length ≤ f.rest.length ∧
          f.rest.length ≤ s.body.length + (join segments ++ rest).length) = own.toList :=
        List.filter_eq_self.mpr fun f hf =>
          decide_eq_true (hplaced f (Option.mem_toList.mp hf))
      rw [List.filter_append, List.filter_append, hbefore, hbehind, hhere, List.nil_append,
        List.append_nil]
    · rw [← List.append_assoc]
      refine ih fun f hf => ?_
      rcases List.mem_append.mp hf with hf | hf
      · exact Nat.le_trans (Nat.le_add_left _ _) (Nat.le_of_lt (hfs' f hf))
      · exact (hplaced f (Option.mem_toList.mp hf)).1

/-- Failures of later segments stand later. -/
theorem readings_failures_ordered (limit : Nat) (segments : List Segment) (rest : List Token) :
    ((readings limit segments rest).filterMap (·.failure)).Pairwise
      fun f g => g.rest.length < f.rest.length := by
  induction segments with
  | nil => exact .nil
  | cons s segments ih =>
    rw [readings_failures_cons, List.pairwise_append]
    refine ⟨?_, ih, fun f hf g hg => ?_⟩
    · cases ((s.reading limit).before (join segments ++ rest)).failure <;> simp
    · exact Nat.lt_of_lt_of_le (readings_failure_lt hg) (behind_le (Option.mem_toList.mp hf)).1

end Segment

/-- The failures by what they belong to: those of the tokens before the first segment, then those of
    each segment. -/
def Split.shares (σ : Split) (rest : List Token) (fs : List Failure) : List (List Failure) :=
  fs.filter (fun f => (Segment.join σ.segments ++ rest).length < f.rest.length) ::
    Segment.shares σ.segments rest fs

section Statement

variable {limit : Nat} {ts : List Token} {last : Token} {f : Failure}

/-- The failure of the tokens before the first segment. -/
def Split.leadFailure (σ : Split) (rest : List Token) : Option Failure :=
  (Clause.leftover Clause.all σ.lead).map (·.before (Segment.join σ.segments ++ rest))

theorem Split.leadFailure_lt {σ : Split} {rest : List Token} (h : f ∈ σ.leadFailure rest) :
    (Segment.join σ.segments ++ rest).length < f.rest.length := by
  obtain ⟨own, hown, rfl⟩ := Option.map_eq_some_iff.mp h
  obtain ⟨hrest, hne⟩ := Clause.rest_of_leftover hown
  have hpos := List.length_pos_iff.mpr hne
  rw [← hrest] at hpos
  simp only [Failure.before, List.length_append]
  omega

/-- The failures of a split, in the order in which they are told. -/
def Split.failures (limit : Nat) (last : Token) (σ : Split) : List Failure :=
  (σ.leadFailure [last]).toList ++
    (Segment.readings limit σ.segments [last]).filterMap (·.failure)

/-- **Each segment has its own failure as its share, and so have the tokens before the first.** -/
theorem Split.shares_failures (limit : Nat) (last : Token) (σ : Split) :
    σ.shares [last] (σ.failures limit last) =
      (σ.leadFailure [last]).toList ::
        (Segment.readings limit σ.segments [last]).map (·.failure.toList) := by
  have hlead : ∀ f ∈ (σ.leadFailure [last]).toList,
      (Segment.join σ.segments ++ [last]).length < f.rest.length :=
    fun f hf => leadFailure_lt (Option.mem_toList.mp hf)
  have hhere : (σ.leadFailure [last]).toList.filter
      (fun f => (Segment.join σ.segments ++ [last]).length < f.rest.length) =
        (σ.leadFailure [last]).toList :=
    List.filter_eq_self.mpr fun f hf => decide_eq_true (hlead f hf)
  have hbehind : ((Segment.readings limit σ.segments [last]).filterMap (·.failure)).filter
      (fun f => (Segment.join σ.segments ++ [last]).length < f.rest.length) = [] :=
    List.filter_eq_nil_iff.mpr fun f hf => by
      have hlt := Segment.readings_failure_lt hf
      simp only [decide_eq_true_eq]
      omega
  rw [shares, failures, Segment.shares_readings fun f hf => Nat.le_of_lt (hlead f hf),
    List.filter_append, hhere, hbehind, List.append_nil]

/-- The failures of a statement are those of its split. -/
theorem readStatement_failures (limit : Nat) (hend : EndsOnce (ts ++ [last])) :
    (readStatement limit (ts ++ [last])).failures = (Split.ofTokens ts).failures limit last :=
  congrArg StatementReading.failures (readStatement_split limit hend)

end Statement

/-! ## 3. Counting -/

namespace Split

/-- The failures are accounted for by the segments: every malformed one has one of them and the
    others have none, and they are told in the order of the tokens. -/
structure Accounts (σ : Split) (limit : Nat) (last : Token) (fs : List Failure) : Prop where
  counts : (σ.shares [last] fs).map List.length =
    (if σ.lead = [] then 0 else 1) :: σ.segments.map fun s => if s.isValid limit then 0 else 1
  complete : (σ.shares [last] fs).flatten = fs
  atMostTen : fs.length ≤ 10
  ordered : fs.Pairwise fun f g => g.rest.length < f.rest.length
  placed : ∀ f ∈ fs, f.rest ≠ [] ∧ f.rest <:+ σ.tokens ++ [last]

variable {allowed : List Clause} {lead : List Token} {segments : List Segment} {limit : Nat}
  {rest : List Token} {f : Failure}

/-- A token that opens no clause does not end a segment. -/
theorem endsSegment_eq_false {t : Token} (hopening : Clause.opening allowed t = none)
    (ht : t.kind ≠ .endOfInput) : Clause.endsSegment allowed t = false := by
  simp [Clause.endsSegment, Clause.opensOne_eq, hopening, ht]

theorem Fits.opening_lead (h : Fits allowed lead segments) :
    ∀ t ∈ lead, Clause.opening allowed t = none := by
  cases h with
  | last hlead | next hlead => exact hlead

/-- A segment has a failure exactly if it is malformed. -/
theorem Fits.lengths (h : Fits allowed lead segments)
    (hkinds : ∀ t ∈ Segment.join segments, t.kind ≠ .endOfInput) :
    ((Segment.readings limit segments rest).map (·.failure.toList)).map List.length =
      segments.map fun s => if s.isValid limit then 0 else 1 := by
  induction h with
  | last => rfl
  | @next _ _ s segments _ _ hrest ih =>
    rw [Segment.join_cons, List.forall_mem_cons, List.forall_mem_append] at hkinds
    obtain ⟨-, hbody, hkinds⟩ := hkinds
    have hnone := Segment.reading_failure_eq_none (s := s) limit fun t ht =>
      endsSegment_eq_false (hrest.opening_lead t ht) (hbody t ht)
    rw [Segment.readings, List.map_cons, List.map_cons, List.map_cons, ih hkinds]
    congr 1
    simp only [ClauseReading.before]
    cases hf : (s.reading limit).failure with
    | none => simp [hnone.mp hf]
    | some f =>
      have hvalid : s.isValid limit = false := by
        rw [← Bool.not_eq_true, ← hnone, hf]
        simp
      simp [hvalid]

theorem leadFailure_length {σ : Split} (h : Fits Clause.all σ.lead σ.segments)
    (hkinds : ∀ t ∈ σ.lead, t.kind ≠ .endOfInput) :
    (σ.leadFailure rest).toList.length = if σ.lead = [] then 0 else 1 := by
  obtain ⟨lead, segments⟩ := σ
  cases lead with
  | nil => rfl
  | cons t lead =>
    have hends := endsSegment_eq_false (h.opening_lead t List.mem_cons_self)
      (hkinds t List.mem_cons_self)
    simp [leadFailure, Clause.leftover, hends]

end Split

/-- Failures stand at tokens of the segments, or at those behind them. -/
theorem Segment.readings_failure_suffix {limit : Nat} {segments : List Segment}
    {rest : List Token} {f : Failure}
    (h : f ∈ (Segment.readings limit segments rest).filterMap (·.failure)) :
    f.rest <:+ Segment.join segments ++ rest ∧ rest <:+ f.rest := by
  induction segments with
  | nil => cases h
  | cons s segments ih =>
    rw [Segment.readings_failures_cons] at h
    rw [Segment.join_cons, List.cons_append, List.append_assoc]
    rcases List.mem_append.mp h with h | h
    · obtain ⟨own, hown, rfl⟩ := Option.map_eq_some_iff.mp (Option.mem_toList.mp h)
      obtain ⟨passed, hpassed⟩ := Segment.reading_failure_suffix hown
      have hwithin : own.rest ++ (Segment.join segments ++ rest) <:+
          s.body ++ (Segment.join segments ++ rest) :=
        ⟨passed, by rw [← hpassed, List.append_assoc]⟩
      exact ⟨hwithin.trans (List.suffix_cons s.keyword _),
        (List.suffix_append _ _).trans (List.suffix_append _ _)⟩
    · obtain ⟨hwithin, hrest⟩ := ih h
      exact ⟨(hwithin.trans (List.suffix_append _ _)).trans (List.suffix_cons s.keyword _), hrest⟩

namespace Split

variable {σ : Split} {limit : Nat} {last : Token} {f : Failure} {fs : List Failure}

/-- One failure at most for each of the nine clauses, and one more in front of them. -/
theorem length_le_ten (hfits : Fits Clause.all σ.lead σ.segments)
    (hcounts : (σ.shares [last] fs).map List.length =
      (if σ.lead = [] then 0 else 1) :: σ.segments.map fun s => if s.isValid limit then 0 else 1)
    (hcomplete : (σ.shares [last] fs).flatten = fs) : fs.length ≤ 10 := by
  have hclauses := (hfits.sublist (List.suffix_refl _)).length_le
  rw [List.length_map] at hclauses
  have hones : ∀ n ∈ (σ.shares [last] fs).map List.length, n ≤ 1 := by
    rw [hcounts]
    refine List.forall_mem_cons.mpr ⟨by split <;> simp, fun n hn => ?_⟩
    obtain ⟨s, -, rfl⟩ := List.mem_map.mp hn
    split <;> simp
  calc fs.length = ((σ.shares [last] fs).map List.length).sum := by
        rw [← List.length_flatten, hcomplete]
    _ ≤ ((σ.shares [last] fs).map List.length).length := by
        simpa using List.sum_le_card_nsmul _ 1 hones
    _ = σ.segments.length + 1 := by rw [hcounts, List.length_cons, List.length_map]
    _ ≤ 10 := Nat.succ_le_succ hclauses

theorem failures_ordered (limit : Nat) (last : Token) (σ : Split) :
    (σ.failures limit last).Pairwise fun f g => g.rest.length < f.rest.length := by
  rw [failures, List.pairwise_append]
  refine ⟨?_, Segment.readings_failures_ordered limit σ.segments [last], fun f hf g hg => ?_⟩
  · cases σ.leadFailure [last] <;> simp
  · exact Nat.lt_trans (Segment.readings_failure_lt hg) (leadFailure_lt (Option.mem_toList.mp hf))

/-- A failure stands at a token of the split, or at the one behind it. -/
theorem failures_placed (hf : f ∈ σ.failures limit last) :
    f.rest ≠ [] ∧ f.rest <:+ σ.tokens ++ [last] := by
  have hplaced : f.rest <:+ σ.tokens ++ [last] ∧ [last] <:+ f.rest := by
    rw [tokens, List.append_assoc]
    rcases List.mem_append.mp hf with hf | hf
    · obtain ⟨own, hown, rfl⟩ := Option.map_eq_some_iff.mp (Option.mem_toList.mp hf)
      rw [Failure.before, (Clause.rest_of_leftover hown).1]
      exact ⟨List.suffix_refl _, (List.suffix_append _ _).trans (List.suffix_append _ _)⟩
    · obtain ⟨hwithin, hrest⟩ := Segment.readings_failure_suffix hf
      exact ⟨hwithin.trans (List.suffix_append _ _), hrest⟩
  refine ⟨fun hnil => ?_, hplaced.1⟩
  rw [hnil] at hplaced
  exact List.cons_ne_nil last [] (List.suffix_nil.mp hplaced.2)

end Split

/-- **The failures of a statement are accounted for by its segments.** -/
theorem readStatement_accounts (limit : Nat) {ts : List Token} {last : Token}
    (hend : EndsOnce (ts ++ [last])) :
    (Split.ofTokens ts).Accounts limit last (readStatement limit (ts ++ [last])).failures := by
  obtain ⟨-, hkinds⟩ := endsOnce_append.mp hend
  have htokens := Split.tokens_ofTokens ts
  have hfits := Split.ofTokens_fits ts
  rw [readStatement_failures limit hend]
  generalize Split.ofTokens ts = σ at htokens hfits ⊢
  have hshares := σ.shares_failures limit last
  rw [← htokens, Split.tokens, List.forall_mem_append] at hkinds
  obtain ⟨hlead, hinner⟩ := hkinds
  have hcounts := congrArg (List.map List.length) hshares
  rw [List.map_cons, Split.leadFailure_length hfits hlead, hfits.lengths hinner] at hcounts
  have hflat : ∀ rs : List ClauseReading,
      (rs.map (·.failure.toList)).flatten = rs.filterMap (·.failure) := by
    intro rs
    rw [List.filterMap_eq_flatMap_toList, List.flatMap_def]
  have hcomplete : (σ.shares [last] (σ.failures limit last)).flatten = σ.failures limit last := by
    rw [hshares, List.flatten_cons, hflat, Split.failures]
  exact
    { counts := hcounts
      complete := hcomplete
      atMostTen := Split.length_le_ten hfits hcounts hcomplete
      ordered := Split.failures_ordered limit last σ
      placed := fun _ hf => Split.failures_placed hf }

/-! ## 4. Attempts -/

/-- What a reading in an attempt records: nothing, unless the nesting is too deep, which ends the
    clause and is recorded once. -/
inductive Scan.Quiet {α : Type} (c : Cursor) : Outcome α → Prop
  | ok {x : α} {c' : Cursor} : c'.errors = c.errors → Quiet c (.ok x c')
  | failed {c' : Cursor} : c'.errors = c.errors → Quiet c (.failed false c')
  | tooDeep {f : Failure} {c' : Cursor} : f.cause = .nestedTooDeeply →
      c'.errors = c.errors ++ [f] → Quiet c (.failed true c')

theorem Scan.Matches.quiet {α : Type} {i : ScanInput} {c : Cursor}
    {e : Except Failure (α × List Token)} {o : Outcome α} (h : Scan.Matches i c e o)
    (hattempts : c.attempts ≠ 0) : Scan.Quiet c o := by
  cases h with
  | ok => exact .ok rfl
  | @error f p =>
    cases hf : f.fatal with
    | true =>
      refine .tooDeep (f := f) (of_decide_eq_true hf) ?_
      rw [Cursor.recorded_of_fatal _ hf]
      rfl
    | false =>
      refine .failed ?_
      rw [Cursor.recorded, if_neg (by simp [hf, hattempts])]
      rfl

/-- **An attempt at a condition in parentheses records no error of its own.** -/
theorem Scan.attempt_quiet {i : ScanInput} {c : Cursor} {t : Token} (hi : i.Closed)
    (ht : c.On i t) (hattempts : c.attempts ≠ 0) {n calls : Nat} (hdepth : c.depth + n = i.limit)
    (hcalls : n < calls) : Scan.Quiet c (Scan.grouped (Scan.negation calls) i c) := by
  have hruns : Scan.Runs i c (Scan.grouped (Scan.negation calls))
      (Parse.grouped (Parse.negation n (decide (c.attempts ≠ 0)))) :=
    Scan.grouped_runs hi fun p => Scan.negation_runs (c := c.moved p) hi
      (show i.limit - c.depth = n by omega) hcalls
  exact (hruns t ht).quiet hattempts

/-! ## 5. One failure for each malformed segment -/

/-- **One failure for each malformed segment, in order.** Whatever the tokens and the limit are, the
    failures are accounted for by the segments, a segment with tokens of a text is malformed exactly
    if its clause does not derive them, a reader with a cursor records just these failures, and it
    records none of a failed attempt. -/
theorem one_failure_per_malformed_segment (limit : Nat) {ts : List Token} {last : Token}
    (hend : EndsOnce (ts ++ [last])) :
    let i : ScanInput := ⟨ts ++ [last], limit⟩
    let read := readStatement limit (ts ++ [last])
    (Split.ofTokens ts).Accounts limit last read.failures ∧
      (Shaped ts → ∀ s ∈ (Split.ofTokens ts).segments,
        (s.isValid limit = true ↔ s.clause.Derives representable limit s.body)) ∧
      (∀ calls, limit < calls → ∃ p, Scan.statement calls i {} =
        .ok read.statement { position := p, errors := read.failures }) ∧
      ∀ (c : Cursor) (t : Token) (n calls : Nat), c.On i t → c.attempts ≠ 0 →
        c.depth + n = limit → n < calls →
        Scan.Quiet c (Scan.grouped (Scan.negation calls) i c) := by
  intro i read
  have hi : i.Closed := hend.closed
  refine ⟨readStatement_accounts limit hend, fun hts s hs => ?_, fun calls hcalls => ?_,
    fun c t n calls ht hattempts hdepth hcalls => Scan.attempt_quiet hi ht hattempts hdepth hcalls⟩
  · refine Segment.isValid_iff_derives fun t ht => hts t ?_
    have htokens : (Split.ofTokens ts).tokens = ts := Split.tokens_cut Clause.all ts
    rw [← htokens, Split.tokens]
    refine List.mem_append_right _ (List.mem_flatMap.mpr ⟨s, hs, ?_⟩)
    exact List.mem_cons_of_mem _ ht
  · obtain ⟨p, -, hrun⟩ := Scan.statement_eq hi hcalls
    exact ⟨p, hrun⟩

/-- `x USE FROM t WHERE (a =` is a prefix, a clause cut short, a whole one and one that ends too
    early: three failures, at `x`, at `FROM` and, as the attempt at a condition is taken back, at the
    equals sign. -/
theorem one_failure_per_malformed_segment_three :
    let ts : List Token :=
      [⟨.identifier, ascii "x", .start⟩, ⟨.keyword .USE, ascii "USE", .start⟩,
        ⟨.keyword .FROM, ascii "FROM", .start⟩, ⟨.identifier, ascii "t", .start⟩,
        ⟨.keyword .WHERE, ascii "WHERE", .start⟩, ⟨.symbol .openParen, ascii "(", .start⟩,
        ⟨.identifier, ascii "a", .start⟩, ⟨.symbol .eq, ascii "=", .start⟩]
    let last : Token := ⟨.endOfInput, [], .start⟩
    let fs := (readStatement 200 (ts ++ [last])).failures
    EndsOnce (ts ++ [last]) ∧ (Split.ofTokens ts).Accounts 200 last fs ∧
      fs.map (·.rest.length) = [9, 7, 2] := by
  intro ts last fs
  have hend : EndsOnce (ts ++ [last]) := endsOnce_append.mpr ⟨rfl, by decide⟩
  exact ⟨hend, (one_failure_per_malformed_segment 200 hend).1, by decide⟩

end MiningQuery
