/-
  File:      MiningQuery/Proofs/Segment/Split.lean
  Subject:   A token list falls into segments, and each is read on its own.

  * `Segment`, `Split` -- the keyword of a clause with what follows it, and a token list as the tokens
    before the first such keyword and one segment for each;
  * `Split.ofTokens` -- a keyword counts if its clause comes after the clauses before it;
  * `Split.Fits` -- the same without a run: which lists of tokens and segments are splits;
  * **`Clause.content_append`** -- what is read of a clause does not depend on what follows it;
  * **`readStatement_split`** -- a statement is what its segments say, each read alone, and its
    failures are theirs.
-/
import MiningQuery.Proofs.Segment.Rules
import MiningQuery.Proofs.Scan.Statement

namespace MiningQuery

open Parse (kindOf clauseEnd ClauseStop)

/-! ## 1. Clauses in their order -/

namespace Clause

/-- The clauses that come after one. -/
def later (clause : Clause) : List Clause := all.drop (all.idxOf clause + 1)

/-- The one of some clauses that a token opens. -/
def opening (allowed : List Clause) (t : Token) : Option Clause :=
  allowed.find? fun c => t.kind = .keyword c.keyword

variable {allowed rest : List Clause} {clause : Clause} {t : Token}

theorem later_suffix (clause : Clause) : clause.later <:+ all := List.drop_suffix _ _

/-- In a list that ends as all clauses do, those behind a clause are the ones that come after it. -/
theorem later_of_suffix (h : clause :: rest <:+ all) : clause.later = rest := by
  obtain ⟨before, hall⟩ := h
  have hnodup : (before ++ clause :: rest).Nodup := hall ▸ Scan.all_nodup
  have hnot : clause ∉ before := fun hmem =>
    (List.nodup_append.mp hnodup).2.2 clause hmem clause List.mem_cons_self rfl
  have hindex : all.idxOf clause = before.length := by
    rw [← hall, List.idxOf_append_of_notMem hnot, List.idxOf_cons_self, Nat.add_zero]
  rw [later, hindex, ← hall, List.drop_append, List.drop_eq_nil_of_le (Nat.le_succ _)]
  simp

theorem opening_eq_some :
    opening allowed t = some clause ↔ clause ∈ allowed ∧ t.kind = .keyword clause.keyword := by
  rw [opening]
  constructor
  · intro h
    exact ⟨List.mem_of_find?_eq_some h, by simpa using List.find?_some h⟩
  · intro h
    obtain ⟨hmem, hkind⟩ := h
    have hsome : (allowed.find? fun c => t.kind = .keyword c.keyword).isSome = true :=
      List.find?_isSome.mpr ⟨clause, hmem, decide_eq_true hkind⟩
    obtain ⟨c, hc⟩ := Option.isSome_iff_exists.mp hsome
    have hkind' : t.kind = .keyword c.keyword := by simpa using List.find?_some hc
    rw [hc, keyword_injective (TokenKind.keyword.inj (hkind'.symm.trans hkind))]

theorem opensOne_eq : opensOne allowed t = (opening allowed t).isSome := by
  rw [opening, List.isSome_find?, opensOne]

end Clause

/-! ## 2. Segments -/

/-- The keyword of a clause, and the tokens behind it. -/
structure Segment where
  clause : Clause
  keyword : Token
  body : List Token
  opens : keyword.kind = .keyword clause.keyword
  deriving DecidableEq

namespace Segment

/-- The tokens of a segment. -/
def tokens (s : Segment) : List Token := s.keyword :: s.body

/-- The tokens of one segment after the other. -/
def join (segments : List Segment) : List Token := segments.flatMap tokens

@[simp] theorem join_nil : join [] = [] := rfl

@[simp] theorem join_cons (s : Segment) (segments : List Segment) :
    join (s :: segments) = s.keyword :: (s.body ++ join segments) := by
  simp [join, tokens]

/-- What the segment gives when it is read on its own. -/
def reading (limit : Nat) (s : Segment) : ClauseReading :=
  ClauseReading.ofSegment limit s.clause s.clause.later s.body

end Segment

/-- The tokens before the first segment, and the segments. -/
structure Split where
  lead : List Token
  segments : List Segment
  deriving DecidableEq

namespace Split

/-- All tokens in their order. -/
def tokens (σ : Split) : List Token := σ.lead ++ Segment.join σ.segments

/-- The segments of a token list in which some clauses may stand. -/
def cut (allowed : List Clause) : List Token → Split
  | [] => ⟨[], []⟩
  | t :: ts =>
    match h : Clause.opening allowed t with
    | some clause =>
      let rest := cut clause.later ts
      ⟨[], ⟨clause, t, rest.lead, (Clause.opening_eq_some.mp h).2⟩ :: rest.segments⟩
    | none =>
      let rest := cut allowed ts
      ⟨t :: rest.lead, rest.segments⟩

/-- The segments of a token list: a keyword opens a segment if its clause comes after those of all
    segments before it. -/
def ofTokens (ts : List Token) : Split := cut Clause.all ts

/-- Each segment starts where a clause is opened that may stand there, and no other token opens
    one. -/
inductive Fits : List Clause → List Token → List Segment → Prop
  | last {allowed : List Clause} {lead : List Token} :
      (∀ t ∈ lead, Clause.opening allowed t = none) → Fits allowed lead []
  | next {allowed : List Clause} {lead : List Token} {s : Segment} {segments : List Segment} :
      (∀ t ∈ lead, Clause.opening allowed t = none) → s.clause ∈ allowed →
      Fits s.clause.later s.body segments → Fits allowed lead (s :: segments)

section Cut

variable {allowed : List Clause} {lead ts : List Token} {s : Segment} {segments : List Segment}
  {t : Token} {clause : Clause}

theorem cut_opening (h : Clause.opening allowed t = some clause) :
    cut allowed (t :: ts) = ⟨[], ⟨clause, t, (cut clause.later ts).lead,
      (Clause.opening_eq_some.mp h).2⟩ :: (cut clause.later ts).segments⟩ := by
  rw [cut]
  split
  · rename_i clause' h'
    obtain rfl := Option.some.inj (h.symm.trans h')
    rfl
  · rename_i h'
    rw [h] at h'
    cases h'

theorem cut_none (h : Clause.opening allowed t = none) :
    cut allowed (t :: ts) = ⟨t :: (cut allowed ts).lead, (cut allowed ts).segments⟩ := by
  rw [cut]
  split
  · rename_i h'
    rw [h] at h'
    cases h'
  · rfl

/-- No token is lost. -/
theorem tokens_cut (allowed : List Clause) (ts : List Token) : (cut allowed ts).tokens = ts := by
  induction ts generalizing allowed with
  | nil => rfl
  | cons t ts ih =>
    cases h : Clause.opening allowed t with
    | some clause =>
      rw [cut_opening h]
      simpa [tokens] using ih clause.later
    | none =>
      rw [cut_none h]
      simpa [tokens] using ih allowed

theorem Fits.cons (ht : Clause.opening allowed t = none) (h : Fits allowed lead segments) :
    Fits allowed (t :: lead) segments := by
  cases h with
  | last hlead => exact .last (List.forall_mem_cons.mpr ⟨ht, hlead⟩)
  | next hlead hs hrest => exact .next (List.forall_mem_cons.mpr ⟨ht, hlead⟩) hs hrest

theorem cut_fits (allowed : List Clause) (ts : List Token) :
    Fits allowed (cut allowed ts).lead (cut allowed ts).segments := by
  induction ts generalizing allowed with
  | nil => exact .last fun t ht => absurd ht List.not_mem_nil
  | cons t ts ih =>
    cases h : Clause.opening allowed t with
    | some clause =>
      rw [cut_opening h]
      exact .next (fun t ht => absurd ht List.not_mem_nil) (Clause.opening_eq_some.mp h).1
        (ih clause.later)
    | none =>
      rw [cut_none h]
      exact (ih allowed).cons h

/-- **A token list has one split only.** -/
theorem Fits.cut_eq (h : Fits allowed lead segments) :
    cut allowed (lead ++ Segment.join segments) = ⟨lead, segments⟩ := by
  have hpassed : ∀ {allowed : List Clause} {lead rest : List Token},
      (∀ t ∈ lead, Clause.opening allowed t = none) →
      cut allowed (lead ++ rest) = ⟨lead ++ (cut allowed rest).lead, (cut allowed rest).segments⟩ := by
    intro allowed lead rest hlead
    induction lead with
    | nil => rfl
    | cons t lead ih =>
      obtain ⟨ht, hlead⟩ := List.forall_mem_cons.mp hlead
      rw [List.cons_append, cut_none ht, ih hlead]
      rfl
  induction h with
  | @last allowed lead hlead => simpa [cut] using @hpassed allowed lead [] hlead
  | @next allowed lead s segments hlead hs hrest ih =>
    rw [Segment.join_cons, hpassed hlead, cut_opening (Clause.opening_eq_some.mpr ⟨hs, s.opens⟩),
      ih]
    simp

/-- The clauses of the segments come in their order, each at most once. -/
theorem Fits.sublist (h : Fits allowed lead segments) (hallowed : allowed <:+ Clause.all) :
    (segments.map (·.clause)).Sublist allowed := by
  induction h with
  | last => exact List.nil_sublist _
  | @next allowed lead s segments hlead hs hrest ih =>
    have hrest' := ih (Clause.later_suffix s.clause)
    obtain ⟨before, after, rfl⟩ := List.append_of_mem hs
    have hafter : s.clause.later = after :=
      Clause.later_of_suffix ((List.suffix_append _ _).trans hallowed)
    rw [hafter] at hrest'
    exact (hrest'.cons_cons s.clause).trans (List.sublist_append_right _ _)

theorem Fits.clauses_nodup (h : Fits Clause.all lead segments) :
    (segments.map (·.clause)).Nodup :=
  (h.sublist (List.suffix_refl _)).nodup Scan.all_nodup

theorem ofTokens_fits (ts : List Token) :
    Fits Clause.all (ofTokens ts).lead (ofTokens ts).segments := cut_fits Clause.all ts

theorem tokens_ofTokens (ts : List Token) : (ofTokens ts).tokens = ts := tokens_cut Clause.all ts

theorem ofTokens_tokens {σ : Split} (h : Fits Clause.all σ.lead σ.segments) :
    ofTokens σ.tokens = σ := h.cut_eq

theorem body_sublist {ts : List Token} {s : Segment} (hs : s ∈ (ofTokens ts).segments) :
    s.body.Sublist ts := by
  obtain ⟨before, after, hsegments⟩ := List.append_of_mem hs
  rw [← tokens_ofTokens ts, tokens, hsegments, Segment.join, List.flatMap_append, List.flatMap_cons]
  have hbody : s.body.Sublist (s.tokens ++ after.flatMap Segment.tokens) :=
    (List.sublist_cons_self s.keyword s.body).trans (List.sublist_append_left _ _)
  exact (hbody.trans (List.sublist_append_right _ _)).trans (List.sublist_append_right _ _)

end Cut

end Split

/-! ## 3. Segments on their own -/

/-- The failure with more tokens behind those that are left. -/
def Failure.before (rest : List Token) (f : Failure) : Failure := ⟨f.rest ++ rest, f.cause⟩

/-- The reading with more tokens behind those of the segment. -/
def ClauseReading.before (rest : List Token) (r : ClauseReading) : ClauseReading :=
  ⟨r.content, r.failure.map (·.before rest)⟩

/-- **What is read of a clause does not depend on what follows it.** -/
theorem Clause.content_append (limit : Nat) (clause : Clause) (body : List Token) {rest : List Token}
    (hrest : ClauseStop rest) :
    clause.content limit (body ++ rest) =
      match clause.content limit body with
      | .ok (x, us) => .ok (x, us ++ rest)
      | .error f => .error (f.before rest) := by
  let p := Parse.Parting.between Parse.clauseStop_nil hrest
  have hsame : ∀ {t t' : Token}, p.same t t' → t = t' := fun h => h
  have halike : Parse.Alike p (body ++ []) (body ++ rest) := .append (fun _ => rfl) body
  have hends := Clause.content_steady (p := p) limit clause _ _ halike
  rw [List.append_nil] at hends
  generalize clause.content limit body = o at hends ⊢
  generalize clause.content limit (body ++ rest) = o' at hends ⊢
  cases hends with
  | ok hV _ _ ha =>
    subst hV
    obtain ⟨us, rfl, rfl⟩ := ha.exists_append hsame
    simp [p, Parse.Parting.between]
  | error _ _ ha =>
    obtain ⟨us, rfl, rfl⟩ := ha.exists_append hsame
    simp [p, Parse.Parting.between, Failure.before]

/-- The failure is at the tokens that are left over, which are some. -/
theorem Clause.rest_of_leftover {allowed : List Clause} {us : List Token} {f : Failure}
    (h : Clause.leftover allowed us = some f) : f.rest = us ∧ us ≠ [] := by
  cases us with
  | nil => cases h
  | cons u us =>
    simp only [Clause.leftover] at h
    split at h
    · cases h
    · obtain rfl := Option.some.inj h
      exact ⟨rfl, List.cons_ne_nil u us⟩

theorem Clause.cause_of_leftover {allowed : List Clause} {us : List Token} {f : Failure}
    (h : leftover allowed us = some f) : ∃ names, f.cause = .extraneous names := by
  unfold leftover at h
  split at h
  · cases h
  · split at h
    · cases h
    · exact ⟨_, (congrArg Failure.cause (Option.some.inj h)).symm⟩

/-- What is left over of a segment stands in the segment. -/
theorem Clause.leftover_append (allowed : List Clause) (us : List Token) {t : Token}
    (ht : Clause.endsSegment allowed t = true) (rest : List Token) :
    Clause.leftover allowed (us ++ t :: rest) =
      (Clause.leftover allowed us).map (·.before (t :: rest)) := by
  cases us with
  | nil => exact Clause.leftover_cons.mpr ht
  | cons u us =>
    simp only [Clause.leftover, List.cons_append]
    split <;> rfl

/-- **A segment gives the same wherever it stands**, but for the tokens behind its failure. -/
theorem ClauseReading.ofSegment_append (limit : Nat) (clause : Clause) (later : List Clause)
    (body : List Token) {t : Token} (ht : Clause.endsSegment later t = true) (rest : List Token) :
    ofSegment limit clause later (body ++ t :: rest) =
      (ofSegment limit clause later body).before (t :: rest) := by
  have hstop : ClauseStop (t :: rest) := Clause.mem_clauseEnd ht
  simp only [ofSegment, Clause.content_append limit clause body hstop]
  cases clause.content limit body with
  | ok o => simp [ClauseReading.before, Clause.leftover_append later o.2 ht]
  | error f => rfl

/-! ## 4. Statements -/

/-- The end of the input is the last token, and no token before it. -/
theorem endsOnce_append {ts : List Token} {last : Token} :
    EndsOnce (ts ++ [last]) ↔ last.kind = .endOfInput ∧ ∀ t ∈ ts, t.kind ≠ .endOfInput := by
  constructor
  · intro h
    obtain ⟨init, last', hsplit, hlast, hinit⟩ := h
    obtain ⟨rfl, hsame⟩ := List.append_inj' hsplit rfl
    obtain rfl := List.singleton_inj.mp hsame
    exact ⟨hlast, hinit⟩
  · intro h
    exact ⟨ts, last, rfl, h⟩

namespace Segment

/-- What the segments give one after the other, with some tokens behind the last. -/
def readings (limit : Nat) : List Segment → List Token → List ClauseReading
  | [], _ => []
  | s :: segments, rest =>
    (s.reading limit).before (join segments ++ rest) :: readings limit segments rest

theorem readings_content (limit : Nat) (segments : List Segment) (rest : List Token) :
    (readings limit segments rest).map (·.content) =
      segments.map fun s => (s.reading limit).content := by
  induction segments with
  | nil => rfl
  | cons s segments ih => exact congrArg _ ih

theorem length_readings (limit : Nat) (segments : List Segment) (rest : List Token) :
    (readings limit segments rest).length = segments.length := by
  simpa using congrArg List.length (readings_content limit segments rest)

end Segment

section Statement

variable {limit : Nat} {allowed : List Clause} {lead ts : List Token} {segments : List Segment}
  {last : Token}

/-- Behind a segment stands what ends it: the keyword of the next one, or the end of the input. -/
theorem Split.Fits.head (h : Split.Fits allowed lead segments) (hlast : last.kind = .endOfInput) :
    ∃ t rest, Segment.join segments ++ [last] = t :: rest ∧
      Clause.endsSegment allowed t = true := by
  cases h with
  | last => exact ⟨last, [], rfl, by simp [Clause.endsSegment, hlast]⟩
  | @next _ _ s segments _ hs _ =>
    have hopening := Clause.opening_eq_some.mpr ⟨hs, s.opens⟩
    refine ⟨s.keyword, s.body ++ Segment.join segments ++ [last], by simp, ?_⟩
    rw [Clause.endsSegment, Clause.opensOne_eq, hopening]
    simp

/-- What stands before the first segment is passed over. -/
theorem Split.Fits.nextSegment (h : Split.Fits allowed lead segments)
    (hlast : last.kind = .endOfInput) (hlead : ∀ t ∈ lead, t.kind ≠ .endOfInput) :
    Clause.nextSegment allowed (lead ++ (Segment.join segments ++ [last])) =
      Segment.join segments ++ [last] := by
  have hnone : ∀ t ∈ lead, Clause.opening allowed t = none := by
    cases h with
    | last hnone | next hnone => exact hnone
  obtain ⟨t, rest, hjoin, ht⟩ := h.head hlast
  rw [Clause.nextSegment, List.dropWhile_append_of_pos, hjoin]
  · exact Scan.nextSegment_of_ends ht rest
  · intro u hu
    simp [Clause.endsSegment, Clause.opensOne_eq, hnone u hu, hlead u hu]

/-- A keyword of an allowed clause opens its segment. -/
theorem ClauseReading.all_opening (hallowed : allowed <:+ Clause.all) {clause : Clause} {t : Token}
    (h : Clause.opening allowed t = some clause) (rest : List Token) :
    ClauseReading.all limit allowed (t :: rest) =
      ofSegment limit clause clause.later rest ::
        ClauseReading.all limit clause.later (Clause.nextSegment clause.later rest) := by
  induction allowed with
  | nil => cases h
  | cons c later ih =>
    by_cases hc : t.kind = .keyword c.keyword
    · obtain rfl : c = clause := by
        have hkind := hc.symm.trans (Clause.opening_eq_some.mp h).2
        exact Clause.keyword_injective (TokenKind.keyword.inj hkind)
      rw [Clause.later_of_suffix hallowed, ClauseReading.all, Parse.kindOf_cons, if_pos hc,
        List.tail_cons]
    · rw [ClauseReading.all, Parse.kindOf_cons, if_neg hc]
      refine ih ((List.suffix_cons c later).trans hallowed) ?_
      rwa [Clause.opening, List.find?_cons_of_neg (by simpa using hc)] at h

/-- **Segments are read one by one**, each on its own. -/
theorem Split.Fits.all_eq (h : Split.Fits allowed lead segments)
    (hallowed : allowed <:+ Clause.all) (hlast : last.kind = .endOfInput)
    (hinner : ∀ t ∈ Segment.join segments, t.kind ≠ .endOfInput) :
    ClauseReading.all limit allowed (Segment.join segments ++ [last]) =
      Segment.readings limit segments [last] := by
  induction h with
  | last => exact Scan.all_end hlast []
  | @next allowed lead s segments hlead hs hrest ih =>
    rw [Segment.join_cons, List.forall_mem_cons, List.forall_mem_append] at hinner
    obtain ⟨-, hbody, hinner⟩ := hinner
    have hopening := Clause.opening_eq_some.mpr ⟨hs, s.opens⟩
    have hnext := hrest.nextSegment hlast hbody
    obtain ⟨t, rest, hjoin, ht⟩ := hrest.head hlast
    rw [Segment.join_cons, List.cons_append, List.append_assoc,
      ClauseReading.all_opening hallowed hopening, hnext,
      ih (Clause.later_suffix s.clause) hinner, Segment.readings, hjoin,
      ClauseReading.ofSegment_append limit s.clause s.clause.later s.body ht rest]
    rfl

/-- **A statement is what its segments say, and its failures are theirs**, behind that of the first
    token if it opens no clause. -/
theorem readStatement_split (limit : Nat) (hend : EndsOnce (ts ++ [last])) :
    readStatement limit (ts ++ [last]) =
      { statement := ((Split.ofTokens ts).segments.filterMap
          fun s => (s.reading limit).content).foldl Statement.set .empty
        failures := ((Clause.leftover Clause.all (Split.ofTokens ts).lead).map
            (·.before (Segment.join (Split.ofTokens ts).segments ++ [last]))).toList ++
          (Segment.readings limit (Split.ofTokens ts).segments [last]).filterMap (·.failure) } := by
  obtain ⟨hlast, hinit⟩ := endsOnce_append.mp hend
  have hfits := Split.ofTokens_fits ts
  have htokens : (Split.ofTokens ts).lead ++ Segment.join (Split.ofTokens ts).segments = ts :=
    Split.tokens_ofTokens ts
  have hkinds : ∀ t ∈ (Split.ofTokens ts).lead ++ Segment.join (Split.ofTokens ts).segments,
      t.kind ≠ .endOfInput := fun t ht => hinit t (htokens ▸ ht)
  obtain ⟨hlead, hinner⟩ := List.forall_mem_append.mp hkinds
  have hlist : ts ++ [last] = (Split.ofTokens ts).lead ++
      (Segment.join (Split.ofTokens ts).segments ++ [last]) := by
    rw [← List.append_assoc, htokens]
  have hreadings : ClauseReading.all limit Clause.all (Clause.nextSegment Clause.all
      (ts ++ [last])) = Segment.readings limit (Split.ofTokens ts).segments [last] := by
    rw [hlist, hfits.nextSegment hlast hlead]
    exact hfits.all_eq (List.suffix_refl _) hlast hinner
  have hleftover : Clause.leftover Clause.all (ts ++ [last]) =
      (Clause.leftover Clause.all (Split.ofTokens ts).lead).map
        (·.before (Segment.join (Split.ofTokens ts).segments ++ [last])) := by
    obtain ⟨t, rest, hjoin, ht⟩ := hfits.head hlast
    rw [hlist, hjoin]
    exact Clause.leftover_append Clause.all _ ht rest
  have hcontents := Segment.readings_content limit (Split.ofTokens ts).segments [last]
  rw [readStatement, hreadings, hleftover]
  have hsaid : (Segment.readings limit (Split.ofTokens ts).segments [last]).filterMap (·.content) =
      (Split.ofTokens ts).segments.filterMap fun s => (s.reading limit).content := by
    have hmapped := congrArg (List.filterMap id) hcontents
    simpa [List.filterMap_map, Function.comp_def] using hmapped
  rw [hsaid]

end Statement

end MiningQuery
