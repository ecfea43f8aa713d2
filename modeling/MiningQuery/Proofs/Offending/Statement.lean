/-
  File:      MiningQuery/Proofs/Offending/Statement.lean
  Subject:   The first error points at a token that cannot stand where it stands.

  The failures of a statement come segment by segment. If the first of them lays the error to a
  token, then no statement without errors begins with the tokens up to that one, whatever follows
  them there, wherever the tokens stand, and under whatever limit of nesting -- except at the tokens
  that `Excused` lists, where a second reading is reported or a rule looks one token ahead.

  * `ClauseReading.all_settles` -- segment by segment, from any clause on;
  * **`first_failure_offends`** -- no statement without errors begins so;
  * **`excused_tokens_may_stand`** -- each of the excepted tokens is reported in some statement and
    stands in another that has no errors.
-/
import MiningQuery.Proofs.Offending.Clause
import MiningQuery.Proofs.Segment.Failures
import MiningQuery.Proofs.Segment.Places

namespace MiningQuery

open Parse (kindOf Fork Forward Within Excused)

variable {k : Fork}

/-! ## 1. Segments go forward -/

theorem Clause.nextSegment_suffix (allowed : List Clause) (ts : List Token) :
    nextSegment allowed ts <:+ ts := List.dropWhile_suffix _

/-- A failure of the segments is at an end of their tokens. -/
theorem ClauseReading.all_within {limit : Nat} {clauses : List Clause} {ts : List Token}
    {f : Failure} (h : f ∈ (all limit clauses ts).filterMap (·.failure)) : f.rest <:+ ts := by
  induction clauses generalizing ts with
  | nil => cases h
  | cons clause later ih =>
    unfold all at h
    split at h
    · obtain ⟨r, hr, hf⟩ := List.mem_filterMap.mp h
      refine List.IsSuffix.trans ?_ (List.tail_suffix ts)
      rcases List.mem_cons.mp hr with rfl | hr
      · exact ofSegment_within hf
      · exact (ih (List.mem_filterMap.mpr ⟨r, hr, hf⟩)).trans
          (Clause.nextSegment_suffix later ts.tail)
    · exact ih h

/-- So it is behind the keyword of the first. -/
theorem ClauseReading.opened_within {limit : Nat} {clause : Clause} {later : List Clause}
    {ts : List Token} {f : Failure} (h : f ∈ (ofSegment limit clause later ts ::
      all limit later (Clause.nextSegment later ts)).filterMap (·.failure)) : f.rest <:+ ts := by
  obtain ⟨r, hr, hf⟩ := List.mem_filterMap.mp h
  rcases List.mem_cons.mp hr with rfl | hr
  · exact ofSegment_within hf
  · exact (all_within (List.mem_filterMap.mpr ⟨r, hr, hf⟩)).trans
      (Clause.nextSegment_suffix later ts)

/-- Where a clause leaves nothing over, the next segment begins. -/
theorem Clause.nextSegment_of_content {limit : Nat} {clause : Clause} {later : List Clause}
    {body rest : List Token} {x : ClauseContent} (h : clause.content limit body = .ok (x, rest))
    (hleft : leftover later rest = none) : nextSegment later body = rest := by
  have hsplit : body.takeWhile (fun t => !endsSegment later t) ++ nextSegment later body = body :=
    List.takeWhile_append_dropWhile
  have hstop : Parse.ClauseStop (nextSegment later body) := by
    cases hnext : nextSegment later body with
    | nil => exact Parse.clauseStop_nil
    | cons t ts => exact mem_clauseEnd (Scan.endsSegment_of_nextSegment hnext)
  have happend := content_append limit clause (body.takeWhile fun t => !endsSegment later t) hstop
  rw [hsplit, h] at happend
  cases hinner : clause.content limit (body.takeWhile fun t => !endsSegment later t) with
  | error f =>
    rw [hinner] at happend
    cases happend
  | ok r =>
    obtain ⟨y, us⟩ := r
    rw [hinner] at happend
    obtain ⟨-, rfl⟩ := Prod.mk.inj (Except.ok.inj happend)
    cases us with
    | nil => rfl
    | cons u us =>
      -- What is left over inside the segment does not end it.
      have hu : u ∈ body.takeWhile fun t => !endsSegment later t :=
        ((clause.content_forward limit _).value hinner).subset List.mem_cons_self
      have hends : endsSegment later u = true := leftover_cons.mp hleft
      have hnot := List.mem_takeWhile_imp hu
      simp [hends] at hnot

/-! ## 2. Segment by segment -/

section Settle

variable {before mid : List Token} {f : Failure}

theorem Clause.leftover_same (allowed : List Clause) (mid : List Token) :
    leftover allowed (mid ++ k.first) = none ↔ leftover allowed (mid ++ k.second) = none := by
  cases mid with
  | nil => exact leftover_cons.trans leftover_cons.symm
  | cons t mid => exact leftover_cons.trans leftover_cons.symm

/-- A statement with a failure in its first segment has failures. -/
theorem filterMap_failure_ne_nil {r : ClauseReading} {rs : List ClauseReading}
    (h : r.failure ≠ none) : (r :: rs).filterMap (·.failure) ≠ [] := by
  cases hr : r.failure with
  | none => exact absurd hr h
  | some f => simp [hr]

section Segment

variable {pre : List Token} {w : Token} {limit limit' : Nat} {clause : Clause} {later : List Clause}

/-- A failure of a segment at the token in common, which its clause does not read or leaves over. -/
theorem ClauseReading.ofSegment_settles (hbefore : before = pre ++ w :: mid)
    (hopens : w.kind = .keyword clause.keyword) (hcause : f.cause.offends = true)
    (hrest : f.rest = k.first)
    (h : (ofSegment limit clause later (mid ++ k.first)).failure = some f) :
    (ofSegment limit' clause later (mid ++ k.second)).failure ≠ none ∨
      Excused before k.token f.cause := by
  have hcontent := clause.content_settles k limit limit' hbefore hopens
  have hfails : (∃ g, clause.content limit' (mid ++ k.second) = .error g) →
      (ofSegment limit' clause later (mid ++ k.second)).failure ≠ none := by
    rintro ⟨g, hg⟩
    simp [ofSegment, hg]
  cases hread : clause.content limit (mid ++ k.first) with
  | error g =>
    obtain rfl : g = f := by simpa [ofSegment, hread] using h
    have hg : g = ⟨k.first, g.cause⟩ := by rw [← hrest]
    exact (hcontent.failure hcause (hread.trans (congrArg _ hg))).imp_left hfails
  | ok r =>
    obtain ⟨x, rest⟩ := r
    have hleft : Clause.leftover later rest = some f := by simpa [ofSegment, hread] using h
    obtain rfl : rest = k.first := (Clause.rest_of_leftover hleft).1.symm.trans hrest
    have hread : clause.content limit (mid ++ k.first) = .ok (x, [] ++ k.first) := hread
    rcases hcontent.value hread with hok | ⟨g, hg, -⟩ | ⟨-, hgone⟩
    · have hleft' : Clause.leftover later ([] ++ k.second) ≠ none := fun hnone => by
        cases hleft.symm.trans ((Clause.leftover_same later []).mpr hnone)
      exact .inl (by simpa [ofSegment, hok] using hleft')
    · exact .inl (hfails ⟨g, hg⟩)
    · obtain ⟨names, hnames⟩ := Clause.cause_of_leftover hleft
      exact .inr (hnames ▸ .value hgone)

/-- Behind a segment without a failure, which ends before the token in common or at it, the next one
    begins at the same place in the other list, or the segment fails there. -/
theorem ClauseReading.next_settles (hbefore : before = pre ++ w :: mid)
    (hopens : w.kind = .keyword clause.keyword)
    (h : (ofSegment limit clause later (mid ++ k.first)).failure = none)
    (hsuffix : k.first <:+ Clause.nextSegment later (mid ++ k.first)) :
    (ofSegment limit' clause later (mid ++ k.second)).failure ≠ none ∨
      ∃ mid', mid' <:+ mid ∧ Clause.nextSegment later (mid ++ k.first) = mid' ++ k.first ∧
        Clause.nextSegment later (mid ++ k.second) = mid' ++ k.second := by
  have hcontent := clause.content_settles k limit limit' hbefore hopens
  cases hread : clause.content limit (mid ++ k.first) with
  | error g => simp [ofSegment, hread] at h
  | ok r =>
    obtain ⟨x, rest⟩ := r
    have hleft : Clause.leftover later rest = none := by simpa [ofSegment, hread] using h
    rw [Clause.nextSegment_of_content hread hleft] at hsuffix ⊢
    rcases k.suffix_cases mid ((clause.content_forward limit _).value hread) with
      ⟨us, mid', rfl, rfl⟩ | hpast
    · rcases hcontent.value hread with hok | ⟨g, hg, -⟩ | ⟨rfl, hgone⟩
      · have hleft' := (Clause.leftover_same later mid').mp hleft
        exact .inr ⟨mid', List.suffix_append us mid', rfl, Clause.nextSegment_of_content hok hleft'⟩
      · exact .inl (by simp only [ofSegment, hg, ne_eq, reduceCtorEq, not_false_eq_true])
      · -- A `NOT` ends no segment.
        have hends := Clause.mem_clauseEnd (Clause.leftover_cons.mp hleft)
        rw [hgone.1] at hends
        exact absurd hends (by decide)
    · exact absurd rfl (k.ne_of_past [] (hsuffix.trans hpast))

end Segment

/-- **Segment by segment**: if the first failure of the one list lays the error to the token in
    common, the segments of the other list have a failure as well, or the token is excused. -/
theorem ClauseReading.all_settles (limit limit' : Nat) {clauses : List Clause}
    (hbefore : mid <:+ before) (hcause : f.cause.offends = true) (hrest : f.rest = k.first)
    (h : ((all limit clauses (mid ++ k.first)).filterMap (·.failure)).head? = some f) :
    (all limit' clauses (mid ++ k.second)).filterMap (·.failure) ≠ [] ∨
      Excused before k.token f.cause := by
  induction clauses generalizing mid with
  | nil => cases h
  | cons clause later ih =>
    unfold all at h ⊢
    rw [← k.kindOf_same mid]
    split at h
    · rename_i hopens
      rw [if_pos hopens]
      cases mid with
      | nil =>
        -- The token in common is the keyword, and all failures are behind it.
        have hwithin : f.rest <:+ k.left := opened_within (List.mem_of_head? h)
        exact absurd hrest (k.ne_of_past [] hwithin)
      | cons w mid =>
        obtain ⟨pre, hpre⟩ := hbefore
        simp only [List.cons_append, List.tail_cons] at h ⊢
        cases hfailure : (ofSegment limit clause later (mid ++ k.first)).failure with
        | some g =>
          obtain rfl : g = f := by simpa [hfailure] using h
          exact (ofSegment_settles hpre.symm hopens hcause hrest hfailure).imp_left
            filterMap_failure_ne_nil
        | none =>
          rw [List.filterMap_cons_none hfailure] at h
          have hsuffix := hrest ▸ all_within (List.mem_of_head? h)
          rcases next_settles hpre.symm hopens hfailure hsuffix with
            hne | ⟨mid', hmid, hnext, hnext'⟩
          · exact .inl (filterMap_failure_ne_nil hne)
          · rw [hnext] at h
            have hbefore : mid' <:+ before := by
              obtain ⟨us, rfl⟩ := hmid
              exact ⟨pre ++ w :: us, by simp [← hpre]⟩
            refine (ih hbefore h).imp_left fun hlater => ?_
            rw [hnext', List.filterMap_cons]
            split
            · exact hlater
            · exact List.cons_ne_nil _ _
    · rename_i hopens
      rw [if_neg hopens]
      exact ih hbefore h

theorem readStatement_settles (limit limit' : Nat) (hcause : f.cause.offends = true)
    (hrest : f.rest = k.first)
    (h : (readStatement limit (before ++ k.first)).failures.head? = some f) :
    (readStatement limit' (before ++ k.second)).failures ≠ [] ∨ Excused before k.token f.cause := by
  -- Where nothing is left over before the first segment, it begins at the first token.
  have hnext : ∀ {ts : List Token}, Clause.leftover Clause.all ts = none →
      Clause.nextSegment Clause.all ts = ts := by
    intro ts hts
    cases ts with
    | nil => rfl
    | cons t ts => exact Scan.nextSegment_of_ends (Clause.leftover_cons.mp hts) ts
  simp only [readStatement] at h ⊢
  cases hleft : Clause.leftover Clause.all (before ++ k.first) with
  | some g =>
    have hleft' : Clause.leftover Clause.all (before ++ k.second) ≠ none := fun hnone => by
      cases hleft.symm.trans ((Clause.leftover_same Clause.all before).mpr hnone)
    obtain ⟨g', hg'⟩ := Option.ne_none_iff_exists'.mp hleft'
    exact .inl (by simp [hg'])
  | none =>
    have hleft' := (Clause.leftover_same Clause.all before).mp hleft
    rw [hleft, hnext hleft] at h
    rw [hleft', hnext hleft']
    exact ClauseReading.all_settles limit limit' (List.suffix_refl before) hcause hrest h

end Settle

/-! ## 3. The first failure -/

/-- **The first failure points at a token that cannot stand where it stands**: if it lays the error
    to a token, no statement without failures begins with the tokens up to that one, in kind and
    text, under any limit of nesting, but for the excused tokens. -/
theorem first_failure_offends {limit : Nat} {before after : List Token} {t : Token} {f : Failure}
    (hfirst : (readStatement limit (before ++ t :: after)).failures.head? = some f)
    (hrest : f.rest = t :: after) (hcause : f.cause.offends = true)
    (hexcused : ¬ Excused before t f.cause) (limit' : Nat) {ts : List Token}
    (hts : (before ++ [t]).map Token.lexeme <+: ts.map Token.lexeme) :
    (readStatement limit' ts).failures ≠ [] := by
  obtain ⟨ls, hls⟩ := hts
  -- The other statement is one with the same tokens up to this one, elsewhere.
  obtain ⟨us, after', rfl, hus, -⟩ := List.map_eq_append_iff.mp hls.symm
  let k : Fork := ⟨t, after, after'⟩
  have hlexemes : (us ++ after').map Token.lexeme = (before ++ k.second).map Token.lexeme := by
    simp [k, Fork.second, hus]
  have hcauses := (readStatement_alike limit' (alike_of_lexemes hlexemes)).2
  rcases readStatement_settles (k := k) limit limit' hcause hrest hfirst with hne | h
  · intro hnil
    rw [hnil] at hcauses
    exact hne (List.map_eq_nil_iff.mp hcauses.symm)
  · exact absurd h hexcused

/-- `WHERE a = )` fails at the parenthesis, and so does every statement that begins so. -/
theorem first_failure_offends_close :
    let before : List Token := [⟨.keyword .WHERE, ascii "WHERE", .start⟩,
      ⟨.identifier, ascii "a", .start⟩, ⟨.symbol .eq, ascii "=", .start⟩]
    let t : Token := ⟨.symbol .closeParen, ascii ")", .start⟩
    let last : Token := ⟨.endOfInput, [], .start⟩
    (readStatement 1 (before ++ t :: [last])).failures.head?.map (·.rest) = some [t, last] ∧
      (readStatement 2 (before ++ [t, ⟨.int, ascii "1", .start⟩, last])).failures ≠ [] := by
  intro before t last
  have hread : (readStatement 1 (before ++ t :: [last])).failures.head? =
      some ⟨[t, last], .mismatched (Parse.factorStart.map TokenKind.name)⟩ := by decide
  have hexcused : ¬ Excused before t (.mismatched (Parse.factorStart.map TokenKind.name)) := by
    intro h
    cases h with
    | sign hk => cases hk
    | negation _ _ _ hk => cases hk
  exact ⟨by rw [hread]; rfl,
    first_failure_offends hread rfl rfl hexcused 2 ⟨_, rfl⟩⟩

/-! ## 4. Excused tokens -/

/-- The first failure of a text lays the error to the token behind its first `n`, and another text
    that begins with the same tokens, this one included, has no failure. -/
def MayStand (reported accepted : Text) (n : Nat) : Prop :=
  let ts := (lex reported).tokens
  let ts' := (lex accepted).tokens
  n < ts.length ∧
    (readStatement 2 ts).failures.head?.map (fun f => (f.cause.offends, f.rest)) =
      some (true, ts.drop n) ∧
    (ts.take (n + 1)).map Token.lexeme <+: ts'.map Token.lexeme ∧
    (readStatement 2 ts').failures = []

instance (reported accepted : Text) (n : Nat) : Decidable (MayStand reported accepted n) :=
  inferInstanceAs (Decidable (_ ∧ _ ∧ _ ∧ _))

/-- **Each excused token is reported in a statement and stands in another**: a lone minus sign, what
    shows that a parenthesis was that of a condition, a `NOT` behind such a parenthesis, a label
    without its equals sign, and a `NOT` behind a value in parentheses. -/
theorem excused_tokens_may_stand :
    ∀ c ∈ [(ascii "WHERE a = - b", ascii "WHERE a = -5", 3),
      (ascii "WHERE (a = 1 b)", ascii "WHERE (a = 1)", 3),
      (ascii "WHERE (NOT a b)", ascii "WHERE (NOT a)", 2),
      (ascii "MINE CLUSTER K 5", ascii "MINE CLUSTER K = 5", 2),
      (ascii "WHERE (a) NOT x", ascii "WHERE (a) NOT LIKE 'x'", 4)],
      MayStand c.1 c.2.1 c.2.2 := by
  decide +kernel

/-- **A reported token may stand where it stands**: without the exceptions the statement fails. -/
theorem not_every_reported_token_offends :
    ¬ ∀ (limit limit' n : Nat) (ts ts' : List Token) (f : Failure),
      (readStatement limit ts).failures.head? = some f → f.cause.offends = true → n < ts.length →
      f.rest = ts.drop n → (ts.take (n + 1)).map Token.lexeme <+: ts'.map Token.lexeme →
      (readStatement limit' ts').failures ≠ [] := by
  intro h
  obtain ⟨hn, hfirst, hprefix, hnone⟩ :=
    excused_tokens_may_stand _ (List.mem_cons_of_mem _ List.mem_cons_self)
  obtain ⟨f, hf, hcause⟩ := Option.map_eq_some_iff.mp hfirst
  obtain ⟨hoffends, hrest⟩ := Prod.mk.inj hcause
  exact h 2 2 3 _ _ f hf hoffends hn hrest hprefix hnone

end MiningQuery
