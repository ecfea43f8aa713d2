/-
  File:      MiningQuery/Proofs/Scan/Clause.lean
  Subject:   Clauses are read with a cursor as they are read from token lists.

  * `clusters_runs` -- the token one back is there, since a number has been passed over;
  * **`content_runs`** -- every clause behind its keyword.
-/
import MiningQuery.Proofs.Scan.Condition

namespace MiningQuery.Scan

open Parse (clauseEnd)

variable {i : ScanInput} {c : Cursor} {t : Token}

/-! ## 1. Items of lists -/

/-- The name that a token gives. -/
theorem name_runs (hi : i.Closed) {α : Type} {f : Token → Scan α} {g : Text → Parse α}
    (h : ∀ u p, Runs i (c.moved p) (f u) (g u.text)) :
    Runs i c (expect .identifier >>= f) (Parse.name >>= g) := by
  have hread : Parse.name >>= g = Parse.expect .identifier >>= fun u => g u.text := by
    simp [Parse.name]
  rw [hread]
  exact (expect_runs hi identifier_inside).bind fun u p _ => h u p

theorem attributeRef_runs (hi : i.Closed) : Runs i c attributeRef Parse.attributeRef := by
  intro t ht
  unfold attributeRef
  by_cases hstar : t.kind = .symbol .star
  · simp only [Parse.attributeRef, Parse.kindOf_cons, hstar, List.tail_cons]
    rw [accept_of_eq ht hstar (by decide)]
    exact .ok (hi.passed ht (hstar ▸ symbol_inside _))
  rw [accept_of_ne ht hstar, if_neg Bool.false_ne_true, atKind_then ht]
  by_cases hname : t.kind = .identifier
  · simp only [Parse.attributeRef, Parse.kindOf_cons, hname]
    exact (columnRef_runs hi).map t ht
  · have hread : Parse.attributeRef (t :: i.tokens.drop (c.position + 1)) =
        Parse.mismatch [.identifier, .symbol .star] (t :: i.tokens.drop (c.position + 1)) := by
      unfold Parse.attributeRef
      split
      · exact absurd (by assumption) hstar
      · exact absurd (by assumption) hname
      · rfl
    rw [decide_eq_false hname, if_neg Bool.false_ne_true, hread]
    exact mismatch_runs _ t ht

theorem tableRef_runs (hi : i.Closed) : Runs i c tableRef Parse.tableRef := by
  refine name_runs hi fun table p => ?_
  refine (accept_runs hi (by decide)).bind fun found p' _ => ?_
  cases found with
  | true => exact name_runs hi fun second p'' => .pure _
  | false =>
    intro t ht
    show Matches i _ (.ok (if t.kind = .identifier then
        (TableRef.mk table.text (some t.text), i.tokens.drop (p' + 1))
      else (TableRef.mk table.text none, t :: i.tokens.drop (p' + 1))))
      ((atKind .identifier >>= fun _ => _) i _)
    rw [atKind_then ht]
    by_cases hname : t.kind = .identifier
    · rw [decide_eq_true hname, if_pos hname, if_pos rfl]
      exact .advance hi ht (hname ▸ identifier_inside) rfl
    · have hrest : i.tokens.drop p' = t :: i.tokens.drop (p' + 1) := ht.drop
      rw [decide_eq_false hname, if_neg hname, if_neg Bool.false_ne_true, ← hrest]
      exact .ok (.refl ht.lt)

theorem orderItem_runs (hi : i.Closed) : Runs i c orderItem Parse.orderItem := by
  intro t ht
  unfold orderItem
  rw [atKind_then ht]
  by_cases hname : t.kind = .identifier
  · rw [decide_eq_true hname, if_pos rfl]
    have hitem : Runs i c (do
        let column ← columnRef
        if ← accept (.keyword .DESC) then return ⟨column, .descending⟩
        else
          let _ ← accept (.keyword .ASC)
          return ⟨column, .ascending⟩) Parse.orderItem := by
      refine (columnRef_runs hi).bind fun column p _ => ?_
      refine (accept_runs hi (by decide)).bind fun found p' _ => ?_
      cases found with
      | true => exact .pure _
      | false => exact (accept_runs hi (by decide)).bind fun _ p'' _ => .pure _
    exact hitem t ht
  · have hread : Parse.orderItem (t :: i.tokens.drop (c.position + 1)) =
        Parse.mismatch [.identifier] (t :: i.tokens.drop (c.position + 1)) := by
      simp [Parse.orderItem, Parse.columnRef, Parse.name, Parse.expect, hname, Parse.mismatch, bind,
        StateT.bind, Except.bind]
    rw [decide_eq_false hname, if_neg Bool.false_ne_true, hread]
    exact mismatch_runs _ t ht

theorem skipLabel_runs (hi : i.Closed) (label : Text) :
    Runs i c (skipLabel label) (Parse.skipLabel label) := by
  intro t ht
  unfold skipLabel
  obtain ⟨u, hpeek, hu⟩ := peek_then hi ht
  rw [cur_then ht, hpeek]
  by_cases hname : t.kind = .identifier
  · have hon := hu (by simp [hname])
    have hkind : Parse.kindOf (i.tokens.drop (c.position + 1)) = u.kind := hon.kindOf_drop
    by_cases hlabel : Text.upper t.text = label ∧ u.kind = .symbol .eq
    · have hpassed := hi.passed ht (hname ▸ identifier_inside)
      have hpassed' : i.Passed (c.position + 1) (c.position + 1 + 1) :=
        hi.passed hon (hlabel.2 ▸ symbol_inside _)
      have hread : Parse.skipLabel label (t :: i.tokens.drop (c.position + 1)) =
          .ok ((), i.tokens.drop (c.position + 1 + 1)) := by
        simp [Parse.skipLabel, hname, hkind, hlabel]
      rw [if_pos ⟨hname, hlabel⟩, advance_then ht (by simp [hname]),
        advance_then hon (by simp [hlabel.2]), hread]
      exact .ok (hpassed.trans hpassed')
    · have hread : Parse.skipLabel label (t :: i.tokens.drop (c.position + 1)) =
          .ok ((), i.tokens.drop c.position) := by
        rw [ht.drop, Parse.skipLabel, hkind, if_neg fun h => hlabel h.2]
      rw [if_neg fun h => hlabel h.2, hread]
      exact .ok (.refl ht.lt)
  · have hread : Parse.skipLabel label (t :: i.tokens.drop (c.position + 1)) =
        .ok ((), i.tokens.drop c.position) := by
      rw [ht.drop, Parse.skipLabel, if_neg fun h => hname h.1]
    rw [if_neg fun h => hname h.1, hread]
    exact .ok (.refl ht.lt)

/-- The number of clusters is read alike: the token one back is there, since the number has been
    passed over. -/
theorem clusters_runs (hi : i.Closed) : Runs i c clusters Parse.clusters := by
  intro t ht
  have hmatches := number_runs hi false t ht
  unfold clusters Parse.clusters
  generalize hread : Parse.number false (t :: i.tokens.drop (c.position + 1)) = e at hmatches
  generalize hscan : number false i c = o at hmatches
  cases hmatches with
  | @ok l p hp =>
    obtain ⟨t', hts, -⟩ := Parse.number_eq_ok hread
    have hnext : p = c.position + 1 := by
      have hlength := congrArg List.length (List.cons.inj hts).2
      have hlt := hp.lt
      have hlt' := ht.lt
      simp only [List.length_drop] at hlength
      omega
    subst hnext
    rw [then_of_ok hscan]
    have hfail : Matches i c (Parse.mismatch [.int] (t :: i.tokens.drop (c.position + 1)))
        ((failAt c.position (.mismatched [TokenKind.name .int]) : Scan Literal) i
          (c.moved (c.position + 1))) := by
      rw [failAt_eq ⟨t, ht⟩ (by simp), ht.drop]
      exact .error (f := ⟨_, .mismatched [TokenKind.name .int]⟩) hp
    cases l with
    | int text v => exact .ok hp
    | _ => exact hfail
  | error hp =>
    rw [then_of_failed hscan]
    exact .error hp

theorem plain_inside : ∀ k ∈ Parse.plainOperations, TokenKind.keyword k ∉ clauseEnd := by decide

theorem target_inside : ∀ k ∈ Parse.targetOperations, TokenKind.keyword k ∉ clauseEnd := by decide

theorem mineDirective_runs (hi : i.Closed) : Runs i c mineDirective Parse.mineDirective := by
  intro t ht
  unfold mineDirective
  rw [cur_then ht]
  cases hk : t.kind with
  | keyword k =>
    simp only [Parse.mineDirective, Parse.kindOf_cons, hk, List.tail_cons]
    by_cases hcluster : k = .CLUSTER
    · have hinside : t.kind ∉ clauseEnd := by rw [hk, hcluster]; decide
      rw [if_pos hcluster, if_pos hcluster]
      refine Runs.advance hi ht hinside ?_
      refine (skipLabel_runs hi _).bind fun _ p _ => ?_
      exact (clusters_runs hi).bind fun l p' _ => .pure _
    rw [if_neg hcluster, if_neg hcluster]
    by_cases hplain : k ∈ Parse.plainOperations
    · have hinside : t.kind ∉ clauseEnd := by
        rw [hk]
        exact plain_inside k hplain
      rw [if_pos hplain, if_pos hplain]
      exact .advance hi ht hinside rfl
    rw [if_neg hplain, if_neg hplain]
    by_cases htarget : k ∈ Parse.targetOperations
    · have hinside : t.kind ∉ clauseEnd := by
        rw [hk]
        exact target_inside k htarget
      rw [if_pos htarget, if_pos htarget]
      refine Runs.advance hi ht hinside ?_
      refine (skipLabel_runs hi _).bind fun _ p _ => ?_
      exact name_runs hi fun target p' => .pure _
    rw [if_neg htarget, if_neg htarget]
    exact mismatch_runs _ t ht
  | _ =>
    simp only [Parse.mineDirective, Parse.kindOf_cons, hk]
    exact mismatch_runs _ t ht

theorem measureSetting_runs (hi : i.Closed) : Runs i c measureSetting Parse.measureSetting := by
  intro t ht
  unfold measureSetting
  rw [cur_then ht]
  by_cases hname : t.kind = .identifier ∧ Parse.measureNames.contains (Text.lower t.text) = true
  · have hmeasure : Parse.measureName (t :: i.tokens.drop (c.position + 1)) =
        .ok (Text.lower t.text, i.tokens.drop (c.position + 1)) := if_pos hname
    rw [if_pos hname, Parse.measureSetting, Parse.bind_of_ok hmeasure]
    refine Runs.advance hi ht (hname.1 ▸ identifier_inside) ?_
    refine (expect_runs hi (symbol_inside _)).bind fun _ p _ => ?_
    exact (number_runs hi false).map
  · have hread : Parse.measureSetting (t :: i.tokens.drop (c.position + 1)) =
        .error ⟨t :: i.tokens.drop (c.position + 1), .mismatched Parse.measureNames⟩ := by
      have hmeasure : Parse.measureName (t :: i.tokens.drop (c.position + 1)) =
          .error ⟨t :: i.tokens.drop (c.position + 1), .mismatched Parse.measureNames⟩ :=
        if_neg hname
      simp only [Parse.measureSetting, bind, StateT.bind, hmeasure, Except.bind]
    rw [if_neg hname, hread]
    exact .failAt ht (by simp)

/-! ## 2. Clauses -/

/-- **A clause behind its keyword is read alike, outside all levels and attempts.** -/
theorem content_runs (hi : i.Closed) {calls : Nat} (hcalls : i.limit < calls)
    (hdepth : c.depth = 0) (hattempts : c.attempts = 0) (clause : Clause) :
    Runs i c (content calls clause) (clause.content i.limit) := by
  cases clause with
  | database =>
    refine (expect_runs hi (by decide)).bind fun _ p _ => ?_
    exact name_runs hi fun u p' => .pure _
  | relevance =>
    refine (expect_runs hi (by decide)).bind fun _ p _ => ?_
    exact (commaList_runs hi fun p' => attributeRef_runs hi).map
  | tables => exact (commaList_runs hi fun p => tableRef_runs hi).map
  | condition => exact (condition_runs hi (by omega) hcalls hattempts).map
  | grouping =>
    refine (expect_runs hi (by decide)).bind fun _ p _ => ?_
    exact (commaList_runs hi fun p' => attributeRef_runs hi).map
  | ordering =>
    refine (expect_runs hi (by decide)).bind fun _ p _ => ?_
    exact (commaList_runs hi fun p' => orderItem_runs hi).map
  | mining => exact (mineDirective_runs hi).map
  | measures => exact (commaList_runs hi fun p => measureSetting_runs hi).map
  | display =>
    refine (expect_runs hi (by decide)).bind fun _ p _ => ?_
    exact name_runs hi fun u p' => .pure _

end MiningQuery.Scan
