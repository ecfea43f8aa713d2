/-
  File:      MiningQuery/Proofs/Scan/Statement.lean
  Subject:   Statements are read with a cursor as they are read from token lists.

  * `opened_eq_some` -- the place that a keyword has is the place of its clause;
  * `synchronize_eq` -- what is passed over behind an error is what the list reader drops;
  * `clauseAt_matches` -- how a clause ends: with its content, or with an error that is recorded;
  * **`statement_eq`** -- the statement and the errors are the same, and no fault is met.
-/
import MiningQuery.Proofs.Scan.Clause

namespace MiningQuery.Scan

open Parse (clauseEnd)

variable {i : ScanInput} {c : Cursor} {t : Token} {next k : Nat} {clause : Clause}

/-! ## 1. Places of clauses -/

theorem all_nodup : Clause.all.Nodup := by decide

/-- What the place of a keyword tells. -/
theorem opened_eq_some {kind : TokenKind} : opened next kind = some k ↔
    next ≤ k ∧ ∃ clause, Clause.all[k]? = some clause ∧ kind = .keyword clause.keyword := by
  simp only [opened, clauseIndex, Option.filter_eq_some_iff, decide_eq_true_eq]
  constructor
  · intro h
    obtain ⟨hindex, hle⟩ := h
    obtain ⟨hlt, hkind, -⟩ := List.findIdx?_eq_some_iff_getElem.mp hindex
    exact ⟨hle, Clause.all[k], List.getElem?_eq_getElem hlt, by simpa using hkind⟩
  · intro h
    obtain ⟨hle, clause, hclause, hkind⟩ := h
    obtain ⟨hlt, rfl⟩ := List.getElem?_eq_some_iff.mp hclause
    refine ⟨List.findIdx?_eq_some_iff_getElem.mpr ⟨hlt, by simpa using hkind, fun j hj => ?_⟩, hle⟩
    intro hother
    have hkeyword : Clause.all[k].keyword = Clause.all[j].keyword := by
      simpa [hkind] using hother
    have hindex := (List.getElem_inj all_nodup).mp (Clause.keyword_injective hkeyword)
    omega

theorem opensOne_iff : Clause.opensOne (Clause.all.drop next) t = true ↔
    (opened next t.kind).isSome = true := by
  rw [Option.isSome_iff_exists]
  simp only [Clause.opensOne, List.any_eq_true, decide_eq_true_eq, opened_eq_some]
  constructor
  · intro h
    obtain ⟨clause, hmem, hkind⟩ := h
    obtain ⟨j, hlt, hclause⟩ := List.mem_drop_iff_getElem.mp hmem
    exact ⟨next + j, Nat.le_add_right _ _, clause,
      List.getElem?_eq_some_iff.mpr ⟨by omega, hclause⟩, hkind⟩
  · intro h
    obtain ⟨k, hle, clause, hclause, hkind⟩ := h
    obtain ⟨hlt, hclause'⟩ := List.getElem?_eq_some_iff.mp hclause
    refine ⟨clause, List.mem_drop_iff_getElem.mpr ⟨k - next, by omega, ?_⟩, hkind⟩
    simp only [Nat.add_sub_cancel' hle, hclause']

/-- A segment ends where the passing over of tokens does. -/
theorem endsSegment_iff : Clause.endsSegment (Clause.all.drop next) t = true ↔
    t.kind = .endOfInput ∨ (opened next t.kind).isSome = true := by
  rw [Clause.endsSegment, Bool.or_eq_true, decide_eq_true_eq, opensOne_iff]

/-- Clauses before the one that is opened give nothing. -/
theorem all_opened {limit : Nat} (hopened : opened next t.kind = some k)
    (hclause : Clause.all[k]? = some clause) (rest : List Token) :
    ClauseReading.all limit (Clause.all.drop next) (t :: rest) =
      ClauseReading.ofSegment limit clause (Clause.all.drop (k + 1)) rest ::
        ClauseReading.all limit (Clause.all.drop (k + 1))
          (Clause.nextSegment (Clause.all.drop (k + 1)) rest) := by
  obtain ⟨hle, clause', hclause', hkind⟩ := opened_eq_some.mp hopened
  obtain rfl : clause = clause' := Option.some.inj (hclause.symm.trans hclause')
  obtain ⟨hlt, hget⟩ := List.getElem?_eq_some_iff.mp hclause
  generalize hgap : k - next = gap
  induction gap generalizing next with
  | zero =>
    obtain rfl : next = k := by omega
    rw [List.drop_eq_getElem_cons hlt, hget, ClauseReading.all, Parse.kindOf_cons, if_pos hkind,
      List.tail_cons]
  | succ gap ih =>
    have hnext : next < Clause.all.length := by omega
    have hother : t.kind ≠ .keyword Clause.all[next].keyword := by
      intro h
      have hkeyword : Clause.all[next].keyword = Clause.all[k].keyword := by
        rw [hget]
        simpa [hkind] using h.symm
      have hindex := (List.getElem_inj all_nodup).mp (Clause.keyword_injective hkeyword)
      omega
    rw [List.drop_eq_getElem_cons hnext, ClauseReading.all, Parse.kindOf_cons, if_neg hother]
    exact ih (opened_eq_some.mpr ⟨by omega, clause, hclause, hkind⟩) (by omega) (by omega)

theorem all_end {limit : Nat} {clauses : List Clause} (hk : t.kind = .endOfInput)
    (rest : List Token) : ClauseReading.all limit clauses (t :: rest) = [] := by
  induction clauses with
  | nil => rfl
  | cons clause later ih =>
    rw [ClauseReading.all, Parse.kindOf_cons, hk, if_neg (by simp)]
    exact ih

/-! ## 2. Behind an error -/

/-- What is inside a clause does not end its segment. -/
theorem nextSegment_passed {allowed : List Clause} {p p' : Nat} (hp : i.Passed p p') :
    Clause.nextSegment allowed (i.tokens.drop p) =
      Clause.nextSegment allowed (i.tokens.drop p') := by
  have hsplit : i.tokens.drop p = (i.tokens.drop p).take (p' - p) ++ i.tokens.drop p' := by
    have hjoin := List.take_append_drop (p' - p) (i.tokens.drop p)
    rw [List.drop_drop, Nat.add_sub_cancel' hp.le] at hjoin
    exact hjoin.symm
  rw [hsplit, Clause.nextSegment, List.dropWhile_append_of_pos ?_]
  · rfl
  · intro t ht
    obtain ⟨n, hlt, hget⟩ := List.mem_take_iff_getElem.mp ht
    have hon : i.tokens[p + n]? = some t := by
      rw [← List.getElem?_drop, List.getElem?_eq_getElem (by omega), hget]
    have hinside : t.kind ∉ clauseEnd := hp.inside (p + n) t (by omega) (by omega) hon
    rw [Bool.not_eq_true', ← Bool.not_eq_true]
    exact fun h => hinside (Clause.mem_clauseEnd h)

/-- Behind an error the tokens up to the next segment are passed over. -/
theorem synchronize_eq (hi : i.Closed) {n : Nat} (hn : i.tokens.length ≤ n + c.position)
    (ht : c.On i t) :
    ∃ p, c.position ≤ p ∧ p < i.tokens.length ∧ synchronize next n i c = .ok () (c.moved p) ∧
      i.tokens.drop p =
        Clause.nextSegment (Clause.all.drop next) (i.tokens.drop c.position) := by
  induction n generalizing c t with
  | zero =>
    have hlt := ht.lt
    omega
  | succ n ih =>
    unfold synchronize
    rw [cur_then ht]
    by_cases hend : t.kind = .endOfInput ∨ (opened next t.kind).isSome
    · refine ⟨c.position, Nat.le_refl _, ht.lt, ?_, ?_⟩
      · rw [if_pos hend]
        rfl
      · rw [ht.drop, Clause.nextSegment, List.dropWhile_cons_of_neg]
        simpa using endsSegment_iff.mpr hend
    · have hne : t.kind ≠ .endOfInput := fun h => hend (.inl h)
      obtain ⟨u, hu⟩ := i.exists_on (hi.lt_of_ne ht hne)
      have hon : (c.moved (c.position + 1)).On i u := hu
      have hfuel : i.tokens.length ≤ n + (c.position + 1) := by omega
      obtain ⟨p, hle, hlt, hrun, hdrop⟩ := ih hfuel hon
      refine ⟨p, Nat.le_of_succ_le hle, hlt, ?_, ?_⟩
      · rw [if_neg hend, advance_then ht hne]
        exact hrun
      · rw [hdrop, ht.drop, Clause.nextSegment, Clause.nextSegment, List.dropWhile_cons_of_pos]
        · rfl
        · simpa using fun h => hend (endsSegment_iff.mp h)

theorem nextSegment_of_ends {allowed : List Clause} (h : Clause.endsSegment allowed t = true)
    (rest : List Token) : Clause.nextSegment allowed (t :: rest) = t :: rest := by
  rw [Clause.nextSegment, List.dropWhile_cons_of_neg]
  simpa using h

theorem endsSegment_of_nextSegment {allowed : List Clause} {ts rest : List Token}
    (h : Clause.nextSegment allowed ts = t :: rest) : Clause.endsSegment allowed t = true := by
  have hhead := List.head?_dropWhile_not (fun u => !Clause.endsSegment allowed u) ts
  rw [show ts.dropWhile (fun u => !Clause.endsSegment allowed u) = t :: rest from h] at hhead
  simpa using hhead

/-- A segment starts where nothing is left over, and is the next one from there. -/
theorem leftover_nextSegment (allowed : List Clause) (ts : List Token) :
    Clause.leftover allowed (Clause.nextSegment allowed ts) = none := by
  cases h : Clause.nextSegment allowed ts with
  | nil => rfl
  | cons t rest => exact Clause.leftover_cons.mpr (endsSegment_of_nextSegment h)

theorem nextSegment_nextSegment (allowed : List Clause) (ts : List Token) :
    Clause.nextSegment allowed (Clause.nextSegment allowed ts) =
      Clause.nextSegment allowed ts := by
  cases h : Clause.nextSegment allowed ts with
  | nil => rfl
  | cons t rest => exact nextSegment_of_ends (endsSegment_of_nextSegment h) rest

/-- The error at a token that opens no clause. -/
def extraneousAt (i : ScanInput) (next p : Nat) : Failure :=
  ⟨i.tokens.drop p, .extraneous
    ((Clause.all.drop next).map (·.keyword.spelling) ++ [TokenKind.name .endOfInput])⟩

theorem extraneous_eq (hi : i.Closed) (hattempts : c.attempts = 0) (ht : c.On i t)
    (hne : t.kind ≠ .endOfInput) :
    ∃ p, c.position < p ∧ p < i.tokens.length ∧
      extraneous next i c = .ok () ((c.withError (extraneousAt i next c.position)).moved p) ∧
      i.tokens.drop p =
        Clause.nextSegment (Clause.all.drop next) (i.tokens.drop (c.position + 1)) := by
  obtain ⟨u, hu⟩ := i.exists_on (hi.lt_of_ne ht hne)
  have hon : (c.withError (extraneousAt i next c.position)).On i t := ht
  obtain ⟨p, hle, hlt, hrun, hdrop⟩ := synchronize_eq hi
    (c := (c.withError (extraneousAt i next c.position)).moved (c.position + 1))
    (Nat.le_add_right _ _) hu
  refine ⟨p, hle, hlt, ?_, hdrop⟩
  have hreport : report c.position (extraneousAt i next c.position).cause i c =
      .ok () (c.withError (extraneousAt i next c.position)) := by
    show (if c.attempts = 0 then _ else _ : Scan Unit) i c = _
    rw [if_pos hattempts]
    exact record_eq ⟨t, ht⟩ _
  show (report c.position (extraneousAt i next c.position).cause >>= fun _ =>
    advance >>= fun _ => _) i c = _
  rw [then_of_ok hreport, advance_then hon hne]
  exact hrun

/-! ## 3. Clause by clause -/

/-- A clause is read alike, its keyword included. -/
theorem clauseAt_matches (hi : i.Closed) {calls : Nat} (hcalls : i.limit < calls)
    (hdepth : c.depth = 0) (hattempts : c.attempts = 0) (ht : c.On i t)
    (hclause : Clause.all[k]? = some clause) (hkind : t.kind = .keyword clause.keyword) :
    Matches i (c.moved (c.position + 1))
      (clause.content i.limit (i.tokens.drop (c.position + 1))) (clauseAt calls k i c) := by
  have hne : t.kind ≠ .endOfInput := by simp [hkind]
  have hexpect : expect (.keyword clause.keyword) i c = .ok t (c.moved (c.position + 1)) := by
    unfold expect
    rw [atKind_then ht, decide_eq_true hkind, if_pos rfl, advance_eq ht hne]
  have hlt : (c.moved (c.position + 1)).position < i.tokens.length := hi.lt_of_ne ht hne
  simp only [clauseAt, hclause]
  rw [then_of_ok hexpect]
  exact (content_runs (c := c.moved (c.position + 1)) hi hcalls hdepth hattempts clause).after
    (.refl hlt)

theorem clauseOrError_of_ok {calls : Nat} {x : ClauseContent} {c' : Cursor}
    (h : clauseAt calls k i c = .ok x c') : clauseOrError calls k i c = .ok (some x) c' :=
  recover_of_ok (then_of_ok h fun x => Pure.pure (some x)) _

theorem clauseOrError_of_failed (hi : i.Closed) {calls : Nat} {fatal : Bool} {c' : Cursor}
    (h : clauseAt calls k i c = .failed fatal c') (hc' : c'.On i t) :
    ∃ p, c'.position ≤ p ∧ p < i.tokens.length ∧
      clauseOrError calls k i c = .ok none (c'.moved p) ∧
      i.tokens.drop p =
        Clause.nextSegment (Clause.all.drop (k + 1)) (i.tokens.drop c'.position) := by
  obtain ⟨p, hle, hlt, hrun, hdrop⟩ := synchronize_eq hi (Nat.le_add_right _ _) hc'
  refine ⟨p, hle, hlt, ?_, hdrop⟩
  unfold clauseOrError
  rw [recover_of_failed (then_of_failed h fun x => Pure.pure (some x))]
  exact then_of_ok hrun _

/-- What a run from the clause with place `next` on adds to a statement and to the errors, up to the
    end of the input. -/
def ClausesRead (i : ScanInput) (next : Nat) (c : Cursor) (s : Statement)
    (o : Outcome Statement) : Prop :=
  let readings := ClauseReading.all i.limit (Clause.all.drop next)
    (Clause.nextSegment (Clause.all.drop next) (i.tokens.drop c.position))
  ∃ p, i.tokens[p]?.map (·.kind) = some .endOfInput ∧
    o = .ok ((readings.filterMap (·.content)).foldl Statement.set s)
      { c with
        position := p
        errors := c.errors ++ (Clause.leftover (Clause.all.drop next)
          (i.tokens.drop c.position)).toList ++ readings.filterMap (·.failure) }

section ClausesRead

variable {s : Statement} {o : Outcome Statement} {x : ClauseContent} {f : Failure} {p p' : Nat}

/-- At the end of the input there is nothing to add. -/
theorem ClausesRead.of_end (ht : c.On i t) (hend : t.kind = .endOfInput) :
    ClausesRead i next c s (.ok s c) := by
  have hends : Clause.endsSegment (Clause.all.drop next) t = true := endsSegment_iff.mpr (.inl hend)
  have hlast : i.tokens[c.position]?.map (·.kind) = some .endOfInput := by
    rw [show i.tokens[c.position]? = some t from ht, Option.map_some, hend]
  refine ⟨c.position, hlast, ?_⟩
  rw [ht.drop, nextSegment_of_ends hends, all_end hend, Clause.leftover_cons.mpr hends]
  simp

/-- What a clause says is added, and what it leaves over is the first that is left. -/
theorem ClausesRead.of_content (ht : c.On i t) (hopened : opened next t.kind = some k)
    (hclause : Clause.all[k]? = some clause) (hp : i.Passed (c.position + 1) p)
    (hread : clause.content i.limit (i.tokens.drop (c.position + 1)) = .ok (x, i.tokens.drop p))
    (h : ClausesRead i (k + 1) (c.moved p) (s.set x) o) : ClausesRead i next c s o := by
  have hends : Clause.endsSegment (Clause.all.drop next) t = true :=
    endsSegment_iff.mpr (.inr (by simp [hopened]))
  obtain ⟨q, hlast, rfl⟩ := h
  refine ⟨q, hlast, ?_⟩
  rw [ht.drop, nextSegment_of_ends hends, all_opened hopened hclause,
    Clause.leftover_cons.mpr hends, ClauseReading.ofSegment, hread, nextSegment_passed hp]
  cases hleft : Clause.leftover (Clause.all.drop (k + 1)) (i.tokens.drop p) with
  | none | some f => simp [Cursor.moved, hleft]

/-- A clause that is not read to its end adds its error. -/
theorem ClausesRead.of_error (ht : c.On i t) (hopened : opened next t.kind = some k)
    (hclause : Clause.all[k]? = some clause) (hp : i.Passed (c.position + 1) p)
    (hread : clause.content i.limit (i.tokens.drop (c.position + 1)) = .error f)
    (hnext : i.tokens.drop p' = Clause.nextSegment (Clause.all.drop (k + 1)) (i.tokens.drop p))
    (h : ClausesRead i (k + 1) ((c.withError f).moved p') s o) : ClausesRead i next c s o := by
  have hends : Clause.endsSegment (Clause.all.drop next) t = true :=
    endsSegment_iff.mpr (.inr (by simp [hopened]))
  obtain ⟨q, hlast, rfl⟩ := h
  refine ⟨q, hlast, ?_⟩
  rw [ht.drop, nextSegment_of_ends hends, all_opened hopened hclause,
    Clause.leftover_cons.mpr hends, ClauseReading.ofSegment, hread, nextSegment_passed hp, ← hnext]
  have hleft : Clause.leftover (Clause.all.drop (k + 1)) (i.tokens.drop p') = none := by
    rw [hnext]
    exact leftover_nextSegment _ _
  have hagain : Clause.nextSegment (Clause.all.drop (k + 1)) (i.tokens.drop p') =
      i.tokens.drop p' := by
    rw [hnext]
    exact nextSegment_nextSegment _ _
  simp [Cursor.moved, Cursor.withError, hleft, hagain]

/-- A token that no clause takes is an error, and so is all behind it up to the next segment. -/
theorem ClausesRead.of_extraneous (ht : c.On i t)
    (hends : Clause.endsSegment (Clause.all.drop next) t = false)
    (hnext : i.tokens.drop p =
      Clause.nextSegment (Clause.all.drop next) (i.tokens.drop (c.position + 1)))
    (h : ClausesRead i next ((c.withError (extraneousAt i next c.position)).moved p) s o) :
    ClausesRead i next c s o := by
  have hleft : Clause.leftover (Clause.all.drop next) (i.tokens.drop p) = none := by
    rw [hnext]
    exact leftover_nextSegment _ _
  have hagain : Clause.nextSegment (Clause.all.drop next) (i.tokens.drop p) =
      i.tokens.drop p := by
    rw [hnext]
    exact nextSegment_nextSegment _ _
  have hskip : Clause.nextSegment (Clause.all.drop next) (i.tokens.drop c.position) =
      i.tokens.drop p := by
    rw [hnext, ht.drop]
    exact List.dropWhile_cons_of_pos (by simp [hends])
  have hextraneous : Clause.leftover (Clause.all.drop next) (i.tokens.drop c.position) =
      some (extraneousAt i next c.position) := by
    rw [extraneousAt, ht.drop]
    simp [Clause.leftover, hends]
  obtain ⟨q, hlast, rfl⟩ := h
  refine ⟨q, hlast, ?_⟩
  simp [Cursor.moved, Cursor.withError, hleft, hagain, hskip, hextraneous]

end ClausesRead

/-- **Clauses are read alike from any of them on, and no count runs out.** -/
theorem clausesFrom_read (hi : i.Closed) {calls : Nat} (hcalls : i.limit < calls)
    (hdepth : c.depth = 0) (hattempts : c.attempts = 0) {n : Nat}
    (hn : i.tokens.length ≤ n + c.position) (ht : c.On i t) (s : Statement) :
    ClausesRead i next c s (clausesFrom calls n next s i c) := by
  induction n generalizing c t next s with
  | zero =>
    have hlt := ht.lt
    omega
  | succ n ih =>
    unfold clausesFrom
    rw [cur_then ht]
    by_cases hend : t.kind = .endOfInput
    · rw [if_pos hend]
      exact .of_end ht hend
    rw [if_neg hend]
    cases hopened : opened next t.kind with
    | some k =>
      obtain ⟨-, clause, hclause, hkind⟩ := opened_eq_some.mp hopened
      have hmatches := clauseAt_matches hi hcalls hdepth hattempts ht hclause hkind
      show ClausesRead i next c s
        ((clauseOrError calls k >>= fun read =>
          clausesFrom calls n (k + 1) (read.elim s s.set)) i c)
      generalize hread : clause.content i.limit (i.tokens.drop (c.position + 1)) = e at hmatches
      generalize hscan : clauseAt calls k i c = o at hmatches
      cases hmatches with
      | @ok x p hp =>
        have hle : c.position + 1 ≤ p := hp.le
        obtain ⟨u, hu⟩ := i.exists_on hp.lt
        refine .of_content ht hopened hclause hp hread ?_
        rw [then_of_ok (clauseOrError_of_ok hscan)]
        exact ih (c := c.moved p) hdepth hattempts (show _ ≤ n + p by omega) hu (s.set x)
      | @error f p hp =>
        have hle : c.position + 1 ≤ p := hp.le
        obtain ⟨u, hu⟩ := i.exists_on hp.lt
        have hon : ((c.moved p).withError f).On i u := hu
        have hrecorded : (c.moved p).recorded f = (c.moved p).withError f :=
          Cursor.recorded_of_attempts (c := c.moved p) hattempts f
        rw [Cursor.moved_moved, hrecorded] at hscan
        obtain ⟨p', hle', hlt, hrun, hnext⟩ := clauseOrError_of_failed hi hscan hon
        obtain ⟨u', hu'⟩ := i.exists_on hlt
        refine .of_error ht hopened hclause hp hread hnext ?_
        rw [then_of_ok hrun]
        have hlater : p ≤ p' := hle'
        exact ih (c := (c.withError f).moved p') hdepth hattempts (show _ ≤ n + p' by omega) hu' s
    | none =>
      have hends : Clause.endsSegment (Clause.all.drop next) t = false := by
        rw [← Bool.not_eq_true, endsSegment_iff]
        simp [hend, hopened]
      show ClausesRead i next c s ((extraneous next >>= fun _ => clausesFrom calls n next s) i c)
      obtain ⟨p, hle, hlt, hrun, hnext⟩ := extraneous_eq hi hattempts ht hend
      obtain ⟨u, hu⟩ := i.exists_on hlt
      refine .of_extraneous ht hends hnext ?_
      rw [then_of_ok hrun]
      exact ih (c := (c.withError (extraneousAt i next c.position)).moved p) hdepth hattempts
        (show _ ≤ n + p by omega) hu s

/-- **A statement is read alike: with the same clauses and the same errors, and without a
    fault.** -/
theorem statement_eq (hi : i.Closed) {calls : Nat} (hcalls : i.limit < calls) :
    ∃ p, i.tokens[p]?.map (·.kind) = some .endOfInput ∧
      statement calls i {} = .ok (readStatement i.limit i.tokens).statement
        { position := p, errors := (readStatement i.limit i.tokens).failures } := by
  have hne : i.tokens ≠ [] := by
    intro h
    rw [ScanInput.Closed, h] at hi
    cases hi
  obtain ⟨t, ht⟩ := i.exists_on (List.length_pos_iff.mpr hne)
  have hon : Cursor.On i {} t := ht
  have hread : ClausesRead i 0 {} .empty (clausesFrom calls i.tokens.length 0 .empty i {}) :=
    clausesFrom_read hi hcalls rfl rfl (Nat.le_refl _) hon .empty
  obtain ⟨p, hlast, hrun⟩ := hread
  refine ⟨p, hlast, ?_⟩
  have hstatement : statement calls i {} =
      clausesFrom calls i.tokens.length 0 .empty i {} := by
    have hlast : i.tokens.getLast?.map (·.kind) = some .endOfInput := hi
    show (if _ then _ else _ : Scan Statement) i {} = _
    rw [if_pos hlast]
  rw [hstatement, hrun]
  rfl

end MiningQuery.Scan
