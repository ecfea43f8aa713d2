/-
  File:      MiningQuery/Proofs/Query/Parentheses.lean
  Subject:   Parentheses around a condition change nothing.

  A written statement stays written if one of its clauses is written in another way, and the tree of
  a condition with parentheses around one of its parts is written by the tokens with parentheses
  around those of the part.

  * `StatementWritten.rewrite` -- another condition in the place of the one of a statement;
  * `Spells.fill` -- the tokens of a part of a condition, and those around them;
  * `Marks` -- the text of a part of the condition of a text;
  * **`redundant_parentheses`** -- with parentheses around this text, the query is the same.
-/
import MiningQuery.Proofs.Segment.Contents
import MiningQuery.Proofs.Segment.Places
import MiningQuery.Proofs.Token.Enclosing
import MiningQuery.Proofs.Tree.Context
import MiningQuery.Sql.Select

namespace MiningQuery

open Parse

/-! ## 1. Another condition in a statement -/

/-- What tokens write for a clause is what this clause says. -/
theorem Clause.Written.clause_eq {limit : Nat} {clause : Clause} {content : ClauseContent}
    {ts : List Token} (h : clause.Written limit content ts) : content.clause = clause := by
  have hbehind : ∀ {α : Type} {k : Keyword} {f : α → ClauseContent} {W : α → List Token → Prop},
      (∀ x, (f x).clause = clause) → Behind k f W content ts → content.clause = clause := by
    intro α k f W hf h
    obtain ⟨_, _, -, -, x, -, rfl⟩ := h
    exact hf x
  have himage : ∀ {α : Type} {f : α → ClauseContent} {W : α → List Token → Prop},
      (∀ x, (f x).clause = clause) → Image f W content ts → content.clause = clause := by
    intro α f W hf h
    obtain ⟨x, -, rfl⟩ := h
    exact hf x
  cases clause with
  | tables | condition | mining | measures => exact himage (fun _ => rfl) h
  | database | relevance | grouping | ordering | display => exact hbehind (fun _ => rfl) h

/-- A written statement has the clauses that may stand in it, in their order. -/
theorem StatementWritten.sublist {limit : Nat} {clauses : List Clause}
    {contents : List ClauseContent} {ts : List Token}
    (h : StatementWritten limit clauses contents ts) :
    (contents.map (·.clause)).Sublist clauses := by
  induction h with
  | done => exact .slnil
  | absent _ ih => exact .cons _ ih
  | present _ hbody _ ih =>
    rw [List.map_cons, hbody.clause_eq]
    exact .cons_cons _ ih

/-- **A clause of a written statement can be written in another way**, or say something else. -/
theorem StatementWritten.rewrite {limit : Nat} {clauses : List Clause}
    {contents : List ClauseContent} {ts : List Token} {content : ClauseContent}
    (h : StatementWritten limit clauses contents ts) (hmem : content ∈ contents) :
    ∃ before after left w body right, contents = before ++ content :: after ∧
      ts = left ++ w :: (body ++ right) ∧ w.kind = .keyword content.clause.keyword ∧
      content.clause.Written limit content body ∧
      ∀ content' body', content.clause.Written limit content' body' →
        StatementWritten limit clauses (before ++ content' :: after)
          (left ++ w :: (body' ++ right)) := by
  induction h with
  | done => cases hmem
  | absent _ ih =>
    obtain ⟨before, after, left, w, body, right, hcontents, hts, hw, hbody, hrewrite⟩ := ih hmem
    exact ⟨before, after, left, w, body, right, hcontents, hts, hw, hbody,
      fun content' body' hbody' => .absent (hrewrite content' body' hbody')⟩
  | @present clause later v body first contents ts hv hfirst hlater ih =>
    rcases List.mem_cons.mp hmem with rfl | hmem
    · obtain rfl := hfirst.clause_eq
      exact ⟨[], contents, [], v, body, ts, rfl, rfl, hv, hfirst,
        fun _ _ hbody' => .present hv hbody' hlater⟩
    · obtain ⟨before, after, left, w, body', right, rfl, rfl, hw, hbody', hrewrite⟩ := ih hmem
      refine ⟨first :: before, after, v :: (body ++ left), w, body', right, rfl, by simp, hw, hbody',
        fun content' body'' hbody'' => ?_⟩
      have hpresent := StatementWritten.present hv hfirst (hrewrite content' body'' hbody'')
      rwa [← List.append_assoc] at hpresent

/-- **Another condition in the place of the one of a statement.** -/
theorem readStatement_rewrite {limit : Nat} {ts : List Token} {p : Predicate} (hts : Shaped ts)
    (hend : EndsOnce ts) (hfailures : (readStatement limit ts).failures = [])
    (hp : (readStatement limit ts).statement.condition = some p) :
    ∃ left w body right, ts = left ++ w :: (body ++ right) ∧ w.kind = .keyword .WHERE ∧
      p.Written limit body ∧ ∀ p' body', p'.Written limit body' →
        readStatement limit (left ++ w :: (body' ++ right)) =
          ⟨{ (readStatement limit ts).statement with condition := some p' }, []⟩ := by
  obtain ⟨contents, hwritten⟩ := written_of_readStatement hts hend hfailures
  rw [readStatement_of_written hwritten] at hp ⊢
  have hmem : .condition p ∈ contents := by
    have hsays : (contents.foldl Statement.set .empty).Says (.condition p) := hp
    rcases Statement.says_foldl hsays with hmem | hempty
    · exact hmem
    · exact absurd hempty (Statement.not_says_empty (c := .condition p))
  obtain ⟨before, after, left, w, body, right, rfl, hts, hw, hbody, hrewrite⟩ :=
    hwritten.rewrite hmem
  obtain ⟨p₀, hbody, hcontent⟩ := hbody
  obtain rfl := ClauseContent.condition.inj hcontent
  -- the condition is said once, so what follows it does not bear on it
  have hafter : ∀ x ∈ after, x.clause ≠ .condition := by
    have hnodup := hwritten.sublist.nodup (by decide)
    rw [List.map_append, List.map_cons, List.nodup_append, List.nodup_cons] at hnodup
    intro x hx hclause
    exact hnodup.2.1.1 (List.mem_map.mpr ⟨x, hx, hclause⟩)
  have hset : ∀ p, (before ++ .condition p :: after).foldl Statement.set .empty =
      { after.foldl Statement.set (before.foldl Statement.set .empty) with
        condition := some p } := by
    intro p
    rw [List.foldl_append, List.foldl_cons]
    exact Statement.foldl_set_condition hafter _ _
  refine ⟨left, w, body, right, hts, hw, hbody, fun p' body' hbody' => ?_⟩
  rw [readStatement_of_written (hrewrite (.condition p') body' ⟨p', hbody', rfl⟩), hset, hset]

/-! ## 2. Parts of a condition -/

/-- The tokens of a part of a condition, and those around them. -/
theorem Spells.fill {c : Predicate.Context} {p : Predicate} {ts : List Token} :
    Spells (c.fill p).lexemes ts ↔
      ∃ us vs ws, ts = us ++ (vs ++ ws) ∧ Spells c.before us ∧ Spells p.lexemes vs ∧
        Spells c.after ws := by
  simp only [Predicate.Context.lexemes_fill, spells_append]
  constructor
  · intro h
    obtain ⟨us, _, rfl, hus, vs, ws, rfl, hvs, hws⟩ := h
    exact ⟨us, vs, ws, rfl, hus, hvs, hws⟩
  · intro h
    obtain ⟨us, vs, ws, rfl, hus, hvs, hws⟩ := h
    exact ⟨us, _, rfl, hus, vs, ws, rfl, hvs, hws⟩

/-- With parentheses around a part, a condition is written by the tokens with parentheses. -/
theorem Predicate.Written.paren {n m : Nat} {c : Predicate.Context} {p : Predicate}
    {us vs ws : List Token} {o k : Token} (h : (c.fill p).Written n (us ++ (vs ++ ws)))
    (hus : Spells c.before us) (hvs : Spells p.lexemes vs) (hws : Spells c.after ws)
    (ho : o.kind = .symbol .openParen) (hk : k.kind = .symbol .closeParen)
    (hdepth : (c.fill (.paren p)).depth ≤ m) :
    (c.fill (.paren p)).Written m (us ++ o :: (vs ++ k :: ws)) := by
  refine ⟨Predicate.Context.fill_paren_isCanonical h.canonical, ?_, hdepth, ?_⟩
  · rw [Predicate.Context.fill_paren_isLexical]
    exact h.lexical
  · rw [Predicate.Context.lexemes_fill_paren]
    simp only [spells_append, spells_cons, Lexeme.sign_spells]
    exact ⟨us, _, rfl, hus, o, _, rfl, ho, vs, _, rfl, hvs, k, ws, rfl, hk, hws⟩

/-! ## 3. Texts -/

/-- Of the text `x ++ (y ++ z)`, the part `y` is exactly the tokens of the condition `p`, which stands
    in the gap of `c` behind the `WHERE`. -/
def Marks (c : Predicate.Context) (p : Predicate) (x y z : Text) : Prop :=
  ∃ left w us vs ws right, (lex (x ++ (y ++ z))).tokens =
      left ++ w :: (us ++ (vs ++ ws) ++ right) ∧
    w.kind = .keyword .WHERE ∧ Spells c.before us ∧ Spells p.lexemes vs ∧ Spells c.after ws ∧
    Spans vs x y

/-- Conditions that reduce to the same make the same query of a statement. -/
theorem Statement.reduce_condition {s : Statement} {condition : Option Predicate}
    (h : condition.map Predicate.reduce = s.condition.map Predicate.reduce)
    (displayType rawText : Text) (errors : List Text) :
    ({ s with condition } : Statement).reduce displayType rawText errors =
      s.reduce displayType rawText errors := by
  simp only [Statement.reduce, h]

/-- An accepted text has no errors to report. -/
theorem ReadSettings.Accepts.errors_eq_nil {settings : ReadSettings} {t : Text}
    (h : settings.Accepts t) : (Reading.ofText settings t).errors = [] := by
  obtain ⟨herrors, hfailures⟩ := h
  simp [Reading.ofText, herrors, hfailures, Reading.keepErrors]

/-- **Parentheses around a condition change nothing.** Let a text have no errors, and let `p` be a part
    of its condition, from a bare value to the whole. The text can be parted so that the middle part
    is exactly the tokens of `p`. With parentheses around it, where the limit of nesting allows them,
    the text has no errors, its condition has them around `p`, and it is the same query but for the
    text itself: the condition is the same, and so is the SQL. -/
theorem redundant_parentheses (settings : ReadSettings) {t : Text} {c : Predicate.Context}
    {p : Predicate} (haccepts : settings.Accepts t)
    (hcondition : (Reading.ofText settings t).statement.condition = some (c.fill p))
    (hdepth : (c.fill (.paren p)).depth ≤ settings.nestingLimit) :
    ∃ x y z, t = x ++ (y ++ z) ∧ Marks c p x y z ∧
      let t' := x ++ ascii "(" ++ y ++ ascii ")" ++ z
      settings.Accepts t' ∧
        (Reading.ofText settings t').statement.condition = some (c.fill (.paren p)) ∧
        ∃ q q', Query.ofText settings t = .ok q ∧ Query.ofText settings t' = .ok q' ∧
          q' = { q with rawText := t' } ∧
          ∀ {m : Type → Type} [Monad m] (r : TableResolver m) (separator : Text),
            q'.translate r separator = q.translate r separator := by
  have herrorless := haccepts.errors_eq_nil
  obtain ⟨herrors, hfailures⟩ := haccepts
  obtain ⟨left, w, body, right, htokens, hw, hbody, hrewrite⟩ :=
    readStatement_rewrite (lex_shaped t) (lex_endsOnce t) hfailures hcondition
  obtain ⟨us, vs, ws, rfl, hus, hvs, hws⟩ := Spells.fill.mp hbody.spells
  have hne : vs ≠ [] := by
    rintro rfl
    exact p.lexemes_ne_nil (List.length_eq_zero_iff.mp hvs.length_eq)
  have hkinds : ∀ tok ∈ vs, tok.kind ≠ .endOfInput := by
    intro tok htok hkind
    have hinside := hvs.inside p.lexemes_inside tok htok
    rw [hkind] at hinside
    exact hinside (by decide)
  have hparted : (lex t).tokens = (left ++ w :: us) ++ (vs ++ (ws ++ right)) := by
    rw [htokens]
    simp
  obtain ⟨x, y, z, rfl, hspans, herrors', hlexemes⟩ := lex_enclosed herrors hparted hne hkinds
  refine ⟨x, y, z, rfl, ⟨left, w, us, vs, ws, right, htokens, hw, hus, hvs, hws, hspans⟩, ?_⟩
  have htext : x ++ ascii "(" ++ y ++ ascii ")" ++ z = x ++ 40 :: (y ++ 41 :: z) := by
    simp [ascii]
  rw [htext]
  generalize x ++ 40 :: (y ++ 41 :: z) = t' at herrors' hlexemes ⊢
  -- the tokens of the new text are these, but for their places
  let o : Token := ⟨.symbol .openParen, [40], .start⟩
  let k : Token := ⟨.symbol .closeParen, [41], .start⟩
  have hread := hrewrite _ _ (Predicate.Written.paren (o := o) (k := k) hbody hus hvs hws rfl rfl
    hdepth)
  have hsame : (lex t').tokens.map Token.lexeme =
      (left ++ w :: (us ++ o :: (vs ++ k :: ws) ++ right)).map Token.lexeme := by
    rw [hlexemes]
    simp [Token.lexeme, o, k]
  obtain ⟨hstatement, hcauses⟩ := readStatement_alike settings.nestingLimit (alike_of_lexemes hsame)
  rw [hread] at hstatement hcauses
  have haccepts' : settings.Accepts t' := ⟨herrors', List.map_eq_nil_iff.mp hcauses⟩
  have hcondition' : (Reading.ofText settings t').statement.condition = some (c.fill (.paren p)) :=
    congrArg Statement.condition hstatement
  obtain ⟨q, hq, hreduces⟩ := Query.exists_ofText settings (x ++ (y ++ z))
  refine ⟨haccepts', hcondition', q, { q with rawText := t' }, hq, ?_, rfl, fun _ _ => rfl⟩
  have hquery : Query.ofText settings t' =
      .ok { q with rawText := t', errors := (Reading.ofText settings t').errors } := by
    have hsaid : (some (c.fill (.paren p))).map Predicate.reduce =
        (Reading.ofText settings (x ++ (y ++ z))).statement.condition.map Predicate.reduce := by
      rw [hcondition, Option.map_some, Option.map_some, Predicate.Context.reduce_fill_paren]
    have hrewritten := Statement.reduce_condition hsaid settings.displayType t'
      (Reading.ofText settings t').errors
    rw [← Statement.reduce_carrying hq, ← hrewritten]
    exact congrArg (Statement.reduce settings.displayType t' _) hstatement
  rw [hquery, haccepts'.errors_eq_nil, ← herrorless, ← hreduces.errors]

/-- `b + 1` on the left of a disjunction under a `NOT`, as a bare value. -/
theorem redundant_parentheses_value :
    let t := ascii "WHERE NOT(b+1-- sum\nOR c=2)AND a"
    let a : Predicate := .value (.column ⟨none, ascii "a"⟩)
    let p : Predicate :=
      .value (.arith .add (.column ⟨none, ascii "b"⟩) (.literal (.int (ascii "1") 1)))
    let r : Predicate :=
      .compare .eq (.column ⟨none, ascii "c"⟩) (.literal (.int (ascii "2") 2))
    let c : Predicate.Context := .left .and (.not (.paren (.left .or .gap r))) a
    ({ nestingLimit := 3 } : ReadSettings).Accepts t ∧
      ∃ x y z, t = x ++ (y ++ z) ∧ Marks c p x y z ∧
        let t' := x ++ ascii "(" ++ y ++ ascii ")" ++ z
        ({ nestingLimit := 3 } : ReadSettings).Accepts t' ∧
          (Reading.ofText { nestingLimit := 3 } t').statement.condition =
            some (c.fill (.paren p)) ∧
          ∃ q q', Query.ofText { nestingLimit := 3 } t = .ok q ∧
            Query.ofText { nestingLimit := 3 } t' = .ok q' ∧ q' = { q with rawText := t' } ∧
            ∀ {m : Type → Type} [Monad m] (r : TableResolver m) (separator : Text),
              q'.translate r separator = q.translate r separator := by
  intro t a p r c
  have haccepts : ({ nestingLimit := 3 } : ReadSettings).Accepts t := by
    rw [ReadSettings.Accepts]
    decide +kernel
  have hcondition : (Reading.ofText { nestingLimit := 3 } t).statement.condition =
      some (c.fill p) := by decide +kernel
  exact ⟨haccepts, redundant_parentheses _ haccepts hcondition (by decide)⟩

end MiningQuery
