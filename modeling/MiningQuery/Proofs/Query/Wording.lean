/-
  File:      MiningQuery/Proofs/Query/Wording.lean
  Subject:   What of the wording of a text does not bear on its query: layout and letter case.

  Both are renamings of tokens. Another layout gives them other places, so reading gives the same,
  but for the places in the errors. Another letter case gives them other texts, so reading gives the
  same tree with other names and strings, and errors at the same places.

  * `Renaming.placeless`, `Renaming.capitals` -- the two renamings;
  * `SameMessage`, `SamePlace` -- errors that differ in the place only, or have it in common;
  * **`layout_does_not_matter`** -- tokens spaced in another way are the same query;
  * **`letter_case_does_not_matter`** -- a text in other letter case is the same statement, but for
    the case of names and strings.
-/
import Mathlib.Data.List.Forall2
import MiningQuery.Proofs.Grammar.Renaming
import MiningQuery.Proofs.Segment.Places
import MiningQuery.Proofs.Token.Spacing

namespace MiningQuery

/-! ## 1. Errors as they are reported -/

/-- The errors differ in the place that they report only. -/
def SameMessage (e e' : Text) : Prop :=
  ∃ (l l' : Location) (message : Text), e = l.report message ∧ e' = l'.report message

/-- The errors report the same place. -/
def SamePlace (e e' : Text) : Prop :=
  ∃ (l : Location) (message message' : Text), e = l.report message ∧ e' = l.report message'

/-- Lists that a function does not tell apart are not told apart item by item. -/
theorem forall₂_of_map_eq {α β : Type} {f : α → β} {xs ys : List α} (h : xs.map f = ys.map f) :
    List.Forall₂ (fun x y => f x = f y) xs ys := by
  rw [← List.forall₂_eq_eq_eq, List.forall₂_map_left_iff, List.forall₂_map_right_iff] at h
  exact h

/-- A limit cuts off the same errors of two lists. -/
theorem Reading.keepErrors_forall₂ {R : Text → Text → Prop} {es es' : List Text}
    (h : List.Forall₂ R es es') (limit : Nat) :
    List.Forall₂ R (keepErrors limit es) (keepErrors limit es') := by
  unfold keepErrors
  split
  · exact h
  · exact List.forall₂_take limit h

/-! ## 2. Layout -/

/-- The renaming that gives all tokens one place. -/
def Renaming.placeless : Renaming := ⟨id, fun _ => .start, fun _ => rfl, rfl⟩

/-- Without their places the tokens are their lexemes. -/
theorem Renaming.map_placeless {ts ts' : List Token}
    (h : ts.map Token.lexeme = ts'.map Token.lexeme) :
    ts.map placeless.token = ts'.map placeless.token := by
  have hlexeme : ∀ ts : List Token, ts.map placeless.token =
      (ts.map Token.lexeme).map fun x => ⟨x.kind, x.text.getD [], .start⟩ := by
    intro ts
    rw [List.map_map]
    refine List.map_congr_left fun t _ => ?_
    simp [token, placeless, Token.lexeme, Lexeme.exact]
  rw [hlexeme, hlexeme, h]

/-- An error message says nothing of places. -/
theorem Renaming.message_placeless (limit : Nat) (f : Failure) :
    (placeless.failure f).message limit = f.message limit := by
  have htext : ∀ t : Token, (placeless.token t).text = t.text := by
    intro t
    simp [token, placeless]
  have hdisplay : ∀ t : Token, (placeless.token t).display = t.display := by
    intro t
    rw [Token.display, Token.display, htext, token_kind]
  have hcause : (placeless.failure f).cause = f.cause := rfl
  simp only [Failure.message, failure_token, hdisplay, hcause, Failure.quotedNumber, htext]

/-- **Lists with the same tokens fail with the same messages.** -/
theorem readStatement_messages (limit : Nat) {ts ts' : List Token}
    (h : ts.map Token.lexeme = ts'.map Token.lexeme) :
    (readStatement limit ts).failures.map (Failure.message limit) =
      (readStatement limit ts').failures.map (Failure.message limit) := by
  have hmessages : ∀ ts, (readStatement limit ts).failures.map (Failure.message limit) =
      (readStatement limit (ts.map Renaming.placeless.token)).failures.map
        (Failure.message limit) := by
    intro ts
    rw [(readStatement_rename .placeless limit ts).2, List.map_map]
    exact List.map_congr_left fun f _ => (Renaming.message_placeless limit f).symm
  rw [hmessages ts, hmessages ts', Renaming.map_placeless h]

/-- **Layout does not matter.** The tokens of a text without errors, spaced in another way, are
    again cut into these tokens without errors, and they are the same query but for its text and for
    the places in its errors. -/
theorem layout_does_not_matter (settings : ReadSettings) {s t : Text} (hs : (lex s).errors = [])
    (ht : Spaced ((lex s).tokens.dropLast.map (·.text)) t) :
    (lex t).errors = [] ∧ (lex t).tokens.map Token.lexeme = (lex s).tokens.map Token.lexeme ∧
      ∃ q errors, Query.ofText settings s = .ok q ∧
        Query.ofText settings t = .ok { q with rawText := t, errors } ∧
        List.Forall₂ SameMessage q.errors errors := by
  obtain ⟨herrors, hlexemes⟩ := ht.lex
  refine ⟨herrors, hlexemes, ?_⟩
  obtain ⟨hstatement, -⟩ := readStatement_alike settings.nestingLimit (alike_of_lexemes hlexemes)
  obtain ⟨q, hq, hreduces⟩ := Query.exists_ofText settings s
  refine ⟨q, (Reading.ofText settings t).errors, hq, ?_, ?_⟩
  · have hreduce : (readStatement settings.nestingLimit (lex s).tokens).statement.reduce
        settings.displayType s (Reading.ofText settings s).errors = .ok q := hq
    rw [← hstatement] at hreduce
    exact Statement.reduce_carrying hreduce t (Reading.ofText settings t).errors
  · have hreported : List.Forall₂ SameMessage
        ((readStatement settings.nestingLimit (lex s).tokens).failures.map
          (Failure.text settings.nestingLimit))
        ((readStatement settings.nestingLimit (lex t).tokens).failures.map
          (Failure.text settings.nestingLimit)) := by
      rw [List.forall₂_map_left_iff, List.forall₂_map_right_iff]
      have hmessages := readStatement_messages settings.nestingLimit hlexemes.symm
      refine (forall₂_of_map_eq hmessages).imp fun f f' hmessage => ?_
      exact ⟨f.token.location, f'.token.location, _, rfl, by rw [Failure.text, hmessage]⟩
    rw [hreduces.errors]
    simp only [Reading.ofText, hs, herrors, List.map_nil, List.nil_append]
    exact Reading.keepErrors_forall₂ hreported _

/-- A comparison and a minus sign spread over two lines, with a comment between; an error moves. -/
theorem layout_does_not_matter_two_lines :
    let s := ascii "WHERE a<-1 ORDER c"
    let t := ascii "WHERE a < -- less\n - 1 ORDER\tc"
    (lex s).errors = [] ∧ Spaced ((lex s).tokens.dropLast.map (·.text)) t ∧ (lex t).errors = [] ∧
      (lex t).tokens.map Token.lexeme = (lex s).tokens.map Token.lexeme ∧
      ∃ q errors, Query.ofText {} s = .ok q ∧
        Query.ofText {} t = .ok { q with rawText := t, errors } ∧
        List.Forall₂ SameMessage q.errors errors ∧
        q.errors = [ascii "Line 1:17 - mismatched input 'c' expecting BY"] ∧
        errors = [ascii "Line 2:11 - mismatched input 'c' expecting BY"] := by
  intro s t
  have hblank : ∀ {b : UInt8}, isBlank b = true → Separator [b] := fun hb => .mk hb .nil
  have hcomment : Separator (32 :: (ascii "--" ++ ascii " less" ++ 10 :: [32])) :=
    .mk rfl (.comment (by decide) (.blank rfl .nil))
  obtain ⟨hs, hwords⟩ : (lex s).errors = [] ∧ (lex s).tokens.dropLast.map (·.text) =
      [ascii "WHERE", ascii "a", ascii "<", ascii "-", ascii "1", ascii "ORDER", ascii "c"] := by
    decide +kernel
  have hspaced : Spaced ((lex s).tokens.dropLast.map (·.text)) t := by
    rw [hwords]
    exact .cons (hblank (b := 32) rfl) (.cons (hblank (b := 32) rfl) (.cons hcomment
      (.cons (hblank (b := 32) rfl) (.cons (hblank (b := 32) rfl)
        (.cons (hblank (b := 9) rfl) (.single (ascii "c")))))))
  obtain ⟨herrors, hlexemes, q, errors, hq, hq', hsame⟩ := layout_does_not_matter {} hs hspaced
  have hfirst : (Query.ofText {} s).map (·.errors) =
      .ok [ascii "Line 1:17 - mismatched input 'c' expecting BY"] := by decide +kernel
  have hsecond : (Query.ofText {} t).map (·.errors) =
      .ok [ascii "Line 2:11 - mismatched input 'c' expecting BY"] := by decide +kernel
  rw [hq] at hfirst
  rw [hq'] at hsecond
  exact ⟨hs, hspaced, herrors, hlexemes, q, errors, hq, hq', hsame, Except.ok.inj hfirst,
    Except.ok.inj hsecond⟩

/-! ## 3. Letter case -/

/-- The renaming that puts all names and strings in capitals. -/
def Renaming.capitals : Renaming := ⟨Text.upper, id, Text.upper_upper, rfl⟩

/-- A number has no letters, so capitals change names and strings only. -/
theorem Renaming.token_capitals {t : Token} (h : t.IsShaped) : capitals.token t = t.inCapitals := by
  have hdigits : ∀ {text : Text}, isDigits text = true → ∀ b ∈ text, isLetter b = false := by
    intro text htext b hb
    have hdigit := (isDigits_iff.mp htext).2 b hb
    simp only [isDigit, isLetter, isUpper, isLower] at *
    grind
  have hnumber : Parse.isNumber t.kind = true → Text.upper t.text = t.text := by
    intro hk
    refine Text.upper_of_no_letter ?_
    simp only [Parse.isNumber, Bool.or_eq_true, decide_eq_true_eq] at hk
    rcases hk with hk | hk
    · rw [Token.IsShaped, hk] at h
      exact hdigits h
    · rw [Token.IsShaped, hk] at h
      obtain ⟨whole, fraction, hwhole, hfraction, htext⟩ := isDecimal_iff.mp h
      rw [htext]
      refine List.forall_mem_append.mpr ⟨hdigits hwhole, List.forall_mem_cons.mpr ⟨rfl, ?_⟩⟩
      exact hdigits hfraction
  cases hk : Parse.isNumber t.kind with
  | true => simp [token, Token.inCapitals, capitals, hk, hnumber hk]
  | false => simp [token, Token.inCapitals, capitals, hk]

/-- **A text in capitals is the statement in capitals**, and fails for the same causes at the same
    places. -/
theorem readStatement_upper (limit : Nat) (t : Text) :
    (readStatement limit (lex (Text.upper t)).tokens).statement =
        (readStatement limit (lex t).tokens).statement.rename Text.upper ∧
      (readStatement limit (lex (Text.upper t)).tokens).failures.map
          (fun f => (f.token.location, f.cause)) =
        (readStatement limit (lex t).tokens).failures.map fun f => (f.token.location, f.cause) := by
  have htokens : (lex (Text.upper t)).tokens = (lex t).tokens.map Renaming.capitals.token := by
    rw [(lex_upper t).1]
    exact List.map_congr_left fun tok h => (Renaming.token_capitals (lex_shaped t tok h)).symm
  obtain ⟨hstatement, hfailures⟩ := readStatement_rename .capitals limit (lex t).tokens
  rw [htokens]
  refine ⟨hstatement, ?_⟩
  rw [hfailures, List.map_map]
  refine List.map_congr_left fun f _ => ?_
  rw [Function.comp_apply, Renaming.failure_token]
  rfl

/-- **Letter case does not matter, except in names and strings.** Texts that differ in it have the
    same tokens and errors at the same places. They are the same statement, but for the case of its
    names and strings, with failures for the same causes at the same places; so both are valid, or
    neither is. -/
theorem letter_case_does_not_matter (settings : ReadSettings) {s t : Text}
    (h : Text.upper s = Text.upper t) :
    let r := Reading.ofText settings s
    let r' := Reading.ofText settings t
    let failures := (readStatement settings.nestingLimit r.lexing.tokens).failures
    let failures' := (readStatement settings.nestingLimit r'.lexing.tokens).failures
    r.lexing.tokens.map Token.inCapitals = r'.lexing.tokens.map Token.inCapitals ∧
      r.lexing.errors.map LexError.inCapitals = r'.lexing.errors.map LexError.inCapitals ∧
      failures.map (fun f => (f.token.location, f.cause)) =
        failures'.map (fun f => (f.token.location, f.cause)) ∧
      List.Forall₂ SamePlace r.errors r'.errors ∧
      r.statement.rename Text.upper = r'.statement.rename Text.upper ∧ r.isValid = r'.isValid := by
  intro r r' failures failures'
  obtain ⟨htokens, herrors⟩ := lex_upper s
  obtain ⟨htokens', herrors'⟩ := lex_upper t
  obtain ⟨hstatement, hfailures⟩ := readStatement_upper settings.nestingLimit s
  obtain ⟨hstatement', hfailures'⟩ := readStatement_upper settings.nestingLimit t
  rw [h] at htokens herrors hstatement hfailures
  have hlexing : r.lexing.errors.map LexError.inCapitals =
      r'.lexing.errors.map LexError.inCapitals := herrors.symm.trans herrors'
  have hplaces : failures.map (fun f => (f.token.location, f.cause)) =
      failures'.map (fun f => (f.token.location, f.cause)) := hfailures.symm.trans hfailures'
  have hreported : List.Forall₂ SamePlace r.errors r'.errors := by
    refine Reading.keepErrors_forall₂ (List.rel_append ?_ ?_) _
    · rw [List.forall₂_map_left_iff, List.forall₂_map_right_iff]
      refine (forall₂_of_map_eq hlexing).imp fun e e' he => ?_
      have hplace : e.inCapitals.location = e'.inCapitals.location := congrArg _ he
      exact ⟨e'.location, _, _, congrArg (Location.report · _) hplace, rfl⟩
    · rw [List.forall₂_map_left_iff, List.forall₂_map_right_iff]
      refine (forall₂_of_map_eq hplaces).imp fun f f' hf => ?_
      have hplace : f.token.location = f'.token.location := congrArg Prod.fst hf
      exact ⟨f.token.location, _, _, rfl, by rw [Failure.text, hplace]⟩
  refine ⟨htokens.symm.trans htokens', hlexing, hplaces, hreported,
    hstatement.symm.trans hstatement', ?_⟩
  have hlength := hreported.length_eq
  rw [Reading.isValid, Reading.isValid, Bool.eq_iff_iff, List.isEmpty_iff_length_eq_zero,
    List.isEmpty_iff_length_eq_zero, hlength]

/-- Keywords, an aggregate, a label and a measure in mixed letter case, and an error. -/
theorem letter_case_does_not_matter_mixed :
    let s := ascii "where sum(A)>1 mine cluster k=3 with Support=1 display Bar"
    let t := ascii "WHERE Sum(a)>1 Mine CLUSTER K=3 WITH sUPPORT=1 DISPLAY bar"
    let r := Reading.ofText {} s
    let r' := Reading.ofText {} t
    Text.upper s = Text.upper t ∧ r.statement.rename Text.upper = r'.statement.rename Text.upper ∧
      r.statement.condition ≠ r'.statement.condition ∧
      List.Forall₂ SamePlace r.errors r'.errors ∧
      r.errors = [ascii "Line 1:55 - mismatched input 'Bar' expecting AS"] ∧
      r.isValid = r'.isValid := by
  intro s t r r'
  have hcapitals : Text.upper s = Text.upper t := by decide +kernel
  obtain ⟨-, -, -, herrors, hstatement, hvalid⟩ := letter_case_does_not_matter {} hcapitals
  have hread : r.statement.condition ≠ r'.statement.condition ∧
      r.errors = [ascii "Line 1:55 - mismatched input 'Bar' expecting AS"] := by decide +kernel
  exact ⟨hcapitals, hstatement, hread.1, herrors, hread.2, hvalid⟩

end MiningQuery
