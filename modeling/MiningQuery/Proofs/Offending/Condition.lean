/-
  File:      MiningQuery/Proofs/Offending/Condition.lean
  Subject:   Conditions are read alike up to a token in common, but for excused tokens.

  Level by level: an attempt that comes to an end before the token or at it comes to the same end on
  the other list. Where the attempt was given up, the second reading decides, and it is compared
  with the attempt on the other list.

  * **`attempt_settles`** -- parts of a condition under an attempt;
  * **`negation_settles`** -- parts of a condition;
  * **`condition_settles`** -- conditions.
-/
import MiningQuery.Proofs.Offending.Value

namespace MiningQuery.Parse

variable {k : Fork}

/-! ## 1. Parts of a condition go forward -/

theorem negation_forward (levels : Nat) (attempting : Bool) :
    Forward (negation levels attempting) := .of_steady fun _ => negation_steady levels attempting

theorem grouped_forward (levels : Nat) : Forward (grouped (negation levels true)) :=
  .of_steady fun _ => grouped_steady (negation_steady levels true)

/-- What follows a value in parentheses shows the same in both lists, unless it is a `NOT` in
    common. -/
theorem continuesValue_same {mid : List Token}
    (h : ¬(mid = [] ∧ k.token.kind = .keyword .NOT)) :
    continuesValue (mid ++ k.first) = continuesValue (mid ++ k.second) := by
  cases mid with
  | nil =>
    have hnot : kindOf k.second ≠ .keyword .NOT := fun e => h ⟨rfl, e⟩
    have hsame : kindOf k.first = kindOf k.second := rfl
    simp only [continuesValue, List.nil_append, hsame, hnot, decide_false, Bool.false_and]
  | cons t mid =>
    simp only [continuesValue, List.cons_append, kindOf_cons, List.tail_cons, k.kindOf_same mid]
    rfl

section Group

variable {n : Nat} {o : Token} {ts : List Token}

/-- A simple condition that opens with a parenthesis is read behind it. -/
theorem simple_group_within (ho : o.kind = .symbol .openParen) (n : Nat) (ts : List Token) :
    Within ts (simple (n + 1) (o :: ts)) :=
  (expr_group_within ho n ts).bind fun x rest =>
    (Forward.of_steady fun _ => simpleTail_steady (expr_steady (n + 1)) x) rest

theorem negation_group_within (ho : o.kind = .symbol .openParen) (n : Nat) (attempting : Bool)
    (ts : List Token) : Within ts (negation (n + 1) attempting (o :: ts)) := by
  have hgrouped := grouped_forward n ts
  cases h : grouped (negation n true) ts with
  | ok p =>
    cases hcontinues : continuesValue p.2 with
    | true => exact negation_value ho h hcontinues ▸ simple_group_within ho n ts
    | false =>
      rw [negation_group ho h hcontinues]
      exact .of_ok (hgrouped.value h)
  | error f =>
    cases hfatal : f.fatal || attempting with
    | true =>
      rw [negation_failed ho h hfatal]
      exact .of_error (hgrouped.failure h)
    | false =>
      obtain ⟨hnot, rfl⟩ := Bool.or_eq_false_iff.mp hfatal
      exact negation_given_up ho h hnot ▸ simple_group_within ho n ts

end Group

/-! ## 2. Level by level -/

/-- **Parts of a condition settle each other if those do that open with a parenthesis**, level by
    level. -/
theorem negation_settles_of_groups {Excuse : Cause → Prop} {Halt : Failure → Prop} {Astray : Prop}
    {attempting : Bool} (Starts : List Token → Prop)
    (hminus : ∀ cause, LoneMinus k.token cause → Excuse cause)
    (hhalt : ∀ f : Failure, f.fatal = true → Halt f)
    (hnegated : ∀ {o mid}, Starts (o :: mid) → o.kind = .keyword .NOT → Starts mid)
    (hgroup : ∀ {n n' o mid}, (∀ n' mid, Starts mid → Settles k Excuse Halt Astray
        (negation n attempting (mid ++ k.first)) (negation n' attempting (mid ++ k.second))) →
      Starts (o :: mid) → o.kind = .symbol .openParen → Settles k Excuse Halt Astray
        (negation (n + 1) attempting (o :: mid ++ k.first))
        (negation (n' + 1) attempting (o :: mid ++ k.second)))
    (levels levels' : Nat) {mid : List Token} (hmid : Starts mid) :
    Settles k Excuse Halt Astray (negation levels attempting (mid ++ k.first))
      (negation levels' attempting (mid ++ k.second)) := by
  induction levels using Nat.strongRecOn generalizing levels' mid with
  | ind levels ih =>
    by_cases hnot : kindOf (mid ++ k.first) = .keyword .NOT
    · have hnot' := k.kindOf_same mid ▸ hnot
      cases levels with
      | zero =>
        rw [negation_zero_not hnot]
        exact .error_of_ne fun _ => rfl
      | succ n =>
        rw [negation_not hnot]
        cases mid with
        | nil => exact .past ((negation_forward n attempting).map k.left)
        | cons o mid =>
          cases levels' with
          | zero => exact negation_zero_not hnot' ▸ .halted (hhalt _ rfl)
          | succ n' =>
            rw [negation_not hnot']
            exact (ih n (Nat.lt_succ_self n) n' (hnegated hmid hnot)).map
    by_cases hopen : kindOf (mid ++ k.first) = .symbol .openParen
    · cases mid with
      | nil =>
        -- The token in common is the parenthesis.
        cases levels with
        | zero => exact (negation_zero_group hopen _ _ ▸ .error_of_ne fun _ => rfl)
        | succ n => exact .past (negation_group_within hopen n attempting k.left)
      | cons o mid =>
        cases levels with
        | zero =>
          have hread := negation_zero_group hopen attempting (mid ++ k.first)
          exact hread ▸ .error_of_ne fun _ => rfl
        | succ n =>
          cases levels' with
          | zero =>
            have hread := negation_zero_group hopen attempting (mid ++ k.second)
            exact hread ▸ .halted (hhalt _ rfl)
          | succ n' =>
            exact hgroup (fun n' mid hmid => ih n (Nat.lt_succ_self n) n' hmid) hmid hopen
    · rw [negation_simple _ _ hnot hopen, negation_simple _ _ (k.kindOf_same mid ▸ hnot)
        (k.kindOf_same mid ▸ hopen)]
      exact (simple_local levels levels' mid).mono hminus hhalt False.elim

/-! ## 3. Under an attempt -/

section Attempt

variable {levels n n' : Nat} {o : Token} {mid mid' : List Token} {x : Expr} {q : Predicate}

/-- Where a value goes on behind its parenthesis both lists are read as simple conditions. -/
theorem simple_continues {c : Token} {rest : List Token} (ho : o.kind = .symbol .openParen)
    (h : expr n (mid ++ k.first) = .ok (x, c :: rest)) (hc : c.kind = .symbol .closeParen)
    (hcontinues : continuesValue rest = true) (attempting : Bool) :
    Settles k (LoneMinus k.token) (fun f => f.fatal = true) False
      (simple (n + 1) (o :: mid ++ k.first))
      (negation (n' + 1) attempting (o :: mid ++ k.second)) := by
  have htail : ∀ y us, Within us (simpleTail (expr (n + 1)) y us) := fun y us =>
    (Forward.of_steady fun _ => simpleTail_steady (expr_steady (n + 1)) y) us
  have hsimple : simple (n + 1) (o :: mid ++ k.first) =
      exprRest (factor (n + 1)) (.paren x) rest >>= fun p => simpleTail (expr (n + 1)) p.1 p.2 := by
    show expr (n + 1) (o :: (mid ++ k.first)) >>= _ = _
    rw [expr_group_closed ho h hc]
  have hsuffix := (List.suffix_cons c rest).trans ((expr_forward n _).value h)
  rcases k.suffix_cases mid hsuffix with ⟨-, behind, -, rfl⟩ | hpast
  · by_cases hnot : behind = [] ∧ k.token.kind = .keyword .NOT
    · obtain ⟨rfl, hnot⟩ := hnot
      have hnot : kindOf k.first = .keyword .NOT := hnot
      have hstop : exprRest (factor (n + 1)) (.paren x) k.first = .ok (.paren x, k.first) :=
        exprRest_stop _ (by rw [hnot]; rfl) (by rw [hnot]; rfl)
      have hpast : Within k.left (simpleTail (expr (n + 1)) (.paren x) k.first) :=
        simpleTail_not_within (fun _ => expr_steady (n + 1)) _ hnot
      rw [hsimple, List.nil_append, hstop]
      exact .past hpast
    · rcases grouped_of_value h hc n' with ⟨p, hp⟩ | ⟨f, hf, hfatal⟩
      · have hcontinues' := (continuesValue_same hnot).symm.trans hcontinues
        have hread : negation (n' + 1) attempting (o :: mid ++ k.second) =
            simple (n' + 1) (o :: mid ++ k.second) := negation_value ho hp hcontinues'
        rw [hread]
        exact simple_local (n + 1) (n' + 1) (o :: mid)
      · have hread : negation (n' + 1) attempting (o :: mid ++ k.second) = .error f :=
          negation_failed ho hf (by simp [hfatal])
        rw [hread]
        exact .halted hfatal
  · rw [hsimple]
    exact .past (((exprRest_forward (factor_forward _) _ rest).after hpast).bind htail)

/-- Where a value in parentheses is read, the attempt before it on the same list came to the same
    end. -/
theorem grouped_of_value_self {ts : List Token} {c : Token} {rest : List Token}
    (h : expr n ts = .ok (x, c :: rest)) (hc : c.kind = .symbol .closeParen) (n' : Nat) :
    Reaches (grouped (negation n' true) ts) rest := by
  obtain ⟨us, rfl⟩ := (expr_forward n ts).value h
  let k : Fork := ⟨c, rest, rest⟩
  have hvalue : expr n (us ++ k.first) = .ok (x, [] ++ k.first) := h
  have hpart := negation_of_value hvalue (showsCondition_closeParen hc) n'
  exact grouped_reaches (conditionOf_reaches hpart (showsCondition_closeParen hc)) hc

/-- What an attempt came to is where the value in parentheses ends, if one is read. -/
theorem rest_of_value {ts us rest : List Token} {x : Expr} {c : Token} {p : Predicate}
    (hgrouped : grouped (negation n true) ts = .ok (p, rest))
    (hx : expr n ts = .ok (x, c :: us)) (hc : c.kind = .symbol .closeParen) : us = rest := by
  rcases grouped_of_value_self hx hc n with ⟨p', hp'⟩ | ⟨f, hf, -⟩
  · exact (Prod.mk.inj (Except.ok.inj (hp'.symm.trans hgrouped))).2
  · cases hf.symm.trans hgrouped

/-- Parts of a condition are read alike under attempts. A `NOT` in common may belong to what is said
    of a value in parentheses, if the other list goes on so. -/
def AttemptsSettle (k : Fork) (n n' : Nat) : Prop :=
  ∀ mid, Settles k (fun _ => True) (fun f => f.fatal = true) (k.token.kind = .keyword .NOT)
    (negation n true (mid ++ k.first)) (negation n' true (mid ++ k.second))

theorem AttemptsSettle.conditionOf (h : AttemptsSettle k n n') (mid : List Token) :
    Settles k (fun _ => True) (fun f => f.fatal = true) (k.token.kind = .keyword .NOT)
      (conditionOf (negation n true) (mid ++ k.first))
      (conditionOf (negation n' true) (mid ++ k.second)) := by
  have hinner : ChainSettles k (fun _ => True) (fun f => f.fatal = true)
      (k.token.kind = .keyword .NOT) conjunctive? (negation n true) (negation n' true)
      fun _ => True :=
    { forward := negation_forward n true
      settles := fun mid _ => h mid
      next := fun _ _ _ => trivial
      astray := fun hnot => by rw [hnot]; rfl }
  have houter : ChainSettles k (fun _ => True) (fun f => f.fatal = true)
      (k.token.kind = .keyword .NOT) disjunctive? (chain conjunctive? .logical (negation n true))
      (chain conjunctive? .logical (negation n' true)) fun _ => True :=
    { forward := (negation_forward n true).chain
      settles := fun mid _ => hinner.chain trivial
      next := fun _ _ _ => trivial
      astray := fun hnot => by rw [hnot]; rfl }
  exact houter.chain trivial

/-- An attempt at a condition in parentheses that comes to its end before the token in common or at
    it. -/
theorem AttemptsSettle.grouped (h : AttemptsSettle k n n')
    (hread : grouped (negation n true) (mid ++ k.first) = .ok (q, mid' ++ k.first)) :
    grouped (negation n' true) (mid ++ k.second) = .ok (q, mid' ++ k.second) ∨
      ∃ f, grouped (negation n' true) (mid ++ k.second) = .error f ∧ f.fatal = true := by
  obtain ⟨c, hp, hkind⟩ := grouped_eq_ok.mp hread
  have hp : Parse.conditionOf (negation n true) (mid ++ k.first) =
      .ok (q, (c :: mid') ++ k.first) := hp
  rcases (h.conditionOf mid).value hp with hok | ⟨f, hf, hfatal⟩ | ⟨hnil, -⟩
  · exact .inl (grouped_eq_ok.mpr ⟨c, hok, hkind⟩)
  · exact .inr ⟨f, grouped_failed hf, hfatal⟩
  · cases hnil

/-- What the first list reads as a condition in parentheses the second reads as the same, if it is
    not halted. A `NOT` in common may make it go on with a value there. -/
theorem paren_settles {Excuse : Cause → Prop} {Halt : Failure → Prop} {Astray : Prop}
    {attempting : Bool} {p : Predicate} {rest : List Token} (ho : o.kind = .symbol .openParen)
    (hattempts : AttemptsSettle k n n') (hhalt : ∀ f : Failure, f.fatal = true → Halt f)
    (hgrouped : grouped (negation n true) (mid ++ k.first) = .ok (p, rest))
    (hcontinues : continuesValue rest = false)
    (hgone : k.token.kind = .keyword .NOT →
      Parse.grouped (negation n' true) (mid ++ k.second) = .ok (p, k.second) →
      continuesValue k.second = true → Settles k Excuse Halt Astray (.ok (.paren p, k.first))
        (negation (n' + 1) attempting (o :: mid ++ k.second))) :
    Settles k Excuse Halt Astray (negation (n + 1) attempting (o :: mid ++ k.first))
      (negation (n' + 1) attempting (o :: mid ++ k.second)) := by
  have hread : negation (n + 1) attempting (o :: mid ++ k.first) = .ok (.paren p, rest) :=
    negation_group ho hgrouped hcontinues
  rw [hread]
  rcases k.suffix_cases mid ((grouped_forward n _).value hgrouped) with ⟨-, mid', -, rfl⟩ | hpast
  · rcases hattempts.grouped hgrouped with hok | ⟨f, hf, hfatal⟩
    · cases hcontinues' : continuesValue (mid' ++ k.second) with
      | false =>
        have hread' : negation (n' + 1) attempting (o :: mid ++ k.second) =
            .ok (.paren p, mid' ++ k.second) := negation_group ho hok hcontinues'
        exact hread' ▸ .ok _ mid'
      | true =>
        -- Only a `NOT` in common can go on with the value in one list and not in the other.
        have hnot : mid' = [] ∧ k.token.kind = .keyword .NOT := by
          by_contra hne
          cases hcontinues.symm.trans ((continuesValue_same hne).trans hcontinues')
        obtain ⟨rfl, hnot⟩ := hnot
        exact hgone hnot hok hcontinues'
    · have hread' : negation (n' + 1) attempting (o :: mid ++ k.second) = .error f :=
        negation_failed ho hf (by simp [hfatal])
      exact hread' ▸ .halted (hhalt f hfatal)
  · exact .past (.of_ok hpast)

/-- **Parts of a condition settle each other under attempts.** -/
theorem attempts_settle (k : Fork) (n n' : Nat) : AttemptsSettle k n n' := by
  intro mid
  refine negation_settles_of_groups (fun _ => True) (fun _ _ => trivial) (fun _ => id)
    (fun _ _ => trivial) (fun {n n' o mid} ih _ ho => ?_) n n' trivial
  have hattempts : AttemptsSettle k n n' := fun mid => ih n' mid trivial
  cases hgrouped : grouped (negation n true) (mid ++ k.first) with
  | error f =>
    have hread : negation (n + 1) true (o :: mid ++ k.first) = .error f :=
      negation_failed ho hgrouped (by simp)
    exact hread ▸ .excused trivial
  | ok r =>
    obtain ⟨p, rest⟩ := r
    cases hcontinues : continuesValue rest with
    | true =>
      have hread : negation (n + 1) true (o :: mid ++ k.first) =
          simple (n + 1) (o :: (mid ++ k.first)) := negation_value ho hgrouped hcontinues
      rw [hread]
      rcases expr_group ho n (mid ++ k.first) with ⟨f, -, he⟩ | ⟨x, us, -, -, he⟩ |
        ⟨x, c, us, hx, hc, -⟩
      · exact simple_of_error he ▸ .excused trivial
      · exact simple_of_error he ▸ .excused trivial
      · obtain rfl := rest_of_value hgrouped hx hc
        exact (simple_continues ho hx hc hcontinues true).mono (fun _ _ => trivial) (fun _ => id)
          False.elim
    | false =>
      exact paren_settles ho hattempts (fun _ => id) hgrouped hcontinues fun hnot _ _ =>
        .gone hnot _

end Attempt

/-! ## 4. Without an attempt -/

section Part

variable {before pre mid : List Token} {o : Token} {n n' : Nat}

/-- Some last of the tokens before the one in common: a part of a condition may begin with them. -/
def StartsAt (before mid : List Token) : Prop := ∃ pre, before = pre ++ mid ∧ PartStarts pre

/-- The parts settle each other, but for excused tokens; a value in parentheses that was taken for a
    condition may turn out one in the other list. -/
abbrev PartsSettle {α : Type} (k : Fork) (before : List Token)
    (o o' : Except Failure (α × List Token)) : Prop :=
  Settles k (Excused before k.token) (fun _ => True) (NotBehindValue before k.token) o o'

/-- Where the attempt of the second list fails, it is read as a simple condition or is halted. -/
theorem settles_of_failed_attempt {f : Failure} (ho : o.kind = .symbol .openParen)
    (h : grouped (negation n' true) (mid ++ k.second) = .error f) :
    PartsSettle k before (simple (n + 1) (o :: mid ++ k.first))
      (negation (n' + 1) false (o :: mid ++ k.second)) := by
  cases hfatal : f.fatal with
  | true =>
    have hread : negation (n' + 1) false (o :: mid ++ k.second) = .error f :=
      negation_failed ho h (by simp [hfatal])
    exact hread ▸ .halted trivial
  | false =>
    have hread : negation (n' + 1) false (o :: mid ++ k.second) =
        simple (n' + 1) (o :: mid ++ k.second) := negation_given_up ho h hfatal
    rw [hread]
    refine (simple_local (n + 1) (n' + 1) (o :: mid)).mono ?_ (fun _ _ => trivial) False.elim
    rintro cause ⟨hminus, rfl⟩
    exact .sign hminus

/-- **A parenthesis that the first list reads as that of a value**: the second reads it so as well,
    or fails, or the token in common is excused. -/
theorem simple_settles (hbefore : before = pre ++ o :: mid) (hpre : PartStarts pre)
    (ho : o.kind = .symbol .openParen)
    (hvalue : ∀ {x c rest}, expr n (mid ++ k.first) = .ok (x, c :: rest) →
      c.kind = .symbol .closeParen → continuesValue rest = true) :
    PartsSettle k before (simple (n + 1) (o :: mid ++ k.first))
      (negation (n' + 1) false (o :: mid ++ k.second)) := by
  rcases expr_group ho n (mid ++ k.first) with ⟨f, hf, he⟩ | ⟨x, rest, hx, hclose, he⟩ |
    ⟨x, c, rest, hx, hc, -⟩
  · -- The value inside is not read.
    have hread : simple (n + 1) (o :: mid ++ k.first) = .error f := simple_of_error he
    by_cases hoffends : f.rest = k.first ∧ f.cause.offends = true
    · obtain ⟨rest, cause⟩ := f
      obtain ⟨rfl, hcause⟩ := hoffends
      rcases negation_fails hbefore hpre ho hcause hf n' with ⟨f', hf'⟩ | hexcused
      · exact settles_of_failed_attempt ho (grouped_failed (conditionOf_failed hf'))
      · exact hread ▸ .excused hexcused
    · rw [hread]
      exact .error_of_ne fun hrest => Bool.eq_false_iff.mpr fun hcause => hoffends ⟨hrest, hcause⟩
  · -- The value inside is not closed.
    have hread : simple (n + 1) (o :: mid ++ k.first) =
        .error ⟨rest, .mismatched [TokenKind.name (.symbol .closeParen)]⟩ := simple_of_error he
    by_cases hrest : rest = k.first
    · subst hrest
      cases hshows : showsCondition k.token.kind with
      | true => exact hread ▸ .excused (.condition hbefore hpre ho ⟨n, x, _, hx⟩ hshows)
      | false =>
        have hx : expr n (mid ++ k.first) = .ok (x, [] ++ k.first) := hx
        have hpart := conditionOf_reaches (negation_of_value hx hshows n') hshows
        obtain ⟨f, hf⟩ := grouped_unclosed hpart hclose
        exact settles_of_failed_attempt ho hf
    · rw [hread]
      exact .error_of_ne fun e => absurd e hrest
  · refine (simple_continues ho hx hc (hvalue hx hc) false).mono ?_ (fun _ _ => trivial) False.elim
    rintro cause ⟨hminus, rfl⟩
    exact .sign hminus

/-- A condition in parentheses right before a `NOT` that the second list reads as a value. -/
theorem notBehindValue {p q : Predicate} {rest : List Token} (hbefore : before = pre ++ o :: mid)
    (hpre : PartStarts pre) (ho : o.kind = .symbol .openParen)
    (hnot : k.token.kind = .keyword .NOT)
    (hgrouped : grouped (negation n' true) (mid ++ k.second) = .ok (p, k.second))
    (hsimple : simple (n' + 1) (o :: mid ++ k.second) = .ok (q, rest)) :
    NotBehindValue before k.token := by
  rcases expr_group ho n' (mid ++ k.second) with ⟨f, -, he⟩ | ⟨x, us, -, -, he⟩ |
    ⟨x, c, us, hx, hc, -⟩
  · cases (simple_of_error he).symm.trans hsimple
  · cases (simple_of_error he).symm.trans hsimple
  · obtain rfl := rest_of_value hgrouped hx hc
    obtain ⟨value, hvalue⟩ := (expr_forward n' _).value hx
    have hmid : mid = value ++ [c] := by
      refine (List.append_left_inj k.second).mp ?_
      rw [← hvalue]
      simp
    rw [hmid, List.append_assoc] at hx
    exact ⟨hnot, pre, o, value, c, hmid ▸ hbefore, hpre, ho, ⟨n', x, _, hx⟩, hc⟩

/-- **Parts of a condition settle each other**, but for excused tokens. -/
theorem negation_settles (k : Fork) (levels levels' : Nat) (hmid : StartsAt before mid) :
    PartsSettle k before (negation levels false (mid ++ k.first))
      (negation levels' false (mid ++ k.second)) := by
  refine negation_settles_of_groups (StartsAt before) ?_ (fun _ _ => trivial) ?_ ?_ levels levels'
    hmid
  · rintro cause ⟨hminus, rfl⟩
    exact .sign hminus
  · rintro o mid ⟨pre, hbefore, hpre⟩ hnot
    exact ⟨pre ++ [o], by simp [hbefore], hpre.negated hnot⟩
  · rintro n n' o mid - ⟨pre, hbefore, hpre⟩ ho
    cases hgrouped : grouped (negation n true) (mid ++ k.first) with
    | error f =>
      cases hfatal : f.fatal with
      | true =>
        have hread : negation (n + 1) false (o :: mid ++ k.first) = .error f :=
          negation_failed ho hgrouped (by simp [hfatal])
        exact hread ▸ .error_of_ne fun _ => f.offends_of_fatal hfatal
      | false =>
        have hread : negation (n + 1) false (o :: mid ++ k.first) =
            simple (n + 1) (o :: mid ++ k.first) := negation_given_up ho hgrouped hfatal
        refine hread ▸ simple_settles hbefore hpre ho fun hx hc => ?_
        rcases grouped_of_value_self hx hc n with ⟨p, hp⟩ | ⟨f', hf', hfatal'⟩
        · cases hp.symm.trans hgrouped
        · cases hf'.symm.trans hgrouped
          cases hfatal.symm.trans hfatal'
    | ok r =>
      obtain ⟨p, rest⟩ := r
      cases hcontinues : continuesValue rest with
      | true =>
        have hread : negation (n + 1) false (o :: mid ++ k.first) =
            simple (n + 1) (o :: mid ++ k.first) := negation_value ho hgrouped hcontinues
        refine hread ▸ simple_settles hbefore hpre ho fun hx hc => ?_
        rw [rest_of_value hgrouped hx hc]
        exact hcontinues
      | false =>
        refine paren_settles ho (attempts_settle k n n') (fun _ _ => trivial) hgrouped hcontinues
          fun hnot hok hcontinues' => ?_
        have hread : negation (n' + 1) false (o :: mid ++ k.second) =
            simple (n' + 1) (o :: mid ++ k.second) := negation_value ho hok hcontinues'
        rw [hread]
        cases hsimple : simple (n' + 1) (o :: mid ++ k.second) with
        | error f => exact .halted trivial
        | ok q => exact .gone (notBehindValue hbefore hpre ho hnot hok hsimple) _

/-- Behind a part and a connective a part may begin. -/
theorem StartsAt.behind {us rest : List Token} (h : StartsAt before mid)
    (hsuffix : o :: (us ++ rest) <:+ mid ++ rest)
    (hpart : ∀ {pre vs}, PartStarts pre → mid = vs ++ o :: us → PartStarts (pre ++ vs ++ [o])) :
    StartsAt before us := by
  obtain ⟨pre, rfl, hpre⟩ := h
  obtain ⟨vs, hvs⟩ := hsuffix
  have hmid : mid = vs ++ o :: us := by
    refine (List.append_left_inj rest).mp ?_
    rw [← hvs]
    simp
  exact ⟨pre ++ vs ++ [o], by simp [hmid], hpart hpre hmid⟩

/-- **Conditions settle each other**, but for excused tokens. -/
theorem condition_settles (k : Fork) (levels levels' : Nat) (hmid : StartsAt before mid) :
    PartsSettle k before (condition levels (mid ++ k.first))
      (condition levels' (mid ++ k.second)) := by
  have hinner : ChainSettles k (Excused before k.token) (fun _ => True)
      (NotBehindValue before k.token) conjunctive? (negation levels false) (negation levels' false)
      (StartsAt before) :=
    { forward := negation_forward levels false
      settles := fun mid => negation_settles k levels levels'
      next := by
        intro mid o us p hmid hread hop
        obtain ⟨op, hop⟩ := Option.isSome_iff_exists.mp hop
        obtain ⟨rfl, ho⟩ := conjunctive_eq_some.mp hop
        refine hmid.behind ((negation_forward levels false _).value hread) ?_
        rintro pre vs ⟨lead, w, items, rfl, hw, hitems⟩ rfl
        rw [List.append_assoc] at hread
        exact ⟨lead, w, items ++ vs ++ [o], by simp, hw,
          hitems.conjoined hread ho⟩
      astray := fun hnot => by rw [hnot.1]; rfl }
  have houter : ChainSettles k (Excused before k.token) (fun _ => True)
      (NotBehindValue before k.token) disjunctive?
      (chain conjunctive? .logical (negation levels false))
      (chain conjunctive? .logical (negation levels' false)) (StartsAt before) :=
    { forward := (negation_forward levels false).chain
      settles := fun mid hmid => hinner.chain hmid
      next := by
        intro mid o us p hmid hread hop
        obtain ⟨op, hop⟩ := Option.isSome_iff_exists.mp hop
        obtain ⟨rfl, ho⟩ := disjunctive_eq_some.mp hop
        refine hmid.behind ((negation_forward levels false).chain _ |>.value hread) ?_
        rintro pre vs ⟨lead, w, items, rfl, hw, hitems⟩ rfl
        rw [List.append_assoc] at hread
        exact ⟨lead, w, items ++ vs ++ [o], by simp, hw,
          hitems.disjoined hread ho⟩
      astray := fun hnot => by rw [hnot.1]; rfl }
  exact houter.chain hmid

end Part

end MiningQuery.Parse
