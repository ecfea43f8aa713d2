/-
  File:      MiningQuery/Proofs/Offending/Clause.lean
  Subject:   Clauses are read alike up to a token in common, but for excused tokens.

  Only the condition has attempts, and only the label of a mining directive looks past the token
  that it takes; every other rule looks at one token at a time.

  * `OneToken.local` does for the rules of one token;
  * **`mineDirective_settles`** -- mining directives, whose label may be the token in common;
  * **`Clause.content_settles`** -- every clause.
-/
import MiningQuery.Proofs.Offending.Condition

namespace MiningQuery

namespace Parse

variable {k : Fork}

/-! ## 1. Names, tables and measures -/

section Leaves

variable {Excuse : Cause → Prop} {Halt : Failure → Prop}

theorem attributeRef_local : Local k Excuse Halt attributeRef attributeRef := by
  intro mid
  unfold attributeRef
  rw [← k.kindOf_same mid]
  split
  · cases mid with
    | nil => exact .past (.of_ok (List.suffix_refl _))
    | cons t mid => exact .ok _ mid
  · exact columnRef_local.map mid
  · exact .error

/-- The second name of a table, where no `AS` stands before it. -/
def secondName (table : Text) : Parse TableRef := fun ts =>
  match ts with
  | t :: rest => .ok (if t.kind = .identifier then (⟨table, some t.text⟩, rest)
                      else (⟨table, none⟩, ts))
  | [] => .ok (⟨table, none⟩, ts)

theorem secondName_one (table : Text) : OneToken (secondName table) := by
  intro t
  by_cases hk : t.kind = .identifier
  · exact .inl ⟨⟨table, some t.text⟩, fun ts => by simp [secondName, hk]⟩
  · exact .inr (.inl ⟨⟨table, none⟩, fun ts => by simp [secondName, hk]⟩)

theorem secondName_forward (table : Text) : Forward (secondName table) := by
  intro ts
  cases ts with
  | nil => exact .of_ok (List.suffix_refl _)
  | cons t ts =>
    unfold secondName
    by_cases hk : t.kind = .identifier
    · simp only [hk, if_true]
      exact .of_ok (List.suffix_cons t ts)
    · simp only [hk, if_false]
      exact .of_ok (List.suffix_refl _)

/-- What follows the name of a table. -/
def tableRest (table : Text) : Parse TableRef := do
  if ← accept (.keyword .AS) then
    return ⟨table, some (← name)⟩
  else
    secondName table

theorem tableRef_local : Local k Excuse Halt tableRef tableRef := by
  have hforward : ∀ table, Forward (tableRest table) := by
    intro table
    refine (accept_forward _).bind fun renamed => ?_
    cases renamed with
    | false => exact secondName_forward table
    | true => exact name_forward.returning _
  have hlocal : ∀ table, Local k Excuse Halt (tableRest table) (tableRest table) := by
    intro table
    refine (accept_local _).bind (fun renamed => ?_) fun renamed => ?_
    · cases renamed with
      | false => exact secondName_forward table
      | true => exact name_forward.returning _
    · cases renamed with
      | false => exact (secondName_one table).local
      | true => exact name_local.returning _
  exact name_local.bind hforward hlocal

theorem orderItem_local : Local k Excuse Halt orderItem orderItem := by
  have hforward : ∀ (column : ColumnRef) (descending : Bool),
      Forward (if descending then return ⟨column, .descending⟩ else do
        let _ ← accept (.keyword .ASC)
        return ⟨column, .ascending⟩ : Parse OrderItem) := by
    intro column descending
    cases descending with
    | false => exact (accept_forward _).returning _
    | true => exact .pure _
  refine columnRef_local.bind (fun column => (accept_forward _).bind (hforward column))
    fun column => ?_
  refine (accept_local _).bind (hforward column) fun descending => ?_
  cases descending with
  | false => exact (accept_local _).returning _
  | true => exact .pure _

theorem measureName_one : OneToken measureName := by
  intro t
  by_cases hk : t.kind = .identifier ∧ measureNames.contains (Text.lower t.text)
  · exact .inl ⟨Text.lower t.text, fun ts => if_pos hk⟩
  · exact .inr (.inr ⟨.mismatched measureNames, fun ts => if_neg hk⟩)

theorem measureSetting_local : Local k Excuse Halt measureSetting measureSetting := by
  have hnumber : ∀ measure : Text, Forward (do return MeasureSetting.mk measure (← number false)) :=
    fun measure => (number_forward false).returning _
  refine measureName_one.local.bind
    (fun measure => (expect_forward _).bind fun _ => hnumber measure) fun measure => ?_
  exact ((number_local false).returning _).behindToken _ (hnumber measure)

theorem clusters_one : OneToken clusters := by
  intro t
  rcases number_one false t with ⟨l, hl⟩ | ⟨l, hl⟩ | ⟨cause, hl⟩
  · cases l with
    | int => exact .inl ⟨_, fun ts => by simp only [clusters, hl]; rfl⟩
    | _ => exact .inr (.inr ⟨.mismatched [TokenKind.name .int], fun ts => by
        simp only [clusters, hl]; rfl⟩)
  · cases l with
    | int => exact .inr (.inl ⟨_, fun ts => by simp only [clusters, hl]; rfl⟩)
    | _ => exact .inr (.inr ⟨.mismatched [TokenKind.name .int], fun ts => by
        simp only [clusters, hl]; rfl⟩)
  · exact .inr (.inr ⟨cause, fun ts => by simp only [clusters, hl]; rfl⟩)

end Leaves

/-! ## 2. Mining directives -/

section Mining

variable {α : Type} {Excuse : Cause → Prop} {Halt : Failure → Prop} {r : Parse α} {label : Text}

theorem skipLabel_cons (label : Text) (r : Parse α) (t : Token) (ts : List Token) :
    (skipLabel label >>= fun _ => r) (t :: ts) =
      if t.kind = .identifier ∧ Text.upper t.text = label ∧ kindOf ts = .symbol .eq then r ts.tail
      else r (t :: ts) := by
  show (skipLabel label (t :: ts) >>= _) = _
  unfold skipLabel
  dsimp only
  split <;> rfl

theorem skipLabel_forward (label : Text) (hr : Forward r) :
    Forward (skipLabel label >>= fun _ => r) :=
  (Forward.of_steady fun _ => skipLabel_steady label).bind fun _ => hr

/-- A label is passed over in both lists or in neither, unless it is the token in common. -/
theorem skipLabel_settles (h : Local k Excuse Halt r r) (hr : Forward r) {mid : List Token}
    (hlabel : mid = [] → k.token.kind = .identifier → Text.upper k.token.text = label →
      ∀ o', Settles k Excuse Halt False (r k.first) o') :
    Settles k Excuse Halt False ((skipLabel label >>= fun _ => r) (mid ++ k.first))
      ((skipLabel label >>= fun _ => r) (mid ++ k.second)) := by
  cases mid with
  | nil =>
    show Settles k Excuse Halt False ((skipLabel label >>= fun _ => r) (k.token :: k.left)) _
    rw [skipLabel_cons]
    split
    · exact .past ((hr k.left.tail).after (List.tail_suffix k.left))
    · by_cases hname : k.token.kind = .identifier ∧ Text.upper k.token.text = label
      · exact hlabel rfl hname.1 hname.2 _
      · have hread : (skipLabel label >>= fun _ => r) ([] ++ k.second) = r k.second := by
          show (skipLabel label >>= fun _ => r) (k.token :: k.right) = _
          rw [skipLabel_cons]
          exact if_neg fun h => hname ⟨h.1, h.2.1⟩
        rw [hread]
        exact h []
  | cons t mid =>
    rw [List.cons_append, List.cons_append, skipLabel_cons, skipLabel_cons, ← k.kindOf_same mid]
    split
    · exact h.behind hr mid
    · exact h (t :: mid)

/-- A mining directive behind its operation, which has a number of clusters. -/
def counted (operation : Keyword) : Parse MineDirective := do
  let l ← clusters
  return ⟨.keyword operation, some l, []⟩

/-- A mining directive behind its operation, which has a target column. -/
def targeted (operation : Keyword) : Parse MineDirective := do
  let target ← name
  return ⟨.keyword operation, none, target⟩

theorem counted_forward (operation : Keyword) : Forward (counted operation) :=
  (Forward.of_steady fun _ => clusters_steady).returning _

theorem targeted_forward (operation : Keyword) : Forward (targeted operation) :=
  name_forward.returning _

theorem counted_local (operation : Keyword) :
    Local k Excuse Halt (counted operation) (counted operation) :=
  clusters_one.local.returning _

theorem targeted_local (operation : Keyword) :
    Local k Excuse Halt (targeted operation) (targeted operation) :=
  name_local.returning _

/-- No number of clusters is a name. -/
theorem counted_identifier {t : Token} (h : t.kind = .identifier) (operation : Keyword)
    (ts : List Token) : counted operation (t :: ts) =
      .error ⟨t :: ts, .mismatched ([TokenKind.int, .float].map TokenKind.name)⟩ := by
  have hnumber : number false (t :: ts) = mismatch [.int, .float] (t :: ts) :=
    if_neg (by simp [h])
  have hclusters : clusters (t :: ts) = mismatch [.int, .float] (t :: ts) := by
    simp only [clusters, hnumber]
    rfl
  exact bind_of_error hclusters

/-- **Mining directives settle each other**, but for a label that no equals sign follows. -/
theorem mineDirective_settles {before pre mid : List Token} {w : Token}
    (hbefore : before = pre ++ w :: mid) :
    Settles k (Excused before k.token) Halt False (mineDirective (mid ++ k.first))
      (mineDirective (mid ++ k.second)) := by
  unfold mineDirective
  rw [← k.kindOf_same mid]
  cases mid with
  | nil =>
    -- The token in common is the operation.
    split
    · split
      · exact .past (skipLabel_forward _ (counted_forward _) k.left)
      · split
        · exact .past (.of_ok (List.suffix_refl _))
        · split
          · exact .past (skipLabel_forward _ (targeted_forward _) k.left)
          · exact .error
    · exact .error
  | cons o mid =>
    split
    · rename_i u hu
      split
      · refine skipLabel_settles (counted_local u) (counted_forward u) fun hmid hk hlabel o' => ?_
        subst hmid
        rename_i hcluster
        have hlast : before = (pre ++ [w]) ++ [o] := by simp [hbefore]
        rw [show counted u k.first = _ from counted_identifier hk u k.left]
        exact .excused (.label hlast (hcluster ▸ hu) hk hlabel)
      · split
        · exact .ok _ mid
        · split
          · refine skipLabel_settles (targeted_local u) (targeted_forward u) fun _ hk _ o' => ?_
            have hname : targeted u k.first = .ok (⟨.keyword u, none, k.token.text⟩, k.left) :=
              bind_of_ok (name_cons hk k.left)
            exact hname ▸ .past (.of_ok (List.suffix_refl _))
          · exact .error
    · exact .error

end Mining

end Parse

/-! ## 3. Every clause -/

open Parse (Fork Forward Local PartsSettle)

/-- **Every clause settles what it reads behind its keyword**, up to the token in common, but for
    excused tokens, whatever the limits of nesting. -/
theorem Clause.content_settles (k : Fork) (limit limit' : Nat) (clause : Clause)
    {before pre mid : List Token} {w : Token} (hbefore : before = pre ++ w :: mid)
    (hw : w.kind = .keyword clause.keyword) :
    PartsSettle k before (clause.content limit (mid ++ k.first))
      (clause.content limit' (mid ++ k.second)) := by
  -- A rule without a condition or a label has no excused tokens.
  have hplain : ∀ {r r' : Parse ClauseContent},
      Local k (Parse.Excused before k.token) (fun _ => True) r r' →
      PartsSettle k before (r (mid ++ k.first)) (r' (mid ++ k.second)) := fun h =>
    (h mid).mono (fun _ => id) (fun _ => id) False.elim
  have hattributes : Forward (Parse.commaList Parse.attributeRef) :=
    (Forward.of_steady fun _ => Parse.attributeRef_steady).commaList
  have hattributesLocal : Local k (Parse.Excused before k.token) (fun _ => True)
      (Parse.commaList Parse.attributeRef) (Parse.commaList Parse.attributeRef) :=
    Parse.attributeRef_local.commaList (.of_steady fun _ => Parse.attributeRef_steady)
  cases clause with
  | database =>
    exact hplain ((Parse.name_local.returning _).behindToken _ (Parse.name_forward.returning _))
  | relevance =>
    exact hplain ((hattributesLocal.returning _).behindToken _ (hattributes.returning _))
  | tables =>
    have hforward : Forward Parse.tableRef := .of_steady fun _ => Parse.tableRef_steady
    exact hplain ((Parse.tableRef_local.commaList hforward).returning _)
  | condition =>
    have hstarts : Parse.StartsAt before mid :=
      ⟨pre ++ [w], by simp [hbefore], pre, w, [], rfl, hw, .start⟩
    exact (Parse.condition_settles k limit limit' hstarts).map
  | grouping =>
    exact hplain ((hattributesLocal.returning _).behindToken _ (hattributes.returning _))
  | ordering =>
    have hforward : Forward Parse.orderItem := .of_steady fun _ => Parse.orderItem_steady
    exact hplain (((Parse.orderItem_local.commaList hforward).returning _).behindToken _
      (hforward.commaList.returning _))
  | mining =>
    have hmining : PartsSettle k before (Parse.mineDirective (mid ++ k.first))
        (Parse.mineDirective (mid ++ k.second)) :=
      (Parse.mineDirective_settles hbefore).mono (fun _ => id) (fun _ => id) False.elim
    exact hmining.map
  | measures =>
    have hforward : Forward Parse.measureSetting := .of_steady fun _ => Parse.measureSetting_steady
    exact hplain ((Parse.measureSetting_local.commaList hforward).returning _)
  | display =>
    exact hplain ((Parse.name_local.returning _).behindToken _ (Parse.name_forward.returning _))

end MiningQuery
