/-
  File:      MiningQuery/Proofs/Grammar/Clause.lean
  Subject:   What the tokens of a clause write, clause by clause.

  * `AttributeWritten`, `TableWritten`, `OrderWritten`, `MineWritten`, `MeasureWritten` -- the
    parts of clauses;
  * `Clause.Written` -- the tokens behind the keyword of a clause;
  * **`content_reads`** -- the reader of a clause reads exactly the written clauses.
-/
import MiningQuery.Grammar.Statement
import MiningQuery.Proofs.Grammar.Condition

namespace MiningQuery

namespace Parse

variable {α β : Type}

/-! ## 1. Readers put together -/

/-- What the tokens write, under a name. -/
def Image (f : α → β) (W : α → List Token → Prop) (y : β) (ts : List Token) : Prop :=
  ∃ x, W x ts ∧ f x = y

/-- The same behind a keyword. -/
def Behind (k : Keyword) (f : α → β) (W : α → List Token → Prop) (y : β) (ts : List Token) :
    Prop :=
  ∃ w us, ts = w :: us ∧ w.kind = .keyword k ∧ Image f W y us

section Combine

variable {r : Parse α} {W : α → List Token → Prop} {Stop : List Token → Prop}

theorem image_reads (h : Reads r W Stop) (f : α → β) :
    Reads (do return f (← r)) (Image f W) Stop where
  complete := by
    rintro _ ts rest ⟨x, hx, rfl⟩ hrest
    exact bind_of_ok (h.complete hx hrest)
  sound := by
    intro ts y rest hts hy
    obtain ⟨x, mid, hx, hpure⟩ := bind_eq_ok hy
    obtain ⟨rfl, rfl⟩ := pure_eq_ok hpure
    obtain ⟨read, e, hw⟩ := h.sound hts hx
    exact ⟨read, e, x, hw, rfl⟩

theorem behind_reads (h : Reads r W Stop) (k : Keyword) (f : α → β) :
    Reads (do let _ ← word k; return f (← r)) (Behind k f W) Stop where
  complete := by
    rintro y _ rest ⟨w, us, rfl, hw, hy⟩ hrest
    rw [List.cons_append, bind_of_ok (word_cons hw _)]
    exact (image_reads h f).complete hy hrest
  sound := by
    intro ts y rest hts hy
    obtain ⟨w, mid, hw, hread⟩ := bind_eq_ok hy
    obtain ⟨rfl, hk⟩ := expect_eq_ok hw
    obtain ⟨read, rfl, hx⟩ := (image_reads h f).sound (shaped_cons.mp hts).2 hread
    exact ⟨w :: read, rfl, w, read, rfl, hk, hx⟩

end Combine

/-! ## 2. Names, attributes, tables -/

/-- A token that is a name. -/
def IsName (t : Token) : Prop := t.kind = .identifier ∧ isName t.text = true

theorem isName_of_shaped {t : Token} (ht : t.IsShaped) (hk : t.kind = .identifier) : IsName t :=
  ⟨hk, by rw [isName, ← hk]; exact ht⟩

/-- The token writes the name. -/
def NameWritten (n : Text) (ts : List Token) : Prop := ∃ t, ts = [t] ∧ IsName t ∧ t.text = n

theorem name_reads : Reads name NameWritten (fun _ => True) where
  complete := by
    rintro _ _ rest ⟨t, rfl, ht, rfl⟩ -
    exact name_cons ht.1 rest
  sound := by
    intro ts n rest hts h
    obtain ⟨t, rfl, hk, rfl⟩ := name_eq_ok h
    exact ⟨[t], rfl, t, rfl, isName_of_shaped (shaped_cons.mp hts).1 hk, rfl⟩

/-- The tokens write a star or a column. -/
def AttributeWritten : Attribute → List Token → Prop
  | .all, ts => ∃ s, ts = [s] ∧ s.kind = .symbol .star
  | .column c, ts => ColumnWritten c ts

/-- A column starts with a name. -/
theorem ColumnWritten.head {c : ColumnRef} {ts : List Token} (h : ColumnWritten c ts) :
    ∃ t us, ts = t :: us ∧ t.kind = .identifier := by
  obtain ⟨-, hs⟩ := h
  obtain ⟨q, n⟩ := c
  cases q <;>
  · simp only [ColumnRef.lexemes, spells_cons, Lexeme.exact_spells] at hs
    obtain ⟨t, us, rfl, ⟨hk, -⟩, -⟩ := hs
    exact ⟨t, us, rfl, hk⟩

theorem attributeRef_reads :
    Reads attributeRef AttributeWritten (fun rest => kindOf rest ≠ .symbol .dot) where
  complete := by
    intro a ts rest h hrest
    cases a with
    | all =>
      obtain ⟨s, rfl, hs⟩ := h
      simp only [List.cons_append, List.nil_append, attributeRef, kindOf_cons, hs, List.tail_cons]
    | column c =>
      have hread := columnRef_reads.complete h hrest
      obtain ⟨t, us, rfl, hk⟩ := ColumnWritten.head h
      rw [List.cons_append] at hread ⊢
      simp only [attributeRef, kindOf_cons, hk]
      exact map_of_ok hread
  sound := by
    intro ts a rest hts h
    unfold attributeRef at h
    split at h
    · rename_i hk
      obtain ⟨s, us, rfl, hs⟩ := eq_cons_of_kindOf hk (by decide)
      cases h
      exact ⟨[s], rfl, s, rfl, hs⟩
    · obtain ⟨c, hc, rfl⟩ := map_eq_ok h
      exact columnRef_reads.sound hts hc
    · cases h

/-- The tokens write a table, with its second name if it has one. -/
inductive TableWritten : TableRef → List Token → Prop
  | plain {t : Token} : IsName t → TableWritten ⟨t.text, none⟩ [t]
  | renamed {t u : Token} : IsName t → IsName u → TableWritten ⟨t.text, some u.text⟩ [t, u]
  | renamedAs {t a u : Token} : IsName t → a.kind = .keyword .AS → IsName u →
      TableWritten ⟨t.text, some u.text⟩ [t, a, u]

theorem tableRef_reads :
    Reads tableRef TableWritten
      (fun rest => kindOf rest ≠ .keyword .AS ∧ kindOf rest ≠ .identifier) where
  complete := by
    intro r ts rest h hrest
    cases h with
    | @plain t ht =>
      rw [List.cons_append, List.nil_append, tableRef, bind_of_ok (name_cons ht.1 rest),
        bind_of_ok (accept_of_ne hrest.1)]
      obtain _ | ⟨u, us⟩ := rest
      · rfl
      · have hu : u.kind ≠ .identifier := hrest.2
        simp [hu]
    | @renamed t u ht hu =>
      have has : kindOf (u :: rest) ≠ .keyword .AS := by simp [hu.1]
      simp only [List.cons_append, List.nil_append]
      rw [tableRef, bind_of_ok (name_cons ht.1 _), bind_of_ok (accept_of_ne has)]
      simp [hu.1]
    | @renamedAs t a u ht ha hu =>
      simp only [List.cons_append, List.nil_append]
      rw [tableRef, bind_of_ok (name_cons ht.1 _), bind_of_ok (accept_cons ha _)]
      exact bind_of_ok (name_cons hu.1 rest)
  sound := by
    intro ts r rest hts h
    obtain ⟨n, mid, hn, h₁⟩ := bind_eq_ok h
    obtain ⟨t, rfl, hk, rfl⟩ := name_eq_ok hn
    obtain ⟨ht, hmid⟩ := shaped_cons.mp hts
    have htn := isName_of_shaped ht hk
    obtain ⟨b, mid', ha, h₂⟩ := bind_eq_ok h₁
    rcases accept_eq_ok ha with ⟨rfl, a, rfl, hka⟩ | ⟨rfl, rfl⟩
    · obtain ⟨m, mid'', hm, h₃⟩ := bind_eq_ok h₂
      obtain ⟨rfl, rfl⟩ := pure_eq_ok h₃
      obtain ⟨u, rfl, hu, rfl⟩ := name_eq_ok hm
      have hun := isName_of_shaped (shaped_cons.mp (shaped_cons.mp hmid).2).1 hu
      exact ⟨[t, a, u], rfl, .renamedAs htn hka hun⟩
    · simp only [Bool.false_eq_true, if_false] at h₂
      split at h₂
      · rename_i u us
        split at h₂
        · rename_i hu
          cases h₂
          exact ⟨[t, u], rfl, .renamed htn (isName_of_shaped (shaped_cons.mp hmid).1 hu)⟩
        · cases h₂
          exact ⟨[t], rfl, .plain htn⟩
      · cases h₂
        exact ⟨[t], rfl, .plain htn⟩

/-! ## 3. Columns to sort by -/

/-- The tokens write a column and a direction. -/
inductive OrderWritten : OrderItem → List Token → Prop
  | plain {c : ColumnRef} {ts : List Token} : ColumnWritten c ts → OrderWritten ⟨c, .ascending⟩ ts
  | ascending {c : ColumnRef} {ts : List Token} {d : Token} : ColumnWritten c ts →
      d.kind = .keyword .ASC → OrderWritten ⟨c, .ascending⟩ (ts ++ [d])
  | descending {c : ColumnRef} {ts : List Token} {d : Token} : ColumnWritten c ts →
      d.kind = .keyword .DESC → OrderWritten ⟨c, .descending⟩ (ts ++ [d])

theorem orderItem_reads :
    Reads orderItem OrderWritten
      (fun rest => kindOf rest ≠ .symbol .dot ∧ kindOf rest ≠ .keyword .DESC ∧
        kindOf rest ≠ .keyword .ASC) where
  complete := by
    intro item ts rest h hrest
    obtain ⟨hdot, hdesc, hasc⟩ := hrest
    cases h with
    | @plain c ts hc =>
      rw [orderItem, bind_of_ok (columnRef_reads.complete hc hdot),
        bind_of_ok (accept_of_ne hdesc)]
      exact bind_of_ok (accept_of_ne hasc)
    | @ascending c ts d hc hd =>
      have hdot' : kindOf (d :: rest) ≠ .symbol .dot := by simp [hd]
      have hdesc' : kindOf (d :: rest) ≠ .keyword .DESC := by simp [hd]
      rw [List.append_assoc, List.cons_append, List.nil_append, orderItem,
        bind_of_ok (columnRef_reads.complete hc hdot'), bind_of_ok (accept_of_ne hdesc')]
      exact bind_of_ok (accept_cons hd rest)
    | @descending c ts d hc hd =>
      have hdot' : kindOf (d :: rest) ≠ .symbol .dot := by simp [hd]
      rw [List.append_assoc, List.cons_append, List.nil_append, orderItem,
        bind_of_ok (columnRef_reads.complete hc hdot')]
      exact bind_of_ok (accept_cons hd rest)
  sound := by
    intro ts item rest hts h
    obtain ⟨c, mid, hc, h₁⟩ := bind_eq_ok h
    obtain ⟨read, rfl, hw⟩ := columnRef_reads.sound hts hc
    obtain ⟨b, mid', hd, h₂⟩ := bind_eq_ok h₁
    rcases accept_eq_ok hd with ⟨rfl, d, rfl, hk⟩ | ⟨rfl, rfl⟩
    · obtain ⟨rfl, rfl⟩ := pure_eq_ok h₂
      exact ⟨read ++ [d], by simp, .descending hw hk⟩
    · obtain ⟨b', mid'', ha, h₃⟩ := bind_eq_ok h₂
      obtain ⟨rfl, rfl⟩ := pure_eq_ok h₃
      rcases accept_eq_ok ha with ⟨-, d, rfl, hk⟩ | ⟨-, rfl⟩
      · exact ⟨read ++ [d], by simp, .ascending hw hk⟩
      · exact ⟨read, rfl, .plain hw⟩

/-! ## 4. Mining directives and measures -/

/-- Nothing, or a word in any letter case and an equals sign. -/
inductive LabelWritten (label : Text) : List Token → Prop
  | absent : LabelWritten label []
  | present {t e : Token} : t.kind = .identifier → Text.upper t.text = label →
      e.kind = .symbol .eq → LabelWritten label [t, e]

/-- A label is passed over, and nothing else is. -/
theorem skipLabel_complete {label : Text} {ls : List Token} {t : Token} {rest : List Token}
    (h : LabelWritten label ls) (ht : t.kind = .identifier → kindOf rest ≠ .symbol .eq) :
    skipLabel label (ls ++ t :: rest) = .ok ((), t :: rest) := by
  cases h with
  | absent =>
    have hno : ¬(t.kind = .identifier ∧ Text.upper t.text = label ∧
        kindOf rest = .symbol .eq) := fun h => ht h.1 h.2.2
    rw [List.nil_append, skipLabel, if_neg hno]
  | @present l e hk hl he =>
    simp only [List.cons_append, List.nil_append, skipLabel, hk, hl, kindOf_cons, he, and_self,
      if_true, List.tail_cons]

theorem skipLabel_sound {label : Text} {ts rest : List Token}
    (h : skipLabel label ts = .ok ((), rest)) :
    ∃ ls, ts = ls ++ rest ∧ LabelWritten label ls := by
  unfold skipLabel at h
  split at h
  · split at h
    · rename_i hl
      obtain ⟨hk, hl, he⟩ := hl
      obtain ⟨e, us, rfl, he⟩ := eq_cons_of_kindOf he (by decide)
      cases h
      exact ⟨_, rfl, .present hk hl he⟩
    · cases h
      exact ⟨[], rfl, .absent⟩
  · cases h
    exact ⟨[], rfl, .absent⟩

/-- What an integer token says is an integer. -/
theorem clusters_cons {t : Token} {l : Literal} (hk : t.kind = .int)
    (hl : numberLiteral false t = .ok l) (rest : List Token) :
    clusters (t :: rest) = .ok (l, rest) := by
  have hint : ∃ i, l = .int t.text i := by
    simp only [numberLiteral, hk, if_true, Bool.false_eq_true, if_false, List.nil_append] at hl
    split at hl
    · cases hl
      exact ⟨_, rfl⟩
    · cases hl
  obtain ⟨i, rfl⟩ := hint
  simp only [clusters, number_cons (.inl hk) hl, bind, Except.bind]

theorem clusters_eq_ok {ts rest : List Token} {l : Literal} (h : clusters ts = .ok (l, rest)) :
    ∃ t, ts = t :: rest ∧ t.kind = .int ∧ numberLiteral false t = .ok l := by
  obtain ⟨m, mid, hm, h₁⟩ := except_bind_eq_ok h
  obtain ⟨t, rfl, hk, hl⟩ := number_eq_ok hm
  cases m with
  | int =>
    cases h₁
    refine ⟨t, rfl, ?_, hl⟩
    rcases hk with hk | hk
    · exact hk
    · simp only [numberLiteral, hk, reduceCtorEq, if_false] at hl
      split at hl <;> cases hl
  | _ => cases h₁

/-- The tokens write a mining directive, with or without the label of what it needs. -/
inductive MineWritten : MineDirective → List Token → Prop
  | clusters {w t : Token} {ls : List Token} {l : Literal} : w.kind = .keyword .CLUSTER →
      LabelWritten (ascii "K") ls → t.kind = .int → numberLiteral false t = .ok l →
      MineWritten ⟨.keyword .CLUSTER, some l, []⟩ (w :: (ls ++ [t]))
  | plain {k : Keyword} {w : Token} : k ∈ plainOperations → w.kind = .keyword k →
      MineWritten ⟨.keyword k, none, []⟩ [w]
  | target {k : Keyword} {w t : Token} {ls : List Token} : k ∈ targetOperations →
      w.kind = .keyword k → LabelWritten (ascii "TARGET") ls → IsName t →
      MineWritten ⟨.keyword k, none, t.text⟩ (w :: (ls ++ [t]))

theorem mineDirective_reads :
    Reads mineDirective MineWritten (fun rest => kindOf rest ≠ .symbol .eq) where
  complete := by
    intro d ts rest h hrest
    cases h with
    | @clusters w t ls l hw hls ht hl =>
      have hskip : skipLabel (ascii "K") (ls ++ t :: rest) = .ok ((), t :: rest) :=
        skipLabel_complete hls (by simp [ht])
      simp only [List.cons_append, List.append_assoc, List.nil_append, mineDirective,
        kindOf_cons, hw, if_true, List.tail_cons]
      rw [bind_of_ok hskip]
      exact bind_of_ok (clusters_cons ht hl rest)
    | @plain k w hk hw =>
      have hne : k ≠ .CLUSTER := by
        intro h
        subst h
        exact absurd hk (by decide)
      simp only [List.cons_append, List.nil_append, mineDirective, kindOf_cons, hw, hne, hk,
        if_false, if_true, List.tail_cons]
    | @target k w t ls hk hw hls ht =>
      have hne : k ≠ .CLUSTER := by
        intro h
        subst h
        exact absurd hk (by decide)
      have hplain : k ∉ plainOperations := by
        intro hp
        have hdisjoint : ∀ k ∈ targetOperations, k ∉ plainOperations := by decide
        exact hdisjoint k hk hp
      have hskip : skipLabel (ascii "TARGET") (ls ++ t :: rest) = .ok ((), t :: rest) :=
        skipLabel_complete hls fun _ => hrest
      simp only [List.cons_append, List.append_assoc, List.nil_append, mineDirective,
        kindOf_cons, hw, hne, hplain, hk, if_false, if_true, List.tail_cons]
      rw [bind_of_ok hskip]
      exact bind_of_ok (name_cons ht.1 rest)
  sound := by
    intro ts d rest hts h
    unfold mineDirective at h
    split at h
    · rename_i k hk
      obtain ⟨w, us, rfl, hw⟩ := eq_cons_of_kindOf hk (by simp)
      have hus := (shaped_cons.mp hts).2
      split at h
      · rename_i hcluster
        subst hcluster
        obtain ⟨_, mid, hskip, h₁⟩ := bind_eq_ok h
        obtain ⟨ls, rfl, hls⟩ := skipLabel_sound hskip
        obtain ⟨l, mid', hl, h₂⟩ := bind_eq_ok h₁
        obtain ⟨rfl, rfl⟩ := pure_eq_ok h₂
        obtain ⟨t, rfl, ht, hl⟩ := clusters_eq_ok hl
        exact ⟨w :: (ls ++ [t]), by simp, .clusters hw hls ht hl⟩
      · split at h
        · rename_i hplain
          cases h
          exact ⟨[w], rfl, .plain hplain hw⟩
        · split at h
          · rename_i htarget
            obtain ⟨_, mid, hskip, h₁⟩ := bind_eq_ok h
            obtain ⟨ls, rfl, hls⟩ := skipLabel_sound hskip
            obtain ⟨n, mid', hn, h₂⟩ := bind_eq_ok h₁
            obtain ⟨rfl, rfl⟩ := pure_eq_ok h₂
            obtain ⟨t, rfl, ht, rfl⟩ := name_eq_ok hn
            have htn := isName_of_shaped (shaped_cons.mp (shaped_append.mp hus).2).1 ht
            exact ⟨w :: (ls ++ [t]), by simp, .target htarget hw hls htn⟩
          · cases h
    · cases h

/-- The tokens write a measure and its number. -/
inductive MeasureWritten : MeasureSetting → List Token → Prop
  | mk {m e v : Token} {l : Literal} : m.kind = .identifier →
      Text.lower m.text ∈ measureNames → e.kind = .symbol .eq → v.kind = .int ∨ v.kind = .float →
      numberLiteral false v = .ok l → MeasureWritten ⟨Text.lower m.text, l⟩ [m, e, v]

theorem measureSetting_reads : Reads measureSetting MeasureWritten (fun _ => True) where
  complete := by
    intro s ts rest h _
    cases h with
    | @mk m e v l hm hname he hv hl =>
      have hread : measureName (m :: e :: v :: rest) = .ok (Text.lower m.text, e :: v :: rest) :=
        if_pos ⟨hm, by simpa using hname⟩
      simp only [List.cons_append, List.nil_append]
      rw [measureSetting, bind_of_ok hread, bind_of_ok (sign_cons he _)]
      exact bind_of_ok (number_cons hv hl rest)
  sound := by
    intro ts s rest hts h
    obtain ⟨n, mid, hn, h₁⟩ := bind_eq_ok h
    unfold measureName at hn
    split at hn
    · rename_i m us
      split at hn
      · rename_i hm
        cases hn
        obtain ⟨e, mid', he, h₂⟩ := bind_eq_ok h₁
        obtain ⟨rfl, hk⟩ := expect_eq_ok he
        obtain ⟨l, mid'', hl, h₃⟩ := bind_eq_ok h₂
        obtain ⟨rfl, rfl⟩ := pure_eq_ok h₃
        obtain ⟨v, rfl, hv, hl⟩ := number_eq_ok hl
        exact ⟨[m, e, v], rfl, .mk hm.1 (by simpa using hm.2) hk hv hl⟩
      · cases hn
    · cases hn

/-! ## 5. Clauses -/

/-- What may follow a clause: the end of the input, or the keyword of a clause. -/
def clauseEnd : List TokenKind := .endOfInput :: Clause.all.map fun c => .keyword c.keyword

/-- The end of a clause comes next. -/
def ClauseStop (rest : List Token) : Prop := kindOf rest ∈ clauseEnd

theorem ClauseStop.condition {rest : List Token} (h : ClauseStop rest) : ConditionStop rest := by
  have hkinds : ∀ k ∈ clauseEnd, k ∈ conditionEnd := by decide
  exact hkinds _ h

/-- What may follow a clause goes on with no list and no item of one. -/
theorem ClauseStop.ne {rest : List Token} (h : ClauseStop rest) :
    kindOf rest ≠ .symbol .dot ∧ kindOf rest ≠ .symbol .comma ∧ kindOf rest ≠ .symbol .eq ∧
      kindOf rest ≠ .keyword .AS ∧ kindOf rest ≠ .identifier ∧ kindOf rest ≠ .keyword .DESC ∧
      kindOf rest ≠ .keyword .ASC := by
  have hkinds : ∀ k ∈ clauseEnd, k ≠ .symbol .dot ∧ k ≠ .symbol .comma ∧ k ≠ .symbol .eq ∧
      k ≠ .keyword .AS ∧ k ≠ .identifier ∧ k ≠ .keyword .DESC ∧ k ≠ .keyword .ASC := by decide
  exact hkinds _ h

end Parse

namespace Clause

open Parse

/-- The tokens of a clause behind its keyword, under a limit of nesting. -/
def Written (limit : Nat) : Clause → ClauseContent → List Token → Prop
  | database => Behind .DATABASE .database NameWritten
  | relevance => Behind .TO .relevance (Listed AttributeWritten)
  | tables => Image .tables (Listed TableWritten)
  | condition => Image .condition (Predicate.Written limit)
  | grouping => Behind .BY .grouping (Listed AttributeWritten)
  | ordering => Behind .BY .ordering (Listed OrderWritten)
  | mining => Image .mining MineWritten
  | measures => Image .measures (Listed MeasureWritten)
  | display => Behind .AS (fun t => .display (Text.lower t)) NameWritten

/-- **The reader of a clause reads exactly what its tokens write.** -/
theorem content_reads (limit : Nat) (clause : Clause) :
    Reads (clause.content limit) (clause.Written limit) ClauseStop := by
  have hattributes : Reads (commaList attributeRef) (Listed AttributeWritten) ClauseStop :=
    (commaList_reads attributeRef_reads fun c ts hc => by simp [hc]).mono
      fun rest h => ⟨h.ne.1, h.ne.2.1⟩
  cases clause with
  | database =>
    exact (behind_reads name_reads .DATABASE ClauseContent.database).mono fun _ _ => trivial
  | relevance => exact behind_reads hattributes .TO ClauseContent.relevance
  | tables =>
    have htables := commaList_reads tableRef_reads fun c ts hc => by simp [hc]
    refine (image_reads htables ClauseContent.tables).mono fun rest (h : ClauseStop rest) => ?_
    exact ⟨⟨h.ne.2.2.2.1, h.ne.2.2.2.2.1⟩, h.ne.2.1⟩
  | condition =>
    exact (image_reads (condition_reads limit false) ClauseContent.condition).mono
      fun rest (h : ClauseStop rest) => h.condition
  | grouping => exact behind_reads hattributes .BY ClauseContent.grouping
  | ordering =>
    have hitems := commaList_reads orderItem_reads fun c ts hc => by simp [hc]
    refine (behind_reads hitems .BY ClauseContent.ordering).mono
      fun rest (h : ClauseStop rest) => ?_
    exact ⟨⟨h.ne.1, h.ne.2.2.2.2.2⟩, h.ne.2.1⟩
  | mining =>
    exact (image_reads mineDirective_reads ClauseContent.mining).mono
      fun rest (h : ClauseStop rest) => h.ne.2.2.1
  | measures =>
    have hsettings := commaList_reads measureSetting_reads fun _ _ _ => trivial
    exact (image_reads hsettings ClauseContent.measures).mono
      fun rest (h : ClauseStop rest) => ⟨trivial, h.ne.2.1⟩
  | display =>
    exact (behind_reads name_reads .AS fun t => ClauseContent.display (Text.lower t)).mono
      fun _ _ => trivial

end Clause

end MiningQuery
