/-
  File:      MiningQuery/Proofs/Sql/Select.lean
  Subject:   A SELECT statement is the print of a statement, but for its first word.

  * `ClausePrinted` -- a text is the print of one clause;
  * `ClausesPrinted` -- a text is the print of some clauses in their order;
  * `Statement.asSql` -- the statement that a SELECT statement is read back as;
  * **`Statement.asSql_printed`** -- the parts of the SELECT statement print its clauses.
-/
import MiningQuery.Proofs.Grammar.WellFormed
import MiningQuery.Proofs.Sql.Condition
import MiningQuery.Sql.Select

namespace MiningQuery

open Parse

/-! ## 1. Parts of clauses -/

/-- The token of a table. -/
def tableLexemes (n : Text) : List Lexeme := [.exact .identifier n]

theorem Attribute.lexemes_flat (a : Attribute) : FlatLexemes a.lexemes := by
  have hstar : IsPlain (.symbol .star) ∧ IsFlat (.symbol .star) := by decide
  cases a with
  | all => simpa [Attribute.lexemes] using hstar
  | column c => exact c.lexemes_flat

theorem OrderItem.lexemes_flat (o : OrderItem) : FlatLexemes o.lexemes := by
  have hdirections : ∀ d : SortDirection,
      IsPlain (.keyword d.keyword) ∧ IsFlat (.keyword d.keyword) := by
    intro d
    cases d <;> decide
  simp [OrderItem.lexemes, o.column.lexemes_flat, hdirections]

/-- A list is flat if its items are. -/
theorem separated_flat {α : Type} {g : α → List Lexeme} (xs : List α)
    (h : ∀ x ∈ xs, FlatLexemes (g x)) : FlatLexemes (separated (xs.map g)) :=
  forall_mem_separated (by decide) (List.forall_mem_map.mpr h)

namespace Parse

theorem attributeWritten_of_spells {a : Attribute} {ts : List Token} (ha : a.isLexical = true)
    (h : Spells a.lexemes ts) : AttributeWritten a ts := by
  cases a with
  | all =>
    simp only [Attribute.lexemes, spells_cons, spells_nil, Lexeme.sign_spells] at h
    obtain ⟨s, _, rfl, hs, rfl⟩ := h
    exact ⟨s, rfl, hs⟩
  | column c => exact ⟨ha, h⟩

theorem tableWritten_of_spells {n : Text} {ts : List Token} (hn : isName n = true)
    (h : Spells (tableLexemes n) ts) : TableWritten ⟨n, none⟩ ts := by
  simp only [tableLexemes, spells_cons, spells_nil, Lexeme.exact_spells] at h
  obtain ⟨t, _, rfl, ⟨hk, rfl⟩, rfl⟩ := h
  exact .plain ⟨hk, hn⟩

theorem orderWritten_of_spells {o : OrderItem} {ts : List Token}
    (ho : o.column.isLexical = true) (h : Spells o.lexemes ts) : OrderWritten o ts := by
  obtain ⟨c, d⟩ := o
  simp only [OrderItem.lexemes, spells_append, spells_cons, spells_nil, Lexeme.word_spells] at h
  obtain ⟨us, _, rfl, hc, w, _, rfl, hw, rfl⟩ := h
  cases d with
  | ascending => exact .ascending ⟨ho, hc⟩ hw
  | descending => exact .descending ⟨ho, hc⟩ hw

/-- The tokens of items with commas write the list of the items. -/
theorem listed_of_spells {α : Type} {W : α → List Token → Prop} {lexemes : α → List Lexeme}
    {xs : List α} (hne : xs ≠ []) (hW : ∀ x ∈ xs, ∀ ts, Spells (lexemes x) ts → W x ts)
    {ts : List Token} (h : Spells (separated (xs.map lexemes)) ts) : Listed W xs ts := by
  induction xs generalizing ts with
  | nil => exact absurd rfl hne
  | cons x xs ih =>
    obtain ⟨hx, hxs⟩ := List.forall_mem_cons.mp hW
    cases xs with
    | nil => exact .one (hx ts h)
    | cons y ys =>
      simp only [List.map_cons, separated, spells_append, spells_cons, Lexeme.sign_spells] at h
      obtain ⟨us, _, rfl, hus, c, vs, rfl, hc, hvs⟩ := h
      exact .more (hx us hus) hc (ih (List.cons_ne_nil _ _) hxs hvs)

end Parse

/-! ## 2. Clauses -/

/-- The text is cut into tokens that nest to the depth and write the clause with its keyword. -/
structure ClausePrinted (depth : Nat) (clause : Clause) (content : ClauseContent) (t : Text)
    (ls : List Lexeme) : Prop where
  printed : Printed t ls
  balanced : Balanced depth (lexemeKinds ls)
  written : ∀ {limit : Nat} {ts : List Token}, depth ≤ limit → Spells ls ts →
    ∃ w body, ts = w :: body ∧ w.kind = .keyword clause.keyword ∧
      clause.Written limit content body

/-- The text is cut into tokens that nest to the depth and write the clauses, each at most once,
    if the end of the input follows. -/
structure ClausesPrinted (depth : Nat) (clauses : List Clause) (contents : List ClauseContent)
    (t : Text) (ls : List Lexeme) : Prop where
  printed : Printed t ls
  balanced : Balanced depth (lexemeKinds ls)
  written : ∀ {limit : Nat} {ts : List Token} {last : Token}, depth ≤ limit → Spells ls ts →
    last.kind = .endOfInput → StatementWritten limit clauses contents (ts ++ [last])

namespace ClausePrinted

variable {d : Nat} {c : Clause} {content : ClauseContent} {t : Text} {ls : List Lexeme}

/-- A blank before a clause. -/
theorem indented (h : ClausePrinted d c content t ls) :
    ClausePrinted d c content (32 :: t) ls :=
  ⟨h.printed.indented, h.balanced, h.written⟩

/-- A clause that opens with one word. -/
theorem image {α : Type} {f : α → ClauseContent} {W : Nat → α → List Token → Prop} {x : α}
    (hclause : ∀ limit, c.Written limit = Image f (W limit)) (ht : Printed t ls)
    (hls : Balanced d (lexemeKinds ls))
    (hW : ∀ limit ts, d ≤ limit → Spells ls ts → W limit x ts) :
    ClausePrinted d c (f x) (c.keyword.spelling ++ 32 :: t)
      (.word c.keyword :: ls) := by
  have hword : Balanced 0 [.keyword c.keyword] :=
    .single (by cases c <;> decide) (by cases c <;> decide)
  refine ⟨(Printed.word c.keyword).blank ht, ?_, fun {limit ts} hd h => ?_⟩
  · exact (hword.append hls).mono (Nat.le_max_right _ _)
  · obtain ⟨w, body, rfl, hw, hbody⟩ := spells_cons.mp h
    refine ⟨w, body, rfl, Lexeme.word_spells.mp hw, ?_⟩
    rw [hclause limit]
    exact ⟨x, hW limit body hd hbody, rfl⟩

/-- A clause that opens with two words. -/
theorem behind {α : Type} {f : α → ClauseContent} {W : α → List Token → Prop} {x : α}
    {k : Keyword} (hclause : ∀ limit, c.Written limit = Behind k f W)
    (hk : IsPlain (.keyword k)) (ht : Printed t ls) (hls : FlatLexemes ls)
    (hW : ∀ ts, Spells ls ts → W x ts) :
    ClausePrinted 0 c (f x) (c.keyword.spelling ++ 32 :: (k.spelling ++ 32 :: t))
      (.word c.keyword :: .word k :: ls) := by
  have hword : Balanced 0 [.keyword c.keyword] :=
    .single (by cases c <;> decide) (by cases c <;> decide)
  have hsecond : Balanced 0 [.keyword k] := .single hk ⟨by simp, by simp⟩
  refine ⟨(Printed.word c.keyword).blank ((Printed.word k).blank ht), ?_,
    fun {limit ts} _ h => ?_⟩
  · exact hword.append (hsecond.append hls.balanced)
  · simp only [spells_cons, Lexeme.word_spells] at h
    obtain ⟨w, _, rfl, hw, v, body, rfl, hv, hbody⟩ := h
    refine ⟨w, v :: body, rfl, hw, ?_⟩
    rw [hclause limit]
    exact ⟨v, body, rfl, hv, x, hW body hbody, rfl⟩

end ClausePrinted

namespace ClausesPrinted

variable {d e : Nat} {clause : Clause} {later : List Clause} {content : ClauseContent}
  {contents : List ClauseContent} {t u : Text} {ls ms : List Lexeme}

/-- No clause. -/
theorem none : ClausesPrinted 0 [] [] [] [] where
  printed := .empty
  balanced := .nil
  written := by
    intro limit ts last _ h hlast
    obtain rfl := spells_nil.mp h
    exact .done hlast

/-- One more clause, which is absent. -/
theorem absent (h : ClausesPrinted d later contents t ls) :
    ClausesPrinted d (clause :: later) contents t ls :=
  ⟨h.printed, h.balanced, fun hd hs hlast => .absent (h.written hd hs hlast)⟩

/-- One more clause, which stands before the others. -/
theorem present (htail : ClausesPrinted e later contents u ms)
    (h : ClausePrinted d clause content t ls) (hbreaks : Breaks u) :
    ClausesPrinted (max d e) (clause :: later) (content :: contents) (t ++ u) (ls ++ ms) where
  printed := h.printed.followed htail.printed hbreaks
  balanced := by
    rw [lexemeKinds_append]
    exact h.balanced.append htail.balanced
  written := by
    intro limit ts last hlimit hs hlast
    obtain ⟨us, vs, rfl, hus, hvs⟩ := spells_append.mp hs
    obtain ⟨w, body, rfl, hw, hbody⟩ := h.written (Nat.le_trans (Nat.le_max_left d e) hlimit) hus
    have hlater := htail.written (Nat.le_trans (Nat.le_max_right d e) hlimit) hvs hlast
    rw [List.append_assoc]
    exact .present hw hbody hlater

end ClausesPrinted

/-- The text starts with what ends a token, and is the print of the clauses. -/
def TailPrinted (depth : Nat) (clauses : List Clause) (contents : List ClauseContent)
    (t : Text) : Prop := Breaks t ∧ ∃ ls, ClausesPrinted depth clauses contents t ls

namespace TailPrinted

variable {d e : Nat} {clause : Clause} {later : List Clause} {contents : List ClauseContent}
  {u : Text}

theorem none : TailPrinted 0 [] [] [] := ⟨breaks_nil, [], .none⟩

theorem absent (h : TailPrinted e later contents u) : TailPrinted e (clause :: later) contents u :=
  ⟨h.1, h.2.imp fun _ => ClausesPrinted.absent⟩

/-- A part of the SELECT statement is the print of a clause, or nothing. -/
theorem part (htail : TailPrinted e later contents u) (words : String)
    (hwords : (ascii words).head? = some 32) {α : Type} (x : Option α) (depth : α → Nat)
    (f : α → ClauseContent) (text : α → Text)
    (hx : ∀ a ∈ x, ∃ ls, ClausePrinted (depth a) clause (f a) (ascii words ++ text a) ls) :
    TailPrinted (max ((x.map depth).getD 0) e) (clause :: later) ((x.map f).toList ++ contents)
      (SelectParts.part words (x.map text) ++ u) := by
  cases x with
  | none =>
    rw [Option.map_none, Option.getD_none, Nat.zero_max]
    exact htail.absent
  | some a =>
    obtain ⟨hbreaks, ms, hms⟩ := htail
    obtain ⟨ls, hls⟩ := hx a rfl
    have hstart : Breaks (ascii words ++ text a) := by
      obtain ⟨rest, hrest⟩ := List.head?_eq_some_iff.mp hwords
      rw [hrest]
      exact breaks_cons.mpr (.inl rfl)
    exact ⟨hstart.append hbreaks, ls ++ ms, hms.present hls hbreaks⟩

end TailPrinted

/-! ## 3. The statement that a SELECT statement is read back as -/

/-- The list, unless it is empty. -/
def unlessEmpty {α : Type} (xs : List α) : Option (List α) := if xs.isEmpty then none else some xs

theorem unlessEmpty_spec {α : Type} {xs ys : List α} (h : ys ∈ unlessEmpty xs) :
    ys = xs ∧ ys ≠ [] := by
  unfold unlessEmpty at h
  cases xs with
  | nil => cases h
  | cons x xs =>
    cases h
    exact ⟨rfl, List.cons_ne_nil _ _⟩

/-- Tables without second names. -/
def plainTables (names : List Text) : List TableRef := names.map fun n => ⟨n, none⟩

/-- The columns of a SELECT statement: those that are asked for, or the star. -/
def selected : List Attribute → List Attribute
  | [] => [.all]
  | as => as

theorem selected_ne_nil (as : List Attribute) : selected as ≠ [] := by cases as <;> simp [selected]

theorem selected_isLexical {as : List Attribute} (h : ∀ a ∈ as, a.isLexical = true) :
    ∀ a ∈ selected as, a.isLexical = true := by
  cases as with
  | nil => simp [selected, Attribute.isLexical]
  | cons a as => exact h

/-- The SQL of a list of items is that of the list, if it is not empty. -/
theorem listPart_map {α : Type} (text : α → Text) (xs : List α) :
    SelectParts.listPart? (xs.map text) =
      (unlessEmpty xs).map fun ys => Text.join (ascii ", ") (ys.map text) := by
  cases xs <;> rfl

theorem getD_listPart (as : List Attribute) :
    (SelectParts.listPart? (as.map Attribute.text)).getD (ascii "*") =
      Text.join (ascii ", ") ((selected as).map Attribute.text) := by
  cases as <;> rfl

namespace Statement

/-- What the clauses of a SELECT statement say, the tables having the names `names`. -/
def sqlContents (s : Statement) (names : List Text) : List ClauseContent :=
  .relevance (selected (s.relevance.getD [])) ::
    .tables (plainTables names) ::
    ((s.condition.map fun p => .condition p.asSql).toList ++
      (((unlessEmpty s.grouping).map ClauseContent.grouping).toList ++
      (((unlessEmpty s.ordering).map ClauseContent.ordering).toList ++ [])))

/-- The statement that a SELECT statement is read back as. -/
def asSql (s : Statement) (names : List Text) : Statement :=
  { relevance := some (selected (s.relevance.getD []))
    tables := plainTables names
    condition := s.condition.map Predicate.asSql
    grouping := s.grouping
    ordering := s.ordering }

theorem foldl_sqlContents (s : Statement) (names : List Text) :
    (s.sqlContents names).foldl set empty = s.asSql names := by
  obtain ⟨database, relevance, tables, condition, grouping, ordering, mining, measures,
    display⟩ := s
  cases condition <;> cases grouping <;> cases ordering <;> rfl

/-- The parts of the SELECT statement, the tables having the names `names`. -/
def selectParts (s : Statement) (names : List Text) : SelectParts :=
  { columns := (s.relevance.getD []).map Attribute.text
    tables := names
    condition := s.condition.map fun p => p.reduce.sql
    grouping := s.grouping.map Attribute.text
    ordering := s.ordering.map OrderItem.reduce
    limit := none }

end Statement

/-- A SELECT statement that opens as the clause for columns does. -/
def restated (sql : Text) : Text := ascii "RELEVANCE TO " ++ sql.drop (ascii "SELECT ").length

/-! ## 4. Its parts are printed clauses -/

/-- The words before a list of attributes, and the list. -/
theorem attributes_printed {c : Clause} {k : Keyword} {f : List Attribute → ClauseContent}
    (hclause : ∀ limit, c.Written limit = Behind k f (Listed AttributeWritten))
    (hk : IsPlain (.keyword k)) {as : List Attribute} (hne : as ≠ [])
    (has : ∀ a ∈ as, a.isLexical = true) :
    ∃ ls, ClausePrinted 0 c (f as) (c.keyword.spelling ++ 32 :: (k.spelling ++
      32 :: Text.join (ascii ", ") (as.map Attribute.text))) ls :=
  ⟨_, .behind hclause hk (.separated hne fun a ha => Attribute.text_printed (has a ha))
    (separated_flat as fun a _ => a.lexemes_flat)
    fun _ => listed_of_spells hne fun a ha _ => attributeWritten_of_spells (has a ha)⟩

theorem ordering_printed {os : List OrderItem} (hne : os ≠ [])
    (hos : ∀ o ∈ os, o.column.isLexical = true) :
    ∃ ls, ClausePrinted 0 .ordering (.ordering os) (ascii "ORDER" ++ 32 :: (ascii "BY" ++
      32 :: Text.join (ascii ", ") (os.map fun o => o.reduce.text))) ls :=
  ⟨_, .behind (c := .ordering) (k := .BY) (fun _ => rfl) (by decide)
    (.separated hne fun o ho => OrderItem.text_printed (hos o ho))
    (separated_flat os fun o _ => o.lexemes_flat)
    fun _ => listed_of_spells hne fun o ho _ => orderWritten_of_spells (hos o ho)⟩

theorem tables_printed {names : List Text} (hne : names ≠ [])
    (hnames : ∀ n ∈ names, isName n = true) :
    ∃ ls, ClausePrinted 0 .tables (.tables (plainTables names))
      (ascii "FROM" ++ 32 :: Text.join (ascii ", ") names) ls := by
  have hprinted : Printed (Text.join (ascii ", ") (names.map id))
      (separated (names.map tableLexemes)) := .separated hne fun n hn => by
      have hadmits : TokenKind.identifier.admits n = true := hnames n hn
      exact Printed.exact hadmits (by simp)
  have hname : IsPlain .identifier ∧ IsFlat .identifier := by decide
  have hflat := separated_flat (g := tableLexemes) names
    fun n _ => by simpa [tableLexemes] using hname
  have htables : plainTables names ≠ [] := by simpa [plainTables] using hne
  rw [List.map_id] at hprinted
  refine ⟨_, .image (c := .tables) (W := fun _ => Listed TableWritten) (fun _ => rfl)
    hprinted hflat.balanced fun limit ts _ h => ?_⟩
  have hmap : names.map tableLexemes = (plainTables names).map fun r => tableLexemes r.name := by
    simp [plainTables]
  rw [hmap] at h
  refine listed_of_spells htables (fun r hr us hus => ?_) h
  obtain ⟨n, hn, rfl⟩ := List.mem_map.mp hr
  exact tableWritten_of_spells (hnames n hn) hus

theorem condition_printed {p : Predicate} (hp : p.isCanonical = true ∧ p.isLexical = true)
    (hplain : p.reduce.IsPlain) :
    ∃ ls, ClausePrinted p.asSql.depth .condition (.condition p.asSql)
      (ascii "WHERE" ++ 32 :: p.reduce.sql) ls := by
  have hlexical := Predicate.asSql_lexical hp.2 hplain
  refine ⟨_, .image (c := .condition) (fun _ => rfl) (Predicate.asSql_printed hlexical)
    p.asSql_balanced fun limit ts hd h => ?_⟩
  exact ⟨Predicate.asSql_canonical hp.1, hlexical, hd, h⟩

theorem restated_sql (s : Statement) (names : List Text) :
    restated (s.selectParts names).sql =
      ascii "RELEVANCE TO " ++
        Text.join (ascii ", ") ((selected (s.relevance.getD [])).map Attribute.text) ++
      ((32 :: (ascii "FROM" ++ 32 :: Text.join (ascii ", ") names)) ++
      (SelectParts.part " WHERE " (s.condition.map fun p => p.reduce.sql) ++
      (SelectParts.part " GROUP BY " ((unlessEmpty s.grouping).map fun as =>
        Text.join (ascii ", ") (as.map Attribute.text)) ++
      (SelectParts.part " ORDER BY " ((unlessEmpty s.ordering).map fun os =>
        Text.join (ascii ", ") (os.map fun o => o.reduce.text)) ++ [])))) := by
  have hordering : (s.ordering.map OrderItem.reduce).map QueryOrder.text =
      s.ordering.map fun o => o.reduce.text := List.map_map
  simp only [restated, SelectParts.sql, Statement.selectParts, getD_listPart, List.append_assoc,
    List.drop_left, Option.map_none]
  simp only [listPart_map, hordering]
  simp [ascii, SelectParts.part]

namespace Statement

/-- **The parts of the SELECT statement of a well-formed statement print its clauses.** -/
theorem asSql_printed {s : Statement} (hs : s.WellFormed)
    (hplain : ∀ p ∈ s.condition, p.reduce.IsPlain) {names : List Text} (hne : names ≠ [])
    (hnames : ∀ n ∈ names, isName n = true) :
    ∃ d ls, ClausesPrinted d Clause.all (s.sqlContents names)
      (restated (s.selectParts names).sql) ls := by
  have hbehind : TailPrinted 0 [.mining, .measures, .display] [] [] :=
    TailPrinted.none.absent.absent.absent
  have hordering := hbehind.part " ORDER BY " rfl (unlessEmpty s.ordering) (fun _ => 0)
    .ordering (fun os => Text.join (ascii ", ") (os.map fun o => o.reduce.text)) fun os h => by
      obtain ⟨rfl, hos⟩ := unlessEmpty_spec h
      obtain ⟨ls, hls⟩ := ordering_printed hos hs.ordering
      exact ⟨ls, hls.indented⟩
  have hgrouping := hordering.part " GROUP BY " rfl (unlessEmpty s.grouping) (fun _ => 0)
    .grouping (fun as => Text.join (ascii ", ") (as.map Attribute.text)) fun as h => by
      obtain ⟨rfl, has⟩ := unlessEmpty_spec h
      obtain ⟨ls, hls⟩ := attributes_printed (c := .grouping) (k := .BY) (fun _ => rfl)
        (by decide) has hs.grouping
      exact ⟨ls, hls.indented⟩
  have hcondition := hgrouping.part " WHERE " rfl s.condition (fun p => p.asSql.depth)
    (fun p => .condition p.asSql) (fun p => p.reduce.sql) fun p h => by
      obtain ⟨ls, hls⟩ := condition_printed (hs.condition p h) (hplain p h)
      exact ⟨ls, hls.indented⟩
  obtain ⟨hbreaks, ms, hms⟩ := hcondition
  obtain ⟨ks, hks⟩ := tables_printed hne hnames
  have htables := hms.present hks.indented hbreaks
  have hasked : ∀ a ∈ s.relevance.getD [], a.isLexical = true := by
    intro a ha
    cases hr : s.relevance with
    | none => simp [hr] at ha
    | some as => exact hs.relevance as hr a (by simpa [hr] using ha)
  obtain ⟨js, hjs⟩ := attributes_printed (c := .relevance) (k := .TO)
    (f := ClauseContent.relevance) (fun _ => rfl) (by decide) (selected_ne_nil _)
    (selected_isLexical hasked)
  have hcolumns := htables.present hjs (breaks_cons.mpr (.inl rfl))
  have hall : ClausesPrinted _ Clause.all _ _ _ := hcolumns.absent
  rw [restated_sql]
  exact ⟨_, _, hall⟩

end Statement

end MiningQuery
