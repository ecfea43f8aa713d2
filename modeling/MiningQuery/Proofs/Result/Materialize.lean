/-
  File:      MiningQuery/Proofs/Result/Materialize.lean
  Subject:   The table of a result, and tables that grow.

  A result is held column by column and a table row by row, so the table is put together by two
  counters, and a row is added only if it has one value for each column.

  * `Cell.Stands` -- the value that a cell stands for by the type that the engine gives it;
  * `HeldResult.table`, **`held_table_eq`**, **`held_table_refused`** -- reading the fields place by
    place gives the table of the result, or fails where it has more places than the reader can
    count;
  * `Table.Growth`, **`Table.growAll_extends`** -- rows and columns that are added leave every cell
    where it is, and the table rectangular;
  * **`table_of_last_result`** -- whatever was called, the table is that of the last statement;
  * `not_every_result_becomes_a_table` -- more rows than the reader can count, and a name that is
    cut.
-/
import Mathlib.Data.List.Forall2
import MiningQuery.Proofs.Number.Integer
import MiningQuery.Proofs.Runner.Protocol
import MiningQuery.Proofs.Storage.Columns

namespace MiningQuery

/-! ## 1. Cells -/

/-- The value that a cell stands for: nothing for the empty type, the number that its text writes,
    or the bytes of its text as they are. -/
inductive Cell.Stands : Cell → Value → Prop
  | null (text : Text) : Stands ⟨.null, text⟩ .null
  | integer {text : Text} {i : Int} : text.IsInt64 i → Stands ⟨.integer, text⟩ (.integer i)
  | float {text : Text} {x : Binary64} : Binary64.read? text = some x →
      Stands ⟨.float, text⟩ (.float x)
  | text (text : Text) : Stands ⟨.text, text⟩ (.string text)
  | blob (text : Text) : Stands ⟨.blob, text⟩ (.string text)

/-- The texts of numbers are numbers: a signed 64-bit integer in decimal digits, or a text that
    converts to a floating point number. -/
def Cell.IsReadable (c : Cell) : Prop :=
  (c.type = .integer → ∃ i, c.text.IsInt64 i) ∧
    (c.type = .float → ∃ x, Binary64.read? c.text = some x)

/-- Every cell that the engine delivers is readable, whatever it is asked and in which state. -/
def Engine.CellsReadable {σ : Type} (e : Engine σ) : Prop :=
  ∀ p parameters s, ∀ row ∈ (e.execute p parameters s).1.rows, ∀ cell ∈ row, cell.IsReadable

section Cells

variable {c : Cell} {v : Value}

theorem Cell.toValue_iff : c.toValue = .ok v ↔ c.Stands v := by
  constructor
  · intro h
    obtain ⟨type, text⟩ := c
    cases type with
    | null => cases h; exact .null text
    | text => cases h; exact .text text
    | blob => cases h; exact .blob text
    | integer =>
      cases hread : Text.int64? text with
      | none => simp [toValue, hread] at h
      | some i =>
        obtain rfl : .integer i = v := by simpa [toValue, hread] using h
        exact .integer (Text.int64_iff.mp hread)
    | float =>
      cases hread : Binary64.read? text with
      | none => simp [toValue, hread] at h
      | some x =>
        obtain rfl : .float x = v := by simpa [toValue, hread] using h
        exact .float hread
  · intro h
    cases h with
    | null | text | blob => rfl
    | integer hi => simp [toValue, Text.int64_iff.mpr hi]
    | float hx => simp [toValue, hx]

theorem Cell.IsReadable.exists_value (h : c.IsReadable) : ∃ v, c.toValue = .ok v := by
  obtain ⟨type, text⟩ := c
  cases type with
  | null | text | blob => exact ⟨_, rfl⟩
  | integer =>
    obtain ⟨i, hi⟩ := h.1 rfl
    exact ⟨_, Cell.toValue_iff.mpr (.integer hi)⟩
  | float =>
    obtain ⟨x, hx⟩ := h.2 rfl
    exact ⟨_, Cell.toValue_iff.mpr (.float hx)⟩

theorem Engine.CellsReadable.convert {σ : Type} {e : Engine σ} (he : e.CellsReadable) :
    e.CellsConvert := fun p parameters s row hrow cell hcell =>
  (he p parameters s row hrow cell hcell).exists_value

end Cells

/-! ## 2. Place by place -/

/-- The value of a place, if the reader is admitted to it. Its numbers are cut down to 32 bits with
    a sign, as the counts are that they are compared with. -/
def HeldResult.value (h : HeldResult) (row column : Nat) : Except Fault Value :=
  let row := (row : Int).bmod 4294967296
  let column := (column : Int).bmod 4294967296
  if h.Admits row column then
    match h.at? row column with
    | some cell => cell.toValue
    | none => .error .contract
  else .error .contract

/-- Adds a row, which has to have one value for each column. -/
def Table.withRow (t : Table) (row : List Value) : Except Fault Table :=
  match t.addRow? row with
  | some t => .ok t
  | none => .error .contract

/-- The numbers of the reader are enough for every place that there is. -/
def HeldResult.IsCounted (h : HeldResult) : Prop :=
  0 < h.rowCount → 0 < h.columnCount → h.rowCount < 2147483648 ∧ h.columnCount < 2147483648

/-- Puts a table together: for each row that is counted the values of each column that is counted,
    added as one row. -/
def HeldResult.table (h : HeldResult) : Except Fault Table :=
  (List.range h.rowCount).foldlM
    (fun t row => do t.withRow (← (List.range h.columnCount).mapM (h.value row)))
    (Table.ofColumns h.names)

section Places

variable {α β : Type} {r : ResultSet}

/-- A counter that goes over a list reads its items. -/
theorem mapM_range {xs : List α} {f : Nat → Except Fault β} {g : α → Except Fault β}
    (h : ∀ i, ∀ hi : i < xs.length, f i = g xs[i]) : (List.range xs.length).mapM f = xs.mapM g := by
  induction xs generalizing f with
  | nil => rfl
  | cons x xs ih =>
    have hrest := ih (f := fun i => f (i + 1)) fun i hi => h (i + 1) (Nat.succ_lt_succ hi)
    have hfirst : f 0 = g x := h 0 (Nat.succ_pos _)
    rw [List.length_cons, List.range_succ_eq_map, List.mapM_cons, List.mapM_cons, List.mapM_map,
      hfirst]
    exact congrArg _ (funext fun y => congrArg (· >>= _) hrest)

theorem foldlM_range {xs : List α} {f : β → Nat → Except Fault β} {g : β → α → Except Fault β}
    (h : ∀ b i, ∀ hi : i < xs.length, f b i = g b xs[i]) (b : β) :
    (List.range xs.length).foldlM f b = xs.foldlM g b := by
  induction xs generalizing f b with
  | nil => rfl
  | cons x xs ih =>
    have hrest := ih (f := fun b i => f b (i + 1)) fun b i hi => h b (i + 1) (Nat.succ_lt_succ hi)
    have hfirst : f b 0 = g b x := h b 0 (Nat.succ_pos _)
    rw [List.length_cons, List.range_succ_eq_map, List.foldlM_cons, List.foldlM_cons, hfirst]
    refine congrArg _ (funext fun b => ?_)
    rw [List.foldlM_map]
    exact hrest b

/-- A count below `2 ^ 31` is the same in 32 bits. -/
theorem bmod_of_lt {n : Nat} (h : n < 2147483648) : (n : Int).bmod 4294967296 = n := by
  unfold Int.bmod
  dsimp only
  split <;> omega

/-- No number of 32 bits is above the greatest one. -/
theorem bmod_le_greatest (n : Nat) : (n : Int).bmod 4294967296 ≤ 2147483647 := by
  unfold Int.bmod
  dsimp only
  split <;> omega

theorem held_at {row column : Nat} (hrow : row < r.rows.length)
    (hcolumn : column < r.rows[row].length)
    (hlength : r.rows[row].length = r.columns.length) :
    r.held.at? row column = some r.rows[row][column] := by
  rw [HeldResult.at?, if_pos ⟨Int.natCast_nonneg _, Int.natCast_nonneg _⟩]
  unfold HeldResult.cell? ResultSet.held
  simp [hrow, hcolumn, hlength ▸ hcolumn]

/-- Every place inside the counts has the value of its cell. -/
theorem held_value (hcounted : r.held.IsCounted) {row column : Nat} (hrow : row < r.rows.length)
    (hcolumn : column < r.rows[row].length) (hlength : r.rows[row].length = r.columns.length) :
    r.held.value row column = r.rows[row][column].toValue := by
  obtain ⟨hrows, hcolumns⟩ : r.rows.length < 2147483648 ∧ r.columns.length < 2147483648 :=
    hcounted (Nat.zero_lt_of_lt hrow) (Nat.zero_lt_of_lt (hlength ▸ hcolumn))
  have hrow' : (row : Int).bmod 4294967296 = row := bmod_of_lt (Nat.lt_trans hrow hrows)
  have hcolumn' : (column : Int).bmod 4294967296 = column :=
    bmod_of_lt (Nat.lt_trans (hlength ▸ hcolumn) hcolumns)
  have hadmits : r.held.Admits row column := by
    unfold HeldResult.Admits ResultSet.held
    rw [bmod_of_lt hrows, bmod_of_lt hcolumns]
    omega
  rw [HeldResult.value, hrow', hcolumn', if_pos hadmits, held_at hrow hcolumn hlength]

/-- Adding row by row is materialising all rows. -/
theorem foldlM_withRow (columns : List Text) (done : List (List Value)) (rows : List (List Cell)) :
    rows.foldlM (fun t row => do Table.withRow t (← row.mapM Cell.toValue))
        (⟨columns, done⟩ : Table) =
      (rows.mapM (Table.materializeRow columns)).map fun more => ⟨columns, done ++ more⟩ := by
  induction rows generalizing done with
  | nil => simp [Except.map, pure, Except.pure]
  | cons row rows ih =>
    have hadd : (do Table.withRow ⟨columns, done⟩ (← row.mapM Cell.toValue)) =
        (Table.materializeRow columns row).map fun vs => ⟨columns, done ++ [vs]⟩ := by
      unfold Table.materializeRow
      cases row.mapM Cell.toValue with
      | error fault => rfl
      | ok vs =>
        show Table.withRow ⟨columns, done⟩ vs = Except.map _ (ite _ _ _)
        by_cases hlength : vs.length = columns.length <;>
          simp [Table.withRow, Table.addRow?, Table.columnCount, hlength, Except.map]
    rw [List.foldlM_cons, List.mapM_cons, hadd]
    cases Table.materializeRow columns row with
    | error fault => rfl
    | ok vs =>
      refine (ih (done ++ [vs])).trans ?_
      cases rows.mapM (Table.materializeRow columns) with
      | error fault => rfl
      | ok more => simp [Except.map, pure, Except.pure, bind, Except.bind]

/-- **Reading the fields place by place gives the table of the result**, or fails as it does. -/
theorem held_table_eq (hr : ∀ row ∈ r.rows, row.length = r.columns.length)
    (hcounted : r.held.IsCounted) : r.held.table = Table.ofResult r := by
  have hread : ∀ (t : Table) i, ∀ hi : i < r.rows.length,
      (do t.withRow (← (List.range r.columns.length).mapM (r.held.value i))) =
        (do t.withRow (← r.rows[i].mapM Cell.toValue)) := by
    intro t i hi
    have hlength := hr _ (List.getElem_mem hi)
    rw [← hlength, mapM_range fun column hcolumn => held_value hcounted hi hcolumn hlength]
  refine (foldlM_range hread _).trans ((foldlM_withRow r.columns [] r.rows).trans ?_)
  unfold Table.ofResult
  cases r.rows.mapM (Table.materializeRow r.columns) <;> rfl

/-- It either goes on or stops the program. -/
def Holds (o : Except Fault α) : Prop := o = .error .contract ∨ ∃ x, o = .ok x

theorem Holds.bind {o : Except Fault α} {f : α → Except Fault β} (h : Holds o)
    (hf : ∀ x, Holds (f x)) : Holds (o >>= f) := by
  rcases h with rfl | ⟨x, rfl⟩
  · exact .inl rfl
  · exact hf x

theorem Holds.mapM {f : α → Except Fault β} {xs : List α} (h : ∀ x ∈ xs, Holds (f x)) :
    Holds (xs.mapM f) := by
  induction xs with
  | nil => exact .inr ⟨[], rfl⟩
  | cons x xs ih =>
    obtain ⟨hx, hxs⟩ := List.forall_mem_cons.mp h
    rw [List.mapM_cons]
    exact hx.bind fun y => (ih hxs).bind fun ys => .inr ⟨y :: ys, rfl⟩

/-- One item that stops the program stops it for the list. -/
theorem mapM_stops {f : α → Except Fault β} {xs : List α} (h : ∀ x ∈ xs, Holds (f x))
    (hstop : ∃ x ∈ xs, f x = .error .contract) : xs.mapM f = .error .contract := by
  induction xs with
  | nil =>
    obtain ⟨x, hx, -⟩ := hstop
    cases hx
  | cons x xs ih =>
    obtain ⟨hx, hxs⟩ := List.forall_mem_cons.mp h
    obtain ⟨y, hy, hstops⟩ := hstop
    rw [List.mapM_cons]
    rcases hx with hx | ⟨z, hx⟩
    · rw [hx]
      rfl
    · rcases List.mem_cons.mp hy with rfl | hy
      · rw [hx] at hstops
        cases hstops
      · rw [hx, ih hxs ⟨y, hy, hstops⟩]
        rfl

theorem foldlM_stops {f : β → α → Except Fault β} {xs : List α} (h : ∀ b, ∀ x ∈ xs, Holds (f b x))
    (hstop : ∃ x ∈ xs, ∀ b, f b x = .error .contract) (b : β) :
    xs.foldlM f b = .error .contract := by
  induction xs generalizing b with
  | nil =>
    obtain ⟨x, hx, -⟩ := hstop
    cases hx
  | cons x xs ih =>
    obtain ⟨y, hy, hstops⟩ := hstop
    rw [List.foldlM_cons]
    rcases h b x List.mem_cons_self with hx | ⟨b', hx⟩
    · rw [hx]
      rfl
    · rcases List.mem_cons.mp hy with rfl | hy
      · rw [hstops b] at hx
        cases hx
      · rw [hx]
        exact ih (fun b z hz => h b z (List.mem_cons_of_mem _ hz)) ⟨y, hy, hstops⟩ b'

/-- Every place of readable cells has a value, or the reader is not admitted to it. -/
theorem held_value_holds (hcells : ∀ row ∈ r.rows, ∀ cell ∈ row, ∃ v, cell.toValue = .ok v)
    (hr : ∀ row ∈ r.rows, row.length = r.columns.length) (row column : Nat) :
    Holds (r.held.value row column) := by
  unfold HeldResult.value
  dsimp only
  split
  · split
    · rename_i cell hcell
      obtain ⟨-, hcell⟩ := Option.ite_none_right_eq_some.mp hcell
      rw [held_cell hr] at hcell
      obtain ⟨-, hcell⟩ := Option.ite_none_right_eq_some.mp hcell
      obtain ⟨cells, hcells', hcell⟩ := Option.bind_eq_some_iff.mp hcell
      exact .inr (hcells cells (List.mem_of_getElem? hcells') cell (List.mem_of_getElem? hcell))
    · exact .inl rfl
  · exact .inl rfl

/-- No reader is admitted to the place of the greatest number of 31 bits. -/
theorem value_refused {h : HeldResult} {k row column : Nat} (hk : k = 2147483647)
    (hplace : row = k ∨ column = k) : h.value row column = .error .contract := by
  have hgreatest : (k : Int).bmod 4294967296 = 2147483647 :=
    (bmod_of_lt (by omega)).trans (by omega)
  unfold HeldResult.value
  dsimp only
  rw [if_neg]
  rintro ⟨hrow, hcolumn⟩
  rcases hplace with rfl | rfl
  · rw [hgreatest] at hrow
    exact absurd hrow (Int.not_lt.mpr (bmod_le_greatest _))
  · rw [hgreatest] at hcolumn
    exact absurd hcolumn (Int.not_lt.mpr (bmod_le_greatest _))

/-- **Reading place by place stops the program where there are more places than the reader can
    count**, if nothing else is wrong. -/
theorem held_table_refused (hcells : ∀ row ∈ r.rows, ∀ cell ∈ row, ∃ v, cell.toValue = .ok v)
    (hr : ∀ row ∈ r.rows, row.length = r.columns.length) (hcounted : ¬ r.held.IsCounted) :
    r.held.table = .error .contract := by
  obtain ⟨hrows, hcolumns, hmany⟩ : 0 < r.rows.length ∧ 0 < r.columns.length ∧
      ¬(r.rows.length < 2147483648 ∧ r.columns.length < 2147483648) := by
    unfold HeldResult.IsCounted at hcounted
    simp only [Classical.not_imp] at hcounted
    exact hcounted
  obtain ⟨k, hk⟩ : ∃ k : Nat, k = 2147483647 := ⟨_, rfl⟩
  have hholds := held_value_holds hcells hr
  have hrow : ∀ row, (∃ column < r.columns.length, row = k ∨ column = k) →
      (List.range r.columns.length).mapM (r.held.value row) = .error .contract := by
    rintro row ⟨column, hcolumn, hplace⟩
    exact mapM_stops (fun column _ => hholds row column)
      ⟨column, List.mem_range.mpr hcolumn, value_refused hk hplace⟩
  -- the row of that number, or any row with the column of that number, is not read to its end
  obtain ⟨row, hlt, hplace⟩ : ∃ row < r.rows.length, ∃ column < r.columns.length,
      row = k ∨ column = k := by
    by_cases hfew : r.rows.length < 2147483648
    · exact ⟨0, hrows, k, by omega, .inr rfl⟩
    · exact ⟨k, by omega, 0, hcolumns, .inl rfl⟩
  refine foldlM_stops (fun t row _ => ?_) ⟨row, List.mem_range.mpr hlt, fun t => ?_⟩ _
  · refine (Holds.mapM fun column _ => hholds row column).bind fun values => ?_
    unfold Table.withRow
    split
    · exact .inr ⟨_, rfl⟩
    · exact .inl rfl
  · have hstops := hrow row hplace
    show (List.range r.columns.length).mapM (r.held.value row) >>= _ = _
    rw [hstops]
    rfl

end Places

/-! ## 3. Tables that grow -/

theorem getElem?_of_prefix {α : Type} {xs ys : List α} {i : Nat} {x : α} (h : xs <+: ys)
    (hx : xs[i]? = some x) : ys[i]? = some x := by
  obtain ⟨hi, rfl⟩ := List.getElem?_eq_some_iff.mp hx
  exact List.prefix_iff_getElem?.mp h i hi

namespace Table

/-- Every row has one value for each column. -/
def IsRectangular (t : Table) : Prop := ∀ row ∈ t.rows, row.length = t.columnCount

/-- A row or a column that is added. -/
inductive Growth
  | row (values : List Value)
  | column (name : Text) (values : List Value)

/-- Adds it, if it has the right length. -/
def grow? (t : Table) : Growth → Option Table
  | .row values => t.addRow? values
  | .column name values => t.addColumn? name values

/-- Adds one after the other. -/
def growAll? (t : Table) (more : List Growth) : Option Table := more.foldlM grow? t

/-- Columns and rows come behind those that are there, and each row goes on behind what it was. -/
structure Extends (t' t : Table) : Prop where
  columns : t.columns <+: t'.columns
  rowCount : t.rowCount ≤ t'.rowCount
  rows : ∀ i row, t.row? i = some row → ∃ row', t'.row? i = some row' ∧ row <+: row'

variable {t t' t'' : Table}

theorem Extends.refl (t : Table) : t.Extends t :=
  ⟨List.prefix_rfl, Nat.le_refl _, fun _ row h => ⟨row, h, List.prefix_rfl⟩⟩

theorem Extends.trans (h : t''.Extends t') (h' : t'.Extends t) : t''.Extends t where
  columns := h'.columns.trans h.columns
  rowCount := Nat.le_trans h'.rowCount h.rowCount
  rows := by
    intro i row hrow
    obtain ⟨row', hrow', hprefix⟩ := h'.rows i row hrow
    obtain ⟨row'', hrow'', hprefix'⟩ := h.rows i row' hrow'
    exact ⟨row'', hrow'', hprefix.trans hprefix'⟩

/-- A cell stays what it is. -/
theorem Extends.cell (h : t'.Extends t) {row column : Nat} {v : Value}
    (hv : t.cell? row column = some v) : t'.cell? row column = some v := by
  unfold cell? at hv ⊢
  obtain ⟨hcolumn, hv⟩ := Option.ite_none_right_eq_some.mp hv
  obtain ⟨cells, hrow, hv⟩ := Option.bind_eq_some_iff.mp hv
  obtain ⟨cells', hrow', hprefix⟩ := h.rows row cells hrow
  have hcolumn' : column < t'.columnCount := Nat.lt_of_lt_of_le hcolumn h.columns.length_le
  rw [if_pos hcolumn', hrow']
  exact getElem?_of_prefix hprefix hv

/-- A row that is added comes behind the others. -/
theorem addRow_extends {values : List Value} (h : t.addRow? values = some t')
    (ht : t.IsRectangular) : t'.Extends t ∧ t'.IsRectangular := by
  unfold addRow? at h
  obtain ⟨hlength, h⟩ := Option.ite_none_right_eq_some.mp h
  obtain rfl := Option.some.inj h
  refine ⟨⟨List.prefix_rfl, by simp [rowCount], fun i row hrow => ?_⟩, ?_⟩
  · exact ⟨row, getElem?_of_prefix (List.prefix_append t.rows [values]) hrow, List.prefix_rfl⟩
  · exact List.forall_mem_append.mpr ⟨ht, List.forall_mem_singleton.mpr hlength⟩

/-- A column that is added comes behind the others, with one value for each row. -/
theorem addColumn_extends {name : Text} {values : List Value}
    (h : t.addColumn? name values = some t') (ht : t.IsRectangular) :
    t'.Extends t ∧ t'.IsRectangular := by
  unfold addColumn? at h
  obtain ⟨hlength, h⟩ := Option.ite_none_right_eq_some.mp h
  obtain rfl := Option.some.inj h
  refine ⟨⟨List.prefix_append _ _, ?_, fun i row hrow => ?_⟩, fun row hrow => ?_⟩
  · simp [rowCount, hlength]
  · obtain ⟨hi, rfl⟩ := List.getElem?_eq_some_iff.mp hrow
    have hvalue : i < values.length := hlength ▸ hi
    refine ⟨t.rows[i] ++ [values[i]], ?_, List.prefix_append _ _⟩
    rw [row?, List.getElem?_zipWith, List.getElem?_eq_getElem hi, List.getElem?_eq_getElem hvalue]
  · obtain ⟨i, hi, rfl⟩ := List.getElem_of_mem hrow
    simp only [List.length_zipWith] at hi
    have hwidth := ht _ (List.getElem_mem (Nat.lt_of_lt_of_le hi (Nat.min_le_left _ _)))
    simp [columnCount, hwidth]

theorem grow_extends {g : Growth} (h : t.grow? g = some t') (ht : t.IsRectangular) :
    t'.Extends t ∧ t'.IsRectangular := by
  cases g with
  | row values => exact addRow_extends h ht
  | column name values => exact addColumn_extends h ht

/-- **Rows and columns that are added leave every cell where it is**, and each row as wide as the
    header. -/
theorem growAll_extends {more : List Growth} (h : t.growAll? more = some t')
    (ht : t.IsRectangular) : t'.Extends t ∧ t'.IsRectangular := by
  induction more generalizing t with
  | nil =>
    obtain rfl := Option.some.inj h
    exact ⟨.refl t, ht⟩
  | cons g more ih =>
    obtain ⟨next, hnext, hrest⟩ := Option.bind_eq_some_iff.mp h
    obtain ⟨hextends, hrectangular⟩ := grow_extends hnext ht
    obtain ⟨hmore, hlast⟩ := ih hrest hrectangular
    exact ⟨hmore.trans hextends, hlast⟩

end Table

/-! ## 4. The last result -/

section Last

variable {σ : Type} {e : Engine σ} {r : ResultSet} {t : Table}

/-- What a list is converted to is what each of its items is converted to. -/
theorem forall₂_of_mapM {α β : Type} {f : α → Except Fault β} {xs : List α} {ys : List β}
    (h : xs.mapM f = .ok ys) : List.Forall₂ (fun x y => f x = .ok y) xs ys := by
  induction xs generalizing ys with
  | nil =>
    obtain rfl := Except.ok.inj h
    exact .nil
  | cons x xs ih =>
    rw [List.mapM_cons] at h
    cases hx : f x with
    | error fault =>
      rw [hx] at h
      cases h
    | ok y =>
      cases hxs : xs.mapM f with
      | error fault =>
        rw [hx, hxs] at h
        cases h
      | ok rest =>
        rw [hx, hxs] at h
        obtain rfl := Except.ok.inj h
        exact .cons hx (ih hxs)

theorem forall₂_of_materializeRow {columns : List Text} {row : List Cell} {values : List Value}
    (h : Table.materializeRow columns row = .ok values) :
    List.Forall₂ Cell.Stands row values ∧ values.length = columns.length := by
  unfold Table.materializeRow at h
  cases hvalues : row.mapM Cell.toValue with
  | error fault =>
    rw [hvalues] at h
    cases h
  | ok vs =>
    rw [hvalues] at h
    by_cases hlength : vs.length = columns.length
    · obtain rfl : vs = values := by simpa [hlength, bind, Except.bind] using h
      exact ⟨(forall₂_of_mapM hvalues).imp fun _ _ => Cell.toValue_iff.mp, hlength⟩
    · simp [hlength, bind, Except.bind] at h

/-- **The table of a result holds what its cells stand for, place by place.** -/
theorem forall₂_of_ofResult (h : Table.ofResult r = .ok t) :
    t.columns = r.columns ∧ List.Forall₂ (List.Forall₂ Cell.Stands) r.rows t.rows ∧
      t.IsRectangular := by
  unfold Table.ofResult at h
  cases hrows : r.rows.mapM (Table.materializeRow r.columns) with
  | error fault =>
    rw [hrows] at h
    cases h
  | ok rows =>
    rw [hrows] at h
    obtain rfl := Except.ok.inj h
    have hall := (forall₂_of_mapM hrows).imp fun _ _ => forall₂_of_materializeRow
    refine ⟨rfl, hall.imp fun _ _ h => h.1, fun row hrow => ?_⟩
    obtain ⟨i, hi, rfl⟩ := List.getElem_of_mem hrow
    exact (hall.get (by rw [hall.length_eq]; exact hi) hi).2

/-- What follows for each item from its counterpart holds of all items. -/
theorem forall_mem_of_forall₂ {α β : Type} {R : α → β → Prop} {P : α → Prop} {as : List α}
    {bs : List β} (h : List.Forall₂ R as bs) (hP : ∀ a b, R a b → P a) : ∀ a ∈ as, P a :=
  ((List.forall₂_and_left as bs).mp (h.imp fun a b hab => ⟨hP a b hab, hab⟩)).1

/-- A cell that stands for a value has it. -/
theorem exists_value_of_stands {rows : List (List Cell)} {values : List (List Value)}
    (h : List.Forall₂ (List.Forall₂ Cell.Stands) rows values) :
    ∀ row ∈ rows, ∀ cell ∈ row, ∃ v, cell.toValue = .ok v :=
  forall_mem_of_forall₂ h fun _ _ hrow =>
    forall_mem_of_forall₂ hrow fun _ v hv => ⟨v, Cell.toValue_iff.mpr hv⟩

/-- The columns that a statement leaves are those that it was prepared with. -/
theorem leaves_columns {m : SentStatement σ} {p : Prepared} {s' : σ}
    (h : e.prepare (Text.untilZero m.sql) m.engine = (.ok (some p), s')) :
    (e.leaves m).columns = p.columns.map Text.untilZero := by
  unfold Engine.leaves Engine.exchange Engine.perform
  rw [h]
  dsimp only
  rcases e.give p m.values s' with ⟨_ | _, s''⟩ <;> rfl

/-- A last result whose cells are readable has a table. -/
theorem Engine.CellsReadable.table (he : e.CellsReadable) (sent : List (SentStatement σ)) :
    ∃ t, Table.ofResult (e.lastResult .empty sent) = .ok t := by
  unfold Engine.lastResult
  cases sent.getLast? with
  | none => exact ⟨{}, rfl⟩
  | some m => exact he.convert.table (Prod.eta _).symm

/-- **Reading place by place gives the table of the last result if all places are counted**, and
    stops the program if not. -/
theorem Engine.CellsReadable.held_table (he : e.CellsReadable) (sent : List (SentStatement σ)) :
    let r := e.lastResult .empty sent
    (r.held.IsCounted → r.held.table = Table.ofResult r) ∧
      (¬ r.held.IsCounted → r.held.table = .error .contract) := by
  intro r
  have hrows : ∀ row ∈ r.rows, row.length = r.columns.length := lastResult_rows e sent
  obtain ⟨t, ht⟩ := he.table sent
  obtain ⟨-, hstands, -⟩ := forall₂_of_ofResult ht
  exact ⟨held_table_eq hrows, held_table_refused (exists_value_of_stands hstands) hrows⟩

/-- **The table is that of the last statement.** If the cells that the engine delivers are readable,
    the fields have a table behind any calls, whether they have failed or not: the columns are those
    of the last statement that was sent, each name up to its first zero byte, the rows are its rows
    in their order, and every cell is what it stands for. Reading the fields place by place gives
    this table if the numbers of the reader are enough for every place, and stops the program if
    they are not; the connection gives it in either case, and stays as it is. Rows and columns that
    are added later leave every cell where it is and the table rectangular. -/
theorem table_of_last_result (he : e.CellsReadable) (separator : Text) (s : σ)
    (calls : List StorageCall) :
    let c := Connection.after e calls { engine := s, separator }
    let sent := e.sentBy separator calls s
    let fields := sent.foldl e.hold {}
    ∃ t, (fields.IsCounted → fields.table = .ok t) ∧
      (¬ fields.IsCounted → fields.table = .error .contract) ∧
      Access.table.Does c (.ok t) c ∧ c.result = e.lastResult .empty sent ∧
      t.columns = c.result.columns ∧
      (∀ m ∈ sent.getLast?, ∀ p s', e.prepare (Text.untilZero m.sql) m.engine = (.ok (some p), s') →
        t.columns = p.columns.map Text.untilZero) ∧
      List.Forall₂ (List.Forall₂ Cell.Stands) c.result.rows t.rows ∧ t.IsRectangular ∧
      ∀ first more t₁ t₂, t.growAll? first = some t₁ → t₁.growAll? more = some t₂ →
        t₂.IsRectangular ∧ t₂.Extends t₁ ∧
          ∀ row column v, t₁.cell? row column = some v → t₂.cell? row column = some v := by
  intro c sent fields
  have hresult : c.result = e.lastResult .empty sent :=
    after_result e calls { engine := s, separator }
  have hfields : fields = c.result.held := (foldl_hold e sent .empty).trans (by rw [hresult])
  obtain ⟨hcounted, hrefused⟩ := he.held_table sent
  obtain ⟨t, ht⟩ := he.table sent
  rw [← hresult] at ht hcounted hrefused
  obtain ⟨hcolumns, hstands, hrectangular⟩ := forall₂_of_ofResult ht
  rw [hfields]
  refine ⟨t, fun h => (hcounted h).trans ht, hrefused, ?_, hresult, hcolumns, ?_, hstands,
    hrectangular, ?_⟩
  · refine Access.Does.result.bind ?_
    rw [ht]
    exact .pure t
  · intro m hm p s' hprepared
    have hleft : c.result = e.leaves m := by
      rw [hresult, Engine.lastResult, Option.mem_def.mp hm]
      rfl
    rw [hcolumns, hleft]
    exact leaves_columns hprepared
  · intro first more t₁ t₂ hfirst hmore
    obtain ⟨-, hmiddle⟩ := Table.growAll_extends hfirst hrectangular
    obtain ⟨hextends, hlast⟩ := Table.growAll_extends hmore hmiddle
    exact ⟨hlast, hextends, fun row column v => hextends.cell⟩

/-- An engine that delivers a row with a cell of each type, and fails behind it on every other
    statement. -/
def Engine.mixed : Engine Nat where
  openDatabase _ n := (.ok (), n)
  prepare sql n :=
    (.ok (some ⟨sql, [ascii "i", ascii "f", ascii "t", ascii "b", ascii "n"], 1⟩), n + 1)
  bind _ _ n := (.ok (), n)
  execute _ _ n :=
    (⟨[[⟨.integer, ascii "-07"⟩, ⟨.float, ascii "2.5"⟩, ⟨.text, ascii " x"⟩, ⟨.blob, [0, 255]⟩,
      ⟨.null, ascii "0"⟩]], if n % 2 = 1 then some (ascii "disk I/O error") else none⟩, n)
  rollback n := n

/-- Behind a lookup that fails, a statement that succeeds and one that fails behind its first row,
    and with a column and a row more. -/
theorem table_of_last_result_mixed :
    let calls : List StorageCall := [.tableExists (ascii "t"), .query (ascii "SELECT * FROM t"),
      .query (ascii "SELECT * FROM t")]
    let c := Connection.after Engine.mixed calls { engine := 0 }
    let fields := (Engine.mixed.sentBy (ascii "__") calls 0).foldl Engine.mixed.hold {}
    let more : List Table.Growth := [.column (ascii "z") [.null], .row (List.replicate 6 .null)]
    Engine.mixed.CellsReadable ∧ ∃ t t', fields.table = .ok t ∧ Access.table.Does c (.ok t) c ∧
      t.rows.map (·.map Value.cell) =
        [[ascii "-7", ascii "2.5", ascii " x", [0, 255], ascii "NULL"]] ∧
      t.growAll? more = some t' ∧ t'.IsRectangular ∧ t'.cell? 0 0 = some (.integer (-7)) := by
  intro calls c fields more
  have hreadable : Engine.mixed.CellsReadable := by
    intro p parameters n row hrow cell hcell
    obtain rfl := List.mem_singleton.mp hrow
    simp only [List.mem_cons, List.not_mem_nil, or_false] at hcell
    rcases hcell with rfl | rfl | rfl | rfl | rfl
    · exact ⟨fun _ => ⟨-7, Text.int64_iff.mp (by decide +kernel)⟩, by simp⟩
    · refine ⟨by simp, fun _ => ?_⟩
      exact Option.isSome_iff_exists.mp (by decide +kernel)
    all_goals simp [Cell.IsReadable]
  obtain ⟨t, hread, -, ht, -, -, -, -, -, hgrowth⟩ :=
    table_of_last_result hreadable (ascii "__") 0 calls
  have hcounted : fields.IsCounted := fun _ _ => ⟨by decide +kernel, by decide +kernel⟩
  have hrows : ((Access.table.run.run c).1.toOption.map fun t => t.rows.map (·.map Value.cell)) =
      some [[ascii "-7", ascii "2.5", ascii " x", [0, 255], ascii "NULL"]] := by decide +kernel
  have hcell : ((Access.table.run.run c).1.toOption.bind (·.cell? 0 0)) = some (.integer (-7)) := by
    decide +kernel
  have hgrown : ((Access.table.run.run c).1.toOption.bind (·.growAll? more)).isSome = true := by
    decide +kernel
  have hends : Access.table.run.run c = (.ok t, c) := ht
  rw [hends] at hrows hcell hgrown
  obtain ⟨t', ht'⟩ := Option.isSome_iff_exists.mp hgrown
  obtain ⟨hrectangular, -, hcells⟩ := hgrowth [] more t t' rfl ht'
  exact ⟨hreadable, t, t', hread hcounted, ht, Option.some.inj hrows, ht', hrectangular,
    hcells 0 0 _ hcell⟩

/-- An engine that delivers the same rows for every statement. -/
def Engine.delivering (columns : List Text) (rows : List (List Cell)) : Engine Unit where
  openDatabase _ s := (.ok (), s)
  prepare sql s := (.ok (some ⟨sql, columns, 0⟩), s)
  bind _ _ s := (.ok (), s)
  execute _ _ s := (⟨rows, none⟩, s)
  rollback s := s

/-- **Not every result becomes a table, and not under the names that it has**: `2 ^ 31` rows are
    more than the reader can count, and a name is cut at its first zero byte. -/
theorem not_every_result_becomes_a_table :
    (¬ ∀ (e : Engine Unit) (calls : List StorageCall), e.CellsReadable →
      ∃ t, ((e.sentBy [] calls ()).foldl e.hold {}).table = .ok t) ∧
    ¬ ∀ (e : Engine Unit) (sql : Text) (p : Prepared) (t : Table), e.CellsReadable →
      e.prepare sql () = (.ok (some p), ()) →
      ((e.sentBy [] [.query sql] ()).foldl e.hold {}).table = .ok t → t.columns = p.columns := by
  refine ⟨fun h => ?_, fun h => ?_⟩
  · let e := Engine.delivering [ascii "a"] (List.replicate 2147483648 [Cell.null])
    let sent := e.sentBy [] [.query []] ()
    have hreadable : e.CellsReadable := by
      intro p parameters s row hrow cell hcell
      obtain rfl := List.eq_of_mem_replicate hrow
      obtain rfl := List.mem_singleton.mp hcell
      simp [Cell.IsReadable, Cell.null]
    have hmany : (e.lastResult .empty sent).held.rowCount = 2147483648 :=
      (List.length_map _).trans List.length_replicate
    have hcounted : ¬ (e.lastResult .empty sent).held.IsCounted := by
      intro hcounted
      have hfew := (hcounted (by omega) Nat.zero_lt_one).1
      omega
    have hrefused := (hreadable.held_table sent).2 hcounted
    obtain ⟨t, ht⟩ := h e [.query []] hreadable
    rw [← foldl_hold] at hrefused
    cases hrefused.symm.trans ht
  · have hread := h (Engine.delivering [[97, 0, 98]] []) [] _ ⟨[[97]], []⟩
      (fun p parameters s row hrow => absurd hrow List.not_mem_nil) rfl rfl
    exact absurd hread (by decide)

end Last

end MiningQuery
