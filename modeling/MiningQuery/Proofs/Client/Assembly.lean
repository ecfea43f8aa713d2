/-
  File:      MiningQuery/Proofs/Client/Assembly.lean
  Subject:   What the statements ask for that the client puts together from lines.

  Lines are joined by a blank and not by a line break. This makes no difference to a line in which no
  piece goes on to its end. A comment does, and so does a string without its second quote: they go
  on over the lines that follow.

  * `Block`, `blocks` -- the statements of an input, each with its lines;
  * `Sets`, **`Sets.visible_dropEnd`** -- the blanks around lines do not bear on the pieces of a
    statement;
  * **`statement_asks_as_its_lines`** -- a statement asks for what its lines ask for if no line goes
    on behind its end;
  * `not_every_statement_asks_as_its_lines` -- a comment in front of another line loses this line.
-/
import Mathlib.Data.List.DropRight
import MiningQuery.Client.Assembly
import MiningQuery.Proofs.Segment.Places

namespace MiningQuery

open Piece (visible)

/-! ## 1. Statements with their lines -/

/-- A statement, and the lines that it is put together from. -/
structure Block where
  lines : List Text
  text : Text
  deriving DecidableEq, Repr

/-- The statements of an input behind some lines that are pending, as `assembleFrom` finds them. -/
def blocksFrom (pending : Block) : List Text → List Block
  | [] => if pending.text.isEmpty then [] else [pending]
  | line :: rest =>
    match feed pending.text line with
    | .quit => []
    | .command _ => blocksFrom ⟨[], []⟩ rest
    | .taken text => blocksFrom ⟨pending.lines ++ [line], text⟩ rest
    | .statement text => ⟨pending.lines ++ [line], text⟩ :: blocksFrom ⟨[], []⟩ rest

/-- The statements of an input, each with its lines. -/
def blocks (input : List Text) : List Block := blocksFrom ⟨[], []⟩ input

/-- The statement that an event gives. -/
def LineEvent.statement? : LineEvent → Option Text
  | statement text => some text
  | _ => none

/-- The statements in the order of the input. -/
def Assembled.statements (a : Assembled) : List Text :=
  a.events.filterMap LineEvent.statement? ++ a.leftOpen.toList

/-- What a line adds to the pending lines of a statement. -/
def takenIn (line : Text) : Text :=
  if (Text.strip line).isEmpty then [] else ascii " " ++ Text.strip line

theorem feed_text {pending line text : Text}
    (h : feed pending line = .taken text ∨ feed pending line = .statement text) :
    text = pending ++ takenIn line := by
  have htaken : (if (Text.strip line).isEmpty then pending
      else pending ++ ascii " " ++ Text.strip line) = pending ++ takenIn line := by
    unfold takenIn
    split <;> simp
  unfold feed feedStripped at h
  rw [htaken] at h
  split at h
  · split at h <;> simp at h
  · dsimp only at h
    split at h <;> simpa [eq_comm] using h

/-- The statements are those of the lines put together. -/
theorem blocksFrom_text (pending : Block) (input : List Text) :
    (blocksFrom pending input).map (·.text) = (assembleFrom pending.text input).statements := by
  induction input generalizing pending with
  | nil =>
    simp only [blocksFrom, assembleFrom, openStatement, Assembled.statements]
    split <;> simp
  | cons line rest ih =>
    simp only [blocksFrom, assembleFrom]
    cases feed pending.text line with
    | quit => rfl
    | command | taken => exact ih _
    | statement text => exact congrArg _ (ih _)

/-- The text of a statement is what its lines add, one after the other, and the lines stand together
    in the input. -/
structure Block.Made (input : List Text) (b : Block) : Prop where
  text : b.text = (b.lines.map takenIn).flatten
  lines : b.lines <:+: input

theorem blocksFrom_made {pending : Block} {input : List Text}
    (hpending : pending.text = (pending.lines.map takenIn).flatten) :
    ∀ b ∈ blocksFrom pending input, b.Made (pending.lines ++ input) := by
  have hnone : (⟨[], []⟩ : Block).text = ((⟨[], []⟩ : Block).lines.map takenIn).flatten := rfl
  induction input generalizing pending with
  | nil =>
    intro b hb
    rw [blocksFrom] at hb
    split at hb
    · cases hb
    · obtain rfl := List.mem_singleton.mp hb
      exact ⟨hpending, by simp⟩
  | cons line rest ih =>
    have hmore : ∀ text, text = pending.text ++ takenIn line →
        text = ((pending.lines ++ [line]).map takenIn).flatten := by
      intro text htext
      simp [htext, hpending]
    have hlater : ∀ b ∈ blocksFrom ⟨[], []⟩ rest, b.Made (pending.lines ++ line :: rest) := by
      intro b hb
      obtain ⟨htext, hlines⟩ := ih hnone b hb
      have hsuffix : rest <:+ pending.lines ++ line :: rest :=
        (List.suffix_cons line rest).trans (List.suffix_append _ _)
      exact ⟨htext, hlines.trans hsuffix.isInfix⟩
    intro b hb
    rw [blocksFrom] at hb
    cases hfeed : feed pending.text line with
    | quit =>
      rw [hfeed] at hb
      cases hb
    | command =>
      rw [hfeed] at hb
      exact hlater b hb
    | taken text =>
      rw [hfeed] at hb
      have hmade := ih (hmore text (feed_text (.inl hfeed))) b hb
      rwa [List.append_assoc, List.singleton_append] at hmade
    | statement text =>
      rw [hfeed] at hb
      rcases List.mem_cons.mp hb with rfl | hb
      · refine ⟨hmore text (feed_text (.inr hfeed)), [], rest, ?_⟩
        simp
      · exact hlater b hb

theorem blocks_made {input : List Text} : ∀ b ∈ blocks input, b.Made input := blocksFrom_made rfl

/-! ## 2. The end of a statement -/

/-- The bytes that are dropped at the end of a statement. -/
def endsText (b : UInt8) : Bool := isBlank b || b == 59

section Ends

variable {s t : Text} {p : UInt8 → Bool}

theorem dropEnd_eq_nil : Text.dropEnd p t = [] ↔ ∀ b ∈ t, p b = true := List.rdropWhile_eq_nil_iff

theorem dropEnd_append (s t : Text) :
    Text.dropEnd p (s ++ t) =
      if Text.dropEnd p t = [] then Text.dropEnd p s else s ++ Text.dropEnd p t := by
  simp only [Text.dropEnd, List.reverse_append, List.dropWhile_append, List.isEmpty_iff,
    List.reverse_eq_nil_iff]
  split <;> simp

/-- The text and what is dropped at its end. -/
theorem exists_dropEnd_append (p : UInt8 → Bool) (t : Text) :
    ∃ run, (∀ b ∈ run, p b = true) ∧ t = Text.dropEnd p t ++ run :=
  ⟨t.rtakeWhile p, fun _ hb => List.mem_rtakeWhile_imp hb,
    List.rdropWhile_append_rtakeWhile.symm⟩

theorem takeWhile_blank (t : Text) : ∀ b ∈ t.takeWhile isBlank, isBlank b = true :=
  List.all_eq_true.mp List.all_takeWhile

/-- A line is what is left of it without the blanks at its ends, with these blanks. -/
theorem exists_strip (line : Text) :
    ∃ before after, line = before ++ Text.strip line ++ after ∧ (∀ b ∈ before, isBlank b = true) ∧
      ∀ b ∈ after, isBlank b = true := by
  obtain ⟨after, hafter, hline⟩ := exists_dropEnd_append isBlank (line.dropWhile isBlank)
  refine ⟨line.takeWhile isBlank, after, ?_, takeWhile_blank line, hafter⟩
  rw [List.append_assoc, Text.strip, Text.stripEnd, ← hline, List.takeWhile_append_dropWhile]

theorem endsText_of_blank {blanks : Text} (h : ∀ b ∈ blanks, isBlank b = true) :
    ∀ b ∈ blanks, endsText b = true := fun b hb => by simp [endsText, h b hb]

/-- The blanks in front of a text are no pieces to see, and neither is what is dropped at its end if
    it holds nothing else. -/
theorem visible_dropEnd_blanks {blanks : Text} (h : ∀ b ∈ blanks, isBlank b = true) (t : Text) :
    visible (Text.dropEnd endsText (blanks ++ t)) = visible (Text.dropEnd endsText t) := by
  rw [dropEnd_append]
  split
  · rename_i ht
    rw [dropEnd_eq_nil.mpr (endsText_of_blank h), ht]
  · exact Piece.visible_blanks_append h _

theorem visible_withoutTerminators (t : Text) :
    visible (withoutTerminators t) = visible (Text.dropEnd endsText t) := by
  have hdropped := visible_dropEnd_blanks (takeWhile_blank t) (t.dropWhile isBlank)
  rw [List.takeWhile_append_dropWhile] at hdropped
  exact hdropped.symm

/-- Nothing is left of a line if nothing is left of what stands between the blanks at its ends. -/
theorem withoutTerminators_eq_nil :
    withoutTerminators t = [] ↔ Text.dropEnd endsText (Text.strip t) = [] := by
  obtain ⟨after, hafter, hstrip⟩ := exists_dropEnd_append isBlank (t.dropWhile isBlank)
  have hdropped : Text.dropEnd endsText (t.dropWhile isBlank) =
      Text.dropEnd endsText (Text.strip t) := by
    rw [hstrip, dropEnd_append, if_pos (dropEnd_eq_nil.mpr (endsText_of_blank hafter))]
    rfl
  exact hdropped ▸ Iff.rfl

end Ends

/-! ## 3. Lines with blanks around them -/

/-- Every line is set with blanks around what it is without the blanks at its ends, one of them in
    front if there is anything of the line. -/
def Sets (f : Text → Text) : Prop :=
  ∀ line, ∃ before after, f line = before ++ Text.strip line ++ after ∧
    (∀ b ∈ before, isBlank b = true) ∧ (∀ b ∈ after, isBlank b = true) ∧
    (Text.strip line ≠ [] → before ≠ [])

/-- The client sets each line behind a blank, and leaves out a line of blanks. -/
theorem takenIn_sets : Sets takenIn := by
  intro line
  unfold takenIn
  split
  · rename_i hempty
    exact ⟨[], [], by simp [List.isEmpty_iff.mp hempty], by simp, by simp,
      fun h => absurd (List.isEmpty_iff.mp hempty) h⟩
  · exact ⟨[32], [], by simp [ascii], List.forall_mem_singleton.mpr rfl, by simp, fun _ => by simp⟩

/-- A line break sets a line as well. -/
theorem newline_sets : Sets fun line => 10 :: line := by
  intro line
  obtain ⟨before, after, hline, hbefore, hafter⟩ := exists_strip line
  refine ⟨10 :: before, after, ?_, List.forall_mem_cons.mpr ⟨rfl, hbefore⟩, hafter,
    fun _ => List.cons_ne_nil _ _⟩
  rw [List.cons_append, List.cons_append, ← hline]

section Lines

variable {f g : Text → Text} {lines : List Text}

/-- Behind some blanks a text adds its own pieces. -/
theorem visible_append_blanks {s blanks t : Text} (hs : SelfContained s)
    (h : ∀ b ∈ blanks, isBlank b = true) (ht : t ≠ [] → blanks ≠ []) :
    visible (s ++ (blanks ++ t)) = visible s ++ visible t := by
  cases blanks with
  | nil =>
    obtain rfl : t = [] := by
      by_contra hne
      exact ht hne rfl
    simp
  | cons b blanks =>
    obtain ⟨hb, h⟩ := List.forall_mem_cons.mp h
    rw [List.cons_append, visible_append hs hb, Piece.visible_blanks_append h]

/-- A text that has the pieces of self-contained lines is self-contained. -/
theorem selfContained_of_lines {s : Text} (h : ∀ line ∈ lines, SelfContained (Text.strip line))
    (hs : visible s = lines.flatMap fun line => visible (Text.strip line)) : SelfContained s := by
  intro p hp
  rw [hs] at hp
  obtain ⟨line, hline, hp⟩ := List.mem_flatMap.mp hp
  exact h line hline p hp

/-- Lines in which no piece goes on to the end have the same pieces together as each of them. -/
theorem Sets.visible_flatten (hf : Sets f) (h : ∀ line ∈ lines, SelfContained (Text.strip line)) :
    visible (lines.map f).flatten = lines.flatMap fun line => visible (Text.strip line) := by
  induction lines using List.reverseRecOn with
  | nil => exact Piece.visible_nil
  | append_singleton lines line ih =>
    obtain ⟨hlines, hline⟩ := List.forall_mem_append.mp h
    have hline' : SelfContained (Text.strip line) := hline line List.mem_cons_self
    have hfront : SelfContained (lines.map f).flatten := selfContained_of_lines hlines (ih hlines)
    obtain ⟨before, after, hset, hbefore, hafter, hne⟩ := hf line
    have hmiddle := visible_append_blanks hfront hbefore hne
    have hwhole : SelfContained ((lines.map f).flatten ++ (before ++ Text.strip line)) := by
      rw [SelfContained, hmiddle]
      exact List.forall_mem_append.mpr ⟨hfront, hline'⟩
    have hend := visible_append_blanks hwhole hafter (t := []) (by simp)
    rw [List.append_nil, Piece.visible_nil, List.append_nil, hmiddle, ih hlines] at hend
    simp only [List.map_append, List.map_singleton, List.flatten_append, List.flatten_singleton,
      List.flatMap_append, List.flatMap_singleton, hset]
    rw [← List.append_assoc]
    exact hend

/-- A line of which nothing is left is dropped with the blanks around it. -/
theorem Sets.dropped (hf : Sets f) {line : Text} (h : withoutTerminators line = []) :
    Text.dropEnd endsText (f line) = [] := by
  obtain ⟨before, after, hset, hbefore, hafter, -⟩ := hf line
  rw [hset, dropEnd_append, if_pos (dropEnd_eq_nil.mpr (endsText_of_blank hafter)),
    dropEnd_append, if_pos (withoutTerminators_eq_nil.mp h)]
  exact dropEnd_eq_nil.mpr (endsText_of_blank hbefore)

/-- A line that holds more than what is dropped at the end of a statement ends the statement. -/
theorem Sets.visible_last (hf : Sets f) {s line : Text} (hs : SelfContained s)
    (hline : Text.dropEnd endsText (Text.strip line) ≠ []) :
    visible (Text.dropEnd endsText (s ++ f line)) =
      visible s ++ visible (Text.dropEnd endsText (Text.strip line)) := by
  obtain ⟨before, after, hset, hbefore, hafter, hne⟩ := hf line
  have hnonempty : Text.strip line ≠ [] := by
    intro h
    rw [h] at hline
    exact hline rfl
  have hdropped : Text.dropEnd endsText (s ++ f line) =
      s ++ (before ++ Text.dropEnd endsText (Text.strip line)) := by
    have hparts : s ++ f line = s ++ before ++ Text.strip line ++ after := by
      rw [hset]
      simp
    rw [hparts, dropEnd_append _ after, if_pos (dropEnd_eq_nil.mpr (endsText_of_blank hafter)),
      dropEnd_append _ (Text.strip line), if_neg hline, List.append_assoc]
  rw [hdropped]
  exact visible_append_blanks hs hbefore fun _ => hne hnonempty

/-- **The blanks around the lines do not bear on the pieces of a statement**, if no line that more
    follows goes on behind its end. -/
theorem Sets.visible_dropEnd (hf : Sets f) (hg : Sets g)
    (h : lines.Pairwise fun line later =>
      withoutTerminators later ≠ [] → SelfContained (Text.strip line)) :
    visible (Text.dropEnd endsText (lines.map f).flatten) =
      visible (Text.dropEnd endsText (lines.map g).flatten) := by
  -- from the end, because lines are dropped there until one has something left
  induction lines using List.reverseRecOn with
  | nil => rfl
  | append_singleton lines line ih =>
    obtain ⟨hlines, -, hlast⟩ := List.pairwise_append.mp h
    simp only [List.map_append, List.map_singleton, List.flatten_append, List.flatten_singleton]
    by_cases hdropped : withoutTerminators line = []
    · have hset : ∀ {f : Text → Text}, Sets f → Text.dropEnd endsText (f line) = [] :=
        fun hf => hf.dropped hdropped
      rw [dropEnd_append, if_pos (hset hf), dropEnd_append, if_pos (hset hg)]
      exact ih hlines
    · have hcontained : ∀ l ∈ lines, SelfContained (Text.strip l) :=
        fun l hl => hlast l hl line List.mem_cons_self hdropped
      have hline : Text.dropEnd endsText (Text.strip line) ≠ [] :=
        fun e => hdropped (withoutTerminators_eq_nil.mpr e)
      have hfront := hf.visible_flatten hcontained
      have hfront' := hg.visible_flatten hcontained
      rw [hf.visible_last (selfContained_of_lines hcontained hfront) hline,
        hg.visible_last (selfContained_of_lines hcontained hfront') hline, hfront, hfront']

end Lines

/-! ## 4. Statements and their lines -/

/-- No line that more follows goes on behind its end. -/
def Block.LinesEnd (b : Block) : Prop :=
  b.lines.Pairwise fun line later =>
    withoutTerminators later ≠ [] → SelfContained (Text.strip line)

instance (b : Block) : Decidable b.LinesEnd := inferInstanceAs (Decidable (b.lines.Pairwise _))

/-- The lines of the statement as they stand in the input. -/
def Block.written (b : Block) : Text := Text.join (ascii "\n") b.lines

theorem newline_join {line : Text} {lines : List Text} :
    10 :: Text.join (ascii "\n") (line :: lines) =
      ((line :: lines).map fun line => 10 :: line).flatten := by
  induction lines generalizing line with
  | nil => simp [Text.join]
  | cons next lines ih =>
    have hjoin : Text.join (ascii "\n") (line :: next :: lines) =
        line ++ 10 :: Text.join (ascii "\n") (next :: lines) := by
      rw [Text.join, List.intercalate_cons_cons]
      simp [ascii, Text.join]
    rw [hjoin, ih]
    rfl

/-- **A statement has the pieces of its lines**, if no line goes on behind its end. -/
theorem Block.visible_text {input : List Text} {b : Block} (hb : b ∈ blocks input)
    (h : b.LinesEnd) :
    visible (withoutTerminators b.text) = visible (withoutTerminators b.written) := by
  rw [visible_withoutTerminators, visible_withoutTerminators, (blocks_made b hb).text,
    takenIn_sets.visible_dropEnd newline_sets h, written]
  cases b.lines with
  | nil => rfl
  | cons line lines =>
    have hblank : ∀ b ∈ [(10 : UInt8)], isBlank b = true := List.forall_mem_singleton.mpr rfl
    rw [← newline_join]
    exact visible_dropEnd_blanks hblank _

/-- **A statement asks for what its lines ask for.** The blocks are the statements of the input in
    their order, each with lines that stand together in it. If no line of a statement goes on behind
    its end, the statement and the lines as they are written are one query, with errors both or
    neither. -/
theorem statement_asks_as_its_lines (settings : ReadSettings) (input : List Text) :
    (blocks input).map (·.text) = (assemble input).statements ∧
      ∀ b ∈ blocks input, b.lines <:+: input ∧ (b.LinesEnd →
        ∃ q q', Query.ofText settings (withoutTerminators b.text) = .ok q ∧
          Query.ofText settings (withoutTerminators b.written) = .ok q' ∧
          q.asks = q'.asks ∧ q.hasErrors = q'.hasErrors) := by
  refine ⟨blocksFrom_text ⟨[], []⟩ input, fun b hb => ⟨(blocks_made b hb).lines, fun hlines => ?_⟩⟩
  have hvisible : visible (withoutTerminators b.text) = visible (withoutTerminators b.written) :=
    Block.visible_text hb hlines
  exact Query.asks_of_visible settings hvisible

/-- A statement on three lines, the second of which holds a semicolon in a string and the last a
    comment, behind a command and a blank line. -/
theorem statement_asks_as_its_lines_three :
    ∃ b ∈ blocks [ascii "\\t", [], ascii "FROM t", ascii "  WHERE a = 'x;'  ",
        ascii "AND b < 2 -- low;"],
      b.text = ascii " FROM t WHERE a = 'x;' AND b < 2 -- low;" ∧ b.LinesEnd ∧
      ∃ q q', Query.ofText {} (withoutTerminators b.text) = .ok q ∧
        Query.ofText {} (withoutTerminators b.written) = .ok q' ∧
        q.asks = q'.asks ∧ q.hasErrors = q'.hasErrors := by
  let b : Block := ⟨[[], ascii "FROM t", ascii "  WHERE a = 'x;'  ", ascii "AND b < 2 -- low;"],
    ascii " FROM t WHERE a = 'x;' AND b < 2 -- low;"⟩
  have hb : b ∈ blocks [ascii "\\t", [], ascii "FROM t", ascii "  WHERE a = 'x;'  ",
      ascii "AND b < 2 -- low;"] := by decide +kernel
  have hlines : b.LinesEnd := by decide +kernel
  exact ⟨b, hb, rfl, hlines, ((statement_asks_as_its_lines {} _).2 b hb).2 hlines⟩

/-- A comment goes on over the lines behind it, so not every statement asks for what its lines ask
    for: here the condition is lost. -/
theorem not_every_statement_asks_as_its_lines :
    ¬ ∀ settings input, ∀ b ∈ blocks input,
      ∃ q q', Query.ofText settings (withoutTerminators b.text) = .ok q ∧
        Query.ofText settings (withoutTerminators b.written) = .ok q' ∧
        q.asks = q'.asks ∧ q.hasErrors = q'.hasErrors := by
  intro h
  let b : Block := ⟨[ascii "FROM t -- all rows", ascii "WHERE a = 1;"],
    ascii " FROM t -- all rows WHERE a = 1;"⟩
  obtain ⟨q, q', hq, hq', hasks, -⟩ := h {} b.lines b (by decide +kernel)
  have hlost : (Query.ofText {} (withoutTerminators b.text)).map (·.condition) = .ok none := by
    decide +kernel
  have hkept : (Query.ofText {} (withoutTerminators b.written)).map (·.condition) =
      .ok (some (.compare (ascii "a") (.compare .eq) (.integer 1))) := by
    decide +kernel
  rw [hq] at hlost
  rw [hq'] at hkept
  have hsame : q.asks.condition = q'.asks.condition := congrArg Query.condition hasks
  change q.condition = q'.condition at hsame
  have hnone : q.condition = none := Except.ok.inj hlost
  rw [hnone] at hsame
  cases hsame.trans (Except.ok.inj hkept)

end MiningQuery
