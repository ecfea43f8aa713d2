/-
  File:      MiningQuery/Proofs/Client/Jobs.lean
  Subject:   The commands and statements that the client finds in its input, and their run.

  No line is lost and none is used twice: up to the line that ends everything, a line that holds
  anything is a command or belongs to one statement.

  * `Text.HasLines`, `Text.hasLines` -- the lines of a text with their newlines are the text;
  * `Job`, `Parts` -- commands and statements, and where each of them begins and ends;
  * `Parts.lines_eq`, `Parts.unique` -- all lines are used once, and they part in one way only;
  * `exists_parts` -- what is put together from the lines are the commands and statements in order;
  * `Client.Served` -- the jobs are done one after the other, with prompts in between;
  * **`runText_serves_lines`** -- the client does just what its lines ask for, in their order, and
    tells how many statements failed.
-/
import Mathlib.Data.List.Basic
import MiningQuery.Client.Commands

namespace MiningQuery

/-! ## 1. The lines of a text -/

/-- These are the lines of a text: with newlines behind them they are the text, but for a newline
    that is missing behind a last line that holds something. -/
def Text.HasLines (text : Text) (lines : List Text) : Prop :=
  (∀ line ∈ lines, 10 ∉ line) ∧
    (text = lines.flatMap (· ++ [10]) ∨
      text ++ [10] = lines.flatMap (· ++ [10]) ∧ ∃ b ∈ text.getLast?, b ≠ 10)

theorem Text.hasLines (text : Text) : text.HasLines (Text.lines text) := by
  induction text with
  | nil => exact ⟨by simp [Text.lines], .inl rfl⟩
  | cons b rest ih =>
    obtain ⟨hfree, hends⟩ := ih
    have hlast : (∃ c ∈ rest.getLast?, c ≠ 10) → ∃ c ∈ (b :: rest).getLast?, c ≠ 10 := by
      rintro ⟨c, hc, hne⟩
      exact ⟨c, List.mem_getLast?_cons hc, hne⟩
    rw [Text.lines]
    by_cases hb : b = 10
    · subst hb
      refine ⟨by simpa using hfree, ?_⟩
      exact hends.imp (congrArg (10 :: ·)) fun ⟨h, hne⟩ => ⟨congrArg (10 :: ·) h, hlast hne⟩
    · rw [if_neg (by simpa using hb)]
      cases hlines : Text.lines rest with
      | nil =>
        rw [hlines] at hends
        obtain rfl : rest = [] := by simpa using hends
        exact ⟨by simpa using Ne.symm hb, .inr ⟨rfl, b, rfl, hb⟩⟩
      | cons line lines =>
        rw [hlines] at hfree hends
        obtain ⟨hline, hrest⟩ := List.forall_mem_cons.mp hfree
        refine ⟨List.forall_mem_cons.mpr ⟨by simpa using ⟨Ne.symm hb, hline⟩, hrest⟩, ?_⟩
        exact hends.imp (congrArg (b :: ·)) fun ⟨h, hne⟩ => ⟨congrArg (b :: ·) h, hlast hne⟩

/-! ## 2. Commands and statements -/

/-- A command with its line, or a statement with its lines. -/
inductive Job
  | command (line : Text)
  | statement (lines : List Text)
  deriving DecidableEq, Repr

/-- The lines that a job is made of. -/
def Job.lines : Job → List Text
  | command line => [line]
  | statement lines => lines

/-- The statement that lines make up: behind a blank, and with blanks in between. -/
def joined (lines : List Text) : Text := ascii " " ++ Text.join (ascii " ") (lines.map Text.strip)

/-- Is there anything in a line? -/
def isFilled (line : Text) : Bool := !(Text.strip line).isEmpty

/-- Does a line end in `;`? -/
def isTerminated (line : Text) : Bool := (Text.strip line).getLast? == some 59

/-- Does a line begin with a backslash? -/
def isBackslashed (line : Text) : Bool := (Text.strip line).head? == some 92

/-- Is a line the command that ends everything? -/
def isQuit (line : Text) : Bool := Text.strip line == ascii "\\q"

/-- Lines that make up a statement: something stands in each, the first is no command, and only
    the last may end in `;`. -/
structure MakeStatement (lines : List Text) : Prop where
  nonempty : lines ≠ []
  filled : ∀ line ∈ lines, isFilled line = true
  begins : ∀ line ∈ lines.head?, isBackslashed line = false
  goesOn : ∀ line ∈ lines.dropLast, isTerminated line = false

/-- The lines in front of others make up a whole statement: the last ends in `;`, or it is the last
    line in front of an empty one, or of the input. -/
def Completed (lines rest : List Text) : Prop :=
  (∃ line ∈ lines.getLast?, isTerminated line = true) ∨ ∀ line ∈ rest.head?, isFilled line = false

/-- **Where jobs begin and end.** The lines are made up of these jobs and of empty lines between
    them, up to the lines that are left behind the first command that ends everything. -/
inductive Parts : List Text → List Job → List Text → Prop
  | ended : Parts [] [] []
  | quit {line rest} : isQuit line = true → Parts (line :: rest) [] (line :: rest)
  | gap {line rest jobs left} : isFilled line = false → Parts rest jobs left →
      Parts (line :: rest) jobs left
  | command {line rest jobs left} : isBackslashed line = true → isQuit line = false →
      Parts rest jobs left → Parts (line :: rest) (.command line :: jobs) left
  | statement {lines rest jobs left} : MakeStatement lines → Completed lines rest →
      Parts rest jobs left → Parts (lines ++ rest) (.statement lines :: jobs) left

section Lines

variable {line : Text}

theorem isFilled_of_backslashed (h : isBackslashed line = true) : isFilled line = true := by
  unfold isBackslashed at h
  unfold isFilled
  cases hline : Text.strip line with
  | nil => simp [hline] at h
  | cons => rfl

theorem isBackslashed_of_quit (h : isQuit line = true) : isBackslashed line = true := by
  rw [isQuit, beq_iff_eq] at h
  rw [isBackslashed, h]
  rfl

end Lines

namespace Parts

variable {lines left left' : List Text} {jobs jobs' : List Job}

/-- **Every line up to the end is used once, in its place**: the lines of the jobs are the lines in
    front of what is left, but for the empty ones. -/
theorem lines_eq (h : Parts lines jobs left) :
    ∃ used, lines = used ++ left ∧ jobs.flatMap Job.lines = used.filter isFilled ∧
      ∀ line ∈ left.head?, isQuit line = true := by
  induction h with
  | ended => exact ⟨[], rfl, rfl, by simp⟩
  | quit hquit => exact ⟨[], rfl, rfl, by simpa using hquit⟩
  | @gap line _ _ _ hfilled _ ih =>
    obtain ⟨used, rfl, hused, hleft⟩ := ih
    exact ⟨line :: used, rfl, by rw [hused, List.filter_cons_of_neg (by simp [hfilled])], hleft⟩
  | @command line _ _ _ hbackslashed _ _ ih =>
    obtain ⟨used, rfl, hused, hleft⟩ := ih
    refine ⟨line :: used, rfl, ?_, hleft⟩
    rw [List.filter_cons_of_pos (isFilled_of_backslashed hbackslashed), ← hused]
    rfl
  | @statement lines _ _ _ hmake _ _ ih =>
    obtain ⟨used, rfl, hused, hleft⟩ := ih
    refine ⟨lines ++ used, (List.append_assoc ..).symm, ?_, hleft⟩
    rw [List.filter_append, List.filter_eq_self.mpr hmake.filled, ← hused]
    rfl

end Parts

section Unique

variable {line : Text} {lines more rest left : List Text} {jobs : List Job}

/-- A statement that is complete goes no further. -/
theorem Completed.append_eq_nil (h : Completed lines (more ++ rest))
    (hmore : MakeStatement (lines ++ more)) : more = [] := by
  cases more with
  | nil => rfl
  | cons next more =>
    rcases h with ⟨line, hline, hterminated⟩ | hempty
    · have hmem : line ∈ (lines ++ next :: more).dropLast := by
        rw [List.dropLast_append_of_ne_nil (List.cons_ne_nil _ _)]
        exact List.mem_append_left _ (List.mem_of_getLast? hline)
      rw [hmore.goesOn line hmem] at hterminated
      cases hterminated
    · have hfilled := hmore.filled next (by simp)
      rw [hempty next rfl] at hfilled
      cases hfilled

/-- Two whole statements at the beginning of the same lines are the same. -/
theorem Completed.unique {lines' rest' : List Text} (h : Completed lines rest)
    (h' : Completed lines' rest') (hmake : MakeStatement lines) (hmake' : MakeStatement lines')
    (heq : lines ++ rest = lines' ++ rest') : lines = lines' ∧ rest = rest' := by
  rcases List.append_eq_append_iff.mp heq with ⟨more, rfl, rfl⟩ | ⟨more, rfl, rfl⟩
  · obtain rfl := h.append_eq_nil hmake'
    simp
  · obtain rfl := h'.append_eq_nil hmake
    simp

theorem MakeStatement.head (h : MakeStatement (line :: rest)) :
    isFilled line = true ∧ isBackslashed line = false :=
  ⟨h.filled line List.mem_cons_self, h.begins line rfl⟩

/-- What the first line can be. -/
theorem Parts.of_cons (h : Parts (line :: rest) jobs left) :
    (isQuit line = true ∧ jobs = [] ∧ left = line :: rest) ∨
    (isFilled line = false ∧ Parts rest jobs left) ∨
    (isBackslashed line = true ∧ isQuit line = false ∧
      ∃ later, jobs = .command line :: later ∧ Parts rest later left) ∨
    (isFilled line = true ∧ isBackslashed line = false ∧
      ∃ lines rest' later, line :: rest = lines ++ rest' ∧ MakeStatement lines ∧
        Completed lines rest' ∧ jobs = .statement lines :: later ∧ Parts rest' later left) := by
  generalize hall : line :: rest = all at h
  cases h with
  | ended => cases hall
  | quit hquit =>
    obtain ⟨rfl, rfl⟩ := List.cons.inj hall
    exact .inl ⟨hquit, rfl, rfl⟩
  | gap hfilled hrest =>
    obtain ⟨rfl, rfl⟩ := List.cons.inj hall
    exact .inr (.inl ⟨hfilled, hrest⟩)
  | command hbackslashed hquit hrest =>
    obtain ⟨rfl, rfl⟩ := List.cons.inj hall
    exact .inr (.inr (.inl ⟨hbackslashed, hquit, _, rfl, hrest⟩))
  | @statement lines _ _ _ hmake hcompleted hrest =>
    have hhead : isFilled line = true ∧ isBackslashed line = false := by
      obtain ⟨first, lines, rfl⟩ := List.exists_cons_of_ne_nil hmake.nonempty
      obtain rfl := (List.cons.inj hall).1
      exact hmake.head
    exact .inr (.inr (.inr ⟨hhead.1, hhead.2, lines, _, _, rfl, hmake, hcompleted, rfl, hrest⟩))

/-- **The lines part in one way only.** -/
theorem Parts.unique {left' : List Text} {jobs' : List Job} (h : Parts lines jobs left)
    (h' : Parts lines jobs' left') : jobs' = jobs ∧ left' = left := by
  induction h generalizing jobs' left' with
  | ended =>
    generalize hall : ([] : List Text) = all at h'
    cases h' with
    | ended => exact ⟨rfl, rfl⟩
    | statement hmake =>
      exact absurd (List.append_eq_nil_iff.mp hall.symm).1 hmake.nonempty
    | _ => cases hall
  | quit hquit =>
    have hbackslashed := isBackslashed_of_quit hquit
    have hfilled := isFilled_of_backslashed hbackslashed
    rcases h'.of_cons with ⟨-, rfl, rfl⟩ | ⟨hempty, -⟩ | ⟨-, hother, -⟩ | ⟨-, hother, -⟩
    · exact ⟨rfl, rfl⟩
    all_goals simp_all
  | gap hempty _ ih =>
    rcases h'.of_cons with ⟨hquit, -⟩ | ⟨-, hrest⟩ | ⟨hother, -⟩ | ⟨hother, -⟩
    · simp [isFilled_of_backslashed (isBackslashed_of_quit hquit)] at hempty
    · exact ih hrest
    · simp [isFilled_of_backslashed hother] at hempty
    · simp [hother] at hempty
  | command hbackslashed hquit _ ih =>
    rcases h'.of_cons with ⟨hother, -⟩ | ⟨hother, -⟩ | ⟨-, -, later, rfl, hrest⟩ | ⟨-, hother, -⟩
    · simp [hother] at hquit
    · simp [isFilled_of_backslashed hbackslashed] at hother
    · obtain ⟨rfl, rfl⟩ := ih hrest
      exact ⟨rfl, rfl⟩
    · simp [hbackslashed] at hother
  | @statement lines rest _ _ hmake hcompleted _ ih =>
    obtain ⟨line, lines, rfl⟩ := List.exists_cons_of_ne_nil hmake.nonempty
    obtain ⟨hfilled, hbackslashed⟩ := hmake.head
    rcases h'.of_cons with ⟨hother, -⟩ | ⟨hother, -⟩ | ⟨hother, -⟩ |
      ⟨-, -, lines', rest', later, heq, hmake', hcompleted', rfl, hrest⟩
    · simp [isBackslashed_of_quit hother] at hbackslashed
    · simp [hother] at hfilled
    · simp [hother] at hbackslashed
    · obtain ⟨rfl, rfl⟩ := hcompleted.unique hcompleted' hmake hmake' heq
      obtain ⟨rfl, rfl⟩ := ih hrest
      exact ⟨rfl, rfl⟩

end Unique

/-! ## 3. What is put together -/

/-- What the client is asked to do for a job. -/
def Job.event : Job → LineEvent
  | command line => .command (Text.strip line)
  | statement lines => .statement (joined lines)

/-- Does an event ask for anything to be done? -/
def LineEvent.asks : LineEvent → Bool
  | command _ => true
  | statement _ => true
  | _ => false

/-- All that is asked for, in order. -/
def Assembled.asked (a : Assembled) : List LineEvent :=
  a.events.filter LineEvent.asks ++ a.leftOpen.toList.map .statement

/-- These lines are pending: none, or lines of a statement that goes on. -/
def Pend (lines : List Text) (pending : Text) : Prop :=
  (lines = [] ∧ pending = []) ∨
    MakeStatement lines ∧ (∀ line ∈ lines, isTerminated line = false) ∧ pending = joined lines

section Feed

variable {pending line : Text} {lines : List Text}

theorem feed_empty (pending : Text) (h : isFilled line = false) :
    feed pending line = if pending = [] then .taken [] else .statement pending := by
  have hline : Text.strip line = [] := by simpa [isFilled] using h
  cases pending <;> simp [feed, feedStripped, hline, endsStatement]

theorem feed_backslashed (h : isBackslashed line = true) :
    feed [] line = if isQuit line then .quit else .command (Text.strip line) := by
  unfold isBackslashed at h
  simp [feed, feedStripped, isQuit, h]

theorem feed_filled (h : isFilled line = true)
    (hfirst : pending = [] → isBackslashed line = false) :
    feed pending line =
      if isTerminated line then .statement (pending ++ ascii " " ++ Text.strip line)
      else .taken (pending ++ ascii " " ++ Text.strip line) := by
  have hline : (Text.strip line).isEmpty = false := by simpa [isFilled] using h
  have hno : (pending.isEmpty && (Text.strip line).head? == some 92) = false := by
    cases pending with
    | nil => simpa [isBackslashed] using hfirst rfl
    | cons => rfl
  simp [feed, feedStripped, hno, hline, endsStatement, isTerminated, ascii]

/-- Each line of a statement stands behind a blank. -/
theorem joined_eq (h : lines ≠ []) :
    joined lines = lines.flatMap fun line => ascii " " ++ Text.strip line := by
  obtain ⟨line, lines, rfl⟩ := List.exists_cons_of_ne_nil h
  rw [joined, List.map_cons, Text.join_cons, List.flatMap_map, ← List.append_assoc,
    List.flatMap_cons]

/-- A line that holds something and is no command goes on with the statement. -/
theorem Pend.more (h : Pend lines pending) (hfilled : isFilled line = true)
    (hfirst : pending = [] → isBackslashed line = false) :
    MakeStatement (lines ++ [line]) ∧
      pending ++ ascii " " ++ Text.strip line = joined (lines ++ [line]) := by
  rw [joined_eq (by simp), List.flatMap_append, List.flatMap_singleton, List.append_assoc]
  rcases h with ⟨rfl, rfl⟩ | ⟨hmake, hopen, rfl⟩
  · exact ⟨⟨by simp, by simpa using hfilled, by simpa using hfirst, by simp⟩, rfl⟩
  · rw [joined_eq hmake.nonempty]
    refine ⟨⟨by simp, ?_, ?_, ?_⟩, rfl⟩
    · exact List.forall_mem_append.mpr ⟨hmake.filled, List.forall_mem_singleton.mpr hfilled⟩
    · obtain ⟨first, lines, rfl⟩ := List.exists_cons_of_ne_nil hmake.nonempty
      exact hmake.begins
    · rwa [List.dropLast_concat]

theorem Pend.eq_nil_iff (h : Pend lines pending) : pending = [] ↔ lines = [] := by
  rcases h with ⟨rfl, rfl⟩ | ⟨hmake, -, rfl⟩
  · simp
  · simp [hmake.nonempty, joined, ascii]

theorem Pend.not_terminated (h : Pend lines pending) :
    ∀ line ∈ lines, isTerminated line = false := by
  rcases h with ⟨rfl, -⟩ | ⟨-, hopen, -⟩
  · simp
  · exact hopen

theorem Pend.statement (h : Pend lines pending) (hne : pending ≠ []) :
    MakeStatement lines ∧ pending = joined lines := by
  rcases h with ⟨-, rfl⟩ | ⟨hmake, -, rfl⟩
  · exact absurd rfl hne
  · exact ⟨hmake, rfl⟩

theorem asked_cons {event : LineEvent} {rest : List Text} (h : feed pending line = event)
    (hquit : event ≠ .quit) :
    (assembleFrom pending (line :: rest)).asked =
      [event].filter LineEvent.asks ++ (assembleFrom event.pending rest).asked := by
  rw [assembleFrom, h]
  cases event with
  | quit => exact absurd rfl hquit
  | _ => rfl

end Feed

/-- **What is put together from the lines are their commands and statements in order.** -/
theorem exists_parts {lines : List Text} {pending : Text} (h : Pend lines pending)
    (input : List Text) :
    ∃ jobs left, Parts (lines ++ input) jobs left ∧
      (assembleFrom pending input).asked = jobs.map Job.event := by
  have hnone : Pend [] [] := .inl ⟨rfl, rfl⟩
  induction input generalizing lines pending with
  | nil =>
    rw [List.append_nil]
    by_cases hpending : pending = []
    · obtain rfl := h.eq_nil_iff.mp hpending
      subst hpending
      exact ⟨[], [], .ended, rfl⟩
    · obtain ⟨hmake, rfl⟩ := h.statement hpending
      have hparts : Parts (lines ++ []) [.statement lines] [] :=
        .statement hmake (.inr (by simp)) .ended
      rw [List.append_nil] at hparts
      exact ⟨_, _, hparts, by simp [assembleFrom, Assembled.asked, openStatement, hpending,
        Job.event]⟩
  | cons line rest ih =>
    cases hfilled : isFilled line with
    | false =>
      have hfeed := feed_empty pending hfilled
      obtain ⟨jobs, left, hparts, hasked⟩ := ih hnone
      by_cases hpending : pending = []
      · obtain rfl := h.eq_nil_iff.mp hpending
        rw [if_pos hpending] at hfeed
        exact ⟨jobs, left, .gap hfilled hparts, (asked_cons hfeed (by simp)).trans hasked⟩
      · obtain ⟨hmake, rfl⟩ := h.statement hpending
        rw [if_neg hpending] at hfeed
        have hcompleted : Completed lines (line :: rest) := .inr (by simpa using hfilled)
        refine ⟨_, left, .statement hmake hcompleted (.gap hfilled hparts), ?_⟩
        exact (asked_cons hfeed (by simp)).trans (congrArg (_ :: ·) hasked)
    | true =>
      by_cases hfirst : pending = [] → isBackslashed line = false
      · have hfeed := feed_filled hfilled hfirst
        obtain ⟨hmake, htext⟩ := h.more hfilled hfirst
        rw [htext] at hfeed
        rw [List.append_cons]
        cases hterminated : isTerminated line with
        | true =>
          rw [if_pos hterminated] at hfeed
          obtain ⟨jobs, left, hparts, hasked⟩ := ih hnone
          have hcompleted : Completed (lines ++ [line]) rest :=
            .inl ⟨line, by simp, hterminated⟩
          refine ⟨_, left, .statement hmake hcompleted hparts, ?_⟩
          exact (asked_cons hfeed (by simp)).trans (congrArg (_ :: ·) hasked)
        | false =>
          rw [if_neg (by simp [hterminated])] at hfeed
          have hopen : ∀ l ∈ lines ++ [line], isTerminated l = false :=
            List.forall_mem_append.mpr ⟨h.not_terminated, List.forall_mem_singleton.mpr hterminated⟩
          obtain ⟨jobs, left, hparts, hasked⟩ := ih (.inr ⟨hmake, hopen, rfl⟩)
          exact ⟨jobs, left, hparts, (asked_cons hfeed (by simp)).trans hasked⟩
      · obtain ⟨rfl, hbackslashed⟩ := Classical.not_imp.mp hfirst
        obtain rfl := h.eq_nil_iff.mp rfl
        rw [Bool.not_eq_false] at hbackslashed
        have hfeed := feed_backslashed hbackslashed
        cases hquit : isQuit line with
        | true =>
          rw [if_pos hquit] at hfeed
          exact ⟨[], _, .quit hquit, by rw [assembleFrom, hfeed]; rfl⟩
        | false =>
          rw [if_neg (by simp [hquit])] at hfeed
          obtain ⟨jobs, left, hparts, hasked⟩ := ih hnone
          refine ⟨_, left, .command hbackslashed hquit hparts, ?_⟩
          exact (asked_cons hfeed (by simp)).trans (congrArg (_ :: ·) hasked)

/-! ## 4. The run -/

/-- From one screen the computation ends so and leaves the other. -/
def Showing.Does {σ α : Type} (a : Showing σ α) (s : Screen σ) (o : Except Fault α)
    (s' : Screen σ) : Prop := a.run.run s = (o, s')

namespace Showing.Does

variable {σ α β : Type} {a : Showing σ α} {f : α → Showing σ β} {s s' s'' : Screen σ} {x : α}
  {o : Except Fault β} {fault : Fault}

theorem bind (h : Does a s (.ok x) s') (hf : Does (f x) s' o s'') : Does (a >>= f) s o s'' := by
  unfold Does at *
  rw [ExceptT.run_bind, StateT.run_bind, h]
  exact hf

theorem bind_error (h : Does a s (.error fault) s') : Does (a >>= f) s (.error fault) s' := by
  unfold Does at *
  rw [ExceptT.run_bind, StateT.run_bind, h]
  rfl

theorem pure (x : α) : Does (Pure.pure x) s (.ok x) s := rfl

end Showing.Does

namespace Client

open Showing (Does)

variable {σ : Type} (e : Engine σ) (r : Runner)

/-- Does a job and tells whether it went well; a command always does, unless it is a fault. -/
def perform : Job → Showing σ Bool
  | .command line => do
    runCommand e r.settings (Text.strip line)
    return true
  | .statement lines => runStatement e r (joined lines)

/-- Nothing is written between two screens but prompts, and these only if the client asks for
    lines. -/
def Prompted (interactive : Bool) (s s' : Screen σ) : Prop :=
  ∃ prompts : List Text,
    (∀ p ∈ prompts, interactive = true ∧ (p = ascii "dmql> " ∨ p = ascii "...> ")) ∧
    s' = { s with output := s.output ++ prompts.flatten }

/-- **The jobs are done one after the other**, each on the screen that the one before it leaves but
    for prompts, up to the first fault. The outcome says how each of them went. -/
inductive Served (interactive : Bool) :
    List Job → Screen σ → Except Fault (List Bool) → Screen σ → Prop
  | ended {s s'} : Prompted interactive s s' → Served interactive [] s (.ok []) s'
  | next {job jobs s s₁ s₂ s' well outcome} : Prompted interactive s s₁ →
      (perform e r job).Does s₁ (.ok well) s₂ → Served interactive jobs s₂ outcome s' →
      Served interactive (job :: jobs) s (outcome.map (well :: ·)) s'
  | fault {job jobs s s₁ s' fault} : Prompted interactive s s₁ →
      (perform e r job).Does s₁ (.error fault) s' →
      Served interactive (job :: jobs) s (.error fault) s'

section Prompts

variable {interactive : Bool} {s s' s'' : Screen σ}

theorem Prompted.refl (s : Screen σ) : Prompted interactive s s := ⟨[], by simp, by simp⟩

theorem Prompted.trans (h : Prompted interactive s s') (h' : Prompted interactive s' s'') :
    Prompted interactive s s'' := by
  obtain ⟨prompts, hprompts, rfl⟩ := h
  obtain ⟨prompts', hprompts', rfl⟩ := h'
  exact ⟨prompts ++ prompts', List.forall_mem_append.mpr ⟨hprompts, hprompts'⟩, by simp⟩

theorem prompt_does (interactive : Bool) (pending : Text) (s : Screen σ) :
    ∃ s', (prompt interactive pending).Does s (.ok ()) s' ∧ Prompted interactive s s' := by
  cases interactive with
  | false => exact ⟨s, rfl, .refl s⟩
  | true =>
    let p := if pending.isEmpty then ascii "dmql> " else ascii "...> "
    refine ⟨{ s with output := s.output ++ p }, rfl, [p], ?_, by simp⟩
    refine List.forall_mem_singleton.mpr ⟨rfl, ?_⟩
    by_cases h : pending.isEmpty
    · exact .inl (if_pos h)
    · exact .inr (if_neg h)

end Prompts

namespace Served

variable {e r} {interactive : Bool} {jobs more : List Job} {s s₁ s' : Screen σ}
  {outcome : Except Fault (List Bool)}

theorem prompted (hp : Prompted interactive s s₁) (h : Served e r interactive jobs s₁ outcome s') :
    Served e r interactive jobs s outcome s' := by
  cases h with
  | ended h => exact .ended (hp.trans h)
  | next h hjob hrest => exact .next (hp.trans h) hjob hrest
  | fault h hjob => exact .fault (hp.trans h) hjob

/-- The jobs behind others are done when these are. -/
theorem append {wells : List Bool} (h : Served e r interactive jobs s (.ok wells) s₁)
    (hmore : Served e r interactive more s₁ outcome s') :
    Served e r interactive (jobs ++ more) s (outcome.map (wells ++ ·)) s' := by
  generalize ho : (Except.ok wells : Except Fault (List Bool)) = o at h
  induction h generalizing wells with
  | ended hp =>
    obtain rfl := Except.ok.inj ho
    have hall := hmore.prompted hp
    cases outcome <;> exact hall
  | @next _ _ _ _ _ _ _ later hp hjob _ ih =>
    cases later with
    | error => cases ho
    | ok later =>
      obtain rfl := Except.ok.inj ho
      have hall := Served.next hp hjob (ih hmore rfl)
      cases outcome <;> exact hall
  | fault => cases ho

/-- The jobs behind a fault are not done. -/
theorem append_error {fault : Fault} (h : Served e r interactive jobs s (.error fault) s₁)
    (more : List Job) : Served e r interactive (jobs ++ more) s (.error fault) s₁ := by
  generalize ho : (Except.error fault : Except Fault (List Bool)) = o at h
  induction h with
  | ended => cases ho
  | @next _ _ _ _ _ _ _ later hp hjob _ ih =>
    cases later with
    | error =>
      obtain rfl := Except.error.inj ho
      exact .next hp hjob (ih rfl)
    | ok => cases ho
  | fault hp hjob =>
    obtain rfl := Except.error.inj ho
    exact .fault hp hjob

end Served

section Run

variable {e r} {interactive : Bool} {jobs : List Job} {s s₁ s' : Screen σ}

/-- The number of failed statements that one job adds. -/
def failed (well : Bool) : Nat := if well then 0 else 1

theorem handle_does {job : Job} {o : Except Fault Bool} (h : (perform e r job).Does s o s') :
    (handle e r job.event).Does s (o.map failed) s' := by
  cases job with
  | command line =>
    obtain ⟨ran, s₁, hrun⟩ : ∃ ran s₁, (runCommand e r.settings (Text.strip line)).Does s ran s₁ :=
      ⟨_, _, rfl⟩
    cases ran with
    | ok _ =>
      obtain ⟨rfl, rfl⟩ := Prod.mk.inj (h.symm.trans (hrun.bind (.pure true)))
      exact hrun.bind (.pure 0)
    | error fault =>
      obtain ⟨rfl, rfl⟩ := Prod.mk.inj (h.symm.trans hrun.bind_error)
      exact hrun.bind_error
  | statement lines =>
    cases o with
    | ok well => exact Showing.Does.bind h (.pure _)
    | error fault => exact Showing.Does.bind_error h

/-- Behind an event that is handled the client asks for a line and goes on. -/
theorem handleAll_cons {event : LineEvent} {rest : List LineEvent} {n : Nat}
    (h : (handle e r event).Does s (.ok n) s₁) (interactive : Bool) :
    ∃ s₂, Prompted interactive s₁ s₂ ∧ ∀ o s',
      (handleAll e r interactive rest).Does s₂ o s' →
        (handleAll e r interactive (event :: rest)).Does s (o.map (n + ·)) s' := by
  have hlater : ∀ s₂ o s', (handleAll e r interactive rest).Does s₂ o s' →
      (do return n + (← handleAll e r interactive rest) : Showing σ Nat).Does s₂ (o.map (n + ·))
        s' := by
    intro s₂ o s' hrest
    cases o with
    | ok m => exact hrest.bind (.pure _)
    | error fault => exact hrest.bind_error
  by_cases hquit : event = .quit
  · refine ⟨s₁, .refl s₁, fun o s' hrest => h.bind ?_⟩
    simp only [if_pos hquit]
    exact hlater s₁ o s' hrest
  · obtain ⟨s₂, hprompt, hprompted⟩ := prompt_does interactive event.pending s₁
    refine ⟨s₂, hprompted, fun o s' hrest => h.bind ?_⟩
    simp only [if_neg hquit]
    exact hprompt.bind (hlater s₂ o s' hrest)

/-- **The events are handled as the jobs are done**, if they ask for just these jobs. -/
theorem handleAll_serves (interactive : Bool) {events : List LineEvent}
    (h : events.filter LineEvent.asks = jobs.map Job.event) (s : Screen σ) :
    ∃ outcome s', Served e r interactive jobs s outcome s' ∧
      (handleAll e r interactive events).Does s (outcome.map (·.count false)) s' := by
  induction events generalizing jobs s with
  | nil =>
    obtain rfl : jobs = [] := by simpa [eq_comm] using h
    exact ⟨.ok [], s, .ended (.refl s), rfl⟩
  | cons event rest ih =>
    cases hasks : event.asks with
    | false =>
      rw [List.filter_cons_of_neg (by simp [hasks])] at h
      have hnothing : (handle e r event).Does s (.ok 0) s := by
        cases event with
        | command | statement => cases hasks
        | _ => rfl
      obtain ⟨s₁, hprompted, hrest⟩ := handleAll_cons hnothing interactive
      obtain ⟨outcome, s', hserved, hdoes⟩ := ih h s₁
      refine ⟨outcome, s', hserved.prompted hprompted, ?_⟩
      have := hrest _ _ hdoes
      cases outcome <;> simpa [Except.map] using this
    | true =>
      rw [List.filter_cons_of_pos hasks] at h
      obtain ⟨job, jobs, rfl, rfl, hjobs⟩ := List.map_eq_cons_iff.mp h.symm
      obtain ⟨went, s₁, hjob⟩ : ∃ went s₁, (perform e r job).Does s went s₁ := ⟨_, _, rfl⟩
      have hhandle := handle_does hjob
      cases went with
      | error fault => exact ⟨_, _, .fault (.refl s) hjob, hhandle.bind_error⟩
      | ok well =>
        obtain ⟨s₂, hprompted, hrest⟩ := handleAll_cons hhandle interactive
        obtain ⟨outcome, s', hserved, hdoes⟩ := ih hjobs.symm s₂
        refine ⟨_, s', .next (.refl s) hjob (hserved.prompted hprompted), ?_⟩
        have := hrest _ _ hdoes
        cases outcome with
        | error => exact this
        | ok wells =>
          have hcount : failed well + wells.count false = (well :: wells).count false := by
            cases well <;> simp [failed, Nat.add_comm]
          simp only [Except.map, hcount] at this ⊢
          exact this

/-- What is left open at the end of the input is done last. -/
theorem runText_serves (interactive : Bool) {text : Text}
    (h : (assemble (Text.lines text)).asked = jobs.map Job.event) (s : Screen σ) :
    ∃ outcome s', Served e r interactive jobs s outcome s' ∧
      (runText e r interactive text).Does s (outcome.map (·.count false)) s' := by
  obtain ⟨first, last, rfl, hfirst, hlast⟩ := List.map_eq_append_iff.mp h.symm
  obtain ⟨s₁, hprompt, hprompted⟩ := prompt_does interactive [] s
  obtain ⟨outcome, s₂, hserved, hdoes⟩ :=
    handleAll_serves (e := e) (r := r) interactive hfirst.symm s₁
  have hserved := hserved.prompted hprompted
  cases outcome with
  | error fault =>
    exact ⟨_, s₂, hserved.append_error last, hprompt.bind hdoes.bind_error⟩
  | ok wells =>
    cases hopen : (assemble (Text.lines text)).leftOpen with
    | none =>
      rw [hopen] at hlast
      obtain rfl : last = [] := by simpa using hlast
      rw [List.append_nil]
      refine ⟨.ok wells, s₂, hserved, hprompt.bind (hdoes.bind ?_)⟩
      rw [hopen]
      rfl
    | some statement =>
      rw [hopen] at hlast
      obtain ⟨lines, rfl, rfl⟩ : ∃ lines, last = [.statement lines] ∧ joined lines = statement := by
        obtain ⟨job, rfl, hjob⟩ := List.map_eq_singleton_iff.mp hlast
        cases job with
        | command => cases hjob
        | statement lines => exact ⟨lines, rfl, LineEvent.statement.inj hjob⟩
      obtain ⟨went, s', hjob⟩ : ∃ went s', (perform e r (.statement lines)).Does s₂ went s' :=
        ⟨_, _, rfl⟩
      have hran : (runStatement e r (joined lines)).Does s₂ went s' := hjob
      cases went with
      | error fault =>
        have hlast : Served e r interactive [.statement lines] s₂ (.error fault) s' :=
          .fault (.refl s₂) hjob
        refine ⟨_, s', hserved.append hlast, hprompt.bind (hdoes.bind ?_)⟩
        rw [hopen]
        exact hran.bind_error
      | ok well =>
        have hlast : Served e r interactive [.statement lines] s₂ (.ok [well]) s' :=
          .next (.refl s₂) hjob (.ended (.refl s'))
        refine ⟨_, s', hserved.append hlast, hprompt.bind (hdoes.bind ?_)⟩
        rw [hopen]
        have hcount : wells.count false + failed well = (wells ++ [well]).count false := by
          cases well <;> simp [failed]
        simp only [Except.map, ← hcount]
        exact hran.bind (.pure _)

/-- **The client does what its lines ask for.** The lines of its input part in one way into commands,
    statements and empty lines between them, up to the first command between two statements that
    ends everything. Every line up to there that holds something is used once, in its place. The
    commands and statements are done in their order, with nothing but prompts in between, up to the
    first that is a fault; and the client tells how many statements failed. -/
theorem runText_serves_lines (e : Engine σ) (r : Runner) (interactive : Bool) (text : Text)
    (s : Screen σ) :
    ∃ lines jobs used left, text.HasLines lines ∧
      lines = used ++ left ∧ (∀ line ∈ left.head?, isQuit line = true) ∧
      jobs.flatMap Job.lines = used.filter isFilled ∧
      Parts lines jobs left ∧
      (∀ jobs' left', Parts lines jobs' left' → jobs' = jobs ∧ left' = left) ∧
      ∃ outcome s', Served e r interactive jobs s outcome s' ∧
        (runText e r interactive text).run.run s = (outcome.map (·.count false), s') := by
  obtain ⟨jobs, left, hparts, hasked⟩ := exists_parts (.inl ⟨rfl, rfl⟩) (Text.lines text)
  rw [List.nil_append] at hparts
  obtain ⟨used, hlines, hused, hleft⟩ := hparts.lines_eq
  obtain ⟨outcome, s', hserved, hdoes⟩ := runText_serves (e := e) (r := r) interactive hasked s
  exact ⟨Text.lines text, jobs, used, left, text.hasLines, hlines, hleft, hused, hparts,
    fun _ _ => hparts.unique, outcome, s', hserved, hdoes⟩

end Run

end Client

end MiningQuery
