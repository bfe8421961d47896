/-!
# Lines

Writing lines (`unlines`), and cutting a text into lines (`LineEnd.lines`), over any
alphabet that has a line feed and a carriage return: characters (`LineEnd.ofChars`) or
the bytes of a text (`LineEnd.ofBytes`).
-/

namespace ScriptTree

namespace Text

/-- Each line with a line feed behind it. -/
def unlines : List String → String
  | [] => ""
  | line :: rest => line ++ "\n" ++ unlines rest

theorem toList_unlines (lines : List String) :
    (unlines lines).toList = lines.flatMap fun line => line.toList ++ ['\n'] := by
  induction lines with
  | nil => rfl
  | cons line rest ih =>
    have hsign : "\n".toList = ['\n'] := rfl
    rw [unlines, String.toList_append, String.toList_append, ih, List.flatMap_cons, hsign]

/-- The two signs that line ends are written with. -/
structure LineEnd (α : Type) where
  lineFeed : α
  carriageReturn : α

namespace LineEnd

def ofChars : LineEnd Char := ⟨'\n', '\r'⟩

def ofBytes : LineEnd UInt8 := ⟨10, 13⟩

variable {α : Type}

/-- No line of the text lacks its end. -/
def Complete (e : LineEnd α) (text : List α) : Prop :=
  text = [] ∨ text.getLast? = some e.lineFeed

/-- A single line without an end is not complete. -/
theorem not_complete_of_not_mem (e : LineEnd α) {line : List α} (hne : line ≠ [])
    (hline : e.lineFeed ∉ line) : ¬ e.Complete line := by
  rintro (hnil | hlast)
  · exact hne hnil
  · exact hline (List.mem_of_getLast? hlast)

/-- What is behind the first line of a complete text is complete. -/
theorem Complete.behind {e : LineEnd α} {line rest : List α}
    (h : e.Complete (line ++ e.lineFeed :: rest)) : e.Complete rest := by
  cases rest with
  | nil => exact Or.inl rfl
  | cons x rest =>
    rcases h with hnil | hlast
    · simp at hnil
    · rw [List.getLast?_append, List.getLast?_cons_cons] at hlast
      have hsome : (x :: rest).getLast? = some ((x :: rest).getLast (List.cons_ne_nil x rest)) :=
        List.getLast?_eq_some_getLast _
      rw [hsome, Option.some_or] at hlast
      exact Or.inr (hsome.trans hlast)

/-- In front of a complete text a line may be added, with its line feed. -/
theorem Complete.cons_line {e : LineEnd α} {rest : List α} (h : e.Complete rest) (line : List α) :
    e.Complete (line ++ e.lineFeed :: rest) := by
  refine Or.inr ?_
  rw [List.getLast?_append, List.getLast?_cons]
  rcases h with rfl | hlast
  · rfl
  · rw [hlast]
    rfl

variable [DecidableEq α]

/-- A line without its carriage return, if it ends with one.  Of several only the last
goes. -/
def dropReturn (e : LineEnd α) (line : List α) : List α :=
  if line.getLast? = some e.carriageReturn then line.dropLast else line

theorem dropReturn_concat (e : LineEnd α) (line : List α) :
    e.dropReturn (line ++ [e.carriageReturn]) = line := by
  simp [dropReturn]

theorem dropReturn_of_getLast?_ne (e : LineEnd α) {line : List α}
    (h : line.getLast? ≠ some e.carriageReturn) : e.dropReturn line = line :=
  if_neg h

theorem mem_of_mem_dropReturn (e : LineEnd α) {line : List α} {x : α} (h : x ∈ e.dropReturn line) :
    x ∈ line := by
  unfold dropReturn at h
  split at h
  · exact (List.dropLast_sublist line).mem h
  · exact h

/-- The lines of a text, without their ends.  A line ends at a line feed, or at one
carriage return and a line feed.  What follows the last line feed is a line unless
it is empty, and is taken as it is. -/
def lines (e : LineEnd α) (text : List α) : List (List α) :=
  match _ : text.dropWhile (· ≠ e.lineFeed) with
  | [] => if text.isEmpty then [] else [text]
  | _ :: rest => e.dropReturn (text.takeWhile (· ≠ e.lineFeed)) :: lines e rest
termination_by text.length
decreasing_by
  have hlen := (List.dropWhile_suffix (l := text) (· ≠ e.lineFeed)).length_le
  have heq := congrArg List.length ‹text.dropWhile (· ≠ e.lineFeed) = _ :: _›
  rw [List.length_cons] at heq
  omega

theorem lines_nil (e : LineEnd α) : e.lines [] = [] := by
  rw [lines]
  rfl

private theorem all_ne (e : LineEnd α) {line : List α} (h : e.lineFeed ∉ line) :
    ∀ x ∈ line, decide (x ≠ e.lineFeed) = true := by
  intro x hx
  simp only [decide_eq_true_eq]
  rintro rfl
  exact h hx

/-- Text without a line feed is one line. -/
theorem lines_of_not_mem (e : LineEnd α) {text : List α} (hne : text ≠ [])
    (h : e.lineFeed ∉ text) : e.lines text = [text] := by
  have hd : (text ++ []).dropWhile (· ≠ e.lineFeed) = [] :=
    List.dropWhile_append_of_pos (all_ne e h)
  rw [List.append_nil] at hd
  rw [lines]
  split
  · simp [hne]
  · next hc => rw [hd] at hc; cases hc

/-- The first line feed ends the first line. -/
theorem lines_append_lineFeed (e : LineEnd α) {line : List α} (rest : List α)
    (h : e.lineFeed ∉ line) :
    e.lines (line ++ e.lineFeed :: rest) = e.dropReturn line :: e.lines rest := by
  have hd : (line ++ e.lineFeed :: rest).dropWhile (· ≠ e.lineFeed) = e.lineFeed :: rest := by
    rw [List.dropWhile_append_of_pos (all_ne e h)]
    simp
  have ht : (line ++ e.lineFeed :: rest).takeWhile (· ≠ e.lineFeed) = line := by
    rw [List.takeWhile_append_of_pos (all_ne e h)]
    simp
  rw [lines]
  split
  · next hc => rw [hd] at hc; cases hc
  · next hc => rw [hd] at hc; cases hc; rw [ht]

/-- What holds of no text, of one line without an end, and of a line and its line feed in front
of a text for which it holds, holds of every text. -/
@[elab_as_elim]
theorem lines_induction (e : LineEnd α) {motive : List α → Prop} (nil : motive [])
    (unended : ∀ line, line ≠ [] → e.lineFeed ∉ line → motive line)
    (ended : ∀ line rest, e.lineFeed ∉ line → motive rest → motive (line ++ e.lineFeed :: rest))
    (text : List α) : motive text := by
  -- A text with a line feed is cut behind the first one, which leaves a shorter text.
  induction hn : text.length using Nat.strongRecOn generalizing text with
  | ind n ih =>
    by_cases hmem : e.lineFeed ∈ text
    · obtain ⟨line, rest, rfl, hline⟩ := List.eq_append_cons_of_mem hmem
      rw [List.length_append, List.length_cons] at hn
      exact ended line rest hline (ih rest.length (by omega) rest rfl)
    · by_cases hne : text = []
      · rw [hne]
        exact nil
      · exact unended text hne hmem

/-- No line feed is part of a line. -/
theorem lineFeed_not_mem_of_mem_lines (e : LineEnd α) (text : List α) :
    ∀ line ∈ e.lines text, e.lineFeed ∉ line := by
  induction text using e.lines_induction with
  | nil => simp [lines_nil]
  | unended line hne hline =>
    rw [lines_of_not_mem e hne hline]
    exact List.forall_mem_singleton.mpr hline
  | ended line rest hline ih =>
    rw [lines_append_lineFeed e rest hline]
    exact List.forall_mem_cons.mpr ⟨mt (mem_of_mem_dropReturn e) hline, ih⟩

/-- Behind a complete text new lines begin. -/
theorem lines_append (e : LineEnd α) {text : List α} (h : e.Complete text) (more : List α) :
    e.lines (text ++ more) = e.lines text ++ e.lines more := by
  induction text using e.lines_induction with
  | nil => rw [lines_nil, List.nil_append, List.nil_append]
  | unended line hne hline => exact absurd h (e.not_complete_of_not_mem hne hline)
  | ended line rest hline ih =>
    rw [List.append_assoc, List.cons_append, lines_append_lineFeed e _ hline,
      lines_append_lineFeed e _ hline, ih h.behind, List.cons_append]

/-- A complete text has as many lines as line feeds. -/
theorem length_lines (e : LineEnd α) {text : List α} (h : e.Complete text) :
    (e.lines text).length = text.count e.lineFeed := by
  induction text using e.lines_induction with
  | nil => rw [lines_nil, List.length_nil, List.count_nil]
  | unended line hne hline => exact absurd h (e.not_complete_of_not_mem hne hline)
  | ended line rest hline ih =>
    rw [lines_append_lineFeed e _ hline, List.length_cons, ih h.behind, List.count_append,
      List.count_cons_self, List.count_eq_zero.mpr hline]
    omega

end LineEnd

end Text

end ScriptTree
