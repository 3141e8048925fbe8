import ArrayLang.Interpreter.Fault

/-!
# Texts of traces

The text of a trace has one line for each active call. A name may hold line breaks: its lines are
joined by blanks, so that a call never takes more than a line. Main result: `Trace.text_eq`.
-/

namespace ArrayLang

/-- The characters of a text in one line: a line feed becomes a blank, or is dropped at the end of the
text, and a carriage return before a line feed is dropped. -/
def unbroken : List Char → List Char
  | [] => []
  | c :: cs =>
    if c = '\n' then if cs.isEmpty then [] else ' ' :: unbroken cs
    else if c = '\x0d' ∧ cs.head? = some '\n' then unbroken cs
    else c :: unbroken cs

/-- The line that was read so far, latest character first, when some characters are left. -/
def readLine (line cs : List Char) : List Char :=
  if line.head? = some '\x0d' ∧ cs.head? = some '\n' then line.tail else line

/-- A line without a carriage return at its end. -/
def chopLine (line : List Char) : List Char :=
  if line.getLast? = some '\x0d' then line.dropLast else line

theorem chopLine_reverse (line cs : List Char) :
    chopLine line.reverse = (readLine line ('\n' :: cs)).reverse := by
  rw [chopLine, readLine, List.getLast?_reverse, List.dropLast_reverse, List.head?_cons]
  simp only [and_true]
  split <;> rfl

theorem textLines_go_feed (line cs : List Char) :
    textLines.go chopLine line ('\n' :: cs)
      = (readLine line ('\n' :: cs)).reverse :: textLines.go chopLine [] cs := by
  rw [textLines.go, chopLine_reverse line cs]

theorem textLines_go_char {c : Char} (hc : c ≠ '\n') (line cs : List Char) :
    textLines.go chopLine line (c :: cs) = textLines.go chopLine (c :: line) cs := by
  rw [textLines.go]
  exact hc

theorem textLines_go_ne_nil (line : List Char) (c : Char) (cs : List Char) :
    textLines.go chopLine line (c :: cs) ≠ [] := by
  by_cases hc : c = '\n'
  · rw [hc, textLines_go_feed]
    exact List.cons_ne_nil _ _
  · rw [textLines_go_char hc]
    cases cs with
    | nil => exact List.cons_ne_nil _ _
    | cons d cs => exact textLines_go_ne_nil (c :: line) d cs

/-- The induction is on the characters that are left. A carriage return may be the last character of the
line that was read, and it stays unless a line feed comes next. -/
theorem intercalate_textLines_go (line cs : List Char) :
    [' '].intercalate (textLines.go chopLine line cs)
      = (readLine line cs).reverse ++ unbroken cs := by
  induction cs generalizing line with
  | nil =>
    have hline : readLine line [] = line := if_neg fun h => nomatch h.2
    rw [hline]
    cases line with
    | nil => rfl
    | cons c line =>
      rw [unbroken, List.append_nil]
      exact List.intercalate_singleton
  | cons c cs ih =>
    by_cases hc : c = '\n'
    -- The line ends here, and only a line feed before other characters leaves a blank.
    · subst hc
      rw [textLines_go_feed, unbroken, if_pos rfl]
      cases cs with
      | nil =>
        rw [List.isEmpty_nil, if_pos rfl, List.append_nil]
        exact List.intercalate_singleton
      | cons d cs =>
        obtain ⟨next, rest, hnext⟩ := List.exists_cons_of_ne_nil (textLines_go_ne_nil [] d cs)
        rw [hnext, List.intercalate_cons_cons, ← hnext, ih, List.append_assoc]
        rfl
    -- The line goes on. What was read of it is kept, whatever its last character is.
    · have hline : readLine line (c :: cs) = line := if_neg fun h => hc (Option.some.inj h.2)
      rw [textLines_go_char hc, ih, hline, unbroken, if_neg hc, readLine, List.head?_cons]
      by_cases hreturn : c = '\x0d' ∧ cs.head? = some '\n'
      · rw [if_pos hreturn, if_pos (hreturn.imp_left (congrArg some))]
        rfl
      · rw [if_neg hreturn, if_neg fun h => hreturn (h.imp_left Option.some.inj)]
        simp

/-- The lines of a text with blanks between them. -/
theorem intercalate_textLines (s : String) :
    " ".intercalate (textLines s) = String.ofList (unbroken s.toList) := by
  have hgo := intercalate_textLines_go [] s.toList
  rw [← String.toList_inj, String.toList_intercalate]
  show [' '].intercalate (List.map String.toList
    (List.map String.ofList (textLines.go chopLine [] s.toList))) = _
  rw [List.map_map]
  have hid : String.toList ∘ String.ofList = id := funext fun _ => String.toList_ofList
  rw [hid, List.map_id, hgo]
  exact String.toList_ofList.symm

theorem unbroken_append {front : List Char} (h : ∀ c ∈ front, c ≠ '\n' ∧ c ≠ '\x0d')
    (cs : List Char) : unbroken (front ++ cs) = front ++ unbroken cs := by
  induction front with
  | nil => rfl
  | cons c front ih =>
    obtain ⟨hfeed, hreturn⟩ := h c List.mem_cons_self
    rw [List.cons_append, unbroken, if_neg hfeed, if_neg fun hc => hreturn hc.1,
      ih fun c hc => h c (List.mem_cons_of_mem _ hc)]
    rfl

/-- A trace has a line for each call, outermost first, with the line breaks of its name replaced. -/
theorem Trace.text_eq (t : Trace) :
    t.text = "\n".intercalate ("Stacktrace:" ::
      t.reverse.map fun name => "func: " ++ String.ofList (unbroken name.toList)) := by
  rw [Trace.text]
  have hframe (name : String) : " ".intercalate (textLines ("func: " ++ name))
      = "func: " ++ String.ofList (unbroken name.toList) := by
    rw [intercalate_textLines, String.toList_append, unbroken_append (by simp),
      String.ofList_append, String.ofList_toList]
  simp only [hframe]

/-- A name of two lines takes one line. -/
example : Trace.text ["g\x0d\nh\n", "f"] = "Stacktrace:\nfunc: f\nfunc: g h" := rfl

end ArrayLang
