import TacticsDSL.Token

/-!
# Source ranges

What `SourceRange::text` and `SourceRange::highlight` read of the file. An access to a character
that the file does not have is a failure, also where the source does not check it.
-/

namespace TacticsDSL

/-- `str[i]`; the source has no check. -/
def charAt (str : List Char) (i : ℕ) : Except Failure Char :=
  match str[i]? with
  | some c => pure c
  | none => throw (.outOfRange "operator[]")

/-- `str.substr(pos, count)`: what there is of it, but a start after the end throws. -/
def substr (str : List Char) (pos count : ℕ) : Except Failure (List Char) :=
  if str.length < pos then throw (.outOfRange "basic_string::substr")
  else pure ((str.drop pos).take count)

namespace SourceRange

/-- `size`: no range of a token or a tree ends before it starts. -/
def size (r : SourceRange) : ℕ := r.stop - r.start

/-- The text in the range. -/
def text (file : List Char) (r : SourceRange) : Except Failure String := do
  return String.ofList (← substr file r.start r.size)

/-- The first loop of `highlight`: the start of the line. -/
def lineBegin (str : List Char) : ℕ → Except Failure ℕ
  | 0 => pure 0
  | begin + 1 => do
    if (← charAt str begin) ≠ '\n' then lineBegin str begin
    else return begin + 1

/-- The second loop: the end of the line, or of the file. -/
def lineEnd (str : List Char) (start : ℕ) : ℕ :=
  start + ((str.drop start).takeWhile fun c => c ≠ '\n').length

/-- The text up to the end of the line of the range, marks below the range, and the rest of the
text. -/
def highlight (str : List Char) (r : SourceRange) : Except Failure String := do
  let begin ← lineBegin str r.start
  let stop := lineEnd str r.start
  let before ← substr str 0 stop
  let len := min r.size (stop - r.start)
  let after ← substr str stop str.length
  return String.ofList (before ++ ['\n'] ++ List.replicate (r.start - begin) ' ' ++
      List.replicate len '~') ++
    (if len < r.size then "...  <--- HERE" else " <--- HERE") ++
    String.ofList (after ++ match str.getLast? with
      | some c => if c ≠ '\n' then ['\n'] else []
      | none => [])

/-! ## Ranges inside the file -/

/-- The range is that of a part of the file. -/
structure Inside (file : List Char) (r : SourceRange) : Prop where
  ordered : r.start ≤ r.stop
  bounded : r.stop ≤ file.length

/-- One range covers another one. -/
structure Covers (r r' : SourceRange) : Prop where
  start : r.start ≤ r'.start
  stop : r'.stop ≤ r.stop

theorem Covers.refl (r : SourceRange) : r.Covers r := ⟨Nat.le_refl _, Nat.le_refl _⟩

theorem Covers.trans {r r' r'' : SourceRange} (h : r.Covers r') (h' : r'.Covers r'') :
    r.Covers r'' := ⟨Nat.le_trans h.start h'.start, Nat.le_trans h'.stop h.stop⟩

variable {file : List Char} {r : SourceRange}

/-- The text has all the characters of the range. -/
theorem Inside.text (h : r.Inside file) :
    ∃ s, r.text file = .ok s ∧ s.length = r.stop - r.start := by
  have hlen : ¬file.length < r.start := Nat.not_lt.2 (Nat.le_trans h.ordered h.bounded)
  refine ⟨String.ofList ((file.drop r.start).take r.size), ?_, ?_⟩
  · rw [SourceRange.text, substr, if_neg hlen]
    rfl
  · have hbounded := h.bounded
    rw [String.length_ofList, List.length_take, List.length_drop, size]
    omega

/-- The search for the beginning of the line ends well within the text. -/
theorem lineBegin_ok {start : ℕ} (h : start ≤ file.length) : ∃ b, lineBegin file start = .ok b := by
  induction start with
  | zero => exact ⟨0, rfl⟩
  | succ start ih =>
    obtain ⟨b, hb⟩ := ih (Nat.le_of_succ_le h)
    rw [lineBegin, charAt, List.getElem?_eq_getElem (Nat.lt_of_succ_le h)]
    show ∃ b, (if file[start] ≠ '\n' then lineBegin file start else .ok (start + 1)) = .ok b
    split
    · exact ⟨b, hb⟩
    · exact ⟨start + 1, rfl⟩

/-- The line ends within the text. -/
theorem lineEnd_le {start : ℕ} (h : start ≤ file.length) : lineEnd file start ≤ file.length := by
  have hle := List.Sublist.length_le
    (List.takeWhile_sublist (l := file.drop start) fun c => decide (c ≠ '\n'))
  rw [List.length_drop] at hle
  rw [lineEnd]
  omega

/-- The highlighted message can be made. -/
theorem Inside.highlight (h : r.Inside file) : ∃ s, r.highlight file = .ok s := by
  have hstart := Nat.le_trans h.ordered h.bounded
  obtain ⟨b, hb⟩ := lineBegin_ok hstart
  have hbefore : ¬file.length < 0 := Nat.not_lt_zero _
  have hafter : ¬file.length < lineEnd file r.start := Nat.not_lt.2 (lineEnd_le hstart)
  rw [SourceRange.highlight, hb]
  simp only [substr, if_neg hbefore, if_neg hafter]
  exact ⟨_, rfl⟩

end SourceRange

end TacticsDSL
