import Mathlib.Data.Bool.AllAny
import TacticsDSL.Emitter.GroupTheorems
import TacticsDSL.Utils.Brackets

/-!
# The text of a reshape map

`getReshapeMap` writes the positions that a reshape with one where clause groups, between braces
inside the braces of all the positions.
-/

namespace TacticsDSL

open Decimal (digits)

/-! ## Splits and their texts -/

/-- The positions below `n`, split in a run of consecutive ones and the others. -/
structure Split (n : ℕ) (toReshape notToReshape : List ℕ) : Prop where
  run : ∃ a k, 2 ≤ k ∧ a + k ≤ n ∧ toReshape = List.range' a k
  rest : notToReshape = (List.range n).filter fun p => p ∉ toReshape
  rest_ne_nil : notToReshape ≠ []

/-- Texts with a comma and a blank between them. -/
def commaText : List String → String
  | [] => ""
  | [s] => s
  | s :: ss => s ++ ", " ++ commaText ss

/-- What stands at a position of the map: its number, or at the start of the run all of the run
between braces. -/
def mapItem (toReshape : List ℕ) (p : ℕ) : List String :=
  if p ∉ toReshape then [toString p]
  else if toReshape.head? = some p then ["\x7b" ++ groupText toReshape ++ "\x7d"]
  else []

/-- The positions in increasing order, with the run between braces of its own. -/
def mapText (n : ℕ) (toReshape : List ℕ) : String :=
  "\x7b" ++ commaText ((List.range n).flatMap (mapItem toReshape)) ++ "\x7d"

/-- Braces, outside of which nothing is quoted. -/
def braces : Brackets Char := ⟨[('{', '}')], '"'⟩

/-- Reads the numbers of a text, each with the number of braces around it. -/
def readNumbers (depth : ℕ) : Option ℕ → List Char → List (ℕ × ℕ)
  | num, [] => num.toList.map (·, depth)
  | num, c :: cs =>
    if c.isDigit then readNumbers depth (some (10 * num.getD 0 + (c.toNat - '0'.toNat))) cs
    else
      num.toList.map (·, depth) ++
        readNumbers (if c = '{' then depth + 1 else if c = '}' then depth - 1 else depth) none cs

/-- The split a map stands for: the numbers in inner braces, and the others. -/
def readMap (text : String) : List ℕ × List ℕ :=
  let numbers := readNumbers 0 none text.toList
  ((numbers.filter fun p => p.2 = 2).map Prod.fst, (numbers.filter fun p => p.2 = 1).map Prod.fst)

/-- The map is the quoted text that names the positions in order with the run between inner
braces. The braces of the text are nested, and the split can be read back from it. -/
structure FaithfulMap (n : ℕ) (toReshape notToReshape : List ℕ) : Prop where
  text : getReshapeMap toReshape notToReshape = .ok (quoted (mapText n toReshape))
  nested : braces.Nested (mapText n toReshape).toList
  read : readMap (mapText n toReshape) = (toReshape, notToReshape)

example : mapText 4 [1, 2] = "\x7b0, \x7b1, 2\x7d, 3\x7d" := by decide +kernel

/-! ## Splits as three segments -/

/-- The positions before a run, the run and those after it. -/
theorem range_segments (a k b : ℕ) :
    List.range (a + k + b) = List.range a ++ List.range' a k ++ List.range' (a + k) b := by
  have hleft : List.range' 0 a ++ List.range' (0 + a) k = List.range' 0 (a + k) :=
    List.range'_append_1
  have hright : List.range' 0 (a + k) ++ List.range' (0 + (a + k)) b = List.range' 0 (a + k + b) :=
    List.range'_append_1
  rw [Nat.zero_add] at hleft hright
  rw [List.range_eq_range', List.range_eq_range', ← hright, ← hleft]

theorem notMem_run {a k p : ℕ} (h : p < a ∨ a + k ≤ p) : p ∉ List.range' a k := by
  rw [List.mem_range'_1]
  omega

/-- A split in the three segments that it is made of. -/
theorem Split.segments {n : ℕ} {R N : List ℕ} (h : Split n R N) :
    ∃ a k b, 2 ≤ k ∧ 0 < a + b ∧ n = a + k + b ∧ R = List.range' a k ∧
      N = List.range a ++ List.range' (a + k) b := by
  obtain ⟨a, k, hk, hle, rfl⟩ := h.run
  obtain ⟨b, rfl⟩ : ∃ b, n = a + k + b := ⟨n - (a + k), by omega⟩
  have hN : N = List.range a ++ List.range' (a + k) b := by
    rw [h.rest, range_segments, List.filter_append, List.filter_append,
      List.filter_eq_self.2 fun p hp => decide_eq_true (notMem_run (Or.inl (List.mem_range.1 hp))),
      List.filter_eq_nil_iff.2 fun p hp => by simpa using hp,
      List.filter_eq_self.2 fun p hp =>
        decide_eq_true (notMem_run (Or.inr (List.mem_range'_1.1 hp).1)), List.append_nil]
  refine ⟨a, k, b, hk, ?_, rfl, rfl, hN⟩
  have hne := h.rest_ne_nil
  rw [hN, ← List.length_pos_iff] at hne
  simpa using hne

/-- Positions outside the run are written as they are. -/
theorem flatMap_mapItem_others {R ps : List ℕ} (h : ∀ p ∈ ps, p ∉ R) :
    ps.flatMap (mapItem R) = ps.map toString := by
  induction ps with
  | nil => rfl
  | cons p ps ih =>
    rw [List.flatMap_cons, ih fun q hq => h q (List.mem_cons_of_mem _ hq), mapItem,
      if_pos (h p (List.mem_cons_self ..))]
    rfl

/-- The items of a text, by the three segments. -/
theorem flatMap_mapItem {a k b : ℕ} (hk : 2 ≤ k) :
    (List.range (a + k + b)).flatMap (mapItem (List.range' a k)) =
      (List.range a).map toString ++ ["\x7b" ++ groupText (List.range' a k) ++ "\x7d"] ++
        (List.range' (a + k) b).map toString := by
  obtain ⟨k, rfl⟩ : ∃ m, k = m + 1 := ⟨k - 1, by omega⟩
  have hrun : (List.range' a (k + 1)).flatMap (mapItem (List.range' a (k + 1))) =
      ["\x7b" ++ groupText (List.range' a (k + 1)) ++ "\x7d"] := by
    have hlater : ∀ p ∈ List.range' (a + 1) k, mapItem (List.range' a (k + 1)) p = [] := by
      intro p hp
      have hmem : p ∈ List.range' a (k + 1) := by
        rw [List.mem_range'_1] at hp ⊢
        omega
      have hhead : (List.range' a (k + 1)).head? ≠ some p := by
        rw [List.mem_range'_1] at hp
        rw [List.range'_succ]
        simp
        omega
      rw [mapItem, if_neg (by simpa using hmem), if_neg hhead]
    have hfirst : mapItem (List.range' a (k + 1)) a =
        ["\x7b" ++ groupText (List.range' a (k + 1)) ++ "\x7d"] := by
      rw [mapItem, if_neg (by simp), if_pos (by simp [List.range'_succ])]
    have hsplit : List.range' a (k + 1) = a :: List.range' (a + 1) k := List.range'_succ
    rw [show (List.range' a (k + 1)).flatMap (mapItem (List.range' a (k + 1))) =
      (a :: List.range' (a + 1) k).flatMap (mapItem (List.range' a (k + 1))) by rw [← hsplit],
      List.flatMap_cons, hfirst, List.flatMap_eq_nil_iff.2 hlater, List.append_nil]
  rw [range_segments, List.flatMap_append, List.flatMap_append, hrun,
    flatMap_mapItem_others fun p hp => notMem_run (Or.inl (List.mem_range.1 hp)),
    flatMap_mapItem_others fun p hp => notMem_run (Or.inr (List.mem_range'_1.1 hp).1)]

/-! ## The braces of a map -/

theorem toList_commaText_cons {s : String} {ss : List String} (h : ss ≠ []) :
    (commaText (s :: ss)).toList = s.toList ++ ',' :: ' ' :: (commaText ss).toList := by
  rw [commaText]
  · simp
  · exact h

theorem plain_of_isDigit {c : Char} (h : c.isDigit = true) : braces.Plain c := by
  have hne : ∀ d : Char, d.isDigit = false → c ≠ d := by
    rintro d hd rfl
    rw [h] at hd
    cases hd
  exact ⟨hne _ rfl, by simpa [braces] using hne '{' rfl, by simpa [braces] using hne '}' rfl⟩

theorem neutral_toString (i : ℕ) : braces.Neutral (toString i).toList := by
  rw [Decimal.toList_toString]
  exact .plain fun c hc => plain_of_isDigit (Decimal.isDigit_of_mem hc)

/-- The text of a group opens and closes no brace. -/
theorem neutral_groupChars (is : List ℕ) : braces.Neutral (groupChars is) := by
  have hrest : ∀ is : List ℕ, ∀ c ∈ restChars is, braces.Plain c := by
    intro is
    induction is with
    | nil => simp [restChars]
    | cons i is ih =>
      simp only [restChars, List.forall_mem_cons, List.forall_mem_append]
      exact ⟨by decide, by decide, fun c hc => plain_of_isDigit (Decimal.isDigit_of_mem hc), ih⟩
  cases is with
  | nil => exact .nil
  | cons i is =>
    exact .plain (List.forall_mem_append.2
      ⟨fun c hc => plain_of_isDigit (Decimal.isDigit_of_mem hc), hrest is⟩)

/-- Texts with nested braces keep them nested between commas. -/
theorem neutral_commaText {ss : List String} (h : ∀ s ∈ ss, braces.Neutral s.toList) :
    braces.Neutral (commaText ss).toList := by
  induction ss with
  | nil => exact .nil
  | cons s ss ih =>
    have hs := h s (List.mem_cons_self ..)
    have hss := ih fun s hs => h s (List.mem_cons_of_mem _ hs)
    by_cases hne : ss = []
    · subst hne
      exact hs
    · have hcomma : braces.Neutral [',', ' '] := .plain (List.all_iff_forall_prop.1 (by decide))
      rw [toList_commaText_cons hne]
      exact hs.append (hcomma.append hss)

/-- What a position stands for in the map has nested braces. -/
theorem neutral_mapItem (R : List ℕ) (p : ℕ) : ∀ s ∈ mapItem R p, braces.Neutral s.toList := by
  rw [mapItem]
  split
  · simpa using neutral_toString p
  · split
    · intro s hs
      rw [List.mem_singleton] at hs
      rw [hs, String.toList_append, String.toList_append, toList_groupText]
      exact .bracket (by decide) (neutral_groupChars R)
    · simp

/-- The braces of a map are nested. -/
theorem nested_mapText (n : ℕ) (R : List ℕ) : braces.Nested (mapText n R).toList := by
  have hitems : ∀ s ∈ (List.range n).flatMap (mapItem R), braces.Neutral s.toList := by
    intro s hs
    obtain ⟨p, -, hs⟩ := List.mem_flatMap.1 hs
    exact neutral_mapItem R p s hs
  rw [mapText, String.toList_append, String.toList_append]
  exact (Brackets.Neutral.bracket (by decide) (neutral_commaText hitems)).nested

/-! ## Reading a map -/

theorem readNumbers_digit {c : Char} (h : c.isDigit = true) (depth : ℕ) (num : Option ℕ)
    (cs : List Char) : readNumbers depth num (c :: cs) =
      readNumbers depth (some (10 * num.getD 0 + (c.toNat - '0'.toNat))) cs := by
  rw [readNumbers, if_pos h]

/-- The digits of a number are read up to the character after them. -/
theorem readNumbers_some {depth m : ℕ} {ds rest : List Char} (hds : ∀ c ∈ ds, c.isDigit = true)
    (hrest : ∀ c ∈ rest.head?, c.isDigit = false) :
    readNumbers depth (some m) (ds ++ rest) =
      (Nat.ofDigitChars 10 ds m, depth) :: readNumbers depth none rest := by
  induction ds generalizing m with
  | nil =>
    cases rest with
    | nil => rfl
    | cons c rest =>
      have hc := hrest c rfl
      simp [readNumbers, hc]
  | cons c ds ih =>
    rw [List.cons_append, readNumbers_digit (hds c (List.mem_cons_self ..)),
      ih fun d hd => hds d (List.mem_cons_of_mem _ hd)]
    rfl

/-- A number is read with the braces around it. -/
theorem readNumbers_digits {depth i : ℕ} {rest : List Char}
    (hrest : ∀ c ∈ rest.head?, c.isDigit = false) :
    readNumbers depth none (digits i ++ rest) = (i, depth) :: readNumbers depth none rest := by
  have hvalue := Nat.ofDigitChars_ten_toDigits (n := i)
  have hdigit : ∀ c ∈ digits i, c.isDigit = true := fun c hc => Decimal.isDigit_of_mem hc
  rw [← digits] at hvalue
  cases hds : digits i with
  | nil => exact absurd hds Nat.toDigits_ne_nil
  | cons c ds =>
    rw [hds] at hvalue hdigit
    rw [List.cons_append, readNumbers_digit (hdigit c (List.mem_cons_self ..)),
      readNumbers_some (fun d hd => hdigit d (List.mem_cons_of_mem _ hd)) hrest]
    rw [Nat.ofDigitChars_cons] at hvalue
    simpa using hvalue

theorem readNumbers_other {c : Char} (hdigit : c.isDigit = false) (hopen : c ≠ '{')
    (hclose : c ≠ '}') (depth : ℕ) (cs : List Char) :
    readNumbers depth none (c :: cs) = readNumbers depth none cs := by
  simp [readNumbers, hdigit, hopen, hclose]

/-- The numbers that are read from a text between other items of a map. -/
def Reads (s : String) (numbers : List (ℕ × ℕ)) : Prop :=
  ∀ rest : List Char, (∀ c ∈ rest.head?, c.isDigit = false) →
    readNumbers 1 none (s.toList ++ rest) = numbers ++ readNumbers 1 none rest

theorem reads_toString (i : ℕ) : Reads (toString i) [(i, 1)] := by
  intro rest hrest
  rw [Decimal.toList_toString]
  exact readNumbers_digits hrest

/-- The numbers of a group are read, with the braces around them. -/
theorem readNumbers_groupChars {depth : ℕ} {is : List ℕ} {rest : List Char}
    (hrest : ∀ c ∈ rest.head?, c.isDigit = false) :
    readNumbers depth none (groupChars is ++ rest) =
      is.map (·, depth) ++ readNumbers depth none rest := by
  -- after the first number each one follows a comma and a blank
  have hmore : ∀ is : List ℕ, readNumbers depth none (restChars is ++ rest) =
      is.map (·, depth) ++ readNumbers depth none rest := by
    intro is
    induction is with
    | nil => rfl
    | cons i is ih =>
      have hhead : ∀ c ∈ (restChars is ++ rest).head?, c.isDigit = false := by
        cases is with
        | nil => exact hrest
        | cons j is =>
          intro c hc
          cases hc
          rfl
      rw [restChars, List.cons_append, List.cons_append, List.append_assoc,
        readNumbers_other (by decide) (by decide) (by decide),
        readNumbers_other (by decide) (by decide) (by decide), readNumbers_digits hhead, ih]
      rfl
  cases is with
  | nil => rfl
  | cons i is =>
    have hhead : ∀ c ∈ (restChars is ++ rest).head?, c.isDigit = false := by
      cases is with
      | nil => exact hrest
      | cons j is =>
        intro c hc
        cases hc
        rfl
    rw [groupChars, List.append_assoc, readNumbers_digits hhead, hmore]
    rfl

/-- The run is read one level deeper. -/
theorem reads_run (R : List ℕ) :
    Reads ("\x7b" ++ groupText R ++ "\x7d") (R.map (·, 2)) := by
  intro rest hrest
  have hchars : ("\x7b" ++ groupText R ++ "\x7d").toList ++ rest =
      '{' :: (groupChars R ++ '}' :: rest) := by
    simp [toList_groupText]
  have hopen : readNumbers 1 none ('{' :: (groupChars R ++ '}' :: rest)) =
      readNumbers 2 none (groupChars R ++ '}' :: rest) := rfl
  have hclose : readNumbers 2 none ('}' :: rest) = readNumbers 1 none rest := rfl
  rw [hchars, hopen, readNumbers_groupChars (by intro c hc; cases hc; rfl), hclose]

/-- Texts between commas are read one after another. -/
theorem reads_commaText {ss : List String} {numbers : List (List (ℕ × ℕ))}
    (h : List.Forall₂ Reads ss numbers) : Reads (commaText ss) numbers.flatten := by
  induction h with
  | nil =>
    intro rest _
    rfl
  | @cons s ns ss numbers hs hss ih =>
    by_cases hne : ss = []
    · subst hne
      cases hss
      simpa [commaText] using hs
    · intro rest hrest
      rw [toList_commaText_cons hne, List.append_assoc, hs _ (by intro c hc; cases hc; rfl),
        List.cons_append, List.cons_append, readNumbers_other (by decide) (by decide) (by decide),
        readNumbers_other (by decide) (by decide) (by decide), ih rest hrest, List.flatten_cons,
        List.append_assoc]

/-- The split is read back from the text. -/
theorem readMap_mapText {a k b : ℕ} (hk : 2 ≤ k) :
    readMap (mapText (a + k + b) (List.range' a k)) =
      (List.range' a k, List.range a ++ List.range' (a + k) b) := by
  have hnumbers : ∀ is : List ℕ,
      List.Forall₂ Reads (is.map toString) (is.map fun i => [(i, 1)]) := by
    intro is
    rw [List.forall₂_map_left_iff, List.forall₂_map_right_iff]
    exact List.forall₂_same.2 fun i _ => reads_toString i
  have hflatten : ∀ is : List ℕ, (is.map fun i => [(i, 1)]).flatten = is.map (·, 1) := by
    intro is
    induction is with
    | nil => rfl
    | cons i is ih => rw [List.map_cons, List.flatten_cons, ih, List.map_cons, List.singleton_append]
  -- the numbers outside the group are one level deep, those of the group two
  have hitems : Reads (commaText ((List.range (a + k + b)).flatMap (mapItem (List.range' a k))))
      ((List.range a).map (·, 1) ++ (List.range' a k).map (·, 2) ++
        (List.range' (a + k) b).map (·, 1)) := by
    have hsegments := reads_commaText (List.rel_append (List.rel_append (hnumbers (List.range a))
      (.cons (reads_run (List.range' a k)) .nil)) (hnumbers (List.range' (a + k) b)))
    rw [flatMap_mapItem hk]
    simpa only [List.flatten_append, hflatten, List.flatten_singleton] using hsegments
  have hread : readNumbers 0 none (mapText (a + k + b) (List.range' a k)).toList =
      (List.range a).map (·, 1) ++ (List.range' a k).map (·, 2) ++
        (List.range' (a + k) b).map (·, 1) := by
    have hclose := hitems ['}'] (by intro c hc; cases hc; rfl)
    have hend : readNumbers 1 none ['}'] = [] := rfl
    rw [hend, List.append_nil] at hclose
    rw [mapText, String.toList_append, String.toList_append, List.append_assoc]
    exact hclose
  -- the depth tells which of them are the group
  have hfilter : ∀ (is : List ℕ) (d e : ℕ),
      ((is.map fun i => (i, d)).filter fun p => p.2 = e).map Prod.fst = if d = e then is else [] := by
    intro is d e
    by_cases hde : d = e <;> simp [List.filter_map, Function.comp_def, hde]
  rw [readMap, hread]
  simp only [List.filter_append, List.map_append, hfilter]
  simp

/-! ## Commas -/

theorem count_digits (i : ℕ) : (digits i).count ',' = 0 := by
  rw [List.count_eq_zero]
  exact fun hmem => absurd (Decimal.isDigit_of_mem hmem) (by decide)

theorem count_toString (i : ℕ) : (toString i).toList.count ',' = 0 := by
  rw [Decimal.toList_toString, count_digits]

/-- A group has one comma less than numbers. -/
theorem count_groupText {is : List ℕ} (h : is ≠ []) :
    (groupText is).toList.count ',' + 1 = is.length := by
  have hrest : ∀ is : List ℕ, (restChars is).count ',' = is.length := by
    intro is
    induction is with
    | nil => rfl
    | cons i is ih => simp [restChars, ih, count_digits]
  obtain ⟨i, is, rfl⟩ := List.exists_cons_of_ne_nil h
  rw [toList_groupText, groupChars, List.count_append, count_digits, hrest]
  simp

/-- A loop that puts a comma before the last number only. -/
theorem count_lastAfterComma {is : List ℕ} (h : is ≠ []) :
    (lastAfterComma is).toList.count ',' = 1 := by
  induction is with
  | nil => exact absurd rfl h
  | cons i is ih =>
    by_cases hne : is = []
    · subst hne
      rw [lastAfterComma, String.toList_append, List.count_append, count_toString]
      rfl
    · rw [lastAfterComma, String.toList_append, List.count_append, ih hne, count_toString]
      exact hne

/-- Texts between commas have one comma less than there are texts, besides their own. -/
theorem count_commaText {ss : List String} (h : ss ≠ []) :
    (commaText ss).toList.count ',' + 1 = ss.length + (ss.map fun s => s.toList.count ',').sum := by
  induction ss with
  | nil => exact absurd rfl h
  | cons s ss ih =>
    by_cases hne : ss = []
    · subst hne
      simp [commaText, Nat.add_comm]
    · have := ih hne
      rw [toList_commaText_cons hne]
      simp
      omega

/-- There is a comma between any two numbers of a map. -/
theorem count_mapText {a k b : ℕ} (hk : 2 ≤ k) :
    (mapText (a + k + b) (List.range' a k)).toList.count ',' + 1 = a + k + b := by
  have hzero : ∀ is : List ℕ, ((is.map toString).map fun s => s.toList.count ',').sum = 0 := by
    intro is
    induction is with
    | nil => rfl
    | cons i is ih => rw [List.map_cons, List.map_cons, List.sum_cons, ih, count_toString]
  have hrun : (groupText (List.range' a k)).toList.count ',' + 1 = k := by
    rw [count_groupText (by simp; omega), List.length_range']
  have hcount := @count_commaText ((List.range a).map toString ++
    ["\x7b" ++ groupText (List.range' a k) ++ "\x7d"] ++ (List.range' (a + k) b).map toString) (by simp)
  rw [mapText, flatMap_mapItem hk]
  simp only [List.map_append, List.sum_append, hzero, List.length_append, List.length_map,
    List.length_range, List.length_range'] at hcount
  simp at hcount ⊢
  omega

/-! ## The map that is written -/

/-- The map when position 0 is in the run: the run and then the other positions. -/
theorem getReshapeMap_front {R N : List ℕ} (hN : N ≠ []) (h : 0 ∈ R) :
    getReshapeMap R N = .ok ("\"\x7b" ++ "\x7b" ++ lastAfterComma R ++
      (if N.length = 1 then "\x7d" else "\x7d, ") ++ lastAfterComma N ++ "\x7d\"") := by
  have hR : R ≠ [] := List.ne_nil_of_mem h
  unfold getReshapeMap
  rw [assert_of (by simpa using hR), Except.ok_bind, assert_of (by simpa using hN),
    Except.ok_bind, assert_of (by simp [h]), Except.ok_bind]
  simp only [if_pos h]
  rfl

/-- With the run at the end and a single position before it. -/
theorem getReshapeMap_single {R : List ℕ} (hR : R ≠ []) (h : 0 ∉ R) :
    getReshapeMap R [0] = .ok ("\"\x7b" ++ toString 0 ++ ", \x7b" ++ lastAfterComma R ++ "\x7d" ++
      "\x7d\"") := by
  unfold getReshapeMap
  rw [assert_of (by simpa using hR), Except.ok_bind, assert_of (by simp), Except.ok_bind,
    assert_of (by simp), Except.ok_bind]
  simp only [if_neg h]
  rfl

/-- The inner brace is not opened. -/
theorem getReshapeMap_back {R N : List ℕ} (hR : R ≠ []) (h : 0 ∉ R) (h' : 0 ∈ N)
    (hlen : N.length ≠ 1) :
    getReshapeMap R N = .ok ("\"\x7b" ++ lastAfterComma N ++ "" ++ lastAfterComma R ++ "\x7d" ++
      "\x7d\"") := by
  unfold getReshapeMap
  rw [assert_of (by simpa using hR), Except.ok_bind,
    assert_of (by simpa using List.ne_nil_of_mem h'), Except.ok_bind, assert_of (by simp [h']),
    Except.ok_bind]
  simp only [if_neg h, if_neg hlen]
  match N, hlen with
  | [], _ => rfl
  | _ :: _ :: _, _ => rfl

/-- However many positions there are, the map has two commas or three. -/
theorem count_getReshapeMap {R N : List ℕ} {text : String} (hR : R ≠ []) (hN : N ≠ [])
    (h : 0 ∈ R ∨ 0 ∈ N) (htext : getReshapeMap R N = .ok text) :
    text.toList.count ',' = if 0 ∈ R ∧ N.length ≠ 1 then 3 else 2 := by
  by_cases hzero : 0 ∈ R
  · rw [getReshapeMap_front hN hzero, Except.ok.injEq] at htext
    rw [← htext]
    simp only [String.toList_append, List.count_append, count_lastAfterComma hR,
      count_lastAfterComma hN, hzero, true_and]
    by_cases hone : N.length = 1
    · rw [if_pos hone, if_neg (by simp [hone])]
      rfl
    · rw [if_neg hone, if_pos hone]
      rfl
  · have hmem := h.resolve_left hzero
    rw [if_neg (by simp [hzero])]
    by_cases hone : N.length = 1
    · obtain ⟨i, rfl⟩ := List.length_eq_one_iff.1 hone
      obtain rfl := List.mem_singleton.1 hmem
      rw [getReshapeMap_single hR hzero, Except.ok.injEq] at htext
      rw [← htext]
      simp only [String.toList_append, List.count_append, count_lastAfterComma hR, count_toString]
      rfl
    · rw [getReshapeMap_back hR hzero hmem hone, Except.ok.injEq] at htext
      rw [← htext]
      simp only [String.toList_append, List.count_append, count_lastAfterComma hR,
        count_lastAfterComma hN]
      rfl

/-- The map is faithful if and only if there are three positions, or four with the first two as
the run. -/
theorem getReshapeMap_faithful_iff {n : ℕ} {R N : List ℕ} (h : Split n R N) :
    FaithfulMap n R N ↔ n = 3 ∨ n = 4 ∧ R = [0, 1] := by
  obtain ⟨a, k, b, hk, hab, rfl, rfl, rfl⟩ := h.segments
  have hR : List.range' a k ≠ [] := by
    rw [← List.length_pos_iff, List.length_range']
    omega
  constructor
  · rintro ⟨htext, -, -⟩
    have hfront : 0 ∈ List.range' a k ↔ a = 0 := by
      rw [List.mem_range'_1]
      omega
    have hzero : 0 ∈ List.range' a k ∨ 0 ∈ List.range a ++ List.range' (a + k) b := by
      by_cases ha : a = 0
      · exact Or.inl (hfront.2 ha)
      · exact Or.inr (List.mem_append_left _ (List.mem_range.2 (by omega)))
    -- the commas written are counted against the commas the map needs
    have hcount := count_getReshapeMap hR h.rest_ne_nil hzero htext
    have hcommas := count_mapText (a := a) (b := b) hk
    have hquoted : (quoted (mapText (a + k + b) (List.range' a k))).toList.count ',' =
        (mapText (a + k + b) (List.range' a k)).toList.count ',' := by
      simp [quoted]
    rw [hquoted] at hcount
    simp only [hfront, List.length_append, List.length_range, List.length_range'] at hcount
    by_cases hthree : a + k + b = 3
    · exact Or.inl hthree
    · have hfour : a = 0 ∧ k = 2 ∧ b = 2 := by
        split at hcount <;> omega
      obtain ⟨rfl, rfl, rfl⟩ := hfour
      exact Or.inr ⟨rfl, rfl⟩
  · intro hn
    refine ⟨?_, nested_mapText _ _, readMap_mapText hk⟩
    have hcases : a = 0 ∧ k = 2 ∧ b = 1 ∨ a = 1 ∧ k = 2 ∧ b = 0 ∨ a = 0 ∧ k = 2 ∧ b = 2 := by
      rcases hn with hn | ⟨hn, hrun⟩
      · omega
      · have hlen := congrArg List.length hrun
        rw [List.length_range', List.length_cons, List.length_singleton] at hlen
        subst hlen
        obtain ⟨rfl, -⟩ := List.cons.inj hrun
        omega
    -- three maps are left
    rcases hcases with ⟨rfl, rfl, rfl⟩ | ⟨rfl, rfl, rfl⟩ | ⟨rfl, rfl, rfl⟩ <;> decide +kernel

/-- Four positions with the first two as the run, as in the builders of a tensor contraction. -/
theorem faithfulMap_front : FaithfulMap 4 [0, 1] [2, 3] :=
  (getReshapeMap_faithful_iff ⟨⟨0, 2, by decide, by decide, rfl⟩, by decide, by decide⟩).2
    (Or.inr ⟨rfl, rfl⟩)

/-- Four positions with the run in the middle: the inner brace is not opened, and a comma is
missing. -/
theorem not_faithfulMap_middle :
    Split 4 [1, 2] [0, 3] ∧ getReshapeMap [1, 2] [0, 3] = .ok "\"\x7b0, 31, 2\x7d\x7d\"" ∧
      ¬FaithfulMap 4 [1, 2] [0, 3] := by
  refine ⟨⟨⟨1, 2, by decide, by decide, rfl⟩, by decide, by decide⟩, by decide +kernel, fun h => ?_⟩
  exact absurd h.text (by decide +kernel)

end TacticsDSL
