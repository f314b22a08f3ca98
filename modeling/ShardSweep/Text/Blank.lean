/-!
# Blank characters and stripped text

`isBlank` is the White_Space property, all twenty-five characters of it; core's
`Char.isWhitespace` knows four of them.  `strip` drops the blanks at both ends
of a text and leaves those inside it alone.

* `isBlank_of_isWhitespace`: every character that core calls white space is blank;
* `strip_strip`: stripping a second time changes nothing;
* `strip_eq_self`: a text that neither starts nor ends with a blank is left as it is.
-/

namespace ShardSweep.Text

/-- The White_Space property of characters. -/
def isBlank (c : Char) : Bool :=
  (0x9 ≤ c.toNat && c.toNat ≤ 0xD) || c.toNat == 0x20 || c.toNat == 0x85 ||
    c.toNat == 0xA0 || c.toNat == 0x1680 || (0x2000 ≤ c.toNat && c.toNat ≤ 0x200A) ||
    c.toNat == 0x2028 || c.toNat == 0x2029 || c.toNat == 0x202F || c.toNat == 0x205F ||
    c.toNat == 0x3000

/-- Drop the blanks in front. -/
def stripLeft (cs : List Char) : List Char :=
  cs.dropWhile isBlank

/-- Drop the blanks at the end. -/
def stripRight (cs : List Char) : List Char :=
  (stripLeft cs.reverse).reverse

/-- Drop the blanks at both ends. -/
def stripChars (cs : List Char) : List Char :=
  stripRight (stripLeft cs)

/-- Drop the blanks at both ends of a text. -/
def strip (s : String) : String :=
  String.ofList (stripChars s.toList)

/-- Core's white space is part of the property. -/
theorem isBlank_of_isWhitespace {c : Char} (h : c.isWhitespace = true) : isBlank c = true := by
  simp only [Char.isWhitespace, Bool.or_eq_true, decide_eq_true_eq] at h
  rcases h with ((h | h) | h) | h <;> subst h <;> decide

/-- A character list that starts with no blank has nothing to drop in front. -/
theorem stripLeft_eq_self {cs : List Char} (h : ∀ c, cs.head? = some c → isBlank c = false) :
    stripLeft cs = cs := by
  cases cs with
  | nil => rfl
  | cons c cs => simp [stripLeft, h c rfl]

/-- What remains after dropping blanks in front starts with none. -/
theorem head?_stripLeft {cs : List Char} {c : Char} (h : (stripLeft cs).head? = some c) :
    isBlank c = false := by
  induction cs with
  | nil => simp [stripLeft] at h
  | cons d cs ih =>
    by_cases hd : isBlank d
    · exact ih (by simpa [stripLeft, List.dropWhile_cons, hd] using h)
    · simp only [stripLeft, List.dropWhile_cons, hd] at h
      simp only [Bool.false_eq_true, if_false, List.head?_cons, Option.some.injEq] at h
      exact h ▸ by simpa using hd

/-- Dropping blanks only shortens a list from its front. -/
theorem stripLeft_suffix (cs : List Char) : stripLeft cs <:+ cs :=
  List.dropWhile_suffix isBlank

/-- What remains after dropping blanks at the end ends with none. -/
theorem getLast?_stripRight {cs : List Char} {c : Char}
    (h : (stripRight cs).getLast? = some c) : isBlank c = false :=
  head?_stripLeft (by simpa [stripRight] using h)

/-- Dropping blanks at the end keeps the first character, if any remains. -/
theorem head?_stripRight {cs : List Char} {c : Char} (h : (stripRight cs).head? = some c) :
    cs.head? = some c := by
  obtain ⟨t, ht⟩ := stripLeft_suffix cs.reverse
  have hcs : cs = stripRight cs ++ t.reverse := by
    have := congrArg List.reverse ht
    simpa [stripRight] using this.symm
  cases hs : stripRight cs with
  | nil => simp [hs] at h
  | cons d ds =>
    rw [hs] at h hcs
    rw [hcs]
    simpa using h

/-- A list that neither starts nor ends with a blank is left as it is. -/
theorem stripChars_eq_self {cs : List Char} (hl : ∀ c, cs.head? = some c → isBlank c = false)
    (hr : ∀ c, cs.getLast? = some c → isBlank c = false) : stripChars cs = cs := by
  rw [stripChars, stripLeft_eq_self hl, stripRight, stripLeft_eq_self, List.reverse_reverse]
  simpa using hr

/-- The first character of a stripped list is no blank. -/
theorem head?_stripChars {cs : List Char} {c : Char} (h : (stripChars cs).head? = some c) :
    isBlank c = false :=
  head?_stripLeft (head?_stripRight h)

/-- The last character of a stripped list is no blank. -/
theorem getLast?_stripChars {cs : List Char} {c : Char}
    (h : (stripChars cs).getLast? = some c) : isBlank c = false :=
  getLast?_stripRight h

/-- The characters of a stripped text. -/
@[simp] theorem toList_strip (s : String) : (strip s).toList = stripChars s.toList := by
  simp [strip]

/-- A text that neither starts nor ends with a blank is left as it is. -/
theorem strip_eq_self {s : String} (hl : ∀ c, s.toList.head? = some c → isBlank c = false)
    (hr : ∀ c, s.toList.getLast? = some c → isBlank c = false) : strip s = s := by
  rw [strip, stripChars_eq_self hl hr, String.ofList_toList]

/-- Stripping a second time changes nothing. -/
theorem strip_strip (s : String) : strip (strip s) = strip s :=
  strip_eq_self (fun _ h => head?_stripChars (by simpa using h))
    (fun _ h => getLast?_stripChars (by simpa using h))

end ShardSweep.Text
