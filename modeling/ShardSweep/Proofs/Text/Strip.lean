import Mathlib.Data.List.TakeWhile
import ShardSweep.Text.Blank

/-!
# What stripping leaves

`strip` is described without the lists it walks through: what it leaves neither starts nor ends with
a blank, and nothing but blanks stood around it.  There is only one text like that, so blanks around
a text make no difference to what is left.

* `Text.isStripped_strip`, `Text.IsStripped.strip_eq`: the description, and that it suffices;
* `Text.strip_around`: blanks around a text make no difference;
* `Text.strip_eq_empty_iff`: nothing is left of blanks, and of nothing else.
-/

namespace ShardSweep.Text

/-- Nothing but blanks. -/
def IsBlankText (s : String) : Prop :=
  ∀ c ∈ s.toList, isBlank c = true

instance (s : String) : Decidable (IsBlankText s) :=
  decidable_of_iff (s.toList.all isBlank = true) List.all_eq_true

/-- The second text is the first without the blanks around it. -/
structure IsStripped (s u : String) : Prop where
  around : ∃ front back, IsBlankText front ∧ IsBlankText back ∧ s = front ++ u ++ back
  starts : ∀ c, u.toList.head? = some c → isBlank c = false
  ends : ∀ c, u.toList.getLast? = some c → isBlank c = false

variable {s u : String}

theorem stripLeft_append {front : List Char} (blank : ∀ c ∈ front, isBlank c = true)
    (cs : List Char) : stripLeft (front ++ cs) = stripLeft cs :=
  List.dropWhile_append_of_pos blank

/-- Blanks were dropped in front of what `stripLeft` leaves. -/
theorem exists_append_stripLeft (cs : List Char) :
    ∃ front, (∀ c ∈ front, isBlank c = true) ∧ front ++ stripLeft cs = cs :=
  ⟨cs.takeWhile isBlank, fun _ hc => List.mem_takeWhile_imp hc, List.takeWhile_append_dropWhile⟩

/-- Blanks were dropped behind what `stripRight` leaves. -/
theorem exists_stripRight_append (cs : List Char) :
    ∃ back, (∀ c ∈ back, isBlank c = true) ∧ stripRight cs ++ back = cs := by
  obtain ⟨front, hblank, hfront⟩ := exists_append_stripLeft cs.reverse
  refine ⟨front.reverse, fun c hc => hblank c (List.mem_reverse.mp hc), ?_⟩
  have := congrArg List.reverse hfront
  simpa [stripRight] using this

/-- What `strip` leaves is the text without the blanks around it. -/
theorem isStripped_strip (s : String) : IsStripped s (strip s) := by
  obtain ⟨front, hfront, hleft⟩ := exists_append_stripLeft s.toList
  obtain ⟨back, hback, hright⟩ := exists_stripRight_append (stripLeft s.toList)
  refine ⟨⟨String.ofList front, String.ofList back, by simpa [IsBlankText] using hfront,
    by simpa [IsBlankText] using hback, ?_⟩, ?_, ?_⟩
  · apply String.toList_injective
    simp [stripChars, hright, hleft]
  · exact fun c hc => head?_stripChars (by simpa using hc)
  · exact fun c hc => getLast?_stripChars (by simpa using hc)

/-- Only one text is left. -/
theorem IsStripped.strip_eq (stripped : IsStripped s u) : strip s = u := by
  obtain ⟨⟨front, back, hfront, hback, rfl⟩, hstarts, hends⟩ := stripped
  apply String.toList_injective
  have hleft : stripLeft (front ++ u ++ back).toList = stripLeft (u.toList ++ back.toList) := by
    rw [String.toList_append, String.toList_append, List.append_assoc]
    exact stripLeft_append hfront _
  rw [toList_strip, stripChars, hleft]
  cases hu : u.toList with
  | nil =>
    have hnil : stripLeft back.toList = [] := by
      simpa [stripLeft] using stripLeft_append hback []
    rw [List.nil_append, hnil]
    rfl
  | cons c cs =>
    have hback' : ∀ c ∈ back.toList.reverse, isBlank c = true :=
      fun c hc => hback c (List.mem_reverse.mp hc)
    rw [hu] at hstarts hends
    have hkept : stripLeft (c :: cs ++ back.toList) = c :: cs ++ back.toList :=
      stripLeft_eq_self fun d hd => hstarts d hd
    rw [hkept, stripRight, List.reverse_append, stripLeft_append hback',
      stripLeft_eq_self (by rwa [List.head?_reverse]), List.reverse_reverse]

/-- Blanks around a text make no difference. -/
theorem strip_around {front back : String} (hfront : IsBlankText front) (hback : IsBlankText back)
    (u : String) : strip (front ++ u ++ back) = strip u := by
  obtain ⟨⟨front', back', hfront', hback', hu⟩, hstarts, hends⟩ := isStripped_strip u
  refine IsStripped.strip_eq ⟨⟨front ++ front', back' ++ back, ?_, ?_, ?_⟩, hstarts, hends⟩
  · intro c hc
    rw [String.toList_append, List.mem_append] at hc
    exact hc.elim (hfront c) (hfront' c)
  · intro c hc
    rw [String.toList_append, List.mem_append] at hc
    exact hc.elim (hback' c) (hback c)
  · have hwhole : front ++ u ++ back = front ++ (front' ++ strip u ++ back') ++ back := by rw [← hu]
    rw [hwhole]
    simp only [String.append_assoc]

/-- A text of which nothing is left was blank. -/
theorem strip_eq_empty_iff : strip s = "" ↔ IsBlankText s := by
  refine ⟨?_, ?_⟩
  · intro h
    obtain ⟨front, back, hfront, hback, hs⟩ := (isStripped_strip s).around
    intro c hc
    rw [hs, h, String.append_empty, String.toList_append, List.mem_append] at hc
    exact hc.elim (hfront c) (hback c)
  · intro h
    exact IsStripped.strip_eq ⟨⟨s, "", h, by simp [IsBlankText], by simp⟩, by simp, by simp⟩

end ShardSweep.Text
