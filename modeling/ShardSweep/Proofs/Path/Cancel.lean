import Mathlib.Logic.Function.Iterate
import ShardSweep.Proofs.Path

/-!
# Pieces of a path that cancel

A path that is cut at one of its slashes goes through what is in front of the slash and then through
what is behind it; the blanks that are dropped are in front of the one and behind the other.  So
pieces that lead back to where they began can be put in at any slash: a name and `..`, a `.`, or
nothing at all.  In front of the first slash even `..` alone leads nowhere.

* `Path.components_slash`: a path that is cut at a slash;
* `Path.components_between`, `Path.foldl_enter_leave`: pieces that lead back can be put in, and a
  name with `..` leads back;
* `Path.components_up`: nothing is above the root;
* `Path.components_cancel`: what can be cancelled from a path, and what is left of it.
-/

namespace ShardSweep

namespace Text

/-- Drop the blanks in front of a text. -/
def stripStart (s : String) : String :=
  String.ofList (stripLeft s.toList)

/-- What stands behind a character that is no blank is not touched in front. -/
theorem stripLeft_append_cons (front back : List Char) {c : Char} (h : isBlank c = false) :
    stripLeft (front ++ c :: back) = stripLeft front ++ c :: back := by
  have hback : stripLeft (c :: back) = c :: back :=
    stripLeft_eq_self fun d hd => Option.some.inj hd ▸ h
  rw [stripLeft, List.dropWhile_append, ← stripLeft, ← stripLeft, hback]
  cases hfront : stripLeft front <;> simp

/-- The blanks around a text with a slash are in front of the slash and behind it. -/
theorem strip_slash (a b : String) : strip (a ++ "/" ++ b) = stripStart a ++ "/" ++ stripEnd b := by
  have hslash : isBlank '/' = false := by decide
  have hchars : (a ++ "/" ++ b).toList = a.toList ++ '/' :: b.toList := by simp
  apply String.toList_injective
  rw [toList_strip, hchars, stripChars, stripLeft_append_cons _ _ hslash,
    stripRight_append_cons _ _ hslash]
  simp [stripStart, stripEnd]

theorem stripStart_slash (a b : String) :
    stripStart (a ++ "/" ++ b) = stripStart a ++ "/" ++ b := by
  have hchars : (a ++ "/" ++ b).toList = a.toList ++ '/' :: b.toList := by simp
  apply String.toList_injective
  rw [stripStart, String.toList_ofList, hchars, stripLeft_append_cons _ _ (by decide)]
  simp [stripStart]

/-- A text is cut at its separator. -/
theorem split_slash (a b : String) : split '/' (a ++ "/" ++ b) = split '/' a ++ split '/' b := by
  have hchars : (a ++ "/" ++ b).toList = a.toList ++ '/' :: b.toList := by simp
  rw [split, hchars, pieces_append_separator, List.map_append]
  rfl

end Text

namespace Path

variable {a b mid n : String} {cs : List String}

/-- A path goes through what is in front of a slash and then through what is behind it. -/
theorem components_slash (a b : String) : components (a ++ "/" ++ b) = .ok cs ↔
    isAbsolute (Text.stripStart a ++ "/") = true ∧
      cs = normalize (Text.split '/' (Text.stripStart a) ++ Text.split '/' (Text.stripEnd b)) := by
  have habsolute : isAbsolute (Text.stripStart a ++ "/" ++ Text.stripEnd b) =
      isAbsolute (Text.stripStart a ++ "/") := by
    simp only [isAbsolute, String.toList_append]
    cases (Text.stripStart a).toList <;> simp
  rw [components, Text.strip_slash, habsolute, Text.split_slash]
  by_cases h : isAbsolute (Text.stripStart a ++ "/") = true
  · simp [h, eq_comm]
  · simp [h]

/-- Pieces that lead back to where they began can be put in at a slash. -/
theorem components_between (h : components (a ++ "/" ++ b) = .ok cs)
    (back : ∀ trail, (Text.split '/' mid).foldl enter trail = trail) :
    components (a ++ "/" ++ mid ++ "/" ++ b) = .ok cs := by
  obtain ⟨habsolute, rfl⟩ := (components_slash a b).mp h
  refine (components_slash (a ++ "/" ++ mid) b).mpr ⟨?_, ?_⟩
  · rw [Text.stripStart_slash]
    simp only [isAbsolute, String.toList_append] at habsolute ⊢
    cases hfront : (Text.stripStart a).toList <;> simp_all
  · rw [Text.stripStart_slash, Text.split_slash]
    simp only [normalize, List.foldl_append, back]

/-- A name that is entered and left again leads back. -/
theorem foldl_enter_leave (plain : Plain n) (trail : List String) :
    (Text.split '/' (n ++ "/" ++ "..")).foldl enter trail = trail := by
  have hup : Text.split '/' ".." = [".."] := rfl
  have hname : Text.split '/' n = [n] := by
    rw [Text.split, Text.pieces_eq_singleton plain.whole, List.map_singleton, String.ofList_toList]
  rw [Text.split_slash, hname, hup, List.singleton_append, List.foldl_cons, enter_plain plain]
  rfl

/-- A text that begins at the root is a path, and it is the same path with `..` in front: nothing is
above the root. -/
theorem components_up {s : String} (root : s.toList.head? = some '/') :
    ∃ cs, components s = .ok cs ∧ components ("/.." ++ s) = .ok cs := by
  obtain ⟨chars, hchars⟩ := List.head?_eq_some_iff.mp root
  let rest := String.ofList chars
  have hs : s = "" ++ "/" ++ rest := by
    apply String.toList_injective
    simp [hchars, rest]
  have hs' : "/.." ++ s = "/.." ++ "/" ++ rest := by
    rw [hs, String.empty_append, String.append_assoc]
  have hroot : Text.split '/' (Text.stripStart "") = [""] := rfl
  have hup : Text.split '/' (Text.stripStart "/..") = ["", ".."] := rfl
  have hstay : [""].foldl enter [] = [] := rfl
  have hback : ["", ".."].foldl enter [] = [] := rfl
  refine ⟨normalize (Text.split '/' (Text.stripEnd rest)), ?_, ?_⟩
  · rw [hs]
    refine (components_slash "" rest).mpr ⟨by decide, ?_⟩
    rw [hroot, normalize, normalize, List.foldl_append, hstay]
  · rw [hs']
    refine (components_slash "/.." rest).mpr ⟨by decide, ?_⟩
    rw [hup, normalize, normalize, List.foldl_append, hback]

/-- It is the same path with any number of `..` in front. -/
theorem components_iterate_up {s : String} (root : s.toList.head? = some '/') :
    ∃ cs, components s = .ok cs ∧ ∀ k, components (("/.." ++ ·)^[k] s) = .ok cs := by
  have hroot : ∀ k, (("/.." ++ ·)^[k] s).toList.head? = some '/' := by
    intro k
    cases k with
    | zero => exact root
    | succ k => rw [Function.iterate_succ_apply', String.toList_append]; rfl
  obtain ⟨cs, hcs, -⟩ := components_up root
  refine ⟨cs, hcs, fun k => ?_⟩
  induction k with
  | zero => exact hcs
  | succ k ih =>
    obtain ⟨cs', hcs', hup⟩ := components_up (hroot k)
    obtain rfl := Except.ok.inj (ih.symm.trans hcs')
    rw [Function.iterate_succ_apply', hup]

/-- At a slash of a path a name may be entered and left again, and a dot or another slash may be put
in, without a change to the names it goes through.  These are names indeed.  In front of a text that
begins at the root any number of `..` may be put.  A text is no path exactly if, without the blanks
around it, it does not begin with a slash. -/
theorem components_cancel :
    (∀ a b n cs, Plain n → components (a ++ "/" ++ b) = .ok cs →
      components (a ++ "/" ++ n ++ "/../" ++ b) = .ok cs ∧
      components (a ++ "/./" ++ b) = .ok cs ∧
      components (a ++ "//" ++ b) = .ok cs) ∧
    (∀ path cs, components path = .ok cs →
      ∀ name ∈ cs, name ≠ "" ∧ '/' ∉ name.toList ∧ name ≠ "." ∧ name ≠ "..") ∧
    (∀ s, s.toList.head? = some '/' → ∃ cs, components s = .ok cs ∧
      ∀ k, components (("/.." ++ ·)^[k] s) = .ok cs) ∧
    ∀ path, (∃ r, components path = .error r) ↔ (Text.strip path).toList.head? ≠ some '/' := by
  refine ⟨?_, ?_, ?_, ?_⟩
  · intro a b n cs plain h
    have hdot : ∀ trail, (Text.split '/' ".").foldl enter trail = trail := fun _ => rfl
    have hnothing : ∀ trail, (Text.split '/' "").foldl enter trail = trail := fun _ => rfl
    have hleft : "/../" = "/" ++ ".." ++ "/" := by decide
    have hhere : "/./" = "/" ++ "." ++ "/" := by decide
    have hslashes : "//" = "/" ++ "" ++ "/" := by decide
    rw [hleft, hhere, hslashes]
    simp only [← String.append_assoc]
    refine ⟨?_, components_between h hdot, components_between h hnothing⟩
    have hback := components_between h (foldl_enter_leave plain)
    simpa only [← String.append_assoc] using hback
  · intro path cs h name hname
    have hplain := plain_of_components h name hname
    exact ⟨hplain.nonempty, hplain.whole, hplain.not_here, hplain.not_up⟩
  · exact fun s root => components_iterate_up root
  · intro path
    simp only [components_eq_error_iff, isAbsolute, exists_and_left, exists_eq, and_true,
      beq_eq_false_iff_ne, ne_eq]

/-- Blanks around a path that goes above the root before its last name. -/
theorem components_cancel_sample :
    (components (" /x/../.." ++ "/" ++ "b /") = .ok ["b "] ∧
      components (" /x/../.." ++ "/" ++ "n" ++ "/../" ++ "b /") = .ok ["b "] ∧
      components (" /x/../.." ++ "/./" ++ "b /") = .ok ["b "] ∧
      components (" /x/../.." ++ "//" ++ "b /") = .ok ["b "]) ∧
    (components "/a" = .ok ["a"] ∧ components ("/.." ++ ("/.." ++ "/a")) = .ok ["a"]) ∧
    ∀ name ∈ ["b "], name ≠ "" ∧ '/' ∉ name.toList ∧ name ≠ "." ∧ name ≠ ".." := by
  obtain ⟨hbetween, hplain, hroot, -⟩ := components_cancel
  have hpath : components (" /x/../.." ++ "/" ++ "b /") = .ok ["b "] := rfl
  have ha : components "/a" = .ok ["a"] := rfl
  obtain ⟨cs, hcs, hup⟩ := hroot "/a" (by decide)
  obtain rfl := Except.ok.inj (ha.symm.trans hcs)
  have hn : Plain "n" := ⟨by decide, by decide, by decide, by decide⟩
  exact ⟨⟨hpath, hbetween _ _ "n" _ hn hpath⟩, ⟨ha, hup 2⟩, hplain _ _ hpath⟩

end Path

end ShardSweep
