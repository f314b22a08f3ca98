import ShardSweep.Path

/-!
# Paths that are written again

The names that a path goes through can be written as a path again.  That path goes through the
same names except for the last one: the blanks around a path are dropped, and blanks at the end
of the last name are around the path.  What is left of the last name may be nothing, or one of the
pieces that stand for no name.

* `Path.plain_of_components`: what the names of a path look like;
* `Path.components_text_concat`: what a path that was written again goes through;
* `Path.components_text_eq_iff`: it is the same exactly if no blank is at the end;
* `Path.components_text`: the same for any number of names.
-/

namespace ShardSweep

namespace Text

/-- Drop the blanks at the end of a text. -/
def stripEnd (s : String) : String :=
  String.ofList (stripRight s.toList)

/-- What stands before a character that is no blank is not touched at the end. -/
theorem stripRight_append_cons (front back : List Char) {c : Char} (h : isBlank c = false) :
    stripRight (front ++ c :: back) = front ++ c :: stripRight back := by
  have hfront : stripLeft (c :: front.reverse) = c :: front.reverse :=
    stripLeft_eq_self fun d hd => Option.some.inj hd ▸ h
  have hreverse : (front ++ c :: back).reverse = back.reverse ++ c :: front.reverse := by simp
  rw [stripRight, hreverse, stripLeft, List.dropWhile_append]
  cases hback : back.reverse.dropWhile isBlank with
  | nil =>
    rw [if_pos List.isEmpty_nil, ← stripLeft, hfront, stripRight, stripLeft, hback]
    simp
  | cons d ds =>
    rw [if_neg (by simp), stripRight, stripLeft, hback]
    simp

theorem stripRight_subset (cs : List Char) : stripRight cs ⊆ cs := by
  intro c hc
  rw [stripRight, List.mem_reverse] at hc
  exact List.mem_reverse.mp ((stripLeft_suffix _).subset hc)

/-- A text that does not end in a blank is left as it is. -/
theorem stripEnd_eq_self {s : String} (h : ∀ c, s.toList.getLast? = some c → isBlank c = false) :
    stripEnd s = s := by
  have hright : stripRight s.toList = s.toList := by
    rw [stripRight, stripLeft_eq_self (by simpa using h), List.reverse_reverse]
  rw [stripEnd, hright, String.ofList_toList]

/-- Joined pieces with a separator in front are the pieces, each with a separator in front. -/
theorem cons_joinPieces (separator : Char) {ps : List (List Char)} (hne : ps ≠ []) :
    separator :: joinPieces separator ps = ps.flatMap (separator :: ·) := by
  induction ps with
  | nil => exact absurd rfl hne
  | cons p ps ih =>
    cases ps with
    | nil => simp [joinPieces]
    | cons q qs =>
      rw [joinPieces, ih (by simp), List.flatMap_cons]
      rfl

end Text

namespace Path

/-- A name that a piece of a path can be. -/
structure Plain (name : String) : Prop where
  nonempty : name ≠ ""
  not_here : name ≠ "."
  not_up : name ≠ ".."
  whole : '/' ∉ name.toList

variable {name : String} {names : List String}

/-- A piece is no name, or the deepest name from then on. -/
theorem enter_cases (trail : List String) {piece : String} (whole : '/' ∉ piece.toList) :
    enter trail piece = trail ∨ enter trail piece = trail.tail ∨
      Plain piece ∧ enter trail piece = piece :: trail := by
  unfold enter
  by_cases hhere : piece = "" ∨ piece = "."
  · exact .inl (if_pos hhere)
  · rw [if_neg hhere]
    by_cases hup : piece = ".."
    · exact .inr (.inl (if_pos hup))
    · obtain ⟨hempty, hdot⟩ := not_or.mp hhere
      exact .inr (.inr ⟨⟨hempty, hdot, hup, whole⟩, if_neg hup⟩)

theorem enter_plain (plain : Plain name) (trail : List String) :
    enter trail name = name :: trail := by
  rw [enter, if_neg (not_or.mpr ⟨plain.nonempty, plain.not_here⟩), if_neg plain.not_up]

theorem foldl_enter_plain (plain : ∀ name ∈ names, Plain name) (trail : List String) :
    names.foldl enter trail = names.reverse ++ trail := by
  induction names generalizing trail with
  | nil => rfl
  | cons name names ih =>
    rw [List.foldl_cons, enter_plain (plain _ List.mem_cons_self),
      ih fun n hn => plain n (List.mem_cons_of_mem _ hn)]
    simp

private theorem plain_foldl {pieces trail : List String}
    (whole : ∀ piece ∈ pieces, '/' ∉ piece.toList) (plain : ∀ name ∈ trail, Plain name) :
    ∀ name ∈ pieces.foldl enter trail, Plain name := by
  induction pieces generalizing trail with
  | nil => exact plain
  | cons piece pieces ih =>
    refine ih (fun p hp => whole p (List.mem_cons_of_mem _ hp)) ?_
    intro name hname
    rcases enter_cases trail (whole piece List.mem_cons_self) with h | h | ⟨hpiece, h⟩
    · exact plain name (h ▸ hname)
    · exact plain name (List.mem_of_mem_tail (h ▸ hname))
    · rw [h] at hname
      rcases List.mem_cons.mp hname with rfl | htrail
      · exact hpiece
      · exact plain name htrail

/-- The names that a path goes through are pieces of it. -/
theorem plain_of_components {path : String} (h : components path = .ok names) :
    ∀ name ∈ names, Plain name := by
  unfold components at h
  split at h
  · obtain rfl := Except.ok.inj h
    have hwhole : ∀ piece ∈ Text.split '/' (Text.strip path), '/' ∉ piece.toList := by
      intro piece hpiece
      obtain ⟨p, hp, rfl⟩ := List.mem_map.mp hpiece
      rw [String.toList_ofList]
      exact Text.not_mem_of_mem_pieces hp
    have hplain : ∀ name ∈ (Text.split '/' (Text.strip path)).foldl enter [], Plain name :=
      plain_foldl hwhole nofun
    exact fun name hname => hplain name (List.mem_reverse.mp hname)
  · cases h

/-- A path that goes through names, as characters. -/
theorem toList_text (hne : names ≠ []) :
    (text names).toList = (names.map String.toList).flatMap ('/' :: ·) := by
  rw [← Text.cons_joinPieces '/' (by simpa using hne)]
  simp [text, Text.join]

/-- The blanks at the end of the last name are at the end of the path. -/
theorem strip_text (names : List String) (name : String) :
    Text.strip (text (names ++ [name])) = text (names ++ [Text.stripEnd name]) := by
  have hslash : Text.isBlank '/' = false := by decide
  apply String.toList_injective
  rw [Text.toList_strip, toList_text (by simp), toList_text (by simp)]
  have hleft : ∀ cs, Text.stripLeft ('/' :: cs) = '/' :: cs :=
    fun cs => Text.stripLeft_eq_self fun c hc => Option.some.inj hc ▸ hslash
  have hstart : Text.stripLeft (((names ++ [name]).map String.toList).flatMap ('/' :: ·)) =
      ((names ++ [name]).map String.toList).flatMap ('/' :: ·) := by
    cases names <;> exact hleft _
  rw [Text.stripChars, hstart]
  simp [Text.stripRight_append_cons _ _ hslash, Text.stripEnd]

/-- Every name of a path is a piece of it, after the empty piece in front. -/
theorem split_text (hne : names ≠ []) (whole : ∀ name ∈ names, '/' ∉ name.toList) :
    Text.split '/' (text names) = "" :: names := by
  have hpieces : Text.pieces '/' (text names).toList = [] :: names.map String.toList := by
    have htext : (text names).toList = '/' :: Text.joinPieces '/' (names.map String.toList) := by
      simp [text, Text.join]
    rw [htext, Text.pieces, if_pos rfl, Text.pieces_joinPieces (by simpa using hne)]
    intro p hp
    obtain ⟨name, hname, rfl⟩ := List.mem_map.mp hp
    exact whole name hname
  rw [Text.split, hpieces]
  simp

/-- A path that was written again goes through the same names, but what is left of the last one
without the blanks at its end is entered anew. -/
theorem components_text_concat (plain : ∀ name ∈ names, Plain name) (whole : '/' ∉ name.toList) :
    components (text (names ++ [name])) =
      .ok (enter names.reverse (Text.stripEnd name)).reverse := by
  have habsolute : ∀ names, isAbsolute (text names) = true := by
    intro names
    simp [isAbsolute, text]
  have hpieces : ∀ piece ∈ names ++ [Text.stripEnd name], '/' ∉ piece.toList := by
    intro piece hpiece
    rcases List.mem_append.mp hpiece with hp | hp
    · exact (plain piece hp).whole
    · obtain rfl := List.mem_singleton.mp hp
      rw [Text.stripEnd, String.toList_ofList]
      exact fun h => whole (Text.stripRight_subset _ h)
  rw [components, strip_text, if_pos (habsolute _), split_text (by simp) hpieces, normalize,
    List.foldl_cons, List.foldl_append, foldl_enter_plain plain]
  simp [enter]

/-- Names are the same after they were written as a path exactly if no blank is at the end. -/
theorem components_text_eq_iff (plain : ∀ name ∈ names, Plain name) (last : Plain name) :
    components (text (names ++ [name])) = .ok (names ++ [name]) ↔ Text.stripEnd name = name := by
  rw [components_text_concat plain last.whole]
  refine ⟨?_, ?_⟩
  · intro h
    have hnames : enter names.reverse (Text.stripEnd name) = name :: names.reverse := by
      simpa using congrArg List.reverse (Except.ok.inj h)
    have hwhole : '/' ∉ (Text.stripEnd name).toList := by
      rw [Text.stripEnd, String.toList_ofList]
      exact fun h => last.whole (Text.stripRight_subset _ h)
    rcases enter_cases names.reverse hwhole with hsame | hback | ⟨-, hdeeper⟩
    · exact absurd (congrArg List.length (hsame.symm.trans hnames)) (by simp)
    · have hlength := congrArg List.length (hback.symm.trans hnames)
      simp only [List.length_tail, List.length_cons] at hlength
      omega
    · exact (List.cons.inj (hdeeper.symm.trans hnames)).1
  · intro h
    rw [h, enter_plain last]
    simp

/-- Names of which the last does not end in a blank are the same after they were written as a
path. -/
theorem components_text (plain : ∀ name ∈ names, Plain name)
    (tidy : ∀ name, names.getLast? = some name →
      ∀ c, name.toList.getLast? = some c → Text.isBlank c = false) :
    components (text names) = .ok names := by
  rcases List.eq_nil_or_concat names with rfl | ⟨front, name, rfl⟩
  · rfl
  · have hfront : ∀ n ∈ front, Plain n := fun n hn => plain n (by simp [hn])
    have hlast : Plain name := plain name (by simp)
    rw [List.concat_eq_append]
    exact (components_text_eq_iff hfront hlast).mpr (Text.stripEnd_eq_self (tidy name (by simp)))

/-- A blank at the end of a name is lost, and with it the difference from another name. -/
example : components "/a /b" = .ok ["a ", "b"] ∧ components (text ["a "]) = .ok ["a"] := by
  constructor <;> cbv

end Path

end ShardSweep
