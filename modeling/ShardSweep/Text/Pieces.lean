/-!
# Pieces between separators

`pieces` cuts a character list at every occurrence of a separator and
`joinPieces` puts the separator back.  There is always one more piece than
there are separators, so the empty list has one empty piece.

* `joinPieces_pieces`: joining the pieces gives the list back;
* `pieces_joinPieces`: cutting joined pieces gives the pieces back, as long as
  there is one and none of them holds the separator.
-/

namespace ShardSweep.Text

/-- The runs between the separators. -/
def pieces (separator : Char) : List Char → List (List Char)
  | [] => [[]]
  | c :: cs =>
    if c = separator then [] :: pieces separator cs
    else match pieces separator cs with
      | [] => [[c]]
      | p :: ps => (c :: p) :: ps

/-- The pieces one after another with the separator between neighbours. -/
def joinPieces (separator : Char) : List (List Char) → List Char
  | [] => []
  | [p] => p
  | p :: q :: ps => p ++ separator :: joinPieces separator (q :: ps)

/-- The pieces of a text. -/
def split (separator : Char) (s : String) : List String :=
  (pieces separator s.toList).map String.ofList

/-- Texts one after another with the separator between neighbours. -/
def join (separator : Char) (parts : List String) : String :=
  String.ofList (joinPieces separator (parts.map String.toList))

/-- There is always a first piece. -/
theorem pieces_ne_nil (separator : Char) (cs : List Char) : pieces separator cs ≠ [] := by
  cases cs with
  | nil => simp [pieces]
  | cons c cs =>
    by_cases h : c = separator
    · simp [pieces, h]
    · simp only [pieces, h, if_false]
      split <;> simp

/-- A character in front of a joined list goes to the first piece. -/
theorem joinPieces_cons_cons (separator c : Char) (p : List Char) (ps : List (List Char)) :
    joinPieces separator ((c :: p) :: ps) = c :: joinPieces separator (p :: ps) := by
  cases ps <;> simp [joinPieces]

/-- Nothing is lost by cutting. -/
theorem joinPieces_pieces (separator : Char) (cs : List Char) :
    joinPieces separator (pieces separator cs) = cs := by
  induction cs with
  | nil => rfl
  | cons c cs ih =>
    have hne := pieces_ne_nil separator cs
    cases hp : pieces separator cs with
    | nil => exact absurd hp hne
    | cons p ps =>
      rw [hp] at ih
      by_cases h : c = separator
      · simp [pieces, h, hp, joinPieces, ih]
      · simp only [pieces, h, if_false, hp]
        rw [joinPieces_cons_cons, ih]

/-- No piece holds the separator. -/
theorem not_mem_of_mem_pieces {separator : Char} {cs p : List Char}
    (hp : p ∈ pieces separator cs) : separator ∉ p := by
  induction cs generalizing p with
  | nil => simp_all [pieces]
  | cons c cs ih =>
    by_cases h : c = separator
    · simp only [pieces, h, if_true, List.mem_cons] at hp
      rcases hp with rfl | hp
      · simp
      · exact ih hp
    · cases hps : pieces separator cs with
      | nil => exact absurd hps (pieces_ne_nil separator cs)
      | cons q qs =>
        simp only [pieces, h, if_false, hps, List.mem_cons] at hp
        rcases hp with rfl | hp
        · have hq := ih (p := q) (by simp [hps])
          simp only [List.mem_cons, not_or]
          exact ⟨fun e => h e.symm, hq⟩
        · exact ih (by simp [hps, hp])

/-- A list without the separator is its only piece. -/
theorem pieces_eq_singleton {separator : Char} {cs : List Char} (h : separator ∉ cs) :
    pieces separator cs = [cs] := by
  induction cs with
  | nil => rfl
  | cons c cs ih =>
    simp only [List.mem_cons, not_or] at h
    simp [pieces, ih h.2, Ne.symm h.1]

/-- What stands before a separator and what stands behind it are cut on their own. -/
theorem pieces_append_separator (separator : Char) (front back : List Char) :
    pieces separator (front ++ separator :: back) =
      pieces separator front ++ pieces separator back := by
  induction front with
  | nil => simp [pieces]
  | cons c front ih =>
    by_cases h : c = separator
    · simp [pieces, h, ih]
    · cases hpieces : pieces separator front with
      | nil => exact absurd hpieces (pieces_ne_nil separator front)
      | cons p ps => simp [pieces, h, ih, hpieces]

/-- A list without the separator in front of one is the first piece. -/
theorem pieces_append_cons {separator : Char} {p : List Char} (h : separator ∉ p)
    (cs : List Char) : pieces separator (p ++ separator :: cs) = p :: pieces separator cs := by
  rw [pieces_append_separator, pieces_eq_singleton h, List.singleton_append]

/-- Cutting joined pieces gives the pieces back. -/
theorem pieces_joinPieces {separator : Char} {ps : List (List Char)} (hne : ps ≠ [])
    (h : ∀ p ∈ ps, separator ∉ p) : pieces separator (joinPieces separator ps) = ps := by
  induction ps with
  | nil => exact absurd rfl hne
  | cons p ps ih =>
    cases ps with
    | nil => simpa [joinPieces] using pieces_eq_singleton (h p (by simp))
    | cons q qs =>
      rw [joinPieces, pieces_append_cons (h p (by simp)), ih (by simp)]
      exact fun r hr => h r (List.mem_cons_of_mem p hr)

end ShardSweep.Text
