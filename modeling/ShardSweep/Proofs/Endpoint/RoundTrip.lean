import ShardSweep.Proofs.Endpoint.Grammar

/-!
# Endpoints that are written down

An endpoint is written as its host, a colon and its number without leading zeros.  That is an
address in ASCII, so it is read again, and it holds neither blanks nor commas, so it is also found
in a list with commas, whatever blanks are around the items and whichever items are blank.

* `Endpoint.address_text`, `Endpoint.usable_number`: what is written is an address;
* `Endpoint.parse_text`: it is read again;
* `Endpoint.readItems_eq_ok`, `Endpoint.readItems_eq_error_iff`: what is read item by item;
* `Endpoint.read_back`: endpoints and lists of them are read as they were written, and the first bad
  item of a list is the outcome.
-/

namespace ShardSweep

/-- The characters of addresses are neither blank nor a comma. -/
theorem IsAsciiAlphanumeric.plain {c : Char} (h : IsAsciiAlphanumeric c) :
    Text.isBlank c = false ∧ c ≠ ',' := by
  constructor
  · have hrange : 0x30 ≤ c.toNat ∧ c.toNat ≤ 0x7A := by
      rcases h with ⟨h₁, h₂⟩ | ⟨h₁, h₂⟩ | ⟨h₁, h₂⟩ <;>
        simp only [Char.le_def, UInt32.le_iff_toNat_le] at h₁ h₂ <;>
        exact ⟨Nat.le_trans (by decide) h₁, Nat.le_trans h₂ (by decide)⟩
    simp only [Text.isBlank, Bool.or_eq_false_iff, Bool.and_eq_false_iff, decide_eq_false_iff_not,
      beq_eq_false_iff_ne]
    omega
  · rintro rfl
    revert h
    decide

/-- No character of a host is blank or a comma. -/
theorem HostText.plain {cs : List Char} (host : HostText cs) {c : Char} (hc : c ∈ cs) :
    Text.isBlank c = false ∧ c ≠ ',' := by
  cases host with
  | bracketed inner nonempty inside =>
    simp only [List.cons_append, List.mem_cons, List.mem_append, List.not_mem_nil, or_false] at hc
    rcases hc with rfl | hc | rfl
    · decide
    · rcases inside c hc with h | h | h | rfl | rfl
      · exact IsAsciiAlphanumeric.plain (.inl h)
      · exact IsAsciiAlphanumeric.plain (.inr (.inl ⟨h.1, Char.le_trans h.2 (by decide)⟩))
      · exact IsAsciiAlphanumeric.plain (.inr (.inr ⟨h.1, Char.le_trans h.2 (by decide)⟩))
      · decide
      · decide
    · decide
  | named first rest start inside =>
    rcases List.mem_cons.mp hc with rfl | hc
    · exact start.plain
    · rcases inside c hc with h | rfl | rfl
      · exact h.plain
      · decide
      · decide

/-- Joined items are cut where they were joined, as long as there is one and none of them holds the
separator. -/
theorem Text.split_join {separator : Char} {items : List String} (hne : items ≠ [])
    (whole : ∀ x ∈ items, separator ∉ x.toList) :
    Text.split separator (Text.join separator items) = items := by
  have hwhole : ∀ p ∈ items.map String.toList, separator ∉ p := by
    intro p hp
    obtain ⟨x, hx, rfl⟩ := List.mem_map.mp hp
    exact whole x hx
  rw [Text.split, Text.join, String.toList_ofList,
    Text.pieces_joinPieces (by simpa using hne) hwhole]
  simp

namespace Endpoint

theorem eq_of {e e' : Endpoint} (host : e.host = e'.host) (number : e.number = e'.number) :
    e = e' := by
  cases e
  cases e'
  cases host
  cases number
  rfl

/-! ## One endpoint -/

variable (e : Endpoint)

/-- A number is written in digits. -/
theorem isAsciiDigit_number : ∀ c ∈ (toString e.number).toList, IsAsciiDigit c := by
  intro c hc
  rw [Nat.toString_eq_repr, Nat.toList_repr] at hc
  exact isDigit_iff.mp (Nat.isDigit_of_mem_toDigits (by decide) (by decide) hc)

/-- An endpoint is written as an address. -/
theorem address_text : Address e.text e.host (toString e.number) := by
  have hnumber : e.number < 10 ^ 5 := Nat.lt_of_le_of_lt e.number_le (by decide)
  refine ⟨rfl, isHost_iff.mp e.isHost_host, ⟨Nat.length_repr_pos, ?_⟩, ?_⟩
  · exact (Nat.length_repr_le_iff (by decide)).mpr hnumber
  · intro c hc
    exact Text.isDecimalDigit_of_isDigit (isDigit_iff.mpr (e.isAsciiDigit_number c hc))

/-- Its digits are read as the number. -/
theorem ofDigitChars_number : Nat.ofDigitChars 10 (toString e.number).toList 0 = e.number := by
  rw [Nat.toString_eq_repr, Nat.toList_repr, Nat.ofDigitChars_ten_toDigits]

/-- So the written number is one that can be read. -/
theorem usable_number : Usable (toString e.number) where
  ascii := e.isAsciiDigit_number
  pos := by
    rw [e.ofDigitChars_number]
    exact e.number_pos
  le := by
    rw [e.ofDigitChars_number]
    exact e.number_le

/-- No character of what is written is blank or a comma. -/
theorem plain_text {c : Char} (hc : c ∈ e.text.toList) : Text.isBlank c = false ∧ c ≠ ',' := by
  have htext : e.text.toList = e.host.toList ++ ':' :: (toString e.number).toList := by
    simp [text]
  rw [htext, List.mem_append, List.mem_cons] at hc
  rcases hc with hc | rfl | hc
  · exact (isHost_iff.mp e.isHost_host).plain hc
  · decide
  · exact IsAsciiAlphanumeric.plain (.inl (e.isAsciiDigit_number c hc))

/-- An endpoint is written without blanks around it. -/
theorem strip_text : Text.strip e.text = e.text :=
  Text.strip_eq_self (fun _ hc => (e.plain_text (List.mem_of_mem_head? hc)).1)
    fun _ hc => (e.plain_text (List.mem_of_mem_getLast? hc)).1

/-- What is written is read again. -/
theorem parse_text : parse e.text = .ok e := by
  have haddress : Address (Text.strip e.text) e.host (toString e.number) :=
    e.strip_text.symm ▸ e.address_text
  obtain ⟨e', he', hhost, hnumber⟩ := parse_of_usable haddress e.usable_number
  rw [he', eq_of hhost (hnumber.trans e.ofDigitChars_number)]

/-! ## Lists of endpoints -/

/-- What is read from items: those that are blank are skipped. -/
def readItems (items : List String) : Except BadAddress (List Endpoint) :=
  ((items.map Text.strip).filter (· ≠ "")).mapM parse

/-- A list with commas is read item by item. -/
theorem parseList_eq (s : String) : parseList s = readItems (Text.split ',' s) :=
  rfl

variable {e} {item : String} {items : List String} {es : List Endpoint} {bad : BadAddress}

/-- Blanks around a text make no difference. -/
theorem parse_strip (s : String) : parse (Text.strip s) = parse s := by
  rw [parse, Text.strip_strip]
  rfl

/-- A blank item is skipped. -/
theorem readItems_blank (blank : Text.IsBlankText item) :
    readItems (item :: items) = readItems items := by
  simp [readItems, Text.strip_eq_empty_iff.mpr blank]

/-- Any other item has to be an endpoint. -/
theorem readItems_cons (visible : ¬ Text.IsBlankText item) :
    readItems (item :: items) =
      parse item >>= fun e => readItems items >>= fun es => pure (e :: es) := by
  have hsome : Text.strip item ≠ "" := mt Text.strip_eq_empty_iff.mp visible
  rw [readItems, List.map_cons, List.filter_cons_of_pos (by simpa using hsome), List.mapM_cons,
    parse_strip]
  rfl

/-- The items that stand for endpoints: each as it is written, with blanks around it, and any blank
items between them. -/
inductive Listing : List Endpoint → List String → Prop
  | nil : Listing [] []
  | blank {es : List Endpoint} {item : String} {items : List String}
      (blank : Text.IsBlankText item) (rest : Listing es items) : Listing es (item :: items)
  | item {es : List Endpoint} {items : List String} (e : Endpoint) (front back : String)
      (hfront : Text.IsBlankText front) (hback : Text.IsBlankText back) (rest : Listing es items) :
      Listing (e :: es) ((front ++ e.text ++ back) :: items)

/-- An endpoint is not read from blanks. -/
theorem not_blank_of_parse (h : parse item = .ok e) : ¬ Text.IsBlankText item := by
  intro blank
  rw [parse, Text.strip_eq_empty_iff.mpr blank] at h
  cases h

/-- Listed items hold no comma. -/
theorem Listing.whole (listing : Listing es items) : ∀ x ∈ items, ',' ∉ x.toList := by
  have hblank : ∀ {s : String}, Text.IsBlankText s → ',' ∉ s.toList :=
    fun blank hcomma => absurd (blank _ hcomma) (by decide)
  induction listing with
  | nil => nofun
  | blank blank _ ih => exact List.forall_mem_cons.mpr ⟨hblank blank, ih⟩
  | item e front back hfront hback _ ih =>
    refine List.forall_mem_cons.mpr ⟨?_, ih⟩
    intro hcomma
    rw [String.toList_append, String.toList_append, List.mem_append, List.mem_append] at hcomma
    rcases hcomma with (hcomma | hcomma) | hcomma
    · exact hblank hfront hcomma
    · exact (e.plain_text hcomma).2 rfl
    · exact hblank hback hcomma

/-- Endpoints that are listed are read in their order. -/
theorem readItems_eq_ok (listing : Listing es items) : readItems items = .ok es := by
  induction listing with
  | nil => rfl
  | blank blank _ ih => rw [readItems_blank blank, ih]
  | item e front back hfront hback _ ih =>
    have hparse : parse (front ++ e.text ++ back) = .ok e := by
      rw [← parse_strip, Text.strip_around hfront hback, parse_strip, e.parse_text]
    rw [readItems_cons (not_blank_of_parse hparse), hparse, ih]
    rfl

/-- The first item that is neither blank nor an endpoint is refused like this. -/
def FirstBad (items : List String) (bad : BadAddress) : Prop :=
  ∃ before item after, items = before ++ item :: after ∧
    (∀ x ∈ before, Text.IsBlankText x ∨ ∃ e, parse x = .ok e) ∧
    ¬ Text.IsBlankText item ∧ parse item = .error bad

/-- The first bad item is the first of all, or the first after one that can be read. -/
theorem firstBad_cons : FirstBad (item :: items) bad ↔
    (¬ Text.IsBlankText item ∧ parse item = .error bad) ∨
      (Text.IsBlankText item ∨ ∃ e, parse item = .ok e) ∧ FirstBad items bad := by
  constructor
  · rintro ⟨before, x, after, hitems, hbefore, hx, hbad⟩
    cases before with
    | nil =>
      obtain ⟨rfl, rfl⟩ := List.cons.inj hitems
      exact .inl ⟨hx, hbad⟩
    | cons y before =>
      obtain ⟨rfl, rfl⟩ := List.cons.inj hitems
      obtain ⟨hy, hbefore⟩ := List.forall_mem_cons.mp hbefore
      exact .inr ⟨hy, before, x, after, rfl, hbefore, hx, hbad⟩
  · rintro (⟨hitem, hbad⟩ | ⟨hgood, before, x, after, rfl, hbefore, hx, hbad⟩)
    · exact ⟨[], item, items, rfl, by simp, hitem, hbad⟩
    · exact ⟨item :: before, x, after, rfl, List.forall_mem_cons.mpr ⟨hgood, hbefore⟩, hx, hbad⟩

/-- Items are refused exactly for the first of them that is bad. -/
theorem readItems_eq_error_iff : readItems items = .error bad ↔ FirstBad items bad := by
  induction items with
  | nil => simp [readItems, FirstBad, pure, Except.pure]
  | cons item items ih =>
    by_cases hblank : Text.IsBlankText item
    · simp [readItems_blank hblank, firstBad_cons, hblank, ih]
    · rw [readItems_cons hblank, firstBad_cons, ← ih]
      cases hparse : parse item with
      | error b => simp [hblank, bind, Except.bind]
      | ok e =>
        cases readItems items <;> simp [hblank, bind, Except.bind, pure, Except.pure]

/-- An endpoint that was written down is read again, and then written as before.  A list of
endpoints that were written down, with blanks around the items and blank items anywhere, is read as
these endpoints in their order.  A list in which an item is neither blank nor an endpoint is
refused, as the first such item is. -/
theorem read_back :
    (∀ s e, parse s = .ok e → parse e.text = .ok e ∧ (parse e.text).map text = .ok e.text) ∧
    (∀ es items, Listing es items → parseList (Text.join ',' items) = .ok es) ∧
    ∀ s bad, parseList s = .error bad ↔ FirstBad (Text.split ',' s) bad := by
  refine ⟨?_, ?_, fun s bad => readItems_eq_error_iff⟩
  · intro s e _
    rw [e.parse_text]
    exact ⟨rfl, rfl⟩
  · intro es items listing
    by_cases hitems : items = []
    · subst hitems
      cases listing
      have hblank : readItems [""] = readItems [] := readItems_blank (by decide)
      exact hblank
    · rw [parseList_eq, Text.split_join hitems listing.whole]
      exact readItems_eq_ok listing

/-- Blank items, blanks around an item, and a host that is written with colons. -/
theorem read_back_blanks :
    parse "[::1]:80" = .ok ⟨"[::1]", 80, by decide, by decide, by decide⟩ ∧
    parseList (Text.join ',' ["\t", " a-1.b:7400 ", "", "[::1]:80"]) =
      .ok [⟨"a-1.b", 7400, by decide, by decide, by decide⟩,
        ⟨"[::1]", 80, by decide, by decide, by decide⟩] := by
  let first : Endpoint := ⟨"a-1.b", 7400, by decide, by decide, by decide⟩
  let second : Endpoint := ⟨"[::1]", 80, by decide, by decide, by decide⟩
  have hfirst : " " ++ first.text ++ " " = " a-1.b:7400 " := by cbv
  have hsecond : "" ++ second.text ++ "" = "[::1]:80" := by cbv
  have hlisting : Listing [first, second] ["\t", " a-1.b:7400 ", "", "[::1]:80"] := by
    rw [← hfirst, ← hsecond]
    exact .blank (by decide) (.item first " " " " (by decide) (by decide)
      (.blank (by decide) (.item second "" "" (by decide) (by decide) .nil)))
  obtain ⟨hone, hlist, -⟩ := read_back
  have hread : parse second.text = .ok second := second.parse_text
  refine ⟨?_, hlist _ _ hlisting⟩
  rw [← hsecond, String.empty_append, String.append_empty]
  exact (hone _ _ hread).1

end Endpoint

end ShardSweep
