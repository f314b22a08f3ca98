import ShardSweep.Failure
import ShardSweep.Proofs.Text.Strip

/-!
# The grammar of addresses

An address is a host, a colon and one to five decimal digits.  A host in brackets may hold colons,
but no digit is a colon: an address can be cut in one way only, at its last colon.  The reader
accepts exactly the addresses whose digits are of ASCII and have a value that an endpoint can have.
What it says of all other texts depends on how far they follow the grammar.

* `HostText`, `Address`: the grammar, apart from the reader;
* `Address.unique`: there is one way to cut an address;
* `Endpoint.ofChars_of_address`, `Endpoint.ofChars_of_not_address`: what is read from an address,
  and from a text that is none;
* `Endpoint.usable_or_misread`: every text is an address that can be used, or there is a reason why
  it is not;
* `Endpoint.parse_grammar`: the reader and the grammar agree on every text.
-/

namespace ShardSweep

/-- A digit of ASCII. -/
def IsAsciiDigit (c : Char) : Prop :=
  '0' ≤ c ∧ c ≤ '9'

/-- A digit or letter of ASCII. -/
def IsAsciiAlphanumeric (c : Char) : Prop :=
  IsAsciiDigit c ∨ ('A' ≤ c ∧ c ≤ 'Z') ∨ ('a' ≤ c ∧ c ≤ 'z')

instance (c : Char) : Decidable (IsAsciiDigit c) :=
  inferInstanceAs (Decidable (_ ∧ _))

instance (c : Char) : Decidable (IsAsciiAlphanumeric c) :=
  inferInstanceAs (Decidable (_ ∨ _))

/-- The hosts of the grammar. -/
inductive HostText : List Char → Prop
  /-- Hexadecimal digits, colons and dots in brackets, at least one. -/
  | bracketed (inner : List Char) (nonempty : inner ≠ [])
      (inside : ∀ c ∈ inner, IsAsciiDigit c ∨ ('A' ≤ c ∧ c ≤ 'F') ∨ ('a' ≤ c ∧ c ≤ 'f') ∨
        c = ':' ∨ c = '.') : HostText ('[' :: inner ++ [']'])
  /-- A letter or digit, and then any number of letters, digits, dots and hyphens. -/
  | named (first : Char) (rest : List Char) (start : IsAsciiAlphanumeric first)
      (inside : ∀ c ∈ rest, IsAsciiAlphanumeric c ∨ c = '.' ∨ c = '-') : HostText (first :: rest)

/-- The text is a host, a colon and one to five decimal digits of any scripts. -/
structure Address (u host digits : String) : Prop where
  whole : u = host ++ ":" ++ digits
  host : HostText host.toList
  count : 1 ≤ digits.length ∧ digits.length ≤ 5
  decimal : ∀ c ∈ digits.toList, Text.isDecimalDigit c = true

/-- Why a text stands for no endpoint. -/
inductive Misread (u : String) : String → Prop
  | shape (none : ∀ host digits, ¬ Address u host digits) : Misread u "Expected format: host:port"
  | foreign {host digits : String} (address : Address u host digits)
      (foreign : ∃ c ∈ digits.toList, ¬ IsAsciiDigit c) :
      Misread u "Bad port: invalid digit found in string"
  | large {host digits : String} (address : Address u host digits)
      (ascii : ∀ c ∈ digits.toList, IsAsciiDigit c)
      (large : 65535 < Nat.ofDigitChars 10 digits.toList 0) :
      Misread u "Bad port: number too large to fit in target type"
  | zero {host digits : String} (address : Address u host digits)
      (ascii : ∀ c ∈ digits.toList, IsAsciiDigit c)
      (zero : Nat.ofDigitChars 10 digits.toList 0 = 0) : Misread u "Port must not be 0"

/-! ## Characters and hosts -/

theorem isDigit_iff {c : Char} : c.isDigit = true ↔ IsAsciiDigit c := by
  simp [Char.isDigit, IsAsciiDigit, Char.le_def]

theorem isAlphanum_iff {c : Char} : c.isAlphanum = true ↔ IsAsciiAlphanumeric c := by
  have hwhole : c.isAlphanum = ((c.isUpper || c.isLower) || c.isDigit) := rfl
  have hupper : c.isUpper = decide ('A' ≤ c ∧ c ≤ 'Z') := rfl
  have hlower : c.isLower = (decide ('a' ≤ c) && decide (c ≤ 'z')) := rfl
  rw [hwhole, hupper, hlower]
  simp only [Bool.or_eq_true, Bool.and_eq_true, decide_eq_true_eq, isDigit_iff]
  exact or_comm

theorem isAddressChar_iff {c : Char} : isAddressChar c = true ↔
    IsAsciiDigit c ∨ ('A' ≤ c ∧ c ≤ 'F') ∨ ('a' ≤ c ∧ c ≤ 'f') ∨ c = ':' ∨ c = '.' := by
  simp [isAddressChar, isDigit_iff, or_assoc]

theorem isNameChar_iff {c : Char} :
    isNameChar c = true ↔ IsAsciiAlphanumeric c ∨ c = '.' ∨ c = '-' := by
  simp [isNameChar, isAlphanum_iff, or_assoc]

/-- The inside of brackets is at least one character before the closing one. -/
theorem isBracketTail_iff {cs : List Char} : isBracketTail cs = true ↔
    ∃ inner, inner ≠ [] ∧ (∀ c ∈ inner, isAddressChar c = true) ∧ cs = inner ++ [']'] := by
  have hcons : ∀ (c : Char) (cs : List Char),
      (∃ inner, inner ≠ [] ∧ (∀ d ∈ inner, isAddressChar d = true) ∧ c :: cs = inner ++ [']']) ↔
        isAddressChar c = true ∧ (cs = [']'] ∨
          ∃ inner, inner ≠ [] ∧ (∀ d ∈ inner, isAddressChar d = true) ∧ cs = inner ++ [']']) := by
    intro c cs
    constructor
    · rintro ⟨inner, hne, hall, heq⟩
      obtain ⟨d, ds, rfl⟩ := List.exists_cons_of_ne_nil hne
      obtain ⟨rfl, rfl⟩ := List.cons.inj heq
      refine ⟨hall _ List.mem_cons_self, ?_⟩
      by_cases hds : ds = []
      · subst hds
        exact .inl rfl
      · exact .inr ⟨ds, hds, fun e he => hall e (List.mem_cons_of_mem _ he), rfl⟩
    · rintro ⟨hc, rfl | ⟨inner, -, hall, rfl⟩⟩
      · exact ⟨[c], by simp, by simpa using hc, rfl⟩
      · exact ⟨c :: inner, by simp, by simpa using ⟨hc, hall⟩, rfl⟩
  fun_induction isBracketTail cs with
  | case1 => simp
  | case2 c => simp [hcons]
  | case3 c d => simp [hcons]
  | case4 c cs hnone hone ih =>
    have hmore : cs ≠ [']'] := fun h => hone _ h
    rw [Bool.and_eq_true, hcons, or_iff_right hmore]
    exact and_congr_right' ih

/-- The hosts that the reader knows are those of the grammar. -/
theorem isHost_iff {cs : List Char} : isHost cs = true ↔ HostText cs := by
  rw [isHost, Bool.or_eq_true]
  constructor
  · rintro (hbracketed | hname)
    · unfold isBracketed at hbracketed
      split at hbracketed
      · obtain ⟨inner, hne, hall, rfl⟩ := isBracketTail_iff.mp hbracketed
        exact .bracketed inner hne fun c hc => isAddressChar_iff.mp (hall c hc)
      · cases hbracketed
    · cases cs with
      | nil => cases hname
      | cons c cs =>
        rw [isHostName, Bool.and_eq_true, List.all_eq_true] at hname
        exact .named c cs (isAlphanum_iff.mp hname.1) fun d hd => isNameChar_iff.mp (hname.2 d hd)
  · rintro (⟨inner, hne, hinside⟩ | ⟨c, cs, hstart, hinside⟩)
    · exact .inl (isBracketTail_iff.mpr
        ⟨inner, hne, fun c hc => isAddressChar_iff.mpr (hinside c hc), rfl⟩)
    · refine .inr ?_
      rw [isHostName, Bool.and_eq_true, List.all_eq_true]
      exact ⟨isAlphanum_iff.mpr hstart, fun d hd => isNameChar_iff.mpr (hinside d hd)⟩

/-! ## Cutting a text at its last colon -/

/-- A text is cut before the last part without a colon. -/
theorem splitLastColon_append {digits : List Char} (plain : ':' ∉ digits) (host : List Char) :
    splitLastColon (host ++ ':' :: digits) = some (host, digits) := by
  have hreverse : (host ++ ':' :: digits).reverse = digits.reverse ++ ':' :: host.reverse := by simp
  have hpass : ∀ c ∈ digits.reverse, (c != ':') = true := by
    intro c hc
    rw [bne_iff_ne]
    rintro rfl
    exact plain (List.mem_reverse.mp hc)
  have hdrop : (digits.reverse ++ ':' :: host.reverse).dropWhile (· != ':') =
      ':' :: host.reverse := by
    rw [List.dropWhile_append_of_pos hpass]
    rfl
  have htake : (digits.reverse ++ ':' :: host.reverse).takeWhile (· != ':') =
      digits.reverse := by
    rw [List.takeWhile_append_of_pos hpass]
    simp
  rw [splitLastColon, hreverse, hdrop, htake]
  simp

namespace Address

variable {u host digits : String}

/-- No decimal digit is a colon. -/
theorem colon_not_mem (address : Address u host digits) : ':' ∉ digits.toList := by
  intro h
  exact absurd (address.decimal ':' h) (by decide)

/-- An address is cut at its last colon. -/
theorem splitLastColon_eq (address : Address u host digits) :
    splitLastColon u.toList = some (host.toList, digits.toList) := by
  have hwhole : u.toList = host.toList ++ ':' :: digits.toList := by
    rw [address.whole]
    simp
  rw [hwhole, splitLastColon_append address.colon_not_mem]

/-- There is one way to cut an address into its host and its digits. -/
theorem unique {host' digits' : String} (address : Address u host digits)
    (address' : Address u host' digits') : host = host' ∧ digits = digits' := by
  have hcut := address.splitLastColon_eq.symm.trans address'.splitLastColon_eq
  obtain ⟨hhost, hdigits⟩ := Prod.mk.inj (Option.some.inj hcut)
  exact ⟨String.toList_injective hhost, String.toList_injective hdigits⟩

end Address

/-! ## Reading -/

theorem Address.isNumberShape {u host digits : String} (address : Address u host digits) :
    isNumberShape digits.toList = true := by
  simp only [ShardSweep.isNumberShape, Bool.and_eq_true, decide_eq_true_eq, List.all_eq_true,
    String.length_toList]
  exact ⟨address.count, address.decimal⟩

namespace Endpoint

variable {u host digits : String}

/-- What is read from an address depends on its digits alone. -/
theorem ofChars_of_address (address : Address u host digits) :
    ofChars u.toList = match readNumber digits.toList with
      | .error fault => .error fault
      | .ok number =>
        if h : 0 < number ∧ number ≤ maxListenNumber then
          .ok ⟨host, number, isHost_iff.mpr address.host, h.1, h.2⟩
        else .error .zero := by
  have hhost : isHost host.toList = true := isHost_iff.mpr address.host
  cases hnumber : readNumber digits.toList <;>
    simp only [ofChars, address.splitLastColon_eq, dif_pos hhost, if_pos address.isNumberShape,
      String.ofList_toList, hnumber]

/-- A text that is no address does not have the shape of one. -/
theorem ofChars_of_not_address (none : ∀ host digits, ¬ Address u host digits) :
    ofChars u.toList = .error .shape := by
  unfold ofChars
  cases hcut : splitLastColon u.toList with
  | none => rfl
  | some parts =>
    obtain ⟨host, digits⟩ := parts
    by_cases hhost : isHost host = true
    · by_cases hshape : ShardSweep.isNumberShape digits = true
      · obtain ⟨hwhole, -⟩ := splitLastColon_eq_some hcut
        simp only [ShardSweep.isNumberShape, Bool.and_eq_true, decide_eq_true_eq,
          List.all_eq_true] at hshape
        refine absurd ⟨?_, ?_, ?_, ?_⟩ (none (String.ofList host) (String.ofList digits))
        · apply String.toList_injective
          simp [hwhole]
        · simpa using isHost_iff.mp hhost
        · simpa using hshape.1
        · simpa using hshape.2
      · simp [hhost, hshape]
    · simp [hhost]

/-- A number is read from digits of ASCII. -/
theorem readNumber_of_ascii {ds : List Char} (ascii : ∀ c ∈ ds, IsAsciiDigit c) :
    readNumber ds = if Nat.ofDigitChars 10 ds 0 ≤ maxListenNumber then
      .ok (Nat.ofDigitChars 10 ds 0) else .error .tooLarge := by
  have hall : ds.all Char.isDigit = true :=
    List.all_eq_true.mpr fun c hc => isDigit_iff.mpr (ascii c hc)
  rw [readNumber, if_pos hall]
  rfl

/-- A digit of another script is found before the value is looked at. -/
theorem readNumber_of_foreign {ds : List Char} (foreign : ∃ c ∈ ds, ¬ IsAsciiDigit c) :
    readNumber ds = .error .foreignDigit := by
  obtain ⟨c, hc, hforeign⟩ := foreign
  rw [readNumber, if_neg]
  intro hall
  exact hforeign (isDigit_iff.mp (List.all_eq_true.mp hall c hc))

/-- The number that digits of ASCII stand for can be one that an endpoint listens on. -/
structure Usable (digits : String) : Prop where
  ascii : ∀ c ∈ digits.toList, IsAsciiDigit c
  pos : 1 ≤ Nat.ofDigitChars 10 digits.toList 0
  le : Nat.ofDigitChars 10 digits.toList 0 ≤ 65535

variable {s reason : String}

/-- An address with a usable number is read. -/
theorem parse_of_usable (address : Address (Text.strip s) host digits) (usable : Usable digits) :
    ∃ e, parse s = .ok e ∧ e.host = host ∧ e.number = Nat.ofDigitChars 10 digits.toList 0 := by
  have hle : Nat.ofDigitChars 10 digits.toList 0 ≤ maxListenNumber := usable.le
  have hread : ofChars (Text.strip s).toList =
      .ok ⟨host, _, isHost_iff.mpr address.host, usable.pos, hle⟩ := by
    rw [ofChars_of_address address, readNumber_of_ascii usable.ascii, if_pos hle]
    exact dif_pos ⟨usable.pos, hle⟩
  refine ⟨⟨host, _, isHost_iff.mpr address.host, usable.pos, hle⟩, ?_, rfl, rfl⟩
  rw [parse, hread]
  rfl

/-- A text that is no such address is refused, and it is said why. -/
theorem parse_of_misread (misread : Misread (Text.strip s) reason) :
    (parse s).mapError SettingsError.ofBadAddress =
      .error (.invalidEndpoint (Text.strip s) reason) := by
  cases misread with
  | shape none =>
    rw [parse, ofChars_of_not_address none]
    rfl
  | foreign address foreign =>
    rw [parse, ofChars_of_address address, readNumber_of_foreign foreign]
    rfl
  | large address ascii large =>
    rw [parse, ofChars_of_address address, readNumber_of_ascii ascii,
      if_neg (show ¬ _ ≤ maxListenNumber from Nat.not_le.mpr large)]
    rfl
  | zero address ascii zero =>
    rw [parse, ofChars_of_address address, readNumber_of_ascii ascii, zero]
    rfl

/-- Every text is an address with a usable number, or there is something to say about it. -/
theorem usable_or_misread (u : String) :
    (∃ host digits, Address u host digits ∧ Usable digits) ∨ ∃ reason, Misread u reason := by
  by_cases haddress : ∃ host digits, Address u host digits
  · obtain ⟨host, digits, address⟩ := haddress
    by_cases hascii : ∀ c ∈ digits.toList, IsAsciiDigit c
    · rcases Nat.lt_or_ge 65535 (Nat.ofDigitChars 10 digits.toList 0) with hlarge | hle
      · exact .inr ⟨_, .large address hascii hlarge⟩
      · rcases Nat.eq_zero_or_pos (Nat.ofDigitChars 10 digits.toList 0) with hzero | hpos
        · exact .inr ⟨_, .zero address hascii hzero⟩
        · exact .inl ⟨host, digits, address, hascii, hpos, hle⟩
    · exact .inr ⟨_, .foreign address (by simpa using hascii)⟩
  · exact .inr ⟨_, .shape fun host digits address => haddress ⟨host, digits, address⟩⟩

/-- Blanks around a text are dropped.  What is left is read as an endpoint exactly if it is an
address in ASCII with a number of sixteen bits that is not zero; host and number are those of the
address, which can be cut in one way only.  Anything else is handed back with the reason: first that
it has not the shape of an address, then that its digits are no number of sixteen bits, then that
this is zero. -/
theorem parse_grammar (s : String) :
    Text.IsStripped s (Text.strip s) ∧
    (∀ host number, (∃ e, parse s = .ok e ∧ e.host = host ∧ e.number = number) ↔
      ∃ digits, Address (Text.strip s) host digits ∧ (∀ c ∈ digits.toList, IsAsciiDigit c) ∧
        Nat.ofDigitChars 10 digits.toList 0 = number ∧ 1 ≤ number ∧ number ≤ 65535) ∧
    (∀ host digits host' digits', Address (Text.strip s) host digits →
      Address (Text.strip s) host' digits' → host = host' ∧ digits = digits') ∧
    ∀ address reason, (parse s).mapError SettingsError.ofBadAddress =
        .error (.invalidEndpoint address reason) ↔
      address = Text.strip s ∧ Misread (Text.strip s) reason := by
  refine ⟨Text.isStripped_strip s, ?_, fun _ _ _ _ => Address.unique, ?_⟩
  · intro host number
    constructor
    · rintro ⟨e, he, rfl, rfl⟩
      rcases usable_or_misread (Text.strip s) with ⟨host, digits, address, usable⟩ | ⟨reason, hbad⟩
      · obtain ⟨e', he', rfl, hnumber⟩ := parse_of_usable address usable
        obtain rfl := Except.ok.inj (he.symm.trans he')
        refine ⟨digits, address, usable.ascii, hnumber.symm, ?_, ?_⟩
        · exact hnumber ▸ usable.pos
        · exact hnumber ▸ usable.le
      · have hrefused := parse_of_misread hbad
        rw [he] at hrefused
        cases hrefused
    · rintro ⟨digits, address, hascii, rfl, hpos, hle⟩
      exact parse_of_usable address ⟨hascii, hpos, hle⟩
  · intro address reason
    constructor
    · intro hrefused
      rcases usable_or_misread (Text.strip s) with ⟨host, digits, haddress, usable⟩ | ⟨_, hbad⟩
      · obtain ⟨e, he, -⟩ := parse_of_usable haddress usable
        rw [he] at hrefused
        cases hrefused
      · have hsame := hrefused.symm.trans (parse_of_misread hbad)
        obtain ⟨rfl, rfl⟩ := SettingsError.invalidEndpoint.inj (Except.error.inj hsame)
        exact ⟨rfl, hbad⟩
    · rintro ⟨rfl, hbad⟩
      exact parse_of_misread hbad

/-- Colons inside the brackets, a zero in front of the number and blanks around it all. -/
theorem parse_grammar_bracketed :
    (∃ e, parse " [fe80::1]:07401\t" = .ok e ∧ e.host = "[fe80::1]" ∧ e.number = 7401) ∧
    Address "[fe80::1]:07401" "[fe80::1]" "07401" ∧
    ¬ Address "[fe80::1]:07401" "[fe80" ":1]:07401" := by
  have hstrip : Text.strip " [fe80::1]:07401\t" = "[fe80::1]:07401" := by cbv
  have hdigits : ∀ c ∈ "07401".toList, c.isDigit = true := List.all_eq_true.mp (by decide)
  have hdecimal : ∀ c ∈ "07401".toList, Text.isDecimalDigit c = true :=
    List.all_eq_true.mp (by decide)
  have haddress : Address "[fe80::1]:07401" "[fe80::1]" "07401" :=
    ⟨by decide, isHost_iff.mp (by decide), by decide, hdecimal⟩
  obtain ⟨-, hread, hunique, -⟩ := parse_grammar " [fe80::1]:07401\t"
  rw [hstrip] at hread hunique
  refine ⟨(hread _ _).mpr ⟨"07401", haddress, fun c hc => isDigit_iff.mp (hdigits c hc),
    by decide, by decide, by decide⟩, haddress, ?_⟩
  intro h
  exact absurd (hunique _ _ _ _ haddress h).1 (by decide)

end Endpoint

end ShardSweep
