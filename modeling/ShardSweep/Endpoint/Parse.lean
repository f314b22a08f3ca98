import ShardSweep.Endpoint.Basic
import ShardSweep.Text.Blank
import ShardSweep.Text.DecimalDigit
import ShardSweep.Text.Pieces

/-!
# Reading endpoints

`Endpoint.parse` reads an address with blanks around it.  The number is all that
follows the last colon, because no number holds one and a host may hold several.
Decimal digits of every script have the shape of a number, but only ASCII digits
have a value, so a fault of the shape and a fault of the value are told apart.

`Endpoint.parseList` reads a list with commas, skipping items that are blank;
the first item that is no endpoint decides the outcome.

* `splitLastColon_eq_some`: both parts with the colon between them give the text back.
-/

namespace ShardSweep

/-- What is wrong with an address. -/
inductive AddressFault where
  /-- It is not a host, a colon and one to five decimal digits. -/
  | shape
  /-- A digit of the number is not an ASCII digit. -/
  | foreignDigit
  /-- The number does not fit in sixteen bits. -/
  | tooLarge
  /-- The number is zero. -/
  | zero
  deriving DecidableEq, Repr

/-- What to tell the person who wrote the address. -/
def AddressFault.message : AddressFault → String
  | .shape => "Expected format: host:port"
  | .foreignDigit => "Bad port: invalid digit found in string"
  | .tooLarge => "Bad port: number too large to fit in target type"
  | .zero => "Port must not be 0"

/-- An address that is no endpoint, without the blanks around it. -/
structure BadAddress where
  address : String
  fault : AddressFault
  deriving DecidableEq, Repr

/-- The part before the last colon and the part after it. -/
def splitLastColon (cs : List Char) : Option (List Char × List Char) :=
  match cs.reverse.dropWhile (· != ':') with
  | [] => none
  | _ :: host => some (host.reverse, (cs.reverse.takeWhile (· != ':')).reverse)

/-- One to five decimal digits of any scripts. -/
def isNumberShape (cs : List Char) : Bool :=
  1 ≤ cs.length && cs.length ≤ 5 && cs.all Text.isDecimalDigit

/-- The value of a row of ASCII digits. -/
def decimalValue (cs : List Char) : Nat :=
  cs.foldl (fun n c => 10 * n + (c.toNat - '0'.toNat)) 0

/-- A number from its digits: a foreign digit is found before the size of the value is. -/
def readNumber (cs : List Char) : Except AddressFault Nat :=
  if cs.all Char.isDigit then
    if decimalValue cs ≤ maxListenNumber then .ok (decimalValue cs) else .error .tooLarge
  else .error .foreignDigit

namespace Endpoint

/-- Read an address that has no blanks around it. -/
def ofChars (cs : List Char) : Except AddressFault Endpoint :=
  match splitLastColon cs with
  | none => .error .shape
  | some (host, digits) =>
    if hhost : isHost host = true then
      if isNumberShape digits then
        match readNumber digits with
        | .error fault => .error fault
        | .ok number =>
          if hnumber : 0 < number ∧ number ≤ maxListenNumber then
            .ok ⟨String.ofList host, number, by simpa using hhost, hnumber.1, hnumber.2⟩
          else .error .zero
      else .error .shape
    else .error .shape

/-- Read an address, with or without blanks around it. -/
def parse (s : String) : Except BadAddress Endpoint :=
  (ofChars (Text.strip s).toList).mapError fun fault => ⟨Text.strip s, fault⟩

/-- The items of a list with commas that are not blank. -/
def listItems (s : String) : List String :=
  ((Text.split ',' s).map Text.strip).filter (· ≠ "")

/-- Read endpoints separated by commas; the first bad item is the outcome. -/
def parseList (s : String) : Except BadAddress (List Endpoint) :=
  (listItems s).mapM parse

end Endpoint

/-- Both parts with the colon between them give the text back, and the second holds none. -/
theorem splitLastColon_eq_some {cs host digits : List Char}
    (h : splitLastColon cs = some (host, digits)) :
    cs = host ++ ':' :: digits ∧ ':' ∉ digits := by
  unfold splitLastColon at h
  split at h
  · cases h
  · rename_i c hd hdrop
    simp only [Option.some.injEq, Prod.mk.injEq] at h
    obtain ⟨rfl, rfl⟩ := h
    have hc : c = ':' := by
      have := List.head?_dropWhile_not (fun x => x != ':') cs.reverse
      rw [hdrop] at this
      simpa using this
    refine ⟨?_, ?_⟩
    · have := List.takeWhile_append_dropWhile (p := fun x => x != ':') (l := cs.reverse)
      rw [hdrop] at this
      have hrev := congrArg List.reverse this
      simp only [List.reverse_append, List.reverse_cons, List.reverse_reverse,
        List.append_assoc, List.singleton_append] at hrev
      subst hc
      exact hrev.symm
    · intro hmem
      have hall := List.all_takeWhile (p := fun x => x != ':') (l := cs.reverse)
      rw [List.all_eq_true] at hall
      simpa using hall ':' (List.mem_reverse.1 hmem)

end ShardSweep
