/-!
# Endpoints

An endpoint is the network address of one replica of a shard: a host, and the
number that the replica listens on there.  The host is a name, an IPv4 address, or
an IPv6 address in brackets; the number has sixteen bits and is not zero.  Both
conditions are part of the type.

* `isHostName`, `isBracketed`, `isHost`: the shapes of a host;
* `text`: the host, a colon, and the number without leading zeros;
* `not_mem_of_isHostName`: a host without brackets holds no colon.
-/

namespace ShardSweep

/-- A letter or digit of ASCII. -/
def isNameStart (c : Char) : Bool :=
  c.isAlphanum

/-- A character inside a host name. -/
def isNameChar (c : Char) : Bool :=
  c.isAlphanum || c == '.' || c == '-'

/-- A character inside an address in brackets. -/
def isAddressChar (c : Char) : Bool :=
  c.isDigit || ('A' ≤ c && c ≤ 'F') || ('a' ≤ c && c ≤ 'f') || c == ':' || c == '.'

/-- A host name or an IPv4 address. -/
def isHostName : List Char → Bool
  | [] => false
  | c :: cs => isNameStart c && cs.all isNameChar

/-- The inside of brackets and the closing one: at least one address character. -/
def isBracketTail : List Char → Bool
  | [] => false
  | [_] => false
  | [c, d] => isAddressChar c && d == ']'
  | c :: cs => isAddressChar c && isBracketTail cs

/-- An address in brackets. -/
def isBracketed : List Char → Bool
  | '[' :: cs => isBracketTail cs
  | _ => false

/-- The hosts an endpoint can have. -/
def isHost (cs : List Char) : Bool :=
  isBracketed cs || isHostName cs

/-- The largest number of sixteen bits. -/
def maxListenNumber : Nat := 65535

/-- The network address of one replica. -/
structure Endpoint where
  host : String
  /-- What the replica listens on. -/
  number : Nat
  isHost_host : isHost host.toList = true
  number_pos : 0 < number
  number_le : number ≤ maxListenNumber
  deriving DecidableEq

namespace Endpoint

/-- The written form: host, colon, number. -/
def text (e : Endpoint) : String :=
  e.host ++ ":" ++ toString e.number

/-- Hosts come in the order of their characters, equal hosts in the order of their numbers. -/
def le (a b : Endpoint) : Bool :=
  a.host < b.host || (a.host == b.host && a.number ≤ b.number)

/-- The different endpoints of a list. -/
def distinct (es : List Endpoint) : List Endpoint :=
  es.eraseDups

end Endpoint

/-- A host without brackets holds no colon. -/
theorem not_mem_of_isHostName {cs : List Char} (h : isHostName cs = true) : ':' ∉ cs := by
  cases cs with
  | nil => simp
  | cons c cs =>
    simp only [isHostName, Bool.and_eq_true, List.all_eq_true] at h
    simp only [List.mem_cons, not_or]
    refine ⟨?_, fun hc => ?_⟩
    · intro heq
      subst heq
      exact absurd h.1 (by decide)
    · exact absurd (h.2 ':' hc) (by decide)

end ShardSweep
