import ForgejoMcp.Python.Str

/-!
# IP addresses

The texts that `ipaddress.ip_address` reads and the ones that `inet_aton` reads, and which addresses
are global.
-/

namespace Python

/-! ### Numbers -/

/-- The value of an ASCII digit, letters included. -/
def CodePoint.digit? (c : CodePoint) : Option ℕ :=
  if 0x30 ≤ c.val ∧ c.val ≤ 0x39 then some (c.val - 0x30)
  else if 0x61 ≤ c.val ∧ c.val ≤ 0x66 then some (c.val - 0x57)
  else if 0x41 ≤ c.val ∧ c.val ≤ 0x46 then some (c.val - 0x37)
  else none

/-- One or more ASCII digits of a base. -/
def Text.number (base : ℕ) (s : Text) : Option ℕ :=
  if s.isEmpty then none
  else s.foldlM (fun n c => do
    let d ← c.digit?
    if d < base then some (base * n + d) else none) 0

/-- The digits of a number in a base. -/
def ofDigits (base : ℕ) (digits : List ℕ) : ℕ := digits.foldl (fun n d => base * n + d) 0

/-! ### `ip_address` -/

/-- An address: `IPv4Address` or `IPv6Address`. -/
inductive IpAddress
  | v4 (n : ℕ)
  | v6 (n : ℕ)
  deriving DecidableEq

/-- `_BaseV4._parse_octet`. -/
def parseOctet (s : Text) : Option ℕ :=
  if 3 < s.length ∨ s ≠ text "0" ∧ s.head? = some 0x30 then none
  else (s.number 10).filter (· ≤ 255)

/-- `IPv4Address(s)`. -/
def ipv4Address (s : Text) : Option ℕ :=
  let octets := s.split 0x2E
  if octets.length ≠ 4 then none else (octets.mapM parseOctet).map (ofDigits 256)

/-- `_BaseV6._parse_hextet`. -/
def parseHextet (s : Text) : Option ℕ := if 4 < s.length then none else s.number 16

/-- `'%x' % n`. -/
def hex (n : ℕ) : Text := text (String.ofList (Nat.toDigits 16 n))

/-- The parts of an IPv6 address with the last two from a dotted quad. -/
def withIpv4Suffix (parts : List Text) : Option (List Text) :=
  let last := parts.getLastD []
  if (0x2E : CodePoint) ∈ last then do
    let n ← ipv4Address last
    return parts.dropLast ++ [hex (n / 0x10000), hex (n % 0x10000)]
  else some parts

/-- The parts on one side of a `::`; an empty part at the end stands for none. -/
def sideOfSkip (parts : List Text) (endpoint : Option Text) : Option (List Text) :=
  if endpoint = some [] then (if parts.length = 1 then some [] else none) else some parts

/-- `_BaseV6._ip_int_from_string`. -/
def ipv6Int (s : Text) : Option ℕ := do
  let parts := s.split 0x3A
  if parts.length < 3 then none
  let parts ← withIpv4Suffix parts
  if 9 < parts.length then none
  let skips := (List.range parts.length).filter fun i =>
    0 < i ∧ i + 1 < parts.length ∧ parts.getD i [] = []
  match skips with
  | [] =>
    if parts.length ≠ 8 then none
    else (parts.mapM parseHextet).map (ofDigits 0x10000)
  | [i] =>
    let hi ← sideOfSkip (parts.take i) parts.head?
    let lo ← sideOfSkip (parts.drop (i + 1)) parts.getLast?
    if 8 ≤ hi.length + lo.length then none
    else
      ((hi ++ List.replicate (8 - (hi.length + lo.length)) (text "0") ++ lo).mapM parseHextet).map
        (ofDigits 0x10000)
  | _ => none

/-- `IPv6Address(s)`, without the scope. -/
def ipv6Address (s : Text) : Option ℕ :=
  let (address, percent, scope) := s.partition 0x25
  if (0x2F : CodePoint) ∈ s ∨ percent ≠ [] ∧ (scope = [] ∨ (0x25 : CodePoint) ∈ scope) then none
  else ipv6Int address

/-- `ipaddress.ip_address(s)`, `none` when it raises. -/
def ipAddress (s : Text) : Option IpAddress :=
  ((ipv4Address s).map .v4).or ((ipv6Address s).map .v6)

/-! ### `is_global` -/

/-- A network: its address and the length of its prefix. -/
structure Network where
  address : ℕ
  prefixLength : ℕ

/-- `address in network`. -/
def Network.contains (bits : ℕ) (network : Network) (n : ℕ) : Bool :=
  n / 2 ^ (bits - network.prefixLength) == network.address / 2 ^ (bits - network.prefixLength)

/-- A dotted quad. -/
def quad (a b c d : ℕ) : ℕ := ofDigits 256 [a, b, c, d]

/-- The first hextets of an address. -/
def hextets (hs : List ℕ) : ℕ := ofDigits 0x10000 (hs ++ List.replicate (8 - hs.length) 0)

/-- `_IPv4Constants._private_networks`. -/
def privateNetworks4 : List Network :=
  [⟨quad 0 0 0 0, 8⟩, ⟨quad 10 0 0 0, 8⟩, ⟨quad 127 0 0 0, 8⟩, ⟨quad 169 254 0 0, 16⟩,
    ⟨quad 172 16 0 0, 12⟩, ⟨quad 192 0 0 0, 24⟩, ⟨quad 192 0 0 170, 31⟩, ⟨quad 192 0 2 0, 24⟩,
    ⟨quad 192 168 0 0, 16⟩, ⟨quad 198 18 0 0, 15⟩, ⟨quad 198 51 100 0, 24⟩,
    ⟨quad 203 0 113 0, 24⟩, ⟨quad 240 0 0 0, 4⟩, ⟨quad 255 255 255 255, 32⟩]

/-- `_IPv4Constants._private_networks_exceptions`. -/
def privateExceptions4 : List Network := [⟨quad 192 0 0 9, 32⟩, ⟨quad 192 0 0 10, 32⟩]

/-- `_IPv4Constants._public_network`, which is neither private nor global. -/
def sharedNetwork : Network := ⟨quad 100 64 0 0, 10⟩

/-- `_IPv6Constants._private_networks`, as of Python 3.12.4; later versions add `3fff::/20`. -/
def privateNetworks6 : List Network :=
  [⟨1, 128⟩, ⟨0, 128⟩, ⟨0xFFFF * 2 ^ 32, 96⟩, ⟨hextets [0x64, 0xFF9B, 1], 48⟩,
    ⟨hextets [0x100], 64⟩, ⟨hextets [0x2001], 23⟩, ⟨hextets [0x2001, 0xDB8], 32⟩,
    ⟨hextets [0x2002], 16⟩, ⟨hextets [0xFC00], 7⟩, ⟨hextets [0xFE80], 10⟩]

/-- `_IPv6Constants._private_networks_exceptions`. -/
def privateExceptions6 : List Network :=
  [⟨hextets [0x2001, 1] + 1, 128⟩, ⟨hextets [0x2001, 1] + 2, 128⟩, ⟨hextets [0x2001, 3], 32⟩,
    ⟨hextets [0x2001, 4, 0x112], 48⟩, ⟨hextets [0x2001, 0x20], 28⟩, ⟨hextets [0x2001, 0x30], 28⟩]

/-- `is_private`: in a private network, and in no exception. -/
def isPrivate (bits : ℕ) (networks exceptions : List Network) (n : ℕ) : Bool :=
  networks.any (·.contains bits n) && exceptions.all fun network => !network.contains bits n

/-- `IPv4Address.is_global`. -/
def isGlobal4 (n : ℕ) : Bool :=
  !sharedNetwork.contains 32 n && !isPrivate 32 privateNetworks4 privateExceptions4 n

/-- `address.is_global`; that of an IPv4-mapped address is that of the IPv4 address. -/
def IpAddress.isGlobal : IpAddress → Bool
  | v4 n => isGlobal4 n
  | v6 n =>
    if n / 2 ^ 32 = 0xFFFF then isGlobal4 (n % 2 ^ 32)
    else !isPrivate 128 privateNetworks6 privateExceptions6 n

/-! ### `inet_aton` -/

/-- A number as in C: `0x` before hexadecimal digits, `0` before octal ones. -/
def cNumber : Text → Option ℕ
  | 0x30 :: c :: s => if c = 0x78 ∨ c = 0x58 then Text.number 16 s else Text.number 8 (c :: s)
  | s => Text.number 10 s

/-- `inet_aton(s)`: up to four numbers, of which the last one fills what the others leave. -/
def inetAton (s : Text) : Option ℕ := do
  let parts ← (s.split 0x2E).mapM cNumber
  let last := parts.getLastD 0
  if 4 < parts.length ∨ parts.dropLast.any (255 < ·) ∨ 2 ^ (8 * (5 - parts.length)) ≤ last then none
  else some (ofDigits 256 parts.dropLast * 2 ^ (8 * (5 - parts.length)) + last)

/-! ### Dotted quads -/

variable {s : Text} {n : ℕ}

theorem cNumber_of_parseOctet (h : parseOctet s = some n) : cNumber s = some n ∧ n ≤ 255 := by
  rw [parseOctet] at h
  split at h
  · cases h
  rename_i hshort
  obtain ⟨hnumber, hle⟩ := Option.filter_eq_some_iff.1 h
  refine ⟨?_, of_decide_eq_true hle⟩
  match s with
  | [] => exact hnumber
  | [c] => rw [cNumber]; exact hnumber; rintro _ _ ⟨⟩
  | c :: d :: s =>
    have hc : c ≠ 0x30 := fun hc => hshort (.inr ⟨by rw [hc]; simp [text], by rw [hc]; rfl⟩)
    rw [cNumber]
    · exact hnumber
    · rintro d' s' heq
      exact hc (List.cons.inj heq).1

theorem mapM_cNumber_of_parseOctet {octets : List Text} {ds : List ℕ}
    (h : octets.mapM parseOctet = some ds) : octets.mapM cNumber = some ds ∧
      ds.length = octets.length ∧ ∀ d ∈ ds, d ≤ 255 := by
  induction octets generalizing ds with
  | nil =>
    cases h
    exact ⟨rfl, rfl, fun d hd => (List.not_mem_nil hd).elim⟩
  | cons octet octets ih =>
    rw [List.mapM_cons] at h
    obtain ⟨d, hd, h⟩ := Option.bind_eq_some_iff.1 h
    obtain ⟨ds, hds, h⟩ := Option.bind_eq_some_iff.1 h
    cases h
    obtain ⟨hnumber, hle⟩ := cNumber_of_parseOctet hd
    obtain ⟨hnumbers, hlength, hall⟩ := ih hds
    refine ⟨?_, congrArg (· + 1) hlength, List.forall_mem_cons.2 ⟨hle, hall⟩⟩
    rw [List.mapM_cons, hnumber, hnumbers]
    rfl

/-- `inet_aton` reads the dotted quads that `ip_address` reads as the same addresses. -/
theorem inetAton_of_ipv4Address (h : ipv4Address s = some n) : inetAton s = some n := by
  rw [ipv4Address] at h
  split at h
  · cases h
  rename_i hfour
  obtain ⟨ds, hds, rfl⟩ := Option.map_eq_some_iff.1 h
  obtain ⟨hnumbers, hlength, hall⟩ := mapM_cNumber_of_parseOctet hds
  rw [not_not.1 hfour] at hlength
  match ds with
  | [a, b, c, d] =>
    have hd := hall d (by simp)
    have hinit : [a, b, c].any (255 < ·) = false := by
      rw [List.any_eq_false]
      intro e he
      have hle := hall e (List.mem_append_left [d] he)
      simpa using hle
    rw [inetAton, hnumbers]
    refine (if_neg (not_or.2 ⟨by simp, not_or.2 ⟨?_, ?_⟩⟩)).trans ?_
    · rw [Bool.not_eq_true]
      exact hinit
    · exact Nat.not_le_of_lt (Nat.lt_succ_of_le hd)
    · simp [ofDigits, Nat.mul_comm]

end Python
