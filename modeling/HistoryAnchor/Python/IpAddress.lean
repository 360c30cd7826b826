import HistoryAnchor.Python.Formats

/-! # IP addresses

`ipaddress.ip_address` and `ipaddress.ip_network` with `strict=False`, on text. An
IPv6 address can end in an IPv4 one, may leave out one run of zeros and can carry a
scope; it is written with its longest run of zeros left out.
-/

namespace Python

namespace Ip

inductive IpAddress
  | v4 (ip : BitVec 32)
  | v6 (ip : BitVec 128) (scopeId : Option PyStr)
  deriving DecidableEq

inductive IpNetwork
  | v4 (networkAddress netmask : BitVec 32)
  | v6 (networkAddress netmask : BitVec 128)
  deriving DecidableEq

def ofDigits (base : ℕ) (digits : List ℕ) : ℕ := digits.foldl (fun n d => base * n + d) 0

/-- Up to three decimal digits without a leading zero, at most 255. -/
def parseOctet (s : PyStr) : Option ℕ :=
  let n := ofDigits 10 (s.map fun c => c.val - 48)
  if s ≠ [] ∧ s.all isDigit ∧ s.length ≤ 3 ∧ (s = [0x30] ∨ s.head? ≠ some 0x30) ∧ n ≤ 255 then some n
  else none

def ipv4 (s : PyStr) : Option (BitVec 32) :=
  match s.splitOn 0x2E with
  | [a, b, c, d] => do
    let octets ← [a, b, c, d].mapM parseOctet
    return BitVec.ofNat 32 (ofDigits 256 octets)
  | _ => none

def parseHextet (s : PyStr) : Option ℕ := do
  let digits ← s.mapM digitValue
  if digits ≠ [] ∧ digits.length ≤ 4 then return ofDigits 16 digits else none

/-- `'%x' % n`. -/
def hexText (n : ℕ) : PyStr := (Nat.toDigits 16 n).map fun c => Fin.ofNat _ c.toNat

/-- The parts between colons, with an IPv4 ending rewritten as two hextets. -/
def colonParts (s : PyStr) : Option (List PyStr) := do
  let parts := s.splitOn 0x3A
  if parts.length < 3 then none
  let final := parts.getLastD []
  if 0x2E ∈ final then
    let n ← ipv4 final
    return parts.dropLast ++ [hexText (n.toNat / 0x10000), hexText (n.toNat % 0x10000)]
  else return parts

/-- The parts before or after `::`; the end of the text may be empty only next to it. -/
def besideSkip (parts : List PyStr) (atEnd : PyStr) : Option (List PyStr) :=
  if atEnd = [] then if parts.length = 1 then some [] else none else some parts

def ipv6Number (s : PyStr) : Option (BitVec 128) := do
  let parts ← colonParts s
  if 9 < parts.length then none
  let inner := (List.range (parts.length - 1)).filter fun i => 1 ≤ i ∧ parts.getD i [] = []
  match inner with
  | [] =>
    if parts.length = 8 then
      let hextets ← parts.mapM parseHextet
      return BitVec.ofNat 128 (ofDigits 0x10000 hextets)
    else none
  | [skip] =>
    let hi ← besideSkip (parts.take skip) (parts.headD [])
    let lo ← besideSkip (parts.drop (skip + 1)) (parts.getLastD [])
    if 7 < hi.length + lo.length then none
    let hi' ← hi.mapM parseHextet
    let lo' ← lo.mapM parseHextet
    let zeros := List.replicate (8 - (hi.length + lo.length)) 0
    return BitVec.ofNat 128 (ofDigits 0x10000 (hi' ++ zeros ++ lo'))
  | _ => none

def ipv6 (s : PyStr) : Option (BitVec 128 × Option PyStr) := do
  if 0x2F ∈ s then none
  let ip ← ipv6Number (s.takeWhile (· ≠ 0x25))
  match s.dropWhile (· ≠ 0x25) with
  | [] => return (ip, none)
  | _ :: scopeId => if scopeId = [] ∨ 0x25 ∈ scopeId then none else return (ip, some scopeId)

/-- `ipaddress.ip_address`; `none` is its `ValueError`. -/
def ipAddress (s : PyStr) : Option IpAddress :=
  match ipv4 s with
  | some ip => some (.v4 ip)
  | none => (ipv6 s).map fun (ip, scopeId) => .v6 ip scopeId

/-- The longest run of zeros so far, where it starts, and the run that is going on. -/
structure Runs where
  bestStart : ℕ
  bestLength : ℕ
  start : ℕ
  length : ℕ

def Runs.next (runs : Runs) (index hextet : ℕ) : Runs :=
  if hextet = 0 then
    let start := if runs.length = 0 then index else runs.start
    let length := runs.length + 1
    if runs.bestLength < length then ⟨start, length, start, length⟩
    else ⟨runs.bestStart, runs.bestLength, start, length⟩
  else ⟨runs.bestStart, runs.bestLength, 0, 0⟩

def compressHextets (hextets : List ℕ) : List PyStr :=
  let runs := hextets.zipIdx.foldl (fun (runs : Runs) h => runs.next h.2 h.1) ⟨0, 0, 0, 0⟩
  let texts := hextets.map hexText
  if 1 < runs.bestLength then
    let final := runs.bestStart + runs.bestLength
    (if runs.bestStart = 0 then [[]] else []) ++ texts.take runs.bestStart ++ [[]] ++
      texts.drop final ++ (if final = hextets.length then [[]] else [])
  else texts

/-- `str(address)`. -/
def IpAddress.str : IpAddress → PyStr
  | v4 ip =>
    let octets := [24, 16, 8, 0].map fun shift => decimal (ip.toNat / 2 ^ shift % 256)
    List.intercalate [0x2E] octets
  | v6 ip scopeId =>
    let hextets := [112, 96, 80, 64, 48, 32, 16, 0].map fun shift => ip.toNat / 2 ^ shift % 0x10000
    List.intercalate [0x3A] (compressHextets hextets) ++
      (scopeId.map fun scopeId => 0x25 :: scopeId).getD []

def maskOf (w prefixlen : ℕ) : BitVec w := BitVec.allOnes w <<< (w - prefixlen)

def prefixFromPrefixString (w : ℕ) (s : PyStr) : Option ℕ :=
  let n := ofDigits 10 (s.map fun c => c.val - 48)
  if s ≠ [] ∧ s.all isDigit ∧ n ≤ w then some n else none

def prefixFromIpString (s : PyStr) : Option ℕ := do
  let ip ← ipv4 s
  match (List.range 33).find? (maskOf 32 · = ip) with
  | some n => return n
  | none => (List.range 33).find? (maskOf 32 · = ~~~ip)

def ipv4Network (address : PyStr) (mask : Option PyStr) : Option IpNetwork := do
  let ip ← ipv4 address
  let prefixlen ← match mask with
    | none => some 32
    | some mask =>
      match prefixFromPrefixString 32 mask with
      | some n => some n
      | none => prefixFromIpString mask
  return .v4 (ip &&& maskOf 32 prefixlen) (maskOf 32 prefixlen)

def ipv6Network (address : PyStr) (mask : Option PyStr) : Option IpNetwork := do
  let (ip, _) ← ipv6 address
  let prefixlen ← match mask with
    | none => some 128
    | some mask => prefixFromPrefixString 128 mask
  return .v6 (ip &&& maskOf 128 prefixlen) (maskOf 128 prefixlen)

/-- `ipaddress.ip_network(cidr, strict=False)`; `none` is its `ValueError`. -/
def ipNetwork (cidr : PyStr) : Option IpNetwork := do
  let (address, mask) ← match cidr.splitOn 0x2F with
    | [address] => some (address, none)
    | [address, mask] => some (address, some mask)
    | _ => none
  match ipv4Network address mask with
  | some network => return network
  | none => ipv6Network address mask

/-- `address in network`. -/
def IpNetwork.contains : IpNetwork → IpAddress → Bool
  | v4 networkAddress netmask, .v4 ip => ip &&& netmask = networkAddress
  | v6 networkAddress netmask, .v6 ip _ => ip &&& netmask = networkAddress
  | _, _ => false

example : (ipAddress "2001:DB8::0:1%eth0").map IpAddress.str = some "2001:db8::1%eth0" ∧
    (ipAddress "::ffff:1.2.3.4").map IpAddress.str = some "::ffff:102:304" ∧
    ipAddress "01.2.3.4" = none ∧
    (ipNetwork "10.1.2.3/255.0.0.0").map (·.contains (.v4 0x0A000001)) = some true := by
  decide +kernel

end Ip

end Python
