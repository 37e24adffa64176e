import Kubeast.Foundation.Text
import Mathlib.Data.List.Basic

/-! The address rule for store URLs (`services/pkg/storeurl/storeurl.go`). -/
namespace Kubeast.StoreUrl
open Text

section Addresses

/-- `netip.Addr`. -/
inductive Addr
  | v4 (a : BitVec 32)
  | v6 (a : BitVec 128) (zone : String)
deriving DecidableEq

/-- `netip.Prefix`: the first `bits` of the address. -/
structure Prefix where
  addr : Addr
  bits : ℕ

/-- The address without its last bits. -/
def upper {w : ℕ} (a : BitVec w) (bits : ℕ) : ℕ := a.toNat / 2 ^ (w - bits)

/-- An address is in prefixes of its own version; one with a zone is in none. -/
def Prefix.contains (p : Prefix) : Addr → Bool
  | .v4 a =>
    match p.addr with
    | .v4 n => upper a p.bits == upper n p.bits
    | .v6 _ _ => false
  | .v6 a zone =>
    match p.addr with
    | .v4 _ => false
    | .v6 n _ => zone == "" && upper a p.bits == upper n p.bits

def net4 (a : BitVec 32) (bits : ℕ) : Prefix := ⟨.v4 a, bits⟩

def net6 (a : BitVec 128) (bits : ℕ) : Prefix := ⟨.v6 a "", bits⟩

/-- `b[i]` of `As16`. -/
def byteOf (a : BitVec 128) (i : ℕ) : BitVec 8 := a.extractLsb' (128 - 8 * (i + 1)) 8

/-- Four bytes from the `start`th on, as `AddrFrom4` reads them. -/
def ipv4At (a : BitVec 128) (start : ℕ) : BitVec 32 := a.extractLsb' (128 - 8 * (start + 4)) 32

/-- The address without its zone. -/
def Addr.plain : Addr → Addr
  | .v4 a => .v4 a
  | .v6 a _ => .v6 a ""

/-- `Unmap`. -/
def unmap : Addr → Addr
  | .v4 a => .v4 a
  | .v6 a zone => if upper a 96 = 0xffff then .v4 (ipv4At a 12) else .v6 a zone

end Addresses

section Networks

/-- 169.254.0.0/16, fe80::/10, fd00:ec2::254, fd20:ce::254, 100.100.100.200 and 168.63.129.16. -/
def metadataNetworks : List Prefix :=
  [net4 0xa9fe0000 16, net6 0xfe800000000000000000000000000000 10,
    net6 0xfd000ec2000000000000000000000254 128, net6 0xfd2000ce000000000000000000000254 128,
    net4 0x646464c8 32, net4 0xa83f8110 32]

/-- 127.0.0.0/8, ::1, 0.0.0.0/8 and ::. -/
def ownHostNetworks : List Prefix := [net4 0x7f000000 8, net6 1 128, net4 0 8, net6 0 128]

/-- 224.0.0.0/4, ff00::/8, 255.255.255.255 and 100::/64. -/
def noAnswerNetworks : List Prefix :=
  [net4 0xe0000000 4, net6 0xff000000000000000000000000000000 8, net4 0xffffffff 32,
    net6 0x01000000000000000000000000000000 64]

/-- 2001::/32. -/
def teredo : Prefix := net6 0x20010000000000000000000000000000 32

/-- 2002::/16. -/
def sixToFour : Prefix := net6 0x20020000000000000000000000000000 16

/-- 64:ff9b::/96, 64:ff9b:1::/48, ::ffff:0:0:0/96 and ::/96. -/
def ipv4InLowBits : List Prefix :=
  [net6 0x0064ff9b000000000000000000000000 96, net6 0x0064ff9b000100000000000000000000 48,
    net6 0x0000000000000000ffff000000000000 96, net6 0 96]

/-- ISATAP's interface part is `0:5efe`, with two bits free. -/
def isatap (a : BitVec 128) : Bool :=
  byteOf a 8 &&& ~~~ 0x03 == 0 && byteOf a 9 == 0 && byteOf a 10 == 0x5e && byteOf a 11 == 0xfe

def inAny (a : Addr) (networks : List Prefix) : Bool := networks.any fun n => n.contains a

def reached (addr : Addr) : List Addr :=
  match unmap addr with
  | .v4 a => [.v4 a]
  | .v6 a _ =>
    if teredo.contains (.v6 a "") then [.v6 a "", .v4 (ipv4At a 4), .v4 (~~~ ipv4At a 12)]
    else if sixToFour.contains (.v6 a "") then [.v6 a "", .v4 (ipv4At a 2)]
    else if isatap a || inAny (.v6 a "") ipv4InLowBits then [.v6 a "", .v4 (ipv4At a 12)]
    else [.v6 a ""]

/-- The function `in`. -/
def isIn (a : Addr) (networks : List Prefix) : Bool := (reached a).any fun r => inAny r networks

end Networks

section Hosts

def allowedHostsEnv : String := "CLUSTER_STORE_ALLOWED_HOSTS"

def allowedHostsValue : String := "features.clusterStoreAllowedHosts"

/-- Why a request is refused. -/
inductive Refusal
  | metadata
  | ownHost
  | noAnswer
  | notOnList
  | parse (err : String)
  | unreadable (address err : String)
deriving DecidableEq

def Refusal.text (tables : CharTables) : Refusal → String
  | .metadata => "cloud metadata and link-local addresses are not allowed"
  | .ownHost => "this address is the service's own machine; to use it, add the host to " ++ allowedHostsValue
  | .noAnswer => "nothing answers on this address; to use it, add the host to " ++ allowedHostsValue
  | .notOnList => "this host is not in " ++ allowedHostsValue
  | .parse err => err
  | .unreadable address err => "cannot read the address " ++ quote tables address ++ ": " ++ err

def metadataHosts : List String := ["metadata.google.internal", "metadata.goog", "metadata", "instance-data"]

def hasSuffix (s suf : String) : Bool := suf.toList.isSuffixOf s.toList

def trimSuffix (s suf : String) : String :=
  if hasSuffix s suf then String.ofList (s.toList.take (s.toList.length - suf.toList.length)) else s

/-- `allowedHosts` of what stands in the environment. -/
def allowedHosts (tables : CharTables) (env : String) : List String :=
  ((env.toList.splitOn ',').map fun h => toLower tables (trimSpace (String.ofList h))).filter (· ≠ "")

def listed (host : String) (allowed : List String) : Bool :=
  allowed.any fun a => host == a ||
    (hasPrefix a "." && (host == String.ofList (a.toList.drop 1) || hasSuffix host a))

def normalize (tables : CharTables) (host : String) : String := toLower tables (trimSuffix host ".")

/-- What the library reads in a text, or its error: the host of a URL, an address, an address with a port. -/
structure Reader where
  hostname : String → Except String String
  parseAddr : String → Option Addr
  parseAddrPort : String → Except String (Addr × ℕ)

/-- A name of the service's own machine. -/
def localName (host : String) : Bool := host == "localhost" || hasSuffix host ".localhost"

variable (tables : CharTables) (reader : Reader)

/-- The host of a URL as `CheckURL` compares it. -/
def hostOf (raw : String) : Except String String := (reader.hostname (trimSpace raw)).map (normalize tables)

/-- An address in a host that is one. -/
def addrIn (addr : Option Addr) (networks : List Prefix) : Bool := addr.any fun a => isIn a networks

/-- `CheckURL`, with the allow list read at the call; none where the store may be called. -/
def checkURL (allowed : List String) (raw : String) : Option Refusal :=
  match hostOf tables reader raw with
  | .error err => some (.parse err)
  | .ok host =>
    let addr := reader.parseAddr host
    if metadataHosts.contains host || addrIn addr metadataNetworks then some .metadata
    else if listed host allowed then none
    else if allowed.length > 0 then some .notOnList
    else if localName host || addrIn addr ownHostNetworks then some .ownHost
    else if addrIn addr noAnswerNetworks then some .noAnswer
    else none

/-- `checkDialled`. -/
def checkDialled (address : String) (hostListed : Bool) : Option Refusal :=
  match reader.parseAddrPort address with
  | .error err => some (.unreadable address err)
  | .ok (a, _) =>
    if isIn a metadataNetworks then some .metadata
    else if hostListed then none
    else if isIn a ownHostNetworks then some .ownHost
    else if isIn a noAnswerNetworks then some .noAnswer
    else none

end Hosts

section Forms

/-- The forms of an IPv6 address that carry IPv4 addresses. -/
inductive Form
  | mapped
  | teredo
  | sixToFour
  | nat64
  | localNat64
  | translated
  | compatible
  | isatap
deriving DecidableEq

/-- Each form by its own definition; ISATAP's stands behind any prefix. -/
def Form.has (a : BitVec 128) : Form → Prop
  | mapped => upper a 96 = 0xffff
  | teredo => upper a 32 = 0x20010000
  | sixToFour => upper a 16 = 0x2002
  | nat64 => upper a 96 = 0x0064ff9b0000000000000000
  | localNat64 => upper a 48 = 0x0064ff9b0001
  | translated => upper a 96 = 0xffff0000
  | compatible => upper a 96 = 0
  | isatap => ∃ free < 4, upper a 96 % 2 ^ 32 = free * 2 ^ 24 + 0x5efe

/-- Teredo carries its server and, inverted, its client. -/
def Form.carried (a : BitVec 128) : Form → List (BitVec 32)
  | teredo => [ipv4At a 4, ~~~ ipv4At a 12]
  | sixToFour => [ipv4At a 2]
  | _ => [ipv4At a 12]

/-- An address that a form of `a` carries. -/
def Carries (a : BitVec 128) (x : BitVec 32) : Prop := ∃ f, Form.has a f ∧ x ∈ f.carried a

/-- An ISATAP interface part behind a Teredo or a 6to4 prefix. -/
def Behind (a : BitVec 128) : Prop := Form.has a .isatap ∧ (Form.has a .teredo ∨ Form.has a .sixToFour)

/-- The same without an ISATAP part that a prefix hides. -/
def Shows (a : BitVec 128) (x : BitVec 32) : Prop :=
  ∃ f, Form.has a f ∧ ¬(f = .isatap ∧ Behind a) ∧ x ∈ f.carried a

/-- The address, or one that it carries, is in the networks. -/
def Within (carries : BitVec 128 → BitVec 32 → Prop) (networks : List Prefix) : Addr → Prop
  | .v4 x => inAny (.v4 x) networks = true
  | .v6 a _ => inAny (.v6 a "") networks = true ∨ ∃ x, carries a x ∧ inAny (.v4 x) networks = true

/-- What the hidden part carries is in the networks. -/
def Hidden (networks : List Prefix) : Addr → Prop
  | .v4 _ => False
  | .v6 a _ => Behind a ∧ inAny (.v4 (ipv4At a 12)) networks = true

end Forms
end Kubeast.StoreUrl
