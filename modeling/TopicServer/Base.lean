import TopicServer.Lib.Mem
import TopicServer.Lib.Text
/-!
# Base — what the programs run on

Byte strings, descriptors, socket addresses, and the two things the machine decides for the programs: what a freshly
allocated block holds, and which double an arithmetic expression evaluates to.
-/
namespace Ts

open Text (ascii)

abbrev Bytes := List UInt8

/-- A `std::string` made of a C string: it holds no `0`. -/
abbrev CText := { s : Bytes // 0 ∉ s }

abbrev Fd := Int

def slash : UInt8 := 47
def blank : UInt8 := 32
def newline : UInt8 := 10

/-- `struct sockaddr_in`, its fields in network byte order. -/
structure SockaddrIn where
  sin_addr : UInt8 × UInt8 × UInt8 × UInt8
  sin_port : UInt8 × UInt8
deriving DecidableEq

def SockaddrIn.port (a : SockaddrIn) : Nat := Text.be [a.sin_port.1, a.sin_port.2]

/-- `inet_ntop(AF_INET, ..)`. -/
def inetNtop (a : SockaddrIn) : Bytes :=
  Text.dec a.sin_addr.1.toNat ++ 46 :: (Text.dec a.sin_addr.2.1.toNat ++ 46 ::
    (Text.dec a.sin_addr.2.2.1.toNat ++ 46 :: Text.dec a.sin_addr.2.2.2.toNat))

/-- The machine: the bytes of a fresh block, the double `elem * 1.0 / 100`, the double `number * 1.0 / pow(10, power)`. -/
structure Host where
  junk : Nat → UInt8
  div100 : Nat → ℚ
  divPow : Nat → Nat → ℚ

/-- **The doubles are within a relative error of `2 ^ -51` of the fractions they stand for.** -/
structure Host.Accurate (host : Host) : Prop where
  div100 : ∀ n, n < 2 ^ 16 → |host.div100 n - n / 100| ≤ (n / 100) / 2 ^ 51
  divPow : ∀ n p, n < 2 ^ 32 → p < 256 → |host.divPow n p - n / 10 ^ p| ≤ (n / 10 ^ p) / 2 ^ 51

def Host.malloc (host : Host) (n : Nat) : Bytes := Mem.fresh host.junk n

@[simp] theorem Host.length_malloc (host : Host) (n : Nat) : (host.malloc n).length = n := Mem.length_fresh _ _

/-- The machine whose doubles are the fractions themselves, on memory that comes zeroed. -/
def exactHost : Host := ⟨fun _ => 0, fun n => n / 100, fun n p => n / 10 ^ p⟩

theorem exactHost_accurate : exactHost.Accurate :=
  ⟨fun n _ => by simp only [exactHost, sub_self, abs_zero]; positivity,
    fun n p _ _ => by simp only [exactHost, sub_self, abs_zero]; positivity⟩

end Ts
