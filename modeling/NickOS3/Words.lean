import Mathlib.Data.Nat.Notation

/-!
# Machine words

Pointers and `size_t` values are numbers below `2 ^ 32`; arithmetic on them wraps around.
-/

namespace NickOS3

/-- 32-bit wrap-around of pointer and `size_t` arithmetic. -/
def u32 (x : Nat) : Nat := x % 4294967296

/-- The byte a value is stored as. -/
def u8 (n : Nat) : Nat := n % 256

/-- The word of 16 bits a value is stored as. -/
def u16 (n : Nat) : Nat := n % 65536

theorem u32_of_lt {x : Nat} (h : x < 4294967296) : u32 x = x := Nat.mod_eq_of_lt h

theorem u32_lt (x : Nat) : u32 x < 4294967296 := Nat.mod_lt _ (by decide)

/-- A word of 32 bits as a signed number. -/
def signed (word : Nat) : Int := if word < 2147483648 then word else word - 4294967296

theorem signed_of_lt {word : Nat} (h : word < 2147483648) : signed word = word := if_pos h

/-- Memory by bytes. -/
abbrev Bytes := Nat → UInt8

/-- The word of 32 bits at an address, its low byte first. -/
def Bytes.word (m : Bytes) (a : Nat) : Nat :=
  (m a).toNat + 256 * (m (a + 1)).toNat + 65536 * (m (a + 2)).toNat +
    16777216 * (m (a + 3)).toNat

/-- `(void*)-1` -/
def NO_ADDR : Nat := 4294967295

def PGSIZE : Nat := 4096

/-- No chain of 32-bit pointers is longer without running in a circle. -/
def loopBound : Nat := 4294967296

end NickOS3
