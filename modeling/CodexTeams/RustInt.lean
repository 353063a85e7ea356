import Mathlib.Data.Nat.Notation

/-! The bounds of Rust's unsigned integers, as numbers, and sums that stop at one. -/
namespace RustInt

def u32Max : ℕ := 4294967295

def u64Max : ℕ := 18446744073709551615

/-- On a platform with 64 bits. -/
def usizeMax : ℕ := 18446744073709551615

def saturatingAdd (a b : ℕ) : ℕ := min (a + b) usizeMax

end RustInt
