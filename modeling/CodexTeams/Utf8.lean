import CodexTeams.RustStr
import CodexTeams.SizedLists

/-! Texts with lengths and positions in bytes of UTF-8. -/
namespace Utf8

open RustStr SizedLists

abbrev utf8 : Char → ℕ := Char.utf8Size

def byteLen (text : Str) : ℕ := total utf8 text

theorem utf8_pos (c : Char) : 0 < utf8 c := Char.utf8Size_pos c

theorem byteLen_cons (c : Char) (x : Str) : byteLen (c :: x) = c.utf8Size + byteLen x := rfl

theorem byteLen_append (x y : Str) : byteLen (x ++ y) = byteLen x + byteLen y := total_append x y

theorem eq_nil_of_byteLen (h : byteLen x = 0) : x = [] := eq_nil_of_total utf8_pos h

theorem before_byteLen (x y : Str) : before utf8 (byteLen x) (x ++ y) = x :=
  before_total utf8_pos x y

theorem behind_byteLen (x y : Str) : behind utf8 (byteLen x) (x ++ y) = y :=
  behind_total utf8_pos x y

end Utf8
