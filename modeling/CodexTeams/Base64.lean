import CodexTeams.ListChunks

/-! Base64 with the standard alphabet and padding. Decoding takes only what encoding gives. -/
namespace Base64

open ListChunks Option

def alphabet : List Char :=
  "ABCDEFGHIJKLMNOPQRSTUVWXYZabcdefghijklmnopqrstuvwxyz0123456789+/".toList

def digit (n : ℕ) : Char := alphabet.getD n '='

def value (c : Char) : Option ℕ := alphabet.findIdx? (· == c)

def encode : List UInt8 → List Char
  | [] => []
  | [a] => [digit (a.toNat / 4), digit (a.toNat % 4 * 16), '=', '=']
  | [a, b] => [digit (a.toNat / 4), digit (a.toNat % 4 * 16 + b.toNat / 16),
      digit (b.toNat % 16 * 4), '=']
  | a :: b :: c :: rest =>
    digit (a.toNat / 4) :: digit (a.toNat % 4 * 16 + b.toNat / 16) ::
      digit (b.toNat % 16 * 4 + c.toNat / 64) :: digit (c.toNat % 64) :: encode rest

def decodeOne (p q : ℕ) : Option (List UInt8) :=
  if q % 16 = 0 then some [UInt8.ofNat (p * 4 + q / 16)] else none

def decodeTwo (p q r : ℕ) : Option (List UInt8) :=
  if r % 4 = 0 then
    some [UInt8.ofNat (p * 4 + q / 16), UInt8.ofNat (q % 16 * 16 + r / 4)]
  else none

def decodeThree (p q r s : ℕ) : List UInt8 :=
  [UInt8.ofNat (p * 4 + q / 16), UInt8.ofNat (q % 16 * 16 + r / 4), UInt8.ofNat (r % 4 * 64 + s)]

def decode : List Char → Option (List UInt8)
  | [] => some []
  | w :: x :: y :: z :: rest =>
    if rest = [] ∧ z = '=' then
      if y = '=' then do decodeOne (← value w) (← value x)
      else do decodeTwo (← value w) (← value x) (← value y)
    else do
      return decodeThree (← value w) (← value x) (← value y) (← value z) ++ (← decode rest)
  | _ => none

def decodedLenEstimate (n : ℕ) : ℕ := divCeil n 4 * 3

theorem value_digit : ∀ {n}, n < 64 → value (digit n) = some n := by
  decide +kernel

theorem digit_ne_pad : ∀ {n}, n < 64 → digit n ≠ '=' := by
  decide +kernel

theorem length_encode (bs : List UInt8) : (encode bs).length = divCeil bs.length 3 * 4 := by
  fun_induction encode bs with
  | case1 => rfl
  | case2 a | case3 a b => simp [divCeil]
  | case4 a b c r ih =>
    simp only [List.length_cons, ih, divCeil]
    omega

theorem encode_ne_nil (h : bs ≠ []) : encode bs ≠ [] := by
  fun_cases encode bs <;> simp at h ⊢

theorem decode_encode (bytes : List UInt8) : decode (encode bytes) = some bytes := by
  fun_induction encode bytes with
  | case1 => rfl
  | case2 a =>
    have ha := a.toNat_lt
    have hp : a.toNat / 4 < 64 := by omega
    have hq : a.toNat % 4 * 16 < 64 := by omega
    have hbc : a.toNat / 4 * 4 + a.toNat % 4 * 16 / 16 = a.toNat := by omega
    simp only [decode, and_self, if_true, value_digit hp, value_digit hq, decodeOne, hbc,
      Nat.mul_mod_left, UInt8.ofNat_toNat, bind_eq_bind, bind_some]
  | case3 a b =>
    have ha := a.toNat_lt
    have hb := b.toNat_lt
    have hp : a.toNat / 4 < 64 := by omega
    have hq : a.toNat % 4 * 16 + b.toNat / 16 < 64 := by omega
    have hr : b.toNat % 16 * 4 < 64 := by omega
    have hf : a.toNat / 4 * 4 + (a.toNat % 4 * 16 + b.toNat / 16) / 16 = a.toNat := by omega
    have hsc : (a.toNat % 4 * 16 + b.toNat / 16) % 16 * 16 + b.toNat % 16 * 4 / 4 =
        b.toNat := by omega
    simp only [decode, and_self, if_true, if_neg (digit_ne_pad hr), value_digit hp,
      value_digit hq, value_digit hr, decodeTwo, hf, hsc, Nat.mul_mod_left,
      UInt8.ofNat_toNat, bind_eq_bind, bind_some]
  | case4 a b c r ih =>
    have ha := a.toNat_lt
    have hb := b.toNat_lt
    have hc := c.toNat_lt
    have hp : a.toNat / 4 < 64 := by omega
    have hq : a.toNat % 4 * 16 + b.toNat / 16 < 64 := by omega
    have hr : b.toNat % 16 * 4 + c.toNat / 64 < 64 := by omega
    have hs : c.toNat % 64 < 64 := by omega
    have hf : a.toNat / 4 * 4 + (a.toNat % 4 * 16 + b.toNat / 16) / 16 = a.toNat := by omega
    have hsc : (a.toNat % 4 * 16 + b.toNat / 16) % 16 * 16 +
        (b.toNat % 16 * 4 + c.toNat / 64) / 4 = b.toNat := by omega
    have ht : (b.toNat % 16 * 4 + c.toNat / 64) % 4 * 64 + c.toNat % 64 = c.toNat := by omega
    have hpd : ¬ (encode r = [] ∧ digit (c.toNat % 64) = '=') := fun h =>
      digit_ne_pad hs h.2
    simp only [decode, if_neg hpd, value_digit hp, value_digit hq, value_digit hr,
      value_digit hs, ih, decodeThree, hf, hsc, ht, UInt8.ofNat_toNat,
      bind_eq_bind, bind_some]
    rfl

theorem length_decodeOne (h : decodeOne p q = some bs) : bs.length = 1 := by
  unfold decodeOne at h
  split at h
  · rw [← some.inj h]
    rfl
  · cases h

theorem length_decodeTwo (h : decodeTwo p q r = some bs) : bs.length = 2 := by
  unfold decodeTwo at h
  split at h
  · rw [← some.inj h]
    rfl
  · cases h

theorem decodedLenEstimate_cons (w x y z : Char) (r : List Char) :
    decodedLenEstimate (w :: x :: y :: z :: r).length = decodedLenEstimate r.length + 3 := by
  simp only [decodedLenEstimate, divCeil, List.length_cons]
  omega

theorem length_of_decode (h : decode t = some bs) : bs.length ≤ decodedLenEstimate t.length := by
  fun_induction decode t generalizing bs with
  | case1 =>
    rw [← some.inj h]
    exact Nat.zero_le _
  | case2 w x z rs hl =>
    obtain ⟨p, -, q, -, h⟩ := by simpa only [bind_eq_bind, bind_eq_some_iff] using h
    rw [length_decodeOne h, decodedLenEstimate_cons]
    omega
  | case3 w x y z rs hl hp =>
    obtain ⟨p, -, q, -, r, -, h⟩ := by
      simpa [bind_eq_some_iff] using h
    rw [length_decodeTwo h, decodedLenEstimate_cons]
    omega
  | case4 w x y z rs hl ih =>
    obtain ⟨p, -, q, -, r, -, s, -, tail, ht, h⟩ := by
      simpa only [bind_eq_bind, bind_eq_some_iff] using h
    have hr := ih ht
    rw [← some.inj h, decodedLenEstimate_cons, List.length_append, Nat.add_comm]
    exact Nat.add_le_add_right hr 3
  | case5 => cases h

end Base64
