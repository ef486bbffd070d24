import Mathlib.Data.List.GetD

/-! # Base64

The standard encoding of bytes with padding, and its decoder. -/
namespace EasyDDB.Base64
set_option autoImplicit false

def alphabet : List Char := "ABCDEFGHIJKLMNOPQRSTUVWXYZabcdefghijklmnopqrstuvwxyz0123456789+/".toList

def digit (n : Nat) : Char := alphabet.getD n 'A'

/-- The six bits a character stands for. -/
def value? (c : Char) : Option Nat := alphabet.idxOf? c

theorem value?_digit {n : Nat} (h : n < 64) : value? (digit n) = some n := by
  have hall : ∀ n : Fin 64, value? (digit n) = some n.1 := by decide +kernel
  exact hall ⟨n, h⟩

theorem digit_ne {n : Nat} (h : n < 64) : digit n ≠ '=' := by
  have hall : ∀ n : Fin 64, digit n ≠ '=' := by decide +kernel
  exact hall ⟨n, h⟩

/-- Three bytes give four digits, and the last group is padded. -/
def encode : List UInt8 → List Char
  | [] => []
  | [a] => [digit (a.toNat / 4), digit (a.toNat % 4 * 16), '=', '=']
  | [a, b] => [digit (a.toNat / 4), digit (a.toNat % 4 * 16 + b.toNat / 16), digit (b.toNat % 16 * 4), '=']
  | a :: b :: c :: rest =>
    digit (a.toNat / 4) :: digit (a.toNat % 4 * 16 + b.toNat / 16) :: digit (b.toNat % 16 * 4 + c.toNat / 64) ::
      digit (c.toNat % 64) :: encode rest

theorem digit_mem (n : Nat) : digit n ∈ alphabet := by
  by_cases h : n < alphabet.length
  · rw [digit, List.getD_eq_getElem _ _ h]
    exact List.getElem_mem h
  · rw [digit, List.getD_eq_default _ _ (by omega)]
    decide

theorem mem_encode {bytes : List UInt8} {c : Char} (h : c ∈ encode bytes) : c ∈ alphabet ∨ c = '=' := by
  induction bytes using encode.induct with
  | case1 => cases h
  | case2 a =>
    simp only [encode, List.mem_cons, List.not_mem_nil, or_false] at h
    obtain h | h | h | h := h
    · exact .inl (h ▸ digit_mem _)
    · exact .inl (h ▸ digit_mem _)
    · exact .inr h
    · exact .inr h
  | case3 a b =>
    simp only [encode, List.mem_cons, List.not_mem_nil, or_false] at h
    obtain h | h | h | h := h
    · exact .inl (h ▸ digit_mem _)
    · exact .inl (h ▸ digit_mem _)
    · exact .inl (h ▸ digit_mem _)
    · exact .inr h
  | case4 a b c' rest ih =>
    simp only [encode, List.mem_cons] at h
    obtain h | h | h | h | h := h
    · exact .inl (h ▸ digit_mem _)
    · exact .inl (h ▸ digit_mem _)
    · exact .inl (h ▸ digit_mem _)
    · exact .inl (h ▸ digit_mem _)
    · exact ih h

/-- The bytes of a group of digits. -/
def byte₁ (w x : Nat) : UInt8 := UInt8.ofNat (w * 4 + x / 16)
def byte₂ (x y : Nat) : UInt8 := UInt8.ofNat (x * 16 + y / 4)
def byte₃ (y z : Nat) : UInt8 := UInt8.ofNat (y * 64 + z)

def decode : List Char → Option (List UInt8)
  | [] => some []
  | p :: q :: r :: s :: rest => do
    let w ← value? p
    let x ← value? q
    if r = '=' ∧ s = '=' ∧ rest = [] then some [byte₁ w x]
    else
      let y ← value? r
      if s = '=' ∧ rest = [] then some [byte₁ w x, byte₂ x y]
      else
        let z ← value? s
        let bytes ← decode rest
        some (byte₁ w x :: byte₂ x y :: byte₃ y z :: bytes)
  | _ => none

theorem byte₁_eq (a : UInt8) {x : Nat} (hx : x / 16 = a.toNat % 4) : byte₁ (a.toNat / 4) x = a := by
  have hsum : a.toNat / 4 * 4 + x / 16 = a.toNat := by omega
  rw [byte₁, hsum, UInt8.ofNat_toNat]

theorem byte₂_eq (b : UInt8) {x y : Nat} (hx : x % 16 = b.toNat / 16) (hy : y / 4 = b.toNat % 16) :
    byte₂ x y = b := by
  have hmod : (x * 16 + y / 4) % 2 ^ 8 = b.toNat := by omega
  apply UInt8.toNat_inj.1
  rw [byte₂, UInt8.toNat_ofNat', hmod]

theorem byte₃_eq (c : UInt8) {y : Nat} (hy : y % 4 = c.toNat / 64) : byte₃ y (c.toNat % 64) = c := by
  have hmod : (y * 64 + c.toNat % 64) % 2 ^ 8 = c.toNat := by
    have := c.toNat_lt
    omega
  apply UInt8.toNat_inj.1
  rw [byte₃, UInt8.toNat_ofNat', hmod]

theorem decode_encode (bytes : List UInt8) : decode (encode bytes) = some bytes := by
  induction bytes using encode.induct with
  | case1 => rfl
  | case2 a =>
    have ha := a.toNat_lt
    rw [encode, decode, value?_digit (by omega), value?_digit (by omega)]
    simp only [Option.bind_eq_bind, Option.bind_some, and_self, if_true]
    rw [byte₁_eq a (by omega)]
  | case3 a b =>
    have ha := a.toNat_lt
    have hb := b.toNat_lt
    rw [encode, decode, value?_digit (by omega), value?_digit (by omega), value?_digit (by omega)]
    simp only [Option.bind_eq_bind, Option.bind_some, digit_ne (show b.toNat % 16 * 4 < 64 by omega), false_and,
      if_false, and_self, if_true]
    rw [byte₁_eq a (by omega), byte₂_eq b (by omega) (by omega)]
  | case4 a b c rest ih =>
    have ha := a.toNat_lt
    have hb := b.toNat_lt
    have hc := c.toNat_lt
    rw [encode, decode, value?_digit (by omega), value?_digit (by omega), value?_digit (by omega),
      value?_digit (by omega), ih]
    simp only [Option.bind_eq_bind, Option.bind_some, digit_ne (show c.toNat % 64 < 64 by omega), false_and,
      and_false, if_false]
    rw [byte₁_eq a (by omega), byte₂_eq b (by omega) (by omega), byte₃_eq c (by omega)]

theorem mem_of_value? {c : Char} {n : Nat} (h : value? c = some n) : c ∈ alphabet := by
  rw [← List.isSome_idxOf?]
  exact Option.isSome_of_eq_some h

/-- A text that can be decoded has nothing but digits and padding. -/
theorem mem_of_decode {text : List Char} {bytes : List UInt8} (h : decode text = some bytes) {c : Char} (hc : c ∈ text) :
    c ∈ alphabet ∨ c = '=' := by
  induction text using decode.induct generalizing bytes with
  | case1 => cases hc
  | case2 p q r s rest ih =>
    simp only [decode, Option.bind_eq_bind, Option.bind_eq_some_iff] at h
    obtain ⟨w, hw, x, hx, h⟩ := h
    have hp := mem_of_value? hw
    have hq := mem_of_value? hx
    simp only [List.mem_cons] at hc
    obtain rfl | rfl | hc := hc
    · exact .inl hp
    · exact .inl hq
    split at h
    · next hpad =>
      obtain ⟨rfl, rfl, rfl⟩ := hpad
      exact .inr (by simpa using hc)
    obtain ⟨y, hy, h⟩ := Option.bind_eq_some_iff.mp h
    obtain rfl | hc := hc
    · exact .inl (mem_of_value? hy)
    split at h
    · next hpad =>
      obtain ⟨rfl, rfl⟩ := hpad
      exact .inr (by simpa using hc)
    obtain ⟨z, hz, h⟩ := Option.bind_eq_some_iff.mp h
    obtain ⟨bytes', hrest, -⟩ := Option.bind_eq_some_iff.mp h
    obtain rfl | hc := hc
    · exact .inl (mem_of_value? hz)
    · exact ih hrest hc
  | case3 text hnil hcons =>
    rw [decode] at h
    · cases h
    · exact hnil
    · exact hcons

end EasyDDB.Base64
