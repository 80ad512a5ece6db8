import Mathlib

/-!
# UTF-16

A text as a list of 16-bit units, characters above the basic plane as pairs of
surrogates. Decoding replaces each surrogate without its partner; it gives back
what was encoded and never more units than it was given.
-/

set_option autoImplicit false

namespace NeuralOs.Utf16

def replacement : Char := Char.ofNat 0xFFFD

def encodeChar (c : Char) : List ℕ :=
  if c.toNat < 0x10000 then [c.toNat]
  else [0xD800+(c.toNat-0x10000)/1024, 0xDC00+(c.toNat-0x10000)%1024]

def encode (text : List Char) : List ℕ := text.flatMap encodeChar

def Plain (u : ℕ) : Prop := u < 0xD800 ∨ 0xDFFF < u

instance (u : ℕ) : Decidable (Plain u) := inferInstanceAs (Decidable (_ ∨ _))

/-- `char::decode_utf16` with `unwrap_or(REPLACEMENT_CHARACTER)` -/
def decode : List ℕ → List Char
  | [] => []
  | [u] => if Plain u then [Char.ofNat u] else [replacement]
  | u::v::l =>
    if Plain u then Char.ofNat u::decode (v::l)
    else if 0xDC00 ≤ u then replacement::decode (v::l)
    else if 0xDC00 ≤ v ∧ v ≤ 0xDFFF then
      Char.ofNat (0x10000+(u-0xD800)*1024+(v-0xDC00))::decode l
    else replacement::decode (v::l)

@[simp] theorem encode_nil : encode [] = [] := rfl

@[simp] theorem encode_cons (c : Char) (text : List Char) :
    encode (c::text) = encodeChar c++encode text := rfl

theorem char_ranges (c : Char) : c.toNat < 0xD800 ∨ (0xDFFF < c.toNat ∧ c.toNat < 0x110000) := by
  rcases c.valid with h | ⟨h₁, h₂⟩
  · exact .inl h
  · exact .inr ⟨h₁, h₂⟩

theorem decode_plain {u : ℕ} (h : Plain u) (l : List ℕ) :
    decode (u::l) = Char.ofNat u::decode l := by
  cases l with
  | nil => simp [decode, h]
  | cons v l => rw [decode, if_pos h]

theorem decode_encodeChar (c : Char) (l : List ℕ) : decode (encodeChar c++l) = c::decode l := by
  have hc := char_ranges c
  rw [encodeChar]
  split
  next hlow =>
    have hplain : Plain c.toNat := by
      rw [Plain]
      omega
    rw [List.singleton_append, decode_plain hplain, Char.ofNat_toNat]
  next hhigh =>
    have hpair : 0x10000+(0xD800+(c.toNat-0x10000)/1024-0xD800)*1024+
        (0xDC00+(c.toNat-0x10000)%1024-0xDC00) = c.toNat := by omega
    rw [List.cons_append, List.singleton_append, decode, if_neg (by rw [Plain]; omega),
      if_neg (by omega), if_pos (by omega), hpair, Char.ofNat_toNat]

theorem decode_encode (text : List Char) : decode (encode text) = text := by
  induction text with
  | nil => rfl
  | cons c text ih => rw [encode_cons, decode_encodeChar, ih]

theorem encodeChar_length_le (c : Char) : (encodeChar c).length ≤ 2 := by
  rw [encodeChar]
  split <;> simp

theorem encodeChar_ofNat {u : ℕ} (h : u < 0x10000) : (encodeChar (Char.ofNat u)).length = 1 := by
  have hle : (Char.ofNat u).toNat < 0x10000 := by
    rw [Char.ofNat]
    split
    · exact h
    · decide
  rw [encodeChar, if_pos hle]
  rfl

theorem encode_decode_length (l : List ℕ) (h : ∀ u ∈ l, u < 0x10000) :
    (encode (decode l)).length ≤ l.length := by
  have hrep : (encodeChar replacement).length = 1 := rfl
  induction l using decode.induct with
  | case1 => simp [decode]
  | case2 u hu =>
    rw [decode, if_pos hu]
    simp [encodeChar_ofNat (h u (by simp))]
  | case3 u hu =>
    rw [decode, if_neg hu]
    simp [hrep]
  | case4 u v l hu ih =>
    have := ih fun w hw => h w (by simp [hw])
    rw [decode, if_pos hu, encode_cons, List.length_append, encodeChar_ofNat (h u (by simp)),
      List.length_cons]
    omega
  | case5 u v l hu hlow ih =>
    have := ih fun w hw => h w (by simp [hw])
    rw [decode, if_neg hu, if_pos hlow, encode_cons, List.length_append, hrep, List.length_cons]
    omega
  | case6 u v l hu hlow hv ih =>
    have := ih fun w hw => h w (by simp [hw])
    have hc := encodeChar_length_le (Char.ofNat (0x10000+(u-0xD800)*1024+(v-0xDC00)))
    rw [decode, if_neg hu, if_neg hlow, if_pos hv, encode_cons, List.length_append,
      List.length_cons, List.length_cons]
    omega
  | case7 u v l hu hlow hv ih =>
    have := ih fun w hw => h w (by simp [hw])
    rw [decode, if_neg hu, if_neg hlow, if_neg hv, encode_cons, List.length_append, hrep,
      List.length_cons]
    omega

theorem encode_lt (text : List Char) : ∀ u ∈ encode text, u < 0x10000 := by
  intro u hu
  obtain ⟨c, -, hc⟩ := List.mem_flatMap.mp hu
  have := char_ranges c
  rw [encodeChar] at hc
  split at hc
  · rw [List.mem_singleton.mp hc]
    assumption
  · rcases List.mem_cons.mp hc with rfl | hc
    · omega
    · rw [List.mem_singleton.mp hc]
      omega

end NeuralOs.Utf16
