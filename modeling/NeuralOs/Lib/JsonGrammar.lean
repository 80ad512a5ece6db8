import Mathlib

/-!
# JSON texts

The grammar of JSON as predicates on texts, and what it says about the first
characters of a text.
-/

set_option autoImplicit false

namespace NeuralOs.JsonGrammar

def isBlank (c : Char) : Bool := [' ', '\t', '\n', '\r'].contains c

def Blanks (s : List Char) : Prop := ∀ c ∈ s, isBlank c = true

def Digits (s : List Char) : Prop := s ≠ [] ∧ ∀ c ∈ s, c.isDigit = true

inductive Integer : List Char → Prop
  | zero : Integer ['0']
  | digits {c : Char} {s : List Char} (hc : c.isDigit = true) (h0 : c ≠ '0')
      (hs : ∀ d ∈ s, d.isDigit = true) : Integer (c::s)

inductive Fraction : List Char → Prop
  | none : Fraction []
  | some {s : List Char} (hs : Digits s) : Fraction ('.'::s)

inductive Exponent : List Char → Prop
  | none : Exponent []
  | plain {e : Char} {s : List Char} (he : e ∈ ['e', 'E']) (hs : Digits s) : Exponent (e::s)
  | signed {e g : Char} {s : List Char} (he : e ∈ ['e', 'E']) (hg : g ∈ ['+', '-'])
      (hs : Digits s) : Exponent (e::g::s)

inductive Number : List Char → Prop
  | plain {i f e : List Char} (hi : Integer i) (hf : Fraction f) (he : Exponent e) :
      Number (i++f++e)
  | minus {i f e : List Char} (hi : Integer i) (hf : Fraction f) (he : Exponent e) :
      Number ('-'::(i++f++e))

def isHex (c : Char) : Bool :=
  c.isDigit || ('a' ≤ c && c ≤ 'f') || ('A' ≤ c && c ≤ 'F')

inductive Inside : List Char → Prop
  | nil : Inside []
  | plain {c : Char} {s : List Char} (hc : 0x20 ≤ c.toNat) (hq : c ≠ '"') (hb : c ≠ '\\')
      (hs : Inside s) : Inside (c::s)
  | escape {c : Char} {s : List Char} (hc : c ∈ ['"', '\\', '/', 'b', 'f', 'n', 'r', 't'])
      (hs : Inside s) : Inside ('\\'::c::s)
  | unit {a b c d : Char} {s : List Char}
      (hx : isHex a = true ∧ isHex b = true ∧ isHex c = true ∧ isHex d = true) (hs : Inside s) :
      Inside ('\\' :: 'u' :: a::b::c::d::s)

inductive Quoted : List Char → Prop
  | mk {s : List Char} (hs : Inside s) : Quoted ('"'::(s++['"']))

mutual

inductive Value : List Char → Prop
  | literal {s : List Char}
      (hs : s ∈ [['t', 'r', 'u', 'e'], ['f', 'a', 'l', 's', 'e'], ['n', 'u', 'l', 'l']]) : Value s
  | number {s : List Char} (hs : Number s) : Value s
  | quoted {s : List Char} (hs : Quoted s) : Value s
  | emptyArray {w : List Char} (hw : Blanks w) : Value ('['::(w++[']']))
  | array {s : List Char} (hs : Elements s) : Value ('['::(s++[']']))
  | emptyObject {w : List Char} (hw : Blanks w) : Value ('{'::(w++['}']))
  | object {s : List Char} (hs : Members s) : Value ('{'::(s++['}']))

/-- A value with blanks around it; also a whole JSON text. -/
inductive Element : List Char → Prop
  | mk {a v b : List Char} (ha : Blanks a) (hv : Value v) (hb : Blanks b) : Element (a++(v++b))

inductive Elements : List Char → Prop
  | one {v : List Char} (hv : Element v) : Elements v
  | more {v rest : List Char} (hv : Element v) (hr : Elements rest) : Elements (v++ ','::rest)

inductive Members : List Char → Prop
  | one {a k b v : List Char} (ha : Blanks a) (hk : Quoted k) (hb : Blanks b) (hv : Element v) :
      Members (a++(k++(b++ ':'::v)))
  | more {a k b v rest : List Char} (ha : Blanks a) (hk : Quoted k) (hb : Blanks b)
      (hv : Element v) (hr : Members rest) : Members (a++(k++(b++ ':'::(v++ ','::rest))))

end

/-! ### First characters -/

def starts : List Char :=
  ['{', '[', '"', '-', '0', '1', '2', '3', '4', '5', '6', '7', '8', '9', 't', 'f', 'n']

theorem digit_starts {c : Char} (h : c.isDigit = true) : c ∈ starts := by
  rw [Char.isDigit_iff_toNat] at h
  have hall : ∀ m : Fin 58, 48 ≤ m.val → Char.ofNat m ∈ starts := by decide
  have hc := hall ⟨c.toNat, by have := h.2; simp at this; omega⟩ (by have := h.1; simpa using this)
  rwa [Char.ofNat_toNat] at hc

variable {s : List Char}

theorem number_head (h : Number s) : ∃ c rest, s = c::rest ∧ (c = '-' ∨ c.isDigit = true) := by
  cases h with
  | minus hi hf he => exact ⟨_, _, rfl, .inl rfl⟩
  | plain hi hf he =>
    cases hi with
    | zero => exact ⟨_, _, rfl, .inr rfl⟩
    | digits hc h0 hs => exact ⟨_, _, rfl, .inr hc⟩

theorem value_head (h : Value s) : ∃ c rest, s = c::rest ∧ c ∈ starts := by
  cases h with
  | literal hs =>
    simp only [List.mem_cons, List.not_mem_nil, or_false] at hs
    rcases hs with rfl | rfl | rfl <;> exact ⟨_, _, rfl, by decide⟩
  | number hs =>
    obtain ⟨c, rest, rfl, rfl | hc⟩ := number_head hs
    · exact ⟨_, rest, rfl, by decide⟩
    · exact ⟨c, rest, rfl, digit_starts hc⟩
  | quoted hs =>
    cases hs
    exact ⟨_, _, rfl, by decide⟩
  | emptyArray hw => exact ⟨_, _, rfl, by decide⟩
  | array hs => exact ⟨_, _, rfl, by decide⟩
  | emptyObject hw => exact ⟨_, _, rfl, by decide⟩
  | object hs => exact ⟨_, _, rfl, by decide⟩

theorem element_head {c : Char} {rest : List Char} (h : Element (c::rest)) :
    isBlank c = true ∨ c ∈ starts := by
  generalize hs : c::rest = s at h
  cases h with
  | @mk a v b ha hv hb =>
    cases a with
    | nil =>
      obtain ⟨d, r, rfl, hd⟩ := value_head hv
      rw [List.nil_append, List.cons_append, List.cons.injEq] at hs
      exact .inr (hs.1 ▸ hd)
    | cons d a =>
      rw [List.cons_append, List.cons.injEq] at hs
      exact .inl (hs.1 ▸ ha d (by simp))

theorem members_head (h : Members s) : ∃ c rest, s = c::rest ∧ (isBlank c = true ∨ c = '"') := by
  have hhead : ∀ {a k : List Char} (r : List Char), Blanks a → Quoted k →
      ∃ c rest, a++(k++r) = c::rest ∧ (isBlank c = true ∨ c = '"') := by
    intro a k r ha hk
    cases hk
    cases a with
    | nil => exact ⟨_, _, rfl, .inr rfl⟩
    | cons d a => exact ⟨d, _, rfl, .inl (ha d (by simp))⟩
  cases h with
  | one ha hk hb hv => exact hhead _ ha hk
  | more ha hk hb hv hr => exact hhead _ ha hk

theorem element_brace {rest : List Char} (h : Element ('{'::rest)) :
    ∃ s b, rest = s++ '}'::b ∧ Blanks b ∧ (Blanks s ∨ Members s) := by
  generalize hs : '{'::rest = t at h
  cases h with
  | @mk a v b ha hv hb =>
    have hnil : a = [] := by
      cases a with
      | nil => rfl
      | cons d a =>
        rw [List.cons_append, List.cons.injEq] at hs
        have := ha d (by simp)
        rw [← hs.1] at this
        cases this
    rw [hnil, List.nil_append] at hs
    cases hv with
    | literal hl =>
      simp only [List.mem_cons, List.not_mem_nil, or_false] at hl
      rcases hl with rfl | rfl | rfl <;> simp at hs
    | number hn =>
      obtain ⟨c, r, rfl, hc⟩ := number_head hn
      rw [List.cons_append, List.cons.injEq] at hs
      rw [← hs.1] at hc
      rcases hc with hc | hc <;> cases hc
    | quoted hq =>
      cases hq
      simp at hs
    | emptyArray hw => simp at hs
    | array hs' => simp at hs
    | emptyObject hw => exact ⟨_, b, by simpa using hs, hb, .inl hw⟩
    | object hm => exact ⟨_, b, by simpa using hs, hb, .inr hm⟩

theorem element_brace_next {d : Char} {rest : List Char} (h : Element ('{'::d::rest)) :
    isBlank d = true ∨ d = '"' ∨ d = '}' := by
  obtain ⟨s, b, hs, -, hw | hm⟩ := element_brace h
  · cases s with
    | nil => exact .inr (.inr (List.cons.inj hs).1)
    | cons c s =>
      rw [List.cons_append, List.cons.injEq] at hs
      exact .inl (hs.1 ▸ hw c (by simp))
  · obtain ⟨c, r, rfl, hc⟩ := members_head hm
    rw [List.cons_append, List.cons.injEq] at hs
    rw [hs.1]
    exact hc.imp_right .inl

theorem element_empty {rest : List Char} (h : Element ('{':: '}'::rest)) : Blanks rest := by
  obtain ⟨s, b, hs, hb, hw | hm⟩ := element_brace h
  · cases s with
    | nil =>
      rw [List.nil_append, List.cons.injEq] at hs
      exact hs.2 ▸ hb
    | cons c s =>
      rw [List.cons_append, List.cons.injEq] at hs
      have := hw c (by simp)
      rw [← hs.1] at this
      cases this
  · obtain ⟨c, r, rfl, hc⟩ := members_head hm
    rw [List.cons_append, List.cons.injEq] at hs
    rw [← hs.1] at hc
    rcases hc with hc | hc <;> cases hc

end NeuralOs.JsonGrammar
