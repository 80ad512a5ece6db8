import Mathlib

/-!
# Scanning texts for a pattern

The text after the first occurrence of a pattern. Where a text is a
concatenation of known segments, a search passes over a segment that no
occurrence can meet and stops at the pattern itself. Decimal numbers are read
back from their digits.
-/

set_option autoImplicit false

namespace NeuralOs.TextScan

abbrev Text := List Char

def after (p : Text) : Text → Option Text
  | [] => if p = [] then some [] else none
  | c::s => if p <+: c::s then some ((c::s).drop p.length) else after p s

def contains (p s : Text) : Bool := (after p s).isSome

/-- No occurrence of `p` begins in `a`, whatever follows `a`. -/
def apart (p : Text) : Text → Bool
  | [] => true
  | c::a => !(p.isPrefixOf (c::a)) && !((c::a).isPrefixOf p) && apart p a

variable {a p s : Text} {c : Char}

theorem after_skip (h : apart p a = true) (s : Text) : after p (a++s) = after p s := by
  induction a with
  | nil => rfl
  | cons c a ih =>
    simp only [apart, Bool.and_eq_true, Bool.not_eq_true', List.isPrefixOf_iff_prefix,
      Bool.eq_false_iff, ne_eq] at h
    obtain ⟨⟨hp, ha⟩, hrest⟩ := h
    have hno : ¬ p <+: c::(a++s) := by
      intro hpre
      rcases List.prefix_or_prefix_of_prefix hpre (List.prefix_append (c::a) s) with hl | hl
      · exact hp hl
      · exact ha hl
    rw [List.cons_append, after, if_neg hno]
    exact ih hrest

theorem after_free (h : c ∉ a) (s : Text) : after (c::p) (a++s) = after (c::p) s := by
  induction a with
  | nil => rfl
  | cons d a ih =>
    have hd : c ≠ d := fun hcd => h (hcd ▸ List.mem_cons_self)
    have hno : ¬ c::p <+: d::(a++s) := by
      intro hpre
      exact hd (List.cons_prefix_cons.mp hpre).1
    rw [List.cons_append, after, if_neg hno]
    exact ih fun hc => h (List.mem_cons_of_mem d hc)

theorem after_here (hp : p ≠ []) (s : Text) : after p (p++s) = some s := by
  cases p with
  | nil => exact absurd rfl hp
  | cons c p =>
    have hpre : c::p <+: c::(p++s) := List.prefix_append (c::p) s
    rw [List.cons_append, after, if_pos hpre, ← List.cons_append, List.drop_left]

theorem contains_iff (hp : p ≠ []) (s : Text) : contains p s = true ↔ p <:+: s := by
  induction s with
  | nil => simp [contains, after, hp]
  | cons c s ih =>
    rw [List.infix_cons_iff, ← ih, contains, after]
    split
    next h => simp [h]
    next h => simp [h, contains]

theorem infix_of_filled {n : ℕ} (hc : c ∉ p) (h : p <:+: s ++ List.replicate n c) : p <:+: s := by
  obtain ⟨a, b, h⟩ := h
  rcases List.append_eq_append_iff.mp h with ⟨x, hs, -⟩ | ⟨x, hap, hx⟩
  · exact ⟨a, x, hs.symm⟩
  rcases List.eq_nil_or_concat x with rfl | ⟨y, d, rfl⟩
  · exact ⟨a, [], by simpa using hap⟩
  rcases List.eq_nil_or_concat p with rfl | ⟨q, e, rfl⟩
  · exact List.nil_infix
  have hd : d = c := by
    have hmem : d ∈ List.replicate n c := by simp [hx]
    exact List.eq_of_mem_replicate hmem
  have hlast : e = d := by
    simpa using congrArg List.getLast? hap
  simp [hlast, hd] at hc

def isWhitespace (c : Char) : Bool :=
  (9 ≤ c.toNat && c.toNat ≤ 13) || (0x2000 ≤ c.toNat && c.toNat ≤ 0x200A) ||
    [0x20, 0x85, 0xA0, 0x1680, 0x2028, 0x2029, 0x202F, 0x205F, 0x3000].contains c.toNat

def trimStart (s : Text) : Text := s.dropWhile isWhitespace

def trim (s : Text) : Text := (trimStart s).rdropWhile isWhitespace

theorem trimStart_append (h : trimStart a ≠ []) (b : Text) : trimStart (a++b) = trimStart a++b := by
  rw [trimStart] at h
  rw [trimStart, List.dropWhile_append, if_neg (by rwa [List.isEmpty_iff])]
  rfl

theorem rdropWhile_keeps (hc : isWhitespace c = false) (p t : Text) :
    p++[c] <+: ((p++[c])++t).rdropWhile isWhitespace := by
  induction t using List.reverseRecOn with
  | nil => simp [hc]
  | append_singleton t d ih =>
    rw [← List.append_assoc, List.rdropWhile_concat]
    split
    · exact ih
    · rw [List.append_assoc]
      exact List.prefix_append _ _

theorem prefix_trim_iff (hc : isWhitespace c = false) :
    p++[c] <+: trim s ↔ p++[c] <+: trimStart s := by
  constructor
  · intro h
    exact h.trans (List.rdropWhile_prefix _ _)
  · rintro ⟨t, ht⟩
    rw [trim, ← ht]
    exact rdropWhile_keeps hc p t

theorem starts_append (hp : p ≠ []) (h : p <+: trimStart a) (b : Text) :
    p <+: trimStart (a++b) := by
  have hne : trimStart a ≠ [] := by
    intro he
    rw [he] at h
    exact hp (List.prefix_nil.mp h)
  rw [trimStart_append hne]
  exact h.trans (List.prefix_append _ _)

/-! ## Decimal numbers -/

def decimal (n : ℕ) : Text := Nat.toDigits 10 n

def digitsValue (ds : Text) : ℕ := ds.foldl (fun v c => 10*v+(c.toNat-48)) 0

theorem decimal_digits (n : ℕ) : (decimal n).all Char.isDigit = true := by
  rw [List.all_eq_true]
  intro c hc
  exact Nat.isDigit_of_mem_toDigits (by decide) (by decide) hc

theorem decimal_ne_nil (n : ℕ) : decimal n ≠ [] := Nat.toDigits_ne_nil

theorem digitsValue_decimal (n : ℕ) : digitsValue (decimal n) = n :=
  Nat.ofDigitChars_toDigits (b := 10) (by decide) (by decide)

/-- An optional plus sign and digits of a number below `bound`, as
`str::parse` reads an unsigned number. -/
def parseBelow (bound : ℕ) (s : Text) : Option ℕ :=
  let ds := if s.head? = some '+' then s.tail else s
  if ds ≠ [] ∧ ds.all Char.isDigit ∧ digitsValue ds < bound then some (digitsValue ds) else none

theorem parseBelow_lt {bound n : ℕ} (h : parseBelow bound s = some n) : n < bound := by
  simp only [parseBelow, Option.ite_none_right_eq_some, Option.some.injEq] at h
  obtain ⟨hok, rfl⟩ := h
  exact hok.2.2

theorem parseBelow_decimal {bound n : ℕ} (h : n < bound) :
    parseBelow bound (decimal n) = some n := by
  have hplus : (decimal n).head? ≠ some '+' := by
    intro hp
    have hd := List.all_eq_true.mp (decimal_digits n) _ (List.mem_of_head? hp)
    exact absurd hd (by decide)
  simp [parseBelow, if_neg hplus, decimal_ne_nil n, decimal_digits n, digitsValue_decimal n, h]

theorem takeWhile_digits {ds : Text} (h : ds.all Char.isDigit = true)
    (hs : ∀ c ∈ s.head?, c.isDigit = false) : (ds++s).takeWhile Char.isDigit = ds := by
  rw [List.takeWhile_append_of_pos fun c hc => List.all_eq_true.mp h c hc]
  cases s with
  | nil => simp
  | cons c s => simp [hs c rfl]

theorem not_mem_digits {ds : Text} (h : ds.all Char.isDigit = true)
    (hc : c.isDigit = false) : c ∉ ds := by
  intro hm
  rw [List.all_eq_true.mp h c hm] at hc
  cases hc

end NeuralOs.TextScan

/-! ## Fields between separators -/

namespace NeuralOs.Delimited
open TextScan

def splitOnce (c : Char) : Text → Option (Text × Text)
  | [] => none
  | d::s => if d = c then some ([], s) else (splitOnce c s).map fun p => (d::p.1, p.2)

/-- At most `n` fields; the last one keeps its separators. -/
def splitn (c : Char) : ℕ → Text → List Text
  | 0, _ => []
  | 1, s => [s]
  | n+2, s =>
    match splitOnce c s with
    | none => [s]
    | some p => p.1::splitn c (n+1) p.2

def trimEndMatches (c : Char) (s : Text) : Text := s.rdropWhile (· == c)

variable {a : Text} {c : Char}

theorem splitOnce_join (h : c ∉ a) (s : Text) : splitOnce c (a++c::s) = some (a, s) := by
  induction a with
  | nil => simp [splitOnce]
  | cons d a ih =>
    have hd : d ≠ c := fun hdc => h (hdc ▸ List.mem_cons_self)
    have hrest := ih fun hc => h (List.mem_cons_of_mem d hc)
    rw [List.cons_append, splitOnce, if_neg hd, hrest]
    rfl

theorem splitn_join (h : c ∉ a) (n : ℕ) (s : Text) :
    splitn c (n+2) (a++c::s) = a::splitn c (n+1) s := by
  rw [splitn, splitOnce_join h]

theorem splitn_three {b : Text} (ha : c ∉ a) (hb : c ∉ b) (s : Text) :
    splitn c 3 (a++c::(b++c::s)) = [a, b, s] := by
  rw [splitn_join ha, splitn_join hb, splitn]

theorem splitOnce_fst_free {s : Text} {p : Text × Text} (h : splitOnce c s = some p) : c ∉ p.1 := by
  induction s generalizing p with
  | nil => simp [splitOnce] at h
  | cons d s ih =>
    by_cases hd : d = c
    · rw [splitOnce, if_pos hd, Option.some.injEq] at h
      subst h
      exact List.not_mem_nil
    · rw [splitOnce, if_neg hd, Option.map_eq_some_iff] at h
      obtain ⟨q, hq, rfl⟩ := h
      simp [Ne.symm hd, ih hq]

theorem trimEndMatches_concat (c : Char) (s : Text) :
    trimEndMatches c (s++[c]) = trimEndMatches c s := by
  rw [trimEndMatches, trimEndMatches, List.rdropWhile_concat_pos]
  simp

theorem trimEndMatches_append {d : Char} (h : d ≠ c) (a s : Text) :
    trimEndMatches c (a++d::s) = a++d::trimEndMatches c s := by
  induction s using List.reverseRecOn with
  | nil => simp [trimEndMatches, h]
  | append_singleton s e ih =>
    rw [← List.cons_append, ← List.append_assoc]
    by_cases he : e = c
    · subst he
      rw [trimEndMatches_concat, trimEndMatches_concat, ih]
    · simp [trimEndMatches, he]

theorem trimEndMatches_eq_self_iff {s : Text} : trimEndMatches c s = s ↔ s.getLast? ≠ some c := by
  induction s using List.reverseRecOn with
  | nil => simp [trimEndMatches]
  | append_singleton s d _ => simp [trimEndMatches]

end NeuralOs.Delimited
