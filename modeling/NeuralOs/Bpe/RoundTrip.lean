import NeuralOs.Lib.ByteString

/-!
# Which texts survive the tokenizer

Decoding what was encoded gives one shown character for every byte of the text.
That is the text itself exactly when it has only printable ASCII characters and
spaces, since decoding never turns the private alphabet back into bytes.
-/

set_option autoImplicit false

namespace NeuralOs.Bpe
open ByteString

abbrev Piece := List Char

def utf8 (text : List Char) : Bytes := text.flatMap String.utf8EncodeChar

def fromUtf8 (b : Bytes) : Option (List Char) :=
  (ByteArray.utf8Decode? ⟨b.toArray⟩).map Array.toList

def spSpace : Char := Char.ofNat 0x2581
def bytelevelSpace : Char := Char.ofNat 0x0120

structure BpeVocab where
  bos : ℕ
  eos : ℕ
  eot : ℕ
  vocabN : ℕ
  offsets : List ℕ
  heap : Bytes
  merges : List (Piece × Piece)
  offsets_length : offsets.length = vocabN+1

namespace BpeVocab

variable (v : BpeVocab)

def decodeId (id : ℕ) : Option Piece :=
  if id ≥ v.vocabN then none
  else if v.offsets.getD (id+1) 0 > v.heap.length ∨ v.offsets.getD id 0 > v.offsets.getD (id+1) 0
    then none
  else fromUtf8 (slice v.heap (v.offsets.getD id 0)
    (v.offsets.getD (id+1) 0 - v.offsets.getD id 0))

def Bracketed (s : Piece) : Prop := s.head? = some '<' ∧ s.getLast? = some '>'

instance (s : Piece) : Decidable (Bracketed s) := by unfold Bracketed; infer_instance

/-- The reverse index as the loader fills it: the first id of each piece that
is neither empty nor of the form `<...>`. -/
def rev (piece : Piece) : Option ℕ :=
  if piece = [] ∨ Bracketed piece then none
  else (List.range v.vocabN).find? fun id => v.decodeId id = some piece

def Special (s : Piece) : Prop :=
  (s.take 2 = ['<', '|'] ∧ s.drop (s.length-2) = ['|', '>']) ∨
    s ∈ ["<s>".toList, "</s>".toList, "<unk>".toList, "<pad>".toList, "</line>".toList]

instance (s : Piece) : Decidable (Special s) := by unfold Special; infer_instance

def shown (ch : Char) : Char := if ch = spSpace ∨ ch = bytelevelSpace then ' ' else ch

def decodeToken (t : ℕ) : List Char :=
  if t = v.bos ∨ t = v.eos ∨ t = v.eot then []
  else match v.decodeId t with
    | none => []
    | some s => if Special s then [] else s.map shown

def decode (tokens : List ℕ) : List Char := tokens.flatMap v.decodeToken

end BpeVocab

/-! ## Merges -/

def mergeAt (a b : Piece) : List Piece → Option (List Piece)
  | x::y::rest =>
    if x = a ∧ y = b then some ((a++b)::rest) else (mergeAt a b (y::rest)).map (x :: ·)
  | _ => none

def mergeOnce (merges : List (Piece × Piece)) (word : List Piece) : Option (List Piece) :=
  merges.findSome? fun m => mergeAt m.1 m.2 word

theorem mergeAt_length {a b : Piece} {word word' : List Piece}
    (h : mergeAt a b word = some word') : word'.length+1 = word.length := by
  induction word generalizing word' with
  | nil => simp [mergeAt] at h
  | cons x rest ih =>
    cases rest with
    | nil => simp [mergeAt] at h
    | cons y rest =>
      rw [mergeAt] at h
      split at h
      · cases h
        rfl
      · obtain ⟨tail, htail, rfl⟩ := Option.map_eq_some_iff.mp h
        have := ih htail
        simpa using this

theorem mergeOnce_length {merges : List (Piece × Piece)} {word word' : List Piece}
    (h : mergeOnce merges word = some word') : word'.length+1 = word.length := by
  obtain ⟨m, -, hm⟩ := List.exists_of_findSome?_eq_some h
  exact mergeAt_length hm

def applyBpeMerges (merges : List (Piece × Piece)) (word : List Piece) : List Piece :=
  match _h : mergeOnce merges word with
  | none => word
  | some word' => applyBpeMerges merges word'
termination_by word.length
decreasing_by
  have := mergeOnce_length _h
  omega

/-! ## Pretokens -/

structure CharClass where
  letter : Char → Bool
  number : Char → Bool
  space : Char → Bool

def CharClass.punct (cls : CharClass) (c : Char) : Bool :=
  !cls.space c && !cls.letter c && !cls.number c

def quote : Char := Char.ofNat 0x27

def contractions : List (List Char) :=
  [[quote, 's'], [quote, 't'], [quote, 'r', 'e'], [quote, 'v', 'e'], [quote, 'm'],
    [quote, 'l', 'l'], [quote, 'd']]

def contraction (rest : List Char) : Option ℕ :=
  (contractions.find? fun pat => rest.take pat.length = pat).map List.length

def runLength (p : Char → Bool) (l : List Char) : ℕ := (l.takeWhile p).length

variable (cls : CharClass)

/-- The length of a run of spaces; the last one is left to a word after it. -/
def spaceLength (rest : List Char) : ℕ :=
  if runLength cls.space rest = rest.length then runLength cls.space rest
  else if runLength cls.space rest ≥ 2 then runLength cls.space rest - 1
  else 1

def classLength : List Char → Option ℕ
  | [] => none
  | d::tail =>
    if cls.letter d then some (runLength cls.letter (d::tail))
    else if cls.number d then some (runLength cls.number (d::tail))
    else if cls.punct d then some (runLength cls.punct (d::tail))
    else none

def lead (c : Char) : ℕ := if c = ' ' then 1 else 0

def wordLength (c : Char) (rest : List Char) : Option ℕ :=
  (classLength cls (rest.drop (lead c))).map (lead c + ·)

def nextLength (c : Char) (rest : List Char) : ℕ :=
  match if c = quote then contraction rest else none with
  | some hit => hit
  | none =>
    match wordLength cls c rest with
    | some n => n
    | none => if cls.space c then spaceLength cls rest else 1

variable {n : ℕ}

theorem contraction_pos {rest : List Char} (h : contraction rest = some n) : 0 < n := by
  obtain ⟨pat, hpat, rfl⟩ := Option.map_eq_some_iff.mp h
  have hmem := List.mem_of_find?_eq_some hpat
  simp only [contractions, List.mem_cons, List.not_mem_nil, or_false] at hmem
  rcases hmem with rfl | rfl | rfl | rfl | rfl | rfl | rfl <;> decide

theorem runLength_pos {p : Char → Bool} {c : Char} {l : List Char} (h : p c = true) :
    0 < runLength p (c::l) := by
  simp [runLength, h]

theorem classLength_pos {l : List Char} (h : classLength cls l = some n) : 0 < n := by
  cases l with
  | nil => cases h
  | cons d tail =>
    rw [classLength] at h
    split_ifs at h with h1 h2 h3
    · cases h
      exact runLength_pos h1
    · cases h
      exact runLength_pos h2
    · cases h
      exact runLength_pos h3

theorem wordLength_pos {c : Char} {rest : List Char}
    (h : wordLength cls c rest = some n) : 0 < n := by
  obtain ⟨k, hk, rfl⟩ := Option.map_eq_some_iff.mp h
  exact Nat.add_pos_right _ (classLength_pos cls hk)

theorem nextLength_pos (c : Char) (tail : List Char) : 0 < nextLength cls c (c::tail) := by
  unfold nextLength
  split
  next hit hhit =>
    split at hhit
    · exact contraction_pos hhit
    · cases hhit
  · split
    next n hn => exact wordLength_pos cls hn
    · split
      next hs =>
        have := runLength_pos (l := tail) hs
        unfold spaceLength
        split
        · exact this
        · split <;> omega
      · exact Nat.one_pos

def segments : List Char → List (List Char)
  | [] => []
  | c::tail =>
    (c::tail).take (nextLength cls c (c::tail)) ::
      segments ((c::tail).drop (nextLength cls c (c::tail)))
termination_by text => text.length
decreasing_by
  have := nextLength_pos cls c tail
  simp only [List.length_drop, List.length_cons]
  omega

def splitDigits (cur : List Char) : List Char → List (List Char)
  | [] => if cur = [] then [] else [cur]
  | c::rest =>
    if cls.number c then (if cur = [] then [] else [cur]) ++ [c] :: splitDigits [] rest
    else splitDigits (cur++[c]) rest

def pretokenizeBytelevel (text : List Char) : List (List Char) :=
  (segments cls text).flatMap (splitDigits cls [])

/-! ## Encoding -/

def printable (x : ℕ) : Bool :=
  (0x21 ≤ x && x ≤ 0x7E) || (0xA1 ≤ x && x ≤ 0xAC) || (0xAE ≤ x && x ≤ 0xFF)

def byteToChar (b : UInt8) : Char :=
  if printable b.toNat then Char.ofNat b.toNat
  else Char.ofNat (256 + ((List.range b.toNat).filter fun x => !printable x).length)

def BpeVocab.encodePretoken (v : BpeVocab) (pretoken : List Char) : List ℕ :=
  (applyBpeMerges v.merges ((utf8 pretoken).map fun b => [byteToChar b])).map fun piece =>
    (v.rev piece).getD 0

def BpeVocab.encodeBytelevel (v : BpeVocab) (text : List Char) : List ℕ :=
  (pretokenizeBytelevel cls text).flatMap v.encodePretoken

/-! ## Which texts survive the tokenizer -/
open BpeVocab

theorem segments_flatten (text : List Char) : (segments cls text).flatten = text := by
  induction text using segments.induct cls with
  | case1 => rw [segments, List.flatten_nil]
  | case2 c tail ih => rw [segments, List.flatten_cons, ih, List.take_append_drop]

theorem splitDigits_flatten (cur seg : List Char) :
    (splitDigits cls cur seg).flatten = cur ++ seg := by
  induction seg generalizing cur with
  | nil =>
    rw [splitDigits]
    split
    next h => simp [h]
    · simp
  | cons c rest ih =>
    rw [splitDigits]
    split
    · by_cases h : cur = []
      · simp [h, ih]
      · simp [h, ih]
    · simp [ih]

theorem pretokenize_flatten (text : List Char) :
    (pretokenizeBytelevel cls text).flatten = text := by
  rw [pretokenizeBytelevel, List.flatMap_def, List.flatten_flatten, List.map_map]
  have hmap : List.flatten ∘ splitDigits cls [] = id := by
    funext seg
    exact splitDigits_flatten cls [] seg
  rw [hmap, List.map_id, segments_flatten]

/-! ## Merges -/

variable {p : Piece} {v : BpeVocab} {word : List Piece}

theorem mergeAt_flatten {a b : Piece} {word' : List Piece}
    (h : mergeAt a b word = some word') : word'.flatten = word.flatten := by
  induction word generalizing word' with
  | nil => simp [mergeAt] at h
  | cons x rest ih =>
    cases rest with
    | nil => simp [mergeAt] at h
    | cons y rest =>
      rw [mergeAt] at h
      split at h
      next hxy =>
        cases h
        simp [hxy.1, hxy.2]
      · obtain ⟨tail, htail, rfl⟩ := Option.map_eq_some_iff.mp h
        rw [List.flatten_cons, ih htail]
        rfl

theorem mem_mergeAt {a b : Piece} {word' : List Piece} (h : mergeAt a b word = some word')
    (hp : p ∈ word') : p = a++b ∨ p ∈ word := by
  induction word generalizing word' with
  | nil => simp [mergeAt] at h
  | cons x rest ih =>
    cases rest with
    | nil => simp [mergeAt] at h
    | cons y rest =>
      rw [mergeAt] at h
      split at h
      · cases h
        rcases List.mem_cons.mp hp with rfl | hp
        · exact .inl rfl
        · exact .inr (List.mem_cons_of_mem _ (List.mem_cons_of_mem _ hp))
      · obtain ⟨tail, htail, rfl⟩ := Option.map_eq_some_iff.mp h
        rcases List.mem_cons.mp hp with rfl | hp
        · exact .inr List.mem_cons_self
        · rcases ih htail hp with h | h
          · exact .inl h
          · exact .inr (List.mem_cons_of_mem _ h)

theorem applyBpeMerges_flatten (merges : List (Piece × Piece)) (word : List Piece) :
    (applyBpeMerges merges word).flatten = word.flatten := by
  induction word using applyBpeMerges.induct merges with
  | case1 word h => rw [applyBpeMerges, h]
  | case2 word word' h ih =>
    obtain ⟨m, -, hm⟩ := List.exists_of_findSome?_eq_some h
    rw [applyBpeMerges, h]
    exact ih.trans (mergeAt_flatten hm)

theorem mem_applyBpeMerges {merges : List (Piece × Piece)}
    (hp : p ∈ applyBpeMerges merges word) : p ∈ word ∨ ∃ m ∈ merges, p = m.1++m.2 := by
  induction word using applyBpeMerges.induct merges with
  | case1 word h =>
    rw [applyBpeMerges, h] at hp
    exact .inl hp
  | case2 word word' h ih =>
    rw [applyBpeMerges, h] at hp
    rcases ih hp with hp' | hp'
    · obtain ⟨m, hmem, hm⟩ := List.exists_of_findSome?_eq_some h
      rcases mem_mergeAt hm hp' with rfl | hp'
      · exact .inr ⟨m, hmem, rfl⟩
      · exact .inl hp'
    · exact .inr hp'

/-! ## Looking pieces up -/

/-- The piece has an id, and the id is not one of the three control tokens. -/
def Ordinary (v : BpeVocab) (piece : Piece) : Prop :=
  ∃ id, v.rev piece = some id ∧ id ≠ v.bos ∧ id ≠ v.eos ∧ id ≠ v.eot

/-- The vocabulary has the 256 byte pieces and the result of every merge. -/
structure Complete (v : BpeVocab) : Prop where
  bytes : ∀ b, Ordinary v [byteToChar b]
  merged : ∀ m ∈ v.merges, Ordinary v (m.1++m.2)

theorem bracketed_of_special {s : Piece} (h : Special s) : Bracketed s := by
  rcases h with ⟨h1, h2⟩ | h
  · constructor
    · cases s with
      | nil => simp at h1
      | cons c s => simp_all
    have hl : s.getLast? = (s.drop (s.length-2)).getLast? := by
      rw [List.getLast?_drop, if_neg]
      intro hle
      rw [List.drop_eq_nil_of_le hle] at h2
      cases h2
    rw [hl, h2]
    rfl
  · simp only [List.mem_cons, List.not_mem_nil, or_false] at h
    rcases h with rfl | rfl | rfl | rfl | rfl <;> decide

theorem decodeToken_rev {piece : Piece} {id : ℕ} (h : v.rev piece = some id)
    (hid : id ≠ v.bos ∧ id ≠ v.eos ∧ id ≠ v.eot) : v.decodeToken id = piece.map shown := by
  unfold rev at h
  split at h
  · cases h
  next hp =>
    have hdec : v.decodeId id = some piece := by simpa using List.find?_some h
    have hsp : ¬Special piece := fun hs => hp (.inr (bracketed_of_special hs))
    rw [decodeToken, if_neg (by simpa using hid), hdec]
    exact if_neg hsp

theorem decode_pieces (h : ∀ p ∈ word, Ordinary v p) :
    v.decode (word.map fun piece => (v.rev piece).getD 0) = word.flatten.map shown := by
  induction word with
  | nil => rfl
  | cons p word ih =>
    obtain ⟨id, hrev, hid⟩ := h p List.mem_cons_self
    have ih' := ih fun q hq => h q (List.mem_cons_of_mem _ hq)
    rw [decode] at ih' ⊢
    rw [List.map_cons, List.flatMap_cons, hrev, Option.getD_some, decodeToken_rev hrev hid, ih',
      List.flatten_cons, List.map_append]

theorem decode_encodePretoken (hv : Complete v) (pretoken : List Char) :
    v.decode (v.encodePretoken pretoken) = (utf8 pretoken).map fun b => shown (byteToChar b) := by
  have hord : ∀ p ∈ applyBpeMerges v.merges ((utf8 pretoken).map fun b => [byteToChar b]),
      Ordinary v p := by
    intro p hp
    rcases mem_applyBpeMerges hp with hp | ⟨m, hm, rfl⟩
    · obtain ⟨b, -, rfl⟩ := List.mem_map.mp hp
      exact hv.bytes b
    · exact hv.merged m hm
  rw [encodePretoken, decode_pieces hord, applyBpeMerges_flatten]
  induction utf8 pretoken with
  | nil => rfl
  | cons b rest ih => simpa using ih

theorem decode_encodeBytelevel (hv : Complete v) (text : List Char) :
    v.decode (v.encodeBytelevel cls text) = (utf8 text).map fun b => shown (byteToChar b) := by
  have hlist : ∀ l : List (List Char), v.decode (l.flatMap v.encodePretoken) =
      (utf8 l.flatten).map fun b => shown (byteToChar b) := by
    intro l
    induction l with
    | nil => rfl
    | cons p l ih =>
      have hp := decode_encodePretoken hv p
      rw [decode] at ih hp ⊢
      rw [List.flatMap_cons, List.flatMap_append, ih, hp, List.flatten_cons, utf8, utf8, utf8,
        List.flatMap_append, List.map_append]
  rw [encodeBytelevel, hlist, pretokenize_flatten]

/-! ## One character for every byte -/

theorem utf8_cons (c : Char) (text : List Char) :
    utf8 (c::text) = String.utf8EncodeChar c ++ utf8 text := List.flatMap_cons

theorem utf8Size_eq_one_iff (c : Char) : c.utf8Size = 1 ↔ c.toNat < 128 := by
  rw [Char.utf8Size_eq_one_iff, UInt32.le_iff_toNat_le]
  exact Nat.lt_succ_iff.symm

theorem utf8EncodeChar_ascii {c : Char} (h : c.toNat < 128) :
    String.utf8EncodeChar c = [UInt8.ofNat c.toNat] := by
  rw [String.utf8EncodeChar_eq_singleton ((utf8Size_eq_one_iff c).mpr h)]
  rfl

theorem length_le_utf8 (text : List Char) : text.length ≤ (utf8 text).length := by
  induction text with
  | nil => exact Nat.le_refl 0
  | cons c text ih =>
    have := c.utf8Size_pos
    rw [utf8_cons, List.length_append, String.length_utf8EncodeChar, List.length_cons]
    omega

theorem shown_byteToChar_iff {c : Char} (h : c.toNat < 128) :
    shown (byteToChar (UInt8.ofNat c.toNat)) = c ↔ 0x20 ≤ c.toNat ∧ c.toNat ≤ 0x7E := by
  have hall : ∀ m : Fin 128, shown (byteToChar (UInt8.ofNat m)) = Char.ofNat m ↔
      0x20 ≤ m.val ∧ m.val ≤ 0x7E := by decide +kernel
  simpa only [Char.ofNat_toNat] using hall ⟨c.toNat, h⟩

theorem utf8_shown_iff (text : List Char) :
    ((utf8 text).map fun b => shown (byteToChar b)) = text ↔
      ∀ c ∈ text, 0x20 ≤ c.toNat ∧ c.toNat ≤ 0x7E := by
  induction text with
  | nil => simp [utf8]
  | cons c text ih =>
    rw [utf8_cons, List.map_append, List.forall_mem_cons]
    by_cases hc : c.toNat < 128
    · rw [utf8EncodeChar_ascii hc, List.map_singleton, List.singleton_append, List.cons.injEq, ih,
        shown_byteToChar_iff hc]
    constructor
    · -- a character of several bytes makes the result longer than the text
      intro h
      have hlen := congrArg List.length h
      have hrest := length_le_utf8 text
      have hpos := c.utf8Size_pos
      have hone := mt (utf8Size_eq_one_iff c).mp hc
      simp only [List.length_append, List.length_map, String.length_utf8EncodeChar,
        List.length_cons] at hlen
      omega
    · intro h
      omega

/-- Decoding what was encoded gives the text back exactly when it has only
printable ASCII characters and spaces. -/
theorem decode_encodeBytelevel_iff {v : BpeVocab} (hv : Complete v) (text : List Char) :
    v.decode (v.encodeBytelevel cls text) = text ↔ ∀ c ∈ text, 0x20 ≤ c.toNat ∧ c.toNat ≤ 0x7E := by
  rw [decode_encodeBytelevel cls hv, utf8_shown_iff]

/-! ## A vocabulary with the byte pieces -/

def ofPieces (pieces : List Piece) (merges : List (Piece × Piece)) : BpeVocab where
  bos := pieces.length
  eos := pieces.length
  eot := pieces.length
  vocabN := pieces.length
  offsets := (List.range (pieces.length+1)).map fun i => (utf8 (pieces.take i).flatten).length
  heap := utf8 pieces.flatten
  merges := merges
  offsets_length := by simp

theorem fromUtf8_utf8 (text : List Char) : fromUtf8 (utf8 text) = some text := by
  have h : (⟨(utf8 text).toArray⟩ : ByteArray) = text.utf8Encode := by
    apply ByteArray.ext
    simp [List.utf8Encode, utf8]
  rw [fromUtf8, h, List.utf8Decode?_utf8Encode]
  rfl

theorem utf8_append (s t : List Char) : utf8 (s++t) = utf8 s ++ utf8 t := List.flatMap_append

theorem decodeId_ofPieces {pieces : List Piece} {merges : List (Piece × Piece)} {i : ℕ}
    (h : i < pieces.length) : (ofPieces pieces merges).decodeId i = some pieces[i] := by
  have hnext : (pieces.take (i+1)).flatten = (pieces.take i).flatten ++ pieces[i] := by
    rw [List.take_succ_eq_append_getElem h, List.flatten_append, List.flatten_singleton]
  have hheap : utf8 pieces.flatten = utf8 (pieces.take i).flatten ++
      (utf8 pieces[i] ++ utf8 (pieces.drop (i+1)).flatten) := by
    rw [← List.append_assoc, ← utf8_append, ← hnext, ← utf8_append, ← List.flatten_append,
      List.take_append_drop]
  have hoff : ∀ j, j < pieces.length+1 → (ofPieces pieces merges).offsets.getD j 0 =
      (utf8 (pieces.take j).flatten).length := by
    intro j hj
    simp [ofPieces, List.getD_eq_getElem?_getD, List.getElem?_range hj]
  have hstop : (utf8 (pieces.take (i+1)).flatten).length =
      (utf8 (pieces.take i).flatten).length + (utf8 pieces[i]).length := by
    rw [hnext, utf8_append, List.length_append]
  rw [decodeId, hoff i (by omega), hoff (i+1) (by omega), hstop, if_neg (by simpa [ofPieces] using h),
    if_neg, Nat.add_sub_cancel_left]
  · change fromUtf8 (slice (utf8 pieces.flatten) _ _) = _
    rw [hheap, slice_mid, fromUtf8_utf8]
  · change ¬(_ > (utf8 pieces.flatten).length ∨ _)
    rw [hheap, List.length_append, List.length_append]
    omega

theorem rev_ofPieces {pieces : List Piece} {merges : List (Piece × Piece)} {i : ℕ}
    (h : i < pieces.length) (hn : pieces.Nodup) (hp : pieces[i] ≠ [] ∧ ¬Bracketed pieces[i]) :
    (ofPieces pieces merges).rev pieces[i] = some i := by
  rw [rev, if_neg (by simpa using hp), List.find?_range_eq_some]
  refine ⟨by simpa using decodeId_ofPieces h, List.mem_range.mpr h, ?_⟩
  intro j hj
  rw [decodeId_ofPieces (by omega : j < pieces.length)]
  have hne : pieces[j] ≠ pieces[i] := by
    intro heq
    have := (List.Nodup.getElem_inj_iff hn).mp heq
    omega
  simpa using hne

theorem ordinary_ofPieces {pieces : List Piece} {merges : List (Piece × Piece)}
    (hn : pieces.Nodup) (hall : ∀ q ∈ pieces, q ≠ [] ∧ ¬Bracketed q) (hp : p ∈ pieces) :
    Ordinary (ofPieces pieces merges) p := by
  obtain ⟨i, hi, rfl⟩ := List.getElem_of_mem hp
  have hne : i ≠ pieces.length := Nat.ne_of_lt hi
  exact ⟨i, rev_ofPieces hi hn (hall _ hp), hne, hne, hne⟩

def samplePieces : List Piece :=
  (List.range 256).map (fun n => [byteToChar (UInt8.ofNat n)]) ++ [['a', 'n']]

def sampleVocab : BpeVocab := ofPieces samplePieces [(['a'], ['n'])]

def charToByte (code : ℕ) : ℕ :=
  if code < 256 then code
  else ((List.range 256).filter fun x => !printable x).getD (code-256) 0

theorem charToByte_byteToChar {n : ℕ} (h : n < 256) :
    charToByte (byteToChar (UInt8.ofNat n)).toNat = n := by
  have hall : ∀ m : Fin 256, charToByte (byteToChar (UInt8.ofNat m)).toNat = m := by
    decide +kernel
  exact hall ⟨n, h⟩

theorem samplePieces_nodup : samplePieces.Nodup := by
  refine List.Nodup.append ?_ (List.nodup_singleton _) ?_
  · refine List.Nodup.map_on ?_ List.nodup_range
    intro m hm n hn heq
    have hchar : byteToChar (UInt8.ofNat m) = byteToChar (UInt8.ofNat n) := by simpa using heq
    rw [← charToByte_byteToChar (List.mem_range.mp hm), hchar,
      charToByte_byteToChar (List.mem_range.mp hn)]
  · intro p hp han
    obtain ⟨n, -, rfl⟩ := List.mem_map.mp hp
    simp at han

theorem samplePieces_plain : ∀ q ∈ samplePieces, q ≠ [] ∧ ¬Bracketed q := by decide +kernel

theorem sampleVocab_complete : Complete sampleVocab where
  bytes b := by
    apply ordinary_ofPieces samplePieces_nodup samplePieces_plain
    apply List.mem_append_left
    exact List.mem_map.mpr ⟨b.toNat, List.mem_range.mpr b.toNat_lt, by rw [UInt8.ofNat_toNat]⟩
  merged m hm := by
    obtain rfl : m = (['a'], ['n']) := List.mem_singleton.mp hm
    apply ordinary_ofPieces samplePieces_nodup samplePieces_plain
    exact List.mem_append_right _ List.mem_cons_self

def asciiClass : CharClass := ⟨Char.isAlpha, Char.isDigit, Char.isWhitespace⟩

def sampleText : List Char := ['a', 'n', ' ', 'a', 'n', 't', ',', ' ', '4', '2']

theorem decode_encodeBytelevel_iff_sample : Complete sampleVocab ∧
    sampleVocab.decode (sampleVocab.encodeBytelevel asciiClass sampleText) =
      sampleText :=
  ⟨sampleVocab_complete,
    (decode_encodeBytelevel_iff asciiClass sampleVocab_complete _).mpr (by simp [sampleText])⟩

/-- A letter with an accent comes back as two characters, a line break as another one. -/
theorem accent_garbled :
    Complete sampleVocab ∧
    sampleVocab.decode (sampleVocab.encodeBytelevel asciiClass [Char.ofNat 0xE9]) =
      [Char.ofNat 0xC3, Char.ofNat 0xA9] ∧
    sampleVocab.decode (sampleVocab.encodeBytelevel asciiClass [Char.ofNat 0x0A]) =
      [Char.ofNat 0x10A] := by
  refine ⟨sampleVocab_complete, ?_, ?_⟩
  · rw [decode_encodeBytelevel asciiClass sampleVocab_complete]
    decide +kernel
  · rw [decode_encodeBytelevel asciiClass sampleVocab_complete]
    decide +kernel

end NeuralOs.Bpe
