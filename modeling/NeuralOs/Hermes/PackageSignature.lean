import NeuralOs.Hermes.PackageHub

/-!
# What a package signature covers

The signed text leaves out every hash and signature line. Between documents whose
lines of that kind all stand in the frontmatter, one signature belongs to one
document. Every accepted document has an accepted companion with the same
signature: the same text below one more signature line.
-/

set_option autoImplicit false

namespace NeuralOs.Hermes.PackageHub
open ByteString Checked TextScan TextLines
open Delimited (trimEndMatches)
open Bpe (utf8 fromUtf8 fromUtf8_utf8)

def dropSeal (fm : Text) : Text := ((pieces fm).filter fun p => !sealLine (chomp p)).flatten

/-- The lines of a document, up to the hash and signature lines of its frontmatter. -/
def unsigned (raw : Text) : Option (List Text) :=
  match splitn sep 3 (normalizeLf raw) with
  | [a, fm, body] => some (lines ((a ++ sep) ++ (dropSeal fm ++ (sep ++ body))))
  | _ => none

def lastLine (fm : Text) : Text := fm.rtakeWhile (· ≠ '\n')

/-- No hash or signature line but the whole lines of the frontmatter. -/
def Plain (raw : Text) : Prop :=
  ∀ a fm body, splitn sep 3 (normalizeLf raw) = [a, fm, body] →
    (∀ l ∈ lines (a ++ sep), sealLine l = false) ∧
      ∀ l ∈ lines (lastLine fm ++ (sep ++ body)), sealLine l = false

def Accepts (id : Identity) (kind : PackageKind) (raw : Text) (sig : Bytes) : Prop :=
  verifyArtifactMd id kind raw = .ok () ∧ signatureOf (normalizeLf raw) = .ok (some sig)

instance (id : Identity) (kind : PackageKind) (raw : Text) (sig : Bytes) :
    Decidable (Accepts id kind raw sig) := by
  unfold Accepts
  infer_instance

/-! ## The signed text of a plain document -/

theorem closed_front (a : Text) : Closed (a ++ sep) := (closed_concat (a ++ "---".toList)).elim
  (fun h => by simp at h) fun ⟨t, ht⟩ => .inr ⟨t, by rw [← ht]; simp [sep]⟩

theorem rdropWhile_closed (fm : Text) : Closed (fm.rdropWhile (· ≠ '\n')) := by
  induction fm using List.reverseRecOn with
  | nil => exact closed_nil
  | append_singleton fm c ih =>
    rw [List.rdropWhile_concat]
    split
    · exact ih
    · next hc =>
      obtain rfl : c = '\n' := by simpa using hc
      exact closed_concat fm

theorem lastLine_free (fm : Text) : '\n' ∉ lastLine fm := by
  intro h
  simpa using List.mem_rtakeWhile_imp h

theorem lines_dropSeal {q : Text} (hq : Closed q) :
    lines (dropSeal q) = (lines q).filter (fun l => !sealLine l) ∧ Closed (dropSeal q) := by
  obtain ⟨hp, hc⟩ := pieces_filter hq fun p => !sealLine (chomp p)
  refine ⟨?_, hc⟩
  rw [lines, dropSeal, hp, lines, List.filter_map]
  rfl

theorem dropSeal_append {q r t : Text} (hq : Closed q) (hr : '\n' ∉ r)
    (h : ∀ l ∈ lines (r ++ (sep ++ t)), sealLine l = false) : dropSeal (q ++ r) = dropSeal q ++ r := by
  rw [dropSeal, pieces_append hq, List.filter_append, List.flatten_append]
  by_cases hne : r = []
  · simp [hne, pieces, dropSeal]
  have hline : r ++ (sep ++ t) = ((r ++ "---".toList) ++ ['\n']) ++ t := by simp [sep]
  have hfree : '\n' ∉ r ++ "---".toList := by simp [hr]
  have hstrip : stripCr (r ++ "---".toList) = r ++ "---".toList := by
    rw [stripCr, if_neg (by simp)]
  have hseal : sealLine (r ++ "---".toList) = false := by
    apply h
    rw [hline, lines_append (closed_concat _), lines_line hfree, hstrip]
    simp
  have hkeep : sealLine r = false := by
    rw [Bool.eq_false_iff]
    intro hs
    simp only [sealLine, Bool.or_eq_true, Bool.or_eq_false_iff] at hs hseal
    rcases hs with hs | hs
    · exact absurd (hasKey_append hs _) (by rw [hseal.1]; simp)
    · exact absurd (hasKey_append hs _) (by rw [hseal.2]; simp)
  have hlast : r.getLast? ≠ some '\n' := fun he => hr (List.mem_of_getLast? he)
  simp [pieces_free hr hne, chomp, hlast, hkeep, dropSeal]

theorem filter_plain {ls : List Text} (h : ∀ l ∈ ls, sealLine l = false) :
    ls.filter (fun l => !sealLine l) = ls := by
  rw [List.filter_eq_self]
  intro l hl
  rw [h l hl]
  rfl

theorem plain_signed {raw a fm body : Text} (h : Plain raw)
    (hs : splitn sep 3 (normalizeLf raw) = [a, fm, body]) :
    (lines (normalizeLf raw)).filter (fun l => !sealLine l) =
      lines ((a ++ sep) ++ (dropSeal fm ++ (sep ++ body))) := by
  obtain ⟨hfront, hrest⟩ := h a fm body hs
  have hq := rdropWhile_closed fm
  have hr := lastLine_free fm
  have hfm : fm = fm.rdropWhile (· ≠ '\n') ++ lastLine fm :=
    List.rdropWhile_append_rtakeWhile.symm
  generalize fm.rdropWhile (· ≠ '\n') = q at hfm hq
  generalize lastLine fm = r at hfm hr hrest
  subst hfm
  obtain ⟨hlines, hclosed⟩ := lines_dropSeal hq
  rw [splitn_three hs, dropSeal_append hq hr hrest]
  have hleft : a ++ (sep ++ (q ++ r ++ (sep ++ body))) = (a ++ sep) ++ (q ++ (r ++ (sep ++ body))) := by
    simp
  have hright : (a ++ sep) ++ (dropSeal q ++ r ++ (sep ++ body)) =
      (a ++ sep) ++ (dropSeal q ++ (r ++ (sep ++ body))) := by simp
  rw [hleft, hright, lines_append (closed_front a), lines_append hq, lines_append (closed_front a),
    lines_append hclosed, List.filter_append, List.filter_append, filter_plain hfront,
    filter_plain hrest, hlines]

/-! ## Accepted documents -/

variable {a b raw : Text}

theorem verify_ok_iff {id : Identity} {kind : PackageKind} :
    verifyArtifactMd id kind raw = .ok () ↔ 24 ≤ (utf8 (trim (normalizeLf raw))).length ∧
      contains "..".toList (normalizeLf raw) = false ∧
      ∃ a fm body, splitn sep 3 (normalizeLf raw) = [a, fm, body] ∧
        checkParts id kind (normalizeLf raw) fm body = .ok () := by
  simp only [verifyArtifactMd, unit_bind_ok, require_ok, decide_eq_true_eq, Bool.not_eq_true']
  refine and_congr_right fun _ => and_congr_right fun _ => ?_
  generalize splitn sep 3 (normalizeLf raw) = parts
  constructor
  · intro h
    split at h
    · next a fm body => exact ⟨a, fm, body, rfl, h⟩
    · cases h
  · rintro ⟨a, fm, body, rfl, h⟩
    exact h

theorem checkParts_ok_iff {id : Identity} {kind : PackageKind} {content fm body : Text} :
    checkParts id kind content fm body = .ok () ↔ (utf8 body).length ≤ 512*1024 ∧
      checkFields kind fm = .ok () ∧ checkOrigin fm = .ok () ∧ checkBody kind body = .ok () ∧
      checkSeal id content fm = .ok () := by
  simp only [checkParts, unit_bind_ok, require_ok, decide_eq_true_eq]

theorem checkSeal_ok_iff {id : Identity} {content fm : Text} :
    checkSeal id content fm = .ok () ↔
      ∃ hash, extractFmField fm contentHashKey = some hash ∧
        unquote hash = contentHash (bodyForSign content) ∧
        ∃ sig, signatureOf content = .ok (some sig) ∧
          id.verifyTrusted (utf8 (bodyForSign content)) sig = true := by
  simp only [checkSeal, checkSignatureContent, bind_ok, okOr_ok_iff]
  refine exists_congr fun hash => and_congr_right fun _ => ?_
  constructor
  · rintro ⟨_, hhash, good, ⟨sig, hsig, hgood⟩, hreq⟩
    obtain rfl := require_ok.mp hreq
    refine ⟨of_decide_eq_true (require_ok.mp hhash), ?_⟩
    cases sig with
    | none => simp at hgood
    | some sig => exact ⟨sig, hsig, Except.ok.inj hgood⟩
  · rintro ⟨hhash, sig, hsig, hgood⟩
    exact ⟨(), require_ok.mpr (decide_eq_true hhash), true,
      ⟨some sig, hsig, congrArg Except.ok hgood⟩, rfl⟩

theorem accepts_trusted {id : Identity} {kind : PackageKind} {sig : Bytes}
    (h : Accepts id kind raw sig) :
    id.verifyTrusted (utf8 (bodyForSign (normalizeLf raw))) sig = true := by
  obtain ⟨hv, hs⟩ := h
  obtain ⟨-, -, a, fm, body, -, hp⟩ := verify_ok_iff.mp hv
  obtain ⟨-, -, -, -, hseal⟩ := checkParts_ok_iff.mp hp
  obtain ⟨-, -, -, sig', hs', ht⟩ := checkSeal_ok_iff.mp hseal
  rw [hs] at hs'
  cases hs'
  exact ht

theorem utf8_injective (h : utf8 a = utf8 b) : a = b := by
  have ha := fromUtf8_utf8 a
  rw [h, fromUtf8_utf8] at ha
  exact (Option.some.inj ha).symm

theorem accepts_unsigned {id : Identity} {kind : PackageKind} {sig : Bytes}
    (h : Accepts id kind raw sig) (hp : Plain raw) :
    unsigned raw = some ((lines (normalizeLf raw)).filter fun l => !sealLine l) := by
  obtain ⟨-, -, a, fm, body, hs, -⟩ := verify_ok_iff.mp h.1
  rw [plain_signed hp hs, unsigned, hs]

theorem plain_same {id : Identity}
    (hu : ∀ sig m m', id.verifyTrusted m sig = true → id.verifyTrusted m' sig = true → m = m')
    {ka kb : PackageKind} {sig : Bytes} (ha : Accepts id ka a sig)
    (hb : Accepts id kb b sig) (hpa : Plain a) (hpb : Plain b) : unsigned a = unsigned b := by
  have hbody := utf8_injective (hu sig _ _ (accepts_trusted ha) (accepts_trusted hb))
  have hlines := unlines_injective
    (fun l hl => line_free (List.mem_of_mem_filter hl))
    (fun l hl => line_free (List.mem_of_mem_filter hl)) hbody
  rw [accepts_unsigned ha hpa, accepts_unsigned hb hpb, hlines]

/-! ## One more signature line -/

theorem hexByte_digits (b : UInt8) :
    hexByte (hexDigit (b.toNat/16)) (hexDigit (b.toNat%16)) = some b := by
  have hv : ∀ n < 16, hexValue (hexDigit n) = some n ∧ hexDigit n ≠ '+' := by decide +kernel
  have hb := b.toNat_lt
  have hx := hv (b.toNat/16) (by omega)
  have hy := hv (b.toNat%16) (by omega)
  have hsum : 16*(b.toNat/16)+b.toNat%16 = b.toNat := Nat.div_add_mod _ _
  rw [hexByte, if_neg hx.2, hx.1, hy.1]
  simp only [Option.bind_some, Option.map_some, hsum, UInt8.ofNat_toNat]

theorem hexDigits_size {c : Char} (h : c ∈ hexDigits) : c.utf8Size = 1 := by
  have hall : (hexDigits.all fun c => c.utf8Size = 1) = true := by decide
  simpa using List.all_eq_true.mp hall c h

theorem hexBytes_hexSignature (sig : Bytes) : hexBytes (hexSignature sig) = .ok (some sig) := by
  induction sig with
  | nil => rfl
  | cons b sig ih =>
    change hexBytes (hexDigit (b.toNat/16)::hexDigit (b.toNat%16)::hexSignature sig) = _
    rw [hexBytes, hexDigits_size (hexDigit_mem), hexDigits_size (hexDigit_mem),
      hexByte_digits b, ih]
    rfl

theorem hexBytes_length {t : Text} {bs : Bytes} (h : hexBytes t = .ok (some bs)) :
    (utf8 t).length = 2*bs.length := by
  induction t using hexBytes.induct generalizing bs with
  | case1 =>
    cases h
    rfl
  | case2 c hc => simp [hexBytes, hc] at h
  | case3 c hc => simp [hexBytes, hc] at h
  | case4 c d s hc => simp [hexBytes, hc] at h
  | case5 c d s hc hd => simp [hexBytes, hc, hd] at h
  | case6 c d s hc hd hb => simp [hexBytes, hc, hd, hb] at h
  | case7 c d s hc hd b hb ih =>
    simp only [hexBytes, hc, if_false, hd, hb] at h
    obtain ⟨cs, hcs, he⟩ := bind_ok.mp h
    cases cs with
    | none => cases he
    | some cs =>
      cases he
      simp only [not_or, not_not] at hd
      have := ih hcs
      simp only [utf8, List.flatMap_cons, List.length_append, String.length_utf8EncodeChar,
        List.length_cons] at this ⊢
      omega

def sealText (sig : Bytes) : Text := quoted signatureKey (hexSignature sig)

/-- The same document below a copy of its signature. -/
def companion (raw : Text) (sig : Bytes) : Text := (sealText sig ++ ['\n']) ++ raw

theorem sealText_end (sig : Bytes) :
    sealText sig = (signatureKey ++ (": \"".toList ++ hexSignature sig)) ++ ['"'] := by
  simp [sealText, quoted]

theorem trim_quote (ha : trimStart a = a) (hne : a ≠ []) :
    trim (a ++ (b ++ ['"'])) = a ++ (b ++ ['"']) := by
  rw [trim, trimStart_append (by rwa [ha]), ha, ← List.append_assoc]
  exact List.rdropWhile_concat_neg _ _ _ (by decide)

theorem fieldOf_sealText (sig : Bytes) :
    fieldOf signatureKey (sealText sig) = some (['"'] ++ (hexSignature sig ++ ['"'])) := by
  have hs : sealText sig = (signatureKey ++ [':']) ++ ([' '] ++ (['"'] ++ (hexSignature sig ++
      ['"']))) := by simp [sealText, quoted]
  have ht : trim (sealText sig) = sealText sig := by
    have := trim_quote (a := signatureKey) (b := ": \"".toList ++ hexSignature sig) (by decide)
      (by decide)
    simpa [sealText, quoted] using this
  have hd : (trim (sealText sig)).dropPrefix? (signatureKey ++ [':']) =
      some ([' '] ++ (['"'] ++ (hexSignature sig ++ ['"']))) := by
    rw [ht, hs]
    exact List.dropPrefix?_eq_some_iff.mpr ⟨_, rfl, by simp⟩
  have hspace : trimStart ([' '] ++ (['"'] ++ (hexSignature sig ++ ['"']))) =
      trimStart (['"'] ++ (hexSignature sig ++ ['"'])) := rfl
  rw [fieldOf, hd, Option.map_some, trim, hspace]
  exact congrArg some (trim_quote (by decide) (by decide))

theorem unquote_hex {sig : Bytes} (h : sig ≠ []) :
    unquote (['"'] ++ (hexSignature sig ++ ['"'])) = hexSignature sig := by
  rw [unquote, trim_quote (by decide) (by decide)]
  have hq : ∀ c ∈ hexSignature sig, c ≠ '"' :=
    fun c hc he => not_mem_hexSignature (c := '"') (by decide) sig (he ▸ hc)
  have hne : hexSignature sig ≠ [] := by
    cases sig with
    | nil => exact absurd rfl h
    | cons b sig => simp [hexSignature]
  obtain ⟨c, t, hct⟩ := List.exists_cons_of_ne_nil hne
  have hdrop : (['"'] ++ (hexSignature sig ++ ['"'])).dropWhile (· == '"') =
      hexSignature sig ++ ['"'] := by
    have hc : c ≠ '"' := hq c (by simp [hct])
    rw [hct]
    simp [hc]
  rw [trimMatches, hdrop, NeuralOs.Delimited.trimEndMatches_concat,
    NeuralOs.Delimited.trimEndMatches_eq_self_iff]
  exact fun hl => hq _ (List.mem_of_getLast? hl) rfl

theorem trim_hexSignature (sig : Bytes) : trim (hexSignature sig) = hexSignature sig := by
  have hw : ∀ c ∈ hexSignature sig, isWhitespace c = false := by
    intro c hc
    have hall : (hexDigits.all fun c => !isWhitespace c) = true := by decide
    by_contra hn
    refine not_mem_hexSignature (fun hm => hn ?_) sig hc
    simpa using List.all_eq_true.mp hall c hm
  rw [trim, trimStart, List.dropWhile_eq_self_iff.mpr, List.rdropWhile_eq_self_iff]
  · intro hl
    simp [hw _ (List.getLast_mem hl)]
  · intro hl
    simp [hw _ (List.getElem_mem _)]

theorem signature_length {content : Text} {sig : Bytes}
    (h : signatureOf content = .ok (some sig)) : sig.length = 64 := by
  unfold signatureOf at h
  split at h
  · cases h
  unfold parseHexSig at h
  split at h
  · cases h
  · next hl =>
    have := hexBytes_length h
    omega

theorem sealText_free {c : Char} (hc : c ∉ hexDigits) (hk : c ∉ signatureKey)
    (hq : c ∉ ": \"".toList) (sig : Bytes) : c ∉ sealText sig :=
  not_mem_quoted hk (not_mem_hexSignature hc sig) hq

theorem lines_sealText (sig : Bytes) (s : Text) :
    lines ((sealText sig ++ ['\n']) ++ s) = sealText sig::lines s := by
  have hfree := sealText_free (c := '\n') (by decide) (by decide) (by decide) sig
  have hlast : (sealText sig).getLast? ≠ some '\r' := by
    rw [sealText_end, List.getLast?_concat]
    decide
  rw [lines_append (closed_concat _), lines_line hfree, stripCr, if_neg hlast]
  rfl

theorem normalizeLf_companion (raw : Text) (sig : Bytes) :
    normalizeLf (companion raw sig) = (sealText sig ++ ['\n']) ++ normalizeLf raw := by
  have hfree := sealText_free (c := '\n') (by decide) (by decide) (by decide) sig
  have hlast : (sealText sig).getLast? ≠ some '\r' := by
    rw [sealText_end, List.getLast?_concat]
    decide
  rw [companion, normalizeLf_line hfree, stripCr, if_neg hlast]

theorem signatureOf_sealText {sig : Bytes} (hl : sig.length = 64) (s : Text) :
    signatureOf ((sealText sig ++ ['\n']) ++ s) = .ok (some sig) := by
  have hx : extractFmField ((sealText sig ++ ['\n']) ++ s) signatureKey =
      some (['"'] ++ (hexSignature sig ++ ['"'])) := by
    rw [extractFmField, lines_sealText, List.findSome?_cons, fieldOf_sealText]
  have hbytes := hexBytes_hexSignature sig
  have hlen := hexBytes_length hbytes
  rw [signatureOf, hx]
  simp only
  rw [unquote_hex (by intro he; simp [he] at hl), parseHexSig, trim_hexSignature,
    if_neg (by omega), hbytes]

theorem sealLine_sealText (sig : Bytes) : sealLine (sealText sig) = true := by
  have hk : hasKey signatureKey (sealText sig) = true := by
    have hs : sealText sig = (signatureKey ++ [':']) ++ (" \"".toList ++ (hexSignature sig ++ ['"'])) := by
      simp [sealText, quoted]
    rw [hasKey_iff, hs, trimStart_append (by decide)]
    exact List.prefix_append _ _
  rw [sealLine, hk]
  rfl

theorem bodyForSign_sealText (sig : Bytes) (s : Text) :
    bodyForSign ((sealText sig ++ ['\n']) ++ s) = bodyForSign s := by
  rw [bodyForSign, lines_sealText, List.filter_cons_of_neg (by simp [sealLine_sealText])]
  rfl

theorem trim_sealText {sig : Bytes} (hl : sig.length = 64) (s : Text) :
    24 ≤ (utf8 (trim ((sealText sig ++ ['\n']) ++ s))).length := by
  have hpre : sealText sig <+: trim ((sealText sig ++ ['\n']) ++ s) := by
    have hstart : trimStart ((sealText sig ++ ['\n']) ++ s) = (sealText sig ++ ['\n']) ++ s := by
      have hs : (sealText sig ++ ['\n']) ++ s = signatureKey ++ (": \"".toList ++
          (hexSignature sig ++ (['"', '\n'] ++ s))) := by simp [sealText, quoted]
      rw [hs, trimStart_append (by decide)]
      rfl
    rw [sealText_end, prefix_trim_iff (by decide), ← sealText_end, hstart, List.append_assoc]
    exact List.prefix_append _ _
  have hlen : 24 ≤ (sealText sig).length := by
    have hhex : (hexSignature sig).length = 128 := by simp [hexSignature, hl]
    simp [sealText, quoted, hhex]
  exact hlen.trans (hpre.length_le.trans (NeuralOs.Bpe.length_le_utf8 _))

theorem companion_accepts {id : Identity} {kind : PackageKind} {sig : Bytes}
    (h : Accepts id kind raw sig) : Accepts id kind (companion raw sig) sig := by
  have hl := signature_length h.2
  have ht := accepts_trusted h
  obtain ⟨-, hdots, a, fm, body, hs, hp⟩ := verify_ok_iff.mp h.1
  obtain ⟨hsize, hfields, horigin, hbody, hseal⟩ := checkParts_ok_iff.mp hp
  obtain ⟨hash, hx, hh, -⟩ := checkSeal_ok_iff.mp hseal
  have hsig := signatureOf_sealText hl (normalizeLf raw)
  rw [Accepts, verify_ok_iff, normalizeLf_companion]
  refine ⟨⟨trim_sealText hl _, ?_, (sealText sig ++ ['\n']) ++ a, fm, body, ?_, ?_⟩, hsig⟩
  · have hfree : '.' ∉ sealText sig ++ ['\n'] := by
      simp [sealText_free (c := '.') (by decide) (by decide) (by decide) sig]
    have hafter := after_free (p := ['.']) hfree (normalizeLf raw)
    rw [contains] at hdots ⊢
    exact (congrArg Option.isSome hafter).trans hdots
  · have hfree : '-' ∉ sealText sig ++ ['\n'] := by
      simp [sealText_free (c := '-') (by decide) (by decide) (by decide) sig]
    exact splitn_free (p := "--\n".toList) hfree hs
  · refine checkParts_ok_iff.mpr ⟨hsize, hfields, horigin, hbody, checkSeal_ok_iff.mpr
      ⟨hash, hx, ?_, sig, hsig, ?_⟩⟩
    · rw [bodyForSign_sealText, hh]
    · rw [bodyForSign_sealText, ht]

theorem companion_unsigned {id : Identity} {kind : PackageKind} {sig : Bytes}
    (h : Accepts id kind raw sig) : unsigned (companion raw sig) ≠ unsigned raw := by
  obtain ⟨-, -, a, fm, body, hs, -⟩ := verify_ok_iff.mp h.1
  have hfree : '-' ∉ sealText sig ++ ['\n'] := by
    simp [sealText_free (c := '-') (by decide) (by decide) (by decide) sig]
  have hs' : splitn sep 3 (normalizeLf (companion raw sig)) =
      [(sealText sig ++ ['\n']) ++ a, fm, body] := by
    rw [normalizeLf_companion]
    exact splitn_free (p := "--\n".toList) hfree hs
  rw [unsigned, unsigned, hs, hs']
  simp only [ne_eq, Option.some.injEq, List.append_assoc]
  rw [← List.append_assoc (sealText sig), lines_sealText]
  exact List.cons_ne_self _ _

/-- If a signature verifies for at most one message, it belongs to one document
among those with hash and signature lines in their frontmatter only. Every accepted
document has another one with the same signature. -/
theorem signature_covers_plain (id : Identity)
    (hu : ∀ sig m m', id.verifyTrusted m sig = true → id.verifyTrusted m' sig = true → m = m') :
    (∀ ka kb a b sig, Accepts id ka a sig → Accepts id kb b sig → Plain a → Plain b →
      unsigned a = unsigned b) ∧
    ∀ kind a sig, Accepts id kind a sig →
      ∃ b, Accepts id kind b sig ∧ unsigned b ≠ unsigned a :=
  ⟨fun _ _ _ _ _ ha hb hpa hpb => plain_same hu ha hb hpa hpb,
    fun _ a sig h => ⟨companion a sig, companion_accepts h, companion_unsigned h⟩⟩

/-! ## A document and its companions -/

def sampleDoc : Text :=
  "---\nschema: 1\nkind: skill\n".toList ++ "name: t\ngoal: g\ncontexto: c\n".toList ++
  "acionaveis: [on_demand]\n".toList ++ "required_tokens: [1]\n".toList ++
  "provenance: hermes_created\n".toList ++ "sandbox_status: none\n".toList ++
  "content_hash: \"27ee35e73a12a8a6\"\n".toList ++ "signature: \"".toList ++
  List.replicate 128 '0' ++ "\"\n---\n## Contexto\n## Goal\n".toList ++
  "## Acionaveis\n## Workflow\n".toList ++ "## Pre-Flight\n## Success Criteria\n".toList ++
  "## Failure Policy\n".toList

def tamperedDoc : Text := sampleDoc ++ "signature: evil\n".toList

def sampleSig : Bytes := List.replicate 64 0

def sampleId : Identity where
  signSession _ := some sampleSig
  verifyTrusted m _ := m = utf8 (bodyForSign sampleDoc)

theorem sampleId_unforgeable (sig m m' : Bytes) (h : sampleId.verifyTrusted m sig = true)
    (h' : sampleId.verifyTrusted m' sig = true) : m = m' :=
  (of_decide_eq_true h).trans (of_decide_eq_true h').symm

theorem samples_accepted :
    Accepts sampleId .skill sampleDoc sampleSig ∧ Accepts sampleId .skill tamperedDoc sampleSig ∧
      unsigned tamperedDoc ≠ unsigned sampleDoc := by
  decide +kernel

theorem tampered_body_accepted :
    (∀ sig m m', sampleId.verifyTrusted m sig = true → sampleId.verifyTrusted m' sig = true →
      m = m') ∧
    Accepts sampleId .skill sampleDoc sampleSig ∧ Accepts sampleId .skill tamperedDoc sampleSig ∧
      unsigned tamperedDoc ≠ unsigned sampleDoc :=
  ⟨sampleId_unforgeable, samples_accepted⟩

def crlfDoc : Text := sampleDoc.flatMap fun c => if c = '\n' then ['\r', '\n'] else [c]

theorem crlf_accepted : Accepts sampleId .skill crlfDoc sampleSig ∧
    normalizeLf crlfDoc = normalizeLf sampleDoc := by
  decide +kernel

theorem plain_sample : Plain sampleDoc := by
  intro a fm body h
  have hlines : (∀ l ∈ lines ((splitn sep 3 (normalizeLf sampleDoc)).getD 0 [] ++ sep),
        sealLine l = false) ∧
      ∀ l ∈ lines (lastLine ((splitn sep 3 (normalizeLf sampleDoc)).getD 1 []) ++
        (sep ++ (splitn sep 3 (normalizeLf sampleDoc)).getD 2 [])), sealLine l = false := by
    decide +kernel
  rwa [h] at hlines

theorem sample_signature_shared : unsigned crlfDoc = unsigned sampleDoc ∧
    ∃ b, Accepts sampleId .skill b sampleSig ∧ unsigned b ≠ unsigned sampleDoc := by
  obtain ⟨hcrlf, hsame⟩ := crlf_accepted
  have hplain : Plain crlfDoc := by
    rw [Plain, hsame]
    exact plain_sample
  have h := signature_covers_plain sampleId sampleId_unforgeable
  exact ⟨h.1 _ _ _ _ _ hcrlf samples_accepted.1 hplain plain_sample, h.2 _ _ _ samples_accepted.1⟩

end NeuralOs.Hermes.PackageHub
