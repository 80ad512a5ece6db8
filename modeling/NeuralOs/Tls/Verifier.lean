import NeuralOs.Lib.BoundedLog
import NeuralOs.Lib.TextScan
import NeuralOs.Bpe.RoundTrip
import NeuralOs.Lib.Machine

/-!
# Handshakes against the pin table

A handshake names its host, shows a certificate and then signs the transcript. The
certificate step compares the leaf with the pin of the host or learns a new pin and
saves the table; the signature is checked after that. Digests, keys and signatures
are parameters.
-/

set_option autoImplicit false

namespace NeuralOs.Tls
open ByteString BoundedLog
open TextScan (Text)
open Bpe (utf8 fromUtf8 fromUtf8_utf8 length_le_utf8)

def maxEntries : ℕ := 16
def hostMax : ℕ := 64
def pinMagic : Bytes := [0x54, 0x4C, 0x53, 0x50]
def pinVersion : UInt8 := 1

abbrev Fingerprint := Vector UInt8 32

structure PinEntry where
  host : Text
  fp : Fingerprint
  known : Bool
  deriving DecidableEq

def Storable (host : Text) : Prop := utf8 host ≠ [] ∧ (utf8 host).length ≤ hostMax

instance (host : Text) : Decidable (Storable host) := by unfold Storable; infer_instance

theorem storable_of_ne_nil {host : Text} (hne : host ≠ [])
    (hlen : (utf8 host).length ≤ hostMax) : Storable host := by
  refine ⟨?_, hlen⟩
  intro hnil
  have hshort := length_le_utf8 host
  rw [hnil] at hshort
  exact hne (List.length_eq_zero_iff.mp (Nat.le_zero.mp hshort))

/-- Entries are filled from the front and never removed. -/
@[ext] structure PinTable where
  entries : List PinEntry
  storable : ∀ e ∈ entries, Storable e.host
  distinct : (entries.map PinEntry.host).Nodup
  bounded : entries.length ≤ maxEntries

theorem modifyFirst_hosts (p : PinEntry → Bool) (fp : Fingerprint) (known : Bool)
    (l : List PinEntry) : (modifyFirst p (fun e => ⟨e.host, fp, known⟩) l).map PinEntry.host =
      l.map PinEntry.host := by
  induction l with
  | nil => rfl
  | cons e l ih =>
    rw [modifyFirst]
    split
    · rfl
    · rw [List.map_cons, List.map_cons, ih]

namespace PinTable

def new : PinTable := ⟨[], by simp, by simp, by simp⟩

variable (t : PinTable)

def lookup (host : Text) : Option Fingerprint :=
  (t.entries.find? fun e => e.host = host).map PinEntry.fp

def replace (host : Text) (fp : Fingerprint) (known : Bool) : PinTable where
  entries := modifyFirst (fun e => e.host = host) (fun e => ⟨e.host, fp, known⟩) t.entries
  storable := by
    intro e he
    have hmem : e.host ∈ t.entries.map PinEntry.host := by
      rw [← modifyFirst_hosts (fun e => e.host = host) fp known]
      exact List.mem_map_of_mem he
    obtain ⟨d, hd, hhost⟩ := List.mem_map.mp hmem
    exact hhost ▸ t.storable d hd
  distinct := by
    rw [modifyFirst_hosts]
    exact t.distinct
  bounded := by
    rw [modifyFirst_length]
    exact t.bounded

def add (host : Text) (fp : Fingerprint) (known : Bool) (hhost : Storable host)
    (hfresh : host ∉ t.entries.map PinEntry.host) (hroom : t.entries.length < maxEntries) :
    PinTable where
  entries := t.entries ++ [⟨host, fp, known⟩]
  storable := by
    intro e he
    rcases List.mem_append.mp he with he | he
    · exact t.storable e he
    · rw [List.mem_singleton.mp he]
      exact hhost
  distinct := by
    rw [List.map_append, List.map_singleton, List.nodup_append]
    refine ⟨t.distinct, List.nodup_singleton _, ?_⟩
    intro a ha b hb heq
    rw [heq, List.mem_singleton.mp hb] at ha
    exact hfresh ha
  bounded := by
    rw [List.length_append]
    exact hroom

instance decidablePinned (host : Text) : Decidable (host ∈ t.entries.map PinEntry.host) :=
  decidable_of_iff (∃ e ∈ t.entries, e.host = host) List.mem_map.symm

def store (host : Text) (fp : Fingerprint) (known : Bool) : PinTable × Bool :=
  if hhost : Storable host then
    if hpinned : host ∈ t.entries.map PinEntry.host then (t.replace host fp known, true)
    else if hroom : t.entries.length < maxEntries then
      (t.add host fp known hhost hpinned hroom, true)
    else (t, false)
  else (t, false)

def hostBytes (e : PinEntry) : Bytes :=
  UInt8.ofNat (utf8 e.host).length ::
    (utf8 e.host ++ zeros (hostMax - (utf8 e.host).length))

def entryBytes (e : PinEntry) : Bytes :=
  hostBytes e ++ (e.fp.toList ++ [if e.known then 1 else 0])

def serialize : Bytes :=
  pinMagic ++ pinVersion :: UInt8.ofNat t.entries.length :: t.entries.flatMap entryBytes

def entrySize : ℕ := 1+hostMax+32+1

def toFingerprint (b : Bytes) : Fingerprint := Vector.ofFn fun i => b.getD i 0

def loadEntries (t : PinTable) (loaded : ℕ) : ℕ → Bytes → PinTable × ℕ
  | 0, _ => (t, loaded)
  | n+1, rest =>
    if rest.length < entrySize then (t, loaded)
    else
      let hostLen := (rest.getD 0 0).toNat
      if hostLen = 0 ∨ hostLen > hostMax then (t, loaded)
      else
        let host := (fromUtf8 (slice rest 1 hostLen)).getD []
        let r := t.store host (toFingerprint (slice rest (1+hostMax) 32))
          (rest.getD (1+hostMax+32) 0 ≠ 0)
        loadEntries r.1 (if r.2 then loaded+1 else loaded) n (rest.drop entrySize)

def loadBytes (data : Bytes) : PinTable × ℕ :=
  if data.length < 6 ∨ data.take 4 ≠ pinMagic ∨ data.getD 4 0 ≠ pinVersion then (t, 0)
  else loadEntries t 0 (min (data.getD 5 0).toNat maxEntries) (data.drop 6)

end PinTable

/-! ## Looking up and storing -/

section store
variable {t : PinTable} {host : Text}

theorem lookup_eq_none_iff : t.lookup host = none ↔ host ∉ t.entries.map PinEntry.host := by
  simp [PinTable.lookup]

theorem lookup_eq_some_iff {fp : Fingerprint} :
    t.lookup host = some fp ↔ ∃ e ∈ t.entries, e.host = host ∧ e.fp = fp := by
  rw [PinTable.lookup, Option.map_eq_some_iff]
  constructor
  · rintro ⟨e, he, hfp⟩
    exact ⟨e, List.mem_of_find?_eq_some he, by simpa using List.find?_some he, hfp⟩
  rintro ⟨e, he, hhost, hfp⟩
  cases hfind : t.entries.find? fun e => e.host = host with
  | none => exact absurd hhost (by simpa using List.find?_eq_none.mp hfind e he)
  | some d =>
    have hd := List.mem_of_find?_eq_some hfind
    have hsame : d.host = e.host := by
      rw [hhost]
      simpa using List.find?_some hfind
    exact ⟨d, rfl, List.inj_on_of_nodup_map t.distinct hd he hsame ▸ hfp⟩

theorem store_fresh (hfresh : host ∉ t.entries.map PinEntry.host) (fp : Fingerprint)
    (known : Bool) :
    (Storable host ∧ t.entries.length < maxEntries ∧ (t.store host fp known).2 = true ∧
        (t.store host fp known).1.entries = t.entries ++ [⟨host, fp, known⟩]) ∨
      (¬ (Storable host ∧ t.entries.length < maxEntries) ∧
        t.store host fp known = (t, false)) := by
  unfold PinTable.store
  by_cases hhost : Storable host
  · by_cases hroom : t.entries.length < maxEntries
    · left
      simp [hhost, hfresh, hroom, PinTable.add]
    · right
      simp [hhost, hfresh, hroom]
  · right
    simp [hhost]

end store

/-! ## Saving and reading back -/

theorem hostBytes_length {e : PinEntry} (h : Storable e.host) :
    (PinTable.hostBytes e).length = 1+hostMax := by
  have hlen := h.2
  simp [PinTable.hostBytes]
  omega

theorem entryBytes_length {e : PinEntry} (h : Storable e.host) :
    (PinTable.entryBytes e).length = PinTable.entrySize := by
  simp [PinTable.entryBytes, hostBytes_length h, PinTable.entrySize]

theorem toFingerprint_toList (fp : Fingerprint) : PinTable.toFingerprint fp.toList = fp := by
  apply Vector.ext
  intro i hi
  simp [PinTable.toFingerprint]

section load
variable {e : PinEntry} (rest : Bytes)

theorem entry_host :
    slice (PinTable.entryBytes e ++ rest) 1 (utf8 e.host).length = utf8 e.host := by
  simp [PinTable.entryBytes, PinTable.hostBytes, slice]

variable (h : Storable e.host)
include h

theorem entry_hostLen :
    ((PinTable.entryBytes e ++ rest).getD 0 0).toNat = (utf8 e.host).length := by
  have hlen := h.2
  have hsmall : (utf8 e.host).length < 2^8 := lt_of_le_of_lt hlen (by decide)
  simpa [PinTable.entryBytes, PinTable.hostBytes] using Nat.mod_eq_of_lt hsmall

theorem entry_fingerprint : slice (PinTable.entryBytes e ++ rest) (1+hostMax) 32 = e.fp.toList := by
  rw [PinTable.entryBytes, List.append_assoc, List.append_assoc]
  exact slice_at _ _ _ (hostBytes_length h).symm (by simp)

theorem entry_known :
    decide ((PinTable.entryBytes e ++ rest).getD (1+hostMax+32) 0 ≠ 0) = e.known := by
  have hat : 1+hostMax+32 = (PinTable.hostBytes e ++ e.fp.toList).length := by
    simp [hostBytes_length h]
  rw [PinTable.entryBytes, ← List.append_assoc, List.append_assoc, hat,
    List.getD_append_right _ _ _ _ (Nat.le_refl _), Nat.sub_self]
  cases e.known <;> simp

theorem loadEntries_entry (t : PinTable) (loaded n : ℕ) :
    PinTable.loadEntries t loaded (n+1) (PinTable.entryBytes e ++ rest) =
      PinTable.loadEntries (t.store e.host e.fp e.known).1
        (if (t.store e.host e.fp e.known).2 then loaded+1 else loaded) n rest := by
  have hlong : ¬ (PinTable.entryBytes e ++ rest).length < PinTable.entrySize := by
    rw [List.length_append, entryBytes_length h]
    omega
  have hpos : (utf8 e.host).length ≠ 0 := by
    simpa using h.1
  have hfit : ¬ ((utf8 e.host).length = 0 ∨ (utf8 e.host).length > hostMax) := by
    rintro (hzero | hbig)
    · exact hpos hzero
    · exact absurd h.2 (not_le.mpr hbig)
  have hdrop : (PinTable.entryBytes e ++ rest).drop PinTable.entrySize = rest := by
    rw [← entryBytes_length h, List.drop_left]
  rw [PinTable.loadEntries, if_neg hlong]
  simp only [entry_hostLen rest h, if_neg hfit, entry_host, fromUtf8_utf8, Option.getD_some,
    entry_fingerprint rest h, toFingerprint_toList, entry_known rest h, hdrop]

end load

theorem loadEntries_all {t : PinTable} {es : List PinEntry} {acc : PinTable}
    (hes : acc.entries ++ es = t.entries) (loaded : ℕ) :
    PinTable.loadEntries acc loaded es.length (es.flatMap PinTable.entryBytes) =
      (t, loaded+es.length) := by
  induction es generalizing acc loaded with
  | nil =>
    have hacc : acc = t := PinTable.ext (by simpa using hes)
    simp [PinTable.loadEntries, hacc]
  | cons e es ih =>
    have hmem : e ∈ t.entries := by simp [← hes]
    have hfresh : e.host ∉ acc.entries.map PinEntry.host := by
      have hdistinct := t.distinct
      rw [← hes, List.map_append, List.map_cons, List.nodup_append] at hdistinct
      intro hin
      exact hdistinct.2.2 _ hin _ List.mem_cons_self rfl
    have hroom : acc.entries.length < maxEntries := by
      have hbound := t.bounded
      rw [← hes, List.length_append, List.length_cons] at hbound
      omega
    rw [List.flatMap_cons, List.length_cons, loadEntries_entry _ (t.storable e hmem)]
    rcases store_fresh hfresh e.fp e.known with hstored | hrefused
    · obtain ⟨-, -, htrue, hentries⟩ := hstored
      rw [htrue, if_pos rfl, ih (by rw [hentries, ← hes, List.append_assoc]; rfl)]
      congr 1
      omega
    · exact absurd ⟨t.storable e hmem, hroom⟩ hrefused.1

theorem load_serialize (t : PinTable) :
    PinTable.new.loadBytes t.serialize = (t, t.entries.length) := by
  have hsmall := t.bounded
  have hcount : (t.serialize.getD 5 0).toNat = t.entries.length := by
    have hbyte : t.entries.length < 2^8 := lt_of_le_of_lt hsmall (by decide)
    simpa [PinTable.serialize, pinMagic] using Nat.mod_eq_of_lt hbyte
  have hhead : ¬ (t.serialize.length < 6 ∨ t.serialize.take 4 ≠ pinMagic ∨
      t.serialize.getD 4 0 ≠ pinVersion) := by
    simp [PinTable.serialize, pinMagic]
  have hrest : t.serialize.drop 6 = t.entries.flatMap PinTable.entryBytes := by
    simp [PinTable.serialize, pinMagic]
  rw [PinTable.loadBytes, if_neg hhead, hcount, hrest, Nat.min_eq_left hsmall]
  have hes : PinTable.new.entries ++ t.entries = t.entries := rfl
  simpa using loadEntries_all hes 0

/-! ## Handshakes against the pin table -/
open TextScan (isWhitespace trimStart trim)
open Delimited (trimEndMatches)

inductive TlsError
  | invalidCertificate
  | insufficientSpace
  | outOfMemory
  | invalidSignature
  deriving DecidableEq

inductive CertificateEntry
  | x509 (der : Bytes)
  | rawPublicKey (key : Bytes)
  deriving DecidableEq

/-- What the handshake needs of the cryptography: the key of a leaf in either
form, and whether a key accepts a signature of a message. -/
structure Crypto where
  sha256 : Bytes → Fingerprint
  extractP256Sec1 : Bytes → Option Bytes
  extractRsaNe : Bytes → Option (ℕ × ℕ)
  ecdsa : Bytes → Bytes → Bytes → Bool
  rsaPss : ℕ × ℕ → Bytes → Bytes → Bool

/-! ## Names of hosts -/

def asciiLower (b : UInt8) : UInt8 := if 65 ≤ b ∧ b ≤ 90 then b+32 else b

def eqIgnoreAscii (a b : Text) : Bool :=
  (utf8 a).length = (utf8 b).length &&
    ((utf8 a).zip (utf8 b)).all fun p => asciiLower p.1 = asciiLower p.2

def bareName (host : Text) : Text := trimEndMatches '.' (trim host)

def knownHosts : List Text :=
  ["www.google.com".toList, "google.com".toList, "example.com".toList, "www.example.com".toList]

def isKnownHost (host : Text) : Bool := knownHosts.any fun k => eqIgnoreAscii (bareName host) k

/-! ## The verifier -/

structure PinStore where
  pins : PinTable
  persisted : Option Bytes

structure HybridVerifier where
  host : Text
  transcript : Option Bytes
  leafSec1 : Option Bytes
  leafDer : Option Bytes

def HybridVerifier.new : HybridVerifier := ⟨[], none, none, none⟩

def leafDer : List CertificateEntry → Except TlsError Bytes
  | .x509 der::_ => if der = [] then .error .invalidCertificate else .ok der
  | _ => .error .invalidCertificate

def setHostnameVerification (v : HybridVerifier) (hostname : Text) :
    Except TlsError HybridVerifier :=
  if (utf8 hostname).length > hostMax then .error .insufficientSpace
  else .ok { v with host := hostname }

def persistPins (s : PinStore) : PinStore := { s with persisted := some s.pins.serialize }

def certverifyContext : Bytes := utf8 "TLS 1.3, server CertificateVerify".toList ++ [0]

/-- The message that is signed; `transcript` is the digest of the transcript. -/
def tls13CertverifyMsg (transcript : Bytes) : Bytes :=
  List.replicate 64 0x20 ++ certverifyContext ++ transcript

variable (C : Crypto)

def checkPin (s : PinStore) (host : Text) (fp : Fingerprint) : PinStore × Except TlsError Unit :=
  match s.pins.lookup host with
  | some stored => if stored = fp then (s, .ok ()) else (s, .error .invalidCertificate)
  | none =>
    let r := s.pins.store host fp (isKnownHost host)
    if r.2 then (persistPins { s with pins := r.1 }, .ok ())
    else ({ s with pins := r.1 }, .error .outOfMemory)

def verifyCertificate (v : HybridVerifier) (s : PinStore) (transcript : Bytes)
    (cert : List CertificateEntry) : (HybridVerifier × PinStore) × Except TlsError Unit :=
  match leafDer cert with
  | .error e => ((v, s), .error e)
  | .ok der =>
    if v.host = [] then ((v, s), .error .invalidCertificate)
    else
      let r := checkPin s v.host (C.sha256 der)
      (({ v with
          transcript := some transcript
          leafSec1 := C.extractP256Sec1 der
          leafDer := some der }, r.1), r.2)

def ecdsaScheme : ℕ := 0x0403
def rsaPssScheme : ℕ := 0x0804

def passes (b : Bool) : Except TlsError Unit := if b then .ok () else .error .invalidSignature

def verifyEcdsa (v : HybridVerifier) (msg signature : Bytes) :
    HybridVerifier × Except TlsError Unit :=
  match v.leafSec1 with
  | none => (v, .error .invalidSignature)
  | some sec1 => ({ v with leafSec1 := none }, passes (C.ecdsa sec1 signature msg))

def verifyRsaPss (v : HybridVerifier) (msg signature : Bytes) :
    HybridVerifier × Except TlsError Unit :=
  match v.leafDer with
  | none => (v, .error .invalidSignature)
  | some der =>
    match C.extractRsaNe der with
    | none => ({ v with leafDer := none }, .error .invalidSignature)
    | some key => ({ v with leafDer := none }, passes (C.rsaPss key signature msg))

def verifySignature (v : HybridVerifier) (scheme : ℕ) (signature : Bytes) :
    HybridVerifier × Except TlsError Unit :=
  if scheme ≠ ecdsaScheme ∧ scheme ≠ rsaPssScheme then (v, .error .invalidSignature)
  else match v.transcript with
    | none => (v, .error .invalidSignature)
    | some transcript =>
      if scheme = ecdsaScheme then
        verifyEcdsa C { v with transcript := none } (tls13CertverifyMsg transcript) signature
      else verifyRsaPss C { v with transcript := none } (tls13CertverifyMsg transcript) signature

/-! ## Handshakes and restarts -/

structure Handshake where
  hostname : Text
  transcript : Bytes
  cert : List CertificateEntry
  scheme : ℕ
  signature : Bytes

/-- The certificate step of a handshake, unless naming the host failed. -/
def certificateStep (s : PinStore) (h : Handshake) :
    (HybridVerifier × PinStore) × Except TlsError Unit :=
  match setHostnameVerification .new h.hostname with
  | .error e => ((.new, s), .error e)
  | .ok v => verifyCertificate C v s h.transcript h.cert

/-- The signature step, unless an earlier step failed. -/
def signatureStep (v : HybridVerifier) (h : Handshake) : Except TlsError Unit → Except TlsError Unit
  | .error e => .error e
  | .ok () => (verifySignature C v h.scheme h.signature).2

def handshake (s : PinStore) (h : Handshake) : PinStore × Except TlsError Unit :=
  let r := certificateStep C s h
  (r.1.2, signatureStep C r.1.1 h r.2)

def restart (s : PinStore) : PinStore :=
  match s.persisted with
  | none => ⟨.new, none⟩
  | some data => ⟨(PinTable.new.loadBytes data).1, some data⟩

inductive Action
  | handshake (h : Handshake)
  | restart

def exec (s : PinStore) : Action → PinStore
  | .handshake h => (handshake C s h).1
  | .restart => restart s

def PinStore.init : PinStore := ⟨.new, none⟩

/-! ## What a handshake does to the pins -/

def presented (h : Handshake) : Option (Text × Fingerprint) :=
  match leafDer h.cert with
  | .error _ => none
  | .ok der => if Storable h.hostname then some (h.hostname, C.sha256 der) else none

def holding (h : Handshake) (der : Bytes) : HybridVerifier :=
  ⟨h.hostname, some h.transcript, C.extractP256Sec1 der, some der⟩

def accepted (r : Except TlsError Unit) : Bool :=
  match r with
  | .ok () => true
  | .error _ => false

def signed (h : Handshake) : Bool :=
  match leafDer h.cert with
  | .error _ => false
  | .ok der => accepted (verifySignature C (holding C h der) h.scheme h.signature).2

def learn (s : PinStore) (host : Text) (fp : Fingerprint) : PinStore :=
  persistPins { s with pins := (s.pins.store host fp (isKnownHost host)).1 }

def Learns (s : PinStore) (host : Text) : Prop :=
  s.pins.lookup host = none ∧ s.pins.entries.length < maxEntries

variable {s : PinStore}

theorem checkPin_learns {host : Text} (hhost : Storable host)
    (h : Learns s host) (fp : Fingerprint) :
    checkPin s host fp = (learn s host fp, .ok ()) ∧ (learn s host fp).pins.entries =
      s.pins.entries ++ [⟨host, fp, isKnownHost host⟩] := by
  rcases store_fresh (lookup_eq_none_iff.mp h.1) fp (isKnownHost host) with hstored | hrefused
  · obtain ⟨-, -, htrue, hentries⟩ := hstored
    refine ⟨?_, hentries⟩
    simp [checkPin, h.1, htrue, learn]
  · exact absurd ⟨hhost, h.2⟩ hrefused.1

theorem checkPin_keeps {host : Text} (h : ¬ Learns s host) (fp : Fingerprint) :
    (checkPin s host fp).1 = s ∧
      (accepted (checkPin s host fp).2 = true ↔ s.pins.lookup host = some fp) := by
  unfold checkPin
  cases hpin : s.pins.lookup host with
  | some stored =>
    by_cases hsame : stored = fp
    · simp [hsame, accepted]
    · simp [hsame, accepted]
  | none =>
    rcases store_fresh (lookup_eq_none_iff.mp hpin) fp (isKnownHost host) with hstored | hrefused
    · exact absurd ⟨hpin, hstored.2.1⟩ h
    · simp [hrefused.2, accepted]

theorem presented_storable {C : Crypto} {h : Handshake} {p : Text × Fingerprint}
    (hp : presented C h = some p) : Storable p.1 := by
  unfold presented at hp
  split at hp
  · cases hp
  split at hp
  next hhost =>
    cases hp
    exact hhost
  next => cases hp

theorem handshake_presented {h : Handshake} {p : Text × Fingerprint} (hp : presented C h = some p) :
    (handshake C s h).1 = (checkPin s p.1 p.2).1 ∧
      (certificateStep C s h).2 = (checkPin s p.1 p.2).2 ∧
      accepted (handshake C s h).2 = (accepted (checkPin s p.1 p.2).2 && signed C h) := by
  unfold presented at hp
  cases hleaf : leafDer h.cert with
  | error e =>
    rw [hleaf] at hp
    cases hp
  | ok der =>
    rw [hleaf] at hp
    dsimp only at hp
    split at hp
    next hhost =>
      cases hp
      have hset : setHostnameVerification .new h.hostname =
          .ok ⟨h.hostname, none, none, none⟩ := by
        rw [setHostnameVerification, if_neg (not_lt.mpr hhost.2)]
        rfl
      have hne : h.hostname ≠ [] := by
        intro hnil
        exact hhost.1 (by rw [hnil]; rfl)
      have hstep : certificateStep C s h =
          ((holding C h der, (checkPin s h.hostname (C.sha256 der)).1),
            (checkPin s h.hostname (C.sha256 der)).2) := by
        rw [certificateStep, hset]
        dsimp only
        rw [verifyCertificate, hleaf]
        dsimp only
        rw [if_neg hne]
        rfl
      refine ⟨by rw [handshake, hstep], by rw [hstep], ?_⟩
      rw [handshake, hstep, signed, hleaf]
      cases (checkPin s h.hostname (C.sha256 der)).2 with
      | error e => rfl
      | ok u => rfl
    next => cases hp

theorem handshake_unpresented {h : Handshake} (hp : presented C h = none) :
    (handshake C s h).1 = s ∧ accepted (certificateStep C s h).2 = false ∧
      accepted (handshake C s h).2 = false := by
  have hstep : (certificateStep C s h).1.2 = s ∧
      ∃ e, (certificateStep C s h).2 = .error e := by
    unfold certificateStep setHostnameVerification
    split
    next e _ => exact ⟨rfl, e, rfl⟩
    next v hv =>
      split at hv
      · cases hv
      next hlen =>
        cases hv
        unfold verifyCertificate
        cases hleaf : leafDer h.cert with
        | error e => exact ⟨rfl, e, rfl⟩
        | ok der =>
          dsimp only
          split
          · exact ⟨rfl, _, rfl⟩
          next hne =>
            have hhost : Storable h.hostname := storable_of_ne_nil hne (not_lt.mp hlen)
            simp [presented, hleaf, hhost] at hp
  obtain ⟨hsame, e, he⟩ := hstep
  refine ⟨hsame, by rw [he]; rfl, ?_⟩
  rw [handshake, he]
  rfl

end NeuralOs.Tls
