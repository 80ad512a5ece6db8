import NeuralOs.Storage.TickvStore

/-!
# Logs of records

A log is a list of records, each at the offset that the sizes before it add
up to. A record is live until its flag byte is cleared in place. This module
gives the bytes of records and logs, and the records at given offsets.
-/

set_option autoImplicit false

namespace NeuralOs.TickvLog
open ByteString TickvRecord TickvState

structure Rec where
  key : Str
  val : Bytes
  live : Bool
  deriving DecidableEq

namespace Rec

def size (r : Rec) : ℕ := recordSize r.key.bytes.length r.val.length

def body (r : Rec) : Bytes := r.key.bytes ++ r.val

def hdr (r : Rec) : Bytes :=
  magicHead ++ [if r.live then 0x56 else 0] ++ toLe 4 r.key.bytes.length ++ toLe 4 r.val.length ++
    toLe 4 (crc32 r.body).toNat

def bytes (r : Rec) : Bytes := r.hdr ++ (r.body ++ zeros (r.size-header-r.body.length))

def kill (r : Rec) : Rec := { r with live := false }

/-- Value lengths that the header field stores without loss. -/
def Small (r : Rec) : Prop := r.val.length < 2^32

def big (r : Rec) : Bool := oversized r.key.bytes.length r.val.length

def isCkpt (r : Rec) : Bool := decide (r.key = ckptKey) && decide (24 ≤ r.val.length) && !r.big

def apply (index : Index) (off : ℕ) (r : Rec) : Index :=
  if !r.live || r.big then index
  else if r.val = [] then index.erase r.key
  else index.insert r.key off

@[simp] theorem kill_key (r : Rec) : r.kill.key = r.key := rfl
@[simp] theorem kill_val (r : Rec) : r.kill.val = r.val := rfl
@[simp] theorem kill_live (r : Rec) : r.kill.live = false := rfl
@[simp] theorem kill_size (r : Rec) : r.kill.size = r.size := rfl
@[simp] theorem kill_isCkpt (r : Rec) : r.kill.isCkpt = r.isCkpt := rfl
@[simp] theorem kill_big (r : Rec) : r.kill.big = r.big := rfl

theorem hdr_length (r : Rec) : r.hdr.length = header := by simp [hdr, magicHead, header]

theorem body_length (r : Rec) : r.body.length = r.key.bytes.length+r.val.length := by simp [body]

theorem size_ge (r : Rec) : header+r.body.length ≤ r.size := by
  rw [body_length]
  exact recordSize_ge _ _

theorem size_sector (r : Rec) : 512 ≤ r.size := recordSize_sector _ _

theorem bytes_length (r : Rec) : r.bytes.length = r.size := by
  have h := r.size_ge
  simp only [bytes, List.length_append, hdr_length, zeros_length]
  omega

theorem bytes_live (key : Str) (val : Bytes) :
    (Rec.mk key val true).bytes = encodeRecord key.bytes val := by
  simp [bytes, hdr, body, size, encodeRecord, magic, magicHead, header]

theorem hdrValid_hdr (r : Rec) : hdrValid r.hdr = r.live := by
  cases h : r.live <;> simp [hdrValid, hdr, h, magicHead]

theorem hdrInvalidated_hdr (r : Rec) : hdrInvalidated r.hdr = !r.live := by
  cases h : r.live <;> simp [hdrInvalidated, hdr, h, magicHead]

theorem hdrTickvShaped_hdr (r : Rec) : hdrTickvShaped r.hdr = true := by
  rw [hdrTickvShaped, hdrValid_hdr, hdrInvalidated_hdr]
  cases r.live <;> rfl

theorem hdrKlen_hdr (r : Rec) : hdrKlen r.hdr = r.key.bytes.length := by
  have hs : slice r.hdr 4 4 = toLe 4 r.key.bytes.length := by
    simp [hdr, slice, magicHead, toLe]
  rw [hdrKlen, hs, fromLe_toLe]
  exact Nat.mod_eq_of_lt (by simpa using r.key.short)

theorem hdrVlen_hdr (r : Rec) (h : r.Small) : hdrVlen r.hdr = r.val.length := by
  have hs : slice r.hdr 8 4 = toLe 4 r.val.length := by
    simp [hdr, slice, magicHead, toLe]
  rw [hdrVlen, hs, fromLe_toLe]
  exact Nat.mod_eq_of_lt (by simpa [Small] using h)

theorem hdrCrc_hdr (r : Rec) : hdrCrc r.hdr = (crc32 r.body).toNat := by
  have hs : slice r.hdr 12 4 = toLe 4 (crc32 r.body).toNat := by
    simp [hdr, slice, magicHead, toLe]
  rw [hdrCrc, hs, fromLe_toLe]
  exact Nat.mod_eq_of_lt (by simpa using (crc32 r.body).toNat_lt)

theorem patch_kill (r : Rec) : patch r.bytes 3 [0] = r.kill.bytes := by
  simp [bytes, hdr, kill, body, size, patch, magicHead]

end Rec

def logSize (L : List Rec) : ℕ := (L.map Rec.size).sum

def logBytes (L : List Rec) : Bytes := L.flatMap Rec.bytes

@[simp] theorem logSize_nil : logSize [] = 0 := rfl

@[simp] theorem logSize_cons (r : Rec) (L : List Rec) : logSize (r::L) = r.size+logSize L := by
  simp [logSize]

@[simp] theorem logSize_append (A B : List Rec) : logSize (A ++ B) = logSize A+logSize B := by
  simp [logSize]

theorem logBytes_length (L : List Rec) : (logBytes L).length = logSize L := by
  induction L with
  | nil => rfl
  | cons r L ih => simp_all [logBytes, Rec.bytes_length]

theorem logBytes_append (A B : List Rec) : logBytes (A ++ B) = logBytes A ++ logBytes B := by
  simp [logBytes]

theorem logBytes_cons (r : Rec) (L : List Rec) : logBytes (r::L) = r.bytes ++ logBytes L := rfl

theorem logSize_dvd (L : List Rec) : 512 ∣ logSize L := by
  induction L with
  | nil => simp
  | cons r L ih =>
    rw [logSize_cons]
    exact Nat.dvd_add (recordSize_dvd _ _) ih

def At (L : List Rec) (o : ℕ) (r : Rec) : Prop := ∃ A B, L = A ++ r::B ∧ o = logSize A

variable {L : List Rec} {o : ℕ} {r s : Rec}

theorem At.lt (h : At L o r) : o+r.size ≤ logSize L := by
  obtain ⟨A, B, rfl, rfl⟩ := h
  simp

theorem At.mem (h : At L o r) : r ∈ L := by
  obtain ⟨A, B, rfl, _⟩ := h
  simp

theorem At.append (h : At L o r) (M : List Rec) : At (L ++ M) o r := by
  obtain ⟨A, B, rfl, rfl⟩ := h
  exact ⟨A, B ++ M, by simp, rfl⟩

theorem At.split {A B : List Rec} (h : At (A ++ B) o r) :
    At A o r ∨ ∃ i, o = logSize A+i ∧ At B i r := by
  obtain ⟨C, D, hl, rfl⟩ := h
  rcases List.append_eq_append_iff.mp hl with ⟨E, rfl, hB⟩ | ⟨E, rfl, hD⟩
  · exact .inr ⟨logSize E, by simp, E, D, hB, rfl⟩
  · cases E with
    | nil => exact .inr ⟨0, by simp, [], D, by simpa using hD.symm, rfl⟩
    | cons x E =>
      obtain ⟨rfl, rfl⟩ : r = x ∧ D = E ++ B := by simpa using hD
      exact .inl ⟨C, E, rfl, rfl⟩

theorem at_cons_iff : At (r::L) o s ↔ (o = 0 ∧ s = r) ∨ ∃ i, o = r.size+i ∧ At L i s := by
  constructor
  · rintro ⟨A, B, hl, rfl⟩
    cases A with
    | nil => exact .inl ⟨rfl, by simpa using (List.cons.inj hl).1.symm⟩
    | cons x A =>
      obtain ⟨rfl, rfl⟩ := List.cons.inj hl
      exact .inr ⟨logSize A, by simp, A, B, rfl, rfl⟩
  · rintro (⟨rfl, rfl⟩ | ⟨i, rfl, A, B, rfl, rfl⟩)
    · exact ⟨[], L, rfl, rfl⟩
    · exact ⟨r::A, B, rfl, by simp⟩

theorem at_concat_iff : At (L ++ [r]) o s ↔ At L o s ∨ (o = logSize L ∧ s = r) := by
  constructor
  · intro h
    rcases h.split with h' | ⟨i, rfl, h'⟩
    · exact .inl h'
    · rcases at_cons_iff.mp h' with ⟨rfl, rfl⟩ | ⟨j, -, A, B, hl, -⟩
      · exact .inr ⟨rfl, rfl⟩
      · simp at hl
  · rintro (h | ⟨rfl, rfl⟩)
    · exact h.append _
    · exact ⟨L, [], rfl, rfl⟩

theorem At.unique (hr : At L o r) (hs : At L o s) : r = s := by
  induction L generalizing o with
  | nil => obtain ⟨A, B, hl, _⟩ := hr; simp at hl
  | cons x L ih =>
    have hx := x.size_sector
    rcases at_cons_iff.mp hr with ⟨h0, rfl⟩ | ⟨i, hi, hr'⟩ <;>
      rcases at_cons_iff.mp hs with ⟨h0', rfl⟩ | ⟨j, hj, hs'⟩
    · rfl
    · omega
    · omega
    · exact ih hr' (by rwa [show i = j by omega])

end NeuralOs.TickvLog

/-! ## Updates and indexes of a log -/

namespace NeuralOs.TickvLogUpdate
open ByteString TickvRecord TickvState TickvLog

def recAt : List Rec → ℕ → Option Rec
  | [], _ => none
  | r::L, o => if o = 0 then some r else if r.size ≤ o then recAt L (o-r.size) else none

variable {L L' : List Rec} {R : Rec → Prop} {e : Index} {o : ℕ} {r : Rec}

theorem recAt_iff : recAt L o = some r ↔ At L o r := by
  induction L generalizing o with
  | nil =>
    refine ⟨by simp [recAt], ?_⟩
    rintro ⟨A, B, hl, _⟩
    simp at hl
  | cons x L ih =>
    have hx := x.size_sector
    rw [recAt, at_cons_iff]
    split_ifs with h0 hs
    · subst h0
      constructor
      · intro h
        exact .inl ⟨rfl, (Option.some.inj h).symm⟩
      · rintro (⟨_, rfl⟩ | ⟨i, hi, _⟩)
        · rfl
        · omega
    · rw [ih]
      constructor
      · intro h
        exact .inr ⟨o-x.size, by omega, h⟩
      · rintro (⟨h, _⟩ | ⟨i, rfl, h⟩)
        · exact absurd h h0
        · simpa using h
    · refine ⟨by simp, ?_⟩
      rintro (⟨h, _⟩ | ⟨i, hi, _⟩)
      · exact absurd h h0
      · omega

def killAt : ℕ → List Rec → List Rec
  | _, [] => []
  | o, r::L =>
    if o = 0 then r.kill::L else if r.size ≤ o then r::killAt (o-r.size) L else r::L

theorem killAt_middle (A B : List Rec) (r : Rec) :
    killAt (logSize A) (A ++ r::B) = A ++ r.kill::B := by
  induction A with
  | nil => simp [killAt]
  | cons x A ih =>
    have hx := x.size_sector
    have h0 : ¬ logSize (x::A) = 0 := by simp; omega
    have hs : x.size ≤ logSize (x::A) := by simp
    rw [List.cons_append, killAt, if_neg h0, if_pos hs]
    simp [ih]

theorem logSize_killAt (o : ℕ) (L : List Rec) : logSize (killAt o L) = logSize L := by
  induction L generalizing o with
  | nil => rfl
  | cons r L ih =>
    rw [killAt]
    split_ifs <;> simp [ih]

theorem at_killAt_iff {i : ℕ} {s : Rec} :
    At (killAt o L) i s ↔ ∃ r, At L i r ∧ s = if i = o then r.kill else r := by
  induction L generalizing o i with
  | nil =>
    constructor
    · rintro ⟨A, B, hl, _⟩
      simp [killAt] at hl
    · rintro ⟨r, ⟨A, B, hl, _⟩, _⟩
      simp at hl
  | cons x L ih =>
    have hx := x.size_sector
    by_cases h0 : o = 0
    · subst h0
      rw [killAt, if_pos rfl]
      simp only [at_cons_iff, Rec.kill_size]
      constructor
      · rintro (⟨rfl, rfl⟩ | ⟨j, rfl, h⟩)
        · exact ⟨x, .inl ⟨rfl, rfl⟩, by simp⟩
        · exact ⟨s, .inr ⟨j, rfl, h⟩, by rw [if_neg (by omega)]⟩
      · rintro ⟨r, ⟨rfl, rfl⟩ | ⟨j, rfl, h⟩, rfl⟩
        · exact .inl ⟨rfl, by simp⟩
        · exact .inr ⟨j, rfl, by rwa [if_neg (by omega)]⟩
    by_cases hs : x.size ≤ o
    · have hj : ∀ j, j = o-x.size ↔ x.size+j = o := by omega
      rw [killAt, if_neg h0, if_pos hs]
      simp only [at_cons_iff, ih, hj]
      constructor
      · rintro (⟨rfl, rfl⟩ | ⟨j, rfl, r, h, rfl⟩)
        · exact ⟨s, .inl ⟨rfl, rfl⟩, by rw [if_neg (Ne.symm h0)]⟩
        · exact ⟨r, .inr ⟨j, rfl, h⟩, rfl⟩
      · rintro ⟨r, ⟨rfl, rfl⟩ | ⟨j, rfl, h⟩, rfl⟩
        · exact .inl ⟨rfl, by rw [if_neg (Ne.symm h0)]⟩
        · exact .inr ⟨j, rfl, r, h, rfl⟩
    · have hne : ∀ r, At (x::L) i r → i ≠ o := by
        rintro r h rfl
        rcases at_cons_iff.mp h with ⟨h, _⟩ | ⟨j, h, _⟩
        · exact h0 h
        · omega
      rw [killAt, if_neg h0, if_neg hs]
      constructor
      · intro h
        exact ⟨s, h, by rw [if_neg (hne s h)]⟩
      · rintro ⟨r, h, rfl⟩
        rwa [if_neg (hne r h)]

theorem mem_killAt {s : Rec} (h : s ∈ killAt o L) : ∃ r ∈ L, s = r ∨ s = r.kill := by
  obtain ⟨A, B, hl⟩ := List.append_of_mem h
  obtain ⟨r, hr, hs⟩ := at_killAt_iff.mp (⟨A, B, hl, rfl⟩ : At (killAt o L) (logSize A) s)
  refine ⟨r, hr.mem, ?_⟩
  split_ifs at hs
  · exact .inr hs
  · exact .inl hs

def written (p : Str × Bytes) : Rec := ⟨p.1, p.2, true⟩

def replay : List Rec → ℕ → Index → Index
  | [], _, index => index
  | r::L, off, index => replay L (off+r.size) (r.apply index off)

theorem replay_append (A B : List Rec) (off : ℕ) (index : Index) :
    replay (A ++ B) off index = replay B (off+logSize A) (replay A off index) := by
  induction A generalizing off index with
  | nil => simp [replay]
  | cons r A ih => simp [replay, ih, Nat.add_assoc]

theorem replay_other {k : Str} {L : List Rec} {off : ℕ} {index : Index}
    (h : ∀ r ∈ L, r.live = true → r.key ≠ k) : (replay L off index)[k]? = index[k]? := by
  induction L generalizing off index with
  | nil => rfl
  | cons r L ih =>
    rw [replay, ih fun x hx => h x (by simp [hx])]
    unfold Rec.apply
    split
    · rfl
    next hl =>
      have hk : k ≠ r.key := fun he => h r (by simp) (by simp at hl; exact hl.1) he.symm
      split
      · rw [get_erase, if_neg hk]
      · rw [get_insert, if_neg hk]

/-- Every entry stands at a record of its own key that has the property. -/
def Keyed (R : Rec → Prop) (L : List Rec) (e : Index) : Prop :=
  ∀ (k : Str) (o : ℕ), e[k]? = some o → ∃ r, At L o r ∧ r.key = k ∧ R r

theorem Keyed.append (h : Keyed R L e) (M : List Rec) : Keyed R (L ++ M) e := by
  intro k o ho
  obtain ⟨r, hr, hk, hR⟩ := h k o ho
  exact ⟨r, hr.append M, hk, hR⟩

theorem Keyed.mono {Q : Rec → Prop} (h : Keyed R L e) (hRQ : ∀ r ∈ L, R r → Q r) : Keyed Q L e := by
  intro k o ho
  obtain ⟨r, hr, hk, hR⟩ := h k o ho
  exact ⟨r, hr, hk, hRQ r hr.mem hR⟩

theorem Keyed.erase (h : Keyed R L e) (k : Str) : Keyed R L (e.erase k) := by
  intro l o ho
  rw [get_erase] at ho
  split at ho
  · cases ho
  · exact h l o ho

theorem Keyed.insert (h : Keyed R L e)
 (hr : At L o r) (hR : R r) : Keyed R L (e.insert r.key o) := by
  intro l i hi
  rw [get_insert] at hi
  split at hi
  · next hl =>
    cases hi
    exact ⟨r, hr, hl.symm, hR⟩
  · exact h l i hi

def Killed (L L' : List Rec) : Prop := List.Forall₂ (fun r r' => r' = r ∨ r' = r.kill) L L'

theorem killed_killAt (o : ℕ) (L : List Rec) : Killed L (killAt o L) := by
  induction L generalizing o with
  | nil => exact .nil
  | cons r L ih =>
    have hL : Killed L L := List.forall₂_same.mpr fun _ _ => .inl rfl
    rw [killAt]
    split
    · exact .cons (.inr rfl) hL
    · split
      · exact .cons (.inl rfl) (ih _)
      · exact .cons (.inl rfl) hL

theorem Killed.logSize_eq (h : Killed L L') : logSize L' = logSize L := by
  induction h with
  | nil => rfl
  | cons hr _ ih =>
    rcases hr with rfl | rfl <;> simp [ih]

theorem Killed.at (h : Killed L L') (hr : At L o r) :
    ∃ r', At L' o r' ∧ (r' = r ∨ r' = r.kill) := by
  induction h generalizing o with
  | nil =>
    obtain ⟨A, B, hl, _⟩ := hr
    simp at hl
  | cons hx _ ih =>
    rcases at_cons_iff.mp hr with ⟨rfl, rfl⟩ | ⟨i, rfl, hi⟩
    · exact ⟨_, at_cons_iff.mpr (.inl ⟨rfl, rfl⟩), hx⟩
    · obtain ⟨r', hr', he⟩ := ih hi
      refine ⟨r', at_cons_iff.mpr (.inr ⟨i, ?_, hr'⟩), he⟩
      rcases hx with rfl | rfl <;> rfl

theorem Killed.mem (h : Killed L L') (hr : r ∈ L) : ∃ r' ∈ L', r' = r ∨ r' = r.kill := by
  obtain ⟨A, B, rfl⟩ := List.append_of_mem hr
  obtain ⟨r', hr', he⟩ := h.at ⟨A, B, rfl, rfl⟩
  exact ⟨r', hr'.mem, he⟩

theorem Killed.around {A' B' : List Rec} {r' : Rec} (h : Killed L (A' ++ r'::B')) :
    ∃ A r B, L = A ++ r::B ∧ Killed A A' ∧ (r' = r ∨ r' = r.kill) ∧ Killed B B' := by
  have hA := List.forall₂_take_append L A' (r'::B') h
  obtain ⟨r, B, hr, hB, hd⟩ :=
    List.forall₂_cons_right_iff.mp (List.forall₂_drop_append L A' (r'::B') h)
  exact ⟨_, r, B, by rw [← hd, List.take_append_drop], hA, hr, hB⟩

theorem Killed.keyed (h : Killed L L')
    (hk : Keyed R L e) (hR : ∀ r, R r → R r.kill) : Keyed R L' e := by
  intro k o ho
  obtain ⟨r, hr, hkey, hRr⟩ := hk k o ho
  obtain ⟨r', hr', rfl | rfl⟩ := h.at hr
  · exact ⟨_, hr', hkey, hRr⟩
  · exact ⟨_, hr', hkey, hR r hRr⟩

theorem keyed_replay (R : Rec → Prop) (A B : List Rec) (e : Index) (h : Keyed R A e)
    (hB : ∀ r ∈ B, r.live = true → r.val ≠ [] → R r) :
    Keyed R (A ++ B) (replay B (logSize A) e) := by
  induction B generalizing A e with
  | nil => simpa [replay] using h
  | cons r B ih =>
    have hsz : logSize A+r.size = logSize (A ++ [r]) := by simp
    have hstep : Keyed R (A ++ [r]) (r.apply e (logSize A)) := by
      unfold Rec.apply
      split
      · exact h.append _
      · next hl =>
        split
        · exact (h.append _).erase r.key
        · next hv =>
          exact (h.append _).insert ⟨A, [], rfl, rfl⟩ (hB r (by simp) (by simp_all) hv)
    have := ih (A ++ [r]) _ hstep fun x hx => hB x (by simp [hx])
    rw [replay, hsz]
    simpa using this

end NeuralOs.TickvLogUpdate
