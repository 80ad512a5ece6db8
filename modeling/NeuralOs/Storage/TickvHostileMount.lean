import NeuralOs.Storage.TickvChecked

/-!
# Mounting arbitrary bytes

The scans of a mount stay inside a volume of whole sectors whatever they read. The
offsets that a checkpoint gives are compared with the volume only after they were
added to, if at all, so a checkpoint with a valid CRC and hash can make the mount
overflow or leave the append offset past the end.
-/

set_option autoImplicit false

namespace NeuralOs.TickvChecked
open ByteString MeasuredLoop Checked CheckedLoop TickvRecord TickvState TickvStore
open TickvMount (RangeScan CkptScan applyRecord expired ticked mountReady)

/-- The mount neither panics nor leaves the append offset past the end of the flash. -/
def MountsInside (w : World) (polls : Option ℕ) : Prop :=
  ∃ r w', mount w polls = .ok (r, w') ∧ w'.flash = w.flash ∧ w'.kv.appendOff ≤ w'.flash.size

section
variable {f : RamFlash}

/-! ## The scans stay inside -/

theorem read_inside {off n : ℕ} (h : off+n ≤ f.size) : ∃ b, f.read off n = .ok b :=
  ⟨_, if_neg (not_lt.mpr h)⟩

theorem body_inside {off klen vlen : ℕ} {e : TickvError} (h : ¬off+recordSize klen vlen > f.size) :
    f.read (off+header) (klen+vlen) ≠ .error e := by
  have hge := recordSize_ge klen vlen
  obtain ⟨b, hb⟩ := @read_inside f (off+header) (klen+vlen) (by omega)
  rw [hb]
  exact fun h => by cases h

/-- The scan stands in the last sector of a volume that ends inside this sector, at a header
that it skips: bytes that are neither a header nor blank, or lengths past the limits. -/
structure Overruns (f : RamFlash) (s : RangeScan) : Prop where
  room : s.off+header ≤ f.size
  last : f.size < TickvRecord.nextSector s.off
  time : expired s.polls = false
  skips : hdrTickvShaped (slice f.data s.off header) = false ∧
      hdrBlank (slice f.data s.off header) = false ∨
    hdrTickvShaped (slice f.data s.off header) = true ∧
      oversized (hdrKlen (slice f.data s.off header)) (hdrVlen (slice f.data s.off header)) = true

theorem overruns_iff (s : RangeScan) :
    (∃ t, TickvMount.scanRangeStep f s = .inl t ∧ f.size < t.off) ↔ Overruns f s := by
  have hnext : TickvRecord.nextSector s.off ≤ s.off+512 := by
    unfold TickvRecord.nextSector
    omega
  constructor
  · rintro ⟨t, ht, hout⟩
    have hin := (TickvMount.scanRangeStep_off f s t ht).1
    have hread : f.read s.off header = .ok (slice f.data s.off header) := if_neg (not_lt.mpr hin)
    have hsector := recordSize_sector (hdrKlen (slice f.data s.off header))
      (hdrVlen (slice f.data s.off header))
    have hlast : f.size < TickvRecord.nextSector s.off := by
      rcases (scanRangeStep_next ht).2 with h | h <;> omega
    unfold TickvMount.scanRangeStep at ht
    rw [hread, if_neg (not_lt.mpr hin)] at ht
    simp only at ht
    split at ht
    · cases ht
    next htime =>
      refine ⟨hin, hlast, by simpa using htime, ?_⟩
      split at ht
      next hsh =>
        split at ht
        · cases ht
        next hbl => exact .inl ⟨by simpa using hsh, by simpa using hbl⟩
      next hsh =>
        split at ht
        next hov => exact .inr ⟨by simpa using hsh, hov⟩
        · -- a record that fits does not start in the last sector
          split at ht
          · cases ht
          · omega
  · rintro ⟨hin, hlast, htime, hskip⟩
    have hread : f.read s.off header = .ok (slice f.data s.off header) := if_neg (not_lt.mpr hin)
    have hfit : ¬(512 ≤ recordSize (hdrKlen (slice f.data s.off header))
        (hdrVlen (slice f.data s.off header)) ∧
        s.off+recordSize (hdrKlen (slice f.data s.off header))
          (hdrVlen (slice f.data s.off header)) ≤ f.size) := by omega
    unfold TickvMount.scanRangeStep TickvRecord.advanceOversized
    rw [hread, if_neg (not_lt.mpr hin)]
    rcases hskip with ⟨hsh, hbl⟩ | ⟨hsh, hov⟩
    · simp only [htime, hsh, hbl]
      exact ⟨_, rfl, hlast⟩
    · simp only [htime, hsh, hov, if_neg hfit]
      exact ⟨_, rfl, hlast⟩

theorem not_overruns (hd : 512 ∣ f.size) (s : RangeScan) : ¬Overruns f s := by
  rintro ⟨hin, hlast, -, -⟩
  unfold TickvRecord.nextSector header at *
  omega

def ScansInside (f : RamFlash) (s : RangeScan) : Prop :=
  ∀ t, Visits (TickvMount.scanRangeLoop f) s t → ¬Overruns f t

theorem scanRangeLoop_ends (s : RangeScan) : s.kv.degraded = false →
    if f.size < s.off then (TickvMount.scanRangeLoop f).exec s = (.ok (), s)
    else ((TickvMount.scanRangeLoop f).exec s).1 = .ok () ∧
      (((TickvMount.scanRangeLoop f).exec s).2.kv.degraded = true ∨
        ((TickvMount.scanRangeLoop f).exec s).2.off ≤ f.size ↔ ScansInside f s) := by
  apply exec_rule (TickvMount.scanRangeLoop f) (fun s r => s.kv.degraded = false →
    if f.size < s.off then r = (.ok (), s)
    else r.1 = .ok () ∧ (r.2.kv.degraded = true ∨ r.2.off ≤ f.size ↔ ScansInside f s))
  · intro s r hr _
    have hstep : TickvMount.scanRangeStep f s = .inr r := hr
    have hinside : ScansInside f s := by
      intro t ht hover
      obtain rfl := (visits_stop hr).mp ht
      obtain ⟨u, hu, -⟩ := (overruns_iff t).mpr hover
      rw [hu] at hstep
      cases hstep
    unfold TickvMount.scanRangeStep at hstep
    split at hstep
    · cases hstep
      split
      · rfl
      next hs => exact ⟨rfl, iff_of_true (.inr (not_lt.mp hs)) hinside⟩
    next hin =>
      have hs : ¬f.size < s.off := by omega
      rw [if_neg hs]
      split at hstep
      · cases hstep
        exact ⟨rfl, iff_of_true (.inl rfl) hinside⟩
      obtain ⟨hdr, hread⟩ := @read_inside f s.off header (not_lt.mp hin)
      rw [hread] at hstep
      simp only at hstep
      repeat' split at hstep
      all_goals cases hstep
      all_goals first
        | exact ⟨rfl, iff_of_true (.inr (not_lt.mp hs)) hinside⟩
        | exact absurd (by assumption) (body_inside (by assumption))
  · intro s t r ht ih hk
    have hin := (TickvMount.scanRangeStep_off f s t ht).1
    have hs : ¬f.size < s.off := by omega
    have hkt := (TickvMount.scanRangeStep_degraded ht).trans hk
    have hnext := ih hkt
    have hvisits : ScansInside f s ↔ ¬Overruns f s ∧ ScansInside f t := by
      simp only [ScansInside, visits_turn ht, forall_eq_or_imp]
    rw [if_neg hs, hvisits]
    have hover : Overruns f s ↔ f.size < t.off := by
      rw [← overruns_iff]
      refine ⟨?_, fun h => ⟨t, ht, h⟩⟩
      rintro ⟨u, hu, hlt⟩
      exact Sum.inl.inj (hu.symm.trans ht) ▸ hlt
    rw [hover]
    split at hnext
    next hout =>
      subst hnext
      refine ⟨rfl, iff_of_false ?_ fun h => h.1 hout⟩
      rintro (h | h)
      · rw [hkt] at h
        cases h
      · exact absurd hout (not_lt.mpr h)
    next hle => exact ⟨hnext.1, hnext.2.trans (and_iff_right hle).symm⟩

theorem scanRange_ends (kv : TickvLite) {start : ℕ} (keep : Bool) (polls : Option ℕ)
    (h : start ≤ f.size) (hk : kv.degraded = false) :
    (TickvMount.scanRange f kv start keep polls).1 = .ok () ∧
      ((TickvMount.scanRange f kv start keep polls).2.1.appendOff ≤ f.size ↔
        ScansInside f ⟨start, if keep then kv else { kv with
          index := ∅
          appendOff := 0
          stats := { kv.stats with liveBytes := 0, deadBytes := 0 } }, polls⟩) := by
  unfold TickvMount.scanRange
  simp only
  generalize hs : RangeScan.mk start _ polls = s
  have hks : s.kv.degraded = false := by
    rw [← hs]
    cases keep <;> exact hk
  have hends := scanRangeLoop_ends (f := f) s hks
  rw [if_neg (by rw [← hs]; exact not_lt.mpr h)] at hends
  generalize (TickvMount.scanRangeLoop f).exec s = out at hends
  obtain ⟨_ | _, t⟩ := out
  · exact absurd hends.1 (by simp)
  · refine ⟨rfl, Iff.trans ?_ hends.2⟩
    simp only [TickvLite.recomputeLiveEstimate]
    cases t.kv.degraded <;> simp

theorem scanRange_beyond (kv : TickvLite) {start : ℕ} (polls : Option ℕ) (h : f.size < start)
    (hk : kv.degraded = false) :
    (TickvMount.scanRange f kv start true polls).1 = .ok () ∧
      (TickvMount.scanRange f kv start true polls).2.1.appendOff = start := by
  have hstop : (TickvMount.scanRangeLoop f).exec ⟨start, kv, polls⟩ =
      (.ok (), ⟨start, kv, polls⟩) := by
    apply exec_stop
    have hgt : start+header > f.size := by omega
    exact if_pos hgt
  unfold TickvMount.scanRange
  simp only [if_true, hstop, hk, Bool.false_eq_true, if_false, TickvLite.recomputeLiveEstimate,
    and_self]

/-! ## The whole mount -/

def tailScan (f : RamFlash) (kv : TickvLite) (polls : Option ℕ) (val : Bytes) (p : ℕ × Index) :
    RangeScan :=
  ⟨TickvMount.ckptEnd f p.1 p.2+recordSize ckptKey.bytes.length val.length,
    { kv with index := p.2, appendOff := TickvMount.ckptEnd f p.1 p.2 }.recomputeLiveEstimate,
    polls⟩

def fullScan (kv : TickvLite) (polls : Option ℕ) : RangeScan :=
  ⟨0, { kv with
    index := ∅
    appendOff := 0
    stats := { kv.stats with liveBytes := 0, deadBytes := 0 } }, polls⟩

/-- The checkpoint that the search settles on, if its value parses and its first offset leads
to a valid header. -/
def acceptedCkpt (f : RamFlash) (polls : Option ℕ) : Option (Bytes × ℕ × Index) := do
  let val ← foundCkpt f polls
  let p ← (TickvMount.parseCkpt val).toOption
  let _ ← (TickvMount.staleCheck f p.2).toOption
  return (val, p)

def searched (f : RamFlash) (polls : Option ℕ) : Option ℕ :=
  ((TickvMount.ckptScanLoop f).exec ⟨0, none, polls⟩).2.polls

def unindexed (kv : TickvLite) : TickvLite :=
  { kv with backend := .ram, degraded := false, index := ∅, appendOff := 0 }

def lastScan (w : World) (polls : Option ℕ) : RangeScan :=
  match acceptedCkpt w.flash polls with
  | none => fullScan (unindexed w.kv) (searched w.flash polls)
  | some (val, p) => tailScan w.flash (unindexed w.kv) (searched w.flash polls) val p

theorem mountParsed_inside (kv : TickvLite) (polls : Option ℕ) {val : Bytes} {p : ℕ × Index}
    (hv : val.length < 2^63) (hk : kv.degraded = false) (h : OffsetsInside f val p.1 p.2) :
    (∃ e, TickvMount.staleCheck f p.2 = .error e ∧
      mountParsed f kv polls val p = .ok (.error e, kv, polls)) ∨
    TickvMount.staleCheck f p.2 = .ok () ∧ ∃ kv' polls',
      mountParsed f kv polls val p = .ok (.ok (), kv', polls') ∧
        (kv'.appendOff ≤ f.size ↔ ScansInside f (tailScan f kv polls val p)) := by
  have hb : f.size < 2^63 := f.bounded
  have hkey : ckptKey.bytes.length = 14 := rfl
  unfold mountParsed
  rw [staleCheck_eq h.first, ok_bind]
  cases hst : TickvMount.staleCheck f p.2 with
  | error e => exact .inl ⟨e, rfl, rfl⟩
  | ok _ =>
    have htail := h.tail hst
    obtain ⟨hok, hend⟩ := scanRange_ends { kv with
      index := p.2
      appendOff := TickvMount.ckptEnd f p.1 p.2 }.recomputeLiveEstimate true polls htail hk
    rw [TickvMount.ckptEnd] at htail
    simp only
    rw [entriesEnd_eq (h.entries hst), ok_bind, recTotal_eq (by omega), ok_bind,
      plus_eq (by omega), ok_bind, scanRange_eq (by unfold header; omega)]
    exact .inr ⟨trivial, _, _, congrArg Except.ok (Prod.ext hok rfl), hend⟩

theorem mountParsed_outside (kv : TickvLite) (polls : Option ℕ) {val : Bytes}
    {p : ℕ × Index} (hv : val.length < 2^63) (hk : kv.degraded = false)
    (h : ¬OffsetsInside f val p.1 p.2) :
    mountParsed f kv polls val p = .error .panic ∨
      ∃ kv' polls', mountParsed f kv polls val p = .ok (.ok (), kv', polls') ∧
        f.size < kv'.appendOff := by
  have hkey : ckptKey.bytes.length = 14 := rfl
  unfold mountParsed
  by_cases hfirst : ∀ e, p.2.toList.head? = some e → e.2+header < 2^64
  · rw [staleCheck_eq hfirst, ok_bind]
    cases hst : TickvMount.staleCheck f p.2 with
    | error e => exact absurd ⟨hfirst, by simp [hst], by simp [hst]⟩ h
    | ok _ =>
      simp only
      by_cases hall : ∀ e ∈ p.2.toList, e.2+header < 2^64
      · rw [entriesEnd_eq hall, ok_bind, recTotal_eq (by omega), ok_bind, ← TickvMount.ckptEnd]
        have htail : f.size < TickvMount.ckptEnd f p.1 p.2+
            recordSize ckptKey.bytes.length val.length := by
          by_contra hle
          exact h ⟨hfirst, fun _ => hall, fun _ => not_lt.mp hle⟩
        by_cases hfit : TickvMount.ckptEnd f p.1 p.2+
            recordSize ckptKey.bytes.length val.length+header < 2^64
        · rw [plus_eq (by omega), ok_bind, scanRange_eq hfit]
          have hbeyond := scanRange_beyond ({ kv with
            index := p.2
            appendOff := TickvMount.ckptEnd f p.1 p.2 }.recomputeLiveEstimate) polls htail hk
          refine Or.inr ⟨_, _, congrArg Except.ok (Prod.ext hbeyond.1 rfl), ?_⟩
          rw [hbeyond.2]
          exact htail
        · left
          by_cases hsum : TickvMount.ckptEnd f p.1 p.2+
              recordSize ckptKey.bytes.length val.length < 2^64
          · rw [plus_eq hsum, ok_bind]
            exact scanRange_panics _ _ _ (not_lt.mp hfit)
          · rw [plus_panics (not_lt.mp hsum)]
            rfl
      · rw [entriesEnd_panics _ _ hall]
        exact Or.inl rfl
  · obtain ⟨e, he⟩ := not_forall.mp hfirst
    obtain ⟨hhead, hbig⟩ := Classical.not_imp.mp he
    rw [staleCheck_panics hhead (not_lt.mp hbig)]
    exact Or.inl rfl

theorem recover_ends (kv : TickvLite) (polls : Option ℕ) (hk : kv.degraded = false) :
    ∃ kv' polls', recover f kv polls = .ok (.ok (), kv', polls') ∧
      (kv'.appendOff ≤ f.size ↔ ScansInside f (fullScan kv polls)) := by
  obtain ⟨hok, hend⟩ := scanRange_ends kv false polls (Nat.zero_le f.size) hk
  refine ⟨_, (TickvMount.scanRange f kv 0 false polls).2.2, ?_, hend⟩
  rw [recover, scanRange_eq (by decide)]
  exact congrArg Except.ok (Prod.ext hok rfl)

theorem tryMount_cases (kv : TickvLite) (polls : Option ℕ) :
    (∃ val p, foundCkpt f polls = some val ∧ TickvMount.parseCkpt val = .ok p ∧
      tryMountFromCkpt f { kv with backend := .ram, degraded := false } polls =
        mountParsed f (unindexed kv) (searched f polls) val p) ∨
    ((∀ val p, foundCkpt f polls = some val → TickvMount.parseCkpt val ≠ .ok p) ∧
      ∃ e, tryMountFromCkpt f { kv with backend := .ram, degraded := false } polls =
        .ok (.error e, unindexed kv, searched f polls)) := by
  have hlen := @foundCkpt_length f polls
  unfold tryMountFromCkpt foundCkpt searched at *
  simp only
  rw [ckptScanLoop_eq _ (by simp only; decide), ok_bind]
  generalize (TickvMount.ckptScanLoop f).exec _ = out at hlen
  obtain ⟨e | _, s⟩ := out
  · exact Or.inr ⟨by simp, _, rfl⟩
  simp only at hlen ⊢
  cases hf : s.found with
  | none => exact Or.inr ⟨by simp, _, rfl⟩
  | some val =>
    simp only
    rw [parseCkpt_eq (hlen hf), ok_bind]
    cases hp : TickvMount.parseCkpt val with
    | error e =>
      refine Or.inr ⟨?_, _, rfl⟩
      rintro v p hv
      cases hv
      rw [hp]
      exact fun h => by cases h
    | ok p => exact Or.inl ⟨val, p, rfl, hp, rfl⟩

end

theorem mountReady_ends (w : World) (kv : TickvLite) :
    (∃ r w', (Except.ok (.ok (), mountReady w kv) : Run (Result Unit × World)) = .ok (r, w') ∧
      w'.flash = w.flash ∧ w'.kv.appendOff ≤ w'.flash.size) ↔ kv.appendOff ≤ w.flash.size := by
  constructor
  · rintro ⟨r, w', he, -, hle⟩
    cases he
    exact hle
  · exact fun hle => ⟨_, _, rfl, rfl, hle⟩

/-- A mount stays inside exactly when the checkpoint that the search settles on has its
offsets inside and the scan that the mount ends with does not overrun. -/
theorem mount_inside_iff (w : World) (polls : Option ℕ) :
    MountsInside w polls ↔ CkptInside w.flash polls ∧ ScansInside w.flash (lastScan w polls) := by
  unfold MountsInside mount mountFrom lastScan
  obtain ⟨kv', p', hr, hle⟩ := recover_ends (f := w.flash) (unindexed w.kv)
    (searched w.flash polls) rfl
  rcases tryMount_cases (f := w.flash) w.kv polls with ⟨val, p, hf, hp, he⟩ | ⟨hno, e, he⟩
  · have hlen := foundCkpt_length hf
    have hckpt : CkptInside w.flash polls ↔ OffsetsInside w.flash val p.1 p.2 := by
      refine ⟨fun h => h val p.1 p.2 hf hp, fun hin v a i hv hpa => ?_⟩
      obtain rfl := Option.some.inj (hf.symm.trans hv)
      obtain rfl := Except.ok.inj (hp.symm.trans hpa)
      exact hin
    rw [he, hckpt]
    by_cases hin : OffsetsInside w.flash val p.1 p.2
    · rw [and_iff_right hin]
      rcases mountParsed_inside (unindexed w.kv) (searched w.flash polls) hlen rfl hin with
        ⟨e, hst, hm⟩ | ⟨hst, kv'', polls'', hm, hend⟩
      · have hacc : acceptedCkpt w.flash polls = none := by
          simp [acceptedCkpt, hf, hp, hst, Except.toOption]
        rw [hm, ok_bind, hacc]
        simp only
        rw [hr, ok_bind, ← hle]
        exact mountReady_ends w kv'
      · have hacc : acceptedCkpt w.flash polls = some (val, p) := by
          simp [acceptedCkpt, hf, hp, hst, Except.toOption]
        rw [hm, ok_bind, hacc, ← hend]
        exact mountReady_ends w kv''
    · refine iff_of_false ?_ fun h => hin h.1
      rintro ⟨r, w', hm, -, hle⟩
      rcases mountParsed_outside (unindexed w.kv) (searched w.flash polls) hlen rfl hin with
        hpanic | ⟨kv', polls', hok, hgt⟩
      · rw [hpanic] at hm
        cases hm
      · rw [hok, ok_bind] at hm
        cases hm
        exact absurd hgt (not_lt.mpr hle)
  · have hckpt : CkptInside w.flash polls := fun v a i hv hpa => absurd hpa (hno v (a, i) hv)
    have hacc : acceptedCkpt w.flash polls = none := by
      cases hf : foundCkpt w.flash polls with
      | none => simp [acceptedCkpt, hf]
      | some val =>
        cases hp : TickvMount.parseCkpt val with
        | error e => simp [acceptedCkpt, hf, hp, Except.toOption]
        | ok p => exact absurd hp (hno val p hf)
    rw [he, ok_bind, and_iff_right hckpt, hacc]
    simp only
    rw [hr, ok_bind, ← hle]
    exact mountReady_ends w kv'

def ckptImage (append : ℕ) : Bytes :=
  encodeRecord ckptKey.bytes
    (ckptMagic ++ toLe 8 append ++ toLe 8 (fnvEntries []).toNat ++ toLe 4 0)

theorem ckptImage_short (append : ℕ) : (ckptImage append).length < 2^63 := by
  rw [ckptImage, encodeRecord_length]
  simp only [List.length_append, toLe_length]
  decide

def ckptFlash (append : ℕ) : RamFlash := ⟨ckptImage append, ckptImage_short append⟩

/-- An append offset of 2^64-1 overflows when the size of the checkpoint is added. -/
theorem huge_append_panics : ¬MountsInside (World.boot (ckptFlash (2^64-1))) none := by
  have hp : (mount (World.boot (ckptFlash (2^64-1))) none).isOk = false := by decide +kernel
  rintro ⟨r, w', hm, -⟩
  rw [hm] at hp
  cases hp

def emptyCkpt : Bytes := ckptMagic ++ toLe 8 0 ++ toLe 8 (fnvEntries []).toNat ++ toLe 4 0

theorem emptyCkpt_inside : CkptInside (ckptFlash 0) none := by
  intro val append index hf hp
  have hfound : foundCkpt (ckptFlash 0) none = some emptyCkpt := by decide +kernel
  have hparse : TickvMount.parseCkpt emptyCkpt = .ok (0, ∅) := by rfl
  rw [hfound] at hf
  cases hf
  rw [hparse] at hp
  cases hp
  have hnil : (∅ : Index).toList = [] := rfl
  refine ⟨by simp [hnil], by simp [hnil], fun _ => ?_⟩
  decide +kernel

theorem emptyCkpt_mounts : MountsInside (World.boot (ckptFlash 0)) none := by
  have hd : 512 ∣ (World.boot (ckptFlash 0)).flash.size := by decide +kernel
  exact (mount_inside_iff _ none).mpr ⟨emptyCkpt_inside, fun t _ => not_overruns hd t⟩

theorem emptyCkpt_mount_eq : mount (World.boot (ckptFlash 0)) none =
    .ok (TickvMount.mount (World.boot (ckptFlash 0)) none) :=
  mount_eq _ none emptyCkpt_inside

/-- In a volume that ends inside a sector, a skip from its last sector leads past the end. -/
example : ((mount (World.boot ⟨List.replicate 100 7, by simp⟩) none).map
    fun p => p.2.kv.appendOff) = .ok 512 := by decide +kernel

end NeuralOs.TickvChecked
