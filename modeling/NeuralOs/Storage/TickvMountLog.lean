import NeuralOs.Storage.TickvScanLog

/-!
# Mounting a log

A mount of a log ends in one of two ways. Either all records were replayed
from the start, or the last readable checkpoint was taken as the index of the
records before it and only the records after it were replayed. The second way
is right only if that checkpoint really describes the records before it,
which is what `Genuine` asks for.
-/

set_option autoImplicit false

namespace NeuralOs.TickvCkpt
open ByteString TickvRecord TickvState TickvStore TickvMount

def restored (es : List (Str × ℕ)) (index : Index) : Index :=
  es.foldl (fun m e => m.insert e.1 (e.2 % 2^64)) index

/-- The entry of a key is written only if its length fits two bytes. -/
def encodable (e : Str × ℕ) : Bool := decide (e.1.bytes.length ≤ 65535)

theorem ckptEntry_encodable {e : Str × ℕ} (h : encodable e = true) :
    ckptEntry e = toLe 2 e.1.bytes.length ++ (e.1.bytes ++ toLe 8 e.2) := by
  have hl : ¬ e.1.bytes.length > 65535 := by simpa [encodable] using h
  rw [ckptEntry, if_neg hl, List.append_assoc]

theorem flatMap_ckptEntry (es : List (Str × ℕ)) :
    es.flatMap ckptEntry = (es.filter encodable).flatMap ckptEntry := by
  induction es with
  | nil => rfl
  | cons e es ih =>
    rw [List.flatMap_cons, ih]
    by_cases he : encodable e = true
    · rw [List.filter_cons_of_pos he, List.flatMap_cons]
    · have hl : e.1.bytes.length > 65535 := by simpa [encodable] using he
      rw [List.filter_cons_of_neg he, ckptEntry, if_pos hl, List.nil_append]

theorem readEntries_encoded (n : ℕ) (pre : Bytes) (es : List (Str × ℕ))
    (h : ∀ e ∈ es, encodable e = true) (index : Index) :
    readEntries (pre ++ es.flatMap ckptEntry) n pre.length index =
      if n ≤ es.length then .ok (restored (es.take n) index) else .error .ckptTrunc := by
  induction n generalizing pre es index with
  | zero => simp [readEntries, restored]
  | succ n ih =>
    cases es with
    | nil => simp [readEntries]
    | cons e es =>
      have he := ckptEntry_encodable (h e (by simp))
      have hl : e.1.bytes.length ≤ 65535 := by simpa [encodable] using h e (by simp)
      generalize hrest : es.flatMap ckptEntry = rest at ih
      have hval : pre ++ (e::es).flatMap ckptEntry =
          pre ++ (toLe 2 e.1.bytes.length ++ (e.1.bytes ++ (toLe 8 e.2 ++ rest))) := by
        rw [List.flatMap_cons, he, hrest]
        simp
      have h1 : slice (pre ++ (e::es).flatMap ckptEntry) pre.length 2 =
          toLe 2 e.1.bytes.length := by
        rw [hval]
        exact slice_at pre _ _ rfl (by simp)
      have hk : fromLe (toLe 2 e.1.bytes.length) = e.1.bytes.length := by
        rw [fromLe_toLe]
        exact Nat.mod_eq_of_lt (by simp; omega)
      have h2 : slice (pre ++ (e::es).flatMap ckptEntry) (pre.length+2) e.1.bytes.length =
          e.1.bytes := by
        rw [hval, ← List.append_assoc]
        exact slice_at _ _ _ (by simp) rfl
      have h3 : slice (pre ++ (e::es).flatMap ckptEntry) (pre.length+2+e.1.bytes.length) 8 =
          toLe 8 e.2 := by
        rw [hval, ← List.append_assoc, ← List.append_assoc]
        exact slice_at _ _ _ (by simp; omega) (by simp)
      have hlen : (pre ++ (e::es).flatMap ckptEntry).length =
          pre.length+2+e.1.bytes.length+8+rest.length := by
        rw [hval]
        simp
        omega
      have ho : fromLe (toLe 8 e.2) = e.2 % 2^64 := by
        rw [fromLe_toLe]
        norm_num
      have hnext : pre.length+2+e.1.bytes.length+8 = (pre ++ ckptEntry e).length := by
        rw [he]
        simp
        omega
      have hsplit : pre ++ (e::es).flatMap ckptEntry =
          (pre ++ ckptEntry e) ++ es.flatMap ckptEntry := by
        simp
      rw [readEntries]
      simp only [h1, hk, h2, h3, fromUtf8_bytes, ho]
      rw [if_neg (by omega), if_neg (by omega), hnext, hsplit,
        ih (pre ++ ckptEntry e) es (fun x hx => h x (by simp [hx]))]
      simp [restored]

section Body
variable (index : Index) (append : ℕ)

def ckptEntries : List (Str × ℕ) := index.toList.filter (fun e => e.1 ≠ ckptKey)

def ckptHead : Bytes :=
  ckptMagic ++ (toLe 8 append ++ (toLe 8 (fnvEntries (ckptEntries index)).toNat ++
    toLe 4 (ckptEntries index).length))

theorem ckptBody_eq : ckptBody index append =
    ckptHead index append ++ ((ckptEntries index).filter encodable).flatMap ckptEntry := by
  rw [← flatMap_ckptEntry]
  simp [ckptBody, ckptHead, ckptEntries]

theorem ckptHead_length : (ckptHead index append).length = 24 := by
  simp [ckptHead, ckptMagic]

theorem ckptBody_length : 24 ≤ (ckptBody index append).length := by
  rw [ckptBody_eq, List.length_append, ckptHead_length]
  omega

theorem parseCkpt_body : parseCkpt (ckptBody index append) =
    if (ckptEntries index).length % 2^32 ≤ ((ckptEntries index).filter encodable).length then
      if (fnvEntries (restored (((ckptEntries index).filter encodable).take
          ((ckptEntries index).length % 2^32)) ∅).toList).toNat ≠
          (fnvEntries (ckptEntries index)).toNat then .error .ckptFnv
      else .ok (append % 2^64, restored (((ckptEntries index).filter encodable).take
          ((ckptEntries index).length % 2^32)) ∅)
    else .error .ckptTrunc := by
  have hlen := ckptBody_length index append
  have hh := ckptHead_length index append
  have hb := ckptBody_eq index append
  have hslice : ∀ i n, i+n ≤ 24 → slice (ckptBody index append) i n =
      slice (ckptHead index append) i n := by
    intro i n hi
    rw [hb, slice_left (by omega)]
  have h4 : (ckptBody index append).take 4 = ckptMagic := by
    have := hslice 0 4 (by omega)
    simpa [slice, ckptHead, ckptMagic] using this
  have ha : fromLe (slice (ckptBody index append) 4 8) = append % 2^64 := by
    rw [hslice 4 8 (by omega)]
    have hs : slice (ckptHead index append) 4 8 = toLe 8 append := by
      simp [slice, ckptHead, ckptMagic]
    rw [hs, fromLe_toLe]
    norm_num
  have hf : fromLe (slice (ckptBody index append) 12 8) =
      (fnvEntries (ckptEntries index)).toNat := by
    rw [hslice 12 8 (by omega)]
    have hs : slice (ckptHead index append) 12 8 =
        toLe 8 (fnvEntries (ckptEntries index)).toNat := by
      rw [ckptHead, ← List.append_assoc]
      exact slice_at _ _ _ (by simp [ckptMagic]) (by simp)
    rw [hs, fromLe_toLe]
    exact Nat.mod_eq_of_lt (by simpa using (fnvEntries (ckptEntries index)).toNat_lt)
  have hn : fromLe (slice (ckptBody index append) 20 4) = (ckptEntries index).length % 2^32 := by
    rw [hslice 20 4 (by omega)]
    have hs : slice (ckptHead index append) 20 4 = toLe 4 (ckptEntries index).length := by
      rw [ckptHead, ← List.append_assoc, ← List.append_assoc,
        ← List.append_nil (toLe 4 (ckptEntries index).length)]
      exact slice_at _ _ _ (by simp [ckptMagic]) (by simp)
    rw [hs, fromLe_toLe]
    norm_num
  have hr := readEntries_encoded ((ckptEntries index).length % 2^32) (ckptHead index append)
    ((ckptEntries index).filter encodable) (fun e he => (List.mem_filter.mp he).2) ∅
  rw [← hb, hh] at hr
  rw [parseCkpt, if_neg (by omega), if_neg (by simp [h4]), hn, hr, ha, hf]
  by_cases hle : (ckptEntries index).length % 2^32 ≤ ((ckptEntries index).filter encodable).length
  · simp only [if_pos hle]
  · simp only [if_neg hle]

end Body

theorem get_restored {es : List (Str × ℕ)} {m : Index} {k : Str} {o : ℕ}
    (h : (restored es m)[k]? = some o) :
    m[k]? = some o ∨ ∃ i, (k, i) ∈ es ∧ o = i % 2^64 := by
  induction es generalizing m with
  | nil => exact .inl h
  | cons e es ih =>
    rcases ih h with hm | ⟨i, hi, ho⟩
    · rw [get_insert] at hm
      split at hm
      · next hk =>
        cases hm
        exact .inr ⟨e.2, by simp [hk], rfl⟩
      · exact .inl hm
    · exact .inr ⟨i, by simp [hi], ho⟩

theorem mem_ckptEntries {index : Index} {k : Str} {o : ℕ} :
    (k, o) ∈ ckptEntries index ↔ index[k]? = some o ∧ k ≠ ckptKey := by
  simp [ckptEntries, Std.ExtTreeMap.mem_toList_iff_getElem?_eq_some]

theorem parseCkpt_sound {index : Index} {append a : ℕ} {e : Index}
    (h : parseCkpt (ckptBody index append) = .ok (a, e)) :
    a = append % 2^64 ∧ ∀ k o, e[k]? = some o →
      k ≠ ckptKey ∧ ∃ i, index[k]? = some i ∧ o = i % 2^64 := by
  rw [parseCkpt_body] at h
  split at h
  · split at h
    · cases h
    cases h
    refine ⟨rfl, fun k o hk => ?_⟩
    rcases get_restored hk with hm | ⟨i, hi, ho⟩
    · simp at hm
    · have hm := mem_ckptEntries.mp (List.mem_of_mem_filter (List.mem_of_mem_take hi))
      exact ⟨hm.2, i, hm.1, ho⟩
  · cases h

theorem restored_other (es : List (Str × ℕ)) (m : Index) (k : Str)
    (h : ∀ e ∈ es, e.1 ≠ k) : (restored es m)[k]? = m[k]? := by
  induction es generalizing m with
  | nil => rfl
  | cons e es ih =>
    refine (ih _ fun x hx => h x (by simp [hx])).trans ?_
    rw [get_insert, if_neg (Ne.symm (h e (by simp)))]

theorem restored_mem (es : List (Str × ℕ)) (m : Index) {k : Str} {o : ℕ}
    (hd : (es.map Prod.fst).Nodup) (h : (k, o) ∈ es) :
    (restored es m)[k]? = some (o % 2^64) := by
  induction es generalizing m with
  | nil => simp at h
  | cons e es ih =>
    rw [List.map_cons, List.nodup_cons] at hd
    rcases List.mem_cons.mp h with rfl | h
    · refine (restored_other es _ k fun x hx hk => hd.1 ?_).trans ?_
      · rw [← hk]
        exact List.mem_map.mpr ⟨x, hx, rfl⟩
      · rw [get_insert, if_pos rfl]
    · exact ih _ hd.2 h

theorem ckptEntries_nodup (index : Index) : ((ckptEntries index).map Prod.fst).Nodup := by
  have hn : (index.toList.map Prod.fst).Nodup := by
    rw [Std.ExtTreeMap.map_fst_toList_eq_keys]
    exact Std.ExtTreeMap.nodup_keys
  exact hn.sublist (List.filter_sublist.map Prod.fst)

theorem flatMap_ckptEntry_length (es : List (Str × ℕ)) (h : ∀ e ∈ es, encodable e = true) :
    10*es.length ≤ (es.flatMap ckptEntry).length := by
  induction es with
  | nil => simp
  | cons e es ih =>
    have := ih fun x hx => h x (by simp [hx])
    rw [List.flatMap_cons, List.length_append, ckptEntry_encodable (h e (by simp))]
    simp at *
    omega

theorem ckptBody_length_eq (index : Index) (append : ℕ)
    (h : ∀ e ∈ ckptEntries index, encodable e = true) :
    (ckptBody index append).length =
      24+(((ckptEntries index).map Prod.fst).map fun k => 10+k.bytes.length).sum := by
  have hl : ∀ es : List (Str × ℕ), (∀ e ∈ es, encodable e = true) →
      (es.flatMap ckptEntry).length = ((es.map Prod.fst).map fun k => 10+k.bytes.length).sum := by
    intro es he
    induction es with
    | nil => rfl
    | cons e es ih =>
      rw [List.flatMap_cons, List.length_append, ih fun x hx => he x (by simp [hx]),
        ckptEntry_encodable (he e (by simp))]
      simp
      omega
  rw [ckptBody_eq, List.filter_eq_self.mpr h, List.length_append, ckptHead_length, hl _ h]

theorem parseCkpt_complete {index : Index} {append a : ℕ} {e : Index}
    (hk : ∀ (k : Str) (o : ℕ), index[k]? = some o → k.bytes.length ≤ 65535 ∧ o < 2^64)
    (hlen : (ckptBody index append).length < 2^32)
    (h : parseCkpt (ckptBody index append) = .ok (a, e)) (k : Str) (hne : k ≠ ckptKey) :
    e[k]? = index[k]? := by
  have hall : (ckptEntries index).filter encodable = ckptEntries index := by
    rw [List.filter_eq_self]
    rintro ⟨l, o⟩ hm
    simpa [encodable] using (hk l o (mem_ckptEntries.mp hm).1).1
  have hn : (ckptEntries index).length % 2^32 = (ckptEntries index).length := by
    apply Nat.mod_eq_of_lt
    have hb := flatMap_ckptEntry_length (ckptEntries index) (List.filter_eq_self.mp hall)
    rw [ckptBody_eq, hall, List.length_append] at hlen
    omega
  rw [parseCkpt_body, hall, hn, List.take_length] at h
  split at h
  · split at h
    · cases h
    cases h
    cases hi : index[k]? with
    | some o =>
      rw [restored_mem _ _ (ckptEntries_nodup index) (mem_ckptEntries.mpr ⟨hi, hne⟩),
        Nat.mod_eq_of_lt (hk k o hi).2]
    | none =>
      rw [restored_other _ _ k]
      · simp
      · rintro ⟨l, o⟩ hm rfl
        rw [(mem_ckptEntries.mp hm).1] at hi
        cases hi
  · cases h

end NeuralOs.TickvCkpt

/-! ## Mounting a log -/

namespace NeuralOs.TickvMountLog
open ByteString TickvRecord TickvState TickvStore TickvMount TickvLog TickvLogUpdate TickvImage
open TickvScanLog

/-- The last readable checkpoint, if the mount accepts it, gives the append
offset and an index of the records before it. -/
def Genuine (P : List Rec → Index → Prop) (L : List Rec) : Prop :=
  ∀ A c B, L = A ++ c::B → c.isCkpt = true → (∀ r ∈ B, r.isCkpt = false) →
    ∀ a e, parseCkpt c.val = .ok (a, e) → a = logSize A ∧ P A e

theorem lastCkpt_some {L : List Rec} {v : Bytes} (h : lastCkpt L none = some v) :
    ∃ A c B, L = A ++ c::B ∧ c.isCkpt = true ∧ c.val = v ∧ ∀ r ∈ B, r.isCkpt = false := by
  induction L using List.reverseRecOn with
  | nil => simp [lastCkpt] at h
  | append_singleton L r ih =>
    simp only [lastCkpt, List.foldl_append, List.foldl_cons, List.foldl_nil] at h
    by_cases hr : r.isCkpt = true
    · rw [if_pos hr] at h
      exact ⟨L, r, [], by simp, hr, Option.some.inj h, by simp⟩
    rw [if_neg hr] at h
    obtain ⟨A, c, B, rfl, hc, hv, hB⟩ := ih h
    refine ⟨A, c, B ++ [r], by simp, hc, hv, fun x hx => ?_⟩
    rcases List.mem_append.mp hx with hx | hx
    · exact hB x hx
    · rw [List.mem_singleton.mp hx]
      simpa using hr

section Mount
variable {f : RamFlash} {L : List Rec} {P : List Rec → Index → Prop} {R : Rec → Prop}

theorem ckptEnd_eq (hf : Holds f L) {A B : List Rec} (hL : L = A ++ B) (e : Index)
    (he : Keyed R A e) : ckptEnd f (logSize A) e = logSize A := by
  have hall : ∀ p ∈ e.toList, ∃ r, At A p.2 r := by
    intro p hp
    obtain ⟨r, hr, -⟩ := he p.1 p.2 (Std.ExtTreeMap.mem_toList_iff_getElem?_eq_some.mp hp)
    exact ⟨r, hr⟩
  unfold ckptEnd
  generalize e.toList = es at hall
  induction es with
  | nil => rfl
  | cons p es ih =>
    obtain ⟨r, hr⟩ := hall p (by simp)
    have hat : At L p.2 r := hL ▸ hr.append B
    have hsm := hf.small r hat.mem
    have hlt := hr.lt
    have hend : entryEnd f (logSize A) p.2 = logSize A := by
      unfold entryEnd
      simp only [hf.read_hdr hat, r.hdrKlen_hdr, r.hdrVlen_hdr hsm]
      split
      · rfl
      · apply max_eq_left
        unfold satAdd
        exact (min_le_left _ _).trans hlt
    rw [List.foldl_cons, hend]
    exact ih fun q hq => hall q (by simp [hq])

/-- What the checkpoint path of a mount leaves when it does not fall back. -/
structure FromCkpt (P : List Rec → Index → Prop) (L : List Rec) (index : Index) (d : Bool) :
    Prop where
  run : ∃ A c B e m, L = A ++ c::B ∧ c.isCkpt = true ∧ P A e ∧
    index = replay (B.take m) (logSize (A ++ [c])) e ∧ (d = false → m = B.length)

theorem tryMount_log (hf : Holds f L) (hg : Genuine P L)
    (hP : ∀ A e, P A e → Keyed R A e) (kv : TickvLite)
    (hk : kv.degraded = false) (polls : Option ℕ) :
    (∃ index st d p, tryMountFromCkpt f kv polls = (.ok (), { kv with
        index := index
        appendOff := if d then f.size else logSize L
        degraded := d
        stats := st }, p) ∧ FromCkpt P L index d ∧ (polls = none → d = false)) ∨
      (∃ e kv' p, tryMountFromCkpt f kv polls = (.error e, kv', p) ∧ (polls = none → p = none) ∧
        kv'.degraded = false ∧ kv'.backend = kv.backend ∧ kv'.hwLatched = kv.hwLatched) := by
  unfold tryMountFromCkpt
  simp only
  rcases ckptScan_log [] L (by simpa using hf) none polls with ⟨s, he, hs, hn⟩ | ⟨⟨s, he⟩, hn⟩
  · rw [logSize_nil] at he
    rw [he]
    simp only [hs]
    cases hv : lastCkpt L none with
    | none => exact .inr ⟨_, _, _, rfl, hn, hk, rfl, rfl⟩
    | some v =>
      obtain ⟨A, c, B, hL, hc, rfl, hB⟩ := lastCkpt_some hv
      simp only
      cases hp : parseCkpt c.val with
      | error e => exact .inr ⟨_, _, _, rfl, hn, hk, rfl, rfl⟩
      | ok ae =>
        obtain ⟨a, e⟩ := ae
        obtain ⟨rfl, hPe⟩ := hg A c B hL hc hB a e hp
        have hend := ckptEnd_eq hf hL e (hP A e hPe)
        simp only [hend]
        cases staleCheck f e with
        | error err => exact .inr ⟨_, _, _, rfl, hn, hk, rfl, rfl⟩
        | ok _ =>
          have hkey : c.key = ckptKey := by
            simp only [Rec.isCkpt, Bool.and_eq_true, decide_eq_true_eq] at hc
            exact hc.1.1
          have hnext : logSize A+recordSize ckptKey.bytes.length c.val.length =
              logSize (A ++ [c]) := by
            simp [Rec.size, hkey]
          have hL' : L = (A ++ [c]) ++ B := by simp [hL]
          obtain ⟨m, st, d, p, hr, hm, hd⟩ := scanRange_result (A ++ [c]) B (hL' ▸ hf)
            ({ kv with index := e, appendOff := logSize A } : TickvLite).recomputeLiveEstimate
            hk s.polls
          rw [hnext, hr, ← hL']
          exact .inl ⟨_, _, d, p, rfl, ⟨A, c, B, e, m, hL, hc, hPe, rfl, hm⟩, fun h => hd (hn h)⟩
  · rw [logSize_nil] at he
    rw [he]
    exact .inr ⟨_, _, _, rfl, fun h => absurd h hn, hk, rfl, rfl⟩

/-- The index that a mount builds: from a checkpoint, or from the records alone. -/
inductive Mounted (P : List Rec → Index → Prop) (L : List Rec) (index : Index) (d : Bool) : Prop
  | ckpt (h : FromCkpt P L index d)
  | scan (m : ℕ) (h : index = replay (L.take m) 0 ∅) (hm : d = false → m = L.length)

theorem mount_log {w : World} (hf : Holds w.flash L) (hg : Genuine P L)
    (hP : ∀ A e, P A e → Keyed R A e) (polls : Option ℕ) :
    ∃ w' d, mount w polls = (.ok (), w') ∧ w'.flash = w.flash ∧ w'.kv.ready = true ∧
      w'.kv.appendOff = (if d then w.flash.size else logSize L) ∧ w'.kv.degraded = d ∧
      Mounted P L w'.kv.index d ∧ (polls = none → d = false) ∧
      w'.compacting = w.compacting ∧ w'.trace = w.trace ∧ w'.kv.backend = .ram ∧
      w'.kv.hwLatched = w.kv.hwLatched ∧ w'.gcSuspended = w.gcSuspended := by
  unfold mount
  have hkv : ∃ kv, kv = ({ w.kv with backend := .ram, degraded := false } : TickvLite) := ⟨_, rfl⟩
  obtain ⟨kv, hkv⟩ := hkv
  rw [← hkv]
  have hd₀ : kv.degraded = false := by rw [hkv]
  have hb₀ : kv.backend = .ram := by rw [hkv]
  have hl₀ : kv.hwLatched = w.kv.hwLatched := by rw [hkv]
  unfold mountFrom
  rcases tryMount_log hf hg hP kv hd₀ polls with
    ⟨index, st, d, p, he, hi, hd⟩ | ⟨e, kv', p, he, hp, hd', hb', hl'⟩
  · rw [he]
    exact ⟨_, d, rfl, rfl, rfl, rfl, rfl, .ckpt hi, hd, rfl, rfl, hb₀, hl₀, by
      simp [mountReady, hb₀, Backend.slow]⟩
  · rw [he]
    obtain ⟨m, st, d, p', hr, hm, hd⟩ := recover_result hf kv' hd' p
    simp only [hr]
    exact ⟨_, d, rfl, rfl, rfl, rfl, rfl, .scan m rfl hm, fun h => hd (hp h), rfl, rfl,
      hb'.trans hb₀, hl'.trans hl₀, by simp [mountReady, hb', hb₀, Backend.slow]⟩

theorem mounted_keyed {index : Index} {d : Bool} (h : Mounted P L index d)
    (hP : ∀ A e, P A e → Keyed R A e) (hR : ∀ r ∈ L, r.live = true → r.val ≠ [] → R r) :
    Keyed R L index := by
  cases h with
  | ckpt h =>
    obtain ⟨A, c, B, e, m, rfl, -, hPe, rfl, -⟩ := h.run
    have hk := keyed_replay R (A ++ [c]) (B.take m) e ((hP A e hPe).append [c])
      fun r hr => hR r (by simp [List.mem_of_mem_take hr])
    have hl : A ++ c::B = A ++ [c] ++ B.take m ++ B.drop m := by simp
    rw [hl]
    exact hk.append _
  | scan m h _ =>
    have hk := keyed_replay R [] (L.take m) ∅ (by intro k o ho; simp at ho)
      fun r hr => hR r (List.mem_of_mem_take hr)
    rw [List.nil_append, logSize_nil, ← h] at hk
    simpa using hk.append (L.drop m)

end Mount

end NeuralOs.TickvMountLog
