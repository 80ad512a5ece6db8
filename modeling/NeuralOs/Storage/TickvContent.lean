import NeuralOs.Storage.TickvOperation

/-!
# The content of a log

What a log says by itself: a key has the value of its live record. In a tidy
log that record is the last word on its key, so replaying the log finds it,
and replaying the records behind any index of an initial part finds it too.
-/

set_option autoImplicit false

namespace NeuralOs.TickvSnapshot
open ByteString TickvRecord TickvState TickvStore TickvLog TickvLogUpdate LogStore TickvRefine
open TickvCompaction TickvMount TickvMountLog TickvOperation TickvCkpt

section Logs
variable {P Q : List Rec → Index → Prop} {L L' : List Rec}

theorem genuine_nil : Genuine P [] := by
  intro A c B h
  simp at h

theorem genuine_mono (h : Genuine P L) (hPQ : ∀ A e, P A e → Q A e) : Genuine Q L := by
  intro A c B hL hc hB a e he
  obtain ⟨ha, hP⟩ := h A c B hL hc hB a e he
  exact ⟨ha, hPQ A e hP⟩

theorem genuine_killed (h : Genuine P L) (hk : Killed L L')
    (hP : ∀ A A' e, Killed A A' → P A e → P A' e) : Genuine P L' := by
  rintro A' c' B' rfl hc hB a e he
  obtain ⟨A, c, B, rfl, hA, hcc, hBB⟩ := hk.around
  have hcv : c'.isCkpt = c.isCkpt ∧ c'.val = c.val := by
    rcases hcc with rfl | rfl <;> exact ⟨rfl, rfl⟩
  have hB' : ∀ r ∈ B, r.isCkpt = false := by
    intro r hr
    obtain ⟨r', hr', rfl | rfl⟩ := Killed.mem hBB hr
    · exact hB _ hr'
    · exact hB r.kill hr'
  rw [hcv.1] at hc
  rw [hcv.2] at he
  obtain ⟨ha, hPe⟩ := h A c B rfl hc hB' a e he
  exact ⟨ha.trans (Killed.logSize_eq hA).symm, hP A A' e hA hPe⟩

/-- What an appended record has to satisfy if a mount would take it for a checkpoint. -/
def Describes (P : List Rec → Index → Prop) (L : List Rec) (v : Bytes) : Prop :=
  ∀ a e, parseCkpt v = .ok (a, e) → a = logSize L ∧ P L e

theorem genuine_append {r : Rec} (h : Genuine P L) (hr : r.isCkpt = true → Describes P L r.val) :
    Genuine P (L ++ [r]) := by
  intro A c B hL hc hB a e he
  rcases List.eq_nil_or_concat' B with rfl | ⟨B', x, rfl⟩
  · obtain ⟨rfl, rfl⟩ : L = A ∧ r = c := by simpa using List.append_inj' hL rfl
    exact hr hc a e he
  · rw [← List.cons_append, ← List.append_assoc] at hL
    obtain ⟨rfl, hx⟩ := List.append_inj' hL rfl
    exact h A c B' rfl hc (fun y hy => hB y (by simp [hy])) a e he

theorem genuine_last {c : Rec} (hc : c.isCkpt = true) (hr : Describes P L c.val) :
    Genuine P (L ++ [c]) := by
  intro A d B hL hd hB a e he
  rcases List.eq_nil_or_concat' B with rfl | ⟨B', x, rfl⟩
  · obtain ⟨rfl, rfl⟩ : L = A ∧ c = d := by simpa using List.append_inj' hL rfl
    exact hr a e he
  · rw [← List.cons_append, ← List.append_assoc] at hL
    obtain ⟨-, hx⟩ := List.append_inj' hL rfl
    obtain rfl : c = x := by simpa using hx
    rw [hB c (by simp)] at hc
    cases hc

end Logs

def reopen (f : RamFlash) (kv : TickvLite) : World := { World.boot f with kv := kv }

/-- The live set holds a checkpoint that a mount would accept. -/
def Carried (f : RamFlash) (kv : TickvLite) : Prop :=
  ∃ v a e, view (reopen f kv) ckptKey = .ok v ∧ v.length ≤ maxVlen ∧ parseCkpt v = .ok (a, e)

def nextCkpt (f : RamFlash) (kv : TickvLite) : Bytes :=
  ckptBody (place (liveOf (reopen f kv)) 0 ∅) (logSize ((liveOf (reopen f kv)).map written))

def NextFits (f : RamFlash) (kv : TickvLite) : Prop :=
  logSize ((liveOf (reopen f kv) ++ [(ckptKey, nextCkpt f kv)]).map written) ≤ f.size

/-- Every compaction of the history that carries a checkpoint over leaves a
newer one that the next mount finds. -/
def Renews (w : World) : Prop :=
  ∀ f kv, .compactStart f kv ∈ w.trace → Carried f kv →
    NextFits f kv ∧ (nextCkpt f kv).length ≤ maxVlen

/-- A compaction with room for the live set and a checkpoint of its index. -/
def roomyEvent : Event → Bool
  | .compactStart f kv => decide (logSize ((liveOf (reopen f kv) ++
      [(ckptKey, nextCkpt f kv)]).map written) ≤ f.size) &&
      decide ((nextCkpt f kv).length ≤ maxVlen)
  | _ => true

theorem roomy_of_mem {es : List Event} (h : es.all roomyEvent = true) {f : RamFlash}
    {kv : TickvLite} (hm : .compactStart f kv ∈ es) :
    NextFits f kv ∧ (nextCkpt f kv).length ≤ maxVlen := by
  have he := List.all_eq_true.mp h _ hm
  simpa [roomyEvent, NextFits] using he

def Accepts (s : Store) : Prop :=
  ∃ v a e, s.value ckptKey = some v ∧ v.length ≤ maxVlen ∧ parseCkpt v = .ok (a, e)

section Compaction
variable {w : World} {s : Store}

theorem reopen_sees (h : Sees w s) : Sees (reopen w.flash w.kv) s := h.same rfl rfl rfl rfl

theorem carried_sees (h : Sees w s) : Carried w.flash w.kv ↔ Accepts s := by
  unfold Carried Accepts
  rw [view_sees (reopen_sees h)]
  cases s.value ckptKey with
  | none => simp
  | some v => simp

theorem describes_ckpt {R : Rec → Prop} (hk : Keyed R s.recs s.index)
    (ht : s.tail = logSize s.recs) : Describes (Keyed R) s.recs (ckptBody s.index s.tail) := by
  intro a e he
  obtain ⟨ha, hs⟩ := parseCkpt_sound he
  refine ⟨by rw [ha, Nat.mod_eq_of_lt s.tail_lt, ht], fun k o ho => ?_⟩
  obtain ⟨-, i, hi, rfl⟩ := hs k o ho
  rw [Nat.mod_eq_of_lt (s.entry_lt hi)]
  exact hk k i hi

theorem genuine_rejected {P : List Rec → Index → Prop} {L : List Rec}
    (h : ∀ r ∈ L, r.isCkpt = true → ∀ a e, parseCkpt r.val ≠ .ok (a, e)) : Genuine P L := by
  intro A c B hL hc _ a e he
  exact absurd he (h c (by simp [hL]) hc a e)

theorem isCkpt_iff (r : Rec) :
    r.isCkpt = true ↔ r.key = ckptKey ∧ 24 ≤ r.val.length ∧ r.val.length ≤ maxVlen := by
  have hk : ckptKey.bytes.length ≤ maxKlen := by decide
  simp only [Rec.isCkpt, Rec.big, Bool.and_eq_true, decide_eq_true_eq, Bool.not_eq_true',
    oversized_false_iff]
  constructor
  · rintro ⟨⟨h1, h2⟩, -, h3⟩
    exact ⟨h1, h2, h3⟩
  · rintro ⟨h1, h2, h3⟩
    exact ⟨⟨h1, h2⟩, by rw [h1]; exact hk, h3⟩

theorem genuine_compact {P : List Rec → Index → Prop} (h512 : 512 ≤ s.size)
    (hd : s.rewrite.2.ckpt.2.length ≤ maxVlen → Describes P s.rewrite.2.recs s.rewrite.2.ckpt.2)
    (hc : Accepts s → s.compact.1 = true ∧ s.rewrite.2.ckpt.2.length ≤ maxVlen) :
    Genuine P s.compact.2.recs := by
  -- without an accepted checkpoint in the live set there is none in the rewritten log
  have hold : ¬ Accepts s → Genuine P s.rewrite.2.recs := by
    intro hn
    apply genuine_rejected
    rw [s.rewrite_eq.2.1]
    intro r hr hrc a e he
    obtain ⟨p, hp, rfl⟩ := List.mem_map.mp hr
    obtain ⟨hk, -, hv⟩ := (isCkpt_iff _).mp hrc
    have hl := (Store.mem_live.mp hp).1
    rw [show p.1 = ckptKey from hk] at hl
    exact hn ⟨p.2, a, e, hl, hv, he⟩
  rw [Store.compact_eq h512] at hc ⊢
  rcases s.rewrite.2.writeCkpt_cases with ⟨hf, he, -⟩ | ⟨hf, he⟩
  · rw [he]
    refine hold fun ha => ?_
    rw [(hc ha).1] at hf
    cases hf
  · rw [he] at hc ⊢
    by_cases ha : Accepts s
    · exact genuine_last ((isCkpt_iff _).mpr ⟨rfl, ckptBody_length _ _, (hc ha).2⟩)
        (hd (hc ha).2)
    · exact genuine_append (hold ha) fun hr => hd ((isCkpt_iff _).mp hr).2.2

theorem nextCkpt_sees (h : Sees w s) : nextCkpt w.flash w.kv = s.rewrite.2.ckpt.2 := by
  obtain ⟨-, -, hi, ht, -⟩ := s.rewrite_eq
  rw [nextCkpt, liveOf_sees (reopen_sees h), Store.ckpt, hi, ht]

theorem nextFits_sees (h : Sees w s) (h512 : 512 ≤ s.size) :
    NextFits w.flash w.kv ↔ s.compact.1 = true := by
  rw [NextFits, nextCkpt, liveOf_sees (reopen_sees h), h.size, Store.compact_fits_iff h512]

theorem compact_renewed (h : Sees w s) (h512 : 512 ≤ s.size)
    (hn : Carried w.flash w.kv → (s.compact.1 = true ∨ NextFits w.flash w.kv) ∧
      (nextCkpt w.flash w.kv).length ≤ maxVlen) :
    Accepts s → s.compact.1 = true ∧ s.rewrite.2.ckpt.2.length ≤ maxVlen := by
  intro ha
  obtain ⟨hfit, hlen⟩ := hn ((carried_sees h).mpr ha)
  rw [nextFits_sees h h512, or_self] at hfit
  rw [nextCkpt_sees h] at hlen
  exact ⟨hfit, hlen⟩

end Compaction

end NeuralOs.TickvSnapshot

/-! ## The content of a log -/

namespace NeuralOs.TickvContent
open ByteString TickvRecord TickvState TickvStore TickvMount TickvLog TickvLogUpdate LogStore
open TickvMountLog TickvCkpt TickvSnapshot

/-- A live record with a value, under a key that is not the checkpoint's. -/
structure Current (r : Rec) : Prop where
  live : r.live = true
  user : r.key ≠ ckptKey
  some : r.val ≠ []

def Has (L : List Rec) (k : Str) (v : Bytes) : Prop := ∃ r ∈ L, Current r ∧ r.key = k ∧ r.val = v

/-- Nothing of a key follows its current record, and the scanners read every record. -/
structure Tidy (L : List Rec) : Prop where
  small : ∀ r ∈ L, r.key ≠ ckptKey → r.big = false
  once : ∀ A r B, L = A ++ r::B → Current r → ∀ x ∈ B, x.live = true → x.key ≠ r.key

/-- An index of the log: it names every current record, and no entry but the
checkpoint's stands at a tombstone. -/
structure Indexes (L : List Rec) (e : Index) : Prop where
  found : ∀ o r, At L o r → Current r → e[r.key]? = .some o
  keyed : Keyed (fun r => r.key ≠ ckptKey → r.val ≠ []) L e

section Logs
variable {L L' A B : List Rec} {r : Rec} {e : Index} {k : Str} {v : Bytes}

theorem Has.user (h : Has L k v) : k ≠ ckptKey := by
  obtain ⟨r, -, hc, rfl, -⟩ := h
  exact hc.user

theorem Has.nonempty (h : Has L k v) : v ≠ [] := by
  obtain ⟨r, -, hc, -, rfl⟩ := h
  exact hc.some

@[simp] theorem not_has_nil : ¬ Has [] k v := by
  rintro ⟨r, hr, -⟩
  simp at hr

theorem has_append_iff : Has (L ++ [r]) k v ↔ Has L k v ∨ Current r ∧ r.key = k ∧ r.val = v := by
  simp only [Has, List.mem_append, List.mem_singleton]
  constructor
  · rintro ⟨x, hx | rfl, h⟩
    · exact .inl ⟨x, hx, h⟩
    · exact .inr h
  · rintro (⟨x, hx, h⟩ | h)
    · exact ⟨x, .inl hx, h⟩
    · exact ⟨r, .inr rfl, h⟩

theorem tidy_nil : Tidy [] := ⟨by simp, by intro A r B h; simp at h⟩

theorem tidy_append (h : Tidy L) (hs : r.key ≠ ckptKey → r.big = false)
    (hn : ∀ v, ¬ Has L r.key v) : Tidy (L ++ [r]) where
  small := by
    intro x hx hk
    rcases List.mem_append.mp hx with hx | hx
    · exact h.small x hx hk
    · rw [List.mem_singleton.mp hx] at hk ⊢
      exact hs hk
  once := by
    intro A x B hL hc y hy hl
    rcases List.eq_nil_or_concat' B with rfl | ⟨B', z, rfl⟩
    · simp at hy
    rw [← List.cons_append, ← List.append_assoc] at hL
    obtain ⟨rfl, hz⟩ := List.append_inj' hL rfl
    obtain rfl : r = z := by simpa using hz
    rcases List.mem_append.mp hy with hy | hy
    · exact h.once A x B' rfl hc y hy hl
    · rw [List.mem_singleton.mp hy]
      intro hk
      exact hn x.val ⟨x, by simp, hc, hk.symm, rfl⟩

theorem live_of_killed {x y : Rec} (h : y = x ∨ y = x.kill) (hl : y.live = true) : y = x := by
  rcases h with rfl | rfl
  · rfl
  · exact absurd hl (by simp)

theorem tidy_killed (h : Tidy L) (hk : Killed L L') : Tidy L' where
  small := by
    intro x hx hu
    obtain ⟨i, j, rfl⟩ := List.append_of_mem hx
    obtain ⟨A, y, B, rfl, -, hy, -⟩ := hk.around
    rcases hy with rfl | rfl
    · exact h.small _ (by simp) hu
    · exact h.small y (by simp) hu
  once := by
    rintro A' r' B' rfl hc x hx hl
    obtain ⟨A, r, B, rfl, -, hr, hB⟩ := hk.around
    obtain rfl := live_of_killed hr hc.live
    obtain ⟨i, j, rfl⟩ := List.append_of_mem hx
    obtain ⟨B₁, y, B₂, rfl, -, hy, -⟩ := Killed.around hB
    obtain rfl := live_of_killed hy hl
    exact h.once A r' _ rfl hc x (by simp) hl

theorem not_has_before (h : Tidy (A ++ r::B)) (hl : r.live = true) (v : Bytes) :
    ¬ Has A r.key v := by
  rintro ⟨x, hx, hc, hk, -⟩
  obtain ⟨A₁, A₂, rfl⟩ := List.append_of_mem hx
  exact h.once A₁ x (A₂ ++ r::B) (by simp) hc r (by simp) hl hk.symm

theorem indexes_nil : Indexes [] ∅ :=
  ⟨by rintro o r ⟨A, B, hl, -⟩; simp at hl, by intro k o h; simp at h⟩

theorem indexes_skip (h : Indexes L e) (hr : ¬ Current r) : Indexes (L ++ [r]) e where
  found := by
    intro o x hx hc
    rcases at_concat_iff.mp hx with hx | ⟨-, rfl⟩
    · exact h.found o x hx hc
    · exact absurd hc hr
  keyed := h.keyed.append _

theorem indexes_erase (h : Indexes L e) (hn : ∀ v, ¬ Has L k v) : Indexes L (e.erase k) where
  found := by
    intro o x hx hc
    rw [get_erase, if_neg, h.found o x hx hc]
    rintro rfl
    exact hn x.val ⟨x, hx.mem, hc, rfl, rfl⟩
  keyed := h.keyed.erase k

theorem indexes_insert (h : Indexes L e) (hn : ∀ v, ¬ Has L r.key v)
    (hv : r.key ≠ ckptKey → r.val ≠ []) : Indexes (L ++ [r]) (e.insert r.key (logSize L)) where
  found := by
    intro o x hx hc
    rw [get_insert]
    rcases at_concat_iff.mp hx with hx | ⟨rfl, rfl⟩
    · rw [if_neg, h.found o x hx hc]
      intro hk
      exact hn x.val ⟨x, hx.mem, hc, hk, rfl⟩
    · rw [if_pos rfl]
  keyed := (h.keyed.append _).insert ⟨L, [], rfl, rfl⟩ hv

theorem indexes_killed (h : Indexes L e) (hk : Killed L L') : Indexes L' e where
  found := by
    rintro o r' ⟨A', B', rfl, rfl⟩ hc
    obtain ⟨A, r, B, rfl, hA, hr, -⟩ := hk.around
    obtain rfl := live_of_killed hr hc.live
    exact h.found _ r' ⟨A, B, rfl, hA.logSize_eq⟩ hc
  keyed := hk.keyed h.keyed fun _ hx => hx

theorem indexes_apply (ht : Tidy (A ++ r::B)) (h : Indexes A e) :
    Indexes (A ++ [r]) (r.apply e (logSize A)) := by
  unfold Rec.apply
  split
  · next hl =>
    refine indexes_skip h fun hc => ?_
    rw [hc.live, ht.small r (by simp) hc.user] at hl
    cases hl
  next hl =>
  have hlive : r.live = true := by
    cases hr : r.live
    · simp [hr] at hl
    · rfl
  have hn := not_has_before ht hlive
  split
  · next hv =>
    refine indexes_erase (indexes_skip h fun hc => hc.some hv) fun v hh => ?_
    rcases has_append_iff.mp hh with hh | ⟨hc, -⟩
    · exact hn v hh
    · exact hc.some hv
  · next hv => exact indexes_insert h hn fun _ => hv

theorem indexes_replay (A B : List Rec) (e : Index) (ht : Tidy (A ++ B)) (h : Indexes A e) :
    Indexes (A ++ B) (replay B (logSize A) e) := by
  induction B generalizing A e with
  | nil => simpa [replay] using h
  | cons r B ih =>
    have hsz : logSize A+r.size = logSize (A ++ [r]) := by simp
    have := ih (A ++ [r]) _ (by simpa using ht) (indexes_apply ht h)
    rw [replay, hsz]
    simpa using this

theorem mounted_indexes (ht : Tidy L) (hm : Mounted Indexes L e false) : Indexes L e := by
  cases hm with
  | ckpt h =>
    obtain ⟨A, c, B, e₀, m, rfl, hc, hP, rfl, hm⟩ := h.run
    have hskip : Indexes (A ++ [c]) e₀ :=
      indexes_skip hP fun hcur => hcur.user ((isCkpt_iff c).mp hc).1
    have hr := indexes_replay (A ++ [c]) B e₀ (by simpa using ht) hskip
    rw [hm rfl, List.take_length]
    simpa using hr
  | scan m h hm =>
    have hr := indexes_replay [] L ∅ (by simpa using ht) indexes_nil
    rw [h, hm rfl, List.take_length]
    simpa using hr

theorem has_killAt_iff {o : ℕ} (h : Indexes L e) (ho : e[k]? = .some o) {l : Str} :
    Has (killAt o L) l v ↔ l ≠ k ∧ Has L l v := by
  constructor
  · rintro ⟨x, hx, hc, rfl, rfl⟩
    obtain ⟨A, B, hl⟩ := List.append_of_mem hx
    obtain ⟨r, hr, he⟩ := at_killAt_iff.mp (⟨A, B, hl, rfl⟩ : At (killAt o L) (logSize A) x)
    split at he
    · rw [he] at hc
      exact absurd hc.live (by simp)
    next hne =>
    obtain rfl := he
    refine ⟨?_, x, hr.mem, hc, rfl, rfl⟩
    rintro rfl
    rw [h.found _ x hr hc] at ho
    exact hne (Option.some.inj ho)
  · rintro ⟨hlk, r, hr, hc, rfl, rfl⟩
    obtain ⟨A, B, rfl⟩ := List.append_of_mem hr
    have hat : At (A ++ r::B) (logSize A) r := ⟨A, B, rfl, rfl⟩
    have hne : logSize A ≠ o := by
      rintro rfl
      obtain ⟨x, hx, hk, -⟩ := h.keyed k _ ho
      rw [← hat.unique hx] at hk
      exact hlk hk
    exact ⟨r, (at_killAt_iff.mpr ⟨r, hat, by rw [if_neg hne]⟩).mem, hc, rfl, rfl⟩

end Logs

section Stores
variable {s : Store} {k : Str} {v : Bytes}

theorem has_of_value (h : s.value k = some v) (hk : k ≠ ckptKey) (hv : v ≠ []) :
    Has s.recs k v := by
  obtain ⟨o, r, ho, hr, hl, rfl⟩ := Store.value_eq_some.mp h
  obtain ⟨x, hx, rfl, -⟩ := s.entries k o ho
  obtain rfl := hr.unique hx
  exact ⟨r, hr.mem, ⟨hl, hk, hv⟩, rfl, rfl⟩

theorem value_iff_has (h : Indexes s.recs s.index) (hk : k ≠ ckptKey) :
    s.value k = some v ↔ Has s.recs k v := by
  rw [Store.value_eq_some]
  constructor
  · rintro ⟨o, r, ho, hr, hl, rfl⟩
    obtain ⟨x, hx, rfl, hv⟩ := h.keyed k o ho
    obtain rfl := hr.unique hx
    exact ⟨r, hr.mem, ⟨hl, hk, hv hk⟩, rfl, rfl⟩
  · rintro ⟨r, hr, hc, rfl, rfl⟩
    obtain ⟨A, B, hl⟩ := List.append_of_mem hr
    have hat : At s.recs (logSize A) r := ⟨A, B, hl, rfl⟩
    exact ⟨_, r, h.found _ r hat hc, hat, hc.live, rfl⟩

theorem describes_indexes (h : Indexes s.recs s.index) (hs : Tidy s.recs)
    (ht : s.tail = logSize s.recs) (hlen : (ckptBody s.index s.tail).length ≤ maxVlen) :
    Describes Indexes s.recs (ckptBody s.index s.tail) := by
  intro a e he
  obtain ⟨ha, hsound⟩ := parseCkpt_sound he
  have hkeys : ∀ (k : Str) (o : ℕ), s.index[k]? = some o → k.bytes.length ≤ 65535 ∧ o < 2^64 := by
    intro k o ho
    refine ⟨?_, s.entry_lt ho⟩
    by_cases hk : k = ckptKey
    · rw [hk]
      decide
    · obtain ⟨r, hr, rfl, -⟩ := h.keyed k o ho
      have hb := ((oversized_false_iff).mp (hs.small r hr.mem hk)).1
      unfold maxKlen at hb
      omega
  have hsame := parseCkpt_complete hkeys (by unfold maxVlen at hlen; omega) he
  refine ⟨by rw [ha, Nat.mod_eq_of_lt s.tail_lt, ht], fun o r hr hc => ?_, fun k o ho => ?_⟩
  · rw [hsame r.key hc.user]
    exact h.found o r hr hc
  · have hk := (hsound k o ho).1
    rw [hsame k hk] at ho
    exact h.keyed k o ho

end Stores

end NeuralOs.TickvContent
