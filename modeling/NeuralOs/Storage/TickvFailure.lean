import NeuralOs.Storage.TickvDurability
import NeuralOs.Storage.TickvSafety

/-!
# Failed puts

`put` clears the old record before it appends the new one, and `put_batch`
clears every old record of the batch before the first append. So a call that
runs out of space has already dropped values, and the part of a batch that
did fit stays. A failed call is invisible exactly if it had nothing to drop
and wrote nothing new.
-/

set_option autoImplicit false

namespace NeuralOs.TickvFailure
open ByteString TickvRecord TickvState TickvStore TickvMount TickvTrace TickvLog TickvLogUpdate
open TickvImage LogStore TickvSnapshot TickvContent TickvRegular TickvRefine TickvOperation
open TickvSafety TickvDurability TickvCompaction

/-- Every key but the checkpoint's reads as before, now and after a remount. -/
def Unchanged (w w' : World) : Prop :=
  ∀ k, k ≠ ckptKey → view w' k = view w k ∧ view (remount w' none) k = view (remount w none) k

section Flash
variable {w w' : World} {s : Store}

theorem holds_unique {f g : RamFlash} {L : List Rec} (hf : Holds f L) (hg : Holds g L)
    (hs : g.size = f.size) : g = f := by
  have hd : g.data = f.data := by
    rw [hf.shape, hg.shape, show g.data.length = f.data.length from hs]
  cases f
  cases g
  simpa using hd

theorem view_remount (hf : w'.flash = w.flash) (polls : Option ℕ) (k : Str) :
    view (remount w' polls) k = view (remount w polls) k := by
  have hkv : (remount w' polls).kv = (remount w polls).kv := by
    simp only [remount, mount, mountFrom, hf]
    repeat' split
    all_goals simp_all [mountReady]
  simp only [view, hkv, (remount_keeps w' polls).1, (remount_keeps w polls).1, hf]

theorem putBatch_stuck (h : Sees w s) (p : Str × Bytes) (items : List (Str × Bytes))
    (hf : s.size < s.tail+(written p).size) :
    ∃ w', putBatch w (p::items) = (.error .oob, w') ∧
      Sees w' (Store.invalidateAll (p::items) s) := by
  have h₁ := invalidateAll_sees h (p::items)
  obtain ⟨ht, hs⟩ := Store.invalidateAll_same (p::items) s
  rw [putBatch_unfold h.ready, appendAll,
    putRaw_full _ p.1 p.2 (by rw [h₁.size, h₁.tail, ht, hs]; exact hf)]
  exact ⟨_, rfl, h₁.same rfl rfl rfl rfl⟩

variable {k : Str} {v : Bytes}

theorem put_fails (h : Sees w s) (hne : (put w k v).1 ≠ .ok ()) :
    s.size < s.tail+(written (k, v)).size := by
  by_contra hle
  have h₁ := invalidateAll_sees h [(k, v)]
  obtain ⟨ht, hs⟩ := Store.invalidateAll_same [(k, v)] s
  obtain ⟨g, st, d, -, he⟩ := putRaw_room (invalidateAll [(k, v)] w) k v
    (by rw [h₁.size, h₁.tail, ht, hs]; exact not_lt.mp hle)
  rw [put_eq_putBatch, putBatch_unfold h.ready, appendAll, he] at hne
  exact hne rfl

theorem invalidate_valueless (hv : s.value k = none) :
    (s.invalidate k).recs = s.recs ∧ ∀ l, (s.invalidate k).value l = s.value l := by
  have hrecs : (s.invalidate k).recs = s.recs := by
    simp only [Store.invalidate]
    cases ho : s.index[k]? with
    | none => rfl
    | some o =>
      obtain ⟨r, ⟨A, B, hL, rfl⟩, -⟩ := s.entries k o ho
      have hdead : r.kill = r := by
        cases hl : r.live with
        | true =>
          have := Store.value_eq_some.mpr ⟨_, r, ho, ⟨A, B, hL, rfl⟩, hl, rfl⟩
          rw [hv] at this
          cases this
        | false =>
          cases r
          simp_all [Rec.kill]
      rw [Option.elim_some, hL, killAt_middle, hdead]
  refine ⟨hrecs, fun l => ?_⟩
  by_cases hl : l = k
  · rw [hl, hv]
    simp [Store.value, Store.invalidate]
  · simp only [Store.value, hrecs]
    simp only [Store.invalidate, get_erase, if_neg hl]

theorem put_unchanged_iff (h : Sees w s) (hne : (put w k v).1 ≠ .ok ()) :
    Unchanged w (put w k v).2 ↔ k = ckptKey ∨ view w k = .error .missing := by
  obtain ⟨w', he, h'⟩ := putBatch_stuck h (k, v) [] (put_fails h hne)
  rw [put_eq_putBatch, he]
  by_cases hk : k = ckptKey
  · rw [Store.invalidateAll, if_pos hk, Store.invalidateAll] at h'
    have hf := holds_unique h.holds h'.holds (h'.size.trans h.size.symm)
    refine iff_of_true (fun l _ => ⟨?_, view_remount hf none l⟩) (.inl hk)
    rw [view_sees h', view_sees h]
  rw [Store.invalidateAll, if_neg hk, Store.invalidateAll] at h'
  have hgone : view w' k = .error .missing := by
    rw [view_sees h']
    simp [Store.value, Store.invalidate]
  refine ⟨fun hu => .inr ?_, fun hm => ?_⟩
  · rw [← (hu k hk).1, hgone]
  have hv : s.value k = none := by
    rw [view_sees h] at hm
    cases hval : s.value k with
    | none => rfl
    | some u => simp [hval, hk] at hm
  obtain ⟨hrecs, hval⟩ := invalidate_valueless hv
  have hh := h'.holds
  rw [hrecs] at hh
  have hf := holds_unique h.holds hh (h'.size.trans h.size.symm)
  intro l _
  refine ⟨?_, view_remount hf none l⟩
  rw [view_sees h', view_sees h, hval]

theorem unchanged_iff_has {s' : Store} (h : Sees w s) (hr : Regular s) (h' : Sees w' s')
    (hr' : Regular s') :
    Unchanged w w' ↔ ∀ k v, Has s'.recs k v ↔ Has s.recs k v := by
  have hview : ∀ k, k ≠ ckptKey →
      (view w' k = view w k ↔ ∀ v, Has s'.recs k v ↔ Has s.recs k v) := by
    intro k hk
    have hval : (view w' k = view w k) ↔ s'.value k = s.value k := by
      rw [view_sees h', view_sees h]
      cases s'.value k <;> cases s.value k <;> simp
    rw [hval, Option.ext_iff]
    simp only [value_iff_has hr'.index hk, value_iff_has hr.index hk]
  constructor
  · intro hu k v
    by_cases hk : k = ckptKey
    · exact iff_of_false (fun hv => hv.user hk) fun hv => hv.user hk
    · exact (hview k hk).mp (hu k hk).1 v
  · intro hh k hk
    have hv := (hview k hk).mpr fun v => hh k v
    exact ⟨hv, by rw [remount_same h' hr' hk, remount_same h hr hk, hv]⟩

theorem has_unique (hr : Regular s) {u : Bytes} (hu : Has s.recs k u)
    (hv : Has s.recs k v) : u = v := by
  have h1 := (value_iff_has hr.index hu.user).mpr hu
  have h2 := (value_iff_has hr.index hu.user).mpr hv
  exact Option.some.inj (h1.symm.trans h2)

theorem afterBatch_same_iff (hr : Regular s) (items : List (Str × Bytes))
    (hd : (items.map Prod.fst).Nodup) :
    (∀ k v, AfterBatch s items k v ↔ Has s.recs k v) ↔
      ∀ p ∈ items, if p ∈ fitting items s.tail s.size then Has s.recs p.1 p.2
        else ∀ v, ¬ Has s.recs p.1 v := by
  have hsub := (Store.fitting_initial items s.tail s.size).subset
  have hone : ∀ p ∈ items, ∀ v, (p.1, v) ∈ items → p = (p.1, v) := fun p hp v hv =>
    List.inj_on_of_nodup_map hd hp hv rfl
  constructor
  · intro h p hp
    split
    · next hf => exact (h p.1 p.2).mp (.inl hf)
    next hf =>
    intro v hv
    rcases (h p.1 v).mpr hv with hm | ⟨hn, -⟩
    · rw [hone p hp v (hsub hm)] at hf
      exact hf hm
    · exact hn (List.mem_map_of_mem hp)
  · intro h k v
    constructor
    · rintro (hm | ⟨-, hv⟩)
      · have := h (k, v) (hsub hm)
        rwa [if_pos hm] at this
      · exact hv
    intro hv
    by_cases hk : k ∈ items.map Prod.fst
    · obtain ⟨p, hp, rfl⟩ := List.mem_map.mp hk
      have hc := h p hp
      split at hc
      · next hf =>
        rw [← has_unique hr hc hv]
        exact .inl hf
      · exact absurd hv (hc v)
    · exact .inr ⟨hk, hv⟩

theorem putBatch_unchanged_iff (h : Running w s) (hr : Regular s) (items : List (Str × Bytes))
    (hd : (items.map Prod.fst).Nodup) (hp : ∀ p ∈ items, PlainItem p)
    (hs : ShortWrites (putBatch w items).2) (hne : (putBatch w items).1 ≠ .ok ()) :
    Unchanged w (putBatch w items).2 ↔
      ∀ p ∈ items, if p ∈ fitting items w.kv.appendOff w.flash.size then view w p.1 = .ok p.2
        else view w p.1 = .error .missing := by
  have hb : (batch s items).1 = false := by
    cases hb : (batch s items).1 with
    | false => rfl
    | true =>
      obtain ⟨w', b, s', he, -⟩ := putBatch_room h.toSees h.idle h.fast (.inr hr.tail) items hs hb
      rw [he] at hne
      exact absurd rfl hne
  obtain ⟨e, w', he, h', -⟩ := putBatch_full h.toSees items hs hb
  obtain ⟨hr', hh⟩ := regular_batch hr items hd hp
  rw [he, unchanged_iff_has h.toSees hr h' hr', h.tail, h.size]
  have hafter : (∀ k v, Has (batch s items).2.recs k v ↔ Has s.recs k v) ↔
      ∀ k v, AfterBatch s items k v ↔ Has s.recs k v :=
    forall_congr' fun k => forall_congr' fun v => by rw [hh k v, AfterBatch]
  rw [hafter, afterBatch_same_iff hr items hd]
  refine forall₂_congr fun p hp' => ?_
  have hu := (hp p hp').user
  split
  · rw [view_sees h.toSees, ← value_iff_has hr.index hu]
    cases s.value p.1 <;> simp
  · rw [view_sees h.toSees]
    simp only [← value_iff_has hr.index hu]
    cases s.value p.1 <;> simp

end Flash

theorem run_size (w : World) (h : w.compacting = false) (ops : List Op) :
    (run w ops).flash.size = w.flash.size := by
  induction ops generalizing w with
  | nil => rfl
  | cons op ops ih =>
    obtain ⟨hs, hc, -⟩ := step_keeps h op
    exact (ih (step w op) hc).trans hs

theorem run_aligned (n : ℕ) (h : n < 2^63) (ops : List Op)
    (hd : 512 ∣ n ∨ ∀ op ∈ ops, PlainOp op) (hf : NoForgery ops)
    (hw : ShortWrites (run (start n h) ops)) (hn : Renews (run (start n h) ops)) :
    ∃ s, Running (run (start n h) ops) s ∧ Aligned s := by
  have hstart := (start_running n h).1
  rcases hd with hd | hp
  · obtain ⟨s, hs, -⟩ := run_safe ops [] hstart hd (start_safe n h) hf hw hn
    have hsz : s.size = n := by
      rw [← hs.size, run_size _ hstart.idle, hstart.size]
      rfl
    exact ⟨s, hs, .inl (hsz ▸ hd)⟩
  · obtain ⟨s, hs, hr⟩ := run_regular ops hstart (regular_empty n h) hp hw hn
    exact ⟨s, hs, .inr hr.tail⟩

/-- When a failed call is invisible, in the states that runs reach: a put of any
key and value, if the key had no value; a batch within the limits, if the items
that were written repeat the values of their keys and the other keys had none. -/
theorem failed_put_unchanged_iff (n : ℕ) (h : n < 2^63) (ops : List Op)
    (hd : 512 ∣ n ∨ ∀ op ∈ ops, PlainOp op) (hw : ShortWrites (run (start n h) ops))
    (hn : Renews (run (start n h) ops)) :
    (NoForgery ops → ∀ k v, (put (run (start n h) ops) k v).1 ≠ .ok () →
      (Unchanged (run (start n h) ops) (put (run (start n h) ops) k v).2 ↔
        k = ckptKey ∨ view (run (start n h) ops) k = .error .missing)) ∧
    ((∀ op ∈ ops, PlainOp op) → ∀ items : List (Str × Bytes), (items.map Prod.fst).Nodup →
      (∀ p ∈ items, PlainItem p) → ShortWrites (putBatch (run (start n h) ops) items).2 →
      (putBatch (run (start n h) ops) items).1 ≠ .ok () →
      (Unchanged (run (start n h) ops) (putBatch (run (start n h) ops) items).2 ↔
        ∀ p ∈ items,
          if p ∈ fitting items (run (start n h) ops).kv.appendOff (run (start n h) ops).flash.size
          then view (run (start n h) ops) p.1 = .ok p.2
          else view (run (start n h) ops) p.1 = .error .missing)) := by
  refine ⟨fun hf k v hne => ?_, fun hp items hdist hplain hs hne => ?_⟩
  · obtain ⟨s, hs, -⟩ := run_aligned n h ops hd hf hw hn
    exact put_unchanged_iff hs.toSees hne
  · obtain ⟨s, hrun, hr⟩ := run_regular ops (start_running n h).1 (regular_empty n h) hp hw hn
    exact putBatch_unchanged_iff hrun hr items hdist hplain hs hne

/-- One record fills the volume; the second put of its key loses the first value. -/
theorem overwrite_loses_value :
    view (run (start 512 (by decide)) [.put keyA [1]]) keyA = .ok [1] ∧
      (put (run (start 512 (by decide)) [.put keyA [1]]) keyA [2]).1 = .error .oob ∧
      view (put (run (start 512 (by decide)) [.put keyA [1]]) keyA [2]).2 keyA =
        .error .missing := by
  decide +kernel

def fullOps : List Op := [.put keyA [1], .put keyB [2], .delete keyB]

theorem failed_put_unchanged_sample :
    (put (run (start 1024 (by decide)) fullOps) keyB [3]).1 = .error .oob ∧
      Unchanged (run (start 1024 (by decide)) fullOps)
        (put (run (start 1024 (by decide)) fullOps) keyB [3]).2 := by
  have hrun : ShortWrites (run (start 1024 (by decide)) fullOps) ∧
      (run (start 1024 (by decide)) fullOps).trace.all roomyEvent = true ∧
      (put (run (start 1024 (by decide)) fullOps) keyB [3]).1 = .error .oob ∧
      view (run (start 1024 (by decide)) fullOps) keyB = .error .missing := by decide +kernel
  obtain ⟨hw, hn, he, hv⟩ := hrun
  have hf : NoForgery fullOps := by
    have hb : keyB ≠ ckptKey := by decide
    have ha : keyA ≠ ckptKey := by decide
    simp [NoForgery, fullOps, Op.items, Rejected, ha, hb]
  refine ⟨he, ((failed_put_unchanged_iff 1024 (by decide) fullOps (.inl (by decide)) hw
    fun f kv hm _ => roomy_of_mem hn hm).1 hf keyB [3] (by rw [he]; simp)).mpr (.inr hv)⟩

end NeuralOs.TickvFailure
